import IntChain.Epoch.ValidatorSet

/-!
# The epoch switch

`consensus/ipbft/epoch/epoch.go`: `ShouldEnterNewEpoch`, `updateEpochValidatorSet` and
`DryRunUpdateEpochValidatorSet`. At the end block of an epoch the switch

1. refunds the pending refunds of every candidate in the delegate refund set,
2. recomputes the voting power of the current validators from the ledger, dropping those with
   none, and merges the next epoch's votes (`updateEpochValidatorSet`),
3. moves the proxied amounts of the new validators that are candidates to deposit proxied,
4. pays out the refunds: a reduced vote returns the difference from `DepositBalance`, a
   knocked-out validator gets its whole deposit back and its delegators' deposits become
   proxied again.

`sort.Slice` is not stable, and which of two validators with equal remaining epochs and equal
power it puts first is an accident of its algorithm; it is a parameter `sortSlice` here. Step 1
ranges over the refund set, a Go map, whose iteration order is unspecified: the order is a
parameter `rangeOrder`, which Go's `range` makes a permutation of the set.
-/

namespace IntChain

/-- The fields of `Epoch` that the switch and the validators' checks read. -/
structure Epoch (α κ : Type) where
  number : Nat
  rewardPerBlock : Int
  startBlock : Nat
  endBlock : Nat
  validators : List (Validator α κ)
  validatorVoteSet : Option (EpochValidatorVoteSet α κ) := none
  deriving Repr

/-- Errors of the epoch switch. -/
inductive EpochError
  | nextEpochNotExist
  deriving DecidableEq, Repr

/-- `MinimumValidatorsSize` and `MaximumValidatorsSize`. -/
def minimumValidatorsSize : Nat := 13
def maximumValidatorsSize : Nat := 25

variable {α κ : Type} [DecidableEq α]

/-- The loop over `newValidators.Validators` that removes a validator with zero recomputed
power and decrements `i`, and gives every other one its recomputed power. Every pass either
removes the validator at `i` or moves past it, so the initial length is enough fuel. -/
def refreshVotingPower (power : α → Int) : Nat → Nat → List (Validator α κ) → List (Validator α κ)
  | 0, _, vals => vals
  | fuel + 1, i, vals =>
    match vals[i]? with
    | none => vals
    | some v =>
      if power v.address = 0 then
        refreshVotingPower power fuel i (ValidatorSet.remove vals v.address).1
      else
        refreshVotingPower power fuel (i + 1) (vals.set i { v with votingPower := power v.address })

/-- The addresses whose power the loop of `refreshVotingPower` reads from the state, pass by
pass. -/
def refreshVotingPowerVisits (power : α → Int) : Nat → Nat → List (Validator α κ) → List α
  | 0, _, _ => []
  | fuel + 1, i, vals =>
    match vals[i]? with
    | none => []
    | some v =>
      v.address :: if power v.address = 0 then
        refreshVotingPowerVisits power fuel i (ValidatorSet.remove vals v.address).1
      else
        refreshVotingPowerVisits power fuel (i + 1) (vals.set i { v with votingPower := power v.address })

/-- One vote of `updateEpochValidatorSet`: the refunds so far, the validators, and the count
of added validators. -/
def processVote (acc : List (RefundValidatorAmount α) × List (Validator α κ) × Nat)
    (v : EpochValidatorVote α κ) : List (RefundValidatorAmount α) × List (Validator α κ) × Nat :=
  let (refund, vals, newValSize) := acc
  -- an unrevealed vote has no salt
  if v.salt = "" then acc
  else
    match ValidatorSet.getByAddress vals v.address with
    | none =>
      let (vals', added) := ValidatorSet.add vals (Validator.new v.address v.pubKey v.amount)
      (refund, vals', if added then newValSize + 1 else newValSize)
    | some (_, validator) =>
      if v.amount = 0 then
        match ValidatorSet.remove vals validator.address with
        | (vals', some _) => (refund ++ [⟨v.address, validator.votingPower, false⟩], vals', newValSize)
        | (vals', none) => (refund, vals', newValSize)
      else
        let refund' :=
          if v.amount < validator.votingPower then
            refund ++ [⟨v.address, validator.votingPower - v.amount, false⟩]
          else refund
        ((refund'), (ValidatorSet.update vals { validator with votingPower := v.amount }).1,
          newValSize)

/-- The order of the knock-out sort: more remaining epochs first, then more voting power. -/
def knockoutBefore (a b : Validator α κ) : Bool :=
  if a.remainingEpoch = b.remainingEpoch then decide (b.votingPower < a.votingPower)
  else decide (b.remainingEpoch < a.remainingEpoch)

/-- `updateEpochValidatorSet`. It never returns an error. -/
def updateEpochValidatorSet
    (sortSlice : (Validator α κ → Validator α κ → Bool) → List (Validator α κ) → List (Validator α κ))
    (validators : List (Validator α κ)) (voteSet : EpochValidatorVoteSet α κ) :
    List (RefundValidatorAmount α) × List (Validator α κ) :=
  let oldValSize := validators.length
  let (refund, vals, newValSize) := voteSet.votes.foldl processVote ([], validators, 0)
  let valSize := max minimumValidatorsSize (min maximumValidatorsSize (oldValSize + newValSize))
  let vals := vals.map fun v =>
    if 0 < v.remainingEpoch then { v with remainingEpoch := v.remainingEpoch - 1 } else v
  if valSize < vals.length then
    let sorted := sortSlice knockoutBefore vals
    (refund ++ (sorted.drop valSize).map fun k => ⟨k.address, 0, true⟩, sorted.take valSize)
  else (refund, vals)

namespace StateDB

/-- Step 1, the callback on one delegator of a candidate in the refund set. -/
def refundPendingCb (refundAddress key : α) (apb : AccountProxiedBalance)
    (s : StateDB α κ) : StateDB α κ :=
  if 0 < apb.pendingRefundBalance then
    ((((s.subDepositProxiedBalanceByUser refundAddress key apb.pendingRefundBalance)
      |>.subPendingRefundBalanceByUser refundAddress key apb.pendingRefundBalance)
      |>.subDelegateBalance key apb.pendingRefundBalance)
      |>.addBalance key apb.pendingRefundBalance)
  else s

/-- Step 1 for one candidate of the refund set. -/
def refundCandidate (s : StateDB α κ) (refundAddress : α) : StateDB α κ :=
  let s := (s.forEachProxied refundAddress () fun key apb acc =>
    (refundPendingCb refundAddress key apb acc.1, ())).1
  if s.isCandidate refundAddress then s else s.clearCommission refundAddress

/-- Step 3, the callback that deposits one delegator's proxied amount. -/
def depositProxiedCb (vAddr key : α) (apb : AccountProxiedBalance) (s : StateDB α κ) :
    StateDB α κ :=
  if 0 < apb.proxiedBalance then
    (s.subProxiedBalanceByUser vAddr key apb.proxiedBalance).addDepositProxiedBalanceByUser
      vAddr key apb.proxiedBalance
  else s

def depositValidator (s : StateDB α κ) (v : Validator α κ) : StateDB α κ :=
  if s.isCandidate v.address && decide (0 < s.getTotalProxiedBalance v.address) then
    (s.forEachProxied v.address () fun key apb acc =>
      (depositProxiedCb v.address key apb acc.1, ())).1
  else s

/-- Step 4, the callback that returns one delegator's deposit to proxied. -/
def voteoutCb (rAddr key : α) (apb : AccountProxiedBalance) (s : StateDB α κ) : StateDB α κ :=
  if 0 < apb.depositProxiedBalance then
    (s.subDepositProxiedBalanceByUser rAddr key apb.depositProxiedBalance).addProxiedBalanceByUser
      rAddr key apb.depositProxiedBalance
  else s

def applyRefund (s : StateDB α κ) (r : RefundValidatorAmount α) : StateDB α κ :=
  if !r.voteout then
    (s.subDepositBalance r.address r.amount).addBalance r.address r.amount
  else
    let s := if s.isCandidate r.address then
        (s.forEachProxied r.address () fun key apb acc => (voteoutCb r.address key apb acc.1, ())).1
      else s
    let depositBalance := s.getDepositBalance r.address
    (s.subDepositBalance r.address depositBalance).addBalance r.address depositBalance

/-- The voting power `ShouldEnterNewEpoch` recomputes: proxied, deposit proxied and deposit. -/
def newVotingPower (s : StateDB α κ) (vAddr : α) : Int :=
  s.getTotalProxiedBalance vAddr + s.getTotalDepositProxiedBalance vAddr + s.getDepositBalance vAddr

end StateDB

/-- `Epoch.ShouldEnterNewEpoch`, given the next epoch that `GetNextEpoch` finds. The result is
the new state and `nil`, an error, or the new validators. -/
def shouldEnterNewEpoch
    (sortSlice : (Validator α κ → Validator α κ → Bool) → List (Validator α κ) → List (Validator α κ))
    (rangeOrder : List α → List α)
    (epoch : Epoch α κ) (nextEpoch : Option (Epoch α κ)) (height : Nat) (s : StateDB α κ) :
    StateDB α κ × Except EpochError (Option (List (Validator α κ))) :=
  if height = epoch.endBlock then
    match nextEpoch with
    | none => (s, .error .nextEpochNotExist)
    | some next =>
      -- Step 1
      let s := ((rangeOrder s.delegateRefundSet).foldl StateDB.refundCandidate
        s).clearDelegateRefundSet
      -- Step 2
      let nextEpochVoteSet := next.validatorVoteSet.getD .new
      let vals := refreshVotingPower s.newVotingPower epoch.validators.length 0 epoch.validators
      let (refunds, newValidators) := updateEpochValidatorSet sortSlice vals nextEpochVoteSet
      -- Step 3
      let s := newValidators.foldl StateDB.depositValidator s
      -- Step 4
      let s := refunds.foldl StateDB.applyRefund s
      (s, .ok (some newValidators))
  else (s, .ok none)

end IntChain
