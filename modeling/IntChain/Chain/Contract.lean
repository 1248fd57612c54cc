import IntChain.Epoch.Switch

/-!
# The staking transactions of the chain contract

`internal/intapi/api.go`: the validation and apply callbacks of `Register`, `UnRegister`,
`Delegate`, `UnDelegate` and `WithdrawReward`, with `updateValidation` and
`updateNextEpochValidatorVoteSet`. A callback sees the transaction's sender and value, the
arguments its ABI data decodes to, the state, and through the block chain the current head's
height and the epoch that contains it. It returns an error, or the new state and the
`UpdateNextEpochOp` it appends to the block's pending operations, if any.

`CheckConsensusPubKey` verifies a BLS signature in the external `go-crypto` package; it is the
parameter `checkConsensusPubKey`.
-/

namespace IntChain

/-- The errors of the callbacks, under the names and texts of the source. -/
inductive ContractError
  /-- `core.ErrAlreadyCandidate`: "address become candidate already" -/
  | alreadyCandidate
  /-- `core.ErrMinimumRegisterAmount`: "security deposit not meet the minimum value" -/
  | minimumRegisterAmount
  /-- the error of `CheckConsensusPubKey` -/
  | consensusPubKey
  /-- `core.ErrCommission`: "commission percentage (between 0 and 100) out of range" -/
  | commission
  /-- `core.ErrCannotCandidate`: "Annual/SemiAnnual Supernode can not become candidate" -/
  | cannotCandidate
  /-- `core.ErrNotCandidate`: "address not candidate" -/
  | notCandidate
  /-- `core.ErrCannotUnRegister`: "Annual/SemiAnnual Supernode can not unregister" -/
  | cannotUnRegister
  /-- `core.ErrDelegateAmount`: "delegation amount can not be negative" -/
  | delegateAmount
  /-- `core.ErrExceedDelegationAddressLimit`: "exceed the delegation address limit" -/
  | exceedDelegationAddressLimit
  /-- `core.ErrCannotDelegate`: "Annual/SemiAnnual Supernode candidate not accept new delegator" -/
  | cannotDelegate
  /-- "undelegate amount can not be negative" -/
  | undelegateNegative
  /-- `core.ErrCancelSelfDelegate`: "can not cancel self delegation" -/
  | cancelSelfDelegate
  /-- `core.ErrCannotUnBond`: "Annual/SemiAnnual Supernode candidate can not unbond" -/
  | cannotUnBond
  /-- `core.ErrInsufficientProxiedBalance`: "cancel amount greater than your Proxied Balance" -/
  | insufficientProxiedBalance
  /-- "have no reward to withdraw" -/
  | noReward
  /-- "widthdraw amount can not be negative" -/
  | withdrawNegative
  /-- "reward balance not enough, withdraw amount …" -/
  | rewardNotEnough
  /-- "incorrect block height, please retry later" -/
  | incorrectBlockHeight
  /-- "validator voting power can not be negative" -/
  | negativeVotingPower
  /-- "wrong format of required field 'pub_key'" -/
  | wrongPubKey
  /-- the callback panics -/
  | panic
  deriving DecidableEq, Repr

/-- What a callback reads from the block chain: the head block's height and its epoch. -/
structure ChainContext (α κ : Type) where
  height : Nat
  epoch : Epoch α κ
  deriving Repr

/-- `types.UpdateNextEpochOp`; its salt is always `"intchain"`. -/
structure UpdateNextEpochOp (α κ : Type) where
  from_ : α
  pubKey : κ
  amount : Int
  deriving DecidableEq, Repr

/-- `minimumRegisterAmount`, 1000000 * 10^18. -/
def minimumRegisterAmount : Int := 1000000000000000000000000

def maxDelegationAddresses : Nat := 1000

def updateValidatorThreshold : Nat := 25

variable {α κ σ : Type} [DecidableEq α]

/-- Whether the epoch lists the address as an Annual/SemiAnnual supernode. -/
def isSupernode (ep : Epoch α κ) (addr : α) : Bool :=
  match ValidatorSet.getByAddress ep.validators addr with
  | some (_, v) => decide (0 < v.remainingEpoch)
  | none => false

/-- `updateValidation`: no update before the third block after the epoch start, nor at a head
equal to the epoch's end block. -/
def updateValidation (ctx : ChainContext α κ) : Except ContractError Unit :=
  if ctx.height ≤ ctx.epoch.startBlock + 2 ∨ ctx.height = ctx.epoch.endBlock then
    .error .incorrectBlockHeight
  else .ok ()

/-- `updateNextEpochValidatorVoteSet`: the vote to record for the candidate, if any. -/
def updateNextEpochValidatorVoteSet (ctx : ChainContext α κ) (s : StateDB α κ) (candidate : α) :
    Except ContractError (Option (UpdateNextEpochOp α κ)) :=
  let netProxied := s.getTotalProxiedBalance candidate + s.getTotalDepositProxiedBalance candidate -
    s.getTotalPendingRefundBalance candidate
  if netProxied < 0 then .error .negativeVotingPower
  else
    let update := match ctx.epoch.validatorVoteSet with
      | none => true
      | some vs =>
        if updateValidatorThreshold ≤ vs.votes.length then vs.votes.any fun v => v.amount < netProxied
        else true
    if update && s.isCandidate candidate then
      match s.getPubkey candidate with
      | none => .error .wrongPubKey
      | some pk => .ok (some ⟨candidate, pk, netProxied⟩)
    else .ok none

/-- The decoded arguments of `Register`. -/
structure RegisterArgs (κ σ : Type) where
  pubkey : κ
  signature : σ
  commission : UInt8

def registerValidation (checkConsensusPubKey : α → κ → σ → Bool) (ctx : ChainContext α κ)
    (s : StateDB α κ) (from_ : α) (value : Int) (args : RegisterArgs κ σ) :
    Except ContractError Unit :=
  if !s.isCleanAddress from_ then .error .alreadyCandidate
  else if value < minimumRegisterAmount then .error .minimumRegisterAmount
  else if !checkConsensusPubKey from_ args.pubkey args.signature then .error .consensusPubKey
  else if 100 < args.commission then .error .commission
  else if isSupernode ctx.epoch from_ then .error .cannotCandidate
  else .ok ()

def registerApplyCb (checkConsensusPubKey : α → κ → σ → Bool) (ctx : ChainContext α κ)
    (s : StateDB α κ) (from_ : α) (value : Int) (args : RegisterArgs κ σ) :
    Except ContractError (StateDB α κ × Option (UpdateNextEpochOp α κ)) := do
  registerValidation checkConsensusPubKey ctx s from_ value args
  updateValidation ctx
  let s := (((s.subBalance from_ value).addDelegateBalance from_ value).addProxiedBalanceByUser
    from_ from_ value).applyForCandidate from_ args.pubkey args.commission
  let op ← updateNextEpochValidatorVoteSet ctx s from_
  return (s, op)

def unRegisterValidation (ctx : ChainContext α κ) (s : StateDB α κ) (from_ : α) :
    Except ContractError Unit :=
  if !s.isCandidate from_ then .error .notCandidate
  else if isSupernode ctx.epoch from_ then .error .cannotUnRegister
  else .ok ()

/-- The callback of `unRegisterApplyCb` on one delegator; the flag is `allRefund`. -/
def unRegisterCb (from_ key : α) (apb : AccountProxiedBalance) (acc : StateDB α κ × Bool) :
    StateDB α κ × Bool :=
  let s := ((acc.1.subProxiedBalanceByUser from_ key apb.proxiedBalance).subDelegateBalance key
    apb.proxiedBalance).addBalance key apb.proxiedBalance
  if 0 < apb.depositProxiedBalance then
    let refunded := s.getPendingRefundBalanceByUser from_ key
    ((s.addPendingRefundBalanceByUser from_ key (apb.depositProxiedBalance - refunded)).markDelegateAddressRefund
      from_, false)
  else (s, acc.2)

def unRegisterApplyCb (ctx : ChainContext α κ) (s : StateDB α κ) (from_ : α) :
    Except ContractError (StateDB α κ × Option (UpdateNextEpochOp α κ)) := do
  unRegisterValidation ctx s from_
  let (s, allRefund) := s.forEachProxied from_ true (unRegisterCb from_)
  return (s.cancelCandidate from_ allRefund, none)

def delegateValidation (ctx : ChainContext α κ) (s : StateDB α κ) (from_ : α) (value : Int)
    (candidate : α) : Except ContractError Unit :=
  let depositBalance := s.getDepositProxiedBalanceByUser candidate from_
  if value < 0 then .error .delegateAmount
  else if !s.isCandidate candidate then .error .notCandidate
  else if depositBalance = 0 ∧ maxDelegationAddresses ≤ s.getProxiedAddressNumber candidate then
    .error .exceedDelegationAddressLimit
  else if isSupernode ctx.epoch candidate ∧ depositBalance = 0 then .error .cannotDelegate
  else .ok ()

def delegateApplyCb (ctx : ChainContext α κ) (s : StateDB α κ) (from_ : α) (value : Int)
    (candidate : α) : Except ContractError (StateDB α κ × Option (UpdateNextEpochOp α κ)) := do
  delegateValidation ctx s from_ value candidate
  updateValidation ctx
  let s := ((s.subBalance from_ value).addDelegateBalance from_ value).addProxiedBalanceByUser
    candidate from_ value
  let op ← updateNextEpochValidatorVoteSet ctx s candidate
  return (s, op)

def unDelegateValidation (ctx : ChainContext α κ) (s : StateDB α κ) (from_ candidate : α)
    (amount : Int) : Except ContractError Unit :=
  let proxiedBalance := s.getProxiedBalanceByUser candidate from_
  let netDeposit := s.getDepositProxiedBalanceByUser candidate from_ -
    s.getPendingRefundBalanceByUser candidate from_
  if amount < 0 then .error .undelegateNegative
  else if from_ = candidate then .error .cancelSelfDelegate
  else if isSupernode ctx.epoch candidate then .error .cannotUnBond
  else if proxiedBalance + netDeposit < amount then .error .insufficientProxiedBalance
  else .ok ()

def unDelegateApplyCb (ctx : ChainContext α κ) (s : StateDB α κ) (from_ candidate : α)
    (amount : Int) : Except ContractError (StateDB α κ × Option (UpdateNextEpochOp α κ)) := do
  unDelegateValidation ctx s from_ candidate amount
  updateValidation ctx
  let proxiedBalance := s.getProxiedBalanceByUser candidate from_
  -- below the proxied amount the refund is immediate, the rest waits for the epoch end
  let (s, immediatelyRefund) :=
    if amount ≤ proxiedBalance then (s, amount)
    else ((s.addPendingRefundBalanceByUser candidate from_ (amount - proxiedBalance)).markDelegateAddressRefund
      candidate, proxiedBalance)
  let s := ((s.subProxiedBalanceByUser candidate from_ immediatelyRefund).subDelegateBalance from_
    immediatelyRefund).addBalance from_ immediatelyRefund
  let op ← updateNextEpochValidatorVoteSet ctx s candidate
  return (s, op)

def withDrawRewardValidation (s : StateDB α κ) (from_ delegateAddress : α) (amount : Int) :
    Except ContractError Unit :=
  let reward := s.getRewardBalanceByDelegateAddress from_ delegateAddress
  if reward < 1 then .error .noReward
  else if amount < 0 then .error .withdrawNegative
  else if reward < amount then .error .rewardNotEnough
  else .ok ()

def withdrawRewardApplyCb (s : StateDB α κ) (from_ delegateAddress : α) (amount : Int) :
    Except ContractError (StateDB α κ × Option (UpdateNextEpochOp α κ)) := do
  withDrawRewardValidation s from_ delegateAddress amount
  match s.subRewardBalanceByDelegateAddress from_ delegateAddress amount with
  | none => .error .panic
  | some s => return (s.addBalance from_ amount, none)

end IntChain
