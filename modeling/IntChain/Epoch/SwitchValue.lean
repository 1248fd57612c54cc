import IntChain.Chain.Contract
import IntChain.State.Ledger

/-!
# What the epoch switch does to the accounts' value

Every move of the switch takes an amount from one of an account's balance, delegate balance and
deposit and adds it to another (the proxied and deposit proxied entries only record what a
delegate balance is spread over), so the sum of the three over all accounts is the same after
the switch. What the switch does not keep is the sign of a deposit: a refund that is not a
vote-out subtracts `VotingPower - vote.Amount` from `DepositBalance`, and the voting power is
recomputed from the live ledger while the vote may be older. A delegation in the block at the
epoch's end block, whose `UpdateNextEpochOp` is applied only after that block, so makes a
candidate's deposit negative.
-/

namespace IntChain

variable {α κ : Type}

/-- The part of an account that the switch moves around. -/
def Account.stake (o : Account α κ) : Int := o.balance + o.delegateBalance + o.depositBalance

namespace Account

theorem stake_eq (o : Account α κ) :
    o.stake = o.get .balance + o.get .delegateBalance + o.get .depositBalance := rfl

theorem stake_addField (o : Account α κ) (f : BalanceField) (x : Int) :
    (o.addField f x).stake =
      o.stake + if f = .balance ∨ f = .delegateBalance ∨ f = .depositBalance then x else 0 := by
  rw [stake_eq, stake_eq, get_addField, get_addField, get_addField]
  cases f <;> simp <;> omega

theorem stake_subField (o : Account α κ) (f : BalanceField) (x : Int) :
    (o.subField f x).stake =
      o.stake - if f = .balance ∨ f = .delegateBalance ∨ f = .depositBalance then x else 0 := by
  rw [stake_eq, stake_eq, get_subField, get_subField, get_subField]
  cases f <;> simp <;> omega

end Account

variable [DecidableEq α]

namespace StateDB

variable (s : StateDB α κ)

/-- The sum over all accounts of balance, delegate balance and deposit. -/
def totalStake : Int := s.accounts.sumBy Account.stake

theorem totalStake_updateAccount (a : α) (g : Account α κ → Account α κ) :
    (s.updateAccount a g).totalStake =
      s.totalStake + ((g (s.account a)).stake - (s.account a).stake) :=
  KeyMap.sumBy_modify _ _ _ _ _ rfl

@[simp] theorem totalStake_addBalance (a : α) (x : Int) :
    (s.addBalance a x).totalStake = s.totalStake + x := by
  rw [addBalance, totalStake_updateAccount, Account.stake_addField]
  simp

@[simp] theorem totalStake_subDepositBalance (a : α) (x : Int) :
    (s.subDepositBalance a x).totalStake = s.totalStake - x := by
  rw [subDepositBalance, totalStake_updateAccount, Account.stake_subField]
  simp
  omega

@[simp] theorem totalStake_subDelegateBalance (a : α) (x : Int) :
    (s.subDelegateBalance a x).totalStake = s.totalStake - x := by
  rw [subDelegateBalance, totalStake_updateAccount, Account.stake_subField]
  simp
  omega

/-- A move of a proxied entry changes an entry and a total that are not part of the stake. -/
@[simp] theorem totalStake_addByUser (f : ProxiedField) (c u : α) (x : Int) :
    (s.addByUser f c u x).totalStake = s.totalStake := by
  rw [addByUser, totalStake_updateAccount]
  have hf : f.total ≠ .balance ∧ f.total ≠ .delegateBalance ∧ f.total ≠ .depositBalance := by
    cases f <;> simp [ProxiedField.total]
  simp only [Account.stake_addField, hf, or_self, if_false]
  simp [Account.stake]

@[simp] theorem totalStake_subByUser (f : ProxiedField) (c u : α) (x : Int) :
    (s.subByUser f c u x).totalStake = s.totalStake := by
  rw [subByUser_eq_addByUser_neg, totalStake_addByUser]

@[simp] theorem totalStake_clearCommission (a : α) :
    (s.clearCommission a).totalStake = s.totalStake := by
  rw [clearCommission, totalStake_updateAccount]
  simp [Account.stake]

omit [DecidableEq α] in
@[simp] theorem totalStake_clearDelegateRefundSet :
    s.clearDelegateRefundSet.totalStake = s.totalStake := rfl

/-! ### Each step of the switch keeps the stake -/

theorem totalStake_refundPendingCb (c k : α) (apb : AccountProxiedBalance) :
    (refundPendingCb c k apb s).totalStake = s.totalStake := by
  unfold refundPendingCb
  split_ifs
  · simp [subDepositProxiedBalanceByUser, subPendingRefundBalanceByUser]
  · rfl

theorem totalStake_refundCandidate (c : α) : (s.refundCandidate c).totalStake = s.totalStake := by
  have hloop := forEachProxied_induction (fun acc => acc.1.totalStake = s.totalStake) s c ()
    (fun key apb acc => (refundPendingCb c key apb acc.1, ())) rfl
    fun key _ acc hacc => (totalStake_refundPendingCb _ c key _).trans hacc
  unfold refundCandidate
  dsimp only
  split_ifs
  · exact hloop
  · rw [totalStake_clearCommission]
    exact hloop

theorem totalStake_depositValidator (v : Validator α κ) :
    (s.depositValidator v).totalStake = s.totalStake := by
  unfold depositValidator
  split_ifs
  · refine forEachProxied_induction (fun acc => acc.1.totalStake = s.totalStake) s v.address ()
      _ rfl fun key _ acc hacc => ?_
    unfold depositProxiedCb
    split_ifs
    · simp [subProxiedBalanceByUser, addDepositProxiedBalanceByUser, hacc]
    · exact hacc
  · rfl

theorem totalStake_applyRefund (r : RefundValidatorAmount α) :
    (s.applyRefund r).totalStake = s.totalStake := by
  unfold applyRefund
  split_ifs with hvote hcand
  · simp
  · -- a vote-out moves the delegators' deposits, then the own deposit to the balance
    have hloop := forEachProxied_induction (fun acc => acc.1.totalStake = s.totalStake) s
      r.address () (fun key apb acc => (voteoutCb r.address key apb acc.1, ())) rfl
      fun key _ acc hacc => by
        unfold voteoutCb
        split_ifs
        · simp [subDepositProxiedBalanceByUser, addProxiedBalanceByUser, hacc]
        · exact hacc
    simp only [totalStake_addBalance, totalStake_subDepositBalance, sub_add_cancel]
    exact hloop
  · simp

end StateDB

/-- The epoch switch keeps the sum over all accounts of balance, delegate balance and deposit,
for every state and every input. -/
theorem shouldEnterNewEpoch_totalStake
    (sortSlice : (Validator α κ → Validator α κ → Bool) → List (Validator α κ) →
      List (Validator α κ))
    (rangeOrder : List α → List α) (epoch : Epoch α κ) (nextEpoch : Option (Epoch α κ))
    (height : Nat) (s : StateDB α κ) :
    (shouldEnterNewEpoch sortSlice rangeOrder epoch nextEpoch height s).1.totalStake =
      s.totalStake := by
  unfold shouldEnterNewEpoch
  split_ifs
  · cases nextEpoch with
    | none => rfl
    | some next =>
      dsimp only
      -- the folds of steps 1, 3 and 4, each step keeping the stake
      have h1 : ((rangeOrder s.delegateRefundSet).foldl StateDB.refundCandidate
          s).clearDelegateRefundSet.totalStake = s.totalStake := by
        rw [StateDB.totalStake_clearDelegateRefundSet]
        exact Run.foldl_induction StateDB.refundCandidate
          (fun s' : StateDB α κ => s'.totalStake = s.totalStake) rfl
          fun c _ s' hs => (StateDB.totalStake_refundCandidate s' c).trans hs
      have h3 : ∀ vals : List (Validator α κ), (vals.foldl StateDB.depositValidator
          ((rangeOrder s.delegateRefundSet).foldl StateDB.refundCandidate
            s).clearDelegateRefundSet).totalStake = s.totalStake := fun _ =>
        Run.foldl_induction StateDB.depositValidator
          (fun s' : StateDB α κ => s'.totalStake = s.totalStake) h1
          fun v _ s' hs => (StateDB.totalStake_depositValidator s' v).trans hs
      exact Run.foldl_induction StateDB.applyRefund
        (fun s' : StateDB α κ => s'.totalStake = s.totalStake) (h3 _)
        fun r _ s' hs => (StateDB.totalStake_applyRefund s' r).trans hs
  · rfl

/-! ### A stale vote makes a deposit negative -/

/-- Candidate `0`, registered with `5` that an earlier switch moved to deposit proxied, and a
user `1` with a balance of `3`. -/
def staleVoteState : StateDB Nat Nat :=
  (((((StateDB.empty.addDelegateBalance 0 5).addProxiedBalanceByUser 0 0 5).applyForCandidate 0 0
    0).subProxiedBalanceByUser 0 0 5).addDepositProxiedBalanceByUser 0 0 5).addBalance 1 3

/-- The epoch that ends at block `10`, with candidate `0` as its validator. -/
def staleVoteEpoch : Epoch Nat Nat :=
  { number := 1, rewardPerBlock := 0, startBlock := 0, endBlock := 10,
    validators := [⟨0, 0, 5, 0⟩] }

/-- A transaction in block `10`, the epoch's end block: the head is block `9`. -/
def staleVoteContext : ChainContext Nat Nat := ⟨9, staleVoteEpoch⟩

/-- The next epoch, whose vote set holds the vote of candidate `0` that `UpdateNextEpoch`
recorded from an earlier operation of amount `5`. -/
def staleVoteNextEpoch : Epoch Nat Nat :=
  { number := 2, rewardPerBlock := 0, startBlock := 11, endBlock := 20, validators := [],
    validatorVoteSet := some (updateNextEpochVote none 0 0 5) }

theorem staleVote_negative_deposit :
    StakingInvariant staleVoteState ∧
      updateNextEpochValidatorVoteSet staleVoteContext staleVoteState 0 = .ok (some ⟨0, 0, 5⟩) ∧
      ∃ s₁ op, delegateApplyCb staleVoteContext staleVoteState 1 3 0 = .ok (s₁, some op) ∧
        op.amount = 8 ∧
        (shouldEnterNewEpoch (fun _ l => l) id staleVoteEpoch (some staleVoteNextEpoch) 10
          s₁).1.getDepositBalance 0 = -3 := by
  refine ⟨(((StakingInvariant.empty.addDelegation 0 0 (by decide)).applyForCandidate 0 0
    0).depositProxied 0 0 (by decide) (by decide)).addBalance 1 3, by decide, ?_⟩
  -- the delegation of `3` goes through, and the switch at block `10` still sees the vote `5`
  have hrun : (delegateApplyCb staleVoteContext staleVoteState 1 3 0).toOption.map (fun r =>
      (r.2.map (·.amount), (shouldEnterNewEpoch (fun _ l => l) id staleVoteEpoch
        (some staleVoteNextEpoch) 10 r.1).1.getDepositBalance 0)) = some (some 8, -3) := by
    decide
  revert hrun
  cases delegateApplyCb staleVoteContext staleVoteState 1 3 0 with
  | error e => intro hrun; cases hrun
  | ok r =>
    obtain ⟨s₁, op⟩ := r
    intro hrun
    cases op with
    | none => cases hrun
    | some op =>
      simp only [Except.toOption, Option.map_some, Option.some.injEq, Prod.mk.injEq] at hrun
      exact ⟨s₁, op, rfl, hrun.1, hrun.2⟩

end IntChain
