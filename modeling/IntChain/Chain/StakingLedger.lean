import IntChain.Chain.Contract
import IntChain.State.Ledger

/-!
# The staking transactions keep the ledger

Each apply callback that succeeds keeps `StakingInvariant`. Its validation gives what the moves
of the ledger need: a registration or a delegation moves a nonnegative amount, an undelegation
takes no more than the proxied amount plus the deposit not yet pending, and a withdrawal takes
no more than the reward entry holds.
-/

namespace IntChain

variable {α κ σ : Type} [DecidableEq α]

/-! ### What the validations guarantee -/

theorem registerValidation_ok {chk : α → κ → σ → Bool} {ctx : ChainContext α κ}
    {s : StateDB α κ} {from_ : α} {value : Int} {args : RegisterArgs κ σ}
    (h : registerValidation chk ctx s from_ value args = .ok ()) : minimumRegisterAmount ≤ value := by
  unfold registerValidation at h
  split at h
  · cases h
  · split at h
    · cases h
    · next hv => exact not_lt.1 hv

theorem delegateValidation_ok {ctx : ChainContext α κ} {s : StateDB α κ} {from_ : α}
    {value : Int} {candidate : α} (h : delegateValidation ctx s from_ value candidate = .ok ()) :
    0 ≤ value := by
  unfold delegateValidation at h
  split at h
  · cases h
  · next hv => exact not_lt.1 hv

theorem unDelegateValidation_ok {ctx : ChainContext α κ} {s : StateDB α κ} {from_ candidate : α}
    {amount : Int} (h : unDelegateValidation ctx s from_ candidate amount = .ok ()) :
    0 ≤ amount ∧ amount ≤ s.getProxiedBalanceByUser candidate from_ +
      (s.getDepositProxiedBalanceByUser candidate from_ -
        s.getPendingRefundBalanceByUser candidate from_) := by
  unfold unDelegateValidation at h
  dsimp only at h
  split_ifs at h with h1 h2 h3 h4
  exact ⟨not_lt.1 h1, not_lt.1 h4⟩

theorem withDrawRewardValidation_ok {s : StateDB α κ} {from_ delegateAddress : α} {amount : Int}
    (h : withDrawRewardValidation s from_ delegateAddress amount = .ok ()) :
    amount ≤ s.getRewardBalanceByDelegateAddress from_ delegateAddress := by
  unfold withDrawRewardValidation at h
  dsimp only at h
  split_ifs at h with h1 h2 h3
  exact not_lt.1 h3

/-! ### Each callback keeps the invariant -/

namespace StakingInvariant

variable {s s' : StateDB α κ} {op : Option (UpdateNextEpochOp α κ)}

theorem registerApplyCb (h : StakingInvariant s) {chk : α → κ → σ → Bool}
    {ctx : ChainContext α κ} {from_ : α} {value : Int} {args : RegisterArgs κ σ}
    (hcb : IntChain.registerApplyCb chk ctx s from_ value args = .ok (s', op)) :
    StakingInvariant s' := by
  obtain ⟨_, hv, hcb⟩ := Run.bind_eq_ok hcb
  obtain ⟨_, -, hcb⟩ := Run.bind_eq_ok hcb
  obtain ⟨_, -, hcb⟩ := Run.bind_eq_ok hcb
  cases hcb
  -- the registration amount is at least the minimum, so positive
  have hval : 0 ≤ value :=
    le_trans (by decide) (registerValidation_ok hv)
  exact ((h.subBalance from_ value).addDelegation from_ from_ hval).applyForCandidate _ _ _

theorem delegateApplyCb (h : StakingInvariant s) {ctx : ChainContext α κ} {from_ : α}
    {value : Int} {candidate : α}
    (hcb : IntChain.delegateApplyCb ctx s from_ value candidate = .ok (s', op)) :
    StakingInvariant s' := by
  obtain ⟨_, hv, hcb⟩ := Run.bind_eq_ok hcb
  obtain ⟨_, -, hcb⟩ := Run.bind_eq_ok hcb
  obtain ⟨_, -, hcb⟩ := Run.bind_eq_ok hcb
  cases hcb
  exact (h.subBalance from_ value).addDelegation candidate from_ (delegateValidation_ok hv)

theorem unDelegateApplyCb (h : StakingInvariant s) {ctx : ChainContext α κ}
    {from_ candidate : α} {amount : Int}
    (hcb : IntChain.unDelegateApplyCb ctx s from_ candidate amount = .ok (s', op)) :
    StakingInvariant s' := by
  obtain ⟨_, hv, hcb⟩ := Run.bind_eq_ok hcb
  obtain ⟨_, -, hcb⟩ := Run.bind_eq_ok hcb
  obtain ⟨h0, hle⟩ := unDelegateValidation_ok hv
  have hpend := (h.delegation.entries candidate from_).2.1
  simp only at hcb
  split_ifs at hcb with hp
  · -- the whole amount is refunded at once from the proxied amount
    obtain ⟨_, -, hcb⟩ := Run.bind_eq_ok hcb
    cases hcb
    exact (h.removeDelegation candidate from_ hp).addBalance from_ amount
  · -- the proxied amount is refunded at once, the rest is pending until the epoch end
    obtain ⟨_, -, hcb⟩ := Run.bind_eq_ok hcb
    cases hcb
    have hmark := h.addPendingMark candidate from_
      (x := amount - s.getProxiedBalanceByUser candidate from_) (by
        simp only [StateDB.getPendingRefundBalanceByUser]; omega) (by omega)
    refine (hmark.removeDelegation candidate from_ (le_of_eq ?_)).addBalance from_ _
    simp [StateDB.getProxiedBalanceByUser, StateDB.addPendingRefundBalanceByUser,
      StateDB.getAccountProxiedBalance_addByUser, AccountProxiedBalance.set]

/-- The callback of `unRegisterApplyCb` on one delegator keeps the invariant. -/
theorem unRegisterCb (from_ key : α) (acc : StateDB α κ × Bool) (h : StakingInvariant acc.1) :
    StakingInvariant
      (IntChain.unRegisterCb from_ key (acc.1.getAccountProxiedBalance from_ key) acc).1 := by
  set apb := acc.1.getAccountProxiedBalance from_ key with hapb
  have h1 := (h.removeDelegation from_ key (x := apb.proxiedBalance) le_rfl).addBalance key
    apb.proxiedBalance
  unfold IntChain.unRegisterCb
  split_ifs with hdp
  · -- the deposit proxied amount becomes pending in full
    have hdeposit : (((acc.1.subProxiedBalanceByUser from_ key apb.proxiedBalance).subDelegateBalance
        key apb.proxiedBalance).addBalance key apb.proxiedBalance).getDepositProxiedBalanceByUser
        from_ key = apb.depositProxiedBalance := by
      simp [StateDB.getDepositProxiedBalanceByUser, StateDB.subProxiedBalanceByUser,
        StateDB.subByUser_eq_addByUser_neg, StateDB.getAccountProxiedBalance_addByUser,
        AccountProxiedBalance.set, hapb]
    exact h1.addPendingMark from_ key (by omega) (by omega)
  · exact h1

theorem unRegisterApplyCb (h : StakingInvariant s) {ctx : ChainContext α κ} {from_ : α}
    (hcb : IntChain.unRegisterApplyCb ctx s from_ = .ok (s', op)) : StakingInvariant s' := by
  obtain ⟨_, -, hcb⟩ := Run.bind_eq_ok hcb
  have hloop : StakingInvariant (s.forEachProxied from_ true (IntChain.unRegisterCb from_)).1 :=
    StateDB.forEachProxied_induction (fun acc => StakingInvariant acc.1) s from_ true _ h
      fun key _ acc hacc => unRegisterCb from_ key acc hacc
  revert hcb
  cases hres : s.forEachProxied from_ true (IntChain.unRegisterCb from_) with
  | mk s₁ allRefund =>
    intro hcb
    cases hcb
    rw [hres] at hloop
    exact hloop.cancelCandidate from_ allRefund

theorem withdrawRewardApplyCb (h : StakingInvariant s) {from_ delegateAddress : α}
    {amount : Int}
    (hcb : IntChain.withdrawRewardApplyCb s from_ delegateAddress amount = .ok (s', op)) :
    StakingInvariant s' := by
  obtain ⟨_, hv, hcb⟩ := Run.bind_eq_ok hcb
  revert hcb
  cases hsub : s.subRewardBalanceByDelegateAddress from_ delegateAddress amount with
  | none => intro hcb; cases hcb
  | some s₁ =>
    intro hcb
    cases hcb
    exact (h.subRewardBalanceByDelegateAddress from_ delegateAddress
      (withDrawRewardValidation_ok hv) hsub).addBalance from_ amount

end StakingInvariant

end IntChain
