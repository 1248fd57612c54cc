import IntChain.Epoch.Switch
import IntChain.State.Ledger

/-!
# The epoch switch keeps the ledger

Step 1 of `ShouldEnterNewEpoch` refunds the pending refund of every delegator of every
candidate in the refund set; since every candidate with a pending refund is in the set, no
pending refund is left after it (`SettledLedger`). Steps 3 and 4 then move amounts between the
proxied and the deposit proxied entries; with no pending refund, the vote-out refund can put a
whole deposit proxied entry back to proxied and keep `pendingRefund ≤ depositProxied`. The
switch so keeps `StakingInvariant` whatever order Go's `range` takes over the refund set.
-/

namespace IntChain

variable {α κ : Type} [DecidableEq α]

/-- The ledger once step 1 has refunded every pending refund. -/
structure SettledLedger (s : StateDB α κ) : Prop where
  inv : StakingInvariant s
  noPending : NoPending s

theorem NoPending.of_entries_eq {s s' : StateDB α κ} (h : NoPending s)
    (he : ∀ c u, s'.getAccountProxiedBalance c u = s.getAccountProxiedBalance c u) :
    NoPending s' := by
  intro c u
  simp only [StateDB.getPendingRefundBalanceByUser, he]
  exact h c u

/-! ### Step 1: the pending refunds -/

namespace StateDB

variable (s : StateDB α κ)

/-- The callback of step 1 sets the delegator's pending refund to zero and leaves every other
one alone. -/
theorem getPendingRefundBalanceByUser_refundPendingCb (c k : α)
    (h0 : 0 ≤ s.getPendingRefundBalanceByUser c k) (c' u : α) :
    (refundPendingCb c k (s.getAccountProxiedBalance c k) s).getPendingRefundBalanceByUser c' u =
      if c' = c ∧ u = k then 0 else s.getPendingRefundBalanceByUser c' u := by
  unfold refundPendingCb
  split_ifs with hpos hcu hcu
  · simp [getPendingRefundBalanceByUser, subDepositProxiedBalanceByUser,
      subPendingRefundBalanceByUser, subByUser_eq_addByUser_neg, getAccountProxiedBalance_addByUser,
      AccountProxiedBalance.set, AccountProxiedBalance.get, hcu.1, hcu.2]
  · simp only [getPendingRefundBalanceByUser, getAccountProxiedBalance_addBalance,
      getAccountProxiedBalance_subDelegateBalance, subDepositProxiedBalanceByUser,
      subPendingRefundBalanceByUser, subByUser_eq_addByUser_neg, getAccountProxiedBalance_addByUser]
    rw [if_neg hcu, if_neg hcu]
  · -- a pending refund that is not positive is zero
    obtain ⟨rfl, rfl⟩ := hcu
    unfold getPendingRefundBalanceByUser at h0 ⊢
    omega
  · rfl

theorem ledger_refundPendingCb (h : Ledger s) (c k : α) :
    Ledger (refundPendingCb c k (s.getAccountProxiedBalance c k) s) := by
  unfold refundPendingCb
  split_ifs
  · refine ⟨(h.1.refundPending c k).addBalance k _, ?_⟩
    set x := (s.getAccountProxiedBalance c k).pendingRefundBalance
    have hr := ((h.2.addByUser .depositProxied c k (-x)).addByUser .pendingRefund c k (-x)).subField
      k .delegateBalance x
    simp only [subDepositProxiedBalanceByUser, subPendingRefundBalanceByUser,
      subByUser_eq_addByUser_neg]
    exact hr.addField k .balance x
  · exact h

/-- Step 1 for one candidate of the refund set refunds all its delegators' pending refunds. -/
theorem refundCandidate_spec (h : Ledger s) (c : α) :
    Ledger (s.refundCandidate c) ∧ ∀ c' u, (s.refundCandidate c).getPendingRefundBalanceByUser c' u =
      if c' = c then 0 else s.getPendingRefundBalanceByUser c' u := by
  -- over the keys done so far: the ledger holds and their pending refunds are zero
  have hloop := forEachProxied_prefix_induction
    (fun pre (acc : StateDB α κ × Unit) => Ledger acc.1 ∧ ∀ c' u,
      acc.1.getPendingRefundBalanceByUser c' u =
        if c' = c ∧ u ∈ pre then 0 else s.getPendingRefundBalanceByUser c' u)
    s c () (fun key apb acc => (refundPendingCb c key apb acc.1, ()))
    ⟨h, fun c' u => by simp⟩ (by
      rintro pre key - ⟨s₁, ⟨⟩⟩ - ⟨hL, hpend⟩
      have h0 := (hL.1.entries c key).2.1
      refine ⟨ledger_refundPendingCb s₁ hL c key, fun c' u => ?_⟩
      rw [getPendingRefundBalanceByUser_refundPendingCb s₁ c key h0, hpend]
      by_cases hc : c' = c <;> by_cases hu : u = key <;> simp [hc, hu])
  obtain ⟨hL, hpend⟩ := hloop
  -- a user that is not a key of the trie has the zero entry, so no pending refund either
  have hpend' : ∀ c' u, (s.forEachProxied c () fun key apb acc =>
      (refundPendingCb c key apb acc.1, ())).1.getPendingRefundBalanceByUser c' u =
      if c' = c then 0 else s.getPendingRefundBalanceByUser c' u := by
    intro c' u
    rw [hpend]
    by_cases hc : c' = c
    · subst hc
      by_cases hu : u ∈ (s.account c').proxied.keys
      · simp [hu]
      · simp [hu, getPendingRefundBalanceByUser, getAccountProxiedBalance,
          KeyMap.findD_of_not_mem _ hu, AccountProxiedBalance.zero]
    · simp [hc]
  unfold refundCandidate
  dsimp only
  split_ifs
  · exact ⟨hL, hpend'⟩
  · refine ⟨⟨hL.1.clearCommission c, hL.2.clearCommission c⟩, fun c' u => ?_⟩
    rw [← hpend' c' u]
    simp [getPendingRefundBalanceByUser]

/-- Step 1 over a list of candidates refunds the pending refunds of every candidate in it. -/
theorem refundCandidates_spec (h : Ledger s) (L : List α) :
    Ledger (L.foldl refundCandidate s) ∧ ∀ c u,
      (L.foldl refundCandidate s).getPendingRefundBalanceByUser c u =
        if c ∈ L then 0 else s.getPendingRefundBalanceByUser c u := by
  refine Run.foldl_prefix_induction refundCandidate (fun pre s' => Ledger s' ∧ ∀ c u,
      s'.getPendingRefundBalanceByUser c u =
        if c ∈ pre then 0 else s.getPendingRefundBalanceByUser c u)
    ⟨h, fun c u => by simp⟩ ?_
  rintro pre c' - s₁ - ⟨hL, hpend⟩
  obtain ⟨hL', hpend'⟩ := s₁.refundCandidate_spec hL c'
  refine ⟨hL', fun c u => ?_⟩
  rw [hpend', hpend]
  by_cases hc : c = c' <;> simp [hc]

/-- A move between balance fields other than the pending refund leaves every pending refund. -/
theorem getPendingRefundBalanceByUser_addByUser_of_ne {f : ProxiedField}
    (hf : f ≠ .pendingRefund) (c u : α) (x : Int) (c' u' : α) :
    (s.addByUser f c u x).getPendingRefundBalanceByUser c' u' =
      s.getPendingRefundBalanceByUser c' u' := by
  unfold getPendingRefundBalanceByUser
  rw [getAccountProxiedBalance_addByUser]
  split_ifs with hcu
  · obtain ⟨rfl, rfl⟩ := hcu
    cases f <;> simp_all [AccountProxiedBalance.set]
  · rfl

end StateDB

/-! ### Steps 3 and 4: the moves with no pending refund -/

namespace SettledLedger

variable {s : StateDB α κ}

theorem addBalance (h : SettledLedger s) (a : α) (x : Int) : SettledLedger (s.addBalance a x) :=
  ⟨h.inv.addBalance a x, h.noPending.of_entries_eq (by simp)⟩

theorem subDepositBalance (h : SettledLedger s) (a : α) (x : Int) :
    SettledLedger (s.subDepositBalance a x) :=
  ⟨h.inv.subDepositBalance a x, h.noPending.of_entries_eq (by simp)⟩

/-- The callback of step 3 moves the delegator's whole proxied amount to deposit proxied. -/
theorem depositProxiedCb (h : SettledLedger s) (v k : α) :
    SettledLedger (StateDB.depositProxiedCb v k (s.getAccountProxiedBalance v k) s) := by
  unfold StateDB.depositProxiedCb
  split_ifs with hpos
  · refine ⟨h.inv.depositProxied v k hpos.le le_rfl, fun c u => ?_⟩
    simp only [StateDB.subProxiedBalanceByUser, StateDB.addDepositProxiedBalanceByUser,
      StateDB.subByUser_eq_addByUser_neg]
    rw [StateDB.getPendingRefundBalanceByUser_addByUser_of_ne _ (by decide),
      StateDB.getPendingRefundBalanceByUser_addByUser_of_ne _ (by decide)]
    exact h.noPending c u
  · exact h

/-- The callback of the vote-out refund of step 4 moves the delegator's whole deposit proxied
amount back to proxied; with no pending refund left the entry stays bounded. -/
theorem voteoutCb (h : SettledLedger s) (r k : α) :
    SettledLedger (StateDB.voteoutCb r k (s.getAccountProxiedBalance r k) s) := by
  unfold StateDB.voteoutCb
  split_ifs with hpos
  · have hx : s.getPendingRefundBalanceByUser r k ≤ s.getDepositProxiedBalanceByUser r k -
        (s.getAccountProxiedBalance r k).depositProxiedBalance := by
      rw [h.noPending r k]
      simp [StateDB.getDepositProxiedBalanceByUser]
    refine ⟨h.inv.withdrawDeposit r k hpos.le hx, fun c u => ?_⟩
    simp only [StateDB.subDepositProxiedBalanceByUser, StateDB.addProxiedBalanceByUser,
      StateDB.subByUser_eq_addByUser_neg]
    rw [StateDB.getPendingRefundBalanceByUser_addByUser_of_ne _ (by decide),
      StateDB.getPendingRefundBalanceByUser_addByUser_of_ne _ (by decide)]
    exact h.noPending c u
  · exact h

theorem depositValidator (h : SettledLedger s) (v : Validator α κ) :
    SettledLedger (s.depositValidator v) := by
  unfold StateDB.depositValidator
  split_ifs
  · exact StateDB.forEachProxied_induction (fun acc => SettledLedger acc.1) s v.address () _ h
      fun key _ acc hacc => hacc.depositProxiedCb v.address key
  · exact h

theorem applyRefund (h : SettledLedger s) (r : RefundValidatorAmount α) :
    SettledLedger (s.applyRefund r) := by
  unfold StateDB.applyRefund
  split_ifs with hvote hcand
  · exact (h.subDepositBalance _ _).addBalance _ _
  · -- a vote-out: the delegators' deposits go back to proxied, then the own deposit to balance
    have hloop := StateDB.forEachProxied_induction (fun acc => SettledLedger acc.1) s r.address ()
      (fun key apb acc => (StateDB.voteoutCb r.address key apb acc.1, ())) h
      fun key _ acc hacc => hacc.voteoutCb r.address key
    exact (hloop.subDepositBalance _ _).addBalance _ _
  · exact (h.subDepositBalance _ _).addBalance _ _

end SettledLedger

namespace StakingInvariant

variable {s : StateDB α κ}

/-- Step 1 of the switch, over any order that visits the whole refund set, leaves no pending
refund, because every candidate with one is in the set. -/
theorem refundStep (h : StakingInvariant s) {L : List α}
    (hL : ∀ c ∈ s.delegateRefundSet, c ∈ L) :
    SettledLedger ((L.foldl StateDB.refundCandidate s).clearDelegateRefundSet) := by
  obtain ⟨⟨hd, hr⟩, hpend⟩ := s.refundCandidates_spec h.ledger L
  have hnp : NoPending (L.foldl StateDB.refundCandidate s).clearDelegateRefundSet := by
    intro c u
    simp only [StateDB.getPendingRefundBalanceByUser, StateDB.getAccountProxiedBalance,
      StateDB.account_clearDelegateRefundSet]
    rw [← StateDB.getAccountProxiedBalance, ← StateDB.getPendingRefundBalanceByUser, hpend]
    split_ifs with hc
    · rfl
    · -- a candidate outside the set has no positive pending refund, and none is negative
      have h0 := (h.delegation.entries c u).2.1
      have hle : s.getPendingRefundBalanceByUser c u ≤ 0 :=
        not_lt.1 fun hpos => hc (hL c (h.pendingMarked c u hpos))
      exact le_antisymm hle h0
  exact ⟨⟨hd.clearDelegateRefundSet, hr.clearDelegateRefundSet, hnp.pendingMarked⟩, hnp⟩

/-- The epoch switch keeps the invariant, for any sort and any order of Go's `range` over the
refund set that visits the whole set. -/
theorem shouldEnterNewEpoch (h : StakingInvariant s)
    (sortSlice : (Validator α κ → Validator α κ → Bool) → List (Validator α κ) →
      List (Validator α κ))
    {rangeOrder : List α → List α} (hrange : ∀ l, ∀ a ∈ l, a ∈ rangeOrder l)
    (epoch : Epoch α κ) (nextEpoch : Option (Epoch α κ)) (height : Nat) :
    StakingInvariant (IntChain.shouldEnterNewEpoch sortSlice rangeOrder epoch nextEpoch height s).1 := by
  unfold IntChain.shouldEnterNewEpoch
  split_ifs
  · cases nextEpoch with
    | none => exact h
    | some next =>
      dsimp only
      -- step 1 leaves no pending refund; step 2 does not touch the state
      have h1 := h.refundStep (hrange s.delegateRefundSet)
      -- step 3 over the new validators, then step 4 over the refunds
      have h3 : ∀ vals : List (Validator α κ), SettledLedger (vals.foldl StateDB.depositValidator
          ((rangeOrder s.delegateRefundSet).foldl StateDB.refundCandidate
            s).clearDelegateRefundSet) := fun _ =>
        Run.foldl_induction StateDB.depositValidator SettledLedger h1
          fun v _ s' hs => hs.depositValidator v
      exact (Run.foldl_induction StateDB.applyRefund SettledLedger (h3 _)
        fun r _ s' hs => hs.applyRefund r).inv
  · exact h

end StakingInvariant

end IntChain
