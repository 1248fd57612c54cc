import IntChain.State.StakingDB
import Mathlib.Algebra.Order.Group.Int

/-!
# The staking ledger invariant

A delegation is written three times, in separate calls: in the user's entry of the candidate's
proxied trie, in the candidate's running total of that field, and in the user's
`DelegateBalance`. `DelegationLedger` states that they agree: every total is the sum of its
entries, every delegate balance is what the user has proxied or deposit proxied over all
candidates, and every entry is within its bounds. `RewardLedger` states the same of the reward
trie and its total, which `SetRewardBalance` would clamp if it ever went negative.

The lemmas below are the moves the staking code makes, each a few calls that must go
together, with the condition on the entry under which it keeps the ledger. `PendingMarked`,
that a candidate with a pending refund is in the delegate refund set, is what the epoch switch
needs to clear every pending refund before it turns deposits back into proxied amounts.
-/

namespace IntChain

namespace AccountProxiedBalance

/-- What the user has delegated through an entry: proxied and deposit proxied. -/
def delegated (a : AccountProxiedBalance) : Int := a.proxiedBalance + a.depositProxiedBalance

/-- The bounds of an entry: nothing negative proxied, and a pending refund between zero and the
deposit proxied amount. -/
def Bounded (a : AccountProxiedBalance) : Prop :=
  0 ≤ a.proxiedBalance ∧ 0 ≤ a.pendingRefundBalance ∧
    a.pendingRefundBalance ≤ a.depositProxiedBalance

@[simp] theorem delegated_zero : zero.delegated = 0 := rfl

theorem delegated_set_add (a : AccountProxiedBalance) (f : ProxiedField) (x : Int) :
    (a.set f (a.get f + x)).delegated = a.delegated + if f = .pendingRefund then 0 else x := by
  cases f <;> simp [delegated, set, get] <;> omega

end AccountProxiedBalance

theorem ProxiedField.total_inj {f g : ProxiedField} : f.total = g.total ↔ f = g := by
  cases f <;> cases g <;> simp [total]

theorem ProxiedField.total_ne_delegateBalance (f : ProxiedField) :
    f.total ≠ .delegateBalance := by
  cases f <;> simp [total]

namespace StateDB

variable {α κ : Type} [DecidableEq α]

/-- The sum of one per-user field over the entries of `c`'s proxied trie. -/
def entrySum (s : StateDB α κ) (c : α) (f : ProxiedField) : Int :=
  (s.account c).proxied.sumBy (·.get f)

/-- What `u` has delegated over all candidates. -/
def delegatedSum (s : StateDB α κ) (u : α) : Int :=
  s.accounts.sumBy fun o => (o.proxied.findD u .zero).delegated

/-- The sum of the entries of `a`'s reward trie. -/
def rewardSum (s : StateDB α κ) (a : α) : Int := (s.account a).reward.sumBy id

end StateDB

variable {α κ : Type} [DecidableEq α]

/-- The delegation part of the ledger. -/
structure DelegationLedger (s : StateDB α κ) : Prop where
  /-- `GetTotalProxiedBalance`, `GetTotalDepositProxiedBalance` and
  `GetTotalPendingRefundBalance` are the sums of the entries. -/
  totals : ∀ c (f : ProxiedField), (s.account c).get f.total = s.entrySum c f
  delegate : ∀ u, s.getDelegateBalance u = s.delegatedSum u
  entries : ∀ c u, (s.getAccountProxiedBalance c u).Bounded

/-- The reward part of the ledger. -/
structure RewardLedger (s : StateDB α κ) : Prop where
  reward : ∀ a, s.getTotalRewardBalance a = s.rewardSum a
  reward_nonneg : ∀ a d, 0 ≤ s.getRewardBalanceByDelegateAddress a d

/-- The staking ledger invariant. -/
def Ledger (s : StateDB α κ) : Prop := DelegationLedger s ∧ RewardLedger s

/-- Every candidate with a pending refund is in the delegate refund set. -/
def PendingMarked (s : StateDB α κ) : Prop :=
  ∀ c u, 0 < s.getPendingRefundBalanceByUser c u → c ∈ s.delegateRefundSet

/-- No pending refund is left. -/
def NoPending (s : StateDB α κ) : Prop := ∀ c u, s.getPendingRefundBalanceByUser c u = 0

/-- An account update that leaves the delegation fields alone. -/
structure DelegationFrame (g : Account α κ → Account α κ) : Prop where
  proxied : ∀ o, (g o).proxied = o.proxied
  totals : ∀ o (f : ProxiedField), (g o).get f.total = o.get f.total
  delegateBalance : ∀ o, (g o).delegateBalance = o.delegateBalance

/-- An account update that leaves the reward fields alone. -/
structure RewardFrame (g : Account α κ → Account α κ) : Prop where
  reward : ∀ o, (g o).reward = o.reward
  rewardBalance : ∀ o, (g o).rewardBalance = o.rewardBalance

namespace StateDB

variable (s : StateDB α κ)

/-! ### What each operation does to the sums -/

theorem field_updateAccount {β : Type} (a : α) (g : Account α κ → Account α κ)
    (F : Account α κ → β) (hF : ∀ o, F (g o) = F o) (c : α) :
    F ((s.updateAccount a g).account c) = F (s.account c) := by
  rw [account_updateAccount]
  split
  · next h => subst h; exact hF _
  · rfl

theorem delegatedSum_updateAccount (a : α) (g : Account α κ → Account α κ)
    (hg : ∀ o, (g o).proxied = o.proxied) (u : α) :
    (s.updateAccount a g).delegatedSum u = s.delegatedSum u := by
  unfold delegatedSum updateAccount
  rw [KeyMap.sumBy_modify _ _ _ _ _ (by simp [Account.empty]), hg, sub_self, add_zero]

theorem get_total_addByUser (f : ProxiedField) (c u : α) (x : Int) (c' : α) (g : ProxiedField) :
    ((s.addByUser f c u x).account c').get g.total =
      (s.account c').get g.total + if c' = c ∧ g = f then x else 0 := by
  unfold addByUser
  rw [account_updateAccount]
  by_cases hc : c' = c
  · subst hc
    rw [if_pos rfl, Account.get_addField]
    have hget : ∀ (o : Account α κ) p b, ({ o with proxied := p } : Account α κ).get b = o.get b := by
      intro o p b; cases b <;> rfl
    by_cases hg : g = f
    · subst hg; simp [hget]
    · have hne : g.total ≠ f.total := fun h => hg (ProxiedField.total_inj.1 h)
      simp [hget, hne, hg]
  · simp [hc]

theorem entrySum_addByUser (f : ProxiedField) (c u : α) (x : Int) (c' : α) (g : ProxiedField) :
    (s.addByUser f c u x).entrySum c' g = s.entrySum c' g + if c' = c ∧ g = f then x else 0 := by
  unfold entrySum addByUser
  rw [account_updateAccount]
  by_cases hc : c' = c
  · subst hc
    simp only [if_true, Account.addField_proxied]
    rw [KeyMap.sumBy_insert_findD _ _ _ AccountProxiedBalance.zero _ (AccountProxiedBalance.get_zero g)]
    by_cases hg : g = f
    · subst hg; simp
    · simp [hg, AccountProxiedBalance.get_set_ne _ _ hg]
  · simp [hc]

theorem delegatedSum_addByUser (f : ProxiedField) (c u : α) (x : Int) (u' : α) :
    (s.addByUser f c u x).delegatedSum u' =
      s.delegatedSum u' + if u' = u ∧ f ≠ .pendingRefund then x else 0 := by
  unfold delegatedSum addByUser updateAccount
  rw [KeyMap.sumBy_modify _ _ _ _ _ (by simp [Account.empty])]
  simp only [Account.addField_proxied, KeyMap.findD_insert]
  by_cases hu : u' = u
  · subst hu
    rw [if_pos rfl, AccountProxiedBalance.delegated_set_add]
    by_cases hf : f = .pendingRefund <;> simp [hf]
  · simp [hu]

theorem getDelegateBalance_addByUser (f : ProxiedField) (c u : α) (x : Int) (u' : α) :
    (s.addByUser f c u x).getDelegateBalance u' = s.getDelegateBalance u' := by
  refine s.field_updateAccount c _ (·.delegateBalance) (fun o => ?_) u'
  exact Account.get_addField_of_ne _ _ (Ne.symm (ProxiedField.total_ne_delegateBalance f))

theorem get_total_addDelegateBalance (a : α) (x : Int) (c : α) (g : ProxiedField) :
    ((s.addDelegateBalance a x).account c).get g.total = (s.account c).get g.total := by
  refine s.field_updateAccount a _ (·.get g.total) (fun o => ?_) c
  simp [Account.get_addField, ProxiedField.total_ne_delegateBalance]

theorem entrySum_addDelegateBalance (a : α) (x : Int) (c : α) (g : ProxiedField) :
    (s.addDelegateBalance a x).entrySum c g = s.entrySum c g :=
  s.field_updateAccount a _ (fun o => o.proxied.sumBy (·.get g)) (fun o => by simp) c

theorem delegatedSum_addDelegateBalance (a : α) (x : Int) (u : α) :
    (s.addDelegateBalance a x).delegatedSum u = s.delegatedSum u :=
  s.delegatedSum_updateAccount a _ (fun o => o.addField_proxied _ x) u

theorem getDelegateBalance_addDelegateBalance (a : α) (x : Int) (u : α) :
    (s.addDelegateBalance a x).getDelegateBalance u =
      s.getDelegateBalance u + if u = a then x else 0 := by
  unfold getDelegateBalance addDelegateBalance
  rw [account_updateAccount]
  by_cases hu : u = a
  · subst hu
    rw [if_pos rfl, if_pos rfl]
    exact Account.get_addField (s.account u) .delegateBalance .delegateBalance x |>.trans
      (if_pos rfl)
  · simp [hu]

theorem getRewardBalanceByDelegateAddress_addRewardBalanceByDelegateAddress (a d : α) (x : Int)
    (a' d' : α) :
    (s.addRewardBalanceByDelegateAddress a d x).getRewardBalanceByDelegateAddress a' d' =
      s.getRewardBalanceByDelegateAddress a' d' + if a' = a ∧ d' = d then x else 0 := by
  unfold getRewardBalanceByDelegateAddress addRewardBalanceByDelegateAddress
  rw [account_updateAccount]
  by_cases ha : a' = a
  · subst ha
    simp only [if_true, Account.addRewardBalance_reward]
    by_cases hd : d' = d
    · subst hd
      cases (s.account a').reward.find? d' <;> simp [KeyMap.find?_insert]
    · simp [KeyMap.find?_insert, hd]
  · simp [ha]

/-- The reward entry `AddRewardBalanceByDelegateAddress` writes is the old one, `nil` read as
zero, plus the amount. -/
theorem reward_addRewardBalanceByDelegateAddress (a d : α) (x : Int) :
    ((s.addRewardBalanceByDelegateAddress a d x).account a).reward =
      (s.account a).reward.insert d (s.getRewardBalanceByDelegateAddress a d + x) := by
  unfold addRewardBalanceByDelegateAddress getRewardBalanceByDelegateAddress
  rw [account_updateAccount_self]
  simp only [Account.addRewardBalance, Account.setRewardBalance]
  cases h : (s.account a).reward.find? d <;> split <;> simp

/-- A subtraction from an existing reward entry is the addition of the opposite amount. -/
theorem subRewardBalanceByDelegateAddress_eq (a d : α) (x : Int) {s' : StateDB α κ}
    (hs : s.subRewardBalanceByDelegateAddress a d x = some s') :
    s' = s.addRewardBalanceByDelegateAddress a d (-x) := by
  unfold subRewardBalanceByDelegateAddress at hs
  split at hs
  · cases hs
  · next r hr =>
    cases hs
    apply s.updateAccount_congr
    simp [Account.subRewardBalance, Account.addRewardBalance, hr, sub_eq_add_neg]

theorem getTotalRewardBalance_addRewardBalanceByDelegateAddress (a d : α) (x : Int) :
    (s.addRewardBalanceByDelegateAddress a d x).getTotalRewardBalance a =
      if x = 0 then s.getTotalRewardBalance a
      else if s.getTotalRewardBalance a + x < 0 then 0 else s.getTotalRewardBalance a + x := by
  unfold addRewardBalanceByDelegateAddress getTotalRewardBalance
  rw [account_updateAccount_self]
  simp only [Account.addRewardBalance, Account.setRewardBalance]
  split <;> rfl

end StateDB

/-! ### Frames -/

namespace DelegationLedger

variable {s : StateDB α κ}

theorem updateAccount (h : DelegationLedger s) (a : α) {g : Account α κ → Account α κ}
    (hg : DelegationFrame g) : DelegationLedger (s.updateAccount a g) where
  totals c f := by
    rw [s.field_updateAccount a g (·.get f.total) (fun o => hg.totals o f) c, h.totals c f]
    exact (s.field_updateAccount a g (fun o => o.proxied.sumBy (·.get f))
      (fun o => by rw [hg.proxied]) c).symm
  delegate u := by
    rw [StateDB.delegatedSum_updateAccount s a g hg.proxied u, ← h.delegate u]
    exact s.field_updateAccount a g (·.delegateBalance) hg.delegateBalance u
  entries c u := by
    rw [StateDB.getAccountProxiedBalance_updateAccount_of_proxied s a g hg.proxied c u]
    exact h.entries c u

theorem markDelegateAddressRefund (h : DelegationLedger s) (a : α) :
    DelegationLedger (s.markDelegateAddressRefund a) := by
  unfold StateDB.markDelegateAddressRefund
  split
  · exact h
  · exact ⟨h.totals, h.delegate, h.entries⟩

theorem clearDelegateRefundSet (h : DelegationLedger s) :
    DelegationLedger s.clearDelegateRefundSet := ⟨h.totals, h.delegate, h.entries⟩

theorem addBalance (h : DelegationLedger s) (a : α) (x : Int) :
    DelegationLedger (s.addBalance a x) :=
  h.updateAccount a ⟨fun o => by simp, fun o f => Account.get_addField_of_ne _ _ (total_ne f),
    fun o => Account.get_addField_of_ne o x (show BalanceField.delegateBalance ≠ .balance by simp)⟩
where
  total_ne (f : ProxiedField) : f.total ≠ .balance := by cases f <;> simp [ProxiedField.total]

theorem subBalance (h : DelegationLedger s) (a : α) (x : Int) :
    DelegationLedger (s.subBalance a x) :=
  h.updateAccount a ⟨fun o => by simp, fun o f => Account.get_subField_of_ne _ _ (addBalance.total_ne f),
    fun o => Account.get_subField_of_ne o x (show BalanceField.delegateBalance ≠ .balance by simp)⟩

theorem subDepositBalance (h : DelegationLedger s) (a : α) (x : Int) :
    DelegationLedger (s.subDepositBalance a x) :=
  h.updateAccount a ⟨fun o => by simp, fun o f => Account.get_subField_of_ne _ _ (by cases f <;> simp [ProxiedField.total]),
    fun o => Account.get_subField_of_ne o x
      (show BalanceField.delegateBalance ≠ .depositBalance by simp)⟩

end DelegationLedger

namespace RewardLedger

variable {s : StateDB α κ}

theorem of_reward_eq {s' : StateDB α κ} (h : RewardLedger s)
    (hr : ∀ a, (s'.account a).reward = (s.account a).reward)
    (hb : ∀ a, (s'.account a).rewardBalance = (s.account a).rewardBalance) : RewardLedger s' where
  reward a := by
    simp only [StateDB.getTotalRewardBalance, StateDB.rewardSum, hr, hb]
    exact h.reward a
  reward_nonneg a d := by
    simp only [StateDB.getRewardBalanceByDelegateAddress, hr]
    exact h.reward_nonneg a d

theorem updateAccount (h : RewardLedger s) (a : α) {g : Account α κ → Account α κ}
    (hg : RewardFrame g) : RewardLedger (s.updateAccount a g) :=
  h.of_reward_eq (s.field_updateAccount a g _ hg.reward)
    (s.field_updateAccount a g _ hg.rewardBalance)

theorem addByUser (h : RewardLedger s) (f : ProxiedField) (c u : α) (x : Int) :
    RewardLedger (s.addByUser f c u x) :=
  h.updateAccount c ⟨fun o => by simp, fun o => by simp⟩

theorem markDelegateAddressRefund (h : RewardLedger s) (a : α) :
    RewardLedger (s.markDelegateAddressRefund a) :=
  h.of_reward_eq (fun _ => by simp) (fun _ => by simp)

theorem clearDelegateRefundSet (h : RewardLedger s) : RewardLedger s.clearDelegateRefundSet :=
  h.of_reward_eq (fun _ => rfl) (fun _ => rfl)

theorem addField (h : RewardLedger s) (a : α) (b : BalanceField) (x : Int) :
    RewardLedger (s.updateAccount a (·.addField b x)) :=
  h.updateAccount a ⟨fun o => by simp, fun o => by simp⟩

theorem subField (h : RewardLedger s) (a : α) (b : BalanceField) (x : Int) :
    RewardLedger (s.updateAccount a (·.subField b x)) :=
  h.updateAccount a ⟨fun o => by simp, fun o => by simp⟩

/-- A reward entry in a trie with no negative entry is at most the trie's sum. -/
theorem entry_le_rewardSum (h : RewardLedger s) (a d : α) :
    s.getRewardBalanceByDelegateAddress a d ≤ s.rewardSum a := by
  have hnn : ∀ e ∈ (s.account a).reward.entries, (0 : Int) ≤ id e.2 := by
    intro e he
    have := h.reward_nonneg a e.1
    rwa [StateDB.getRewardBalanceByDelegateAddress, KeyMap.find?_of_mem he] at this
  exact KeyMap.findD_le_sumBy (f := id) _ d rfl hnn

/-- `AddRewardBalanceByDelegateAddress` keeps the reward ledger when the entry stays
nonnegative; the total then stays above the entry, so `SetRewardBalance` never clamps. -/
theorem addRewardBalanceByDelegateAddress (h : RewardLedger s) (a d : α) (x : Int)
    (hx : 0 ≤ s.getRewardBalanceByDelegateAddress a d + x) :
    RewardLedger (s.addRewardBalanceByDelegateAddress a d x) where
  reward a' := by
    by_cases ha : a' = a
    · subst ha
      have hle := h.entry_le_rewardSum a' d
      have hsum : (s.addRewardBalanceByDelegateAddress a' d x).rewardSum a' =
          s.rewardSum a' + x := by
        unfold StateDB.rewardSum
        rw [s.reward_addRewardBalanceByDelegateAddress,
          KeyMap.sumBy_insert_findD _ _ _ 0 id rfl]
        simp [StateDB.getRewardBalanceByDelegateAddress, KeyMap.findD]
      rw [hsum, s.getTotalRewardBalance_addRewardBalanceByDelegateAddress, h.reward a']
      split_ifs <;> omega
    · have hacc : (s.addRewardBalanceByDelegateAddress a d x).account a' = s.account a' :=
        s.account_updateAccount_ne _ ha
      simp only [StateDB.getTotalRewardBalance, StateDB.rewardSum, hacc]
      exact h.reward a'
  reward_nonneg a' d' := by
    rw [s.getRewardBalanceByDelegateAddress_addRewardBalanceByDelegateAddress]
    have := h.reward_nonneg a' d'
    split_ifs with had
    · obtain ⟨rfl, rfl⟩ := had; exact hx
    · omega

/-- `SubRewardBalanceByDelegateAddress` of an amount the entry covers keeps the reward
ledger. -/
theorem subRewardBalanceByDelegateAddress (h : RewardLedger s) (a d : α) (x : Int)
    (hx : x ≤ s.getRewardBalanceByDelegateAddress a d) {s' : StateDB α κ}
    (hs : s.subRewardBalanceByDelegateAddress a d x = some s') : RewardLedger s' := by
  rw [s.subRewardBalanceByDelegateAddress_eq a d x hs]
  exact h.addRewardBalanceByDelegateAddress a d (-x) (by omega)

end RewardLedger

/-! ### The moves of the delegation ledger -/

namespace StateDB

variable (s : StateDB α κ)

theorem totals_addByUser (hT : ∀ c (g : ProxiedField), (s.account c).get g.total = s.entrySum c g)
    (f : ProxiedField) (c u : α) (x : Int) (c' : α) (g : ProxiedField) :
    ((s.addByUser f c u x).account c').get g.total = (s.addByUser f c u x).entrySum c' g := by
  rw [get_total_addByUser, entrySum_addByUser, hT]

theorem totals_addDelegateBalance
    (hT : ∀ c (g : ProxiedField), (s.account c).get g.total = s.entrySum c g)
    (a : α) (x : Int) (c : α) (g : ProxiedField) :
    ((s.addDelegateBalance a x).account c).get g.total = (s.addDelegateBalance a x).entrySum c g := by
  rw [get_total_addDelegateBalance, entrySum_addDelegateBalance, hT]

/-- `Add…BalanceByUser` keeps the bounds of the entries when the entry it writes is bounded. -/
theorem entries_addByUser (hE : ∀ c u, (s.getAccountProxiedBalance c u).Bounded)
    (f : ProxiedField) (c u : α) (x : Int)
    (hb : ((s.getAccountProxiedBalance c u).set f ((s.getAccountProxiedBalance c u).get f + x)).Bounded)
    (c' u' : α) : ((s.addByUser f c u x).getAccountProxiedBalance c' u').Bounded := by
  rw [getAccountProxiedBalance_addByUser]
  split_ifs with hcu
  · exact hb
  · exact hE c' u'

/-- The entry bounds survive a change that only touches the entry `(c, u)` and leaves it
bounded. -/
theorem entries_of_eq {s' : StateDB α κ} (hE : ∀ c u, (s.getAccountProxiedBalance c u).Bounded)
    (c u : α)
    (hne : ∀ c' u', ¬(c' = c ∧ u' = u) →
      s'.getAccountProxiedBalance c' u' = s.getAccountProxiedBalance c' u')
    (hb : (s'.getAccountProxiedBalance c u).Bounded) (c' u' : α) :
    (s'.getAccountProxiedBalance c' u').Bounded := by
  by_cases hcu : c' = c ∧ u' = u
  · obtain ⟨rfl, rfl⟩ := hcu
    exact hb
  · rw [hne c' u' hcu]
    exact hE c' u'

end StateDB

namespace DelegationLedger

variable {s : StateDB α κ}

/-- A delegation of `x` from `u` to `c`: `registerApplyCb` and `delegateApplyCb`. -/
theorem addDelegation (h : DelegationLedger s) (c u : α) {x : Int} (hx : 0 ≤ x) :
    DelegationLedger ((s.addDelegateBalance u x).addProxiedBalanceByUser c u x) where
  totals := StateDB.totals_addByUser _ (StateDB.totals_addDelegateBalance s h.totals u x) _ c u x
  delegate u' := by
    simp only [StateDB.addProxiedBalanceByUser, StateDB.getDelegateBalance_addByUser,
      StateDB.delegatedSum_addByUser, StateDB.getDelegateBalance_addDelegateBalance,
      StateDB.delegatedSum_addDelegateBalance, h.delegate u']
    by_cases hu : u' = u <;> simp [hu]
  entries := by
    refine StateDB.entries_addByUser _ (fun c u => ?_) _ c u x ?_
    · rw [StateDB.getAccountProxiedBalance_addDelegateBalance]; exact h.entries c u
    · have hb := h.entries c u
      simp only [StateDB.getAccountProxiedBalance_addDelegateBalance]
      simp only [AccountProxiedBalance.Bounded, AccountProxiedBalance.set,
        AccountProxiedBalance.get] at hb ⊢
      omega

/-- An immediate refund of `x` of what `u` proxied to `c`: `unDelegateApplyCb` and the
callback of `unRegisterApplyCb`. -/
theorem removeDelegation (h : DelegationLedger s) (c u : α) {x : Int}
    (hx : x ≤ s.getProxiedBalanceByUser c u) :
    DelegationLedger ((s.subProxiedBalanceByUser c u x).subDelegateBalance u x) := by
  simp only [StateDB.subProxiedBalanceByUser, StateDB.subByUser_eq_addByUser_neg,
    StateDB.subDelegateBalance_eq_addDelegateBalance_neg]
  refine ⟨StateDB.totals_addDelegateBalance _ (StateDB.totals_addByUser s h.totals _ c u _) _ _,
    fun u' => ?_, StateDB.entries_of_eq s h.entries c u (fun c' u' hcu => ?_) ?_⟩
  · simp only [StateDB.getDelegateBalance_addByUser, StateDB.delegatedSum_addByUser,
      StateDB.getDelegateBalance_addDelegateBalance, StateDB.delegatedSum_addDelegateBalance,
      h.delegate u']
    by_cases hu : u' = u <;> simp [hu]
  · simp [StateDB.getAccountProxiedBalance_addByUser, hcu]
  · have hb := h.entries c u
    simp only [StateDB.getProxiedBalanceByUser] at hx
    simp only [StateDB.getAccountProxiedBalance_addDelegateBalance,
      StateDB.getAccountProxiedBalance_addByUser, and_self, if_true]
    simp only [AccountProxiedBalance.Bounded, AccountProxiedBalance.set,
      AccountProxiedBalance.get] at hb ⊢
    omega

/-- A pending refund of `x` more: `unDelegateApplyCb` and the callback of `unRegisterApplyCb`. -/
theorem addPending (h : DelegationLedger s) (c u : α) {x : Int}
    (h0 : 0 ≤ s.getPendingRefundBalanceByUser c u + x)
    (h1 : s.getPendingRefundBalanceByUser c u + x ≤ s.getDepositProxiedBalanceByUser c u) :
    DelegationLedger (s.addPendingRefundBalanceByUser c u x) := by
  refine ⟨StateDB.totals_addByUser s h.totals _ c u x, fun u' => ?_,
    StateDB.entries_of_eq s h.entries c u (fun c' u' hcu => ?_) ?_⟩
  · simp [StateDB.addPendingRefundBalanceByUser, StateDB.getDelegateBalance_addByUser,
      StateDB.delegatedSum_addByUser, h.delegate u']
  · simp [StateDB.addPendingRefundBalanceByUser, StateDB.getAccountProxiedBalance_addByUser, hcu]
  · have hb := h.entries c u
    simp only [StateDB.getPendingRefundBalanceByUser, StateDB.getDepositProxiedBalanceByUser] at h0 h1
    simp only [StateDB.addPendingRefundBalanceByUser, StateDB.getAccountProxiedBalance_addByUser,
      and_self, if_true]
    simp only [AccountProxiedBalance.Bounded, AccountProxiedBalance.set,
      AccountProxiedBalance.get] at hb ⊢
    omega

/-- The refund of a pending refund at the epoch end: step 1 of `ShouldEnterNewEpoch`. -/
theorem refundPending (h : DelegationLedger s) (c u : α) :
    let x := s.getPendingRefundBalanceByUser c u
    DelegationLedger (((s.subDepositProxiedBalanceByUser c u x).subPendingRefundBalanceByUser c u
      x).subDelegateBalance u x) := by
  intro x
  simp only [StateDB.subDepositProxiedBalanceByUser, StateDB.subPendingRefundBalanceByUser,
    StateDB.subByUser_eq_addByUser_neg, StateDB.subDelegateBalance_eq_addDelegateBalance_neg]
  refine ⟨StateDB.totals_addDelegateBalance _ (StateDB.totals_addByUser _
      (StateDB.totals_addByUser s h.totals _ c u _) _ c u _) _ _, fun u' => ?_,
    StateDB.entries_of_eq s h.entries c u (fun c' u' hcu => ?_) ?_⟩
  · simp only [StateDB.getDelegateBalance_addByUser, StateDB.delegatedSum_addByUser,
      StateDB.getDelegateBalance_addDelegateBalance, StateDB.delegatedSum_addDelegateBalance,
      h.delegate u']
    by_cases hu : u' = u <;> simp [hu]
  · simp [StateDB.getAccountProxiedBalance_addByUser, hcu]
  · have hb := h.entries c u
    simp only [StateDB.getAccountProxiedBalance_addDelegateBalance,
      StateDB.getAccountProxiedBalance_addByUser, and_self, if_true, x,
      StateDB.getPendingRefundBalanceByUser]
    simp only [AccountProxiedBalance.Bounded, AccountProxiedBalance.set,
      AccountProxiedBalance.get] at hb ⊢
    omega

/-- A move of `x` from proxied to deposit proxied: step 3 of `ShouldEnterNewEpoch`. -/
theorem depositProxied (h : DelegationLedger s) (c u : α) {x : Int} (hx0 : 0 ≤ x)
    (hx : x ≤ s.getProxiedBalanceByUser c u) :
    DelegationLedger ((s.subProxiedBalanceByUser c u x).addDepositProxiedBalanceByUser c u x) := by
  simp only [StateDB.subProxiedBalanceByUser, StateDB.addDepositProxiedBalanceByUser,
    StateDB.subByUser_eq_addByUser_neg]
  refine ⟨StateDB.totals_addByUser _ (StateDB.totals_addByUser s h.totals _ c u _) _ c u _,
    fun u' => ?_, StateDB.entries_of_eq s h.entries c u (fun c' u' hcu => ?_) ?_⟩
  · simp only [StateDB.getDelegateBalance_addByUser, StateDB.delegatedSum_addByUser, h.delegate u']
    by_cases hu : u' = u <;> simp [hu]
  · simp [StateDB.getAccountProxiedBalance_addByUser, hcu]
  · have hb := h.entries c u
    simp only [StateDB.getProxiedBalanceByUser] at hx
    simp only [StateDB.getAccountProxiedBalance_addByUser, and_self, if_true]
    simp only [AccountProxiedBalance.Bounded, AccountProxiedBalance.set,
      AccountProxiedBalance.get] at hb ⊢
    omega

/-- A move of `x` from deposit proxied back to proxied: the vote-out refund of step 4 of
`ShouldEnterNewEpoch`. -/
theorem withdrawDeposit (h : DelegationLedger s) (c u : α) {x : Int} (hx0 : 0 ≤ x)
    (hx : s.getPendingRefundBalanceByUser c u ≤ s.getDepositProxiedBalanceByUser c u - x) :
    DelegationLedger ((s.subDepositProxiedBalanceByUser c u x).addProxiedBalanceByUser c u x) := by
  simp only [StateDB.subDepositProxiedBalanceByUser, StateDB.addProxiedBalanceByUser,
    StateDB.subByUser_eq_addByUser_neg]
  refine ⟨StateDB.totals_addByUser _ (StateDB.totals_addByUser s h.totals _ c u _) _ c u _,
    fun u' => ?_, StateDB.entries_of_eq s h.entries c u (fun c' u' hcu => ?_) ?_⟩
  · simp only [StateDB.getDelegateBalance_addByUser, StateDB.delegatedSum_addByUser, h.delegate u']
    by_cases hu : u' = u <;> simp [hu]
  · simp [StateDB.getAccountProxiedBalance_addByUser, hcu]
  · have hb := h.entries c u
    simp only [StateDB.getPendingRefundBalanceByUser, StateDB.getDepositProxiedBalanceByUser] at hx
    simp only [StateDB.getAccountProxiedBalance_addByUser, and_self, if_true]
    simp only [AccountProxiedBalance.Bounded, AccountProxiedBalance.set,
      AccountProxiedBalance.get] at hb ⊢
    omega

theorem clearCommission (h : DelegationLedger s) (a : α) :
    DelegationLedger (s.clearCommission a) :=
  h.updateAccount a ⟨fun _ => rfl, fun _ f => by cases f <;> rfl, fun _ => rfl⟩

theorem applyForCandidate (h : DelegationLedger s) (a : α) (pubkey : κ) (commission : UInt8) :
    DelegationLedger (s.applyForCandidate a pubkey commission) :=
  h.updateAccount a ⟨fun _ => rfl, fun _ f => by cases f <;> rfl, fun _ => rfl⟩

theorem cancelCandidate (h : DelegationLedger s) (a : α) (allRefund : Bool) :
    DelegationLedger (s.cancelCandidate a allRefund) :=
  h.updateAccount a ⟨fun _ => rfl, fun _ f => by cases f <;> rfl, fun _ => rfl⟩

theorem addRewardBalanceByDelegateAddress (h : DelegationLedger s) (a d : α) (x : Int) :
    DelegationLedger (s.addRewardBalanceByDelegateAddress a d x) := by
  refine h.updateAccount a ⟨fun o => by simp, fun o f => ?_, fun o => ?_⟩ <;>
  · simp only [Account.addRewardBalance, Account.setRewardBalance]
    split <;> rfl

theorem subRewardBalanceByDelegateAddress (h : DelegationLedger s) (a d : α) (x : Int)
    {s' : StateDB α κ} (hs : s.subRewardBalanceByDelegateAddress a d x = some s') :
    DelegationLedger s' := by
  rw [s.subRewardBalanceByDelegateAddress_eq a d x hs]
  exact h.addRewardBalanceByDelegateAddress a d (-x)

end DelegationLedger

namespace RewardLedger

variable {s : StateDB α κ}

theorem clearCommission (h : RewardLedger s) (a : α) : RewardLedger (s.clearCommission a) :=
  h.updateAccount a ⟨fun _ => rfl, fun _ => rfl⟩

theorem applyForCandidate (h : RewardLedger s) (a : α) (pubkey : κ) (commission : UInt8) :
    RewardLedger (s.applyForCandidate a pubkey commission) :=
  h.updateAccount a ⟨fun _ => rfl, fun _ => rfl⟩

theorem cancelCandidate (h : RewardLedger s) (a : α) (allRefund : Bool) :
    RewardLedger (s.cancelCandidate a allRefund) :=
  h.updateAccount a ⟨fun _ => rfl, fun _ => rfl⟩

end RewardLedger

/-! ### Pending refunds and the refund set -/

namespace StateDB

variable (s : StateDB α κ)

/-- A change other than an increase of a pending refund does not increase one. -/
theorem pending_addByUser_le (f : ProxiedField) (c u : α) (x : Int)
    (hf : f ≠ .pendingRefund ∨ x ≤ 0) (c' u' : α) :
    (s.addByUser f c u x).getPendingRefundBalanceByUser c' u' ≤
      s.getPendingRefundBalanceByUser c' u' := by
  unfold getPendingRefundBalanceByUser
  rw [getAccountProxiedBalance_addByUser]
  split_ifs with hcu
  · obtain ⟨rfl, rfl⟩ := hcu
    cases f <;> simp [AccountProxiedBalance.set, AccountProxiedBalance.get] at hf ⊢
    exact hf
  · exact le_rfl

end StateDB

namespace PendingMarked

variable {s : StateDB α κ}

/-- `PendingMarked` survives any change that increases no pending refund and removes no
candidate from the refund set. -/
theorem of_le {s' : StateDB α κ} (h : PendingMarked s)
    (hle : ∀ c u, s'.getPendingRefundBalanceByUser c u ≤ s.getPendingRefundBalanceByUser c u)
    (hr : ∀ c ∈ s.delegateRefundSet, c ∈ s'.delegateRefundSet) : PendingMarked s' :=
  fun c u hp => hr c (h c u (lt_of_lt_of_le hp (hle c u)))

theorem of_entries_eq {s' : StateDB α κ} (h : PendingMarked s)
    (he : ∀ c u, s'.getAccountProxiedBalance c u = s.getAccountProxiedBalance c u)
    (hr : s'.delegateRefundSet = s.delegateRefundSet) : PendingMarked s' :=
  h.of_le (fun c u => by simp [StateDB.getPendingRefundBalanceByUser, he]) (fun c hc => hr ▸ hc)

theorem addByUser (h : PendingMarked s) (f : ProxiedField) (c u : α) (x : Int)
    (hf : f ≠ .pendingRefund ∨ x ≤ 0) : PendingMarked (s.addByUser f c u x) :=
  h.of_le (s.pending_addByUser_le f c u x hf) (fun _ hc => hc)

/-- A pending refund that grows is marked: `unDelegateApplyCb` and `unRegisterApplyCb`. -/
theorem addPending_mark (h : PendingMarked s) (c u : α) (x : Int) :
    PendingMarked ((s.addPendingRefundBalanceByUser c u x).markDelegateAddressRefund c) := by
  intro c' u' hp
  rw [StateDB.mem_delegateRefundSet_mark]
  by_cases hc : c' = c
  · exact Or.inl hc
  · right
    refine h c' u' ?_
    simpa [StateDB.getPendingRefundBalanceByUser, StateDB.addPendingRefundBalanceByUser,
      StateDB.getAccountProxiedBalance_addByUser, hc] using hp

theorem markDelegateAddressRefund (h : PendingMarked s) (a : α) :
    PendingMarked (s.markDelegateAddressRefund a) :=
  h.of_le (fun c u => by simp [StateDB.getPendingRefundBalanceByUser])
    (fun c hc => (s.mem_delegateRefundSet_mark a c).2 (Or.inr hc))

end PendingMarked

theorem PendingMarked.updateAccount {s : StateDB α κ} (h : PendingMarked s) (a : α)
    {g : Account α κ → Account α κ} (hg : ∀ o, (g o).proxied = o.proxied) :
    PendingMarked (s.updateAccount a g) :=
  h.of_entries_eq (s.getAccountProxiedBalance_updateAccount_of_proxied a g hg) rfl

/-- With no pending refund every candidate with one is marked, vacuously. -/
theorem NoPending.pendingMarked {s : StateDB α κ} (h : NoPending s) : PendingMarked s := by
  intro c u hp
  rw [h c u] at hp
  exact absurd hp (lt_irrefl 0)

/-- No pending refund appears where none was and none can go negative. -/
theorem NoPending.of_le {s s' : StateDB α κ} (h : NoPending s) (hL : DelegationLedger s')
    (hle : ∀ c u, s'.getPendingRefundBalanceByUser c u ≤ s.getPendingRefundBalanceByUser c u) :
    NoPending s' := by
  intro c u
  have h0 := (hL.entries c u).2.1
  have h1 := hle c u
  rw [h c u] at h1
  exact le_antisymm h1 h0

/-- The invariant the staking code keeps: the ledger, and every pending refund marked. -/
structure StakingInvariant (s : StateDB α κ) : Prop where
  delegation : DelegationLedger s
  reward : RewardLedger s
  pendingMarked : PendingMarked s

namespace StakingInvariant

variable {s : StateDB α κ}

theorem ledger (h : StakingInvariant s) : Ledger s := ⟨h.delegation, h.reward⟩

/-! ### The moves on the whole invariant -/

theorem updateAccount (h : StakingInvariant s) (a : α) {g : Account α κ → Account α κ}
    (hd : DelegationFrame g) (hr : RewardFrame g) : StakingInvariant (s.updateAccount a g) :=
  ⟨h.delegation.updateAccount a hd, h.reward.updateAccount a hr,
    h.pendingMarked.updateAccount a hd.proxied⟩

theorem addBalance (h : StakingInvariant s) (a : α) (x : Int) :
    StakingInvariant (s.addBalance a x) :=
  ⟨h.delegation.addBalance a x, h.reward.addField a .balance x,
    h.pendingMarked.updateAccount a fun o => o.addField_proxied _ x⟩

theorem subBalance (h : StakingInvariant s) (a : α) (x : Int) :
    StakingInvariant (s.subBalance a x) :=
  ⟨h.delegation.subBalance a x, h.reward.subField a .balance x,
    h.pendingMarked.updateAccount a fun o => o.subField_proxied _ x⟩

theorem subDepositBalance (h : StakingInvariant s) (a : α) (x : Int) :
    StakingInvariant (s.subDepositBalance a x) :=
  ⟨h.delegation.subDepositBalance a x, h.reward.subField a .depositBalance x,
    h.pendingMarked.updateAccount a fun o => o.subField_proxied _ x⟩

theorem clearCommission (h : StakingInvariant s) (a : α) :
    StakingInvariant (s.clearCommission a) :=
  ⟨h.delegation.clearCommission a, h.reward.clearCommission a,
    h.pendingMarked.updateAccount a fun _ => rfl⟩

theorem applyForCandidate (h : StakingInvariant s) (a : α) (pubkey : κ) (commission : UInt8) :
    StakingInvariant (s.applyForCandidate a pubkey commission) :=
  ⟨h.delegation.applyForCandidate a pubkey commission,
    h.reward.applyForCandidate a pubkey commission, h.pendingMarked.updateAccount a fun _ => rfl⟩

theorem cancelCandidate (h : StakingInvariant s) (a : α) (allRefund : Bool) :
    StakingInvariant (s.cancelCandidate a allRefund) :=
  ⟨h.delegation.cancelCandidate a allRefund, h.reward.cancelCandidate a allRefund,
    h.pendingMarked.updateAccount a fun _ => rfl⟩

theorem markDelegateAddressRefund (h : StakingInvariant s) (a : α) :
    StakingInvariant (s.markDelegateAddressRefund a) :=
  ⟨h.delegation.markDelegateAddressRefund a, h.reward.markDelegateAddressRefund a,
    h.pendingMarked.markDelegateAddressRefund a⟩

theorem addDelegation (h : StakingInvariant s) (c u : α) {x : Int} (hx : 0 ≤ x) :
    StakingInvariant ((s.addDelegateBalance u x).addProxiedBalanceByUser c u x) :=
  ⟨h.delegation.addDelegation c u hx, (h.reward.addField u .delegateBalance x).addByUser _ c u x,
    (h.pendingMarked.updateAccount u fun o => o.addField_proxied _ x).addByUser _ c u x
      (Or.inl (by decide))⟩

theorem removeDelegation (h : StakingInvariant s) (c u : α) {x : Int}
    (hx : x ≤ s.getProxiedBalanceByUser c u) :
    StakingInvariant ((s.subProxiedBalanceByUser c u x).subDelegateBalance u x) := by
  refine ⟨h.delegation.removeDelegation c u hx, ?_, ?_⟩ <;>
    rw [StateDB.subProxiedBalanceByUser, StateDB.subByUser_eq_addByUser_neg]
  · exact (h.reward.addByUser .proxied c u (-x)).subField u .delegateBalance x
  · exact (h.pendingMarked.addByUser _ c u (-x) (Or.inl (by decide))).updateAccount u
      fun o => o.subField_proxied _ x

theorem addPendingMark (h : StakingInvariant s) (c u : α) {x : Int}
    (h0 : 0 ≤ s.getPendingRefundBalanceByUser c u + x)
    (h1 : s.getPendingRefundBalanceByUser c u + x ≤ s.getDepositProxiedBalanceByUser c u) :
    StakingInvariant ((s.addPendingRefundBalanceByUser c u x).markDelegateAddressRefund c) :=
  ⟨(h.delegation.addPending c u h0 h1).markDelegateAddressRefund c,
    (h.reward.addByUser _ c u x).markDelegateAddressRefund c, h.pendingMarked.addPending_mark c u x⟩

theorem addRewardBalanceByDelegateAddress (h : StakingInvariant s) (a d : α) {x : Int}
    (hx : 0 ≤ s.getRewardBalanceByDelegateAddress a d + x) :
    StakingInvariant (s.addRewardBalanceByDelegateAddress a d x) :=
  ⟨h.delegation.addRewardBalanceByDelegateAddress a d x,
    h.reward.addRewardBalanceByDelegateAddress a d x hx,
    h.pendingMarked.of_entries_eq (by simp) rfl⟩

theorem subRewardBalanceByDelegateAddress (h : StakingInvariant s) (a d : α) {x : Int}
    (hx : x ≤ s.getRewardBalanceByDelegateAddress a d) {s' : StateDB α κ}
    (hs : s.subRewardBalanceByDelegateAddress a d x = some s') : StakingInvariant s' := by
  rw [s.subRewardBalanceByDelegateAddress_eq a d x hs]
  exact h.addRewardBalanceByDelegateAddress a d (by omega)

theorem depositProxied (h : StakingInvariant s) (c u : α) {x : Int} (hx0 : 0 ≤ x)
    (hx : x ≤ s.getProxiedBalanceByUser c u) :
    StakingInvariant ((s.subProxiedBalanceByUser c u x).addDepositProxiedBalanceByUser c u x) := by
  refine ⟨h.delegation.depositProxied c u hx0 hx, ?_, ?_⟩ <;>
    rw [StateDB.subProxiedBalanceByUser, StateDB.addDepositProxiedBalanceByUser,
      StateDB.subByUser_eq_addByUser_neg]
  · exact (h.reward.addByUser _ c u _).addByUser _ c u _
  · exact (h.pendingMarked.addByUser _ c u _ (Or.inl (by decide))).addByUser _ c u _
      (Or.inl (by decide))

theorem withdrawDeposit (h : StakingInvariant s) (c u : α) {x : Int} (hx0 : 0 ≤ x)
    (hx : s.getPendingRefundBalanceByUser c u ≤ s.getDepositProxiedBalanceByUser c u - x) :
    StakingInvariant ((s.subDepositProxiedBalanceByUser c u x).addProxiedBalanceByUser c u x) := by
  refine ⟨h.delegation.withdrawDeposit c u hx0 hx, ?_, ?_⟩ <;>
    rw [StateDB.subDepositProxiedBalanceByUser, StateDB.addProxiedBalanceByUser,
      StateDB.subByUser_eq_addByUser_neg]
  · exact (h.reward.addByUser _ c u _).addByUser _ c u _
  · exact (h.pendingMarked.addByUser _ c u _ (Or.inl (by decide))).addByUser _ c u _
      (Or.inl (by decide))

/-- The empty database satisfies the invariant. -/
theorem empty : StakingInvariant (StateDB.empty : StateDB α κ) where
  delegation := ⟨fun c f => by cases f <;> rfl, fun u => rfl, fun c u => ⟨le_rfl, le_rfl, le_rfl⟩⟩
  reward := ⟨fun a => rfl, fun a d => le_rfl⟩
  pendingMarked c u hp := absurd hp (lt_irrefl 0)

end StakingInvariant

end IntChain
