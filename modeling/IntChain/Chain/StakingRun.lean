import IntChain.Chain.StakingLedger
import IntChain.Chain.RewardSplit
import IntChain.Epoch.SwitchLedger
import IntChain.Epoch.SwitchValue

/-!
# Runs of the staking state

A step of the staking state is a staking transaction whose apply callback succeeds, the block
reward, or the epoch switch. Two checks of the chain bound the steps. `ApplyTransactionEx`
refuses a transaction whose value is more than its sender's balance before any callback runs.
`Finalize` ends with `IntermediateRoot`, whose `updateStateObject` panics when rlp refuses a
negative amount of an account, so a switch that leaves a negative deposit ends the chain there.

Every state the chain reaches therefore has no negative balance and no negative own deposit,
and every candidate with a pending refund is in the refund set. With the ledger this is
`ChainInvariant`: it holds of the empty state and every step keeps it, so every run does. The
rewarded coinbase's own deposit is then nonnegative, which the reward's `big.Float` self share
needs.
-/

namespace IntChain

variable {α κ : Type}

/-! ### What `IntermediateRoot` accepts -/

/-- The amounts of an account that `updateStateObject` encodes with rlp, which refuses a
negative `*big.Int`. -/
def Account.Encodable (o : Account α κ) : Prop :=
  0 ≤ o.balance ∧ 0 ≤ o.depositBalance ∧ 0 ≤ o.delegateBalance ∧ 0 ≤ o.proxiedBalance ∧
    0 ≤ o.depositProxiedBalance ∧ 0 ≤ o.pendingRefundBalance ∧ 0 ≤ o.rewardBalance

instance (o : Account α κ) : Decidable o.Encodable :=
  inferInstanceAs (Decidable (0 ≤ o.balance ∧ 0 ≤ o.depositBalance ∧ 0 ≤ o.delegateBalance ∧
    0 ≤ o.proxiedBalance ∧ 0 ≤ o.depositProxiedBalance ∧ 0 ≤ o.pendingRefundBalance ∧
    0 ≤ o.rewardBalance))

theorem Account.balance_addField (o : Account α κ) (x : Int) :
    (o.addField .balance x).balance = o.balance + x := by
  unfold addField
  split
  · next hx => rw [hx, add_zero]
  · rfl

theorem Account.balance_subField (o : Account α κ) (x : Int) :
    (o.subField .balance x).balance = o.balance - x := by
  unfold subField
  split
  · next hx => rw [hx, sub_zero]
  · rfl

theorem ProxiedField.total_ne_balance (f : ProxiedField) : f.total ≠ .balance := by
  cases f <;> decide

theorem ProxiedField.total_ne_depositBalance (f : ProxiedField) : f.total ≠ .depositBalance := by
  cases f <;> decide

/-- An account update that leaves the balance and the own deposit alone. -/
structure FundsFrame (g : Account α κ → Account α κ) : Prop where
  balance : ∀ o, (g o).balance = o.balance
  depositBalance : ∀ o, (g o).depositBalance = o.depositBalance

theorem fundsFrame_addField {f : BalanceField} (x : Int) (hb : f ≠ .balance)
    (hd : f ≠ .depositBalance) : FundsFrame (α := α) (κ := κ) (·.addField f x) :=
  ⟨fun o => o.get_addField_of_ne x hb.symm, fun o => o.get_addField_of_ne x hd.symm⟩

theorem fundsFrame_subField {f : BalanceField} (x : Int) (hb : f ≠ .balance)
    (hd : f ≠ .depositBalance) : FundsFrame (α := α) (κ := κ) (·.subField f x) :=
  ⟨fun o => o.get_subField_of_ne x hb.symm, fun o => o.get_subField_of_ne x hd.symm⟩

theorem Account.addRewardBalance_balance (o : Account α κ) (x : Int) :
    (o.addRewardBalance x).balance = o.balance := by
  unfold addRewardBalance
  split <;> rfl

theorem Account.addRewardBalance_depositBalance (o : Account α κ) (x : Int) :
    (o.addRewardBalance x).depositBalance = o.depositBalance := by
  unfold addRewardBalance
  split <;> rfl

theorem Account.subRewardBalance_balance (o : Account α κ) (x : Int) :
    (o.subRewardBalance x).balance = o.balance := by
  unfold subRewardBalance
  split <;> rfl

theorem Account.subRewardBalance_depositBalance (o : Account α κ) (x : Int) :
    (o.subRewardBalance x).depositBalance = o.depositBalance := by
  unfold subRewardBalance
  split <;> rfl

variable [DecidableEq α]

namespace StateDB

/-- `IntermediateRoot` gets through `updateStateObject` of every account: none panics. -/
def IntermediateRootOk (s : StateDB α κ) : Prop := ∀ e ∈ s.accounts.entries, e.2.Encodable

instance (s : StateDB α κ) : Decidable s.IntermediateRootOk :=
  inferInstanceAs (Decidable (∀ e ∈ s.accounts.entries, e.2.Encodable))

/-- No balance and no own deposit is negative. -/
def Funded (s : StateDB α κ) : Prop := ∀ a, 0 ≤ s.getBalance a ∧ 0 ≤ s.getDepositBalance a

/-- An account the state does not hold reads as the empty one, whose amounts are zero. -/
theorem IntermediateRootOk.funded {s : StateDB α κ} (h : s.IntermediateRootOk) : s.Funded := by
  intro a
  unfold getBalance getDepositBalance account KeyMap.findD
  cases hf : s.accounts.find? a with
  | none => exact ⟨le_rfl, le_rfl⟩
  | some o =>
    obtain ⟨hb, hd, -⟩ := h (a, o) (KeyMap.mem_of_find? hf)
    exact ⟨hb, hd⟩

namespace Funded

variable {s : StateDB α κ}

theorem empty : (StateDB.empty : StateDB α κ).Funded := fun _ => ⟨le_rfl, le_rfl⟩

theorem updateAccount (h : s.Funded) (a : α) {g : Account α κ → Account α κ}
    (hg : 0 ≤ (g (s.account a)).balance ∧ 0 ≤ (g (s.account a)).depositBalance) :
    (s.updateAccount a g).Funded := by
  intro b
  unfold getBalance getDepositBalance
  rw [account_updateAccount]
  split_ifs with hb
  · exact hg
  · exact h b

theorem frame (h : s.Funded) (a : α) {g : Account α κ → Account α κ} (hg : FundsFrame g) :
    (s.updateAccount a g).Funded :=
  h.updateAccount a (by rw [hg.balance, hg.depositBalance]; exact h a)

/-- A change of the balance alone keeps the state funded when the new balance is nonnegative. -/
theorem updateBalance (h : s.Funded) (a : α) {g : Account α κ → Account α κ}
    (hd : ∀ o, (g o).depositBalance = o.depositBalance) (hb : 0 ≤ (g (s.account a)).balance) :
    (s.updateAccount a g).Funded :=
  h.updateAccount a ⟨hb, (hd _).trans_ge (h a).2⟩

theorem addBalance (h : s.Funded) (a : α) {x : Int} (hx : 0 ≤ x) : (s.addBalance a x).Funded := by
  refine h.updateBalance a (fun o => o.get_addField_of_ne x
    (by decide : BalanceField.depositBalance ≠ .balance)) ?_
  rw [Account.balance_addField]
  have := (h a).1
  unfold getBalance at this
  omega

theorem subBalance (h : s.Funded) (a : α) {x : Int} (hx : x ≤ s.getBalance a) :
    (s.subBalance a x).Funded := by
  refine h.updateBalance a (fun o => o.get_subField_of_ne x
    (by decide : BalanceField.depositBalance ≠ .balance)) ?_
  rw [Account.balance_subField]
  unfold getBalance at hx
  omega

theorem addDelegateBalance (h : s.Funded) (a : α) (x : Int) :
    (s.addDelegateBalance a x).Funded :=
  h.frame a (fundsFrame_addField x (by decide) (by decide))

theorem subDelegateBalance (h : s.Funded) (a : α) (x : Int) :
    (s.subDelegateBalance a x).Funded :=
  h.frame a (fundsFrame_subField x (by decide) (by decide))

theorem addByUser (h : s.Funded) (f : ProxiedField) (c u : α) (x : Int) :
    (s.addByUser f c u x).Funded :=
  h.frame c ⟨fun _ => Account.get_addField_of_ne _ x f.total_ne_balance.symm,
    fun _ => Account.get_addField_of_ne _ x f.total_ne_depositBalance.symm⟩

theorem subByUser (h : s.Funded) (f : ProxiedField) (c u : α) (x : Int) :
    (s.subByUser f c u x).Funded :=
  h.frame c ⟨fun _ => Account.get_subField_of_ne _ x f.total_ne_balance.symm,
    fun _ => Account.get_subField_of_ne _ x f.total_ne_depositBalance.symm⟩

theorem applyForCandidate (h : s.Funded) (a : α) (pubkey : κ) (commission : UInt8) :
    (s.applyForCandidate a pubkey commission).Funded :=
  h.frame a ⟨fun _ => rfl, fun _ => rfl⟩

theorem cancelCandidate (h : s.Funded) (a : α) (allRefund : Bool) :
    (s.cancelCandidate a allRefund).Funded :=
  h.frame a ⟨fun _ => rfl, fun _ => rfl⟩

theorem markDelegateAddressRefund (h : s.Funded) (a : α) :
    (s.markDelegateAddressRefund a).Funded := by
  intro b
  simp only [getBalance, getDepositBalance, account_markDelegateAddressRefund]
  exact h b

theorem addRewardBalanceByDelegateAddress (h : s.Funded) (a d : α) (x : Int) :
    (s.addRewardBalanceByDelegateAddress a d x).Funded :=
  h.frame a ⟨fun _ => Account.addRewardBalance_balance _ x,
    fun _ => Account.addRewardBalance_depositBalance _ x⟩

theorem subRewardBalanceByDelegateAddress (h : s.Funded) {a d : α} {x : Int} {s' : StateDB α κ}
    (hs : s.subRewardBalanceByDelegateAddress a d x = some s') : s'.Funded := by
  unfold StateDB.subRewardBalanceByDelegateAddress at hs
  split at hs
  · cases hs
  · cases hs
    exact h.frame a ⟨fun _ => Account.subRewardBalance_balance _ x,
      fun _ => Account.subRewardBalance_depositBalance _ x⟩

/-! ### The staking transactions -/

theorem registerApplyCb (h : s.Funded) {σ : Type} {chk : α → κ → σ → Bool}
    {ctx : ChainContext α κ} {from_ : α} {value : Int} {args : RegisterArgs κ σ}
    {s' : StateDB α κ} {op : Option (UpdateNextEpochOp α κ)} (hfunds : value ≤ s.getBalance from_)
    (hcb : IntChain.registerApplyCb chk ctx s from_ value args = .ok (s', op)) : s'.Funded := by
  obtain ⟨_, -, hcb⟩ := Run.bind_eq_ok hcb
  obtain ⟨_, -, hcb⟩ := Run.bind_eq_ok hcb
  obtain ⟨_, -, hcb⟩ := Run.bind_eq_ok hcb
  cases hcb
  exact (((h.subBalance from_ hfunds).addDelegateBalance from_ value).addByUser .proxied from_
    from_ value).applyForCandidate _ _ _

theorem delegateApplyCb (h : s.Funded) {ctx : ChainContext α κ} {from_ : α} {value : Int}
    {candidate : α} {s' : StateDB α κ} {op : Option (UpdateNextEpochOp α κ)}
    (hfunds : value ≤ s.getBalance from_)
    (hcb : IntChain.delegateApplyCb ctx s from_ value candidate = .ok (s', op)) : s'.Funded := by
  obtain ⟨_, -, hcb⟩ := Run.bind_eq_ok hcb
  obtain ⟨_, -, hcb⟩ := Run.bind_eq_ok hcb
  obtain ⟨_, -, hcb⟩ := Run.bind_eq_ok hcb
  cases hcb
  exact ((h.subBalance from_ hfunds).addDelegateBalance from_ value).addByUser .proxied candidate
    from_ value

/-- The refund is the amount asked for or the proxied amount, both nonnegative. -/
theorem unDelegateApplyCb (h : s.Funded) (hinv : StakingInvariant s) {ctx : ChainContext α κ}
    {from_ candidate : α} {amount : Int} {s' : StateDB α κ} {op : Option (UpdateNextEpochOp α κ)}
    (hcb : IntChain.unDelegateApplyCb ctx s from_ candidate amount = .ok (s', op)) :
    s'.Funded := by
  obtain ⟨_, hv, hcb⟩ := Run.bind_eq_ok hcb
  obtain ⟨_, -, hcb⟩ := Run.bind_eq_ok hcb
  have hamount := (unDelegateValidation_ok hv).1
  have hproxied := (hinv.delegation.entries candidate from_).1
  simp only at hcb
  split_ifs at hcb with hp
  · obtain ⟨_, -, hcb⟩ := Run.bind_eq_ok hcb
    cases hcb
    exact ((h.subByUser .proxied candidate from_ amount).subDelegateBalance from_ amount).addBalance
      from_ hamount
  · obtain ⟨_, -, hcb⟩ := Run.bind_eq_ok hcb
    cases hcb
    exact ((((h.addByUser .pendingRefund candidate from_ _).markDelegateAddressRefund
      candidate).subByUser .proxied candidate from_ _).subDelegateBalance from_ _).addBalance from_
      hproxied

theorem unRegisterApplyCb (h : s.Funded) (hinv : StakingInvariant s) {ctx : ChainContext α κ}
    {from_ : α} {s' : StateDB α κ} {op : Option (UpdateNextEpochOp α κ)}
    (hcb : IntChain.unRegisterApplyCb ctx s from_ = .ok (s', op)) : s'.Funded := by
  obtain ⟨_, -, hcb⟩ := Run.bind_eq_ok hcb
  -- each delegator gets back its proxied amount, which the ledger keeps nonnegative
  have hloop : (s.forEachProxied from_ true (IntChain.unRegisterCb from_)).1.Funded ∧
      StakingInvariant (s.forEachProxied from_ true (IntChain.unRegisterCb from_)).1 :=
    forEachProxied_induction (fun acc => acc.1.Funded ∧ StakingInvariant acc.1) s from_ true _
      ⟨h, hinv⟩ fun key _ acc hacc => by
        refine ⟨?_, hacc.2.unRegisterCb from_ key acc⟩
        set apb := acc.1.getAccountProxiedBalance from_ key
        have h₁ := ((hacc.1.subByUser .proxied from_ key apb.proxiedBalance).subDelegateBalance key
          apb.proxiedBalance).addBalance key (hacc.2.delegation.entries from_ key).1
        unfold IntChain.unRegisterCb
        split_ifs
        · exact (h₁.addByUser .pendingRefund from_ key _).markDelegateAddressRefund from_
        · exact h₁
  revert hcb
  cases hres : s.forEachProxied from_ true (IntChain.unRegisterCb from_) with
  | mk s₁ allRefund =>
    intro hcb
    cases hcb
    rw [hres] at hloop
    exact hloop.1.cancelCandidate from_ allRefund

theorem withdrawRewardApplyCb (h : s.Funded) {from_ delegateAddress : α} {amount : Int}
    {s' : StateDB α κ} {op : Option (UpdateNextEpochOp α κ)}
    (hcb : IntChain.withdrawRewardApplyCb s from_ delegateAddress amount = .ok (s', op)) :
    s'.Funded := by
  obtain ⟨_, hv, hcb⟩ := Run.bind_eq_ok hcb
  -- the validation refuses a negative amount
  have hamount : 0 ≤ amount := by
    unfold withDrawRewardValidation at hv
    dsimp only at hv
    split_ifs at hv with h1 h2
    exact not_lt.1 h2
  revert hcb
  cases hsub : s.subRewardBalanceByDelegateAddress from_ delegateAddress amount with
  | none => intro hcb; cases hcb
  | some s₁ =>
    intro hcb
    cases hcb
    exact (h.subRewardBalanceByDelegateAddress hsub).addBalance from_ hamount

/-! ### The block reward -/

/-- The foundation gets the fifth of the reward the coinbase does not; a child chain's reward
address pays at most what it holds. -/
theorem coinbaseRewardOf (h : s.Funded) (cfg : RewardConfig α) (rewardPerBlock halfGasFee : Int) :
    (IntChain.coinbaseRewardOf cfg rewardPerBlock halfGasFee s).1.Funded := by
  unfold IntChain.coinbaseRewardOf
  split_ifs with hmain hpos hchild
  · split
    · exact h
    · apply h.addBalance
      rw [Int.tdiv_eq_ediv_of_nonneg (by omega)]
      omega
  · exact h
  · apply h.subBalance
    split_ifs with hlow
    · exact le_rfl
    · exact not_lt.1 hlow
  · exact h

theorem distributeDelegateReward (h : s.Funded) {coinbase : α} {D T : Int} {s' : StateDB α κ}
    (hs : IntChain.distributeDelegateReward coinbase D T s = some s') : s'.Funded := by
  have hloop : (s.forEachProxied coinbase 0 (delegateRewardCb coinbase D T)).1.Funded :=
    forEachProxied_induction (fun acc => acc.1.Funded) s coinbase 0 _ h fun key _ acc hacc => by
      unfold delegateRewardCb
      split_ifs
      · exact hacc.addRewardBalanceByDelegateAddress _ _ _
      · exact hacc
  unfold IntChain.distributeDelegateReward at hs
  rcases hres : s.forEachProxied coinbase 0 (delegateRewardCb coinbase D T) with ⟨s₁, given⟩
  rw [hres] at hloop hs
  dsimp only at hs
  split_ifs at hs
  · cases hs
    exact hloop.addRewardBalanceByDelegateAddress _ _ _
  · exact hloop.subRewardBalanceByDelegateAddress hs
  · cases hs
    exact hloop

theorem payCoinbaseReward (h : s.Funded) {coinbase : α} {coinbaseReward : Int}
    {s' : StateDB α κ} (hs : IntChain.payCoinbaseReward coinbase coinbaseReward s = some s') :
    s'.Funded := by
  unfold IntChain.payCoinbaseReward at hs
  cases hsplit : splitReward coinbaseReward (s.getDepositBalance coinbase)
      (s.getTotalDepositProxiedBalance coinbase) (s.getCommission coinbase) with
  | none => simp only [hsplit, Option.bind_eq_bind, Option.bind_none, reduceCtorEq] at hs
  | some p =>
    obtain ⟨selfReward, delegateReward⟩ := p
    have h₁ := h.addRewardBalanceByDelegateAddress coinbase coinbase selfReward
    simp only [hsplit, Option.bind_eq_bind, Option.bind_some] at hs
    cases delegateReward with
    | none => cases hs; exact h₁
    | some delegateReward =>
      dsimp only at hs
      split_ifs at hs
      · exact h₁.distributeDelegateReward hs
      · cases hs
        exact h₁

theorem accumulateRewards (h : s.Funded) {cfg : RewardConfig α} {coinbase : α}
    {rewardPerBlock : Int} {totalGasFee : Nat} {s' : StateDB α κ}
    (hrun : IntChain.accumulateRewards cfg coinbase rewardPerBlock totalGasFee s = some s') :
    s'.Funded := by
  rw [accumulateRewards_eq] at hrun
  exact ((h.addBalance cfg.feeAddress (Int.natCast_nonneg _)).coinbaseRewardOf cfg rewardPerBlock
    _).payCoinbaseReward hrun

end Funded

end StateDB

/-! ### The steps and the runs -/

/-- One step of the staking state. `σ` is the type of the registration signatures. -/
inductive StakingStep (σ : Type) : StateDB α κ → StateDB α κ → Prop
  /-- `ApplyTransactionEx` refuses a value above the sender's balance before the callback. -/
  | register {s s' : StateDB α κ} (checkConsensusPubKey : α → κ → σ → Bool)
      (ctx : ChainContext α κ) (from_ : α) (value : Int) (args : RegisterArgs κ σ)
      (op : Option (UpdateNextEpochOp α κ)) (hfunds : value ≤ s.getBalance from_) :
      registerApplyCb checkConsensusPubKey ctx s from_ value args = .ok (s', op) →
      StakingStep σ s s'
  | unRegister {s s' : StateDB α κ} (ctx : ChainContext α κ) (from_ : α)
      (op : Option (UpdateNextEpochOp α κ)) :
      unRegisterApplyCb ctx s from_ = .ok (s', op) → StakingStep σ s s'
  | delegate {s s' : StateDB α κ} (ctx : ChainContext α κ) (from_ : α) (value : Int)
      (candidate : α) (op : Option (UpdateNextEpochOp α κ)) (hfunds : value ≤ s.getBalance from_) :
      delegateApplyCb ctx s from_ value candidate = .ok (s', op) → StakingStep σ s s'
  | unDelegate {s s' : StateDB α κ} (ctx : ChainContext α κ) (from_ candidate : α) (amount : Int)
      (op : Option (UpdateNextEpochOp α κ)) :
      unDelegateApplyCb ctx s from_ candidate amount = .ok (s', op) → StakingStep σ s s'
  | withdrawReward {s s' : StateDB α κ} (from_ delegateAddress : α) (amount : Int)
      (op : Option (UpdateNextEpochOp α κ)) :
      withdrawRewardApplyCb s from_ delegateAddress amount = .ok (s', op) → StakingStep σ s s'
  | reward {s s' : StateDB α κ} (cfg : RewardConfig α) (coinbase : α) (rewardPerBlock : Int)
      (totalGasFee : Nat) :
      accumulateRewards cfg coinbase rewardPerBlock totalGasFee s = some s' → StakingStep σ s s'
  /-- The switch is the last change of `Finalize` before `IntermediateRoot`, which panics on a
  negative amount: the chain goes on only if no account has one. -/
  | epochSwitch {s s' : StateDB α κ}
      (sortSlice : (Validator α κ → Validator α κ → Bool) → List (Validator α κ) →
        List (Validator α κ))
      (rangeOrder : List α → List α) (hrange : ∀ l, (rangeOrder l).Perm l)
      (epoch : Epoch α κ) (nextEpoch : Option (Epoch α κ)) (height : Nat)
      (result : Except EpochError (Option (List (Validator α κ))))
      (hroot : s'.IntermediateRootOk) :
      shouldEnterNewEpoch sortSlice rangeOrder epoch nextEpoch height s = (s', result) →
      StakingStep σ s s'

/-- What every state the chain reaches satisfies: the staking ledger, every pending refund
marked, and no negative balance or own deposit. -/
structure ChainInvariant (s : StateDB α κ) : Prop where
  staking : StakingInvariant s
  funded : s.Funded

theorem ChainInvariant.empty : ChainInvariant (StateDB.empty : StateDB α κ) :=
  ⟨StakingInvariant.empty, StateDB.Funded.empty⟩

/-- Every step keeps the invariant. -/
theorem ChainInvariant.stakingStep {σ : Type} {s s' : StateDB α κ} (h : ChainInvariant s)
    (hstep : StakingStep σ s s') : ChainInvariant s' := by
  cases hstep with
  | register _ _ _ _ _ _ hfunds hcb =>
    exact ⟨h.staking.registerApplyCb hcb, h.funded.registerApplyCb hfunds hcb⟩
  | unRegister _ _ _ hcb =>
    exact ⟨h.staking.unRegisterApplyCb hcb, h.funded.unRegisterApplyCb h.staking hcb⟩
  | delegate _ _ _ _ _ hfunds hcb =>
    exact ⟨h.staking.delegateApplyCb hcb, h.funded.delegateApplyCb hfunds hcb⟩
  | unDelegate _ _ _ _ _ hcb =>
    exact ⟨h.staking.unDelegateApplyCb hcb, h.funded.unDelegateApplyCb h.staking hcb⟩
  | withdrawReward _ _ _ _ hcb =>
    exact ⟨h.staking.withdrawRewardApplyCb hcb, h.funded.withdrawRewardApplyCb hcb⟩
  | reward cfg coinbase rewardPerBlock totalGasFee hrun =>
    -- the coinbase's own deposit and the child chain's reward address are funded
    obtain ⟨s'', hs'', hinv⟩ := h.staking.accumulateRewards cfg coinbase rewardPerBlock totalGasFee
      (h.funded coinbase).2 fun _ => (h.funded _).1
    rw [hrun, Option.some.injEq] at hs''
    exact ⟨hs'' ▸ hinv, h.funded.accumulateRewards hrun⟩
  | epochSwitch sortSlice rangeOrder hrange epoch nextEpoch height result hroot hrun =>
    -- a permutation of the refund set visits all of it
    have hinv := h.staking.shouldEnterNewEpoch sortSlice
      (fun l a ha => (hrange l).symm.subset ha) epoch nextEpoch height
    rw [hrun] at hinv
    exact ⟨hinv, hroot.funded⟩

theorem stakingRun_keeps_invariant {σ : Type} {s s' : StateDB α κ} (h : ChainInvariant s)
    (hrun : Relation.ReflTransGen (StakingStep σ) s s') : ChainInvariant s' :=
  Run.reflTransGen_invariant ChainInvariant (fun _ _ hstep hs => hs.stakingStep hstep) hrun h

/-! ### A run with a delegation, a reward and a switch -/

/-- A transaction in block `6` of `staleVoteEpoch`. -/
def delegateContext : ChainContext Nat Nat := ⟨5, staleVoteEpoch⟩

/-- The epoch after `staleVoteEpoch`, whose vote set holds the vote of `8` that a delegation of
`3` to candidate `0` records. -/
def delegatedNextEpoch : Epoch Nat Nat :=
  { number := 2, rewardPerBlock := 0, startBlock := 11, endBlock := 20, validators := [],
    validatorVoteSet := some (updateNextEpochVote none 0 0 8) }

/-- User `1` has delegated its `3` to candidate `0`. -/
def delegatedState : StateDB Nat Nat :=
  ((staleVoteState.subBalance 1 3).addDelegateBalance 1 3).addProxiedBalanceByUser 0 1 3

/-- Address `2` has then mined a block of reward `10`. -/
def rewardedState : StateDB Nat Nat :=
  (accumulateRewards mainnetRewardConfig 2 10 0 delegatedState).getD delegatedState

/-- The epoch has then ended at block `10`. -/
def switchedState : StateDB Nat Nat :=
  (shouldEnterNewEpoch (fun _ l => l) id staleVoteEpoch (some delegatedNextEpoch) 10
    rewardedState).1

/-- The delegation, the reward and the switch, which moves the delegation into deposit
proxied. -/
theorem stakingRun_keeps_invariant_delegate_reward_switch :
    ChainInvariant switchedState ∧ switchedState.getDepositProxiedBalanceByUser 0 1 = 3 := by
  have h₀ : ChainInvariant staleVoteState :=
    ⟨(((StakingInvariant.empty.addDelegation 0 0 (by decide)).applyForCandidate 0 0
      0).depositProxied 0 0 (by decide) (by decide)).addBalance 1 3,
      StateDB.IntermediateRootOk.funded (by decide)⟩
  have hdelegate : StakingStep Unit staleVoteState delegatedState :=
    StakingStep.delegate delegateContext 1 3 0 (some ⟨0, 0, 8⟩) (by decide) rfl
  have hreward : StakingStep Unit delegatedState rewardedState :=
    StakingStep.reward mainnetRewardConfig 2 10 0 rfl
  have hswitch : StakingStep Unit rewardedState switchedState :=
    StakingStep.epochSwitch (fun _ l => l) id List.Perm.refl staleVoteEpoch (some delegatedNextEpoch)
      10 _ (by decide) rfl
  exact ⟨stakingRun_keeps_invariant h₀ (.tail (.tail (.single hdelegate) hreward) hswitch),
    by decide⟩

end IntChain
