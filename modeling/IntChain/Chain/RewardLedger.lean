import IntChain.Chain.Reward
import IntChain.State.Ledger

/-!
# The block reward keeps the ledger

`accumulateRewards` keeps `StakingInvariant` and never panics, provided the coinbase's own
deposit is nonnegative (on a child chain, also the balance of the child-chain reward address).
Under these the coinbase reward is nonnegative, the `big.Float` self share lies between zero
and the coinbase reward, and the delegators' integer shares `⌊dp · D / T⌋` add up to at most
their reward `D`, because the deposit proxied entries add up to the total `T`. So every reward
entry only grows, and the branch that takes back an over-distribution is never reached.
-/

namespace IntChain

open BinaryFloat

variable {α κ : Type} [DecidableEq α]

/-! ### What the reward's state changes leave alone -/

namespace StateDB

variable (s : StateDB α κ)

@[simp] theorem getDepositBalance_addBalance (a : α) (x : Int) (c : α) :
    (s.addBalance a x).getDepositBalance c = s.getDepositBalance c :=
  s.field_updateAccount a _ (·.depositBalance)
    (fun o => o.get_addField_of_ne x (show BalanceField.depositBalance ≠ .balance by decide)) c

@[simp] theorem getDepositBalance_subBalance (a : α) (x : Int) (c : α) :
    (s.subBalance a x).getDepositBalance c = s.getDepositBalance c :=
  s.field_updateAccount a _ (·.depositBalance)
    (fun o => o.get_subField_of_ne x (show BalanceField.depositBalance ≠ .balance by decide)) c

theorem getBalance_addBalance (a : α) (x : Int) (c : α) :
    (s.addBalance a x).getBalance c = s.getBalance c + if c = a then x else 0 := by
  show ((s.updateAccount a (·.addField .balance x)).account c).get .balance = _
  rw [account_updateAccount]
  split_ifs with h
  · subst h
    rw [Account.get_addField, if_pos rfl]
    rfl
  · rw [add_zero]
    rfl

@[simp] theorem getTotalDepositProxiedBalance_addRewardBalanceByDelegateAddress (a d : α)
    (x : Int) (c : α) :
    (s.addRewardBalanceByDelegateAddress a d x).getTotalDepositProxiedBalance c =
      s.getTotalDepositProxiedBalance c :=
  s.field_updateAccount a _ (·.depositProxiedBalance) (fun o => by
    dsimp only
    unfold Account.addRewardBalance
    split_ifs <;> rfl) c

end StateDB

theorem getDepositBalance_coinbaseRewardOf (cfg : RewardConfig α) (rewardPerBlock halfGasFee : Int)
    (s : StateDB α κ) (c : α) :
    (coinbaseRewardOf cfg rewardPerBlock halfGasFee s).1.getDepositBalance c =
      s.getDepositBalance c := by
  unfold coinbaseRewardOf
  split_ifs
  · cases cfg.foundationAddress <;> simp
  all_goals simp

/-! ### The deposit proxied total -/

namespace DelegationLedger

variable {s : StateDB α κ}

/-- The deposit proxied total is the sum of the entries over the trie's keys. -/
theorem sum_depositProxied_keys (h : DelegationLedger s) (c : α) :
    ((s.account c).proxied.keys.map fun k =>
      (s.getAccountProxiedBalance c k).depositProxiedBalance).sum =
      s.getTotalDepositProxiedBalance c := by
  have htotal := h.totals c .depositProxied
  exact (KeyMap.sum_map_findD_keys _ AccountProxiedBalance.zero (·.get .depositProxied)).trans
    htotal.symm

theorem depositProxied_nonneg (h : DelegationLedger s) (c u : α) :
    0 ≤ s.getDepositProxiedBalanceByUser c u := by
  obtain ⟨-, hpend, hle⟩ := h.entries c u
  exact le_trans hpend hle

theorem totalDepositProxied_nonneg (h : DelegationLedger s) (c : α) :
    0 ≤ s.getTotalDepositProxiedBalance c := by
  rw [← h.sum_depositProxied_keys c]
  refine List.sum_nonneg fun x hx => ?_
  obtain ⟨k, -, rfl⟩ := List.mem_map.1 hx
  exact h.depositProxied_nonneg c k

end DelegationLedger

/-! ### The coinbase's share -/

/-- With `0 ≤ selfDeposit ≤ totalDeposit`, the `big.Float` share is exact enough to stay in
`[0, coinbaseReward]`, and no operation panics. -/
theorem selfRewardOf_bounds {coinbaseReward selfDeposit totalDeposit : Int}
    (hc : 0 ≤ coinbaseReward) (hs : 0 ≤ selfDeposit) (hst : selfDeposit ≤ totalDeposit)
    (ht : 0 < totalDeposit) :
    ∃ selfReward, selfRewardOf coinbaseReward selfDeposit totalDeposit = some selfReward ∧
      0 ≤ selfReward ∧ selfReward ≤ coinbaseReward := by
  obtain ⟨x, q, hx, hxq, hq0, hq1⟩ := BigFloat.quo_setInt_of_le hs hst ht
  obtain ⟨y, v, hy, hyv, hv0, hv1⟩ := BigFloat.mul_setInt_of_unit hc hxq hq0 hq1
  obtain ⟨n, hn, hn0, hn1⟩ := BigFloat.int_of_bounds hyv hv0 hv1
  exact ⟨n, by simp [selfRewardOf, hx, hy, hn], hn0, hn1⟩

/-- When `selfDeposit / totalDeposit` is an integer `k` and `k` and `c · k` fit in the
precisions `big.Float` works at, the share of a coinbase reward `c` is exactly `c · k`. -/
theorem selfRewardOf_of_eq_mul {c selfDeposit totalDeposit k : Int} (ht : totalDeposit ≠ 0)
    (hk : selfDeposit = k * totalDeposit)
    (hq : Representable (max (BigFloat.setInt selfDeposit).prec (BigFloat.setInt totalDeposit).prec) k)
    (hm : Representable (max (BigFloat.setInt c).prec
      (max (BigFloat.setInt selfDeposit).prec (BigFloat.setInt totalDeposit).prec)) (c * k : ℤ)) :
    selfRewardOf c selfDeposit totalDeposit = some (c * k) := by
  simp only [selfRewardOf, BigFloat.quo_setInt_of_eq_mul ht hk hq, Option.bind_eq_bind,
    Option.bind_some, BigFloat.mul_setInt_intCast _ hm, BigFloat.int_intCast]
  rfl

/-- A quotient `-1 / 1` is exact, so the share of a coinbase reward `c` is `-c`: the share is
negative when the own deposit is. -/
theorem selfRewardOf_neg_one (c : Int) : selfRewardOf c (-1) 1 = some (-c) := by
  have hq : Representable (max (BigFloat.setInt (-1)).prec (BigFloat.setInt 1).prec) (-1 : ℤ) :=
    (BigFloat.representable_setInt (-1)).mono (le_max_left _ _)
  have hm : Representable (max (BigFloat.setInt c).prec
      (max (BigFloat.setInt (-1)).prec (BigFloat.setInt 1).prec)) (c * -1 : ℤ) := by
    simpa using (BigFloat.representable_setInt c).neg.mono (le_max_left _ _)
  simpa using selfRewardOf_of_eq_mul one_ne_zero (by norm_num) hq hm

/-- The split of a nonnegative coinbase reward: it succeeds, the self reward is nonnegative,
the two parts add up to the coinbase reward, and the delegators get a part only when their
deposit total is positive. -/
theorem splitReward_spec {coinbaseReward selfDeposit totalProxiedDeposit : Int}
    (commission : UInt8) (hc : 0 ≤ coinbaseReward) (hs : 0 ≤ selfDeposit)
    (ht : 0 ≤ totalProxiedDeposit) :
    ∃ selfReward delegateReward,
      splitReward coinbaseReward selfDeposit totalProxiedDeposit commission =
        some (selfReward, delegateReward) ∧ 0 ≤ selfReward ∧
      selfReward + delegateReward.getD 0 = coinbaseReward ∧
      ∀ d, delegateReward = some d → 0 < totalProxiedDeposit := by
  by_cases h0 : totalProxiedDeposit = 0
  · exact ⟨coinbaseReward, none, by simp [splitReward, h0], hc, by simp, by simp⟩
  · have htpos : 0 < totalProxiedDeposit := lt_of_le_of_ne ht (Ne.symm h0)
    obtain ⟨sR, hsR, hsR0, hsR1⟩ :=
      selfRewardOf_bounds hc hs (le_add_of_nonneg_right ht) (by omega)
    -- the commission is a part of the delegators' share, which is nonnegative
    have hcomm : 0 ≤ ((coinbaseReward - sR) * (commission.toNat : Int)).tdiv 100 :=
      Int.tdiv_nonneg (mul_nonneg (by omega) (by positivity)) (by decide)
    simp only [splitReward, h0, if_false, hsR, Option.bind_eq_bind, Option.bind_some]
    split_ifs
    · exact ⟨_, _, rfl, by omega, by simp, fun _ _ => htpos⟩
    · exact ⟨_, _, rfl, hsR0, by simp, fun _ _ => htpos⟩

/-! ### The delegators' split -/

/-- What the delegators' split keeps over the keys `pre` done so far: the invariant, the
candidate's entries, and a running total times the deposit total that stays below the reward
times the deposits of the delegators done. -/
structure SplitProgress (s : StateDB α κ) (coinbase : α)
    (delegateReward totalProxiedDeposit : Int) (pre : List α) (acc : StateDB α κ × Int) :
    Prop where
  inv : StakingInvariant acc.1
  entries : ∀ u, acc.1.getAccountProxiedBalance coinbase u = s.getAccountProxiedBalance coinbase u
  given_nonneg : 0 ≤ acc.2
  given_le : acc.2 * totalProxiedDeposit ≤ delegateReward *
    (pre.map fun k => (s.getAccountProxiedBalance coinbase k).depositProxiedBalance).sum

namespace SplitProgress

variable {s : StateDB α κ} {coinbase : α} {D T : Int}

theorem init (h : StakingInvariant s) : SplitProgress s coinbase D T [] (s, 0) :=
  ⟨h, fun _ => rfl, le_rfl, by simp⟩

/-- One delegator's share `⌊dp · D / T⌋` is at most its exact share `dp · D / T`. -/
theorem step (hs : StakingInvariant s) (hD : 0 ≤ D) (hT : 0 < T) {pre : List α}
    {acc : StateDB α κ × Int} (key : α) (hp : SplitProgress s coinbase D T pre acc) :
    SplitProgress s coinbase D T (pre ++ [key])
      (delegateRewardCb coinbase D T key (acc.1.getAccountProxiedBalance coinbase key) acc) := by
  rw [hp.entries key]
  unfold delegateRewardCb
  set dp := (s.getAccountProxiedBalance coinbase key).depositProxiedBalance with hdp
  have hdp0 : 0 ≤ dp := hs.delegation.depositProxied_nonneg coinbase key
  have hsum : ((pre ++ [key]).map fun k =>
      (s.getAccountProxiedBalance coinbase k).depositProxiedBalance).sum =
      (pre.map fun k => (s.getAccountProxiedBalance coinbase k).depositProxiedBalance).sum + dp := by
    simp [hdp]
  have hgiven := hp.given_le
  have hgiven0 := hp.given_nonneg
  split_ifs with hpos
  · have hind0 : 0 ≤ (dp * D).tdiv T := Int.tdiv_nonneg (mul_nonneg hdp0 hD) hT.le
    have hind : (dp * D).tdiv T * T ≤ dp * D := by
      rw [Int.tdiv_eq_ediv_of_nonneg (mul_nonneg hdp0 hD)]
      exact Int.ediv_mul_le _ hT.ne'
    have hreward := hp.inv.reward.reward_nonneg key coinbase
    refine ⟨hp.inv.addRewardBalanceByDelegateAddress key coinbase (by omega),
      fun u => by simp [hp.entries u], by simp only; omega, ?_⟩
    rw [hsum]
    simp only
    linarith
  · -- a delegator with no deposit proxied balance gets nothing
    refine ⟨hp.inv, hp.entries, hgiven0, ?_⟩
    rw [hsum]
    nlinarith

end SplitProgress

namespace StakingInvariant

variable {s : StateDB α κ}

/-- The delegators' split keeps the invariant and gives out at most the delegators' reward. -/
theorem forEachProxied_delegateRewardCb (h : StakingInvariant s) {coinbase : α} {D T : Int}
    (hD : 0 ≤ D) (hT : s.getTotalDepositProxiedBalance coinbase = T) (hT0 : 0 < T) :
    StakingInvariant (s.forEachProxied coinbase 0 (delegateRewardCb coinbase D T)).1 ∧
      (s.forEachProxied coinbase 0 (delegateRewardCb coinbase D T)).2 ≤ D := by
  have hloop := StateDB.forEachProxied_prefix_induction (SplitProgress s coinbase D T) s coinbase
    0 _ (SplitProgress.init h) fun _ key _ _ _ hp => hp.step h hD hT0 key
  have hle := hloop.given_le
  -- over all the keys the deposits add up to the total
  rw [h.delegation.sum_depositProxied_keys coinbase, hT] at hle
  exact ⟨hloop.inv, le_of_mul_le_mul_right hle hT0⟩

theorem distributeDelegateReward (h : StakingInvariant s) {coinbase : α} {D T : Int}
    (hD : 0 ≤ D) (hT : s.getTotalDepositProxiedBalance coinbase = T) (hT0 : 0 < T) :
    ∃ s', IntChain.distributeDelegateReward coinbase D T s = some s' ∧ StakingInvariant s' := by
  obtain ⟨hinv, hle⟩ := h.forEachProxied_delegateRewardCb hD hT hT0
  unfold IntChain.distributeDelegateReward
  rcases hres : s.forEachProxied coinbase 0 (delegateRewardCb coinbase D T) with ⟨s₁, given⟩
  rw [hres] at hinv hle
  dsimp only
  split_ifs with hlt hgt
  · -- the rounding remainder goes to the coinbase
    have hreward := hinv.reward.reward_nonneg coinbase coinbase
    exact ⟨_, rfl, hinv.addRewardBalanceByDelegateAddress coinbase coinbase (by omega)⟩
  · -- giving out more than the reward is never reached
    omega
  · exact ⟨_, rfl, hinv⟩

/-- The foundation's share or the child chain's payment keeps the invariant, and the coinbase
reward is nonnegative. -/
theorem coinbaseRewardOf (h : StakingInvariant s) (cfg : RewardConfig α) (rewardPerBlock : Int)
    {halfGasFee : Int} (hfee : 0 ≤ halfGasFee)
    (hchild : cfg.isMainOrTestnet = false → 0 ≤ s.getBalance cfg.childChainRewardAddress) :
    StakingInvariant (IntChain.coinbaseRewardOf cfg rewardPerBlock halfGasFee s).1 ∧
      0 ≤ (IntChain.coinbaseRewardOf cfg rewardPerBlock halfGasFee s).2 := by
  unfold IntChain.coinbaseRewardOf
  split_ifs with hmain hr hc
  · cases cfg.foundationAddress with
    | none => exact ⟨h, by dsimp only; omega⟩
    | some foundationAddress =>
      have hcr : 0 ≤ (rewardPerBlock * 8).tdiv 10 := Int.tdiv_nonneg (by omega) (by decide)
      exact ⟨h.addBalance _ _, by dsimp only; omega⟩
  · exact ⟨h, hfee⟩
  · -- a child chain pays what the reward address holds, at most the reward per block
    have hbal := hchild (by simpa using hmain)
    refine ⟨h.subBalance _ _, ?_⟩
    dsimp only
    split_ifs <;> omega
  · exact ⟨h, hfee⟩

/-- `accumulateRewards` never panics and keeps the invariant when the coinbase's own deposit is
nonnegative and, on a child chain, so is the reward address's balance. -/
theorem accumulateRewards (h : StakingInvariant s) (cfg : RewardConfig α) (coinbase : α)
    (rewardPerBlock : Int) (totalGasFee : Nat)
    (hdeposit : 0 ≤ s.getDepositBalance coinbase)
    (hchild : cfg.isMainOrTestnet = false → 0 ≤ s.getBalance cfg.childChainRewardAddress) :
    ∃ s', IntChain.accumulateRewards cfg coinbase rewardPerBlock totalGasFee s = some s' ∧
      StakingInvariant s' := by
  unfold IntChain.accumulateRewards
  dsimp only
  -- half the fee goes to the fee address first
  have hhalf0 : (0 : Int) ≤ ((totalGasFee / 2 : Nat) : Int) := Int.natCast_nonneg _
  have hchild₀ : cfg.isMainOrTestnet = false → 0 ≤ (s.addBalance cfg.feeAddress
      ((totalGasFee / 2 : Nat) : Int)).getBalance cfg.childChainRewardAddress := by
    intro hc
    have := hchild hc
    rw [StateDB.getBalance_addBalance]
    split_ifs <;> omega
  have hcoin := (h.addBalance cfg.feeAddress _).coinbaseRewardOf cfg rewardPerBlock hhalf0 hchild₀
  have hdep₁ := getDepositBalance_coinbaseRewardOf cfg rewardPerBlock ((totalGasFee / 2 : Nat) : Int)
    (s.addBalance cfg.feeAddress ((totalGasFee / 2 : Nat) : Int)) coinbase
  rcases hr : IntChain.coinbaseRewardOf cfg rewardPerBlock ((totalGasFee / 2 : Nat) : Int)
    (s.addBalance cfg.feeAddress ((totalGasFee / 2 : Nat) : Int)) with ⟨s₁, coinbaseReward⟩
  simp only [hr] at hcoin hdep₁
  obtain ⟨h₁, hcR⟩ := hcoin
  -- the split succeeds with a nonnegative self reward
  obtain ⟨sR, dR, hsplit, hsR, -, hdR⟩ := splitReward_spec (s₁.getCommission coinbase) hcR
    (show 0 ≤ s₁.getDepositBalance coinbase by
      rw [hdep₁, StateDB.getDepositBalance_addBalance]; exact hdeposit)
    (h₁.delegation.totalDepositProxied_nonneg coinbase)
  have hreward := h₁.reward.reward_nonneg coinbase coinbase
  have h₂ := h₁.addRewardBalanceByDelegateAddress coinbase coinbase (x := sR) (by omega)
  simp only [hsplit, Option.bind_eq_bind, Option.bind_some]
  cases dR with
  | none => exact ⟨_, rfl, h₂⟩
  | some delegateReward =>
    dsimp only
    split_ifs with hpos
    · -- the delegators' split runs on the deposit total read before the self reward
      exact h₂.distributeDelegateReward hpos.le (by simp) (hdR _ rfl)
    · exact ⟨_, rfl, h₂⟩
end StakingInvariant

end IntChain
