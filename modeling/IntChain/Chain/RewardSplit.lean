import IntChain.Chain.StakingLedger
import IntChain.Chain.RewardLedger

/-!
# Where the block reward goes

`accumulateRewards` puts the coinbase reward into the reward tries whole. The self share and the
commission go to the coinbase's own entry, each delegator's entry for the coinbase gets
`⌊dp · D / T⌋` of the delegators' reward `D` for its deposit proxied balance `dp` out of the
total `T`, and the rounding remainder goes back to the coinbase. With the fee and the
foundation's share in the balances, a block on the main chain adds exactly the reward per block
and the two halves of the gas fee to balances and reward entries together.

This needs two things of the coinbase that the staking invariant does not give. A negative own
deposit makes the `big.Float` share larger than the coinbase reward when the sum of the deposits
is negative, and a commission above 100 takes more than the delegators' part; in both cases the
delegators' part is negative, is not distributed, and the entries grow by more than the coinbase
reward.
-/

namespace IntChain

open BinaryFloat

variable {α κ : Type} [DecidableEq α]

namespace StateDB

/-- The sum of every reward entry of every account. -/
def rewardTotal (s : StateDB α κ) : Int := s.accounts.sumBy fun o => o.reward.sumBy id

/-- The sum of every account's balance. -/
def balanceTotal (s : StateDB α κ) : Int := s.accounts.sumBy (·.balance)

variable (s : StateDB α κ)

theorem rewardTotal_updateAccount (a : α) (g : Account α κ → Account α κ) :
    (s.updateAccount a g).rewardTotal =
      s.rewardTotal + ((g (s.account a)).reward.sumBy id - (s.account a).reward.sumBy id) :=
  KeyMap.sumBy_modify _ _ _ _ _ rfl

theorem balanceTotal_updateAccount (a : α) (g : Account α κ → Account α κ) :
    (s.updateAccount a g).balanceTotal =
      s.balanceTotal + ((g (s.account a)).balance - (s.account a).balance) :=
  KeyMap.sumBy_modify _ _ _ _ _ rfl

@[simp] theorem rewardTotal_addBalance (a : α) (x : Int) :
    (s.addBalance a x).rewardTotal = s.rewardTotal := by
  rw [addBalance, rewardTotal_updateAccount, Account.addField_reward, sub_self, add_zero]

@[simp] theorem rewardTotal_subBalance (a : α) (x : Int) :
    (s.subBalance a x).rewardTotal = s.rewardTotal := by
  rw [subBalance, rewardTotal_updateAccount, Account.subField_reward, sub_self, add_zero]

theorem balanceTotal_addBalance (a : α) (x : Int) :
    (s.addBalance a x).balanceTotal = s.balanceTotal + x := by
  rw [addBalance, balanceTotal_updateAccount]
  have h := Account.get_addField (s.account a) .balance .balance x
  rw [if_pos rfl] at h
  simp only [Account.get] at h
  rw [h]
  ring

theorem balanceTotal_subBalance (a : α) (x : Int) :
    (s.subBalance a x).balanceTotal = s.balanceTotal - x := by
  rw [subBalance, balanceTotal_updateAccount]
  have h := Account.get_subField (s.account a) .balance .balance x
  rw [if_pos rfl] at h
  simp only [Account.get] at h
  rw [h]
  ring

theorem rewardTotal_addRewardBalanceByDelegateAddress (a d : α) (x : Int) :
    (s.addRewardBalanceByDelegateAddress a d x).rewardTotal = s.rewardTotal + x := by
  have hr := s.reward_addRewardBalanceByDelegateAddress a d x
  rw [addRewardBalanceByDelegateAddress, account_updateAccount_self] at hr
  rw [addRewardBalanceByDelegateAddress, rewardTotal_updateAccount, hr,
    KeyMap.sumBy_insert_findD _ _ _ 0 id rfl]
  simp [getRewardBalanceByDelegateAddress, KeyMap.findD]

@[simp] theorem balanceTotal_addRewardBalanceByDelegateAddress (a d : α) (x : Int) :
    (s.addRewardBalanceByDelegateAddress a d x).balanceTotal = s.balanceTotal := by
  have hb : ∀ o : Account α κ, (o.addRewardBalance x).balance = o.balance := by
    intro o
    unfold Account.addRewardBalance Account.setRewardBalance
    split <;> rfl
  rw [addRewardBalanceByDelegateAddress, balanceTotal_updateAccount, hb, sub_self, add_zero]

theorem subBalance_eq_addBalance_neg (a : α) (x : Int) :
    s.subBalance a x = s.addBalance a (-x) := by
  simp only [subBalance, addBalance, Account.subField, Account.addField, neg_eq_zero,
    sub_eq_add_neg]

@[simp] theorem getCommission_addBalance (a : α) (x : Int) (c : α) :
    (s.addBalance a x).getCommission c = s.getCommission c :=
  s.field_updateAccount a _ (·.commission) (fun o => by
    unfold Account.addField
    split_ifs <;> rfl) c

@[simp] theorem getTotalDepositProxiedBalance_addBalance (a : α) (x : Int) (c : α) :
    (s.addBalance a x).getTotalDepositProxiedBalance c = s.getTotalDepositProxiedBalance c :=
  s.field_updateAccount a _ (·.depositProxiedBalance)
    (fun o => o.get_addField_of_ne x
      (show BalanceField.depositProxiedBalance ≠ .balance by decide)) c

@[simp] theorem getRewardBalanceByDelegateAddress_addBalance (a : α) (x : Int) (c d : α) :
    (s.addBalance a x).getRewardBalanceByDelegateAddress c d =
      s.getRewardBalanceByDelegateAddress c d :=
  s.field_updateAccount a _ (fun o => (o.reward.find? d).getD 0)
    (fun o => by rw [Account.addField_reward]) c

/-- A user with a positive deposit proxied balance has an entry in the candidate's trie. -/
theorem mem_keys_of_depositProxied_pos {c u : α} (h : 0 < s.getDepositProxiedBalanceByUser c u) :
    u ∈ (s.account c).proxied.keys := by
  by_contra hu
  rw [getDepositProxiedBalanceByUser, getAccountProxiedBalance, KeyMap.findD_of_not_mem _ hu] at h
  exact lt_irrefl 0 h

end StateDB

/-- The coinbase reward's step moves balances only: it leaves the state as it is or changes
one balance. -/
theorem coinbaseRewardOf_state (cfg : RewardConfig α) (rewardPerBlock halfGasFee : Int)
    (s : StateDB α κ) :
    (coinbaseRewardOf cfg rewardPerBlock halfGasFee s).1 = s ∨
      ∃ a x, (coinbaseRewardOf cfg rewardPerBlock halfGasFee s).1 = s.addBalance a x := by
  unfold coinbaseRewardOf
  split_ifs
  · cases cfg.foundationAddress with
    | none => exact .inl rfl
    | some foundationAddress => exact .inr ⟨_, _, rfl⟩
  · exact .inl rfl
  · exact .inr ⟨_, _, s.subBalance_eq_addBalance_neg _ _⟩
  · exact .inl rfl

/-- What the coinbase reward's step puts in balances, together with the coinbase reward: the
half fee, and the reward per block when it is positive on the main chain. On a child chain
the reward is taken from the reward address's balance. -/
theorem balanceTotal_coinbaseRewardOf (cfg : RewardConfig α) (rewardPerBlock halfGasFee : Int)
    (s : StateDB α κ) :
    (coinbaseRewardOf cfg rewardPerBlock halfGasFee s).1.balanceTotal +
        (coinbaseRewardOf cfg rewardPerBlock halfGasFee s).2 =
      s.balanceTotal + halfGasFee + if cfg.isMainOrTestnet then max rewardPerBlock 0 else 0 := by
  unfold coinbaseRewardOf
  split_ifs with hmain hr hc
  · cases cfg.foundationAddress with
    | none =>
      simp only [max_eq_left hr.le]
      ring
    | some foundationAddress =>
      simp only [StateDB.balanceTotal_addBalance, max_eq_left hr.le]
      ring
  · simp only [max_eq_right (not_lt.1 hr)]
    ring
  · simp only [StateDB.balanceTotal_subBalance]
    ring
  · ring

/-- With a commission of at most 100 the delegators keep a nonnegative part of a nonnegative
coinbase reward, so the self reward is at most the coinbase reward. -/
theorem splitReward_delegateReward_nonneg {coinbaseReward selfDeposit totalProxiedDeposit : Int}
    {commission : UInt8} (hcommission : commission.toNat ≤ 100) (hc : 0 ≤ coinbaseReward)
    (hs : 0 ≤ selfDeposit) (ht : 0 ≤ totalProxiedDeposit) {selfReward : Int}
    {delegateReward : Option Int}
    (h : splitReward coinbaseReward selfDeposit totalProxiedDeposit commission =
      some (selfReward, delegateReward)) :
    0 ≤ delegateReward.getD 0 := by
  unfold splitReward at h
  by_cases h0 : totalProxiedDeposit = 0
  · rw [if_pos h0] at h
    cases h
    exact le_rfl
  rw [if_neg h0] at h
  obtain ⟨sR, hsR, hsR0, hsR1⟩ :=
    selfRewardOf_bounds hc hs (le_add_of_nonneg_right ht) (by omega)
  simp only [hsR, Option.bind_eq_bind, Option.bind_some] at h
  -- the commission takes at most the whole of the delegators' part
  have hm : 0 ≤ coinbaseReward - sR := by omega
  have hprod : (coinbaseReward - sR) * (commission.toNat : Int) ≤ (coinbaseReward - sR) * 100 :=
    mul_le_mul_of_nonneg_left (by exact_mod_cast hcommission) hm
  have hprod0 : 0 ≤ (coinbaseReward - sR) * (commission.toNat : Int) :=
    mul_nonneg hm (by positivity)
  split_ifs at h
  · cases h
    rw [Option.getD_some, Int.tdiv_eq_ediv_of_nonneg hprod0]
    omega
  · cases h
    exact hm

/-! ### The delegators' split, entry by entry -/

/-- The share `delegateRewardCb` gives the user `u` of `coinbase`'s proxied trie:
`⌊dp · D / T⌋` for a positive deposit proxied balance `dp`, and nothing otherwise. -/
def delegateShare (s : StateDB α κ) (coinbase : α) (D T : Int) (u : α) : Int :=
  if 0 < s.getDepositProxiedBalanceByUser coinbase u then
    (s.getDepositProxiedBalanceByUser coinbase u * D).tdiv T
  else 0

theorem delegateShare_nonneg (s : StateDB α κ) (coinbase : α) {D T : Int} (hD : 0 ≤ D)
    (hT : 0 < T) (u : α) : 0 ≤ delegateShare s coinbase D T u := by
  unfold delegateShare
  split_ifs with hdp
  · exact Int.tdiv_nonneg (mul_nonneg hdp.le hD) hT.le
  · exact le_rfl

/-- What the delegators' split has done after the keys `pre`: every user in `pre` got its share
in its entry for the coinbase and no other entry changed, the running total is the sum of those
shares, and the balances and the proxied entries are as they were. -/
structure ShareProgress (s : StateDB α κ) (coinbase : α) (D T : Int) (pre : List α)
    (acc : StateDB α κ × Int) : Prop where
  entry : ∀ a d, acc.1.getRewardBalanceByDelegateAddress a d =
    s.getRewardBalanceByDelegateAddress a d +
      if d = coinbase ∧ a ∈ pre then delegateShare s coinbase D T a else 0
  given : acc.2 = (pre.map (delegateShare s coinbase D T)).sum
  rewardTotal : acc.1.rewardTotal = s.rewardTotal + acc.2
  balanceTotal : acc.1.balanceTotal = s.balanceTotal
  proxied : ∀ c u, acc.1.getAccountProxiedBalance c u = s.getAccountProxiedBalance c u

namespace ShareProgress

variable {s : StateDB α κ} {coinbase : α} {D T : Int}

theorem init : ShareProgress s coinbase D T [] (s, 0) :=
  ⟨fun _ _ => by simp, rfl, by simp, rfl, fun _ _ => rfl⟩

/-- One more user, not met before, gets its share. -/
theorem step {pre : List α} {acc : StateDB α κ × Int} {key : α} (hkey : key ∉ pre)
    (hp : ShareProgress s coinbase D T pre acc) :
    ShareProgress s coinbase D T (pre ++ [key])
      (delegateRewardCb coinbase D T key (acc.1.getAccountProxiedBalance coinbase key) acc) := by
  have hmem : ∀ a, a ∈ pre ++ [key] ↔ a ∈ pre ∨ a = key := fun a => by simp
  rw [hp.proxied]
  unfold delegateRewardCb
  split_ifs with hpos
  · -- the share is written to the user's entry for the coinbase
    have hshare : delegateShare s coinbase D T key =
        ((s.getAccountProxiedBalance coinbase key).depositProxiedBalance * D).tdiv T := by
      rw [delegateShare]
      exact if_pos hpos
    refine ⟨fun a d => ?_, ?_, ?_, ?_, fun c u => ?_⟩
    · rw [StateDB.getRewardBalanceByDelegateAddress_addRewardBalanceByDelegateAddress, hp.entry]
      by_cases ha : a = key
      · subst ha
        simp [hkey, hshare]
      · simp [hmem, ha]
    · simp [hp.given, hshare]
    · rw [StateDB.rewardTotal_addRewardBalanceByDelegateAddress, hp.rewardTotal]
      ring
    · rw [StateDB.balanceTotal_addRewardBalanceByDelegateAddress, hp.balanceTotal]
    · rw [StateDB.getAccountProxiedBalance_addRewardBalanceByDelegateAddress, hp.proxied]
  · -- no deposit proxied balance, no share
    have hshare : delegateShare s coinbase D T key = 0 := by
      rw [delegateShare]
      exact if_neg hpos
    refine ⟨fun a d => ?_, ?_, hp.rewardTotal, hp.balanceTotal, hp.proxied⟩
    · rw [hp.entry]
      by_cases ha : a = key
      · subst ha
        simp [hkey, hshare]
      · simp [hmem, ha]
    · simp [hp.given, hshare]

end ShareProgress

/-- The delegators' split gives each user of the coinbase's proxied trie its share, once. -/
theorem forEachProxied_shareProgress (s : StateDB α κ) (coinbase : α) (D T : Int) :
    ShareProgress s coinbase D T (s.account coinbase).proxied.keys
      (s.forEachProxied coinbase 0 (delegateRewardCb coinbase D T)) := by
  refine StateDB.forEachProxied_prefix_induction _ s coinbase 0 _ ShareProgress.init ?_
  intro pre key rest acc hkeys hp
  -- the keys of a trie are distinct, so `key` was not met before
  have hnodup : (pre ++ key :: rest).Nodup := hkeys ▸ (s.account coinbase).proxied.nodup
  have hkey : key ∉ pre := fun h => (List.nodup_append.1 hnodup).2.2 key h key (by simp) rfl
  exact hp.step hkey

/-- The delegators' split and its settlement, on a state with the invariant, for a nonnegative
reward `D` over a positive deposit total `T`: the reward entries grow by exactly `D`, every
user other than the coinbase gets exactly its share in its entry for the coinbase, no entry
decreases, and the balances stay. -/
theorem distributeDelegateReward_spec {s : StateDB α κ} (h : StakingInvariant s) {coinbase : α}
    {D T : Int} (hD : 0 ≤ D) (hT : s.getTotalDepositProxiedBalance coinbase = T) (hT0 : 0 < T) :
    ∃ s', distributeDelegateReward coinbase D T s = some s' ∧
      s'.rewardTotal = s.rewardTotal + D ∧ s'.balanceTotal = s.balanceTotal ∧
      (∀ a d, a ≠ coinbase → s'.getRewardBalanceByDelegateAddress a d =
        s.getRewardBalanceByDelegateAddress a d +
          if d = coinbase ∧ a ∈ (s.account coinbase).proxied.keys then
            delegateShare s coinbase D T a else 0) ∧
      ∀ a d, s.getRewardBalanceByDelegateAddress a d ≤ s'.getRewardBalanceByDelegateAddress a d := by
  obtain ⟨-, hle⟩ := h.forEachProxied_delegateRewardCb hD hT hT0
  have hp := forEachProxied_shareProgress s coinbase D T
  unfold distributeDelegateReward
  rcases hres : s.forEachProxied coinbase 0 (delegateRewardCb coinbase D T) with ⟨s₁, given⟩
  rw [hres] at hle hp
  dsimp only at hle hp ⊢
  have hshare := delegateShare_nonneg s coinbase hD hT0
  -- the loop only adds shares, which are nonnegative
  have hmono : ∀ a d, s.getRewardBalanceByDelegateAddress a d ≤
      s₁.getRewardBalanceByDelegateAddress a d := by
    intro a d
    rw [hp.entry]
    split_ifs
    · linarith [hshare a]
    · simp
  split_ifs with hlt hgt
  · -- the rounding remainder goes to the coinbase's own entry
    refine ⟨_, rfl, ?_, ?_, fun a d ha => ?_, fun a d => ?_⟩
    · rw [StateDB.rewardTotal_addRewardBalanceByDelegateAddress, hp.rewardTotal]
      ring
    · rw [StateDB.balanceTotal_addRewardBalanceByDelegateAddress, hp.balanceTotal]
    · have hne : ¬(a = coinbase ∧ d = coinbase) := fun h => ha h.1
      rw [StateDB.getRewardBalanceByDelegateAddress_addRewardBalanceByDelegateAddress, if_neg hne,
        add_zero, hp.entry]
    · rw [StateDB.getRewardBalanceByDelegateAddress_addRewardBalanceByDelegateAddress]
      have := hmono a d
      split_ifs <;> linarith
  · -- giving out more than the reward is never reached
    omega
  · have hgiven : given = D := by omega
    exact ⟨_, rfl, by rw [hp.rewardTotal, hgiven], hp.balanceTotal, fun a d _ => hp.entry a d,
      hmono⟩

/-! ### The whole block reward -/

/-- The part of `accumulateRewards` after the coinbase reward is known: the split, the self
reward into the coinbase's own entry, and the delegators' split. -/
def payCoinbaseReward (coinbase : α) (coinbaseReward : Int) (s : StateDB α κ) :
    Option (StateDB α κ) := do
  let totalProxiedDeposit := s.getTotalDepositProxiedBalance coinbase
  let (selfReward, delegateReward) ← splitReward coinbaseReward (s.getDepositBalance coinbase)
    totalProxiedDeposit (s.getCommission coinbase)
  let s := s.addRewardBalanceByDelegateAddress coinbase coinbase selfReward
  match delegateReward with
  | some delegateReward =>
    if 0 < delegateReward then distributeDelegateReward coinbase delegateReward totalProxiedDeposit s
    else some s
  | none => some s

theorem accumulateRewards_eq (cfg : RewardConfig α) (coinbase : α) (rewardPerBlock : Int)
    (totalGasFee : Nat) (s : StateDB α κ) :
    accumulateRewards cfg coinbase rewardPerBlock totalGasFee s =
      payCoinbaseReward coinbase
        (coinbaseRewardOf cfg rewardPerBlock ((totalGasFee / 2 : Nat) : Int)
          (s.addBalance cfg.feeAddress ((totalGasFee / 2 : Nat) : Int))).2
        (coinbaseRewardOf cfg rewardPerBlock ((totalGasFee / 2 : Nat) : Int)
          (s.addBalance cfg.feeAddress ((totalGasFee / 2 : Nat) : Int))).1 :=
  rfl

/-- Paying a nonnegative coinbase reward on a state with the invariant, whose coinbase has a
nonnegative own deposit and a commission of at most 100: the split gives a self reward between
zero and the coinbase reward, the entries grow by exactly the coinbase reward, every other user
with a positive deposit proxied balance gets its floor share, no entry decreases, and the
balances stay. -/
theorem payCoinbaseReward_spec {s : StateDB α κ} (h : StakingInvariant s) {coinbase : α}
    {coinbaseReward : Int} (hc : 0 ≤ coinbaseReward) (hdeposit : 0 ≤ s.getDepositBalance coinbase)
    (hcommission : (s.getCommission coinbase).toNat ≤ 100) :
    ∃ s' selfReward delegateReward,
      payCoinbaseReward coinbase coinbaseReward s = some s' ∧
      splitReward coinbaseReward (s.getDepositBalance coinbase)
        (s.getTotalDepositProxiedBalance coinbase) (s.getCommission coinbase) =
        some (selfReward, delegateReward) ∧
      0 ≤ selfReward ∧ selfReward ≤ coinbaseReward ∧
      s'.rewardTotal = s.rewardTotal + coinbaseReward ∧ s'.balanceTotal = s.balanceTotal ∧
      (∀ d, d ≠ coinbase → 0 < s.getDepositProxiedBalanceByUser coinbase d →
        s'.getRewardBalanceByDelegateAddress d coinbase =
          s.getRewardBalanceByDelegateAddress d coinbase +
            s.getDepositProxiedBalanceByUser coinbase d * delegateReward.getD 0 /
              s.getTotalDepositProxiedBalance coinbase) ∧
      ∀ a d, s.getRewardBalanceByDelegateAddress a d ≤ s'.getRewardBalanceByDelegateAddress a d := by
  have hT0 := h.delegation.totalDepositProxied_nonneg coinbase
  obtain ⟨sR, dR, hsplit, hsR, hsum, hdR⟩ :=
    splitReward_spec (s.getCommission coinbase) hc hdeposit hT0
  have hD := splitReward_delegateReward_nonneg hcommission hc hdeposit hT0 hsplit
  unfold payCoinbaseReward
  simp only [hsplit, Option.bind_eq_bind, Option.bind_some]
  -- the self reward goes to the coinbase's own entry
  set s₁ := s.addRewardBalanceByDelegateAddress coinbase coinbase sR with hs₁
  have h₁ : StakingInvariant s₁ := h.addRewardBalanceByDelegateAddress coinbase coinbase
    (by have := h.reward.reward_nonneg coinbase coinbase; omega)
  have hget₁ : ∀ a d, s₁.getRewardBalanceByDelegateAddress a d =
      s.getRewardBalanceByDelegateAddress a d + if a = coinbase ∧ d = coinbase then sR else 0 :=
    s.getRewardBalanceByDelegateAddress_addRewardBalanceByDelegateAddress coinbase coinbase sR
  have hrew₁ : s₁.rewardTotal = s.rewardTotal + sR :=
    s.rewardTotal_addRewardBalanceByDelegateAddress coinbase coinbase sR
  have hbal₁ : s₁.balanceTotal = s.balanceTotal :=
    s.balanceTotal_addRewardBalanceByDelegateAddress coinbase coinbase sR
  have hmono₁ : ∀ a d, s.getRewardBalanceByDelegateAddress a d ≤
      s₁.getRewardBalanceByDelegateAddress a d := by
    intro a d
    rw [hget₁]
    split_ifs <;> omega
  -- an entry other than the coinbase's own is where the self reward left it
  have hother : ∀ d, d ≠ coinbase → s₁.getRewardBalanceByDelegateAddress d coinbase =
      s.getRewardBalanceByDelegateAddress d coinbase := by
    intro d hd
    rw [hget₁, if_neg (fun h => hd h.1), add_zero]
  cases dR with
  | none =>
    have hsR' : sR = coinbaseReward := by simpa using hsum
    refine ⟨_, sR, none, rfl, rfl, hsR, hsR'.le, by rw [hrew₁, hsR'], hbal₁,
      fun d hd _ => ?_, hmono₁⟩
    simp [hother d hd]
  | some D =>
    simp only [Option.getD_some] at hsum hD
    dsimp only
    split_ifs with hpos
    · -- the delegators' split runs on the deposit total read before the self reward
      have hT₁ := s.getTotalDepositProxiedBalance_addRewardBalanceByDelegateAddress coinbase
        coinbase sR coinbase
      obtain ⟨s', hs', hrew', hbal', hentry', hmono'⟩ :=
        distributeDelegateReward_spec h₁ hpos.le hT₁ (hdR D rfl)
      refine ⟨s', sR, some D, hs', rfl, hsR, by omega, by rw [hrew', hrew₁]; omega,
        by rw [hbal', hbal₁], fun d hd hpd => ?_, fun a d => (hmono₁ a d).trans (hmono' a d)⟩
      have hp₁ : s₁.getDepositProxiedBalanceByUser coinbase d =
          s.getDepositProxiedBalanceByUser coinbase d := by
        simp only [hs₁, StateDB.getDepositProxiedBalanceByUser,
          StateDB.getAccountProxiedBalance_addRewardBalanceByDelegateAddress]
      have hmem := StateDB.mem_keys_of_depositProxied_pos _ (hp₁ ▸ hpd)
      have hshare : delegateShare s₁ coinbase D (s.getTotalDepositProxiedBalance coinbase) d =
          s.getDepositProxiedBalanceByUser coinbase d * D /
            s.getTotalDepositProxiedBalance coinbase := by
        rw [delegateShare, hp₁, if_pos hpd,
          Int.tdiv_eq_ediv_of_nonneg (mul_nonneg hpd.le hpos.le)]
      rw [hentry' d coinbase hd, if_pos ⟨rfl, hmem⟩, hshare, hother d hd, Option.getD_some]
    · have hD0 : D = 0 := by omega
      subst hD0
      refine ⟨_, sR, some 0, rfl, rfl, hsR, by omega, by rw [hrew₁]; omega, hbal₁,
        fun d hd _ => ?_, hmono₁⟩
      simp [hother d hd]

/-- The block reward on a state with the invariant whose coinbase has a nonnegative own deposit
and a commission of at most 100 (on a child chain, also a reward address with a nonnegative
balance). The reward entries grow by exactly the coinbase reward, and the self reward is
between zero and the coinbase reward. Every other user with a positive deposit proxied balance
`dp` gets `⌊dp · D / T⌋` for the delegators' reward `D` and the deposit total `T`. No entry
decreases. On the main chain balances and entries together grow by exactly the positive part of
the reward per block and the two halves of the fee. -/
theorem accumulateRewards_split {s : StateDB α κ} (h : StakingInvariant s) (cfg : RewardConfig α)
    (coinbase : α) (rewardPerBlock : Int) (totalGasFee : Nat) {coinbaseReward : Int}
    (hreward : (coinbaseRewardOf cfg rewardPerBlock ((totalGasFee / 2 : Nat) : Int)
      (s.addBalance cfg.feeAddress ((totalGasFee / 2 : Nat) : Int))).2 = coinbaseReward)
    (hdeposit : 0 ≤ s.getDepositBalance coinbase)
    (hcommission : (s.getCommission coinbase).toNat ≤ 100)
    (hchild : cfg.isMainOrTestnet = false → 0 ≤ s.getBalance cfg.childChainRewardAddress) :
    ∃ s' selfReward delegateReward,
      accumulateRewards cfg coinbase rewardPerBlock totalGasFee s = some s' ∧
      splitReward coinbaseReward (s.getDepositBalance coinbase)
        (s.getTotalDepositProxiedBalance coinbase) (s.getCommission coinbase) =
        some (selfReward, delegateReward) ∧
      0 ≤ selfReward ∧ selfReward ≤ coinbaseReward ∧
      s'.rewardTotal = s.rewardTotal + coinbaseReward ∧
      (∀ d, d ≠ coinbase → 0 < s.getDepositProxiedBalanceByUser coinbase d →
        s'.getRewardBalanceByDelegateAddress d coinbase =
          s.getRewardBalanceByDelegateAddress d coinbase +
            s.getDepositProxiedBalanceByUser coinbase d * delegateReward.getD 0 /
              s.getTotalDepositProxiedBalance coinbase) ∧
      (∀ a d, s.getRewardBalanceByDelegateAddress a d ≤ s'.getRewardBalanceByDelegateAddress a d) ∧
      (cfg.isMainOrTestnet = true → s'.balanceTotal + s'.rewardTotal =
        s.balanceTotal + s.rewardTotal + max rewardPerBlock 0 +
          2 * ((totalGasFee / 2 : Nat) : Int)) := by
  set half : Int := ((totalGasFee / 2 : Nat) : Int) with hhalf
  -- half the fee goes to the fee address, then the coinbase reward's step moves balances only
  have hchild₀ : cfg.isMainOrTestnet = false →
      0 ≤ (s.addBalance cfg.feeAddress half).getBalance cfg.childChainRewardAddress := by
    intro hc
    have := hchild hc
    rw [StateDB.getBalance_addBalance]
    split_ifs <;> omega
  obtain ⟨h₁, hcR⟩ := (h.addBalance cfg.feeAddress half).coinbaseRewardOf cfg rewardPerBlock
    (Int.natCast_nonneg _) hchild₀
  have hbal₁ :=
    balanceTotal_coinbaseRewardOf cfg rewardPerBlock half (s.addBalance cfg.feeAddress half)
  have hframe : ∀ {β : Type} (G : StateDB α κ → β), (∀ t a x, G (t.addBalance a x) = G t) →
      G (coinbaseRewardOf cfg rewardPerBlock half (s.addBalance cfg.feeAddress half)).1 = G s := by
    intro β G hG
    rcases coinbaseRewardOf_state cfg rewardPerBlock half (s.addBalance cfg.feeAddress half) with
      h₁ | ⟨a, x, h₁⟩
    · rw [h₁, hG]
    · rw [h₁, hG, hG]
  rw [accumulateRewards_eq]
  rcases hr : coinbaseRewardOf cfg rewardPerBlock half (s.addBalance cfg.feeAddress half) with
    ⟨s₁, cR⟩
  rw [hr] at h₁ hcR hbal₁ hreward hframe
  dsimp only at h₁ hcR hbal₁ hreward hframe ⊢
  subst hreward
  have hdep₁ : s₁.getDepositBalance coinbase = s.getDepositBalance coinbase :=
    hframe (·.getDepositBalance coinbase) fun t a x => t.getDepositBalance_addBalance a x coinbase
  have hcomm₁ : s₁.getCommission coinbase = s.getCommission coinbase :=
    hframe (·.getCommission coinbase) fun t a x => t.getCommission_addBalance a x coinbase
  have hT₁ : s₁.getTotalDepositProxiedBalance coinbase =
      s.getTotalDepositProxiedBalance coinbase :=
    hframe (·.getTotalDepositProxiedBalance coinbase) fun t a x =>
      t.getTotalDepositProxiedBalance_addBalance a x coinbase
  have hdp₁ : ∀ u, s₁.getDepositProxiedBalanceByUser coinbase u =
      s.getDepositProxiedBalanceByUser coinbase u :=
    fun u => hframe (·.getDepositProxiedBalanceByUser coinbase u) fun t a x => by
      simp [StateDB.getDepositProxiedBalanceByUser]
  have hget₁ : ∀ a d, s₁.getRewardBalanceByDelegateAddress a d =
      s.getRewardBalanceByDelegateAddress a d :=
    fun a' d => hframe (·.getRewardBalanceByDelegateAddress a' d) fun t a x =>
      t.getRewardBalanceByDelegateAddress_addBalance a x a' d
  have hrew₁ : s₁.rewardTotal = s.rewardTotal :=
    hframe StateDB.rewardTotal fun t a x => t.rewardTotal_addBalance a x
  obtain ⟨s', sR, dR, hs', hsplit, hsR0, hsR1, hrew', hbal', hshare, hmono⟩ :=
    payCoinbaseReward_spec h₁ hcR (hdep₁ ▸ hdeposit) (hcomm₁ ▸ hcommission)
  refine ⟨s', sR, dR, hs', by rwa [hdep₁, hcomm₁, hT₁] at hsplit, hsR0, hsR1,
    by rw [hrew', hrew₁], fun d hd hpd => ?_, fun a d => ?_, fun hmain => ?_⟩
  · rw [hshare d hd (by rwa [hdp₁]), hget₁, hdp₁, hT₁]
  · rw [← hget₁]
    exact hmono a d
  · -- on the main chain the fee and the reward per block are all that is added
    rw [hmain, if_pos rfl, StateDB.balanceTotal_addBalance] at hbal₁
    rw [hbal', hrew', hrew₁]
    linarith

/-- The main chain's reward: no foundation address, the fee to address `2`. -/
def mainnetRewardConfig : RewardConfig Nat := ⟨true, none, 2, 2, 0⟩

/-- Candidate `0` with a commission of `10` and a delegator `1` with `4` in deposit proxied. -/
def delegatorRewardState : StateDB Nat Nat :=
  ((((StateDB.empty.addDelegateBalance 1 4).addProxiedBalanceByUser 0 1 4).subProxiedBalanceByUser
    0 1 4).addDepositProxiedBalanceByUser 0 1 4).applyForCandidate 0 0 10

theorem delegatorRewardState_invariant : StakingInvariant delegatorRewardState :=
  ((StakingInvariant.empty.addDelegation 0 1 (by decide)).depositProxied 0 1 (by decide)
    (by decide)).applyForCandidate 0 0 10

theorem accumulateRewards_split_delegator :
    ∃ s' selfReward delegateReward,
      accumulateRewards mainnetRewardConfig 0 10 6 delegatorRewardState = some s' ∧
      splitReward 13 (delegatorRewardState.getDepositBalance 0)
        (delegatorRewardState.getTotalDepositProxiedBalance 0)
        (delegatorRewardState.getCommission 0) = some (selfReward, delegateReward) ∧
      0 ≤ selfReward ∧ selfReward ≤ 13 ∧
      s'.rewardTotal = delegatorRewardState.rewardTotal + 13 ∧
      (∀ d, d ≠ 0 → 0 < delegatorRewardState.getDepositProxiedBalanceByUser 0 d →
        s'.getRewardBalanceByDelegateAddress d 0 =
          delegatorRewardState.getRewardBalanceByDelegateAddress d 0 +
            delegatorRewardState.getDepositProxiedBalanceByUser 0 d * delegateReward.getD 0 /
              delegatorRewardState.getTotalDepositProxiedBalance 0) ∧
      (∀ a d, delegatorRewardState.getRewardBalanceByDelegateAddress a d ≤
        s'.getRewardBalanceByDelegateAddress a d) ∧
      (mainnetRewardConfig.isMainOrTestnet = true → s'.balanceTotal + s'.rewardTotal =
        delegatorRewardState.balanceTotal + delegatorRewardState.rewardTotal + max 10 0 +
          2 * ((6 / 2 : Nat) : Int)) :=
  accumulateRewards_split delegatorRewardState_invariant mainnetRewardConfig 0 10 6 rfl
    (by decide) (by decide) (fun h => absurd h (by decide))

end IntChain
