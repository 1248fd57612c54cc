import IntChain.State.Finalise

/-!
# What `Commit` persists

`IntermediateRoot`, `Commit` and `state.New` over the account trie of `StateDB`. `Finalise`
writes every dirty object: it deletes an empty one when asked to, and otherwise flushes the
caches of its proxied and reward tries and writes its `Account` with `updateStateObject`.
`Commit` runs the same writes over the dirty objects again, then clears their marks and the
dirty flags of the two sets. The root of the account trie stands for its content: the
`Account` at every address, with the sub-tries behind their roots, and the two sets stored
under their own keys.

`Commit` after `IntermediateRoot` gives the same root (`commit_root_eq`): the second pass finds
every cache flushed and every account written. What a fresh `state.New` at that root reads is
another matter. RLP has no negative `*big.Int`, and `updateProxiedTrie` and `updateRewardTrie`
drop the error of `rlp.EncodeToBytes`: the nil bytes make `TryUpdate` delete the key. A
negative entry therefore stays in the origin cache of the live state and is gone from the trie.
-/

namespace IntChain

variable {α κ ι : Type}

namespace StateObject

/-- Whether RLP encodes the object's `Account`, as `updateStateObject` needs (it panics
otherwise): no `*big.Int` field is negative. -/
def encodes (o : StateObject α κ ι) : Bool :=
  decide (0 ≤ o.balance ∧ 0 ≤ o.depositBalance ∧ 0 ≤ o.chainBalance ∧ 0 ≤ o.delegateBalance ∧
      0 ≤ o.proxiedBalance ∧ 0 ≤ o.depositProxiedBalance ∧ 0 ≤ o.pendingRefundBalance ∧
      0 ≤ o.rewardBalance) &&
    o.childChainDepositBalance.all fun e => decide (0 ≤ e.depositBalance)

/-- The object that `state.New` loads from what `updateStateObject` wrote: the `Account`, with
the proxied and reward tries behind their roots and no cache. -/
def stored (o : StateObject α κ ι) : StateObject α κ ι :=
  { o with proxied := ⟨o.proxied.trie, KeyMap.empty, KeyMap.empty⟩,
           reward := ⟨o.reward.trie, KeyMap.empty, KeyMap.empty⟩, deleted := false }

variable [DecidableEq α]

/-- What `Finalise` makes of one dirty object: it is marked deleted, or both caches are
flushed into their tries. -/
def finalised (d : Bool) (o : StateObject α κ ι) : Option (StateObject α κ ι) :=
  if d && o.empty then some { o with deleted := true }
  else
    (o.proxied.updateTrie AccountProxiedBalance.zero AccountProxiedBalance.encodes).bind
      fun proxied => (o.reward.updateTrie 0 fun v => decide (0 ≤ v)).map fun reward =>
        { o with proxied, reward }

theorem empty_of_finalised {d : Bool} {o o' : StateObject α κ ι} (h : o.finalised d = some o') :
    o'.empty = o.empty := by
  unfold finalised at h
  split_ifs at h
  · cases h
    rfl
  · obtain ⟨p, -, h⟩ := Option.bind_eq_some_iff.1 h
    obtain ⟨r, -, rfl⟩ := Option.map_eq_some_iff.1 h
    rfl

/-- A finalised object is finalised again to itself: it stays deleted, or its caches have
nothing dirty left to flush. -/
theorem finalised_finalised {d : Bool} {o o' : StateObject α κ ι} (h : o.finalised d = some o') :
    o'.finalised d = some o' := by
  have he := empty_of_finalised h
  unfold finalised at h ⊢
  rw [he]
  split_ifs at h ⊢
  · cases h
    rfl
  · obtain ⟨p, hp, h⟩ := Option.bind_eq_some_iff.1 h
    obtain ⟨r, hr, rfl⟩ := Option.map_eq_some_iff.1 h
    rw [TrieCache.updateTrie_of_dirty_eq_empty _ _ (TrieCache.updateTrie_dirty _ _ hp),
      TrieCache.updateTrie_of_dirty_eq_empty _ _ (TrieCache.updateTrie_dirty _ _ hr)]
    rfl

end StateObject

/-- `ObjectDB.finaliseObject` is `finalised` at the object's address. -/
theorem ObjectDB.finaliseObject_eq [DecidableEq α] (d : Bool) (s : ObjectDB α κ ι) (a : α) :
    s.finaliseObject d a = (s.stateObjects.find? a).bind fun o =>
      (o.finalised d).map fun o' => { s with stateObjects := s.stateObjects.insert a o' } := by
  unfold ObjectDB.finaliseObject StateObject.finalised
  cases s.stateObjects.find? a with
  | none => rfl
  | some o =>
    simp only [Option.bind_some]
    split_ifs
    · rfl
    · cases o.proxied.updateTrie AccountProxiedBalance.zero AccountProxiedBalance.encodes <;>
        cases o.reward.updateTrie 0 fun v => decide (0 ≤ v) <;> rfl

/-- The account trie under a state root: the `Account` at each address, and the delegate
refund set and the reward set under `refundSetKey` and `rewardSetKey`. -/
structure AccountTrie (α κ ι : Type) where
  accounts : KeyMap α (StateObject α κ ι)
  refundSet : List α
  rewardSet : List α

/-- `state.New(root, db)`: nothing dirty and a zero refund. `getStateObject` loads an account
from the trie when first asked and `GetDelegateAddressRefundSet` the set; the model has them
loaded from the start, which no getter tells apart. -/
def AccountTrie.new (t : AccountTrie α κ ι) : ObjectDB α κ ι :=
  ⟨t.accounts, [], t.refundSet, false, t.rewardSet, false, 0⟩

/-- `StateDB` with its account trie: the live objects, and what `Finalise` and `Commit` have
written to the trie. -/
structure StateTrie (α κ ι : Type) where
  objects : ObjectDB α κ ι
  trie : AccountTrie α κ ι

/-- A state opened at a committed root. -/
def AccountTrie.open (t : AccountTrie α κ ι) : StateTrie α κ ι := ⟨t.new, t⟩

/-- What the getters of `StateDB` return, where a nil object or entry reads as zero
(`common.Big0`, `false`, `""`). -/
@[ext] structure Getters (α κ ι : Type) where
  /-- `GetBalance`, `GetDepositBalance`, …, `GetTotalProxiedBalance`, `GetTotalRewardBalance`. -/
  amount : α → AmountField → Int
  nonce : α → Nat
  childChainDepositBalance : α → ι → Int
  isCandidate : α → Bool
  commission : α → UInt8
  pubkey : α → Option κ
  /-- `GetProxiedBalanceByUser`, `GetDepositProxiedBalanceByUser`,
  `GetPendingRefundBalanceByUser`. -/
  byUser : α → α → ProxiedField → Int
  rewardBalanceByDelegateAddress : α → α → Int
  delegateAddressRefundSet : α → Bool
  rewardSet : α → Bool

def Reads.getters (r : Reads α κ ι) : Getters α κ ι :=
  ⟨fun a f => ((r.object a).map (·.amount f)).getD 0,
    fun a => ((r.object a).map (·.nonce)).getD 0,
    fun a c => ((r.object a).map (·.childChainDeposit c)).getD 0,
    fun a => ((r.object a).map (·.candidate)).getD false,
    fun a => ((r.object a).map (·.commission)).getD 0,
    fun a => (r.object a).bind (·.pubkey),
    fun a u f => (((r.object a).bind (·.accountProxiedBalance u)).map (·.get f)).getD 0,
    fun a k => ((r.object a).bind (·.delegateRewardBalance k)).getD 0,
    r.delegateRefundSet, r.rewardSet⟩

namespace StateTrie

variable [DecidableEq α]

/-- The mutators, run on the live objects. -/
def run [DecidableEq ι] (ops : List (Op α κ ι)) (s : StateTrie α κ ι) : Option (StateTrie α κ ι) :=
  (Journal.runOps (ops.map Op.run) s.objects).map fun r => { s with objects := r.1 }

/-- One dirty object of `Finalise`, and of `Commit`, whose loop does the same for a dirty
object (its `Commit*Trie` run the `update*Trie` of `update*Root`): the object-level work of
`ObjectDB.finaliseObject`, then `deleteStateObject` takes the account out of the trie or
`updateStateObject` writes it, which panics where RLP does not encode it. -/
def finaliseObject (d : Bool) (s : StateTrie α κ ι) (a : α) : Option (StateTrie α κ ι) :=
  (s.objects.finaliseObject d a).bind fun objects =>
    if d && (s.objects.object a).empty then
      some ⟨objects, { s.trie with accounts := s.trie.accounts.erase a }⟩
    else if (objects.object a).encodes then
      some ⟨objects, { s.trie with accounts := s.trie.accounts.insert a (objects.object a).stored }⟩
    else none

/-- `commitDelegateRefundSet` and `commitRewardSet`, for each set whose dirty flag is up. -/
def commitSets (s : StateTrie α κ ι) : StateTrie α κ ι :=
  { s with trie := { s.trie with
      refundSet := if s.objects.delegateRefundSetDirty then s.objects.delegateRefundSet
        else s.trie.refundSet
      rewardSet := if s.objects.rewardSetDirty then s.objects.rewardSet else s.trie.rewardSet } }

/-- `Finalise`: every dirty object, then the two sets; the flags stay up, and the refund
counter is cleared with the journal. -/
def finalise (d : Bool) (s : StateTrie α κ ι) : Option (StateTrie α κ ι) :=
  (s.objects.stateObjectsDirty.foldlM (finaliseObject d) s).map fun s =>
    { s.commitSets with objects := { s.objects with refund := 0 } }

/-- `IntermediateRoot`: `Finalise`, then the root of the account trie. -/
def intermediateRoot (d : Bool) (s : StateTrie α κ ι) :
    Option (StateTrie α κ ι × AccountTrie α κ ι) :=
  (s.finalise d).map fun s => (s, s.trie)

/-- The loop body of `Commit` for one live object: a dirty one is written or deleted as in
`Finalise`, and its dirty mark goes. -/
def commitObject (d : Bool) (s : StateTrie α κ ι) (a : α) : Option (StateTrie α κ ι) :=
  (if a ∈ s.objects.stateObjectsDirty then s.finaliseObject d a else some s).map fun s =>
    { s with objects := { s.objects with
        stateObjectsDirty := s.objects.stateObjectsDirty.erase a } }

/-- `Commit`: every live object, then the two sets, whose flags go down; the journal and the
refund counter are cleared on the way out. -/
def commit (d : Bool) (s : StateTrie α κ ι) : Option (StateTrie α κ ι × AccountTrie α κ ι) :=
  (s.objects.stateObjects.keys.foldlM (commitObject d) s).map fun s =>
    let s := { s.commitSets with objects := { s.objects with
      delegateRefundSetDirty := false, rewardSetDirty := false, refund := 0 } }
    (s, s.trie)

/-! ### `Commit` after `IntermediateRoot` -/

theorem finaliseObject_eq (d : Bool) (s : StateTrie α κ ι) (a : α) :
    s.finaliseObject d a = (s.objects.stateObjects.find? a).bind fun o =>
      (o.finalised d).bind fun o' =>
        if d && o.empty then
          some ⟨{ s.objects with stateObjects := s.objects.stateObjects.insert a o' },
            { s.trie with accounts := s.trie.accounts.erase a }⟩
        else if o'.encodes then
          some ⟨{ s.objects with stateObjects := s.objects.stateObjects.insert a o' },
            { s.trie with accounts := s.trie.accounts.insert a o'.stored }⟩
        else none := by
  unfold finaliseObject
  rw [ObjectDB.finaliseObject_eq]
  cases ho : s.objects.stateObjects.find? a with
  | none => rfl
  | some o =>
    have hobj : s.objects.object a = o := by simp [ObjectDB.object, KeyMap.findD, ho]
    simp only [Option.bind_some]
    cases hf : o.finalised d with
    | none => rfl
    | some o' =>
      have hobj' : ({ s.objects with stateObjects := s.objects.stateObjects.insert a o' } :
          ObjectDB α κ ι).object a = o' := by
        simp [ObjectDB.object, KeyMap.findD_insert]
      simp only [Option.map_some, Option.bind_some, hobj, hobj']

/-- What `Finalise` leaves at an address it visited: an object that `finalised` keeps as it
is, and in the account trie nothing if it was deleted, its stored form otherwise. -/
def Flushed (d : Bool) (a : α) (s : StateTrie α κ ι) : Prop :=
  ∃ o, s.objects.stateObjects.find? a = some o ∧ o.finalised d = some o ∧
    if d && o.empty then s.trie.accounts.find? a = none
    else o.encodes = true ∧ s.trie.accounts.find? a = some o.stored

theorem Flushed.congr {d : Bool} {a : α} {s t : StateTrie α κ ι} (h : s.Flushed d a)
    (ho : t.objects.stateObjects.find? a = s.objects.stateObjects.find? a)
    (ht : t.trie.accounts.find? a = s.trie.accounts.find? a) : t.Flushed d a := by
  rw [Flushed, ho, ht]
  exact h

theorem finaliseObject_flushed {d : Bool} {s s' : StateTrie α κ ι} {a : α}
    (h : s.finaliseObject d a = some s') : s'.Flushed d a := by
  rw [finaliseObject_eq] at h
  obtain ⟨o, -, h⟩ := Option.bind_eq_some_iff.1 h
  obtain ⟨o', ho', h⟩ := Option.bind_eq_some_iff.1 h
  have he := StateObject.empty_of_finalised ho'
  have hfin := StateObject.finalised_finalised ho'
  by_cases hd : (d && o.empty) = true
  · -- deleted: the account leaves the trie
    rw [if_pos hd] at h
    cases h
    refine ⟨o', by simp [KeyMap.find?_insert], hfin, ?_⟩
    rw [he, if_pos hd]
    simp [KeyMap.find?_erase]
  · -- written: the account is the stored form of the flushed object
    rw [if_neg hd] at h
    split_ifs at h with henc
    cases h
    refine ⟨o', by simp [KeyMap.find?_insert], hfin, ?_⟩
    rw [he, if_neg hd]
    simp [KeyMap.find?_insert, henc]

theorem finaliseObject_of_flushed {d : Bool} {s : StateTrie α κ ι} {a : α} (h : s.Flushed d a) :
    s.finaliseObject d a = some s := by
  obtain ⟨o, ho, hfin, htrie⟩ := h
  rw [finaliseObject_eq, ho, Option.bind_some, hfin, Option.bind_some,
    KeyMap.insert_of_find?_eq ho]
  split_ifs at htrie ⊢
  · rw [KeyMap.erase_of_find?_eq_none htrie]
  · rw [KeyMap.insert_of_find?_eq htrie.2]
  · exact absurd htrie.1 ‹_›

/-- One object of `Finalise` changes only the object and the account at its address. -/
theorem finaliseObject_frame {d : Bool} {s s' : StateTrie α κ ι} {b : α}
    (h : s.finaliseObject d b = some s') :
    s'.objects = { s.objects with stateObjects := s'.objects.stateObjects } ∧
      s'.trie = { s.trie with accounts := s'.trie.accounts } ∧
      ∀ a, a ≠ b → s'.objects.stateObjects.find? a = s.objects.stateObjects.find? a ∧
        s'.trie.accounts.find? a = s.trie.accounts.find? a := by
  rw [finaliseObject_eq] at h
  obtain ⟨o, -, h⟩ := Option.bind_eq_some_iff.1 h
  obtain ⟨o', -, h⟩ := Option.bind_eq_some_iff.1 h
  split_ifs at h <;> cases h <;>
    exact ⟨rfl, rfl, fun a ha => by simp [KeyMap.find?_insert, KeyMap.find?_erase, ha]⟩

/-- The loop of `Finalise`: every address it visits is flushed, and nothing else changes but
the objects and the accounts at those addresses. -/
theorem foldlM_finaliseObject {d : Bool} (l : List α) {s t : StateTrie α κ ι}
    (h : l.foldlM (finaliseObject d) s = some t) :
    (∀ a ∈ l, t.Flushed d a) ∧
      t.objects = { s.objects with stateObjects := t.objects.stateObjects } ∧
      t.trie = { s.trie with accounts := t.trie.accounts } ∧
      ∀ a, a ∉ l → t.objects.stateObjects.find? a = s.objects.stateObjects.find? a ∧
        t.trie.accounts.find? a = s.trie.accounts.find? a := by
  induction l generalizing s with
  | nil =>
    cases h
    exact ⟨fun _ h => absurd h List.not_mem_nil, rfl, rfl, fun _ _ => ⟨rfl, rfl⟩⟩
  | cons b l ih =>
    rw [List.foldlM_cons] at h
    obtain ⟨s₁, h₁, h₂⟩ := Option.bind_eq_some_iff.1 h
    obtain ⟨hfl, hobj, htrie, hout⟩ := ih h₂
    obtain ⟨hobj₁, htrie₁, hout₁⟩ := finaliseObject_frame h₁
    refine ⟨fun a ha => ?_, ?_, ?_, fun a ha => ?_⟩
    · -- the last visit of an address leaves it flushed, and later visits are elsewhere
      by_cases hl : a ∈ l
      · exact hfl a hl
      · rcases List.mem_cons.1 ha with rfl | ha
        · exact (finaliseObject_flushed h₁).congr (hout a hl).1 (hout a hl).2
        · exact absurd ha hl
    · rw [hobj, hobj₁]
    · rw [htrie, htrie₁]
    · have hab : a ≠ b := fun hab => ha (hab ▸ List.mem_cons_self)
      have hal : a ∉ l := fun hal => ha (List.mem_cons_of_mem _ hal)
      rw [(hout a hal).1, (hout a hal).2, (hout₁ a hab).1, (hout₁ a hab).2]
      exact ⟨rfl, rfl⟩

/-- The loop of `Commit` over states where every dirty address is flushed: it only takes the
dirty marks away. -/
theorem foldlM_commitObject {d : Bool} (l : List α) {s t : StateTrie α κ ι}
    (hs : ∀ a ∈ s.objects.stateObjectsDirty, s.Flushed d a)
    (h : l.foldlM (commitObject d) s = some t) :
    t.trie = s.trie ∧
      t.objects = { s.objects with stateObjectsDirty := t.objects.stateObjectsDirty } := by
  induction l generalizing s with
  | nil =>
    cases h
    exact ⟨rfl, rfl⟩
  | cons b l ih =>
    rw [List.foldlM_cons] at h
    obtain ⟨s₁, h₁, h₂⟩ := Option.bind_eq_some_iff.1 h
    -- a dirty address is written again to what it already is
    have hs₁ : s₁ = { s with objects := { s.objects with
        stateObjectsDirty := s.objects.stateObjectsDirty.erase b } } := by
      unfold commitObject at h₁
      split_ifs at h₁ with hb
      · rw [finaliseObject_of_flushed (hs b hb)] at h₁
        exact (Option.some.inj h₁).symm
      · exact (Option.some.inj h₁).symm
    subst hs₁
    have hs₁ : ∀ a ∈ s.objects.stateObjectsDirty.erase b,
        ({ s with objects := { s.objects with
          stateObjectsDirty := s.objects.stateObjectsDirty.erase b } } : StateTrie α κ ι).Flushed d a :=
      fun a ha => hs a (List.mem_of_mem_erase ha)
    obtain ⟨htrie, hobj⟩ := ih hs₁ h₂
    exact ⟨htrie, by rw [hobj]⟩

/-- `Commit` after `IntermediateRoot` returns the root `IntermediateRoot` returned. -/
theorem commit_root_eq {d : Bool} {s s' s'' : StateTrie α κ ι} {r root : AccountTrie α κ ι}
    (hr : s.intermediateRoot d = some (s', r)) (hc : s'.commit d = some (s'', root)) :
    root = r := by
  obtain ⟨t, ht, hr⟩ := Option.map_eq_some_iff.1 hr
  obtain ⟨t', ht', hft⟩ := Option.map_eq_some_iff.1 ht
  obtain ⟨rfl, rfl⟩ := Prod.mk.inj hr
  subst hft
  obtain ⟨hfl, hobj, -, -⟩ := foldlM_finaliseObject _ ht'
  obtain ⟨u, hu, hc⟩ := Option.map_eq_some_iff.1 hc
  obtain ⟨-, rfl⟩ := Prod.mk.inj hc
  -- the dirty marks of the finalised state are the ones `Finalise` visited
  have hdirty : ∀ a ∈ (({ t'.commitSets with objects := { t'.objects with refund := 0 } } :
      StateTrie α κ ι)).objects.stateObjectsDirty, t'.Flushed d a := by
    intro a ha
    rw [hobj] at ha
    exact hfl a ha
  obtain ⟨htrie, hobj'⟩ := foldlM_commitObject _ hdirty hu
  simp only [commitSets] at htrie hobj' ⊢
  rw [htrie, hobj']
  simp only
  split_ifs <;> rfl

end StateTrie

/-! ### A negative entry -/

/-- The empty account trie, under which a chain starts. -/
def emptyTrie : AccountTrie Nat Nat Nat := ⟨KeyMap.empty, [], []⟩

/-- User `1` delegates `5` to account `0`, then user `2`, who has no entry there, takes `3`
back: the entry of `2` is `-3`, and the account's total `2`. -/
def negativeEntry : List (Op Nat Nat Nat) :=
  [.addByUser .proxied 0 1 5, .subByUser .proxied 0 2 3]

theorem commit_root_eq_negativeEntry :
    ∃ s s' r s'' root, emptyTrie.open.run negativeEntry = some s ∧
      s.intermediateRoot true = some (s', r) ∧ s'.commit true = some (s'', root) ∧ root = r := by
  obtain ⟨q, hq⟩ : ∃ q, ((emptyTrie.open.run negativeEntry).bind fun s =>
      (s.intermediateRoot true).bind fun p => (p.1.commit true).map fun q => (s, p, q)) = some q :=
    ⟨_, rfl⟩
  obtain ⟨s, hs, h⟩ := Option.bind_eq_some_iff.1 hq
  obtain ⟨⟨s', r⟩, hr, h⟩ := Option.bind_eq_some_iff.1 h
  obtain ⟨⟨s'', root⟩, hc, -⟩ := Option.map_eq_some_iff.1 h
  exact ⟨s, s', r, s'', root, hs, hr, hc, StateTrie.commit_root_eq hr hc⟩

/-- `IntermediateRoot` and `Commit` go through with either value of `deleteEmptyObjects` and
agree on the root, but the entry of `-3` is not in it: `rlp.EncodeToBytes` fails on it and
`TryUpdate` with the nil bytes deletes the key. The live state reads `-3` from its origin
cache, a state opened at the root reads `0`. -/
theorem commit_drops_negative_entry (d : Bool) :
    ∃ s s' r s'' root, emptyTrie.open.run negativeEntry = some s ∧
      s.intermediateRoot d = some (s', r) ∧ s'.commit d = some (s'', root) ∧ root = r ∧
      s'.objects.reads.getters.byUser 0 2 .proxied = -3 ∧
      root.new.reads.getters.byUser 0 2 .proxied = 0 := by
  cases d
  all_goals exact ⟨_, _, _, _, _, rfl, rfl, rfl, rfl, by decide, by decide⟩

/-! ### `ForEachProxied` -/

section ForEachProxied

variable [DecidableEq α]

/-- `ForEachProxied` on the live objects: the arguments of the calls of `cb`, in the order in
which the iterator walks the proxied trie. A key of the trie comes back through `GetKey` of the
account trie, which finds its preimage only where `known` says so (its own secure-key cache, or
the preimages that a commit wrote) and gives the zero address `zero` otherwise. The value is the
dirty one of that key where there is one, and the trie's otherwise; a dirty nil value is
dereferenced. -/
def ObjectDB.forEachProxied (s : ObjectDB α κ ι) (known : α → Bool) (zero addr : α) :
    Option (List (α × AccountProxiedBalance)) :=
  match s.stateObjects.find? addr with
  | none => some []
  | some o =>
    if o.deleted then some []
    else o.proxied.trie.entries.mapM fun e =>
      let key := if known e.1 then e.1 else zero
      match o.proxied.dirty.find? key with
      | some (some value) => some (key, value)
      | some none => none
      | none => some (key, e.2)

/-- `ForEachProxied` walks the proxied trie and nothing else: every key it passes is read back
from a key of the trie. -/
theorem forEachProxied_key_mem {s : ObjectDB α κ ι} {known : α → Bool} {zero addr : α}
    {calls : List (α × AccountProxiedBalance)} (h : s.forEachProxied known zero addr = some calls) :
    ∀ p ∈ calls, ∃ k ∈ (s.object addr).proxied.trie.keys, p.1 = if known k then k else zero := by
  intro p hp
  cases ho : s.stateObjects.find? addr with
  | none =>
    simp only [ObjectDB.forEachProxied, ho] at h
    cases Option.some.inj h
    cases hp
  | some o =>
    simp only [ObjectDB.forEachProxied, ho] at h
    have hobj : s.object addr = o := by simp [ObjectDB.object, KeyMap.findD, ho]
    rw [hobj]
    split_ifs at h with hdel
    · cases Option.some.inj h
      cases hp
    -- the calls are the images of the entries, one each
    obtain ⟨e, he, hep⟩ := Run.exists_of_mapM_eq_some h hp
    refine ⟨e.1, List.mem_map_of_mem he, ?_⟩
    split at hep <;> cases hep <;> rfl

/-- With no dirty entry, as after `Finalise`, `ForEachProxied` passes the entries of the trie,
each under the key that `GetKey` reads back. -/
theorem forEachProxied_of_clean {s : ObjectDB α κ ι} {known : α → Bool} {zero addr : α}
    {o : StateObject α κ ι} (ho : s.stateObjects.find? addr = some o) (hlive : o.deleted = false)
    (hclean : o.proxied.dirty = KeyMap.empty) :
    s.forEachProxied known zero addr =
      some (o.proxied.trie.entries.map fun e => (if known e.1 then e.1 else zero, e.2)) := by
  simp only [ObjectDB.forEachProxied, ho, hlive, hclean, KeyMap.find?_empty, Bool.false_eq_true,
    if_false]
  apply Run.mapM_eq_some_iff.2
  apply List.forall₂_map_right_iff.2
  apply List.forall₂_same.2
  intro e _
  rfl

end ForEachProxied

/-- User `2` delegates `5` to account `1` in a transaction that is not yet finalised. The getter
reads the entry from the dirty cache, but `ForEachProxied` walks the trie, still empty, and calls
nothing. After `Finalise` the entry is in the trie, and its key comes back as the user only if
the account trie knows the preimage. -/
theorem forEachProxied_skips_dirty_entry (known : Nat → Bool) :
    ∃ s s', emptyTrie.open.run [.addByUser .proxied 1 2 5] = some s ∧
      s.objects.reads.getters.byUser 1 2 .proxied = 5 ∧
      s.objects.forEachProxied known 0 1 = some [] ∧
      s.finalise true = some s' ∧
      s'.objects.forEachProxied known 0 1 = some [(if known 2 then 2 else 0, ⟨5, 0, 0⟩)] := by
  refine ⟨_, _, rfl, by decide, rfl, rfl, ?_⟩
  rw [forEachProxied_of_clean rfl rfl rfl]
  rfl

end IntChain
