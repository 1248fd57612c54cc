import IntChain.Trie.Delete
import IntChain.Lib.Run

/-!
# Runs of writes on the in-memory trie

The trie refines a map from keys to values. `TryUpdate` writes a value at the hex form of the
key, or removes the key when the value is empty, and `TryDelete` removes it; from the empty
trie, every run of them succeeds, keeps the trie canonical, and leaves a trie whose `TryGet`
reads the map the run wrote. Since a canonical trie is fixed by its map, the trie a run leaves,
and so its root hash, depends on that map alone and not on the order of the writes or on the
keys written and removed on the way.
-/

namespace IntChain.Trie

open PathMap Node

set_option linter.dupNamespace false

/-- A trie as `trie.go` keeps it: empty, or canonical. -/
def Trie.Valid (t : Trie) : Prop := t.root = .nil ∨ Canon t.root

/-- What a write does to the map. -/
def TrieOp.write (m : List UInt8 → Option (List UInt8)) :
    TrieOp → List UInt8 → Option (List UInt8)
  | .update key val => Function.update m (keybytesToHex key) (if val = [] then none else some val)
  | .delete key => Function.update m (keybytesToHex key) none

/-- The map a run of writes leaves, from the empty map. -/
def writesMap (ops : List TrieOp) : List UInt8 → Option (List UInt8) :=
  ops.foldl TrieOp.write empty

/-! ### Reads -/

theorem tryGet_short (k key : List UInt8) (c : Node) :
    tryGet (.short k c) key = if k <+: key then tryGet c (key.drop k.length) else some none := by
  rw [tryGet]
  by_cases hp : k <+: key
  · have hk : k = key.take k.length := (List.prefix_iff_eq_take.1 hp)
    have hl : ¬ key.length < k.length := not_lt.2 hp.length_le
    simp [hp, hl, ← hk]
  · have hk : k ≠ key.take k.length := fun h => hp (List.prefix_iff_eq_take.2 h)
    simp [hp, hk]

theorem tryGet_full_cons {cs : Fin 17 → Node} {b : UInt8} {i : Fin 17} (r : List UInt8)
    (hi : childIndex b = some i) : tryGet (.full cs) (b :: r) = tryGet (cs i) r := by
  simp [tryGet, hi]

/-- On a canonical trie, `tryGet` of a terminated key reads the map. -/
theorem tryGet_canon {n : Node} (h : Canon n) {key : List UInt8} (hk : TermKey key) :
    tryGet n key = some (n.lookup key) := by
  induction h generalizing key with
  | @leaf k w hk' hw =>
    rw [tryGet_short, lookup_leaf]
    by_cases hp : k <+: key
    · obtain rfl := hk'.eq_of_prefix hk hp
      simp [tryGet]
    · have hne : key ≠ k := fun h => hp (h ▸ List.prefix_refl _)
      simp [hp, Function.update_of_ne hne, empty]
  | @ext ns cs hne hns hc ih =>
    rw [tryGet_short, lookup_short]
    by_cases hp : ns <+: key
    · obtain ⟨t, rfl⟩ := hp
      simpa using ih (hk.of_append hns)
    · simp [hp, under_eq_none_of_not_prefix _ hp]
  | @branch cs hcs hv16 htwo ih =>
    obtain ⟨b, r, rfl⟩ := List.exists_cons_of_ne_nil hk.ne_nil
    obtain ⟨i, hi⟩ := childIndex_isSome hk.head_lt
    have hb : b = UInt8.ofNat i.val := childIndex_eq_some_iff.1 hi
    rw [tryGet_full_cons r hi, lookup_full, dispatch_cons, hi, Option.bind_some]
    by_cases h16 : i.val < 16
    · cases hn : (cs i).isNil
      · exact ih i h16 hn (hk.tail (hb ▸ (ofNat_lt_sixteen_iff i).2 h16))
      · rw [Canon.eq_nil_of_isNil hn]
        rfl
    · -- the terminator reads the value slot, and ends the key
      obtain rfl : i = 16 := Fin.ext (by omega)
      obtain rfl : b = 16 := hb
      obtain rfl : r = [] := hk.eq_nil_of_terminator
      rcases hv16 with h0 | ⟨w, -, h0⟩ <;> rw [h0]
      · rfl
      · simp [tryGet, lookup_value]

theorem Trie.Valid.tryGet {t : Trie} (hv : t.Valid) (key : List UInt8) :
    t.tryGet key = some (t.root.lookup (keybytesToHex key)) := by
  rcases hv with h | h
  · rw [Trie.tryGet, h]
    rfl
  · exact tryGet_canon h (termKey_keybytesToHex key)

/-! ### Writes -/

theorem Trie.Valid.insert {t : Trie} (hv : t.Valid) {key v : List UInt8} (hk : TermKey key)
    (hval : v ≠ []) : ∃ d n', insert t.root key (.value v) = some (d, n') ∧ Canon n' ∧
      n'.lookup = Function.update t.root.lookup key (some v) := by
  rcases hv with h | h
  · rw [h, insert_nil]
    refine ⟨true, _, rfl, ?_, by rw [lookup_prefixed_value, lookup_nil]⟩
    rw [prefixed, if_neg hk.ne_nil]
    exact .leaf hk hval
  · obtain ⟨d, n', h1, h2, h3, -⟩ := insert_canon h hk hval
    exact ⟨d, n', h1, h2, h3⟩

theorem Trie.Valid.delete {t : Trie} (hv : t.Valid) {key : List UInt8} (hk : TermKey key) :
    ∃ d n', delete t.root key = some (d, n') ∧ (n' = .nil ∨ Canon n') ∧
      n'.lookup = Function.update t.root.lookup key none := by
  rcases hv with h | h
  · rw [h, delete_nil]
    exact ⟨false, _, rfl, .inl rfl, (Function.update_eq_self key empty).symm⟩
  · obtain ⟨d, n', h1, h2, h3, -⟩ := delete_canon h hk
    exact ⟨d, n', h1, h2, h3⟩

/-- One write on a trie as `trie.go` keeps it: it succeeds, the trie stays so, and its map
takes the write. -/
theorem TrieOp.run_valid {t : Trie} (hv : t.Valid) (op : TrieOp) :
    ∃ t', op.run t = some t' ∧ t'.Valid ∧ t'.root.lookup = op.write t.root.lookup := by
  have hdel : ∀ key, ∃ t', t.tryDelete key = some t' ∧ t'.Valid ∧
      t'.root.lookup = Function.update t.root.lookup (keybytesToHex key) none := by
    intro key
    obtain ⟨d, n', h1, h2, h3⟩ := hv.delete (termKey_keybytesToHex key)
    exact ⟨⟨n'⟩, by rw [Trie.tryDelete, h1]; rfl, h2, h3⟩
  cases op with
  | update key val =>
    by_cases hval : val = []
    · subst hval
      obtain ⟨t', h1, h2, h3⟩ := hdel key
      refine ⟨t', ?_, h2, by simpa [TrieOp.write] using h3⟩
      rw [← h1]
      simp [TrieOp.run, Trie.tryUpdate, Trie.tryDelete]
    · obtain ⟨d, n', h1, h2, h3⟩ := hv.insert (termKey_keybytesToHex key) hval
      have hlen : val.length ≠ 0 := by simpa using hval
      refine ⟨⟨n'⟩, ?_, .inr h2, by simpa [TrieOp.write, hval] using h3⟩
      simp [TrieOp.run, Trie.tryUpdate, hlen, h1]
  | delete key => exact hdel key

/-! ### Runs -/

/-- A trie as `trie.go` keeps it is fixed by its map. -/
theorem Trie.Valid.eq_of_lookup_eq {t₁ t₂ : Trie} (h₁ : t₁.Valid) (h₂ : t₂.Valid)
    (he : t₁.root.lookup = t₂.root.lookup) : t₁ = t₂ := by
  obtain ⟨n₁⟩ := t₁
  obtain ⟨n₂⟩ := t₂
  congr
  rcases h₁ with rfl | h₁ <;> rcases h₂ with rfl | h₂
  · rfl
  · exact absurd he.symm (Canon.lookup_ne_empty h₂)
  · exact absurd he (Canon.lookup_ne_empty h₁)
  · exact Canon.eq_of_lookup_eq h₁ h₂ he

/-- The map of a run has nothing off the hex keys. -/
theorem writesMap_eq_none {p : List UInt8} (hp : ∀ key, p ≠ keybytesToHex key)
    (ops : List TrieOp) : writesMap ops p = none := by
  refine Run.foldl_induction TrieOp.write (fun m => m p = none) rfl fun op _ m hm => ?_
  cases op with
  | update key val => rw [TrieOp.write, Function.update_of_ne (hp key)]; exact hm
  | delete key => rw [TrieOp.write, Function.update_of_ne (hp key)]; exact hm

/-- Every run from a trie as `trie.go` keeps it succeeds, keeps the trie so, and leaves the map
of the trie updated by the writes in order. -/
theorem runTrieOps_valid {t : Trie} (hv : t.Valid) (ops : List TrieOp) :
    ∃ t', runTrieOps t ops = some t' ∧ t'.Valid ∧
      t'.root.lookup = ops.foldl TrieOp.write t.root.lookup :=
  Run.foldlM_simulation TrieOp.run TrieOp.write (fun t m => t.Valid ∧ t.root.lookup = m)
    (fun t m op ⟨hv, hl⟩ => by
      obtain ⟨t', h1, h2, h3⟩ := TrieOp.run_valid hv op
      exact ⟨t', h1, h2, by rw [h3, hl]⟩)
    ops ⟨hv, rfl⟩

/-- From the empty trie, every run of `TryUpdate` and `TryDelete` succeeds and leaves a
canonical trie whose `TryGet` reads, at every key, the value the run's writes leave there. -/
theorem runTrieOps_tryGet (ops : List TrieOp) :
    ∃ t, runTrieOps ⟨.nil⟩ ops = some t ∧ t.Valid ∧
      ∀ key, t.tryGet key = some (writesMap ops (keybytesToHex key)) := by
  obtain ⟨t, hrun, hv, hl⟩ := runTrieOps_valid (t := ⟨.nil⟩) (.inl rfl) ops
  exact ⟨t, hrun, hv, fun key => by rw [hv.tryGet, hl]; rfl⟩

/-- Two runs from the empty trie that leave the same value at every key leave the same trie:
its nodes, and so its hash, do not depend on the order of the writes or on the keys written and
removed on the way. -/
theorem runTrieOps_eq_of_writesMap (ops₁ ops₂ : List TrieOp)
    (h : ∀ key, writesMap ops₁ (keybytesToHex key) = writesMap ops₂ (keybytesToHex key)) :
    runTrieOps ⟨.nil⟩ ops₁ = runTrieOps ⟨.nil⟩ ops₂ := by
  obtain ⟨t₁, hrun₁, hv₁, hl₁⟩ := runTrieOps_valid (t := ⟨.nil⟩) (.inl rfl) ops₁
  obtain ⟨t₂, hrun₂, hv₂, hl₂⟩ := runTrieOps_valid (t := ⟨.nil⟩) (.inl rfl) ops₂
  rw [hrun₁, hrun₂, hv₁.eq_of_lookup_eq hv₂ ?_]
  rw [hl₁, hl₂]
  funext p
  by_cases hp : ∃ key, p = keybytesToHex key
  · obtain ⟨key, rfl⟩ := hp
    exact h key
  · have hp' : ∀ key, p ≠ keybytesToHex key := fun key hk => hp ⟨key, hk⟩
    exact (writesMap_eq_none hp' ops₁).trans (writesMap_eq_none hp' ops₂).symm

theorem runTrieOps_eq_of_writesMap_swap :
    (∀ key, writesMap [.update [1] [5], .update [2] [6]] (keybytesToHex key) =
      writesMap [.update [2] [6], .update [1] [5]] (keybytesToHex key)) ∧
    runTrieOps ⟨.nil⟩ [.update [1] [5], .update [2] [6]] =
      runTrieOps ⟨.nil⟩ [.update [2] [6], .update [1] [5]] := by
  have h : ∀ key, writesMap [.update [1] [5], .update [2] [6]] (keybytesToHex key) =
      writesMap [.update [2] [6], .update [1] [5]] (keybytesToHex key) := by
    intro key
    simp only [writesMap, List.foldl, TrieOp.write]
    rw [Function.update_comm (by decide)]
  exact ⟨h, runTrieOps_eq_of_writesMap _ _ h⟩

/-- The leaf trie of one key, for the examples below. -/
def leafTrie (key val : List UInt8) : Trie := ⟨.short (keybytesToHex key) (.value val)⟩

theorem leafTrie_valid (key : List UInt8) {val : List UInt8} (hval : val ≠ []) :
    (leafTrie key val).Valid :=
  .inr (.leaf (termKey_keybytesToHex key) hval)

/-- A write that leaves the map as it is gives back the trie it was given: `TryUpdate` of the
value a key already holds, and `TryDelete` of a key the trie lacks. -/
theorem tryUpdate_tryDelete_eq_self {t : Trie} (hv : t.Valid) (key val : List UInt8) :
    (val ≠ [] → t.tryGet key = some (some val) → t.tryUpdate key val = some t) ∧
    (t.tryGet key = some none → t.tryDelete key = some t) := by
  have hk := hv.tryGet key
  constructor
  · intro hval hget
    obtain ⟨t', h1, h2, h3⟩ := TrieOp.run_valid hv (.update key val)
    refine h1.trans (congrArg some (h2.eq_of_lookup_eq hv ?_))
    rw [h3, TrieOp.write, if_neg hval, Option.some.inj (hget.symm.trans hk),
      Function.update_eq_self]
  · intro hget
    obtain ⟨t', h1, h2, h3⟩ := TrieOp.run_valid hv (.delete key)
    refine h1.trans (congrArg some (h2.eq_of_lookup_eq hv ?_))
    rw [h3, TrieOp.write, Option.some.inj (hget.symm.trans hk), Function.update_eq_self]

theorem tryUpdate_tryDelete_eq_self_leaf :
    (leafTrie [1] [5]).tryUpdate [1] [5] = some (leafTrie [1] [5]) ∧
    (leafTrie [1] [5]).tryDelete [2] = some (leafTrie [1] [5]) :=
  ⟨(tryUpdate_tryDelete_eq_self (leafTrie_valid [1] (by decide)) [1] [5]).1 (by decide)
      (by decide),
    (tryUpdate_tryDelete_eq_self (leafTrie_valid [1] (by decide)) [2] [5]).2 (by decide)⟩

/-- `TryDelete` undoes `TryUpdate` of a key the trie lacks: the trie comes back node for node. -/
theorem tryDelete_tryUpdate_of_absent {t : Trie} (hv : t.Valid) {key : List UInt8}
    (habs : t.tryGet key = some none) (val : List UInt8) :
    (t.tryUpdate key val).bind (fun t' => t'.tryDelete key) = some t := by
  obtain ⟨t', h1, h2, h3⟩ := TrieOp.run_valid hv (.update key val)
  obtain ⟨t'', h1', h2', h3'⟩ := TrieOp.run_valid h2 (.delete key)
  have hnone : t.root.lookup (keybytesToHex key) = none :=
    Option.some.inj ((hv.tryGet key).symm.trans habs)
  change t.tryUpdate key val = some t' at h1
  change t'.tryDelete key = some t'' at h1'
  rw [h1, Option.bind_some, h1', h2'.eq_of_lookup_eq hv]
  rw [h3', h3, TrieOp.write, TrieOp.write, Function.update_idem, ← hnone, Function.update_eq_self]

theorem tryDelete_tryUpdate_of_absent_leaf :
    ((leafTrie [1] [5]).tryUpdate [2] [6]).bind (fun t' => t'.tryDelete [2]) =
      some (leafTrie [1] [5]) :=
  tryDelete_tryUpdate_of_absent (leafTrie_valid [1] (by decide)) (by decide) [6]

end IntChain.Trie
