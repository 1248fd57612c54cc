import IntChain.Trie.Node
import IntChain.Lib.PathMap

/-!
# What a trie stands for, and its canonical form

A node stands for a map from hex keys to values, `Node.lookup`: a short node puts its child's
map under its key, a full node sends the first nibble to a child, and a value node answers the
empty rest of a key. `Canon` is the form `trie.go` keeps a trie in: a leaf is a short node of a
terminated key over a value that is not empty, an extension a short node of nibbles over a
branch, and a branch a full node with at least two children, its first sixteen canonical and its
last a value. The main result, `Canon.eq_of_lookup_eq`: two canonical nodes of one map are the
same node.
-/

namespace IntChain.Trie

open PathMap

/-! ### Keys -/

/-- Nibbles, each below 16. -/
def NibKey (ns : List UInt8) : Prop := ∀ x ∈ ns, x < 16

/-- A key as `keybytesToHex` writes it: nibbles, then the terminator. -/
def TermKey (key : List UInt8) : Prop := ∃ ns, NibKey ns ∧ key = ns ++ [16]

theorem NibKey.append {a b : List UInt8} (ha : NibKey a) (hb : NibKey b) : NibKey (a ++ b) := by
  intro x hx
  rcases List.mem_append.1 hx with hx | hx
  · exact ha x hx
  · exact hb x hx

theorem NibKey.of_prefix {a b : List UInt8} (hb : NibKey b) (h : a <+: b) : NibKey a :=
  fun x hx => hb x (h.subset hx)

theorem nibKey_nibblesOf (bs : List UInt8) : NibKey (nibblesOf bs) := by
  intro x hx
  obtain ⟨b, -, hx⟩ := List.mem_flatMap.1 hx
  simp only [List.mem_cons, List.not_mem_nil, or_false] at hx
  rcases hx with rfl | rfl
  · exact div_lt_sixteen b
  · exact mod_lt_sixteen b

theorem termKey_keybytesToHex (bs : List UInt8) : TermKey (keybytesToHex bs) :=
  ⟨nibblesOf bs, nibKey_nibblesOf bs, keybytesToHex_eq bs⟩

theorem TermKey.ne_nil {key : List UInt8} (h : TermKey key) : key ≠ [] := by
  obtain ⟨ns, -, rfl⟩ := h
  simp

theorem TermKey.terminator_mem {key : List UInt8} (h : TermKey key) : (16 : UInt8) ∈ key := by
  obtain ⟨ns, -, rfl⟩ := h
  simp

theorem TermKey.append {a b : List UInt8} (ha : NibKey a) (hb : TermKey b) : TermKey (a ++ b) := by
  obtain ⟨ns, hns, rfl⟩ := hb
  exact ⟨a ++ ns, ha.append hns, by simp⟩

/-- A terminated key is a prefix of no other terminated key: the terminator comes last. -/
theorem TermKey.eq_of_prefix {a b : List UInt8} (ha : TermKey a) (hb : TermKey b) (h : a <+: b) :
    a = b := by
  obtain ⟨na, -, rfl⟩ := ha
  obtain ⟨nb, hnb, rfl⟩ := hb
  obtain ⟨t, ht⟩ := h
  rcases List.eq_nil_or_concat t with rfl | ⟨t', x, rfl⟩
  · simpa using ht
  · have ht' : na ++ [16] ++ t' ++ [x] = nb ++ [16] := by simpa using ht
    have hnb' : nb = na ++ [16] ++ t' := (List.append_inj' ht' rfl).1.symm
    have h16 : (16 : UInt8) ∈ nb := by simp [hnb']
    exact absurd (hnb 16 h16) (by decide)

theorem TermKey.not_prefix_of_nibKey {a b : List UInt8} (ha : TermKey a) (hb : NibKey b) :
    ¬ a <+: b := fun h => absurd (hb 16 (h.subset ha.terminator_mem)) (by decide)

theorem TermKey.tail {x : UInt8} {r : List UInt8} (h : TermKey (x :: r)) (hx : x < 16) :
    TermKey r := by
  obtain ⟨ns, hns, he⟩ := h
  cases ns with
  | nil =>
    obtain ⟨rfl, -⟩ := List.cons_eq_cons.1 he
    exact absurd hx (by decide)
  | cons y ns =>
    obtain ⟨-, rfl⟩ := List.cons_eq_cons.1 he
    exact ⟨ns, fun z hz => hns z (List.mem_cons_of_mem y hz), rfl⟩

/-- The rest of a terminated key past some nibbles is terminated. -/
theorem TermKey.of_append {a b : List UInt8} (h : TermKey (a ++ b)) (ha : NibKey a) :
    TermKey b := by
  induction a with
  | nil => exact h
  | cons x a ih =>
    exact ih (h.tail (ha x List.mem_cons_self)) fun z hz => ha z (List.mem_cons_of_mem x hz)

/-- The terminator ends a key. -/
theorem TermKey.eq_nil_of_terminator {r : List UInt8} (h : TermKey (16 :: r)) : r = [] := by
  obtain ⟨ns, hns, he⟩ := h
  cases ns with
  | nil => exact (List.cons_eq_cons.1 he).2
  | cons y ns =>
    obtain ⟨rfl, -⟩ := List.cons_eq_cons.1 he
    exact absurd (hns 16 List.mem_cons_self) (by decide)

theorem TermKey.head_lt {x : UInt8} {r : List UInt8} (h : TermKey (x :: r)) : x < 17 := by
  obtain ⟨ns, hns, he⟩ := h
  cases ns with
  | nil =>
    obtain ⟨rfl, -⟩ := List.cons_eq_cons.1 he
    decide
  | cons y ns =>
    obtain ⟨rfl, -⟩ := List.cons_eq_cons.1 he
    have := hns x List.mem_cons_self
    exact UInt8.lt_of_lt_of_le this (by decide)

theorem TermKey.nibKey_take {k : List UInt8} {m : Nat} (h : TermKey k) (hm : m < k.length) :
    NibKey (k.take m) := by
  obtain ⟨ns, hns, rfl⟩ := h
  have hle : m ≤ ns.length := by simp at hm; omega
  rw [List.take_append_of_le_length hle]
  exact hns.of_prefix (List.take_prefix m ns)

theorem TermKey.drop {k : List UInt8} {m : Nat} (h : TermKey k) (hm : m < k.length) :
    TermKey (k.drop m) :=
  (List.take_append_drop m k ▸ h).of_append (h.nibKey_take hm)

theorem TermKey.getElem_lt {k : List UInt8} {m : Nat} (h : TermKey k) (hm : m < k.length) :
    k[m] < 17 :=
  (List.drop_eq_getElem_cons hm ▸ h.drop hm).head_lt

theorem NibKey.getElem_lt {k : List UInt8} {m : Nat} (h : NibKey k) (hm : m < k.length) :
    k[m] < 16 :=
  h _ (List.getElem_mem hm)

/-! ### Slots -/

theorem toNat_ofNat_slot (i : Fin 17) : (UInt8.ofNat i.val).toNat = i.val :=
  UInt8.toNat_ofNat_of_lt (Nat.lt_of_lt_of_le i.isLt (by decide))

theorem childIndex_eq_some_iff {b : UInt8} {i : Fin 17} :
    childIndex b = some i ↔ b = UInt8.ofNat i.val := by
  unfold childIndex
  constructor
  · intro h
    split at h
    · cases h
      exact (UInt8.ofNat_toNat).symm
    · cases h
  · rintro rfl
    have hb := toNat_ofNat_slot i
    simp [hb]

theorem childIndex_ofNat (i : Fin 17) : childIndex (UInt8.ofNat i.val) = some i :=
  childIndex_eq_some_iff.2 rfl

theorem ofNat_injective {i j : Fin 17} (h : UInt8.ofNat i.val = UInt8.ofNat j.val) : i = j := by
  have := childIndex_ofNat i
  rw [h, childIndex_ofNat] at this
  exact (Option.some.inj this).symm

theorem childIndex_isSome {b : UInt8} (hb : b < 17) : ∃ i, childIndex b = some i :=
  ⟨⟨b.toNat, hb⟩, by simp [childIndex, show b.toNat < 17 from hb]⟩

/-! ### The map of a node -/

/-- The map a node stands for; a hash node, unresolved, stands for nothing. -/
def Node.lookup : Node → List UInt8 → Option (List UInt8)
  | .nil => empty
  | .value v => Function.update empty [] (some v)
  | .short k c => under k c.lookup
  | .full cs => dispatch childIndex fun i => (cs i).lookup
  | .hash _ => empty

namespace Node

@[simp] theorem lookup_nil : Node.nil.lookup = empty := rfl

@[simp] theorem lookup_short (k : List UInt8) (c : Node) : (short k c).lookup = under k c.lookup :=
  rfl

@[simp] theorem lookup_full (cs : Fin 17 → Node) :
    (full cs).lookup = dispatch childIndex fun i => (cs i).lookup := rfl

theorem lookup_value (v : List UInt8) : (value v).lookup = Function.update empty [] (some v) := rfl

theorem lookup_leaf (k v : List UInt8) :
    (short k (value v)).lookup = Function.update empty k (some v) := by
  rw [lookup_short, lookup_value, under_update, under_empty, List.append_nil]

theorem lookup_full_cons (cs : Fin 17 → Node) (i : Fin 17) (r : List UInt8) :
    (full cs).lookup (UInt8.ofNat i.val :: r) = (cs i).lookup r := by
  simp [dispatch_cons, childIndex_ofNat]

/-- The key a short node puts in front of its child's; none for the others. -/
def stem : Node → List UInt8
  | short k _ => k
  | _ => []

theorem stem_prefix_of_lookup {n : Node} {p v : List UInt8} (h : n.lookup p = some v) :
    n.stem <+: p := by
  cases n with
  | short k c =>
    obtain ⟨q, rfl, -⟩ := exists_of_under_eq_some h
    exact List.prefix_append k q
  | _ => exact List.nil_prefix

end Node

/-! ### The canonical form -/

/-- The form `insert` and `delete` keep a trie in. -/
inductive Canon : Node → Prop
  | leaf {k v : List UInt8} (hk : TermKey k) (hv : v ≠ []) : Canon (.short k (.value v))
  | ext {ns : List UInt8} {cs : Fin 17 → Node} (hne : ns ≠ []) (hns : NibKey ns)
      (hc : Canon (.full cs)) : Canon (.short ns (.full cs))
  | branch {cs : Fin 17 → Node}
      (hcs : ∀ i : Fin 17, i.val < 16 → (cs i).isNil = false → Canon (cs i))
      (hv : cs 16 = .nil ∨ ∃ v, v ≠ [] ∧ cs 16 = .value v)
      (htwo : ∃ i j, i ≠ j ∧ (cs i).isNil = false ∧ (cs j).isNil = false) : Canon (.full cs)

namespace Canon

open Node

theorem isNil_eq_false {n : Node} (h : Canon n) : n.isNil = false := by
  cases h <;> rfl

/-- The children of a branch that are not nil hold keys: a canonical child, or the value. -/
theorem slot_key {cs : Fin 17 → Node}
    (hcs : ∀ i : Fin 17, i.val < 16 → (cs i).isNil = false → ∃ p v, (cs i).lookup p = some v)
    (hv : cs 16 = .nil ∨ ∃ v, v ≠ [] ∧ cs 16 = .value v) {i : Fin 17}
    (hi : (cs i).isNil = false) : ∃ p v, (cs i).lookup p = some v := by
  by_cases h16 : i.val < 16
  · exact hcs i h16 hi
  · have hi16 : i = 16 := Fin.ext (by omega)
    subst hi16
    rcases hv with h | ⟨v, -, h⟩
    · simp [h, isNil] at hi
    · exact ⟨[], v, by simp [h, lookup_value]⟩

/-- A canonical node holds a key. -/
theorem exists_key {n : Node} (h : Canon n) : ∃ p v, n.lookup p = some v := by
  induction h with
  | @leaf k v _ _ => exact ⟨k, v, by rw [lookup_leaf]; simp⟩
  | @ext ns cs _ _ _ ih =>
    obtain ⟨p, v, hp⟩ := ih
    exact ⟨ns ++ p, v, by simpa using hp⟩
  | @branch cs _ hv htwo ih =>
    obtain ⟨i, -, -, hi, -⟩ := htwo
    obtain ⟨p, v, hp⟩ := slot_key ih hv hi
    exact ⟨UInt8.ofNat i.val :: p, v, by rw [lookup_full_cons, hp]⟩

/-- A branch holds two keys that part at their first nibble. -/
theorem branch_split {cs : Fin 17 → Node} (h : Canon (.full cs)) :
    ∃ p q vp vq, (full cs).lookup p = some vp ∧ (full cs).lookup q = some vq ∧
      p.head? ≠ q.head? := by
  cases h with
  | branch hcs hv htwo =>
    obtain ⟨i, j, hij, hi, hj⟩ := htwo
    have hkeys : ∀ i : Fin 17, i.val < 16 → (cs i).isNil = false →
        ∃ p v, (cs i).lookup p = some v := fun i hi hn => exists_key (hcs i hi hn)
    obtain ⟨p, vp, hp⟩ := slot_key hkeys hv hi
    obtain ⟨q, vq, hq⟩ := slot_key hkeys hv hj
    refine ⟨_ :: p, _ :: q, vp, vq, by rw [lookup_full_cons, hp], by rw [lookup_full_cons, hq], ?_⟩
    simpa using fun h => hij (ofNat_injective h)

/-- A canonical node is a leaf, or holds two keys that part right after its stem. -/
theorem leaf_or_split {n : Node} (h : Canon n) :
    (∃ v, n = .short n.stem (.value v)) ∨ ∃ p q vp vq, n.lookup p = some vp ∧
      n.lookup q = some vq ∧ (p.drop n.stem.length).head? ≠ (q.drop n.stem.length).head? := by
  cases h with
  | leaf hk hv => exact .inl ⟨_, rfl⟩
  | @ext ns cs hne hns hc =>
    obtain ⟨p, q, vp, vq, hp, hq, hpq⟩ := branch_split hc
    refine .inr ⟨ns ++ p, ns ++ q, vp, vq, by simpa using hp, by simpa using hq, ?_⟩
    simpa [stem] using hpq
  | branch hcs hv htwo =>
    obtain ⟨p, q, vp, vq, hp, hq, hpq⟩ := branch_split (.branch hcs hv htwo)
    exact .inr ⟨p, q, vp, vq, hp, hq, by simpa [stem] using hpq⟩

/-- A canonical node whose map has one key is the leaf of that key. -/
theorem eq_leaf_of_lookup_eq {n : Node} {k v : List UInt8} (h : Canon n)
    (he : n.lookup = Function.update empty k (some v)) : n = .short k (.value v) := by
  have hone : ∀ {p w}, n.lookup p = some w → p = k := by
    intro p w hp
    rw [he] at hp
    by_contra hpk
    simp [Function.update_of_ne hpk, empty] at hp
  rcases leaf_or_split h with ⟨w, hw⟩ | ⟨p, q, vp, vq, hp, hq, hpq⟩
  · rw [hw, lookup_leaf] at he
    have hk : n.stem = k := by
      by_contra hne
      have := congrFun he n.stem
      simp [Function.update_of_ne hne, empty] at this
    have hv : w = v := by simpa [hk] using congrFun he k
    rw [hw, hk, hv]
  · exact absurd (by rw [hone hp, hone hq]) hpq

/-- Two canonical nodes of one map have one stem. -/
theorem stem_eq {n₁ n₂ : Node} (h₁ : Canon n₁) (h₂ : Canon n₂) (he : n₁.lookup = n₂.lookup) :
    n₁.stem = n₂.stem := by
  -- a stem is a prefix of every key; one that is strictly shorter than the other's would have
  -- two keys parting right after it, where the longer stem fixes the next nibble
  have shorter : ∀ {m₁ m₂ : Node}, Canon m₁ → Canon m₂ → m₁.lookup = m₂.lookup →
      m₁.stem <+: m₂.stem → m₁.stem.length < m₂.stem.length → False := by
    intro m₁ m₂ hm₁ hm₂ hme hpre hlt
    rcases leaf_or_split hm₁ with ⟨w, hw⟩ | ⟨p, q, vp, vq, hp, hq, hpq⟩
    · have hkey : m₂.lookup m₁.stem = some w := by
        rw [← hme, hw, lookup_leaf]
        simp [stem]
      obtain ⟨hk, -⟩ := hpre
      have := (stem_prefix_of_lookup hkey).length_le
      omega
    · have hp₂ := stem_prefix_of_lookup (hme ▸ hp)
      have hq₂ := stem_prefix_of_lookup (hme ▸ hq)
      have hnext : ∀ {r}, m₂.stem <+: r → (r.drop m₁.stem.length).head? =
          (m₂.stem.drop m₁.stem.length).head? := by
        rintro r ⟨t, rfl⟩
        rw [List.drop_append_of_le_length hlt.le, List.head?_append]
        simp [List.head?_drop, List.getElem?_eq_getElem (show m₁.stem.length < m₂.stem.length
          from hlt)]
      exact hpq (by rw [hnext hp₂, hnext hq₂])
  obtain ⟨p, v, hp⟩ := exists_key h₁
  rcases List.prefix_or_prefix_of_prefix (stem_prefix_of_lookup hp)
    (stem_prefix_of_lookup (he ▸ hp)) with hpre | hpre
  · rcases Nat.lt_or_ge n₁.stem.length n₂.stem.length with hlt | hge
    · exact (shorter h₁ h₂ he hpre hlt).elim
    · exact hpre.eq_of_length (Nat.le_antisymm hpre.length_le hge)
  · rcases Nat.lt_or_ge n₂.stem.length n₁.stem.length with hlt | hge
    · exact (shorter h₂ h₁ he.symm hpre hlt).elim
    · exact (hpre.eq_of_length (Nat.le_antisymm hpre.length_le hge)).symm

theorem lookup_ne_empty {n : Node} (h : Canon n) : n.lookup ≠ empty := by
  obtain ⟨p, v, hp⟩ := exists_key h
  intro he
  simp [he, empty] at hp

theorem eq_nil_of_isNil {n : Node} (h : n.isNil = true) : n = .nil := by
  cases n <;> simp_all [isNil]

/-- The value slot of a branch is read at the empty rest of a key. -/
theorem valueSlot_eq {a b : Node} (ha : a = .nil ∨ ∃ v, v ≠ [] ∧ a = .value v)
    (hb : b = .nil ∨ ∃ v, v ≠ [] ∧ b = .value v) (he : a.lookup = b.lookup) : a = b := by
  have h0 := congrFun he []
  rcases ha with rfl | ⟨v, -, rfl⟩ <;> rcases hb with rfl | ⟨w, -, rfl⟩
  · rfl
  · simp [lookup_value, empty] at h0
  · simp [lookup_value, empty] at h0
  · simpa [lookup_value] using h0

/-- Two canonical nodes of one map are the same node. -/
theorem eq_of_lookup_eq {n₁ n₂ : Node} (h₁ : Canon n₁) (h₂ : Canon n₂)
    (he : n₁.lookup = n₂.lookup) : n₁ = n₂ := by
  induction h₁ generalizing n₂ with
  | @leaf k v _ _ => exact (eq_leaf_of_lookup_eq h₂ (he ▸ lookup_leaf k v)).symm
  | @ext ns cs hne hns hc ih =>
    have hs := stem_eq (.ext hne hns hc) h₂ he
    cases h₂ with
    | leaf hk hv => exact eq_leaf_of_lookup_eq (.ext hne hns hc) (he.trans (lookup_leaf _ _))
    | @ext ns₂ cs₂ _ _ hc₂ =>
      simp only [stem] at hs
      subst hs
      have hchild : (full cs).lookup = (full cs₂).lookup := by
        funext q
        simpa using congrFun he (ns ++ q)
      rw [ih hc₂ hchild]
    | branch _ _ _ => exact absurd hs hne
  | @branch cs hcs hv htwo ih =>
    cases h₂ with
    | leaf hk hv₂ => exact eq_leaf_of_lookup_eq (.branch hcs hv htwo) (he.trans (lookup_leaf _ _))
    | ext hne₂ hns₂ hc₂ =>
      exact absurd (stem_eq (.branch hcs hv htwo) (.ext hne₂ hns₂ hc₂) he).symm hne₂
    | @branch cs₂ hcs₂ hv₂ htwo₂ =>
      congr 1
      funext i
      have hslot : (cs i).lookup = (cs₂ i).lookup := by
        funext r
        simpa [lookup_full_cons] using congrFun he (UInt8.ofNat i.val :: r)
      by_cases h16 : i.val < 16
      · -- a nil child against a canonical one would lose its keys
        cases hn₁ : (cs i).isNil <;> cases hn₂ : (cs₂ i).isNil
        · exact ih i h16 hn₁ (hcs₂ i h16 hn₂) hslot
        · exact absurd (hslot.trans (by rw [eq_nil_of_isNil hn₂, lookup_nil]))
            (lookup_ne_empty (hcs i h16 hn₁))
        · exact absurd (hslot.symm.trans (by rw [eq_nil_of_isNil hn₁, lookup_nil]))
            (lookup_ne_empty (hcs₂ i h16 hn₂))
        · rw [eq_nil_of_isNil hn₁, eq_nil_of_isNil hn₂]
      · have hi : i = 16 := Fin.ext (by omega)
        subst hi
        exact valueSlot_eq hv hv₂ hslot

end Canon

/-- What a branch may hold in slot `i` besides nil: a canonical node in the first sixteen, a
value that is not empty in the last. -/
def SlotNode (i : Fin 17) (x : Node) : Prop :=
  (i.val < 16 → Canon x) ∧ (i.val = 16 → ∃ v, v ≠ [] ∧ x = .value v)

theorem SlotNode.isNil_eq_false {i : Fin 17} {x : Node} (h : SlotNode i x) : x.isNil = false := by
  by_cases hi : i.val < 16
  · exact (h.1 hi).isNil_eq_false
  · obtain ⟨v, -, rfl⟩ := h.2 (by omega)
    rfl

theorem Canon.slot {cs : Fin 17 → Node} (h : Canon (.full cs)) {i : Fin 17}
    (hi : (cs i).isNil = false) : SlotNode i (cs i) := by
  cases h with
  | branch hcs hv htwo =>
    refine ⟨fun h16 => hcs i h16 hi, fun h16 => ?_⟩
    have : i = 16 := Fin.ext h16
    subst this
    rcases hv with h | h
    · simp [h, Node.isNil] at hi
    · exact h

/-- A full node is a branch when each child it holds fits its slot and it holds two. -/
theorem Canon.branch_of {cs : Fin 17 → Node} (hslot : ∀ i, (cs i).isNil = false → SlotNode i (cs i))
    (htwo : ∃ i j, i ≠ j ∧ (cs i).isNil = false ∧ (cs j).isNil = false) : Canon (.full cs) := by
  refine .branch (fun i hi hn => (hslot i hn).1 hi) ?_ htwo
  cases h : (cs 16).isNil
  · exact .inr ((hslot 16 h).2 rfl)
  · exact .inl (Canon.eq_nil_of_isNil h)

end IntChain.Trie
