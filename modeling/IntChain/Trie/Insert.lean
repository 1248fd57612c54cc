import IntChain.Trie.Trie
import IntChain.Trie.Canon

/-!
# Insertion keeps the canonical form

`insert` of a value under a terminated key, into a canonical trie or the empty one, never
panics, gives a canonical trie, and updates the map at that key and nowhere else; when it
reports the trie clean, the trie is the one it was given.
-/

namespace IntChain.Trie

open PathMap Node

/-! ### Common prefixes -/

theorem take_prefixLen (a b : List UInt8) : a.take (prefixLen a b) = b.take (prefixLen a b) := by
  fun_induction prefixLen a b <;> simp_all

/-- Past the common prefix the keys differ. -/
theorem getElem_ne_of_prefixLen (a b : List UInt8) (ha : prefixLen a b < a.length)
    (hb : prefixLen a b < b.length) : a[prefixLen a b] ≠ b[prefixLen a b] := by
  induction a generalizing b with
  | nil => simp [prefixLen] at ha
  | cons x a ih =>
    cases b with
    | nil => simp [prefixLen] at hb
    | cons y b =>
      by_cases h : x = y
      · subst h
        simp only [prefixLen, if_true, List.length_cons, Nat.add_lt_add_iff_right] at ha hb ⊢
        simpa using ih b ha hb
      · simp [prefixLen, h]

theorem prefixLen_eq_length_iff {a b : List UInt8} : prefixLen a b = b.length ↔ b <+: a := by
  induction a generalizing b with
  | nil => cases b <;> simp [prefixLen]
  | cons x a ih =>
    cases b with
    | nil => simp [prefixLen]
    | cons y b =>
      by_cases h : x = y
      · subst h
        simp [prefixLen, ih]
      · simp [prefixLen, h, Ne.symm h]

/-! ### One step of insert -/

/-- What `insert` puts in an empty slot: the node under the rest of its key. -/
def Node.prefixed (r : List UInt8) (x : Node) : Node := if r = [] then x else .short r x

theorem lookup_prefixed (r : List UInt8) (x : Node) :
    (prefixed r x).lookup = under r x.lookup := by
  unfold prefixed
  split
  · subst r
    rfl
  · rfl

theorem insert_nil (key : List UInt8) (x : Node) :
    insert .nil key x = some (true, prefixed key x) := by
  rw [insert]
  by_cases h : key = [] <;> simp [h, prefixed]

theorem insert_short_match {k key : List UInt8} (c x : Node) (hkey : key ≠ [])
    (hm : prefixLen key k = k.length) :
    insert (.short k c) key x = (insert c (key.drop k.length) x).map fun r =>
      if !r.1 then (false, .short k c) else (true, .short k r.2) := by
  rw [insert]
  simp [hkey, hm]

theorem insert_short_split {k key : List UInt8} (c x : Node) (hkey : key ≠ []) {i j : Fin 17}
    (hm : prefixLen key k < k.length) (hmk : prefixLen key k < key.length)
    (hi : childIndex k[prefixLen key k] = some i) (hj : childIndex key[prefixLen key k] = some j) :
    insert (.short k c) key x = some (true, prefixed (key.take (prefixLen key k)) (.full
      (Function.update (Function.update (fun _ => .nil) i (prefixed (k.drop (prefixLen key k + 1)) c))
        j (prefixed (key.drop (prefixLen key k + 1)) x)))) := by
  rw [insert]
  simp [hkey, hm.ne, hi, hj, insert_nil, prefixed, List.getElem?_eq_getElem hm,
    List.getElem?_eq_getElem hmk]
  split <;> rfl

theorem insert_full {b : UInt8} {i : Fin 17} (cs : Fin 17 → Node) (r : List UInt8) (x : Node)
    (hb : childIndex b = some i) :
    insert (.full cs) (b :: r) x = (insert (cs i) r x).map fun res =>
      if !res.1 then (false, .full cs) else (true, .full (Function.update cs i res.2)) := by
  rw [insert]
  simp [hb]
  generalize insert (cs i) r x = o
  rcases o with _ | ⟨_ | _, nn⟩ <;> rfl

/-! ### Maps of the pieces -/

theorem ofNat_lt_sixteen_iff (i : Fin 17) : UInt8.ofNat i.val < 16 ↔ i.val < 16 := by
  rw [UInt8.lt_iff_toNat_lt, toNat_ofNat_slot]
  rfl

theorem lookup_comp_update (cs : Fin 17 → Node) (i : Fin 17) (x : Node) :
    (fun t => (Function.update cs i x t).lookup) =
      Function.update (fun t => (cs t).lookup) i x.lookup := by
  funext t
  by_cases h : t = i
  · subst h
    simp
  · simp [Function.update_of_ne h]

theorem lookup_full_update (cs : Fin 17 → Node) (i : Fin 17) (x : Node) :
    (full (Function.update cs i x)).lookup =
      dispatch childIndex (Function.update (fun t => (cs t).lookup) i x.lookup) := by
  rw [lookup_full, lookup_comp_update]

theorem lookup_prefixed_value (r v : List UInt8) :
    (prefixed r (.value v)).lookup = Function.update empty r (some v) := by
  rw [lookup_prefixed, lookup_value, under_update, under_empty, List.append_nil]

/-- The slots whose first nibble is `b` are the one `childIndex b` names. -/
theorem childIndex_sel {b : UInt8} {i : Fin 17} (hi : childIndex b = some i) (b' : UInt8) :
    childIndex b' = some i ↔ b' = b := by
  rw [childIndex_eq_some_iff, ← childIndex_eq_some_iff.1 hi]

/-- A key cut at one nibble: what comes before, the nibble, what comes after. -/
theorem under_split (k : List UInt8) {m : Nat} (hm : m < k.length)
    (f : List UInt8 → Option (List UInt8)) :
    under k f = under (k.take m) (under [k[m]] (under (k.drop (m + 1)) f)) := by
  conv_lhs => rw [← List.take_append_drop m k, List.drop_eq_getElem_cons hm]
  rw [under_append, ← List.singleton_append, under_append]

/-- Past the nibble where two keys part, the rest of a canonical short node fills a slot. -/
theorem slot_prefixed_drop {k : List UInt8} {c : Node} (h : Canon (.short k c)) {m : Nat}
    (hm : m < k.length) {i : Fin 17} (hi : childIndex k[m] = some i) :
    SlotNode i (prefixed (k.drop (m + 1)) c) := by
  have hkm : k[m] = UInt8.ofNat i.val := childIndex_eq_some_iff.1 hi
  cases h with
  | leaf hk hv =>
    -- the rest of a leaf key is a leaf key, or empty past the terminator
    have hkd : TermKey (k[m] :: k.drop (m + 1)) := List.drop_eq_getElem_cons hm ▸ hk.drop hm
    constructor
    · intro h16
      have hr := hkd.tail (hkm ▸ (ofNat_lt_sixteen_iff i).2 h16)
      rw [prefixed, if_neg hr.ne_nil]
      exact .leaf hr hv
    · intro h16
      have h16' : k[m] = 16 := by rw [hkm, h16]; rfl
      rw [h16'] at hkd
      rw [prefixed, if_pos hkd.eq_nil_of_terminator]
      exact ⟨_, hv, rfl⟩
  | ext hne hns hc =>
    have hlt : i.val < 16 := (ofNat_lt_sixteen_iff i).1 (hkm ▸ hns.getElem_lt hm)
    refine ⟨fun _ => ?_, fun h16 => absurd h16 (by omega)⟩
    unfold prefixed
    split
    · exact hc
    · exact .ext ‹_› (fun x hx => hns x (List.mem_of_mem_drop hx)) hc

/-! ### Insert -/

theorem insert_full_shape {cs : Fin 17 → Node} {key : List UInt8} {x : Node} {d : Bool}
    {n' : Node} (hkey : key ≠ []) (h : insert (.full cs) key x = some (d, n')) :
    ∃ cs', n' = .full cs' := by
  obtain ⟨b, r, rfl⟩ := List.exists_cons_of_ne_nil hkey
  cases hb : childIndex b with
  | none =>
    rw [insert] at h
    simp [hb] at h
  | some i =>
    rw [insert_full cs r x hb] at h
    obtain ⟨⟨_ | _, nn⟩, -, he⟩ := Option.map_eq_some_iff.1 h <;> cases he
    · exact ⟨cs, rfl⟩
    · exact ⟨_, rfl⟩

/-- Where a new key parts from a canonical short node's key, `insert` puts a branch holding
both, under their common prefix. -/
theorem insert_split {k key v : List UInt8} {c : Node} (hn : Canon (.short k c))
    (hk : TermKey key) (hv : v ≠ []) (hm : prefixLen key k < k.length) :
    ∃ n', insert (.short k c) key (.value v) = some (true, n') ∧ Canon n' ∧
      n'.lookup = Function.update (short k c).lookup key (some v) := by
  -- the new key is no prefix of the node's key, so it goes on past the common part
  have hmk : prefixLen key k < key.length := by
    refine lt_of_le_of_ne (prefixLen_le_left key k) fun hml => ?_
    have hpre : key <+: k := prefixLen_eq_length_iff.1 ((prefixLen_comm k key).trans hml)
    cases hn with
    | leaf hk' _ =>
      have hkk := hk.eq_of_prefix hk' hpre
      subst hkk
      rw [prefixLen_eq_length_iff.2 (List.prefix_refl _)] at hm
      exact lt_irrefl _ hm
    | ext _ hns _ => exact hk.not_prefix_of_nibKey hns hpre
  -- the nibbles where the keys part select two different slots
  have hkl : k[prefixLen key k] < 17 := by
    cases hn with
    | leaf hk' _ => exact hk'.getElem_lt hm
    | ext _ hns _ => exact UInt8.lt_of_lt_of_le (hns.getElem_lt hm) (by decide)
  obtain ⟨i, hi⟩ := childIndex_isSome hkl
  obtain ⟨j, hj⟩ := childIndex_isSome (hk.getElem_lt hmk)
  have hij : i ≠ j := by
    rintro rfl
    exact getElem_ne_of_prefixLen key k hmk hm
      (by rw [childIndex_eq_some_iff.1 hi, childIndex_eq_some_iff.1 hj])
  have hsi := slot_prefixed_drop hn hm hi
  have hsj := slot_prefixed_drop (Canon.leaf hk hv) hmk hj
  have htake := take_prefixLen key k
  have hins := insert_short_split c (.value v) hk.ne_nil hm hmk hi hj
  generalize prefixLen key k = m at *
  rw [hins]
  refine ⟨_, rfl, ?_, ?_⟩
  · have hbr : Canon (.full (Function.update (Function.update (fun _ => .nil) i
        (prefixed (k.drop (m + 1)) c)) j (prefixed (key.drop (m + 1)) (.value v)))) := by
      apply Canon.branch_of
      · intro t ht
        by_cases htj : t = j
        · subst htj
          simpa using hsj
        · by_cases hti : t = i
          · subst hti
            simpa [Function.update_of_ne htj] using hsi
          · simp [Function.update_of_ne htj, Function.update_of_ne hti, isNil] at ht
      · refine ⟨i, j, hij, ?_, ?_⟩
        · simpa [Function.update_of_ne hij] using hsi.isNil_eq_false
        · simpa using hsj.isNil_eq_false
    unfold prefixed
    split
    · exact hbr
    · exact .ext ‹_› (hk.nibKey_take hmk) hbr
  · have hdisp : dispatch childIndex (Function.update (Function.update (fun _ => empty) i
        (under (k.drop (m + 1)) c.lookup)) j (Function.update empty (key.drop (m + 1)) (some v))) =
        Function.update (under [k[m]] (under (k.drop (m + 1)) c.lookup))
          (key[m] :: key.drop (m + 1)) (some v) := by
      rw [← dispatch_single childIndex (childIndex_sel hi), update_dispatch childIndex
        (childIndex_sel hj), Function.update_of_ne hij.symm]
    rw [lookup_prefixed, lookup_full_update, lookup_comp_update, lookup_prefixed_value,
      lookup_prefixed]
    simp only [lookup_nil]
    rw [hdisp, under_update, ← List.drop_eq_getElem_cons hmk, List.take_append_drop, htake,
      ← under_split k hm, lookup_short]

/-- `insert` of a value under a terminated key into a canonical trie: it does not panic, the
trie stays canonical and its map is updated at the key; a clean result is the trie given. -/
theorem insert_canon {n : Node} (h : Canon n) {key v : List UInt8} (hk : TermKey key)
    (hv : v ≠ []) :
    ∃ d n', insert n key (.value v) = some (d, n') ∧ Canon n' ∧
      n'.lookup = Function.update n.lookup key (some v) ∧ (d = false → n' = n) := by
  induction h generalizing key with
  | @leaf k w hk' hw =>
    by_cases hm : prefixLen key k = k.length
    · -- the key is the leaf's key: only the value changes
      have hkk : k = key := hk'.eq_of_prefix hk (prefixLen_eq_length_iff.1 hm)
      subst hkk
      rw [insert_short_match _ _ hk.ne_nil hm, List.drop_length, insert_value_nil]
      cases hwv : (w != v)
      · obtain rfl : w = v := by simpa using hwv
        refine ⟨false, _, rfl, .leaf hk hw, ?_, fun _ => rfl⟩
        rw [lookup_leaf, Function.update_idem]
      · refine ⟨true, _, rfl, .leaf hk hv, ?_, by simp⟩
        rw [lookup_leaf, lookup_leaf, Function.update_idem]
    · obtain ⟨n', hins, hc, hl⟩ :=
        insert_split (.leaf hk' hw) hk hv (lt_of_le_of_ne (prefixLen_le_right key k) hm)
      exact ⟨true, n', hins, hc, hl, by simp⟩
  | @ext ns cs hne hns hc ih =>
    by_cases hm : prefixLen key ns = ns.length
    · -- the key runs through the extension into its branch
      obtain ⟨t, rfl⟩ := prefixLen_eq_length_iff.1 hm
      have ht : TermKey t := hk.of_append hns
      obtain ⟨d, n', hins, hc', hl, hclean⟩ := ih ht
      obtain ⟨cs', rfl⟩ := insert_full_shape ht.ne_nil hins
      rw [insert_short_match _ _ hk.ne_nil hm, List.drop_left, hins]
      cases d
      · obtain ⟨⟩ := hclean rfl
        refine ⟨false, _, rfl, .ext hne hns hc, ?_, fun _ => rfl⟩
        rw [lookup_short, ← under_update, ← hl]
      · refine ⟨true, _, rfl, .ext hne hns hc', ?_, by simp⟩
        rw [lookup_short, lookup_short, hl, under_update]
    · obtain ⟨n', hins, hc', hl⟩ :=
        insert_split (.ext hne hns hc) hk hv (lt_of_le_of_ne (prefixLen_le_right key ns) hm)
      exact ⟨true, n', hins, hc', hl, by simp⟩
  | @branch cs hcs hv16 htwo ih =>
    obtain ⟨b, r, rfl⟩ := List.exists_cons_of_ne_nil hk.ne_nil
    obtain ⟨i, hi⟩ := childIndex_isSome hk.head_lt
    have hb : b = UInt8.ofNat i.val := childIndex_eq_some_iff.1 hi
    -- the slot the first nibble selects takes the rest of the key
    have hslot : ∃ d nn, insert (cs i) r (.value v) = some (d, nn) ∧ SlotNode i nn ∧
        nn.lookup = Function.update (cs i).lookup r (some v) ∧ (d = false → nn = cs i) := by
      by_cases h16 : i.val < 16
      · have hr : TermKey r := hk.tail (hb ▸ (ofNat_lt_sixteen_iff i).2 h16)
        have hs : ∀ {x}, Canon x → SlotNode i x := fun hx => ⟨fun _ => hx, fun h => by omega⟩
        cases hn : (cs i).isNil
        · obtain ⟨d, nn, h1, h2, h3, h4⟩ := ih i h16 hn hr
          exact ⟨d, nn, h1, hs h2, h3, h4⟩
        · rw [Canon.eq_nil_of_isNil hn, insert_nil]
          refine ⟨true, _, rfl, hs ?_, by rw [lookup_prefixed_value, lookup_nil], by simp⟩
          rw [prefixed, if_neg hr.ne_nil]
          exact .leaf hr hv
      · -- the terminator selects the value slot, and ends the key
        obtain rfl : i = 16 := Fin.ext (by omega)
        obtain rfl : b = 16 := hb
        obtain rfl : r = [] := hk.eq_nil_of_terminator
        have hs16 : SlotNode 16 (.value v) := ⟨fun h => absurd h (by decide), fun _ => ⟨v, hv, rfl⟩⟩
        rcases hv16 with h0 | ⟨w, -, h0⟩ <;> rw [h0]
        · rw [insert_nil]
          exact ⟨true, _, rfl, hs16, by rw [prefixed, if_pos rfl, lookup_value, lookup_nil], by simp⟩
        · rw [insert_value_nil]
          refine ⟨w != v, _, rfl, hs16, by rw [lookup_value, lookup_value, Function.update_idem],
            fun h => ?_⟩
          obtain rfl : w = v := by simpa using h
          rfl
    obtain ⟨d, nn, hins, hnn, hl, hclean⟩ := hslot
    rw [insert_full cs r _ hi, hins]
    cases d
    · obtain rfl := hclean rfl
      refine ⟨false, _, rfl, .branch hcs hv16 htwo, ?_, fun _ => rfl⟩
      rw [lookup_full, update_dispatch childIndex (childIndex_sel hi), ← hl, Function.update_eq_self]
    · refine ⟨true, _, rfl, ?_, ?_, by simp⟩
      · -- the updated slot holds a node, so the two children the branch had are still there
        have keep : ∀ t, (cs t).isNil = false → (Function.update cs i nn t).isNil = false := by
          intro t ht
          by_cases hti : t = i
          · subst hti
            simpa using hnn.isNil_eq_false
          · simpa [Function.update_of_ne hti] using ht
        apply Canon.branch_of
        · intro t ht
          by_cases hti : t = i
          · subst hti
            simpa using hnn
          · rw [Function.update_of_ne hti] at ht ⊢
            exact (Canon.branch hcs hv16 htwo).slot ht
        · obtain ⟨t₁, t₂, h12, h1, h2⟩ := htwo
          exact ⟨t₁, t₂, h12, keep t₁ h1, keep t₂ h2⟩
      · rw [lookup_full_update, hl, lookup_full, update_dispatch childIndex (childIndex_sel hi)]

end IntChain.Trie
