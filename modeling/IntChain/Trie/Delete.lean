import IntChain.Trie.Insert

/-!
# Deletion keeps the canonical form

`delete` of a terminated key from a canonical trie never panics, leaves a canonical trie or
the empty one, and removes the key from the map and nothing else. On the way up it merges a
short node into the short node above it and collapses a full node left with one child into a
short node, which is what keeps the trie canonical.
-/

namespace IntChain.Trie

open PathMap Node

/-! ### The children left -/

/-- The children that are not nil, in slot order. -/
def nonNilSlots (cs : Fin 17 → Node) : List (Fin 17) :=
  (List.finRange 17).filter fun i => !(cs i).isNil

/-- What the loop of `delete` reports of the children it has passed. -/
def slotPos : List (Fin 17) → Int
  | [] => -1
  | [i] => i.val
  | _ :: _ :: _ => -2

theorem foldl_childPos_step (cs : Fin 17 → Node) (l xs : List (Fin 17)) :
    l.foldl (fun pos i => if (cs i).isNil then pos else if pos = -1 then (i.val : Int) else -2)
      (slotPos xs) = slotPos (xs ++ l.filter fun i => !(cs i).isNil) := by
  induction l generalizing xs with
  | nil => simp
  | cons i l ih =>
    rw [List.foldl_cons, List.filter_cons]
    cases hi : (cs i).isNil
    · have hstep : (if slotPos xs = -1 then (i.val : Int) else -2) = slotPos (xs ++ [i]) := by
        match xs with
        | [] => rfl
        | [a] => simp [slotPos]
        | _ :: _ :: _ => simp [slotPos]
      simpa [hstep] using ih (xs ++ [i])
    · simpa using ih xs

theorem childPos_eq (cs : Fin 17 → Node) : childPos cs = slotPos (nonNilSlots cs) :=
  foldl_childPos_step cs (List.finRange 17) []

theorem mem_nonNilSlots {cs : Fin 17 → Node} {i : Fin 17} :
    i ∈ nonNilSlots cs ↔ (cs i).isNil = false := by
  simp [nonNilSlots]

/-- `childPos` finds no child, the one child, or two. -/
theorem childPos_cases (cs : Fin 17 → Node) :
    (childPos cs = -1 ∧ ∀ i, (cs i).isNil = true) ∨
    (∃ p : Fin 17, childPos cs = p.val ∧ (cs p).isNil = false ∧ ∀ i, i ≠ p → (cs i).isNil = true) ∨
    (childPos cs = -2 ∧ ∃ i j, i ≠ j ∧ (cs i).isNil = false ∧ (cs j).isNil = false) := by
  rw [childPos_eq]
  have hnd : (nonNilSlots cs).Nodup := (List.nodup_finRange 17).filter _
  match h : nonNilSlots cs with
  | [] =>
    refine .inl ⟨rfl, fun i => ?_⟩
    have := mt mem_nonNilSlots.2 (by simp [h] : i ∉ nonNilSlots cs)
    simpa using this
  | [p] =>
    refine .inr (.inl ⟨p, rfl, mem_nonNilSlots.1 (by simp [h]), fun i hi => ?_⟩)
    have := mt mem_nonNilSlots.2 (by simp [h, hi] : i ∉ nonNilSlots cs)
    simpa using this
  | a :: b :: _ =>
    rw [h] at hnd
    refine .inr (.inr ⟨rfl, a, b, ?_, mem_nonNilSlots.1 (by simp [h]),
      mem_nonNilSlots.1 (by simp [h])⟩)
    simp at hnd
    exact hnd.1.1

/-! ### One step of delete -/

/-- A short node over what `delete` left of its child: merged with the child when that is a
short node too. -/
def Node.joinShort (k : List UInt8) : Node → Node
  | .short ck cv => .short (k ++ ck) cv
  | child => .short k child

theorem lookup_joinShort (k : List UInt8) (x : Node) : (joinShort k x).lookup = under k x.lookup := by
  cases x with
  | short ck cv => rw [joinShort, lookup_short, lookup_short, under_append]
  | _ => rfl

theorem delete_short_mismatch {k key : List UInt8} (c : Node) (hm : prefixLen key k < k.length) :
    delete (.short k c) key = some (false, .short k c) := by
  rw [delete]
  simp [hm]

theorem delete_short_whole {k key : List UInt8} (c : Node) (hm : prefixLen key k = k.length)
    (hl : prefixLen key k = key.length) : delete (.short k c) key = some (true, .nil) := by
  rw [delete]
  simp [hm, ← hl]

theorem delete_short_into {k key : List UInt8} (c : Node) (hm : prefixLen key k = k.length)
    (hl : prefixLen key k ≠ key.length) :
    delete (.short k c) key = (delete c (key.drop k.length)).map fun r =>
      if !r.1 then (false, .short k c) else (true, joinShort k r.2) := by
  rw [delete]
  simp only [hm, lt_irrefl, if_false]
  rw [if_neg (hm ▸ hl)]
  generalize delete c (key.drop k.length) = o
  rcases o with _ | ⟨_ | _, _ | _ | _ | _ | _⟩ <;> rfl

theorem delete_full_clean {cs : Fin 17 → Node} {b : UInt8} {i : Fin 17} {r : List UInt8}
    {nn : Node} (hb : childIndex b = some i) (hd : delete (cs i) r = some (false, nn)) :
    delete (.full cs) (b :: r) = some (false, .full cs) := by
  rw [delete]
  simp [hb, hd]

/-- Where `delete` leaves a full node whose children fit their slots, one at least, the collapse
on the way up gives a canonical node with the same map. -/
theorem delete_full_dirty {cs : Fin 17 → Node} {b : UInt8} {i : Fin 17} {r : List UInt8}
    {nn : Node} (hb : childIndex b = some i) (hd : delete (cs i) r = some (true, nn))
    (hslot : ∀ t, (Function.update cs i nn t).isNil = false →
      SlotNode t (Function.update cs i nn t))
    (hone : ∃ t, (Function.update cs i nn t).isNil = false) :
    ∃ n', delete (.full cs) (b :: r) = some (true, n') ∧ Canon n' ∧
      n'.lookup = (full (Function.update cs i nn)).lookup := by
  rw [delete]
  simp only [List.head?_cons, Option.bind_some, hb, List.tail_cons, Option.bind_eq_bind, hd,
    Bool.not_true, Bool.false_eq_true, if_false, Option.pure_def]
  generalize Function.update cs i nn = cs' at *
  rcases childPos_cases cs' with ⟨-, hall⟩ | ⟨p, hp, hpn, hrest⟩ | ⟨hp, htwo⟩
  · obtain ⟨t, ht⟩ := hone
    rw [hall t] at ht
    cases ht
  · -- one child left: the node becomes a short node of its nibble, merged with the child
    have hfp : Fin.ofNat 17 (p.val : Int).toNat = p :=
      Fin.ext (by rw [Fin.val_ofNat, Int.toNat_natCast, Nat.mod_eq_of_lt p.isLt])
    rw [hp, if_pos (Int.natCast_nonneg _), hfp]
    have hmap : (full cs').lookup = under [UInt8.ofNat p.val] (cs' p).lookup := by
      have hone : (fun t => (cs' t).lookup) = Function.update (fun _ => empty) p (cs' p).lookup := by
        funext t
        by_cases htp : t = p
        · subst htp
          rw [Function.update_self]
        · rw [Function.update_of_ne htp, Canon.eq_nil_of_isNil (hrest t htp), lookup_nil]
      rw [lookup_full, hone, dispatch_single childIndex (childIndex_sel (childIndex_ofNat p))]
    by_cases h16 : p.val = 16
    · obtain ⟨v, hv, hcv⟩ := (hslot p hpn).2 h16
      rw [if_neg (not_not.2 h16)]
      refine ⟨_, rfl, ?_, by rw [hmap, lookup_short]⟩
      rw [hcv]
      exact .leaf ⟨[], fun _ h => absurd h List.not_mem_nil, by rw [h16]; rfl⟩ hv
    · rw [if_pos h16]
      have hnib : NibKey [UInt8.ofNat p.val] := by
        intro x hx
        rw [List.mem_singleton.1 hx]
        exact (ofNat_lt_sixteen_iff p).2 (by omega)
      have hc := (hslot p hpn).1 (by omega)
      generalize cs' p = x at hc hmap ⊢
      cases hc with
      | leaf hk hv =>
        refine ⟨_, rfl, .leaf (TermKey.append hnib hk) hv, ?_⟩
        rw [hmap, lookup_short, lookup_short, ← under_append]
        rfl
      | ext hne hns hc =>
        refine ⟨_, rfl, .ext (List.cons_ne_nil _ _) (hnib.append hns) hc, ?_⟩
        rw [hmap, lookup_short, lookup_short, ← under_append]
        rfl
      | branch hcs hv htwo =>
        exact ⟨_, rfl, .ext (List.cons_ne_nil _ _) hnib (.branch hcs hv htwo), hmap.symm⟩
  · rw [hp, if_neg (by decide)]
    exact ⟨_, rfl, Canon.branch_of hslot htwo, rfl⟩

/-! ### Delete -/

/-- A branch keeps a key after any one key is removed from its map. -/
theorem Canon.update_none_ne_empty {cs : Fin 17 → Node} (h : Canon (.full cs))
    (key : List UInt8) : Function.update (full cs).lookup key none ≠ empty := by
  obtain ⟨p, q, vp, vq, hp, hq, hpq⟩ := h.branch_split
  intro he
  by_cases hpk : p = key
  · subst hpk
    have hqp : q ≠ p := fun hqp => hpq (by rw [hqp])
    have := congrFun he q
    rw [Function.update_of_ne hqp, hq] at this
    cases this
  · have := congrFun he p
    rw [Function.update_of_ne hpk, hp] at this
    cases this

/-- `delete` of a terminated key from a canonical trie: it does not panic, leaves a canonical
trie or the empty one, and removes the key from the map; a clean result is the trie given. -/
theorem delete_canon {n : Node} (h : Canon n) {key : List UInt8} (hk : TermKey key) :
    ∃ d n', delete n key = some (d, n') ∧ (n' = .nil ∨ Canon n') ∧
      n'.lookup = Function.update n.lookup key none ∧ (d = false → n' = n) := by
  induction h generalizing key with
  | @leaf k w hk' hw =>
    by_cases hm : prefixLen key k < k.length
    · -- another key: nothing to remove
      have hne : key ≠ k := by
        rintro rfl
        exact hm.ne (prefixLen_eq_length_iff.2 (List.prefix_refl _))
      refine ⟨false, _, delete_short_mismatch _ hm, .inr (.leaf hk' hw), ?_, fun _ => rfl⟩
      rw [eq_comm, Function.update_eq_self_iff, lookup_leaf, Function.update_of_ne hne]
      rfl
    · have hm' : prefixLen key k = k.length :=
        le_antisymm (prefixLen_le_right key k) (not_lt.1 hm)
      obtain rfl : k = key := hk'.eq_of_prefix hk (prefixLen_eq_length_iff.1 hm')
      refine ⟨true, .nil, delete_short_whole _ hm' hm', .inl rfl, ?_, by simp⟩
      rw [lookup_nil, lookup_leaf, Function.update_idem]
      exact (Function.update_eq_self k empty).symm
  | @ext ns cs hne hns hc ih =>
    by_cases hm : prefixLen key ns < ns.length
    · -- a key off the extension: the map has nothing at it
      have hnp : ¬ ns <+: key := fun hp => hm.ne (prefixLen_eq_length_iff.2 hp)
      refine ⟨false, _, delete_short_mismatch _ hm, .inr (.ext hne hns hc), ?_, fun _ => rfl⟩
      rw [eq_comm, Function.update_eq_self_iff, lookup_short, under_eq_none_of_not_prefix _ hnp]
    · have hm' : prefixLen key ns = ns.length :=
        le_antisymm (prefixLen_le_right key ns) (not_lt.1 hm)
      obtain ⟨t, rfl⟩ := prefixLen_eq_length_iff.1 hm'
      have ht : TermKey t := hk.of_append hns
      have hl : prefixLen (ns ++ t) ns ≠ (ns ++ t).length := by
        rw [hm', List.length_append]
        have := List.length_pos_of_ne_nil ht.ne_nil
        omega
      obtain ⟨d, n', hd, hn', hl', hclean⟩ := ih ht
      rw [delete_short_into _ hm' hl, List.drop_left, hd]
      cases d
      · obtain rfl := hclean rfl
        refine ⟨false, _, rfl, .inr (.ext hne hns hc), ?_, fun _ => rfl⟩
        rw [lookup_short, ← under_update, ← hl']
      · -- the branch keeps a key, so what is left of it is a canonical node
        have hc' : Canon n' := by
          rcases hn' with rfl | hc'
          · exact absurd (hl'.symm.trans lookup_nil) (hc.update_none_ne_empty t)
          · exact hc'
        refine ⟨true, _, rfl, .inr ?_, ?_, by simp⟩
        · cases hc' with
          | leaf hk₂ hv₂ => exact .leaf (TermKey.append hns hk₂) hv₂
          | ext hne₂ hns₂ hc₂ => exact .ext (by simp [hne]) (hns.append hns₂) hc₂
          | branch hcs hv htwo => exact .ext hne hns (.branch hcs hv htwo)
        · rw [lookup_joinShort, hl', lookup_short, under_update]
  | @branch cs hcs hv16 htwo ih =>
    obtain ⟨b, r, rfl⟩ := List.exists_cons_of_ne_nil hk.ne_nil
    obtain ⟨i, hi⟩ := childIndex_isSome hk.head_lt
    have hb : b = UInt8.ofNat i.val := childIndex_eq_some_iff.1 hi
    -- the slot the first nibble selects loses the rest of the key
    have hslot : ∃ d nn, delete (cs i) r = some (d, nn) ∧ (nn.isNil = false → SlotNode i nn) ∧
        nn.lookup = Function.update (cs i).lookup r none ∧ (d = false → nn = cs i) := by
      have hnil : delete .nil r = some (false, .nil) ∧ (Node.nil.isNil = false → SlotNode i .nil) ∧
          Node.nil.lookup = Function.update Node.nil.lookup r none :=
        ⟨delete_nil r, fun h => by simp [isNil] at h, (Function.update_eq_self r empty).symm⟩
      by_cases h16 : i.val < 16
      · have hr : TermKey r := hk.tail (hb ▸ (ofNat_lt_sixteen_iff i).2 h16)
        cases hn : (cs i).isNil
        · obtain ⟨d, nn, h1, h2, h3, h4⟩ := ih i h16 hn hr
          refine ⟨d, nn, h1, fun hnn => ⟨fun _ => ?_, fun h => by omega⟩, h3, h4⟩
          rcases h2 with rfl | h2
          · simp [isNil] at hnn
          · exact h2
        · rw [Canon.eq_nil_of_isNil hn]
          exact ⟨false, _, hnil.1, hnil.2.1, hnil.2.2, fun _ => rfl⟩
      · -- the terminator selects the value slot, and ends the key
        obtain rfl : i = 16 := Fin.ext (by omega)
        obtain rfl : b = 16 := hb
        obtain rfl : r = [] := hk.eq_nil_of_terminator
        rcases hv16 with h0 | ⟨w, -, h0⟩ <;> rw [h0]
        · exact ⟨false, _, hnil.1, hnil.2.1, hnil.2.2, fun _ => rfl⟩
        · refine ⟨true, _, delete_value w [], fun h => by simp [isNil] at h, ?_, by simp⟩
          rw [lookup_nil, lookup_value, Function.update_idem]
          exact (Function.update_eq_self [] empty).symm
    obtain ⟨d, nn, hd, hnn, hl, hclean⟩ := hslot
    cases d
    · obtain rfl := hclean rfl
      refine ⟨false, _, delete_full_clean hi hd, .inr (.branch hcs hv16 htwo), ?_, fun _ => rfl⟩
      rw [lookup_full, update_dispatch childIndex (childIndex_sel hi), ← hl, Function.update_eq_self]
    · have hslots : ∀ t, (Function.update cs i nn t).isNil = false →
          SlotNode t (Function.update cs i nn t) := by
        intro t ht
        by_cases hti : t = i
        · subst hti
          simp only [Function.update_self] at ht ⊢
          exact hnn ht
        · rw [Function.update_of_ne hti] at ht ⊢
          exact (Canon.branch hcs hv16 htwo).slot ht
      have hlook : (full (Function.update cs i nn)).lookup =
          Function.update (full cs).lookup (b :: r) none := by
        rw [lookup_full_update, hl, lookup_full, update_dispatch childIndex (childIndex_sel hi)]
      -- the branch keeps a key, so a child is left
      have hone : ∃ t, (Function.update cs i nn t).isNil = false := by
        by_contra hall
        apply (Canon.branch hcs hv16 htwo).update_none_ne_empty (b :: r)
        have hempty : (fun t => (Function.update cs i nn t).lookup) = fun _ => empty := by
          funext t
          have ht : (Function.update cs i nn t).isNil = true := by simpa using fun h => hall ⟨t, h⟩
          rw [Canon.eq_nil_of_isNil ht]
          rfl
        rw [← hlook, lookup_full, hempty, dispatch_empty]
      obtain ⟨n', hd', hc', hl'⟩ := delete_full_dirty hi hd hslots hone
      exact ⟨true, n', hd', .inr hc', hl'.trans hlook, by simp⟩

end IntChain.Trie
