import IntChain.Trie.Canon

/-!
# Reading back what the hasher writes

`decodeNode` of `node.go` inverts the hasher of `hasher.go`: the RLP of a collapsed canonical
node decodes to that node with its keys expanded from compact form, a child the hasher kept
whole decoded in place and a hashed child as its hash. This is what a proof verifier relies on
when it reads the nodes `Prove` wrote.
-/

namespace IntChain.Trie

open Rlp

/-! ### Lengths of encodings -/

theorem headsize_le (size : Nat) : headsize size ≤ 9 := by
  have := BigEndian.byteLength_le 8 size
  unfold headsize intsize
  split_ifs <;> omega

theorem length_encodeBytes_le (b : List UInt8) : (encodeBytes b).length ≤ b.length + 9 := by
  unfold encodeBytes
  split_ifs
  · omega
  · rw [List.length_append, length_puthead]
    have := headsize_le b.length
    omega

theorem length_encodeBytes_of_length {b : List UInt8} (hb : b.length = 32) :
    encodeBytes b = 0xA0 :: b := by
  have hs : singleByte b = false := by
    rcases b with _ | ⟨x, _ | ⟨y, b⟩⟩ <;> simp_all [singleByte]
  simp [encodeBytes, hs, puthead, hb]

theorem Item.encodeList_append (a b : List Item) :
    Item.encodeList (a ++ b) = Item.encodeList a ++ Item.encodeList b := by
  induction a with
  | nil => rfl
  | cons t a ih => simp [Item.encodeList, ih]

/-- An item whose encoding fits a header is one value of a row. -/
theorem values_encode_append (t : Item) (ht : t.encode.length < 2 ^ 64) {rest : List UInt8}
    {n : Nat} (h : Values rest n) : Values (t.encode ++ rest) (n + 1) := by
  cases t with
  | bytes b =>
    apply values_encodeBytes_append _ h
    exact (length_encodeBytes b).trans_lt ht
  | list items =>
    simp only [Item.encode, List.length_append] at ht ⊢
    exact values_puthead_list_append (by omega) h

theorem values_encodeList (ts : List Item) (h : ∀ t ∈ ts, t.encode.length < 2 ^ 64) :
    Values (Item.encodeList ts) ts.length := by
  induction ts with
  | nil => exact .nil
  | cons t ts ih =>
    apply values_encode_append t (h t (List.mem_cons_self ..))
    exact ih fun u hu => h u (List.mem_cons_of_mem _ hu)

theorem length_encodeList_le (ts : List Item) {B : Nat} (h : ∀ t ∈ ts, t.encode.length ≤ B) :
    (Item.encodeList ts).length ≤ ts.length * B := by
  induction ts with
  | nil => simp [Item.encodeList]
  | cons t ts ih =>
    have h1 := h t (List.mem_cons_self ..)
    have h2 := ih fun u hu => h u (List.mem_cons_of_mem _ hu)
    rw [Item.encodeList, List.length_append, List.length_cons, Nat.succ_mul]
    omega

theorem forall₂_ofFn {α β : Type} {R : α → β → Prop} {n : Nat} {f : Fin n → α} {g : Fin n → β}
    (h : ∀ i, R (f i) (g i)) : List.Forall₂ R (List.ofFn f) (List.ofFn g) := by
  induction n with
  | zero => simp
  | succ n ih =>
    rw [List.ofFn_succ, List.ofFn_succ]
    exact .cons (h 0) (ih fun i => h i.succ)

theorem encodeList_ofFn_succ {n : Nat} (f : Fin (n + 1) → Item) :
    Item.encodeList (List.ofFn f) =
      Item.encodeList (List.ofFn fun i => f i.castSucc) ++ (f (Fin.last n)).encode := by
  rw [List.ofFn_succ', List.concat_eq_append, Item.encodeList_append]
  simp [Item.encodeList]

/-! ### Compact keys -/

theorem length_decodeNibbles {l bs : List UInt8} (h : decodeNibbles l = some bs) :
    bs.length ≤ l.length := by
  induction l using decodeNibbles.induct generalizing bs with
  | case1 =>
    cases h
    exact le_refl _
  | case2 => cases h
  | case3 hi lo rest ih =>
    simp only [decodeNibbles, Option.map_eq_some_iff] at h
    obtain ⟨bs', hbs', rfl⟩ := h
    have := ih hbs'
    simp only [List.length_cons]
    omega

theorem length_hexToCompact_le {hex c : List UInt8} (h : hexToCompact hex = some c) :
    c.length ≤ hex.length + 1 := by
  unfold hexToCompact at h
  dsimp only at h
  generalize (if hasTerm hex = true then (1 : UInt8) else 0) = t at h
  generalize hh : (if hasTerm hex = true then hex.dropLast else hex) = h' at h
  have hle : h'.length ≤ hex.length := by
    rw [← hh]
    split_ifs
    · rw [List.length_dropLast]
      omega
    · exact le_refl _
  split_ifs at h with hodd
  · rcases h' with _ | ⟨first, rest⟩
    · cases h
    · obtain ⟨bs, hbs, rfl⟩ := Option.map_eq_some_iff.1 h
      have := length_decodeNibbles hbs
      simp only [List.length_cons] at hle ⊢
      omega
  · obtain ⟨bs, hbs, rfl⟩ := Option.map_eq_some_iff.1 h
    have := length_decodeNibbles hbs
    rw [List.length_cons]
    omega

theorem length_compactKey_le (k : List UInt8) : (compactKey k).length ≤ k.length + 1 :=
  length_hexToCompact_le (by simp [compactKey])

theorem compactToHex_compactKey {ns : List UInt8} (hns : NibKey ns) (term : Bool) :
    compactToHex (compactKey (hexKey ns term)) = hexKey ns term := by
  have h := compactToHex_hexToCompact hns term
  have hc : hexToCompact (hexKey ns term) = some (compactKey (hexKey ns term)) := by
    simp [compactKey]
  rw [hc, Option.map_some, Option.some_inj] at h
  exact h

theorem TermKey.compactToHex_compactKey {k : List UInt8} (hk : TermKey k) :
    compactToHex (compactKey k) = k := by
  obtain ⟨ns, hns, rfl⟩ := hk
  exact Trie.compactToHex_compactKey hns true

theorem NibKey.compactToHex_compactKey {ns : List UInt8} (hns : NibKey ns) :
    compactToHex (compactKey ns) = ns :=
  Trie.compactToHex_compactKey hns false

theorem TermKey.hasTerm {k : List UInt8} (hk : TermKey k) : hasTerm k = true := by
  obtain ⟨ns, -, rfl⟩ := hk
  simp [Trie.hasTerm]

theorem NibKey.hasTerm {ns : List UInt8} (hns : NibKey ns) : hasTerm ns = false :=
  hasTerm_hexKey hns false

/-! ### The decoder, one equation per case -/

theorem decodeNode_list {payload : List UInt8} (hp : payload.length < 2 ^ 64) (rest : List UInt8)
    {c : Nat} (hc : Values payload c) :
    decodeNode (puthead 0xC0 0xF7 payload.length ++ payload ++ rest) =
      if c = 2 then (decodeShort payload).mapError (wrapError "short")
      else if c = 17 then (decodeFull payload).mapError (wrapError "full")
      else .error (.listElements c) := by
  have hs := splitList_puthead hp rest
  have hb : puthead 0xC0 0xF7 payload.length ++ payload ++ rest ≠ [] :=
    (split_eq_ok_iff.1 (split_puthead_list hp rest)).1.ne_nil
  rw [decodeNode]
  simp only [hb, if_false]
  split
  · simp_all
  · rename_i h
    rw [hs] at h
    cases h
    simp only [countValues_eq_ok_iff.2 hc]

theorem decodeShort_eq {elems kbuf rest : List UInt8} (hs : splitString elems = .ok (kbuf, rest)) :
    decodeShort elems =
      if hasTerm (compactToHex kbuf) then
        (match splitString rest with
          | .error err => .error (.valueNode err)
          | .ok (val, _) => .ok (.short (compactToHex kbuf) (.value val)))
      else
        (match decodeRef rest with
          | .error err => .error (wrapError "val" err)
          | .ok (r, _) => .ok (.short (compactToHex kbuf) r)) := by
  rw [decodeShort]
  split
  · simp_all
  · rename_i h
    rw [hs] at h
    cases h
    rfl

theorem decodeRef_string {buf val rest : List UInt8} (hs : split buf = .ok (.string, val, rest)) :
    decodeRef buf =
      if val.length = 0 then .ok (.nil, ⟨rest, split_rest_lt hs⟩)
      else if val.length = 32 then .ok (.hash val, ⟨rest, split_rest_lt hs⟩)
      else .error (.stringSize val.length) := by
  rw [decodeRef]
  split
  · simp_all
  · rename_i h
    rw [hs] at h
    cases h
    rfl

theorem decodeRef_list {buf c rest : List UInt8} (hs : split buf = .ok (.list, c, rest))
    (hl : buf.length - rest.length ≤ hashLen) :
    decodeRef buf = (decodeNode buf).map fun n => (n, ⟨rest, split_rest_lt hs⟩) := by
  rw [decodeRef]
  split
  · simp_all
  · rename_i h
    rw [hs] at h
    cases h
    simp only [if_neg (Nat.not_lt.2 hl)]

theorem decodeChildren_of_decodeRef {i : Nat} (hi : i < 16) {elems rest : List UInt8} {x : Node}
    (hd : (decodeRef elems).map (fun p => (p.1, p.2.1)) = .ok (x, rest)) :
    decodeChildren i elems = (decodeChildren (i + 1) rest).map fun p => (x :: p.1, p.2) := by
  cases h : decodeRef elems with
  | error err =>
    rw [h] at hd
    cases hd
  | ok p =>
    obtain ⟨x', rest', hr⟩ := p
    rw [h] at hd
    cases hd
    rw [decodeChildren, if_pos hi, h]
    dsimp only
    cases decodeChildren (i + 1) rest' <;> rfl

theorem decodeChildren_sixteen (elems : List UInt8) : decodeChildren 16 elems = .ok ([], elems) := by
  rw [decodeChildren, if_neg (lt_irrefl 16)]

theorem decodeFull_eq {elems rest val r : List UInt8} {xs : List Node}
    (hd : decodeChildren 0 elems = .ok (xs, rest)) (hs : splitString rest = .ok (val, r)) :
    decodeFull elems = .ok (.full fun i =>
      if i.val < 16 then xs.getD i.val .nil
      else if 0 < val.length then .value val else .nil) := by
  rw [decodeFull, hd]
  dsimp only
  rw [hs]

/-- The sixteen references of a full node are read one after another, each from its own
encoding. -/
theorem decodeChildren_encodeList {ts : List Item} {xs : List Node}
    (h : List.Forall₂
      (fun t x => ∀ rest, (decodeRef (t.encode ++ rest)).map (fun p => (p.1, p.2.1)) = .ok (x, rest))
      ts xs)
    {i : Nat} (hi : i + ts.length = 16) (rest : List UInt8) :
    decodeChildren i (Item.encodeList ts ++ rest) = .ok (xs, rest) := by
  induction h generalizing i with
  | nil =>
    simp only [List.length_nil, Nat.add_zero] at hi
    subst hi
    exact decodeChildren_sixteen rest
  | @cons t x ts xs hx _ ih =>
    simp only [List.length_cons] at hi
    rw [Item.encodeList, List.append_assoc,
      decodeChildren_of_decodeRef (by omega) (hx (Item.encodeList ts ++ rest)), ih (by omega)]
    rfl

theorem split_encodeBytes_string {b : List UInt8} (hb : b.length < 2 ^ 64) (h1 : b.length ≠ 1)
    (rest : List UInt8) : split (encodeBytes b ++ rest) = .ok (.string, b, rest) := by
  obtain ⟨k, hs, hk⟩ := split_encodeBytes hb rest
  cases k with
  | byte =>
    obtain ⟨x, -, rfl, -⟩ := (split_eq_ok_iff.1 hs).1
    exact absurd rfl h1
  | string => exact hs
  | list => exact absurd rfl hk

/-- A missing child, the empty string, reads as nil. -/
theorem decodeRef_encodeBytes_nil (rest : List UInt8) :
    (decodeRef (encodeBytes [] ++ rest)).map (fun p => (p.1, p.2.1)) = .ok (.nil, rest) := by
  rw [decodeRef_string (split_encodeBytes_string (b := []) (by simp) (by simp) rest)]
  rfl

/-- A hash of 32 bytes reads as a hash node. -/
theorem decodeRef_encodeBytes_hash {h : List UInt8} (hh : h.length = 32) (rest : List UInt8) :
    (decodeRef (encodeBytes h ++ rest)).map (fun p => (p.1, p.2.1)) = .ok (.hash h, rest) := by
  rw [decodeRef_string (split_encodeBytes_string (b := h) (by omega) (by omega) rest),
    if_neg (by omega), if_pos hh]
  rfl

/-- `decodeNode` of a list of at most 17 items that each fit: its length picks the short or the
full decoder. -/
theorem decodeNode_encode_list {ts : List Item} (hts : ∀ t ∈ ts, t.encode.length < 2 ^ 59)
    (h17 : ts.length ≤ 17) (rest : List UInt8) :
    decodeNode ((Item.list ts).encode ++ rest) =
      if ts.length = 2 then (decodeShort (Item.encodeList ts)).mapError (wrapError "short")
      else if ts.length = 17 then (decodeFull (Item.encodeList ts)).mapError (wrapError "full")
      else .error (.listElements ts.length) := by
  have hp : (Item.encodeList ts).length < 2 ^ 64 := by
    have := length_encodeList_le ts (B := 2 ^ 59) fun t ht => Nat.le_of_lt (hts t ht)
    have : ts.length * 2 ^ 59 ≤ 17 * 2 ^ 59 := Nat.mul_le_mul_right _ h17
    omega
  simp only [Item.encode]
  exact decodeNode_list hp rest (values_encodeList ts fun t ht => by have := hts t ht; omega)

theorem decodeNode_encode_pair {a b : Item} (ha : a.encode.length < 2 ^ 59)
    (hb : b.encode.length < 2 ^ 59) (rest : List UInt8) :
    decodeNode ((Item.list [a, b]).encode ++ rest) =
      (decodeShort (a.encode ++ b.encode)).mapError (wrapError "short") := by
  have hts : ∀ t ∈ [a, b], t.encode.length < 2 ^ 59 := by
    simp only [List.mem_cons, List.not_mem_nil, or_false, forall_eq_or_imp, forall_eq]
    exact ⟨ha, hb⟩
  rw [decodeNode_encode_list hts (by simp) rest, if_pos (by rfl)]
  simp [Item.encodeList]

theorem decodeNode_encode_ofFn {f : Fin 17 → Item} (hf : ∀ i, (f i).encode.length < 2 ^ 59)
    (rest : List UInt8) :
    decodeNode ((Item.list (List.ofFn f)).encode ++ rest) =
      (decodeFull (Item.encodeList (List.ofFn f))).mapError (wrapError "full") := by
  have hts : ∀ t ∈ List.ofFn f, t.encode.length < 2 ^ 59 := by
    intro t ht
    obtain ⟨i, rfl⟩ := List.mem_ofFn.1 ht
    exact hf i
  rw [decodeNode_encode_list hts (by simp) rest, List.length_ofFn, if_neg (by decide), if_pos rfl]

/-! ### The round trip -/

/-- The node `decodeNode` builds from a collapsed node: compact keys expanded to hex, and each
child kept whole expanded the same way. -/
def Node.expand : Node → Node
  | .short k c => .short (compactToHex k) c.expand
  | .full cs => .full fun i => (cs i).expand
  | n => n

/-- Every key and value of a node is shorter than `2 ^ 32` bytes; the RLP of a node then fits
the eight bytes of its size header. -/
def Node.Bounded : Node → Prop
  | .full cs => ∀ i, (cs i).Bounded
  | .short k c => k.length < 2 ^ 32 ∧ c.Bounded
  | .value v => v.length < 2 ^ 32
  | _ => True

section Hasher

variable (keccak : List UInt8 → List UInt8)

theorem Canon.store_hashChildren {n : Node} (h : Canon n) :
    store keccak (hashChildren keccak n) false =
      if (encodeNode (hashChildren keccak n)).length < 32 then hashChildren keccak n
      else .hash (keccak (encodeNode (hashChildren keccak n))) := by
  cases h <;> simp [store, hashChildren]

theorem Canon.item_hashChildren {n : Node} (h : Canon n) (x : Item) :
    (hashChildren keccak n).item x = (hashChildren keccak n).item (.list []) := by
  cases h <;> rfl

theorem Canon.encodeNode_hashChildren {n : Node} (h : Canon n) :
    ∃ ts, encodeNode (hashChildren keccak n) = (Item.list ts).encode := by
  cases h with
  | leaf => exact ⟨_, rfl⟩
  | ext => exact ⟨_, rfl⟩
  | branch => exact ⟨_, rfl⟩

variable {keccak} (hk : ∀ x, (keccak x).length = 32)
include hk

/-- The child the hasher stores for a canonical node takes at most 33 bytes: it is a hash, or
kept whole because it is shorter than one. -/
theorem Canon.length_store_le {n : Node} (h : Canon n) (x : Item) :
    ((store keccak (hashChildren keccak n) false).item x).encode.length ≤ 33 := by
  rw [h.store_hashChildren]
  split_ifs with hsmall
  · rw [h.item_hashChildren]
    exact le_trans (Nat.le_of_lt hsmall) (by omega)
  · simp only [Node.item, Item.encode, length_encodeBytes_of_length (hk _), List.length_cons, hk]
    omega

/-- `decodeRef` reads the child the hasher stores for a canonical node, given that the node's
own encoding decodes. -/
theorem Canon.decodeRef_store {n : Node} (h : Canon n)
    (ih : ∀ rest, decodeNode (encodeNode (hashChildren keccak n) ++ rest) =
      .ok (hashChildren keccak n).expand)
    (x : Item) (rest : List UInt8) :
    (decodeRef (((store keccak (hashChildren keccak n) false).item x).encode ++ rest)).map
      (fun p => (p.1, p.2.1)) = .ok ((store keccak (hashChildren keccak n) false).expand, rest) := by
  generalize hst : store keccak (hashChildren keccak n) false = st
  rw [h.store_hashChildren] at hst
  split_ifs at hst with hsmall
  · -- kept whole: an embedded list, read back by `decodeNode` itself
    subst hst
    rw [h.item_hashChildren]
    obtain ⟨ts, hts⟩ := h.encodeNode_hashChildren keccak
    have hlen : (Item.encodeList ts).length < 2 ^ 64 := by
      have : (Item.encodeList ts).length ≤ (encodeNode (hashChildren keccak n)).length := by
        rw [hts, Item.encode, List.length_append]
        omega
      omega
    have hs : split (encodeNode (hashChildren keccak n) ++ rest) =
        .ok (.list, Item.encodeList ts, rest) := by
      rw [hts, Item.encode]
      exact split_puthead_list hlen rest
    have hl : (encodeNode (hashChildren keccak n) ++ rest).length - rest.length ≤ hashLen := by
      rw [List.length_append, hashLen]
      omega
    change (decodeRef (encodeNode (hashChildren keccak n) ++ rest)).map _ = _
    rw [decodeRef_list hs hl, ih]
    rfl
  · subst hst
    exact decodeRef_encodeBytes_hash (hk _) rest

/-- The round trip, with any bytes after the node: `decodeNode` reads a collapsed canonical
node back with its keys expanded. By induction on the canonical form; a child kept whole is
read by the same induction, a hashed child as its hash. -/
theorem Canon.decodeNode_append {n : Node} (h : Canon n) (hb : n.Bounded) (rest : List UInt8) :
    decodeNode (encodeNode (hashChildren keccak n) ++ rest) = .ok (hashChildren keccak n).expand := by
  induction h generalizing rest with
  | @leaf k v hkey hv =>
    obtain ⟨hkb, hvb⟩ := hb
    change v.length < 2 ^ 32 at hvb
    have hck := length_compactKey_le k
    have h1 := length_encodeBytes_le (compactKey k)
    have h2 := length_encodeBytes_le v
    change decodeNode ((Item.list [.bytes (compactKey k), .bytes v]).encode ++ rest) =
      .ok (.short (compactToHex (compactKey k)) (.value v))
    rw [decodeNode_encode_pair (by simp only [Item.encode]; omega) (by simp only [Item.encode]; omega)]
    simp only [Item.encode]
    rw [decodeShort_eq (splitString_encodeBytes (b := compactKey k) (by omega) _),
      hkey.compactToHex_compactKey, if_pos hkey.hasTerm, ← List.append_nil (encodeBytes v),
      splitString_encodeBytes (by omega)]
    rfl
  | @ext ns cs hne hns hc ih =>
    obtain ⟨hnb, hcb⟩ := hb
    have hck := length_compactKey_le ns
    have h1 := length_encodeBytes_le (compactKey ns)
    have h2 := hc.length_store_le hk (.list [])
    have hd := hc.decodeRef_store hk (ih hcb) (.list []) []
    generalize hst : store keccak (hashChildren keccak (.full cs)) false = st at h2 hd
    have hsh : hashChildren keccak (.short ns (.full cs)) = .short (compactKey ns) st := by
      rw [← hst]
      rfl
    rw [hsh]
    change decodeNode ((Item.list [.bytes (compactKey ns), st.item (.list [])]).encode ++ rest) = _
    rw [decodeNode_encode_pair (by simp only [Item.encode]; omega) (by omega)]
    simp only [Item.encode]
    rw [decodeShort_eq (splitString_encodeBytes (b := compactKey ns) (by omega) _),
      hns.compactToHex_compactKey, if_neg (by rw [hns.hasTerm]; decide)]
    rw [List.append_nil] at hd
    obtain ⟨⟨r, rest'⟩, hr, hre⟩ := map_eq_ok hd
    simp only [Prod.mk.injEq] at hre
    rw [hr]
    change _ = Except.ok (Node.short (compactToHex (compactKey ns)) st.expand)
    rw [hns.compactToHex_compactKey, ← hre.1]
    rfl
  | @branch cs hcs hv htwo ih =>
    generalize hcs' : (fun i : Fin 17 => if i.val < 16 ∧ !(cs i).isNil then
      store keccak (hashChildren keccak (cs i)) false else cs i) = cs'
    have hsh : hashChildren keccak (.full cs) = .full cs' := by
      rw [← hcs']
      rfl
    -- the first sixteen children: nil, or the child the hasher stores
    have hslot : ∀ i : Fin 17, i.val < 16 → cs' i = .nil ∨
        (cs' i = store keccak (hashChildren keccak (cs i)) false ∧ Canon (cs i) ∧
          ∀ r, decodeNode (encodeNode (hashChildren keccak (cs i)) ++ r) =
            .ok (hashChildren keccak (cs i)).expand) := by
      intro i hi
      rw [← hcs']
      cases hnil : (cs i).isNil
      · exact .inr ⟨by simp [hi, hnil], hcs i hi hnil, ih i hi hnil (hb i)⟩
      · left
        simp only [hi, hnil, true_and, Bool.not_true, Bool.false_eq_true, if_false]
        exact eq_nil_of_isNil hnil
    have hchild : ∀ i : Fin 17, i.val < 16 → ((cs' i).item (.bytes [])).encode.length ≤ 33 := by
      intro i hi
      rcases hslot i hi with hnil | ⟨hst, hci, -⟩
      · rw [hnil]
        decide
      · rw [hst]
        exact hci.length_store_le hk _
    have href : ∀ i : Fin 17, i.val < 16 → ∀ r,
        (decodeRef (((cs' i).item (.bytes [])).encode ++ r)).map (fun p => (p.1, p.2.1)) =
          .ok ((cs' i).expand, r) := by
      intro i hi r
      rcases hslot i hi with hnil | ⟨hst, hci, hdec⟩
      · rw [hnil]
        exact decodeRef_encodeBytes_nil r
      · rw [hst]
        exact hci.decodeRef_store hk hdec _ r
    -- the last: the value, or the empty string
    have h16 : cs' (Fin.last 16) = cs 16 := by
      rw [← hcs']
      rfl
    obtain ⟨w, hwb, hitem, hexp⟩ : ∃ w : List UInt8, w.length < 2 ^ 32 ∧
        (cs' (Fin.last 16)).item (.bytes []) = .bytes w ∧
        (cs' (Fin.last 16)).expand = if 0 < w.length then .value w else .nil := by
      rw [h16]
      rcases hv with hnil | ⟨v, hvne, hval⟩
      · exact ⟨[], by simp, by rw [hnil]; rfl, by rw [hnil]; rfl⟩
      · have hvb : v.length < 2 ^ 32 := by
          have := hb 16
          rw [hval] at this
          exact this
        exact ⟨v, hvb, by rw [hval]; rfl, by rw [hval, if_pos (List.length_pos_iff.2 hvne)]; rfl⟩
    have hw9 := length_encodeBytes_le w
    have hall : ∀ i, ((cs' i).item (.bytes [])).encode.length < 2 ^ 59 := by
      intro i
      by_cases hi : i.val < 16
      · have := hchild i hi
        omega
      · have hl : i = Fin.last 16 := Fin.ext (by simp only [Fin.val_last]; omega)
        rw [hl, hitem]
        simp only [Item.encode]
        omega
    -- the sixteen references, then the value
    have hd : decodeChildren 0
        (Item.encodeList (List.ofFn fun i : Fin 16 => (cs' i.castSucc).item (.bytes [])) ++
          (Item.bytes w).encode) =
        .ok (List.ofFn fun i : Fin 16 => (cs' i.castSucc).expand, (Item.bytes w).encode) := by
      apply decodeChildren_encodeList _ (by simp)
      exact forall₂_ofFn fun i => href i.castSucc i.isLt
    have hsv : splitString (Item.bytes w).encode = .ok (w, []) := by
      have := splitString_encodeBytes (b := w) (by omega) []
      rwa [List.append_nil] at this
    rw [hsh]
    change decodeNode ((Item.list (List.ofFn fun i => (cs' i).item (.bytes []))).encode ++ rest) = _
    rw [decodeNode_encode_ofFn hall rest, encodeList_ofFn_succ, hitem, decodeFull_eq hd hsv]
    -- slot by slot, the decoded children are the expanded ones
    simp only [Except.mapError, Node.expand]
    congr 2
    funext i
    by_cases hi : i.val < 16
    · rw [if_pos hi, List.getD_eq_getElem _ _ (by simpa using hi), List.getElem_ofFn]
      rfl
    · have hl : i = Fin.last 16 := Fin.ext (by simp only [Fin.val_last]; omega)
      rw [if_neg hi, hl, hexp]

theorem decodeNode_encodeNode_hashChildren {n : Node} (h : Canon n) (hb : n.Bounded) :
    decodeNode (encodeNode (hashChildren keccak n)) = .ok (hashChildren keccak n).expand := by
  have hd := h.decodeNode_append hk hb []
  rwa [List.append_nil] at hd

end Hasher

theorem decodeNode_encodeNode_hashChildren_leaf :
    decodeNode (encodeNode (hashChildren (fun _ => List.replicate 32 0) (.short [1, 16] (.value [7])))) =
      .ok (hashChildren (fun _ => List.replicate 32 0) (.short [1, 16] (.value [7]))).expand :=
  decodeNode_encodeNode_hashChildren (by simp)
    (Canon.leaf ⟨[1], fun x hx => by simp only [List.mem_singleton] at hx; subst hx; decide, rfl⟩
      (by simp))
    (by simp [Node.Bounded])

end IntChain.Trie
