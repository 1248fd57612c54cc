import IntChain.Rlp.Stream

/-!
# Decoding items

`decodeInterface` decodes into an `interface{}`: a string becomes a `[]byte` and a list a
`[]interface{}` of its items, which is `Item`. `decodeListSlice` enters a list and
`decodeSliceElems` reads its elements until `EOL`. The element loop runs on fuel; `DecodeBytes`
gives it one unit more than the input has bytes, and every element read takes at least one byte.

`decodeInterface_encode` reads an item back from its encoding in any stream whose lists and
limit have room for it, and leaves the stream past the encoding; `decodeBytes_encode` is the
case of `DecodeBytes`.
-/

namespace IntChain
namespace Rlp

/-- `decodeSliceElems`: elements until one reports `EOL`. -/
def decodeSliceElems {α : Type} (elemdec : StreamM α) : Nat → StreamM (List α)
  | 0 => throw .outOfFuel
  | fuel + 1 => fun s =>
    match elemdec s with
    | .ok v s =>
      match decodeSliceElems elemdec fuel s with
      | .ok vs s => .ok (v :: vs) s
      | .error e s => .error e s
    | .error .eol s => .ok [] s
    | .error e s => .error e s

/-- `decodeListSlice`. -/
def decodeListSlice {α : Type} (elemdec : StreamM α) (fuel : Nat) : StreamM (List α) := do
  let size ← Stream.list
  if size = 0 then
    Stream.listEnd
    pure []
  else
    let vs ← decodeSliceElems elemdec fuel
    Stream.listEnd
    pure vs

/-- `decodeInterface`: a list becomes the `[]interface{}` of its items, a string its bytes. -/
def decodeInterface : Nat → StreamM Item
  | 0 => throw .outOfFuel
  | fuel + 1 => do
    let (k, _) ← Stream.kind
    if k = .list then
      let items ← decodeListSlice (decodeInterface fuel) fuel
      pure (.list items)
    else
      let b ← Stream.bytes
      pure (.bytes b)

/-- `DecodeBytes` into an `interface{}`: one value and no byte after it. -/
def decodeBytes (b : List UInt8) : Except DecodeError Item :=
  match decodeInterface (b.length + 1) (Stream.ofBytes b) with
  | .ok t s => if s.r.isEmpty then .ok t else .error .moreThanOneValue
  | .error e _ => .error e

section Loops

variable {α : Type} {elemdec : StreamM α} {s s₁ s₂ s₃ : Stream}

theorem decodeSliceElems_succ_ok {fuel : Nat} {v : α} {vs : List α} (hv : elemdec s = .ok v s₁)
    (hr : decodeSliceElems elemdec fuel s₁ = .ok vs s₂) :
    decodeSliceElems elemdec (fuel + 1) s = .ok (v :: vs) s₂ := by
  simp only [decodeSliceElems, hv, hr]

theorem decodeSliceElems_succ_eol {fuel : Nat} (hv : elemdec s = .error .eol s₁) :
    decodeSliceElems elemdec (fuel + 1) s = .ok [] s₁ := by
  simp only [decodeSliceElems, hv]

theorem decodeListSlice_zero {fuel size : Nat} (hl : Stream.list s = .ok size s₁) (hsize : size = 0)
    (he : Stream.listEnd s₁ = .ok () s₂) : decodeListSlice elemdec fuel s = .ok [] s₂ := by
  simp only [decodeListSlice]
  rw [EStateM.bind_of_ok _ hl, if_pos hsize, EStateM.bind_of_ok _ he]
  rfl

theorem decodeListSlice_pos {fuel size : Nat} {vs : List α} (hl : Stream.list s = .ok size s₁)
    (hsize : size ≠ 0) (hv : decodeSliceElems elemdec fuel s₁ = .ok vs s₂)
    (he : Stream.listEnd s₂ = .ok () s₃) : decodeListSlice elemdec fuel s = .ok vs s₃ := by
  simp only [decodeListSlice]
  rw [EStateM.bind_of_ok _ hl, if_neg hsize, EStateM.bind_of_ok _ hv, EStateM.bind_of_ok _ he]
  rfl

end Loops

theorem decodeInterface_succ_list {f m : Nat} {items : List Item} {s s₁ s₂ : Stream}
    (hk : Stream.kind s = .ok (.list, m) s₁)
    (hl : decodeListSlice (decodeInterface f) f s₁ = .ok items s₂) :
    decodeInterface (f + 1) s = .ok (.list items) s₂ := by
  simp only [decodeInterface]
  rw [EStateM.bind_of_ok _ hk]
  simp only [if_true]
  rw [EStateM.bind_of_ok _ hl]
  rfl

theorem decodeInterface_succ_bytes {f size : Nat} {k : Kind} {b : List UInt8} {s s₁ s₂ : Stream}
    (hk : Stream.kind s = .ok (k, size) s₁) (hne : k ≠ .list) (hb : Stream.bytes s = .ok b s₂) :
    decodeInterface (f + 1) s = .ok (.bytes b) s₂ := by
  simp only [decodeInterface]
  rw [EStateM.bind_of_ok _ hk]
  simp only [hne, if_false]
  rw [EStateM.bind_of_ok _ ((Stream.bytes_again hk).trans hb)]
  rfl

theorem decodeInterface_eol {f : Nat} {s s₁ : Stream} (hk : Stream.kind s = .error .eol s₁) :
    decodeInterface (f + 1) s = .error .eol s₁ := by
  simp only [decodeInterface]
  rw [EStateM.bind_of_error _ hk]

theorem decodeSliceElems_of_fixed {α : Type} {elemdec : StreamM α} {s : Stream} {v : α}
    (hfix : elemdec s = .ok v s) : ∀ fuel, decodeSliceElems elemdec fuel s = .error .outOfFuel s
  | 0 => rfl
  | fuel + 1 => by
    simp only [decodeSliceElems, hfix, decodeSliceElems_of_fixed hfix fuel]

theorem decodeListSlice_of_error {α : Type} {elemdec : StreamM α} {fuel size : Nat}
    {s s₁ s₂ : Stream} {e : DecodeError} (hl : Stream.list s = .ok size s₁) (hsize : size ≠ 0)
    (hv : decodeSliceElems elemdec fuel s₁ = .error e s₂) :
    decodeListSlice elemdec fuel s = .error e s₂ := by
  simp only [decodeListSlice]
  rw [EStateM.bind_of_ok _ hl, if_neg hsize, EStateM.bind_of_error _ hv]

mutual
/-- An item read back from its encoding, from any stream whose lists and limit have room for it:
the decoder returns the item and stands past its encoding. -/
theorem decodeInterface_encode : ∀ (t : Item) (fuel : Nat) (s : Stream) (rest : List UInt8),
    t.encode.length < 2 ^ 64 → t.encode.length < fuel → s.kindAhead = none →
    s.r = t.encode ++ rest → s.Fits t.encode.length →
    ∃ s', decodeInterface fuel s = .ok t s' ∧ s'.Past s t.encode.length rest
  | .bytes b, fuel, s, rest, hb, hfuel, ha, hr, hf => by
    obtain ⟨f, rfl⟩ : ∃ f, fuel = f + 1 :=
      ⟨fuel - 1, by have := encode_length_pos (.bytes b); omega⟩
    rw [encode_bytes] at hb hfuel hr hf ⊢
    obtain ⟨s', hbytes, hpast⟩ :=
      Stream.bytes_encodeBytes ha ((length_encodeBytes b).trans_lt hb) hr hf
    obtain ⟨k, size, s₁, hk, hne⟩ := Stream.kind_of_bytes_ok hbytes
    exact ⟨s', decodeInterface_succ_bytes hk hne hbytes, hpast⟩
  | .list items, fuel, s, rest, hb, hfuel, ha, hr, hf => by
    obtain ⟨f, rfl⟩ : ∃ f, fuel = f + 1 :=
      ⟨fuel - 1, by have := encode_length_pos (.list items); omega⟩
    rw [encode_list] at hb hfuel hr hf ⊢
    rw [List.length_append, length_puthead] at hb hfuel hf ⊢
    rw [List.append_assoc] at hr
    generalize hm_def : (Item.encodeList items).length = m at hb hfuel hr hf ⊢
    have hk := Stream.kind_puthead (Or.inr rfl) ha (by omega) hr hf
    have hl := (Stream.list_again hk).trans (Stream.list_puthead ha (by omega) hr hf)
    set s₂ : Stream := { s.charge (headsize m) with
        r := Item.encodeList items ++ rest, byteval := 0, kinderr := none, size := 0,
        stack := ⟨0, m⟩ :: (s.charge (headsize m)).stack } with hs₂
    have hh := headsize_pos m
    by_cases hm : m = 0
    · -- an empty list is ended at once
      have hnil := eq_nil_of_encodeList_eq_nil (hm_def.trans hm)
      subst hnil
      have hdec := decodeInterface_succ_list (f := f) hk
        (decodeListSlice_zero hl hm (Stream.listEnd_ok rfl (by simp [hm])))
      refine ⟨_, hdec, ?_, rfl, ?_, rfl, ?_⟩
      · simp [hs₂, Item.encodeList]
      · cases hlim : s.limited <;> simp [hs₂, Stream.charge, hlim, hm]
      · simp [Stream.charge, Stream.chargeTop_chargeTop, hm]
    · -- the items, then the end of the list
      obtain ⟨s₃, hel, hp⟩ := decodeSliceElems_encodeList items f f s₂ rest ⟨0, m⟩
        (s.charge (headsize m)).stack (by omega) (by omega)
        (by have := length_le_encodeList items; omega) rfl rfl rfl (by simp [hm_def])
        (fun hlim => by
          have hlim' : s.limited = true := hlim
          have := hf.2 hlim'
          simp only [hs₂, Stream.charge, hlim', if_true, hm_def]
          omega)
      rw [hm_def] at hp
      have he := Stream.listEnd_ok (by rw [hp.stack_eq]; rfl) (by simp)
      refine ⟨_, decodeInterface_succ_list hk (decodeListSlice_pos hl hm hel he), hp.r_eq, rfl, ?_,
        hp.limited_eq, ?_⟩
      · rw [hp.remaining_eq]
        cases hlim : s.limited <;> simp [hs₂, Stream.charge, hlim, Nat.sub_sub]
      · simp [Stream.charge, Stream.chargeTop_chargeTop]

theorem decodeSliceElems_encodeList : ∀ (ts : List Item) (f fuel : Nat) (s : Stream)
    (rest : List UInt8) (tos : ListPos) (up : List ListPos),
    (Item.encodeList ts).length < 2 ^ 64 → (Item.encodeList ts).length < f → ts.length < fuel →
    s.kindAhead = none → s.r = Item.encodeList ts ++ rest → s.stack = tos :: up →
    tos.pos + (Item.encodeList ts).length = tos.size →
    (s.limited = true → (Item.encodeList ts).length ≤ s.remaining) →
    ∃ s', decodeSliceElems (decodeInterface f) fuel s = .ok ts s' ∧
      s'.Past s (Item.encodeList ts).length rest
  | [], f, fuel, s, rest, tos, up, hb, hf, hfuel, ha, hr, hs, hpos, hrem => by
    obtain ⟨fuel, rfl⟩ : ∃ k, fuel = k + 1 := ⟨fuel - 1, by simp at hfuel; omega⟩
    obtain ⟨f, rfl⟩ : ∃ k, f = k + 1 := ⟨f - 1, by simp [Item.encodeList] at hf; omega⟩
    simp only [Item.encodeList, List.length_nil, Nat.add_zero] at hr hpos ⊢
    -- the innermost list is read to its end
    have heol := Stream.kind_eol ha (by simp [hs, hpos])
    refine ⟨_, decodeSliceElems_succ_eol (decodeInterface_eol heol), hr, ha, ?_, rfl, ?_⟩
    · cases hl : s.limited <;> simp [Stream.charge, hl]
    · cases hst : s.stack <;> simp [Stream.charge, Stream.chargeTop, hst]
  | t :: ts, f, fuel, s, rest, tos, up, hb, hf, hfuel, ha, hr, hs, hpos, hrem => by
    obtain ⟨fuel, rfl⟩ : ∃ k, fuel = k + 1 := ⟨fuel - 1, by simp at hfuel; omega⟩
    rw [encodeList_cons, List.length_append] at hb hf hpos hrem ⊢
    rw [encodeList_cons, List.append_assoc] at hr
    have hft : s.Fits t.encode.length :=
      ⟨fun tos' htos => by simp [hs] at htos; subst htos; omega, fun hl => by have := hrem hl; omega⟩
    obtain ⟨s₁, h₁, hp₁⟩ := decodeInterface_encode t f s _ (by omega) (by omega) ha hr hft
    obtain ⟨s₂, h₂, hp₂⟩ := decodeSliceElems_encodeList ts f fuel s₁ rest
      { tos with pos := tos.pos + t.encode.length } up (by omega) (by omega)
      (by simp at hfuel; omega) hp₁.armed hp₁.r_eq (by rw [hp₁.stack_eq]; simp [Stream.charge, Stream.chargeTop, hs])
      (by simp only; omega)
      (fun hl => by
        rw [hp₁.limited_eq] at hl
        have := hrem hl
        rw [hp₁.remaining_eq]
        simp only [Stream.charge, hl, if_true]
        omega)
    exact ⟨s₂, decodeSliceElems_succ_ok h₁ h₂, hp₁.trans hp₂⟩
end

/-- `DecodeBytes` of an item's encoding gives the item back. -/
theorem decodeBytes_encode (t : Item) (hb : t.encode.length < 2 ^ 64) :
    decodeBytes t.encode = .ok t := by
  obtain ⟨s', hdec, hp⟩ := decodeInterface_encode t (t.encode.length + 1) (Stream.ofBytes t.encode) []
    hb (Nat.lt_succ_self _) rfl (by simp [Stream.ofBytes])
    ⟨fun _ h => by simp [Stream.ofBytes] at h, fun _ => Nat.le_refl _⟩
  simp [decodeBytes, hdec, hp.r_eq]

theorem decodeBytes_encode_nested :
    (Item.list [.bytes [0x80], .list [], .bytes []]).encode.length < 2 ^ 64 ∧
      decodeBytes (Item.list [.bytes [0x80], .list [], .bytes []]).encode =
        .ok (.list [.bytes [0x80], .list [], .bytes []]) :=
  ⟨by decide, decodeBytes_encode _ (by decide)⟩

end Rlp
end IntChain
