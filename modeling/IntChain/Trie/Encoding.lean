import Mathlib.Data.List.Basic

/-!
# The three encodings of a trie key

`trie/encoding.go`. A key is handled as its bytes (KEYBYTES), as one byte per nibble with an
optional terminator `16` marking a value node (HEX, used in memory), and in the compact form
of the Yellow Paper's hex-prefix encoding (COMPACT, used on disk): a flag nibble holding the
parity of the length and the terminator, a padding nibble or the first nibble, then the
remaining nibbles packed two to a byte.

`decodeNibbles` reads past the end of an odd number of nibbles, and `hexToKeybytes` panics on
one; a panic is `none`. The main results: `compactToHex` undoes `hexToCompact` on every nibble
string with or without the terminator, `hexToKeybytes` undoes `keybytesToHex`, and so
`hexToCompact` is injective on hex keys.
-/

namespace IntChain.Trie

/-- `hasTerm`: the key ends in the terminator. -/
def hasTerm (s : List UInt8) : Bool := s.getLast? == some 16

/-- `decodeNibbles`: two nibbles to a byte, high nibble first. -/
def decodeNibbles : List UInt8 → Option (List UInt8)
  | [] => some []
  -- the loop reads the missing partner of a last odd nibble
  | [_] => none
  | hi :: lo :: rest => (decodeNibbles rest).map ((hi <<< 4 ||| lo) :: ·)

/-- `hexToCompact`: the flag byte holds the terminator bit and the odd bit, and an odd key's
first nibble. -/
def hexToCompact (hex : List UInt8) : Option (List UInt8) :=
  let terminator : UInt8 := if hasTerm hex then 1 else 0
  let hex := if hasTerm hex then hex.dropLast else hex
  if hex.length % 2 = 1 then
    match hex with
    | first :: rest => (decodeNibbles rest).map ((terminator <<< 5 ||| (1 : UInt8) <<< 4 ||| first) :: ·)
    | [] => none
  else (decodeNibbles hex).map ((terminator <<< 5) :: ·)

/-- `keybytesToHex`: the nibbles of each byte and the terminator. -/
def keybytesToHex (str : List UInt8) : List UInt8 :=
  str.flatMap (fun b => [b / 16, b % 16]) ++ [16]

/-- `compactToHex`: expand to nibbles, drop the terminator unless the flag has it, and drop the
flag nibble and, for an even key, the padding nibble. -/
def compactToHex (compact : List UInt8) : List UInt8 :=
  if compact = [] then compact
  else
    let base := keybytesToHex compact
    let flag := base.headD 0
    let base := if flag < 2 then base.dropLast else base
    base.drop (2 - (flag &&& 1)).toNat

/-- `hexToKeybytes`, which panics on an odd number of nibbles. -/
def hexToKeybytes (hex : List UInt8) : Option (List UInt8) :=
  let hex := if hasTerm hex then hex.dropLast else hex
  if hex.length % 2 ≠ 0 then none
  else decodeNibbles hex

/-- A hex key: nibbles, with the terminator when `term` holds. -/
def hexKey (nibbles : List UInt8) (term : Bool) : List UInt8 :=
  if term then nibbles ++ [16] else nibbles

/-! ### Bytes and nibbles -/

/-- A fact about every byte, from the 256 of them. -/
theorem forall_uint8 {P : UInt8 → Prop} (h : ∀ b : Fin 256, P b.val.toUInt8) (b : UInt8) : P b := by
  have hb := h ⟨b.toNat, b.toNat_lt⟩
  simpa using hb

/-- A fact about every nibble, from the 16 of them. -/
theorem forall_nibble {P : UInt8 → Prop} (h : ∀ n : Fin 16, P n.val.toUInt8) {n : UInt8}
    (hn : n < 16) : P n := by
  have hn' : n.toNat < 16 := hn
  have h' := h ⟨n.toNat, hn'⟩
  simpa using h'

theorem join_nibbles {hi lo : UInt8} (hhi : hi < 16) (hlo : lo < 16) :
    (hi <<< 4 ||| lo) / 16 = hi ∧ (hi <<< 4 ||| lo) % 16 = lo := by
  revert hi
  apply forall_nibble
  intro hi
  revert lo
  apply forall_nibble
  intro lo
  revert hi lo
  decide

theorem split_nibbles (b : UInt8) : (b / 16) <<< 4 ||| b % 16 = b := by
  revert b
  apply forall_uint8
  decide +kernel

theorem div_lt_sixteen (b : UInt8) : b / 16 < 16 := by
  revert b
  apply forall_uint8
  decide +kernel

theorem mod_lt_sixteen (b : UInt8) : b % 16 < 16 := by
  revert b
  apply forall_uint8
  decide +kernel

/-- The flag byte of an odd key: its high nibble is the flag, its low nibble the first nibble. -/
theorem flag_nibbles {first : UInt8} (h : first < 16) (term : Bool) :
    ((if term then 1 else 0 : UInt8) <<< 5 ||| (1 : UInt8) <<< 4 ||| first) / 16 =
        (if term then 3 else 1) ∧
      ((if term then 1 else 0 : UInt8) <<< 5 ||| (1 : UInt8) <<< 4 ||| first) % 16 = first := by
  revert first
  apply forall_nibble
  intro first
  cases term <;> revert first <;> decide

/-- The nibbles of some bytes, without the terminator. -/
def nibblesOf (bs : List UInt8) : List UInt8 := bs.flatMap fun b => [b / 16, b % 16]

theorem keybytesToHex_eq (bs : List UInt8) : keybytesToHex bs = nibblesOf bs ++ [16] := rfl

@[simp] theorem nibblesOf_cons (b : UInt8) (bs : List UInt8) :
    nibblesOf (b :: bs) = b / 16 :: b % 16 :: nibblesOf bs := rfl

theorem length_nibblesOf (bs : List UInt8) : (nibblesOf bs).length = 2 * bs.length := by
  induction bs with
  | nil => rfl
  | cons b bs ih =>
    rw [nibblesOf_cons, List.length_cons, List.length_cons, ih, List.length_cons]
    omega

theorem decodeNibbles_nibblesOf (bs : List UInt8) : decodeNibbles (nibblesOf bs) = some bs := by
  induction bs with
  | nil => rfl
  | cons b bs ih => rw [nibblesOf_cons, decodeNibbles, ih, Option.map_some, split_nibbles]

/-- An even number of nibbles packs into bytes whose nibbles they are. -/
theorem decodeNibbles_of_even {ns : List UInt8} (hns : ∀ n ∈ ns, n < 16) (he : ns.length % 2 = 0) :
    ∃ bs, decodeNibbles ns = some bs ∧ nibblesOf bs = ns := by
  induction ns using decodeNibbles.induct with
  | case1 => exact ⟨[], rfl, rfl⟩
  | case2 n =>
    simp at he
  | case3 hi lo rest ih =>
    have hhi := hns hi (by simp)
    have hlo := hns lo (by simp)
    have he' : rest.length % 2 = 0 := by
      simp only [List.length_cons] at he
      omega
    obtain ⟨bs, hbs, hn⟩ := ih (fun n hn => hns n (by simp [hn])) he'
    refine ⟨(hi <<< 4 ||| lo) :: bs, by rw [decodeNibbles, hbs, Option.map_some], ?_⟩
    rw [nibblesOf_cons, hn, (join_nibbles hhi hlo).1, (join_nibbles hhi hlo).2]

/-- An even number of nibbles always packs. -/
theorem decodeNibbles_isSome {ns : List UInt8} (he : ns.length % 2 = 0) :
    (decodeNibbles ns).isSome := by
  induction ns using decodeNibbles.induct with
  | case1 => rfl
  | case2 n =>
    simp at he
  | case3 hi lo rest ih =>
    have he' : rest.length % 2 = 0 := by
      simp only [List.length_cons] at he
      omega
    rw [decodeNibbles, Option.isSome_map]
    exact ih he'

/-- `hexToCompact` never panics: the nibbles left after the flag byte are even in number. -/
theorem hexToCompact_isSome (hex : List UInt8) : (hexToCompact hex).isSome := by
  unfold hexToCompact
  dsimp only
  generalize (if hasTerm hex = true then hex.dropLast else hex) = h
  by_cases hodd : h.length % 2 = 1
  · rw [if_pos hodd]
    cases h with
    | nil => simp at hodd
    | cons first rest =>
      have hrest : rest.length % 2 = 0 := by
        simp only [List.length_cons] at hodd
        omega
      dsimp only
      rw [Option.isSome_map]
      exact decodeNibbles_isSome hrest
  · rw [if_neg hodd, Option.isSome_map]
    exact decodeNibbles_isSome (by omega)

/-! ### Hex keys -/

theorem hasTerm_hexKey {ns : List UInt8} (hns : ∀ n ∈ ns, n < 16) (term : Bool) :
    hasTerm (hexKey ns term) = term := by
  cases term with
  | true => simp [hasTerm, hexKey]
  | false =>
    -- the last nibble is below the terminator
    cases hl : ns.getLast? with
    | none => simp [hasTerm, hexKey, hl]
    | some n =>
      have hn : n < 16 := hns n (List.mem_of_getLast? hl)
      have hne : n ≠ 16 := by
        rintro rfl
        exact absurd hn (by decide)
      simp [hasTerm, hexKey, hl, hne]

theorem dropLast_hexKey (ns : List UInt8) (term : Bool) :
    (if term = true then (hexKey ns term).dropLast else hexKey ns term) = ns := by
  cases term <;> simp [hexKey]

/-- The compact form of a hex key: the flag byte, then the packed nibbles. -/
theorem hexToCompact_hexKey {ns : List UInt8} (hns : ∀ n ∈ ns, n < 16) (term : Bool) :
    ∃ flag bs, hexToCompact (hexKey ns term) = some (flag :: bs) ∧
      (ns.length % 2 = 0 → flag = (if term then 1 else 0 : UInt8) <<< 5 ∧ nibblesOf bs = ns) ∧
      (ns.length % 2 = 1 → ∃ first rest, ns = first :: rest ∧
        flag = (if term then 1 else 0 : UInt8) <<< 5 ||| (1 : UInt8) <<< 4 ||| first ∧
          nibblesOf bs = rest) := by
  unfold hexToCompact
  simp only [hasTerm_hexKey hns]
  rw [dropLast_hexKey]
  by_cases hodd : ns.length % 2 = 1
  · rw [if_pos hodd]
    -- an odd key keeps its first nibble in the flag byte
    obtain ⟨first, rest, rfl⟩ : ∃ first rest, ns = first :: rest := by
      cases ns with
      | nil => simp at hodd
      | cons first rest => exact ⟨first, rest, rfl⟩
    have hrest : rest.length % 2 = 0 := by
      simp only [List.length_cons] at hodd
      omega
    obtain ⟨bs, hbs, hn⟩ := decodeNibbles_of_even (fun n hn => hns n (by simp [hn])) hrest
    refine ⟨_, bs, ?_, fun h => by omega, fun _ => ⟨first, rest, rfl, rfl, hn⟩⟩
    dsimp only
    rw [hbs, Option.map_some]
  · rw [if_neg hodd]
    have heven : ns.length % 2 = 0 := by omega
    obtain ⟨bs, hbs, hn⟩ := decodeNibbles_of_even hns heven
    exact ⟨_, bs, by rw [hbs, Option.map_some], fun _ => ⟨rfl, hn⟩, fun h => by omega⟩

/-- Expanding a compact key whose flag byte has high nibble `hi` and low nibble `lo`. -/
theorem compactToHex_cons {flag hi lo : UInt8} (bs : List UInt8) (hhi : flag / 16 = hi)
    (hlo : flag % 16 = lo) :
    compactToHex (flag :: bs) =
      (if hi < 2 then hi :: lo :: nibblesOf bs else hi :: lo :: nibblesOf bs ++ [16]).drop
        (2 - (hi &&& 1)).toNat := by
  simp only [compactToHex, reduceCtorEq, if_false, keybytesToHex_eq, nibblesOf_cons, hhi, hlo,
    List.cons_append, List.headD_cons]
  split_ifs
  · rw [← List.cons_append, ← List.cons_append, List.dropLast_concat]
  · rfl

theorem compactToHex_hexToCompact {ns : List UInt8} (hns : ∀ n ∈ ns, n < 16) (term : Bool) :
    (hexToCompact (hexKey ns term)).map compactToHex = some (hexKey ns term) := by
  obtain ⟨flag, bs, hc, heven, hodd⟩ := hexToCompact_hexKey hns term
  rw [hc, Option.map_some]
  congr 1
  rcases Nat.mod_two_eq_zero_or_one ns.length with h | h
  · -- even: the flag nibble and a padding nibble are dropped
    obtain ⟨hflag, hn⟩ := heven h
    cases term with
    | false =>
      have hhi : flag / 16 = 0 := by
        rw [hflag]
        decide
      have hlo : flag % 16 = 0 := by
        rw [hflag]
        decide
      rw [compactToHex_cons bs hhi hlo, hn, if_pos (by decide)]
      rfl
    | true =>
      have hhi : flag / 16 = 2 := by
        rw [hflag]
        decide
      have hlo : flag % 16 = 0 := by
        rw [hflag]
        decide
      rw [compactToHex_cons bs hhi hlo, hn, if_neg (by decide)]
      rfl
  · -- odd: only the flag nibble is dropped
    obtain ⟨first, rest, rfl, rfl, hn⟩ := hodd h
    have hfirst : first < 16 := hns first (by simp)
    cases term with
    | false =>
      rw [compactToHex_cons bs (flag_nibbles hfirst false).1 (flag_nibbles hfirst false).2, hn]
      rfl
    | true =>
      rw [compactToHex_cons bs (flag_nibbles hfirst true).1 (flag_nibbles hfirst true).2, hn]
      rfl

theorem hexToKeybytes_keybytesToHex (k : List UInt8) : hexToKeybytes (keybytesToHex k) = some k := by
  have hterm : hasTerm (nibblesOf k ++ [16]) = true := by simp [hasTerm]
  unfold hexToKeybytes
  rw [keybytesToHex_eq, hterm, if_pos rfl, List.dropLast_concat]
  dsimp only
  rw [length_nibblesOf, if_neg (by omega), decodeNibbles_nibblesOf]

/-- The encodings are inverse: compact keys expand back to the hex key, hex keys of key bytes
pack back to the bytes, and so two different hex keys, terminator included, never get the same
compact form. -/
theorem trie_key_encodings_inverse :
    (∀ (ns : List UInt8) (term : Bool), (∀ n ∈ ns, n < 16) →
      (hexToCompact (hexKey ns term)).map compactToHex = some (hexKey ns term)) ∧
    (∀ k : List UInt8, hexToKeybytes (keybytesToHex k) = some k) ∧
    (∀ (ns ns' : List UInt8) (term term' : Bool), (∀ n ∈ ns, n < 16) → (∀ n ∈ ns', n < 16) →
      hexToCompact (hexKey ns term) = hexToCompact (hexKey ns' term') →
      hexKey ns term = hexKey ns' term') := by
  refine ⟨fun ns term hns => compactToHex_hexToCompact hns term, hexToKeybytes_keybytesToHex,
    fun ns ns' term term' hns hns' h => ?_⟩
  have h₁ := compactToHex_hexToCompact hns term
  have h₂ := compactToHex_hexToCompact hns' term'
  rw [h] at h₁
  exact Option.some.inj (h₁.symm.trans h₂)

theorem trie_key_encodings_inverse_odd_terminated :
    (∀ n ∈ ([1, 2, 3] : List UInt8), n < 16) ∧
      (hexToCompact (hexKey [1, 2, 3] true)).map compactToHex = some (hexKey [1, 2, 3] true) :=
  ⟨by simp, trie_key_encodings_inverse.1 [1, 2, 3] true (by simp)⟩

end IntChain.Trie
