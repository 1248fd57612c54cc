import IntChain.Rlp.Stream
import IntChain.Lib.Run
import IntChain.Lib.EStateM

/-!
# Splitting raw RLP

`rlp/raw.go` reads headers from a byte slice, apart from the `Stream` of `decode.go`:
`Split` returns the kind and the content of the first value and the bytes after it, and
`CountValues` the number of values in a row. Both rest on a `readKind` of their own.

`ValueAt b k c rest` is the grammar both parsers implement: `b` is a value of kind `k` with
content `c`, then `rest`. The value is a byte below `0x80` alone, or the canonical header of a
string or a list of `c.length` bytes, then `c`. `Split` accepts exactly these values except a
string of one byte below `0x80`, whose canonical encoding is that byte alone
(`split_eq_ok_iff`).
-/

namespace IntChain
namespace Rlp

/-- `b` starts with a value of kind `k` whose content is `c`, and `rest` follows it. -/
def ValueAt (b : List UInt8) (k : Kind) (c rest : List UInt8) : Prop :=
  match k with
  | .byte => ∃ x, x < 0x80 ∧ c = [x] ∧ b = x :: rest
  | .string => c.length < 2 ^ 64 ∧ b = puthead 0x80 0xB7 c.length ++ c ++ rest
  | .list => c.length < 2 ^ 64 ∧ b = puthead 0xC0 0xF7 c.length ++ c ++ rest

/-- A string of one byte below `0x80`, which has a shorter encoding: the byte alone. -/
def WrappedByte (k : Kind) (c : List UInt8) : Prop := k = .string ∧ ∃ x, c = [x] ∧ x < 0x80

/-- `readSize`: a size of `slen` bytes, at least 56 and with no leading zero byte. -/
def readSize (b : List UInt8) (slen : Nat) : Except DecodeError Nat :=
  if b.length < slen then .error .unexpectedEOF
  else
    -- the cases of the source's switch read the `slen` bytes big-endian
    let s := BigEndian.ofBE (b.take slen)
    if s < 56 ∨ b.head? = some 0 then .error .canonSize else .ok s

/-- `readKind` of `raw.go`: the kind, the size of the header and the size of the content. -/
def readKind (buf : List UInt8) : Except DecodeError (Kind × Nat × Nat) :=
  match buf with
  | [] => .error .unexpectedEOF
  | b :: rest =>
    let head : Except DecodeError (Kind × Nat × Nat) :=
      if b < 0x80 then .ok (.byte, 0, 1)
      else if b < 0xB8 then
        -- reject strings that should have been single bytes
        if (b - 0x80).toNat = 1 ∧ rest.head?.any (· < 128) then .error .canonSize
        else .ok (.string, 1, (b - 0x80).toNat)
      else if b < 0xC0 then
        (readSize rest (b - 0xB7).toNat).map fun s => (.string, (b - 0xB7).toNat + 1, s)
      else if b < 0xF8 then .ok (.list, 1, (b - 0xC0).toNat)
      else (readSize rest (b - 0xF7).toNat).map fun s => (.list, (b - 0xF7).toNat + 1, s)
    head.bind fun (k, tagsize, contentsize) =>
      -- reject values larger than the input slice
      if buf.length - tagsize < contentsize then .error .valueTooLarge
      else .ok (k, tagsize, contentsize)

/-- `Split`: the kind and the content of the first value, and the bytes after it. -/
def split (b : List UInt8) : Except DecodeError (Kind × List UInt8 × List UInt8) :=
  (readKind b).map fun (k, ts, cs) => (k, (b.drop ts).take cs, b.drop (ts + cs))

/-! ### The bytes of a header -/

theorem toNat_tag_add {tag : UInt8} {n : Nat} (h : tag.toNat + n < 256) :
    (tag + UInt8.ofNat n).toNat = tag.toNat + n := by
  rw [UInt8.toNat_add, UInt8.toNat_ofNat', Nat.add_mod_mod]
  exact Nat.mod_eq_of_lt h

theorem toNat_tag_add_sub (tag : UInt8) {n : Nat} (h : n < 256) :
    (tag + UInt8.ofNat n - tag).toNat = n := by
  rw [show tag + UInt8.ofNat n - tag = UInt8.ofNat n by grind]
  exact UInt8.toNat_ofNat_of_lt' (by rw [UInt8.size]; omega)

/-- A header byte is its tag plus what it holds. -/
theorem tag_add_sub (tag x : UInt8) : tag + UInt8.ofNat (x - tag).toNat = x := by
  rw [UInt8.ofNat_toNat]
  grind

/-- A short header is the one byte that holds the size. -/
theorem puthead_of_lt {tag large x : UInt8} (h : (x - tag).toNat < 56) :
    puthead tag large (x - tag).toNat = [x] := by
  rw [puthead, if_pos h, tag_add_sub]

/-- A long header is the tag with the length of the size, then the size without leading
zeros. -/
theorem puthead_ofBE {tag large : UInt8} {l : List UInt8} (hne : l ≠ []) (hl : l.length ≤ 8)
    (hhead : l.head? ≠ some 0) (h56 : 56 ≤ BigEndian.ofBE l) :
    puthead tag large (BigEndian.ofBE l) = (large + UInt8.ofNat l.length) :: l := by
  have hput : putint (BigEndian.ofBE l) = l := BigEndian.beBytes_ofBE hne hl fun _ => hhead
  rw [puthead, if_neg (by omega), hput]

theorem readSize_putint {n : Nat} (h56 : 56 ≤ n) (hn : n < 2 ^ 64) (rest : List UInt8) :
    readSize (putint n ++ rest) (intsize n) = .ok n := by
  have hlen : (putint n).length = intsize n := length_putint n
  have hval : BigEndian.ofBE (putint n) = n := BigEndian.ofBE_beBytes (by norm_num; omega)
  have hhead : (putint n).head? ≠ some 0 :=
    BigEndian.head_beBytes_ne_zero (by omega) (by norm_num; omega)
  have hpos : 0 < intsize n := BigEndian.byteLength_pos (by norm_num) n
  have hhead' : (putint n ++ rest).head? ≠ some 0 := by
    cases hp : putint n with
    | nil =>
      rw [hp, List.length_nil] at hlen
      omega
    | cons d l =>
      rw [hp] at hhead
      simpa using hhead
  rw [readSize, if_neg (by simp [hlen]), List.take_left' hlen, hval,
    if_neg (not_or.2 ⟨by omega, hhead'⟩)]

theorem readSize_eq_ok {b : List UInt8} {slen s : Nat} (h : readSize b slen = .ok s) :
    slen ≤ b.length ∧ s = BigEndian.ofBE (b.take slen) ∧ 56 ≤ s ∧ b.head? ≠ some 0 := by
  unfold readSize at h
  by_cases hlen : b.length < slen
  · rw [if_pos hlen] at h
    cases h
  · rw [if_neg hlen] at h
    dsimp only at h
    by_cases hcanon : BigEndian.ofBE (b.take slen) < 56 ∨ b.head? = some 0
    · rw [if_pos hcanon] at h
      cases h
    · rw [if_neg hcanon] at h
      injection h with h
      subst h
      exact ⟨by omega, rfl, by omega, fun h0 => hcanon (Or.inr h0)⟩

/-! ### `Split` accepts exactly the values -/

theorem check_size {k : Kind} {ts cs : Nat} {buf : List UInt8} (h : ts + cs ≤ buf.length) :
    (if buf.length - ts < cs then (.error .valueTooLarge : Except DecodeError (Kind × Nat × Nat))
      else .ok (k, ts, cs)) = .ok (k, ts, cs) := by
  rw [if_neg (by omega)]

/-- `readKind` reads the header of every value but a wrapped byte. -/
theorem readKind_of_valueAt {b : List UInt8} {k : Kind} {c rest : List UInt8}
    (h : ValueAt b k c rest) (hw : ¬ WrappedByte k c) :
    ∃ ts, readKind b = .ok (k, ts, c.length) ∧ b.drop ts = c ++ rest := by
  cases k with
  | byte =>
    obtain ⟨x, hx, rfl, rfl⟩ := h
    refine ⟨0, ?_, rfl⟩
    simp only [readKind, if_pos hx, Except.bind, List.length_cons, List.length_nil]
    rw [if_neg (by omega)]
  | string =>
    obtain ⟨hc, rfl⟩ := h
    by_cases h56 : c.length < 56
    · -- one header byte
      have hx : (0x80 + UInt8.ofNat c.length).toNat = 0x80 + c.length :=
        toNat_tag_add (by simp only [UInt8.reduceToNat]; omega)
      have hcheck : ¬ ((0x80 + UInt8.ofNat c.length - 0x80).toNat = 1 ∧
          (c ++ rest).head?.any (· < 128)) := by
        rw [toNat_tag_add_sub _ (by omega)]
        rintro ⟨h1, hany⟩
        obtain ⟨y, rfl⟩ := List.length_eq_one_iff.1 h1
        exact hw ⟨rfl, y, rfl, by simpa using hany⟩
      refine ⟨1, ?_, by simp [puthead, h56]⟩
      simp only [puthead, if_pos h56, List.cons_append, List.nil_append, readKind]
      rw [if_neg (by simp only [UInt8.lt_iff_toNat_lt, hx, UInt8.reduceToNat]; omega),
        if_pos (by simp only [UInt8.lt_iff_toNat_lt, hx, UInt8.reduceToNat]; omega),
        if_neg hcheck, toNat_tag_add_sub _ (by omega)]
      apply check_size
      simp only [List.length_cons, List.length_append]
      omega
    · -- the tag with the length of the size, then the size
      have hL : 0 < intsize c.length ∧ intsize c.length ≤ 8 :=
        ⟨BigEndian.byteLength_pos (by norm_num) _, BigEndian.byteLength_le 8 _⟩
      have hx : (0xB7 + UInt8.ofNat (intsize c.length)).toNat = 0xB7 + intsize c.length :=
        toNat_tag_add (by simp only [UInt8.reduceToNat]; omega)
      refine ⟨1 + intsize c.length, ?_, ?_⟩
      · simp only [puthead, if_neg h56, List.cons_append, length_putint, readKind]
        rw [if_neg (by simp only [UInt8.lt_iff_toNat_lt, hx, UInt8.reduceToNat]; omega),
          if_neg (by simp only [UInt8.lt_iff_toNat_lt, hx, UInt8.reduceToNat]; omega),
          if_pos (by simp only [UInt8.lt_iff_toNat_lt, hx, UInt8.reduceToNat]; omega),
          toNat_tag_add_sub _ (by omega), List.append_assoc,
          readSize_putint (Nat.le_of_not_lt h56) hc]
        simp only [Except.map, Except.bind]
        rw [Nat.add_comm]
        apply check_size
        simp only [List.length_cons, List.length_append, length_putint]
        omega
      · simp only [puthead, if_neg h56, List.cons_append, List.append_assoc]
        rw [Nat.add_comm, List.drop_succ_cons, List.drop_left' (length_putint _)]
  | list =>
    obtain ⟨hc, rfl⟩ := h
    by_cases h56 : c.length < 56
    · have hx : (0xC0 + UInt8.ofNat c.length).toNat = 0xC0 + c.length :=
        toNat_tag_add (by simp only [UInt8.reduceToNat]; omega)
      refine ⟨1, ?_, by simp [puthead, h56]⟩
      simp only [puthead, if_pos h56, List.cons_append, List.nil_append, readKind]
      rw [if_neg (by simp only [UInt8.lt_iff_toNat_lt, hx, UInt8.reduceToNat]; omega),
        if_neg (by simp only [UInt8.lt_iff_toNat_lt, hx, UInt8.reduceToNat]; omega),
        if_neg (by simp only [UInt8.lt_iff_toNat_lt, hx, UInt8.reduceToNat]; omega),
        if_pos (by simp only [UInt8.lt_iff_toNat_lt, hx, UInt8.reduceToNat]; omega),
        toNat_tag_add_sub _ (by omega)]
      apply check_size
      simp only [List.length_cons, List.length_append]
      omega
    · have hL : 0 < intsize c.length ∧ intsize c.length ≤ 8 :=
        ⟨BigEndian.byteLength_pos (by norm_num) _, BigEndian.byteLength_le 8 _⟩
      have hx : (0xF7 + UInt8.ofNat (intsize c.length)).toNat = 0xF7 + intsize c.length :=
        toNat_tag_add (by simp only [UInt8.reduceToNat]; omega)
      refine ⟨1 + intsize c.length, ?_, ?_⟩
      · simp only [puthead, if_neg h56, List.cons_append, length_putint, readKind]
        rw [if_neg (by simp only [UInt8.lt_iff_toNat_lt, hx, UInt8.reduceToNat]; omega),
          if_neg (by simp only [UInt8.lt_iff_toNat_lt, hx, UInt8.reduceToNat]; omega),
          if_neg (by simp only [UInt8.lt_iff_toNat_lt, hx, UInt8.reduceToNat]; omega),
          if_neg (by simp only [UInt8.lt_iff_toNat_lt, hx, UInt8.reduceToNat]; omega),
          toNat_tag_add_sub _ (by omega), List.append_assoc,
          readSize_putint (Nat.le_of_not_lt h56) hc]
        simp only [Except.map, Except.bind]
        rw [Nat.add_comm]
        apply check_size
        simp only [List.length_cons, List.length_append, length_putint]
        omega
      · simp only [puthead, if_neg h56, List.cons_append, List.append_assoc]
        rw [Nat.add_comm, List.drop_succ_cons, List.drop_left' (length_putint _)]

theorem toNat_sub_tag (x tag : UInt8) (h : tag.toNat ≤ x.toNat) :
    (x - tag).toNat = x.toNat - tag.toNat :=
  UInt8.toNat_sub_of_le _ _ (UInt8.le_iff_toNat_le.2 h)

/-- A short header read back: the byte holds the size, and the content follows. -/
theorem head_short {tag large x : UInt8} {t : List UInt8} (hlt : (x - tag).toNat < 56)
    (hfit : (x - tag).toNat ≤ (x :: t).length - 1) :
    (((x :: t).drop 1).take (x - tag).toNat).length < 2 ^ 64 ∧
      x :: t = puthead tag large (((x :: t).drop 1).take (x - tag).toNat).length ++
        ((x :: t).drop 1).take (x - tag).toNat ++ (x :: t).drop (1 + (x - tag).toNat) := by
  have hlen : (t.take (x - tag).toNat).length = (x - tag).toNat :=
    List.length_take_of_le (by simpa using hfit)
  rw [List.drop_one, List.tail_cons, Nat.add_comm, List.drop_succ_cons, hlen, puthead_of_lt hlt,
    List.append_assoc, List.take_append_drop]
  exact ⟨by omega, rfl⟩

/-- A long header read back: the size after the tag is canonical, so the header is the one
`puthead` writes. -/
theorem head_long {tag large x : UInt8} {t : List UInt8} {s : Nat}
    (hl : 1 ≤ (x - large).toNat ∧ (x - large).toNat ≤ 8) (hs : readSize t (x - large).toNat = .ok s)
    (hfit : s ≤ (x :: t).length - ((x - large).toNat + 1)) :
    (((x :: t).drop ((x - large).toNat + 1)).take s).length < 2 ^ 64 ∧
      x :: t = puthead tag large (((x :: t).drop ((x - large).toNat + 1)).take s).length ++
        ((x :: t).drop ((x - large).toNat + 1)).take s ++
          (x :: t).drop ((x - large).toNat + 1 + s) := by
  obtain ⟨hlen, rfl, h56, hhead⟩ := readSize_eq_ok hs
  rw [List.drop_succ_cons, Nat.add_right_comm, List.drop_succ_cons, ← List.drop_drop]
  simp only [List.length_cons] at hfit
  have hc : ((t.drop (x - large).toNat).take (BigEndian.ofBE (t.take (x - large).toNat))).length =
      BigEndian.ofBE (t.take (x - large).toNat) := by
    rw [List.length_take, List.length_drop]
    omega
  have hsize : (t.take (x - large).toNat).length = (x - large).toNat := List.length_take_of_le hlen
  -- the size bytes start as the input does after the tag
  have hhead' : (t.take (x - large).toNat).head? ≠ some 0 := by
    cases t with
    | nil => simp at hlen; omega
    | cons d t =>
      rw [List.take_cons (by omega)]
      simpa using hhead
  have hne : t.take (x - large).toNat ≠ [] := by
    rw [← List.length_pos_iff, hsize]
    omega
  refine ⟨?_, ?_⟩
  · have hlt := BigEndian.ofBE_lt (t.take (x - large).toNat)
    rw [hc]
    calc BigEndian.ofBE (t.take (x - large).toNat)
        < 256 ^ (t.take (x - large).toNat).length := hlt
      _ ≤ 256 ^ 8 := Nat.pow_le_pow_right (by norm_num) (by omega)
      _ = 2 ^ 64 := by norm_num
  · rw [hc, puthead_ofBE hne (by omega) hhead' h56, hsize, tag_add_sub]
    simp only [List.cons_append, List.append_assoc, List.take_append_drop]

theorem check_eq_ok {k : Kind} {ts cs : Nat} {buf : List UInt8} {r : Kind × Nat × Nat}
    (h : (if buf.length - ts < cs then (.error .valueTooLarge : Except DecodeError (Kind × Nat × Nat))
      else .ok (k, ts, cs)) = .ok r) : r = (k, ts, cs) ∧ cs ≤ buf.length - ts := by
  split_ifs at h with hlt
  cases h
  exact ⟨rfl, by omega⟩

theorem map_eq_ok {α β ε : Type} {f : α → β} {x : Except ε α} {y : β} (h : x.map f = .ok y) :
    ∃ a, x = .ok a ∧ f a = y := by
  cases x with
  | error e => cases h
  | ok a =>
    cases h
    exact ⟨a, rfl, rfl⟩

/-- What `readKind` accepts is the header of a value, not a wrapped byte, and the value fits
in the input. -/
theorem valueAt_of_readKind {b : List UInt8} {k : Kind} {ts cs : Nat}
    (h : readKind b = .ok (k, ts, cs)) :
    ValueAt b k ((b.drop ts).take cs) (b.drop (ts + cs)) ∧
      ¬ WrappedByte k ((b.drop ts).take cs) ∧ 0 < ts + cs ∧ ts + cs ≤ b.length := by
  match b, h with
  | x :: t, h =>
    simp only [readKind] at h
    obtain ⟨⟨k', ts', cs'⟩, hhead, hcheck⟩ := Run.bind_eq_ok h
    obtain ⟨hr, hfit⟩ := check_eq_ok hcheck
    simp only [Prod.mk.injEq] at hr
    obtain ⟨rfl, rfl, rfl⟩ := hr
    have hx := x.toNat_lt
    split_ifs at hhead with h1 h2 h3 h4 h5
    · -- a byte below `0x80` is its own value
      cases hhead
      exact ⟨⟨x, h1, rfl, rfl⟩, fun hw => absurd hw.1 (by decide), by omega, by simp⟩
    · -- a short string, not a wrapped byte
      cases hhead
      dsimp only at hfit
      simp only [UInt8.lt_iff_toNat_lt, UInt8.reduceToNat] at h1 h2
      have hn := toNat_sub_tag x 0x80 (by simp only [UInt8.reduceToNat]; omega)
      simp only [UInt8.reduceToNat] at hn
      refine ⟨head_short (by omega) hfit, ?_, by omega, by simp only [List.length_cons] at hfit ⊢; omega⟩
      rintro ⟨-, y, hy, hy128⟩
      apply h3
      rw [List.drop_one, List.tail_cons] at hy
      have hlen : (t.take (x - 0x80).toNat).length = (x - 0x80).toNat :=
        List.length_take_of_le (by simpa using hfit)
      rw [hy, List.length_singleton] at hlen
      refine ⟨hlen.symm, ?_⟩
      cases t with
      | nil => simp at hy
      | cons z t =>
        rw [List.take_cons (by omega)] at hy
        simp only [List.cons.injEq] at hy
        simpa [hy.1] using hy128
    · -- a long string: its size is at least 56
      simp only [UInt8.lt_iff_toNat_lt, UInt8.reduceToNat] at h1 h2 h4
      obtain ⟨s, hs, hr⟩ := map_eq_ok hhead
      simp only [Prod.mk.injEq] at hr
      obtain ⟨rfl, rfl, rfl⟩ := hr
      dsimp only at hfit
      have hn := toNat_sub_tag x 0xB7 (by simp only [UInt8.reduceToNat]; omega)
      simp only [UInt8.reduceToNat] at hn
      have h56 := (readSize_eq_ok hs).2.2.1
      refine ⟨head_long (by omega) hs hfit, ?_, by omega, by simp only [List.length_cons] at hfit ⊢; omega⟩
      rintro ⟨-, y, hy, -⟩
      have hlen := congrArg List.length hy
      simp only [List.length_take, List.length_drop, List.length_singleton] at hlen
      omega
    · -- a short list
      cases hhead
      dsimp only at hfit
      simp only [UInt8.lt_iff_toNat_lt, UInt8.reduceToNat] at h1 h2 h4 h5
      have hn := toNat_sub_tag x 0xC0 (by simp only [UInt8.reduceToNat]; omega)
      simp only [UInt8.reduceToNat] at hn
      exact ⟨head_short (by omega) hfit, fun hw => absurd hw.1 (by decide), by omega,
        by simp only [List.length_cons] at hfit ⊢; omega⟩
    · -- a long list
      simp only [UInt8.lt_iff_toNat_lt, UInt8.reduceToNat] at h1 h2 h4 h5
      obtain ⟨s, hs, hr⟩ := map_eq_ok hhead
      simp only [Prod.mk.injEq] at hr
      obtain ⟨rfl, rfl, rfl⟩ := hr
      dsimp only at hfit
      have hn := toNat_sub_tag x 0xF7 (by simp only [UInt8.reduceToNat]; omega)
      simp only [UInt8.reduceToNat] at hn
      have h56 := (readSize_eq_ok hs).2.2.1
      exact ⟨head_long (by omega) hs hfit, fun hw => absurd hw.1 (by decide), by omega,
        by simp only [List.length_cons] at hfit ⊢; omega⟩

/-- `Split` accepts exactly the values other than a wrapped byte. -/
theorem split_eq_ok_iff {b : List UInt8} {k : Kind} {c rest : List UInt8} :
    split b = .ok (k, c, rest) ↔ ValueAt b k c rest ∧ ¬ WrappedByte k c := by
  constructor
  · intro h
    obtain ⟨⟨k', ts, cs⟩, hk, hr⟩ := map_eq_ok h
    simp only [Prod.mk.injEq] at hr
    obtain ⟨rfl, rfl, rfl⟩ := hr
    obtain ⟨hv, hw, -, -⟩ := valueAt_of_readKind hk
    exact ⟨hv, hw⟩
  · rintro ⟨hv, hw⟩
    obtain ⟨ts, hk, hdrop⟩ := readKind_of_valueAt hv hw
    simp only [split, hk, Except.map]
    rw [← List.drop_drop, hdrop, List.drop_left, List.take_left]

/-! ### `CountValues` -/

/-- `CountValues`: how many values are in a row, or the error of the first header that starts
none. -/
def countValues (b : List UInt8) : Except DecodeError Nat :=
  if hb : b = [] then .ok 0
  else
    match hk : readKind b with
    | .error err => .error err
    | .ok (_, tagsize, size) =>
      have _hlt : (b.drop (tagsize + size)).length < b.length := by
        have := (valueAt_of_readKind hk).2.2.1
        rw [List.length_drop]
        have := List.length_pos_iff.2 hb
        omega
      (countValues (b.drop (tagsize + size))).map (· + 1)
termination_by b.length
decreasing_by exact _hlt

/-- `b` is `n` values in a row, none of them a wrapped byte. -/
inductive Values : List UInt8 → Nat → Prop
  | nil : Values [] 0
  | cons {b c rest : List UInt8} {k : Kind} {n : Nat} :
    ValueAt b k c rest → ¬ WrappedByte k c → Values rest n → Values b (n + 1)

theorem ValueAt.ne_nil {b : List UInt8} {k : Kind} {c rest : List UInt8} (h : ValueAt b k c rest) :
    b ≠ [] := by
  cases k with
  | byte =>
    obtain ⟨x, -, -, rfl⟩ := h
    exact List.cons_ne_nil _ _
  | string | list =>
    obtain ⟨-, rfl⟩ := h
    rw [← List.length_pos_iff, List.length_append, List.length_append, length_puthead]
    have := headsize_pos c.length
    omega

theorem countValues_of_readKind {b : List UInt8} {k : Kind} {ts cs : Nat}
    (hk : readKind b = .ok (k, ts, cs)) :
    countValues b = (countValues (b.drop (ts + cs))).map (· + 1) := by
  have hb : b ≠ [] := by
    rintro rfl
    cases hk
  rw [countValues, dif_neg hb]
  split
  · simp_all
  · rename_i k' ts' cs' hk'
    rw [hk] at hk'
    cases hk'
    rfl

theorem countValues_of_error {b : List UInt8} {err : DecodeError} (hb : b ≠ [])
    (hk : readKind b = .error err) : countValues b = .error err := by
  rw [countValues, dif_neg hb]
  split <;> simp_all

/-- `CountValues` counts exactly the values in a row that `Split` accepts. -/
theorem countValues_eq_ok_iff {b : List UInt8} {n : Nat} : countValues b = .ok n ↔ Values b n := by
  constructor
  · intro h
    -- by the recursion of `CountValues`: one value, then the rest
    induction b using countValues.induct generalizing n with
    | case1 =>
      rw [countValues, dif_pos rfl] at h
      cases h
      exact Values.nil
    | case2 b hb err hk =>
      rw [countValues_of_error hb hk] at h
      cases h
    | case3 b hb k ts cs hk _ ih =>
      rw [countValues_of_readKind hk] at h
      obtain ⟨m, hm, rfl⟩ := map_eq_ok h
      obtain ⟨hv, hw, -, -⟩ := valueAt_of_readKind hk
      exact Values.cons hv hw (ih hm)
  · intro h
    induction h with
    | nil => rw [countValues, dif_pos rfl]
    | @cons b c rest k n hv hw _ ih =>
      obtain ⟨ts, hk, hdrop⟩ := readKind_of_valueAt hv hw
      rw [countValues_of_readKind hk, ← List.drop_drop, hdrop, List.drop_left, ih]
      rfl

/-! ### The stream at the top level

A stream over a byte slice, before it enters a list: its limit is the input it has left. What
`Kind` reads there is a header of the same grammar, read through `readByte` and `readUint`.
-/

namespace Stream

/-- A stream at the top level whose limit is the input left, as `DecodeBytes` makes it. -/
structure Top (s : Stream) : Prop where
  stack_eq : s.stack = []
  limited_eq : s.limited = true
  remaining_eq : s.remaining = s.r.length

theorem top_ofBytes (b : List UInt8) : Top (ofBytes b) := ⟨rfl, rfl, rfl⟩

theorem willRead_top {s : Stream} {n : Nat} (h : Top s) :
    willRead n s = if s.remaining < n then .error .valueTooLarge { s with kindAhead := none }
      else .ok () (s.charge n) := by
  by_cases hn : s.remaining < n
  · simp [willRead, h.stack_eq, h.limited_eq, hn, modify, modifyGet, MonadStateOf.modifyGet,
      EStateM.modifyGet, get, getThe, MonadStateOf.get, EStateM.get, bind, EStateM.bind, pure,
      throw, throwThe, MonadExceptOf.throw, EStateM.throw]
  · rw [if_neg hn]
    exact willRead_ok ⟨by simp [h.stack_eq], fun _ => Nat.le_of_not_lt hn⟩

theorem readByte_eq_ok {s s' : Stream} {x : UInt8} (h : Top s) (hb : readByte s = .ok x s') :
    s.r = x :: s'.r ∧ s' = { s.charge 1 with r := s'.r } := by
  unfold readByte at hb
  obtain ⟨u, s₁, hw, hb⟩ := EStateM.bind_eq_ok hb
  rw [willRead_top h] at hw
  split_ifs at hw
  cases hw
  cases hr : s.r with
  | nil =>
    simp [get, getThe, MonadStateOf.get, EStateM.get, bind, EStateM.bind, charge, hr, throw,
      throwThe, MonadExceptOf.throw, EStateM.throw] at hb
  | cons y rest =>
    simp only [get, getThe, MonadStateOf.get, EStateM.get, bind, EStateM.bind, charge, hr, set,
      EStateM.set, pure, EStateM.pure, EStateM.Result.ok.injEq] at hb
    obtain ⟨rfl, rfl⟩ := hb
    exact ⟨rfl, rfl⟩

theorem readFull_eq_ok {s s' : Stream} {n : Nat} {bs : List UInt8} (h : Top s)
    (hb : readFull n s = .ok bs s') :
    n ≤ s.r.length ∧ bs = s.r.take n ∧ s' = { s.charge n with r := s.r.drop n } := by
  unfold readFull at hb
  obtain ⟨u, s₁, hw, hb⟩ := EStateM.bind_eq_ok hb
  rw [willRead_top h] at hw
  split_ifs at hw with hn
  cases hw
  have hn' : n ≤ s.r.length := by rw [← h.remaining_eq]; omega
  simp only [get, getThe, MonadStateOf.get, EStateM.get, bind, EStateM.bind, charge, set,
    EStateM.set, pure, EStateM.pure, hn', if_true, EStateM.Result.ok.injEq] at hb
  obtain ⟨rfl, rfl⟩ := hb
  exact ⟨hn', rfl, rfl⟩

theorem Top.charge {s : Stream} (h : Top s) {n : Nat} {rest : List UInt8}
    (hr : s.r.length = n + rest.length) : Top { s.charge n with r := rest } :=
  ⟨by simp [Stream.charge, chargeTop, h.stack_eq], by simp [Stream.charge, h.limited_eq],
    by simp only [Stream.charge, h.limited_eq, if_true, h.remaining_eq]; omega⟩

theorem Top.byteval {s : Stream} (h : Top s) (x : UInt8) : Top { s with byteval := x } :=
  ⟨h.stack_eq, h.limited_eq, h.remaining_eq⟩

theorem readUint_eq_ok {s s' : Stream} {l v : Nat} (h : Top s) (hl : 1 ≤ l)
    (hu : readUint l s = .ok v s') :
    ∃ bs, s.r = bs ++ s'.r ∧ bs.length = l ∧ v = BigEndian.ofBE bs ∧
      (2 ≤ l → bs.head? ≠ some 0) ∧ s' = { s.charge l with r := s'.r } := by
  match l, hl, hu with
  | 1, _, hu =>
    simp only [readUint] at hu
    obtain ⟨x, s₁, hb, hu⟩ := EStateM.bind_eq_ok hu
    cases hu
    obtain ⟨hr, hs⟩ := readByte_eq_ok h hb
    exact ⟨[x], hr, rfl, by rw [BigEndian.ofBE_singleton], by omega, hs⟩
  | k + 2, _, hu =>
    simp only [readUint] at hu
    obtain ⟨bs, s₁, hf, hu⟩ := EStateM.bind_eq_ok hu
    obtain ⟨hn, rfl, rfl⟩ := readFull_eq_ok h hf
    by_cases hhead : (s.r.take (k + 2)).head? = some 0
    · simp [hhead, throw, throwThe, MonadExceptOf.throw, EStateM.throw, Functor.map,
        EStateM.map] at hu
    · simp only [hhead, if_false, pure, EStateM.pure, EStateM.Result.ok.injEq] at hu
      obtain ⟨rfl, rfl⟩ := hu
      exact ⟨s.r.take (k + 2), by rw [List.take_append_drop], List.length_take_of_le hn, rfl,
        fun _ => hhead, rfl⟩

/-- A long header's size, read by `readUint` and at least 56: the header is the one `puthead`
writes. -/
theorem readUint_long (tag large : UInt8) {s s' : Stream} {l size : Nat} (h : Top s)
    (hl : 1 ≤ l ∧ l ≤ 8) (hu : readUint l s = .ok size s') (h56 : ¬ size < 56) :
    ∃ bs, s.r = bs ++ s'.r ∧ bs.length = l ∧ size < 2 ^ 64 ∧
      puthead tag large size = (large + UInt8.ofNat l) :: bs ∧ s' = { s.charge l with r := s'.r } := by
  obtain ⟨bs, hr, hlen, rfl, hhead, hs⟩ := readUint_eq_ok h hl.1 hu
  have hne : bs ≠ [] := by
    rw [← List.length_pos_iff]
    omega
  -- one size byte is not zero either: it is at least 56
  have hhead' : bs.head? ≠ some 0 := by
    by_cases h2 : 2 ≤ l
    · exact hhead h2
    · obtain ⟨c, rfl⟩ := List.length_eq_one_iff.1 (by omega : bs.length = 1)
      rw [BigEndian.ofBE_singleton] at h56
      intro hc
      simp only [List.head?_cons, Option.some.injEq] at hc
      subst hc
      simp at h56
  refine ⟨bs, hr, hlen, ?_, ?_, hs⟩
  · calc BigEndian.ofBE bs < 256 ^ bs.length := BigEndian.ofBE_lt bs
      _ ≤ 256 ^ 8 := Nat.pow_le_pow_right (by norm_num) (by omega)
      _ = 2 ^ 64 := by norm_num
  · rw [puthead_ofBE hne (by omega) hhead' (by omega), hlen]

/-- The bytes of a header that `readKind` reads for a value of kind `k` and size `size`, with
the byte it keeps. -/
def HeadBytes (k : Kind) (size : Nat) (hdr : List UInt8) (byteval : UInt8) : Prop :=
  match k with
  | .byte => ∃ x, x < 0x80 ∧ hdr = [x] ∧ size = 0 ∧ byteval = x
  | .string => size < 2 ^ 64 ∧ hdr = puthead 0x80 0xB7 size ∧ byteval = 0
  | .list => size < 2 ^ 64 ∧ hdr = puthead 0xC0 0xF7 size ∧ byteval = 0

/-- A header `readKind` reads without an error is one of the grammar. -/
theorem readKind_eq_ok {s s' : Stream} {k : Kind} {size : Nat} (h : Top s)
    (hk : readKind s = .ok (k, size, none) s') :
    ∃ hdr, s.r = hdr ++ s'.r ∧ HeadBytes k size hdr s'.byteval ∧
      s' = { s.charge hdr.length with r := s'.r, byteval := s'.byteval } := by
  unfold readKind at hk
  cases hb : readByte s with
  | error e s₁ =>
    rw [hb] at hk
    cases hk
  | ok x s₁ =>
    rw [hb] at hk
    obtain ⟨hr, hs₁⟩ := readByte_eq_ok h hb
    have ht : Top { s₁ with byteval := 0 } := by
      rw [hs₁]
      exact (h.charge (by rw [hr, List.length_cons]; omega)).byteval 0
    have hx := x.toNat_lt
    dsimp only at hk
    split_ifs at hk with h1 h2 h3 h4
    · -- a byte below `0x80`
      cases hk
      exact ⟨[x], hr, ⟨x, h1, rfl, rfl, rfl⟩, by rw [hs₁]; rfl⟩
    · -- a short string
      cases hk
      simp only [UInt8.lt_iff_toNat_lt, UInt8.reduceToNat] at h1 h2
      have hn := toNat_sub_tag x 0x80 (by simp only [UInt8.reduceToNat]; omega)
      simp only [UInt8.reduceToNat] at hn
      refine ⟨[x], hr, ⟨by omega, (puthead_of_lt (by omega)).symm, rfl⟩, by rw [hs₁]; rfl⟩
    · -- a long string: the size read after the tag
      simp only [UInt8.lt_iff_toNat_lt, UInt8.reduceToNat] at h1 h2 h3
      have hn := toNat_sub_tag x 0xB7 (by simp only [UInt8.reduceToNat]; omega)
      simp only [UInt8.reduceToNat] at hn
      split at hk
      · rename_i sz s₂ hu
        simp only [EStateM.Result.ok.injEq, Prod.mk.injEq] at hk
        obtain ⟨⟨rfl, rfl, hnone⟩, rfl⟩ := hk
        split_ifs at hnone with h56
        obtain ⟨bs, hbs, hlen, hsz, hput, hs₂⟩ := readUint_long 0x80 0xB7 ht ⟨by omega, by omega⟩ hu h56
        refine ⟨x :: bs, ?_, ⟨hsz, ?_, ?_⟩, ?_⟩
        · rw [hr, List.cons_append, ← hbs]
        · rw [hput, tag_add_sub]
        · rw [hs₂]
          rfl
        · rw [hs₂, hs₁]
          simp [Stream.charge, chargeTop, h.stack_eq, h.limited_eq, Nat.sub_sub, hlen, Nat.add_comm]
      · simp at hk
    · -- a short list
      cases hk
      simp only [UInt8.lt_iff_toNat_lt, UInt8.reduceToNat] at h1 h2 h3 h4
      have hn := toNat_sub_tag x 0xC0 (by simp only [UInt8.reduceToNat]; omega)
      simp only [UInt8.reduceToNat] at hn
      refine ⟨[x], hr, ⟨by omega, (puthead_of_lt (by omega)).symm, rfl⟩, by rw [hs₁]; rfl⟩
    · -- a long list
      simp only [UInt8.lt_iff_toNat_lt, UInt8.reduceToNat] at h1 h2 h3 h4
      have hn := toNat_sub_tag x 0xF7 (by simp only [UInt8.reduceToNat]; omega)
      simp only [UInt8.reduceToNat] at hn
      split at hk
      · rename_i sz s₂ hu
        simp only [EStateM.Result.ok.injEq, Prod.mk.injEq] at hk
        obtain ⟨⟨rfl, rfl, hnone⟩, rfl⟩ := hk
        split_ifs at hnone with h56
        obtain ⟨bs, hbs, hlen, hsz, hput, hs₂⟩ := readUint_long 0xC0 0xF7 ht ⟨by omega, by omega⟩ hu h56
        refine ⟨x :: bs, ?_, ⟨hsz, ?_, ?_⟩, ?_⟩
        · rw [hr, List.cons_append, ← hbs]
        · rw [hput, tag_add_sub]
        · rw [hs₂]
          rfl
        · rw [hs₂, hs₁]
          simp [Stream.charge, chargeTop, h.stack_eq, h.limited_eq, Nat.sub_sub, hlen, Nat.add_comm]
      · simp at hk

/-- What `Kind` reads at the top level is a header of the grammar, of a value that fits in the
input. -/
theorem kind_eq_ok {s s₁ : Stream} {k : Kind} {size : Nat} (h : Top s) (ha : s.kindAhead = none)
    (hk : kind s = .ok (k, size) s₁) :
    ∃ hdr, s.r = hdr ++ s₁.r ∧ HeadBytes k size hdr s₁.byteval ∧ size ≤ s₁.r.length ∧ Top s₁ ∧
      s₁.kindAhead = some k ∧ s₁.kinderr = none ∧ s₁.size = size := by
  unfold kind at hk
  rw [ha] at hk
  dsimp only at hk
  rw [if_neg (by simp [h.stack_eq])] at hk
  split at hk
  · rename_i k' size' err s' hrk
    cases err with
    | some e => simp at hk
    | none =>
      obtain ⟨hdr, hr, hhead, hs'⟩ := readKind_eq_ok (s := { s with kindAhead := none, kinderr := none })
        ⟨h.stack_eq, h.limited_eq, h.remaining_eq⟩ hrk
      have ht' : Top s' := by
        rw [hs']
        exact ((Top.mk h.stack_eq h.limited_eq h.remaining_eq :
          Top { s with kindAhead := none, kinderr := none }).charge
            (by rw [hr, List.length_append])).byteval _
      dsimp only at hk
      rw [ht'.stack_eq] at hk
      dsimp only at hk
      split_ifs at hk with hfit
      simp only [EStateM.Result.ok.injEq, Prod.mk.injEq] at hk
      obtain ⟨⟨rfl, rfl⟩, rfl⟩ := hk
      refine ⟨hdr, hr, hhead, ?_, ⟨rfl, ht'.limited_eq, ht'.remaining_eq⟩, rfl, rfl, rfl⟩
      have := ht'.remaining_eq
      simp only [ht'.limited_eq, true_and, gt_iff_lt, not_lt] at hfit
      dsimp only
      omega
  · cases hk

theorem bytes_eq_ok {s s' : Stream} {c : List UInt8} (hb : bytes s = .ok c s') :
    ∃ k size s₁, kind s = .ok (k, size) s₁ ∧
      ((k = .byte ∧ c = [s₁.byteval] ∧ s' = { s₁ with kindAhead := none }) ∨
        (k = .string ∧ readFull size s₁ = .ok c s' ∧ ¬ (size = 1 ∧ c.head?.any (· < 128)))) := by
  unfold bytes at hb
  obtain ⟨⟨k, size⟩, s₁, hk, hrest⟩ := EStateM.bind_eq_ok hb
  refine ⟨k, size, s₁, hk, ?_⟩
  cases k with
  | byte =>
    simp only [get, getThe, MonadStateOf.get, EStateM.get, bind, EStateM.bind, set, EStateM.set,
      pure, EStateM.pure, EStateM.Result.ok.injEq] at hrest
    exact Or.inl ⟨rfl, hrest.1.symm, hrest.2.symm⟩
  | string =>
    obtain ⟨c', s₂, hf, hrest⟩ := EStateM.bind_eq_ok hrest
    by_cases hcanon : size = 1 ∧ c'.head?.any (· < 128)
    · simp [hcanon, throw, throwThe, MonadExceptOf.throw, EStateM.throw, Functor.map,
        EStateM.map] at hrest
    · simp only [hcanon, if_false, pure, EStateM.pure, EStateM.Result.ok.injEq] at hrest
      obtain ⟨rfl, rfl⟩ := hrest
      exact Or.inr ⟨rfl, hf, hcanon⟩
  | list =>
    simp [throw, throwThe, MonadExceptOf.throw, EStateM.throw] at hrest

theorem list_eq_ok {s s' : Stream} {n : Nat} (hl : list s = .ok n s') :
    ∃ s₁, kind s = .ok (.list, n) s₁ ∧
      s' = { s₁ with stack := ⟨0, n⟩ :: s₁.stack, kindAhead := none, size := 0 } := by
  unfold list at hl
  obtain ⟨⟨k, size⟩, s₁, hk, hrest⟩ := EStateM.bind_eq_ok hl
  cases k with
  | list =>
    simp only [ne_eq, not_true_eq_false, if_false, modify, modifyGet, MonadStateOf.modifyGet,
      EStateM.modifyGet, bind, EStateM.bind, pure, EStateM.pure, EStateM.Result.ok.injEq] at hrest
    obtain ⟨rfl, rfl⟩ := hrest
    exact ⟨s₁, hk, rfl⟩
  | byte | string =>
    simp [throw, throwThe, MonadExceptOf.throw, EStateM.throw, bind, EStateM.bind] at hrest

/-- `Raw`: the value with its header. The stream has read the original header, so a new one
is written in front of the content. -/
def raw : StreamM (List UInt8) := do
  let (k, size) ← kind
  if k = .byte then
    let s ← get
    set { s with kindAhead := none }
    pure [s.byteval]
  else
    let b ← readFull size
    if k = .string then pure (puthead 0x80 0xB7 size ++ b)
    else pure (puthead 0xC0 0xF7 size ++ b)

theorem fits_ofBytes {b : List UInt8} {n : Nat} (h : n ≤ b.length) : (ofBytes b).Fits n :=
  ⟨fun _ h' => by simp [ofBytes] at h', fun _ => h⟩

end Stream

/-! ### The two parsers agree -/

/-- A fresh stream over `b` reads a first value of kind `k` with content `c`, then `rest`:
`Kind` and `Bytes` for a byte or a string, and `List` for a list, after which the stream is at
`c ++ rest` with the size of `c`. -/
def StreamReads (b : List UInt8) (k : Kind) (c rest : List UInt8) : Prop :=
  match k with
  | .list => ∃ s', Stream.list (Stream.ofBytes b) = .ok c.length s' ∧ s'.r = c ++ rest
  | _ => (∃ size s₁, Stream.kind (Stream.ofBytes b) = .ok (k, size) s₁) ∧
      ∃ s', Stream.bytes (Stream.ofBytes b) = .ok c s' ∧ s'.r = rest

/-- The stream reads exactly the values other than a wrapped byte: `Bytes` refuses that one
with `ErrCanonSize`, where `Split` refuses its header. -/
theorem streamReads_iff {b : List UInt8} {k : Kind} {c rest : List UInt8} :
    StreamReads b k c rest ↔ ValueAt b k c rest ∧ ¬ WrappedByte k c := by
  constructor
  · intro h
    cases k with
    | byte =>
      obtain ⟨⟨size, s₁, hk⟩, s', hb, hr⟩ := h
      obtain ⟨hdr, hbr, ⟨x, hx, rfl, -, hval⟩, -⟩ := Stream.kind_eq_ok (Stream.top_ofBytes b) rfl hk
      obtain ⟨k', size', s₁', hk', hcases⟩ := Stream.bytes_eq_ok hb
      rw [hk] at hk'
      simp only [EStateM.Result.ok.injEq, Prod.mk.injEq] at hk'
      obtain ⟨⟨rfl, rfl⟩, rfl⟩ := hk'
      rcases hcases with ⟨-, rfl, rfl⟩ | ⟨hks, -⟩
      · -- a byte below `0x80`: the header is the value
        rw [hval] at ⊢
        exact ⟨⟨x, hx, rfl, by rw [← hr]; exact hbr⟩, fun hw => absurd hw.1 (by decide)⟩
      · cases hks
    | string =>
      obtain ⟨⟨size, s₁, hk⟩, s', hb, hr⟩ := h
      obtain ⟨hdr, hbr, ⟨hsize, rfl, -⟩, -, ht, -⟩ := Stream.kind_eq_ok (Stream.top_ofBytes b) rfl hk
      obtain ⟨k', size', s₁', hk', hcases⟩ := Stream.bytes_eq_ok hb
      rw [hk] at hk'
      simp only [EStateM.Result.ok.injEq, Prod.mk.injEq] at hk'
      obtain ⟨⟨rfl, rfl⟩, rfl⟩ := hk'
      rcases hcases with ⟨hks, -⟩ | ⟨-, hf, hcanon⟩
      · cases hks
      · -- the content that `readFull` reads after the header
        obtain ⟨hn, rfl, rfl⟩ := Stream.readFull_eq_ok ht hf
        have hlen : (s₁.r.take size).length = size := List.length_take_of_le hn
        refine ⟨⟨by omega, ?_⟩, ?_⟩
        · rw [hlen, ← hr, List.append_assoc, List.take_append_drop]
          exact hbr
        · rintro ⟨-, y, hy, hy128⟩
          apply hcanon
          rw [hy] at hlen ⊢
          exact ⟨by simpa using hlen.symm, by simpa using hy128⟩
    | list =>
      obtain ⟨s', hl, hr⟩ := h
      obtain ⟨s₁, hk, rfl⟩ := Stream.list_eq_ok hl
      obtain ⟨hdr, hbr, ⟨hsize, rfl, -⟩, -⟩ := Stream.kind_eq_ok (Stream.top_ofBytes b) rfl hk
      refine ⟨⟨hsize, ?_⟩, fun hw => absurd hw.1 (by decide)⟩
      rw [List.append_assoc, ← hr]
      exact hbr
  · rintro ⟨hv, hw⟩
    cases k with
    | byte =>
      obtain ⟨x, hx, rfl, rfl⟩ := hv
      have hk := Stream.kind_single (s := Stream.ofBytes (x :: rest)) rfl
        (Stream.fits_ofBytes (by simp)) rfl hx
      exact ⟨⟨0, _, hk⟩, _, Stream.bytes_of_kind_byte hk, rfl⟩
    | string =>
      obtain ⟨hc, rfl⟩ := hv
      have hlen : headsize c.length + c.length ≤
          (puthead 0x80 0xB7 c.length ++ c ++ rest).length := by
        simp [length_puthead]
      have hk := Stream.kind_puthead (s := Stream.ofBytes (puthead 0x80 0xB7 c.length ++ c ++ rest))
        (Or.inl rfl) rfl hc (List.append_assoc _ _ _) (Stream.fits_ofBytes hlen)
      -- a one-byte string holds a byte of `0x80` at least
      have hcanon : ¬ (c.length = 1 ∧ ((c ++ rest).take c.length).head?.any (· < 128)) := by
        rintro ⟨h1, hany⟩
        obtain ⟨y, rfl⟩ := List.length_eq_one_iff.1 h1
        exact hw ⟨rfl, y, rfl, by simpa using hany⟩
      have hb := Stream.bytes_of_kind_string hk (Stream.Fits.charge (Stream.fits_ofBytes hlen))
        (by simp) hcanon
      simp only [List.take_left', List.drop_left'] at hb
      exact ⟨⟨c.length, _, hk⟩, _, hb, rfl⟩
    | list =>
      obtain ⟨hc, rfl⟩ := hv
      have hlen : headsize c.length + c.length ≤
          (puthead 0xC0 0xF7 c.length ++ c ++ rest).length := by
        simp [length_puthead]
      exact ⟨_, Stream.list_puthead (s := Stream.ofBytes (puthead 0xC0 0xF7 c.length ++ c ++ rest))
        rfl hc (List.append_assoc _ _ _) (Stream.fits_ofBytes hlen), rfl⟩

/-- `Split` and a fresh `Stream` read the same first value, and refuse the same inputs;
`CountValues` counts the values in a row that `Split` accepts. -/
theorem split_agrees_with_stream (b : List UInt8) :
    (∀ k c rest, split b = .ok (k, c, rest) ↔ StreamReads b k c rest) ∧
      (∀ k c rest, split b = .ok (k, c, rest) ↔ ValueAt b k c rest ∧ ¬ WrappedByte k c) ∧
      ∀ n, countValues b = .ok n ↔ Values b n := by
  refine ⟨fun k c rest => ?_, fun k c rest => split_eq_ok_iff, fun n => countValues_eq_ok_iff⟩
  rw [split_eq_ok_iff, streamReads_iff]

/-- A string of one byte below `0x80`: `Split` and `CountValues` refuse its header and `Bytes`
its content, while `Kind` and `Raw` take it as a value. -/
theorem split_refuses_wrapped_byte_raw_reads_it :
    split [0x81, 0x05] = .error .canonSize ∧ countValues [0x81, 0x05] = .error .canonSize ∧
      (∃ s', Stream.bytes (Stream.ofBytes [0x81, 0x05]) = .error .canonSize s') ∧
      (∃ s', Stream.kind (Stream.ofBytes [0x81, 0x05]) = .ok (.string, 1) s') ∧
      ∃ s', Stream.raw (Stream.ofBytes [0x81, 0x05]) = .ok [0x81, 0x05] s' ∧ s'.r = [] := by
  have hk : readKind [0x81, 0x05] = .error .canonSize := rfl
  exact ⟨rfl, countValues_of_error (List.cons_ne_nil _ _) hk, ⟨_, rfl⟩, ⟨_, rfl⟩, ⟨_, rfl, rfl⟩⟩

/-! ### `SplitString` and `SplitList` -/

/-- `SplitString`: the content of a string or a byte, and the bytes after it. -/
def splitString (b : List UInt8) : Except DecodeError (List UInt8 × List UInt8) :=
  match split b with
  | .error err => .error err
  | .ok (k, c, rest) => if k = .list then .error .expectedString else .ok (c, rest)

/-- `SplitList`: the content of a list, and the bytes after it. -/
def splitList (b : List UInt8) : Except DecodeError (List UInt8 × List UInt8) :=
  match split b with
  | .error err => .error err
  | .ok (k, c, rest) => if k ≠ .list then .error .expectedList else .ok (c, rest)

theorem splitString_eq_ok {b c rest : List UInt8} (h : splitString b = .ok (c, rest)) :
    ∃ k, split b = .ok (k, c, rest) ∧ k ≠ .list := by
  unfold splitString at h
  split at h
  · cases h
  · rename_i k c' rest' hs
    split_ifs at h with hk
    cases h
    exact ⟨k, hs, hk⟩

theorem splitList_eq_ok {b c rest : List UInt8} (h : splitList b = .ok (c, rest)) :
    split b = .ok (.list, c, rest) := by
  unfold splitList at h
  split at h
  · cases h
  · rename_i k c' rest' hs
    split_ifs at h with hk
    cases h
    rw [hs, not_not.1 hk]

/-- `Split` consumes at least one byte. -/
theorem split_rest_lt {b : List UInt8} {k : Kind} {c rest : List UInt8}
    (h : split b = .ok (k, c, rest)) : rest.length < b.length := by
  obtain ⟨⟨k', ts, cs⟩, hk, hr⟩ := map_eq_ok h
  obtain ⟨-, -, hpos, hle⟩ := valueAt_of_readKind hk
  simp only [Prod.mk.injEq] at hr
  rw [← hr.2.2, List.length_drop]
  omega

/-- The content of a list is shorter than the list: a list always has a header. -/
theorem splitList_content_lt {b c rest : List UInt8} (h : splitList b = .ok (c, rest)) :
    c.length < b.length := by
  obtain ⟨⟨-, rfl⟩, -⟩ := split_eq_ok_iff.1 (splitList_eq_ok h)
  have := headsize_pos c.length
  simp only [List.length_append, length_puthead]
  omega

theorem splitString_rest_lt {b c rest : List UInt8} (h : splitString b = .ok (c, rest)) :
    rest.length < b.length := by
  obtain ⟨k, hs, -⟩ := splitString_eq_ok h
  exact split_rest_lt hs

/-- The encoding of a byte string is a value that `Split` accepts, a byte or a string. -/
theorem split_encodeBytes {b : List UInt8} (hb : b.length < 2 ^ 64) (rest : List UInt8) :
    ∃ k, split (encodeBytes b ++ rest) = .ok (k, b, rest) ∧ k ≠ .list := by
  unfold encodeBytes
  split_ifs with hs
  · -- a byte below `0x80` is its own encoding
    rcases b with _ | ⟨x, _ | ⟨y, b⟩⟩ <;> simp only [singleByte, Bool.false_eq_true] at hs
    have hx : x < 0x80 := by
      simp only [decide_eq_true_eq] at hs
      exact UInt8.lt_iff_toNat_lt.2 (by have := UInt8.le_iff_toNat_le.1 hs; simp at this ⊢; omega)
    exact ⟨.byte, split_eq_ok_iff.2 ⟨⟨x, hx, rfl, rfl⟩, fun hw => Kind.noConfusion hw.1⟩,
      by decide⟩
  · refine ⟨.string, split_eq_ok_iff.2 ⟨⟨hb, by rw [List.append_assoc]⟩, ?_⟩, by decide⟩
    -- a wrapped byte would be a single byte
    rintro ⟨-, x, rfl, hx⟩
    have hle : x ≤ 0x7F := UInt8.le_iff_toNat_le.2 (by have := UInt8.lt_iff_toNat_lt.1 hx; simp at this ⊢; omega)
    simp [singleByte, hle] at hs

theorem splitString_encodeBytes {b : List UInt8} (hb : b.length < 2 ^ 64) (rest : List UInt8) :
    splitString (encodeBytes b ++ rest) = .ok (b, rest) := by
  obtain ⟨k, hs, hk⟩ := split_encodeBytes hb rest
  simp [splitString, hs, hk]

theorem split_puthead_list {c : List UInt8} (hc : c.length < 2 ^ 64) (rest : List UInt8) :
    split (puthead 0xC0 0xF7 c.length ++ c ++ rest) = .ok (.list, c, rest) :=
  split_eq_ok_iff.2 ⟨⟨hc, rfl⟩, fun hw => Kind.noConfusion hw.1⟩

theorem splitList_puthead {c : List UInt8} (hc : c.length < 2 ^ 64) (rest : List UInt8) :
    splitList (puthead 0xC0 0xF7 c.length ++ c ++ rest) = .ok (c, rest) := by
  rw [splitList, split_puthead_list hc]
  rfl

theorem values_encodeBytes_append {b rest : List UInt8} {n : Nat} (hb : b.length < 2 ^ 64)
    (h : Values rest n) : Values (encodeBytes b ++ rest) (n + 1) := by
  obtain ⟨k, hs, -⟩ := split_encodeBytes hb rest
  obtain ⟨hv, hw⟩ := split_eq_ok_iff.1 hs
  exact .cons hv hw h

theorem values_puthead_list_append {c rest : List UInt8} {n : Nat} (hc : c.length < 2 ^ 64)
    (h : Values rest n) : Values (puthead 0xC0 0xF7 c.length ++ c ++ rest) (n + 1) := by
  obtain ⟨hv, hw⟩ := split_eq_ok_iff.1 (split_puthead_list hc rest)
  exact .cons hv hw h

theorem ValueAt.append {b c rest : List UInt8} {k : Kind} (h : ValueAt b k c rest)
    (t : List UInt8) : ValueAt (b ++ t) k c (rest ++ t) := by
  cases k with
  | byte =>
    obtain ⟨x, hx, hc, rfl⟩ := h
    exact ⟨x, hx, hc, rfl⟩
  | string | list =>
    obtain ⟨hc, rfl⟩ := h
    exact ⟨hc, by simp⟩

theorem Values.append {a b : List UInt8} {m n : Nat} (ha : Values a m) (hb : Values b n) :
    Values (a ++ b) (n + m) := by
  induction ha with
  | nil => simpa using hb
  | cons hv hw _ ih => exact .cons (hv.append b) hw ih

end Rlp
end IntChain
