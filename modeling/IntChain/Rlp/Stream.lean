import IntChain.Rlp.Encode
import IntChain.Lib.EStateM

/-!
# The RLP decoding stream

`rlp/decode.go`: `Stream` reads RLP from a byte reader, one header at a time. `Kind` reads the
header of the next value and caches its kind and size until the value is consumed; `Bytes`,
`Uint`, `List` and `ListEnd` consume it. Inside a list every read is charged to the innermost
list (`willRead`), and at the top level to the input limit, which `DecodeBytes` sets to the
length of the input.

A method returns its result or its error together with the stream as the method left it:
Go's `Stream` is mutated in place, and a caller that drops an error goes on with that stream.
The reader is a `bytes.Reader`, so it hands out exactly the bytes it has.

The second half says what each method does at input an encoder writes: `Fits` is the room
`willRead` checks, `charge` what it leaves, and `Past` the stream after a whole value.
-/

namespace IntChain
namespace Rlp

/-- `Kind`: what the header ahead announces. -/
inductive Kind
  | byte
  | string
  | list
  deriving DecidableEq, Repr

/-- The errors a decoding can end with. -/
inductive DecodeError
  /-- `EOL`: the end of the innermost list. -/
  | eol
  | expectedString
  | expectedList
  | canonInt
  | canonSize
  | elemTooLarge
  | valueTooLarge
  /-- `errUintOverflow`. -/
  | uintOverflow
  /-- `errNotInList`. -/
  | notInList
  /-- `errNotAtEOL`. -/
  | notAtEOL
  /-- `io.ErrUnexpectedEOF`. -/
  | unexpectedEOF
  /-- `io.EOF`. -/
  | eof
  | moreThanOneValue
  /-- `"rlp: invalid boolean value"`. -/
  | invalidBool
  /-- The `decodeError`s of `decodeByteArray` and of the struct decoder. -/
  | inputStringTooLong
  | inputStringTooShort
  | tooFewElements
  /-- The model's fuel ran out; the source has no such error. -/
  | outOfFuel
  deriving DecidableEq, Repr

/-- `listpos`: how much of a list has been read, and its size. -/
structure ListPos where
  pos : Nat
  size : Nat
  deriving DecidableEq, Repr

/-- `Stream`. Its field `kind` is `kindAhead` here, beside the method `Kind`; `none` is
`kind = -1`: the next `Kind` reads a header. The stack has the innermost list first. -/
structure Stream where
  r : List UInt8
  remaining : Nat
  limited : Bool
  kindAhead : Option Kind
  size : Nat
  byteval : UInt8
  kinderr : Option DecodeError
  stack : List ListPos
  deriving DecidableEq, Repr

abbrev StreamM := EStateM DecodeError Stream

namespace Stream

/-- `NewStream(bytes.NewReader(b), len(b))`, as `DecodeBytes` makes it; an empty input gets the
limit of its reader, which is zero too. -/
def ofBytes (b : List UInt8) : Stream := ⟨b, b.length, true, none, 0, 0, none, []⟩

/-- `willRead`: rearm `Kind`, charge `n` bytes to the innermost list and to the input limit. -/
def willRead (n : Nat) : StreamM Unit := do
  modify fun s => { s with kindAhead := none }
  let s ← get
  match s.stack with
  | tos :: rest =>
    if n > tos.size - tos.pos then throw .elemTooLarge
    set { s with stack := { tos with pos := tos.pos + n } :: rest }
  | [] => pure ()
  let s ← get
  if s.limited then
    if n > s.remaining then throw .valueTooLarge
    set { s with remaining := s.remaining - n }

/-- `readByte`. -/
def readByte : StreamM UInt8 := do
  willRead 1
  let s ← get
  match s.r with
  | b :: rest =>
    set { s with r := rest }
    pure b
  | [] => throw .unexpectedEOF

/-- `readFull` of a buffer of `n` bytes. -/
def readFull (n : Nat) : StreamM (List UInt8) := do
  willRead n
  let s ← get
  if n ≤ s.r.length then
    set { s with r := s.r.drop n }
    pure (s.r.take n)
  else
    set { s with r := [] }
    throw .unexpectedEOF

/-- `readUint`: a big-endian number of `size` bytes; more than one byte must not start with a
zero. -/
def readUint (size : Nat) : StreamM Nat :=
  match size with
  | 0 => do
    modify fun s => { s with kindAhead := none }
    pure 0
  | 1 => do
    let b ← readByte
    pure b.toNat
  | size + 2 => do
    let bytes ← readFull (size + 2)
    if bytes.head? = some 0 then throw .canonSize
    pure (BigEndian.ofBE bytes)

/-- `readKind`: the kind and size the next header announces, and its error. It never fails: its
error is the third component, which `Kind` keeps. -/
def readKind : StreamM (Kind × Nat × Option DecodeError) := fun s =>
  match readByte s with
  | .error err s =>
    -- at the top level, the end of the input is `io.EOF`
    let err := if s.stack.isEmpty ∧ (err = .unexpectedEOF ∨ err = .valueTooLarge) then .eof else err
    .ok (.byte, 0, some err) s
  | .ok b s =>
    let s := { s with byteval := 0 }
    if b < 0x80 then .ok (.byte, 0, none) { s with byteval := b }
    else if b < 0xB8 then .ok (.string, (b - 0x80).toNat, none) s
    else if b < 0xC0 then
      match readUint (b - 0xB7).toNat s with
      | .ok size s => .ok (.string, size, if size < 56 then some .canonSize else none) s
      | .error err s => .ok (.string, 0, some err) s
    else if b < 0xF8 then .ok (.list, (b - 0xC0).toNat, none) s
    else
      match readUint (b - 0xF7).toNat s with
      | .ok size s => .ok (.list, size, if size < 56 then some .canonSize else none) s
      | .error err s => .ok (.list, 0, some err) s

/-- `Kind`: the cached kind and size, or the next header's, checked against the room left in
the innermost list or in the input. An error is cached with them and returned again. -/
def kind : StreamM (Kind × Nat) := fun s =>
  match s.kindAhead with
  | some k =>
    match s.kinderr with
    | none => .ok (k, s.size) s
    | some e => .error e s
  | none =>
    let s := { s with kinderr := none }
    if s.stack.head?.any fun tos => tos.pos = tos.size then .error .eol s
    else
      match readKind s with
      | .ok (k, size, err) s =>
        let err := match err with
          | some e => some e
          | none =>
            match s.stack with
            | [] => if s.limited ∧ size > s.remaining then some .valueTooLarge else none
            | tos :: _ => if size > tos.size - tos.pos then some .elemTooLarge else none
        let s := { s with kindAhead := some k, size := size, kinderr := err }
        match err with
        | none => .ok (k, size) s
        | some e => .error e s
      | .error e s => .error e s

/-- `Bytes`. A string of one byte below `0x80` is refused: that byte is its own encoding. -/
def bytes : StreamM (List UInt8) := do
  let (k, size) ← kind
  match k with
  | .byte =>
    let s ← get
    set { s with kindAhead := none }
    pure [s.byteval]
  | .string =>
    let b ← readFull size
    if size = 1 ∧ b.head?.any (· < 128) then throw .canonSize
    pure b
  | .list => throw .expectedString

/-- `uint(maxbits)`, which `Uint`, `Bool` and `decodeUint` call. -/
def uint (maxbits : Nat) : StreamM Nat := do
  let (k, size) ← kind
  match k with
  | .byte =>
    let s ← get
    if s.byteval = 0 then throw .canonInt
    set { s with kindAhead := none }
    pure s.byteval.toNat
  | .string =>
    if size > maxbits / 8 then throw .uintOverflow
    let v ← fun s => match readUint size s with
      | .ok v s => .ok v s
      -- not a size being read: the error becomes `ErrCanonInt`
      | .error e s => .error (if e = .canonSize then .canonInt else e) s
    if 0 < size ∧ v < 128 then throw .canonSize
    pure v
  | .list => throw .expectedString

/-- `Bool`. -/
def bool : StreamM Bool := do
  let num ← uint 8
  match num with
  | 0 => pure false
  | 1 => pure true
  | _ => throw .invalidBool

/-- `List`: enter a list; the stream then reads its elements. -/
def list : StreamM Nat := do
  let (k, size) ← kind
  if k ≠ .list then throw .expectedList
  modify fun s => { s with stack := ⟨0, size⟩ :: s.stack, kindAhead := none, size := 0 }
  pure size

/-- `ListEnd`: leave a list read to its end; the enclosing list has then read all of it. -/
def listEnd : StreamM Unit := do
  let s ← get
  match s.stack with
  | [] => throw .notInList
  | tos :: rest =>
    if tos.pos ≠ tos.size then throw .notAtEOL
    let rest := match rest with
      | [] => []
      | up :: rest => { up with pos := up.pos + tos.size } :: rest
    set { s with stack := rest, kindAhead := none, size := 0 }

/-! ## The methods on input they accept

Each lemma says what a method returns and leaves when the input ahead is what an encoder
writes and the lists and the limit have room for it.
-/

/-- The innermost list after `n` more of its bytes are read. -/
def chargeTop (n : Nat) : List ListPos → List ListPos
  | [] => []
  | tos :: rest => { tos with pos := tos.pos + n } :: rest

/-- Room for `n` more bytes in the innermost list and in the input: `willRead n` succeeds. -/
def Fits (s : Stream) (n : Nat) : Prop :=
  (∀ tos ∈ s.stack.head?, n ≤ tos.size - tos.pos) ∧ (s.limited = true → n ≤ s.remaining)

/-- The stream as a successful `willRead n` leaves it. -/
def charge (s : Stream) (n : Nat) : Stream :=
  { s with kindAhead := none, stack := chargeTop n s.stack,
           remaining := if s.limited then s.remaining - n else s.remaining }

theorem chargeTop_chargeTop (a b : Nat) (st : List ListPos) :
    chargeTop b (chargeTop a st) = chargeTop (a + b) st := by
  cases st with
  | nil => rfl
  | cons tos rest => simp [chargeTop, Nat.add_assoc]

@[simp] theorem charge_charge (s : Stream) (a b : Nat) : (s.charge a).charge b = s.charge (a + b) := by
  cases h : s.limited <;> simp [charge, chargeTop_chargeTop, h, Nat.sub_sub]

theorem charge_with (s : Stream) (x : List UInt8) (b : UInt8) (n : Nat) :
    ({ s with r := x, byteval := b } : Stream).charge n = { s.charge n with r := x, byteval := b } :=
  rfl

theorem Fits.mono {s : Stream} {m n : Nat} (h : s.Fits n) (hmn : m ≤ n) : s.Fits m :=
  ⟨fun tos htos => hmn.trans (h.1 tos htos), fun hl => hmn.trans (h.2 hl)⟩

theorem Fits.charge {s : Stream} {a b : Nat} (h : s.Fits (a + b)) : (s.charge a).Fits b := by
  obtain ⟨ht, hl⟩ := h
  constructor
  · intro tos htos
    rcases hst : s.stack with _ | ⟨top, rest⟩
    · simp [Stream.charge, chargeTop, hst] at htos
    · simp only [Stream.charge, hst, chargeTop, List.head?_cons, Option.mem_def, Option.some.injEq] at htos
      subst htos
      have := ht top (by simp [hst])
      simp only
      omega
  · intro hlim
    have hlim' : s.limited = true := hlim
    have := hl hlim'
    simp only [Stream.charge, hlim', if_true]
    omega

theorem Fits.not_eol {s : Stream} {n : Nat} (h : s.Fits n) (hn : 0 < n) :
    ¬ (s.stack.head?.any fun tos => tos.pos = tos.size) := by
  rcases hst : s.stack with _ | ⟨tos, rest⟩
  · simp
  · have := h.1 tos (by simp [hst])
    simp only [List.head?_cons, Option.any_some, decide_eq_true_eq]
    omega

theorem willRead_ok {s : Stream} {n : Nat} (h : s.Fits n) : willRead n s = .ok () (s.charge n) := by
  obtain ⟨hs, hl⟩ := h
  rcases hst : s.stack with _ | ⟨tos, rest⟩ <;> cases hlim : s.limited
  all_goals simp_all [Nat.not_lt.mpr, willRead, charge, chargeTop, modify, modifyGet,
    MonadStateOf.modifyGet, EStateM.modifyGet, get, getThe, MonadStateOf.get, EStateM.get, bind,
    EStateM.bind, set, EStateM.set, pure, EStateM.pure]

theorem readByte_ok {s : Stream} {b : UInt8} {rest : List UInt8} (h : s.Fits 1)
    (hr : s.r = b :: rest) : readByte s = .ok b { s.charge 1 with r := rest } := by
  simp [readByte, willRead_ok h, get, getThe, MonadStateOf.get, EStateM.get,
    set, EStateM.set, charge, hr, pure, EStateM.pure, bind, EStateM.bind]

theorem readFull_ok {s : Stream} {n : Nat} (h : s.Fits n) (hn : n ≤ s.r.length) :
    readFull n s = .ok (s.r.take n) { s.charge n with r := s.r.drop n } := by
  simp [readFull, willRead_ok h, get, getThe, MonadStateOf.get, EStateM.get,
    set, EStateM.set, charge, hn, pure, EStateM.pure, bind, EStateM.bind]

theorem readUint_one {s s' : Stream} {b : UInt8} (h : readByte s = .ok b s') :
    readUint 1 s = .ok b.toNat s' := by
  simp only [readUint]
  rw [EStateM.bind_of_ok _ h]
  rfl

theorem readUint_add_two {s s' : Stream} {k : Nat} {bytes : List UInt8}
    (h : readFull (k + 2) s = .ok bytes s') (hhead : bytes.head? ≠ some 0) :
    readUint (k + 2) s = .ok (BigEndian.ofBE bytes) s' := by
  simp only [readUint]
  rw [EStateM.bind_of_ok _ h]
  simp [hhead, pure, EStateM.pure]

/-- The length bytes of a long header read back. -/
theorem readUint_putint {s : Stream} {size : Nat} {rest : List UInt8} (h56 : 56 ≤ size)
    (hb : size < 2 ^ 64) (hr : s.r = putint size ++ rest) (hf : s.Fits (intsize size)) :
    readUint (intsize size) s = .ok size { s.charge (intsize size) with r := rest } := by
  have hlen : (putint size).length = intsize size := length_putint size
  have hval : BigEndian.ofBE (putint size) = size :=
    BigEndian.ofBE_beBytes (by norm_num; omega)
  have hpos : 0 < intsize size := BigEndian.byteLength_pos (by norm_num) size
  obtain hk | ⟨k, hk⟩ : intsize size = 1 ∨ ∃ k, intsize size = k + 2 :=
    (Nat.lt_or_ge (intsize size) 2).imp (by omega) fun h => ⟨intsize size - 2, by omega⟩
  · -- one length byte
    obtain ⟨b, hbyte⟩ := List.length_eq_one_iff.1 (hlen.trans hk)
    rw [hbyte, BigEndian.ofBE_singleton] at hval
    rw [hbyte, List.singleton_append] at hr
    rw [hk] at hf ⊢
    rw [readUint_one (readByte_ok hf hr), hval]
  · -- several, the first of them not zero
    have hhead : (putint size).head? ≠ some 0 :=
      BigEndian.head_beBytes_ne_zero (by omega) (by norm_num; omega)
    rw [hk] at hf hlen ⊢
    have hfull := readFull_ok hf (by rw [hr, List.length_append, hlen]; omega)
    rw [hr, List.take_left' hlen, List.drop_left' hlen] at hfull
    rw [readUint_add_two hfull hhead, hval]

theorem readKind_of_lt {s : Stream} {b : UInt8} {rest : List UInt8} (hf : s.Fits 1)
    (hr : s.r = b :: rest) (hb : b < 0x80) :
    readKind s = .ok (.byte, 0, none) { s.charge 1 with r := rest, byteval := b } := by
  simp only [readKind, readByte_ok hf hr, hb, if_true]

/-- The header `puthead` writes, read back: a string's with the tags `0x80` and `0xB7`, a list's
with `0xC0` and `0xF7`. -/
theorem readKind_puthead {s : Stream} {k : Kind} {smalltag largetag : UInt8} {size : Nat}
    {rest : List UInt8}
    (htag : (k, smalltag, largetag) = (.string, 0x80, 0xB7) ∨
      (k, smalltag, largetag) = (.list, 0xC0, 0xF7))
    (hb : size < 2 ^ 64) (hr : s.r = puthead smalltag largetag size ++ rest)
    (hf : s.Fits (headsize size)) :
    readKind s = .ok (k, size, none) { s.charge (headsize size) with r := rest, byteval := 0 } := by
  unfold puthead at hr
  unfold headsize at hf ⊢
  split_ifs at hr hf ⊢ with h56
  · -- one header byte: the tag plus the size
    have hsize : (UInt8.ofNat size).toNat = size := UInt8.toNat_ofNat_of_lt' (by rw [UInt8.size]; omega)
    rw [List.singleton_append] at hr
    rcases htag with htag | htag <;> simp only [Prod.mk.injEq] at htag <;>
      obtain ⟨rfl, rfl, rfl⟩ := htag
    · have hb1 : (0x80 + UInt8.ofNat size).toNat = 0x80 + size := by
        simp only [UInt8.toNat_add, hsize]; simp; omega
      have hsub : (0x80 + UInt8.ofNat size - 0x80).toNat = size := by
        simp only [UInt8.toNat_sub, UInt8.toNat_add, hsize]; simp; omega
      simp only [readKind, readByte_ok hf hr, UInt8.lt_iff_toNat_lt, hb1, UInt8.reduceToNat]
      rw [if_neg (by omega), if_pos (by omega), hsub]
    · have hb1 : (0xC0 + UInt8.ofNat size).toNat = 0xC0 + size := by
        simp only [UInt8.toNat_add, hsize]; simp; omega
      have hsub : (0xC0 + UInt8.ofNat size - 0xC0).toNat = size := by
        simp only [UInt8.toNat_sub, UInt8.toNat_add, hsize]; simp; omega
      simp only [readKind, readByte_ok hf hr, UInt8.lt_iff_toNat_lt, hb1, UInt8.reduceToNat]
      rw [if_neg (by omega), if_neg (by omega), if_neg (by omega), if_pos (by omega), hsub]
  · -- the tag plus the length of the size, then the size
    have hL : 0 < intsize size ∧ intsize size ≤ 8 :=
      ⟨BigEndian.byteLength_pos (by norm_num) size, BigEndian.byteLength_le 8 size⟩
    have hlen : (putint size).length = intsize size := length_putint size
    have hsize : (UInt8.ofNat (intsize size)).toNat = intsize size :=
      UInt8.toNat_ofNat_of_lt' (by rw [UInt8.size]; omega)
    rw [List.cons_append, hlen] at hr
    have hf1 : s.Fits 1 := hf.mono (by omega)
    have huint := readUint_putint (s := { s.charge 1 with r := putint size ++ rest, byteval := 0 })
      (Nat.le_of_not_lt h56) hb rfl hf.charge
    simp only [charge_with, charge_charge] at huint
    rcases htag with htag | htag <;> simp only [Prod.mk.injEq] at htag <;>
      obtain ⟨rfl, rfl, rfl⟩ := htag
    · have hb1 : (0xB7 + UInt8.ofNat (intsize size)).toNat = 0xB7 + intsize size := by
        simp only [UInt8.toNat_add, hsize]; simp; omega
      have hsub : (0xB7 + UInt8.ofNat (intsize size) - 0xB7).toNat = intsize size := by
        simp only [UInt8.toNat_sub, UInt8.toNat_add, hsize]; simp; omega
      simp only [readKind, readByte_ok hf1 hr, UInt8.lt_iff_toNat_lt, hb1, UInt8.reduceToNat]
      rw [if_neg (by omega), if_neg (by omega), if_pos (by omega), hsub, huint]
      simp only [h56, if_false]
    · have hb1 : (0xF7 + UInt8.ofNat (intsize size)).toNat = 0xF7 + intsize size := by
        simp only [UInt8.toNat_add, hsize]; simp; omega
      have hsub : (0xF7 + UInt8.ofNat (intsize size) - 0xF7).toNat = intsize size := by
        simp only [UInt8.toNat_sub, UInt8.toNat_add, hsize]; simp; omega
      simp only [readKind, readByte_ok hf1 hr, UInt8.lt_iff_toNat_lt, hb1, UInt8.reduceToNat]
      rw [if_neg (by omega), if_neg (by omega), if_neg (by omega), if_neg (by omega), hsub, huint]
      simp only [h56, if_false]

theorem kind_cached {s : Stream} {k : Kind} (ha : s.kindAhead = some k) (he : s.kinderr = none) :
    kind s = .ok (k, s.size) s := by
  simp only [kind, ha, he]

theorem kind_eol {s : Stream} (ha : s.kindAhead = none)
    (heol : s.stack.head?.any fun tos => tos.pos = tos.size) :
    kind s = .error .eol { s with kinderr := none } := by
  simp only [kind, ha]
  rw [if_pos heol]

/-- A header read by `readKind` with room for the value it announces. -/
theorem kind_of_readKind {s s₁ : Stream} {k : Kind} {size : Nat} (ha : s.kindAhead = none)
    (hne : ¬ (s.stack.head?.any fun tos => tos.pos = tos.size))
    (hk : readKind { s with kinderr := none } = .ok (k, size, none) s₁) (hf : s₁.Fits size) :
    kind s = .ok (k, size) { s₁ with kindAhead := some k, size := size, kinderr := none } := by
  simp only [ha] at hk
  simp only [kind, ha]
  rw [if_neg hne, hk]
  obtain ⟨ht, hl⟩ := hf
  rcases hst : s₁.stack with _ | ⟨tos, rest⟩
  · cases hlim : s₁.limited
    · simp [hst, hlim]
    · have := hl hlim
      simp [hst, hlim, Nat.not_lt.mpr this]
  · have := ht tos (by simp [hst])
    simp [hst, Nat.not_lt.mpr this]

theorem kind_single {s : Stream} {b : UInt8} {rest : List UInt8} (ha : s.kindAhead = none)
    (hf : s.Fits 1) (hr : s.r = b :: rest) (hb : b < 0x80) :
    kind s = .ok (.byte, 0)
      { s.charge 1 with r := rest, byteval := b, kindAhead := some .byte, size := 0, kinderr := none } :=
  kind_of_readKind ha (hf.not_eol Nat.one_pos)
    (readKind_of_lt (s := { s with kinderr := none }) hf hr hb) ⟨fun _ _ => Nat.zero_le _, fun _ => Nat.zero_le _⟩

/-- The header of a string or a list with room for its payload. -/
theorem kind_puthead {s : Stream} {k : Kind} {smalltag largetag : UInt8} {size : Nat}
    {rest : List UInt8}
    (htag : (k, smalltag, largetag) = (.string, 0x80, 0xB7) ∨
      (k, smalltag, largetag) = (.list, 0xC0, 0xF7))
    (ha : s.kindAhead = none) (hb : size < 2 ^ 64) (hr : s.r = puthead smalltag largetag size ++ rest)
    (hf : s.Fits (headsize size + size)) :
    kind s = .ok (k, size)
      { s.charge (headsize size) with
        r := rest, byteval := 0, kindAhead := some k, size := size, kinderr := none } :=
  kind_of_readKind ha (hf.not_eol (by have := headsize_pos size; omega))
    (readKind_puthead (s := { s with kinderr := none }) htag hb hr (hf.mono (Nat.le_add_right _ _)))
    hf.charge

theorem bytes_of_kind_byte {s s₁ : Stream} {size : Nat} (hk : kind s = .ok (.byte, size) s₁) :
    bytes s = .ok [s₁.byteval] { s₁ with kindAhead := none } := by
  simp only [bytes]
  rw [EStateM.bind_of_ok _ hk]
  rfl

theorem bytes_of_kind_string {s s₁ : Stream} {size : Nat} (hk : kind s = .ok (.string, size) s₁)
    (hf : s₁.Fits size) (hn : size ≤ s₁.r.length)
    (hcanon : ¬ (size = 1 ∧ (s₁.r.take size).head?.any (· < 128))) :
    bytes s = .ok (s₁.r.take size) { s₁.charge size with r := s₁.r.drop size } := by
  simp only [bytes]
  rw [EStateM.bind_of_ok _ hk]
  simp only
  rw [EStateM.bind_of_ok _ (readFull_ok hf hn)]
  simp [hcanon, pure, EStateM.pure]

/-- `uint` at a cached single zero byte: the error, and `Kind` is not rearmed. -/
theorem uint_byte_zero {s : Stream} (maxbits : Nat) (ha : s.kindAhead = some .byte)
    (he : s.kinderr = none) (hb : s.byteval = 0) : uint maxbits s = .error .canonInt s := by
  simp only [uint]
  rw [EStateM.bind_of_ok _ (kind_cached ha he)]
  simp [hb, get, getThe, MonadStateOf.get, EStateM.get, bind, EStateM.bind, throw, throwThe,
    MonadExceptOf.throw, EStateM.throw]

theorem list_of_kind {s s₁ : Stream} {size : Nat} (hk : kind s = .ok (.list, size) s₁) :
    list s = .ok size { s₁ with stack := ⟨0, size⟩ :: s₁.stack, kindAhead := none, size := 0 } := by
  simp only [list]
  rw [EStateM.bind_of_ok _ hk]
  simp [modify, modifyGet, MonadStateOf.modifyGet, EStateM.modifyGet, bind, EStateM.bind, pure,
    EStateM.pure]

/-- `List` at the header of a list with room for its payload: the list is entered, nothing of it
read yet. -/
theorem list_puthead {s : Stream} {size : Nat} {rest : List UInt8} (ha : s.kindAhead = none)
    (hb : size < 2 ^ 64) (hr : s.r = puthead 0xC0 0xF7 size ++ rest)
    (hf : s.Fits (headsize size + size)) :
    list s = .ok size
      { s.charge (headsize size) with
        r := rest, byteval := 0, kinderr := none, size := 0,
        stack := ⟨0, size⟩ :: (s.charge (headsize size)).stack } :=
  list_of_kind (kind_puthead (Or.inr rfl) ha hb hr hf)

theorem listEnd_ok {s : Stream} {tos : ListPos} {rest : List ListPos} (hs : s.stack = tos :: rest)
    (hpos : tos.pos = tos.size) :
    listEnd s = .ok () { s with stack := chargeTop tos.size rest, kindAhead := none, size := 0 } := by
  cases rest <;> simp [listEnd, hs, hpos, chargeTop, get, getThe, MonadStateOf.get, EStateM.get, set,
    EStateM.set, bind, EStateM.bind]

/-- `s'` is `s` past `n` bytes of input with `rest` left and `Kind` rearmed: what reading one
whole value leaves. The fields only a cached `Kind` reads are not compared. -/
structure Past (s' s : Stream) (n : Nat) (rest : List UInt8) : Prop where
  r_eq : s'.r = rest
  armed : s'.kindAhead = none
  remaining_eq : s'.remaining = (s.charge n).remaining
  limited_eq : s'.limited = s.limited
  stack_eq : s'.stack = (s.charge n).stack

theorem Past.trans {s s₁ s₂ : Stream} {m n : Nat} {rest₁ rest₂ : List UInt8}
    (h₁ : s₁.Past s m rest₁) (h₂ : s₂.Past s₁ n rest₂) : s₂.Past s (m + n) rest₂ where
  r_eq := h₂.r_eq
  armed := h₂.armed
  remaining_eq := by
    rw [h₂.remaining_eq, ← charge_charge]
    show (if s₁.limited then s₁.remaining - n else s₁.remaining) =
      if (s.charge m).limited then (s.charge m).remaining - n else (s.charge m).remaining
    rw [h₁.remaining_eq, h₁.limited_eq]
    rfl
  limited_eq := h₂.limited_eq.trans h₁.limited_eq
  stack_eq := by
    rw [h₂.stack_eq, ← charge_charge]
    simp only [charge, h₁.stack_eq]

theorem Past.fits {s' s : Stream} {n m : Nat} {rest : List UInt8} (h : s'.Past s n rest)
    (hf : s.Fits (n + m)) : s'.Fits m := by
  have := hf.charge (a := n)
  exact ⟨by rw [h.stack_eq]; exact this.1, by rw [h.remaining_eq, h.limited_eq]; exact this.2⟩

/-- A byte string as `encodeString` writes it, read back by `Bytes`. -/
theorem bytes_encodeBytes {s : Stream} {b rest : List UInt8} (ha : s.kindAhead = none)
    (hb : b.length < 2 ^ 64) (hr : s.r = encodeBytes b ++ rest)
    (hf : s.Fits (encodeBytes b).length) :
    ∃ s', bytes s = .ok b s' ∧ s'.Past s (encodeBytes b).length rest := by
  unfold encodeBytes at hr hf ⊢
  by_cases hs : singleByte b = true
  · -- one byte below `0x80` is itself
    obtain ⟨c, rfl, hc⟩ := singleByte_iff.1 hs
    rw [if_pos hs] at hr hf ⊢
    have hc' : c < 0x80 := by
      simp only [UInt8.lt_iff_toNat_lt, UInt8.le_iff_toNat_le, UInt8.reduceToNat] at hc ⊢
      omega
    have hk := kind_single ha hf hr hc'
    exact ⟨_, bytes_of_kind_byte hk, rfl, rfl, rfl, rfl, rfl⟩
  · rw [if_neg hs] at hr hf ⊢
    rw [List.append_assoc] at hr
    rw [List.length_append, length_puthead] at hf
    have hk := kind_puthead (Or.inl rfl) ha hb hr hf
    have hcanon : ¬ (b.length = 1 ∧ ((b ++ rest).take b.length).head?.any (· < 128)) := by
      rintro ⟨h1, h128⟩
      obtain ⟨c, rfl⟩ := List.length_eq_one_iff.1 h1
      apply hs
      have hc : c.toNat < 128 := by simpa [UInt8.lt_iff_toNat_lt] using h128
      simp only [singleByte, decide_eq_true_eq, UInt8.le_iff_toNat_le, UInt8.reduceToNat]
      omega
    have hbytes := bytes_of_kind_string hk hf.charge (by simp) hcanon
    simp only [List.take_left', List.drop_left'] at hbytes
    refine ⟨_, hbytes, rfl, rfl, ?_, rfl, ?_⟩
    · cases hl : s.limited <;> simp [charge, hl, Nat.sub_sub, length_puthead]
    · simp [charge, chargeTop_chargeTop, length_puthead]

theorem kind_ok_cached {s s₁ : Stream} {k : Kind} {size : Nat} (h : kind s = .ok (k, size) s₁) :
    s₁.kindAhead = some k ∧ s₁.kinderr = none ∧ s₁.size = size := by
  unfold kind at h
  split at h
  · -- cached: the state is kept, and only without an error
    split at h
    · cases h
      simp_all
    · cases h
  · dsimp only at h
    split at h
    · cases h
    · split at h
      · split at h
        · cases h
          simp_all
        · cases h
      · cases h

theorem bind_kind_again {α : Type} {s s₁ : Stream} {r : Kind × Nat} (g : Kind × Nat → StreamM α)
    (h : kind s = .ok r s₁) : (kind >>= g) s₁ = (kind >>= g) s := by
  obtain ⟨k, size⟩ := r
  obtain ⟨hk, he, hs⟩ := kind_ok_cached h
  rw [EStateM.bind_of_ok g h, EStateM.bind_of_ok g (hs ▸ kind_cached hk he)]

theorem bytes_again {s s₁ : Stream} {r : Kind × Nat} (h : kind s = .ok r s₁) : bytes s₁ = bytes s := by
  unfold bytes
  exact bind_kind_again _ h

theorem list_again {s s₁ : Stream} {r : Kind × Nat} (h : kind s = .ok r s₁) : list s₁ = list s := by
  unfold list
  exact bind_kind_again _ h

theorem kind_of_bytes_ok {s s' : Stream} {b : List UInt8} (h : bytes s = .ok b s') :
    ∃ k size s₁, kind s = .ok (k, size) s₁ ∧ k ≠ .list := by
  unfold bytes at h
  rcases hk : kind s with ⟨⟨k, size⟩, s₁⟩ | ⟨e, s₁⟩
  · refine ⟨k, size, s₁, rfl, ?_⟩
    rintro rfl
    rw [EStateM.bind_of_ok _ hk] at h
    cases h
  · rw [EStateM.bind_of_error _ hk] at h
    cases h

end Stream

end Rlp
end IntChain
