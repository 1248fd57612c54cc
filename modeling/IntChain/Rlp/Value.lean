import IntChain.Rlp.Decode

/-!
# Typed RLP values

`Encode` and `Decode` choose a writer and a decoder by the Go type of the value
(`makeWriter`, `makeDecoder`). `Ty` is the part of Go's types the codec serialises without a
custom `Encoder`: unsigned integers of a bit size, `bool`, non-negative `*big.Int`, `string`,
`[]byte`, `[N]byte`, slices and structs of exported fields without tags. `Value` is a value of
one of them.

`writeValue` is the writer `makeWriter` chooses for the value, and `decodeValue` the decoder
`makeDecoder` chooses for the type. Every writer writes the encoding of an item
(`writeValue_eq_writeItem`), so `encodeToBytes_eq_encode` gives `EncodeToBytes` of a value.
The decoders do not all invert them: `decodeByteArray` drops the error of `s.Uint()` on a
byte array of one zero byte, and with it the rearming of `Kind`. The next decoder finds the
zero byte again: a struct with such a field and an integer after it fails to decode
(`decodeBytesAs_byteArray_zero`), and a slice of such arrays never ends
(`decodeValue_byteArray_zero_slice`).
-/

namespace IntChain
namespace Rlp

/-- The Go types of values the codec handles by reflection. -/
inductive Ty
  | uint (bits : Nat)
  | bool
  | bigInt
  | string
  | byteSlice
  | byteArray (len : Nat)
  | slice (elem : Ty)
  | struct (fields : List Ty)
  deriving Repr

/-- A value of one of those types; a `string` is its bytes. -/
inductive Value
  | uint (i : Nat)
  | bool (b : Bool)
  | bigInt (i : Nat)
  | string (s : List UInt8)
  | byteSlice (b : List UInt8)
  | byteArray (b : List UInt8)
  | slice (elems : List Value)
  | struct (fields : List Value)
  deriving Repr

mutual
/-- Whether a value is one of the type: an integer fits its bits and an array has its length. -/
def Value.hasType : Value → Ty → Bool
  | .uint i, .uint bits => decide (i < 2 ^ bits)
  | .bool _, .bool => true
  | .bigInt _, .bigInt => true
  | .string _, .string => true
  | .byteSlice _, .byteSlice => true
  | .byteArray b, .byteArray len => b.length == len
  | .slice elems, .slice elem => Value.allHaveType elems elem
  | .struct fields, .struct tys => Value.fieldsHaveTypes fields tys
  | _, _ => false

def Value.allHaveType : List Value → Ty → Bool
  | [], _ => true
  | v :: vs, t => v.hasType t && Value.allHaveType vs t

def Value.fieldsHaveTypes : List Value → List Ty → Bool
  | [], [] => true
  | v :: vs, t :: ts => v.hasType t && Value.fieldsHaveTypes vs ts
  | _, _ => false
end

/-! ## Writers -/

/-- `writeUint`: zero is the empty string, below 128 a single byte, and otherwise the
big-endian bytes under a short string header. -/
def writeUint (i : Nat) (w : Encbuf) : Encbuf :=
  if i = 0 then { w with str := w.str ++ [0x80] }
  else if i < 128 then { w with str := w.str ++ [UInt8.ofNat i] }
  else { w with str := w.str ++ (0x80 + UInt8.ofNat (putint i).length) :: putint i }

/-- `writeBool`. -/
def writeBool (b : Bool) (w : Encbuf) : Encbuf :=
  { w with str := w.str ++ [if b then 0x01 else 0x80] }

/-- `writeBigInt` of a non-negative number: zero is the empty string, and otherwise
`encodeString(i.Bytes())`. -/
def writeBigInt (i : Nat) (w : Encbuf) : Encbuf :=
  if i = 0 then { w with str := w.str ++ [0x80] } else w.encodeString (BigEndian.toBytes i)

/-- `writeString`, with the test of `encodeString` written out again. -/
def writeString (s : List UInt8) (w : Encbuf) : Encbuf :=
  if singleByte s then { w with str := w.str ++ s }
  else { w.encodeStringHeader s.length with str := (w.encodeStringHeader s.length).str ++ s }

mutual
/-- The writer `makeWriter` chooses: `writeBytes` and `writeByteArray` are `encodeString`, and
the slice and struct writers open a list, write the elements and end it. -/
def writeValue : Value → Encbuf → Encbuf
  | .uint i, w => writeUint i w
  | .bool b, w => writeBool b w
  | .bigInt i, w => writeBigInt i w
  | .string s, w => writeString s w
  | .byteSlice b, w => w.encodeString b
  | .byteArray b, w => w.encodeString b
  | .slice elems, w => (writeValues elems w.list.1).listEnd w.list.2
  | .struct fields, w => (writeValues fields w.list.1).listEnd w.list.2

def writeValues : List Value → Encbuf → Encbuf
  | [], w => w
  | v :: vs, w => writeValues vs (writeValue v w)
end

/-- `EncodeToBytes` of a value. -/
def encodeValue (v : Value) : List UInt8 := (writeValue v Encbuf.empty).toBytes

/-! ## Decoders -/

/-- `decodeBigInt`: the bytes of a string, which must not start with a zero byte. -/
def decodeBigInt : StreamM Nat := do
  let b ← Stream.bytes
  if b.head? = some 0 then throw .canonInt
  pure (BigEndian.ofBE b)

/-- `decodeByteArray` into `[vlen]byte`. For a single byte the result of `s.Uint()` is kept
and its error dropped: a zero byte makes `uint` fail before it rearms `Kind`, and the array
gets the zero `bv` that `Uint` returns with the error. -/
def decodeByteArray (vlen : Nat) : StreamM (List UInt8) := do
  let (k, size) ← Stream.kind
  match k with
  | .byte =>
    if vlen = 0 then throw .inputStringTooLong
    if vlen > 1 then throw .inputStringTooShort
    let bv ← fun s => match Stream.uint 64 s with
      | .ok bv s => .ok bv s
      | .error _ s => .ok 0 s
    pure [UInt8.ofNat bv]
  | .string =>
    if vlen < size then throw .inputStringTooLong
    if vlen > size then throw .inputStringTooShort
    let slice ← Stream.readFull vlen
    if size = 1 ∧ slice.head?.any (· < 128) then throw .canonSize
    pure slice
  | .list => throw .expectedString

/-- A field of the struct decoder: the end of the list there means too few elements. -/
def decodeField {α : Type} (dec : StreamM α) : StreamM α := fun s =>
  match dec s with
  | .error .eol s => .error .tooFewElements s
  | r => r

/-- `makeStructDecoder`: a list with one element for each field, and no more. -/
def decodeStruct {α : Type} (fields : List (StreamM α)) : StreamM (List α) := do
  let _ ← Stream.list
  let vs ← fields.mapM decodeField
  Stream.listEnd
  pure vs

/-- The decoder `makeDecoder` chooses for a type. The slice loop runs on the fuel, and so does
the recursion into the element and field types. -/
def decodeValue : Nat → Ty → StreamM Value
  | 0, _ => throw .outOfFuel
  | _ + 1, .uint bits => .uint <$> Stream.uint bits
  | _ + 1, .bool => .bool <$> Stream.bool
  | _ + 1, .bigInt => .bigInt <$> decodeBigInt
  | _ + 1, .string => .string <$> Stream.bytes
  | _ + 1, .byteSlice => .byteSlice <$> Stream.bytes
  | _ + 1, .byteArray len => .byteArray <$> decodeByteArray len
  | fuel + 1, .slice elem => .slice <$> decodeListSlice (decodeValue fuel elem) fuel
  | fuel + 1, .struct fields => .struct <$> decodeStruct (fields.map (decodeValue fuel))

/-- `DecodeBytes` into a value of the type. -/
def decodeBytesAs (t : Ty) (b : List UInt8) : Except DecodeError Value :=
  match decodeValue (b.length + 1) t (Stream.ofBytes b) with
  | .ok v s => if s.r.isEmpty then .ok v else .error .moreThanOneValue
  | .error e _ => .error e

/-! ## Writers and items -/

/-- `writeUint` writes the string of the number's big-endian bytes, none for zero. -/
theorem writeUint_eq_encodeString (i : Nat) (w : Encbuf) :
    writeUint i w = w.encodeString (if i = 0 then [] else putint i) := by
  unfold writeUint Encbuf.encodeString Encbuf.encodeStringHeader
  by_cases h0 : i = 0
  · simp [h0, singleByte, puthead]
  · by_cases h128 : i < 128
    · have hi : (UInt8.ofNat i).toNat = i := UInt8.toNat_ofNat_of_lt' (by rw [UInt8.size]; omega)
      have hs : singleByte [UInt8.ofNat i] = true := by
        simp only [singleByte, decide_eq_true_eq, UInt8.le_iff_toNat_le, hi, UInt8.reduceToNat]
        omega
      simp [h0, h128, putint_of_lt (by omega : i < 256), hs]
    · have hlen : (putint i).length ≤ 8 := (length_putint i).trans_le (BigEndian.byteLength_le 8 i)
      simp [h0, h128, singleByte_putint (by omega : 128 ≤ i), puthead, show (putint i).length < 56 by omega]

theorem writeBool_eq_encodeString (b : Bool) (w : Encbuf) :
    writeBool b w = w.encodeString (if b then [1] else []) := by
  cases b <;> simp [writeBool, Encbuf.encodeString, Encbuf.encodeStringHeader, singleByte, puthead]

theorem writeBigInt_eq_encodeString (i : Nat) (w : Encbuf) :
    writeBigInt i w = w.encodeString (BigEndian.toBytes i) := by
  unfold writeBigInt
  split_ifs with h0
  · subst h0
    simp [BigEndian.toBytes, Encbuf.encodeString, Encbuf.encodeStringHeader, singleByte, puthead]
  · rfl

mutual
/-- The item a value's writer writes: a string for a scalar, a list for a slice or a struct. -/
def Value.toItem : Value → Item
  | .uint i => .bytes (if i = 0 then [] else putint i)
  | .bool b => .bytes (if b then [1] else [])
  | .bigInt i => .bytes (BigEndian.toBytes i)
  | .string s => .bytes s
  | .byteSlice b => .bytes b
  | .byteArray b => .bytes b
  | .slice elems => .list (Value.toItems elems)
  | .struct fields => .list (Value.toItems fields)

def Value.toItems : List Value → List Item
  | [] => []
  | v :: vs => v.toItem :: Value.toItems vs
end

mutual
theorem writeValue_eq_writeItem : ∀ (v : Value) (w : Encbuf), writeValue v w = writeItem v.toItem w
  | .uint i, w => by rw [writeValue, writeUint_eq_encodeString, Value.toItem, writeItem]
  | .bool b, w => by rw [writeValue, writeBool_eq_encodeString, Value.toItem, writeItem]
  | .bigInt i, w => by rw [writeValue, writeBigInt_eq_encodeString, Value.toItem, writeItem]
  | .string s, w => by rw [writeValue, Value.toItem, writeItem]; rfl
  | .byteSlice b, w => by rw [writeValue, Value.toItem, writeItem]
  | .byteArray b, w => by rw [writeValue, Value.toItem, writeItem]
  | .slice elems, w => by rw [writeValue, Value.toItem, writeItem, writeValues_eq_writeItems]
  | .struct fields, w => by rw [writeValue, Value.toItem, writeItem, writeValues_eq_writeItems]

theorem writeValues_eq_writeItems :
    ∀ (vs : List Value) (w : Encbuf), writeValues vs w = writeItems (Value.toItems vs) w
  | [], w => by rw [writeValues, Value.toItems, writeItems]
  | v :: vs, w => by
    rw [writeValues, Value.toItems, writeItems, writeValue_eq_writeItem, writeValues_eq_writeItems]
end

/-- `EncodeToBytes` of a value is the encoding of the item its writer writes. -/
theorem encodeValue_eq_encode (v : Value) : encodeValue v = v.toItem.encode := by
  rw [encodeValue, writeValue_eq_writeItem]
  exact (writeItem_empty v.toItem).2.2

/-! ## The zero byte array -/

section Decoders

variable {α : Type} {dec : StreamM α} {s s' : Stream}

theorem decodeField_ok {v : α} (h : dec s = .ok v s') : decodeField dec s = .ok v s' := by
  simp only [decodeField, h]

theorem decodeField_error {e : DecodeError} (h : dec s = .error e s') (he : e ≠ .eol) :
    decodeField dec s = .error e s' := by
  simp only [decodeField, h]
  cases e <;> simp_all

end Decoders

/-- `decodeByteArray` into `[1]byte` at a single zero byte: the array gets the zero, and the
stream is left with the byte still cached as the kind ahead. -/
theorem decodeByteArray_one_of_zero {s s₁ : Stream} {size : Nat}
    (hk : Stream.kind s = .ok (.byte, size) s₁) (hb : s₁.byteval = 0) :
    decodeByteArray 1 s = .ok [0] s₁ := by
  obtain ⟨hka, he, -⟩ := Stream.kind_ok_cached hk
  unfold decodeByteArray
  rw [EStateM.bind_of_ok _ hk]
  simp only [Nat.one_ne_zero, if_false, Nat.lt_irrefl]
  -- the error of `s.Uint()` is dropped with the stream it left, which is `s₁`
  simp only [bind, EStateM.bind, Stream.uint_byte_zero 64 hka he hb]
  rfl

theorem length_encodeBytes_putint_le (x : Nat) :
    (encodeBytes (if x = 0 then [] else putint x)).length ≤ 9 := by
  have h8 : (putint x).length ≤ 8 := (length_putint x).trans_le (BigEndian.byteLength_le 8 x)
  have hh : headsize (putint x).length = 1 := by simp [headsize]; omega
  by_cases hx : x = 0
  · simp [hx, encodeBytes, singleByte, length_puthead, headsize]
  · rw [if_neg hx]
    unfold encodeBytes
    split_ifs with hs
    · omega
    · simp only [List.length_append, length_puthead, hh]
      omega

/-- A struct whose `[1]byte` field holds a zero byte, followed by an unsigned integer field,
does not decode from its own encoding: the integer's decoder finds the zero byte still cached
as the kind ahead and rejects it as a non-canonical integer. -/
theorem decodeBytesAs_byteArray_zero (bits x : Nat) :
    decodeBytesAs (.struct [.byteArray 1, .uint bits])
      (encodeValue (.struct [.byteArray [0], .uint x])) = .error .canonInt := by
  -- the encoding: a short list header, the zero byte, and the integer's string
  have henc : encodeValue (.struct [.byteArray [0], .uint x]) =
      puthead 0xC0 0xF7 ((encodeBytes (if x = 0 then [] else putint x)).length + 1) ++
        (0 :: encodeBytes (if x = 0 then [] else putint x)) := by
    rw [encodeValue_eq_encode]
    simp [Value.toItem, Value.toItems, encode_list, Item.encodeList, encode_bytes, encodeBytes,
      singleByte]
  have hu9 := length_encodeBytes_putint_le x
  generalize encodeBytes (if x = 0 then [] else putint x) = u at henc hu9
  have hhead : headsize (u.length + 1) = 1 := by simp [headsize]; omega
  rw [henc]
  generalize hb : puthead 0xC0 0xF7 (u.length + 1) ++ 0 :: u = b
  have hblen : b.length = u.length + 2 := by
    rw [← hb, List.length_append, length_puthead, hhead, List.length_cons]
    omega
  -- `List` enters the struct's list
  have hl := Stream.list_puthead (s := Stream.ofBytes b) rfl (by omega)
    (show (Stream.ofBytes b).r = puthead 0xC0 0xF7 (u.length + 1) ++ 0 :: u from hb.symm)
    ⟨fun _ h => by simp [Stream.ofBytes] at h, fun _ => by simp [Stream.ofBytes, hblen, hhead]; omega⟩
  rw [hhead] at hl
  set s₂ : Stream := { (Stream.ofBytes b).charge 1 with
      r := 0 :: u, byteval := 0, kinderr := none, size := 0,
      stack := ⟨0, u.length + 1⟩ :: ((Stream.ofBytes b).charge 1).stack } with hs₂
  -- the byte array reads the zero byte, and `Uint` leaves it cached
  obtain ⟨s₃, hk, hb₃⟩ : ∃ s₃, Stream.kind s₂ = .ok (.byte, 0) s₃ ∧ s₃.byteval = 0 :=
    ⟨_, Stream.kind_single rfl
      ⟨fun tos h => by
        simp [hs₂, Stream.charge, Stream.chargeTop, Stream.ofBytes] at h
        subst h
        simp,
        fun _ => by simp [hs₂, Stream.charge, Stream.ofBytes, hblen]⟩ rfl (by decide), rfl⟩
  have h₁ := decodeField_ok (EStateM.map_of_ok Value.byteArray (decodeByteArray_one_of_zero hk hb₃))
  obtain ⟨hka, he, -⟩ := Stream.kind_ok_cached hk
  have h₂ := decodeField_error (EStateM.map_of_error Value.uint (Stream.uint_byte_zero bits hka he hb₃))
    (by decide)
  -- the fields: the first, then the error of the second
  have hmap : ([Value.byteArray <$> decodeByteArray 1, Value.uint <$> Stream.uint bits].mapM
      decodeField) s₂ = .error .canonInt s₃ := by
    rw [List.mapM_cons, EStateM.bind_of_ok _ h₁, List.mapM_cons,
      EStateM.bind_of_error _ (EStateM.bind_of_error _ h₂)]
  have hval : decodeValue (b.length + 1) (.struct [.byteArray 1, .uint bits])
      (Stream.ofBytes b) = .error .canonInt s₃ := by
    rw [hblen]
    show (Value.struct <$> decodeStruct [Value.byteArray <$> decodeByteArray 1,
      Value.uint <$> Stream.uint bits]) (Stream.ofBytes b) = _
    apply EStateM.map_of_error
    unfold decodeStruct
    rw [EStateM.bind_of_ok _ hl, EStateM.bind_of_error _ hmap]
  simp [decodeBytesAs, hval]

/-- `DecodeBytes` of the encoding of `[][1]byte{{0}}` never returns: whatever the fuel, the
element loop runs out of it, for after the first element every element decoder returns the
zero byte array and leaves the stream as it found it. -/
theorem decodeValue_byteArray_zero_slice (fuel : Nat) :
    ∃ s', decodeValue fuel (.slice (.byteArray 1))
      (Stream.ofBytes (encodeValue (.slice [.byteArray [0]]))) = .error .outOfFuel s' := by
  have henc : encodeValue (.slice [.byteArray [0]]) = puthead 0xC0 0xF7 1 ++ [0] := by decide
  rw [henc]
  rcases fuel with _ | f
  · exact ⟨_, rfl⟩
  -- `List` enters the list of one byte
  have hl := Stream.list_puthead (s := Stream.ofBytes (puthead 0xC0 0xF7 1 ++ [0])) rfl
    (by norm_num) rfl ⟨fun _ h => by simp [Stream.ofBytes] at h, fun _ => by decide⟩
  set s₂ : Stream := { (Stream.ofBytes (puthead 0xC0 0xF7 1 ++ [0])).charge (headsize 1) with
      r := [0], byteval := 0, kinderr := none, size := 0,
      stack := ⟨0, 1⟩ :: ((Stream.ofBytes (puthead 0xC0 0xF7 1 ++ [0])).charge (headsize 1)).stack }
    with hs₂
  rcases f with _ | g
  · -- no fuel for the first element
    exact ⟨_, EStateM.map_of_error _ (decodeListSlice_of_error hl one_ne_zero rfl)⟩
  -- the first element reads the zero byte and leaves it cached
  obtain ⟨s₃, hk, hb₃⟩ : ∃ s₃, Stream.kind s₂ = .ok (.byte, 0) s₃ ∧ s₃.byteval = 0 :=
    ⟨_, Stream.kind_single rfl ⟨fun tos h => by
        simp [hs₂, Stream.charge, Stream.chargeTop, Stream.ofBytes] at h
        subst h
        simp, fun _ => by decide⟩ rfl (by decide), rfl⟩
  obtain ⟨hka, he, -⟩ := Stream.kind_ok_cached hk
  have h₁ : decodeValue (g + 1) (.byteArray 1) s₂ = .ok (.byteArray [0]) s₃ :=
    EStateM.map_of_ok _ (decodeByteArray_one_of_zero hk hb₃)
  -- from then on the element decoder stands still
  have hfix : decodeValue (g + 1) (.byteArray 1) s₃ = .ok (.byteArray [0]) s₃ :=
    EStateM.map_of_ok _ (decodeByteArray_one_of_zero (Stream.kind_cached hka he) hb₃)
  have hloop : decodeSliceElems (decodeValue (g + 1) (.byteArray 1)) (g + 1) s₂ =
      .error .outOfFuel s₃ := by
    simp only [decodeSliceElems, h₁, decodeSliceElems_of_fixed hfix g]
  exact ⟨_, EStateM.map_of_error _ (decodeListSlice_of_error hl one_ne_zero hloop)⟩

end Rlp
end IntChain
