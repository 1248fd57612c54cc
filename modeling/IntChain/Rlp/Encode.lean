import IntChain.Lib.BigEndian

/-!
# RLP encoding

`rlp/encode.go`. An item is a byte string or a list of items, which Go encodes as a `[]byte`
or a `[]interface{}` of items. `Item.encode` is the encoding the RLP rules give: a single byte
below `0x80` is itself, a string of up to 55 bytes has the header `0x80 + length`, a longer
one `0xB7 + n` and the `n` big-endian bytes of its length, and a list the same with `0xC0`
and `0xF7` over the concatenated encodings of its items.

`EncodeToBytes` does not write the headers of lists where they go. `encbuf` keeps the string
data apart, and a list header is only a record of its offset: `listEnd` computes the size
once the items are written, and `toBytes` splices the headers in. `encodeToBytes_eq_encode`
says the two agree. The proof rests on one fact about the buffer (`writeItem_eq_append`):
writing an item appends to the buffer what writing it to an empty buffer gives, its headers
moved to where the item starts.
-/

namespace IntChain
namespace Rlp

/-- An RLP item: a byte string, or a list of items. -/
inductive Item
  | bytes (b : List UInt8)
  | list (items : List Item)
  deriving Repr

/-- `putint`: the big-endian bytes of a size, at most eight. -/
def putint (i : Nat) : List UInt8 := BigEndian.beBytes 8 i

/-- `intsize`: how many bytes `putint` writes. -/
def intsize (i : Nat) : Nat := BigEndian.byteLength 8 i

/-- `headsize`. -/
def headsize (size : Nat) : Nat := if size < 56 then 1 else 1 + intsize size

/-- `puthead`: the header of a string (tags `0x80`, `0xB7`) or of a list (`0xC0`, `0xF7`). -/
def puthead (smalltag largetag : UInt8) (size : Nat) : List UInt8 :=
  if size < 56 then [smalltag + UInt8.ofNat size]
  else (largetag + UInt8.ofNat (putint size).length) :: putint size

/-- The test of `encodeString` and `writeString`: one byte of at most `0x7F` is its own
encoding. -/
def singleByte : List UInt8 → Bool
  | [b] => decide (b ≤ 0x7F)
  | _ => false

/-- The encoding of a byte string. -/
def encodeBytes (b : List UInt8) : List UInt8 :=
  if singleByte b then b else puthead 0x80 0xB7 b.length ++ b

mutual
/-- The RLP encoding of an item. -/
def Item.encode : Item → List UInt8
  | .bytes b => encodeBytes b
  | .list items =>
    let payload := Item.encodeList items
    puthead 0xC0 0xF7 payload.length ++ payload

/-- The concatenated encodings of the items of a list. -/
def Item.encodeList : List Item → List UInt8
  | [] => []
  | t :: ts => t.encode ++ Item.encodeList ts
end

theorem length_putint (i : Nat) : (putint i).length = intsize i :=
  BigEndian.length_beBytes 8 i

theorem putint_of_lt {i : Nat} (h : i < 256) : putint i = [UInt8.ofNat i] := by
  simp [putint, BigEndian.beBytes, h]

theorem singleByte_putint {i : Nat} (h : 128 ≤ i) : singleByte (putint i) = false := by
  by_cases h256 : i < 256
  · rw [putint_of_lt h256]
    have hi : (UInt8.ofNat i).toNat = i := UInt8.toNat_ofNat_of_lt' (by rw [UInt8.size]; omega)
    simp only [singleByte, decide_eq_false_iff_not, UInt8.le_iff_toNat_le, hi, UInt8.reduceToNat]
    omega
  · -- two bytes at least
    have hlen : 2 ≤ (putint i).length := by
      rw [length_putint, intsize]
      unfold BigEndian.byteLength
      rw [if_neg h256]
      exact Nat.succ_le_succ (BigEndian.byteLength_pos (by norm_num) (i / 256))
    cases hp : putint i with
    | nil => simp [hp] at hlen
    | cons c l =>
      cases l with
      | nil => simp [hp] at hlen
      | cons d l => rfl

theorem length_puthead (smalltag largetag : UInt8) (size : Nat) :
    (puthead smalltag largetag size).length = headsize size := by
  unfold puthead headsize
  split_ifs <;> simp [length_putint, Nat.add_comm]

theorem headsize_pos (size : Nat) : 0 < headsize size := by
  unfold headsize
  split_ifs <;> omega

theorem singleByte_iff {b : List UInt8} : singleByte b = true ↔ ∃ c, b = [c] ∧ c ≤ 0x7F := by
  constructor
  · intro h
    match b, h with
    | [c], h => exact ⟨c, rfl, by simpa [singleByte] using h⟩
  · rintro ⟨c, rfl, hc⟩
    simpa [singleByte] using hc

/-- A list header records where the list starts in the string data, and its size once
`listEnd` has run. -/
structure Listhead where
  offset : Nat
  size : Nat
  deriving Repr, DecidableEq

/-- `encbuf`: the string data, the list headers in the order the lists were opened, and the
total size of the list headers that have been ended. -/
structure Encbuf where
  str : List UInt8
  lheads : List Listhead
  lhsize : Nat
  deriving Repr, DecidableEq

namespace Encbuf

/-- An `encbuf` after `reset`. -/
def empty : Encbuf := ⟨[], [], 0⟩

def size (w : Encbuf) : Nat := w.str.length + w.lhsize

/-- `encodeStringHeader`. -/
def encodeStringHeader (w : Encbuf) (size : Nat) : Encbuf :=
  { w with str := w.str ++ puthead 0x80 0xB7 size }

/-- `encodeString`, which `writeBytes` calls. -/
def encodeString (w : Encbuf) (b : List UInt8) : Encbuf :=
  if singleByte b then { w with str := w.str ++ b }
  else { w.encodeStringHeader b.length with str := (w.encodeStringHeader b.length).str ++ b }

/-- `list`: a header at the current end of the string data; its size field holds `lhsize`
until `listEnd`. The header is returned as its index. -/
def list (w : Encbuf) : Encbuf × Nat :=
  ({ w with lheads := w.lheads ++ [⟨w.str.length, w.lhsize⟩] }, w.lheads.length)

/-- `listEnd`: the size of what was written since the header, headers included. -/
def listEnd (w : Encbuf) (lh : Nat) : Encbuf :=
  let head := w.lheads.getD lh ⟨0, 0⟩
  let size := w.size - head.offset - head.size
  { w with lheads := w.lheads.set lh { head with size := size },
           lhsize := w.lhsize + if size < 56 then 1 else 1 + intsize size }

/-- One iteration of the loop of `toBytes`: the string data up to the header, then the header.
The second component is `strpos`. -/
def emitHead (str : List UInt8) (acc : List UInt8 × Nat) (head : Listhead) : List UInt8 × Nat :=
  (acc.1 ++ (str.drop acc.2).take (head.offset - acc.2) ++ puthead 0xC0 0xF7 head.size,
    head.offset)

/-- `toBytes`: the string data with the list headers spliced in. -/
def toBytes (w : Encbuf) : List UInt8 :=
  let r := w.lheads.foldl (emitHead w.str) ([], 0)
  r.1 ++ w.str.drop r.2

/-- `listEnd` of the header at a given place. -/
theorem listEnd_middle (str : List UInt8) (hs hs' : List Listhead) (h : Listhead) (l : Nat) :
    (Encbuf.mk str (hs ++ h :: hs') l).listEnd hs.length =
      ⟨str, hs ++ { h with size := str.length + l - h.offset - h.size } :: hs',
        l + if str.length + l - h.offset - h.size < 56 then 1
          else 1 + intsize (str.length + l - h.offset - h.size)⟩ := by
  simp [listEnd, size]

end Encbuf

mutual
/-- The writer of an item: `writeInterface` on a `[]byte` runs `writeBytes`, and on a
`[]interface{}` the writer `makeSliceWriter` makes, which opens a list, writes the elements
and ends it. -/
def writeItem : Item → Encbuf → Encbuf
  | .bytes b, w => w.encodeString b
  | .list items, w => (writeItems items w.list.1).listEnd w.list.2

def writeItems : List Item → Encbuf → Encbuf
  | [], w => w
  | t :: ts, w => writeItems ts (writeItem t w)
end

/-- `EncodeToBytes` of an item. -/
def encodeToBytes (t : Item) : List UInt8 := (writeItem t Encbuf.empty).toBytes

namespace Encbuf

/-- One buffer written after another: the string data appended, the headers of the second
moved by the length of the first's data. -/
def append (v u : Encbuf) : Encbuf :=
  ⟨v.str ++ u.str, v.lheads ++ u.lheads.map fun h => { h with offset := v.str.length + h.offset },
    v.lhsize + u.lhsize⟩

/-- Every header lies within the string data. -/
def Wf (w : Encbuf) : Prop := ∀ h ∈ w.lheads, h.offset ≤ w.str.length

theorem size_append (v u : Encbuf) : (v.append u).size = v.size + u.size := by
  simp only [size, append, List.length_append]
  omega

theorem Wf.append {v u : Encbuf} (hv : v.Wf) (hu : u.Wf) : (v.append u).Wf := by
  intro h hh
  simp only [Encbuf.append, List.mem_append, List.mem_map] at hh
  simp only [Encbuf.append, List.length_append]
  rcases hh with hh | ⟨h', hh', rfl⟩
  · have := hv h hh
    omega
  · have := hu h' hh'
    dsimp only
    omega

/-- The loop of `toBytes` only ever appends to what it has written. -/
theorem foldl_emitHead_fst (str : List UInt8) (hs : List Listhead) (pre out : List UInt8)
    (pos : Nat) :
    (hs.foldl (emitHead str) (pre ++ out, pos)).1 = pre ++ (hs.foldl (emitHead str) (out, pos)).1 ∧
      (hs.foldl (emitHead str) (pre ++ out, pos)).2 = (hs.foldl (emitHead str) (out, pos)).2 := by
  induction hs generalizing out pos with
  | nil => exact ⟨rfl, rfl⟩
  | cons h hs ih =>
    simp only [List.foldl_cons, emitHead]
    have := ih (out ++ (str.drop pos).take (h.offset - pos) ++ puthead 0xC0 0xF7 h.size) h.offset
    simp only [List.append_assoc] at this ⊢
    exact this

/-- Headers within the first part of the data read only that part. -/
theorem foldl_emitHead_append_str {str : List UInt8} (more : List UInt8) {hs : List Listhead}
    (hh : ∀ h ∈ hs, h.offset ≤ str.length) (acc : List UInt8 × Nat) (hacc : acc.2 ≤ str.length) :
    hs.foldl (emitHead (str ++ more)) acc = hs.foldl (emitHead str) acc ∧
      (hs.foldl (emitHead str) acc).2 ≤ str.length := by
  induction hs generalizing acc with
  | nil => exact ⟨rfl, hacc⟩
  | cons h hs ih =>
    have hoff := hh h List.mem_cons_self
    have hstep : emitHead (str ++ more) acc h = emitHead str acc h := by
      simp only [emitHead, List.drop_append_of_le_length hacc, Prod.mk.injEq, and_true]
      rw [List.take_append_of_le_length (by simp; omega)]
    simp only [List.foldl_cons, hstep]
    exact ih (fun h' hh' => hh h' (List.mem_cons_of_mem _ hh')) _ hoff

/-- Headers moved past the first part of the data read the second part as they read it
alone. -/
theorem foldl_emitHead_shift (str more : List UInt8) (hs : List Listhead) (out : List UInt8)
    (pos : Nat) :
    (hs.map fun h => { h with offset := str.length + h.offset }).foldl (emitHead (str ++ more))
        (out, str.length + pos) =
      ((hs.foldl (emitHead more) (out, pos)).1,
        str.length + (hs.foldl (emitHead more) (out, pos)).2) := by
  induction hs generalizing out pos with
  | nil => rfl
  | cons h hs ih =>
    simp only [List.map_cons, List.foldl_cons, emitHead]
    have hdrop : (str ++ more).drop (str.length + pos) = more.drop pos := by
      rw [List.drop_append]
      simp
    rw [hdrop, show str.length + h.offset - (str.length + pos) = h.offset - pos by omega]
    exact ih _ _

/-- The first step of the second part starts where the first part's loop left off. -/
theorem toBytes_append {v u : Encbuf} (hv : v.Wf) : (v.append u).toBytes = v.toBytes ++ u.toBytes := by
  obtain ⟨hfold, hpos⟩ := foldl_emitHead_append_str u.str hv ([], 0) (Nat.zero_le _)
  simp only [toBytes, append, List.foldl_append, hfold]
  generalize hr : v.lheads.foldl (emitHead v.str) ([], 0) = r at hpos
  obtain ⟨out, pos⟩ := r
  simp only at hpos ⊢
  cases hu : u.lheads with
  | nil =>
    simp [List.drop_append_of_le_length hpos]
  | cons h hs =>
    -- the first header moved takes the rest of the first data and the second's up to it
    simp only [List.map_cons, List.foldl_cons]
    have hfirst : emitHead (v.str ++ u.str) (out, pos)
        { h with offset := v.str.length + h.offset } =
        (out ++ v.str.drop pos ++ (u.str.take h.offset ++ puthead 0xC0 0xF7 h.size),
          v.str.length + h.offset) := by
      have hlen : (v.str.drop pos).length = v.str.length - pos := List.length_drop
      have htake : (v.str.drop pos ++ u.str).take (v.str.length + h.offset - pos) =
          v.str.drop pos ++ u.str.take h.offset := by
        rw [List.take_append, List.take_of_length_le (by omega), hlen,
          show v.str.length + h.offset - pos - (v.str.length - pos) = h.offset by omega]
      simp only [emitHead, List.drop_append_of_le_length hpos, htake, List.append_assoc]
    rw [hfirst, foldl_emitHead_shift v.str u.str hs _ h.offset]
    have hsplit := foldl_emitHead_fst u.str hs (out ++ v.str.drop pos)
      (u.str.take h.offset ++ puthead 0xC0 0xF7 h.size) h.offset
    rw [hsplit.1, hsplit.2]
    have hdrop : (v.str ++ u.str).drop
        (v.str.length + (hs.foldl (emitHead u.str) (u.str.take h.offset ++ puthead 0xC0 0xF7 h.size,
          h.offset)).2) =
        u.str.drop (hs.foldl (emitHead u.str) (u.str.take h.offset ++ puthead 0xC0 0xF7 h.size,
          h.offset)).2 := by
      rw [List.drop_append]
      simp
    have hfirst' : emitHead u.str ([], 0) h = (u.str.take h.offset ++ puthead 0xC0 0xF7 h.size,
        h.offset) := by
      simp [emitHead]
    rw [hdrop, ← hfirst']
    simp only [List.append_assoc]

end Encbuf

mutual
/-- Writing an item appends what writing it to an empty buffer writes. -/
theorem writeItem_eq_append : ∀ (t : Item) (w : Encbuf), writeItem t w = w.append (writeItem t .empty)
  | .bytes b, w => by
    unfold writeItem Encbuf.encodeString Encbuf.encodeStringHeader
    split_ifs <;> simp [Encbuf.append, Encbuf.empty]
  | .list items, w => by
    unfold writeItem
    rw [writeItems_eq_append items (Encbuf.list w).1,
      writeItems_eq_append items (Encbuf.list .empty).1]
    generalize writeItems items .empty = u
    -- the header's size is what was written after it, wherever the list starts
    have hl : ((Encbuf.list w).1.append u) = ⟨w.str ++ u.str, w.lheads ++
        ⟨w.str.length, w.lhsize⟩ :: u.lheads.map fun h => { h with offset := w.str.length + h.offset },
        w.lhsize + u.lhsize⟩ := by
      simp [Encbuf.list, Encbuf.append]
    have he : ((Encbuf.list .empty).1.append u) = ⟨u.str, [] ++
        ⟨0, 0⟩ :: u.lheads.map fun h => { h with offset := 0 + h.offset }, u.lhsize⟩ := by
      simp [Encbuf.list, Encbuf.append, Encbuf.empty]
    have hw : (Encbuf.list w).2 = w.lheads.length := rfl
    have h0 : (Encbuf.list .empty).2 = ([] : List Listhead).length := rfl
    rw [hl, he, hw, h0, Encbuf.listEnd_middle, Encbuf.listEnd_middle, List.length_append,
      show w.str.length + u.str.length + (w.lhsize + u.lhsize) - w.str.length - w.lhsize =
        u.str.length + u.lhsize - 0 - 0 by omega]
    simp only [Encbuf.append, List.nil_append, List.map_cons, List.map_map, Encbuf.mk.injEq,
      true_and, List.append_cancel_left_eq, List.cons.injEq, Listhead.mk.injEq]
    refine ⟨⟨by simp, List.map_congr_left fun h _ => by simp⟩, by omega⟩

theorem writeItems_eq_append :
    ∀ (ts : List Item) (w : Encbuf), writeItems ts w = w.append (writeItems ts .empty)
  | [], w => by simp [writeItems, Encbuf.append, Encbuf.empty]
  | t :: ts, w => by
    unfold writeItems
    rw [writeItems_eq_append ts (writeItem t w), writeItems_eq_append ts (writeItem t .empty),
      writeItem_eq_append t w]
    simp only [Encbuf.append, List.append_assoc, List.map_append, List.map_map,
      List.length_append, Encbuf.mk.injEq, true_and]
    refine ⟨?_, by omega⟩
    -- the headers of the rest are moved by the first item's data, then by the buffer's
    rw [List.append_cancel_left_eq, List.append_cancel_left_eq]
    exact List.map_congr_left fun h _ => by simp only [Function.comp_apply, Nat.add_assoc]
end

/-- A list written to an empty buffer: its header at the start, with the size of what its
items wrote. -/
theorem writeItem_list (items : List Item) :
    writeItem (.list items) .empty =
      (Encbuf.mk [] [⟨0, (writeItems items .empty).size⟩] (headsize (writeItems items .empty).size)).append
        (writeItems items .empty) := by
  unfold writeItem
  rw [writeItems_eq_append items (Encbuf.list .empty).1]
  generalize writeItems items .empty = u
  have he : ((Encbuf.list .empty).1.append u) = ⟨u.str, [] ++
      ⟨0, 0⟩ :: u.lheads.map fun h => { h with offset := 0 + h.offset }, u.lhsize⟩ := by
    simp [Encbuf.list, Encbuf.append, Encbuf.empty]
  have h0 : (Encbuf.list .empty).2 = ([] : List Listhead).length := rfl
  rw [he, h0, Encbuf.listEnd_middle]
  simp only [Encbuf.append, Encbuf.size, headsize, List.nil_append, List.length_nil,
    Nat.sub_zero, Encbuf.mk.injEq, true_and]
  exact ⟨by simp, Nat.add_comm _ _⟩

/-- The buffer of a list's header alone, as `writeItem_list` splits it off. -/
theorem Encbuf.wf_listHead (size lhsize : Nat) : (Encbuf.mk [] [⟨0, size⟩] lhsize).Wf := by
  intro h hh
  rw [List.mem_singleton] at hh
  subst hh
  exact Nat.le_refl _

mutual
/-- What writing an item to an empty buffer gives: headers within the data, the size of the
item's encoding, and the encoding itself. -/
theorem writeItem_empty : ∀ t : Item,
    (writeItem t .empty).Wf ∧ (writeItem t .empty).size = t.encode.length ∧
      (writeItem t .empty).toBytes = t.encode
  | .bytes b => by
    have hw : writeItem (.bytes b) .empty = ⟨encodeBytes b, [], 0⟩ := by
      unfold writeItem Encbuf.encodeString Encbuf.encodeStringHeader encodeBytes
      split_ifs <;> rfl
    rw [hw]
    exact ⟨fun _ h => absurd h List.not_mem_nil, rfl, by simp [Encbuf.toBytes, Item.encode]⟩
  | .list items => by
    obtain ⟨hwf, hsize, hbytes⟩ := writeItems_empty items
    have hhead := Encbuf.wf_listHead (writeItems items .empty).size
      (headsize (writeItems items .empty).size)
    rw [writeItem_list]
    refine ⟨hhead.append hwf, ?_, ?_⟩
    · rw [Encbuf.size_append, hsize, Item.encode, List.length_append, length_puthead]
      simp only [Encbuf.size, List.length_nil]
      omega
    · rw [Encbuf.toBytes_append hhead, hbytes, hsize, Item.encode]
      simp [Encbuf.toBytes, Encbuf.emitHead]

theorem writeItems_empty : ∀ ts : List Item,
    (writeItems ts .empty).Wf ∧ (writeItems ts .empty).size = (Item.encodeList ts).length ∧
      (writeItems ts .empty).toBytes = Item.encodeList ts
  | [] => ⟨fun _ h => absurd h List.not_mem_nil, rfl, rfl⟩
  | t :: ts => by
    obtain ⟨hwf, hsize, hbytes⟩ := writeItem_empty t
    obtain ⟨hwf', hsize', hbytes'⟩ := writeItems_empty ts
    have hw : writeItems (t :: ts) .empty = (writeItem t .empty).append (writeItems ts .empty) := by
      rw [writeItems, writeItems_eq_append]
    rw [hw, Item.encodeList]
    refine ⟨hwf.append hwf', ?_, ?_⟩
    · rw [Encbuf.size_append, hsize, hsize', List.length_append]
    · rw [Encbuf.toBytes_append hwf, hbytes, hbytes']
end

/-- `EncodeToBytes` with its deferred list headers writes the RLP encoding of the item. -/
theorem encodeToBytes_eq_encode (t : Item) : encodeToBytes t = t.encode :=
  (writeItem_empty t).2.2

theorem encode_bytes (b : List UInt8) : (Item.bytes b).encode = encodeBytes b := by
  rw [Item.encode]

theorem encode_list (items : List Item) :
    (Item.list items).encode = puthead 0xC0 0xF7 (Item.encodeList items).length ++ Item.encodeList items := by
  rw [Item.encode]

theorem encodeList_cons (t : Item) (ts : List Item) :
    Item.encodeList (t :: ts) = t.encode ++ Item.encodeList ts := by
  rw [Item.encodeList]

theorem length_encodeBytes (b : List UInt8) : b.length ≤ (encodeBytes b).length := by
  unfold encodeBytes
  split_ifs <;> simp

theorem encode_length_pos (t : Item) : 0 < t.encode.length := by
  cases t with
  | bytes b =>
    rw [encode_bytes]
    unfold encodeBytes
    split_ifs with h
    · obtain ⟨c, rfl, _⟩ := singleByte_iff.1 h
      simp
    · simp [length_puthead, headsize_pos]
  | list items =>
    rw [encode_list, List.length_append, length_puthead]
    have := headsize_pos (Item.encodeList items).length
    omega

theorem length_le_encodeList (ts : List Item) : ts.length ≤ (Item.encodeList ts).length := by
  induction ts with
  | nil => simp [Item.encodeList]
  | cons t ts ih =>
    rw [encodeList_cons, List.length_append, List.length_cons]
    have := encode_length_pos t
    omega

theorem eq_nil_of_encodeList_eq_nil {ts : List Item} (h : (Item.encodeList ts).length = 0) : ts = [] := by
  have := length_le_encodeList ts
  exact List.eq_nil_of_length_eq_zero (by omega)

end Rlp
end IntChain
