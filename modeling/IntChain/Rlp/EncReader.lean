import IntChain.Rlp.Encode

/-!
# Writing and reading an encbuf

`rlp/encode.go`. Besides `toBytes`, an `encbuf` has two more emitters of the encoding.
`toWriter`, which `Encode` uses, writes to an `io.Writer` the string data between the
headers and the headers, one piece a call. The `encReader` that `EncodeToReader` returns
hands out the same pieces through `Read`, one buffer at a time, and keeps the part of a piece
that did not fit for the next call.

Both skip the string data before a header when there is none, where `toBytes` copies an
empty slice. The three agree because the headers are in the order of their offsets, and
writing an item keeps that order (`Encbuf.Sorted`). The reader is specified by the bytes it
still has to give (`EncReader.rest`): a `Read` of `n` bytes returns the first `n` of them and
`io.EOF` exactly when they are all given.

The writer of `toWriter` takes every byte it is given (a `bytes.Buffer`); `toWriter` is the
list of its `Write` calls.
-/

namespace IntChain
namespace Rlp
namespace Encbuf

/-- The list headers are in the order of their offsets. -/
def Sorted (w : Encbuf) : Prop := w.lheads.Pairwise fun a b => a.offset ≤ b.offset

theorem Sorted.append {v u : Encbuf} (hv : v.Wf) (hvs : v.Sorted) (hus : u.Sorted) :
    (v.append u).Sorted := by
  unfold Sorted Encbuf.append
  rw [List.pairwise_append, List.pairwise_map]
  refine ⟨hvs, hus.imp fun h => Nat.add_le_add_left h _, ?_⟩
  intro a ha b hb
  obtain ⟨b', -, rfl⟩ := List.mem_map.1 hb
  have := hv a ha
  dsimp only
  omega

end Encbuf

mutual
/-- Writing an item opens its lists in the order of their offsets. -/
theorem writeItem_sorted : ∀ t : Item, (writeItem t .empty).Sorted
  | .bytes b => by
    unfold writeItem Encbuf.encodeString Encbuf.encodeStringHeader
    split_ifs <;> exact List.Pairwise.nil
  | .list items => by
    rw [writeItem_list]
    apply Encbuf.Sorted.append (Encbuf.wf_listHead _ _) (List.pairwise_singleton _ _)
    exact writeItems_sorted items

theorem writeItems_sorted : ∀ ts : List Item, (writeItems ts .empty).Sorted
  | [] => List.Pairwise.nil
  | t :: ts => by
    rw [writeItems, writeItems_eq_append]
    apply Encbuf.Sorted.append (writeItem_empty t).1 (writeItem_sorted t)
    exact writeItems_sorted ts
end

namespace Encbuf

/-- One iteration of the loop of `toWriter`: the string data before the header, if there is
any, then the header. The second component is `strpos`. -/
def writeHead (str : List UInt8) (acc : List (List UInt8) × Nat) (head : Listhead) :
    List (List UInt8) × Nat :=
  -- `n, err := out.Write(w.str[strpos:head.offset])`, and the writer takes all `n` bytes
  let (out, strpos) :=
    if 0 < head.offset - acc.2 then
      let p := (str.drop acc.2).take (head.offset - acc.2)
      (acc.1 ++ [p], acc.2 + p.length)
    else acc
  (out ++ [puthead 0xC0 0xF7 head.size], strpos)

/-- `toWriter`, as the successive arguments of `out.Write`. -/
def toWriter (w : Encbuf) : List (List UInt8) :=
  let r := w.lheads.foldl (writeHead w.str) ([], 0)
  if r.2 < w.str.length then r.1 ++ [w.str.drop r.2] else r.1

/-- A header at or past `strpos` and within the data: `toWriter` writes what `toBytes` copies,
and both move `strpos` to the header. -/
theorem writeHead_flatten {str : List UInt8} {head : Listhead} (out : List (List UInt8))
    {pos : Nat} (hpos : pos ≤ head.offset) (hoff : head.offset ≤ str.length) :
    emitHead str (out.flatten, pos) head =
        ((writeHead str (out, pos) head).1.flatten, (writeHead str (out, pos) head).2) ∧
      (writeHead str (out, pos) head).2 = head.offset := by
  unfold writeHead emitHead
  by_cases hlt : 0 < head.offset - pos
  · have hlen : ((str.drop pos).take (head.offset - pos)).length = head.offset - pos := by
      simp only [List.length_take, List.length_drop]
      omega
    rw [if_pos hlt]
    dsimp only
    rw [hlen, List.flatten_append, List.flatten_append, List.flatten_singleton,
      List.flatten_singleton]
    exact ⟨by rw [Nat.add_sub_cancel' hpos], Nat.add_sub_cancel' hpos⟩
  · -- no string data before the header: it sits at `strpos`
    have heq : head.offset = pos := by omega
    simp [heq]

/-- The loop of `toWriter` against the loop of `toBytes`, from any accumulator at or before
the headers left. -/
theorem foldl_writeHead {str : List UInt8} {hs : List Listhead}
    (hsorted : hs.Pairwise fun a b => a.offset ≤ b.offset) (hwf : ∀ h ∈ hs, h.offset ≤ str.length)
    (out : List (List UInt8)) (pos : Nat) (hpos : ∀ h ∈ hs, pos ≤ h.offset) :
    hs.foldl (emitHead str) (out.flatten, pos) =
      ((hs.foldl (writeHead str) (out, pos)).1.flatten, (hs.foldl (writeHead str) (out, pos)).2) := by
  induction hs generalizing out pos with
  | nil => rfl
  | cons h hs ih =>
    obtain ⟨hh, hsorted⟩ := List.pairwise_cons.1 hsorted
    obtain ⟨hstep, hnext⟩ := writeHead_flatten out (hpos h List.mem_cons_self)
      (hwf h List.mem_cons_self)
    rw [List.foldl_cons, List.foldl_cons, hstep]
    apply ih hsorted (fun h' hh' => hwf h' (List.mem_cons_of_mem _ hh'))
    rw [hnext]
    exact hh

/-- `toWriter` writes what `toBytes` returns. -/
theorem flatten_toWriter {w : Encbuf} (hwf : w.Wf) (hs : w.Sorted) : w.toWriter.flatten = w.toBytes := by
  have hfold := foldl_writeHead hs hwf [] 0 fun h _ => Nat.zero_le _
  unfold toWriter toBytes
  rw [List.flatten_nil] at hfold
  rw [hfold]
  dsimp only
  split_ifs with hlt
  · rw [List.flatten_append, List.flatten_singleton]
  · rw [List.drop_eq_nil_of_le (by omega), List.append_nil]

end Encbuf

/-- `Encode` to an `io.Writer` of an item, as the successive arguments of `Write`. -/
def encode (t : Item) : List (List UInt8) := (writeItem t .empty).toWriter

-- the outer header, the string data before the inner header, and the inner header
example : encode (.list [.bytes [0x83], .list []]) = [[0xC3], [0x81, 0x83], [0xC0]] := by decide

/-! ### The reader -/

/-- `encReader`: the buffer (`none` once `io.EOF` has been met), the index of the next list
header, the position in the string data, and the rest of a piece that did not fit. -/
structure EncReader where
  buf : Option Encbuf
  lhpos : Nat
  strpos : Nat
  piece : Option (List UInt8)

/-- `EncodeToReader`: the size of the encoding and a reader of it. -/
def encodeToReader (t : Item) : Nat × EncReader :=
  let eb := writeItem t .empty
  (eb.size, ⟨some eb, 0, 0, none⟩)

namespace EncReader

/-- `encReader.next`: the next piece, `none` at EOF. -/
def next (r : EncReader) : EncReader × Option (List UInt8) :=
  match r.buf, r.piece with
  | none, _ => (r, none)
  | some _, some p => (r, some p)
  | some buf, none =>
    match buf.lheads[r.lhpos]? with
    | some head =>
      let sizebefore := head.offset - r.strpos
      if 0 < sizebefore then
        ({ r with strpos := r.strpos + sizebefore },
          some ((buf.str.drop r.strpos).take sizebefore))
      else ({ r with lhpos := r.lhpos + 1 }, some (puthead 0xC0 0xF7 head.size))
    | none =>
      -- the string data after the last header
      if r.strpos < buf.str.length then
        ({ r with strpos := buf.str.length }, some (buf.str.drop r.strpos))
      else (r, none)

/-- One if the string data before the next header is still to be given. -/
def dataBefore (buf : Encbuf) (lhpos strpos : Nat) : Nat :=
  match buf.lheads[lhpos]? with
  | some head => if strpos < head.offset then 1 else 0
  | none => 0

/-- What the loop of `Read` has left to do: the piece held, three for each header left, the
string data before the next header and the string data after the last. -/
def measure (r : EncReader) : Nat :=
  match r.buf with
  | none => 0
  | some buf =>
    (if r.piece.isSome then 1 else 0) + 3 * (buf.lheads.length - r.lhpos) +
      dataBefore buf r.lhpos r.strpos + if r.strpos < buf.str.length then 1 else 0

theorem dataBefore_le_one (buf : Encbuf) (lhpos strpos : Nat) : dataBefore buf lhpos strpos ≤ 1 := by
  unfold dataBefore
  split
  · split_ifs <;> omega
  · exact Nat.zero_le _

/-- Each piece handed out and copied whole leaves the loop less to do. -/
theorem measure_next {r r' : EncReader} {p : List UInt8} (h : r.next = (r', some p)) :
    { r' with piece := none }.measure < r.measure := by
  unfold next at h
  match hb : r.buf, hp : r.piece with
  | none, _ => simp [hb] at h
  | some buf, some q =>
    simp only [hb, hp, Prod.mk.injEq] at h
    obtain ⟨rfl, -⟩ := h
    simp [measure, hb, hp]
  | some buf, none =>
    simp only [hb, hp] at h
    have hd := dataBefore_le_one buf (r.lhpos + 1) r.strpos
    split at h
    · rename_i head hhead
      have hlt : r.lhpos < buf.lheads.length := (List.getElem?_eq_some_iff.1 hhead).1
      split_ifs at h with hpos <;> simp only [Prod.mk.injEq] at h <;> obtain ⟨rfl, -⟩ := h
      · -- the string data before the header: `strpos` moves up to it
        have hd' : dataBefore buf r.lhpos r.strpos = 1 := by simp [dataBefore, hhead]; omega
        have hd'' : dataBefore buf r.lhpos (r.strpos + (head.offset - r.strpos)) = 0 := by
          simp [dataBefore, hhead]
          omega
        simp only [measure, hb, hp, hd', hd'', Option.isSome_none]
        split_ifs <;> omega
      · simp only [measure, hb, hp, Option.isSome_none]
        split_ifs <;> omega
    · rename_i hhead
      split_ifs at h with hlt <;> simp only [Prod.mk.injEq, reduceCtorEq, and_false] at h
      obtain ⟨rfl, -⟩ := h
      simp [measure, dataBefore, hb, hp, hhead, hlt]

/-- `encReader.Read` into a buffer of `room` bytes: the reader after the call, the bytes
copied, and whether the call returned `io.EOF`. -/
def read (r : EncReader) (room : Nat) : EncReader × List UInt8 × Bool :=
  match h : r.next with
  | (r', none) => ({ r' with buf := none, piece := none }, [], true)
  | (r', some p) =>
    -- `copy(b[n:], r.piece)` copies the whole piece or fills the buffer
    if room < p.length then ({ r' with piece := some (p.drop room) }, p.take room, false)
    else
      have _hlt := measure_next h
      let (r'', b, eof) := read { r' with piece := none } (room - p.length)
      (r'', p ++ b, eof)
termination_by r.measure
decreasing_by exact _hlt

/-- `ReadAll` with buffers of the given sizes: the bytes up to `io.EOF`, or `none` if the
sizes run out first. -/
def readToEOF : EncReader → List Nat → Option (List UInt8)
  | _, [] => none
  | r, n :: sizes =>
    let (r', b, eof) := r.read n
    if eof then some b else (r'.readToEOF sizes).map (b ++ ·)

end EncReader

/-! ### What the reader has left to give -/

theorem drop_eq_cons_of_getElem? {α : Type} {l : List α} {i : Nat} {a : α} (h : l[i]? = some a) :
    l.drop i = a :: l.drop (i + 1) := by
  obtain ⟨hi, rfl⟩ := List.getElem?_eq_some_iff.1 h
  exact List.drop_eq_getElem_cons hi

namespace Encbuf

/-- What `toBytes` writes from header `lhpos` and position `strpos` of the string data on. -/
def toBytesFrom (w : Encbuf) (lhpos strpos : Nat) : List UInt8 :=
  let r := (w.lheads.drop lhpos).foldl (emitHead w.str) ([], strpos)
  r.1 ++ w.str.drop r.2

theorem toBytesFrom_zero (w : Encbuf) : w.toBytesFrom 0 0 = w.toBytes := rfl

/-- The string data before the next header comes first. -/
theorem toBytesFrom_data {w : Encbuf} {lhpos strpos : Nat} {head : Listhead}
    (hhead : w.lheads[lhpos]? = some head) :
    w.toBytesFrom lhpos strpos =
      (w.str.drop strpos).take (head.offset - strpos) ++ w.toBytesFrom lhpos head.offset := by
  unfold toBytesFrom
  rw [drop_eq_cons_of_getElem? hhead, List.foldl_cons, List.foldl_cons]
  have hsplit := foldl_emitHead_fst w.str (w.lheads.drop (lhpos + 1))
    ((w.str.drop strpos).take (head.offset - strpos)) (puthead 0xC0 0xF7 head.size) head.offset
  simp only [emitHead, List.nil_append, Nat.sub_self, List.take_zero, hsplit.1, hsplit.2,
    List.append_assoc]

/-- At the next header, the header comes first. -/
theorem toBytesFrom_head {w : Encbuf} {lhpos : Nat} {head : Listhead}
    (hhead : w.lheads[lhpos]? = some head) :
    w.toBytesFrom lhpos head.offset =
      puthead 0xC0 0xF7 head.size ++ w.toBytesFrom (lhpos + 1) head.offset := by
  unfold toBytesFrom
  rw [drop_eq_cons_of_getElem? hhead, List.foldl_cons]
  have hsplit := foldl_emitHead_fst w.str (w.lheads.drop (lhpos + 1))
    (puthead 0xC0 0xF7 head.size) [] head.offset
  simp only [List.append_nil] at hsplit
  simp only [emitHead, List.nil_append, Nat.sub_self, List.take_zero, hsplit.1, hsplit.2,
    List.append_assoc]

/-- Past the last header, the rest of the string data. -/
theorem toBytesFrom_end {w : Encbuf} {lhpos : Nat} (hhead : w.lheads[lhpos]? = none)
    (strpos : Nat) : w.toBytesFrom lhpos strpos = w.str.drop strpos := by
  unfold toBytesFrom
  rw [List.drop_eq_nil_iff.2 (List.getElem?_eq_none_iff.1 hhead)]
  rfl

/-- A place of a reader in a buffer: the headers within the data and in order, and the string
position within the data and at most the offset of every header left. -/
structure ReadPos (w : Encbuf) (lhpos strpos : Nat) : Prop where
  wf : w.Wf
  sorted : w.Sorted
  strpos_le : strpos ≤ w.str.length
  le_offset : ∀ h ∈ w.lheads.drop lhpos, strpos ≤ h.offset

section ReadPos

variable {w : Encbuf} {lhpos strpos : Nat} {head : Listhead}

theorem ReadPos.le_head (hp : w.ReadPos lhpos strpos) (hhead : w.lheads[lhpos]? = some head) :
    strpos ≤ head.offset ∧ head.offset ≤ w.str.length := by
  refine ⟨hp.le_offset head ?_, hp.wf head (List.mem_of_getElem? hhead)⟩
  rw [drop_eq_cons_of_getElem? hhead]
  exact List.mem_cons_self

/-- After the string data before the next header. -/
theorem ReadPos.data (hp : w.ReadPos lhpos strpos) (hhead : w.lheads[lhpos]? = some head) :
    w.ReadPos lhpos head.offset := by
  have hsorted : (w.lheads.drop lhpos).Pairwise fun a b => a.offset ≤ b.offset :=
    hp.sorted.sublist (List.drop_sublist _ _)
  rw [drop_eq_cons_of_getElem? hhead, List.pairwise_cons] at hsorted
  refine ⟨hp.wf, hp.sorted, (hp.le_head hhead).2, ?_⟩
  rw [drop_eq_cons_of_getElem? hhead]
  intro h hh
  rcases List.mem_cons.1 hh with rfl | hh
  · exact Nat.le_refl _
  · exact hsorted.1 h hh

/-- After the next header. -/
theorem ReadPos.succ (hp : w.ReadPos lhpos strpos) (hhead : w.lheads[lhpos]? = some head) :
    w.ReadPos (lhpos + 1) strpos := by
  refine ⟨hp.wf, hp.sorted, hp.strpos_le, fun h hh => hp.le_offset h ?_⟩
  rw [drop_eq_cons_of_getElem? hhead]
  exact List.mem_cons_of_mem _ hh

/-- After the string data past the last header. -/
theorem ReadPos.end (hp : w.ReadPos lhpos strpos) (hhead : w.lheads[lhpos]? = none) :
    w.ReadPos lhpos w.str.length := by
  refine ⟨hp.wf, hp.sorted, Nat.le_refl _, fun h hh => ?_⟩
  rw [List.drop_eq_nil_iff.2 (List.getElem?_eq_none_iff.1 hhead)] at hh
  exact absurd hh List.not_mem_nil

end ReadPos

end Encbuf

namespace EncReader

/-- The bytes the reader has still to give: the piece it holds, then what `toBytes` writes
from its place on. -/
def rest (r : EncReader) : List UInt8 :=
  match r.buf with
  | none => []
  | some buf => r.piece.getD [] ++ buf.toBytesFrom r.lhpos r.strpos

/-- A reader that `Read` keeps: a piece it holds is not empty, and its place in the buffer is
one of `Encbuf.ReadPos`. -/
structure Valid (r : EncReader) : Prop where
  piece_ne : r.piece ≠ some []
  readPos : ∀ buf, r.buf = some buf → buf.ReadPos r.lhpos r.strpos

theorem rest_piece {r : EncReader} {buf : Encbuf} (hb : r.buf = some buf) (q : List UInt8) :
    { r with piece := some q }.rest = q ++ { r with piece := none }.rest := by
  simp [rest, hb]

/-- `next` at EOF: nothing is left. -/
theorem next_none {r r' : EncReader} (h : r.next = (r', none)) : r.rest = [] := by
  unfold next at h
  match hb : r.buf, hp : r.piece with
  | none, _ => simp [rest, hb]
  | some buf, some q => simp [hb, hp] at h
  | some buf, none =>
    simp only [hb, hp] at h
    split at h
    · split_ifs at h <;> simp at h
    · rename_i hhead
      split_ifs at h with hlt
      · simp at h
      · simp [rest, hb, hp, Encbuf.toBytesFrom_end hhead, List.drop_eq_nil_of_le (Nat.le_of_not_lt hlt)]

/-- `next` hands out a piece that is not empty and that starts what is left; the reader stays
valid once the piece is copied whole. -/
theorem next_some {r r' : EncReader} {p : List UInt8} (hv : r.Valid) (h : r.next = (r', some p)) :
    p ≠ [] ∧ (∃ buf, r.buf = some buf ∧ r'.buf = some buf) ∧
      r.rest = p ++ { r' with piece := none }.rest ∧ { r' with piece := none }.Valid := by
  unfold next at h
  match hb : r.buf, hp : r.piece with
  | none, _ => simp [hb] at h
  | some buf, some q =>
    simp only [hb, hp, Prod.mk.injEq, Option.some.injEq] at h
    obtain ⟨rfl, rfl⟩ := h
    refine ⟨fun he => hv.piece_ne (by rw [hp, he]), ⟨buf, rfl, hb⟩, by simp [rest, hb, hp], ?_⟩
    exact ⟨by simp, hv.readPos⟩
  | some buf, none =>
    simp only [hb, hp] at h
    have hpos := hv.readPos buf hb
    split at h
    · rename_i head hhead
      obtain ⟨hle, hoff⟩ := hpos.le_head hhead
      split_ifs at h with hlt <;> simp only [Prod.mk.injEq, Option.some.injEq] at h <;>
        obtain ⟨rfl, rfl⟩ := h
      · -- the string data before the header
        have hoff' : r.strpos + (head.offset - r.strpos) = head.offset := by omega
        refine ⟨?_, ⟨buf, rfl, rfl⟩, ?_, ⟨by simp, fun buf' hb' => ?_⟩⟩
        · rw [← List.length_pos_iff, List.length_take, List.length_drop]
          omega
        · simp only [rest, hb, hp, Option.getD_none, List.nil_append, hoff']
          exact Encbuf.toBytesFrom_data hhead
        · simp only [Option.some.injEq] at hb'
          subst hb'
          simpa only [hoff'] using hpos.data hhead
      · -- the header itself: the string data before it is all given
        have heq : r.strpos = head.offset := by omega
        refine ⟨?_, ⟨buf, rfl, rfl⟩, ?_, ⟨by simp, fun buf' hb' => ?_⟩⟩
        · rw [← List.length_pos_iff, length_puthead]
          exact headsize_pos _
        · simp only [rest, hb, hp, Option.getD_none, List.nil_append, heq]
          exact Encbuf.toBytesFrom_head hhead
        · simp only [Option.some.injEq] at hb'
          subst hb'
          exact hpos.succ hhead
    · rename_i hhead
      split_ifs at h with hlt
      · simp only [Prod.mk.injEq, Option.some.injEq] at h
        obtain ⟨rfl, rfl⟩ := h
        refine ⟨?_, ⟨buf, rfl, rfl⟩, ?_, ⟨by simp, fun buf' hb' => ?_⟩⟩
        · rw [← List.length_pos_iff, List.length_drop]
          omega
        · simp [rest, hb, hp, Encbuf.toBytesFrom_end hhead]
        · simp only [Option.some.injEq] at hb'
          subst hb'
          exact hpos.end hhead
      · simp at h

/-- `Read` of `room` bytes returns the first `room` bytes left and `io.EOF` exactly when that
is all of them, and the reader keeps the rest. -/
theorem read_spec {r : EncReader} (hv : r.Valid) (room : Nat) :
    (r.read room).2.1 = r.rest.take room ∧ (r.read room).2.2 = decide (r.rest.length ≤ room) ∧
      (r.read room).1.rest = r.rest.drop room ∧ (r.read room).1.Valid := by
  fun_induction read r room with
  | case1 r room r' h =>
    rw [next_none h]
    exact ⟨by simp, by simp, by simp [rest], ⟨by simp, fun _ hb => by simp at hb⟩⟩
  | case2 r room r' p h hlt =>
    obtain ⟨hne, ⟨buf, -, hb'⟩, hrest, hv'⟩ := next_some hv h
    dsimp only
    rw [hrest, rest_piece hb']
    refine ⟨(List.take_append_of_le_length (Nat.le_of_lt hlt)).symm, ?_,
      (List.drop_append_of_le_length (Nat.le_of_lt hlt)).symm, ⟨?_, hv'.readPos⟩⟩
    · rw [List.length_append, eq_comm, decide_eq_false_iff_not]
      omega
    · simp only [ne_eq, Option.some.injEq, List.drop_eq_nil_iff]
      omega
  | case3 r room r' p h hge _ r'' b eof hres ih =>
    obtain ⟨-, -, hrest, hv'⟩ := next_some hv h
    obtain ⟨hb, heof, hr, hvr⟩ := ih hv'
    rw [hres] at hb heof hr hvr
    dsimp only at hb heof hr hvr ⊢
    refine ⟨?_, ?_, ?_, hvr⟩
    · -- the whole piece, then what the rest of the loop copies
      rw [hb, hrest, List.take_append, List.take_of_length_le (Nat.le_of_not_lt hge)]
    · rw [heof, hrest, List.length_append]
      exact decide_eq_decide.2 (by omega)
    · rw [hr, hrest, List.drop_append, List.drop_eq_nil_of_le (Nat.le_of_not_lt hge),
        List.nil_append]

/-- Reading to EOF gives all that is left as soon as the buffers can hold it, whatever their
sizes; it needs one call at least. -/
theorem readToEOF_spec {r : EncReader} (hv : r.Valid) (sizes : List Nat) :
    r.readToEOF sizes =
      if r.rest.length ≤ sizes.sum ∧ sizes ≠ [] then some r.rest else none := by
  induction sizes generalizing r with
  | nil => simp [readToEOF]
  | cons n sizes ih =>
    obtain ⟨hb, heof, hr, hv'⟩ := read_spec hv n
    rw [readToEOF]
    rcases hres : r.read n with ⟨r', b, eof⟩
    rw [hres] at hb heof hr hv'
    dsimp only at hb heof hr hv' ⊢
    cases eof with
    | true =>
      -- `io.EOF` with this buffer: it held all that was left
      have hle : r.rest.length ≤ n := of_decide_eq_true heof.symm
      rw [if_pos rfl, if_pos ⟨by rw [List.sum_cons]; omega, List.cons_ne_nil _ _⟩, hb,
        List.take_of_length_le hle]
    | false =>
      have hlt : n < r.rest.length := by
        have := heof.symm
        rw [decide_eq_false_iff_not] at this
        omega
      rw [if_neg Bool.false_ne_true, ih hv', hr, List.length_drop, List.sum_cons]
      by_cases hc : r.rest.length - n ≤ sizes.sum ∧ sizes ≠ []
      · rw [if_pos hc, if_pos ⟨by omega, List.cons_ne_nil _ _⟩, Option.map_some, hb,
          List.take_append_drop]
      · rw [if_neg hc, if_neg, Option.map_none]
        rintro ⟨hle, -⟩
        apply hc
        refine ⟨by omega, fun hnil => ?_⟩
        rw [hnil, List.sum_nil] at hle
        omega

/-- The reader `EncodeToReader` returns is at the start of its buffer. -/
theorem valid_encodeToReader (t : Item) :
    (encodeToReader t).2.Valid ∧ (encodeToReader t).2.rest = t.encode := by
  obtain ⟨hwf, -, hbytes⟩ := writeItem_empty t
  refine ⟨⟨by simp [encodeToReader], fun buf hb => ?_⟩, ?_⟩
  · simp only [encodeToReader, Option.some.injEq] at hb
    subst hb
    exact ⟨hwf, writeItem_sorted t, Nat.zero_le _, fun h _ => Nat.zero_le _⟩
  · simp [encodeToReader, rest, Encbuf.toBytesFrom_zero, hbytes]

end EncReader

/-- The three emitters of an `encbuf` write the RLP encoding of the item: `EncodeToBytes`,
`Encode` to a writer, and `EncodeToReader` read to EOF with buffers of any sizes, which
reaches EOF as soon as the buffers can hold the encoding; the size `EncodeToReader` returns
is its length. -/
theorem encbuf_emitters_agree (t : Item) :
    encodeToBytes t = t.encode ∧ (encode t).flatten = t.encode ∧
      (∀ sizes : List Nat, (encodeToReader t).2.readToEOF sizes =
        if t.encode.length ≤ sizes.sum then some t.encode else none) ∧
      (encodeToReader t).1 = t.encode.length := by
  obtain ⟨hwf, hsize, -⟩ := writeItem_empty t
  obtain ⟨hv, hrest⟩ := EncReader.valid_encodeToReader t
  refine ⟨encodeToBytes_eq_encode t, ?_, fun sizes => ?_, hsize⟩
  · rw [encode, Encbuf.flatten_toWriter hwf (writeItem_sorted t)]
    exact encodeToBytes_eq_encode t
  · rw [EncReader.readToEOF_spec hv, hrest]
    -- the encoding is never empty, so enough room means one buffer at least
    have hpos := encode_length_pos t
    by_cases hle : t.encode.length ≤ sizes.sum
    · rw [if_pos ⟨hle, fun hnil => by rw [hnil, List.sum_nil] at hle; omega⟩, if_pos hle]
    · rw [if_neg fun h => hle h.1, if_neg hle]

end Rlp
end IntChain
