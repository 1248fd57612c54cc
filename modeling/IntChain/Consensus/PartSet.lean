import Mathlib.Data.List.Basic
import IntChain.Lib.Run

/-!
# The part set of a proposal block

`consensus/ipbft/types/part_set.go`. The proposer cuts the bytes of the block into parts of
`partSize` bytes (the last one shorter) and proves each part against the Merkle root of the
hashes of all of them (`NewPartSetFromData`); a validator starts from the header, the number of
parts and the root (`NewPartSetFromHeader`), adds the parts as they arrive in any order
(`AddPart`), and once it has them all reads the block back (`GetReader`, `PartSetReader.Read`).

The hash of a part (`ripemd160`) and the Merkle library (`go-merkle`: the root and the proofs
of a list of hashes, and the check of a proof) are external; they are the parameters `hash`
and `Merkle`, and `Merkle.Correct` is what the part set needs of them.
-/

namespace IntChain

variable {H P : Type}

/-- The two functions of `go-merkle` the part set calls: `SimpleProofsFromHashables`, on the
hashes of the parts, and `SimpleProof.Verify(index, total, leafHash, rootHash)`. -/
structure Merkle (H P : Type) where
  simpleProofsFromHashes : List H → H × List P
  verify : P → Nat → Nat → H → H → Bool

/-- What the part set needs of the Merkle library, for leaves that are hashes of data: there is a
proof for every leaf and it verifies (completeness), and a proof that verifies the hash of `b`
at index `i` against the root of the leaves of `ds` proves that `b` is the data of leaf `i`
(soundness, which covers the collision resistance of `hash` too). -/
structure Merkle.Correct (M : Merkle H P) (hash : List UInt8 → H) : Prop where
  length_proofs : ∀ ds : List (List UInt8), (M.simpleProofsFromHashes (ds.map hash)).2.length = ds.length
  complete : ∀ (ds : List (List UInt8)) (i : Nat) (p : P) (b : List UInt8),
    (M.simpleProofsFromHashes (ds.map hash)).2[i]? = some p → ds[i]? = some b →
      M.verify p i ds.length (hash b) (M.simpleProofsFromHashes (ds.map hash)).1 = true
  sound : ∀ (ds : List (List UInt8)) (i : Nat) (p : P) (b : List UInt8),
    M.verify p i ds.length (hash b) (M.simpleProofsFromHashes (ds.map hash)).1 = true →
      ds[i]? = some b

/-- `types.Part`. Its index is a Go `int`, so a peer may send a negative one. -/
structure Part (P : Type) where
  index : Int
  bytes : List UInt8
  proof : P
  deriving DecidableEq

structure PartSetHeader (H : Type) where
  total : Nat
  hash : H

/-- `types.PartSet`: the number of parts, the root, the parts held so far (a nil pointer is
`none`), the bit array of the held parts and their count. -/
structure PartSet (H P : Type) where
  total : Nat
  hash : H
  parts : List (Option (Part P))
  partsBitArray : List Bool
  count : Nat

inductive PartSetError
  /-- `ErrPartSetUnexpectedIndex` -/
  | unexpectedIndex
  /-- `ErrPartSetInvalidProof` -/
  | invalidProof
  /-- an index out of the range of the slice of parts -/
  | panic
  deriving DecidableEq, Repr

/-- The bytes of part `i` of `data`, `data[i*partSize : MinInt(len(data), (i+1)*partSize)]`. -/
def partBytes (data : List UInt8) (partSize i : Nat) : List UInt8 :=
  (data.take (min data.length ((i + 1) * partSize))).drop (i * partSize)

/-- The bytes of all the parts: `(len(data) + partSize - 1) / partSize` of them. -/
def splitData (data : List UInt8) (partSize : Nat) : List (List UInt8) :=
  (List.range ((data.length + partSize - 1) / partSize)).map (partBytes data partSize)

/-- `NewPartSetFromData`. -/
def newPartSetFromData (hash : List UInt8 → H) (M : Merkle H P) (data : List UInt8)
    (partSize : Nat) : PartSet H P :=
  let total := (data.length + partSize - 1) / partSize
  let chunks := splitData data partSize
  let (root, proofs) := M.simpleProofsFromHashes (chunks.map hash)
  { total, hash := root
    parts := (chunks.zip proofs).mapIdx fun i (b, p) => some ⟨i, b, p⟩
    partsBitArray := List.replicate total true
    count := total }

/-- `NewPartSetFromHeader`: no part yet. -/
def newPartSetFromHeader (header : PartSetHeader H) : PartSet H P :=
  { total := header.total, hash := header.hash, parts := List.replicate header.total none
    partsBitArray := List.replicate header.total false, count := 0 }

def PartSet.header (ps : PartSet H P) : PartSetHeader H := ⟨ps.total, ps.hash⟩

def PartSet.isComplete (ps : PartSet H P) : Bool := ps.count == ps.total

/-- `PartSet.AddPart`: whether the part was added, or an error. A part at an index already held
is not looked at further. -/
def PartSet.addPart (hash : List UInt8 → H) (M : Merkle H P) (ps : PartSet H P) (part : Part P)
    (verify : Bool) : PartSet H P × Except PartSetError Bool :=
  if (ps.total : Int) ≤ part.index then (ps, .error .unexpectedIndex)
  -- `ps.parts[part.Index]` panics at a negative index, and past the end of the slice
  else if part.index < 0 then (ps, .error .panic)
  else
    match ps.parts[part.index.toNat]? with
    | none => (ps, .error .panic)
    | some (some _) => (ps, .ok false)
    | some none =>
      if verify && !M.verify part.proof part.index.toNat ps.total (hash part.bytes) ps.hash then
        (ps, .error .invalidProof)
      else
        ({ ps with parts := ps.parts.set part.index.toNat (some part)
                   partsBitArray := ps.partsBitArray.set part.index.toNat true
                   count := ps.count + 1 }, .ok true)

/-- The parts as they arrive, each added with `verify` set, as `addProposalBlockPart` does: the
set after them and the result of each. -/
def PartSet.addParts (hash : List UInt8 → H) (M : Merkle H P) :
    PartSet H P → List (Part P) → PartSet H P × List (Except PartSetError Bool)
  | ps, [] => (ps, [])
  | ps, part :: rest =>
    let (ps', r) := ps.addPart hash M part true
    let (ps'', rs) := ps'.addParts hash M rest
    (ps'', r :: rs)

/-- The set of a validator after the parts `arrivals` came in, from the header of the proposal
(`NewPartSetFromHeader`, then `addProposalBlockPart` for each part), and the result of each. -/
def receiveParts (hash : List UInt8 → H) (M : Merkle H P) (header : PartSetHeader H)
    (arrivals : List (Part P)) : PartSet H P × List (Except PartSetError Bool) :=
  (newPartSetFromHeader header).addParts hash M arrivals

/-- `PartSetReader`: the index of the current part, the bytes of all the parts, and what the
`bytes.Reader` of the current part has left. -/
structure PartSetReader where
  i : Nat
  parts : List (List UInt8)
  rest : List UInt8

/-- `NewPartSetReader`; it reads the first part at once. -/
def newPartSetReader : List (List UInt8) → Option PartSetReader
  | [] => none
  | b :: bs => some ⟨0, b :: bs, b⟩

/-- `PartSet.GetReader`. It panics on an incomplete set; the reader dereferences each part as it
comes to it, and a nil part is a panic here at once. -/
def PartSet.getReader (ps : PartSet H P) : Option PartSetReader :=
  if ps.isComplete then
    (ps.parts.mapM fun p : Option (Part P) => p.map (·.bytes)).bind newPartSetReader
  else none

/-- `PartSetReader.Read` into a buffer of `n` bytes: the reader after the call, the bytes copied
and whether the call returned `io.EOF`. The inner call `Read(p[:readerLen])` takes the first
branch and copies all the current part has left; it is written out here. -/
def PartSetReader.read (psr : PartSetReader) (n : Nat) : PartSetReader × List UInt8 × Bool :=
  let readerLen := psr.rest.length
  if n ≤ readerLen then
    -- `bytes.Reader.Read` returns `io.EOF` at the end of its bytes only
    if readerLen = 0 then (psr, [], true)
    else ({ psr with rest := psr.rest.drop n }, psr.rest.take n, false)
  else if 0 < readerLen then
    let (psr2, b2, eof) := PartSetReader.read { psr with rest := [] } (n - readerLen)
    (psr2, psr.rest ++ b2, eof)
  else if h : psr.i + 1 < psr.parts.length then
    PartSetReader.read { psr with i := psr.i + 1, rest := psr.parts[psr.i + 1] } n
  else ({ psr with i := psr.i + 1 }, [], true)
termination_by (psr.parts.length - psr.i, n)

/-- Reading to `io.EOF`, one call for each buffer size: all the bytes read, once a call
returned `io.EOF`. -/
def PartSetReader.readToEOF : PartSetReader → List Nat → Option (List UInt8)
  | _, [] => none
  | psr, n :: sizes =>
    let (psr', b, eof) := psr.read n
    if eof then some b else (psr'.readToEOF sizes).map (b ++ ·)

namespace PartSetReader

/-- What a reader has still to give: the rest of the current part and the parts after it. -/
def remaining (psr : PartSetReader) : List UInt8 := psr.rest ++ (psr.parts.drop (psr.i + 1)).flatten

/-- One call into a buffer of `n ≥ 1` bytes copies the next `n` bytes of what is left, or all of
it together with `io.EOF` when fewer are left. -/
theorem read_spec (psr : PartSetReader) (n : Nat) (hn : 0 < n) :
    (psr.read n).2.1 = psr.remaining.take n ∧
      (psr.read n).2.2 = decide (psr.remaining.length < n) ∧
      (psr.read n).1.remaining = psr.remaining.drop n := by
  fun_induction psr.read n with
  | case1 psr n readerLen hle hzero => omega
  | case2 psr n readerLen hle hzero =>
    -- the current part has enough left
    have hle' : n ≤ psr.rest.length := hle
    dsimp only
    refine ⟨(List.take_append_of_le_length hle').symm, ?_, ?_⟩
    · simp only [remaining, List.length_append]
      symm
      rw [decide_eq_false_iff_not]
      omega
    · simp only [remaining]
      exact (List.drop_append_of_le_length hle').symm
  | case3 psr n readerLen hlt hpos psr2 b2 eof hrec ih =>
    -- the rest of the current part, then the call on the parts after it
    have hlt' : psr.rest.length < n := by omega
    have hF : ({ i := psr.i, parts := psr.parts, rest := [] } : PartSetReader).remaining =
        (psr.parts.drop (psr.i + 1)).flatten := List.nil_append _
    obtain ⟨hb, heof, hrem⟩ := ih (by omega)
    rw [hrec, hF] at hb heof hrem
    simp only [readerLen] at hb heof hrem
    dsimp only
    unfold remaining
    refine ⟨?_, ?_, ?_⟩
    · rw [hb, List.take_append, List.take_of_length_le (Nat.le_of_lt hlt')]
    · rw [heof, List.length_append]
      simp only [decide_eq_decide]
      omega
    · rw [← remaining, hrem, List.drop_append, List.drop_of_length_le (Nat.le_of_lt hlt'),
        List.nil_append]
  | case4 psr n readerLen hlt hzero hnext ih =>
    -- the current part is done: the next one holds what is left
    have hnil : psr.rest = [] := List.eq_nil_of_length_eq_zero (by omega)
    have hrem : PartSetReader.remaining ⟨psr.i + 1, psr.parts, psr.parts[psr.i + 1]⟩ =
        psr.remaining := by
      rw [remaining, remaining, hnil, List.nil_append, List.drop_eq_getElem_cons hnext,
        List.flatten_cons]
    rw [← hrem]
    exact ih hn
  | case5 psr n readerLen hlt hzero hlast =>
    -- past the last part
    have hnil : psr.rest = [] := List.eq_nil_of_length_eq_zero (by omega)
    have hdone : psr.remaining = [] := by
      rw [remaining, hnil, List.drop_eq_nil_of_le (by omega), List.flatten_nil, List.append_nil]
    have hdone' : ({ i := psr.i + 1, parts := psr.parts, rest := [] } : PartSetReader).remaining =
        [] := by
      rw [remaining, List.nil_append, List.drop_eq_nil_of_le (by dsimp only; omega),
        List.flatten_nil]
    dsimp only
    rw [hdone, hnil, hdone']
    simp [hn]

end PartSetReader

/-- All the bytes of a fresh reader are those of the parts. -/
theorem remaining_newPartSetReader {bs : List (List UInt8)} {psr : PartSetReader}
    (h : newPartSetReader bs = some psr) : psr.remaining = bs.flatten := by
  cases bs with
  | nil => cases h
  | cons b bs =>
    cases h
    simp [PartSetReader.remaining]

namespace PartSetReader

/-- Reading with buffers of at least one byte: a call that returns `io.EOF` ends with all that
was left read, and one does within one call more than there are bytes left. -/
theorem readToEOF_spec (sizes : List Nat) (hsizes : ∀ n ∈ sizes, 0 < n) :
    ∀ psr : PartSetReader, (∀ b, psr.readToEOF sizes = some b → b = psr.remaining) ∧
      (psr.remaining.length < sizes.length → psr.readToEOF sizes = some psr.remaining) := by
  induction sizes with
  | nil =>
    intro psr
    exact ⟨fun b h => by simp [readToEOF] at h, fun h => absurd h (Nat.not_lt_zero _)⟩
  | cons n sizes ih =>
    intro psr
    have hn := hsizes n List.mem_cons_self
    obtain ⟨hb, heof, hrem⟩ := read_spec psr n hn
    obtain ⟨ihb, ihlen⟩ := ih (fun m hm => hsizes m (List.mem_cons_of_mem _ hm)) (psr.read n).1
    rw [hrem] at ihb ihlen
    unfold readToEOF
    rcases hr : psr.read n with ⟨psr', b, eof⟩
    rw [hr] at hb heof ihb ihlen
    dsimp only at hb heof ihb ihlen ⊢
    subst hb
    cases eof with
    | true =>
      -- fewer bytes were left than the buffer holds
      have hlt : psr.remaining.length < n := by simpa using heof.symm
      rw [if_pos rfl, List.take_of_length_le (Nat.le_of_lt hlt)]
      exact ⟨fun b h => (Option.some.inj h).symm, fun _ => rfl⟩
    | false =>
      have hge : n ≤ psr.remaining.length := by simpa using heof.symm
      rw [if_neg Bool.false_ne_true]
      refine ⟨fun b h => ?_, fun hlen => ?_⟩
      · obtain ⟨c, hc, rfl⟩ := Option.map_eq_some_iff.1 h
        rw [ihb c hc, List.take_append_drop]
      · rw [ihlen (by simp only [List.length_drop, List.length_cons] at hlen ⊢; omega),
          Option.map_some, List.take_append_drop]

end PartSetReader

section Sent

variable (hash : List UInt8 → H) (M : Merkle H P)

/-- The first `k` parts of `data`, together, are its first `k * partSize` bytes. -/
theorem flatten_partBytes (data : List UInt8) (partSize k : Nat) :
    ((List.range k).map (partBytes data partSize)).flatten =
      data.take (min data.length (k * partSize)) := by
  induction k with
  | zero => simp
  | succ k ih =>
    rw [List.range_succ, List.map_append, List.flatten_append, ih, List.map_singleton,
      List.flatten_singleton, partBytes]
    have hmin : min data.length (k * partSize) =
        min (k * partSize) (min data.length ((k + 1) * partSize)) := by
      rw [Nat.succ_mul]
      omega
    rw [hmin, ← List.take_take, List.take_append_drop]

/-- With parts of at least one byte, the parts cover the data. -/
theorem flatten_splitData (data : List UInt8) {partSize : Nat} (hsize : 0 < partSize) :
    (splitData data partSize).flatten = data := by
  rw [splitData, flatten_partBytes]
  have hcover : data.length ≤ (data.length + partSize - 1) / partSize * partSize := by
    have h := Nat.lt_div_mul_add (a := data.length + partSize - 1) hsize
    omega
  rw [Nat.min_eq_left hcover, List.take_length]

theorem length_splitData (data : List UInt8) (partSize : Nat) :
    (splitData data partSize).length = (data.length + partSize - 1) / partSize := by
  simp [splitData]

/-- The parts of a fresh set: part `i` has index `i`, the `i`-th bytes and the `i`-th proof. -/
theorem getElem?_parts_newPartSetFromData (data : List UInt8) (partSize i : Nat)
    {q : Part P} :
    (newPartSetFromData hash M data partSize).parts[i]? = some (some q) ↔
      q.index = i ∧ (splitData data partSize)[i]? = some q.bytes ∧
        (M.simpleProofsFromHashes ((splitData data partSize).map hash)).2[i]? = some q.proof := by
  simp only [newPartSetFromData, List.getElem?_mapIdx, Option.map_eq_some_iff,
    Option.some.injEq]
  constructor
  · rintro ⟨⟨b, p⟩, hz, rfl⟩
    rw [List.getElem?_zip_eq_some] at hz
    exact ⟨rfl, hz.1, hz.2⟩
  · rintro ⟨hi, hb, hp⟩
    refine ⟨(q.bytes, q.proof), List.getElem?_zip_eq_some.2 ⟨hb, hp⟩, ?_⟩
    rw [← hi]

/-- What the receiving side needs of the sent set: a part at every index below its total, each
with its own index and a proof that verifies against the root, and no other bytes verify at an
index. -/
structure PartSet.Proves (ps : PartSet H P) : Prop where
  length : ps.parts.length = ps.total
  full : ∀ i < ps.total, ∃ q, ps.parts[i]? = some (some q)
  parts : ∀ (i : Nat) (q : Part P), ps.parts[i]? = some (some q) →
    q.index = i ∧ M.verify q.proof i ps.total (hash q.bytes) ps.hash = true
  sound : ∀ (p : P) (i : Nat) (b : List UInt8), M.verify p i ps.total (hash b) ps.hash = true →
    ∃ q : Part P, ps.parts[i]? = some (some q) ∧ q.bytes = b

/-- A set made from data proves its parts, when the Merkle library is correct. -/
theorem proves_newPartSetFromData (hM : M.Correct hash) (data : List UInt8) (partSize : Nat) :
    PartSet.Proves hash M (newPartSetFromData hash M data partSize) := by
  have hlen := hM.length_proofs (splitData data partSize)
  have htotal : (newPartSetFromData hash M data partSize).total =
      (splitData data partSize).length := (length_splitData data partSize).symm
  -- a proof exists at every index of the data's parts
  have hproof : ∀ (i : Nat) (b : List UInt8), (splitData data partSize)[i]? = some b →
      ∃ p, (M.simpleProofsFromHashes ((splitData data partSize).map hash)).2[i]? = some p := by
    intro i b hb
    have hi := (List.getElem?_eq_some_iff.1 hb).1
    have hi' : i < (M.simpleProofsFromHashes ((splitData data partSize).map hash)).2.length := by
      omega
    exact ⟨_, List.getElem?_eq_getElem hi'⟩
  refine ⟨?_, fun i hi => ?_, fun i q hq => ?_, fun p i b hv => ?_⟩
  · simp [newPartSetFromData, hlen, length_splitData]
  · rw [htotal] at hi
    obtain ⟨p, hp⟩ := hproof i _ (List.getElem?_eq_getElem hi)
    exact ⟨⟨i, _, p⟩, (getElem?_parts_newPartSetFromData hash M data partSize i).2
      ⟨rfl, List.getElem?_eq_getElem hi, hp⟩⟩
  · obtain ⟨hidx, hb, hp⟩ := (getElem?_parts_newPartSetFromData hash M data partSize i).1 hq
    refine ⟨hidx, ?_⟩
    rw [htotal]
    exact hM.complete _ i q.proof q.bytes hp hb
  · rw [htotal] at hv
    have hb := hM.sound _ i p b hv
    obtain ⟨p', hp'⟩ := hproof i b hb
    exact ⟨⟨i, b, p'⟩, (getElem?_parts_newPartSetFromData hash M data partSize i).2
      ⟨rfl, hb, hp'⟩, rfl⟩

/-- A set being filled from the sent set `sent`: it has the header of `sent` and a slot per part,
every part it holds has the bytes of the sent part of its index, the bit array marks the held
parts, and the count is their number. -/
structure Agrees (sent ps : PartSet H P) : Prop where
  total : ps.total = sent.total
  hash : ps.hash = sent.hash
  length : ps.parts.length = ps.total
  bits : ps.partsBitArray = ps.parts.map Option.isSome
  count : ps.count = ps.parts.countP Option.isSome
  bytes : ∀ (i : Nat) (q : Part P), ps.parts[i]? = some (some q) →
    ∃ q' : Part P, sent.parts[i]? = some (some q') ∧ q.bytes = q'.bytes

theorem Agrees.newPartSetFromHeader (sent : PartSet H P) :
    Agrees sent (newPartSetFromHeader sent.header) where
  total := rfl
  hash := rfl
  length := List.length_replicate
  bits := by simp [IntChain.newPartSetFromHeader]
  count := by
    rw [IntChain.newPartSetFromHeader, List.countP_replicate]
    rfl
  bytes i q h := by simp [IntChain.newPartSetFromHeader, List.getElem?_replicate] at h

/-- `AddPart` either changes nothing and adds nothing, or fills the free slot of the part's
index, with a proof that verifies when `verify` is set. -/
theorem addPart_cases (ps : PartSet H P) (part : Part P) (verify : Bool) :
    ((ps.addPart hash M part verify).1 = ps ∧ (ps.addPart hash M part verify).2 ≠ .ok true) ∨
      ∃ i : Nat, part.index = i ∧ ps.parts[i]? = some none ∧
        (verify = true → M.verify part.proof i ps.total (hash part.bytes) ps.hash = true) ∧
        ps.addPart hash M part verify =
          ({ ps with parts := ps.parts.set i (some part)
                     partsBitArray := ps.partsBitArray.set i true
                     count := ps.count + 1 }, .ok true) := by
  unfold PartSet.addPart
  by_cases hge : (ps.total : Int) ≤ part.index
  · rw [if_pos hge]
    exact .inl ⟨rfl, by simp⟩
  rw [if_neg hge]
  by_cases hneg : part.index < 0
  · rw [if_pos hneg]
    exact .inl ⟨rfl, by simp⟩
  rw [if_neg hneg]
  split
  · exact .inl ⟨rfl, by simp⟩
  · exact .inl ⟨rfl, by simp⟩
  rename_i hslot
  by_cases hv : (verify && !M.verify part.proof part.index.toNat ps.total (hash part.bytes)
      ps.hash) = true
  · rw [if_pos hv]
    exact .inl ⟨rfl, by simp⟩
  · rw [if_neg hv]
    refine .inr ⟨part.index.toNat, by omega, hslot, fun hverify => ?_, rfl⟩
    simpa [hverify] using hv

variable {hash M}

/-- Every call of `AddPart`, on any part, keeps a set in agreement with a sent set that proves
its parts: what does not verify is never added. -/
theorem Agrees.addPart {sent ps : PartSet H P} (h : Agrees sent ps) (hs : PartSet.Proves hash M sent)
    (part : Part P) : Agrees sent (ps.addPart hash M part true).1 := by
  rcases addPart_cases hash M ps part true with ⟨heq, -⟩ | ⟨i, -, hslot, hv, heq⟩
  · rw [heq]
    exact h
  rw [heq]
  have hlt : i < ps.parts.length := (List.getElem?_eq_some_iff.1 hslot).1
  have hget : ps.parts[i] = none := (List.getElem?_eq_some_iff.1 hslot).2
  obtain ⟨q', hq', hbytes⟩ := hs.sound _ _ _ (by rw [← h.total, ← h.hash]; exact hv rfl)
  refine ⟨h.total, h.hash, by simp [h.length], ?_, ?_, fun j q hj => ?_⟩
  · simp [h.bits, List.map_set]
  · rw [List.countP_set hlt, hget, h.count]
    simp
  · by_cases hij : i = j
    · subst hij
      rw [List.getElem?_set_self hlt, Option.some.injEq, Option.some.injEq] at hj
      subst hj
      exact ⟨q', hq', hbytes.symm⟩
    · rw [List.getElem?_set_ne hij] at hj
      exact h.bytes j q hj

/-- A sent part whose index the set holds already is turned away, without an error. -/
theorem addPart_of_held {sent ps : PartSet H P} (h : Agrees sent ps)
    (hs : PartSet.Proves hash M sent) {i : Nat} {q q' : Part P}
    (hq : sent.parts[i]? = some (some q)) (hheld : ps.parts[i]? = some (some q')) :
    ps.addPart hash M q true = (ps, .ok false) := by
  have hidx := (hs.parts i q hq).1
  have hlt : i < ps.total := by
    rw [← h.length]
    exact (List.getElem?_eq_some_iff.1 hheld).1
  unfold PartSet.addPart
  rw [if_neg (by omega), if_neg (by omega), hidx, Int.toNat_natCast, hheld]

/-- A sent part whose index is free is added. -/
theorem addPart_of_free {sent ps : PartSet H P} (h : Agrees sent ps)
    (hs : PartSet.Proves hash M sent) {i : Nat} {q : Part P}
    (hq : sent.parts[i]? = some (some q)) (hfree : ps.parts[i]? = some none) :
    ps.addPart hash M q true =
      ({ ps with parts := ps.parts.set i (some q)
                 partsBitArray := ps.partsBitArray.set i true
                 count := ps.count + 1 }, .ok true) := by
  obtain ⟨hidx, hv⟩ := hs.parts i q hq
  have hlt : i < ps.total := by
    rw [← h.length]
    exact (List.getElem?_eq_some_iff.1 hfree).1
  unfold PartSet.addPart
  rw [if_neg (by omega), if_neg (by omega), hidx, Int.toNat_natCast, hfree]
  dsimp only
  rw [h.total, h.hash, hv]
  rfl

/-- The parts held after the parts `pre` arrived: those of their indices. -/
def Holds (ps : PartSet H P) (pre : List (Part P)) : Prop :=
  ∀ i : Nat, (∃ q, ps.parts[i]? = some (some q)) ↔ (i : Int) ∈ pre.map (·.index)

/-- A run of sent parts, in any order and with repeats: each is added exactly when its index
has not arrived before, and the set then holds the indices of all that arrived. -/
theorem addParts_sent {sent : PartSet H P} (hs : PartSet.Proves hash M sent)
    (arrivals : List (Part P)) (harr : ∀ q ∈ arrivals, some q ∈ sent.parts) :
    ∀ (st : PartSet H P) (pre : List (Part P)), Agrees sent st → Holds st pre →
      Agrees sent (st.addParts hash M arrivals).1 ∧
        Holds (st.addParts hash M arrivals).1 (pre ++ arrivals) ∧
        (st.addParts hash M arrivals).2 = arrivals.mapIdx fun k q =>
          .ok (decide (q.index ∉ (pre ++ arrivals.take k).map (·.index))) := by
  induction arrivals with
  | nil =>
    intro st pre h hholds
    simpa [PartSet.addParts] using ⟨h, hholds⟩
  | cons q rest ih =>
    intro st pre h hholds
    obtain ⟨i, hq⟩ := List.mem_iff_getElem?.1 (harr q List.mem_cons_self)
    have hidx := (hs.parts i q hq).1
    have hrest := ih fun q' hq' => harr q' (List.mem_cons_of_mem _ hq')
    have hlt : i < st.parts.length := by
      rw [h.length, h.total, ← hs.length]
      exact (List.getElem?_eq_some_iff.1 hq).1
    -- the later results, with `q` among the parts that arrived before
    have htail : ∀ st' : PartSet H P, (st'.addParts hash M rest).2 = rest.mapIdx (fun k q' =>
        .ok (decide (q'.index ∉ ((pre ++ [q]) ++ rest.take k).map (·.index)))) →
        (st'.addParts hash M rest).2 = rest.mapIdx (fun k q' =>
          .ok (decide (q'.index ∉ (pre ++ (q :: rest).take (k + 1)).map (·.index)))) := by
      intro st' h'
      rw [h']
      simp
    by_cases hheld : ∃ q', st.parts[i]? = some (some q')
    · -- a repeat: nothing changes
      obtain ⟨q', hq'⟩ := hheld
      have hmem : q.index ∈ pre.map (·.index) := hidx ▸ (hholds i).1 ⟨q', hq'⟩
      have hholds' : Holds st (pre ++ [q]) := by
        intro j
        rw [hholds j, List.map_append, List.mem_append, List.map_singleton, List.mem_singleton]
        constructor
        · exact .inl
        · rintro (hj | hj)
          · exact hj
          · rw [hj]
            exact hmem
      obtain ⟨h1, h2, h3⟩ := hrest st (pre ++ [q]) h hholds'
      simp only [PartSet.addParts, addPart_of_held h hs hq hq']
      refine ⟨h1, by simpa using h2, ?_⟩
      rw [List.mapIdx_cons, htail st h3]
      simp [hmem]
    · -- the first arrival of its index: it fills the free slot
      have hfree : st.parts[i]? = some none := by
        rw [List.getElem?_eq_getElem hlt]
        cases hget : st.parts[i] with
        | none => rfl
        | some q' => exact absurd ⟨q', by rw [List.getElem?_eq_getElem hlt, hget]⟩ hheld
      have hnot : q.index ∉ pre.map (·.index) := fun hm => hheld ((hholds i).2 (hidx ▸ hm))
      have hholds' : Holds { st with parts := st.parts.set i (some q)
                                     partsBitArray := st.partsBitArray.set i true
                                     count := st.count + 1 } (pre ++ [q]) := by
        intro j
        rw [List.map_append, List.mem_append, List.map_singleton, List.mem_singleton, hidx]
        by_cases hij : i = j
        · subst hij
          simp [List.getElem?_set_self hlt]
        · have hij' : (j : Int) ≠ i := by omega
          simp only [List.getElem?_set_ne hij, hij', or_false]
          exact hholds j
      obtain ⟨h1, h2, h3⟩ := hrest _ (pre ++ [q]) (h.addPart hs q |> fun h' => by
        rwa [addPart_of_free h hs hq hfree] at h') hholds'
      simp only [PartSet.addParts, addPart_of_free h hs hq hfree]
      refine ⟨h1, by simpa using h2, ?_⟩
      rw [List.mapIdx_cons, htail _ h3]
      simp [hnot]

/-- A part whose bytes are not those of the sent part of its index is never added, and leaves the
set as it was. -/
theorem addPart_forged {sent ps : PartSet H P} (h : Agrees sent ps)
    (hs : PartSet.Proves hash M sent) {q : Part P}
    (hforged : ∀ q' : Part P, sent.parts[q.index.toNat]? = some (some q') → q.bytes ≠ q'.bytes) :
    (ps.addPart hash M q true).1 = ps ∧ (ps.addPart hash M q true).2 ≠ .ok true := by
  rcases addPart_cases hash M ps q true with hkeep | ⟨i, hi, -, hv, -⟩
  · exact hkeep
  · obtain ⟨q', hq', hbytes⟩ := hs.sound _ _ _ (by rw [← h.total, ← h.hash]; exact hv rfl)
    have hi' : q.index.toNat = i := by omega
    exact absurd hbytes.symm (hforged q' (hi' ▸ hq'))

/-- A set that agrees with the sent one is complete exactly when it holds every index. -/
theorem isComplete_iff {sent ps : PartSet H P} (h : Agrees sent ps) :
    ps.isComplete = true ↔ ∀ i < sent.total, ∃ q, ps.parts[i]? = some (some q) := by
  rw [PartSet.isComplete, beq_iff_eq, h.count, ← h.length, List.countP_eq_length, ← h.total,
    ← h.length]
  constructor
  · intro hall i hi
    obtain ⟨q, hq⟩ := Option.isSome_iff_exists.1 (hall _ (List.getElem_mem hi))
    exact ⟨q, by rw [List.getElem?_eq_getElem hi, hq]⟩
  · intro hfull o ho
    obtain ⟨i, hi, rfl⟩ := List.mem_iff_getElem.1 ho
    obtain ⟨q, hq⟩ := hfull i hi
    rw [List.getElem?_eq_getElem hi, Option.some.injEq] at hq
    rw [hq]
    rfl

/-- A loop over options that all hold a value keeps the values, in order. -/
theorem filterMap_eq_map_getD {α β : Type} {f : α → Option β} {l : List α}
    (h : ∀ a ∈ l, (f a).isSome) (d : β) : l.filterMap f = l.map fun a => (f a).getD d := by
  induction l with
  | nil => rfl
  | cons a l ih =>
    obtain ⟨b, hb⟩ := Option.isSome_iff_exists.1 (h a List.mem_cons_self)
    rw [List.filterMap_cons, hb, List.map_cons, hb, ih fun a ha => h a (List.mem_cons_of_mem _ ha)]
    rfl

/-- A complete set that agrees with a set made from `data` gives a reader of exactly `data`. -/
theorem getReader_of_complete {data : List UInt8} (hdata : data ≠ [])
    {partSize : Nat} (hsize : 0 < partSize) {ps : PartSet H P}
    (h : Agrees (newPartSetFromData hash M data partSize) ps) (hc : ps.isComplete = true) :
    ∃ psr, ps.getReader = some psr ∧ psr.remaining = data := by
  have hfull := (isComplete_iff h).1 hc
  have htotal : ps.parts.length = (splitData data partSize).length := by
    rw [h.length, h.total, length_splitData]
    rfl
  have hall : ∀ o ∈ ps.parts, (o.map (·.bytes)).isSome := by
    intro o ho
    obtain ⟨i, hi, rfl⟩ := List.mem_iff_getElem.1 ho
    obtain ⟨q, hq⟩ := hfull i (by rw [← h.total, ← h.length]; exact hi)
    rw [List.getElem?_eq_getElem hi, Option.some.injEq] at hq
    rw [hq]
    rfl
  -- the bytes the set holds are the parts of the data
  have hbytes : ps.parts.map (fun o => (o.map (·.bytes)).getD []) = splitData data partSize := by
    apply List.ext_getElem (by rw [List.length_map, htotal])
    intro i hi1 hi2
    rw [List.length_map] at hi1
    obtain ⟨q, hq⟩ := hfull i (by rw [← h.total, ← h.length]; exact hi1)
    obtain ⟨q', hq', hqq'⟩ := h.bytes i q hq
    obtain ⟨-, hb, -⟩ := (getElem?_parts_newPartSetFromData hash M data partSize i).1 hq'
    rw [List.getElem?_eq_getElem hi1, Option.some.injEq] at hq
    rw [List.getElem?_eq_getElem hi2, Option.some.injEq] at hb
    rw [List.getElem_map, hq, hb, ← hqq']
    rfl
  obtain ⟨b, bs, hbs⟩ : ∃ b bs, splitData data partSize = b :: bs := by
    have hpos : 0 < (splitData data partSize).length := by
      rw [length_splitData]
      have hlen : 0 < data.length := List.length_pos_iff.2 hdata
      exact Nat.div_pos (by omega) hsize
    cases hsd : splitData data partSize with
    | nil => rw [hsd] at hpos; exact absurd hpos (Nat.lt_irrefl 0)
    | cons b bs => exact ⟨b, bs, rfl⟩
  refine ⟨⟨0, b :: bs, b⟩, ?_, ?_⟩
  · rw [PartSet.getReader, if_pos hc, Run.mapM_eq_some_filterMap hall, Option.bind_some,
      filterMap_eq_map_getD hall [], hbytes, hbs]
    rfl
  · rw [remaining_newPartSetReader (show newPartSetReader (b :: bs) = some _ from rfl), ← hbs, flatten_splitData data hsize]

theorem holds_newPartSetFromHeader (header : PartSetHeader H) :
    Holds (newPartSetFromHeader header : PartSet H P) [] := by
  intro i
  simp [IntChain.newPartSetFromHeader, List.getElem?_replicate]

/-- The transport of a proposal block. The parts of a set made from `data` arrive at a validator
in any order and with repeats: each first arrival of an index is added and each repeat turned
away without an error, the set is complete exactly when every index has arrived, a complete set
reads back `data` with buffers of any sizes, and at no point is a part added whose bytes are not
those of the sent part of its index. -/
theorem partSet_reassembles_data (hM : M.Correct hash) {data : List UInt8} (hdata : data ≠ [])
    {partSize : Nat} (hsize : 0 < partSize) (arrivals : List (Part P))
    (harr : ∀ q ∈ arrivals, some q ∈ (newPartSetFromData hash M data partSize).parts) :
    let sent := newPartSetFromData hash M data partSize
    let received := receiveParts hash M sent.header
    (received arrivals).2 =
        arrivals.mapIdx (fun k q => .ok (decide (q.index ∉ (arrivals.take k).map (·.index)))) ∧
      ((received arrivals).1.isComplete = true ↔
        ∀ i < sent.total, (i : Int) ∈ arrivals.map (·.index)) ∧
      ((received arrivals).1.isComplete = true →
        ∃ psr, (received arrivals).1.getReader = some psr ∧
          ∀ sizes : List Nat, (∀ n ∈ sizes, 0 < n) →
            (∀ b, psr.readToEOF sizes = some b → b = data) ∧
            (data.length < sizes.length → psr.readToEOF sizes = some data)) ∧
      ∀ (k : Nat) (q : Part P),
        (∀ q' : Part P, sent.parts[q.index.toNat]? = some (some q') → q.bytes ≠ q'.bytes) →
        ((received (arrivals.take k)).1.addPart hash M q true).1 = (received (arrivals.take k)).1 ∧
          ((received (arrivals.take k)).1.addPart hash M q true).2 ≠ .ok true := by
  intro sent received
  have hs := proves_newPartSetFromData hash M hM data partSize
  -- every run of sent parts from the header, the whole one and each prefix
  have hrun : ∀ l : List (Part P), (∀ q ∈ l, some q ∈ sent.parts) →
      Agrees sent (received l).1 ∧ Holds (received l).1 l ∧
        (received l).2 = l.mapIdx fun k q =>
          .ok (decide (q.index ∉ (l.take k).map (·.index))) := by
    intro l hl
    simpa [received, receiveParts] using
      addParts_sent hs l hl _ [] (Agrees.newPartSetFromHeader sent) (holds_newPartSetFromHeader _)
  obtain ⟨hagree, hholds, hres⟩ := hrun arrivals harr
  refine ⟨hres, ?_, fun hc => ?_, fun k q hforged => ?_⟩
  · rw [isComplete_iff hagree]
    exact forall₂_congr fun i _ => hholds i
  · obtain ⟨psr, hpsr, hrem⟩ := getReader_of_complete hdata hsize hagree hc
    refine ⟨psr, hpsr, fun sizes hsizes => ?_⟩
    rw [← hrem]
    exact PartSetReader.readToEOF_spec sizes hsizes psr
  · obtain ⟨hagree', -, -⟩ := hrun (arrivals.take k) fun q hq => harr q (List.mem_of_mem_take hq)
    exact addPart_forged hagree' hs hforged

end Sent

/-- The Merkle "tree" whose root is the list of its leaves, with leaves that are the data itself:
a correct instance of the interface, for which the hypotheses above hold. -/
def listMerkle : Merkle (List (List UInt8)) Unit where
  simpleProofsFromHashes hs := (hs.flatten, hs.map fun _ => ())
  verify _ i n h root := root.length == n && h.length == 1 && root[i]? == h.head?

theorem listMerkle_correct : listMerkle.Correct fun b => [b] := by
  have hroot : ∀ ds : List (List UInt8), (ds.map fun b => [b]).flatten = ds := by
    intro ds
    induction ds with
    | nil => rfl
    | cons d ds ih => simp [ih]
  refine ⟨fun ds => by simp [listMerkle], fun ds i p b _ hb => ?_, fun ds i p b hv => ?_⟩
  · simp [listMerkle, hroot, hb]
  · simp only [listMerkle, hroot, Bool.and_eq_true, beq_iff_eq] at hv
    simpa using hv.2

theorem partSet_reassembles_data_three_bytes :
    (receiveParts (fun b => [b]) listMerkle
        (newPartSetFromData (fun b => [b]) listMerkle [1, 2, 3] 2).header
        [⟨1, [3], ()⟩, ⟨0, [1, 2], ()⟩, ⟨1, [3], ()⟩]).2 = [.ok true, .ok true, .ok false] := by
  have h := (partSet_reassembles_data listMerkle_correct
    (show ([1, 2, 3] : List UInt8) ≠ [] by decide) (show 0 < 2 by decide)
    [⟨1, [3], ()⟩, ⟨0, [1, 2], ()⟩, ⟨1, [3], ()⟩] (by decide +kernel)).1
  rw [h]
  decide

end IntChain
