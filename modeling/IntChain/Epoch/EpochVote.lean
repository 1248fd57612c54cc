import IntChain.Epoch.ValidatorSet
import IntChain.Lib.Run
import Mathlib.Data.Finset.Card

/-!
# The epoch vote set with its map

`EpochValidatorVoteSet` of `consensus/ipbft/epoch/epoch_vote.go` as the source keeps it: the
`Votes` slice of pointers to vote objects, and the unexported map `votesByAddress` from an
address to one of those pointers. `StoreVote` finds the old vote of the address through the map,
searches the slice for that very pointer and cuts it out, then appends the new pointer and
points the map at it; a pointer missing from the slice would leave the index at `-1`, and
`Votes[:-1]` panics. `Copy` and `LoadEpochVoteSet` build a set over fresh copies of the votes,
filling the map from the slice.

The vote objects live on a heap, a list in which a pointer is an index and a new object is
appended. The representation invariant `WF` says that the pointers of the slice carry distinct
addresses and that the map sends exactly those addresses to exactly those pointers. It holds
along every run of `StoreVote`, `Copy` and `SaveEpochVoteSet` then `LoadEpochVoteSet` from
`NewEpochValidatorVoteSet`, and under it the set refines `EpochValidatorVoteSet`, the slice of
votes that the epoch switch reads: `StoreVote` is the removal of the address's vote followed by
an append there, and `GetVoteByAddress` the lookup of the address in the slice.
-/

namespace IntChain

variable {α κ : Type} [DecidableEq α]

/-! ### The slice of votes -/

namespace EpochValidatorVoteSet

/-- `StoreVote` on the slice of votes answers a lookup with the new vote for its address and as
before for every other. -/
theorem getVoteByAddress_storeVote (vs : EpochValidatorVoteSet α κ) (vote : EpochValidatorVote α κ)
    (a : α) :
    (vs.storeVote vote).getVoteByAddress a =
      if vote.address = a then some vote else vs.getVoteByAddress a := by
  unfold storeVote getVoteByAddress
  rw [List.find?_append]
  split_ifs with ha
  · -- no vote of the address is left before the new one
    have hnone : (vs.votes.filter fun v => v.address ≠ vote.address).find?
        (fun v => decide (v.address = a)) = none := by
      rw [List.find?_eq_none]
      intro v hv
      have := (List.mem_filter.1 hv).2
      simp only [ne_eq, decide_not, Bool.not_eq_eq_eq_not, Bool.not_true,
        decide_eq_false_iff_not] at this
      simpa [← ha] using this
    rw [hnone, Option.none_or, List.find?_singleton, if_pos (by simpa using ha)]
  · -- the votes the filter drops have the other address
    have hfind : (vs.votes.filter fun v => v.address ≠ vote.address).find?
        (fun v => decide (v.address = a)) = vs.votes.find? fun v => decide (v.address = a) := by
      rw [List.find?_filter]
      congr 1
      funext v
      by_cases hv : v.address = a
      · simp [hv, Ne.symm ha]
      · simp [hv]
    rw [hfind]
    cases vs.votes.find? fun v => decide (v.address = a) <;> simp [ha]

theorem mem_addresses_storeVote (vs : EpochValidatorVoteSet α κ) (vote : EpochValidatorVote α κ)
    (a : α) :
    a ∈ (vs.storeVote vote).votes.map (·.address) ↔
      a = vote.address ∨ a ∈ vs.votes.map (·.address) := by
  simp only [storeVote, List.map_append, List.mem_append, List.mem_map, List.mem_filter,
    List.map_cons, List.map_nil, List.mem_singleton]
  constructor
  · rintro (⟨v, ⟨hv, -⟩, rfl⟩ | rfl)
    · exact .inr ⟨v, hv, rfl⟩
    · exact .inl rfl
  · rintro (rfl | ⟨v, hv, rfl⟩)
    · exact .inr rfl
    · by_cases hva : v.address = vote.address
      · exact .inr hva
      · exact .inl ⟨v, ⟨hv, by simpa using hva⟩, rfl⟩

theorem nodup_addresses_storeVote {vs : EpochValidatorVoteSet α κ}
    (h : (vs.votes.map (·.address)).Nodup) (vote : EpochValidatorVote α κ) :
    ((vs.storeVote vote).votes.map (·.address)).Nodup := by
  simp only [storeVote, List.map_append, List.map_cons, List.map_nil]
  apply List.Nodup.append (h.sublist ((List.filter_sublist).map _)) (List.nodup_singleton _)
  intro a ha hb
  simp only [List.mem_map, List.mem_filter] at ha
  obtain ⟨v, ⟨-, hv⟩, rfl⟩ := ha
  rw [List.mem_singleton] at hb
  simp [hb] at hv

/-- With one vote per address, a lookup finds a vote exactly when the slice holds it. -/
theorem getVoteByAddress_eq_some_iff {vs : EpochValidatorVoteSet α κ}
    (hnd : (vs.votes.map (·.address)).Nodup) {a : α} {v : EpochValidatorVote α κ} :
    vs.getVoteByAddress a = some v ↔ v ∈ vs.votes ∧ v.address = a := by
  constructor
  · intro hv
    exact ⟨List.mem_of_find?_eq_some hv, by simpa using List.find?_some hv⟩
  · rintro ⟨hv, rfl⟩
    cases hf : vs.getVoteByAddress v.address with
    | none => exact absurd hv (by simpa using List.find?_eq_none.1 hf v)
    | some w =>
      have hw : w ∈ vs.votes := List.mem_of_find?_eq_some hf
      have ha : w.address = v.address := by simpa using List.find?_some hf
      rw [List.inj_on_of_nodup_map hnd hw hv ha]

/-- A write to the vote of address `b` that keeps addresses is seen by a lookup of `b` only. -/
theorem getVoteByAddress_map_update {vs : EpochValidatorVoteSet α κ}
    {f : EpochValidatorVote α κ → EpochValidatorVote α κ} (hf : ∀ w, (f w).address = w.address)
    (b a : α) :
    (⟨vs.votes.map fun w => if w.address = b then f w else w⟩ : EpochValidatorVoteSet α κ).getVoteByAddress a =
      if b = a then (vs.getVoteByAddress a).map f else vs.getVoteByAddress a := by
  have hg : ∀ w : EpochValidatorVote α κ, (if w.address = b then f w else w).address = w.address := by
    intro w
    split_ifs
    · exact hf w
    · rfl
  unfold getVoteByAddress
  rw [List.find?_map]
  have hpred : ((fun v : EpochValidatorVote α κ => decide (v.address = a)) ∘
      fun w => if w.address = b then f w else w) = fun v => decide (v.address = a) := by
    funext w
    simp only [Function.comp_apply, hg]
  rw [hpred]
  -- the vote found has address `a`, so the write applies to it exactly when `b = a`
  cases hx : vs.votes.find? (fun v => decide (v.address = a)) with
  | none => simp
  | some w =>
    have hwa : w.address = a := by simpa using List.find?_some hx
    by_cases hba : b = a
    · simp [hba, hwa]
    · simp [hba, hwa, Ne.symm hba]

theorem addresses_map_update (vs : EpochValidatorVoteSet α κ)
    {f : EpochValidatorVote α κ → EpochValidatorVote α κ} (hf : ∀ w, (f w).address = w.address)
    (b : α) :
    (vs.votes.map fun w => if w.address = b then f w else w).map (·.address) =
      vs.votes.map (·.address) := by
  rw [List.map_map]
  apply List.map_congr_left
  intro w _
  by_cases hw : w.address = b
  · simp [hw, hf]
  · simp [hw]

end EpochValidatorVoteSet

/-! ### The set over its heap -/

/-- The vote objects: a pointer is an index, and `&EpochValidatorVote{…}` appends. -/
abbrev VoteHeap (α κ : Type) := List (EpochValidatorVote α κ)

/-- `EpochValidatorVoteSet` as the source keeps it: the `Votes` slice of pointers and the map
`votesByAddress` from an address to a pointer. -/
structure VoteSetObject (α : Type) where
  votes : List Nat
  votesByAddress : KeyMap α Nat

namespace VoteSetObject

/-- `NewEpochValidatorVoteSet`. -/
def new : VoteSetObject α := ⟨[], KeyMap.empty⟩

/-- `GetVoteByAddress`: the pointer the map holds for the address. -/
def getVoteByAddress (vs : VoteSetObject α) (address : α) : Option Nat :=
  vs.votesByAddress.find? address

/-- Append a pointer to the slice and point the map at it. -/
def push (vs : VoteSetObject α) (address : α) (vote : Nat) : VoteSetObject α :=
  ⟨vs.votes ++ [vote], vs.votesByAddress.insert address vote⟩

/-- `StoreVote`: the pointer the map holds for the vote's address is searched in the slice by
pointer equality and cut out, then the vote is appended. `none` is a panic: a nil vote, or an
old vote missing from the slice, for which the index stays `-1`. -/
def storeVote (h : VoteHeap α κ) (vs : VoteSetObject α) (vote : Nat) :
    Option (VoteSetObject α) :=
  match h[vote]? with
  | none => none
  | some v =>
    let votes := match vs.votesByAddress.find? v.address with
      | none => some vs.votes
      | some oldVote => (vs.votes.idxOf? oldVote).map vs.votes.eraseIdx
    votes.map fun votes => push ⟨votes, vs.votesByAddress⟩ v.address vote

/-- A set over fresh copies of `data`, made one vote at a time: a new object, appended to the
slice, and the map pointed at it. -/
def ofVotes (h : VoteHeap α κ) (data : List (EpochValidatorVote α κ)) :
    VoteHeap α κ × VoteSetObject α :=
  data.foldl (fun acc v => (acc.1 ++ [v], acc.2.push v.address acc.1.length)) (h, new)

/-- `Copy`: a copy of every vote of the slice, in order, with the map filled from them. -/
def copy (h : VoteHeap α κ) (vs : VoteSetObject α) : Option (VoteHeap α κ × VoteSetObject α) :=
  (vs.votes.mapM fun p => h[p]?).map (ofVotes h)

/-- `SaveEpochVoteSet`: the votes the slice points to, in order; the map is not written. -/
def saveEpochVoteSet (h : VoteHeap α κ) (vs : VoteSetObject α) :
    Option (List (EpochValidatorVote α κ)) :=
  vs.votes.mapM fun p => h[p]?

/-- `LoadEpochVoteSet` of saved votes: the decoded votes are new objects, and the map is filled
from the slice. -/
def loadEpochVoteSet (h : VoteHeap α κ) (data : List (EpochValidatorVote α κ)) :
    VoteHeap α κ × VoteSetObject α :=
  ofVotes h data

/-- The address of the vote a pointer points to. -/
def addressAt (h : VoteHeap α κ) (p : Nat) : Option α := (h[p]?).map (·.address)

/-- The representation invariant: the slice points to allocated votes with distinct addresses,
and the map sends exactly the addresses of the slice to the pointers that carry them. -/
structure WF (h : VoteHeap α κ) (vs : VoteSetObject α) : Prop where
  allocated : ∀ p ∈ vs.votes, p < h.length
  nodup : (vs.votes.map (addressAt h)).Nodup
  byAddress : ∀ a p, vs.votesByAddress.find? a = some p ↔ p ∈ vs.votes ∧ addressAt h p = some a

/-- The slice of votes the set stands for. -/
def toVoteSet (h : VoteHeap α κ) (vs : VoteSetObject α) : EpochValidatorVoteSet α κ :=
  ⟨vs.votes.filterMap fun p => h[p]?⟩


/-! ### The invariant over the heap -/

variable {h : VoteHeap α κ} {vs : VoteSetObject α}

omit [DecidableEq α] in
theorem addressAt_append {p : Nat} (hp : p < h.length) (l : VoteHeap α κ) :
    addressAt (h ++ l) p = addressAt h p := by
  simp [addressAt, List.getElem?_append_left hp]

omit [DecidableEq α] in
theorem addressAt_eq_some {p : Nat} {v : EpochValidatorVote α κ} (hv : h[p]? = some v) :
    addressAt h p = some v.address := by
  simp [addressAt, hv]

theorem WF.new : WF h (new : VoteSetObject α) where
  allocated := by simp [VoteSetObject.new]
  nodup := List.nodup_nil
  byAddress := by simp [VoteSetObject.new, KeyMap.find?_empty]

/-- New objects on the heap leave the set as it was. -/
theorem WF.append (hw : WF h vs) (l : VoteHeap α κ) : WF (h ++ l) vs where
  allocated p hp := by
    have := hw.allocated p hp
    simp only [List.length_append]
    omega
  nodup := by
    rw [List.map_congr_left fun p hp => addressAt_append (hw.allocated p hp) l]
    exact hw.nodup
  byAddress a p := by
    rw [hw.byAddress]
    constructor
    · rintro ⟨hp, ha⟩
      exact ⟨hp, by rw [addressAt_append (hw.allocated p hp)]; exact ha⟩
    · rintro ⟨hp, ha⟩
      exact ⟨hp, by rw [← addressAt_append (hw.allocated p hp) l]; exact ha⟩

/-- The pointers of the slice all point to votes. -/
theorem WF.isSome (hw : WF h vs) {p : Nat} (hp : p ∈ vs.votes) : (h[p]?).isSome := by
  simp [hw.allocated p hp]

/-- The slice holds each pointer once. -/
theorem WF.nodup_votes (hw : WF h vs) : vs.votes.Nodup :=
  List.Nodup.of_map _ hw.nodup

/-- Two pointers of the slice with one address are one pointer. -/
theorem WF.eq_of_addressAt (hw : WF h vs) {p q : Nat} (hp : p ∈ vs.votes) (hq : q ∈ vs.votes)
    (he : addressAt h p = addressAt h q) : p = q :=
  List.inj_on_of_nodup_map hw.nodup hp hq he

theorem WF.find?_eq_none_iff (hw : WF h vs) (a : α) :
    vs.votesByAddress.find? a = none ↔ ∀ p ∈ vs.votes, addressAt h p ≠ some a := by
  constructor
  · intro hn p hp ha
    rw [(hw.byAddress a p).2 ⟨hp, ha⟩] at hn
    cases hn
  · intro hn
    cases hf : vs.votesByAddress.find? a with
    | none => rfl
    | some p =>
      obtain ⟨hp, ha⟩ := (hw.byAddress a p).1 hf
      exact absurd ha (hn p hp)

/-- An address the map does not hold has no pointer in the slice. -/
theorem WF.filter_eq_self (hw : WF h vs) {a : α} (hf : vs.votesByAddress.find? a = none) :
    vs.votes.filter (fun q => addressAt h q ≠ some a) = vs.votes := by
  rw [List.filter_eq_self]
  intro q hq
  simpa using (hw.find?_eq_none_iff a).1 hf q hq

omit [DecidableEq α] in
/-- The addresses of the votes of the slice. -/
theorem addresses_toVoteSet (h : VoteHeap α κ) (vs : VoteSetObject α) :
    (toVoteSet h vs).votes.map (·.address) = (vs.votes.map (addressAt h)).filterMap id := by
  simp only [toVoteSet, List.map_filterMap, List.filterMap_map]
  rfl

theorem WF.nodup_addresses (hw : WF h vs) : ((toVoteSet h vs).votes.map (·.address)).Nodup := by
  rw [addresses_toVoteSet]
  exact hw.nodup.filterMap fun a a' b ha ha' => (Option.mem_def.1 ha).trans (Option.mem_def.1 ha').symm

/-- The slice holds as many votes as pointers. -/
theorem WF.length_toVoteSet (hw : WF h vs) : (toVoteSet h vs).votes.length = vs.votes.length := by
  rw [toVoteSet, List.length_filterMap_eq_countP, List.countP_eq_length]
  intro p hp
  simpa using hw.isSome hp

/-- Under the invariant the map misses exactly the addresses with no vote in the slice. -/
theorem WF.find?_eq_none_iff_not_mem (hw : WF h vs) (a : α) :
    vs.votesByAddress.find? a = none ↔ a ∉ (toVoteSet h vs).votes.map (·.address) := by
  rw [hw.find?_eq_none_iff, addresses_toVoteSet]
  simp [List.mem_filterMap]

/-- New objects on the heap leave the votes of the slice as they were. -/
theorem WF.toVoteSet_append (hw : WF h vs) (l : VoteHeap α κ) :
    toVoteSet (h ++ l) vs = toVoteSet h vs := by
  simp only [toVoteSet]
  congr 1
  apply List.filterMap_congr
  intro p hp
  exact List.getElem?_append_left (hw.allocated p hp)

/-! ### StoreVote -/

/-- Under the invariant the pointer search finds the old vote, and cutting it out of the slice
keeps exactly the pointers of the other addresses. -/
theorem storeVote_eq_push (hw : WF h vs) {p : Nat} {v : EpochValidatorVote α κ}
    (hv : h[p]? = some v) :
    storeVote h vs p = some (push ⟨vs.votes.filter (fun q => addressAt h q ≠ some v.address),
      vs.votesByAddress⟩ v.address p) := by
  unfold storeVote
  rw [hv]
  cases hf : vs.votesByAddress.find? v.address with
  | none => simp only [hf, hw.filter_eq_self hf, Option.map_some]
  | some old =>
    obtain ⟨hold, haddr⟩ := (hw.byAddress v.address old).1 hf
    obtain ⟨i, hi⟩ := Option.isSome_iff_exists.1 (List.isSome_idxOf?.2 hold)
    -- the slice cut at the index of the old pointer is the slice without that pointer
    have herase : vs.votes.eraseIdx i = vs.votes.erase old := by
      rw [List.erase_eq_eraseIdx, hi]
    have hfilter : vs.votes.erase old = vs.votes.filter (fun q => addressAt h q ≠ some v.address) := by
      rw [hw.nodup_votes.erase_eq_filter]
      apply List.filter_congr
      intro q hq
      have hiff : q = old ↔ addressAt h q = some v.address := by
        constructor
        · rintro rfl
          exact haddr
        · intro hq'
          exact hw.eq_of_addressAt hq hold (hq'.trans haddr.symm)
      by_cases hqo : q = old
      · simp [hqo, haddr]
      · simp [hqo, mt hiff.2 hqo]
    simp only [hf, hi, Option.map_some, herase, hfilter]

/-- The set `StoreVote` leaves keeps the invariant. -/
theorem WF.storeVote (hw : WF h vs) {p : Nat} {v : EpochValidatorVote α κ} (hv : h[p]? = some v) :
    WF h (push ⟨vs.votes.filter (fun q => addressAt h q ≠ some v.address), vs.votesByAddress⟩
      v.address p) where
  allocated q hq := by
    rcases List.mem_append.1 hq with hq | hq
    · exact hw.allocated q (List.mem_filter.1 hq).1
    · rw [List.mem_singleton.1 hq]
      exact (List.getElem?_eq_some_iff.1 hv).1
  nodup := by
    simp only [push, List.map_append, List.map_cons, List.map_nil, addressAt_eq_some hv]
    apply List.Nodup.append (hw.nodup.sublist (List.filter_sublist.map _)) (List.nodup_singleton _)
    intro b hb hb'
    obtain ⟨q, hq, rfl⟩ := List.mem_map.1 hb
    simpa [List.mem_singleton.1 hb'] using (List.mem_filter.1 hq).2
  byAddress a q := by
    simp only [push, KeyMap.find?_insert, List.mem_append, List.mem_filter, List.mem_singleton,
      decide_eq_true_eq]
    split_ifs with ha
    · -- the map points the address at the new vote, the only pointer left with it
      subst ha
      constructor
      · rintro ⟨⟩
        exact ⟨.inr rfl, addressAt_eq_some hv⟩
      · rintro ⟨hq | rfl, hqa⟩
        · exact absurd hqa hq.2
        · rfl
    · rw [hw.byAddress]
      have hpa : addressAt h p ≠ some a := by
        rw [addressAt_eq_some hv]
        exact fun he => ha (Option.some.inj he).symm
      constructor
      · rintro ⟨hq, hqa⟩
        exact ⟨.inl ⟨hq, by rw [hqa]; exact fun he => ha (Option.some.inj he)⟩, hqa⟩
      · rintro ⟨⟨hq, -⟩ | rfl, hqa⟩
        · exact ⟨hq, hqa⟩
        · exact absurd hqa hpa

/-- Dropping the pointers of an address drops the votes of that address. -/
theorem filterMap_filter_addressAt (votes : List Nat) (a : α) :
    (votes.filter fun q => addressAt h q ≠ some a).filterMap (fun q => h[q]?) =
      (votes.filterMap fun q => h[q]?).filter fun w => w.address ≠ a := by
  rw [List.filterMap_filter, List.filter_filterMap]
  apply List.filterMap_congr
  intro q _
  cases hq : h[q]? with
  | none => simp [addressAt, hq]
  | some w => by_cases hw : w.address = a <;> simp [addressAt, hq, hw, Option.filter]

/-- `StoreVote` acts on the votes of the slice as on the slice of votes. -/
theorem toVoteSet_storeVote {p : Nat} {v : EpochValidatorVote α κ} (hv : h[p]? = some v) :
    toVoteSet h (push ⟨vs.votes.filter (fun q => addressAt h q ≠ some v.address),
      vs.votesByAddress⟩ v.address p) = (toVoteSet h vs).storeVote v := by
  simp only [toVoteSet, push, EpochValidatorVoteSet.storeVote, List.filterMap_append,
    filterMap_filter_addressAt, List.filterMap_cons, List.filterMap_nil, hv]

/-- A pushed pointer adds its vote at the end of the slice. -/
theorem toVoteSet_push {p : Nat} {v : EpochValidatorVote α κ} (hv : h[p]? = some v) (a : α) :
    toVoteSet h (vs.push a p) = ⟨(toVoteSet h vs).votes ++ [v]⟩ := by
  simp [toVoteSet, push, hv]

/-- A pointer to a vote of an address the map does not hold keeps the invariant. -/
theorem WF.push (hw : WF h vs) {p : Nat} {v : EpochValidatorVote α κ} (hv : h[p]? = some v)
    (hf : vs.votesByAddress.find? v.address = none) : WF h (vs.push v.address p) := by
  have := hw.storeVote hv
  rwa [hw.filter_eq_self hf] at this

/-! ### Copy, SaveEpochVoteSet and LoadEpochVoteSet -/

/-- Votes of distinct addresses, made into new objects, give a set over exactly them. -/
theorem ofVotes_spec (h : VoteHeap α κ) {data : List (EpochValidatorVote α κ)}
    (hnd : (data.map (·.address)).Nodup) :
    (ofVotes h data).1 = h ++ data ∧ WF (ofVotes h data).1 (ofVotes h data).2 ∧
      toVoteSet (ofVotes h data).1 (ofVotes h data).2 = ⟨data⟩ := by
  induction data using List.reverseRecOn with
  | nil => exact ⟨(List.append_nil h).symm, WF.new, rfl⟩
  | append_singleton data v ih =>
    rw [List.map_append, List.nodup_append] at hnd
    obtain ⟨hheap, hw, hset⟩ := ih hnd.1
    have hstep : ofVotes h (data ++ [v]) = ((ofVotes h data).1 ++ [v],
        (ofVotes h data).2.push v.address (ofVotes h data).1.length) := by
      simp only [ofVotes, List.foldl_append, List.foldl_cons, List.foldl_nil]
    -- the new object is the last of the heap, and its address is not yet in the set
    have hv : ((ofVotes h data).1 ++ [v])[(ofVotes h data).1.length]? = some v := by simp
    have hfresh : (ofVotes h data).2.votesByAddress.find? v.address = none := by
      rw [(hw.append [v]).find?_eq_none_iff_not_mem, hw.toVoteSet_append, hset]
      intro hm
      exact hnd.2.2 _ hm _ (by simp) rfl
    rw [hstep]
    refine ⟨by rw [hheap, List.append_assoc], (hw.append [v]).push hv hfresh, ?_⟩
    rw [toVoteSet_push hv, hw.toVoteSet_append, hset]

theorem saveEpochVoteSet_eq (hw : WF h vs) : saveEpochVoteSet h vs = some (toVoteSet h vs).votes :=
  Run.mapM_eq_some_filterMap fun _ hp => hw.isSome hp

theorem copy_eq (hw : WF h vs) : copy h vs = some (ofVotes h (toVoteSet h vs).votes) := by
  unfold copy
  rw [Run.mapM_eq_some_filterMap fun _ hp => hw.isSome hp]
  rfl

/-- `Copy` and a reload of what `SaveEpochVoteSet` wrote both give a set over fresh copies of
the votes, with the invariant. -/
theorem WF.ofVotes (hw : WF h vs) :
    WF (ofVotes h (toVoteSet h vs).votes).1 (ofVotes h (toVoteSet h vs).votes).2 ∧
      toVoteSet (ofVotes h (toVoteSet h vs).votes).1 (ofVotes h (toVoteSet h vs).votes).2 =
        toVoteSet h vs :=
  ⟨(ofVotes_spec h hw.nodup_addresses).2.1, (ofVotes_spec h hw.nodup_addresses).2.2⟩

/-- `GetVoteByAddress` finds, through the map, the vote the slice holds for the address. -/
theorem WF.bind_getVoteByAddress (hw : WF h vs) (a : α) :
    (vs.getVoteByAddress a).bind (fun p => h[p]?) = (toVoteSet h vs).getVoteByAddress a := by
  unfold getVoteByAddress
  cases hf : vs.votesByAddress.find? a with
  | none =>
    have hnot := (hw.find?_eq_none_iff_not_mem a).1 hf
    symm
    apply List.find?_eq_none.2
    intro w hw' hwa
    exact hnot (List.mem_map.2 ⟨w, hw', by simpa using hwa⟩)
  | some p =>
    obtain ⟨hpv, hpa⟩ := (hw.byAddress a p).1 hf
    obtain ⟨w, hpw⟩ := Option.isSome_iff_exists.1 (hw.isSome hpv)
    rw [Option.bind_some, hpw, eq_comm, EpochValidatorVoteSet.getVoteByAddress_eq_some_iff hw.nodup_addresses]
    refine ⟨List.mem_filterMap.2 ⟨p, hpv, hpw⟩, ?_⟩
    simpa [addressAt, hpw] using hpa

/-! ### Writes through a returned pointer -/

section Modify

variable {f : EpochValidatorVote α κ → EpochValidatorVote α κ}

omit [DecidableEq α] in
theorem addressAt_modify (hf : ∀ w, (f w).address = w.address) (p q : Nat) :
    addressAt (h.modify p f) q = addressAt h q := by
  simp only [addressAt, List.getElem?_modify]
  cases h[q]? with
  | none => rfl
  | some w =>
    simp only [Option.map_eq_map, Option.map_some, Option.some.injEq]
    split_ifs
    · exact hf w
    · rfl

/-- A write that keeps the address of the vote keeps the invariant. -/
theorem WF.modify (hw : WF h vs) (hf : ∀ w, (f w).address = w.address) (p : Nat) :
    WF (h.modify p f) vs where
  allocated q hq := by
    rw [List.length_modify]
    exact hw.allocated q hq
  nodup := by
    rw [List.map_congr_left fun q _ => addressAt_modify hf p q]
    exact hw.nodup
  byAddress a q := by
    rw [addressAt_modify hf, hw.byAddress]

/-- A write through the pointer the map holds for `a` is a write to the vote of `a`. -/
theorem WF.toVoteSet_modify (hw : WF h vs) {a : α} {p : Nat} (hp : vs.votesByAddress.find? a = some p) :
    toVoteSet (h.modify p f) vs = ⟨(toVoteSet h vs).votes.map fun w => if w.address = a then f w else w⟩ := by
  obtain ⟨hpv, hpa⟩ := (hw.byAddress a p).1 hp
  simp only [toVoteSet, List.map_filterMap]
  congr 1
  apply List.filterMap_congr
  intro q hq
  obtain ⟨w, hqw⟩ := Option.isSome_iff_exists.1 (hw.isSome hq)
  rw [List.getElem?_modify, hqw]
  by_cases hpq : p = q
  · -- the written pointer: its vote has address `a`
    subst hpq
    have hwa : w.address = a := by simpa [addressAt, hqw] using hpa
    simp [hwa]
  · -- any other pointer of the slice carries another address
    have hwa : w.address ≠ a := by
      intro hwa
      exact hpq (hw.eq_of_addressAt hpv hq (by rw [hpa, addressAt_eq_some hqw, hwa]))
    simp [hpq, hwa]

end Modify

end VoteSetObject

/-! ### Runs -/

/-- The writes of the cross-chain helpers through the pointer `GetVoteByAddress` returns:
`RevealVote` sets the public key, amount and salt, `UpdateNextEpoch` the amount. `VoteNextEpoch`
writes only the hashes, which the model does not keep, and no write touches the address. -/
def EpochValidatorVote.setFields (pubKey : Option κ) (amount : Option Int) (salt : Option String)
    (vote : EpochValidatorVote α κ) : EpochValidatorVote α κ :=
  { vote with pubKey := pubKey.getD vote.pubKey, amount := amount.getD vote.amount,
              salt := salt.getD vote.salt }

/-- What a run does to the next epoch's vote set. -/
inductive VoteSetOp (α κ : Type) where
  /-- `StoreVote` of a new `&EpochValidatorVote{…}`. -/
  | storeVote (vote : EpochValidatorVote α κ)
  /-- `Copy`, the copy taking the set's place. -/
  | copy
  /-- `SaveEpochVoteSet`, then `LoadEpochVoteSet` of what it wrote. -/
  | saveLoad
  /-- A write through the pointer `GetVoteByAddress` returns, when it returns one. -/
  | setFields (address : α) (pubKey : Option κ) (amount : Option Int) (salt : Option String)

namespace VoteSetOp

/-- One call on the heap and the set; `none` is a panic. -/
def run : VoteSetOp α κ → VoteHeap α κ × VoteSetObject α → Option (VoteHeap α κ × VoteSetObject α)
  | .storeVote v, (h, vs) => (vs.storeVote (h ++ [v]) h.length).map fun vs' => (h ++ [v], vs')
  | .copy, (h, vs) => vs.copy h
  | .saveLoad, (h, vs) => (vs.saveEpochVoteSet h).map (VoteSetObject.loadEpochVoteSet h)
  | .setFields a pubKey amount salt, (h, vs) => some <| match vs.getVoteByAddress a with
    | none => (h, vs)
    | some p => (h.modify p (EpochValidatorVote.setFields pubKey amount salt), vs)

/-- The same call on the slice of votes. -/
def apply (vs : EpochValidatorVoteSet α κ) : VoteSetOp α κ → EpochValidatorVoteSet α κ
  | .storeVote v => vs.storeVote v
  | .copy => vs
  | .saveLoad => vs
  | .setFields a pubKey amount salt =>
    ⟨vs.votes.map fun w => if w.address = a then w.setFields pubKey amount salt else w⟩

end VoteSetOp

/-- The calls from `NewEpochValidatorVoteSet`, on an empty heap. -/
def runVoteSetOps (ops : List (VoteSetOp α κ)) : Option (VoteHeap α κ × VoteSetObject α) :=
  ops.foldlM (fun st op => op.run st) ([], VoteSetObject.new)

/-- The vote last stored for the address, with the writes made to it since. -/
def latestVote (ops : List (VoteSetOp α κ)) (a : α) : Option (EpochValidatorVote α κ) :=
  ops.foldl (fun latest op => match op with
    | .storeVote v => if v.address = a then some v else latest
    | .setFields b pubKey amount salt =>
      if b = a then latest.map (EpochValidatorVote.setFields pubKey amount salt) else latest
    | _ => latest) none

/-- The addresses of the votes stored, in order and with repeats. -/
def storedAddresses (ops : List (VoteSetOp α κ)) : List α :=
  ops.filterMap fun op => match op with
    | .storeVote v => some v.address
    | _ => none

namespace VoteSetOp

open EpochValidatorVoteSet

/-- After a run, a lookup on the slice of votes finds the vote last stored for the address,
with the writes made to it since. -/
theorem getVoteByAddress_foldl_apply (ops : List (VoteSetOp α κ)) (a : α) :
    (ops.foldl apply .new).getVoteByAddress a = latestVote ops a := by
  induction ops using List.reverseRecOn with
  | nil => rfl
  | append_singleton ops op ih =>
    simp only [latestVote, List.foldl_append, List.foldl_cons, List.foldl_nil] at ih ⊢
    rw [← ih]
    cases op with
    | storeVote v => exact getVoteByAddress_storeVote _ v a
    | copy => rfl
    | saveLoad => rfl
    | setFields b pubKey amount salt =>
      exact getVoteByAddress_map_update (f := EpochValidatorVote.setFields pubKey amount salt)
        (fun _ => rfl) b a

/-- After a run, the slice holds one vote for each address stored, and no other. -/
theorem addresses_foldl_apply (ops : List (VoteSetOp α κ)) :
    ((ops.foldl apply .new).votes.map (·.address)).Nodup ∧
      ∀ a, a ∈ (ops.foldl apply .new).votes.map (·.address) ↔ a ∈ storedAddresses ops := by
  induction ops using List.reverseRecOn with
  | nil => exact ⟨List.nodup_nil, fun a => by simp [new, storedAddresses]⟩
  | append_singleton ops op ih =>
    rw [List.foldl_append, List.foldl_cons, List.foldl_nil]
    cases op with
    | storeVote v =>
      refine ⟨nodup_addresses_storeVote ih.1 v, fun a => ?_⟩
      rw [apply, mem_addresses_storeVote, ih.2]
      simp [storedAddresses, or_comm]
    | copy => simpa [apply, storedAddresses] using ih
    | saveLoad => simpa [apply, storedAddresses] using ih
    | setFields b pubKey amount salt =>
      rw [apply, addresses_map_update _ (f := EpochValidatorVote.setFields pubKey amount salt)
        (fun _ => rfl) b]
      simpa [storedAddresses] using ih

theorem length_foldl_apply (ops : List (VoteSetOp α κ)) :
    (ops.foldl apply .new).votes.length = (storedAddresses ops).toFinset.card := by
  obtain ⟨hnd, hmem⟩ := addresses_foldl_apply ops
  rw [← List.length_map (f := (·.address)), ← List.toFinset_card_of_nodup hnd]
  congr 1
  ext a
  simp only [List.mem_toFinset]
  exact hmem a

open VoteSetObject in
/-- One call keeps the invariant, never panics, and acts on the votes of the slice as the same
call on the slice of votes. -/
theorem run_spec (op : VoteSetOp α κ) {h : VoteHeap α κ} {vs : VoteSetObject α} (hw : WF h vs) :
    ∃ h' vs', op.run (h, vs) = some (h', vs') ∧ WF h' vs' ∧
      toVoteSet h' vs' = apply (toVoteSet h vs) op := by
  cases op with
  | storeVote v =>
    -- the new object is the last of the heap
    have hv : (h ++ [v])[h.length]? = some v := by simp
    have hw' := hw.append [v]
    refine ⟨_, _, by rw [run, storeVote_eq_push hw' hv]; rfl, hw'.storeVote hv, ?_⟩
    rw [toVoteSet_storeVote hv, hw.toVoteSet_append]
    rfl
  | copy => exact ⟨_, _, copy_eq hw, hw.ofVotes.1, hw.ofVotes.2⟩
  | saveLoad =>
    refine ⟨_, _, ?_, hw.ofVotes.1, hw.ofVotes.2⟩
    rw [run, saveEpochVoteSet_eq hw]
    rfl
  | setFields a pubKey amount salt =>
    cases hp : vs.votesByAddress.find? a with
    | none =>
      -- no vote of the slice has the address, so the write on the slice changes nothing
      refine ⟨h, vs, by simp [run, VoteSetObject.getVoteByAddress, hp], hw, ?_⟩
      have hnot := (hw.find?_eq_none_iff_not_mem a).1 hp
      have hkeep : ∀ w ∈ (toVoteSet h vs).votes,
          (if w.address = a then w.setFields pubKey amount salt else w) = w := by
        intro w hw'
        rw [if_neg]
        exact fun hwa => hnot (List.mem_map.2 ⟨w, hw', hwa⟩)
      rw [apply, List.map_congr_left hkeep, List.map_id']
    | some p =>
      refine ⟨_, _, by simp [run, VoteSetObject.getVoteByAddress, hp], hw.modify (f := EpochValidatorVote.setFields pubKey amount salt) (fun _ => rfl) p, ?_⟩
      exact hw.toVoteSet_modify hp

open VoteSetObject in
/-- A run of calls keeps the invariant, never panics, and refines the run on the slice of
votes. -/
theorem foldlM_run_spec (ops : List (VoteSetOp α κ)) {h : VoteHeap α κ} {vs : VoteSetObject α}
    (hw : WF h vs) :
    ∃ h' vs', ops.foldlM (fun st op => op.run st) (h, vs) = some (h', vs') ∧ WF h' vs' ∧
      toVoteSet h' vs' = ops.foldl apply (toVoteSet h vs) := by
  induction ops generalizing h vs with
  | nil => exact ⟨h, vs, rfl, hw, rfl⟩
  | cons op ops ih =>
    obtain ⟨h₁, vs₁, hrun₁, hw₁, hset₁⟩ := run_spec op hw
    obtain ⟨h₂, vs₂, hrun₂, hw₂, hset₂⟩ := ih hw₁
    refine ⟨h₂, vs₂, ?_, hw₂, ?_⟩
    · rw [List.foldlM_cons, hrun₁]
      exact hrun₂
    · rw [List.foldl_cons, ← hset₁]
      exact hset₂

end VoteSetOp

open VoteSetObject in
/-- Every run of `StoreVote`, `Copy`, a save and reload, and the writes of the cross-chain
helpers, from `NewEpochValidatorVoteSet`, keeps the slice and the map in step (`WF`: distinct
addresses, the map holding exactly them, each pointing at its entry), never reaches the `-1`
index or any other panic, answers `GetVoteByAddress` with the vote last stored for the address,
as written since, and keeps one entry per address stored. -/
theorem runVoteSetOps_invariant (ops : List (VoteSetOp α κ)) :
    ∃ h vs, runVoteSetOps ops = some (h, vs) ∧ WF h vs ∧
      toVoteSet h vs = ops.foldl VoteSetOp.apply .new ∧
      (∀ a, (vs.getVoteByAddress a).bind (fun p => h[p]?) = latestVote ops a) ∧
      vs.votes.length = (storedAddresses ops).toFinset.card := by
  obtain ⟨h, vs, hrun, hw, hset⟩ := VoteSetOp.foldlM_run_spec ops (WF.new (h := []))
  refine ⟨h, vs, hrun, hw, hset, fun a => ?_, ?_⟩
  · rw [hw.bind_getVoteByAddress, hset]
    exact VoteSetOp.getVoteByAddress_foldl_apply ops a
  · rw [← hw.length_toVoteSet, hset]
    exact VoteSetOp.length_foldl_apply ops

end IntChain
