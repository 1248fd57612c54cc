import IntChain.Consensus.Threshold
import IntChain.Lib.KeyMap
import IntChain.Lib.Run

/-!
# The vote set of a height and round

`VoteSet` of `consensus/ipbft/types/vote_set.go`. It keeps two stores of votes: `votes`, the
canonical vote of each validator with the bit array `votesBitArray` marking them, and
`votesByBlock`, for each block key the votes for that block with their bit array and the sum of
their voting power. `AddVote` checks a vote and hands it to `addVerifiedVote`, which places it
in `votes` (a second vote of a validator replaces the first only when it is for the block of
the two-thirds majority), then adds it to the votes of its block, and when these cross the
loose threshold of the round for the first time makes the block the majority `maj23` and
copies its votes into `votes`. A conflicting vote joins the votes of its block only when a peer
claimed a majority for that block through `SetPeerMaj23`.

A block is its key (`BlockID.Key()`), a bit array is a list of booleans and `SetIndex` past its
end changes nothing, a slice of vote pointers is a list of `Option`, and a panic is `none`. The
check of a signature against a public key is a parameter, as is the chain id it covers.
-/

namespace IntChain

/-- `types.Vote`; the sign bytes are not kept. -/
structure Vote (β σ : Type) where
  validatorAddress : List UInt8
  validatorIndex : Nat
  height : Nat
  round : Nat
  type_ : UInt8
  blockID : β
  signature : σ
  deriving DecidableEq, Repr

/-- The errors `AddVote` returns. `ErrVoteInvalidValidatorIndex` is not among them: the lookup
`valSet.GetByIndex` before it indexes the slice and panics first. -/
inductive VoteError (β σ : Type) where
  | unexpectedStep
  | invalidValidatorAddress
  | invalidSignature
  | conflictingVotes (voteA voteB : Vote β σ)
  deriving DecidableEq, Repr

/-- `blockVotes`: the votes for one block, by validator index. -/
structure BlockVotes (β σ : Type) where
  peerMaj23 : Bool
  bitArray : List Bool
  votes : List (Option (Vote β σ))
  sum : Int
  deriving DecidableEq, Repr

/-- `VoteSet`; the chain id and the mutex are not kept. -/
structure VoteSet (κ β σ : Type) where
  height : Nat
  round : Int
  type_ : UInt8
  valSet : List (Validator (List UInt8) κ)
  votesBitArray : List Bool
  votes : List (Option (Vote β σ))
  sum : Int
  maj23 : Option β
  votesByBlock : KeyMap β (BlockVotes β σ)
  peerMaj23s : KeyMap String β

/-- A call on a vote set. -/
inductive VoteSetCall (β σ : Type) where
  | addVote (vote : Vote β σ)
  | setPeerMaj23 (peerID : String) (blockID : β)

variable {κ β σ : Type}

/-- `newBlockVotes`. -/
def newBlockVotes (peerMaj23 : Bool) (numValidators : Nat) : BlockVotes β σ :=
  ⟨peerMaj23, List.replicate numValidators false, List.replicate numValidators none, 0⟩

/-- `NewVoteSet`, which panics at height zero. -/
def newVoteSet (height : Nat) (round : Int) (type_ : UInt8) (valSet : List (Validator (List UInt8) κ)) :
    Option (VoteSet κ β σ) :=
  if height = 0 then none
  else some ⟨height, round, type_, valSet, List.replicate valSet.length false,
    List.replicate valSet.length none, 0, none, KeyMap.empty, KeyMap.empty⟩

namespace BlockVotes

/-- `getByIndex`. -/
def voteAt (bv : BlockVotes β σ) (i : Nat) : Option (Vote β σ) := (bv.votes[i]?).join

/-- `blockVotes.addVerifiedVote`: the vote and its power are added when the validator has no
vote for the block yet. -/
def addVerifiedVote (bv : BlockVotes β σ) (vote : Vote β σ) (votingPower : Int) : BlockVotes β σ :=
  match bv.voteAt vote.validatorIndex with
  | none =>
    { bv with bitArray := bv.bitArray.set vote.validatorIndex true,
              votes := bv.votes.set vote.validatorIndex (some vote),
              sum := bv.sum + votingPower }
  | some _ => bv

end BlockVotes

/-- The copy of the votes of a block over the canonical votes, in the loop
`for i, vote := range votesByBlock.votes`. -/
def copyVotes (votes blockVotes : List (Option (Vote β σ))) : List (Option (Vote β σ)) :=
  blockVotes.zipIdx.foldl (fun votes e => match e.1 with
    | some vote => votes.set e.2 (some vote)
    | none => votes) votes

namespace VoteSet

/-- `voteSet.votes[i]`. -/
def voteAt (vs : VoteSet κ β σ) (i : Nat) : Option (Vote β σ) := (vs.votes[i]?).join

/-- Make a vote the canonical vote of validator `i`. -/
def setVote (vs : VoteSet κ β σ) (i : Nat) (vote : Vote β σ) : VoteSet κ β σ :=
  { vs with votes := vs.votes.set i (some vote), votesBitArray := vs.votesBitArray.set i true }

variable [DecidableEq β]

/-- `getVote`: the canonical vote of the validator when it is for the block, else its vote in
the votes for the block. -/
def getVote (vs : VoteSet κ β σ) (valIndex : Nat) (blockKey : β) : Option (Vote β σ) :=
  ((vs.voteAt valIndex).filter fun existing => existing.blockID = blockKey) <|>
    (vs.votesByBlock.find? blockKey).bind (·.voteAt valIndex)

/-- The first part of `addVerifiedVote`: the vote takes the validator's empty place in `votes`
and adds its power to `sum`, or replaces the validator's vote there when it is for the block of
the majority. The vote already there is the conflicting one; a second vote for its block is the
panic `addVerifiedVote does not expect duplicate votes`. -/
def placeVote (vs : VoteSet κ β σ) (vote : Vote β σ) (votingPower : Int) :
    Option (VoteSet κ β σ × Option (Vote β σ)) :=
  match vs.voteAt vote.validatorIndex with
  | some existing =>
    if existing.blockID = vote.blockID then none
    else if vs.maj23 = some vote.blockID then some (vs.setVote vote.validatorIndex vote, some existing)
    else some (vs, some existing)
  | none => some ({ vs.setVote vote.validatorIndex vote with sum := vs.sum + votingPower }, none)

/-- The last part of `addVerifiedVote`: the vote joins the votes for its block, and when these
cross the threshold of the round and no block had a majority, the block becomes the majority
and its votes are copied into `votes`. -/
def addToBlock (vs : VoteSet κ β σ) (vote : Vote β σ) (votingPower : Int) (bv : BlockVotes β σ)
    (conflicting : Option (Vote β σ)) : VoteSet κ β σ × Bool × Option (Vote β σ) :=
  match talliedVotingPower vs.valSet bv.bitArray with
  | .error _ => (vs, false, conflicting)
  | .ok (_, _, totalVotes) =>
    let quorum := loose23MajorThreshold totalVotes vote.round
    let bv' := bv.addVerifiedVote vote votingPower
    let vs := { vs with votesByBlock := vs.votesByBlock.insert vote.blockID bv' }
    if bv.sum < quorum ∧ quorum ≤ bv'.sum ∧ vs.maj23 = none then
      ({ vs with maj23 := some vote.blockID, votes := copyVotes vs.votes bv'.votes }, true, conflicting)
    else (vs, true, conflicting)

/-- The middle part of `addVerifiedVote`: the votes for the vote's block, tracked from a first
vote on; a conflicting vote is dropped unless a peer claimed a majority for its block. -/
def addToVotesByBlock (vs : VoteSet κ β σ) (vote : Vote β σ) (votingPower : Int)
    (conflicting : Option (Vote β σ)) : VoteSet κ β σ × Bool × Option (Vote β σ) :=
  match vs.votesByBlock.find? vote.blockID with
  | some bv =>
    if conflicting.isSome && !bv.peerMaj23 then (vs, false, conflicting)
    else vs.addToBlock vote votingPower bv conflicting
  | none =>
    if conflicting.isSome then (vs, false, conflicting)
    else
      let bv := newBlockVotes false vs.valSet.length
      { vs with votesByBlock := vs.votesByBlock.insert vote.blockID bv }.addToBlock vote
        votingPower bv conflicting

/-- `addVerifiedVote`: whether the vote was added, and the conflicting vote. -/
def addVerifiedVote (vs : VoteSet κ β σ) (vote : Vote β σ) (votingPower : Int) :
    Option (VoteSet κ β σ × Bool × Option (Vote β σ)) :=
  (vs.placeVote vote votingPower).map fun (vs, conflicting) =>
    vs.addToVotesByBlock vote votingPower conflicting

variable [DecidableEq σ]

/-- `addVote`: whether the vote was added and the error. `verifyBytes pubKey vote` is the check
of the vote's signature over its sign bytes. An empty address, an index past the validators,
and a vote neither added nor conflicting panic. -/
def addVote (verifyBytes : κ → Vote β σ → Bool) (vs : VoteSet κ β σ) (vote : Vote β σ) :
    Option (VoteSet κ β σ × Bool × Option (VoteError β σ)) :=
  if vote.validatorAddress = [] then none
  else if vote.height ≠ vs.height ∨ (vote.round : Int) ≠ vs.round ∨ vote.type_ ≠ vs.type_ then
    some (vs, false, some .unexpectedStep)
  else match vs.valSet[vote.validatorIndex]? with
    | none => none
    | some val =>
      if vote.validatorAddress ≠ val.address then some (vs, false, some .invalidValidatorAddress)
      else match vs.getVote vote.validatorIndex vote.blockID with
        | some existing =>
          if existing.signature = vote.signature then some (vs, false, none)
          else some (vs, false, some .invalidSignature)
        | none =>
          if !verifyBytes val.pubKey vote then some (vs, false, some .invalidSignature)
          else (vs.addVerifiedVote vote val.votingPower).bind fun (vs, added, conflicting) =>
            match conflicting with
            | some conflicting => some (vs, added, some (.conflictingVotes conflicting vote))
            | none => if added then some (vs, added, none) else none

/-- `SetPeerMaj23`: the first claim of a peer marks the votes for its block, tracking the block
when it is not yet. -/
def setPeerMaj23 (vs : VoteSet κ β σ) (peerID : String) (blockID : β) : VoteSet κ β σ :=
  match vs.peerMaj23s.find? peerID with
  | some _ => vs
  | none =>
    let vs := { vs with peerMaj23s := vs.peerMaj23s.insert peerID blockID }
    match vs.votesByBlock.find? blockID with
    | some bv =>
      if bv.peerMaj23 then vs
      else { vs with votesByBlock := vs.votesByBlock.insert blockID { bv with peerMaj23 := true } }
    | none =>
      { vs with votesByBlock := vs.votesByBlock.insert blockID (newBlockVotes true vs.valSet.length) }

end VoteSet

/-- One call; a panic ends the run. -/
def VoteSetCall.run [DecidableEq β] [DecidableEq σ] (verifyBytes : κ → Vote β σ → Bool) :
    VoteSetCall β σ → VoteSet κ β σ → Option (VoteSet κ β σ)
  | .addVote vote, vs => (vs.addVote verifyBytes vote).map (·.1)
  | .setPeerMaj23 peerID blockID, vs => some (vs.setPeerMaj23 peerID blockID)

/-- A run of calls on a vote set. -/
def runVoteSetCalls [DecidableEq β] [DecidableEq σ] (verifyBytes : κ → Vote β σ → Bool)
    (vs : VoteSet κ β σ) (calls : List (VoteSetCall β σ)) : Option (VoteSet κ β σ) :=
  calls.foldlM (fun vs call => call.run verifyBytes vs) vs

/-! ### Reading the stores after a write -/

section Lemmas

theorem getD_set_true (l : List Bool) {i : Nat} (hi : i < l.length) (j : Nat) :
    (l.set i true).getD j false = (decide (j = i) || l.getD j false) := by
  rw [List.getD_eq_getElem?_getD, List.getElem?_set, List.getD_eq_getElem?_getD]
  by_cases hj : j = i
  · simp [hj, hi]
  · simp [hj, Ne.symm hj]

theorem join_getElem?_set (votes : List (Option (Vote β σ))) {i : Nat} (hi : i < votes.length)
    (vote : Vote β σ) (j : Nat) :
    ((votes.set i (some vote))[j]?).join = if j = i then some vote else (votes[j]?).join := by
  rw [List.getElem?_set]
  by_cases hj : j = i
  · simp [hj, hi]
  · simp [hj, Ne.symm hj]

theorem copyVotes_append_singleton (votes l : List (Option (Vote β σ))) (x : Option (Vote β σ)) :
    copyVotes votes (l ++ [x]) = match x with
      | some vote => (copyVotes votes l).set l.length (some vote)
      | none => copyVotes votes l := by
  simp only [copyVotes, List.zipIdx_append, List.foldl_append, List.zipIdx_singleton,
    List.foldl_cons, List.foldl_nil, Nat.zero_add]

@[simp] theorem length_copyVotes (votes blockVotes : List (Option (Vote β σ))) :
    (copyVotes votes blockVotes).length = votes.length := by
  induction blockVotes using List.reverseRecOn with
  | nil => rfl
  | append_singleton l x ih =>
    rw [copyVotes_append_singleton]
    cases x with
    | none => exact ih
    | some v => rw [List.length_set, ih]

/-- After the copy, a validator's canonical vote is its vote for the block when it has one. -/
theorem join_getElem?_copyVotes {votes blockVotes : List (Option (Vote β σ))}
    (h : blockVotes.length ≤ votes.length) (j : Nat) :
    ((copyVotes votes blockVotes)[j]?).join = ((blockVotes[j]?).join <|> (votes[j]?).join) := by
  induction blockVotes using List.reverseRecOn with
  | nil => simp [copyVotes]
  | append_singleton l x ih =>
    rw [List.length_append, List.length_singleton] at h
    have ih := ih (by omega)
    have hl : l.length < (copyVotes votes l).length := by
      rw [length_copyVotes]
      omega
    rw [copyVotes_append_singleton, List.getElem?_append]
    -- the slot of the new block vote is `l.length`
    by_cases hj : j < l.length
    · cases x with
      | none => simpa [hj] using ih
      | some v => rw [join_getElem?_set _ hl, if_neg (by omega), ih, if_pos hj]
    · by_cases hjl : j = l.length
      · subst hjl
        cases x with
        | none => simpa using ih
        | some v =>
          rw [join_getElem?_set _ hl, if_pos rfl]
          simp
      · have hnone : l[j]? = none := List.getElem?_eq_none (by omega)
        have hx : [x][j - l.length]? = none := List.getElem?_eq_none (by simp; omega)
        cases x with
        | none => simpa [hj, hx, hnone] using ih
        | some v => rw [join_getElem?_set _ hl, if_neg hjl, ih, if_neg hj, hx, hnone]

theorem join_getElem?_replicate_none (n i : Nat) :
    ((List.replicate n (none : Option (Vote β σ)))[i]?).join = none := by
  rw [List.getElem?_replicate]
  split <;> rfl

namespace BlockVotes

@[simp] theorem voteAt_newBlockVotes (peerMaj23 : Bool) (n j : Nat) :
    (newBlockVotes peerMaj23 n : BlockVotes β σ).voteAt j = none :=
  join_getElem?_replicate_none n j

theorem addVerifiedVote_of_some {bv : BlockVotes β σ} {vote : Vote β σ} {w : Vote β σ}
    (h : bv.voteAt vote.validatorIndex = some w) (votingPower : Int) :
    bv.addVerifiedVote vote votingPower = bv := by
  rw [addVerifiedVote, h]

theorem addVerifiedVote_of_none {bv : BlockVotes β σ} {vote : Vote β σ}
    (h : bv.voteAt vote.validatorIndex = none) (votingPower : Int) :
    bv.addVerifiedVote vote votingPower =
      { bv with bitArray := bv.bitArray.set vote.validatorIndex true,
                votes := bv.votes.set vote.validatorIndex (some vote),
                sum := bv.sum + votingPower } := by
  rw [addVerifiedVote, h]

end BlockVotes

namespace VoteSet

theorem voteAt_setVote (vs : VoteSet κ β σ) {i : Nat} (hi : i < vs.votes.length)
    (vote : Vote β σ) (j : Nat) :
    (vs.setVote i vote).voteAt j = if j = i then some vote else vs.voteAt j :=
  join_getElem?_set vs.votes hi vote j

@[simp] theorem setVote_valSet (vs : VoteSet κ β σ) (i : Nat) (vote : Vote β σ) :
    (vs.setVote i vote).valSet = vs.valSet := rfl

@[simp] theorem setVote_round (vs : VoteSet κ β σ) (i : Nat) (vote : Vote β σ) :
    (vs.setVote i vote).round = vs.round := rfl

@[simp] theorem setVote_maj23 (vs : VoteSet κ β σ) (i : Nat) (vote : Vote β σ) :
    (vs.setVote i vote).maj23 = vs.maj23 := rfl

@[simp] theorem setVote_votesByBlock (vs : VoteSet κ β σ) (i : Nat) (vote : Vote β σ) :
    (vs.setVote i vote).votesByBlock = vs.votesByBlock := rfl

variable [DecidableEq β]

/-- A vote is not yet known when the validator's canonical vote is for another block and the
votes for the block have none of the validator's. -/
theorem getVote_eq_none_iff (vs : VoteSet κ β σ) (i : Nat) (k : β) :
    vs.getVote i k = none ↔ (∀ e, vs.voteAt i = some e → e.blockID ≠ k) ∧
      ∀ bv, vs.votesByBlock.find? k = some bv → bv.voteAt i = none := by
  unfold getVote
  rw [Option.orElse_eq_none]
  constructor
  · rintro ⟨hc, hb⟩
    refine ⟨fun e he hek => ?_, fun bv hbv => ?_⟩
    · rw [he] at hc
      simp [hek] at hc
    · rw [hbv] at hb
      exact hb
  · rintro ⟨hc, hb⟩
    refine ⟨?_, ?_⟩
    · cases he : vs.voteAt i with
      | none => rfl
      | some e => simp [hc e he]
    · cases hbv : vs.votesByBlock.find? k with
      | none => rfl
      | some bv => exact hb bv hbv

/-- The votes for the block pass the conflicting vote through. -/
theorem addToBlock_conflicting (vs : VoteSet κ β σ) (vote : Vote β σ) (votingPower : Int)
    (bv : BlockVotes β σ) (conflicting : Option (Vote β σ)) :
    (vs.addToBlock vote votingPower bv conflicting).2.2 = conflicting := by
  unfold addToBlock
  split
  · rfl
  · dsimp only
    split_ifs <;> rfl

theorem addToVotesByBlock_conflicting (vs : VoteSet κ β σ) (vote : Vote β σ) (votingPower : Int)
    (conflicting : Option (Vote β σ)) :
    (vs.addToVotesByBlock vote votingPower conflicting).2.2 = conflicting := by
  unfold addToVotesByBlock
  split
  · split_ifs
    · rfl
    · apply addToBlock_conflicting
  · split_ifs
    · rfl
    · apply addToBlock_conflicting

end VoteSet

end Lemmas

section PeerInput

variable [DecidableEq β] [DecidableEq σ]

/-- What a peer's vote does to `AddVote` before any check of its signature: an empty address
is the panic "Validator index or address was not set in vote.", and an index past the validator
set, at the height, round and type of the set, is the panic of `GetByIndex` indexing the slice
of validators, not `ErrVoteInvalidValidatorIndex`. -/
theorem addVote_bad_validator_panics (verifyBytes : κ → Vote β σ → Bool) (vs : VoteSet κ β σ)
    (vote : Vote β σ) :
    (vote.validatorAddress = [] → vs.addVote verifyBytes vote = none) ∧
      (vote.height = vs.height → (vote.round : Int) = vs.round → vote.type_ = vs.type_ →
        vs.valSet.length ≤ vote.validatorIndex → vs.addVote verifyBytes vote = none) := by
  constructor
  · intro hempty
    rw [VoteSet.addVote, if_pos hempty]
  · intro hh hr ht hidx
    unfold VoteSet.addVote
    by_cases hempty : vote.validatorAddress = []
    · rw [if_pos hempty]
    rw [if_neg hempty, if_neg (by simp [hh, hr, ht]), List.getElem?_eq_none hidx]

theorem addVote_bad_validator_panics_empty_set :
    (VoteSet.addVote (fun (_ : Unit) (_ : Vote Nat Nat) => true)
        (⟨1, 0, 1, [], [], [], 0, none, KeyMap.empty, KeyMap.empty⟩ : VoteSet Unit Nat Nat)
        ⟨[7], 0, 1, 0, 1, 3, 5⟩ = none) ∧
      VoteSet.addVote (fun (_ : Unit) (_ : Vote Nat Nat) => true)
        (⟨1, 0, 1, [], [], [], 0, none, KeyMap.empty, KeyMap.empty⟩ : VoteSet Unit Nat Nat)
        ⟨[], 0, 1, 0, 1, 3, 5⟩ = none :=
  ⟨(addVote_bad_validator_panics _ _ _).2 rfl rfl rfl (Nat.zero_le 0),
    (addVote_bad_validator_panics _ _ _).1 rfl⟩

end PeerInput

end IntChain
