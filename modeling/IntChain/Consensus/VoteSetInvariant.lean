import IntChain.Consensus.VoteSet

/-!
# The representation invariant of a vote set

What every run of `AddVote` and `SetPeerMaj23` from `NewVoteSet` keeps. The votes for a block
have one slot and one bit per validator, the bits mark exactly the slots that hold a vote, each
vote sits in the slot of its validator and is for the block, and the sum is the voting power of
the marked validators (`BlockVotes.Inv`). The canonical votes have the same shape, every
validator with a vote for some block has a canonical vote, and the majority block is tracked
(`VoteSet.Layout`). A canonical vote is in the votes for its block, or is for the majority
block: a validator's vote for the majority that replaces its first vote after the majority was
found is not added to the votes for the block when no peer claimed that block, so the type
comment's promise that every canonical vote is also in `votesByBlock` does not hold
(`VoteSet.Inv`). With no negative voting power, the votes for the majority block carry the
threshold of the round (`VoteSet.Maj23Quorum`).

Each step is first described by what it may change (`VoteSet.Grows`: the majority is only set,
the votes for a block only grow), and every invariant follows from one lemma per part of
`addVerifiedVote`.
-/

namespace IntChain

variable {κ β σ : Type}

/-- Marking a validator below `n` adds it to the marked validators. -/
theorem marked_set_true (l : List Bool) {i : Nat} (hi : i < l.length) {n : Nat} (hin : i < n) :
    marked (l.set i true) n = insert i (marked l n) := by
  ext j
  simp only [marked, Finset.mem_filter, Finset.mem_range, Finset.mem_insert, getD_set_true l hi,
    Bool.or_eq_true, decide_eq_true_eq]
  constructor
  · rintro ⟨hj, rfl | hb⟩
    · exact .inl rfl
    · exact .inr ⟨hj, hb⟩
  · rintro (rfl | ⟨hj, hb⟩)
    · exact ⟨hin, .inl rfl⟩
    · exact ⟨hj, .inr hb⟩

namespace BlockVotes

/-- The votes for block `k`, over the validators `valSet`. -/
structure Inv (valSet : List (Validator (List UInt8) κ)) (k : β) (bv : BlockVotes β σ) : Prop where
  votes_length : bv.votes.length = valSet.length
  bits_length : bv.bitArray.length = valSet.length
  bit_iff : ∀ i, bv.bitArray.getD i false = true ↔ (bv.voteAt i).isSome
  vote : ∀ i v, bv.voteAt i = some v → v.validatorIndex = i ∧ v.blockID = k
  sum : bv.sum = ∑ i ∈ marked bv.bitArray valSet.length, powerAt valSet i

variable {valSet : List (Validator (List UInt8) κ)} {k : β} {bv : BlockVotes β σ}

theorem Inv.newBlockVotes (valSet : List (Validator (List UInt8) κ)) (k : β) (peerMaj23 : Bool) :
    (IntChain.newBlockVotes peerMaj23 valSet.length : BlockVotes β σ).Inv valSet k where
  votes_length := List.length_replicate
  bits_length := List.length_replicate
  bit_iff i := by
    rw [voteAt_newBlockVotes]
    by_cases hi : i < valSet.length <;>
      simp [IntChain.newBlockVotes, List.getD_eq_getElem?_getD, hi]
  vote i v h := by
    rw [voteAt_newBlockVotes] at h
    cases h
  sum := by
    have : marked (List.replicate valSet.length false) valSet.length = ∅ := by
      ext j
      simp only [marked, Finset.mem_filter, Finset.mem_range, Finset.notMem_empty, iff_false,
        not_and]
      intro hj
      simp [List.getD_eq_getElem?_getD, hj]
    simp [IntChain.newBlockVotes, this]

theorem Inv.voteAt_addVerifiedVote (h : bv.Inv valSet k) {vote : Vote β σ}
    (hi : vote.validatorIndex < valSet.length) (hnone : bv.voteAt vote.validatorIndex = none)
    (votingPower : Int) (j : Nat) :
    (bv.addVerifiedVote vote votingPower).voteAt j =
      if j = vote.validatorIndex then some vote else bv.voteAt j := by
  rw [addVerifiedVote_of_none hnone]
  exact join_getElem?_set bv.votes (h.votes_length ▸ hi) vote j

/-- A vote of a validator with no vote for the block, with that validator's power, keeps the
invariant of the block. -/
theorem Inv.addVerifiedVote (h : bv.Inv valSet k) {vote : Vote β σ}
    (hi : vote.validatorIndex < valSet.length) (hk : vote.blockID = k)
    (hnone : bv.voteAt vote.validatorIndex = none) :
    (bv.addVerifiedVote vote (powerAt valSet vote.validatorIndex)).Inv valSet k := by
  have hvotes := h.voteAt_addVerifiedVote hi hnone (powerAt valSet vote.validatorIndex)
  have hbits : vote.validatorIndex < bv.bitArray.length := h.bits_length ▸ hi
  -- the validator was not marked
  have hbit : bv.bitArray.getD vote.validatorIndex false = false := by
    cases hb : bv.bitArray.getD vote.validatorIndex false with
    | false => rfl
    | true => simpa [hnone] using (h.bit_iff _).1 hb
  have hnot : vote.validatorIndex ∉ marked bv.bitArray valSet.length := by
    simp only [marked, Finset.mem_filter, hbit, Bool.false_eq_true, and_false, not_false_eq_true]
  rw [addVerifiedVote_of_none hnone]
  constructor
  · rw [List.length_set, h.votes_length]
  · rw [List.length_set, h.bits_length]
  · intro j
    rw [getD_set_true _ hbits]
    have hj := hvotes j
    rw [addVerifiedVote_of_none hnone] at hj
    rw [hj]
    by_cases hji : j = vote.validatorIndex
    · simp [hji]
    · simp only [hji, decide_false, Bool.false_or, if_false]
      exact h.bit_iff j
  · intro j v hv
    have hj := hvotes j
    rw [addVerifiedVote_of_none hnone] at hj
    rw [hj] at hv
    split_ifs at hv with hji
    · cases hv
      exact ⟨hji.symm, hk⟩
    · exact h.vote j v hv
  · rw [marked_set_true _ hbits hi, Finset.sum_insert hnot, h.sum, add_comm]

/-- The validators the bits mark are those with a vote for the block. -/
theorem Inv.marked_eq (h : bv.Inv valSet k) :
    marked bv.bitArray valSet.length =
      (Finset.range valSet.length).filter fun i => (bv.voteAt i).isSome := by
  unfold marked
  exact Finset.filter_congr fun i _ => by rw [h.bit_iff]

/-- A peer's claim keeps the votes for the block as they are. -/
theorem Inv.setPeerMaj23 (h : bv.Inv valSet k) : { bv with peerMaj23 := true }.Inv valSet k :=
  ⟨h.votes_length, h.bits_length, h.bit_iff, h.vote, h.sum⟩

/-- With no negative voting power, more votes for a block carry at least the same power. -/
theorem Inv.sum_le (hpow : ∀ v ∈ valSet, 0 ≤ v.votingPower) {bv' : BlockVotes β σ}
    (h : bv.Inv valSet k) (h' : bv'.Inv valSet k)
    (hgrow : ∀ i v, bv.voteAt i = some v → bv'.voteAt i = some v) : bv.sum ≤ bv'.sum := by
  rw [h.sum, h'.sum]
  apply Finset.sum_le_sum_of_subset_of_nonneg
  · intro i hi
    simp only [marked, Finset.mem_filter, Finset.mem_range] at hi ⊢
    refine ⟨hi.1, ?_⟩
    obtain ⟨v, hv⟩ := Option.isSome_iff_exists.1 ((h.bit_iff i).1 hi.2)
    exact (h'.bit_iff i).2 (by simp [hgrow i v hv])
  · intro i _ _
    exact powerAt_nonneg hpow i

end BlockVotes

namespace VoteSet

variable [DecidableEq β]

/-- A canonical vote of validator `i` is in the votes for its block, or is for the majority. -/
def Tracked (vs : VoteSet κ β σ) (i : Nat) (v : Vote β σ) : Prop :=
  ∃ bv, vs.votesByBlock.find? v.blockID = some bv ∧ (bv.voteAt i = some v ∨ vs.maj23 = some v.blockID)

/-- The shape of the two stores, without the tracking of canonical votes. -/
structure Layout (vs : VoteSet κ β σ) : Prop where
  votes_length : vs.votes.length = vs.valSet.length
  bits_length : vs.votesBitArray.length = vs.valSet.length
  bit_iff : ∀ i, vs.votesBitArray.getD i false = true ↔ (vs.voteAt i).isSome
  index : ∀ i v, vs.voteAt i = some v → v.validatorIndex = i
  block : ∀ k bv, vs.votesByBlock.find? k = some bv → bv.Inv vs.valSet k
  block_canonical : ∀ k bv, vs.votesByBlock.find? k = some bv →
    ∀ i, (bv.voteAt i).isSome → (vs.voteAt i).isSome
  maj23_tracked : ∀ b, vs.maj23 = some b → (vs.votesByBlock.find? b).isSome

/-- The representation invariant of a vote set. -/
structure Inv (vs : VoteSet κ β σ) : Prop extends vs.Layout where
  tracked : ∀ i v, vs.voteAt i = some v → vs.Tracked i v

/-- The votes for the majority block carry the threshold of the round. -/
def Maj23Quorum (vs : VoteSet κ β σ) : Prop :=
  ∀ b, vs.maj23 = some b → ∃ bv, vs.votesByBlock.find? b = some bv ∧
    loose23MajorThreshold (powerTotal vs.valSet) vs.round ≤ bv.sum

/-- What a call may do to a vote set: set the majority when it has none, and add votes for
blocks. -/
structure Grows (vs vs' : VoteSet κ β σ) : Prop where
  valSet : vs'.valSet = vs.valSet
  round : vs'.round = vs.round
  maj23 : ∀ b, vs.maj23 = some b → vs'.maj23 = some b
  block : ∀ k bv, vs.votesByBlock.find? k = some bv → ∃ bv', vs'.votesByBlock.find? k = some bv' ∧
    ∀ i v, bv.voteAt i = some v → bv'.voteAt i = some v

variable {vs vs' vs'' : VoteSet κ β σ}

theorem Grows.refl (vs : VoteSet κ β σ) : vs.Grows vs :=
  ⟨rfl, rfl, fun _ h => h, fun _ bv h => ⟨bv, h, fun _ _ hv => hv⟩⟩

theorem Grows.trans (h₁ : vs.Grows vs') (h₂ : vs'.Grows vs'') : vs.Grows vs'' where
  valSet := h₂.valSet.trans h₁.valSet
  round := h₂.round.trans h₁.round
  maj23 b hb := h₂.maj23 b (h₁.maj23 b hb)
  block k bv hk := by
    obtain ⟨bv₁, hk₁, hg₁⟩ := h₁.block k bv hk
    obtain ⟨bv₂, hk₂, hg₂⟩ := h₂.block k bv₁ hk₁
    exact ⟨bv₂, hk₂, fun i v hv => hg₂ i v (hg₁ i v hv)⟩

theorem Tracked.grows {i : Nat} {v : Vote β σ} (h : vs.Tracked i v) (hg : vs.Grows vs') :
    vs'.Tracked i v := by
  obtain ⟨bv, hk, hv | hm⟩ := h
  · obtain ⟨bv', hk', hg'⟩ := hg.block _ bv hk
    exact ⟨bv', hk', .inl (hg' i v hv)⟩
  · obtain ⟨bv', hk', -⟩ := hg.block _ bv hk
    exact ⟨bv', hk', .inr (hg.maj23 _ hm)⟩

/-- With no negative voting power, the majority a call keeps still carries the threshold. -/
theorem Maj23Quorum.grows (hq : vs.Maj23Quorum) (hg : vs.Grows vs') (hL : vs.Layout)
    (hL' : vs'.Layout) (hpow : ∀ v ∈ vs.valSet, 0 ≤ v.votingPower)
    (hold : ∀ b, vs'.maj23 = some b → vs.maj23 = some b) : vs'.Maj23Quorum := by
  intro b hb
  obtain ⟨bv, hk, hsum⟩ := hq b (hold b hb)
  obtain ⟨bv', hk', hgrow⟩ := hg.block b bv hk
  refine ⟨bv', hk', ?_⟩
  have hbv := hL.block b bv hk
  have hbv' := hL'.block b bv' hk'
  rw [hg.valSet] at hbv'
  rw [hg.valSet, hg.round]
  exact hsum.trans (hbv.sum_le hpow hbv' hgrow)

/-- Replacing the votes for a block by more votes for it. -/
theorem Grows.insert (vs : VoteSet κ β σ) (k : β) (bv' : BlockVotes β σ)
    (hgrow : ∀ bv, vs.votesByBlock.find? k = some bv → ∀ i v, bv.voteAt i = some v → bv'.voteAt i = some v) :
    vs.Grows { vs with votesByBlock := vs.votesByBlock.insert k bv' } where
  valSet := rfl
  round := rfl
  maj23 _ h := h
  block k' bv hk' := by
    simp only [KeyMap.find?_insert]
    split_ifs with hkk
    · subst hkk
      exact ⟨bv', rfl, hgrow bv hk'⟩
    · exact ⟨bv, hk', fun _ _ hv => hv⟩

/-- Votes for a block that are in the shape of the block, of validators with canonical votes. -/
theorem Layout.insert (hL : vs.Layout) {k : β} {bv' : BlockVotes β σ} (hbv : bv'.Inv vs.valSet k)
    (hcan : ∀ i, (bv'.voteAt i).isSome → (vs.voteAt i).isSome) :
    { vs with votesByBlock := vs.votesByBlock.insert k bv' }.Layout where
  votes_length := hL.votes_length
  bits_length := hL.bits_length
  bit_iff := hL.bit_iff
  index := hL.index
  block k' bv hk' := by
    simp only [KeyMap.find?_insert] at hk'
    split_ifs at hk' with hkk
    · cases hk'
      subst hkk
      exact hbv
    · exact hL.block k' bv hk'
  block_canonical k' bv hk' := by
    simp only [KeyMap.find?_insert] at hk'
    split_ifs at hk' with hkk
    · cases hk'
      exact hcan
    · exact hL.block_canonical k' bv hk'
  maj23_tracked b hb := by
    simp only [KeyMap.find?_insert]
    split_ifs
    · rfl
    · exact hL.maj23_tracked b hb

/-- A vote of validator `i` as its canonical vote, with any canonical sum. -/
theorem Layout.setVote (hL : vs.Layout) {vote : Vote β σ}
    (hi : vote.validatorIndex < vs.valSet.length) (s : Int) :
    { vs.setVote vote.validatorIndex vote with sum := s }.Layout := by
  have hv := vs.voteAt_setVote (hL.votes_length ▸ hi) vote
  have hbits : vote.validatorIndex < vs.votesBitArray.length := hL.bits_length ▸ hi
  constructor
  · exact (List.length_set ..).trans hL.votes_length
  · exact (List.length_set ..).trans hL.bits_length
  · intro j
    change (vs.votesBitArray.set _ true).getD j false = true ↔ ((vs.setVote _ vote).voteAt j).isSome
    rw [getD_set_true _ hbits, hv j]
    by_cases hj : j = vote.validatorIndex
    · simp [hj]
    · simp only [hj, decide_false, Bool.false_or, if_false]
      exact hL.bit_iff j
  · intro j v hvj
    change (vs.setVote _ vote).voteAt j = some v at hvj
    rw [hv j] at hvj
    split_ifs at hvj with hj
    · cases hvj
      exact hj.symm
    · exact hL.index j v hvj
  · exact hL.block
  · intro k bv hk j hj
    change ((vs.setVote _ vote).voteAt j).isSome
    rw [hv j]
    split_ifs
    · rfl
    · exact hL.block_canonical k bv hk j hj
  · exact hL.maj23_tracked

omit [DecidableEq β] in
theorem voteAt_copyVotes (vs : VoteSet κ β σ) {bv : BlockVotes β σ}
    (h : bv.votes.length ≤ vs.votes.length) (m : Option β) (j : Nat) :
    ({ vs with maj23 := m, votes := copyVotes vs.votes bv.votes } : VoteSet κ β σ).voteAt j =
      (bv.voteAt j <|> vs.voteAt j) :=
  join_getElem?_copyVotes h j

/-- Copying the votes for a tracked block over the canonical votes. -/
theorem Layout.copyVotes (hL : vs.Layout) {k : β} {bv : BlockVotes β σ}
    (hk : vs.votesByBlock.find? k = some bv) :
    { vs with maj23 := some k, votes := copyVotes vs.votes bv.votes }.Layout := by
  have hbv := hL.block k bv hk
  have hv := vs.voteAt_copyVotes (by rw [hbv.votes_length, hL.votes_length]) (some k)
  -- a validator with a vote for the block already has a canonical vote
  have hsome : ∀ j, ((bv.voteAt j <|> vs.voteAt j)).isSome = (vs.voteAt j).isSome := by
    intro j
    cases hb : bv.voteAt j with
    | none => rfl
    | some w =>
      have := hL.block_canonical k bv hk j (by simp [hb])
      simp [this]
  constructor
  · exact (length_copyVotes ..).trans hL.votes_length
  · exact hL.bits_length
  · intro j
    rw [hv j, hsome j]
    exact hL.bit_iff j
  · intro j v hvj
    rw [hv j] at hvj
    cases hb : bv.voteAt j with
    | none =>
      rw [hb] at hvj
      exact hL.index j v hvj
    | some w =>
      rw [hb] at hvj
      have hwv : w = v := Option.some.inj hvj
      subst hwv
      exact (hbv.vote j w hb).1
  · exact hL.block
  · intro k' bv' hk' j hj
    rw [hv j, hsome j]
    exact hL.block_canonical k' bv' hk' j hj
  · intro b hb
    cases hb
    simp [hk]

variable {vote : Vote β σ} {bv : BlockVotes β σ}

/-- Under the layout the tally of the votes for the block succeeds: the vote joins them, and
they are copied when they cross the threshold first. -/
theorem addToBlock_eq (hL : vs.Layout) (hk : vs.votesByBlock.find? vote.blockID = some bv)
    (votingPower : Int) (conflicting : Option (Vote β σ)) :
    vs.addToBlock vote votingPower bv conflicting =
      if bv.sum < loose23MajorThreshold (powerTotal vs.valSet) vote.round ∧
          loose23MajorThreshold (powerTotal vs.valSet) vote.round ≤
            (bv.addVerifiedVote vote votingPower).sum ∧ vs.maj23 = none then
        ({ vs with
            votesByBlock := vs.votesByBlock.insert vote.blockID (bv.addVerifiedVote vote votingPower),
            maj23 := some vote.blockID,
            votes := copyVotes vs.votes (bv.addVerifiedVote vote votingPower).votes },
          true, conflicting)
      else
        ({ vs with
            votesByBlock := vs.votesByBlock.insert vote.blockID (bv.addVerifiedVote vote votingPower) },
          true, conflicting) := by
  unfold addToBlock
  rw [talliedVotingPower_ok (hL.block _ bv hk).bits_length.symm]

/-- The last part of `addVerifiedVote`, on tracked votes for the block that lack the vote of a
validator with a canonical vote: the vote is added, the invariant holds after it, and the call
only adds. -/
theorem Layout.addToBlock (hL : vs.Layout) (hk : vs.votesByBlock.find? vote.blockID = some bv)
    (hi : vote.validatorIndex < vs.valSet.length) (hnone : bv.voteAt vote.validatorIndex = none)
    (hsome : (vs.voteAt vote.validatorIndex).isSome)
    (htrack : ∀ j v, vs.voteAt j = some v → v = vote ∨ vs.Tracked j v)
    (conflicting : Option (Vote β σ)) :
    (vs.addToBlock vote (powerAt vs.valSet vote.validatorIndex) bv conflicting).1.Inv ∧
      vs.Grows (vs.addToBlock vote (powerAt vs.valSet vote.validatorIndex) bv conflicting).1 ∧
      (vs.addToBlock vote (powerAt vs.valSet vote.validatorIndex) bv conflicting).2 =
        (true, conflicting) := by
  have hbv := hL.block _ bv hk
  have hvotes' := hbv.voteAt_addVerifiedVote hi hnone (powerAt vs.valSet vote.validatorIndex)
  have hbv' := hbv.addVerifiedVote hi rfl hnone
  set bv' := bv.addVerifiedVote vote (powerAt vs.valSet vote.validatorIndex) with hbv'_def
  -- the votes for the block only gain the vote, of a validator with a canonical vote
  have hgrow : ∀ j v, bv.voteAt j = some v → bv'.voteAt j = some v := by
    intro j v hv
    rw [hvotes', if_neg]
    · exact hv
    · rintro rfl
      rw [hnone] at hv
      cases hv
  have hcan : ∀ j, (bv'.voteAt j).isSome → (vs.voteAt j).isSome := by
    intro j hj
    rw [hvotes'] at hj
    split_ifs at hj with hji
    · rw [hji]
      exact hsome
    · exact hL.block_canonical _ bv hk j hj
  have hL₂ := hL.insert hbv' hcan
  have hg₂ := Grows.insert vs vote.blockID bv' fun b hb => by
    rw [hk] at hb
    cases hb
    exact hgrow
  have hk₂ : (vs.votesByBlock.insert vote.blockID bv').find? vote.blockID = some bv' := by
    simp [KeyMap.find?_insert]
  have htrack₂ : ∀ j v, vs.voteAt j = some v →
      ({ vs with votesByBlock := vs.votesByBlock.insert vote.blockID bv' } : VoteSet κ β σ).Tracked j v := by
    intro j v hv
    rcases htrack j v hv with rfl | ht
    · -- the vote itself sits in the slot of its validator
      refine ⟨bv', hk₂, .inl ?_⟩
      rw [hvotes', if_pos (hL.index j v hv).symm]
    · exact ht.grows hg₂
  rw [addToBlock_eq hL hk]
  split_ifs with hcross
  · -- the block becomes the majority, and its votes are copied
    have hg₃ : Grows { vs with votesByBlock := vs.votesByBlock.insert vote.blockID bv' }
        { vs with
          votesByBlock := vs.votesByBlock.insert vote.blockID bv'
          maj23 := some vote.blockID
          votes := IntChain.copyVotes vs.votes bv'.votes } := by
      refine ⟨rfl, rfl, fun b hb => ?_, fun k bv hk => ⟨bv, hk, fun _ _ h => h⟩⟩
      simp [hcross.2.2] at hb
    refine ⟨⟨hL₂.copyVotes hk₂, ?_⟩, hg₂.trans hg₃, rfl⟩
    intro j v hv
    simp only [voteAt] at hv
    rw [join_getElem?_copyVotes (by rw [hbv'.votes_length, hL.votes_length])] at hv
    cases hb : bv'.voteAt j with
    | none =>
      rw [BlockVotes.voteAt] at hb
      rw [hb] at hv
      exact (htrack₂ j v hv).grows hg₃
    | some w =>
      rw [BlockVotes.voteAt] at hb
      rw [hb] at hv
      have hwv : w = v := Option.some.inj hv
      subst hwv
      refine ⟨bv', ?_, .inl hb⟩
      rw [(hbv'.vote j w hb).2]
      exact hk₂
  · exact ⟨⟨hL₂, htrack₂⟩, hg₂, rfl⟩

/-- With no negative voting power, the majority the last part of `addVerifiedVote` finds
carries the threshold of the vote set's round. -/
theorem Maj23Quorum.addToBlock (hq : vs.Maj23Quorum) (hL : vs.Layout)
    (hk : vs.votesByBlock.find? vote.blockID = some bv) (hi : vote.validatorIndex < vs.valSet.length)
    (hnone : bv.voteAt vote.validatorIndex = none) (hsome : (vs.voteAt vote.validatorIndex).isSome)
    (htrack : ∀ j v, vs.voteAt j = some v → v = vote ∨ vs.Tracked j v)
    (hround : (vote.round : Int) = vs.round) (hpow : ∀ v ∈ vs.valSet, 0 ≤ v.votingPower)
    (conflicting : Option (Vote β σ)) :
    (vs.addToBlock vote (powerAt vs.valSet vote.validatorIndex) bv conflicting).1.Maj23Quorum := by
  obtain ⟨hI, hg, -⟩ := hL.addToBlock hk hi hnone hsome htrack conflicting
  have heq := addToBlock_eq hL hk (powerAt vs.valSet vote.validatorIndex) conflicting
  rw [heq] at hI hg ⊢
  split_ifs at hI hg ⊢ with hcross
  · -- the block that crossed the threshold is the majority
    intro b hb
    cases hb
    refine ⟨bv.addVerifiedVote vote (powerAt vs.valSet vote.validatorIndex),
      by simp [KeyMap.find?_insert], ?_⟩
    rw [← hround]
    exact hcross.2.1
  · exact hq.grows hg hL hI.toLayout hpow fun _ hb => hb

/-- The middle and last parts of `addVerifiedVote`, after the vote is placed: the invariant
holds after them, they only add, and the vote is added or conflicting. -/
theorem Layout.addToVotesByBlock (hL : vs.Layout) (hi : vote.validatorIndex < vs.valSet.length)
    (hblock : ∀ bv, vs.votesByBlock.find? vote.blockID = some bv → bv.voteAt vote.validatorIndex = none)
    (hsome : (vs.voteAt vote.validatorIndex).isSome)
    (htrack : ∀ j v, vs.voteAt j = some v → v = vote ∨ vs.Tracked j v)
    {conflicting : Option (Vote β σ)} (hc : conflicting.isSome → vs.Inv) :
    (vs.addToVotesByBlock vote (powerAt vs.valSet vote.validatorIndex) conflicting).1.Inv ∧
      vs.Grows (vs.addToVotesByBlock vote (powerAt vs.valSet vote.validatorIndex) conflicting).1 ∧
      ((vs.addToVotesByBlock vote (powerAt vs.valSet vote.validatorIndex) conflicting).2.1 = true ∨
        conflicting.isSome) ∧
      ((vote.round : Int) = vs.round → (∀ v ∈ vs.valSet, 0 ≤ v.votingPower) → vs.Maj23Quorum →
        (vs.addToVotesByBlock vote (powerAt vs.valSet vote.validatorIndex) conflicting).1.Maj23Quorum) := by
  unfold VoteSet.addToVotesByBlock
  cases hk : vs.votesByBlock.find? vote.blockID with
  | some bv =>
    dsimp only
    by_cases hdrop : (conflicting.isSome && !bv.peerMaj23) = true
    · -- a conflicting vote for a block no peer claimed is dropped
      rw [if_pos hdrop]
      have hcs : conflicting.isSome = true := by simp_all
      exact ⟨hc hcs, Grows.refl vs, .inr hcs, fun _ _ hq => hq⟩
    · rw [if_neg hdrop]
      obtain ⟨hI, hg, hr⟩ := hL.addToBlock hk hi (hblock bv hk) hsome htrack conflicting
      refine ⟨hI, hg, .inl (by rw [hr]), fun hround hpow hq => ?_⟩
      exact hq.addToBlock hL hk hi (hblock bv hk) hsome htrack hround hpow conflicting
  | none =>
    dsimp only
    by_cases hcs : conflicting.isSome = true
    · rw [if_pos hcs]
      exact ⟨hc hcs, Grows.refl vs, .inr hcs, fun _ _ hq => hq⟩
    · -- a first vote for an untracked block starts tracking it
      rw [if_neg hcs]
      have hnew := BlockVotes.Inv.newBlockVotes (σ := σ) vs.valSet vote.blockID false
      have hnone := BlockVotes.voteAt_newBlockVotes (β := β) (σ := σ) false vs.valSet.length
        vote.validatorIndex
      have hL₁ := hL.insert hnew fun j hj => by
        rw [BlockVotes.voteAt_newBlockVotes] at hj
        cases hj
      have hg₁ := Grows.insert vs vote.blockID (newBlockVotes false vs.valSet.length) fun b hb => by
        rw [hk] at hb
        cases hb
      have hk₁ : (vs.votesByBlock.insert vote.blockID (newBlockVotes false vs.valSet.length)).find?
          vote.blockID = some (newBlockVotes false vs.valSet.length) := by
        simp [KeyMap.find?_insert]
      have htrack₁ : ∀ j v, vs.voteAt j = some v → v = vote ∨
          ({ vs with
              votesByBlock := vs.votesByBlock.insert vote.blockID (newBlockVotes false vs.valSet.length) } :
            VoteSet κ β σ).Tracked j v := by
        intro j v hv
        exact (htrack j v hv).imp_right fun ht => ht.grows hg₁
      obtain ⟨hI, hg, hr⟩ := hL₁.addToBlock hk₁ hi hnone hsome htrack₁ conflicting
      refine ⟨hI, hg₁.trans hg, .inl (by rw [hr]), fun hround hpow hq => ?_⟩
      have hq₁ := hq.grows hg₁ hL hL₁ hpow fun _ hb => hb
      exact hq₁.addToBlock hL₁ hk₁ hi hnone hsome htrack₁ hround hpow conflicting

/-- A new canonical vote changes neither the majority nor the votes for blocks. -/
theorem Grows.setVote (vs : VoteSet κ β σ) (i : Nat) (vote : Vote β σ) (s : Int) :
    vs.Grows { vs.setVote i vote with sum := s } :=
  ⟨rfl, rfl, fun _ h => h, fun _ bv hk => ⟨bv, hk, fun _ _ h => h⟩⟩

/-- The first part of `addVerifiedVote`, on a vote the set does not know: it does not panic,
the vote's validator has a canonical vote after it, and every canonical vote is the new vote
or tracked. When it returns a conflicting vote, the invariant holds already. -/
theorem Inv.placeVote (hI : vs.Inv) (hi : vote.validatorIndex < vs.valSet.length)
    (hget : vs.getVote vote.validatorIndex vote.blockID = none) (votingPower : Int) :
    ∃ vs₁ conflicting, vs.placeVote vote votingPower = some (vs₁, conflicting) ∧ vs₁.Layout ∧
      vs.Grows vs₁ ∧ vs₁.votesByBlock = vs.votesByBlock ∧ vs₁.maj23 = vs.maj23 ∧
      (vs₁.voteAt vote.validatorIndex).isSome ∧
      (∀ j v, vs₁.voteAt j = some v → v = vote ∨ vs₁.Tracked j v) ∧
      (conflicting.isSome → vs₁.Inv) := by
  obtain ⟨hcanon, -⟩ := (getVote_eq_none_iff vs _ _).1 hget
  have hv := vs.voteAt_setVote (hI.votes_length ▸ hi) vote
  -- outside the validator's slot the canonical votes are as they were, and tracked
  have hother : ∀ j v, (vs.setVote vote.validatorIndex vote).voteAt j = some v →
      v = vote ∨ vs.Tracked j v := by
    intro j v hvj
    rw [hv j] at hvj
    split_ifs at hvj
    · exact .inl (Option.some.inj hvj).symm
    · exact .inr (hI.tracked j v hvj)
  unfold VoteSet.placeVote
  cases he : vs.voteAt vote.validatorIndex with
  | none =>
    refine ⟨_, none, rfl, hI.toLayout.setVote hi _, Grows.setVote .., rfl, rfl, ?_, hother, ?_⟩
    · change ((vs.setVote _ vote).voteAt _).isSome
      simp [hv]
    · intro h
      cases h
  | some e =>
    dsimp only
    rw [if_neg (hcanon e he)]
    split_ifs with hm
    · -- the vote for the majority replaces the validator's vote
      have hsome : ((vs.setVote vote.validatorIndex vote).voteAt vote.validatorIndex).isSome := by
        simp [hv]
      have htracked : ∀ j v, (vs.setVote vote.validatorIndex vote).voteAt j = some v →
          (vs.setVote vote.validatorIndex vote).Tracked j v := by
        intro j v hvj
        rcases hother j v hvj with rfl | ht
        · obtain ⟨bv, hk⟩ := Option.isSome_iff_exists.1 (hI.maj23_tracked _ hm)
          exact ⟨bv, hk, .inr hm⟩
        · exact ht
      exact ⟨_, _, rfl, hI.toLayout.setVote hi vs.sum, Grows.setVote .., rfl, rfl, hsome,
        fun j v hvj => .inr (htracked j v hvj), fun _ => ⟨hI.toLayout.setVote hi vs.sum, htracked⟩⟩
    · exact ⟨vs, some e, rfl, hI.toLayout, Grows.refl vs, rfl, rfl, by simp [he],
        fun j v hvj => .inr (hI.tracked j v hvj), fun _ => hI⟩

/-- `addVerifiedVote` of a vote the set does not know, with its validator's power: it does not
panic, the invariant holds after it, it only adds, and the vote is added or conflicting. -/
theorem Inv.addVerifiedVote (hI : vs.Inv) (hi : vote.validatorIndex < vs.valSet.length)
    (hget : vs.getVote vote.validatorIndex vote.blockID = none) :
    ∃ vs' added conflicting,
      vs.addVerifiedVote vote (powerAt vs.valSet vote.validatorIndex) = some (vs', added, conflicting) ∧
      vs'.Inv ∧ vs.Grows vs' ∧ (added = true ∨ conflicting.isSome) ∧
      ((vote.round : Int) = vs.round → (∀ v ∈ vs.valSet, 0 ≤ v.votingPower) → vs.Maj23Quorum →
        vs'.Maj23Quorum) := by
  have hblock := ((getVote_eq_none_iff vs _ _).1 hget).2
  obtain ⟨vs₁, c, hplace, hL₁, hg₁, hblocks, hmaj, hsome, htrack, hc⟩ :=
    hI.placeVote hi hget (powerAt vs.valSet vote.validatorIndex)
  have hi₁ : vote.validatorIndex < vs₁.valSet.length := hg₁.valSet ▸ hi
  obtain ⟨hI', hg', hadded, hq⟩ := hL₁.addToVotesByBlock hi₁ (hblocks ▸ hblock) hsome htrack hc
  rw [hg₁.valSet] at hI' hg' hadded hq
  refine ⟨_, _, _, ?_, hI', hg₁.trans hg', hadded, ?_⟩
  · rw [VoteSet.addVerifiedVote, hplace, Option.map_some, Option.some_inj]
    exact Prod.ext rfl (Prod.ext rfl (addToVotesByBlock_conflicting _ _ _ _))
  intro hround hpow hq₀
  rw [hg₁.round] at hq
  exact hq hround hpow (hq₀.grows hg₁ hI.toLayout hL₁ hpow fun b hb => hmaj ▸ hb)

section AddVote

variable [DecidableEq σ] (verifyBytes : κ → Vote β σ → Bool)

/-- A call of `AddVote` that does not panic leaves the set as it is, or hands a vote of the
set's round, of a validator with no such vote yet, to `addVerifiedVote` with the validator's
power. -/
theorem addVote_eq_some {r : VoteSet κ β σ × Bool × Option (VoteError β σ)}
    (h : vs.addVote verifyBytes vote = some r) :
    r.1 = vs ∨ (vote.round : Int) = vs.round ∧ vote.validatorIndex < vs.valSet.length ∧
      vs.getVote vote.validatorIndex vote.blockID = none ∧
      ∃ added conflicting, vs.addVerifiedVote vote (powerAt vs.valSet vote.validatorIndex) =
        some (r.1, added, conflicting) := by
  unfold VoteSet.addVote at h
  by_cases haddr : vote.validatorAddress = []
  · rw [if_pos haddr] at h
    cases h
  rw [if_neg haddr] at h
  by_cases hstep : vote.height ≠ vs.height ∨ (vote.round : Int) ≠ vs.round ∨ vote.type_ ≠ vs.type_
  · rw [if_pos hstep] at h
    cases h
    exact .inl rfl
  rw [if_neg hstep] at h
  cases hval : vs.valSet[vote.validatorIndex]? with
  | none =>
    rw [hval] at h
    cases h
  | some val =>
    rw [hval] at h
    dsimp only at h
    by_cases hvaddr : vote.validatorAddress ≠ val.address
    · rw [if_pos hvaddr] at h
      cases h
      exact .inl rfl
    rw [if_neg hvaddr] at h
    cases hget : vs.getVote vote.validatorIndex vote.blockID with
    | some existing =>
      -- a known vote is reported and not added again
      rw [hget] at h
      dsimp only at h
      split_ifs at h <;> (cases h; exact .inl rfl)
    | none =>
      rw [hget] at h
      dsimp only at h
      by_cases hverify : (!verifyBytes val.pubKey vote) = true
      · rw [if_pos hverify] at h
        cases h
        exact .inl rfl
      rw [if_neg hverify] at h
      obtain ⟨⟨vs', added, c⟩, hadd, h⟩ := Option.bind_eq_some_iff.1 h
      have hpow : val.votingPower = powerAt vs.valSet vote.validatorIndex := by
        simp [powerAt, hval]
      have hr : r.1 = vs' := by
        cases c with
        | some c =>
          cases h
          rfl
        | none =>
          dsimp only at h
          split_ifs at h
          cases h
          rfl
      refine .inr ⟨not_not.1 (not_or.1 (not_or.1 hstep).2).1, (List.getElem?_eq_some_iff.1 hval).1, rfl,
        added, c, ?_⟩
      rw [← hpow, hadd, hr]

/-- `AddVote` keeps the invariant and only adds; with no negative voting power it keeps the
threshold of the majority. -/
theorem Inv.addVote (hI : vs.Inv) {r : VoteSet κ β σ × Bool × Option (VoteError β σ)}
    (h : vs.addVote verifyBytes vote = some r) :
    r.1.Inv ∧ vs.Grows r.1 ∧
      ((∀ v ∈ vs.valSet, 0 ≤ v.votingPower) → vs.Maj23Quorum → r.1.Maj23Quorum) := by
  rcases addVote_eq_some verifyBytes h with hr | ⟨hround, hi, hget, added, c, hadd⟩
  · rw [hr]
    exact ⟨hI, Grows.refl vs, fun _ hq => hq⟩
  obtain ⟨vs', added', c', hadd', hI', hg', -, hq⟩ := hI.addVerifiedVote hi hget
  rw [hadd, Option.some_inj, Prod.mk.injEq] at hadd'
  rw [hadd'.1]
  exact ⟨hI', hg', hq hround⟩

/-- Under the invariant, `AddVote` panics only on a vote with an empty address or an index past
the validators. -/
theorem Inv.addVote_isSome (hI : vs.Inv) (haddr : vote.validatorAddress ≠ [])
    (hi : vote.validatorIndex < vs.valSet.length) : (vs.addVote verifyBytes vote).isSome := by
  unfold VoteSet.addVote
  rw [if_neg haddr]
  by_cases hstep : vote.height ≠ vs.height ∨ (vote.round : Int) ≠ vs.round ∨ vote.type_ ≠ vs.type_
  · rw [if_pos hstep]
    rfl
  rw [if_neg hstep, List.getElem?_eq_getElem hi]
  dsimp only
  by_cases hvaddr : vote.validatorAddress ≠ vs.valSet[vote.validatorIndex].address
  · rw [if_pos hvaddr]
    rfl
  rw [if_neg hvaddr]
  cases hget : vs.getVote vote.validatorIndex vote.blockID with
  | some existing =>
    dsimp only
    split_ifs <;> rfl
  | none =>
    dsimp only
    by_cases hverify : (!verifyBytes vs.valSet[vote.validatorIndex].pubKey vote) = true
    · rw [if_pos hverify]
      rfl
    rw [if_neg hverify]
    have hpow : vs.valSet[vote.validatorIndex].votingPower = powerAt vs.valSet vote.validatorIndex := by
      simp [powerAt, hi]
    obtain ⟨vs', added, c, hadd, -, -, hac, -⟩ := hI.addVerifiedVote hi hget
    rw [hpow, hadd, Option.bind_some]
    cases c with
    | some c => rfl
    | none =>
      -- a vote that does not conflict was added
      have hadded : added = true := by simpa using hac
      simp [hadded]

end AddVote

/-- Votes for a block that keep the votes it had, in the shape of the block and of validators
with canonical votes, keep the invariant and the threshold of the majority. -/
theorem Inv.insert (hI : vs.Inv) {k : β} {bv' : BlockVotes β σ} (hbv : bv'.Inv vs.valSet k)
    (hcan : ∀ i, (bv'.voteAt i).isSome → (vs.voteAt i).isSome)
    (hgrow : ∀ bv, vs.votesByBlock.find? k = some bv →
      ∀ i v, bv.voteAt i = some v → bv'.voteAt i = some v) :
    { vs with votesByBlock := vs.votesByBlock.insert k bv' }.Inv ∧
      vs.Grows { vs with votesByBlock := vs.votesByBlock.insert k bv' } ∧
      ((∀ v ∈ vs.valSet, 0 ≤ v.votingPower) → vs.Maj23Quorum →
        Maj23Quorum { vs with votesByBlock := vs.votesByBlock.insert k bv' }) := by
  have hg := Grows.insert vs k bv' hgrow
  have hL := hI.toLayout.insert hbv hcan
  refine ⟨⟨hL, fun i v hv => (hI.tracked i v hv).grows hg⟩, hg, fun hpow hq => ?_⟩
  exact hq.grows hg hI.toLayout hL hpow fun _ hb => hb

/-- `SetPeerMaj23` keeps the invariant and only adds; it keeps the threshold of the majority. -/
theorem Inv.setPeerMaj23 (hI : vs.Inv) (peerID : String) (blockID : β) :
    (vs.setPeerMaj23 peerID blockID).Inv ∧ vs.Grows (vs.setPeerMaj23 peerID blockID) ∧
      ((∀ v ∈ vs.valSet, 0 ≤ v.votingPower) → vs.Maj23Quorum →
        (vs.setPeerMaj23 peerID blockID).Maj23Quorum) := by
  unfold VoteSet.setPeerMaj23
  cases hp : vs.peerMaj23s.find? peerID with
  | some _ => exact ⟨hI, Grows.refl vs, fun _ hq => hq⟩
  | none =>
    dsimp only
    -- recording the peer's claim changes neither store
    have hI₁ : ({ vs with peerMaj23s := vs.peerMaj23s.insert peerID blockID } : VoteSet κ β σ).Inv :=
      ⟨⟨hI.votes_length, hI.bits_length, hI.bit_iff, hI.index, hI.block, hI.block_canonical,
        hI.maj23_tracked⟩, hI.tracked⟩
    have hg₁ : vs.Grows { vs with peerMaj23s := vs.peerMaj23s.insert peerID blockID } :=
      ⟨rfl, rfl, fun _ h => h, fun _ bv hk => ⟨bv, hk, fun _ _ h => h⟩⟩
    cases hk : vs.votesByBlock.find? blockID with
    | some bv =>
      dsimp only
      split_ifs with hpeer
      · exact ⟨hI₁, hg₁, fun _ hq => hq⟩
      · -- the votes for the claimed block are marked
        obtain ⟨hI₂, hg₂, hq₂⟩ := hI₁.insert ((hI.block _ bv hk).setPeerMaj23)
          (hI.block_canonical _ bv hk) fun bv' hk' i v hv => by
            change vs.votesByBlock.find? blockID = some bv' at hk'
            rw [hk] at hk'
            cases hk'
            exact hv
        exact ⟨hI₂, hg₁.trans hg₂, fun hpow hq => hq₂ hpow hq⟩
    | none =>
      dsimp only
      -- the claimed block is tracked from now on, with no votes
      obtain ⟨hI₂, hg₂, hq₂⟩ := hI₁.insert (BlockVotes.Inv.newBlockVotes vs.valSet blockID true)
        (fun i hi => by
          rw [BlockVotes.voteAt_newBlockVotes] at hi
          cases hi)
        fun bv' hk' => by
          change vs.votesByBlock.find? blockID = some bv' at hk'
          rw [hk] at hk'
          cases hk'
      exact ⟨hI₂, hg₁.trans hg₂, fun hpow hq => hq₂ hpow hq⟩

variable [DecidableEq σ] (verifyBytes : κ → Vote β σ → Bool)

/-- One call keeps the invariant and only adds; with no negative voting power it keeps the
threshold of the majority. -/
theorem Inv.voteSetCall (hI : vs.Inv) {call : VoteSetCall β σ}
    (h : call.run verifyBytes vs = some vs') :
    vs'.Inv ∧ vs.Grows vs' ∧
      ((∀ v ∈ vs.valSet, 0 ≤ v.votingPower) → vs.Maj23Quorum → vs'.Maj23Quorum) := by
  cases call with
  | addVote vote =>
    obtain ⟨r, hr, rfl⟩ := Option.map_eq_some_iff.1 h
    exact hI.addVote verifyBytes hr
  | setPeerMaj23 peerID blockID =>
    cases h
    exact hI.setPeerMaj23 peerID blockID

/-- Every run of calls that does not panic keeps the invariant and only adds; with no negative
voting power it keeps the threshold of the majority. -/
theorem Inv.runVoteSetCalls (hI : vs.Inv) {calls : List (VoteSetCall β σ)}
    (h : runVoteSetCalls verifyBytes vs calls = some vs') :
    vs'.Inv ∧ vs.Grows vs' ∧
      ((∀ v ∈ vs.valSet, 0 ≤ v.votingPower) → vs.Maj23Quorum → vs'.Maj23Quorum) := by
  -- the invariant of the run: the step's invariant, and what the run so far may have changed
  refine Run.foldlM_invariant _
    (fun e => e.Inv ∧ vs.Grows e ∧
      ((∀ v ∈ vs.valSet, 0 ≤ v.votingPower) → vs.Maj23Quorum → e.Maj23Quorum))
    ?_ h ⟨hI, Grows.refl vs, fun _ hq => hq⟩
  rintro e call e' ⟨hIe, hge, hqe⟩ hstep
  obtain ⟨hI', hg', hq'⟩ := hIe.voteSetCall verifyBytes hstep
  refine ⟨hI', hge.trans hg', fun hpow hq => hq' ?_ (hqe hpow hq)⟩
  rw [hge.valSet]
  exact hpow

end VoteSet

variable [DecidableEq β]

omit [DecidableEq β] in
/-- A new vote set has the validators and the round it was made with. -/
theorem newVoteSet_eq_some {height : Nat} {round : Int} {type_ : UInt8}
    {valSet : List (Validator (List UInt8) κ)} {vs : VoteSet κ β σ}
    (h : newVoteSet height round type_ valSet = some vs) : vs.valSet = valSet ∧ vs.round = round := by
  unfold newVoteSet at h
  split_ifs at h
  cases h
  exact ⟨rfl, rfl⟩

/-- A new vote set holds no vote and no majority. -/
theorem VoteSet.Inv.newVoteSet {height : Nat} {round : Int} {type_ : UInt8}
    {valSet : List (Validator (List UInt8) κ)} {vs : VoteSet κ β σ}
    (h : newVoteSet height round type_ valSet = some vs) : vs.Inv ∧ vs.Maj23Quorum := by
  unfold IntChain.newVoteSet at h
  split_ifs at h
  cases h
  have hnone : ∀ i, ((List.replicate valSet.length none : List (Option (Vote β σ)))[i]?).join = none :=
    join_getElem?_replicate_none valSet.length
  refine ⟨⟨⟨List.length_replicate, List.length_replicate, fun i => ?_, fun i v hv => ?_,
    fun k bv hk => ?_, fun k bv hk => ?_, fun b hb => ?_⟩, fun i v hv => ?_⟩, fun b hb => ?_⟩
  · change _ ↔ (((List.replicate valSet.length none)[i]?).join).isSome
    rw [hnone]
    by_cases hi : i < valSet.length <;> simp [List.getD_eq_getElem?_getD, hi]
  all_goals first
    | (change ((List.replicate valSet.length none)[i]?).join = some v at hv
       rw [hnone] at hv
       cases hv)
    | cases hk
    | cases hb

/-- Along every run of calls on a new vote set, split at any point: the majority, once set,
stays; the canonical votes are marked by their bits and sit in their validator's slot; the
votes for each block are marked by their bits and sum the power of their validators; each
canonical vote is in the votes for its block, or is for the majority block, which is tracked;
and, with no negative voting power, the votes for the majority carry the threshold of the
round. -/
theorem voteSet_run_invariant [DecidableEq σ] (verifyBytes : κ → Vote β σ → Bool)
    {height : Nat} {round : Int} {type_ : UInt8} {valSet : List (Validator (List UInt8) κ)}
    {vs₀ vs₁ vs₂ : VoteSet κ β σ} {pre post : List (VoteSetCall β σ)}
    (h₀ : newVoteSet height round type_ valSet = some vs₀)
    (h₁ : runVoteSetCalls verifyBytes vs₀ pre = some vs₁)
    (h₂ : runVoteSetCalls verifyBytes vs₁ post = some vs₂) :
    (∀ b, vs₁.maj23 = some b → vs₂.maj23 = some b) ∧
    (∀ i, vs₂.votesBitArray.getD i false = true ↔ (vs₂.voteAt i).isSome) ∧
    (∀ i v, vs₂.voteAt i = some v → v.validatorIndex = i) ∧
    (∀ k bv, vs₂.votesByBlock.find? k = some bv →
      (∀ i, bv.bitArray.getD i false = true ↔ (bv.voteAt i).isSome) ∧
      bv.sum = ∑ i ∈ (Finset.range valSet.length).filter (fun i => (bv.voteAt i).isSome),
        powerAt valSet i) ∧
    (∀ i v, vs₂.voteAt i = some v → ∃ bv, vs₂.votesByBlock.find? v.blockID = some bv ∧
      (bv.voteAt i = some v ∨ vs₂.maj23 = some v.blockID)) ∧
    ((∀ v ∈ valSet, 0 ≤ v.votingPower) → ∀ b, vs₂.maj23 = some b →
      ∃ bv, vs₂.votesByBlock.find? b = some bv ∧ loose23MajorThreshold (powerTotal valSet) round ≤ bv.sum) := by
  obtain ⟨hI₀, hq₀⟩ := VoteSet.Inv.newVoteSet h₀
  have hv₀ := newVoteSet_eq_some h₀
  obtain ⟨hI₁, hg₁, hq₁⟩ := hI₀.runVoteSetCalls verifyBytes h₁
  obtain ⟨hI₂, hg₂, hq₂⟩ := hI₁.runVoteSetCalls verifyBytes h₂
  have hval : vs₂.valSet = valSet := (hg₁.trans hg₂).valSet.trans hv₀.1
  refine ⟨hg₂.maj23, hI₂.bit_iff, hI₂.index, fun k bv hk => ?_, hI₂.tracked, fun hpow => ?_⟩
  · -- the votes for a block, over the validators of the set
    have hbv := hI₂.block k bv hk
    rw [hval] at hbv
    exact ⟨hbv.bit_iff, hbv.sum.trans (by rw [hbv.marked_eq])⟩
  · have hpow₀ : ∀ v ∈ vs₀.valSet, 0 ≤ v.votingPower := by
      rw [hv₀.1]
      exact hpow
    have hpow₁ : ∀ v ∈ vs₁.valSet, 0 ≤ v.votingPower := by
      rw [hg₁.valSet]
      exact hpow₀
    have hq := hq₂ hpow₁ (hq₁ hpow₀ hq₀)
    intro b hb
    obtain ⟨bv, hk, hsum⟩ := hq b hb
    rw [hval, (hg₁.trans hg₂).round, hv₀.2] at hsum
    exact ⟨bv, hk, hsum⟩

/-- Four validators of power 1: validator 0 votes for block 1 and the others for block 2,
which becomes the majority; validator 0 then switches to block 2, a conflicting vote that
replaces its canonical vote without joining the votes for the block. The majority stays, the
new canonical vote is accounted for through the majority, and the votes for block 2 carry the
threshold. -/
theorem voteSet_run_invariant_conflicting_switch :
    ∃ vs₂ : VoteSet Nat Nat Nat,
      (∃ vs₀ vs₁, newVoteSet 1 0 1 [⟨[1], 0, 1, 0⟩, ⟨[2], 0, 1, 0⟩, ⟨[3], 0, 1, 0⟩, ⟨[4], 0, 1, 0⟩] =
          some vs₀ ∧
        runVoteSetCalls (fun _ _ => true) vs₀
          [.addVote ⟨[1], 0, 1, 0, 1, 1, 0⟩, .addVote ⟨[2], 1, 1, 0, 1, 2, 0⟩,
            .addVote ⟨[3], 2, 1, 0, 1, 2, 0⟩, .addVote ⟨[4], 3, 1, 0, 1, 2, 0⟩] = some vs₁ ∧
        runVoteSetCalls (fun _ _ => true) vs₁ [.addVote ⟨[1], 0, 1, 0, 1, 2, 0⟩] = some vs₂) ∧
      vs₂.maj23 = some 2 ∧ vs₂.voteAt 0 = some ⟨[1], 0, 1, 0, 1, 2, 0⟩ ∧
      (∃ bv, vs₂.votesByBlock.find? 2 = some bv ∧
        (bv.voteAt 0 = some ⟨[1], 0, 1, 0, 1, 2, 0⟩ ∨ vs₂.maj23 = some 2)) ∧
      ∃ bv, vs₂.votesByBlock.find? 2 = some bv ∧
        loose23MajorThreshold (powerTotal [(⟨[1], 0, 1, 0⟩ : Validator (List UInt8) Nat),
          ⟨[2], 0, 1, 0⟩, ⟨[3], 0, 1, 0⟩, ⟨[4], 0, 1, 0⟩]) 0 ≤ bv.sum := by
  have hrun : ((newVoteSet 1 0 1 [(⟨[1], 0, 1, 0⟩ : Validator (List UInt8) Nat), ⟨[2], 0, 1, 0⟩,
      ⟨[3], 0, 1, 0⟩, ⟨[4], 0, 1, 0⟩]).bind fun vs₀ =>
      (runVoteSetCalls (fun _ _ => true) vs₀
        [.addVote ⟨[1], 0, 1, 0, 1, 1, 0⟩, .addVote ⟨[2], 1, 1, 0, 1, 2, 0⟩,
          .addVote ⟨[3], 2, 1, 0, 1, 2, 0⟩, .addVote ⟨[4], 3, 1, 0, 1, (2 : Nat), (0 : Nat)⟩]).bind
        fun vs₁ => (runVoteSetCalls (fun _ _ => true) vs₁ [.addVote ⟨[1], 0, 1, 0, 1, 2, 0⟩]).map
          fun vs₂ => (vs₀, vs₁, vs₂)).map (fun r => (r.2.2.maj23, r.2.2.voteAt 0)) =
      some (some 2, some ⟨[1], 0, 1, 0, 1, 2, 0⟩) := by
    decide +kernel
  obtain ⟨⟨vs₀, vs₁, vs₂⟩, hvs, hf⟩ := Option.map_eq_some_iff.1 hrun
  obtain ⟨vs₀', h₀, hvs⟩ := Option.bind_eq_some_iff.1 hvs
  obtain ⟨vs₁', h₁, hvs⟩ := Option.bind_eq_some_iff.1 hvs
  obtain ⟨vs₂', h₂, hvs⟩ := Option.map_eq_some_iff.1 hvs
  cases hvs
  simp only [Prod.mk.injEq] at hf
  obtain ⟨hmaj, hvote⟩ := hf
  obtain ⟨-, -, -, -, htracked, hq⟩ := voteSet_run_invariant (fun _ _ => true) h₀ h₁ h₂
  exact ⟨vs₂, ⟨vs₀, vs₁, h₀, h₁, h₂⟩, hmaj, hvote, htracked 0 _ hvote, hq (by decide) 2 hmaj⟩

/-- A validator's vote for the majority block that replaces its first vote once the majority is
found becomes its canonical vote but is not added to the votes for the block, which no peer
claimed; and with a negative voting power, the votes for the majority fall below the
threshold. -/
theorem untracked_majority_vote_and_negative_power_quorum :
    (∃ vs₀ vs : VoteSet Nat Nat Nat,
      newVoteSet 1 0 1 [⟨[1], 0, 1, 0⟩, ⟨[2], 0, 1, 0⟩, ⟨[3], 0, 1, 0⟩, ⟨[4], 0, 1, 0⟩] = some vs₀ ∧
      runVoteSetCalls (fun _ _ => true) vs₀
        [.addVote ⟨[1], 0, 1, 0, 1, 1, 0⟩, .addVote ⟨[2], 1, 1, 0, 1, 2, 0⟩,
          .addVote ⟨[3], 2, 1, 0, 1, 2, 0⟩, .addVote ⟨[4], 3, 1, 0, 1, 2, 0⟩,
          .addVote ⟨[1], 0, 1, 0, 1, 2, 0⟩] = some vs ∧
      ¬ ∀ i v, vs.voteAt i = some v →
        ∃ bv, vs.votesByBlock.find? v.blockID = some bv ∧ bv.voteAt i = some v) ∧
    (∃ vs₀ vs : VoteSet Nat Nat Nat,
      newVoteSet 1 0 1 [⟨[1], 0, 5, 0⟩, ⟨[2], 0, 5, 0⟩, ⟨[3], 0, -3, 0⟩] = some vs₀ ∧
      runVoteSetCalls (fun _ _ => true) vs₀
        [.addVote ⟨[1], 0, 1, 0, 1, 1, 0⟩, .addVote ⟨[3], 2, 1, 0, 1, 1, 0⟩] = some vs ∧
      ¬ ∀ b, vs.maj23 = some b → ∃ bv, vs.votesByBlock.find? b = some bv ∧
        loose23MajorThreshold
          (powerTotal [(⟨[1], 0, 5, 0⟩ : Validator (List UInt8) Nat), ⟨[2], 0, 5, 0⟩, ⟨[3], 0, -3, 0⟩])
          0 ≤ bv.sum) := by
  constructor
  · -- validator 0 votes for block 1, the others for block 2, then validator 0 for block 2
    have hrun : ((newVoteSet 1 0 1 [(⟨[1], 0, 1, 0⟩ : Validator (List UInt8) Nat), ⟨[2], 0, 1, 0⟩,
        ⟨[3], 0, 1, 0⟩, ⟨[4], 0, 1, 0⟩]).bind fun vs₀ =>
        runVoteSetCalls (fun _ _ => true) vs₀
          [.addVote ⟨[1], 0, 1, 0, 1, 1, 0⟩, .addVote ⟨[2], 1, 1, 0, 1, 2, 0⟩,
            .addVote ⟨[3], 2, 1, 0, 1, 2, 0⟩, .addVote ⟨[4], 3, 1, 0, 1, 2, 0⟩,
            .addVote ⟨[1], 0, 1, 0, 1, (2 : Nat), (0 : Nat)⟩]).map
          (fun vs => (vs.voteAt 0, (vs.votesByBlock.find? 2).map (·.voteAt 0))) =
        some (some ⟨[1], 0, 1, 0, 1, 2, 0⟩, some none) := by
      decide +kernel
    obtain ⟨vs, hvs, hf⟩ := Option.map_eq_some_iff.1 hrun
    obtain ⟨vs₀, h₀, h₁⟩ := Option.bind_eq_some_iff.1 hvs
    refine ⟨vs₀, vs, h₀, h₁, fun h => ?_⟩
    simp only [Prod.mk.injEq, Option.map_eq_some_iff] at hf
    obtain ⟨hv, bv, hk, hnone⟩ := hf
    obtain ⟨bv', hk', hv'⟩ := h 0 _ hv
    rw [hk] at hk'
    cases hk'
    rw [hnone] at hv'
    cases hv'
  · -- validator 0 makes block 1 the majority, validator 2 then lowers its sum
    have hrun : ((newVoteSet 1 0 1 [(⟨[1], 0, 5, 0⟩ : Validator (List UInt8) Nat), ⟨[2], 0, 5, 0⟩,
        ⟨[3], 0, -3, 0⟩]).bind fun vs₀ =>
        runVoteSetCalls (fun _ _ => true) vs₀
          [.addVote ⟨[1], 0, 1, 0, 1, 1, 0⟩, .addVote ⟨[3], 2, 1, 0, 1, (1 : Nat), (0 : Nat)⟩]).map
          (fun vs => (vs.maj23, (vs.votesByBlock.find? 1).map (·.sum))) =
        some (some 1, some 2) := by
      decide +kernel
    obtain ⟨vs, hvs, hf⟩ := Option.map_eq_some_iff.1 hrun
    obtain ⟨vs₀, h₀, h₁⟩ := Option.bind_eq_some_iff.1 hvs
    refine ⟨vs₀, vs, h₀, h₁, fun h => ?_⟩
    simp only [Prod.mk.injEq, Option.map_eq_some_iff] at hf
    obtain ⟨hmaj, bv, hk, hsum⟩ := hf
    obtain ⟨bv', hk', hq⟩ := h 1 hmaj
    rw [hk] at hk'
    cases hk'
    rw [hsum] at hq
    exact absurd hq (by decide)

end IntChain
