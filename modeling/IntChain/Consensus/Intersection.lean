import IntChain.Consensus.VoteSetInvariant

/-!
# Quorum intersection of the loose threshold

The threshold `Loose23MajorThreshold` of a round is more than half the total voting power, so
two groups of validators that each carry it share validators carrying at least twice the
threshold less the total, a positive power. This holds for the votes for two blocks in a vote set
of any run, through the invariant that their sums are the power of their validators, and for
two commits that `VerifyCommit` accepts. It needs that no validator has a negative voting power:
a negative power lets two disjoint groups each reach the threshold.
-/

namespace IntChain

variable {κ β σ : Type}

/-- In a vote set with the invariant, the votes for two blocks that each carry the threshold of
a round share validators carrying twice the threshold less the total. -/
theorem VoteSet.Inv.block_inter_weight [DecidableEq β] {vs : VoteSet κ β σ} (hI : vs.Inv)
    (hpow : ∀ v ∈ vs.valSet, 0 ≤ v.votingPower) {A B : β} {bvA bvB : BlockVotes β σ}
    (hA : vs.votesByBlock.find? A = some bvA) (hB : vs.votesByBlock.find? B = some bvB) {r : Int}
    (hqA : loose23MajorThreshold (powerTotal vs.valSet) r ≤ bvA.sum)
    (hqB : loose23MajorThreshold (powerTotal vs.valSet) r ≤ bvB.sum) :
    2 * loose23MajorThreshold (powerTotal vs.valSet) r - powerTotal vs.valSet ≤
      ∑ i ∈ (Finset.range vs.valSet.length).filter
        (fun i => (bvA.voteAt i).isSome ∧ (bvB.voteAt i).isSome), powerAt vs.valSet i ∧
    0 < 2 * loose23MajorThreshold (powerTotal vs.valSet) r - powerTotal vs.valSet := by
  have hbA := hI.block A bvA hA
  have hbB := hI.block B bvB hB
  rw [hbA.sum] at hqA
  rw [hbB.sum] at hqB
  have h := marked_inter_weight hpow hqA hqB
  rwa [hbA.marked_eq, hbB.marked_eq, ← Finset.filter_and] at h

/-- Two commits that the same validators accept at one round mark common validators carrying
twice the threshold less the total. -/
theorem verifyCommit_inter_weight {α : Type} {verifyBytes : List κ → Commit β σ → Bool}
    {validators : List (Validator α κ)} (hpow : ∀ v ∈ validators, 0 ≤ v.votingPower)
    {height : Nat} {c₁ c₂ : Commit β σ} (hround : c₁.round = c₂.round)
    (h₁ : verifyCommit verifyBytes validators height c₁ = .ok ())
    (h₂ : verifyCommit verifyBytes validators height c₂ = .ok ()) :
    2 * loose23MajorThreshold (powerTotal validators) c₁.round - powerTotal validators ≤
      ∑ i ∈ marked c₁.bitArray validators.length ∩ marked c₂.bitArray validators.length,
        powerAt validators i ∧
    0 < 2 * loose23MajorThreshold (powerTotal validators) c₁.round - powerTotal validators := by
  have hq₁ := (verifyCommit_eq_ok h₁).2.2
  have hq₂ := (verifyCommit_eq_ok h₂).2.2
  rw [← hround] at hq₂
  exact marked_inter_weight hpow hq₁ hq₂

/-- The threshold is more than half a positive total and at most the total, and falls as the
round grows. With no negative voting power, the votes for two blocks in a vote set of any run
that each carry the threshold of its round share validators carrying twice the threshold less
the total, which is positive; so do two commits that `VerifyCommit` accepts at one height
and round. -/
theorem loose23MajorThreshold_quorum_intersection {α : Type} [DecidableEq β] [DecidableEq σ] :
    (∀ T r : Int, 1 ≤ T → 0 ≤ r →
      T < 2 * loose23MajorThreshold T r ∧ loose23MajorThreshold T r ≤ T ∧
        ∀ r', r ≤ r' → loose23MajorThreshold T r' ≤ loose23MajorThreshold T r) ∧
    (∀ (verifyBytes : κ → Vote β σ → Bool) (height : Nat) (round : Int) (type_ : UInt8)
      (valSet : List (Validator (List UInt8) κ)) (vs₀ vs : VoteSet κ β σ)
      (calls : List (VoteSetCall β σ)) (A B : β) (bvA bvB : BlockVotes β σ),
      (∀ v ∈ valSet, 0 ≤ v.votingPower) →
      newVoteSet height round type_ valSet = some vs₀ →
      runVoteSetCalls verifyBytes vs₀ calls = some vs →
      vs.votesByBlock.find? A = some bvA → vs.votesByBlock.find? B = some bvB →
      loose23MajorThreshold (powerTotal valSet) round ≤ bvA.sum →
      loose23MajorThreshold (powerTotal valSet) round ≤ bvB.sum →
      2 * loose23MajorThreshold (powerTotal valSet) round - powerTotal valSet ≤
        ∑ i ∈ (Finset.range valSet.length).filter
          (fun i => (bvA.voteAt i).isSome ∧ (bvB.voteAt i).isSome), powerAt valSet i ∧
      0 < 2 * loose23MajorThreshold (powerTotal valSet) round - powerTotal valSet) ∧
    (∀ (verifyBytes : List κ → Commit β σ → Bool) (validators : List (Validator α κ))
      (height : Nat) (c₁ c₂ : Commit β σ),
      (∀ v ∈ validators, 0 ≤ v.votingPower) → c₁.round = c₂.round →
      verifyCommit verifyBytes validators height c₁ = .ok () →
      verifyCommit verifyBytes validators height c₂ = .ok () →
      2 * loose23MajorThreshold (powerTotal validators) c₁.round - powerTotal validators ≤
        ∑ i ∈ marked c₁.bitArray validators.length ∩ marked c₂.bitArray validators.length,
          powerAt validators i ∧
      0 < 2 * loose23MajorThreshold (powerTotal validators) c₁.round - powerTotal validators) := by
  refine ⟨fun T r hT hr => ?_, ?_, ?_⟩
  · exact ⟨lt_two_mul_loose23MajorThreshold (by omega) r, loose23MajorThreshold_le hT hr,
      fun r' h => loose23MajorThreshold_antitone (by omega) h⟩
  · intro verifyBytes height round type_ valSet vs₀ vs calls A B bvA bvB hpow h₀ h₁ hA hB hqA hqB
    obtain ⟨hI₀, -⟩ := VoteSet.Inv.newVoteSet h₀
    obtain ⟨hI, hg, -⟩ := hI₀.runVoteSetCalls verifyBytes h₁
    -- the run keeps the validators of the new set
    have hval : vs.valSet = valSet := hg.valSet.trans (newVoteSet_eq_some h₀).1
    rw [← hval] at hpow hqA hqB ⊢
    exact hI.block_inter_weight hpow hA hB hqA hqB
  · intro verifyBytes validators height c₁ c₂ hpow hround h₁ h₂
    exact verifyCommit_inter_weight hpow hround h₁ h₂

theorem loose23MajorThreshold_quorum_intersection_four_validators :
    (4 < 2 * loose23MajorThreshold 4 0 ∧ loose23MajorThreshold 4 0 ≤ 4 ∧
      loose23MajorThreshold 4 20 ≤ loose23MajorThreshold 4 0) ∧
    (∃ (vs₀ vs : VoteSet Nat Nat Nat) (bvA bvB : BlockVotes Nat Nat),
      newVoteSet 1 0 1 [⟨[1], 0, 1, 0⟩, ⟨[2], 0, 1, 0⟩, ⟨[3], 0, 1, 0⟩, ⟨[4], 0, 1, 0⟩] = some vs₀ ∧
      runVoteSetCalls (fun _ _ => true) vs₀
        [.setPeerMaj23 "peer" 2, .addVote ⟨[1], 0, 1, 0, 1, 1, 0⟩, .addVote ⟨[2], 1, 1, 0, 1, 1, 0⟩,
          .addVote ⟨[3], 2, 1, 0, 1, 1, 0⟩, .addVote ⟨[1], 0, 1, 0, 1, 2, 0⟩,
          .addVote ⟨[2], 1, 1, 0, 1, 2, 0⟩, .addVote ⟨[3], 2, 1, 0, 1, 2, 0⟩] = some vs ∧
      vs.votesByBlock.find? 1 = some bvA ∧ vs.votesByBlock.find? 2 = some bvB ∧
      2 * loose23MajorThreshold 4 0 - 4 ≤
        ∑ i ∈ (Finset.range 4).filter (fun i => (bvA.voteAt i).isSome ∧ (bvB.voteAt i).isSome),
          powerAt [(⟨[1], 0, 1, 0⟩ : Validator (List UInt8) Nat), ⟨[2], 0, 1, 0⟩, ⟨[3], 0, 1, 0⟩,
            ⟨[4], 0, 1, 0⟩] i) ∧
    (2 * loose23MajorThreshold 4 0 - 4 ≤
      ∑ i ∈ marked [true, true, true, false] 4 ∩ marked [false, true, true, true] 4,
        powerAt [(⟨[1], 0, 1, 0⟩ : Validator (List UInt8) Nat), ⟨[2], 0, 1, 0⟩, ⟨[3], 0, 1, 0⟩,
          ⟨[4], 0, 1, 0⟩] i) := by
  obtain ⟨hthreshold, hvoteSet, hcommit⟩ :=
    loose23MajorThreshold_quorum_intersection (κ := Nat) (β := Nat) (σ := Nat) (α := List UInt8)
  have hT : powerTotal [(⟨[1], 0, 1, 0⟩ : Validator (List UInt8) Nat), ⟨[2], 0, 1, 0⟩,
      ⟨[3], 0, 1, 0⟩, ⟨[4], 0, 1, 0⟩] = 4 := by decide
  have hpow : ∀ v ∈ [(⟨[1], 0, 1, 0⟩ : Validator (List UInt8) Nat), ⟨[2], 0, 1, 0⟩,
      ⟨[3], 0, 1, 0⟩, ⟨[4], 0, 1, 0⟩], 0 ≤ v.votingPower := by decide
  refine ⟨?_, ?_, ?_⟩
  · obtain ⟨h₁, h₂, h₃⟩ := hthreshold 4 0 (by decide) (by decide)
    exact ⟨h₁, h₂, h₃ 20 (by decide)⟩
  · -- three validators vote for block 1 and then, after a peer claimed it, for block 2
    have hrun : ((newVoteSet 1 0 1 [(⟨[1], 0, 1, 0⟩ : Validator (List UInt8) Nat), ⟨[2], 0, 1, 0⟩,
        ⟨[3], 0, 1, 0⟩, ⟨[4], 0, 1, 0⟩]).bind fun vs₀ =>
        (runVoteSetCalls (fun _ _ => true) vs₀
          [.setPeerMaj23 "peer" 2, .addVote ⟨[1], 0, 1, 0, 1, 1, 0⟩, .addVote ⟨[2], 1, 1, 0, 1, 1, 0⟩,
            .addVote ⟨[3], 2, 1, 0, 1, 1, 0⟩, .addVote ⟨[1], 0, 1, 0, 1, 2, 0⟩,
            .addVote ⟨[2], 1, 1, 0, 1, 2, 0⟩,
            .addVote ⟨[3], 2, 1, 0, 1, (2 : Nat), (0 : Nat)⟩]).map fun vs => (vs₀, vs)).map
          (fun p => ((p.2.votesByBlock.find? 1).map (·.sum), (p.2.votesByBlock.find? 2).map (·.sum))) =
        some (some 3, some 3) := by
      decide +kernel
    obtain ⟨⟨vs₀, vs⟩, hvs, hsums⟩ := Option.map_eq_some_iff.1 hrun
    obtain ⟨vs₀', h₀, hvs⟩ := Option.bind_eq_some_iff.1 hvs
    obtain ⟨vs', h₁, hvs⟩ := Option.map_eq_some_iff.1 hvs
    cases hvs
    simp only [Prod.mk.injEq, Option.map_eq_some_iff] at hsums
    obtain ⟨⟨bvA, hA, hsumA⟩, ⟨bvB, hB, hsumB⟩⟩ := hsums
    have hq : loose23MajorThreshold 4 0 = 3 := by decide
    have h := (hvoteSet _ _ _ _ _ _ _ _ _ _ _ _ hpow h₀ h₁ hA hB
      (by rw [hT, hsumA, hq]) (by rw [hT, hsumB, hq])).1
    rw [hT] at h
    exact ⟨vs₀, vs, bvA, bvB, h₀, h₁, hA, hB, h⟩
  · have h := (hcommit (fun _ _ => true) _ 1 ⟨1, 1, 0, 0, [true, true, true, false]⟩
      ⟨2, 1, 0, 0, [false, true, true, true]⟩ hpow rfl (by decide) (by decide)).1
    rw [hT] at h
    exact h

/-- With a negative voting power, two blocks' votes in a vote set, and two commits that
`VerifyCommit` accepts at one round, each carry the threshold with no validator in common. -/
theorem quorum_intersection_negative_power :
    (∃ (vs₀ vs : VoteSet Nat Nat Nat) (bvA bvB : BlockVotes Nat Nat),
      newVoteSet 1 0 1 [⟨[1], 0, 5, 0⟩, ⟨[2], 0, 5, 0⟩, ⟨[3], 0, -3, 0⟩] = some vs₀ ∧
      runVoteSetCalls (fun _ _ => true) vs₀
        [.addVote ⟨[1], 0, 1, 0, 1, 1, 0⟩, .addVote ⟨[2], 1, 1, 0, 1, 2, 0⟩] = some vs ∧
      vs.votesByBlock.find? 1 = some bvA ∧ vs.votesByBlock.find? 2 = some bvB ∧
      loose23MajorThreshold 7 0 ≤ bvA.sum ∧ loose23MajorThreshold 7 0 ≤ bvB.sum ∧
      (Finset.range 3).filter (fun i => (bvA.voteAt i).isSome ∧ (bvB.voteAt i).isSome) = ∅ ∧
      0 < 2 * loose23MajorThreshold 7 0 - 7) ∧
    (verifyCommit (fun _ _ => true)
        [(⟨[1], 0, 5, 0⟩ : Validator (List UInt8) Nat), ⟨[2], 0, 5, 0⟩, ⟨[3], 0, -3, 0⟩] 1
        (⟨1, 1, 0, 0, [true, false, false]⟩ : Commit Nat Nat) = .ok () ∧
      verifyCommit (fun _ _ => true)
        [(⟨[1], 0, 5, 0⟩ : Validator (List UInt8) Nat), ⟨[2], 0, 5, 0⟩, ⟨[3], 0, -3, 0⟩] 1
        (⟨2, 1, 0, 0, [false, true, false]⟩ : Commit Nat Nat) = .ok () ∧
      marked [true, false, false] 3 ∩ marked [false, true, false] 3 = ∅) := by
  refine ⟨?_, by decide, by decide, by decide⟩
  -- validator 0 votes for block 1 and validator 1 for block 2
  have hrun : ((newVoteSet 1 0 1 [(⟨[1], 0, 5, 0⟩ : Validator (List UInt8) Nat), ⟨[2], 0, 5, 0⟩,
      ⟨[3], 0, -3, 0⟩]).bind fun vs₀ =>
      (runVoteSetCalls (fun _ _ => true) vs₀
        [.addVote ⟨[1], 0, 1, 0, 1, 1, 0⟩, .addVote ⟨[2], 1, 1, 0, 1, (2 : Nat), (0 : Nat)⟩]).map
        fun vs => (vs₀, vs)).map
        (fun p => ((p.2.votesByBlock.find? 1).map (·.sum), (p.2.votesByBlock.find? 2).map (·.sum),
          (List.range 3).all fun i => !(((p.2.votesByBlock.find? 1).bind (·.voteAt i)).isSome &&
            ((p.2.votesByBlock.find? 2).bind (·.voteAt i)).isSome))) =
      some (some 5, some 5, true) := by
    decide +kernel
  obtain ⟨⟨vs₀, vs⟩, hvs, hf⟩ := Option.map_eq_some_iff.1 hrun
  obtain ⟨vs₀', h₀, hvs⟩ := Option.bind_eq_some_iff.1 hvs
  obtain ⟨vs', h₁, hvs⟩ := Option.map_eq_some_iff.1 hvs
  cases hvs
  simp only [Prod.mk.injEq, Option.map_eq_some_iff] at hf
  obtain ⟨⟨bvA, hA, hsumA⟩, ⟨bvB, hB, hsumB⟩, hdisj⟩ := hf
  refine ⟨vs₀, vs, bvA, bvB, h₀, h₁, hA, hB, by rw [hsumA]; decide, by rw [hsumB]; decide, ?_,
    by decide⟩
  -- the two blocks' votes are of different validators
  ext i
  simp only [Finset.mem_filter, Finset.mem_range, Finset.notMem_empty, iff_false, not_and]
  intro hi hAi hBi
  have h := List.all_eq_true.1 hdisj i (List.mem_range.2 hi)
  rw [hA, hB, Option.bind_some, Option.bind_some, hAi, hBi] at h
  cases h

end IntChain
