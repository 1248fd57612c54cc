import IntChain.Consensus.VoteSetInvariant

/-!
# The vote sets of a height

`HeightVoteSet` of `consensus/ipbft/consensus/height_vote_set.go`: the prevotes and precommits
of every round of one height, from round 0 up to the round the state machine is in, and the
rounds above it that catch-up votes of peers opened, at most two for each peer. `SetRound` opens
the rounds up to a new round, `ResetTop2Round` throws away the rounds from one below a lower
round up and opens the two again, and `AddVote` hands a vote to the set of its round and type,
first opening the round for a peer with catch-up rounds left. `POLInfo` looks for the last
round whose prevotes have a two-thirds majority.

The vote sets are those of `Consensus.VoteSet`. A set changed in place through its pointer is
written back into its round. A map of rounds is a `KeyMap`, a panic is `none` and a nil block
id is `none`. Rounds are `Int`, and `int(vote.Round)` is the round itself, as it is below 2^63.
-/

namespace IntChain

/-- `types.VoteTypePrevote`. -/
def voteTypePrevote : UInt8 := 0x01

/-- `types.VoteTypePrecommit`. -/
def voteTypePrecommit : UInt8 := 0x02

/-- `types.IsVoteTypeValid`. -/
def isVoteTypeValid (type_ : UInt8) : Bool :=
  type_ == voteTypePrevote || type_ == voteTypePrecommit

/-- `RoundVoteSet`. -/
structure RoundVoteSet (κ β σ : Type) where
  prevotes : VoteSet κ β σ
  precommits : VoteSet κ β σ

/-- `HeightVoteSet`; the chain id, the mutex and the logger are not kept. -/
structure HeightVoteSet (κ β σ : Type) where
  height : Nat
  valSet : List (Validator (List UInt8) κ)
  round : Int
  roundVoteSets : KeyMap Int (RoundVoteSet κ β σ)
  peerCatchupRounds : KeyMap String (List Int)

/-- The errors of `HeightVoteSet.AddVote`: a peer past its catch-up rounds
("Deal with peer giving votes from unwanted rounds"), or an error of the vote set. -/
inductive HeightVoteError (β σ : Type) where
  | unwantedRounds
  | voteSet (err : VoteError β σ)

/-- A call on a height vote set. -/
inductive HeightVoteSetCall (κ β σ : Type) where
  | reset (height : Nat) (valSet : List (Validator (List UInt8) κ))
  | setRound (round : Int)
  | resetTop2Round (round : Int)
  | addVote (vote : Vote β σ) (peerKey : String)

variable {κ β σ : Type}

namespace HeightVoteSet

/-- `addRound`: fresh prevotes and precommits of the height for the round. A round already
there is the panic `addRound() for an existing round`, and height zero the panic of
`NewVoteSet`. -/
def addRound (hvs : HeightVoteSet κ β σ) (round : Int) : Option (HeightVoteSet κ β σ) :=
  match hvs.roundVoteSets.find? round with
  | some _ => none
  | none => do
    let prevotes ← newVoteSet hvs.height round voteTypePrevote hvs.valSet
    let precommits ← newVoteSet hvs.height round voteTypePrecommit hvs.valSet
    pure { hvs with roundVoteSets := hvs.roundVoteSets.insert round ⟨prevotes, precommits⟩ }

/-- `Reset`: a new height and validator set, with round 0 open and no catch-up rounds. -/
def reset (hvs : HeightVoteSet κ β σ) (height : Nat) (valSet : List (Validator (List UInt8) κ)) :
    Option (HeightVoteSet κ β σ) :=
  let hvs := { hvs with
    height := height, valSet := valSet, roundVoteSets := KeyMap.empty,
    peerCatchupRounds := KeyMap.empty }
  (hvs.addRound 0).map fun hvs => { hvs with round := 0 }

/-- The loop of `SetRound` over `count` rounds from `r` on; a round that a catch-up vote of a
peer already opened is kept as it is. -/
def addRoundsFrom : Int → Nat → HeightVoteSet κ β σ → Option (HeightVoteSet κ β σ)
  | _, 0, hvs => some hvs
  | r, count + 1, hvs =>
    let next := match hvs.roundVoteSets.find? r with
      | some _ => some hvs
      | none => hvs.addRound r
    next.bind (addRoundsFrom (r + 1) count)

/-- `SetRound`: open the rounds up to `round`. Unless the set is at round 0, the new round has
to be past the current one. -/
def setRound (hvs : HeightVoteSet κ β σ) (round : Int) : Option (HeightVoteSet κ β σ) :=
  if hvs.round ≠ 0 ∧ round < hvs.round + 1 then none
  else (addRoundsFrom (hvs.round + 1) (round - hvs.round).toNat hvs).map
    fun hvs => { hvs with round := round }

/-- The loop of `ResetTop2Round` deleting `count` rounds from `r` on; deleting a round that is
not there changes nothing, as the check before `delete` has it. -/
def deleteRoundsFrom :
    Int → Nat → KeyMap Int (RoundVoteSet κ β σ) → KeyMap Int (RoundVoteSet κ β σ)
  | _, 0, m => m
  | r, count + 1, m => deleteRoundsFrom (r + 1) count (m.erase r)

/-- `ResetTop2Round`: drop the rounds from `round - 1` up to the current round, open
`round - 1` and `round` afresh and make `round` current. It may not be past the current round,
nor below 1. -/
def resetTop2Round (hvs : HeightVoteSet κ β σ) (round : Int) : Option (HeightVoteSet κ β σ) :=
  if hvs.round < round ∨ round < 1 then none
  else
    let hvs' := { hvs with
      roundVoteSets := deleteRoundsFrom (round - 1) (hvs.round - round + 2).toNat hvs.roundVoteSets }
    ((hvs'.addRound (round - 1)).bind (·.addRound round)).map fun hvs => { hvs with round := round }

/-- `getVoteSet`; a round with no sets is a nil set. Every caller checks the type first, so the
panic `Unexpected vote type` is never reached: a type other than a prevote reads the
precommits. -/
def getVoteSet (hvs : HeightVoteSet κ β σ) (round : Int) (type_ : UInt8) :
    Option (VoteSet κ β σ) :=
  (hvs.roundVoteSets.find? round).map fun rvs =>
    if type_ = voteTypePrevote then rvs.prevotes else rvs.precommits

/-- Write back the vote set of a round and type that `AddVote` changed in place. -/
def setVoteSet (hvs : HeightVoteSet κ β σ) (round : Int) (type_ : UInt8) (vs : VoteSet κ β σ) :
    HeightVoteSet κ β σ :=
  match hvs.roundVoteSets.find? round with
  | some rvs =>
    { hvs with
      roundVoteSets := hvs.roundVoteSets.insert round
        (if type_ = voteTypePrevote then { rvs with prevotes := vs }
          else { rvs with precommits := vs }) }
  | none => hvs

section AddVote

variable [DecidableEq β] [DecidableEq σ]

/-- `voteSet.AddVote(vote)` on the set of the vote's round and type, written back. -/
def addVoteTo (verifyBytes : κ → Vote β σ → Bool) (hvs : HeightVoteSet κ β σ) (vote : Vote β σ)
    (vs : VoteSet κ β σ) : Option (HeightVoteSet κ β σ × Bool × Option (HeightVoteError β σ)) :=
  (vs.addVote verifyBytes vote).map fun (vs, added, err) =>
    (hvs.setVoteSet vote.round vote.type_ vs, added, err.map .voteSet)

/-- `AddVote`: a vote of a type other than prevote and precommit is ignored. A vote of a round
with no sets opens the round when its peer has catch-up rounds left, and is refused otherwise. -/
def addVote (verifyBytes : κ → Vote β σ → Bool) (hvs : HeightVoteSet κ β σ) (vote : Vote β σ)
    (peerKey : String) : Option (HeightVoteSet κ β σ × Bool × Option (HeightVoteError β σ)) :=
  if !isVoteTypeValid vote.type_ then some (hvs, false, none)
  else match hvs.getVoteSet vote.round vote.type_ with
    | some vs => hvs.addVoteTo verifyBytes vote vs
    | none =>
      let rndz := hvs.peerCatchupRounds.findD peerKey []
      if rndz.length < 2 then
        (hvs.addRound vote.round).bind fun hvs =>
          let voteSet := hvs.getVoteSet vote.round vote.type_
          let hvs := { hvs with
            peerCatchupRounds := hvs.peerCatchupRounds.insert peerKey (rndz ++ [(vote.round : Int)]) }
          -- `AddVote` on a nil set would be the panic `AddVote() on nil VoteSet`
          voteSet.bind (hvs.addVoteTo verifyBytes vote)
      else some (hvs, false, some .unwantedRounds)

end AddVote

/-- `TwoThirdsMajority` of the prevotes of a round: a nil set has none. -/
def prevoteMaj23 (hvs : HeightVoteSet κ β σ) (round : Int) : Option β :=
  (hvs.getVoteSet round voteTypePrevote).bind (·.maj23)

/-- The loop of `POLInfo` from round `r` down to round 0. -/
def polInfoFrom (hvs : HeightVoteSet κ β σ) : Nat → Option (Nat × β)
  | 0 => (hvs.prevoteMaj23 0).map fun b => (0, b)
  | r + 1 =>
    match hvs.prevoteMaj23 (r + 1) with
    | some b => some (r + 1, b)
    | none => hvs.polInfoFrom r

/-- `POLInfo`: the last round up to the current one whose prevotes have a two-thirds majority,
with the block of the majority, or -1 and a nil block. -/
def polInfo (hvs : HeightVoteSet κ β σ) : Int × Option β :=
  if hvs.round < 0 then (-1, none)
  else match hvs.polInfoFrom hvs.round.toNat with
    | some (r, b) => (r, some b)
    | none => (-1, none)

end HeightVoteSet

/-- `NewHeightVoteSet`. -/
def newHeightVoteSet (height : Nat) (valSet : List (Validator (List UInt8) κ)) :
    Option (HeightVoteSet κ β σ) :=
  HeightVoteSet.reset ⟨height, valSet, 0, KeyMap.empty, KeyMap.empty⟩ height valSet

/-- One call; a panic ends the run. -/
def HeightVoteSetCall.run [DecidableEq β] [DecidableEq σ] (verifyBytes : κ → Vote β σ → Bool) :
    HeightVoteSetCall κ β σ → HeightVoteSet κ β σ → Option (HeightVoteSet κ β σ)
  | .reset height valSet, hvs => hvs.reset height valSet
  | .setRound round, hvs => hvs.setRound round
  | .resetTop2Round round, hvs => hvs.resetTop2Round round
  | .addVote vote peerKey, hvs => (hvs.addVote verifyBytes vote peerKey).map (·.1)

/-- A run of calls on a height vote set. -/
def runHeightVoteSetCalls [DecidableEq β] [DecidableEq σ] (verifyBytes : κ → Vote β σ → Bool)
    (hvs : HeightVoteSet κ β σ) (calls : List (HeightVoteSetCall κ β σ)) :
    Option (HeightVoteSet κ β σ) :=
  calls.foldlM (fun hvs call => call.run verifyBytes hvs) hvs

/-! ### What a call keeps -/

section Invariant

variable [DecidableEq β]

/-- A vote set of the height, round and type over the validators, keeping the invariant of a
vote set. -/
structure VoteSet.Fits (height : Nat) (valSet : List (Validator (List UInt8) κ)) (round : Int)
    (type_ : UInt8) (vs : VoteSet κ β σ) : Prop where
  height : vs.height = height
  valSet : vs.valSet = valSet
  round : vs.round = round
  type_ : vs.type_ = type_
  inv : vs.Inv

/-- The prevotes and precommits of a round of the height. -/
def RoundVoteSet.Fits (height : Nat) (valSet : List (Validator (List UInt8) κ)) (round : Int)
    (rvs : RoundVoteSet κ β σ) : Prop :=
  rvs.prevotes.Fits height valSet round voteTypePrevote ∧
    rvs.precommits.Fits height valSet round voteTypePrecommit

theorem VoteSet.Fits.of_newVoteSet {height : Nat} {round : Int} {type_ : UInt8}
    {valSet : List (Validator (List UInt8) κ)} {vs : VoteSet κ β σ}
    (h : newVoteSet height round type_ valSet = some vs) : vs.Fits height valSet round type_ := by
  have hinv := (VoteSet.Inv.newVoteSet h).1
  unfold newVoteSet at h
  split_ifs at h
  cases h
  exact ⟨rfl, rfl, rfl, rfl, hinv⟩

namespace VoteSet

variable {vs vs' : VoteSet κ β σ} {vote : Vote β σ} {votingPower : Int}

theorem addToBlock_header (vs : VoteSet κ β σ) (vote : Vote β σ) (votingPower : Int)
    (bv : BlockVotes β σ) (conflicting : Option (Vote β σ)) :
    (vs.addToBlock vote votingPower bv conflicting).1.height = vs.height ∧
      (vs.addToBlock vote votingPower bv conflicting).1.type_ = vs.type_ := by
  unfold addToBlock
  split
  · exact ⟨rfl, rfl⟩
  · dsimp only
    split_ifs <;> exact ⟨rfl, rfl⟩

theorem addToVotesByBlock_header (vs : VoteSet κ β σ) (vote : Vote β σ) (votingPower : Int)
    (conflicting : Option (Vote β σ)) :
    (vs.addToVotesByBlock vote votingPower conflicting).1.height = vs.height ∧
      (vs.addToVotesByBlock vote votingPower conflicting).1.type_ = vs.type_ := by
  unfold addToVotesByBlock
  split
  · split_ifs
    · exact ⟨rfl, rfl⟩
    · exact addToBlock_header ..
  · split_ifs
    · exact ⟨rfl, rfl⟩
    · exact addToBlock_header ..

theorem placeVote_header {conflicting : Option (Vote β σ)}
    (h : vs.placeVote vote votingPower = some (vs', conflicting)) :
    vs'.height = vs.height ∧ vs'.type_ = vs.type_ := by
  unfold placeVote at h
  split at h
  · split_ifs at h <;> (cases h; exact ⟨rfl, rfl⟩)
  · cases h
    exact ⟨rfl, rfl⟩

/-- `addVerifiedVote` keeps the height and the type of the set. -/
theorem addVerifiedVote_header {added : Bool} {conflicting : Option (Vote β σ)}
    (h : vs.addVerifiedVote vote votingPower = some (vs', added, conflicting)) :
    vs'.height = vs.height ∧ vs'.type_ = vs.type_ := by
  unfold addVerifiedVote at h
  obtain ⟨⟨vs₁, c₁⟩, hplace, h⟩ := Option.map_eq_some_iff.1 h
  dsimp only at h
  have h₁ := placeVote_header hplace
  have h₂ := addToVotesByBlock_header vs₁ vote votingPower c₁
  rw [h] at h₂
  exact ⟨h₂.1.trans h₁.1, h₂.2.trans h₁.2⟩

/-- `AddVote` keeps a set fitting its height, round and type. -/
theorem Fits.addVote [DecidableEq σ] (verifyBytes : κ → Vote β σ → Bool) {height : Nat}
    {valSet : List (Validator (List UInt8) κ)} {round : Int} {type_ : UInt8}
    (hf : vs.Fits height valSet round type_) {r : VoteSet κ β σ × Bool × Option (VoteError β σ)}
    (h : vs.addVote verifyBytes vote = some r) : r.1.Fits height valSet round type_ := by
  obtain ⟨hinv, hgrow, -⟩ := hf.inv.addVote verifyBytes h
  have hheader : r.1.height = vs.height ∧ r.1.type_ = vs.type_ := by
    rcases addVote_eq_some verifyBytes h with hr | ⟨-, -, -, added, c, hadd⟩
    · rw [hr]
      exact ⟨rfl, rfl⟩
    · exact addVerifiedVote_header hadd
  exact ⟨hheader.1.trans hf.height, hgrow.valSet.trans hf.valSet, hgrow.round.trans hf.round,
    hheader.2.trans hf.type_, hinv⟩

end VoteSet

namespace HeightVoteSet

/-- The sets of every round are of the height, the validators and the round. -/
def EntriesFit (hvs : HeightVoteSet κ β σ) : Prop :=
  ∀ r rvs, hvs.roundVoteSets.find? r = some rvs → rvs.Fits hvs.height hvs.valSet r

/-- The invariant of a height vote set: the rounds from 0 to the current one are open, the sets
of every round are of the height, the validators and the round and keep the invariant of a vote
set, and no peer has more than two catch-up rounds. -/
structure Inv (hvs : HeightVoteSet κ β σ) : Prop where
  rounds : ∀ r : Int, 0 ≤ r → r ≤ hvs.round → (hvs.roundVoteSets.find? r).isSome
  fits : hvs.EntriesFit
  catchup : ∀ peer rounds, hvs.peerCatchupRounds.find? peer = some rounds → rounds.length ≤ 2

/-- What opening a round or adding a vote does: no round is dropped, the sets of every round
still fit, and the height, the validators, the current round and the catch-up rounds stay. -/
structure Grows (hvs hvs' : HeightVoteSet κ β σ) : Prop where
  height : hvs'.height = hvs.height
  valSet : hvs'.valSet = hvs.valSet
  round : hvs'.round = hvs.round
  peerCatchupRounds : hvs'.peerCatchupRounds = hvs.peerCatchupRounds
  keeps : ∀ r, (hvs.roundVoteSets.find? r).isSome → (hvs'.roundVoteSets.find? r).isSome
  fits : hvs.EntriesFit → hvs'.EntriesFit

variable {hvs hvs' hvs'' : HeightVoteSet κ β σ}

theorem Grows.refl (hvs : HeightVoteSet κ β σ) : hvs.Grows hvs :=
  ⟨rfl, rfl, rfl, rfl, fun _ h => h, id⟩

theorem Grows.trans (h₁ : hvs.Grows hvs') (h₂ : hvs'.Grows hvs'') : hvs.Grows hvs'' where
  height := h₂.height.trans h₁.height
  valSet := h₂.valSet.trans h₁.valSet
  round := h₂.round.trans h₁.round
  peerCatchupRounds := h₂.peerCatchupRounds.trans h₁.peerCatchupRounds
  keeps r hr := h₂.keeps r (h₁.keeps r hr)
  fits hf := h₂.fits (h₁.fits hf)

theorem Inv.grows (hI : hvs.Inv) (hg : hvs.Grows hvs') : hvs'.Inv where
  rounds r hr₀ hr := hg.keeps r (hI.rounds r hr₀ (hg.round ▸ hr))
  fits := hg.fits hI.fits
  catchup peer rounds hp := hI.catchup peer rounds (hg.peerCatchupRounds ▸ hp)

/-- Sets of the height for a round keep the sets of every round fitting. -/
theorem EntriesFit.insert (hf : hvs.EntriesFit) {r : Int} {rvs : RoundVoteSet κ β σ}
    (hr : rvs.Fits hvs.height hvs.valSet r) :
    { hvs with roundVoteSets := hvs.roundVoteSets.insert r rvs }.EntriesFit := by
  intro k rvs' hk
  simp only [KeyMap.find?_insert] at hk
  split_ifs at hk with hkr
  · cases hk
    subst hkr
    exact hr
  · exact hf k rvs' hk

theorem addRound_eq_some {r : Int} (h : hvs.addRound r = some hvs') :
    hvs.roundVoteSets.find? r = none ∧ ∃ rvs : RoundVoteSet κ β σ,
      rvs.Fits hvs.height hvs.valSet r ∧
      hvs' = { hvs with roundVoteSets := hvs.roundVoteSets.insert r rvs } := by
  unfold addRound at h
  split at h
  · cases h
  · rename_i hnone
    obtain ⟨prevotes, hp, h⟩ := Option.bind_eq_some_iff.1 h
    obtain ⟨precommits, hc, h⟩ := Option.bind_eq_some_iff.1 h
    cases h
    exact ⟨hnone, ⟨prevotes, precommits⟩, ⟨.of_newVoteSet hp, .of_newVoteSet hc⟩, rfl⟩

/-- `addRound` opens its round. -/
theorem Grows.addRound {r : Int} (h : hvs.addRound r = some hvs') :
    hvs.Grows hvs' ∧ (hvs'.roundVoteSets.find? r).isSome := by
  obtain ⟨-, rvs, hrvs, rfl⟩ := addRound_eq_some h
  refine ⟨⟨rfl, rfl, rfl, rfl, fun k hk => ?_, fun hf => hf.insert hrvs⟩, ?_⟩
  · by_cases hkr : k = r <;> simp [KeyMap.find?_insert, hkr, hk]
  · simp [KeyMap.find?_insert]

/-- The loop of `SetRound` opens each of its rounds. -/
theorem Grows.addRoundsFrom {r : Int} {count : Nat} (h : addRoundsFrom r count hvs = some hvs') :
    hvs.Grows hvs' ∧ ∀ k, r ≤ k → k < r + count → (hvs'.roundVoteSets.find? k).isSome := by
  induction count generalizing r hvs with
  | zero =>
    cases h
    exact ⟨.refl _, fun k h₁ h₂ => by omega⟩
  | succ count ih =>
    unfold HeightVoteSet.addRoundsFrom at h
    obtain ⟨hvs₁, h₁, h⟩ := Option.bind_eq_some_iff.1 h
    -- round `r` is open after the first step, whether a catch-up vote or `addRound` opened it
    have hstep : hvs.Grows hvs₁ ∧ (hvs₁.roundVoteSets.find? r).isSome := by
      split at h₁
      · rename_i rvs hr
        cases h₁
        exact ⟨.refl hvs, by simp [hr]⟩
      · exact Grows.addRound h₁
    obtain ⟨hgrow, hrest⟩ := ih h
    refine ⟨hstep.1.trans hgrow, fun k hk₁ hk₂ => ?_⟩
    by_cases hk : k = r
    · subst hk
      exact hgrow.keeps k hstep.2
    · exact hrest k (by omega) (by omega)

/-- `SetRound` keeps the invariant: a round up to the old one was open, and the loop opened the
others. -/
theorem Inv.setRound (hI : hvs.Inv) {round : Int} (h : hvs.setRound round = some hvs') :
    hvs'.Inv := by
  unfold HeightVoteSet.setRound at h
  split_ifs at h
  obtain ⟨hvs₁, h₁, rfl⟩ := Option.map_eq_some_iff.1 h
  obtain ⟨hgrow, hnew⟩ := Grows.addRoundsFrom h₁
  refine ⟨fun r hr₀ hr => ?_, hgrow.fits hI.fits, fun peer rounds hp => ?_⟩
  · change r ≤ round at hr
    by_cases hold : r ≤ hvs.round
    · exact hgrow.keeps r (hI.rounds r hr₀ hold)
    · exact hnew r (by omega) (by omega)
  · exact hI.catchup peer rounds (hgrow.peerCatchupRounds ▸ hp)

omit [DecidableEq β] in
theorem find?_deleteRoundsFrom (r : Int) (count : Nat) (m : KeyMap Int (RoundVoteSet κ β σ))
    (k : Int) :
    (deleteRoundsFrom r count m).find? k = if r ≤ k ∧ k < r + count then none else m.find? k := by
  induction count generalizing r m with
  | zero => simp [deleteRoundsFrom]
  | succ count ih =>
    rw [deleteRoundsFrom, ih, KeyMap.find?_erase]
    split_ifs <;> first | rfl | omega

/-- `ResetTop2Round` keeps the invariant: the rounds below `round - 1` are left as they were,
and the two above are opened afresh. -/
theorem Inv.resetTop2Round (hI : hvs.Inv) {round : Int} (h : hvs.resetTop2Round round = some hvs') :
    hvs'.Inv := by
  unfold HeightVoteSet.resetTop2Round at h
  split_ifs at h with hbad
  obtain ⟨hvs₃, h₃, rfl⟩ := Option.map_eq_some_iff.1 h
  obtain ⟨hvs₂, h₂, h₃⟩ := Option.bind_eq_some_iff.1 h₃
  obtain ⟨hgrow₂, hprev⟩ := Grows.addRound h₂
  obtain ⟨hgrow₃, hcur⟩ := Grows.addRound h₃
  have hgrow := hgrow₂.trans hgrow₃
  refine ⟨fun r hr₀ hr => ?_, hgrow.fits fun k rvs hk => ?_, fun peer rounds hp => ?_⟩
  · change r ≤ round at hr
    rcases lt_trichotomy r (round - 1) with hlt | heq | hgt
    · apply hgrow.keeps
      change ((deleteRoundsFrom _ _ hvs.roundVoteSets).find? r).isSome
      rw [find?_deleteRoundsFrom, if_neg (by omega)]
      exact hI.rounds r hr₀ (by omega)
    · subst heq
      exact hgrow₃.keeps _ hprev
    · obtain rfl : r = round := by omega
      exact hcur
  · change (deleteRoundsFrom _ _ hvs.roundVoteSets).find? k = some rvs at hk
    rw [find?_deleteRoundsFrom] at hk
    split_ifs at hk
    exact hI.fits k rvs hk
  · exact hI.catchup peer rounds (hgrow.peerCatchupRounds ▸ hp)

/-- `Reset` sets up the invariant, whatever the set held. -/
theorem Inv.reset {height : Nat} {valSet : List (Validator (List UInt8) κ)}
    (h : hvs.reset height valSet = some hvs') : hvs'.Inv := by
  unfold HeightVoteSet.reset at h
  obtain ⟨hvs₁, h₁, rfl⟩ := Option.map_eq_some_iff.1 h
  obtain ⟨hgrow, hzero⟩ := Grows.addRound h₁
  refine ⟨fun r hr₀ hr => ?_, hgrow.fits fun k rvs hk => ?_, fun peer rounds hp => ?_⟩
  · change r ≤ 0 at hr
    obtain rfl : r = 0 := by omega
    exact hzero
  · simp at hk
  · rw [hgrow.peerCatchupRounds] at hp
    simp at hp

theorem eq_precommit_of_valid {type_ : UInt8} (ht : isVoteTypeValid type_ = true)
    (hp : ¬ type_ = voteTypePrevote) : type_ = voteTypePrecommit := by
  simpa [isVoteTypeValid, hp] using ht

/-- The set of a round and a valid type is the set of that type of the round. -/
theorem EntriesFit.getVoteSet (hf : hvs.EntriesFit) {r : Int} {type_ : UInt8}
    (ht : isVoteTypeValid type_ = true) {vs : VoteSet κ β σ} (h : hvs.getVoteSet r type_ = some vs) :
    vs.Fits hvs.height hvs.valSet r type_ := by
  unfold HeightVoteSet.getVoteSet at h
  obtain ⟨rvs, hr, rfl⟩ := Option.map_eq_some_iff.1 h
  have hfit := hf r rvs hr
  split_ifs with hp
  · subst hp
    exact hfit.1
  · rw [eq_precommit_of_valid ht hp]
    exact hfit.2

/-- Writing back a set of a round's type that still fits only changes that set. -/
theorem Grows.setVoteSet {r : Int} {type_ : UInt8} (ht : isVoteTypeValid type_ = true)
    {vs : VoteSet κ β σ} (hvs' : vs.Fits hvs.height hvs.valSet r type_) :
    hvs.Grows (hvs.setVoteSet r type_ vs) := by
  unfold HeightVoteSet.setVoteSet
  split
  · rename_i rvs hr
    refine ⟨rfl, rfl, rfl, rfl, fun k hk => ?_, fun hf => hf.insert ?_⟩
    · by_cases hkr : k = r <;> simp [KeyMap.find?_insert, hkr, hk]
    · have hfit := hf r rvs hr
      split_ifs with hp
      · subst hp
        exact ⟨hvs', hfit.2⟩
      · rw [eq_precommit_of_valid ht hp] at hvs'
        exact ⟨hfit.1, hvs'⟩
  · exact .refl _

variable [DecidableEq σ] (verifyBytes : κ → Vote β σ → Bool)

/-- A vote added to the set of its round and type only changes that set. -/
theorem Grows.addVoteTo (hf : hvs.EntriesFit) {vote : Vote β σ}
    (ht : isVoteTypeValid vote.type_ = true) {vs : VoteSet κ β σ}
    (hget : hvs.getVoteSet vote.round vote.type_ = some vs)
    {r : HeightVoteSet κ β σ × Bool × Option (HeightVoteError β σ)}
    (h : hvs.addVoteTo verifyBytes vote vs = some r) : hvs.Grows r.1 := by
  unfold HeightVoteSet.addVoteTo at h
  obtain ⟨⟨vs', added, err⟩, hadd, rfl⟩ := Option.map_eq_some_iff.1 h
  exact Grows.setVoteSet ht ((hf.getVoteSet ht hget).addVote verifyBytes hadd)

/-- `AddVote` keeps the invariant. A vote of an open round only changes the set of its type; a
vote of another round opens it, and its peer, with fewer than two catch-up rounds before, has
at most two after. -/
theorem Inv.addVote (hI : hvs.Inv) {vote : Vote β σ} {peerKey : String}
    {r : HeightVoteSet κ β σ × Bool × Option (HeightVoteError β σ)}
    (h : hvs.addVote verifyBytes vote peerKey = some r) : r.1.Inv := by
  unfold HeightVoteSet.addVote at h
  split_ifs at h with hvalid
  · cases h
    exact hI
  have ht : isVoteTypeValid vote.type_ = true := by simpa using hvalid
  split at h
  · rename_i vs hget
    exact hI.grows (Grows.addVoteTo verifyBytes hI.fits ht hget h)
  · dsimp only at h
    split_ifs at h with hlen
    · obtain ⟨hvs₁, h₁, h⟩ := Option.bind_eq_some_iff.1 h
      obtain ⟨vs, hget, h⟩ := Option.bind_eq_some_iff.1 h
      obtain ⟨hgrow, hopen⟩ := Grows.addRound h₁
      -- the state once the peer's new catch-up round is recorded
      have hI₂ : { hvs₁ with
          peerCatchupRounds := hvs₁.peerCatchupRounds.insert peerKey
            (hvs.peerCatchupRounds.findD peerKey [] ++ [(vote.round : Int)]) }.Inv := by
        refine ⟨fun k hk₀ hk => hgrow.keeps k (hI.rounds k hk₀ (hgrow.round ▸ hk)),
          hgrow.fits hI.fits, fun peer rounds hp => ?_⟩
        change (hvs₁.peerCatchupRounds.insert _ _).find? peer = some rounds at hp
        rw [KeyMap.find?_insert] at hp
        split_ifs at hp
        · cases hp
          rw [List.length_append, List.length_singleton]
          omega
        · rw [hgrow.peerCatchupRounds] at hp
          exact hI.catchup peer rounds hp
      exact hI₂.grows (Grows.addVoteTo verifyBytes hI₂.fits ht hget h)
    · cases h
      exact hI

/-- One call keeps the invariant. -/
theorem Inv.call (hI : hvs.Inv) {call : HeightVoteSetCall κ β σ}
    (h : call.run verifyBytes hvs = some hvs') : hvs'.Inv := by
  cases call with
  | reset height valSet => exact Inv.reset h
  | setRound round => exact hI.setRound h
  | resetTop2Round round => exact hI.resetTop2Round h
  | addVote vote peerKey =>
    obtain ⟨r, hr, rfl⟩ := Option.map_eq_some_iff.1 h
    exact hI.addVote verifyBytes hr

/-- Every run of calls that does not panic keeps the invariant. -/
theorem Inv.runHeightVoteSetCalls (hI : hvs.Inv) {calls : List (HeightVoteSetCall κ β σ)}
    (h : runHeightVoteSetCalls verifyBytes hvs calls = some hvs') : hvs'.Inv :=
  Run.foldlM_invariant _ Inv (fun _ _ _ hIe hstep => hIe.call verifyBytes hstep) h hI

end HeightVoteSet

end Invariant

/-! ### `POLInfo` -/

namespace HeightVoteSet

variable (hvs : HeightVoteSet κ β σ)

theorem polInfoFrom_eq_none_iff (n : Nat) :
    hvs.polInfoFrom n = none ↔ ∀ r : Nat, r ≤ n → hvs.prevoteMaj23 r = none := by
  induction n with
  | zero =>
    rw [polInfoFrom, Option.map_eq_none_iff]
    constructor
    · intro h r hr
      obtain rfl : r = 0 := by omega
      exact h
    · intro h
      exact h 0 le_rfl
  | succ n ih =>
    rw [polInfoFrom]
    cases hn : hvs.prevoteMaj23 (n + 1) with
    | some b =>
      constructor
      · intro h
        cases h
      · intro h
        have := h (n + 1) le_rfl
        push_cast at this
        rw [hn] at this
        cases this
    | none =>
      rw [ih]
      constructor
      · intro h r hr
        rcases Nat.lt_or_eq_of_le hr with hlt | rfl
        · exact h r (by omega)
        · push_cast
          exact hn
      · intro h r hr
        exact h r (by omega)

theorem polInfoFrom_eq_some_iff (n r : Nat) (b : β) :
    hvs.polInfoFrom n = some (r, b) ↔ r ≤ n ∧ hvs.prevoteMaj23 r = some b ∧
      ∀ r' : Nat, r < r' → r' ≤ n → hvs.prevoteMaj23 r' = none := by
  induction n with
  | zero =>
    rw [polInfoFrom, Option.map_eq_some_iff]
    constructor
    · rintro ⟨b', hb', heq⟩
      cases heq
      exact ⟨le_rfl, hb', fun r' h₁ h₂ => by omega⟩
    · rintro ⟨hr, hb, -⟩
      obtain rfl : r = 0 := by omega
      exact ⟨b, hb, rfl⟩
  | succ n ih =>
    rw [polInfoFrom]
    cases hn : hvs.prevoteMaj23 (n + 1) with
    | some b' =>
      -- round `n + 1` has a majority, so it is the last one with one
      constructor
      · intro h
        cases h
        refine ⟨le_rfl, ?_, fun r' h₁ h₂ => by omega⟩
        push_cast
        exact hn
      · rintro ⟨hr, hb, hlast⟩
        rcases Nat.lt_or_eq_of_le hr with hlt | rfl
        · have := hlast (n + 1) hlt le_rfl
          push_cast at this
          rw [hn] at this
          cases this
        · push_cast at hb
          rw [hn] at hb
          cases hb
          rfl
    | none =>
      rw [ih]
      constructor
      · rintro ⟨hr, hb, hlast⟩
        refine ⟨by omega, hb, fun r' h₁ h₂ => ?_⟩
        rcases Nat.lt_or_eq_of_le h₂ with hlt | rfl
        · exact hlast r' h₁ (by omega)
        · push_cast
          exact hn
      · rintro ⟨hr, hb, hlast⟩
        have hrn : r ≤ n := by
          rcases Nat.lt_or_eq_of_le hr with hlt | rfl
          · omega
          · push_cast at hb
            rw [hn] at hb
            cases hb
        exact ⟨hrn, hb, fun r' h₁ h₂ => hlast r' h₁ (by omega)⟩

/-- `POLInfo` returns a round and a block exactly for the last round up to the current one
whose prevotes have a two-thirds majority, and the block of that majority. -/
theorem polInfo_eq_some_iff (r : Int) (b : β) :
    hvs.polInfo = (r, some b) ↔ 0 ≤ r ∧ r ≤ hvs.round ∧ hvs.prevoteMaj23 r = some b ∧
      ∀ r', r < r' → r' ≤ hvs.round → hvs.prevoteMaj23 r' = none := by
  unfold polInfo
  split_ifs with hneg
  · constructor
    · intro h
      cases h
    · rintro ⟨h₀, h₁, -⟩
      omega
  cases h : hvs.polInfoFrom hvs.round.toNat with
  | none =>
    constructor
    · intro h'
      cases h'
    · rintro ⟨h₀, h₁, hb, -⟩
      have := (polInfoFrom_eq_none_iff hvs _).1 h r.toNat (by omega)
      rw [Int.toNat_of_nonneg h₀, hb] at this
      cases this
  | some p =>
    obtain ⟨r₀, b₀⟩ := p
    obtain ⟨hr₀, hb₀, hlast⟩ := (polInfoFrom_eq_some_iff hvs _ r₀ b₀).1 h
    have hlast' : ∀ r', (r₀ : Int) < r' → r' ≤ hvs.round → hvs.prevoteMaj23 r' = none := by
      intro r' h₁ h₂
      have := hlast r'.toNat (by omega) (by omega)
      rwa [Int.toNat_of_nonneg (by omega)] at this
    constructor
    · intro h'
      cases h'
      exact ⟨by omega, by omega, hb₀, hlast'⟩
    · rintro ⟨h₀, h₁, hb, hafter⟩
      -- both rounds are the last with a majority
      have hr : (r₀ : Int) = r := by
        rcases lt_trichotomy (r₀ : Int) r with hlt | heq | hgt
        · rw [hlast' r hlt h₁] at hb
          cases hb
        · exact heq
        · rw [hafter r₀ hgt (by omega)] at hb₀
          cases hb₀
      subst hr
      rw [hb₀] at hb
      cases hb
      rfl

/-- `POLInfo` returns -1 and a nil block exactly when no round up to the current one has a
two-thirds majority of prevotes. -/
theorem polInfo_eq_none_iff :
    hvs.polInfo = (-1, none) ↔ ∀ r, 0 ≤ r → r ≤ hvs.round → hvs.prevoteMaj23 r = none := by
  unfold polInfo
  split_ifs with hneg
  · exact ⟨fun _ r h₀ h₁ => by omega, fun _ => rfl⟩
  cases h : hvs.polInfoFrom hvs.round.toNat with
  | none =>
    refine ⟨fun _ r h₀ h₁ => ?_, fun _ => rfl⟩
    have := (polInfoFrom_eq_none_iff hvs _).1 h r.toNat (by omega)
    rwa [Int.toNat_of_nonneg h₀] at this
  | some p =>
    obtain ⟨r₀, b₀⟩ := p
    obtain ⟨hr₀, hb₀, -⟩ := (polInfoFrom_eq_some_iff hvs _ r₀ b₀).1 h
    constructor
    · intro h'
      cases h'
    · intro hall
      rw [hall r₀ (by omega) (by omega)] at hb₀
      cases hb₀

end HeightVoteSet

/-- Along every run of calls on a new height vote set that does not panic: the rounds from 0 to
the current one are open; the prevotes and precommits of every round are of the height, the
validators and the round, and keep the invariant of a vote set; no peer has more than two
catch-up rounds; and `POLInfo` returns the last round up to the current one whose prevotes have
a two-thirds majority, with its block, or -1 when there is none. -/
theorem heightVoteSet_run_invariant [DecidableEq β] [DecidableEq σ]
    (verifyBytes : κ → Vote β σ → Bool) {height : Nat} {valSet : List (Validator (List UInt8) κ)}
    {hvs₀ hvs : HeightVoteSet κ β σ} {calls : List (HeightVoteSetCall κ β σ)}
    (h₀ : newHeightVoteSet height valSet = some hvs₀)
    (h : runHeightVoteSetCalls verifyBytes hvs₀ calls = some hvs) :
    (∀ r : Int, 0 ≤ r → r ≤ hvs.round → (hvs.roundVoteSets.find? r).isSome) ∧
    (∀ r rvs, hvs.roundVoteSets.find? r = some rvs → rvs.Fits hvs.height hvs.valSet r) ∧
    (∀ peer rounds, hvs.peerCatchupRounds.find? peer = some rounds → rounds.length ≤ 2) ∧
    (∀ r b, hvs.polInfo = (r, some b) ↔ 0 ≤ r ∧ r ≤ hvs.round ∧ hvs.prevoteMaj23 r = some b ∧
      ∀ r', r < r' → r' ≤ hvs.round → hvs.prevoteMaj23 r' = none) ∧
    (hvs.polInfo = (-1, none) ↔ ∀ r, 0 ≤ r → r ≤ hvs.round → hvs.prevoteMaj23 r = none) := by
  have hI := (HeightVoteSet.Inv.reset h₀).runHeightVoteSetCalls verifyBytes h
  exact ⟨hI.rounds, hI.fits, hI.catchup, hvs.polInfo_eq_some_iff, hvs.polInfo_eq_none_iff⟩

theorem heightVoteSet_run_invariant_catchup_then_reset :
    ∃ hvs : HeightVoteSet Nat Nat Nat,
      (∃ hvs₀, newHeightVoteSet 1 [⟨[1], 0, 1, 0⟩] = some hvs₀ ∧
        runHeightVoteSetCalls (fun _ _ => true) hvs₀
          [.setRound 2, .addVote ⟨[1], 0, 1, 5, 1, 7, 0⟩ "peer", .resetTop2Round 1,
            .addVote ⟨[1], 0, 1, 1, 1, 7, 0⟩ ""] = some hvs) ∧
      hvs.round = 1 ∧ (hvs.roundVoteSets.find? 5).isSome ∧ hvs.polInfo = (1, some 7) ∧
      hvs.prevoteMaj23 1 = some 7 ∧ (hvs.roundVoteSets.find? 0).isSome := by
  have hrun : ((newHeightVoteSet 1 [(⟨[1], 0, 1, 0⟩ : Validator (List UInt8) Nat)]).bind
      fun hvs₀ => (runHeightVoteSetCalls (fun _ _ => true) hvs₀
        [.setRound 2, .addVote ⟨[1], 0, 1, 5, 1, (7 : Nat), (0 : Nat)⟩ "peer", .resetTop2Round 1,
          .addVote ⟨[1], 0, 1, 1, 1, 7, 0⟩ ""]).map fun hvs => (hvs₀, hvs)).map
        (fun p => (p.2.round, (p.2.roundVoteSets.find? 5).isSome, p.2.polInfo)) =
      some (1, true, (1, some 7)) := by
    decide +kernel
  obtain ⟨⟨hvs₀, hvs⟩, hp, hf⟩ := Option.map_eq_some_iff.1 hrun
  obtain ⟨hvs₀', h₀, hp⟩ := Option.bind_eq_some_iff.1 hp
  obtain ⟨hvs', h, hp⟩ := Option.map_eq_some_iff.1 hp
  cases hp
  simp only [Prod.mk.injEq] at hf
  obtain ⟨hround, h5, hpol⟩ := hf
  obtain ⟨hrounds, -, -, hpolInfo, -⟩ := heightVoteSet_run_invariant (fun _ _ => true) h₀ h
  exact ⟨hvs, ⟨hvs₀, h₀, h⟩, hround, h5, hpol, ((hpolInfo 1 7).1 hpol).2.2.1,
    hrounds 0 le_rfl (by rw [hround]; decide)⟩

end IntChain
