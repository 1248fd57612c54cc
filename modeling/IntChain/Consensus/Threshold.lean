import IntChain.Epoch.ValidatorSet
import IntChain.Lib.Quorum
import Mathlib.Algebra.Order.BigOperators.Group.Finset

/-!
# The loose two-thirds threshold and commit verification

`Loose23MajorThreshold` of `consensus/ipbft/types/vote_set.go` and `TalliedVotingPower` and
`VerifyCommit` of `consensus/ipbft/types/validator_set.go`. The threshold for a total voting
power `T` at round `r` is `⌊((60 - min r 15) * T + 90) / 90⌋`: two thirds of `T` plus one at
round zero, falling by `T / 90` a round down to half of `T` plus one from round fifteen on. It
stays above half of `T`, so two sets of validators that each reach it share a validator of
positive power when no power is negative, and `VerifyCommit` cannot accept commits for two
blocks at one height and round unless some validator is marked in both.
-/

namespace IntChain

/-- `LooseRound`. -/
def looseRound : Int := 30

/-- `HalfLooseRound`. -/
def halfLooseRound : Int := 15

/-- `Loose23MajorThreshold`. -/
def loose23MajorThreshold (totalVotingPower : Int) (round : Int) : Int :=
  let round := if round ≥ halfLooseRound then halfLooseRound else round
  (totalVotingPower * (2 * looseRound - round) + 3 * looseRound) / (3 * looseRound)

section Threshold

variable {T r : Int}

/-- The factor of the total at a round: `60` at round zero, `45` from round fifteen on. -/
theorem loose23MajorThreshold_eq (T r : Int) :
    loose23MajorThreshold T r = (T * (60 - min r 15) + 90) / 90 := by
  unfold loose23MajorThreshold looseRound halfLooseRound
  dsimp only
  split_ifs with h
  · rw [min_eq_right h]
    norm_num
  · rw [min_eq_left (by omega)]
    norm_num

/-- The division that defines the threshold, as two inequalities. -/
theorem loose23MajorThreshold_bounds (T r : Int) :
    90 * loose23MajorThreshold T r ≤ T * (60 - min r 15) + 90 ∧
      T * (60 - min r 15) + 90 < 90 * loose23MajorThreshold T r + 90 := by
  rw [loose23MajorThreshold_eq]
  constructor
  · exact Int.mul_ediv_self_le (by omega)
  · exact Int.lt_mul_ediv_self_add (by omega)

/-- The threshold is above half of a non-negative total, at every round. -/
theorem lt_two_mul_loose23MajorThreshold (hT : 0 ≤ T) (r : Int) :
    T < 2 * loose23MajorThreshold T r := by
  have hb := (loose23MajorThreshold_bounds T r).2
  -- the factor is at least 45
  have hfac : T * 45 ≤ T * (60 - min r 15) :=
    Int.mul_le_mul_of_nonneg_left (by omega) hT
  omega

/-- From round zero on, the threshold of a positive total is at most the total. -/
theorem loose23MajorThreshold_le (hT : 1 ≤ T) (hr : 0 ≤ r) : loose23MajorThreshold T r ≤ T := by
  have hb := (loose23MajorThreshold_bounds T r).1
  -- the factor is at most 60
  have hfac : T * (60 - min r 15) ≤ T * 60 :=
    Int.mul_le_mul_of_nonneg_left (by omega) (by omega)
  omega

/-- The threshold does not grow with the round. -/
theorem loose23MajorThreshold_antitone (hT : 0 ≤ T) {r r' : Int} (h : r ≤ r') :
    loose23MajorThreshold T r' ≤ loose23MajorThreshold T r := by
  rw [loose23MajorThreshold_eq, loose23MajorThreshold_eq]
  apply Int.ediv_le_ediv (by omega)
  have hfac : T * (60 - min r' 15) ≤ T * (60 - min r 15) :=
    Int.mul_le_mul_of_nonneg_left (by omega) hT
  omega

end Threshold

/-! ### Tallies over a bit array -/

section Tally

variable {α κ : Type}

/-- `validators[i].VotingPower`. -/
def powerAt (validators : List (Validator α κ)) (i : Nat) : Int :=
  ((validators[i]?).map (·.votingPower)).getD 0

/-- The voting power of all validators, the `totalVotes` of `TalliedVotingPower`. -/
def powerTotal (validators : List (Validator α κ)) : Int :=
  ∑ i ∈ Finset.range validators.length, powerAt validators i

/-- The validators a bit array marks, among the first `n`. -/
def marked (bitMap : List Bool) (n : Nat) : Finset Nat :=
  (Finset.range n).filter fun i => bitMap.getD i false

/-- One pass of the loop of `TalliedVotingPower`: the count and power of the marked validators
and the power of all. -/
def tallyStep (validators : List (Validator α κ)) (bitMap : List Bool)
    (acc : Nat × Int × Int) (i : Nat) : Nat × Int × Int :=
  if bitMap.getD i false then
    (acc.1 + 1, acc.2.1 + powerAt validators i, acc.2.2 + powerAt validators i)
  else (acc.1, acc.2.1, acc.2.2 + powerAt validators i)

/-- `TalliedVotingPower`: the number of validators the bit array marks, their voting power and
the voting power of all, or the error of a bit array of another size. -/
def talliedVotingPower (validators : List (Validator α κ)) (bitMap : List Bool) :
    Except String (Nat × Int × Int) :=
  if validators.length ≠ bitMap.length then
    let valSize := validators.length
    let bitSize := bitMap.length
    .error s!"size is not equal, validators size:{valSize}, bitmap size:{bitSize}"
  else .ok ((List.range bitMap.length).foldl (tallyStep validators bitMap) (0, 0, 0))

theorem foldl_tallyStep (validators : List (Validator α κ)) (bitMap : List Bool) (n : Nat) :
    (List.range n).foldl (tallyStep validators bitMap) (0, 0, 0) =
      ((marked bitMap n).card, ∑ i ∈ marked bitMap n, powerAt validators i,
        ∑ i ∈ Finset.range n, powerAt validators i) := by
  induction n with
  | zero => rfl
  | succ n ih =>
    rw [List.range_succ, List.foldl_append, ih, List.foldl_cons, List.foldl_nil, tallyStep]
    have hn : n ∉ marked bitMap n := by simp [marked]
    by_cases hb : bitMap.getD n false = true
    · have hm : marked bitMap (n + 1) = insert n (marked bitMap n) := by
        rw [marked, Finset.range_add_one, Finset.filter_insert, if_pos hb]
        rfl
      rw [if_pos hb, hm, Finset.card_insert_of_notMem hn, Finset.sum_insert hn,
        Finset.sum_range_succ, add_comm (powerAt validators n)]
    · have hm : marked bitMap (n + 1) = marked bitMap n := by
        rw [marked, Finset.range_add_one, Finset.filter_insert, if_neg hb]
        rfl
      rw [if_neg hb, hm, Finset.sum_range_succ]

/-- A tally of a bit array of the right size. -/
theorem talliedVotingPower_ok {validators : List (Validator α κ)} {bitMap : List Bool}
    (h : validators.length = bitMap.length) :
    talliedVotingPower validators bitMap =
      .ok ((marked bitMap validators.length).card,
        ∑ i ∈ marked bitMap validators.length, powerAt validators i, powerTotal validators) := by
  rw [talliedVotingPower, if_neg (not_not.2 h), foldl_tallyStep, ← h]
  rfl

theorem powerAt_nonneg {validators : List (Validator α κ)}
    (hpow : ∀ v ∈ validators, 0 ≤ v.votingPower) (i : Nat) : 0 ≤ powerAt validators i := by
  unfold powerAt
  cases hv : validators[i]? with
  | none => exact le_rfl
  | some v => exact hpow v (List.mem_of_getElem? hv)

/-- Two bit arrays whose validators each carry the threshold of a round mark common validators
carrying at least twice the threshold less the total, which is positive. -/
theorem marked_inter_weight {validators : List (Validator α κ)}
    (hpow : ∀ v ∈ validators, 0 ≤ v.votingPower) {b₁ b₂ : List Bool} {r : Int}
    (h₁ : loose23MajorThreshold (powerTotal validators) r ≤
      ∑ i ∈ marked b₁ validators.length, powerAt validators i)
    (h₂ : loose23MajorThreshold (powerTotal validators) r ≤
      ∑ i ∈ marked b₂ validators.length, powerAt validators i) :
    2 * loose23MajorThreshold (powerTotal validators) r -
        powerTotal validators ≤
      ∑ i ∈ marked b₁ validators.length ∩ marked b₂ validators.length, powerAt validators i ∧
    0 < 2 * loose23MajorThreshold (powerTotal validators) r -
        powerTotal validators := by
  unfold powerTotal at h₁ h₂ ⊢
  have hw : ∀ i ∈ Finset.range validators.length, 0 ≤ powerAt validators i :=
    fun i _ => powerAt_nonneg hpow i
  have hT : 0 ≤ ∑ i ∈ Finset.range validators.length, powerAt validators i := Finset.sum_nonneg hw
  have hinter := Quorum.weight_inter_ge hw (Finset.filter_subset _ _) (Finset.filter_subset _ _)
    (A := marked b₁ validators.length) (B := marked b₂ validators.length)
  have hhalf := lt_two_mul_loose23MajorThreshold hT r
  constructor
  · omega
  · omega

end Tally

/-! ### VerifyCommit -/

/-- `types.Commit`; the votes it was made from are not kept. -/
structure Commit (β σ : Type) where
  blockID : β
  height : Nat
  round : Int
  signAggr : σ
  bitArray : List Bool

/-- The errors of `VerifyCommit`, one for each of its messages. -/
inductive CommitError where
  /-- `invalid commit -- wrong set size: %v vs %v` -/
  | wrongSetSize (valSetSize bitArraySize : Nat)
  /-- `invalid commit -- wrong height: %v vs %v` -/
  | wrongHeight (height commitHeight : Nat)
  /-- `invalid commit -- wrong Signature:%v or BitArray:%v` -/
  | wrongSignature
  /-- an error of `TalliedVotingPower` -/
  | tally (msg : String)
  /-- `invalid commit -- insufficient voting power: got %v, needed %v` -/
  | insufficientVotingPower (got needed : Int)
  deriving DecidableEq, Repr

section VerifyCommit

variable {α κ β σ : Type}

/-- `AggrPubKey` of a bit array of the right size: the public keys of the marked validators, in
order, that the aggregate signature is checked against. -/
def aggrPubKey (validators : List (Validator α κ)) (bitMap : List Bool) : List κ :=
  (List.range bitMap.length).filterMap fun i =>
    if bitMap.getD i false then (validators[i]?).map (·.pubKey) else none

/-- `VerifyCommit`. `verifyBytes pks commit` is the check of the commit's aggregate signature
against the aggregate of the keys `pks`, over the sign bytes of the commit's vote. -/
def verifyCommit (verifyBytes : List κ → Commit β σ → Bool) (validators : List (Validator α κ))
    (height : Nat) (commit : Commit β σ) : Except CommitError Unit :=
  if validators.length ≠ commit.bitArray.length then
    .error (.wrongSetSize validators.length commit.bitArray.length)
  else if height ≠ commit.height then .error (.wrongHeight height commit.height)
  else if !verifyBytes (aggrPubKey validators commit.bitArray) commit then .error .wrongSignature
  else match talliedVotingPower validators commit.bitArray with
    | .error msg => .error (.tally msg)
    | .ok (_, votesSum, totalVotes) =>
      let quorum := loose23MajorThreshold totalVotes commit.round
      if votesSum ≥ quorum then .ok () else .error (.insufficientVotingPower votesSum quorum)

/-- An accepted commit has one bit per validator, and the validators it marks carry the
threshold of the round. -/
theorem verifyCommit_eq_ok {verifyBytes : List κ → Commit β σ → Bool}
    {validators : List (Validator α κ)} {height : Nat} {commit : Commit β σ}
    (h : verifyCommit verifyBytes validators height commit = .ok ()) :
    validators.length = commit.bitArray.length ∧ commit.height = height ∧
      loose23MajorThreshold (powerTotal validators)
        commit.round ≤ ∑ i ∈ marked commit.bitArray validators.length, powerAt validators i := by
  unfold verifyCommit at h
  split_ifs at h with hsize hheight hsig
  rw [not_not] at hsize hheight
  rw [talliedVotingPower_ok hsize] at h
  refine ⟨hsize, hheight.symm, ?_⟩
  -- the last check is the threshold
  by_contra hlt
  simp only [ge_iff_le, if_neg hlt, reduceCtorEq] at h

end VerifyCommit

end IntChain
