import IntChain.Epoch.Switch
import IntChain.Lib.Run
import Mathlib.Data.List.Sort

/-!
# Step 2 of the epoch switch: the next validators

`ShouldEnterNewEpoch` and `DryRunUpdateEpochValidatorSet` first walk the validators with an
index that a removal holds in place (`refreshVotingPower`), then merge the votes of the next
epoch and knock out the validators beyond the size of the set (`updateEpochValidatorSet`).

On a set with distinct addresses the walk is a filter: every validator is read once, in order,
and what is left are the validators with a non-zero recomputed power, in their order, with that
power. The walk is given its length as fuel and never needs more.
-/

namespace IntChain

variable {α κ : Type} [DecidableEq α]

section Refresh

variable (power : α → Int)

/-- What the walk makes of one validator: dropped at zero power, else given its power. -/
def refreshed (v : Validator α κ) : Option (Validator α κ) :=
  if power v.address = 0 then none else some { v with votingPower := power v.address }

omit [DecidableEq α] in
theorem address_refreshed {v w : Validator α κ} (h : refreshed power v = some w) :
    w.address = v.address := by
  unfold refreshed at h
  split_ifs at h
  cases h
  rfl

/-- The walk from the first unvisited validator: the visited ones are already filtered, the
rest are read in order. -/
theorem refreshVotingPower_append (rest : List (Validator α κ)) :
    ∀ (done : List (Validator α κ)) (fuel : Nat), rest.length ≤ fuel →
      ((done ++ rest).map (·.address)).Nodup →
      refreshVotingPower power fuel done.length (done ++ rest) =
          done ++ rest.filterMap (refreshed power) ∧
        refreshVotingPowerVisits power fuel done.length (done ++ rest) = rest.map (·.address) := by
  induction rest with
  | nil =>
    intro done fuel _ _
    cases fuel with
    | zero => exact ⟨by simp [refreshVotingPower], rfl⟩
    | succ fuel => simp [refreshVotingPower, refreshVotingPowerVisits]
  | cons v rest ih =>
    intro done fuel hfuel hnd
    obtain ⟨fuel, rfl⟩ : ∃ f, fuel = f + 1 := ⟨fuel - 1, by simp at hfuel; omega⟩
    have hi : done.length < (done ++ v :: rest).length := by simp
    have hget : (done ++ v :: rest)[done.length]? = some v := by simp
    rw [refreshVotingPower, refreshVotingPowerVisits, hget]
    dsimp only
    by_cases hp : power v.address = 0
    · -- the validator is removed where it stands and the index stays
      have hrem : ValidatorSet.remove (done ++ v :: rest) v.address = (done ++ rest, some v) := by
        have h := ValidatorSet.remove_getElem hnd hi
        simpa [List.eraseIdx_append_of_length_le] using h
      have hnd' : ((done ++ rest).map (·.address)).Nodup := by
        apply List.Nodup.sublist _ hnd
        apply List.Sublist.map
        exact List.Sublist.append_left (List.sublist_cons_self v rest) done
      obtain ⟨h₁, h₂⟩ := ih done fuel (by simp at hfuel; omega) hnd'
      rw [if_pos hp, if_pos hp, hrem]
      refine ⟨?_, ?_⟩
      · rw [h₁, List.filterMap_cons, refreshed, if_pos hp]
      · rw [h₂, List.map_cons]
    · -- the validator gets its power and the index moves past it
      have hset : (done ++ v :: rest).set done.length { v with votingPower := power v.address } =
          (done ++ [{ v with votingPower := power v.address }]) ++ rest := by
        simp
      have hnd' : (((done ++ [{ v with votingPower := power v.address }]) ++ rest).map
          (fun w : Validator α κ => w.address)).Nodup := by
        simpa using hnd
      obtain ⟨h₁, h₂⟩ := ih (done ++ [{ v with votingPower := power v.address }]) fuel
        (by simp at hfuel; omega) hnd'
      rw [List.length_append, List.length_singleton] at h₁ h₂
      rw [if_neg hp, if_neg hp, hset]
      refine ⟨?_, ?_⟩
      · rw [h₁, List.filterMap_cons, refreshed, if_neg hp]
        simp
      · rw [h₂, List.map_cons]

/-- The filter-while-iterating loop of the epoch switch, on validators with distinct addresses
and with at least their number as fuel: it reads every validator once, in order, and keeps
exactly those with a non-zero recomputed power, in their order, each with that power. -/
theorem refreshVotingPower_eq_filterMap (vals : List (Validator α κ))
    (hnd : (vals.map (·.address)).Nodup) (fuel : Nat) (hfuel : vals.length ≤ fuel) :
    refreshVotingPower power fuel 0 vals = vals.filterMap (refreshed power) ∧
      refreshVotingPowerVisits power fuel 0 vals = vals.map (·.address) := by
  have h := refreshVotingPower_append power vals [] fuel hfuel hnd
  simpa using h

theorem refreshVotingPower_eq_filterMap_three :
    ([(⟨1, 0, 5, 0⟩ : Validator Nat Nat), ⟨2, 0, 7, 0⟩, ⟨3, 0, 1, 0⟩].map (·.address)).Nodup ∧
      refreshVotingPower (fun a : Nat => if a = 2 then 0 else 10 * (a : Int)) 3 0
          [(⟨1, 0, 5, 0⟩ : Validator Nat Nat), ⟨2, 0, 7, 0⟩, ⟨3, 0, 1, 0⟩] =
        [(⟨1, 0, 5, 0⟩ : Validator Nat Nat), ⟨2, 0, 7, 0⟩, ⟨3, 0, 1, 0⟩].filterMap
          (refreshed fun a : Nat => if a = 2 then 0 else 10 * (a : Int)) :=
  ⟨by decide, (refreshVotingPower_eq_filterMap (fun a : Nat => if a = 2 then 0 else 10 * (a : Int))
    [(⟨1, 0, 5, 0⟩ : Validator Nat Nat), ⟨2, 0, 7, 0⟩, ⟨3, 0, 1, 0⟩] (by decide) 3 le_rfl).1⟩

end Refresh

section Merge

/-- What one vote does to the refunds, the validators and the count of added validators: an
unrevealed vote nothing; a vote of a new address adds a validator with its amount; a zero vote
of a validator removes it and refunds its power; any other vote of a validator sets its power
to the amount and refunds a decrease. -/
theorem processVote_cases (r : List (RefundValidatorAmount α)) (vals : List (Validator α κ))
    (n : Nat) (v : EpochValidatorVote α κ) :
    (v.salt = "" ∧ processVote (r, vals, n) v = (r, vals, n)) ∨
    (v.salt ≠ "" ∧ v.address ∉ vals.map (·.address) ∧
      processVote (r, vals, n) v = (r, vals ++ [Validator.new v.address v.pubKey v.amount], n + 1)) ∨
    (v.salt ≠ "" ∧ ∃ i, ∃ hi : i < vals.length, vals[i].address = v.address ∧
      ((v.amount = 0 ∧ processVote (r, vals, n) v =
          (r ++ [⟨v.address, vals[i].votingPower, false⟩], vals.eraseIdx i, n)) ∨
        (v.amount ≠ 0 ∧ processVote (r, vals, n) v =
          ((if v.amount < vals[i].votingPower then
              r ++ [⟨v.address, vals[i].votingPower - v.amount, false⟩] else r),
            vals.set i { vals[i] with votingPower := v.amount }, n)))) := by
  unfold processVote
  dsimp only
  by_cases hs : v.salt = ""
  · exact .inl ⟨hs, by rw [if_pos hs]⟩
  rw [if_neg hs]
  cases hidx : ValidatorSet.indexOf vals v.address with
  | none =>
    -- a new address
    have hnot := ValidatorSet.indexOf_eq_none_iff.1 hidx
    refine .inr (.inl ⟨hs, hnot, ?_⟩)
    rw [ValidatorSet.getByAddress, hidx]
    dsimp only
    rw [ValidatorSet.add, if_neg (by simp [Validator.new, ValidatorSet.hasAddress_eq_false hnot])]
    rfl
  | some i =>
    -- a validator of the set, the first with the address
    obtain ⟨hi, ha⟩ := ValidatorSet.getElem_indexOf hidx
    refine .inr (.inr ⟨hs, i, hi, ha, ?_⟩)
    have hget : ValidatorSet.getByAddress vals v.address = some (i, vals[i]) := by
      rw [ValidatorSet.getByAddress, hidx]
      dsimp only
      rw [List.getElem?_eq_getElem hi, Option.map_some]
    rw [hget]
    dsimp only
    by_cases hz : v.amount = 0
    · refine .inl ⟨hz, ?_⟩
      have hrem : ValidatorSet.remove vals vals[i].address = (vals.eraseIdx i, some vals[i]) := by
        rw [ValidatorSet.remove, ha, hidx]
        dsimp only
        rw [List.getElem?_eq_getElem hi]
      rw [if_pos hz, hrem]
    · refine .inr ⟨hz, ?_⟩
      have hupd : ValidatorSet.update vals { vals[i] with votingPower := v.amount } =
          (vals.set i { vals[i] with votingPower := v.amount }, true) := by
        rw [ValidatorSet.update]
        dsimp only
        rw [ha, hidx]
      rw [if_neg hz, hupd]

omit [DecidableEq α] in
/-- Cutting out a validator of another address keeps `w`. -/
theorem mem_eraseIdx_of_address {vals : List (Validator α κ)} {i : Nat} (hi : i < vals.length)
    {w : Validator α κ} (hne : vals[i].address ≠ w.address) : w ∈ vals.eraseIdx i ↔ w ∈ vals := by
  constructor
  · exact List.mem_of_mem_eraseIdx
  · intro hw
    obtain ⟨j, hj, rfl⟩ := List.mem_iff_getElem.1 hw
    refine List.mem_eraseIdx_iff_getElem.2 ⟨j, hj, fun hji => ?_, rfl⟩
    subst hji
    exact hne rfl

omit [DecidableEq α] in
/-- Overwriting a validator of another address keeps `w`. -/
theorem mem_set_of_address {vals : List (Validator α κ)} {i : Nat} (hi : i < vals.length)
    {u w : Validator α κ} (hne : vals[i].address ≠ w.address) (hu : u.address ≠ w.address) :
    w ∈ vals.set i u ↔ w ∈ vals := by
  constructor
  · intro hw
    rcases List.mem_or_eq_of_mem_set hw with h | rfl
    · exact h
    · exact absurd rfl hu
  · intro hw
    obtain ⟨j, hj, rfl⟩ := List.mem_iff_getElem.1 hw
    have hji : i ≠ j := by
      rintro rfl
      exact hne rfl
    rw [List.mem_iff_getElem]
    exact ⟨j, by simpa using hj, List.getElem_set_ne hji _⟩

omit [DecidableEq α] in
theorem map_address_set {vals : List (Validator α κ)} {i : Nat} (hi : i < vals.length)
    {u : Validator α κ} (hu : u.address = vals[i].address) :
    (vals.set i u).map (·.address) = vals.map (·.address) := by
  rw [List.map_set, hu]
  have h := List.set_getElem_self (by simpa using hi : i < (vals.map (·.address)).length)
  simpa using h

/-- An address the merge has to account for: of an input validator or of a revealed vote among
`pre`. -/
def Seen (validators : List (Validator α κ)) (pre : List (EpochValidatorVote α κ)) (a : α) : Prop :=
  a ∈ validators.map (·.address) ∨ ∃ v ∈ pre, v.salt ≠ "" ∧ v.address = a

/-- A refund among `R` for the removal of `a` by a zero vote among `pre`, of its input power. -/
def RefundedFor (validators : List (Validator α κ)) (pre : List (EpochValidatorVote α κ))
    (R : List (RefundValidatorAmount α)) (a : α) : Prop :=
  ∃ r ∈ R, r.address = a ∧ r.voteout = false ∧
    (∃ w ∈ validators, w.address = a ∧ r.amount = w.votingPower) ∧
    ∃ v ∈ pre, v.address = a ∧ v.amount = 0 ∧ v.salt ≠ ""

omit [DecidableEq α] in
theorem Seen.of_append {validators : List (Validator α κ)} {pre : List (EpochValidatorVote α κ)}
    {v : EpochValidatorVote α κ} {a : α} (h : Seen validators (pre ++ [v]) a)
    (hv : v.salt ≠ "" → v.address ≠ a) : Seen validators pre a := by
  rcases h with h | ⟨v', hv', hs, ha⟩
  · exact .inl h
  · rcases List.mem_append.1 hv' with hv' | hv'
    · exact .inr ⟨v', hv', hs, ha⟩
    · rw [List.mem_singleton] at hv'
      subst hv'
      exact absurd ha (hv hs)

omit [DecidableEq α] in
theorem RefundedFor.mono {validators : List (Validator α κ)} {pre : List (EpochValidatorVote α κ)}
    {R R' : List (RefundValidatorAmount α)} {a : α} (h : RefundedFor validators pre R a)
    (hR : ∀ r ∈ R, r ∈ R') : RefundedFor validators pre R' a := by
  obtain ⟨r, hr, hrest⟩ := h
  exact ⟨r, hR r hr, hrest⟩

omit [DecidableEq α] in
theorem RefundedFor.snoc {validators : List (Validator α κ)} {pre : List (EpochValidatorVote α κ)}
    {R : List (RefundValidatorAmount α)} {a : α} (h : RefundedFor validators pre R a)
    (v : EpochValidatorVote α κ) : RefundedFor validators (pre ++ [v]) R a := by
  obtain ⟨r, hr, ha, hvo, hw, v', hv', hv'a⟩ := h
  exact ⟨r, hr, ha, hvo, hw, v', List.mem_append_left _ hv', hv'a⟩

/-- What the loop over the votes keeps after the votes `pre`: distinct addresses, positive
powers, the input validators of every address no vote touched yet, and a refund for every
address it accounts for and dropped. -/
structure MergeInv (validators : List (Validator α κ)) (pre : List (EpochValidatorVote α κ))
    (acc : List (RefundValidatorAmount α) × List (Validator α κ) × Nat) : Prop where
  nodup : (acc.2.1.map (·.address)).Nodup
  pos : ∀ w ∈ acc.2.1, 0 < w.votingPower
  frame : ∀ w : Validator α κ, w.address ∉ pre.map (·.address) → (w ∈ acc.2.1 ↔ w ∈ validators)
  refunded : ∀ a, Seen validators pre a → a ∉ acc.2.1.map (·.address) →
    RefundedFor validators pre acc.1 a

variable {validators : List (Validator α κ)}

omit [DecidableEq α] in
theorem MergeInv.init (hnd : (validators.map (·.address)).Nodup)
    (hpos : ∀ w ∈ validators, 0 < w.votingPower) : MergeInv validators [] ([], validators, 0) where
  nodup := hnd
  pos := hpos
  frame _ _ := Iff.rfl
  refunded a ha hnot := by
    rcases ha with ha | ⟨v, hv, -⟩
    · exact absurd ha hnot
    · cases hv

/-- One vote, of an address no earlier vote has, with a positive amount unless it is a zero
vote of an input validator, keeps the invariant. -/
theorem MergeInv.processVote {pre : List (EpochValidatorVote α κ)} {r : List (RefundValidatorAmount α)}
    {vals : List (Validator α κ)} {n : Nat} (h : MergeInv validators pre (r, vals, n))
    {v : EpochValidatorVote α κ} (hfresh : v.address ∉ pre.map (·.address))
    (hamt : v.salt ≠ "" → 0 < v.amount ∨ (v.amount = 0 ∧ v.address ∈ validators.map (·.address))) :
    MergeInv validators (pre ++ [v]) (IntChain.processVote (r, vals, n) v) := by
  -- an address without a vote in `pre ++ [v]` is not `v`'s and has none in `pre`
  have hframe : ∀ w : Validator α κ, w.address ∉ (pre ++ [v]).map (·.address) →
      w.address ≠ v.address ∧ w.address ∉ pre.map (·.address) := by
    intro w hw
    simp only [List.map_append, List.map_singleton, List.mem_append, List.mem_singleton,
      not_or] at hw
    exact ⟨hw.2, hw.1⟩
  rcases processVote_cases r vals n v with ⟨hs, heq⟩ | ⟨hs, hnot, heq⟩ |
    ⟨hs, i, hi, hia, ⟨hz, heq⟩ | ⟨hz, heq⟩⟩
  · -- an unrevealed vote changes nothing
    rw [heq]
    refine ⟨h.nodup, h.pos, fun w hw => h.frame w (hframe w hw).2, fun a ha hnot => ?_⟩
    exact (h.refunded a (ha.of_append fun hs' => absurd hs hs') hnot).snoc v
  · -- a new validator with the vote's amount
    rw [heq]
    -- the amount is positive: a zero vote of an input validator finds it in the set
    have hpos : 0 < v.amount := by
      rcases hamt hs with hpos | ⟨-, hin⟩
      · exact hpos
      · obtain ⟨u, hu, hua⟩ := List.mem_map.1 hin
        have hu' := (h.frame u (by rw [hua]; exact hfresh)).2 hu
        exact absurd (List.mem_map.2 ⟨u, hu', hua⟩) hnot
    refine ⟨?_, fun w hw => ?_, fun w hw => ?_, fun a ha hna => ?_⟩
    · have hfresh' : ∀ w ∈ vals, w.address ≠ v.address := fun w hw hwa =>
        hnot (List.mem_map.2 ⟨w, hw, hwa⟩)
      simpa [List.nodup_append, Validator.new] using And.intro h.nodup hfresh'
    · rcases List.mem_append.1 hw with hw | hw
      · exact h.pos w hw
      · rw [List.mem_singleton] at hw
        subst hw
        exact hpos
    · obtain ⟨hne, hpre⟩ := hframe w hw
      rw [← h.frame w hpre, List.mem_append, List.mem_singleton]
      constructor
      · rintro (hw' | rfl)
        · exact hw'
        · exact absurd rfl hne
      · exact .inl
    · have hav : a ≠ v.address := by
        rintro rfl
        exact hna (by simp [Validator.new])
      have hna' : a ∉ vals.map (·.address) := by
        intro h'
        apply hna
        rw [List.map_append, List.mem_append]
        exact .inl h'
      exact (h.refunded a (ha.of_append fun _ hva => hav hva.symm) hna').snoc v
  · -- a zero vote removes the validator and refunds its power
    rw [heq]
    refine ⟨?_, fun w hw => h.pos w (List.mem_of_mem_eraseIdx hw), fun w hw => ?_,
      fun a ha hna => ?_⟩
    · exact h.nodup.sublist ((List.eraseIdx_sublist vals i).map _)
    · obtain ⟨hne, hpre⟩ := hframe w hw
      rw [mem_eraseIdx_of_address hi (by rw [hia]; exact Ne.symm hne)]
      exact h.frame w hpre
    · by_cases hav : a = v.address
      · -- the refund of the removed validator, which is an input validator
        subst hav
        have hin : vals[i] ∈ validators := (h.frame vals[i] (by rw [hia]; exact hfresh)).1
          (List.getElem_mem hi)
        exact ⟨_, List.mem_append_right _ (List.mem_singleton_self _), rfl, rfl,
          ⟨vals[i], hin, hia, rfl⟩, v, List.mem_append_right _ (List.mem_singleton_self _), rfl, hz, hs⟩
      · have hna' : a ∉ vals.map (·.address) := by
          intro h'
          obtain ⟨w, hw, rfl⟩ := List.mem_map.1 h'
          exact hna (List.mem_map.2 ⟨w, (mem_eraseIdx_of_address hi (by rw [hia]; exact Ne.symm hav)).2 hw, rfl⟩)
        exact ((h.refunded a (ha.of_append fun _ hva => hav hva.symm) hna').snoc v).mono
          fun _ hr => List.mem_append_left _ hr
  · -- another vote of a validator sets its power
    rw [heq]
    have hpos : 0 < v.amount := by
      rcases hamt hs with hpos | ⟨hz', -⟩
      · exact hpos
      · exact absurd hz' hz
    have haddr : ({ vals[i] with votingPower := v.amount } : Validator α κ).address = vals[i].address := rfl
    refine ⟨?_, fun w hw => ?_, fun w hw => ?_, fun a ha hna => ?_⟩
    · rw [map_address_set hi haddr]
      exact h.nodup
    · rcases List.mem_or_eq_of_mem_set hw with hw | rfl
      · exact h.pos w hw
      · exact hpos
    · obtain ⟨hne, hpre⟩ := hframe w hw
      rw [mem_set_of_address hi (by rw [hia]; exact Ne.symm hne) (by rw [haddr, hia]; exact Ne.symm hne)]
      exact h.frame w hpre
    · rw [map_address_set hi haddr] at hna
      have hav : a ≠ v.address := by
        rintro rfl
        exact hna (List.mem_map.2 ⟨vals[i], List.getElem_mem hi, hia⟩)
      exact ((h.refunded a (ha.of_append fun _ hva => hav hva.symm) hna).snoc v).mono
        fun _ hr => by split_ifs <;> simp [hr]

omit [DecidableEq α] in
/-- A vote of an address that comes later in a list of distinct addresses has none before it. -/
theorem address_not_mem_prefix {pre rest : List (EpochValidatorVote α κ)}
    {v : EpochValidatorVote α κ} (hnd : ((pre ++ v :: rest).map (·.address)).Nodup) :
    v.address ∉ pre.map (·.address) := by
  intro hm
  rw [List.map_append, List.nodup_append] at hnd
  exact hnd.2.2 _ hm _ (by simp) rfl

/-- The loop over the votes keeps the invariant, when the votes have distinct addresses and every
revealed vote has a positive amount or is a zero vote of an input validator. -/
theorem mergeInv_foldl (hnd : (validators.map (·.address)).Nodup)
    (hpos : ∀ w ∈ validators, 0 < w.votingPower) {votes : List (EpochValidatorVote α κ)}
    (hvnd : (votes.map (·.address)).Nodup)
    (hamt : ∀ v ∈ votes, v.salt ≠ "" →
      0 < v.amount ∨ (v.amount = 0 ∧ v.address ∈ validators.map (·.address))) :
    MergeInv validators votes (votes.foldl IntChain.processVote ([], validators, 0)) := by
  refine Run.foldl_prefix_induction _ (MergeInv validators) (MergeInv.init hnd hpos) ?_
  intro pre v rest acc hsplit hinv
  obtain ⟨r, vals, n⟩ := acc
  have hv : v ∈ votes := by
    rw [← hsplit]
    simp
  apply hinv.processVote
  · rw [← hsplit] at hvnd
    exact address_not_mem_prefix hvnd
  · exact hamt v hv

/-- The count-down of a validator's remaining epochs at the switch. -/
def subRemainingEpoch (v : Validator α κ) : Validator α κ :=
  if 0 < v.remainingEpoch then { v with remainingEpoch := v.remainingEpoch - 1 } else v

omit [DecidableEq α] in
@[simp] theorem subRemainingEpoch_address (v : Validator α κ) :
    (subRemainingEpoch v).address = v.address := by
  unfold subRemainingEpoch
  split_ifs <;> rfl

omit [DecidableEq α] in
@[simp] theorem subRemainingEpoch_votingPower (v : Validator α κ) :
    (subRemainingEpoch v).votingPower = v.votingPower := by
  unfold subRemainingEpoch
  split_ifs <;> rfl

/-- The validators after the loop over the votes, with their remaining epochs counted down:
what `updateEpochValidatorSet` keeps or knocks out. -/
def mergedValidators (validators : List (Validator α κ)) (voteSet : EpochValidatorVoteSet α κ) :
    List (Validator α κ) :=
  (voteSet.votes.foldl IntChain.processVote ([], validators, 0)).2.1.map subRemainingEpoch

/-- `updateEpochValidatorSet` keeps the merged validators when they fit in the size it computes,
and otherwise keeps the first of them in the knock-out order and refunds the rest. -/
theorem updateEpochValidatorSet_cases
    (sortSlice : (Validator α κ → Validator α κ → Bool) → List (Validator α κ) → List (Validator α κ))
    (validators : List (Validator α κ)) (voteSet : EpochValidatorVoteSet α κ) :
    ∃ valSize ≤ maximumValidatorsSize,
      (mergedValidators validators voteSet).length ≤ valSize ∧
        updateEpochValidatorSet sortSlice validators voteSet =
          ((voteSet.votes.foldl IntChain.processVote ([], validators, 0)).1,
            mergedValidators validators voteSet) ∨
      valSize < (mergedValidators validators voteSet).length ∧
        updateEpochValidatorSet sortSlice validators voteSet =
          ((voteSet.votes.foldl IntChain.processVote ([], validators, 0)).1 ++
              ((sortSlice knockoutBefore (mergedValidators validators voteSet)).drop valSize).map
                fun k => ⟨k.address, 0, true⟩,
            (sortSlice knockoutBefore (mergedValidators validators voteSet)).take valSize) := by
  unfold updateEpochValidatorSet mergedValidators
  generalize voteSet.votes.foldl IntChain.processVote ([], validators, 0) = acc
  obtain ⟨R, vals, n⟩ := acc
  dsimp only
  simp only [List.length_map]
  refine ⟨max minimumValidatorsSize (min maximumValidatorsSize (validators.length + n)), ?_, ?_⟩
  · unfold minimumValidatorsSize maximumValidatorsSize
    omega
  · split_ifs with hlt
    · exact .inr ⟨hlt, rfl⟩
    · exact .inl ⟨by omega, rfl⟩

omit [DecidableEq α] in
/-- `b` does not go before `a` in the knock-out order when it has fewer remaining epochs, or as
many and no more power. -/
theorem knockoutBefore_eq_false_iff (a b : Validator α κ) :
    knockoutBefore b a = false ↔
      b.remainingEpoch < a.remainingEpoch ∨
        (b.remainingEpoch = a.remainingEpoch ∧ b.votingPower ≤ a.votingPower) := by
  unfold knockoutBefore
  split_ifs with h
  · simp only [decide_eq_false_iff_not, not_lt, h, lt_self_iff_false, true_and, false_or]
  · simp only [decide_eq_false_iff_not, not_lt, h, false_and, or_false]
    omega

theorem map_address_mergedValidators (voteSet : EpochValidatorVoteSet α κ) :
    (mergedValidators validators voteSet).map (·.address) =
      (voteSet.votes.foldl IntChain.processVote ([], validators, 0)).2.1.map (·.address) := by
  simp [mergedValidators, Function.comp_def]

omit [DecidableEq α] in
theorem mem_drop_of_not_mem_take {γ : Type} {l : List γ} {x : γ} {n : Nat} (hx : x ∈ l)
    (hnot : x ∉ l.take n) : x ∈ l.drop n := by
  rw [← List.take_append_drop n l, List.mem_append] at hx
  exact hx.resolve_left hnot

/-- On a set with distinct addresses and positive powers, votes of distinct addresses of which
every revealed one has a positive amount or is a zero vote of an input validator, and a sort
that orders by `knockoutBefore`: the next validators have distinct addresses, at most
`maximumValidatorsSize` of them, positive powers, each kept validator goes before each knocked-out
one, and every address of an input validator or a revealed vote that is gone has a refund: a
knock-out, or the input power for a zero vote. -/
theorem updateEpochValidatorSet_spec
    (sortSlice : (Validator α κ → Validator α κ → Bool) → List (Validator α κ) → List (Validator α κ))
    (hsort : ∀ l, (sortSlice knockoutBefore l).Perm l ∧
      (sortSlice knockoutBefore l).Pairwise fun a b => knockoutBefore b a = false)
    (hnd : (validators.map (·.address)).Nodup) (hpos : ∀ w ∈ validators, 0 < w.votingPower)
    {voteSet : EpochValidatorVoteSet α κ} (hvnd : (voteSet.votes.map (·.address)).Nodup)
    (hamt : ∀ v ∈ voteSet.votes, v.salt ≠ "" →
      0 < v.amount ∨ (v.amount = 0 ∧ v.address ∈ validators.map (·.address)))
    {refund : List (RefundValidatorAmount α)} {vals : List (Validator α κ)}
    (hout : updateEpochValidatorSet sortSlice validators voteSet = (refund, vals)) :
    (vals.map (·.address)).Nodup ∧ vals.length ≤ maximumValidatorsSize ∧
      (∀ w ∈ vals, 0 < w.votingPower) ∧
      (∀ k ∈ vals, ∀ j ∈ mergedValidators validators voteSet, j ∉ vals →
        j.remainingEpoch < k.remainingEpoch ∨
          (j.remainingEpoch = k.remainingEpoch ∧ j.votingPower ≤ k.votingPower)) ∧
      ∀ a, Seen validators voteSet.votes a → a ∉ vals.map (·.address) →
        (∃ r ∈ refund, r.address = a ∧ r.voteout = true) ∨
          RefundedFor validators voteSet.votes refund a := by
  have hinv := mergeInv_foldl hnd hpos hvnd hamt
  -- the merged validators have the invariant's distinct addresses and positive powers
  have hmnd : ((mergedValidators validators voteSet).map (·.address)).Nodup := by
    rw [map_address_mergedValidators]
    exact hinv.nodup
  have hmpos : ∀ w ∈ mergedValidators validators voteSet, 0 < w.votingPower := by
    intro w hw
    obtain ⟨u, hu, rfl⟩ := List.mem_map.1 hw
    rw [subRemainingEpoch_votingPower]
    exact hinv.pos u hu
  obtain ⟨valSize, hmax, ⟨hle, heq⟩ | ⟨hlt, heq⟩⟩ :=
    updateEpochValidatorSet_cases sortSlice validators voteSet
  · -- the merged validators fit: nothing is knocked out
    rw [heq, Prod.mk.injEq] at hout
    obtain ⟨rfl, rfl⟩ := hout
    refine ⟨hmnd, hle.trans hmax, hmpos, fun _ _ j hj hnot => absurd hj hnot, fun a ha hna => ?_⟩
    rw [map_address_mergedValidators] at hna
    exact .inr (hinv.refunded a ha hna)
  · -- the first `valSize` in the knock-out order stay, the rest are refunded
    rw [heq, Prod.mk.injEq] at hout
    obtain ⟨rfl, rfl⟩ := hout
    obtain ⟨hperm, hpw⟩ := hsort (mergedValidators validators voteSet)
    set sorted := sortSlice knockoutBefore (mergedValidators validators voteSet)
    have hmem : ∀ w, w ∈ sorted ↔ w ∈ mergedValidators validators voteSet := fun w => hperm.mem_iff
    refine ⟨?_, ?_, fun w hw => hmpos w ((hmem w).1 (List.mem_of_mem_take hw)), ?_, ?_⟩
    · exact ((hperm.map _).nodup_iff.2 hmnd).sublist ((List.take_sublist _ _).map _)
    · rw [List.length_take]
      omega
    · intro k hk j hj hnot
      have hjd := mem_drop_of_not_mem_take ((hmem j).2 hj) hnot
      rw [← List.take_append_drop valSize sorted, List.pairwise_append] at hpw
      exact (knockoutBefore_eq_false_iff k j).1 (hpw.2.2 k hk j hjd)
    · intro a ha hna
      by_cases hin : a ∈ (mergedValidators validators voteSet).map (·.address)
      · -- a merged validator that is not kept was knocked out
        obtain ⟨j, hj, rfl⟩ := List.mem_map.1 hin
        have hjt : j ∉ sorted.take valSize := fun hjt => hna (List.mem_map_of_mem hjt)
        have hjd := mem_drop_of_not_mem_take ((hmem j).2 hj) hjt
        exact .inl ⟨_, List.mem_append_right _ (List.mem_map_of_mem hjd), rfl, rfl⟩
      · rw [map_address_mergedValidators] at hin
        exact .inr ((hinv.refunded a ha hin).mono fun _ hr => List.mem_append_left _ hr)

/-- A sort by a strict order as a merge sort. -/
def mergeSortSlice (lt : Validator α κ → Validator α κ → Bool) (l : List (Validator α κ)) :
    List (Validator α κ) :=
  l.mergeSort fun a b => !lt b a

/-- A sort by insertion, which the kernel runs on lists of any length: another instance of the
contract of sort.Slice. -/
def insertionSortSlice (lt : Validator α κ → Validator α κ → Bool) (l : List (Validator α κ)) :
    List (Validator α κ) :=
  l.insertionSort fun a b => lt b a = false

omit [DecidableEq α] in
theorem insertionSortSlice_knockoutBefore (l : List (Validator α κ)) :
    (insertionSortSlice knockoutBefore l).Perm l ∧
      (insertionSortSlice knockoutBefore l).Pairwise fun a b => knockoutBefore b a = false := by
  -- "not after" in the knock-out order is total and transitive
  have htotal : Std.Total fun a b : Validator α κ => knockoutBefore b a = false :=
    ⟨fun a b => by rw [knockoutBefore_eq_false_iff, knockoutBefore_eq_false_iff]; omega⟩
  have htrans : IsTrans (Validator α κ) fun a b => knockoutBefore b a = false :=
    ⟨fun a b c hab hbc => by rw [knockoutBefore_eq_false_iff] at hab hbc ⊢; omega⟩
  exact ⟨List.perm_insertionSort _ l, List.pairwise_insertionSort _ l⟩

/-- Twenty-five validators, address `i` of power `i`. -/
def knockoutValidators : List (Validator Nat Nat) :=
  (List.range 25).map fun i => ⟨i + 1, 0, i + 1, 0⟩

/-- A revealed vote of `100` for a new address `26`. -/
def knockoutVoteSet : EpochValidatorVoteSet Nat Nat := ⟨[⟨26, 0, 100, "s"⟩]⟩

/-- The set grows past `maximumValidatorsSize`, so validator 1, the weakest, is knocked out and
refunded, and every kept validator goes before it. -/
theorem updateEpochValidatorSet_spec_knockout :
    (updateEpochValidatorSet insertionSortSlice knockoutValidators knockoutVoteSet).1 =
        [⟨1, 0, true⟩] ∧
      ∀ k ∈ (updateEpochValidatorSet insertionSortSlice knockoutValidators knockoutVoteSet).2,
        0 < k.remainingEpoch ∨ (0 = k.remainingEpoch ∧ 1 ≤ k.votingPower) := by
  have hout : updateEpochValidatorSet insertionSortSlice knockoutValidators knockoutVoteSet =
      ((updateEpochValidatorSet insertionSortSlice knockoutValidators knockoutVoteSet).1,
        (updateEpochValidatorSet insertionSortSlice knockoutValidators knockoutVoteSet).2) := rfl
  have h := updateEpochValidatorSet_spec insertionSortSlice insertionSortSlice_knockoutBefore
    (by decide) (by decide) (by decide) (by decide) hout
  exact ⟨by decide, fun k hk => h.2.2.2.1 k hk ⟨1, 0, 1, 0⟩ (by decide) (by decide)⟩

theorem updateEpochValidatorSet_zero_vote_of_new_address :
    (updateEpochValidatorSet mergeSortSlice ([] : List (Validator Nat Nat)) ⟨[⟨1, 0, 0, "s"⟩]⟩).2 =
      [⟨1, 0, 0, 0⟩] := by
  rfl

end Merge

end IntChain
