import Mathlib.Algebra.Order.BigOperators.Group.Finset

/-!
# Weighted quorums

Members of a universe carry non-negative weights. Two sets of members share at least the weight
by which their weights together exceed the weight of the whole, so two sets that each weigh at
least `q`, where the whole weighs less than `2 * q`, share a member of positive weight.
-/

namespace Quorum

variable {ι : Type} [DecidableEq ι] {U A B : Finset ι} {w : ι → ℤ}

theorem weight_inter_ge (hw : ∀ i ∈ U, 0 ≤ w i) (hA : A ⊆ U) (hB : B ⊆ U) :
    ∑ i ∈ A, w i + ∑ i ∈ B, w i - ∑ i ∈ U, w i ≤ ∑ i ∈ A ∩ B, w i := by
  have hunion : ∑ i ∈ A ∪ B, w i + ∑ i ∈ A ∩ B, w i = ∑ i ∈ A, w i + ∑ i ∈ B, w i :=
    Finset.sum_union_inter
  have hle : ∑ i ∈ A ∪ B, w i ≤ ∑ i ∈ U, w i := by
    apply Finset.sum_le_sum_of_subset_of_nonneg (Finset.union_subset hA hB)
    intro i hi _
    exact hw i hi
  omega

/-- Two quorums of a whole lighter than twice the quorum weight share a member of positive
weight. -/
theorem exists_mem_inter_pos (hw : ∀ i ∈ U, 0 ≤ w i) (hA : A ⊆ U) (hB : B ⊆ U) {q : ℤ}
    (hq : ∑ i ∈ U, w i < 2 * q) (hqA : q ≤ ∑ i ∈ A, w i) (hqB : q ≤ ∑ i ∈ B, w i) :
    ∃ i ∈ A ∩ B, 0 < w i := by
  have hinter := weight_inter_ge hw hA hB
  have hpos : 0 < ∑ i ∈ A ∩ B, w i := by omega
  have hlt : ∑ i ∈ A ∩ B, (0 : ℤ) < ∑ i ∈ A ∩ B, w i := by simpa using hpos
  exact Finset.exists_lt_of_sum_lt hlt

end Quorum
