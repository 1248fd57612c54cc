import Mathlib.Logic.Function.Basic
import Mathlib.Data.List.Basic

/-!
# Maps over list keys, as a trie denotes them

A map from words over `α` to optional values, built the way a trie reads it: `under pre f`
answers at `pre ++ q` what `f` answers at `q` and nothing elsewhere (an extension or a leaf
key), and `dispatch sel fs` sends a word's first letter to a slot whose map reads the rest (a
branch). The lemmas say how the two combine and how a point update passes through them; a
trie's insert and delete are then map updates, proved node by node.
-/

namespace PathMap

variable {α β ι : Type}

/-- The map that answers nothing. -/
def empty : List α → Option β := fun _ => none

/-- The map `f` moved under the prefix `pre`. -/
def under [DecidableEq α] : List α → (List α → Option β) → List α → Option β
  | [], f, p => f p
  | _ :: _, _, [] => none
  | a :: pre, f, b :: p => if b = a then under pre f p else none

/-- Dispatch on the first letter: `sel` picks the slot whose map reads the rest. -/
def dispatch (sel : α → Option ι) (fs : ι → List α → Option β) : List α → Option β
  | [] => none
  | b :: r => (sel b).bind fun i => fs i r

section Under

variable [DecidableEq α]

@[simp] theorem under_nil (f : List α → Option β) : under [] f = f := rfl

@[simp] theorem under_cons_nil (a : α) (pre : List α) (f : List α → Option β) :
    under (a :: pre) f [] = none := rfl

theorem under_cons_cons (a b : α) (pre p : List α) (f : List α → Option β) :
    under (a :: pre) f (b :: p) = if b = a then under pre f p else none := rfl

@[simp] theorem under_append_self (pre q : List α) (f : List α → Option β) :
    under pre f (pre ++ q) = f q := by
  induction pre with
  | nil => rfl
  | cons a pre ih => simp [under_cons_cons, ih]

theorem under_append (a b : List α) (f : List α → Option β) :
    under (a ++ b) f = under a (under b f) := by
  induction a with
  | nil => rfl
  | cons x a ih =>
    funext p
    cases p with
    | nil => rfl
    | cons y p => simp only [List.cons_append, under_cons_cons, ih]

@[simp] theorem under_empty (pre : List α) : under pre (empty : List α → Option β) = empty := by
  induction pre with
  | nil => rfl
  | cons a pre ih =>
    funext p
    cases p with
    | nil => rfl
    | cons b p => simp [under_cons_cons, ih, empty]

/-- What `under pre f` answers is what `f` answers past the prefix. -/
theorem exists_of_under_eq_some {pre p : List α} {f : List α → Option β} {v : β}
    (h : under pre f p = some v) : ∃ q, p = pre ++ q ∧ f q = some v := by
  induction pre generalizing p with
  | nil => exact ⟨p, rfl, h⟩
  | cons a pre ih =>
    cases p with
    | nil => simp at h
    | cons b p =>
      rw [under_cons_cons] at h
      split at h
      · obtain ⟨q, rfl, hq⟩ := ih h
        exact ⟨q, by simp [*], hq⟩
      · simp at h

theorem under_eq_none_of_not_prefix {pre p : List α} (f : List α → Option β)
    (h : ¬ pre <+: p) : under pre f p = none := by
  cases hu : under pre f p with
  | none => rfl
  | some v =>
    obtain ⟨q, rfl, -⟩ := exists_of_under_eq_some hu
    exact absurd (List.prefix_append pre q) h

/-- A point update passes under a prefix. -/
theorem under_update (pre q : List α) (f : List α → Option β) (x : Option β) :
    under pre (Function.update f q x) = Function.update (under pre f) (pre ++ q) x := by
  induction pre with
  | nil => rfl
  | cons a pre ih =>
    funext p
    cases p with
    | nil => simp
    | cons b p =>
      rw [under_cons_cons, ih]
      by_cases hb : b = a
      · subst hb
        simp [Function.update_apply, under_cons_cons]
      · simp [under_cons_cons, hb]

end Under

section Dispatch

variable (sel : α → Option ι)

@[simp] theorem dispatch_nil (fs : ι → List α → Option β) : dispatch sel fs [] = none := rfl

theorem dispatch_cons (fs : ι → List α → Option β) (b : α) (r : List α) :
    dispatch sel fs (b :: r) = (sel b).bind fun i => fs i r := rfl

@[simp] theorem dispatch_empty : dispatch sel (fun _ => (empty : List α → Option β)) = empty := by
  funext p
  cases p with
  | nil => rfl
  | cons b r => cases h : sel b <;> simp [dispatch_cons, h, empty]

/-- A branch with one slot filled reads as that slot's letter in front of its map. -/
theorem dispatch_single [DecidableEq α] [DecidableEq ι] {a : α} {i : ι}
    (hsel : ∀ b, sel b = some i ↔ b = a) (g : List α → Option β) :
    dispatch sel (Function.update (fun _ => empty) i g) = under [a] g := by
  funext p
  cases p with
  | nil => rfl
  | cons b r =>
    rw [dispatch_cons, under_cons_cons]
    by_cases hb : b = a
    · subst hb
      simp [(hsel b).2 rfl]
    · cases hs : sel b with
      | none => simp [hb]
      | some j =>
        have hji : j ≠ i := fun hji => hb ((hsel b).1 (hji ▸ hs))
        simp [Function.update_of_ne hji, empty, hb]

/-- A point update of a branch is an update of the one slot its first letter selects. -/
theorem update_dispatch {b : α} {j : ι} (hsel : ∀ b', sel b' = some j ↔ b' = b)
    (fs : ι → List α → Option β) (r : List α) (x : Option β) [DecidableEq α] [DecidableEq ι] :
    Function.update (dispatch sel fs) (b :: r) x =
      dispatch sel (Function.update fs j (Function.update (fs j) r x)) := by
  funext p
  cases p with
  | nil => simp
  | cons c q =>
    rw [dispatch_cons]
    by_cases hc : c = b
    · subst hc
      have hj : sel c = some j := (hsel c).2 rfl
      simp [hj, Function.update_apply, dispatch_cons]
    · rw [Function.update_of_ne (by simp [hc]), dispatch_cons]
      cases hs : sel c with
      | none => rfl
      | some k =>
        have hkj : k ≠ j := fun hkj => hc ((hsel c).1 (hkj ▸ hs))
        simp [Function.update_of_ne hkj]

end Dispatch

end PathMap
