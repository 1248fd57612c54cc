import Mathlib

/-!
# Running a state-and-error computation step by step

A computation of `EStateM ε σ` applied to a state gives a result and the state it leaves. The
lemmas here take a bind or a map one step: once the first computation's result at the state is
known, the rest runs from the state it left, or the error is passed on with that state.
-/

namespace EStateM

variable {ε σ α β : Type} {x : EStateM ε σ α} {s s' : σ}

theorem bind_of_ok {a : α} (f : α → EStateM ε σ β) (h : x s = .ok a s') :
    (x >>= f) s = f a s' := by
  simp only [bind, EStateM.bind, h]

theorem bind_of_error {e : ε} (f : α → EStateM ε σ β) (h : x s = .error e s') :
    (x >>= f) s = .error e s' := by
  simp only [bind, EStateM.bind, h]

theorem map_of_ok {a : α} (f : α → β) (h : x s = .ok a s') : (f <$> x) s = .ok (f a) s' := by
  simp only [Functor.map, EStateM.map, h]

theorem map_of_error {e : ε} (f : α → β) (h : x s = .error e s') :
    (f <$> x) s = .error e s' := by
  simp only [Functor.map, EStateM.map, h]

/-- A bind that succeeded: its first computation did, and the rest from the state it left. -/
theorem bind_eq_ok {b : β} {s'' : σ} {f : α → EStateM ε σ β} (h : (x >>= f) s = .ok b s'') :
    ∃ a s', x s = .ok a s' ∧ f a s' = .ok b s'' := by
  simp only [bind, EStateM.bind] at h
  cases hx : x s with
  | ok a s' =>
    rw [hx] at h
    exact ⟨a, s', rfl, h⟩
  | error e s' =>
    rw [hx] at h
    cases h

end EStateM
