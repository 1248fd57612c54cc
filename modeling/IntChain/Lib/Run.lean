import Mathlib.Logic.Relation
import Mathlib.Data.List.Basic
import Mathlib.Data.List.Forall2

/-!
# Invariants of loops and of runs

A successful `Except` computation passed every step before its last, an `Option` loop that
collects results succeeded on every element, and two induction rules.
A left fold keeps a property of the prefix it has processed when every step extends it by the
next element, which is how a property of "the keys done so far" of a loop is carried to the end
of the loop. A property that every step of a relation keeps holds
along every run, the reflexive transitive closure of the step.
-/

namespace Run

variable {γ δ σ : Type}

/-- The prefix rule for `List.foldl`: the motive is indexed by the processed prefix, and a
step may use that the element it processes comes next in `l`. -/
theorem foldl_prefix_induction (f : δ → γ → δ) (P : List γ → δ → Prop) {l : List γ} {d : δ}
    (h0 : P [] d)
    (hstep : ∀ pre x rest e, pre ++ x :: rest = l → P pre e → P (pre ++ [x]) (f e x)) :
    P l (l.foldl f d) := by
  -- generalise to any split `pre ++ rest = l` with the prefix already folded
  have key : ∀ rest pre e, pre ++ rest = l → P pre e → P l (rest.foldl f e) := by
    intro rest
    induction rest with
    | nil =>
      intro pre e hl he
      simp only [List.append_nil] at hl
      subst hl
      exact he
    | cons x rest ih =>
      intro pre e hl he
      exact ih (pre ++ [x]) (f e x) (by simpa using hl) (hstep pre x rest e hl he)
  exact key l [] d rfl h0

/-- The membership rule for `List.foldl`: a property every step keeps holds at the end. -/
theorem foldl_induction (f : δ → γ → δ) (P : δ → Prop) {l : List γ} {d : δ} (h0 : P d)
    (hstep : ∀ x ∈ l, ∀ e, P e → P (f e x)) : P (l.foldl f d) := by
  refine foldl_prefix_induction f (fun _ e => P e) h0 ?_
  intro pre x rest e hl he
  exact hstep x (by rw [← hl]; simp) e he

/-- A property every step keeps holds at the end of every run. -/
theorem reflTransGen_invariant {r : σ → σ → Prop} (P : σ → Prop)
    (hstep : ∀ s s', r s s' → P s → P s') {s s' : σ} (hrun : Relation.ReflTransGen r s s')
    (hs : P s) : P s' := by
  induction hrun with
  | refl => exact hs
  | tail _ hr ih => exact hstep _ _ hr ih

/-- The invariant rule for an `Option` fold: a property every successful step keeps holds at the
end of every run that does not fail. -/
theorem foldlM_invariant (f : δ → γ → Option δ) (P : δ → Prop)
    (hstep : ∀ d x d', P d → f d x = some d' → P d') {l : List γ} {d d' : δ}
    (h : l.foldlM f d = some d') (hd : P d) : P d' := by
  induction l generalizing d with
  | nil =>
    cases h
    exact hd
  | cons x l ih =>
    rw [List.foldlM_cons] at h
    obtain ⟨e, he, h⟩ := Option.bind_eq_some_iff.1 h
    exact ih h (hstep d x e hd he)

/-- The simulation rule for an `Option` fold against a total left fold: when every step from a
state related to an abstract state succeeds into a state related to the abstract step, the whole
run succeeds into a state related to the abstract fold. -/
theorem foldlM_simulation (f : δ → γ → Option δ) (g : σ → γ → σ) (R : δ → σ → Prop)
    (hstep : ∀ d s x, R d s → ∃ d', f d x = some d' ∧ R d' (g s x)) (l : List γ) {d : δ} {s : σ}
    (h : R d s) : ∃ d', l.foldlM f d = some d' ∧ R d' (l.foldl g s) := by
  induction l generalizing d s with
  | nil => exact ⟨d, rfl, h⟩
  | cons x l ih =>
    obtain ⟨e, he, hr⟩ := hstep d s x h
    obtain ⟨d', hd', hr'⟩ := ih hr
    refine ⟨d', ?_, hr'⟩
    rw [List.foldlM_cons, he]
    exact hd'

/-- A bind that succeeds ran its first computation to a value. -/
theorem bind_eq_ok {ε β ζ : Type} {x : Except ε β} {f : β → Except ε ζ} {c : ζ}
    (h : (x >>= f) = .ok c) : ∃ b, x = .ok b ∧ f b = .ok c := by
  cases x with
  | error e => simp [bind, Except.bind] at h
  | ok b => exact ⟨b, rfl, h⟩

/-- An `Option` loop that collects one result per element succeeds exactly when the body
succeeds on each element, and then gives those results in order. -/
theorem mapM_eq_some_iff {f : γ → Option δ} {l : List γ} {ys : List δ} :
    l.mapM f = some ys ↔ List.Forall₂ (fun x y => f x = some y) l ys := by
  induction l generalizing ys with
  | nil =>
    cases ys with
    | nil => simp
    | cons y ys => simp [List.forall₂_nil_left_iff]
  | cons x l ih =>
    cases ys with
    | nil =>
      rw [List.forall₂_nil_right_iff, List.mapM_cons]
      simp only [reduceCtorEq, iff_false]
      intro h
      obtain ⟨y, -, h⟩ := Option.bind_eq_some_iff.1 h
      obtain ⟨ys, -, h⟩ := Option.bind_eq_some_iff.1 h
      simp at h
    | cons y ys =>
      rw [List.forall₂_cons, ← ih, List.mapM_cons]
      constructor
      · intro h
        obtain ⟨y', hy, h⟩ := Option.bind_eq_some_iff.1 h
        obtain ⟨ys', hys, h⟩ := Option.bind_eq_some_iff.1 h
        obtain ⟨rfl, rfl⟩ : y' = y ∧ ys' = ys := by simpa using h
        exact ⟨hy, hys⟩
      · rintro ⟨hy, hys⟩
        simp [hy, hys]

/-- Each result of a successful `Option` loop is what the body gave for some element. -/
theorem exists_of_mapM_eq_some {f : γ → Option δ} {l : List γ} {ys : List δ}
    (h : l.mapM f = some ys) {y : δ} (hy : y ∈ ys) : ∃ x ∈ l, f x = some y := by
  have hf := mapM_eq_some_iff.1 h
  clear h
  induction hf with
  | nil => cases hy
  | cons hxy _ ih =>
    rcases List.mem_cons.1 hy with rfl | hy
    · exact ⟨_, List.mem_cons_self, hxy⟩
    · obtain ⟨x, hx, hfx⟩ := ih hy
      exact ⟨x, List.mem_cons_of_mem _ hx, hfx⟩

/-- An `Option` loop whose body succeeds on every element gives the results in order. -/
theorem mapM_eq_some_filterMap {f : γ → Option δ} {l : List γ} (h : ∀ x ∈ l, (f x).isSome) :
    l.mapM f = some (l.filterMap f) := by
  rw [mapM_eq_some_iff]
  induction l with
  | nil => exact .nil
  | cons x l ih =>
    obtain ⟨y, hy⟩ := Option.isSome_iff_exists.1 (h x List.mem_cons_self)
    rw [List.filterMap_cons, hy]
    exact .cons hy (ih fun x hx => h x (List.mem_cons_of_mem _ hx))

end Run
