import Mathlib.Data.List.Basic

/-!
# Undo journals with revisions

A state that records each change as a journal entry, from which `undo` puts back what the
change replaced, and numbered revisions that mark journal lengths. Reverting to a revision
undoes the entries after its mark, newest first, and drops the revisions from it on.

An operation returns the new state and the entries it appended, or `none` where it panics.
What a revert gives back is said through an observation `obs` of the state (the answers of its
getters): a step is undone by its entries when undoing them gives back what `obs` saw before
the step. If `undo` acts alike on states that `obs` cannot tell apart, steps undone by their
entries compose, so reverting over a whole run gives back what `obs` saw at the revision.
-/

namespace Journal

variable {σ ε β : Type}

/-- Undo the entries `es`, the newest (last) first. -/
def undoAll (undo : ε → σ → σ) (es : List ε) (s : σ) : σ := es.foldr undo s

variable {undo : ε → σ → σ} {obs : σ → β}

@[simp] theorem undoAll_nil (s : σ) : undoAll undo [] s = s := rfl

@[simp] theorem undoAll_cons (e : ε) (es : List ε) (s : σ) :
    undoAll undo (e :: es) s = undo e (undoAll undo es s) := rfl

theorem undoAll_append (es₁ es₂ : List ε) (s : σ) :
    undoAll undo (es₁ ++ es₂) s = undoAll undo es₁ (undoAll undo es₂ s) :=
  List.foldr_append

/-- The observation after undoing, when each undo acts on what `obs` sees as `f` does. -/
theorem obs_undoAll {f : ε → β → β} (hf : ∀ e t, obs (undo e t) = f e (obs t)) (es : List ε)
    (s : σ) : obs (undoAll undo es s) = undoAll f es (obs s) := by
  induction es with
  | nil => rfl
  | cons e es ih => rw [undoAll_cons, undoAll_cons, hf, ih]

/-- `undo` acts alike on states that `obs` cannot tell apart. -/
def UndoRespects (undo : ε → σ → σ) (obs : σ → β) : Prop :=
  ∀ e t t', obs t = obs t' → obs (undo e t) = obs (undo e t')

theorem UndoRespects.of_obs {f : ε → β → β} (hf : ∀ e t, obs (undo e t) = f e (obs t)) :
    UndoRespects undo obs := by
  intro e t t' ht
  rw [hf, hf, ht]

theorem UndoRespects.undoAll (h : UndoRespects undo obs) (es : List ε) {t t' : σ}
    (ht : obs t = obs t') : obs (Journal.undoAll undo es t) = obs (Journal.undoAll undo es t') := by
  induction es with
  | nil => exact ht
  | cons e es ih => exact h e _ _ ih

/-- A step from `s` to `s'` that appended `es` is undone by them, as far as `obs` sees. -/
def Undoes (undo : ε → σ → σ) (obs : σ → β) (s : σ) (es : List ε) (s' : σ) : Prop :=
  obs (undoAll undo es s') = obs s

theorem Undoes.nil (s : σ) : Undoes undo obs s [] s := rfl

/-- The composition rule: a step undone by `es₁` then one undone by `es₂` are undone by
`es₁ ++ es₂`. -/
theorem Undoes.append (hU : UndoRespects undo obs) {s s₁ s₂ : σ} {es₁ es₂ : List ε}
    (h₁ : Undoes undo obs s es₁ s₁) (h₂ : Undoes undo obs s₁ es₂ s₂) :
    Undoes undo obs s (es₁ ++ es₂) s₂ := by
  unfold Undoes at *
  rw [undoAll_append]
  exact (hU.undoAll es₁ h₂).trans h₁

/-! ### Journaled operations -/

/-- Run `op₁`, then `op₂` on the state it left, appending both entry lists. -/
def seq (op₁ op₂ : σ → Option (σ × List ε)) (s : σ) : Option (σ × List ε) :=
  (op₁ s).bind fun r₁ => (op₂ r₁.1).map fun r₂ => (r₂.1, r₁.2 ++ r₂.2)

theorem seq_eq_some {op₁ op₂ : σ → Option (σ × List ε)} {s : σ} {r : σ × List ε}
    (h : seq op₁ op₂ s = some r) :
    ∃ r₁ r₂, op₁ s = some r₁ ∧ op₂ r₁.1 = some r₂ ∧ r = (r₂.1, r₁.2 ++ r₂.2) := by
  unfold seq at h
  obtain ⟨r₁, h₁, h⟩ := Option.bind_eq_some_iff.1 h
  obtain ⟨r₂, h₂, rfl⟩ := Option.map_eq_some_iff.1 h
  exact ⟨r₁, r₂, h₁, h₂, rfl⟩

/-- An operation is undone by its entries from every state where `P` holds, and leaves a state
where `Q` holds. -/
def UndoneFrom (undo : ε → σ → σ) (obs : σ → β) (P Q : σ → Prop)
    (op : σ → Option (σ × List ε)) : Prop :=
  ∀ s r, P s → op s = some r → Undoes undo obs s r.2 r.1 ∧ Q r.1

theorem UndoneFrom.seq (hU : UndoRespects undo obs) {P Q R : σ → Prop}
    {op₁ op₂ : σ → Option (σ × List ε)} (h₁ : UndoneFrom undo obs P Q op₁)
    (h₂ : UndoneFrom undo obs Q R op₂) : UndoneFrom undo obs P R (seq op₁ op₂) := by
  intro s r hs hr
  obtain ⟨r₁, r₂, hr₁, hr₂, rfl⟩ := seq_eq_some hr
  obtain ⟨hu₁, hq⟩ := h₁ s r₁ hs hr₁
  obtain ⟨hu₂, hR⟩ := h₂ r₁.1 r₂ hq hr₂
  exact ⟨hu₁.append hU hu₂, hR⟩

theorem UndoneFrom.mono {P P' Q Q' : σ → Prop} {op : σ → Option (σ × List ε)}
    (h : UndoneFrom undo obs P Q op) (hP : ∀ s, P' s → P s) (hQ : ∀ s, Q s → Q' s) :
    UndoneFrom undo obs P' Q' op := by
  intro s r hs hr
  obtain ⟨hu, hq⟩ := h s r (hP s hs) hr
  exact ⟨hu, hQ _ hq⟩

/-- What is undone for an observation is undone for every function of it. -/
theorem UndoneFrom.map_obs {γ : Type} (φ : β → γ) {P Q : σ → Prop}
    {op : σ → Option (σ × List ε)} (h : UndoneFrom undo obs P Q op) :
    UndoneFrom undo (fun s => φ (obs s)) P Q op := by
  intro s r hs hr
  obtain ⟨hu, hq⟩ := h s r hs hr
  exact ⟨congrArg φ hu, hq⟩

/-- An operation keeps `P`. -/
def Keeps (P : σ → Prop) (op : σ → Option (σ × List ε)) : Prop :=
  ∀ s r, P s → op s = some r → P r.1

theorem Keeps.seq {P : σ → Prop} {op₁ op₂ : σ → Option (σ × List ε)} (h₁ : Keeps P op₁)
    (h₂ : Keeps P op₂) : Keeps P (seq op₁ op₂) := by
  intro s r hs hr
  obtain ⟨r₁, r₂, hr₁, hr₂, rfl⟩ := seq_eq_some hr
  exact h₂ r₁.1 r₂ (h₁ s r₁ hs hr₁) hr₂

/-- Run the operations in order; the result is the last state and all the entries, oldest
first, or `none` if one of them panics. -/
def runOps : List (σ → Option (σ × List ε)) → σ → Option (σ × List ε)
  | [], s => some (s, [])
  | op :: ops, s => seq op (runOps ops) s

/-- The run rule: operations each undone by their entries from every state where `P` holds,
and keeping `P`, make a run that is undone by all the entries it appended and keeps `P`. -/
theorem runOps_undoes (hU : UndoRespects undo obs) {P : σ → Prop}
    {ops : List (σ → Option (σ × List ε))} (hops : ∀ op ∈ ops, UndoneFrom undo obs P P op) :
    UndoneFrom undo obs P P (runOps ops) := by
  induction ops with
  | nil =>
    intro s r hs hr
    cases hr
    exact ⟨Undoes.nil s, hs⟩
  | cons op ops ih =>
    exact UndoneFrom.seq hU (hops op (by simp))
      (ih fun o ho => hops o (List.mem_cons_of_mem op ho))

/-- A property that every operation keeps holds after the run. -/
theorem runOps_keeps {P : σ → Prop} {ops : List (σ → Option (σ × List ε))}
    (hops : ∀ op ∈ ops, Keeps P op) : Keeps P (runOps ops) := by
  induction ops with
  | nil =>
    intro s r hs hr
    cases hr
    exact hs
  | cons op ops ih =>
    exact Keeps.seq (hops op (by simp)) (ih fun o ho => hops o (List.mem_cons_of_mem op ho))

/-- Undoing entries that each keep `P` keeps `P`. -/
theorem undoAll_keeps {P : σ → Prop} {es : List ε} (hes : ∀ e ∈ es, ∀ s, P s → P (undo e s))
    {s : σ} (hs : P s) : P (undoAll undo es s) := by
  induction es with
  | nil => exact hs
  | cons e es ih =>
    exact hes e (by simp) _ (ih fun e' he' => hes e' (List.mem_cons_of_mem e he'))

/-! ### Revisions -/

/-- A journaled state: the state, its journal (oldest entry first), the valid revisions as
pairs of an id and the journal length it marks, and the next id to hand out. -/
structure Journaled (σ ε : Type) where
  state : σ
  journal : List ε
  validRevisions : List (Nat × Nat)
  nextRevisionId : Nat

namespace Journaled

/-- The revision ids handed out are below the next one. -/
def WF (j : Journaled σ ε) : Prop := ∀ r ∈ j.validRevisions, r.1 < j.nextRevisionId

/-- `Snapshot`: a new revision at the current journal length, and its id. -/
def snapshot (j : Journaled σ ε) : Journaled σ ε × Nat :=
  ({ j with validRevisions := j.validRevisions ++ [(j.nextRevisionId, j.journal.length)],
            nextRevisionId := j.nextRevisionId + 1 }, j.nextRevisionId)

/-- Run operations on the state, appending their entries to the journal. -/
def run (ops : List (σ → Option (σ × List ε))) (j : Journaled σ ε) : Option (Journaled σ ε) :=
  (runOps ops j.state).map fun r => { j with state := r.1, journal := j.journal ++ r.2 }

/-- `RevertToSnapshot`, with `none` for its panic on an unknown revision. The ids are
increasing along `validRevisions`, so the first index whose id is at least `revid` is the one
`sort.Search` finds. -/
def revertToSnapshot (undo : ε → σ → σ) (j : Journaled σ ε) (revid : Nat) :
    Option (Journaled σ ε) :=
  let idx := j.validRevisions.findIdx fun r => decide (revid ≤ r.1)
  match j.validRevisions[idx]? with
  | some r =>
    if r.1 = revid then
      some { state := undoAll undo (j.journal.drop r.2) j.state,
             journal := j.journal.take r.2,
             validRevisions := j.validRevisions.take idx,
             nextRevisionId := j.nextRevisionId }
    else none
  | none => none

theorem WF.snapshot {j : Journaled σ ε} (h : j.WF) : (j.snapshot).1.WF := by
  intro r hr
  simp only [Journaled.snapshot, List.mem_append, List.mem_singleton] at hr
  rcases hr with hr | rfl
  · exact Nat.lt_succ_of_lt (h r hr)
  · exact Nat.lt_succ_self _

/-- What `revertToSnapshot` does once the search has found the revision. -/
theorem revertToSnapshot_eq (undo : ε → σ → σ) {j : Journaled σ ε} {revid i m : Nat}
    (hidx : j.validRevisions.findIdx (fun r => decide (revid ≤ r.1)) = i)
    (hr : j.validRevisions[i]? = some (revid, m)) :
    revertToSnapshot undo j revid =
      some { state := undoAll undo (j.journal.drop m) j.state, journal := j.journal.take m,
             validRevisions := j.validRevisions.take i, nextRevisionId := j.nextRevisionId } := by
  simp only [revertToSnapshot, hidx, hr, if_true]

/-- Reverting to the revision just taken, after a run that appended `es` and left `s'`,
undoes exactly `es` and leaves the journal and the revisions as they were before the
snapshot. -/
theorem revertToSnapshot_run (undo : ε → σ → σ) {j : Journaled σ ε} (h : j.WF)
    {ops : List (σ → Option (σ × List ε))} {s' : σ} {es : List ε}
    (hrun : runOps ops j.state = some (s', es)) :
    (j.snapshot.1.run ops).bind (fun j' => revertToSnapshot undo j' j.snapshot.2) =
      some { j with state := undoAll undo es s', nextRevisionId := j.nextRevisionId + 1 } := by
  -- every earlier revision has a smaller id, so the search stops at the new one
  have hidx : (j.validRevisions ++ [(j.nextRevisionId, j.journal.length)]).findIdx
      (fun r => decide (j.nextRevisionId ≤ r.1)) = j.validRevisions.length := by
    rw [List.findIdx_append, List.findIdx_eq_length_of_false]
    · simp
    · intro r hr
      simpa using h r hr
  have hr : (j.validRevisions ++ [(j.nextRevisionId, j.journal.length)])[j.validRevisions.length]? =
      some (j.nextRevisionId, j.journal.length) := by
    simp
  have hrun' : j.snapshot.1.run ops = some
      { state := s', journal := j.journal ++ es,
        validRevisions := j.validRevisions ++ [(j.nextRevisionId, j.journal.length)],
        nextRevisionId := j.nextRevisionId + 1 } := by
    simp [run, snapshot, hrun]
  rw [hrun', Option.bind_some]
  show revertToSnapshot undo _ j.nextRevisionId = _
  rw [revertToSnapshot_eq undo hidx hr]
  simp

end Journaled

end Journal
