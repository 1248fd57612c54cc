import Mathlib.Algebra.BigOperators.Group.List.Basic
import Mathlib.Algebra.Order.BigOperators.Group.List
import Mathlib.Algebra.Group.Basic
import Mathlib.Data.List.Nodup
import Mathlib.Tactic.Abel

/-!
# Finite maps as association lists

A map with finitely many keys, kept as a list of entries with distinct keys. It stands for a
Go map, or a trie read through its keys: `find?` of an absent key finds nothing, `insert`
replaces the entry of a present key in place and appends a new key at the end, and `keys`
lists the keys in the order an iteration visits them. `sumBy` adds up a function of the
values; `sumBy_insert` is the fact about sums that ledger proofs rest on.
-/

/-- Entries with pairwise distinct keys. -/
structure KeyMap (κ β : Type) where
  entries : List (κ × β)
  nodup : (entries.map Prod.fst).Nodup

namespace KeyMap

variable {κ β γ : Type} [DecidableEq κ]

def empty : KeyMap κ β := ⟨[], List.nodup_nil⟩

def keys (m : KeyMap κ β) : List κ := m.entries.map Prod.fst

def find? (m : KeyMap κ β) (k : κ) : Option β := m.entries.lookup k

/-- The value at `k`, or `d` when `k` is absent. -/
def findD (m : KeyMap κ β) (k : κ) (d : β) : β := (m.find? k).getD d

private theorem map_fst_replace (l : List (κ × β)) (k : κ) (v : β) :
    (l.map fun e => if e.1 = k then (k, v) else e).map Prod.fst = l.map Prod.fst := by
  induction l with
  | nil => rfl
  | cons e l ih =>
    by_cases h : e.1 = k
    · simp [h, ih]
    · simp [h, ih]

def insert (m : KeyMap κ β) (k : κ) (v : β) : KeyMap κ β :=
  if h : k ∈ m.keys then
    ⟨m.entries.map fun e => if e.1 = k then (k, v) else e, by
      rw [map_fst_replace]; exact m.nodup⟩
  else
    ⟨m.entries ++ [(k, v)], by
      rw [List.map_append]
      exact List.nodup_append_comm.mp (List.nodup_cons.2 ⟨h, m.nodup⟩)⟩

/-- Go's `delete`: drop the entry of `k`. -/
def erase (m : KeyMap κ β) (k : κ) : KeyMap κ β :=
  ⟨m.entries.filter fun e => e.1 ≠ k,
    m.nodup.sublist ((List.filter_sublist (l := m.entries)).map Prod.fst)⟩

/-- Read, change and write back one value, starting from `d` when `k` is absent. -/
def modify (m : KeyMap κ β) (k : κ) (d : β) (f : β → β) : KeyMap κ β :=
  m.insert k (f (m.findD k d))

def sumBy [AddCommMonoid γ] (m : KeyMap κ β) (f : β → γ) : γ :=
  (m.entries.map fun e => f e.2).sum

omit [DecidableEq κ] in
@[simp] theorem keys_empty : (empty : KeyMap κ β).keys = [] := rfl

@[simp] theorem find?_empty (k : κ) : (empty : KeyMap κ β).find? k = none := rfl

@[simp] theorem findD_empty (k : κ) (d : β) : (empty : KeyMap κ β).findD k d = d := rfl

omit [DecidableEq κ] in
@[simp] theorem sumBy_empty [AddCommMonoid γ] (f : β → γ) : (empty : KeyMap κ β).sumBy f = 0 :=
  rfl

theorem find?_eq_none_iff {m : KeyMap κ β} {k : κ} : m.find? k = none ↔ k ∉ m.keys := by
  simp only [find?, keys, List.lookup_eq_none_iff, List.mem_map]
  constructor
  · rintro h ⟨e, he, rfl⟩
    simpa using h e he
  · intro h e he
    simpa using fun hk => h ⟨e, he, hk.symm⟩

/-- An entry is what a lookup of its key finds. -/
theorem find?_of_mem {m : KeyMap κ β} {e : κ × β} (h : e ∈ m.entries) : m.find? e.1 = some e.2 := by
  obtain ⟨l, hnd⟩ := m
  obtain ⟨k, v⟩ := e
  simp only [find?] at h ⊢
  induction l with
  | nil => simp at h
  | cons a l ih =>
    obtain ⟨a, b⟩ := a
    rw [List.map_cons, List.nodup_cons] at hnd
    rcases List.mem_cons.1 h with heq | hmem
    · cases heq
      simp
    · have hka : k ≠ a := by
        rintro rfl
        exact hnd.1 (List.mem_map.2 ⟨_, hmem, rfl⟩)
      have hne : (k == a) = false := by simpa using hka
      simp only [List.lookup_cons, hne]
      exact ih hnd.2 hmem

/-- What a lookup finds is an entry. -/
theorem mem_of_find? {m : KeyMap κ β} {k : κ} {v : β} (h : m.find? k = some v) :
    (k, v) ∈ m.entries := by
  obtain ⟨l₁, l₂, hl, -⟩ := List.lookup_eq_some_iff.1 h
  rw [hl]
  exact List.mem_append_right l₁ List.mem_cons_self

/-- Two entries of one key are the same entry. -/
theorem eq_of_mem_of_fst_eq {m : KeyMap κ β} {e e' : κ × β} (he : e ∈ m.entries)
    (he' : e' ∈ m.entries) (h : e.1 = e'.1) : e = e' := by
  have hv := find?_of_mem he
  rw [h, find?_of_mem he'] at hv
  exact Prod.ext h (Option.some_injective _ hv).symm

omit [DecidableEq κ] in
/-- A map is its entries. -/
theorem ext_entries {m m' : KeyMap κ β} (h : m.entries = m'.entries) : m = m' := by
  cases m
  cases m'
  cases h
  rfl

theorem find?_isSome_iff {m : KeyMap κ β} {k : κ} : (m.find? k).isSome ↔ k ∈ m.keys := by
  rw [← not_iff_not, Option.not_isSome_iff_eq_none, find?_eq_none_iff]

private theorem map_replace_of_not_mem {l : List (κ × β)} {k : κ} (v : β)
    (h : k ∉ l.map Prod.fst) : (l.map fun e => if e.1 = k then (k, v) else e) = l := by
  induction l with
  | nil => rfl
  | cons e l ih =>
    have he : e.1 ≠ k := fun he => h (he ▸ List.mem_cons_self ..)
    have hl : k ∉ l.map Prod.fst := fun hk => h (List.mem_cons_of_mem _ hk)
    simp [he, ih hl]

private theorem lookup_replace_ne {l : List (κ × β)} {k k' : κ} (v : β) (h : k' ≠ k) :
    (l.map fun e => if e.1 = k then (k, v) else e).lookup k' = l.lookup k' := by
  induction l with
  | nil => rfl
  | cons e l ih =>
    obtain ⟨a, b⟩ := e
    by_cases hak : a = k
    · subst hak
      have hb : (k' == a) = false := by simpa using h
      simp [List.lookup_cons, hb, ih]
    · simp only [List.map_cons, hak, ite_false, List.lookup_cons, ih]

private theorem lookup_replace_self {l : List (κ × β)} {k : κ} (v : β)
    (hk : k ∈ l.map Prod.fst) : (l.map fun e => if e.1 = k then (k, v) else e).lookup k = some v := by
  induction l with
  | nil => simp at hk
  | cons e l ih =>
    obtain ⟨a, b⟩ := e
    by_cases hak : a = k
    · subst hak
      simp
    · have hk' : k ∈ l.map Prod.fst := by simpa [Ne.symm hak] using hk
      have hb : (k == a) = false := by simpa using Ne.symm hak
      simp only [List.map_cons, hak, ite_false, List.lookup_cons, hb, ih hk']

theorem find?_insert (m : KeyMap κ β) (k : κ) (v : β) (k' : κ) :
    (m.insert k v).find? k' = if k' = k then some v else m.find? k' := by
  unfold insert find?
  split
  · next h =>
    by_cases hk : k' = k
    · subst hk
      simp [lookup_replace_self v h]
    · simp [lookup_replace_ne v hk, hk]
  · next h =>
    have hnone : m.entries.lookup k = none := find?_eq_none_iff.2 h
    by_cases hk : k' = k
    · subst hk
      simp [List.lookup_append, hnone]
    · have hb : (k' == k) = false := by simpa using hk
      simp only [List.lookup_append, List.lookup_cons, List.lookup_nil, hb, hk, ite_false]
      cases List.lookup k' m.entries <;> rfl

private theorem lookup_filter_ne (l : List (κ × β)) (k k' : κ) :
    (l.filter fun e => e.1 ≠ k).lookup k' = if k' = k then none else l.lookup k' := by
  induction l with
  | nil => simp
  | cons e l ih =>
    obtain ⟨a, b⟩ := e
    by_cases hak : a = k
    · -- the entry of `k` itself is dropped
      subst hak
      rw [List.filter_cons_of_neg (by simp), ih]
      by_cases hk : k' = a
      · simp [hk]
      · have hb : (k' == a) = false := by simpa using hk
        simp [hk, List.lookup_cons, hb]
    · rw [List.filter_cons_of_pos (by simpa using hak)]
      by_cases hk : k' = a
      · subst hk
        simp [hak]
      · have hb : (k' == a) = false := by simpa using hk
        simp only [List.lookup_cons, hb, ih]

theorem find?_erase (m : KeyMap κ β) (k k' : κ) :
    (m.erase k).find? k' = if k' = k then none else m.find? k' :=
  lookup_filter_ne m.entries k k'

private theorem map_replace_of_lookup {l : List (κ × β)} {k : κ} {v : β}
    (hnd : (l.map Prod.fst).Nodup) (h : l.lookup k = some v) :
    (l.map fun e => if e.1 = k then (k, v) else e) = l := by
  induction l with
  | nil => simp at h
  | cons e l ih =>
    obtain ⟨a, b⟩ := e
    rw [List.map_cons, List.nodup_cons] at hnd
    by_cases hak : a = k
    · -- the entry of `k` already holds `v`, and no later entry has the key
      subst hak
      have hb : b = v := by simpa [List.lookup_cons] using h
      subst hb
      simp [map_replace_of_not_mem b hnd.1]
    · have hb : (k == a) = false := by simpa using Ne.symm hak
      simp only [List.lookup_cons, hb] at h
      simp [hak, ih hnd.2 h]

/-- Writing back the value a key holds changes nothing. -/
theorem insert_of_find?_eq {m : KeyMap κ β} {k : κ} {v : β} (h : m.find? k = some v) :
    m.insert k v = m := by
  have hk : k ∈ m.keys := find?_isSome_iff.1 (by simp [h])
  obtain ⟨l, hnd⟩ := m
  simp only [insert, dif_pos hk, KeyMap.mk.injEq]
  exact map_replace_of_lookup hnd h

/-- Erasing an absent key changes nothing. -/
theorem erase_of_find?_eq_none {m : KeyMap κ β} {k : κ} (h : m.find? k = none) : m.erase k = m := by
  have hk : k ∉ m.keys := find?_eq_none_iff.1 h
  obtain ⟨l, hnd⟩ := m
  simp only [erase, KeyMap.mk.injEq]
  exact List.filter_eq_self.2 fun e he => by
    have : e.1 ≠ k := fun he' => hk (he' ▸ List.mem_map_of_mem he)
    simpa using this

theorem mem_keys_insert {m : KeyMap κ β} {k k' : κ} {v : β} :
    k' ∈ (m.insert k v).keys ↔ k' = k ∨ k' ∈ m.keys := by
  rw [← find?_isSome_iff, ← find?_isSome_iff, find?_insert]
  by_cases h : k' = k <;> simp [h]

theorem keys_insert_of_mem {m : KeyMap κ β} {k : κ} (v : β) (h : k ∈ m.keys) :
    (m.insert k v).keys = m.keys := by
  have h' : k ∈ m.entries.map Prod.fst := h
  unfold insert keys
  rw [dif_pos h']
  exact map_fst_replace m.entries k v

theorem findD_insert (m : KeyMap κ β) (k : κ) (v : β) (k' : κ) (d : β) :
    (m.insert k v).findD k' d = if k' = k then v else m.findD k' d := by
  unfold findD
  rw [find?_insert]
  split <;> rfl

@[simp] theorem findD_modify_self (m : KeyMap κ β) (k : κ) (d : β) (f : β → β) :
    (m.modify k d f).findD k d = f (m.findD k d) := by
  simp [modify, findD_insert]

theorem findD_modify_ne (m : KeyMap κ β) {k k' : κ} (d : β) (f : β → β) (h : k' ≠ k) :
    (m.modify k d f).findD k' d = m.findD k' d := by
  simp [modify, findD_insert, h]

theorem findD_modify (m : KeyMap κ β) (k k' : κ) (d : β) (f : β → β) :
    (m.modify k d f).findD k' d = if k' = k then f (m.findD k d) else m.findD k' d := by
  simp only [modify, findD_insert]

theorem findD_of_not_mem {m : KeyMap κ β} {k : κ} (d : β) (h : k ∉ m.keys) : m.findD k d = d := by
  simp [findD, find?_eq_none_iff.2 h]

private theorem sum_replace [AddCommGroup γ] {l : List (κ × β)} {k : κ} (v : β) (f : β → γ)
    (hnd : (l.map Prod.fst).Nodup) (hk : k ∈ l.map Prod.fst) :
    ((l.map fun e => if e.1 = k then (k, v) else e).map fun e => f e.2).sum =
      (l.map fun e => f e.2).sum + f v - ((l.lookup k).elim 0 f) := by
  induction l with
  | nil => simp at hk
  | cons e l ih =>
    obtain ⟨a, b⟩ := e
    rw [List.map_cons, List.nodup_cons] at hnd
    by_cases hak : a = k
    · subst hak
      simp only [List.map_cons, ite_true, List.sum_cons, List.lookup_cons, beq_self_eq_true,
        Option.elim_some]
      rw [map_replace_of_not_mem v hnd.1]
      abel
    · have hk' : k ∈ l.map Prod.fst := by simpa [Ne.symm hak] using hk
      have hka : (k == a) = false := by simpa using Ne.symm hak
      simp only [List.map_cons, hak, ite_false, List.sum_cons, List.lookup_cons, hka]
      rw [ih hnd.2 hk']
      abel

/-- Writing `v` at `k` adds `f v` to the sum and takes away what `k` held before. -/
theorem sumBy_insert [AddCommGroup γ] (m : KeyMap κ β) (k : κ) (v : β) (f : β → γ) :
    (m.insert k v).sumBy f = m.sumBy f + f v - (m.find? k).elim 0 f := by
  unfold insert sumBy find?
  split
  · next h => exact sum_replace v f m.nodup h
  · next h =>
    have hnone : m.entries.lookup k = none := find?_eq_none_iff.2 h
    simp [hnone]

/-- `sumBy_insert` with the old value read through a default that `f` sends to zero. -/
theorem sumBy_insert_findD [AddCommGroup γ] (m : KeyMap κ β) (k : κ) (v d : β) (f : β → γ)
    (hd : f d = 0) : (m.insert k v).sumBy f = m.sumBy f + (f v - f (m.findD k d)) := by
  rw [sumBy_insert, sub_eq_add_neg, add_assoc, ← sub_eq_add_neg]
  congr 2
  cases h : m.find? k <;> simp [findD, h, hd]

/-- With a default that `f` sends to zero, a modification changes the sum by the change of the
one value. -/
theorem sumBy_modify [AddCommGroup γ] (m : KeyMap κ β) (k : κ) (d : β) (g : β → β) (f : β → γ)
    (hd : f d = 0) :
    (m.modify k d g).sumBy f = m.sumBy f + (f (g (m.findD k d)) - f (m.findD k d)) :=
  sumBy_insert_findD m k _ d f hd

omit [DecidableEq κ] in
theorem sumBy_nonneg [AddCommMonoid γ] [PartialOrder γ] [IsOrderedAddMonoid γ] (m : KeyMap κ β)
    {f : β → γ} (h : ∀ e ∈ m.entries, 0 ≤ f e.2) : 0 ≤ m.sumBy f :=
  List.sum_nonneg fun x hx => by
    obtain ⟨e, he, rfl⟩ := List.mem_map.1 hx
    exact h e he

/-- With no negative value, one value is at most the sum. -/
theorem findD_le_sumBy [AddCommMonoid γ] [PartialOrder γ] [IsOrderedAddMonoid γ] (m : KeyMap κ β)
    (k : κ) {d : β} {f : β → γ} (hd : f d = 0) (h : ∀ e ∈ m.entries, 0 ≤ f e.2) :
    f (m.findD k d) ≤ m.sumBy f := by
  obtain ⟨l, hnd⟩ := m
  simp only [findD, find?, sumBy] at h ⊢
  clear hnd
  induction l with
  | nil => simp [hd]
  | cons e l ih =>
    obtain ⟨a, b⟩ := e
    have hb : 0 ≤ f b := h (a, b) (by simp)
    have htail : ∀ e ∈ l, 0 ≤ f e.2 := fun e he => h e (List.mem_cons_of_mem _ he)
    have hl : 0 ≤ (l.map fun e => f e.2).sum := List.sum_nonneg fun x hx => by
      obtain ⟨e, he, rfl⟩ := List.mem_map.1 hx
      exact htail e he
    have ih' := ih htail
    by_cases hka : k = a
    · subst hka
      simpa using le_add_of_nonneg_right hl
    · have hne : (k == a) = false := by simpa using hka
      simp only [List.lookup_cons, hne, List.map_cons, List.sum_cons]
      exact ih'.trans (le_add_of_nonneg_left hb)

private theorem map_lookup_keys {l : List (κ × β)} (d : β) (hnd : (l.map Prod.fst).Nodup) :
    (l.map Prod.fst).map (fun k => (l.lookup k).getD d) = l.map Prod.snd := by
  induction l with
  | nil => rfl
  | cons e l ih =>
    obtain ⟨a, b⟩ := e
    rw [List.map_cons, List.nodup_cons] at hnd
    simp only [List.map_cons, List.lookup_cons, beq_self_eq_true, Option.getD_some]
    rw [← ih hnd.2]
    congr 1
    apply List.map_congr_left
    intro k hk
    have hne : (k == a) = false := by
      simp only [beq_eq_false_iff_ne]
      rintro rfl
      exact hnd.1 hk
    simp [hne]

/-- Erasing a present key takes out its one entry. -/
theorem entries_perm_erase {m : KeyMap κ β} {k : κ} {v : β} (h : m.find? k = some v) :
    m.entries.Perm ((k, v) :: (m.erase k).entries) := by
  obtain ⟨l, hnd⟩ := m
  simp only [erase, find?] at h ⊢
  induction l with
  | nil => simp at h
  | cons e l ih =>
    obtain ⟨a, b⟩ := e
    rw [List.map_cons, List.nodup_cons] at hnd
    by_cases hak : a = k
    · -- the entry of `k`, and no later one
      subst hak
      have hb : b = v := by simpa [List.lookup_cons] using h
      subst hb
      have hna : a ∉ l.map Prod.fst := hnd.1
      have hrest : l.filter (fun e => e.1 ≠ a) = l := List.filter_eq_self.2 fun e he => by
        have : e.1 ≠ a := fun he' => hna (by rw [← he']; exact List.mem_map_of_mem he)
        simpa using this
      rw [List.filter_cons_of_neg (by simp), hrest]
    · have hb : (k == a) = false := by simpa using Ne.symm hak
      simp only [List.lookup_cons, hb] at h
      rw [List.filter_cons_of_pos (by simpa using hak)]
      exact ((ih hnd.2 h).cons (a, b)).trans (List.Perm.swap _ _ _)

/-- Erasing a key after writing it is erasing it. -/
theorem erase_insert (m : KeyMap κ β) (k : κ) (v : β) : (m.insert k v).erase k = m.erase k := by
  obtain ⟨l, hnd⟩ := m
  simp only [erase, KeyMap.mk.injEq]
  unfold insert
  by_cases hk : k ∈ (⟨l, hnd⟩ : KeyMap κ β).keys
  · -- written in place: the filter drops the entry either way
    rw [dif_pos hk]
    dsimp only
    clear hk hnd
    induction l with
    | nil => rfl
    | cons e l ih =>
      rw [List.map_cons, List.filter_cons, List.filter_cons, ih]
      by_cases hek : e.1 = k <;> simp [hek]
  · rw [dif_neg hk]
    simp [List.filter_append]

/-- After an insert, the entries are the new one and the entries of the other keys. -/
theorem entries_perm_insert (m : KeyMap κ β) (k : κ) (v : β) :
    (m.insert k v).entries.Perm ((k, v) :: (m.erase k).entries) := by
  have h := entries_perm_erase ((find?_insert m k v k).trans (if_pos rfl))
  rwa [erase_insert] at h

/-- Reading every key in turn adds up the values. -/
theorem sum_map_findD_keys [AddCommMonoid γ] (m : KeyMap κ β) (d : β) (f : β → γ) :
    (m.keys.map fun k => f (m.findD k d)).sum = m.sumBy f := by
  have h := congrArg (fun l => (l.map f).sum) (map_lookup_keys d m.nodup)
  simpa [keys, findD, find?, sumBy, List.map_map, Function.comp_def] using h

end KeyMap
