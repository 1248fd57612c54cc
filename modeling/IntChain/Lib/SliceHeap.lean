import Mathlib

/-!
# Heaps kept in a slice

The binary min-heap of Go's `container/heap`, kept in a slice `h` (a list here) whose element at
position `c` is at least the element at its parent `(c - 1) / 2`. `up` and `down` are the
package's sift loops; `push`, `pop`, `remove` and `init` are `heap.Push`, `heap.Pop`,
`heap.Remove` and `heap.Init` for a slice type whose `Less(i, j)` is `h[i] < h[j]`, whose `Push`
appends and whose `Pop` removes the last element.

Each operation permutes the slice, and `push`, `pop`, `remove` and `init` end in a heap. The sift
loops are proved through their loop invariants: `DownInv` holds along `down`, with the elements
below the moving one ordered, and `UpInv` along `up`, with the elements above it ordered; both
also keep the parent of the moving element at most its children. The root of a heap is its least
element.
-/

namespace SliceHeap

variable {α : Type}

/-- The parent of position `i`. -/
def parent (i : Nat) : Nat := (i - 1) / 2

/-- `h.Swap(i, j)`. An index out of range panics in Go; no operation here swaps one, and it
changes nothing. -/
def swap (h : List α) (i j : Nat) : List α :=
  match h[i]?, h[j]? with
  | some x, some y => (h.set i y).set j x
  | _, _ => h

theorem parent_lt {i : Nat} (h : 0 < i) : parent i < i := by
  unfold parent
  omega

theorem parent_le (i : Nat) : parent i ≤ i := by
  unfold parent
  omega

theorem parent_eq_iff {c i : Nat} (hc : 0 < c) : parent c = i ↔ c = 2 * i + 1 ∨ c = 2 * i + 2 := by
  unfold parent
  omega

section Swap

variable {h : List α} {i j k : Nat}

@[simp] theorem length_swap (h : List α) (i j : Nat) : (swap h i j).length = h.length := by
  unfold swap
  split <;> simp

theorem swap_perm (h : List α) (i j : Nat) : (swap h i j).Perm h := by
  unfold swap
  split
  · rename_i x y hx hy
    obtain ⟨hi, rfl⟩ := List.getElem?_eq_some_iff.1 hx
    obtain ⟨hj, rfl⟩ := List.getElem?_eq_some_iff.1 hy
    exact List.set_set_perm hi hj
  · exact List.Perm.refl h

theorem getElem?_swap (hi : i < h.length) (hj : j < h.length) (k : Nat) :
    (swap h i j)[k]? = if k = j then h[i]? else if k = i then h[j]? else h[k]? := by
  unfold swap
  rw [List.getElem?_eq_getElem hi, List.getElem?_eq_getElem hj]
  simp only [List.getElem?_set, List.length_set]
  by_cases hkj : k = j
  · subst hkj
    simp [hj]
  · by_cases hki : k = i
    · subst hki
      simp [hi, hkj, Ne.symm hkj]
    · simp [hkj, hki, Ne.symm hkj, Ne.symm hki]

theorem getElem?_swap_of_ne (hki : k ≠ i) (hkj : k ≠ j) : (swap h i j)[k]? = h[k]? := by
  unfold swap
  split
  · simp [Ne.symm hki, Ne.symm hkj]
  · rfl

end Swap

variable [LinearOrder α]

/-- `h.Less(i, j)`. An index out of range panics in Go; no operation here reads one, and it reads
as `false`. -/
def less (h : List α) (i j : Nat) : Bool :=
  match h[i]?, h[j]? with
  | some x, some y => decide (x < y)
  | _, _ => false

theorem less_eq_true_iff {h : List α} {i j : Nat} {x y : α} (hx : h[i]? = some x)
    (hy : h[j]? = some y) : less h i j = true ↔ x < y := by
  simp [less, hx, hy]

/-- `up(h, j)`: while the element at `j` is less than its parent, swap the two. The parent is `j`
itself only at the root. -/
def up (h : List α) (j : Nat) : List α :=
  if _hj : parent j = j ∨ !less h j (parent j) then h
  else up (swap h (parent j) j) (parent j)
termination_by j
decreasing_by
  have hne : parent j ≠ j := fun he => _hj (.inl he)
  have := parent_le j
  omega

theorem up_perm (h : List α) (j : Nat) : (up h j).Perm h := by
  fun_induction up h j with
  | case1 h j hj => exact List.Perm.refl h
  | case2 h j hj ih => exact ih.trans (swap_perm h _ _)

/-- The loop of `down(h, i0, n)` from position `i`, over the first `n` elements: while the lesser
child of the element is less than it, swap the two. The position where the element stops. Go also
stops when `2 * i + 1` overflows, which a `Nat` does not. -/
def downFrom (h : List α) (i n : Nat) : List α × Nat :=
  if hn : n ≤ 2 * i + 1 then (h, i)
  else
    let j1 := 2 * i + 1
    let j := if j1 + 1 < n ∧ less h (j1 + 1) j1 then j1 + 1 else j1
    if !less h j i then (h, i)
    else downFrom (swap h i j) j n
termination_by n - i
decreasing_by
  split <;> omega

theorem downFrom_perm (h : List α) (i n : Nat) : (downFrom h i n).1.Perm h := by
  fun_induction downFrom h i n with
  | case1 h i hn => exact List.Perm.refl h
  | case2 h i hn j1 j hstop => exact List.Perm.refl h
  | case3 h i hn j1 j hmove ih => exact ih.trans (swap_perm h _ _)

/-- `down(h, i0, n)`: the slice, and whether the element moved. -/
def down (h : List α) (i0 n : Nat) : List α × Bool :=
  let (h, i) := downFrom h i0 n
  (h, decide (i0 < i))

/-- `heap.Push(h, x)`: append `x`, then `up(h, h.Len()-1)`. -/
def push (h : List α) (x : α) : List α := up (h ++ [x]) h.length

/-- The slice's own `Pop`: remove the last element and return it. -/
def popLast (h : List α) : Option (α × List α) := h.getLast?.map fun x => (x, h.dropLast)

/-- `heap.Pop(h)`: swap the root with the last element, sift it down over the others, and pop it.
On an empty heap the swap panics. -/
def pop (h : List α) : Option (α × List α) :=
  let n := h.length - 1
  popLast (down (swap h 0 n) 0 n).1

/-- `heap.Remove(h, i)`: swap the element with the last one, sift that down over the others or,
when it does not move, up, and pop the last. A position past the heap panics in the swap. -/
def remove (h : List α) (i : Nat) : Option (α × List α) :=
  if h.length ≤ i then none
  else
    let n := h.length - 1
    let h := if n ≠ i then
        let (h, moved) := down (swap h i n) i n
        if !moved then up h i else h
      else h
    popLast h

/-- The loop of `heap.Init`: `down(h, i, n)` for `i` from `count - 1` down to 0. -/
def heapifyFrom (n : Nat) : Nat → List α → List α
  | 0, h => h
  | i + 1, h => heapifyFrom n i (down h i n).1

/-- `heap.Init(h)`: sift down every parent, from the last one to the root. -/
def init (h : List α) : List α := heapifyFrom h.length (h.length / 2) h

/-! ### What the sift loops move -/

section Frame

/-- `up` from `j` leaves the positions past `j` alone. -/
theorem getElem?_up_of_lt {h : List α} {j k : Nat} (hk : j < k) : (up h j)[k]? = h[k]? := by
  fun_induction up h j with
  | case1 h j hj => rfl
  | case2 h j hj ih =>
    have hpj := parent_le j
    rw [ih (by omega)]
    exact getElem?_swap_of_ne (by omega) (by omega)

/-- The loop of `down` over the first `n` elements leaves the others alone. -/
theorem getElem?_downFrom_of_le {h : List α} {i n k : Nat} (hk : n ≤ k) :
    (downFrom h i n).1[k]? = h[k]? := by
  fun_induction downFrom h i n with
  | case1 h i hn => rfl
  | case2 h i hn j1 j hstop => rfl
  | case3 h i hn j1 j hmove ih =>
    have hj : j < n := by
      simp only [j, j1]
      split <;> omega
    rw [ih]
    exact getElem?_swap_of_ne (by omega) (by omega)

/-- The loop of `down` only moves the element further down, and leaves the slice alone when it
does not move it. -/
theorem downFrom_snd (h : List α) (i n : Nat) :
    i ≤ (downFrom h i n).2 ∧ ((downFrom h i n).2 = i → (downFrom h i n).1 = h) := by
  fun_induction downFrom h i n with
  | case1 h i hn => exact ⟨Nat.le_refl i, fun _ => rfl⟩
  | case2 h i hn j1 j hstop => exact ⟨Nat.le_refl i, fun _ => rfl⟩
  | case3 h i hn j1 j hmove ih =>
    have hij : i < j := by
      simp only [j, j1]
      split <;> omega
    exact ⟨by omega, fun he => by omega⟩

end Frame

/-! ### Order -/

section Order

variable {h : List α} {lo i0 i j n : Nat}

/-- The element at position `c`, where there is one, is at least its parent's. -/
def OrderedAt (h : List α) (c : Nat) : Prop :=
  ∀ x y, h[parent c]? = some x → h[c]? = some y → x ≤ y

/-- The elements at positions below `n` are at least their parents', for the parents from `lo`
on. -/
def Ordered (h : List α) (lo n : Nat) : Prop :=
  ∀ c, 0 < c → c < n → lo ≤ parent c → OrderedAt h c

/-- A heap: every element is at least its parent. -/
def IsHeap (h : List α) : Prop := Ordered h 0 h.length

/-- The element at the parent of `i` is at most the elements at the children of `i` below `n`. -/
def ParentBelow (h : List α) (i n : Nat) : Prop :=
  ∀ c, 0 < c → c < n → parent c = i → ∀ x y, h[parent i]? = some x → h[c]? = some y → x ≤ y

/-- The invariant of `down` from `i0` with the element now at `i`: below `n` and for the parents
from `lo` on, every element is at least its parent except the children of `i` and `i` itself;
once the element has moved, it is at least its parent; and the parent of `i` is at most the
children of `i`. -/
structure DownInv (h : List α) (lo i0 i n : Nat) : Prop where
  except : ∀ c, 0 < c → c < n → lo ≤ parent c → parent c ≠ i → c ≠ i → OrderedAt h c
  moved : i ≠ i0 → OrderedAt h i
  grand : 0 < i → lo ≤ parent i → ParentBelow h i n

/-- The invariant of `up` with the element now at `j`: below `n`, every element is at least its
parent except `j` itself, and the parent of `j` is at most the children of `j`. -/
structure UpInv (h : List α) (j n : Nat) : Prop where
  except : ∀ c, 0 < c → c < n → c ≠ j → OrderedAt h c
  grand : 0 < j → ParentBelow h j n

/-- The child that `down` compares the element at `i` with is a child of `i` below `n`, and at
most the other child. -/
theorem lesserChild_spec (h : List α) (i n : Nat) (hn : ¬ n ≤ 2 * i + 1) :
    let j := if 2 * i + 1 + 1 < n ∧ less h (2 * i + 1 + 1) (2 * i + 1) then 2 * i + 1 + 1
      else 2 * i + 1
    0 < j ∧ parent j = i ∧ j < n ∧
      ∀ c, 0 < c → c < n → parent c = i → ∀ x y, h[j]? = some x → h[c]? = some y → x ≤ y := by
  intro j
  by_cases hr : 2 * i + 1 + 1 < n ∧ less h (2 * i + 1 + 1) (2 * i + 1) = true
  · -- the right child, which is less than the left
    have hj : j = 2 * i + 1 + 1 := if_pos hr
    refine ⟨by omega, by rw [hj, parent_eq_iff (by omega)]; omega, by omega, ?_⟩
    intro c hc0 hcn hc x y hx hy
    rw [hj] at hx
    rcases (parent_eq_iff hc0).1 hc with rfl | rfl
    · exact le_of_lt ((less_eq_true_iff hx hy).1 hr.2)
    · rw [hx] at hy
      cases hy
      exact le_rfl
  · -- the left child: the right one is past `n` or not less than it
    have hj : j = 2 * i + 1 := if_neg hr
    refine ⟨by omega, by rw [hj, parent_eq_iff (by omega)]; omega, by omega, ?_⟩
    intro c hc0 hcn hc x y hx hy
    rw [hj] at hx
    rcases (parent_eq_iff hc0).1 hc with rfl | rfl
    · rw [hx] at hy
      cases hy
      exact le_rfl
    · have hnot : ¬ less h (2 * i + 1 + 1) (2 * i + 1) = true := fun hl => hr ⟨by omega, hl⟩
      exact not_lt.1 fun hlt => hnot ((less_eq_true_iff hy hx).2 hlt)

/-- Where the loop of `down` stops, every element is at least its parent, except the element
itself when it never moved. -/
theorem DownInv.orderedAt_of_stop (hI : DownInv h lo i0 i n)
    (hchild : ∀ c, 0 < c → c < n → parent c = i → OrderedAt h c) {c : Nat} (hc0 : 0 < c)
    (hcn : c < n) (hlo : lo ≤ parent c) (hci : c = i → i ≠ i0) : OrderedAt h c := by
  by_cases hp : parent c = i
  · exact hchild c hc0 hcn hp
  · by_cases hc : c = i
    · rw [hc]
      exact hI.moved (hci hc)
    · exact hI.except c hc0 hcn hlo hp hc

/-- One swap of the loop of `down` keeps its invariant, with the element one level lower. -/
theorem DownInv.step (hI : DownInv h lo i0 i n) (hn : n ≤ h.length) (hlo : lo ≤ i)
    (hj0 : 0 < j) (hji : parent j = i) (hjn : j < n)
    (hmin : ∀ c, 0 < c → c < n → parent c = i → ∀ x y, h[j]? = some x → h[c]? = some y → x ≤ y)
    (hlt : less h j i = true) : DownInv (swap h i j) lo i0 j n := by
  have hij : i < j := hji ▸ parent_lt hj0
  have hi : i < h.length := by omega
  have hj : j < h.length := by omega
  obtain ⟨x, hx⟩ : ∃ x, h[i]? = some x := ⟨h[i], List.getElem?_eq_getElem hi⟩
  obtain ⟨y, hy⟩ : ∃ y, h[j]? = some y := ⟨h[j], List.getElem?_eq_getElem hj⟩
  have hyx : y < x := (less_eq_true_iff hy hx).1 hlt
  -- the swapped slice: `y` at `i`, `x` at `j`, the rest as it was
  have hsi : (swap h i j)[i]? = some y := by
    rw [getElem?_swap hi hj, if_neg (by omega), if_pos rfl, hy]
  have hsj : (swap h i j)[j]? = some x := by
    rw [getElem?_swap hi hj, if_pos rfl, hx]
  have hsk : ∀ k, k ≠ i → k ≠ j → (swap h i j)[k]? = h[k]? :=
    fun k hki hkj => getElem?_swap_of_ne hki hkj
  refine ⟨fun c hc0 hcn hlo' hpc hc => ?_, fun _ => ?_, fun _ _ => ?_⟩
  · by_cases hci : c = i
    · -- the element now at `i` came up from `j`, so it is at least the parent of `i`
      rw [hci] at hc0 hlo' ⊢
      have hpi := parent_lt hc0
      intro a b ha hb
      rw [hsk _ (by omega) (by omega)] at ha
      rw [hsi] at hb
      cases hb
      exact hI.grand hc0 hlo' j hj0 hjn hji a y ha hy
    · by_cases hpi : parent c = i
      · -- the other child of `i` is at least the lesser one, which came up
        intro a b ha hb
        rw [hpi, hsi] at ha
        cases ha
        rw [hsk c hci hc] at hb
        exact hmin c hc0 hcn hpi y b hy hb
      · intro a b ha hb
        rw [hsk _ hpi hpc] at ha
        rw [hsk c hci hc] at hb
        exact hI.except c hc0 hcn hlo' hpi hci a b ha hb
  · -- the element, now at `j`, is greater than what came up to `i`
    intro a b ha hb
    rw [hji, hsi] at ha
    rw [hsj] at hb
    cases ha
    cases hb
    exact le_of_lt hyx
  · -- the children of `j` are at least the element that came up from `j`
    intro c hc0 hcn hcj a b ha hb
    have hjc : j < c := hcj ▸ parent_lt hc0
    rw [hji, hsi] at ha
    cases ha
    rw [hsk c (by omega) (by omega)] at hb
    have hpy : h[parent c]? = some y := by rw [hcj]; exact hy
    exact hI.except c hc0 hcn (by omega) (by omega) (by omega) y b hpy hb

/-- The loop of `down` from a state with its invariant ends with every element below `n` at least
its parent, for the parents from `lo` on, except the element itself when it never moved. -/
theorem DownInv.orderedAt_downFrom (hI : DownInv h lo i0 i n) (hn : n ≤ h.length) (hlo : lo ≤ i) :
    ∀ c, 0 < c → c < n → lo ≤ parent c → (c = i0 → (downFrom h i n).2 ≠ i0) →
      OrderedAt (downFrom h i n).1 c := by
  fun_induction downFrom h i n with
  | case1 h i hstop =>
    -- no child of the element is below `n`
    intro c hc0 hcn hlo' hc
    refine hI.orderedAt_of_stop (fun c' hc0' hcn' hp => ?_) hc0 hcn hlo'
      fun hci hii => hc (hci.trans hii) hii
    rw [parent_eq_iff hc0'] at hp
    omega
  | case2 h i hstop j1 j hle =>
    -- the element is at most its lesser child
    obtain ⟨hj0, hji, hjn, hmin⟩ : 0 < j ∧ parent j = i ∧ j < n ∧
        ∀ c, 0 < c → c < n → parent c = i → ∀ x y, h[j]? = some x → h[c]? = some y → x ≤ y :=
      lesserChild_spec h i n hstop
    intro c hc0 hcn hlo' hc
    refine hI.orderedAt_of_stop (fun c' hc0' hcn' hp => ?_) hc0 hcn hlo'
      fun hci hii => hc (hci.trans hii) hii
    intro a b ha hb
    obtain ⟨y, hy⟩ : ∃ y, h[j]? = some y := ⟨h[j], List.getElem?_eq_getElem (by omega)⟩
    rw [hp] at ha
    have hay : a ≤ y := not_lt.1 fun hlt => by
      rw [(less_eq_true_iff hy ha).2 hlt] at hle
      cases hle
    exact hay.trans (hmin c' hc0' hcn' hp y b hy hb)
  | case3 h i hstop j1 j hlt ih =>
    obtain ⟨hj0, hji, hjn, hmin⟩ : 0 < j ∧ parent j = i ∧ j < n ∧
        ∀ c, 0 < c → c < n → parent c = i → ∀ x y, h[j]? = some x → h[c]? = some y → x ≤ y :=
      lesserChild_spec h i n hstop
    have hij : i < j := hji ▸ parent_lt hj0
    have hless : less h j i = true := by simpa using hlt
    exact ih (hI.step hn hlo hj0 hji hjn hmin hless) (by simpa using hn) (by omega)

/-- Where `up` stops, at the root or below a parent at most the element, every element is at
least its parent. -/
theorem UpInv.ordered_of_stop (hI : UpInv h j n) (hstop : j = 0 ∨ OrderedAt h j) :
    Ordered h 0 n := by
  intro c hc0 hcn _
  by_cases hcj : c = j
  · rcases hstop with hj | hj
    · omega
    · rw [hcj]
      exact hj
  · exact hI.except c hc0 hcn hcj

/-- One swap of `up` keeps its invariant, with the element one level higher. -/
theorem UpInv.step (hI : UpInv h j n) (hn : n ≤ h.length) (hjn : j < n) (hj0 : 0 < j)
    (hlt : less h j (parent j) = true) : UpInv (swap h (parent j) j) (parent j) n := by
  have hpj := parent_lt hj0
  have hp : parent j < h.length := by omega
  have hj : j < h.length := by omega
  obtain ⟨x, hx⟩ : ∃ x, h[parent j]? = some x := ⟨_, List.getElem?_eq_getElem hp⟩
  obtain ⟨y, hy⟩ : ∃ y, h[j]? = some y := ⟨_, List.getElem?_eq_getElem hj⟩
  have hyx : y < x := (less_eq_true_iff hy hx).1 hlt
  -- the swapped slice: `y` at the parent, `x` at `j`, the rest as it was
  have hsp : (swap h (parent j) j)[parent j]? = some y := by
    rw [getElem?_swap hp hj, if_neg (by omega), if_pos rfl, hy]
  have hsj : (swap h (parent j) j)[j]? = some x := by
    rw [getElem?_swap hp hj, if_pos rfl, hx]
  have hsk : ∀ k, k ≠ parent j → k ≠ j → (swap h (parent j) j)[k]? = h[k]? :=
    fun k hkp hkj => getElem?_swap_of_ne hkp hkj
  refine ⟨fun c hc0 hcn hcp => ?_, fun hp0 => ?_⟩
  · by_cases hcj : c = j
    · -- the old parent, now at `j`, is greater than the element
      rw [hcj]
      intro a b ha hb
      rw [hsp] at ha
      rw [hsj] at hb
      cases ha
      cases hb
      exact le_of_lt hyx
    · by_cases hpc : parent c = parent j
      · -- the other child of the parent was at least the old parent
        intro a b ha hb
        rw [hpc, hsp] at ha
        cases ha
        rw [hsk c hcp hcj] at hb
        have hxb := hI.except c hc0 hcn hcj x b (by rw [hpc]; exact hx) hb
        exact (le_of_lt hyx).trans hxb
      · by_cases hpcj : parent c = j
        · -- a child of `j` is at least the parent of `j`, which came down
          intro a b ha hb
          rw [hpcj, hsj] at ha
          cases ha
          rw [hsk c hcp hcj] at hb
          exact hI.grand hj0 c hc0 hcn hpcj x b hx hb
        · intro a b ha hb
          rw [hsk _ hpc hpcj] at ha
          rw [hsk c hcp hcj] at hb
          exact hI.except c hc0 hcn hcj a b ha hb
  · -- the children of the parent, the element and its sibling, are at least the grandparent
    have hppj := parent_lt hp0
    intro c hc0 hcn hcp a b ha hb
    rw [hsk _ (by omega) (by omega)] at ha
    have hax : a ≤ x := hI.except (parent j) hp0 (by omega) (by omega) a x ha hx
    by_cases hcj : c = j
    · rw [hcj, hsj] at hb
      cases hb
      exact hax
    · have hcp' : c ≠ parent j := fun he => by
        have := parent_lt hc0
        omega
      rw [hsk c hcp' hcj] at hb
      exact hax.trans (hI.except c hc0 hcn hcj x b (by rw [hcp]; exact hx) hb)

/-- `up` from a state with its invariant ends with every element below `n` at least its
parent. -/
theorem UpInv.ordered_up (hI : UpInv h j n) (hn : n ≤ h.length) (hjn : j < n) :
    Ordered (up h j) 0 n := by
  fun_induction up h j with
  | case1 h j hstop =>
    apply hI.ordered_of_stop
    rcases hstop with hpj | hle
    · left
      unfold parent at hpj
      omega
    · right
      intro a b ha hb
      exact not_lt.1 fun hlt => by
        rw [(less_eq_true_iff hb ha).2 hlt] at hle
        cases hle
  | case2 h j hmove ih =>
    have hj0 : 0 < j := by
      have hne : parent j ≠ j := fun he => hmove (.inl he)
      unfold parent at hne
      omega
    have hlt : less h j (parent j) = true := by
      simpa using fun he => hmove (.inr he)
    have hpj := parent_lt hj0
    exact ih (hI.step hn hjn hj0 hlt) (by simpa using hn) (by omega)

/-- Order below `n` reads only the first `n` elements. -/
theorem Ordered.congr {h' : List α} (hord : Ordered h lo n)
    (heq : ∀ k, k < n → h'[k]? = h[k]?) : Ordered h' lo n := by
  intro c hc0 hcn hlo a b ha hb
  have hpc := parent_lt hc0
  rw [heq _ (by omega)] at ha
  rw [heq c hcn] at hb
  exact hord c hc0 hcn hlo a b ha hb

/-- The root of a heap is at most every element. -/
theorem IsHeap.root_le (hH : IsHeap h) {x : α} (hx : h[0]? = some x) : ∀ y ∈ h, x ≤ y := by
  -- by strong induction on the position: the parent comes before its children
  have hpos : ∀ (k : Nat) (y : α), h[k]? = some y → x ≤ y := by
    intro k
    induction k using Nat.strongRecOn with
    | ind k ih =>
      intro y hy
      rcases Nat.eq_zero_or_pos k with rfl | hk0
      · rw [hx] at hy
        cases hy
        exact le_rfl
      · have hk : k < h.length := (List.getElem?_eq_some_iff.1 hy).1
        have hpk := parent_lt hk0
        obtain ⟨z, hz⟩ : ∃ z, h[parent k]? = some z := ⟨_, List.getElem?_eq_getElem (by omega)⟩
        exact (ih _ hpk z hz).trans (hH k hk0 hk (Nat.zero_le _) z y hz hy)
  intro y hy
  obtain ⟨k, hk, rfl⟩ := List.getElem_of_mem hy
  exact hpos k _ (List.getElem?_eq_getElem hk)

end Order

/-! ### The operations -/

section Operations

variable {h : List α}

theorem down_fst (h : List α) (i n : Nat) : (down h i n).1 = (downFrom h i n).1 := rfl

theorem down_snd (h : List α) (i n : Nat) : (down h i n).2 = decide (i < (downFrom h i n).2) :=
  rfl

/-- Popping the last element of a slice whose first `n` elements are a heap leaves a heap. -/
theorem popLast_of_ordered {h' : List α} {n : Nat} {x : α} (hlen : h'.length = n + 1)
    (hord : Ordered h' 0 n) (hx : h'[n]? = some x) (hperm : h'.Perm h) :
    popLast h' = some (x, h'.dropLast) ∧ IsHeap h'.dropLast ∧ (x :: h'.dropLast).Perm h := by
  have hlast : h'.getLast? = some x := by
    rw [List.getLast?_eq_getElem?, hlen, Nat.add_sub_cancel, hx]
  have hne : h' ≠ [] := fun he => by simp [he] at hx
  have hsplit : h'.dropLast ++ [x] = h' := by
    have hget : h'.getLast hne = x :=
      Option.some_inj.1 ((List.getLast?_eq_some_getLast hne).symm.trans hlast)
    rw [← hget]
    exact List.dropLast_concat_getLast hne
  refine ⟨by simp [popLast, hlast], ?_, ?_⟩
  · unfold IsHeap
    rw [List.length_dropLast, hlen, Nat.add_sub_cancel]
    exact hord.congr fun k hk => by rw [List.getElem?_dropLast, if_pos (by omega)]
  · have hp : (h'.dropLast ++ [x]).Perm h := by rw [hsplit]; exact hperm
    exact (List.perm_append_singleton x _).symm.trans hp

/-- `heap.Push` keeps a heap, with the element added. -/
theorem IsHeap.push (hH : IsHeap h) (x : α) :
    IsHeap (SliceHeap.push h x) ∧ (SliceHeap.push h x).Perm (x :: h) := by
  have hperm : (SliceHeap.push h x).Perm (x :: h) := (up_perm _ _).trans (List.perm_append_singleton x h)
  have hinv : UpInv (h ++ [x]) h.length (h.length + 1) := by
    refine ⟨fun c hc0 hcn hcj => ?_, fun hj0 c hc0 hcn hcp => ?_⟩
    · -- an element of the old heap and its parent
      have hpc := parent_lt hc0
      intro a b ha hb
      rw [List.getElem?_append_left (by omega)] at ha
      rw [List.getElem?_append_left (by omega)] at hb
      exact hH c hc0 (by omega) (Nat.zero_le _) a b ha hb
    · -- the new element has no children
      rw [parent_eq_iff hc0] at hcp
      omega
  refine ⟨?_, hperm⟩
  unfold IsHeap
  rw [hperm.length_eq, List.length_cons]
  exact hinv.ordered_up (by simp) (by omega)

/-- `heap.Pop` of a heap returns its root and leaves a heap of the other elements. -/
theorem IsHeap.pop (hH : IsHeap h) (hne : h ≠ []) :
    ∃ x h', SliceHeap.pop h = some (x, h') ∧ h[0]? = some x ∧ IsHeap h' ∧ (x :: h').Perm h := by
  obtain ⟨m, hm⟩ : ∃ m, h.length = m + 1 :=
    ⟨h.length - 1, by have := List.length_pos_iff.2 hne; omega⟩
  have h0 : 0 < h.length := by omega
  have hmlt : m < h.length := by omega
  -- the last element swapped to the root, over the first `m` elements
  have hinv : DownInv (swap h 0 m) 0 0 0 m := by
    refine ⟨fun c hc0 hcn _ hpc _ => ?_, fun h00 => absurd rfl h00,
      fun h00 => absurd h00 (Nat.lt_irrefl 0)⟩
    have hpc' := parent_lt hc0
    intro a b ha hb
    rw [getElem?_swap_of_ne hpc (by omega)] at ha
    rw [getElem?_swap_of_ne (by omega) (by omega)] at hb
    exact hH c hc0 (by omega) (Nat.zero_le _) a b ha hb
  have hperm : (downFrom (swap h 0 m) 0 m).1.Perm h :=
    (downFrom_perm _ _ _).trans (swap_perm _ _ _)
  have hord : Ordered (downFrom (swap h 0 m) 0 m).1 0 m := fun c hc0 hcn hlo =>
    hinv.orderedAt_downFrom (by simp; omega) (Nat.le_refl 0) c hc0 hcn hlo fun hc => absurd hc (by omega)
  obtain ⟨x, hx⟩ : ∃ x, h[0]? = some x := ⟨h[0], List.getElem?_eq_getElem h0⟩
  -- the root is now the last element
  have hlast : (downFrom (swap h 0 m) 0 m).1[m]? = some x := by
    rw [getElem?_downFrom_of_le (Nat.le_refl m), getElem?_swap h0 hmlt, if_pos rfl, hx]
  obtain ⟨hpop, hheap, hperm'⟩ :=
    popLast_of_ordered (by rw [hperm.length_eq, hm]) hord hlast hperm
  refine ⟨x, _, ?_, hx, hheap, hperm'⟩
  rw [SliceHeap.pop, hm, Nat.add_sub_cancel, down_fst]
  exact hpop

/-- Within `heap.Remove` of a position before the last: the last element swapped in, sifted down
or, when it does not move, up, orders the first `n` elements and leaves the removed one last. -/
theorem IsHeap.remove_sift (hH : IsHeap h) {i n : Nat} (hn : h.length = n + 1) (hin : i < n) :
    let d := down (swap h i n) i n
    let h₃ := if (!d.2) = true then up d.1 i else d.1
    h₃.length = n + 1 ∧ Ordered h₃ 0 n ∧ h₃[n]? = h[i]? ∧ h₃.Perm h := by
  intro d h₃
  have hi : i < h.length := by omega
  have hnl : n < h.length := by omega
  -- the last element swapped to `i` is below the parent of `i` only where it is out of order
  have hinv : DownInv (swap h i n) 0 i i n := by
    refine ⟨fun c hc0 hcn _ hpc hci => ?_, fun hii => absurd rfl hii, fun hi0 _ => ?_⟩
    · have hpc' := parent_lt hc0
      intro a b ha hb
      rw [getElem?_swap_of_ne hpc (by omega)] at ha
      rw [getElem?_swap_of_ne hci (by omega)] at hb
      exact hH c hc0 (by omega) (Nat.zero_le _) a b ha hb
    · intro c hc0 hcn hci a b ha hb
      have hpi := parent_lt hi0
      have hic : i < c := hci ▸ parent_lt hc0
      rw [getElem?_swap_of_ne (by omega) (by omega)] at ha
      rw [getElem?_swap_of_ne (by omega) (by omega)] at hb
      obtain ⟨z, hz⟩ : ∃ z, h[i]? = some z := ⟨h[i], List.getElem?_eq_getElem hi⟩
      have haz := hH i hi0 hi (Nat.zero_le _) a z ha hz
      have hzb := hH c hc0 (by omega) (Nat.zero_le _) z b (by rw [hci]; exact hz) hb
      exact haz.trans hzb
  have hperm₁ : (downFrom (swap h i n) i n).1.Perm h :=
    (downFrom_perm _ _ _).trans (swap_perm _ _ _)
  have hlast₁ : (downFrom (swap h i n) i n).1[n]? = h[i]? := by
    rw [getElem?_downFrom_of_le (Nat.le_refl n), getElem?_swap hi hnl, if_pos rfl]
  have hsift := hinv.orderedAt_downFrom (by simp; omega) (Nat.zero_le i)
  obtain ⟨hle, hsame⟩ := downFrom_snd (swap h i n) i n
  by_cases hmoved : i < (downFrom (swap h i n) i n).2
  · -- moved down: the sift ordered every element
    have hd : h₃ = (downFrom (swap h i n) i n).1 := by
      simp [h₃, d, down_snd, hmoved, down_fst]
    rw [hd]
    exact ⟨by rw [hperm₁.length_eq, hn], fun c hc0 hcn hlo => hsift c hc0 hcn hlo fun _ => by omega,
      hlast₁, hperm₁⟩
  · -- not moved: the swapped slice is ordered except at `i`, and `up` orders it
    have heqi : (downFrom (swap h i n) i n).2 = i := by omega
    have hd : h₃ = up (swap h i n) i := by
      simp [h₃, d, down_snd, hmoved, down_fst, hsame heqi]
    have hinvUp : UpInv (swap h i n) i n := by
      refine ⟨fun c hc0 hcn hci => ?_, fun hi0 => hinv.grand hi0 (Nat.zero_le _)⟩
      have hc := hsift c hc0 hcn (Nat.zero_le _) fun hc => absurd hc hci
      rwa [hsame heqi] at hc
    rw [hd]
    refine ⟨by rw [(up_perm _ _).length_eq, length_swap, hn],
      hinvUp.ordered_up (by simp; omega) hin, ?_, (up_perm _ _).trans (swap_perm _ _ _)⟩
    rw [getElem?_up_of_lt hin, getElem?_swap hi hnl, if_pos rfl]

/-- `heap.Remove` of a position of a heap returns the element there and leaves a heap of the
others. -/
theorem IsHeap.remove (hH : IsHeap h) {i : Nat} (hi : i < h.length) :
    ∃ h', SliceHeap.remove h i = some (h[i], h') ∧ IsHeap h' ∧ (h[i] :: h').Perm h := by
  obtain ⟨n, hn⟩ : ∃ n, h.length = n + 1 := ⟨h.length - 1, by omega⟩
  have hx : h[i]? = some h[i] := List.getElem?_eq_getElem hi
  -- the slice before its last element is popped
  obtain ⟨h₃, heq, hlen, hord, hlast, hperm⟩ : ∃ h₃ : List α,
      (if n ≠ i then
        if (!(down (swap h i n) i n).snd) = true then up (down (swap h i n) i n).fst i
        else (down (swap h i n) i n).fst
      else h) = h₃ ∧ h₃.length = n + 1 ∧ Ordered h₃ 0 n ∧ h₃[n]? = some h[i] ∧ h₃.Perm h := by
    by_cases hni : n = i
    · -- the last element itself: nothing to sift
      rw [if_neg (not_not.2 hni)]
      have hord : Ordered h 0 n := by
        intro c hc0 hcn _
        exact hH c hc0 (by omega) (Nat.zero_le _)
      exact ⟨h, rfl, hn, hord, by rw [hni]; exact hx, List.Perm.refl h⟩
    · rw [if_pos hni]
      obtain ⟨hlen, hord, hlast, hperm⟩ := hH.remove_sift hn (show i < n by omega)
      exact ⟨_, rfl, hlen, hord, hlast.trans hx, hperm⟩
  obtain ⟨hpop, hheap, hperm'⟩ := popLast_of_ordered hlen hord hlast hperm
  refine ⟨_, ?_, hheap, hperm'⟩
  unfold SliceHeap.remove
  rw [if_neg (by omega)]
  dsimp only
  rw [hn, Nat.add_sub_cancel, heq]
  exact hpop

/-- The loop of `heap.Init` from `count` down: with the parents from `count` on in order, it
puts every parent in order. -/
theorem ordered_heapifyFrom {n : Nat} (count : Nat) {h : List α} (hn : h.length = n)
    (hord : Ordered h count n) :
    Ordered (heapifyFrom n count h) 0 n ∧ (heapifyFrom n count h).Perm h := by
  induction count generalizing h with
  | zero => exact ⟨hord, List.Perm.refl h⟩
  | succ k ih =>
    -- `down` from `k`: the parents past `k` are in order, and the parent of `k` is before `k`
    have hinv : DownInv h k k k n :=
      ⟨fun c hc0 hcn hlo hpc _ => hord c hc0 hcn (by omega), fun hkk => absurd rfl hkk,
        fun hk0 hlo => absurd hlo (by have := parent_lt hk0; omega)⟩
    have hperm := downFrom_perm h k n
    have hord' : Ordered (downFrom h k n).1 k n := fun c hc0 hcn hlo =>
      hinv.orderedAt_downFrom (by omega) (Nat.le_refl k) c hc0 hcn hlo
        fun hck => absurd hlo (by have := parent_lt hc0; omega)
    obtain ⟨hfinal, hperm'⟩ := ih (hperm.length_eq.trans hn) hord'
    exact ⟨hfinal, hperm'.trans hperm⟩

/-- `heap.Init` makes a heap of any slice. -/
theorem isHeap_init (h : List α) : IsHeap (init h) ∧ (init h).Perm h := by
  -- no position below the length has a parent from half the length on
  have hnone : Ordered h (h.length / 2) h.length :=
    fun c hc0 hcn hlo => absurd hlo (by unfold parent; omega)
  obtain ⟨hord, hperm⟩ := ordered_heapifyFrom (h.length / 2) rfl hnone
  refine ⟨?_, hperm⟩
  unfold IsHeap init
  rw [hperm.length_eq]
  exact hord

end Operations

end SliceHeap
