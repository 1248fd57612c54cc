import IntChain.Lib.SliceHeap
import IntChain.Lib.KeyMap
import IntChain.Lib.Run

/-!
# The nonce-sorted map of an account's transactions

`txSortedMap` of `core/tx_list.go`: the transactions of one account, in the map `items` from
nonce to transaction, with `index`, a heap of the nonces kept through `container/heap` (a
`nonceHeap`), and `cache`, the transactions sorted by nonce, which `Flatten` fills and which
`Put`, `Filter`, `Remove` and `Ready` drop. `Forward` pops the nonces below a threshold off the
heap, `Cap` sorts the heap and drops the highest nonces, and `Ready` pops the run of consecutive
nonces at the bottom of the heap.

A transaction is of any type `τ` with its nonce `txNonce`; the default transaction is the nil
pointer that reading an absent nonce gives. Nonces are `Nat`, as nothing here reaches 2^64.
`sort.Sort` sorts nonces, or transactions of distinct nonces, so any sort gives the order
`mergeSort` gives. A Go map is a `KeyMap`, whose keys are visited in the order they were put in,
save in `Filter`, whose ranges visit them in any order, given by the call; a panic is `none`.
-/

namespace IntChain

/-- `txSortedMap`. -/
structure TxSortedMap (τ : Type) where
  items : KeyMap Nat τ
  index : List Nat
  cache : Option (List τ)

/-- A call on a sorted map. -/
inductive TxSortedMapCall (τ : Type) where
  | put (tx : τ)
  | forward (threshold : Nat)
  /-- `Filter`, with the order in which the ranges over the Go map visit its entries: any
  permutation of them. -/
  | filter (f : τ → Bool) (rangeOrder : List (Nat × τ) → List (Nat × τ))
      (hrange : ∀ l, (rangeOrder l).Perm l)
  | cap (threshold : Int)
  | remove (nonce : Nat)
  | ready (start : Nat)
  | flatten

variable {τ : Type} [Inhabited τ] (txNonce : τ → Nat)

/-- `newTxSortedMap`. -/
def newTxSortedMap : TxSortedMap τ := ⟨KeyMap.empty, [], none⟩

namespace TxSortedMap

/-- `m.items[nonce]`: the nil transaction when the nonce is absent. -/
def get (m : TxSortedMap τ) (nonce : Nat) : τ := m.items.findD nonce default

/-- `Len`. -/
def len (m : TxSortedMap τ) : Nat := m.items.keys.length

/-- `Put`: a new nonce goes on the heap; the transaction replaces any of its nonce. No nil
transaction is ever stored, so a nil read is an absent nonce. -/
def put (m : TxSortedMap τ) (tx : τ) : TxSortedMap τ :=
  let nonce := txNonce tx
  let index := if m.items.find? nonce = none then SliceHeap.push m.index nonce else m.index
  ⟨m.items.insert nonce tx, index, none⟩

/-- The loop of `Forward`: while the least nonce on the heap is below `threshold`, pop it and
take out its transaction. Each turn pops a nonce, so the length of the heap bounds the turns. -/
def forwardLoop (threshold : Nat) :
    Nat → TxSortedMap τ → List τ → Option (TxSortedMap τ × List τ)
  | 0, m, removed => some (m, removed)
  | fuel + 1, m, removed =>
    match m.index[0]? with
    | some least =>
      if least < threshold then
        (SliceHeap.pop m.index).bind fun (nonce, index) =>
          forwardLoop threshold fuel { m with items := m.items.erase nonce, index := index }
            (removed ++ [m.get nonce])
      else some (m, removed)
    | none => some (m, removed)

/-- `Forward`: remove the transactions of nonces below `threshold`, and shift the front of the
cache by as many. -/
def forward (m : TxSortedMap τ) (threshold : Nat) : Option (TxSortedMap τ × List τ) :=
  (forwardLoop threshold m.index.length m []).bind fun (m, removed) =>
    match m.cache with
    | some cache =>
      -- `m.cache[len(removed):]` panics past the end of the cache
      if removed.length ≤ cache.length then
        some ({ m with cache := some (cache.drop removed.length) }, removed)
      else none
    | none => some (m, removed)

/-- The first loop of `Filter`: over the entries of `items`, in the order `rangeOrder` visits
them, take out those `f` holds of. -/
def filterItems (rangeOrder : List (Nat × τ) → List (Nat × τ)) (f : τ → Bool)
    (items : KeyMap Nat τ) : KeyMap Nat τ × List τ :=
  (rangeOrder items.entries).foldl (fun (acc : KeyMap Nat τ × List τ) (e : Nat × τ) =>
    if f e.2 then (acc.1.erase e.1, acc.2 ++ [e.2]) else acc) (items, [])

/-- `Filter`: remove the transactions `f` holds of; when any went, rebuild the heap from the
nonces left, in the order `rangeOrder` visits them, and drop the cache. -/
def filter (m : TxSortedMap τ) (rangeOrder : List (Nat × τ) → List (Nat × τ)) (f : τ → Bool) :
    TxSortedMap τ × List τ :=
  let (items, removed) := filterItems rangeOrder f m.items
  if 0 < removed.length then
    (⟨items, SliceHeap.init ((rangeOrder items.entries).map Prod.fst), none⟩, removed)
  else ({ m with items := items }, removed)

/-- The loop of `Cap` over the sorted heap `index`, for `size` from the number of transactions
down to `threshold + 1`: take out the transaction of the nonce at `size - 1`. Below position 0
the read panics. -/
def capLoop (index : List Nat) (threshold : Int) :
    Nat → KeyMap Nat τ × List τ → Option (KeyMap Nat τ × List τ)
  | size, (items, drops) =>
    if threshold < size then
      match size with
      | 0 => none
      | size + 1 =>
        match index[size]? with
        | some nonce =>
          capLoop index threshold size (items.erase nonce, drops ++ [items.findD nonce default])
        | none => none
    else some (items, drops)

/-- `Cap`: with more than `threshold` transactions, sort the heap, take out the transactions of
the highest nonces, keep the first `threshold` nonces as the heap, and shift the back of the
cache by as many. -/
def cap (m : TxSortedMap τ) (threshold : Int) : Option (TxSortedMap τ × List τ) :=
  if (m.len : Int) ≤ threshold then some (m, [])
  else
    let index := m.index.mergeSort fun a b => decide (a ≤ b)
    (capLoop index threshold m.len (m.items, [])).bind fun (items, drops) =>
      -- `(*m.index)[:threshold]` past the length of the heap would read its spare capacity
      if (index.length : Int) < threshold then none
      else
        let index := SliceHeap.init (index.take threshold.toNat)
        match m.cache with
        | some cache =>
          if drops.length ≤ cache.length then
            some (⟨items, index, some (cache.take (cache.length - drops.length))⟩, drops)
          else none
        | none => some (⟨items, index, none⟩, drops)

/-- `Remove`: take out the transaction of `nonce`, if any, and its nonce from the first position
of the heap that holds it. -/
def remove (m : TxSortedMap τ) (nonce : Nat) : Option (TxSortedMap τ × Bool) :=
  match m.items.find? nonce with
  | none => some (m, false)
  | some _ =>
    let index := match m.index.idxOf? nonce with
      | some i => (SliceHeap.remove m.index i).map Prod.snd
      | none => some m.index
    index.map fun index => (⟨m.items.erase nonce, index, none⟩, true)

/-- The loop of `Ready`: while the least nonce on the heap is `next`, take out its transaction,
pop it, and go on with `next + 1`. Each turn pops a nonce, so the length of the heap bounds the
turns. -/
def readyLoop : Nat → Nat → TxSortedMap τ → List τ → Option (TxSortedMap τ × List τ)
  | 0, _, m, ready => some (m, ready)
  | fuel + 1, next, m, ready =>
    if m.index[0]? = some next then
      (SliceHeap.pop m.index).bind fun (_, index) =>
        readyLoop fuel (next + 1) { m with items := m.items.erase next, index := index }
          (ready ++ [m.get next])
    else some (m, ready)

/-- `Ready`: nothing when the least nonce is past `start`; otherwise the transactions of the
consecutive nonces from the least one on, taken out, and the cache dropped. -/
def ready (m : TxSortedMap τ) (start : Nat) : Option (TxSortedMap τ × List τ) :=
  match m.index[0]? with
  | none => some (m, [])
  | some least =>
    if start < least then some (m, [])
    else (readyLoop m.index.length least m []).map fun (m, ready) => ({ m with cache := none }, ready)

/-- The transactions of a map sorted by nonce, as `Flatten` sorts them. -/
def sortTxs (items : KeyMap Nat τ) : List τ :=
  (items.entries.map Prod.snd).mergeSort fun a b => decide (txNonce a ≤ txNonce b)

/-- `Flatten`: the cache, sorted and kept first when there is none. -/
def flatten (m : TxSortedMap τ) : TxSortedMap τ × List τ :=
  match m.cache with
  | some cache => (m, cache)
  | none =>
    let cache := sortTxs txNonce m.items
    ({ m with cache := some cache }, cache)

end TxSortedMap

/-- One call; a panic ends the run. -/
def TxSortedMapCall.run : TxSortedMapCall τ → TxSortedMap τ → Option (TxSortedMap τ)
  | .put tx, m => some (m.put txNonce tx)
  | .forward threshold, m => (m.forward threshold).map (·.1)
  | .filter f rangeOrder _, m => some (m.filter rangeOrder f).1
  | .cap threshold, m => (m.cap threshold).map (·.1)
  | .remove nonce, m => (m.remove nonce).map (·.1)
  | .ready start, m => (m.ready start).map (·.1)
  | .flatten, m => some (m.flatten txNonce).1

/-- A run of calls on a sorted map. -/
def runTxSortedMapCalls (m : TxSortedMap τ) (calls : List (TxSortedMapCall τ)) :
    Option (TxSortedMap τ) :=
  calls.foldlM (fun m call => call.run txNonce m) m

/-! ### Transactions in nonce order

What the map stands for: its transactions in increasing nonce order. With each transaction at
its own nonce, that order is the only one, so any list of the transactions in it is the sorted
one; the lemmas below say what taking out the least or the greatest nonce, or a filter, does to
it. -/

section Sorted

omit [Inhabited τ]

open TxSortedMap

/-- Every transaction sits at its own nonce. -/
def NoncesKeyed (items : KeyMap Nat τ) : Prop :=
  ∀ n tx, items.find? n = some tx → txNonce tx = n

/-- Transactions in strictly increasing nonce order. -/
def NonceSorted (l : List τ) : Prop :=
  l.Pairwise fun a b => txNonce a < txNonce b

/-- The transactions at the front of a list whose nonces run on from `next` without a gap. -/
def consecutiveFrom : Nat → List τ → List τ
  | _, [] => []
  | next, tx :: txs => if txNonce tx = next then tx :: consecutiveFrom (next + 1) txs else []

/-- What `Ready` is for: the run of consecutive nonces from the least one, when the least one is
at most `start`. -/
def readyRun (start : Nat) : List τ → List τ
  | [] => []
  | tx :: txs => if txNonce tx ≤ start then consecutiveFrom txNonce (txNonce tx) (tx :: txs) else []

variable {txNonce} {items : KeyMap Nat τ}

theorem NoncesKeyed.erase (hk : NoncesKeyed txNonce items) (n : Nat) :
    NoncesKeyed txNonce (items.erase n) := by
  intro k tx h
  rw [KeyMap.find?_erase] at h
  split_ifs at h
  exact hk k tx h

theorem NoncesKeyed.nonce_mem_keys (hk : NoncesKeyed txNonce items) {tx : τ}
    (htx : tx ∈ items.entries.map Prod.snd) : txNonce tx ∈ items.keys := by
  obtain ⟨e, he, rfl⟩ := List.mem_map.1 htx
  rw [hk e.1 e.2 (KeyMap.find?_of_mem he)]
  exact List.mem_map_of_mem he

theorem NoncesKeyed.map_txNonce (hk : NoncesKeyed txNonce items) :
    (items.entries.map Prod.snd).map txNonce = items.keys := by
  rw [List.map_map, KeyMap.keys]
  apply List.map_congr_left
  intro e he
  exact hk e.1 e.2 (KeyMap.find?_of_mem he)

theorem NoncesKeyed.keys_perm (hk : NoncesKeyed txNonce items) :
    items.keys.Perm ((sortTxs txNonce items).map txNonce) := by
  rw [← hk.map_txNonce]
  exact ((List.mergeSort_perm _ _).map txNonce).symm

variable (txNonce) in
theorem sortTxs_perm (items : KeyMap Nat τ) :
    (sortTxs txNonce items).Perm (items.entries.map Prod.snd) :=
  List.mergeSort_perm _ _

/-- The sorted transactions are in increasing nonce order. -/
theorem NoncesKeyed.nonceSorted_sortTxs (hk : NoncesKeyed txNonce items) :
    NonceSorted txNonce (sortTxs txNonce items) := by
  have hle : (sortTxs txNonce items).Pairwise fun a b => decide (txNonce a ≤ txNonce b) = true :=
    List.pairwise_mergeSort (fun a b c hab hbc => by simp only [decide_eq_true_eq] at *; omega)
      (fun a b => by simp only [Bool.or_eq_true, decide_eq_true_eq]; omega) _
  -- the nonces are the keys, which are distinct
  have hnd : ((sortTxs txNonce items).map txNonce).Nodup := by
    have hp := (sortTxs_perm txNonce items).map txNonce
    rw [hk.map_txNonce] at hp
    exact hp.nodup_iff.2 items.nodup
  have hne : (sortTxs txNonce items).Pairwise fun a b => txNonce a ≠ txNonce b :=
    List.pairwise_map.1 hnd
  exact (hle.and hne).imp fun h => lt_of_le_of_ne (by simpa using h.1) h.2

/-- Any list of the transactions in increasing nonce order is the sorted one. -/
theorem NoncesKeyed.eq_sortTxs (hk : NoncesKeyed txNonce items) {l : List τ}
    (hp : l.Perm (items.entries.map Prod.snd)) (hs : NonceSorted txNonce l) :
    l = sortTxs txNonce items :=
  List.Perm.eq_of_pairwise (fun _ _ _ _ hab hba => absurd (hab.trans hba) (lt_irrefl _)) hs
    hk.nonceSorted_sortTxs (hp.trans (sortTxs_perm txNonce items).symm)

theorem NoncesKeyed.find?_of_mem_sortTxs (hk : NoncesKeyed txNonce items) {tx : τ}
    (htx : tx ∈ sortTxs txNonce items) : items.find? (txNonce tx) = some tx := by
  obtain ⟨e, he, rfl⟩ := List.mem_map.1 ((sortTxs_perm txNonce items).subset htx)
  rw [hk e.1 e.2 (KeyMap.find?_of_mem he)]
  exact KeyMap.find?_of_mem he

/-- Taking a transaction's nonce out of the map takes the transaction out of the sorted list,
wherever it stands there. -/
theorem NoncesKeyed.sortTxs_erase (hk : NoncesKeyed txNonce items) {l₁ l₂ : List τ} {tx : τ}
    (h : sortTxs txNonce items = l₁ ++ tx :: l₂) :
    sortTxs txNonce (items.erase (txNonce tx)) = l₁ ++ l₂ := by
  have hfind := hk.find?_of_mem_sortTxs (h ▸ List.mem_append_right l₁ List.mem_cons_self)
  have hsorted := hk.nonceSorted_sortTxs
  rw [h] at hsorted
  symm
  apply (hk.erase _).eq_sortTxs
  · -- both sides are the values of the map without `tx`
    have hp := (KeyMap.entries_perm_erase hfind).map Prod.snd
    rw [List.map_cons] at hp
    refine (List.perm_cons tx).1 (List.perm_middle.symm.trans ?_)
    rw [← h]
    exact (sortTxs_perm txNonce items).trans hp
  · exact hsorted.sublist ((List.sublist_cons_self tx l₂).append_left l₁)

/-- Taking a nonce out of the map takes its transaction out of the sorted list. -/
theorem NoncesKeyed.sortTxs_erase_eq_filter (hk : NoncesKeyed txNonce items) (n : Nat) :
    sortTxs txNonce (items.erase n) = (sortTxs txNonce items).filter (txNonce · ≠ n) := by
  symm
  apply (hk.erase n).eq_sortTxs
  · -- the entries of the other nonces are those of the other transactions
    have hfilter : items.entries.filter (fun e => decide (txNonce e.2 ≠ n)) =
        (items.erase n).entries := by
      show _ = items.entries.filter fun e => decide (e.1 ≠ n)
      apply List.filter_congr
      intro e he
      rw [hk e.1 e.2 (KeyMap.find?_of_mem he)]
    have hp := (sortTxs_perm txNonce items).filter (txNonce · ≠ n)
    rw [List.filter_map] at hp
    rw [← hfilter]
    exact hp
  · exact hk.nonceSorted_sortTxs.sublist List.filter_sublist

/-- A list in nonce order is its part below a threshold followed by the rest. -/
theorem NonceSorted.filter_lt_append {l : List τ} (hs : NonceSorted txNonce l) (t : Nat) :
    l.filter (txNonce · < t) ++ l.filter (t ≤ txNonce ·) = l := by
  induction l with
  | nil => rfl
  | cons tx l ih =>
    obtain ⟨hlt, hs⟩ := List.pairwise_cons.1 hs
    by_cases htx : txNonce tx < t
    · simp [htx, Nat.not_le.2 htx, ih hs]
    · -- everything after `tx` is past the threshold as well
      have hlo : l.filter (txNonce · < t) = [] := List.filter_eq_nil_iff.2 fun y hy => by
        have := hlt y hy
        simp only [decide_eq_true_eq]
        omega
      have hhi : l.filter (t ≤ txNonce ·) = l := List.filter_eq_self.2 fun y hy => by
        have := hlt y hy
        simp only [decide_eq_true_eq]
        omega
      simp [htx, Nat.le_of_not_lt htx, hlo, hhi]

/-- The first loop of `Filter` keeps the entries `f` fails on, and returns the values of the
others in the order the range visits them. -/
theorem filterItems_eq {rangeOrder : List (Nat × τ) → List (Nat × τ)} (f : τ → Bool)
    (items : KeyMap Nat τ) (hrange : (rangeOrder items.entries).Perm items.entries) :
    (filterItems rangeOrder f items).1.entries = items.entries.filter (fun e => !f e.2) ∧
      (filterItems rangeOrder f items).2 =
        ((rangeOrder items.entries).filter fun e => f e.2).map Prod.snd := by
  -- after the entries of `pre`, those of them `f` holds of are gone
  let P : List (Nat × τ) → KeyMap Nat τ × List τ → Prop := fun pre acc =>
    acc.1.entries = items.entries.filter (fun e => !(f e.2 && pre.any fun p => p.1 == e.1)) ∧
      acc.2 = (pre.filter fun e => f e.2).map Prod.snd
  have hrun : P (rangeOrder items.entries) (filterItems rangeOrder f items) := by
    apply Run.foldl_prefix_induction
    · simp [P]
    · intro pre x rest acc hsplit ⟨h1, h2⟩
      have hx : x ∈ items.entries := hrange.mem_iff.1 (by rw [← hsplit]; simp)
      -- an entry of the key of `x` is `x`
      have hsame : ∀ e ∈ items.entries, e.1 = x.1 → e = x := fun e he =>
        KeyMap.eq_of_mem_of_fst_eq he hx
      by_cases hfx : f x.2
      · refine ⟨?_, by simp [h2, hfx]⟩
        simp only [hfx, if_true, KeyMap.erase, h1, List.filter_filter]
        apply List.filter_congr
        intro e he
        by_cases hex : e.1 = x.1
        · simp [hsame e he hex, hfx]
        · have hxe : (x.1 == e.1) = false := by simpa using Ne.symm hex
          simp [hex, hxe]
      · refine ⟨?_, by simp [h2, hfx]⟩
        simp only [hfx, Bool.false_eq_true, if_false, h1]
        apply List.filter_congr
        intro e he
        by_cases hex : e.1 = x.1
        · simp [hsame e he hex, hfx]
        · have hxe : (x.1 == e.1) = false := by simpa using Ne.symm hex
          simp [hxe]
  obtain ⟨h1, h2⟩ := hrun
  refine ⟨?_, h2⟩
  rw [h1]
  apply List.filter_congr
  intro e he
  -- every entry is visited, whatever the order
  have hany : (rangeOrder items.entries).any (fun p => p.1 == e.1) = true :=
    List.any_eq_true.2 ⟨e, hrange.mem_iff.2 he, beq_self_eq_true _⟩
  simp [hany]

/-- The first loop of `Filter` on a map of transactions at their nonces: the map keeps the
sorted transactions `f` fails on, and the loop returns the others, in some order. -/
theorem NoncesKeyed.filterItems (hk : NoncesKeyed txNonce items) (f : τ → Bool)
    {rangeOrder : List (Nat × τ) → List (Nat × τ)}
    (hrange : (rangeOrder items.entries).Perm items.entries) :
    NoncesKeyed txNonce (TxSortedMap.filterItems rangeOrder f items).1 ∧
      sortTxs txNonce (TxSortedMap.filterItems rangeOrder f items).1 =
        (sortTxs txNonce items).filter (fun tx => !f tx) ∧
      (TxSortedMap.filterItems rangeOrder f items).2.Perm ((sortTxs txNonce items).filter f) := by
  obtain ⟨h1, h2⟩ := filterItems_eq f items hrange
  have hkeyed : NoncesKeyed txNonce (TxSortedMap.filterItems rangeOrder f items).1 := by
    intro n tx h
    have hmem := KeyMap.mem_of_find? h
    rw [h1] at hmem
    exact hk n tx (KeyMap.find?_of_mem (List.mem_of_mem_filter hmem))
  refine ⟨hkeyed, ?_, ?_⟩
  · symm
    apply hkeyed.eq_sortTxs
    · have hp := (sortTxs_perm txNonce items).filter (fun tx => !f tx)
      rw [List.filter_map] at hp
      rw [h1]
      exact hp
    · exact hk.nonceSorted_sortTxs.sublist List.filter_sublist
  · have hp := (sortTxs_perm txNonce items).filter f
    rw [List.filter_map] at hp
    rw [h2]
    exact ((hrange.filter _).map Prod.snd).trans hp.symm

end Sorted

/-! ### The representation invariant

The heap holds each nonce of the map once, and the cache, when there is one, holds the sorted
transactions. Every call keeps this, and each call's result is then a function of the sorted
transactions alone. -/

namespace TxSortedMap

section Layout

omit [Inhabited τ]

/-- The heap and the map in step. The loops of `Forward` and `Ready` keep this while the cache
lags behind. -/
structure Layout (m : TxSortedMap τ) : Prop where
  keyed : NoncesKeyed txNonce m.items
  index : m.index.Perm m.items.keys
  heap : SliceHeap.IsHeap m.index

/-- The representation invariant of `txSortedMap`. -/
structure Inv (m : TxSortedMap τ) : Prop extends Layout txNonce m where
  cache : ∀ c, m.cache = some c → c = sortTxs txNonce m.items

variable {txNonce} {m : TxSortedMap τ}

/-- The heap holds the nonces of the sorted transactions. -/
theorem Layout.index_perm (hl : Layout txNonce m) :
    m.index.Perm ((sortTxs txNonce m.items).map txNonce) :=
  hl.index.trans hl.keyed.keys_perm

theorem Layout.sortTxs_eq_nil (hl : Layout txNonce m) (h : m.index[0]? = none) :
    sortTxs txNonce m.items = [] := by
  have hidx : m.index = [] := List.eq_nil_of_length_eq_zero (by simpa using h)
  have hp := hl.index_perm
  rw [hidx] at hp
  exact List.map_eq_nil_iff.1 (List.nil_perm.1 hp)

/-- The root of the heap is the nonce of the first sorted transaction. -/
theorem Layout.sortTxs_eq_cons (hl : Layout txNonce m) {least : Nat}
    (h : m.index[0]? = some least) :
    ∃ tx rest, sortTxs txNonce m.items = tx :: rest ∧ txNonce tx = least := by
  obtain ⟨tx', htx', hleast⟩ := List.mem_map.1 (hl.index_perm.subset (List.mem_of_getElem? h))
  obtain ⟨tx, rest, hs⟩ := List.exists_cons_of_ne_nil (List.ne_nil_of_mem htx')
  have hsorted := hl.keyed.nonceSorted_sortTxs
  rw [hs] at htx' hsorted
  refine ⟨tx, rest, hs, Nat.le_antisymm ?_ ?_⟩
  · -- the first transaction has the least nonce of the list
    rw [← hleast]
    rcases List.mem_cons.1 htx' with rfl | hmem
    · exact Nat.le_refl _
    · exact Nat.le_of_lt (List.rel_of_pairwise_cons hsorted hmem)
  · -- and the root of the heap is at most every nonce on it
    apply hl.heap.root_le h
    apply hl.index_perm.symm.subset
    rw [hs]
    exact List.mem_map_of_mem List.mem_cons_self

/-- A heap of the map's nonces less one nonce is a heap of the map without it. -/
theorem Layout.index_erase (hl : Layout txNonce m) {k : Nat} {v : τ}
    (hk : m.items.find? k = some v) {index : List Nat} (hp : (k :: index).Perm m.index) :
    index.Perm (m.items.erase k).keys := by
  have hkeys := (KeyMap.entries_perm_erase hk).map Prod.fst
  rw [List.map_cons] at hkeys
  exact (List.perm_cons k).1 (hp.trans (hl.index.trans hkeys))

/-- Popping the heap gives its least nonce, and with that nonce's transaction taken out the
layout holds again. -/
theorem Layout.pop (hl : Layout txNonce m) {least : Nat} (h : m.index[0]? = some least) :
    ∃ index, SliceHeap.pop m.index = some (least, index) ∧ index.length + 1 = m.index.length ∧
      Layout txNonce { m with items := m.items.erase least, index := index } := by
  have hmem := List.mem_of_getElem? h
  obtain ⟨x, index, hpop, hx, hheap, hperm⟩ := hl.heap.pop (List.ne_nil_of_mem hmem)
  rw [h, Option.some_inj] at hx
  subst hx
  obtain ⟨v, hv⟩ := Option.isSome_iff_exists.1 (KeyMap.find?_isSome_iff.2 (hl.index.subset hmem))
  exact ⟨index, hpop, by simpa using hperm.length_eq, hl.keyed.erase _,
    hl.index_erase hv hperm, hheap⟩

/-- `Put` keeps the invariant: a new nonce goes on the heap, an old one is there already. -/
theorem Inv.put (hi : Inv txNonce m) (tx : τ) : Inv txNonce (m.put txNonce tx) := by
  have hkeyed : NoncesKeyed txNonce (m.items.insert (txNonce tx) tx) := by
    intro n tx' h
    rw [KeyMap.find?_insert] at h
    split_ifs at h with hn
    · rw [← Option.some_inj.1 h, hn]
    · exact hi.keyed n tx' h
  by_cases hnew : m.items.find? (txNonce tx) = none
  · -- a new nonce: pushed on the heap, and appended to the keys
    have hkeys := (KeyMap.entries_perm_insert m.items (txNonce tx) tx).map Prod.fst
    rw [KeyMap.erase_of_find?_eq_none hnew] at hkeys
    obtain ⟨hheap, hperm⟩ := hi.heap.push (txNonce tx)
    refine ⟨⟨hkeyed, ?_, ?_⟩, fun c hc => by cases hc⟩
    · simp only [TxSortedMap.put, hnew, if_true]
      exact hperm.trans ((hi.index.cons _).trans hkeys.symm)
    · simpa [TxSortedMap.put, hnew] using hheap
  · -- an old nonce: the heap and the keys stay as they are
    have hmem : txNonce tx ∈ m.items.keys := by
      by_contra h
      exact hnew (KeyMap.find?_eq_none_iff.2 h)
    refine ⟨⟨hkeyed, ?_, ?_⟩, fun c hc => by cases hc⟩
    · simp only [TxSortedMap.put, hnew, if_false]
      rw [KeyMap.keys_insert_of_mem tx hmem]
      exact hi.index
    · simpa [TxSortedMap.put, hnew] using hi.heap

/-- `Flatten` returns the sorted transactions, and keeps them as the cache. -/
theorem Inv.flatten (hi : Inv txNonce m) :
    (m.flatten txNonce).2 = sortTxs txNonce m.items ∧ Inv txNonce (m.flatten txNonce).1 := by
  unfold TxSortedMap.flatten
  cases hc : m.cache with
  | some c => exact ⟨hi.cache c hc, hi⟩
  | none => exact ⟨rfl, ⟨hi.keyed, hi.index, hi.heap⟩, fun c h => (Option.some_inj.1 h).symm⟩

end Layout

variable {txNonce} {m : TxSortedMap τ}

theorem get_of_mem_sortTxs (hk : NoncesKeyed txNonce m.items) {tx : τ}
    (htx : tx ∈ sortTxs txNonce m.items) : m.get (txNonce tx) = tx := by
  simp [get, KeyMap.findD, hk.find?_of_mem_sortTxs htx]

/-- The transaction at the root of the heap is the first sorted one, and the map without it
holds the rest. -/
theorem Layout.first (hl : Layout txNonce m) {least : Nat} (h : m.index[0]? = some least) :
    ∃ tx rest, sortTxs txNonce m.items = tx :: rest ∧ txNonce tx = least ∧ m.get least = tx ∧
      sortTxs txNonce (m.items.erase least) = rest := by
  obtain ⟨tx, rest, hs, hn⟩ := hl.sortTxs_eq_cons h
  have hrest := hl.keyed.sortTxs_erase (show sortTxs txNonce m.items = [] ++ tx :: rest from hs)
  rw [hn] at hrest
  exact ⟨tx, rest, hs, hn, hn ▸ get_of_mem_sortTxs hl.keyed (hs ▸ List.mem_cons_self), hrest⟩

/-- The loop of `Forward` takes out the sorted transactions below the threshold, in order, and
leaves the layout of the rest; the cache is left behind. -/
theorem Layout.forwardLoop (threshold : Nat) {fuel : Nat} (hl : Layout txNonce m)
    (hfuel : m.index.length ≤ fuel) (removed : List τ) :
    ∃ m', forwardLoop threshold fuel m removed =
        some (m', removed ++ (sortTxs txNonce m.items).filter (txNonce · < threshold)) ∧
      Layout txNonce m' ∧
      sortTxs txNonce m'.items = (sortTxs txNonce m.items).filter (threshold ≤ txNonce ·) ∧
      m'.cache = m.cache := by
  -- by induction on the fuel, which the length of the heap bounds
  induction fuel generalizing m removed with
  | zero =>
    have hnil := hl.sortTxs_eq_nil (List.getElem?_eq_none (by omega))
    exact ⟨m, by simp [TxSortedMap.forwardLoop, hnil], hl, by simp [hnil], rfl⟩
  | succ fuel ih =>
    cases h0 : m.index[0]? with
    | none =>
      have hnil := hl.sortTxs_eq_nil h0
      exact ⟨m, by simp [TxSortedMap.forwardLoop, h0, hnil], hl, by simp [hnil], rfl⟩
    | some least =>
      obtain ⟨tx, rest, hs, hn, hget, hrest⟩ := hl.first h0
      have hsorted := hl.keyed.nonceSorted_sortTxs
      rw [hs] at hsorted
      by_cases hlt : least < threshold
      · -- the least nonce goes, and the loop goes on with the rest
        obtain ⟨index, hpop, hlen, hl'⟩ := hl.pop h0
        obtain ⟨m', hrun, hl'', hsort', hcache⟩ := ih hl' (show index.length ≤ fuel by omega) (removed ++ [tx])
        dsimp only at hrun hsort' hcache
        rw [hrest] at hrun hsort'
        have htx : txNonce tx < threshold := hn ▸ hlt
        refine ⟨m', ?_, hl'', ?_, hcache⟩
        · simp only [TxSortedMap.forwardLoop, h0, hlt, if_true, hpop, Option.bind_some, hget, hrun,
            hs, List.filter_cons_of_pos (p := fun tx => decide (txNonce tx < threshold))
              (by simpa using htx)]
          simp
        · rw [hsort', hs, List.filter_cons_of_neg (by simpa using htx)]
      · -- the least nonce is not below the threshold, and no other nonce is
        have hall : ∀ y ∈ tx :: rest, threshold ≤ txNonce y := by
          intro y hy
          rcases List.mem_cons.1 hy with rfl | hy
          · omega
          · have := List.rel_of_pairwise_cons hsorted hy
            omega
        refine ⟨m, ?_, hl, ?_, rfl⟩
        · simp only [TxSortedMap.forwardLoop, h0, hlt, if_false, hs]
          rw [List.filter_eq_nil_iff.2 fun y hy => by simpa using hall y hy]
          simp
        · rw [hs, List.filter_eq_self.2 fun y hy => by simpa using hall y hy]

/-- `Forward` takes out exactly the transactions below the threshold, in nonce order, and keeps
the invariant: the cache loses as many from its front. -/
theorem Inv.forward (hi : Inv txNonce m) (threshold : Nat) :
    ∃ m', m.forward threshold =
        some (m', (sortTxs txNonce m.items).filter (txNonce · < threshold)) ∧
      Inv txNonce m' ∧
      sortTxs txNonce m'.items = (sortTxs txNonce m.items).filter (threshold ≤ txNonce ·) := by
  obtain ⟨m', hrun, hl', hsort', hcache⟩ := hi.toLayout.forwardLoop threshold (Nat.le_refl _) []
  rw [List.nil_append] at hrun
  simp only [TxSortedMap.forward, hrun, Option.bind_some]
  cases hc : m'.cache with
  | none => exact ⟨m', rfl, ⟨hl', fun c h => nomatch hc ▸ h⟩, hsort'⟩
  | some c =>
    -- the cache is the removed transactions followed by the rest
    have hc' : c = sortTxs txNonce m.items := hi.cache c (hcache ▸ hc)
    have hd : ((sortTxs txNonce m.items).filter (txNonce · < threshold) ++
        (sortTxs txNonce m.items).filter (threshold ≤ txNonce ·)).drop
          ((sortTxs txNonce m.items).filter (txNonce · < threshold)).length =
        (sortTxs txNonce m.items).filter (threshold ≤ txNonce ·) := List.drop_left
    rw [hi.keyed.nonceSorted_sortTxs.filter_lt_append threshold] at hd
    have hlen : ((sortTxs txNonce m.items).filter (txNonce · < threshold)).length ≤ c.length := by
      rw [hc']
      exact List.length_filter_le _ _
    refine ⟨{ m' with cache := some (c.drop
        ((sortTxs txNonce m.items).filter (txNonce · < threshold)).length) }, by simp [hlen],
      ⟨⟨hl'.keyed, hl'.index, hl'.heap⟩, ?_⟩, hsort'⟩
    intro c' h
    rw [← Option.some_inj.1 h, hsort', hc', hd]

omit [Inhabited τ] in
/-- `Remove` takes out the transaction of the nonce, if there is one, and keeps the invariant;
it returns whether there was one. -/
theorem Inv.remove (hi : Inv txNonce m) (nonce : Nat) :
    ∃ m', m.remove nonce = some (m', (m.items.find? nonce).isSome) ∧ Inv txNonce m' ∧
      sortTxs txNonce m'.items = (sortTxs txNonce m.items).filter (txNonce · ≠ nonce) := by
  unfold TxSortedMap.remove
  cases hv : m.items.find? nonce with
  | none =>
    -- no transaction of that nonce: nothing changes
    refine ⟨m, rfl, hi, ?_⟩
    rw [← hi.keyed.sortTxs_erase_eq_filter, KeyMap.erase_of_find?_eq_none hv]
  | some v =>
    -- the nonce is on the heap, and `heap.Remove` takes out its first position
    have hmem : nonce ∈ m.index := hi.index.symm.subset (KeyMap.find?_isSome_iff.1 (by simp [hv]))
    obtain ⟨i, hidx⟩ := Option.isSome_iff_exists.1 (List.isSome_idxOf?.2 hmem)
    obtain ⟨hlt, hget, -⟩ := List.idxOf?_eq_some_iff.1 hidx
    obtain ⟨index, hrem, hheap, hperm⟩ := hi.heap.remove hlt
    rw [hget] at hperm
    refine ⟨⟨m.items.erase nonce, index, none⟩, by simp [hidx, hrem], ⟨⟨hi.keyed.erase nonce,
      hi.toLayout.index_erase hv hperm, hheap⟩, fun c h => by cases h⟩, ?_⟩
    exact hi.keyed.sortTxs_erase_eq_filter nonce

/-- The loop of `Ready` takes out the run of consecutive nonces from `next` at the front of the
sorted transactions, and leaves the layout of the rest. -/
theorem Layout.readyLoop {fuel : Nat} (hl : Layout txNonce m) (hfuel : m.index.length ≤ fuel)
    (next : Nat) (ready : List τ) :
    ∃ m', readyLoop fuel next m ready =
        some (m', ready ++ consecutiveFrom txNonce next (sortTxs txNonce m.items)) ∧
      Layout txNonce m' ∧
      sortTxs txNonce m'.items =
        (sortTxs txNonce m.items).drop (consecutiveFrom txNonce next (sortTxs txNonce m.items)).length := by
  -- by induction on the fuel, which the length of the heap bounds
  induction fuel generalizing m next ready with
  | zero =>
    have hnil := hl.sortTxs_eq_nil (List.getElem?_eq_none (by omega))
    exact ⟨m, by simp [TxSortedMap.readyLoop, hnil, consecutiveFrom], hl,
      by simp [hnil, consecutiveFrom]⟩
  | succ fuel ih =>
    by_cases h0 : m.index[0]? = some next
    · -- the least nonce is `next`: it goes, and the loop goes on from `next + 1`
      obtain ⟨tx, rest, hs, hn, hget, hrest⟩ := hl.first h0
      obtain ⟨index, hpop, hlen, hl'⟩ := hl.pop h0
      obtain ⟨m', hrun, hl'', hsort'⟩ :=
        ih hl' (show index.length ≤ fuel by omega) (next + 1) (ready ++ [tx])
      dsimp only at hrun hsort'
      rw [hrest] at hrun hsort'
      have hcons : consecutiveFrom txNonce next (tx :: rest) =
          tx :: consecutiveFrom txNonce (next + 1) rest := by
        simp [consecutiveFrom, hn]
      refine ⟨m', ?_, hl'', ?_⟩
      · simp only [TxSortedMap.readyLoop, h0, if_true, hpop, Option.bind_some, hget, hrun, hs,
          hcons]
        simp
      · rw [hsort', hs, hcons]
        simp
    · -- otherwise the run is empty
      have hrun : consecutiveFrom txNonce next (sortTxs txNonce m.items) = [] := by
        cases h : m.index[0]? with
        | none => rw [hl.sortTxs_eq_nil h]; rfl
        | some least =>
          obtain ⟨tx, rest, hs, hn⟩ := hl.sortTxs_eq_cons h
          have hne : txNonce tx ≠ next := by
            rintro rfl
            exact h0 (hn ▸ h)
          simp [hs, consecutiveFrom, hne]
      exact ⟨m, by simp [TxSortedMap.readyLoop, h0, hrun], hl, by simp [hrun]⟩

/-- `Ready` returns the run of consecutive nonces from the least one when that one is at most
`start`, takes it out, and drops the cache. -/
theorem Inv.ready (hi : Inv txNonce m) (start : Nat) :
    ∃ m', m.ready start = some (m', readyRun txNonce start (sortTxs txNonce m.items)) ∧
      Inv txNonce m' ∧
      sortTxs txNonce m'.items =
        (sortTxs txNonce m.items).drop (readyRun txNonce start (sortTxs txNonce m.items)).length := by
  unfold TxSortedMap.ready
  cases h0 : m.index[0]? with
  | none =>
    have hnil := hi.toLayout.sortTxs_eq_nil h0
    exact ⟨m, by simp [hnil, readyRun], hi, by simp [hnil, readyRun]⟩
  | some least =>
    obtain ⟨tx, rest, hs, hn⟩ := hi.toLayout.sortTxs_eq_cons h0
    by_cases hlt : start < least
    · -- the least nonce is past `start`: nothing is ready
      have hrun : readyRun txNonce start (sortTxs txNonce m.items) = [] := by
        simp [hs, readyRun, hn, Nat.not_le.2 hlt]
      exact ⟨m, by simp [hlt, hrun], hi, by simp [hrun]⟩
    · obtain ⟨m', hloop, hl', hsort'⟩ := hi.toLayout.readyLoop (Nat.le_refl _) least []
      have hrun : readyRun txNonce start (sortTxs txNonce m.items) =
          consecutiveFrom txNonce least (sortTxs txNonce m.items) := by
        rw [hs]
        simp [readyRun, hn, Nat.le_of_not_lt hlt]
      refine ⟨{ m' with cache := none }, by simp [hlt, hloop, hrun],
        ⟨⟨hl'.keyed, hl'.index, hl'.heap⟩, fun c h => nomatch h⟩, ?_⟩
      rw [hrun]
      exact hsort'

omit [Inhabited τ] in
/-- `Filter` takes out the transactions `f` holds of and keeps the invariant, in whatever order
its ranges visit the map; when any went, the heap is built again from the nonces left. -/
theorem Inv.filter (hi : Inv txNonce m) (f : τ → Bool) {rangeOrder : List (Nat × τ) → List (Nat × τ)}
    (hrange : ∀ l, (rangeOrder l).Perm l) :
    Inv txNonce (m.filter rangeOrder f).1 ∧
      sortTxs txNonce (m.filter rangeOrder f).1.items =
        (sortTxs txNonce m.items).filter (fun tx => !f tx) ∧
      (m.filter rangeOrder f).2.Perm ((sortTxs txNonce m.items).filter f) := by
  obtain ⟨hk, hs, hp⟩ := hi.keyed.filterItems f (hrange _)
  obtain ⟨h1, h2⟩ := filterItems_eq f m.items (hrange _)
  unfold TxSortedMap.filter
  by_cases hpos : 0 < (filterItems rangeOrder f m.items).2.length
  · -- something went: the heap is built again from the nonces left, in the range's order
    set items' := (filterItems rangeOrder f m.items).1
    obtain ⟨hheap, hperm⟩ := SliceHeap.isHeap_init ((rangeOrder items'.entries).map Prod.fst)
    have hkeys : ((rangeOrder items'.entries).map Prod.fst).Perm items'.keys :=
      (hrange _).map Prod.fst
    simp only [hpos, if_true]
    exact ⟨⟨⟨hk, hperm.trans hkeys, hheap⟩, fun c h => nomatch h⟩, hs, hp⟩
  · -- nothing went: the map is as it was
    have hnone : ∀ e ∈ m.items.entries, ¬ f e.2 = true := by
      rw [List.length_pos_iff, not_not, h2, List.map_eq_nil_iff, List.filter_eq_nil_iff] at hpos
      exact fun e he => hpos e ((hrange _).mem_iff.2 he)
    have hsame : (filterItems rangeOrder f m.items).1 = m.items := by
      apply KeyMap.ext_entries
      rw [h1]
      exact List.filter_eq_self.2 fun e he => by simpa using hnone e he
    simp only [hpos, if_false]
    rw [hsame] at hs ⊢
    exact ⟨hi, hs, hp⟩

omit [Inhabited τ] in
/-- Sorting the heap gives the nonces of the sorted transactions. -/
theorem Layout.mergeSort_index (hl : Layout txNonce m) :
    (m.index.mergeSort fun a b => decide (a ≤ b)) = (sortTxs txNonce m.items).map txNonce := by
  have h₁ : (m.index.mergeSort fun a b => decide (a ≤ b)).Pairwise fun a b => decide (a ≤ b) :=
    List.pairwise_mergeSort (fun a b c hab hbc => by simp only [decide_eq_true_eq] at *; omega)
      (fun a b => by simp only [Bool.or_eq_true, decide_eq_true_eq]; omega) _
  have h₂ : ((sortTxs txNonce m.items).map txNonce).Pairwise fun a b => decide (a ≤ b) :=
    List.pairwise_map.2 (hl.keyed.nonceSorted_sortTxs.imp fun h => by simpa using Nat.le_of_lt h)
  refine List.Perm.eq_of_pairwise ?_ h₁ h₂ ((List.mergeSort_perm _ _).trans hl.index_perm)
  intro a b _ _ hab hba
  simp only [decide_eq_true_eq] at hab hba
  omega

/-- With a negative threshold the loop of `Cap` reads the heap at position -1. -/
theorem capLoop_of_neg (index : List Nat) {threshold : Int} (h : threshold < 0) :
    ∀ (size : Nat) (acc : KeyMap Nat τ × List τ), capLoop index threshold size acc = none := by
  intro size
  induction size with
  | zero =>
    intro ⟨items, drops⟩
    rw [capLoop, if_pos (by omega)]
  | succ size ih =>
    intro ⟨items, drops⟩
    rw [capLoop, if_pos (by omega)]
    cases index[size]? with
    | none => rfl
    | some nonce => exact ih _

/-- `Cap` with a negative threshold panics. -/
theorem cap_of_neg (m : TxSortedMap τ) {threshold : Int} (h : threshold < 0) :
    m.cap threshold = none := by
  unfold TxSortedMap.cap
  rw [if_neg (by omega)]
  dsimp only
  rw [capLoop_of_neg _ h, Option.bind_none]

/-- The loop of `Cap` on the nonces of the sorted list `l`, when the map's sorted transactions
are the first `size` of `l`: it takes out those from the threshold on, the highest first. -/
theorem capLoop_spec {l : List τ} {threshold : Int} (hthr : 0 ≤ threshold) :
    ∀ (size : Nat) (items : KeyMap Nat τ) (drops : List τ), NoncesKeyed txNonce items →
      sortTxs txNonce items = l.take size → size ≤ l.length → threshold.toNat ≤ size →
      ∃ items', capLoop (l.map txNonce) threshold size (items, drops) =
          some (items', drops ++ ((l.take size).drop threshold.toNat).reverse) ∧
        NoncesKeyed txNonce items' ∧ sortTxs txNonce items' = l.take threshold.toNat := by
  -- by induction on `size`, the number of transactions left
  intro size
  induction size with
  | zero =>
    intro items drops hk hs _ hle
    have ht : threshold.toNat = 0 := by omega
    refine ⟨items, ?_, hk, by rw [ht]; exact hs⟩
    rw [capLoop, if_neg (by omega)]
    simp
  | succ size ih =>
    intro items drops hk hs hlen hle
    by_cases hlt : threshold < ((size + 1 : Nat) : Int)
    · -- the transaction at `size` goes: it is the last of the map's
      have hsize : size < l.length := by omega
      have htake : l.take (size + 1) = l.take size ++ [l[size]] :=
        List.take_succ_eq_append_getElem hsize
      rw [htake] at hs
      have hrest := hk.sortTxs_erase (show sortTxs txNonce items = l.take size ++ l[size] :: [] from hs)
      rw [List.append_nil] at hrest
      have hget : items.findD (txNonce l[size]) default = l[size] := by
        simp [KeyMap.findD, hk.find?_of_mem_sortTxs (hs ▸ List.mem_append_right _ List.mem_cons_self)]
      obtain ⟨items', hrun, hk', hs'⟩ :=
        ih (items.erase (txNonce l[size])) (drops ++ [l[size]]) (hk.erase _) hrest (by omega) (by omega)
      refine ⟨items', ?_, hk', hs'⟩
      rw [capLoop, if_pos hlt]
      simp only [List.getElem?_map, List.getElem?_eq_getElem hsize, Option.map_some, hget, hrun]
      rw [htake, List.drop_append_of_le_length (by simp; omega), List.reverse_append]
      simp
    · -- the threshold is reached
      have ht : threshold.toNat = size + 1 := by omega
      refine ⟨items, ?_, hk, by rw [ht]; exact hs⟩
      rw [capLoop, if_neg hlt, ht, List.drop_eq_nil_of_le (by simp)]
      simp

/-- `Cap` with a threshold of at least 0 keeps the first `threshold` sorted transactions and
returns the others, the highest nonce first; the cache loses as many from its back. -/
theorem Inv.cap (hi : Inv txNonce m) {threshold : Int} (hthr : 0 ≤ threshold) :
    ∃ m', m.cap threshold =
        some (m', ((sortTxs txNonce m.items).drop threshold.toNat).reverse) ∧
      Inv txNonce m' ∧ sortTxs txNonce m'.items = (sortTxs txNonce m.items).take threshold.toNat := by
  have hlen : m.len = (sortTxs txNonce m.items).length := by
    rw [len, hi.keyed.keys_perm.length_eq, List.length_map]
  unfold TxSortedMap.cap
  by_cases hle : (m.len : Int) ≤ threshold
  · -- at most `threshold` transactions: nothing goes
    rw [if_pos hle, List.drop_eq_nil_of_le (by omega), List.take_of_length_le (by omega)]
    exact ⟨m, rfl, hi, rfl⟩
  · rw [if_neg hle, hi.toLayout.mergeSort_index]
    dsimp only
    obtain ⟨items', hrun, hk', hs'⟩ := capLoop_spec hthr m.len m.items [] hi.keyed
      (by rw [hlen, List.take_length]) (by omega) (by omega)
    rw [hlen, List.take_length, List.nil_append] at hrun
    rw [← hlen] at hrun
    rw [hrun, Option.bind_some]
    -- the first `threshold` nonces are the heap again
    obtain ⟨hheap, hperm⟩ :=
      SliceHeap.isHeap_init (((sortTxs txNonce m.items).map txNonce).take threshold.toNat)
    have hindex : (SliceHeap.init (((sortTxs txNonce m.items).map txNonce).take threshold.toNat)).Perm
        items'.keys := by
      have hkeys : (((sortTxs txNonce m.items).map txNonce).take threshold.toNat).Perm
          items'.keys := by
        rw [← List.map_take, ← hs']
        exact hk'.keys_perm.symm
      exact hperm.trans hkeys
    have hl' : ∀ c, Layout txNonce ⟨items', SliceHeap.init
        (((sortTxs txNonce m.items).map txNonce).take threshold.toNat), c⟩ :=
      fun _ => ⟨hk', hindex, hheap⟩
    simp only [List.length_map, ← hlen, if_neg (show ¬ ((m.len : Nat) : Int) < threshold by omega)]
    cases hc : m.cache with
    | none => exact ⟨_, rfl, ⟨hl' none, fun c h => nomatch h⟩, hs'⟩
    | some c =>
      -- the cache is the kept transactions followed by the dropped ones
      have hc' : c = sortTxs txNonce m.items := hi.cache c hc
      have hdl : ((sortTxs txNonce m.items).drop threshold.toNat).reverse.length ≤ c.length := by
        simp [hc']
      refine ⟨⟨items', SliceHeap.init (((sortTxs txNonce m.items).map txNonce).take threshold.toNat),
        some (c.take (c.length - ((sortTxs txNonce m.items).drop threshold.toNat).reverse.length))⟩,
        by simp only [if_pos hdl], ⟨hl' _, ?_⟩, hs'⟩
      intro c' h
      rw [← Option.some_inj.1 h, hs', hc']
      congr 1
      simp only [List.length_reverse, List.length_drop]
      omega

/-- Each call keeps the invariant. -/
theorem Inv.call (hi : Inv txNonce m) {call : TxSortedMapCall τ} {m' : TxSortedMap τ}
    (h : call.run txNonce m = some m') : Inv txNonce m' := by
  cases call with
  | put tx =>
    cases h
    exact hi.put tx
  | forward threshold =>
    obtain ⟨m'', hf, hi', -⟩ := hi.forward threshold
    simp only [TxSortedMapCall.run, hf, Option.map_some, Option.some_inj] at h
    exact h ▸ hi'
  | filter f rangeOrder hrange =>
    cases h
    exact (hi.filter f hrange).1
  | cap threshold =>
    by_cases hthr : 0 ≤ threshold
    · obtain ⟨m'', hc, hi', -⟩ := hi.cap hthr
      simp only [TxSortedMapCall.run, hc, Option.map_some, Option.some_inj] at h
      exact h ▸ hi'
    · simp [TxSortedMapCall.run, cap_of_neg m (Int.lt_of_not_ge hthr)] at h
  | remove nonce =>
    obtain ⟨m'', hr, hi', -⟩ := hi.remove nonce
    simp only [TxSortedMapCall.run, hr, Option.map_some, Option.some_inj] at h
    exact h ▸ hi'
  | ready start =>
    obtain ⟨m'', hr, hi', -⟩ := hi.ready start
    simp only [TxSortedMapCall.run, hr, Option.map_some, Option.some_inj] at h
    exact h ▸ hi'
  | flatten =>
    cases h
    exact hi.flatten.2

omit [Inhabited τ] in
theorem inv_newTxSortedMap : Inv txNonce (newTxSortedMap : TxSortedMap τ) :=
  ⟨⟨fun _ _ h => (nomatch h), List.Perm.refl _, fun c _ hc _ => absurd hc (Nat.not_lt_zero c)⟩,
    fun _ h => nomatch h⟩

/-- Every run of calls keeps the invariant. -/
theorem Inv.run (hi : Inv txNonce m) {calls : List (TxSortedMapCall τ)} {m' : TxSortedMap τ}
    (h : runTxSortedMapCalls txNonce m calls = some m') : Inv txNonce m' :=
  Run.foldlM_invariant _ (Inv txNonce) (fun _ _ _ hd hcall => hd.call hcall) h hi

end TxSortedMap

/-- The representation of `txSortedMap`: after any run of calls from an empty map, the heap holds
each nonce of the map exactly once, and the cache, when there is one, the sorted transactions.
So `Flatten` returns the stored transactions in increasing nonce order; `Forward t` takes out
and returns those of nonce below `t`; `Cap n` keeps the first `n` and returns the others, the
highest nonce first; and `Ready s` takes out and returns the run of consecutive nonces from the
least one, when that one is at most `s`. -/
theorem txSortedMap_representation {calls : List (TxSortedMapCall τ)} {m : TxSortedMap τ}
    (h : runTxSortedMapCalls txNonce newTxSortedMap calls = some m) :
    m.index.Perm m.items.keys ∧
      (∀ c, m.cache = some c → c = TxSortedMap.sortTxs txNonce m.items) ∧
      ((m.flatten txNonce).2.Perm (m.items.entries.map Prod.snd) ∧
        NonceSorted txNonce (m.flatten txNonce).2) ∧
      (∀ t, ∃ m', m.forward t =
          some (m', (TxSortedMap.sortTxs txNonce m.items).filter (txNonce · < t)) ∧
        TxSortedMap.sortTxs txNonce m'.items =
          (TxSortedMap.sortTxs txNonce m.items).filter (t ≤ txNonce ·)) ∧
      (∀ n : Int, 0 ≤ n → ∃ m', m.cap n =
          some (m', ((TxSortedMap.sortTxs txNonce m.items).drop n.toNat).reverse) ∧
        TxSortedMap.sortTxs txNonce m'.items = (TxSortedMap.sortTxs txNonce m.items).take n.toNat) ∧
      (∀ s, ∃ m', m.ready s = some (m', readyRun txNonce s (TxSortedMap.sortTxs txNonce m.items)) ∧
        TxSortedMap.sortTxs txNonce m'.items = (TxSortedMap.sortTxs txNonce m.items).drop
          (readyRun txNonce s (TxSortedMap.sortTxs txNonce m.items)).length) := by
  have hi := TxSortedMap.inv_newTxSortedMap.run h
  obtain ⟨hflat, -⟩ := hi.flatten
  refine ⟨hi.index, hi.cache, ⟨?_, ?_⟩, fun t => ?_, fun n hn => ?_, fun s => ?_⟩
  · rw [hflat]
    exact sortTxs_perm txNonce m.items
  · rw [hflat]
    exact hi.keyed.nonceSorted_sortTxs
  · obtain ⟨m', hf, -, hs⟩ := hi.forward t
    exact ⟨m', hf, hs⟩
  · obtain ⟨m', hc, -, hs⟩ := hi.cap hn
    exact ⟨m', hc, hs⟩
  · obtain ⟨m', hr, -, hs⟩ := hi.ready s
    exact ⟨m', hr, hs⟩

theorem txSortedMap_representation_put_forward_remove :
    ∃ m : TxSortedMap (Nat × Nat),
      runTxSortedMapCalls Prod.fst newTxSortedMap
          [.put (3, 0), .put (1, 0), .put (2, 7), .put (5, 0), .forward 2, .remove 5] = some m ∧
        m.items.keys = [3, 2] ∧ m.index.Perm m.items.keys ∧
        ∃ m', m.ready 2 = some (m', readyRun Prod.fst 2 (TxSortedMap.sortTxs Prod.fst m.items)) ∧
          TxSortedMap.sortTxs Prod.fst m'.items = (TxSortedMap.sortTxs Prod.fst m.items).drop
            (readyRun Prod.fst 2 (TxSortedMap.sortTxs Prod.fst m.items)).length := by
  have hrun : (runTxSortedMapCalls Prod.fst newTxSortedMap
      [.put (3, 0), .put (1, 0), .put ((2 : Nat), (7 : Nat)), .put (5, 0), .forward 2,
        .remove 5]).map (fun m => m.items.keys) = some [3, 2] := by
    decide +kernel
  obtain ⟨m, h, hkeys⟩ := Option.map_eq_some_iff.1 hrun
  obtain ⟨hindex, -, -, -, -, hready⟩ := txSortedMap_representation Prod.fst h
  exact ⟨m, h, hkeys, hindex, hready 2⟩

end IntChain
