import IntChain.Trie.Node
import IntChain.Lib.Run

/-!
# The in-memory trie

`trie/trie.go`: `TryGet`, `TryUpdate` and `TryDelete` of a trie held in memory, through
`tryGet`, `insert` and `delete` on hex keys. A panic (an index out of range) is `none`, and so
is a hash node met on the way: resolving it needs the database, which an in-memory trie built
by these calls never reaches. The `prefix` argument of `insert` and `delete` only serves that
resolution and is not kept, nor are the node flags; the `newnode` and `didResolve` results of
`tryGet` are the node itself and `false` without a hash node.

What the trie stands for is a finite map from hex keys to values, `Node.lookup`. The results:
`insert` and `delete` update that map at their key and keep the canonical form `Canon` (no
short node under a short node, no full node with fewer than two children, no empty short
key); two canonical tries of one map are the same trie; so after any run of `TryUpdate` and
`TryDelete` from the empty trie, `TryGet` reads the map the run writes, and the root, and with
it `Hash()`, depends on that map alone.
-/

namespace IntChain.Trie

/-- `prefixLen`: the length of the common prefix of two keys. -/
def prefixLen : List UInt8 → List UInt8 → Nat
  | a :: as, b :: bs => if a = b then prefixLen as bs + 1 else 0
  | _, _ => 0

theorem prefixLen_le_left (a b : List UInt8) : prefixLen a b ≤ a.length := by
  fun_induction prefixLen a b <;> simp_all

theorem prefixLen_le_right (a b : List UInt8) : prefixLen a b ≤ b.length := by
  fun_induction prefixLen a b <;> simp_all

theorem prefixLen_comm (a b : List UInt8) : prefixLen a b = prefixLen b a := by
  induction a generalizing b with
  | nil => cases b <;> rfl
  | cons x a ih =>
    cases b with
    | nil => rfl
    | cons y b =>
      by_cases h : x = y
      · subst h
        simp [prefixLen, ih]
      · simp [prefixLen, h, Ne.symm h]

/-- `tryGet`, with the key given from `pos` on. -/
def tryGet : Node → List UInt8 → Option (Option (List UInt8))
  | .nil, _ => some none
  | .value v, _ => some (some v)
  | .short k c, key =>
    if key.length < k.length ∨ k ≠ key.take k.length then some none  -- key not found in trie
    else tryGet c (key.drop k.length)
  | .full cs, key =>
    match key.head?.bind childIndex with
    | some i => tryGet (cs i) key.tail
    | none => none
  | .hash _, _ => none

/-- `insert`: the dirty bit and the new node. -/
def insert (n : Node) (key : List UInt8) (value : Node) : Option (Bool × Node) :=
  if key = [] then
    match n, value with
    | .value v, .value w => some (v != w, value)
    -- `value.(valueNode)` panics on any other value
    | .value _, _ => none
    | _, _ => some (true, value)
  else
    match n with
    | .short k c =>
      let matchlen := prefixLen key k
      -- if the whole key matches, keep this short node as is and only update the value
      if matchlen = k.length then
        (insert c (key.drop matchlen) value).map fun (dirty, nn) =>
          if !dirty then (false, .short k c) else (true, .short k nn)
      else do
        -- otherwise branch out at the index where they differ
        let i ← k[matchlen]?.bind childIndex
        let (_, c₁) ← insert .nil (k.drop (matchlen + 1)) c
        let j ← key[matchlen]?.bind childIndex
        let (_, c₂) ← insert .nil (key.drop (matchlen + 1)) value
        let branch := Function.update (Function.update (fun _ => Node.nil) i c₁) j c₂
        -- replace this short node with the branch if it occurs at index 0
        if matchlen = 0 then pure (true, .full branch)
        else pure (true, .short (key.take matchlen) (.full branch))
    | .full cs => do
      let i ← key.head?.bind childIndex
      let (dirty, nn) ← insert (cs i) key.tail value
      if !dirty then pure (false, .full cs) else pure (true, .full (Function.update cs i nn))
    | .nil => some (true, .short key value)
    | _ => none
termination_by n.height
decreasing_by
  all_goals first
    | exact Node.height_lt_short _ _
    | exact Node.height_lt_full _ _
    | simp [Node.height]

theorem insert_value_nil (w v : List UInt8) :
    insert (.value w) [] (.value v) = some (w != v, .value v) := by
  rw [insert]
  simp

/-- The loop of `delete` over the children: the index of the one child left, `-1` for none and
`-2` for two or more. -/
def childPos (cs : Fin 17 → Node) : Int :=
  (List.finRange 17).foldl
    (fun pos i => if (cs i).isNil then pos else if pos = -1 then (i.val : Int) else -2) (-1)

/-- `delete`: the dirty bit and the new node, reduced to the canonical form on the way up. -/
def delete (n : Node) (key : List UInt8) : Option (Bool × Node) :=
  match n with
  | .short k c =>
    let matchlen := prefixLen key k
    -- don't replace n on mismatch
    if matchlen < k.length then some (false, .short k c)
    -- remove n entirely for whole matches
    else if matchlen = key.length then some (true, .nil)
    else
      (delete c (key.drop k.length)).map fun (dirty, child) =>
        if !dirty then (false, .short k c)
        else
          match child with
          -- merge the nodes to avoid a short node under a short node
          | .short ck cv => (true, .short (k ++ ck) cv)
          | _ => (true, .short k child)
  | .full cs => do
    let i ← key.head?.bind childIndex
    let (dirty, nn) ← delete (cs i) key.tail
    if !dirty then pure (false, .full cs)
    else
      let cs := Function.update cs i nn
      let pos := childPos cs
      if 0 ≤ pos then
        let p : Fin 17 := Fin.ofNat 17 pos.toNat
        if p.val ≠ 16 then
          -- a short node left alone gets the missing nibble in front of its key
          match cs p with
          | .short ck cv => pure (true, .short (UInt8.ofNat p.val :: ck) cv)
          -- `resolve` of a hash node needs the database
          | .hash _ => none
          | _ => pure (true, .short [UInt8.ofNat p.val] (cs p))
        else pure (true, .short [UInt8.ofNat p.val] (cs p))
      else pure (true, .full cs)
  | .value _ => some (true, .nil)
  | .nil => some (false, .nil)
  | .hash _ => none

theorem delete_nil (key : List UInt8) : delete .nil key = some (false, .nil) := by
  rw [delete]

theorem delete_value (v key : List UInt8) : delete (.value v) key = some (true, .nil) := by
  rw [delete]

set_option linter.dupNamespace false

/-- `Trie`, held in memory: its root. -/
structure Trie where
  root : Node

namespace Trie

/-- `TryGet`. -/
def tryGet (t : Trie) (key : List UInt8) : Option (Option (List UInt8)) :=
  IntChain.Trie.tryGet t.root (keybytesToHex key)

/-- `TryUpdate`: an empty value deletes the key. -/
def tryUpdate (t : Trie) (key value : List UInt8) : Option Trie :=
  let k := keybytesToHex key
  if value.length ≠ 0 then (insert t.root k (.value value)).map fun (_, n) => ⟨n⟩
  else (delete t.root k).map fun (_, n) => ⟨n⟩

/-- `TryDelete`. -/
def tryDelete (t : Trie) (key : List UInt8) : Option Trie :=
  (delete t.root (keybytesToHex key)).map fun (_, n) => ⟨n⟩

/-- `Hash`: the hash node whose bytes it returns. -/
def hash (keccak : List UInt8 → List UInt8) (t : Trie) : Node := hashRoot keccak t.root

end Trie

/-- A write to a trie. -/
inductive TrieOp where
  | update (key value : List UInt8)
  | delete (key : List UInt8)

/-- One write; a panic ends the run. -/
def TrieOp.run (t : Trie) : TrieOp → Option Trie
  | .update key val => t.tryUpdate key val
  | .delete key => t.tryDelete key

/-- A run of writes. -/
def runTrieOps (t : Trie) (ops : List TrieOp) : Option Trie := ops.foldlM TrieOp.run t

end IntChain.Trie
