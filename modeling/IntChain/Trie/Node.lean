import Mathlib.Data.List.MinMax
import IntChain.Rlp.Raw
import IntChain.Trie.Encoding

/-!
# Trie nodes: decoding and hashing

`trie/node.go` and `trie/hasher.go`. A node is Go's nil, a `fullNode` of 17 children whose
last holds the value of a key that ends there, a `shortNode` of a key in nibbles and a child,
a `hashNode` naming a stored node, or a `valueNode`. The node flags, the cached hash and the
dirty bit, are not kept: the hash they cache is the function `hash` of the node below, and
nothing here writes to a database.

`decodeNode` reads the RLP of a stored node; a child reference is a hash of 32 bytes, an empty
string for no child, or a node embedded whole when its encoding is shorter than a hash. The
hasher collapses a node: keys go to their compact form, and a child is replaced by its hash
when its encoding has at least 32 bytes. `keccak` is a parameter throughout.
-/

namespace IntChain.Trie

open Rlp

/-- `node`. -/
inductive Node where
  | nil
  | full (children : Fin 17 → Node)
  | short (key : List UInt8) (val : Node)
  | hash (h : List UInt8)
  | value (v : List UInt8)

namespace Node

/-- The test `n == nil` of the source. -/
def isNil : Node → Bool
  | nil => true
  | _ => false

/-- The test `n.(valueNode)` of the source. -/
def isValue : Node → Bool
  | value _ => true
  | _ => false

/-- The depth of a node: what every recursion over the trie decreases. -/
def height : Node → Nat
  | full cs => (List.ofFn fun i => (cs i).height).foldr max 0 + 1
  | short _ c => c.height + 1
  | _ => 0

theorem height_lt_full (cs : Fin 17 → Node) (i : Fin 17) : (cs i).height < (full cs).height := by
  have hle : (cs i).height ≤ (List.ofFn fun i => (cs i).height).foldr max 0 :=
    List.le_max_of_le' 0 (List.mem_ofFn.2 ⟨i, rfl⟩) (Nat.le_refl _)
  rw [height]
  omega

theorem height_lt_short (k : List UInt8) (c : Node) : c.height < (short k c).height := by
  rw [height]
  omega

end Node

/-- The slot of a full node that a nibble selects; a byte past 16 is out of range, and Go
panics on it. -/
def childIndex (b : UInt8) : Option (Fin 17) :=
  if h : b.toNat < 17 then some ⟨b.toNat, h⟩ else none

/-! ### Decoding -/

/-- The errors of `decodeNode`. -/
inductive NodeError where
  /-- `io.ErrUnexpectedEOF` of an empty buffer -/
  | unexpectedEOF
  /-- `"decode error: %v"` -/
  | decode (err : DecodeError)
  /-- `"invalid number of list elements: %v"` -/
  | listElements (count : Nat)
  /-- an error of `SplitString` or `Split`, passed up as it is -/
  | rlp (err : DecodeError)
  /-- `"invalid value node: %v"` -/
  | valueNode (err : DecodeError)
  /-- `"oversized embedded node (size is %d bytes, want size < %d)"` -/
  | oversized (size : Nat)
  /-- `"invalid RLP string size %d (want 0 or 32)"` -/
  | stringSize (size : Nat)
  /-- `decodeError`: an error with the path to the child that has it -/
  | wrapped (what : NodeError) (stack : List String)

/-- `wrapError`: the path of a `decodeError` grows by one step; another error is wrapped. -/
def wrapError (ctx : String) : NodeError → NodeError
  | .wrapped what stack => .wrapped what (stack ++ [ctx])
  | err => .wrapped err [ctx]

/-- `hashLen`. -/
def hashLen : Nat := 32

mutual

/-- `decodeNode`. Its hash argument only fills the flags, which are not kept. -/
def decodeNode (buf : List UInt8) : Except NodeError Node :=
  if buf = [] then .error .unexpectedEOF
  else
    match h : splitList buf with
    | .error err => .error (.decode err)
    | .ok (elems, _) =>
      have _h : elems.length < buf.length := splitList_content_lt h
      -- the error of `CountValues` is dropped, and its count is then 0
      let c := match countValues elems with
        | .ok c => c
        | .error _ => 0
      if c = 2 then (decodeShort elems).mapError (wrapError "short")
      else if c = 17 then (decodeFull elems).mapError (wrapError "full")
      else .error (.listElements c)
termination_by (buf.length, 0)

/-- `decodeShort`: a key with the terminator holds a value, any other a reference. -/
def decodeShort (elems : List UInt8) : Except NodeError Node :=
  match h : splitString elems with
  | .error err => .error (.rlp err)
  | .ok (kbuf, rest) =>
    have _h : rest.length < elems.length := splitString_rest_lt h
    let key := compactToHex kbuf
    if hasTerm key then
      match splitString rest with
      | .error err => .error (.valueNode err)
      | .ok (val, _) => .ok (.short key (.value val))
    else
      match decodeRef rest with
      | .error err => .error (wrapError "val" err)
      | .ok (r, _) => .ok (.short key r)
termination_by (elems.length, 3)

/-- `decodeFull`: sixteen references, then the value, kept when it is not empty. -/
def decodeFull (elems : List UInt8) : Except NodeError Node :=
  match decodeChildren 0 elems with
  | .error err => .error err
  | .ok (children, elems) =>
    match splitString elems with
    | .error err => .error (.rlp err)
    | .ok (val, _) =>
      .ok (.full fun i =>
        if i.val < 16 then children.getD i.val .nil
        else if 0 < val.length then .value val else .nil)
termination_by (elems.length, 3)

/-- The loop of `decodeFull` from child `i` on. -/
def decodeChildren (i : Nat) (elems : List UInt8) :
    Except NodeError (List Node × List UInt8) :=
  if i < 16 then
    match decodeRef elems with
    | .error err => .error (wrapError s!"[{i}]" err)
    | .ok (cld, rest) =>
      match decodeChildren (i + 1) rest.1 with
      | .error err => .error err
      | .ok (cs, elems) => .ok (cld :: cs, elems)
  else .ok ([], elems)
termination_by (elems.length, 2)
decreasing_by
  · exact Prod.Lex.right _ (by omega)
  · exact Prod.Lex.left _ _ rest.2

/-- `decodeRef`: the child and the bytes after it, which are fewer than `buf`. -/
def decodeRef (buf : List UInt8) :
    Except NodeError (Node × {rest : List UInt8 // rest.length < buf.length}) :=
  match h : split buf with
  | .error err => .error (.rlp err)
  | .ok (kind, val, rest) =>
    have hrest : rest.length < buf.length := split_rest_lt h
    match kind with
    | .list =>
      -- an embedded node must be smaller than a hash
      if hashLen < buf.length - rest.length then .error (.oversized (buf.length - rest.length))
      else (decodeNode buf).map fun n => (n, ⟨rest, hrest⟩)
    | .string =>
      if val.length = 0 then .ok (.nil, ⟨rest, hrest⟩)
      else if val.length = 32 then .ok (.hash val, ⟨rest, hrest⟩)
      else .error (.stringSize val.length)
    | .byte => .error (.stringSize val.length)
termination_by (buf.length, 1)

end

/-! ### Encoding and hashing -/

/-- The RLP item of a node as `rlp.Encode` writes it: a short node is the list of its key and
its child, a full node the list of its 17 children, with `nilValueNode`, the empty string, in
place of a missing one, and a hash or value node its bytes. `nilItem` is what a nil child
writes: the empty string in a full node, and elsewhere the empty list that `rlp.Encode`
writes for a nil interface. -/
def Node.item (nilItem : Item) : Node → Item
  | .nil => nilItem
  | .full cs => .list (List.ofFn fun i => (cs i).item (.bytes []))
  | .short k c => .list [.bytes k, c.item (.list [])]
  | .hash h => .bytes h
  | .value v => .bytes v

/-- `rlp.Encode` of a node. -/
def encodeNode (n : Node) : List UInt8 := (n.item (.list [])).encode

section Hasher

variable (keccak : List UInt8 → List UInt8)

/-- The compact form of a key, as `hexToCompact` writes it; it never panics. -/
def compactKey (k : List UInt8) : List UInt8 := (hexToCompact k).get (hexToCompact_isSome k)

/-- `store` with no database: a node whose encoding has at least 32 bytes, or any node when
`force` holds, becomes the hash of its encoding; nil and hash nodes stay. -/
def store (n : Node) (force : Bool) : Node :=
  match n with
  | .nil | .hash _ => n
  | _ =>
    let enc := encodeNode n
    if enc.length < 32 ∧ !force then n else .hash (keccak enc)

/-- `hashChildren` with no database: the key of a short node goes to its compact form and a
child that is not a value is hashed; the first 16 children of a full node are hashed where
they are not nil. A child's `hash` is `store` of its own `hashChildren`. -/
def hashChildren : Node → Node
  | .short k c => .short (compactKey k) (if c.isValue then c else store keccak (hashChildren c) false)
  | .full cs => .full fun i =>
    if i.val < 16 ∧ !(cs i).isNil then store keccak (hashChildren (cs i)) false else cs i
  | n => n

/-- `hasher.hash` with no database: the node collapsed, then stored. -/
def hash (n : Node) (force : Bool) : Node := store keccak (hashChildren keccak n) force

/-- `emptyRoot`, the hash of the RLP of the empty string. -/
def emptyRoot : List UInt8 := keccak [0x80]

/-- `hashRoot` with no database: the empty root for a nil root, else the root hashed with
`force`, which always gives a hash node. -/
def hashRoot (root : Node) : Node :=
  match root with
  | .nil => .hash (emptyRoot keccak)
  | _ => hash keccak root true

end Hasher

end IntChain.Trie
