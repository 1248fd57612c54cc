import IntChain.Trie.Codec
import IntChain.Trie.Writes

/-!
# Merkle proofs of the trie

`proof.go`. `Prove` walks the path to a key and writes the collapsed nodes of the path that the
hasher stores by their hash, and the root, to a proof database under the hash of their encoding;
`VerifyProof` reads nodes back from such a database, starting at a root hash, and walks each
decoded node with `get` until it reaches a value, a missing child or the hash of the next node.
The database is `BSKeyValueSet` of `core/types/key_value.go`, a list of pairs.

Two results. Completeness: for a canonical trie, the database `Prove` writes makes `VerifyProof`
at the trie's root hash return what `TryGet` returns. Soundness: for any database whose every
pair is keyed by the hash of its value, a value that `VerifyProof` returns at a canonical trie's
root hash is the trie's value. Both assume that `keccak` has no collision on the encodings that
can meet; its outputs have 32 bytes.
-/

namespace IntChain

/-- `BSKeyValue`. -/
structure BSKeyValue where
  key : List UInt8
  value : List UInt8

/-- `BSKeyValueSet`: its `KVArray`. -/
structure BSKeyValueSet where
  kvArray : List BSKeyValue

namespace BSKeyValueSet

/-- The loop of `Put`: the first pair with the key takes the value, and with none the pair is
appended. -/
def putPairs (key value : List UInt8) : List BSKeyValue → List BSKeyValue
  | [] => [⟨key, value⟩]
  | item :: items =>
    if item.key = key then { item with value := value } :: items
    else item :: putPairs key value items

/-- `Put`. -/
def put (kv : BSKeyValueSet) (key value : List UInt8) : BSKeyValueSet :=
  ⟨putPairs key value kv.kvArray⟩

/-- The loop of `Get`: the value of the first pair with the key. -/
def getPairs (key : List UInt8) : List BSKeyValue → Except String (List UInt8)
  | [] => .error "key not found"
  | item :: items => if item.key = key then .ok item.value else getPairs key items

/-- `Get`. -/
def get (kv : BSKeyValueSet) (key : List UInt8) : Except String (List UInt8) :=
  getPairs key kv.kvArray

theorem getPairs_putPairs (key value k : List UInt8) (items : List BSKeyValue) :
    getPairs k (putPairs key value items) =
      if k = key then .ok value else getPairs k items := by
  induction items with
  | nil =>
    by_cases hk : k = key
    · simp [putPairs, getPairs, hk]
    · simp [putPairs, getPairs, Ne.symm hk, hk]
  | cons item items ih =>
    by_cases hi : item.key = key
    · by_cases hk : k = key
      · simp [putPairs, getPairs, hi, hk]
      · simp [putPairs, getPairs, hi, hk, Ne.symm hk]
    · simp only [putPairs, hi, if_false, getPairs, ih]
      by_cases hk : k = key
      · subst hk
        simp [hi]
      · simp [hk]

theorem get_put (kv : BSKeyValueSet) (key value k : List UInt8) :
    (kv.put key value).get k = if k = key then .ok value else kv.get k :=
  getPairs_putPairs key value k kv.kvArray

theorem mem_putPairs {key value : List UInt8} {items : List BSKeyValue} {kv : BSKeyValue}
    (h : kv ∈ putPairs key value items) : (kv.key = key ∧ kv.value = value) ∨ kv ∈ items := by
  induction items with
  | nil =>
    simp only [putPairs, List.mem_singleton] at h
    subst h
    exact .inl ⟨rfl, rfl⟩
  | cons item items ih =>
    simp only [putPairs] at h
    split_ifs at h with hk
    · rcases List.mem_cons.1 h with rfl | h
      · exact .inl ⟨hk, rfl⟩
      · exact .inr (List.mem_cons_of_mem _ h)
    · rcases List.mem_cons.1 h with rfl | h
      · exact .inr (List.mem_cons_self ..)
      · exact (ih h).imp_right (List.mem_cons_of_mem _)

theorem mem_of_getPairs_eq_ok {k v : List UInt8} {items : List BSKeyValue}
    (h : getPairs k items = .ok v) : ∃ item ∈ items, item.key = k ∧ item.value = v := by
  induction items with
  | nil => cases h
  | cons item items ih =>
    simp only [getPairs] at h
    split_ifs at h with hk
    · cases h
      exact ⟨item, List.mem_cons_self .., hk, rfl⟩
    · obtain ⟨it, hit, hkey, hval⟩ := ih h
      exact ⟨it, List.mem_cons_of_mem _ hit, hkey, hval⟩

theorem mem_of_get_eq_ok {kv : BSKeyValueSet} {k v : List UInt8} (h : kv.get k = .ok v) :
    ∃ item ∈ kv.kvArray, item.key = k ∧ item.value = v :=
  mem_of_getPairs_eq_ok h

end BSKeyValueSet

namespace Trie

set_option linter.dupNamespace false

open PathMap Rlp Node

/-! ### The model -/

/-- `get`: walk a decoded node along the key to the first hash, value or nil; a short node whose
key does not match ends the walk at nil. Go indexes the children of a full node with the next
nibble, and panics past the end of the key or on a nibble past 16. -/
def get : Node → List UInt8 → Option (List UInt8 × Node)
  | .short k c, key =>
    if key.length < k.length ∨ k ≠ key.take k.length then some ([], .nil)
    else get c (key.drop k.length)
  | .full cs, key =>
    match key with
    | [] => none
    | b :: rest => (childIndex b).bind fun i => get (cs i) rest
  | .hash h, key => some (key, .hash h)
  | .nil, key => some (key, .nil)
  | .value v, _ => some ([], .value v)

/-- The errors of `VerifyProof`. -/
inductive ProofError where
  /-- `"proof node %d (hash %064x) missing"` -/
  | missing (index : Nat) (hash : List UInt8)
  /-- `"bad proof node %d: %v"` -/
  | badNode (index : Nat) (err : NodeError)

/-- The loop of `VerifyProof` from proof node `i`, looking for `wantHash` with `key` left. The
loop has no bound, so `fuel` counts the nodes it may still read; `none` is a run out of fuel, or
a panic of `get`. A result is the value or none, with the count of nodes read. -/
def verifyProofFrom (proofDb : BSKeyValueSet) :
    Nat → Nat → List UInt8 → List UInt8 → Option (Except ProofError (Option (List UInt8) × Nat))
  | 0, _, _, _ => none
  | fuel + 1, i, wantHash, key =>
    match proofDb.get wantHash with
    | .error _ => some (.error (.missing i wantHash))
    | .ok buf =>
      match decodeNode buf with
      | .error err => some (.error (.badNode i err))
      | .ok n =>
        (get n key).bind fun (keyrest, cld) =>
          match cld with
          | .nil => some (.ok (none, i))
          | .hash h => verifyProofFrom proofDb fuel (i + 1) h keyrest
          | .value v => some (.ok (some v, i + 1))
          -- `get` never stops at a short or full node; the loop would go on as it was
          | _ => verifyProofFrom proofDb fuel (i + 1) wantHash key

/-- `VerifyProof`. -/
def verifyProof (fuel : Nat) (rootHash key : List UInt8) (proofDb : BSKeyValueSet) :
    Option (Except ProofError (Option (List UInt8) × Nat)) :=
  verifyProofFrom proofDb fuel 0 rootHash (keybytesToHex key)

/-- The first loop of `Prove`: the nodes on the path to the key, down to the node that holds its
value or shows it absent. A hash node on the path, which `resolveHash` cannot find with no
database, and a value node with key left, on which Go panics, are `none`. -/
def proveNodes : Node → List UInt8 → Option (List Node)
  | _, [] => some []
  | .nil, _ => some []
  | .short k c, key =>
    if key.length < k.length ∨ k ≠ key.take k.length then some [.short k c]
    else (proveNodes c (key.drop k.length)).map (.short k c :: ·)
  | .full cs, b :: rest =>
    (childIndex b).bind fun i => (proveNodes (cs i) rest).map (.full cs :: ·)
  | .hash _, _ => none
  | .value _, _ => none

section Prove

variable (keccak : List UInt8 → List UInt8)

/-- The second loop of `Prove` from the node at index `i`, with `fromLevel` proof elements still to
skip: each node is collapsed, and the root and every node the hasher stores by its hash are
written under the hash of their encoding. -/
def proveStore : List Node → Nat → Nat → BSKeyValueSet → BSKeyValueSet
  | [], _, _, proofDb => proofDb
  | n :: nodes, i, fromLevel, proofDb =>
    let n := hashChildren keccak n
    let hn := store keccak n false
    let (hash, ok) : List UInt8 × Bool := match hn with
      | .hash h => (h, true)
      | _ => ([], false)
    if ok || i == 0 then
      if 0 < fromLevel then proveStore nodes (i + 1) (fromLevel - 1) proofDb
      else
        let enc := encodeNode n
        let hash := if !ok then keccak enc else hash
        proveStore nodes (i + 1) fromLevel (proofDb.put hash enc)
    else proveStore nodes (i + 1) fromLevel proofDb

/-- `Prove`. -/
def Trie.prove (t : Trie) (key : List UInt8) (fromLevel : Nat) (proofDb : BSKeyValueSet) :
    Option BSKeyValueSet :=
  (proveNodes t.root (keybytesToHex key)).map fun nodes => proveStore keccak nodes 0 fromLevel proofDb

end Prove

/-! ### Equations of the walks -/

theorem get_short (k key : List UInt8) (c : Node) :
    get (.short k c) key = if k <+: key then get c (key.drop k.length) else some ([], .nil) := by
  rw [get]
  by_cases hp : k <+: key
  · have hk : k = key.take k.length := List.prefix_iff_eq_take.1 hp
    have hl : ¬ key.length < k.length := not_lt.2 hp.length_le
    simp [hp, hl, ← hk]
  · have hk : k ≠ key.take k.length := fun h => hp (List.prefix_iff_eq_take.2 h)
    simp [hp, hk]

theorem get_full_cons {cs : Fin 17 → Node} {b : UInt8} {i : Fin 17} (r : List UInt8)
    (hi : childIndex b = some i) : get (.full cs) (b :: r) = get (cs i) r := by
  simp [get, hi]

theorem proveNodes_short {k key : List UInt8} (c : Node) (hkey : key ≠ []) :
    proveNodes (.short k c) key =
      if k <+: key then (proveNodes c (key.drop k.length)).map (.short k c :: ·)
      else some [.short k c] := by
  obtain ⟨b, r, rfl⟩ := List.exists_cons_of_ne_nil hkey
  rw [proveNodes]
  · by_cases hp : k <+: b :: r
    · have hk : k = (b :: r).take k.length := List.prefix_iff_eq_take.1 hp
      have hl : ¬ (b :: r).length < k.length := not_lt.2 hp.length_le
      simp only [hp, hl, ← hk, if_true, ne_eq, not_true_eq_false, or_false, if_false]
    · have hk : k ≠ (b :: r).take k.length := fun h => hp (List.prefix_iff_eq_take.2 h)
      simp [hp, hk]
  · exact List.cons_ne_nil b r

theorem proveNodes_full_cons {cs : Fin 17 → Node} {b : UInt8} {i : Fin 17} (r : List UInt8)
    (hi : childIndex b = some i) :
    proveNodes (.full cs) (b :: r) = (proveNodes (cs i) r).map (.full cs :: ·) := by
  simp [proveNodes, hi]

/-! ### The nodes of a trie -/

/-- `m` is a node of the trie under `n`: `n` itself, or a node under one of its children. -/
inductive Node.Sub (m : Node) : Node → Prop
  | refl : Node.Sub m m
  | short {k : List UInt8} {c : Node} : Node.Sub m c → Node.Sub m (.short k c)
  | full {cs : Fin 17 → Node} (i : Fin 17) : Node.Sub m (cs i) → Node.Sub m (.full cs)

theorem Node.Sub.trans {a b c : Node} (hab : a.Sub b) (hbc : b.Sub c) : a.Sub c := by
  induction hbc with
  | refl => exact hab
  | short _ ih => exact .short ih
  | full i _ ih => exact .full i ih

theorem Node.Bounded.sub {m n : Node} (hb : n.Bounded) (h : m.Sub n) : m.Bounded := by
  induction h with
  | refl => exact hb
  | short _ ih => exact ih hb.2
  | full i _ ih => exact ih (hb i)

/-- The encodings of the collapsed nodes of the trie under `n`: what the hasher hashes. -/
def nodeEncodings (keccak : List UInt8 → List UInt8) (n : Node) : Set (List UInt8) :=
  {e | ∃ m, m.Sub n ∧ e = encodeNode (hashChildren keccak m)}

/-- The path to a terminated key in a canonical node: the node first, and every node on it
canonical and under it. -/
theorem Canon.proveNodes_eq {m : Node} (hm : Canon m) {key : List UInt8} (hkey : TermKey key) :
    ∃ ns, proveNodes m key = some (m :: ns) ∧ ∀ n ∈ m :: ns, Canon n ∧ n.Sub m := by
  induction hm generalizing key with
  | @leaf k v hk hv =>
    refine ⟨[], ?_, by simp [Canon.leaf hk hv, Node.Sub.refl]⟩
    rw [proveNodes_short _ hkey.ne_nil]
    split_ifs with hp
    · obtain rfl := hk.eq_of_prefix hkey hp
      simp [proveNodes]
    · rfl
  | @ext ns cs hne hns hc ih =>
    rw [proveNodes_short _ hkey.ne_nil]
    split_ifs with hp
    · obtain ⟨t, rfl⟩ := hp
      obtain ⟨ns', hns', hall⟩ := ih (hkey.of_append hns)
      refine ⟨.full cs :: ns', by simp [hns'], ?_⟩
      intro n hn
      rcases List.mem_cons.1 hn with rfl | hn
      · exact ⟨Canon.ext hne hns hc, .refl⟩
      · obtain ⟨hcn, hsub⟩ := hall n hn
        exact ⟨hcn, .short hsub⟩
    · exact ⟨[], rfl, by simp [Canon.ext hne hns hc, Node.Sub.refl]⟩
  | @branch cs hcs hv htwo ih =>
    have hself : Canon (.full cs) := Canon.branch hcs hv htwo
    obtain ⟨b, r, rfl⟩ := List.exists_cons_of_ne_nil hkey.ne_nil
    obtain ⟨i, hi⟩ := childIndex_isSome hkey.head_lt
    have hb : b = UInt8.ofNat i.val := childIndex_eq_some_iff.1 hi
    rw [proveNodes_full_cons r hi]
    -- the child the nibble selects: a canonical node, nil, or the value slot at the terminator
    by_cases h16 : i.val < 16
    · cases hn : (cs i).isNil
      · obtain ⟨ns', hns', hall⟩ := ih i h16 hn (hkey.tail (hb ▸ (ofNat_lt_sixteen_iff i).2 h16))
        refine ⟨cs i :: ns', by simp [hns'], ?_⟩
        intro n hn'
        rcases List.mem_cons.1 hn' with rfl | hn'
        · exact ⟨hself, .refl⟩
        · obtain ⟨hcn, hsub⟩ := hall n hn'
          exact ⟨hcn, .full i hsub⟩
      · rw [Canon.eq_nil_of_isNil hn]
        refine ⟨[], ?_, by simp [hself, Node.Sub.refl]⟩
        cases r <;> rfl
    · obtain rfl : i = 16 := Fin.ext (by omega)
      obtain rfl : b = 16 := hb
      obtain rfl : r = [] := hkey.eq_nil_of_terminator
      exact ⟨[], by simp [proveNodes], by simp [hself, Node.Sub.refl]⟩

/-! ### One decoded node -/

section Walk

variable (keccak : List UInt8 → List UInt8)

/-- Where `get` stops in the decoded form of a canonical node `m` walked along `key`: at nil where
the key is absent, at the key's value, or at the hash of a node `c` on the path, one the hasher
stores by its hash, that holds the rest `r` of the key. -/
inductive GetStop (m : Node) (key : List UInt8) : List UInt8 → Node → Prop
  | absent {r : List UInt8} : m.lookup key = none → GetStop m key r .nil
  | found {v : List UInt8} : m.lookup key = some v → GetStop m key [] (.value v)
  | hashed {c : Node} {r : List UInt8} : Canon c → c.Sub m →
      32 ≤ (encodeNode (hashChildren keccak c)).length → TermKey r → r.length < key.length →
      c.lookup r = m.lookup key → (∃ pre, proveNodes m key = (proveNodes c r).map (pre ++ ·)) →
      GetStop m key r (.hash (keccak (encodeNode (hashChildren keccak c))))

variable {keccak}

/-- A stop in a node `c` on the path of `m` is a stop in `m`. -/
theorem GetStop.lift {c m : Node} {key' key r : List UInt8} {x : Node}
    (h : GetStop keccak c key' r x) (hsub : c.Sub m) (hlen : key'.length ≤ key.length)
    (hlook : c.lookup key' = m.lookup key)
    (hpre : ∃ pre, proveNodes m key = (proveNodes c key').map (pre ++ ·)) :
    GetStop keccak m key r x := by
  cases h with
  | absent h => exact .absent (hlook ▸ h)
  | found h => exact .found (hlook ▸ h)
  | hashed hc' hsub' h32 hr hlt hlook' hpre' =>
    obtain ⟨pre, hp⟩ := hpre
    obtain ⟨pre', hp'⟩ := hpre'
    refine .hashed hc' (hsub'.trans hsub) h32 hr (by omega) (hlook'.trans hlook) ⟨pre ++ pre', ?_⟩
    rw [hp, hp', Option.map_map]
    congr 1
    funext ns
    simp

/-- Into the child the hasher stores for a canonical node `c` on the path: `get` goes on into it
where it is kept whole, and stops at its hash otherwise. -/
theorem Canon.get_store {c m : Node} (hc : Canon c) (hsub : c.Sub m) {r key : List UInt8}
    (hr : TermKey r) (hlt : r.length < key.length) (hlook : c.lookup r = m.lookup key)
    (hpre : ∃ pre, proveNodes m key = (proveNodes c r).map (pre ++ ·))
    (ih : ∃ r' x, get (hashChildren keccak c).expand r = some (r', x) ∧ GetStop keccak c r r' x) :
    ∃ r' x, get (store keccak (hashChildren keccak c) false).expand r = some (r', x) ∧
      GetStop keccak m key r' x := by
  rw [hc.store_hashChildren]
  split_ifs with hsmall
  · obtain ⟨r', x, hget, hstop⟩ := ih
    exact ⟨r', x, hget, hstop.lift hsub hlt.le hlook hpre⟩
  · exact ⟨r, _, rfl, .hashed hc hsub (not_lt.1 hsmall) hr hlt hlook hpre⟩

/-- `get` on the decoded collapsed form of a canonical node stops where `GetStop` says. By
induction on the canonical form, as `tryGet_canon`. -/
theorem Canon.get_expand {m : Node} (hm : Canon m) {key : List UInt8} (hkey : TermKey key) :
    ∃ r x, get (hashChildren keccak m).expand key = some (r, x) ∧ GetStop keccak m key r x := by
  induction hm generalizing key with
  | @leaf k v hk hv =>
    have he : (hashChildren keccak (.short k (.value v))).expand = .short k (.value v) := by
      change Node.short (compactToHex (compactKey k)) (.value v) = _
      rw [hk.compactToHex_compactKey]
    rw [he, get_short]
    split_ifs with hp
    · obtain rfl := hk.eq_of_prefix hkey hp
      refine ⟨[], .value v, by simp [get], .found ?_⟩
      rw [lookup_leaf, Function.update_self]
    · have hne : key ≠ k := fun h => hp (h ▸ List.prefix_refl _)
      exact ⟨[], _, rfl, .absent (by rw [lookup_leaf, Function.update_of_ne hne]; rfl)⟩
  | @ext ns cs hne hns hc ih =>
    have he : (hashChildren keccak (.short ns (.full cs))).expand =
        .short ns (store keccak (hashChildren keccak (.full cs)) false).expand := by
      change Node.short (compactToHex (compactKey ns))
        (store keccak (hashChildren keccak (.full cs)) false).expand = _
      rw [hns.compactToHex_compactKey]
    rw [he, get_short]
    split_ifs with hp
    · obtain ⟨t, rfl⟩ := hp
      have ht : TermKey t := hkey.of_append hns
      have hlt : t.length < (ns ++ t).length := by
        have := List.length_pos_iff.2 hne
        simp only [List.length_append]
        omega
      have hpre : ∃ pre, proveNodes (.short ns (.full cs)) (ns ++ t) =
          (proveNodes (.full cs) t).map (pre ++ ·) :=
        ⟨[.short ns (.full cs)], by simp [proveNodes_short _ (List.append_ne_nil_of_left_ne_nil hne t)]⟩
      simpa using hc.get_store (.short .refl) ht hlt (by simp) hpre (ih ht)
    · exact ⟨[], _, rfl, .absent (by rw [lookup_short, under_eq_none_of_not_prefix _ hp])⟩
  | @branch cs hcs hv htwo ih =>
    obtain ⟨b, r, rfl⟩ := List.exists_cons_of_ne_nil hkey.ne_nil
    obtain ⟨i, hi⟩ := childIndex_isSome hkey.head_lt
    have hb : b = UInt8.ofNat i.val := childIndex_eq_some_iff.1 hi
    have hlook : (Node.full cs).lookup (b :: r) = (cs i).lookup r := by
      rw [lookup_full, dispatch_cons, hi, Option.bind_some]
    have hpre : ∃ pre, proveNodes (.full cs) (b :: r) = (proveNodes (cs i) r).map (pre ++ ·) :=
      ⟨[.full cs], by rw [proveNodes_full_cons r hi]; rfl⟩
    change ∃ r' x, get (.full fun j => (if j.val < 16 ∧ !(cs j).isNil then
      store keccak (hashChildren keccak (cs j)) false else cs j).expand) (b :: r) = some (r', x) ∧ _
    rw [get_full_cons r hi]
    by_cases h16 : i.val < 16
    · have hr : TermKey r := hkey.tail (hb ▸ (ofNat_lt_sixteen_iff i).2 h16)
      cases hn : (cs i).isNil
      · -- a canonical child, kept whole or hashed
        simp only [h16, Bool.not_false, and_self, if_true]
        exact (hcs i h16 hn).get_store (.full i .refl) hr (by simp) hlook.symm hpre (ih i h16 hn hr)
      · -- no child: the key is absent
        simp only [h16, Bool.not_true, Bool.false_eq_true, and_false, if_false]
        rw [Canon.eq_nil_of_isNil hn] at hlook ⊢
        exact ⟨r, _, rfl, .absent (by rw [hlook]; rfl)⟩
    · -- the terminator reads the value slot, and ends the key
      obtain rfl : i = 16 := Fin.ext (by omega)
      obtain rfl : b = 16 := hb
      obtain rfl : r = [] := hkey.eq_nil_of_terminator
      simp only [h16, false_and, if_false]
      rcases hv with h0 | ⟨w, -, h0⟩ <;> rw [h0] at hlook ⊢
      · exact ⟨[], _, rfl, .absent (by rw [hlook]; rfl)⟩
      · exact ⟨[], _, rfl, .found (by rw [hlook, lookup_value]; simp)⟩

end Walk

/-! ### The loop of `VerifyProof` -/

section Verify

variable {keccak : List UInt8 → List UInt8}

section Turn

variable {proofDb : BSKeyValueSet} {fuel i : Nat} {wantHash key buf : List UInt8} {n : Node}
  {r : List UInt8} (hg : proofDb.get wantHash = .ok buf) (hd : decodeNode buf = .ok n)
include hg hd

/-- One turn of the loop that ends at nil: the key is absent. -/
theorem verifyProofFrom_succ_nil (hget : get n key = some (r, .nil)) :
    verifyProofFrom proofDb (fuel + 1) i wantHash key = some (.ok (none, i)) := by
  simp only [verifyProofFrom, hg, hd, hget, Option.bind_some]

/-- One turn of the loop that ends at a value. -/
theorem verifyProofFrom_succ_value {v : List UInt8} (hget : get n key = some (r, .value v)) :
    verifyProofFrom proofDb (fuel + 1) i wantHash key = some (.ok (some v, i + 1)) := by
  simp only [verifyProofFrom, hg, hd, hget, Option.bind_some]

/-- One turn of the loop that ends at a hash: the next turn looks for it with the key left. -/
theorem verifyProofFrom_succ_hash {h : List UInt8} (hget : get n key = some (r, .hash h)) :
    verifyProofFrom proofDb (fuel + 1) i wantHash key = verifyProofFrom proofDb fuel (i + 1) h r := by
  simp only [verifyProofFrom, hg, hd, hget, Option.bind_some]

end Turn

variable (hk : ∀ x, (keccak x).length = 32)
include hk

/-- Completeness of the loop: from the hash of a canonical node, with a database that holds the
encoding of that node and of every node of its path stored by its hash, the loop returns the
node's value for the key. By induction on the fuel; each turn goes one node down the path, and
the key left gets shorter. -/
theorem verifyProofFrom_complete {proofDb : BSKeyValueSet} (fuel : Nat) {m : Node} (hm : Canon m)
    (hb : m.Bounded) {key : List UInt8} (hkey : TermKey key) (hf : key.length < fuel)
    (hdb : ∀ ns, proveNodes m key = some ns → ∀ n ∈ ns,
      (n = m ∨ 32 ≤ (encodeNode (hashChildren keccak n)).length) →
        proofDb.get (keccak (encodeNode (hashChildren keccak n))) =
          .ok (encodeNode (hashChildren keccak n)))
    (i : Nat) :
    ∃ nodes, verifyProofFrom proofDb fuel i (keccak (encodeNode (hashChildren keccak m))) key =
      some (.ok (m.lookup key, nodes)) := by
  induction fuel generalizing m key i with
  | zero => omega
  | succ fuel ih =>
    obtain ⟨ns, hns, -⟩ := hm.proveNodes_eq hkey
    have hg := hdb _ hns m (List.mem_cons_self ..) (.inl rfl)
    have hd : decodeNode (encodeNode (hashChildren keccak m)) = .ok (hashChildren keccak m).expand := by
      simpa using hm.decodeNode_append hk hb []
    obtain ⟨r, x, hget, hstop⟩ := @Canon.get_expand keccak m hm key hkey
    cases hstop with
    | absent h => exact ⟨i, by rw [verifyProofFrom_succ_nil hg hd hget, h]⟩
    | found h => exact ⟨i + 1, by rw [verifyProofFrom_succ_value hg hd hget, h]⟩
    | @hashed c r hc hsub h32 hr hlt hlook hpre =>
      -- the next node: on the path, so the database holds it and what follows it
      obtain ⟨pre, hp⟩ := hpre
      have hdb' : ∀ ns, proveNodes c r = some ns → ∀ n ∈ ns,
          (n = c ∨ 32 ≤ (encodeNode (hashChildren keccak n)).length) →
            proofDb.get (keccak (encodeNode (hashChildren keccak n))) =
              .ok (encodeNode (hashChildren keccak n)) := by
        intro ns' hns' n hn hcond
        apply hdb (pre ++ ns') (by rw [hp, hns']; rfl) n (List.mem_append_right _ hn)
        rcases hcond with rfl | h
        · exact .inr h32
        · exact .inr h
      obtain ⟨nodes, hrec⟩ := ih hc (hb.sub hsub) hr (by omega) hdb' (i + 1)
      exact ⟨nodes, by rw [verifyProofFrom_succ_hash hg hd hget, hrec, hlook]⟩

/-- Soundness of the loop: from the hash of a canonical node, with a database that answers the
hash of each node under it with that node's encoding or not at all, a value the loop returns is
the node's value for the key. -/
theorem verifyProofFrom_sound {proofDb : BSKeyValueSet} (fuel : Nat) {m : Node} (hm : Canon m)
    (hb : m.Bounded) {key : List UInt8} (hkey : TermKey key)
    (hdb : ∀ c, c.Sub m → ∀ e, proofDb.get (keccak (encodeNode (hashChildren keccak c))) = .ok e →
      e = encodeNode (hashChildren keccak c))
    {i : Nat} {v : Option (List UInt8)} {nodes : Nat}
    (h : verifyProofFrom proofDb fuel i (keccak (encodeNode (hashChildren keccak m))) key =
      some (.ok (v, nodes))) :
    v = m.lookup key := by
  induction fuel generalizing m key i with
  | zero => cases h
  | succ fuel ih =>
    cases hg : proofDb.get (keccak (encodeNode (hashChildren keccak m))) with
    | error err =>
      simp only [verifyProofFrom, hg] at h
      cases h
    | ok e =>
      obtain rfl := hdb m .refl e hg
      have hd : decodeNode (encodeNode (hashChildren keccak m)) = .ok (hashChildren keccak m).expand := by
        simpa using hm.decodeNode_append hk hb []
      obtain ⟨r, x, hget, hstop⟩ := @Canon.get_expand keccak m hm key hkey
      cases hstop with
      | absent hl =>
        rw [verifyProofFrom_succ_nil hg hd hget] at h
        cases h
        exact hl.symm
      | found hl =>
        rw [verifyProofFrom_succ_value hg hd hget] at h
        cases h
        exact hl.symm
      | hashed hc hsub _ hr _ hlook _ =>
        rw [verifyProofFrom_succ_hash hg hd hget] at h
        rw [← hlook]
        exact ih hc (hb.sub hsub) hr (fun c' hc' => hdb c' (hc'.trans hsub)) h

end Verify

/-! ### What `Prove` writes -/

section Prove

variable {keccak : List UInt8 → List UInt8}

/-- One turn of `Prove`'s second loop with no level to skip, on a canonical node: its collapsed
encoding is written under its hash when it is stored by its hash or is the root. -/
theorem Canon.proveStore_cons {n : Node} (hn : Canon n) (nodes : List Node) (i : Nat)
    (proofDb : BSKeyValueSet) :
    proveStore keccak (n :: nodes) i 0 proofDb =
      proveStore keccak nodes (i + 1) 0
        (if 32 ≤ (encodeNode (hashChildren keccak n)).length ∨ i = 0 then
          proofDb.put (keccak (encodeNode (hashChildren keccak n))) (encodeNode (hashChildren keccak n))
        else proofDb) := by
  rw [proveStore, hn.store_hashChildren]
  by_cases hsmall : (encodeNode (hashChildren keccak n)).length < 32
  · -- kept whole: written only as the root
    rw [if_pos hsmall]
    have hnh : ∀ h, hashChildren keccak n ≠ .hash h := by
      intro h
      cases hn <;> exact Node.noConfusion
    generalize hashChildren keccak n = c at hnh hsmall ⊢
    cases c with
    | hash h => exact absurd rfl (hnh h)
    | _ => by_cases hi : i = 0 <;> simp [hi, not_le.2 hsmall]
  · rw [if_neg hsmall, if_pos (Or.inl (not_lt.1 hsmall))]
    simp

/-- Writing the hash of `e'` keeps the entry of `e` when `keccak` tells encodings apart. -/
theorem get_put_keeps {S : Set (List UInt8)} (hinj : Set.InjOn keccak S) {proofDb : BSKeyValueSet}
    {e e' : List UInt8} (he : e ∈ S) (he' : e' ∈ S) (h : proofDb.get (keccak e) = .ok e) :
    (proofDb.put (keccak e') e').get (keccak e) = .ok e := by
  rw [BSKeyValueSet.get_put]
  split_ifs with heq
  · rw [hinj he he' heq]
  · exact h

/-- What the second loop of `Prove` leaves, with no level skipped, for nodes of a trie `root` whose
collapsed encodings `keccak` tells apart: the entries there before stay, every node of the list
stored by its hash can be read back, and so can the first when the loop starts at the root. -/
theorem proveStore_get {root : Node} (hinj : Set.InjOn keccak (nodeEncodings keccak root)) :
    ∀ (nodes : List Node) (i : Nat) (proofDb : BSKeyValueSet), (∀ n ∈ nodes, Canon n ∧ n.Sub root) →
      (∀ e ∈ nodeEncodings keccak root, proofDb.get (keccak e) = .ok e →
        (proveStore keccak nodes i 0 proofDb).get (keccak e) = .ok e) ∧
      (∀ n ∈ nodes, (32 ≤ (encodeNode (hashChildren keccak n)).length ∨ (i = 0 ∧ n = nodes.head?.getD .nil)) →
        (proveStore keccak nodes i 0 proofDb).get (keccak (encodeNode (hashChildren keccak n))) =
          .ok (encodeNode (hashChildren keccak n))) := by
  intro nodes
  induction nodes with
  | nil => exact fun _ _ _ => ⟨fun _ _ h => h, fun _ hn => absurd hn List.not_mem_nil⟩
  | cons n nodes ih =>
    intro i proofDb hall
    obtain ⟨hn, hsub⟩ := hall n (List.mem_cons_self ..)
    have hmem : encodeNode (hashChildren keccak n) ∈ nodeEncodings keccak root := ⟨n, hsub, rfl⟩
    rw [hn.proveStore_cons]
    -- the database after this turn, and what it holds
    set db' := if 32 ≤ (encodeNode (hashChildren keccak n)).length ∨ i = 0 then
      proofDb.put (keccak (encodeNode (hashChildren keccak n))) (encodeNode (hashChildren keccak n))
      else proofDb with hdb'
    have hkeep : ∀ e ∈ nodeEncodings keccak root, proofDb.get (keccak e) = .ok e →
        db'.get (keccak e) = .ok e := by
      intro e he h
      rw [hdb']
      split_ifs
      · exact get_put_keeps hinj he hmem h
      · exact h
    obtain ⟨ihkeep, ihnodes⟩ := ih (i + 1) db' fun m hm => hall m (List.mem_cons_of_mem _ hm)
    refine ⟨fun e he h => ihkeep e he (hkeep e he h), ?_⟩
    intro m hm hcond
    rcases List.mem_cons.1 hm with rfl | hm
    · -- this node: written in this turn, and kept after
      apply ihkeep _ hmem
      rw [hdb', if_pos (hcond.imp_right fun h => h.1), BSKeyValueSet.get_put, if_pos rfl]
    · rcases hcond with h32 | ⟨rfl, rfl⟩
      · exact ihnodes m hm (.inl h32)
      · -- the first node, reached again further down: written in this turn
        apply ihkeep _ hmem
        rw [hdb', if_pos (.inr rfl), BSKeyValueSet.get_put, if_pos rfl]

/-- Every pair `Prove`'s second loop writes is keyed by the hash of its value, an encoding of a
collapsed node of the trie. -/
theorem proveStore_pairs {root : Node} :
    ∀ (nodes : List Node) (i : Nat) (proofDb : BSKeyValueSet), (∀ n ∈ nodes, Canon n ∧ n.Sub root) →
      (∀ kv ∈ proofDb.kvArray, kv.key = keccak kv.value ∧ kv.value ∈ nodeEncodings keccak root) →
      ∀ kv ∈ (proveStore keccak nodes i 0 proofDb).kvArray,
        kv.key = keccak kv.value ∧ kv.value ∈ nodeEncodings keccak root := by
  intro nodes
  induction nodes with
  | nil => exact fun _ _ _ h => h
  | cons n nodes ih =>
    intro i proofDb hall hdb
    obtain ⟨hn, hsub⟩ := hall n (List.mem_cons_self ..)
    rw [hn.proveStore_cons]
    apply ih _ _ fun m hm => hall m (List.mem_cons_of_mem _ hm)
    split_ifs
    · intro kv hkv
      rcases BSKeyValueSet.mem_putPairs hkv with ⟨hk, hv⟩ | hkv
      · rw [hk, hv]
        exact ⟨rfl, n, hsub, rfl⟩
      · exact hdb kv hkv
    · exact hdb

theorem Canon.hash_eq {t : Trie} (h : Canon t.root) :
    t.hash keccak = .hash (keccak (encodeNode (hashChildren keccak t.root))) := by
  obtain ⟨root⟩ := t
  change hashRoot keccak root = _
  cases h <;> simp [hashRoot, hash, store, hashChildren]

theorem Node.Sub.of_leaf {m : Node} {k v : List UInt8} (h : m.Sub (.short k (.value v))) :
    m = .short k (.value v) ∨ m = .value v := by
  cases h with
  | refl => exact .inl rfl
  | short h =>
    cases h
    exact .inr rfl

theorem nodeEncodings_leaf (k v : List UInt8) :
    nodeEncodings keccak (.short k (.value v)) =
      {encodeNode (hashChildren keccak (.short k (.value v))), encodeNode (.value v)} := by
  ext e
  constructor
  · rintro ⟨m, hm, rfl⟩
    rcases hm.of_leaf with rfl | rfl
    · exact .inl rfl
    · exact .inr rfl
  · rintro (rfl | rfl)
    · exact ⟨_, .refl, rfl⟩
    · exact ⟨_, .short .refl, rfl⟩

end Prove

/-! ### Completeness and soundness -/

section Results

variable {keccak : List UInt8 → List UInt8}

theorem verifyProof_prove (hk : ∀ x, (keccak x).length = 32) {t : Trie} (hv : t.Valid)
    (hne : t.root ≠ .nil) (hb : t.root.Bounded) (hinj : Set.InjOn keccak (nodeEncodings keccak t.root))
    (key : List UInt8) :
    ∃ root proofDb v, t.hash keccak = .hash root ∧ t.prove keccak key 0 ⟨[]⟩ = some proofDb ∧
      t.tryGet key = some v ∧ ∀ fuel, (keybytesToHex key).length < fuel →
        ∃ nodes, verifyProof fuel root key proofDb = some (.ok (v, nodes)) := by
  have hc : Canon t.root := hv.resolve_left hne
  have hkey := termKey_keybytesToHex key
  obtain ⟨ns, hns, hall⟩ := hc.proveNodes_eq hkey
  obtain ⟨-, hget⟩ := proveStore_get hinj (t.root :: ns) 0 ⟨[]⟩ hall
  refine ⟨_, _, _, hc.hash_eq, by rw [Trie.prove, hns]; rfl, hv.tryGet key, fun fuel hf => ?_⟩
  -- the database holds the root and every node of the path stored by its hash
  apply verifyProofFrom_complete hk fuel hc hb hkey hf _ 0
  intro ns' hns' n hn hcond
  rw [hns, Option.some_inj] at hns'
  subst hns'
  exact hget n hn (hcond.symm.imp_right fun h => ⟨rfl, h⟩)

theorem verifyProof_prove_leaf :
    ∃ root proofDb v,
      (leafTrie [1] [7]).hash (fun x => List.replicate 31 0 ++ [x.length.toUInt8]) = .hash root ∧
      (leafTrie [1] [7]).prove (fun x => List.replicate 31 0 ++ [x.length.toUInt8]) [1] 0 ⟨[]⟩ =
        some proofDb ∧
      (leafTrie [1] [7]).tryGet [1] = some v ∧ ∀ fuel, (keybytesToHex [1]).length < fuel →
        ∃ nodes, verifyProof fuel root [1] proofDb = some (.ok (v, nodes)) :=
  verifyProof_prove (by simp) (leafTrie_valid [1] (by simp)) (by simp [leafTrie])
    (by simp [leafTrie, Node.Bounded, keybytesToHex])
    (by
      rw [leafTrie, nodeEncodings_leaf, Set.injOn_pair]
      intro h
      exact absurd h (by decide))
    [1]

theorem verifyProof_sound (hk : ∀ x, (keccak x).length = 32) {t : Trie} (hv : t.Valid)
    (hne : t.root ≠ .nil) (hb : t.root.Bounded) {proofDb : BSKeyValueSet}
    (hdb : ∀ kv ∈ proofDb.kvArray, kv.key = keccak kv.value)
    (hinj : Set.InjOn keccak (nodeEncodings keccak t.root ∪ {e | ∃ kv ∈ proofDb.kvArray, kv.value = e}))
    {root key : List UInt8} (hroot : t.hash keccak = .hash root) {fuel : Nat}
    {v : Option (List UInt8)} {nodes : Nat}
    (h : verifyProof fuel root key proofDb = some (.ok (v, nodes))) :
    t.tryGet key = some v := by
  have hc : Canon t.root := hv.resolve_left hne
  rw [hc.hash_eq, Node.hash.injEq] at hroot
  subst hroot
  rw [hv.tryGet, verifyProofFrom_sound hk fuel hc hb (termKey_keybytesToHex key) _ h]
  -- an answer of the database is keyed by its hash, so it is the node's encoding
  intro c hsub e he
  obtain ⟨kv, hkv, hkey, hval⟩ := BSKeyValueSet.mem_of_get_eq_ok he
  apply hinj (.inr ⟨kv, hkv, hval⟩) (.inl ⟨c, hsub, rfl⟩)
  rw [← hval, ← hdb kv hkv, hkey]

theorem verifyProof_sound_leaf :
    ∃ root proofDb v nodes,
      (leafTrie [1] [7]).hash (fun x => List.replicate 31 0 ++ [x.length.toUInt8]) = .hash root ∧
      verifyProof 4 root [1] proofDb = some (.ok (v, nodes)) ∧
      (leafTrie [1] [7]).tryGet [1] = some v := by
  set kk : List UInt8 → List UInt8 := fun x => List.replicate 31 0 ++ [x.length.toUInt8] with hkk
  have hk : ∀ x, (kk x).length = 32 := by simp [kk]
  have hc : Canon (leafTrie [1] [7]).root := Canon.leaf (termKey_keybytesToHex [1]) (by simp)
  have hb : (leafTrie [1] [7]).root.Bounded := by simp [leafTrie, Node.Bounded, keybytesToHex]
  have hpath : proveNodes (leafTrie [1] [7]).root (keybytesToHex [1]) = some [(leafTrie [1] [7]).root] := by
    rw [leafTrie, proveNodes_short _ (termKey_keybytesToHex [1]).ne_nil, if_pos (List.prefix_refl _),
      List.drop_length]
    rfl
  -- a database of one pair: the root's encoding under its hash
  set e := encodeNode (hashChildren kk (leafTrie [1] [7]).root) with he
  obtain ⟨nodes, h⟩ := @verifyProofFrom_complete kk hk ⟨[⟨kk e, e⟩]⟩ 4 _ hc hb _
    (termKey_keybytesToHex [1]) (by decide)
    (by
      intro ns hns n hn _
      rw [hpath, Option.some_inj] at hns
      subst hns
      rw [List.mem_singleton.1 hn, ← he]
      simp [BSKeyValueSet.get, BSKeyValueSet.getPairs])
    0
  refine ⟨_, _, _, nodes, hc.hash_eq, h, verifyProof_sound hk (leafTrie_valid [1] (by simp))
    (by simp [leafTrie]) hb (by simp) ?_ hc.hash_eq h⟩
  rw [leafTrie, nodeEncodings_leaf, Set.union_eq_left.2 (by simp [he, leafTrie]), Set.injOn_pair]
  intro h
  exact absurd h (by decide)

/-! ### A proof that names itself -/

/-- The RLP of a short node with the empty key over the hash `h` decodes back to that node. -/
theorem decodeNode_short_nil_hash {h : List UInt8} (hh : h.length = 32) :
    decodeNode (encodeNode (.short [0] (.hash h))) = .ok (.short [] (.hash h)) := by
  have he : encodeNode (.short [0] (.hash h)) ++ [] = (Item.list [.bytes [0], .bytes h]).encode ++ [] := rfl
  rw [← List.append_nil (encodeNode _), he, decodeNode_encode_pair (by decide)
    (by simp [Item.encode, length_encodeBytes_of_length hh, hh])]
  simp only [Item.encode]
  rw [decodeShort_eq (splitString_encodeBytes (by decide) _),
    show compactToHex [0] = [] by decide, if_neg (by decide), ← List.append_nil (encodeBytes h)]
  obtain ⟨⟨x, rest⟩, hd, hx⟩ := map_eq_ok (decodeRef_encodeBytes_hash hh [])
  simp only [Prod.mk.injEq] at hx
  rw [hd, ← hx.1]
  rfl

/-- `VerifyProof` on a database whose one node is a short node with the empty key over its own
hash: each turn of the loop comes back to the same hash with the same key, so no fuel is enough. -/
theorem verifyProof_self_loop {h : List UInt8} (hh : h.length = 32) (key : List UInt8)
    (fuel : Nat) : verifyProof fuel h key ⟨[⟨h, encodeNode (.short [0] (.hash h))⟩]⟩ = none := by
  have hg : (BSKeyValueSet.get ⟨[⟨h, encodeNode (.short [0] (.hash h))⟩]⟩ h) =
      .ok (encodeNode (.short [0] (.hash h))) := by
    simp [BSKeyValueSet.get, BSKeyValueSet.getPairs]
  have hget : ∀ k, get (.short [] (.hash h)) k = some (k, .hash h) := by
    intro k
    rw [get_short, if_pos (List.nil_prefix)]
    rfl
  -- the loop, from any node index, with the same key
  suffices hrun : ∀ i, verifyProofFrom ⟨[⟨h, encodeNode (.short [0] (.hash h))⟩]⟩ fuel i h
      (keybytesToHex key) = none from hrun 0
  induction fuel with
  | zero => exact fun _ => rfl
  | succ fuel ih =>
    intro i
    rw [verifyProofFrom_succ_hash hg (decodeNode_short_nil_hash hh) (hget _), ih]

theorem verifyProof_self_loop_zero :
    verifyProof 1000 (List.replicate 32 0) [1]
      ⟨[⟨List.replicate 32 0, encodeNode (.short [0] (.hash (List.replicate 32 0)))⟩]⟩ = none :=
  verifyProof_self_loop (by simp) [1] 1000

end Results

end Trie

end IntChain
