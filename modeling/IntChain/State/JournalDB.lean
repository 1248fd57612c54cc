import IntChain.Lib.Journal
import IntChain.State.StakingDB

/-!
# The journaled state objects of `StateDB`

`core/state/journal.go`, the journaled setters of `state_object.go`, `state_object1.go`,
`state_object_delegate.go` and `state_object_reward.go`, and the mutators of `statedb*.go` that
call them. Every setter of a state object appends an entry that remembers the value it
replaces; `RevertToSnapshot` runs the entries' `undo` methods newest first.

A state object keeps the fields of its `Account` that have entries (the amounts, the nonce, the
child chain deposits, the candidate flag, the commission and the public key) and its proxied
and reward tries, each read through a cache: `dirty` holds what was written since the last
`Finalise`, `origin` what was read from the trie, and a value `none` is a nil pointer.
`StateDB` keeps the live objects, the objects marked dirty, the refund counter, and the
delegate refund set and the reward set, which `MarkDelegateAddressRefund` and
`MarkAddressReward` change without a journal entry.

An operation returns the new state and the entries it appended, or `none` where the source
panics; `Finalise` returns `none` where it dereferences a nil pointer.
-/

namespace IntChain

/-- `childChainDepositBalance`: what an account holds for one child chain. -/
structure ChildChainDepositBalance (ι : Type) where
  chainId : ι
  depositBalance : Int
  deriving DecidableEq, Repr

/-- The `*big.Int` fields of `Account` that have a journal entry of their own. -/
inductive AmountField
  | balance
  | depositBalance
  | chainBalance
  | delegateBalance
  | proxiedBalance
  | depositProxiedBalance
  | pendingRefundBalance
  | rewardBalance
  deriving DecidableEq, Repr

/-- The account total kept beside a per-user proxied field. -/
def ProxiedField.amount : ProxiedField → AmountField
  | .proxied => .proxiedBalance
  | .depositProxied => .depositProxiedBalance
  | .pendingRefund => .pendingRefundBalance

/-- Whether RLP encodes an `accountProxiedBalance`: it has no negative `*big.Int`. -/
def AccountProxiedBalance.encodes (a : AccountProxiedBalance) : Bool :=
  decide (0 ≤ a.proxiedBalance ∧ 0 ≤ a.depositProxiedBalance ∧ 0 ≤ a.pendingRefundBalance)

/-- A sub-trie of a state object with the two caches over it. -/
structure TrieCache (α ν : Type) where
  trie : KeyMap α ν
  origin : KeyMap α (Option ν)
  dirty : KeyMap α (Option ν)

def TrieCache.empty {α ν : Type} : TrieCache α ν := ⟨KeyMap.empty, KeyMap.empty, KeyMap.empty⟩

namespace TrieCache

variable {α ν : Type} [DecidableEq α]

/-- `GetAccountProxiedBalance`, `GetDelegateRewardBalance`: the dirty value, else the cached
origin value, else what the trie holds. -/
def get (c : TrieCache α ν) (k : α) : Option ν :=
  match c.dirty.find? k with
  | some v => v
  | none =>
    match c.origin.find? k with
    | some v => v
    | none => c.trie.find? k

/-- The cache after that read: a value read from the trie is kept in `origin`. -/
def load (c : TrieCache α ν) (k : α) : TrieCache α ν :=
  match c.dirty.find? k, c.origin.find? k with
  | none, none => { c with origin := c.origin.insert k (c.trie.find? k) }
  | _, _ => c

/-- `setAccountProxiedBalance`, `setDelegateRewardBalance`. -/
def set (c : TrieCache α ν) (k : α) (v : Option ν) : TrieCache α ν :=
  { c with dirty := c.dirty.insert k v }

/-- `accountProxiedBalance.Equal`, and the test `originReward[key] != nil && value.Cmp(...)`:
false when the origin value is nil, and a nil dereference when only the written value is. -/
def nilEqual [DecidableEq ν] : Option ν → Option ν → Option Bool
  | _, none => some false
  | none, some _ => none
  | some a, some b => some (decide (a = b))

/-- One iteration of the loops of `updateProxiedTrie` and `updateRewardTrie`: a dirty value
that differs from its origin becomes the origin value and is written to the trie, or deleted
from it when it is `zero` (`IsEmpty`, `Sign() == 0`, which dereference a nil value). A value
that `encodes` rejects (RLP has no negative `*big.Int`) is deleted too: the error of
`rlp.EncodeToBytes` is dropped, and `TryUpdate` deletes a key whose value is nil. -/
def flushEntry [DecidableEq ν] (zero : ν) (encodes : ν → Bool) (c : TrieCache α ν)
    (kv : α × Option ν) : Option (TrieCache α ν) :=
  -- Go's origin map gives nil for a key it does not hold
  match nilEqual kv.2 ((c.origin.find? kv.1).getD none) with
  | none => none
  | some true => some c
  | some false =>
    let c := { c with origin := c.origin.insert kv.1 kv.2 }
    match kv.2 with
    | none => none
    | some v =>
      if v = zero then some { c with trie := c.trie.erase kv.1 }
      else if encodes v then some { c with trie := c.trie.insert kv.1 v }
      else some { c with trie := c.trie.erase kv.1 }

/-- `updateProxiedTrie`, `updateRewardTrie`: every dirty entry in turn, with the dirty cache
emptied. -/
def updateTrie [DecidableEq ν] (zero : ν) (encodes : ν → Bool) (c : TrieCache α ν) :
    Option (TrieCache α ν) :=
  c.dirty.entries.foldlM (flushEntry zero encodes) { c with dirty := KeyMap.empty }

@[simp] theorem get_empty (k : α) : (empty : TrieCache α ν).get k = none := rfl

theorem get_set (c : TrieCache α ν) (k : α) (v : Option ν) :
    (c.set k v).get = Function.update c.get k v := by
  funext k'
  unfold get set
  rw [KeyMap.find?_insert, Function.update_apply]
  by_cases h : k' = k <;> simp [h]

@[simp] theorem get_load (c : TrieCache α ν) (k : α) : (c.load k).get = c.get := by
  funext k'
  unfold load
  split
  · next hd ho =>
    -- the read that fills the cache stores what the trie gives
    unfold get
    rw [KeyMap.find?_insert]
    by_cases h : k' = k
    · subst h
      simp [hd, ho]
    · simp [h]
  · rfl

@[simp] theorem dirty_load (c : TrieCache α ν) (k : α) : (c.load k).dirty = c.dirty := by
  unfold load
  split <;> rfl

/-- A step that meets no nil value goes through. -/
theorem flushEntry_isSome [DecidableEq ν] (zero : ν) (encodes : ν → Bool) (c : TrieCache α ν)
    {kv : α × Option ν} (h : kv.2.isSome) : (flushEntry zero encodes c kv).isSome := by
  obtain ⟨k, v⟩ := kv
  cases v with
  | none => cases h
  | some v =>
    -- the written value is not nil, so neither test dereferences one
    obtain ⟨b, hb⟩ : ∃ b, nilEqual (some v) ((c.origin.find? k).getD none) = some b := by
      cases (c.origin.find? k).getD none <;> simp [nilEqual]
    unfold flushEntry
    simp only [hb]
    cases b
    · dsimp only
      split
      · rfl
      · split <;> rfl
    · rfl

/-- Writing caches without a nil value goes through. -/
theorem updateTrie_isSome [DecidableEq ν] (zero : ν) (encodes : ν → Bool) (c : TrieCache α ν)
    (h : ∀ kv ∈ c.dirty.entries, kv.2.isSome) : (c.updateTrie zero encodes).isSome := by
  -- the loop goes through from any cache, by induction on the entries still to visit
  have key : ∀ l : List (α × Option ν), (∀ kv ∈ l, kv.2.isSome) →
      ∀ init, (l.foldlM (flushEntry zero encodes) init).isSome := by
    intro l
    induction l with
    | nil => intro _ init; rfl
    | cons kv l ih =>
      intro hl init
      obtain ⟨c', hc'⟩ := Option.isSome_iff_exists.1
        (flushEntry_isSome zero encodes init (hl kv List.mem_cons_self))
      rw [List.foldlM_cons, hc', Option.bind_eq_bind, Option.bind_some]
      exact ih (fun kv hkv => hl kv (List.mem_cons_of_mem _ hkv)) c'
  exact key _ h _

theorem flushEntry_dirty [DecidableEq ν] (zero : ν) (encodes : ν → Bool) {c c' : TrieCache α ν}
    {kv : α × Option ν} (h : flushEntry zero encodes c kv = some c') : c'.dirty = c.dirty := by
  unfold flushEntry at h
  split at h
  · cases h
  · cases h
    rfl
  · dsimp only at h
    split at h
    · cases h
    · split_ifs at h <;>
      · cases h
        rfl

/-- `updateTrie` leaves the dirty cache empty. -/
theorem updateTrie_dirty [DecidableEq ν] (zero : ν) (encodes : ν → Bool) {c c' : TrieCache α ν}
    (h : c.updateTrie zero encodes = some c') : c'.dirty = KeyMap.empty := by
  -- no step of the loop touches the dirty cache it starts from
  have key : ∀ (l : List (α × Option ν)) (t t' : TrieCache α ν),
      l.foldlM (flushEntry zero encodes) t = some t' → t'.dirty = t.dirty := by
    intro l
    induction l with
    | nil =>
      intro t t' h
      cases h
      rfl
    | cons kv l ih =>
      intro t t' h
      rw [List.foldlM_cons] at h
      obtain ⟨t₁, h₁, h₂⟩ := Option.bind_eq_some_iff.1 h
      rw [ih t₁ t' h₂, flushEntry_dirty zero encodes h₁]
  exact key _ _ _ h

/-- With nothing dirty, `updateTrie` changes nothing. -/
theorem updateTrie_of_dirty_eq_empty [DecidableEq ν] (zero : ν) (encodes : ν → Bool)
    {c : TrieCache α ν} (h : c.dirty = KeyMap.empty) : c.updateTrie zero encodes = some c := by
  obtain ⟨trie, origin, dirty⟩ := c
  subst h
  rfl

end TrieCache

/-- A `stateObject`: the fields of its `Account` that have journal entries, and its proxied
and reward tries with their caches. -/
structure StateObject (α κ ι : Type) where
  nonce : Nat := 0
  balance : Int := 0
  depositBalance : Int := 0
  childChainDepositBalance : List (ChildChainDepositBalance ι) := []
  chainBalance : Int := 0
  delegateBalance : Int := 0
  proxiedBalance : Int := 0
  depositProxiedBalance : Int := 0
  pendingRefundBalance : Int := 0
  candidate : Bool := false
  commission : UInt8 := 0
  /-- `Pubkey`: `none` is the empty string. -/
  pubkey : Option κ := none
  rewardBalance : Int := 0
  proxied : TrieCache α AccountProxiedBalance := TrieCache.empty
  reward : TrieCache α Int := TrieCache.empty
  /-- Set by `Finalise` when it deletes the object, which stays in `stateObjects` while
  `getStateObject` answers nil for it. -/
  deleted : Bool := false

namespace StateObject

variable {α κ ι : Type}

def getAmount (o : StateObject α κ ι) : AmountField → Int
  | .balance => o.balance
  | .depositBalance => o.depositBalance
  | .chainBalance => o.chainBalance
  | .delegateBalance => o.delegateBalance
  | .proxiedBalance => o.proxiedBalance
  | .depositProxiedBalance => o.depositProxiedBalance
  | .pendingRefundBalance => o.pendingRefundBalance
  | .rewardBalance => o.rewardBalance

/-- `setBalance`, `setDepositBalance`, …: the write without the journal entry. -/
def setAmount (o : StateObject α κ ι) : AmountField → Int → StateObject α κ ι
  | .balance, x => { o with balance := x }
  | .depositBalance, x => { o with depositBalance := x }
  | .chainBalance, x => { o with chainBalance := x }
  | .delegateBalance, x => { o with delegateBalance := x }
  | .proxiedBalance, x => { o with proxiedBalance := x }
  | .depositProxiedBalance, x => { o with depositProxiedBalance := x }
  | .pendingRefundBalance, x => { o with pendingRefundBalance := x }
  | .rewardBalance, x => { o with rewardBalance := x }

@[simp] theorem getAmount_setAmount (o : StateObject α κ ι) (f : AmountField) (x : Int) :
    (o.setAmount f x).getAmount = Function.update o.getAmount f x := by
  funext g
  cases f <;> cases g <;> rfl

/-- `empty()`; the model has no code, so the code hash test always holds. -/
def empty (o : StateObject α κ ι) : Bool :=
  o.nonce = 0 ∧ o.balance = 0 ∧ o.depositBalance = 0 ∧ o.childChainDepositBalance.isEmpty ∧
    o.chainBalance = 0 ∧ o.delegateBalance = 0 ∧ o.proxiedBalance = 0 ∧
    o.depositProxiedBalance = 0 ∧ o.pendingRefundBalance = 0

variable [DecidableEq ι]

/-- `ChildChainDepositBalance`: the deposit of the chain's first entry, or zero. -/
def childChainDeposit (l : List (ChildChainDepositBalance ι)) (chainId : ι) : Int :=
  match l.find? fun e => decide (e.chainId = chainId) with
  | some e => e.depositBalance
  | none => 0

/-- The loop of `SetChildChainDepositBalance`, which the undo of its entry repeats: the index
of the chain's first entry, after appending a zero entry when there is none. -/
def childChainIndex (l : List (ChildChainDepositBalance ι)) (chainId : ι) :
    List (ChildChainDepositBalance ι) × Nat :=
  match l.findIdx? fun e => decide (e.chainId = chainId) with
  | some i => (l, i)
  | none => (l ++ [⟨chainId, 0⟩], l.length)

/-- `setChildChainDepositBalance(index, amount)` on the entry that `childChainIndex` finds. -/
def writeChildChainDeposit (o : StateObject α κ ι) (chainId : ι) (amount : Int) :
    StateObject α κ ι :=
  let r := childChainIndex o.childChainDepositBalance chainId
  { o with childChainDepositBalance := r.1.modify r.2 fun e => { e with depositBalance := amount } }

theorem childChainDeposit_cons (e : ChildChainDepositBalance ι) (l : List (ChildChainDepositBalance ι))
    (chainId : ι) :
    childChainDeposit (e :: l) chainId =
      if e.chainId = chainId then e.depositBalance else childChainDeposit l chainId := by
  unfold childChainDeposit
  by_cases h : e.chainId = chainId <;> simp [h]

theorem childChainIndex_cons_of_eq {e : ChildChainDepositBalance ι} {chainId : ι}
    (l : List (ChildChainDepositBalance ι)) (h : e.chainId = chainId) :
    childChainIndex (e :: l) chainId = (e :: l, 0) := by
  simp [childChainIndex, List.findIdx?_cons, h]

theorem childChainIndex_cons_of_ne {e : ChildChainDepositBalance ι} {chainId : ι}
    (l : List (ChildChainDepositBalance ι)) (h : e.chainId ≠ chainId) :
    childChainIndex (e :: l) chainId =
      (e :: (childChainIndex l chainId).1, (childChainIndex l chainId).2 + 1) := by
  unfold childChainIndex
  rw [List.findIdx?_cons]
  cases l.findIdx? fun e => decide (e.chainId = chainId) <;> simp [h]

/-- The entry the loop finds holds what `ChildChainDepositBalance` reads: the value that
`SetChildChainDepositBalance` journals is the previous deposit. -/
theorem childChainIndex_deposit (l : List (ChildChainDepositBalance ι)) (chainId : ι) :
    (((childChainIndex l chainId).1[(childChainIndex l chainId).2]?).map (·.depositBalance)).getD 0 =
      childChainDeposit l chainId := by
  induction l with
  | nil => rfl
  | cons e l ih =>
    by_cases h : e.chainId = chainId
    · rw [childChainIndex_cons_of_eq l h, childChainDeposit_cons, if_pos h]
      rfl
    · rw [childChainIndex_cons_of_ne l h, childChainDeposit_cons, if_neg h]
      exact ih

/-- Writing at the entry the loop finds changes what `ChildChainDepositBalance` reads for that
chain only. -/
theorem childChainDeposit_writeChildChainDeposit (o : StateObject α κ ι) (chainId : ι)
    (amount : Int) :
    childChainDeposit (o.writeChildChainDeposit chainId amount).childChainDepositBalance =
      Function.update (childChainDeposit o.childChainDepositBalance) chainId amount := by
  funext c
  simp only [writeChildChainDeposit, Function.update_apply]
  induction o.childChainDepositBalance with
  | nil =>
    show childChainDeposit [⟨chainId, amount⟩] c = _
    by_cases hc : c = chainId
    · simp [childChainDeposit_cons, hc]
    · simp [hc, Ne.symm hc, childChainDeposit]
  | cons e l ih =>
    by_cases h : e.chainId = chainId
    · rw [childChainIndex_cons_of_eq l h]
      show childChainDeposit ({ e with depositBalance := amount } :: l) c = _
      rw [childChainDeposit_cons, childChainDeposit_cons]
      by_cases hc : c = chainId
      · simp [hc, h]
      · have hec : e.chainId ≠ c := fun hec => hc (hec ▸ h)
        simp [hc, hec]
    · rw [childChainIndex_cons_of_ne l h, List.modify_succ_cons, childChainDeposit_cons,
        childChainDeposit_cons, ih]
      by_cases hec : e.chainId = c
      · have hc : c ≠ chainId := fun hc => h (hec.trans hc)
        simp [hc, hec]
      · simp [hec]

end StateObject

/-- The part of `StateDB` that the journal covers. -/
structure ObjectDB (α κ ι : Type) where
  stateObjects : KeyMap α (StateObject α κ ι)
  stateObjectsDirty : List α
  delegateRefundSet : List α
  delegateRefundSetDirty : Bool
  rewardSet : List α
  rewardSetDirty : Bool
  refund : Nat

/-- The journal entries of the modelled setters, each with what it remembers. -/
inductive JournalEntry (α κ ι : Type)
  | createObjectChange (account : α)
  /-- `balanceChange`, `depositBalanceChange`, `chainBalanceChange`, `delegateBalanceChange`,
  `proxiedBalanceChange`, `depositProxiedBalanceChange`, `pendingRefundBalanceChange` and
  `rewardBalanceChange`. -/
  | amountChange (account : α) (field : AmountField) (prev : Int)
  | nonceChange (account : α) (prev : Nat)
  | childChainDepositBalanceChange (account : α) (chainId : ι) (prev : Int)
  | accountProxiedBalanceChange (account key : α) (prevalue : Option AccountProxiedBalance)
  | delegateRewardBalanceChange (account key : α) (prevalue : Option Int)
  | candidateChange (account : α) (prev : Bool)
  | commissionChange (account : α) (prev : UInt8)
  | pubkeyChange (account : α) (prev : Option κ)
  | refundChange (prev : Nat)

/-- A mutator: the new state and the entries it appended, or `none` where it panics. -/
abbrev StateOp (α κ ι : Type) := ObjectDB α κ ι → Option (ObjectDB α κ ι × List (JournalEntry α κ ι))

namespace ObjectDB

variable {α κ ι : Type} [DecidableEq α]

/-- The object at an address; an absent one reads as a new, empty object, as the getters of
`StateDB` answer zero for it. -/
def object (s : ObjectDB α κ ι) (a : α) : StateObject α κ ι := s.stateObjects.findD a {}

/-- Write an object back; the first write calls its `onDirty`, which marks it dirty. -/
def setObject (s : ObjectDB α κ ι) (a : α) (o : StateObject α κ ι) : ObjectDB α κ ι :=
  { s with stateObjects := s.stateObjects.insert a o,
           stateObjectsDirty :=
             if a ∈ s.stateObjectsDirty then s.stateObjectsDirty else s.stateObjectsDirty ++ [a] }

def updateObject (s : ObjectDB α κ ι) (a : α) (f : StateObject α κ ι → StateObject α κ ι) :
    ObjectDB α κ ι :=
  s.setObject a (f (s.object a))

/-- What an undo does to `s.getStateObject(*ch.account)`. The object is never nil there: an
entry comes after the creation of its object, whose entry is undone after it. -/
def undoObject (s : ObjectDB α κ ι) (a : α) (f : StateObject α κ ι → StateObject α κ ι) :
    ObjectDB α κ ι :=
  match s.stateObjects.find? a with
  | some o => s.setObject a (f o)
  | none => s

end ObjectDB

variable {α κ ι : Type} [DecidableEq α] [DecidableEq ι]

/-- The `undo` methods of `journal.go`. -/
def JournalEntry.undo : JournalEntry α κ ι → ObjectDB α κ ι → ObjectDB α κ ι
  | .createObjectChange a, s =>
    { s with stateObjects := s.stateObjects.erase a,
             stateObjectsDirty := s.stateObjectsDirty.erase a }
  | .amountChange a f prev, s => s.undoObject a (·.setAmount f prev)
  | .nonceChange a prev, s => s.undoObject a fun o => { o with nonce := prev }
  | .childChainDepositBalanceChange a chainId prev, s =>
    s.undoObject a (·.writeChildChainDeposit chainId prev)
  | .accountProxiedBalanceChange a key prevalue, s =>
    s.undoObject a fun o => { o with proxied := o.proxied.set key prevalue }
  | .delegateRewardBalanceChange a key prevalue, s =>
    s.undoObject a fun o => { o with reward := o.reward.set key prevalue }
  | .candidateChange a prev, s => s.undoObject a fun o => { o with candidate := prev }
  | .commissionChange a prev, s => s.undoObject a fun o => { o with commission := prev }
  | .pubkeyChange a prev, s => s.undoObject a fun o => { o with pubkey := prev }
  | .refundChange prev, s => { s with refund := prev }

/-! ### The setters of a state object -/

/-- `GetOrNewStateObject`: an absent or deleted object is replaced by a new one with a
`createObjectChange`, and its `setNonce(0)` marks it dirty. -/
def getOrNewStateObject (a : α) : StateOp α κ ι := fun s =>
  match s.stateObjects.find? a with
  | some o => if o.deleted then some (s.setObject a {}, [.createObjectChange a]) else some (s, [])
  | none => some (s.setObject a {}, [.createObjectChange a])

/-- The shared body of `SetBalance`, `SetDepositBalance`, `SetChainBalance`, …: journal the
previous value, then write. -/
def setField (f : AmountField) (a : α) (amount : Int) : StateOp α κ ι := fun s =>
  some (s.updateObject a (·.setAmount f amount), [.amountChange a f ((s.object a).getAmount f)])

def setBalance (a : α) (amount : Int) : StateOp α κ ι := setField .balance a amount
def setDepositBalance (a : α) (amount : Int) : StateOp α κ ι := setField .depositBalance a amount
def setChainBalance (a : α) (amount : Int) : StateOp α κ ι := setField .chainBalance a amount
def setDelegateBalance (a : α) (amount : Int) : StateOp α κ ι :=
  setField .delegateBalance a amount
def setProxiedBalance (a : α) (amount : Int) : StateOp α κ ι := setField .proxiedBalance a amount
def setDepositProxiedBalance (a : α) (amount : Int) : StateOp α κ ι :=
  setField .depositProxiedBalance a amount
def setPendingRefundBalance (a : α) (amount : Int) : StateOp α κ ι :=
  setField .pendingRefundBalance a amount

/-- `SetRewardBalance`: a negative amount is stored as zero. -/
def setRewardBalance (a : α) (amount : Int) : StateOp α κ ι :=
  setField .rewardBalance a (if amount < 0 then 0 else amount)

def setAmount : AmountField → α → Int → StateOp α κ ι
  | .balance => setBalance
  | .depositBalance => setDepositBalance
  | .chainBalance => setChainBalance
  | .delegateBalance => setDelegateBalance
  | .proxiedBalance => setProxiedBalance
  | .depositProxiedBalance => setDepositProxiedBalance
  | .pendingRefundBalance => setPendingRefundBalance
  | .rewardBalance => setRewardBalance

/-- `AddBalance`, `AddDepositBalance`, …, `AddRewardBalance` of `stateObject`. A zero amount
only touches an empty object, which the model leaves out. -/
def addAmount (f : AmountField) (a : α) (amount : Int) : StateOp α κ ι := fun s =>
  if amount = 0 then some (s, []) else setAmount f a ((s.object a).getAmount f + amount) s

/-- `SubBalance`, `SubDepositBalance`, …, `SubRewardBalance` of `stateObject`. -/
def subAmount (f : AmountField) (a : α) (amount : Int) : StateOp α κ ι := fun s =>
  if amount = 0 then some (s, []) else setAmount f a ((s.object a).getAmount f - amount) s

/-- `SetNonce`. -/
def setNonce (a : α) (nonce : Nat) : StateOp α κ ι := fun s =>
  some (s.updateObject a fun o => { o with nonce := nonce }, [.nonceChange a (s.object a).nonce])

/-- `SetChildChainDepositBalance`: the entry it journals is the one the loop found, which is a
new zero entry when the chain had none. -/
def setChildChainDepositBalance (a : α) (chainId : ι) (amount : Int) : StateOp α κ ι := fun s =>
  let r := StateObject.childChainIndex (s.object a).childChainDepositBalance chainId
  some (s.updateObject a (·.writeChildChainDeposit chainId amount),
    [.childChainDepositBalanceChange a chainId ((r.1[r.2]?.map (·.depositBalance)).getD 0)])

/-- `AddChildChainDepositBalance`. -/
def addChildChainDepositBalance (a : α) (chainId : ι) (amount : Int) : StateOp α κ ι := fun s =>
  if amount = 0 then some (s, [])
  else setChildChainDepositBalance a chainId
    (StateObject.childChainDeposit (s.object a).childChainDepositBalance chainId + amount) s

/-- `SubChildChainDepositBalance`. -/
def subChildChainDepositBalance (a : α) (chainId : ι) (amount : Int) : StateOp α κ ι := fun s =>
  if amount = 0 then some (s, [])
  else setChildChainDepositBalance a chainId
    (StateObject.childChainDeposit (s.object a).childChainDepositBalance chainId - amount) s

/-- `SetAccountProxiedBalance`: the previous value is what `GetAccountProxiedBalance` reads,
nil for a user with no entry. -/
def setAccountProxiedBalance (a key : α) (v : AccountProxiedBalance) : StateOp α κ ι := fun s =>
  some (s.updateObject a fun o => { o with proxied := (o.proxied.load key).set key (some v) },
    [.accountProxiedBalanceChange a key ((s.object a).proxied.get key)])

/-- `SetDelegateRewardBalance`. -/
def setDelegateRewardBalance (a key : α) (v : Int) : StateOp α κ ι := fun s =>
  some (s.updateObject a fun o => { o with reward := (o.reward.load key).set key (some v) },
    [.delegateRewardBalanceChange a key ((s.object a).reward.get key)])

/-- `SetCandidate`. -/
def setCandidate (a : α) (isCandidate : Bool) : StateOp α κ ι := fun s =>
  some (s.updateObject a fun o => { o with candidate := isCandidate },
    [.candidateChange a (s.object a).candidate])

/-- `SetCommission`. -/
def setCommission (a : α) (commission : UInt8) : StateOp α κ ι := fun s =>
  some (s.updateObject a fun o => { o with commission := commission },
    [.commissionChange a (s.object a).commission])

/-- `SetPubkey`. -/
def setPubkey (a : α) (pubkey : Option κ) : StateOp α κ ι := fun s =>
  some (s.updateObject a fun o => { o with pubkey := pubkey }, [.pubkeyChange a (s.object a).pubkey])

/-! ### The mutators of `StateDB` -/

/-- `AddProxiedBalanceByUser`, `AddDepositProxiedBalanceByUser`,
`AddPendingRefundBalanceByUser`: a user with no entry starts from `NewAccountProxiedBalance`. -/
def addByUser (f : ProxiedField) (a user : α) (amount : Int) : StateOp α κ ι :=
  Journal.seq (getOrNewStateObject a) <| Journal.seq
    (fun s =>
      let apb := ((s.object a).proxied.get user).getD AccountProxiedBalance.zero
      setAccountProxiedBalance a user (apb.set f (apb.get f + amount)) s)
    (addAmount f.amount a amount)

/-- `SubProxiedBalanceByUser`, `SubDepositProxiedBalanceByUser`,
`SubPendingRefundBalanceByUser`. -/
def subByUser (f : ProxiedField) (a user : α) (amount : Int) : StateOp α κ ι :=
  Journal.seq (getOrNewStateObject a) <| Journal.seq
    (fun s =>
      let apb := ((s.object a).proxied.get user).getD AccountProxiedBalance.zero
      setAccountProxiedBalance a user (apb.set f (apb.get f - amount)) s)
    (subAmount f.amount a amount)

/-- `AddRewardBalanceByDelegateAddress`: a delegate address with no entry starts from the
amount itself. -/
def addRewardBalanceByDelegateAddress (a deleAddress : α) (amount : Int) : StateOp α κ ι :=
  Journal.seq (getOrNewStateObject a) <| Journal.seq
    (fun s =>
      let v := match (s.object a).reward.get deleAddress with
        | none => amount
        | some r => r + amount
      setDelegateRewardBalance a deleAddress v s)
    (addAmount .rewardBalance a amount)

/-- `SubRewardBalanceByDelegateAddress`: it panics on a delegate address with no entry. -/
def subRewardBalanceByDelegateAddress (a deleAddress : α) (amount : Int) : StateOp α κ ι :=
  Journal.seq (getOrNewStateObject a) <| Journal.seq
    (fun s =>
      match (s.object a).reward.get deleAddress with
      | none => none
      | some r => setDelegateRewardBalance a deleAddress (r - amount) s)
    (subAmount .rewardBalance a amount)

/-- `ApplyForCandidate`. -/
def applyForCandidate (a : α) (pubkey : κ) (commission : UInt8) : StateOp α κ ι :=
  Journal.seq (getOrNewStateObject a) <| Journal.seq (setCandidate a true) <|
    Journal.seq (setCommission a commission) (setPubkey a (some pubkey))

/-- `CancelCandidate`: the commission is cleared only when everything was refunded. -/
def cancelCandidate (a : α) (allRefund : Bool) : StateOp α κ ι :=
  Journal.seq (getOrNewStateObject a) <| Journal.seq (setCandidate a false) <|
    Journal.seq (setPubkey a none)
      (if allRefund then setCommission a 0 else fun s => some (s, []))

/-- `MarkDelegateAddressRefund`: no journal entry. -/
def markDelegateAddressRefund (a : α) : StateOp α κ ι := fun s =>
  if a ∈ s.delegateRefundSet then some (s, [])
  else some ({ s with delegateRefundSet := s.delegateRefundSet ++ [a],
                      delegateRefundSetDirty := true }, [])

/-- `MarkAddressReward`: no journal entry. -/
def markAddressReward (a : α) : StateOp α κ ι := fun s =>
  if a ∈ s.rewardSet then some (s, [])
  else some ({ s with rewardSet := s.rewardSet ++ [a], rewardSetDirty := true }, [])

/-- `AddRefund`. -/
def addRefund (gas : Nat) : StateOp α κ ι := fun s =>
  some ({ s with refund := s.refund + gas }, [.refundChange s.refund])

/-- The mutators of `StateDB` in the model. -/
inductive Op (α κ ι : Type)
  /-- `AddBalance`, `AddDepositBalance`, `AddChainBalance`, `AddDelegateBalance`,
  `AddRewardBalance`. -/
  | addAmount (f : AmountField) (addr : α) (amount : Int)
  /-- `SubBalance`, `SubDepositBalance`, `SubChainBalance`, `SubDelegateBalance`,
  `SubRewardBalance`. -/
  | subAmount (f : AmountField) (addr : α) (amount : Int)
  | setNonce (addr : α) (nonce : Nat)
  | addChildChainDepositBalance (addr : α) (chainId : ι) (amount : Int)
  | subChildChainDepositBalance (addr : α) (chainId : ι) (amount : Int)
  | addByUser (f : ProxiedField) (addr user : α) (amount : Int)
  | subByUser (f : ProxiedField) (addr user : α) (amount : Int)
  | addRewardBalanceByDelegateAddress (addr deleAddress : α) (amount : Int)
  | subRewardBalanceByDelegateAddress (addr deleAddress : α) (amount : Int)
  | applyForCandidate (addr : α) (pubkey : κ) (commission : UInt8)
  | cancelCandidate (addr : α) (allRefund : Bool)
  | setCommission (addr : α) (commission : UInt8)
  | markDelegateAddressRefund (addr : α)
  | markAddressReward (addr : α)
  | addRefund (gas : Nat)

/-- Each mutator of `StateDB` runs on the object `GetOrNewStateObject` gives. -/
def Op.run : Op α κ ι → StateOp α κ ι
  | .addAmount f a x => Journal.seq (getOrNewStateObject a) (IntChain.addAmount f a x)
  | .subAmount f a x => Journal.seq (getOrNewStateObject a) (IntChain.subAmount f a x)
  | .setNonce a n => Journal.seq (getOrNewStateObject a) (IntChain.setNonce a n)
  | .addChildChainDepositBalance a c x =>
    Journal.seq (getOrNewStateObject a) (IntChain.addChildChainDepositBalance a c x)
  | .subChildChainDepositBalance a c x =>
    Journal.seq (getOrNewStateObject a) (IntChain.subChildChainDepositBalance a c x)
  | .addByUser f a u x => IntChain.addByUser f a u x
  | .subByUser f a u x => IntChain.subByUser f a u x
  | .addRewardBalanceByDelegateAddress a d x => IntChain.addRewardBalanceByDelegateAddress a d x
  | .subRewardBalanceByDelegateAddress a d x => IntChain.subRewardBalanceByDelegateAddress a d x
  | .applyForCandidate a k c => IntChain.applyForCandidate a k c
  | .cancelCandidate a r => IntChain.cancelCandidate a r
  | .setCommission a c => Journal.seq (getOrNewStateObject a) (IntChain.setCommission a c)
  | .markDelegateAddressRefund a => IntChain.markDelegateAddressRefund a
  | .markAddressReward a => IntChain.markAddressReward a
  | .addRefund gas => IntChain.addRefund gas

/-! ### `Finalise` -/

/-- What `Finalise` does to one dirty object: delete it if it is empty and
`deleteEmptyObjects` is set, and otherwise write its proxied and reward caches to its tries.
An address missing from `stateObjects` gives a nil object, whose `suicided` Go
dereferences. -/
def ObjectDB.finaliseObject (deleteEmptyObjects : Bool) (s : ObjectDB α κ ι) (a : α) :
    Option (ObjectDB α κ ι) :=
  match s.stateObjects.find? a with
  | none => none
  | some o =>
    -- `deleteStateObject` marks the object deleted and takes it out of the account trie
    if deleteEmptyObjects && o.empty then
      some { s with stateObjects := s.stateObjects.insert a { o with deleted := true } }
    else
      (o.proxied.updateTrie AccountProxiedBalance.zero AccountProxiedBalance.encodes).bind
        fun proxied => (o.reward.updateTrie 0 fun v => decide (0 ≤ v)).map fun reward =>
          { s with stateObjects := s.stateObjects.insert a { o with proxied, reward } }

/-- `Finalise`: every dirty object, then the refund counter is cleared with the journal. The
objects stay dirty and so do the two sets, whose dirty flags only `Commit` clears. -/
def ObjectDB.finalise (deleteEmptyObjects : Bool) (s : ObjectDB α κ ι) : Option (ObjectDB α κ ι) :=
  (s.stateObjectsDirty.foldlM (ObjectDB.finaliseObject deleteEmptyObjects) s).map fun s =>
    { s with refund := 0 }

end IntChain
