import IntChain.State.JournalDB

/-!
# What a revert gives back

`RevertToSnapshot` after any run of the modelled mutators of `StateDB`. What the getters see
is `Reads`; the undo of every journal entry acts on it as `JournalEntry.undoReads`, which puts
back the one value the entry remembers. Each mutator is undone by the entries it appends, so a
revert gives back what every getter answers except the delegate refund set and the reward set:
`MarkDelegateAddressRefund` and `MarkAddressReward` write no entry, and their marks stay.

The state itself is not given back. `Finalise` goes through on every state whose dirty caches
hold no nil value (`FinaliseSafe`); every mutator keeps that, and so does the undo of every
entry but one that puts back a nil previous value, which the first write of a proxied or reward
entry journals.
-/

namespace IntChain

variable {α κ ι : Type}

/-- What the getters of `StateDB` return for one live account. -/
@[ext] structure ObjectReads (α κ ι : Type) where
  amount : AmountField → Int
  nonce : Nat
  childChainDeposit : ι → Int
  candidate : Bool
  commission : UInt8
  pubkey : Option κ
  accountProxiedBalance : α → Option AccountProxiedBalance
  delegateRewardBalance : α → Option Int

/-- What the getters of `StateDB` return: for each address the reads of its object, or `none`
where `getStateObject` is nil (`Exist` is false and every amount reads zero); the two sets, as
membership; the refund counter. -/
@[ext] structure Reads (α κ ι : Type) where
  object : α → Option (ObjectReads α κ ι)
  delegateRefundSet : α → Bool
  rewardSet : α → Bool
  refund : Nat

variable [DecidableEq α] [DecidableEq ι]

def StateObject.reads (o : StateObject α κ ι) : ObjectReads α κ ι :=
  ⟨o.getAmount, o.nonce, StateObject.childChainDeposit o.childChainDepositBalance, o.candidate,
    o.commission, o.pubkey, o.proxied.get, o.reward.get⟩

/-- `getStateObject` answers nil for a deleted object. -/
def StateObject.live (o : StateObject α κ ι) : Option (ObjectReads α κ ι) :=
  if o.deleted then none else some o.reads

def ObjectDB.reads (s : ObjectDB α κ ι) : Reads α κ ι :=
  ⟨fun a => (s.stateObjects.find? a).bind StateObject.live,
    fun a => decide (a ∈ s.delegateRefundSet), fun a => decide (a ∈ s.rewardSet), s.refund⟩

namespace Reads

/-- Change what one live account reads; an absent one stays absent. -/
def mapObject (r : Reads α κ ι) (a : α) (g : ObjectReads α κ ι → ObjectReads α κ ι) :
    Reads α κ ι :=
  { r with object := Function.update r.object a ((r.object a).map g) }

/-- The reads without the two sets. -/
def forgetSets (r : Reads α κ ι) : Reads α κ ι :=
  { r with delegateRefundSet := fun _ => false, rewardSet := fun _ => false }

end Reads

/-- What the undo of an entry does to the reads: it puts back the one value it remembers. -/
def JournalEntry.undoReads : JournalEntry α κ ι → Reads α κ ι → Reads α κ ι
  | .createObjectChange a, r => { r with object := Function.update r.object a none }
  | .amountChange a f prev, r =>
    r.mapObject a fun v => { v with amount := Function.update v.amount f prev }
  | .nonceChange a prev, r => r.mapObject a fun v => { v with nonce := prev }
  | .childChainDepositBalanceChange a c prev, r =>
    r.mapObject a fun v => { v with childChainDeposit := Function.update v.childChainDeposit c prev }
  | .accountProxiedBalanceChange a k p, r =>
    r.mapObject a fun v =>
      { v with accountProxiedBalance := Function.update v.accountProxiedBalance k p }
  | .delegateRewardBalanceChange a k p, r =>
    r.mapObject a fun v =>
      { v with delegateRewardBalance := Function.update v.delegateRewardBalance k p }
  | .candidateChange a prev, r => r.mapObject a fun v => { v with candidate := prev }
  | .commissionChange a prev, r => r.mapObject a fun v => { v with commission := prev }
  | .pubkeyChange a prev, r => r.mapObject a fun v => { v with pubkey := prev }
  | .refundChange prev, r => { r with refund := prev }

/-! ### The reads of each write -/

namespace StateObject

theorem reads_setAmount (o : StateObject α κ ι) (f : AmountField) (x : Int) :
    (o.setAmount f x).reads = { o.reads with amount := Function.update o.reads.amount f x } := by
  cases f <;> exact ObjectReads.ext (getAmount_setAmount o _ x) rfl rfl rfl rfl rfl rfl rfl

theorem reads_writeChildChainDeposit (o : StateObject α κ ι) (chainId : ι) (amount : Int) :
    (o.writeChildChainDeposit chainId amount).reads =
      { o.reads with
        childChainDeposit := Function.update o.reads.childChainDeposit chainId amount } :=
  ObjectReads.ext rfl rfl (childChainDeposit_writeChildChainDeposit o chainId amount) rfl rfl rfl
    rfl rfl

theorem reads_setProxied (o : StateObject α κ ι) (k : α) (p : Option AccountProxiedBalance) :
    { o with proxied := o.proxied.set k p }.reads =
      { o.reads with
        accountProxiedBalance := Function.update o.reads.accountProxiedBalance k p } :=
  ObjectReads.ext rfl rfl rfl rfl rfl rfl (TrieCache.get_set o.proxied k p) rfl

theorem reads_setReward (o : StateObject α κ ι) (k : α) (p : Option Int) :
    { o with reward := o.reward.set k p }.reads =
      { o.reads with
        delegateRewardBalance := Function.update o.reads.delegateRewardBalance k p } :=
  ObjectReads.ext rfl rfl rfl rfl rfl rfl rfl (TrieCache.get_set o.reward k p)

end StateObject

namespace ObjectDB

theorem reads_setObject (s : ObjectDB α κ ι) (a : α) (o : StateObject α κ ι) :
    (s.setObject a o).reads =
      { s.reads with object := Function.update s.reads.object a o.live } := by
  refine Reads.ext ?_ rfl rfl rfl
  funext b
  simp only [reads, setObject, KeyMap.find?_insert, Function.update_apply]
  split_ifs <;> rfl

/-- An undo that changes what an object reads as `g` does, and keeps it deleted or not. -/
theorem reads_undoObject (s : ObjectDB α κ ι) (a : α) {f : StateObject α κ ι → StateObject α κ ι}
    {g : ObjectReads α κ ι → ObjectReads α κ ι} (hfg : ∀ o, (f o).reads = g o.reads)
    (hdel : ∀ o, (f o).deleted = o.deleted) :
    (s.undoObject a f).reads = s.reads.mapObject a g := by
  unfold undoObject
  cases h : s.stateObjects.find? a with
  | none =>
    -- nothing to undo, and nothing to read at `a`
    have hnone : s.reads.object a = none := by simp [reads, h]
    refine Reads.ext ?_ rfl rfl rfl
    simp only [Reads.mapObject, hnone, Option.map_none]
    rw [← hnone, Function.update_eq_self]
  | some o =>
    rw [reads_setObject]
    refine Reads.ext ?_ rfl rfl rfl
    have hlive : (f o).live = (s.reads.object a).map g := by
      simp only [StateObject.live, reads, h, Option.bind_some, hdel, hfg]
      split <;> rfl
    simp only [Reads.mapObject, hlive]

theorem reads_undo (e : JournalEntry α κ ι) (s : ObjectDB α κ ι) :
    (e.undo s).reads = e.undoReads s.reads := by
  cases e with
  | createObjectChange a =>
    refine Reads.ext ?_ rfl rfl rfl
    funext b
    simp only [JournalEntry.undo, JournalEntry.undoReads, reads, KeyMap.find?_erase,
      Function.update_apply]
    split_ifs <;> rfl
  | amountChange a f prev =>
    exact reads_undoObject s a (fun o => o.reads_setAmount f prev) fun o => by cases f <;> rfl
  | nonceChange a prev => exact reads_undoObject s a (fun _ => rfl) fun _ => rfl
  | childChainDepositBalanceChange a c prev =>
    exact reads_undoObject s a (fun o => o.reads_writeChildChainDeposit c prev) fun _ => rfl
  | accountProxiedBalanceChange a k p =>
    exact reads_undoObject s a (fun o => o.reads_setProxied k p) fun _ => rfl
  | delegateRewardBalanceChange a k p =>
    exact reads_undoObject s a (fun o => o.reads_setReward k p) fun _ => rfl
  | candidateChange a prev => exact reads_undoObject s a (fun _ => rfl) fun _ => rfl
  | commissionChange a prev => exact reads_undoObject s a (fun _ => rfl) fun _ => rfl
  | pubkeyChange a prev => exact reads_undoObject s a (fun _ => rfl) fun _ => rfl
  | refundChange prev => rfl

theorem undoRespects_reads :
    Journal.UndoRespects (JournalEntry.undo : JournalEntry α κ ι → ObjectDB α κ ι → ObjectDB α κ ι)
      ObjectDB.reads :=
  Journal.UndoRespects.of_obs reads_undo

theorem undoReads_forgetSets (e : JournalEntry α κ ι) (r : Reads α κ ι) :
    (e.undoReads r).forgetSets = e.undoReads r.forgetSets := by
  cases e <;> rfl

theorem undoRespects_forgetSets :
    Journal.UndoRespects (JournalEntry.undo : JournalEntry α κ ι → ObjectDB α κ ι → ObjectDB α κ ι)
      fun s => s.reads.forgetSets :=
  Journal.UndoRespects.of_obs fun e t => by rw [reads_undo, undoReads_forgetSets]

/-- The object at `a` is live: `getStateObject` finds it. -/
def Live (a : α) (s : ObjectDB α κ ι) : Prop :=
  ∃ o, s.stateObjects.find? a = some o ∧ o.deleted = false

/-! ### Each mutator is undone by its entries -/

/-- A write of a live object, journaling one entry whose undo puts back what the object read
before. -/
theorem undoneFrom_write (a : α) (F : StateObject α κ ι → StateObject α κ ι)
    (E : StateObject α κ ι → JournalEntry α κ ι)
    (g : StateObject α κ ι → ObjectReads α κ ι → ObjectReads α κ ι)
    (hE : ∀ o r, (E o).undoReads r = r.mapObject a (g o)) (hF : ∀ o, (F o).deleted = o.deleted)
    (hg : ∀ o, g o (F o).reads = o.reads) :
    Journal.UndoneFrom JournalEntry.undo reads (Live a) (Live a)
      fun s => some (s.updateObject a F, [E (s.object a)]) := by
  rintro s r ⟨o, ho, hdel⟩ hr
  cases hr
  have hobj : s.object a = o := by simp [object, KeyMap.findD, ho]
  refine ⟨?_, F o, ?_, (hF o).trans hdel⟩
  · unfold Journal.Undoes
    rw [Journal.undoAll_cons, Journal.undoAll_nil, reads_undo, hobj, hE, updateObject, hobj,
      reads_setObject]
    refine Reads.ext ?_ rfl rfl rfl
    funext b
    simp only [Reads.mapObject, Function.update_apply]
    by_cases hb : b = a
    · -- at `a`, the undo maps what the written object reads back to what `o` read
      subst hb
      simp [StateObject.live, hF, hdel, hg, reads, ho]
    · simp [hb]
  · simp [updateObject, setObject, KeyMap.find?_insert, hobj]

theorem setField_undone (f : AmountField) (a : α) (x : Int) :
    Journal.UndoneFrom JournalEntry.undo reads (Live a) (Live a)
      (setField f a x : StateOp α κ ι) :=
  undoneFrom_write a (·.setAmount f x) (fun o => .amountChange a f (o.getAmount f))
    (fun o v => { v with amount := Function.update v.amount f (o.getAmount f) }) (fun _ _ => rfl)
    (fun o => by cases f <;> rfl)
    fun o => by rw [StateObject.reads_setAmount]; simp [StateObject.reads]

theorem setAmount_undone (f : AmountField) (a : α) (x : Int) :
    Journal.UndoneFrom JournalEntry.undo reads (Live a) (Live a)
      (IntChain.setAmount f a x : StateOp α κ ι) := by
  cases f <;> exact setField_undone _ a _

theorem addAmount_undone (f : AmountField) (a : α) (x : Int) :
    Journal.UndoneFrom JournalEntry.undo reads (Live a) (Live a)
      (IntChain.addAmount f a x : StateOp α κ ι) := by
  intro s r hs hr
  unfold IntChain.addAmount at hr
  split_ifs at hr
  · cases hr
    exact ⟨Journal.Undoes.nil s, hs⟩
  · exact setAmount_undone f a _ s r hs hr

theorem subAmount_undone (f : AmountField) (a : α) (x : Int) :
    Journal.UndoneFrom JournalEntry.undo reads (Live a) (Live a)
      (IntChain.subAmount f a x : StateOp α κ ι) := by
  intro s r hs hr
  unfold IntChain.subAmount at hr
  split_ifs at hr
  · cases hr
    exact ⟨Journal.Undoes.nil s, hs⟩
  · exact setAmount_undone f a _ s r hs hr

theorem setNonce_undone (a : α) (n : Nat) :
    Journal.UndoneFrom JournalEntry.undo reads (Live a) (Live a)
      (IntChain.setNonce a n : StateOp α κ ι) :=
  undoneFrom_write a (fun o => { o with nonce := n }) (fun o => .nonceChange a o.nonce)
    (fun o v => { v with nonce := o.nonce }) (fun _ _ => rfl) (fun _ => rfl) fun _ => rfl

theorem setChildChainDepositBalance_undone (a : α) (c : ι) (x : Int) :
    Journal.UndoneFrom JournalEntry.undo reads (Live a) (Live a)
      (IntChain.setChildChainDepositBalance a c x : StateOp α κ ι) :=
  undoneFrom_write a (·.writeChildChainDeposit c x)
    (fun o => .childChainDepositBalanceChange a c
      ((((StateObject.childChainIndex o.childChainDepositBalance c).1[
        (StateObject.childChainIndex o.childChainDepositBalance c).2]?).map
          (·.depositBalance)).getD 0))
    (fun o v => { v with childChainDeposit := Function.update v.childChainDeposit c <|
      StateObject.childChainDeposit o.childChainDepositBalance c })
    (fun o r => by simp only [JournalEntry.undoReads, StateObject.childChainIndex_deposit])
    (fun _ => rfl)
    fun o => by rw [StateObject.reads_writeChildChainDeposit]; simp [StateObject.reads]

theorem addChildChainDepositBalance_undone (a : α) (c : ι) (x : Int) :
    Journal.UndoneFrom JournalEntry.undo reads (Live a) (Live a)
      (IntChain.addChildChainDepositBalance a c x : StateOp α κ ι) := by
  intro s r hs hr
  unfold IntChain.addChildChainDepositBalance at hr
  split_ifs at hr
  · cases hr
    exact ⟨Journal.Undoes.nil s, hs⟩
  · exact setChildChainDepositBalance_undone a c _ s r hs hr

theorem subChildChainDepositBalance_undone (a : α) (c : ι) (x : Int) :
    Journal.UndoneFrom JournalEntry.undo reads (Live a) (Live a)
      (IntChain.subChildChainDepositBalance a c x : StateOp α κ ι) := by
  intro s r hs hr
  unfold IntChain.subChildChainDepositBalance at hr
  split_ifs at hr
  · cases hr
    exact ⟨Journal.Undoes.nil s, hs⟩
  · exact setChildChainDepositBalance_undone a c _ s r hs hr

theorem setAccountProxiedBalance_undone (a k : α) (v : AccountProxiedBalance) :
    Journal.UndoneFrom JournalEntry.undo reads (Live a) (Live a)
      (IntChain.setAccountProxiedBalance a k v : StateOp α κ ι) :=
  undoneFrom_write a (fun o => { o with proxied := (o.proxied.load k).set k (some v) })
    (fun o => .accountProxiedBalanceChange a k (o.proxied.get k))
    (fun o r => { r with
      accountProxiedBalance := Function.update r.accountProxiedBalance k (o.proxied.get k) })
    (fun _ _ => rfl) (fun _ => rfl) fun o => by
      refine ObjectReads.ext rfl rfl rfl rfl rfl rfl ?_ rfl
      show Function.update ((o.proxied.load k).set k (some v)).get k (o.proxied.get k) =
        o.proxied.get
      rw [TrieCache.get_set, TrieCache.get_load, Function.update_idem, Function.update_eq_self]

theorem setDelegateRewardBalance_undone (a k : α) (v : Int) :
    Journal.UndoneFrom JournalEntry.undo reads (Live a) (Live a)
      (IntChain.setDelegateRewardBalance a k v : StateOp α κ ι) :=
  undoneFrom_write a (fun o => { o with reward := (o.reward.load k).set k (some v) })
    (fun o => .delegateRewardBalanceChange a k (o.reward.get k))
    (fun o r => { r with
      delegateRewardBalance := Function.update r.delegateRewardBalance k (o.reward.get k) })
    (fun _ _ => rfl) (fun _ => rfl) fun o => by
      refine ObjectReads.ext rfl rfl rfl rfl rfl rfl rfl ?_
      show Function.update ((o.reward.load k).set k (some v)).get k (o.reward.get k) =
        o.reward.get
      rw [TrieCache.get_set, TrieCache.get_load, Function.update_idem, Function.update_eq_self]

theorem setCandidate_undone (a : α) (b : Bool) :
    Journal.UndoneFrom JournalEntry.undo reads (Live a) (Live a)
      (IntChain.setCandidate a b : StateOp α κ ι) :=
  undoneFrom_write a (fun o => { o with candidate := b }) (fun o => .candidateChange a o.candidate)
    (fun o v => { v with candidate := o.candidate }) (fun _ _ => rfl) (fun _ => rfl) fun _ => rfl

theorem setCommission_undone (a : α) (c : UInt8) :
    Journal.UndoneFrom JournalEntry.undo reads (Live a) (Live a)
      (IntChain.setCommission a c : StateOp α κ ι) :=
  undoneFrom_write a (fun o => { o with commission := c })
    (fun o => .commissionChange a o.commission)
    (fun o v => { v with commission := o.commission }) (fun _ _ => rfl) (fun _ => rfl) fun _ => rfl

theorem setPubkey_undone (a : α) (k : Option κ) :
    Journal.UndoneFrom JournalEntry.undo reads (Live a) (Live a)
      (IntChain.setPubkey a k : StateOp α κ ι) :=
  undoneFrom_write a (fun o => { o with pubkey := k }) (fun o => .pubkeyChange a o.pubkey)
    (fun o v => { v with pubkey := o.pubkey }) (fun _ _ => rfl) (fun _ => rfl) fun _ => rfl

/-- `GetOrNewStateObject` leaves a live object, and the undo of a `createObjectChange` takes
a new one away again. -/
theorem getOrNewStateObject_undone (a : α) :
    Journal.UndoneFrom JournalEntry.undo reads (fun _ => True) (Live a)
      (getOrNewStateObject a : StateOp α κ ι) := by
  -- creating an object where none is read, and undoing it
  have hcreate : ∀ s : ObjectDB α κ ι, s.reads.object a = none →
      Journal.Undoes JournalEntry.undo reads s [.createObjectChange a] (s.setObject a {}) ∧
        Live a (s.setObject a {}) := by
    intro s hnone
    refine ⟨?_, {}, by simp [setObject, KeyMap.find?_insert], rfl⟩
    unfold Journal.Undoes
    rw [Journal.undoAll_cons, Journal.undoAll_nil, reads_undo, reads_setObject]
    refine Reads.ext ?_ rfl rfl rfl
    simp only [JournalEntry.undoReads, Function.update_idem]
    rw [← hnone, Function.update_eq_self]
  intro s r _ hr
  unfold getOrNewStateObject at hr
  cases ho : s.stateObjects.find? a with
  | none =>
    simp only [ho] at hr
    cases hr
    exact hcreate s (by simp [reads, ho])
  | some o =>
    simp only [ho] at hr
    by_cases hdel : o.deleted
    · rw [if_pos hdel] at hr
      cases hr
      exact hcreate s (by simp [reads, ho, StateObject.live, hdel])
    · rw [if_neg hdel] at hr
      cases hr
      exact ⟨Journal.Undoes.nil s, o, ho, by simpa using hdel⟩

end ObjectDB

open ObjectDB in
theorem addByUser_undone (f : ProxiedField) (a u : α) (x : Int) :
    Journal.UndoneFrom JournalEntry.undo reads (fun _ => True) (Live a)
      (addByUser f a u x : StateOp α κ ι) :=
  (getOrNewStateObject_undone a).seq undoRespects_reads <|
    Journal.UndoneFrom.seq undoRespects_reads
      (fun s => setAccountProxiedBalance_undone a u _ s) (addAmount_undone f.amount a x)

open ObjectDB in
theorem subByUser_undone (f : ProxiedField) (a u : α) (x : Int) :
    Journal.UndoneFrom JournalEntry.undo reads (fun _ => True) (Live a)
      (subByUser f a u x : StateOp α κ ι) :=
  (getOrNewStateObject_undone a).seq undoRespects_reads <|
    Journal.UndoneFrom.seq undoRespects_reads
      (fun s => setAccountProxiedBalance_undone a u _ s) (subAmount_undone f.amount a x)

open ObjectDB in
theorem addRewardBalanceByDelegateAddress_undone (a d : α) (x : Int) :
    Journal.UndoneFrom JournalEntry.undo reads (fun _ => True) (Live a)
      (addRewardBalanceByDelegateAddress a d x : StateOp α κ ι) :=
  (getOrNewStateObject_undone a).seq undoRespects_reads <|
    Journal.UndoneFrom.seq undoRespects_reads
      (fun s => setDelegateRewardBalance_undone a d _ s) (addAmount_undone .rewardBalance a x)

open ObjectDB in
theorem subRewardBalanceByDelegateAddress_undone (a d : α) (x : Int) :
    Journal.UndoneFrom JournalEntry.undo reads (fun _ => True) (Live a)
      (subRewardBalanceByDelegateAddress a d x : StateOp α κ ι) := by
  refine (getOrNewStateObject_undone a).seq undoRespects_reads <|
    Journal.UndoneFrom.seq undoRespects_reads ?_ (subAmount_undone .rewardBalance a x)
  -- the panic on a missing entry returns nothing to undo
  intro s r hs hr
  dsimp only at hr
  split at hr
  · cases hr
  · exact setDelegateRewardBalance_undone a d _ s r hs hr

open ObjectDB in
theorem applyForCandidate_undone (a : α) (k : κ) (c : UInt8) :
    Journal.UndoneFrom JournalEntry.undo reads (fun _ => True) (Live a)
      (applyForCandidate a k c : StateOp α κ ι) :=
  (getOrNewStateObject_undone a).seq undoRespects_reads <|
    (setCandidate_undone a true).seq undoRespects_reads <|
      (setCommission_undone a c).seq undoRespects_reads (setPubkey_undone a (some k))

open ObjectDB in
theorem cancelCandidate_undone (a : α) (allRefund : Bool) :
    Journal.UndoneFrom JournalEntry.undo reads (fun _ => True) (Live a)
      (cancelCandidate a allRefund : StateOp α κ ι) := by
  refine (getOrNewStateObject_undone a).seq undoRespects_reads <|
    (setCandidate_undone a false).seq undoRespects_reads <|
      (setPubkey_undone a none).seq undoRespects_reads ?_
  cases allRefund with
  | true => exact setCommission_undone a 0
  | false =>
    intro s r hs hr
    cases hr
    exact ⟨Journal.Undoes.nil s, hs⟩

open ObjectDB in
theorem addRefund_undone (gas : Nat) :
    Journal.UndoneFrom JournalEntry.undo reads (fun _ => True) (fun _ => True)
      (addRefund gas : StateOp α κ ι) := by
  intro s r _ hr
  cases hr
  exact ⟨rfl, trivial⟩

/-- The two marks change nothing but the sets, which `forgetSets` does not see. -/
theorem markDelegateAddressRefund_undone (a : α) :
    Journal.UndoneFrom JournalEntry.undo (fun s => s.reads.forgetSets) (fun _ => True)
      (fun _ => True) (markDelegateAddressRefund a : StateOp α κ ι) := by
  intro s r _ hr
  unfold markDelegateAddressRefund at hr
  split_ifs at hr <;> cases hr <;> exact ⟨rfl, trivial⟩

theorem markAddressReward_undone (a : α) :
    Journal.UndoneFrom JournalEntry.undo (fun s => s.reads.forgetSets) (fun _ => True)
      (fun _ => True) (markAddressReward a : StateOp α κ ι) := by
  intro s r _ hr
  unfold markAddressReward at hr
  split_ifs at hr <;> cases hr <;> exact ⟨rfl, trivial⟩

open ObjectDB in
/-- Every mutator is undone by its entries, as far as the getters other than the two sets see:
the step lemma of the revert. -/
theorem Op.run_undone (op : Op α κ ι) :
    Journal.UndoneFrom JournalEntry.undo (fun s => s.reads.forgetSets) (fun _ => True)
      (fun _ => True) op.run := by
  -- a mutator undone for all the reads is undone for the reads without the sets
  have forget : ∀ {Q : ObjectDB α κ ι → Prop} {o : StateOp α κ ι},
      Journal.UndoneFrom JournalEntry.undo reads (fun _ => True) Q o →
        Journal.UndoneFrom JournalEntry.undo (fun s => s.reads.forgetSets) (fun _ => True)
          (fun _ => True) o :=
    fun h => (h.map_obs Reads.forgetSets).mono (fun _ h => h) fun _ _ => trivial
  cases op with
  | addAmount f a x =>
    exact forget ((getOrNewStateObject_undone a).seq undoRespects_reads (addAmount_undone f a x))
  | subAmount f a x =>
    exact forget ((getOrNewStateObject_undone a).seq undoRespects_reads (subAmount_undone f a x))
  | setNonce a n =>
    exact forget ((getOrNewStateObject_undone a).seq undoRespects_reads (setNonce_undone a n))
  | addChildChainDepositBalance a c x =>
    exact forget ((getOrNewStateObject_undone a).seq undoRespects_reads
      (addChildChainDepositBalance_undone a c x))
  | subChildChainDepositBalance a c x =>
    exact forget ((getOrNewStateObject_undone a).seq undoRespects_reads
      (subChildChainDepositBalance_undone a c x))
  | addByUser f a u x => exact forget (addByUser_undone f a u x)
  | subByUser f a u x => exact forget (subByUser_undone f a u x)
  | addRewardBalanceByDelegateAddress a d x =>
    exact forget (addRewardBalanceByDelegateAddress_undone a d x)
  | subRewardBalanceByDelegateAddress a d x =>
    exact forget (subRewardBalanceByDelegateAddress_undone a d x)
  | applyForCandidate a k c => exact forget (applyForCandidate_undone a k c)
  | cancelCandidate a r => exact forget (cancelCandidate_undone a r)
  | setCommission a c =>
    exact forget ((getOrNewStateObject_undone a).seq undoRespects_reads (setCommission_undone a c))
  | markDelegateAddressRefund a => exact markDelegateAddressRefund_undone a
  | markAddressReward a => exact markAddressReward_undone a
  | addRefund gas => exact forget (addRefund_undone gas)

theorem JournalEntry.undoReads_sets (e : JournalEntry α κ ι) (r : Reads α κ ι) :
    (e.undoReads r).delegateRefundSet = r.delegateRefundSet ∧
      (e.undoReads r).rewardSet = r.rewardSet := by
  cases e <;> exact ⟨rfl, rfl⟩

/-- The run lemma: undoing what any run of the mutators journaled gives back every getter of
the state it started from, except the two sets, which keep what the run left. -/
theorem reads_undoAll_run {ops : List (Op α κ ι)} {s s' : ObjectDB α κ ι}
    {es : List (JournalEntry α κ ι)} (h : Journal.runOps (ops.map Op.run) s = some (s', es)) :
    (Journal.undoAll JournalEntry.undo es s').reads =
      { s.reads with delegateRefundSet := s'.reads.delegateRefundSet,
                     rewardSet := s'.reads.rewardSet } := by
  have hrun := Journal.runOps_undoes ObjectDB.undoRespects_forgetSets (P := fun _ => True)
    (fun op hop => by
      obtain ⟨o, -, rfl⟩ := List.mem_map.1 hop
      exact o.run_undone) s (s', es) trivial h
  -- no undo touches the sets
  have hsets : (Journal.undoAll JournalEntry.undo es s').reads.delegateRefundSet =
      s'.reads.delegateRefundSet ∧
      (Journal.undoAll JournalEntry.undo es s').reads.rewardSet = s'.reads.rewardSet :=
    Journal.undoAll_keeps
    (P := fun t : ObjectDB α κ ι => t.reads.delegateRefundSet = s'.reads.delegateRefundSet ∧
      t.reads.rewardSet = s'.reads.rewardSet)
    (fun e _ t ht => by
      rw [ObjectDB.reads_undo, (e.undoReads_sets t.reads).1, (e.undoReads_sets t.reads).2]
      exact ht) ⟨rfl, rfl⟩
  have hforget : (Journal.undoAll JournalEntry.undo es s').reads.forgetSets = s.reads.forgetSets :=
    hrun.1
  exact Reads.ext (congrArg Reads.object hforget :) hsets.1 hsets.2
    (congrArg Reads.refund hforget :)

/-- `RevertToSnapshot` to a snapshot taken before any run of the mutators finds the snapshot,
restores the journal, and gives back what every getter of the snapshot's state answered, except
the delegate refund set and the reward set, which keep what the run marked. -/
theorem revertToSnapshot_reads {j : Journal.Journaled (ObjectDB α κ ι) (JournalEntry α κ ι)}
    (hj : j.WF) (ops : List (Op α κ ι)) {j' : Journal.Journaled (ObjectDB α κ ι) (JournalEntry α κ ι)}
    (hrun : j.snapshot.1.run (ops.map Op.run) = some j') :
    ∃ j'', j'.revertToSnapshot JournalEntry.undo j.snapshot.2 = some j'' ∧
      j''.journal = j.journal ∧
      j''.state.reads = { j.state.reads with delegateRefundSet := j'.state.reads.delegateRefundSet,
                                             rewardSet := j'.state.reads.rewardSet } := by
  obtain ⟨⟨s', es⟩, hr, rfl⟩ := Option.map_eq_some_iff.1 hrun
  have hrev := Journal.Journaled.revertToSnapshot_run JournalEntry.undo hj hr
  rw [hrun, Option.bind_some] at hrev
  exact ⟨_, hrev, rfl, reads_undoAll_run hr⟩

/-- A committed account `0` with a balance of `5`, nothing dirty and no snapshot taken. -/
def committedState : Journal.Journaled (ObjectDB Nat Nat Nat) (JournalEntry Nat Nat Nat) :=
  ⟨⟨KeyMap.empty.insert 0 { balance := 5 }, [], [], false, [], false, 0⟩, [], [], 0⟩

theorem committedState_wf : committedState.WF := fun _ h => absurd h List.not_mem_nil

/-- Account `0` deposits `2` for child chain `7`, its first deposit for that chain. -/
def firstChildChainDeposit : List (Op Nat Nat Nat) := [.addChildChainDepositBalance 0 7 2]

/-- The state `firstChildChainDeposit` leaves after a snapshot of `committedState`. -/
def firstDepositState : Journal.Journaled (ObjectDB Nat Nat Nat) (JournalEntry Nat Nat Nat) :=
  (committedState.snapshot.1.run (firstChildChainDeposit.map Op.run)).getD committedState

theorem revertToSnapshot_reads_firstDeposit :
    committedState.WF ∧
      committedState.snapshot.1.run (firstChildChainDeposit.map Op.run) = some firstDepositState ∧
      ∃ j'', firstDepositState.revertToSnapshot JournalEntry.undo committedState.snapshot.2 =
        some j'' ∧ j''.journal = committedState.journal ∧
        j''.state.reads = { committedState.state.reads with
          delegateRefundSet := firstDepositState.state.reads.delegateRefundSet,
          rewardSet := firstDepositState.state.reads.rewardSet } :=
  ⟨committedState_wf, rfl, revertToSnapshot_reads committedState_wf firstChildChainDeposit rfl⟩

end IntChain
