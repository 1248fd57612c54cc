import IntChain.State.Revert

/-!
# `Finalise` after a revert

`Finalise` writes the dirty caches of every dirty object to its tries, and both
`updateProxiedTrie` and `updateRewardTrie` dereference a nil dirty value. `FinaliseSafe` says
what makes `Finalise` go through: the dirty objects are distinct and present, and no dirty
value is nil. Every mutator keeps it, since a setter writes a value that is not nil; so does
every undo except one that puts back a nil previous value. That value is what
`GetAccountProxiedBalance` or `GetDelegateRewardBalance` read before the first write of a user's
entry, so reverting such a write makes the next `Finalise` panic.
-/

namespace IntChain

variable {α κ ι : Type} [DecidableEq α]

/-- No dirty proxied or reward value of the object is nil. -/
def StateObject.NoNilDirty (o : StateObject α κ ι) : Prop :=
  (∀ k v, o.proxied.dirty.find? k = some v → v.isSome) ∧
    ∀ k v, o.reward.dirty.find? k = some v → v.isSome

/-- What `Finalise` needs of a state. -/
structure ObjectDB.FinaliseSafe (s : ObjectDB α κ ι) : Prop where
  dirty_nodup : s.stateObjectsDirty.Nodup
  dirty_mem : ∀ a ∈ s.stateObjectsDirty, a ∈ s.stateObjects.keys
  noNil : ∀ a o, s.stateObjects.find? a = some o → o.NoNilDirty

/-- The entries whose undo puts a nil value into a dirty cache. -/
def JournalEntry.putsNil : JournalEntry α κ ι → Bool
  | .accountProxiedBalanceChange _ _ p => p.isNone
  | .delegateRewardBalanceChange _ _ p => p.isNone
  | _ => false

namespace StateObject

theorem noNilDirty_empty : (({} : StateObject α κ ι)).NoNilDirty :=
  ⟨fun _ _ h => absurd h (by simp [TrieCache.empty]),
    fun _ _ h => absurd h (by simp [TrieCache.empty])⟩

/-- Writing a value that is not nil keeps the caches free of nil. -/
theorem noNilDirty_set_proxied {o : StateObject α κ ι} (h : o.NoNilDirty) (k : α)
    {p : Option AccountProxiedBalance} (hp : p.isSome) (c : TrieCache α AccountProxiedBalance)
    (hc : c.dirty = o.proxied.dirty) : { o with proxied := c.set k p }.NoNilDirty := by
  refine ⟨fun k' v hv => ?_, h.2⟩
  simp only [TrieCache.set, KeyMap.find?_insert, hc] at hv
  split_ifs at hv
  · cases hv
    exact hp
  · exact h.1 k' v hv

theorem noNilDirty_set_reward {o : StateObject α κ ι} (h : o.NoNilDirty) (k : α)
    {p : Option Int} (hp : p.isSome) (c : TrieCache α Int) (hc : c.dirty = o.reward.dirty) :
    { o with reward := c.set k p }.NoNilDirty := by
  refine ⟨h.1, fun k' v hv => ?_⟩
  simp only [TrieCache.set, KeyMap.find?_insert, hc] at hv
  split_ifs at hv
  · cases hv
    exact hp
  · exact h.2 k' v hv

end StateObject

namespace ObjectDB

/-! ### `Finalise` goes through on a safe state -/

/-- One dirty object: it is deleted or its caches are written, and no other object changes. -/
theorem finaliseObject_isSome (d : Bool) {s : ObjectDB α κ ι} {a : α} {o : StateObject α κ ι}
    (ho : s.stateObjects.find? a = some o) (hsafe : o.NoNilDirty) :
    ∃ s', s.finaliseObject d a = some s' ∧
      ∀ b, b ≠ a → s'.stateObjects.find? b = s.stateObjects.find? b := by
  unfold finaliseObject
  simp only [ho]
  split_ifs
  · exact ⟨_, rfl, fun b hb => by simp [KeyMap.find?_insert, hb]⟩
  · -- both caches hold values only, so both writes go through
    obtain ⟨proxied, hp⟩ := Option.isSome_iff_exists.1 (o.proxied.updateTrie_isSome
      AccountProxiedBalance.zero AccountProxiedBalance.encodes fun kv hkv => hsafe.1 kv.1 kv.2 (KeyMap.find?_of_mem hkv))
    obtain ⟨reward, hr⟩ := Option.isSome_iff_exists.1 (o.reward.updateTrie_isSome 0
      (fun v => decide (0 ≤ v)) fun kv hkv => hsafe.2 kv.1 kv.2 (KeyMap.find?_of_mem hkv))
    rw [hp, hr]
    exact ⟨_, rfl, fun b hb => by simp [KeyMap.find?_insert, hb]⟩

theorem finalise_isSome {s : ObjectDB α κ ι} (h : s.FinaliseSafe) (d : Bool) :
    (s.finalise d).isSome := by
  unfold finalise
  rw [Option.isSome_map]
  -- the dirty objects still to visit are distinct, present and free of nil in the current state
  have key : ∀ (l : List α) (t : ObjectDB α κ ι), l.Nodup →
      (∀ a ∈ l, ∃ o, t.stateObjects.find? a = some o ∧ o.NoNilDirty) →
        (l.foldlM (finaliseObject d) t).isSome := by
    intro l
    induction l with
    | nil => intro t _ _; rfl
    | cons a l ih =>
      intro t hnd hl
      obtain ⟨o, ho, hsafe⟩ := hl a List.mem_cons_self
      obtain ⟨t', ht', hframe⟩ := finaliseObject_isSome d ho hsafe
      rw [List.foldlM_cons, ht', Option.bind_eq_bind, Option.bind_some]
      refine ih t' (List.nodup_cons.1 hnd).2 fun b hb => ?_
      have hba : b ≠ a := fun hba => (List.nodup_cons.1 hnd).1 (hba ▸ hb)
      rw [hframe b hba]
      exact hl b (List.mem_cons_of_mem _ hb)
  refine key _ s h.dirty_nodup fun a ha => ?_
  obtain ⟨o, ho⟩ := Option.isSome_iff_exists.1 (KeyMap.find?_isSome_iff.2 (h.dirty_mem a ha))
  exact ⟨o, ho, h.noNil a o ho⟩

/-! ### The mutators keep it -/

theorem FinaliseSafe.object {s : ObjectDB α κ ι} (h : s.FinaliseSafe) (a : α) :
    (s.object a).NoNilDirty := by
  unfold ObjectDB.object KeyMap.findD
  cases ho : s.stateObjects.find? a with
  | none => exact StateObject.noNilDirty_empty
  | some o => exact h.noNil a o ho

theorem FinaliseSafe.setObject {s : ObjectDB α κ ι} (h : s.FinaliseSafe) (a : α)
    {o : StateObject α κ ι} (ho : o.NoNilDirty) : (s.setObject a o).FinaliseSafe where
  dirty_nodup := by
    unfold ObjectDB.setObject
    split_ifs with ha
    · exact h.dirty_nodup
    · exact List.nodup_append_comm.1 (List.nodup_cons.2 ⟨ha, h.dirty_nodup⟩)
  dirty_mem b hb := by
    unfold ObjectDB.setObject at hb ⊢
    rw [KeyMap.mem_keys_insert]
    split_ifs at hb
    · exact .inr (h.dirty_mem b hb)
    · rcases List.mem_append.1 hb with hb | hb
      · exact .inr (h.dirty_mem b hb)
      · exact .inl (List.mem_singleton.1 hb)
  noNil b o' hb := by
    simp only [ObjectDB.setObject, KeyMap.find?_insert] at hb
    split_ifs at hb
    · cases hb
      exact ho
    · exact h.noNil b o' hb

/-- A write of one object that keeps its caches free of nil keeps the state safe. -/
theorem keeps_write (a : α) (F : StateObject α κ ι → StateObject α κ ι)
    (hF : ∀ o, o.NoNilDirty → (F o).NoNilDirty) (E : ObjectDB α κ ι → List (JournalEntry α κ ι)) :
    Journal.Keeps FinaliseSafe fun s : ObjectDB α κ ι => some (s.updateObject a F, E s) := by
  intro s r hs hr
  cases hr
  exact hs.setObject a (hF _ (hs.object a))

/-- A write to fields outside the caches. -/
theorem keeps_write_fields (a : α) (F : StateObject α κ ι → StateObject α κ ι)
    (hp : ∀ o, (F o).proxied = o.proxied) (hr : ∀ o, (F o).reward = o.reward)
    (E : ObjectDB α κ ι → List (JournalEntry α κ ι)) :
    Journal.Keeps FinaliseSafe fun s : ObjectDB α κ ι => some (s.updateObject a F, E s) :=
  keeps_write a F (fun o h => ⟨(hp o).symm ▸ h.1, (hr o).symm ▸ h.2⟩) E

/-- An operation that changes neither the objects nor the dirty list. -/
theorem keeps_frame {op : StateOp α κ ι}
    (hop : ∀ s r, op s = some r → r.1.stateObjects = s.stateObjects ∧
      r.1.stateObjectsDirty = s.stateObjectsDirty) :
    Journal.Keeps FinaliseSafe op := by
  intro s r hs hr
  obtain ⟨ho, hd⟩ := hop s r hr
  exact ⟨hd ▸ hs.dirty_nodup, ho ▸ hd ▸ hs.dirty_mem, ho ▸ hs.noNil⟩

theorem keeps_markDelegateAddressRefund (a : α) :
    Journal.Keeps FinaliseSafe (markDelegateAddressRefund a : StateOp α κ ι) :=
  keeps_frame fun s r hr => by
    unfold markDelegateAddressRefund at hr
    split_ifs at hr <;> cases hr <;> exact ⟨rfl, rfl⟩

theorem keeps_markAddressReward (a : α) :
    Journal.Keeps FinaliseSafe (markAddressReward a : StateOp α κ ι) :=
  keeps_frame fun s r hr => by
    unfold markAddressReward at hr
    split_ifs at hr <;> cases hr <;> exact ⟨rfl, rfl⟩

theorem keeps_getOrNewStateObject (a : α) :
    Journal.Keeps FinaliseSafe (getOrNewStateObject a : StateOp α κ ι) := by
  intro s r hs hr
  unfold getOrNewStateObject at hr
  split at hr
  · split_ifs at hr <;> cases hr
    · exact hs.setObject a StateObject.noNilDirty_empty
    · exact hs
  · cases hr
    exact hs.setObject a StateObject.noNilDirty_empty

theorem keeps_setAmount (f : AmountField) (a : α) (x : Int) :
    Journal.Keeps FinaliseSafe (IntChain.setAmount f a x : StateOp α κ ι) := by
  cases f <;> exact keeps_write_fields a (·.setAmount _ _) (fun _ => rfl) (fun _ => rfl) _

theorem keeps_addAmount (f : AmountField) (a : α) (x : Int) :
    Journal.Keeps FinaliseSafe (IntChain.addAmount f a x : StateOp α κ ι) := by
  intro s r hs hr
  unfold IntChain.addAmount at hr
  split_ifs at hr
  · cases hr
    exact hs
  · exact keeps_setAmount f a _ s r hs hr

theorem keeps_subAmount (f : AmountField) (a : α) (x : Int) :
    Journal.Keeps FinaliseSafe (IntChain.subAmount f a x : StateOp α κ ι) := by
  intro s r hs hr
  unfold IntChain.subAmount at hr
  split_ifs at hr
  · cases hr
    exact hs
  · exact keeps_setAmount f a _ s r hs hr

theorem keeps_setAccountProxiedBalance (a k : α) (v : AccountProxiedBalance) :
    Journal.Keeps FinaliseSafe (IntChain.setAccountProxiedBalance a k v : StateOp α κ ι) :=
  keeps_write a _ (fun _ h => StateObject.noNilDirty_set_proxied h k rfl _
    (TrieCache.dirty_load _ _)) _

theorem keeps_setDelegateRewardBalance (a k : α) (v : Int) :
    Journal.Keeps FinaliseSafe (IntChain.setDelegateRewardBalance a k v : StateOp α κ ι) :=
  keeps_write a _ (fun _ h => StateObject.noNilDirty_set_reward h k rfl _
    (TrieCache.dirty_load _ _)) _

theorem FinaliseSafe.undoObject {s : ObjectDB α κ ι} (h : s.FinaliseSafe) (a : α)
    {f : StateObject α κ ι → StateObject α κ ι} (hf : ∀ o, o.NoNilDirty → (f o).NoNilDirty) :
    (s.undoObject a f).FinaliseSafe := by
  unfold ObjectDB.undoObject
  split
  · next o ho => exact h.setObject a (hf o (h.noNil a o ho))
  · exact h

variable [DecidableEq ι]

theorem keeps_setChildChainDepositBalance (a : α) (c : ι) (x : Int) :
    Journal.Keeps FinaliseSafe (IntChain.setChildChainDepositBalance a c x : StateOp α κ ι) :=
  keeps_write_fields a (·.writeChildChainDeposit c x) (fun _ => rfl) (fun _ => rfl) _

theorem keeps_addChildChainDepositBalance (a : α) (c : ι) (x : Int) :
    Journal.Keeps FinaliseSafe (IntChain.addChildChainDepositBalance a c x : StateOp α κ ι) := by
  intro s r hs hr
  unfold IntChain.addChildChainDepositBalance at hr
  split_ifs at hr
  · cases hr
    exact hs
  · exact keeps_setChildChainDepositBalance a c _ s r hs hr

theorem keeps_subChildChainDepositBalance (a : α) (c : ι) (x : Int) :
    Journal.Keeps FinaliseSafe (IntChain.subChildChainDepositBalance a c x : StateOp α κ ι) := by
  intro s r hs hr
  unfold IntChain.subChildChainDepositBalance at hr
  split_ifs at hr
  · cases hr
    exact hs
  · exact keeps_setChildChainDepositBalance a c _ s r hs hr

/-! ### The undos keep it, but for a nil previous value -/

theorem FinaliseSafe.undo {s : ObjectDB α κ ι} (h : s.FinaliseSafe) {e : JournalEntry α κ ι}
    (he : e.putsNil = false) : (e.undo s).FinaliseSafe := by
  -- an undo outside the caches keeps them as they are
  have fields : ∀ {f : StateObject α κ ι → StateObject α κ ι}, (∀ o, (f o).proxied = o.proxied) →
      (∀ o, (f o).reward = o.reward) → ∀ o, o.NoNilDirty → (f o).NoNilDirty :=
    fun hp hr o ho => ⟨(hp o).symm ▸ ho.1, (hr o).symm ▸ ho.2⟩
  cases e with
  | createObjectChange a =>
    dsimp only [JournalEntry.undo]
    refine ⟨h.dirty_nodup.erase a, fun b hb => ?_, fun b o hb => ?_⟩
    · obtain ⟨hba, hb⟩ := (h.dirty_nodup.mem_erase_iff).1 hb
      rw [← KeyMap.find?_isSome_iff, KeyMap.find?_erase, if_neg hba, KeyMap.find?_isSome_iff]
      exact h.dirty_mem b hb
    · rw [KeyMap.find?_erase] at hb
      split_ifs at hb
      exact h.noNil b o hb
  | amountChange a f prev =>
    exact h.undoObject a (fields (fun o => by cases f <;> rfl) fun o => by cases f <;> rfl)
  | nonceChange a prev => exact h.undoObject a (fields (fun _ => rfl) fun _ => rfl)
  | childChainDepositBalanceChange a c prev =>
    exact h.undoObject a (fields (fun _ => rfl) fun _ => rfl)
  | accountProxiedBalanceChange a k p =>
    have hp : p.isSome := by simpa [JournalEntry.putsNil] using he
    exact h.undoObject a fun o ho => StateObject.noNilDirty_set_proxied ho k hp _ rfl
  | delegateRewardBalanceChange a k p =>
    have hp : p.isSome := by simpa [JournalEntry.putsNil] using he
    exact h.undoObject a fun o ho => StateObject.noNilDirty_set_reward ho k hp _ rfl
  | candidateChange a prev => exact h.undoObject a (fields (fun _ => rfl) fun _ => rfl)
  | commissionChange a prev => exact h.undoObject a (fields (fun _ => rfl) fun _ => rfl)
  | pubkeyChange a prev => exact h.undoObject a (fields (fun _ => rfl) fun _ => rfl)
  | refundChange prev => exact ⟨h.dirty_nodup, h.dirty_mem, h.noNil⟩

end ObjectDB

variable [DecidableEq ι]

open ObjectDB in
/-- Every mutator keeps `FinaliseSafe`. -/
theorem Op.run_keeps (op : Op α κ ι) : Journal.Keeps FinaliseSafe op.run := by
  have hcand : ∀ (a : α) (b : Bool), Journal.Keeps FinaliseSafe
      (IntChain.setCandidate a b : StateOp α κ ι) :=
    fun a b => keeps_write_fields a (fun o => { o with candidate := b }) (fun _ => rfl)
      (fun _ => rfl) _
  have hcomm : ∀ (a : α) (c : UInt8), Journal.Keeps FinaliseSafe
      (IntChain.setCommission a c : StateOp α κ ι) :=
    fun a c => keeps_write_fields a (fun o => { o with commission := c }) (fun _ => rfl)
      (fun _ => rfl) _
  have hpub : ∀ (a : α) (k : Option κ), Journal.Keeps FinaliseSafe
      (IntChain.setPubkey a k : StateOp α κ ι) :=
    fun a k => keeps_write_fields a (fun o => { o with pubkey := k }) (fun _ => rfl)
      (fun _ => rfl) _
  cases op with
  | addAmount f a x => exact (keeps_getOrNewStateObject a).seq (keeps_addAmount f a x)
  | subAmount f a x => exact (keeps_getOrNewStateObject a).seq (keeps_subAmount f a x)
  | setNonce a n =>
    exact (keeps_getOrNewStateObject a).seq
      (keeps_write_fields a (fun o => { o with nonce := n }) (fun _ => rfl) (fun _ => rfl) _)
  | addChildChainDepositBalance a c x =>
    exact (keeps_getOrNewStateObject a).seq (keeps_addChildChainDepositBalance a c x)
  | subChildChainDepositBalance a c x =>
    exact (keeps_getOrNewStateObject a).seq (keeps_subChildChainDepositBalance a c x)
  | addByUser f a u x =>
    exact (keeps_getOrNewStateObject a).seq <|
      Journal.Keeps.seq (fun s => keeps_setAccountProxiedBalance a u _ s)
        (keeps_addAmount f.amount a x)
  | subByUser f a u x =>
    exact (keeps_getOrNewStateObject a).seq <|
      Journal.Keeps.seq (fun s => keeps_setAccountProxiedBalance a u _ s)
        (keeps_subAmount f.amount a x)
  | addRewardBalanceByDelegateAddress a d x =>
    exact (keeps_getOrNewStateObject a).seq <|
      Journal.Keeps.seq (fun s => keeps_setDelegateRewardBalance a d _ s)
        (keeps_addAmount .rewardBalance a x)
  | subRewardBalanceByDelegateAddress a d x =>
    refine (keeps_getOrNewStateObject a).seq <|
      Journal.Keeps.seq ?_ (keeps_subAmount .rewardBalance a x)
    intro s r hs hr
    dsimp only at hr
    split at hr
    · cases hr
    · exact keeps_setDelegateRewardBalance a d _ s r hs hr
  | applyForCandidate a k c =>
    exact (keeps_getOrNewStateObject a).seq <| (hcand a true).seq <|
      (hcomm a c).seq (hpub a (some k))
  | cancelCandidate a allRefund =>
    refine (keeps_getOrNewStateObject a).seq <| (hcand a false).seq <| (hpub a none).seq ?_
    cases allRefund with
    | true => exact hcomm a 0
    | false => exact keeps_frame fun s r hr => by cases hr; exact ⟨rfl, rfl⟩
  | setCommission a c => exact (keeps_getOrNewStateObject a).seq (hcomm a c)
  | markDelegateAddressRefund a => exact keeps_markDelegateAddressRefund a
  | markAddressReward a => exact keeps_markAddressReward a
  | addRefund gas => exact keeps_frame fun s r hr => by cases hr; exact ⟨rfl, rfl⟩

/-- After a revert that undoes no entry with a nil previous value, `Finalise` goes through, on
every safe state and for every run of the mutators. -/
theorem finalise_revertToSnapshot_isSome
    {j : Journal.Journaled (ObjectDB α κ ι) (JournalEntry α κ ι)} (hj : j.WF)
    (hsafe : j.state.FinaliseSafe) (ops : List (Op α κ ι))
    {j' : Journal.Journaled (ObjectDB α κ ι) (JournalEntry α κ ι)}
    (hrun : j.snapshot.1.run (ops.map Op.run) = some j')
    (hnil : ∀ e ∈ j'.journal.drop j.journal.length, e.putsNil = false) (d : Bool) :
    ∃ j'', j'.revertToSnapshot JournalEntry.undo j.snapshot.2 = some j'' ∧
      (j''.state.finalise d).isSome := by
  obtain ⟨⟨s', es⟩, hr, rfl⟩ := Option.map_eq_some_iff.1 hrun
  have hrev := Journal.Journaled.revertToSnapshot_run JournalEntry.undo hj hr
  rw [hrun, Option.bind_some] at hrev
  refine ⟨_, hrev, ObjectDB.finalise_isSome ?_ d⟩
  -- the run keeps the state safe, and so does undoing what it journaled
  have hs' : s'.FinaliseSafe :=
    Journal.runOps_keeps (fun op hop => by
      obtain ⟨o, -, rfl⟩ := List.mem_map.1 hop
      exact o.run_keeps) j.state (s', es) hsafe hr
  have hes : ∀ e ∈ es, e.putsNil = false := by
    simpa [Journal.Journaled.snapshot] using hnil
  exact Journal.undoAll_keeps (fun e he t ht => ht.undo (hes e he)) hs'

theorem committedState_finaliseSafe : committedState.state.FinaliseSafe where
  dirty_nodup := List.nodup_nil
  dirty_mem _ h := absurd h List.not_mem_nil
  noNil a o h := by
    simp only [committedState, KeyMap.find?_insert, KeyMap.find?_empty] at h
    split_ifs at h
    cases h
    exact ⟨fun _ _ h => absurd h (by simp [TrieCache.empty]),
      fun _ _ h => absurd h (by simp [TrieCache.empty])⟩

theorem finalise_revertToSnapshot_isSome_firstDeposit :
    committedState.WF ∧ committedState.state.FinaliseSafe ∧
      committedState.snapshot.1.run (firstChildChainDeposit.map Op.run) = some firstDepositState ∧
      (∀ e ∈ firstDepositState.journal.drop committedState.journal.length, e.putsNil = false) ∧
      ∃ j'', firstDepositState.revertToSnapshot JournalEntry.undo committedState.snapshot.2 =
        some j'' ∧ (j''.state.finalise true).isSome :=
  ⟨committedState_wf, committedState_finaliseSafe, rfl, by decide,
    finalise_revertToSnapshot_isSome committedState_wf committedState_finaliseSafe
      firstChildChainDeposit rfl (by decide) true⟩

/-! ### A revert that the state does not survive -/

/-- User `1` is marked for a refund and delegates `3` to account `0`: its first proxied entry
there. -/
def markAndDelegate : List (Op Nat Nat Nat) :=
  [.markDelegateAddressRefund 1, .addByUser .proxied 0 1 3]

theorem revert_keeps_marks_nil_entries_and_deposits :
    (∃ j₁ j₂, committedState.snapshot.1.run (markAndDelegate.map Op.run) = some j₁ ∧
      j₁.revertToSnapshot JournalEntry.undo committedState.snapshot.2 = some j₂ ∧
      committedState.state.reads.delegateRefundSet 1 = false ∧
      j₂.state.reads.delegateRefundSet 1 = true ∧
      (committedState.state.finalise true).isSome ∧ j₂.state.finalise true = none) ∧
    ∃ j₁ j₂, committedState.snapshot.1.run (firstChildChainDeposit.map Op.run) = some j₁ ∧
      j₁.revertToSnapshot JournalEntry.undo committedState.snapshot.2 = some j₂ ∧
      (committedState.state.reads.object 0).map (·.childChainDeposit 7) = some 0 ∧
      (j₂.state.reads.object 0).map (·.childChainDeposit 7) = some 0 ∧
      (committedState.state.finalise true).map (fun s => (s.object 0).childChainDepositBalance) =
        some [] ∧
      (j₂.state.finalise true).map (fun s => (s.object 0).childChainDepositBalance) =
        some [⟨7, 0⟩] := by
  constructor
  · -- the mark stays, and the undo puts user `1`'s entry back as nil
    have hrun : (committedState.snapshot.1.run (markAndDelegate.map Op.run)).bind (fun j₁ =>
        (j₁.revertToSnapshot JournalEntry.undo committedState.snapshot.2).map fun j₂ =>
          (j₂.state.reads.delegateRefundSet 1, (j₂.state.finalise true).isNone)) =
        some (true, true) := by
      decide
    obtain ⟨j₁, h₁, h⟩ := Option.bind_eq_some_iff.1 hrun
    obtain ⟨j₂, h₂, hj₂⟩ := Option.map_eq_some_iff.1 h
    simp only [Prod.mk.injEq, Option.isNone_iff_eq_none] at hj₂
    exact ⟨j₁, j₂, h₁, h₂, by decide, hj₂.1, by decide, hj₂.2⟩
  · -- the undo sets the appended entry back to zero and keeps it
    have hrun : (committedState.snapshot.1.run (firstChildChainDeposit.map Op.run)).bind (fun j₁ =>
        (j₁.revertToSnapshot JournalEntry.undo committedState.snapshot.2).map fun j₂ =>
          ((j₂.state.reads.object 0).map (·.childChainDeposit 7),
            (j₂.state.finalise true).map fun s => (s.object 0).childChainDepositBalance)) =
        some (some 0, some [⟨7, 0⟩]) := by
      decide
    obtain ⟨j₁, h₁, h⟩ := Option.bind_eq_some_iff.1 hrun
    obtain ⟨j₂, h₂, hj₂⟩ := Option.map_eq_some_iff.1 h
    simp only [Prod.mk.injEq] at hj₂
    exact ⟨j₁, j₂, h₁, h₂, by decide, hj₂.1, by decide, hj₂.2⟩

end IntChain
