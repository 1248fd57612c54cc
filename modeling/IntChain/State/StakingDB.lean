import IntChain.Lib.KeyMap
import IntChain.Lib.Run

/-!
# The staking part of `StateDB`

`core/state/statedb_delegate.go`, `statedb_reward.go`, `state_object_delegate.go` and
`state_object_reward.go`. An account keeps its balances, the running totals of what it was
delegated (`ProxiedBalance`, `DepositProxiedBalance`, `PendingRefundBalance`), its reward
total, its candidate data, and two sub-tries: the proxied trie (one `accountProxiedBalance`
per delegating user) and the reward trie (one reward amount per delegate address).

A sub-trie is read through its dirty and origin caches, which `Finalise` flushes after every
transaction; here it is the map those reads see. A missing proxied entry reads as
`NewAccountProxiedBalance`, all zero; a missing reward entry is `nil`, which
`SubRewardBalanceByDelegateAddress` refuses with a panic, modelled as `none`.
-/

namespace IntChain

/-- `accountProxiedBalance`: one user's entry in a candidate's proxied trie. -/
structure AccountProxiedBalance where
  proxiedBalance : Int
  depositProxiedBalance : Int
  pendingRefundBalance : Int
  deriving DecidableEq, Repr

namespace AccountProxiedBalance

/-- `NewAccountProxiedBalance`. -/
def zero : AccountProxiedBalance := ⟨0, 0, 0⟩

/-- `IsEmpty`: all three amounts are zero. -/
def IsEmpty (a : AccountProxiedBalance) : Prop := a = zero

instance (a : AccountProxiedBalance) : Decidable a.IsEmpty := inferInstanceAs (Decidable (a = zero))

end AccountProxiedBalance

/-- The three per-user amounts of a proxied entry. -/
inductive ProxiedField
  | proxied
  | depositProxied
  | pendingRefund
  deriving DecidableEq, Repr

/-- The amount fields of `Account` that the `Add…`/`Sub…` methods of `stateObject` change. -/
inductive BalanceField
  | balance
  | depositBalance
  | delegateBalance
  | proxiedBalance
  | depositProxiedBalance
  | pendingRefundBalance
  deriving DecidableEq, Repr

/-- A per-user field and the account total kept beside it. -/
def ProxiedField.total : ProxiedField → BalanceField
  | .proxied => .proxiedBalance
  | .depositProxied => .depositProxiedBalance
  | .pendingRefund => .pendingRefundBalance

namespace AccountProxiedBalance

def get (a : AccountProxiedBalance) : ProxiedField → Int
  | .proxied => a.proxiedBalance
  | .depositProxied => a.depositProxiedBalance
  | .pendingRefund => a.pendingRefundBalance

def set (a : AccountProxiedBalance) : ProxiedField → Int → AccountProxiedBalance
  | .proxied, x => { a with proxiedBalance := x }
  | .depositProxied, x => { a with depositProxiedBalance := x }
  | .pendingRefund, x => { a with pendingRefundBalance := x }

@[simp] theorem get_zero (f : ProxiedField) : zero.get f = 0 := by cases f <;> rfl

@[simp] theorem get_set_self (a : AccountProxiedBalance) (f : ProxiedField) (x : Int) :
    (a.set f x).get f = x := by
  cases f <;> rfl

theorem get_set_ne (a : AccountProxiedBalance) {f g : ProxiedField} (x : Int) (h : g ≠ f) :
    (a.set f x).get g = a.get g := by
  cases f <;> cases g <;> first | rfl | exact absurd rfl h

end AccountProxiedBalance

/-- The staking fields of `Account`, with the proxied and reward tries it roots. -/
structure Account (α κ : Type) where
  balance : Int := 0
  depositBalance : Int := 0
  delegateBalance : Int := 0
  proxiedBalance : Int := 0
  depositProxiedBalance : Int := 0
  pendingRefundBalance : Int := 0
  candidate : Bool := false
  commission : UInt8 := 0
  /-- `Pubkey`: `none` is the empty string. -/
  pubkey : Option κ := none
  rewardBalance : Int := 0
  proxied : KeyMap α AccountProxiedBalance := KeyMap.empty
  reward : KeyMap α Int := KeyMap.empty

namespace Account

variable {α κ : Type}

/-- `newObject` with no data: every amount zero, no candidate flag, empty tries. -/
def empty : Account α κ := {}

def get (o : Account α κ) : BalanceField → Int
  | .balance => o.balance
  | .depositBalance => o.depositBalance
  | .delegateBalance => o.delegateBalance
  | .proxiedBalance => o.proxiedBalance
  | .depositProxiedBalance => o.depositProxiedBalance
  | .pendingRefundBalance => o.pendingRefundBalance

def set (o : Account α κ) : BalanceField → Int → Account α κ
  | .balance, x => { o with balance := x }
  | .depositBalance, x => { o with depositBalance := x }
  | .delegateBalance, x => { o with delegateBalance := x }
  | .proxiedBalance, x => { o with proxiedBalance := x }
  | .depositProxiedBalance, x => { o with depositProxiedBalance := x }
  | .pendingRefundBalance, x => { o with pendingRefundBalance := x }

/-- `AddBalance`, `AddDepositBalance`, `AddDelegateBalance`, `AddProxiedBalance`, … of
`stateObject`: a zero amount only touches the object. -/
def addField (o : Account α κ) (f : BalanceField) (amount : Int) : Account α κ :=
  if amount = 0 then o else o.set f (o.get f + amount)

/-- The `Sub…` counterparts of `addField`. -/
def subField (o : Account α κ) (f : BalanceField) (amount : Int) : Account α κ :=
  if amount = 0 then o else o.set f (o.get f - amount)

/-- `SetRewardBalance`: a negative total is stored as zero ("not support yet, make it 0 by
force"). -/
def setRewardBalance (o : Account α κ) (amount : Int) : Account α κ :=
  { o with rewardBalance := if amount < 0 then 0 else amount }

/-- `AddRewardBalance`. -/
def addRewardBalance (o : Account α κ) (amount : Int) : Account α κ :=
  if amount = 0 then o else o.setRewardBalance (o.rewardBalance + amount)

/-- `SubRewardBalance`. -/
def subRewardBalance (o : Account α κ) (amount : Int) : Account α κ :=
  if amount = 0 then o else o.setRewardBalance (o.rewardBalance - amount)

/-- `IsEmptyTrie`: the proxied root is the empty root, so no entry is left after the last
flush, which deletes the empty ones. -/
def IsEmptyTrie (o : Account α κ) : Prop := ∀ e ∈ o.proxied.entries, e.2.IsEmpty

instance (o : Account α κ) : Decidable o.IsEmptyTrie :=
  inferInstanceAs (Decidable (∀ e ∈ o.proxied.entries, e.2.IsEmpty))

@[simp] theorem get_set_self (o : Account α κ) (f : BalanceField) (x : Int) :
    (o.set f x).get f = x := by
  cases f <;> rfl

theorem get_set_ne (o : Account α κ) {f g : BalanceField} (x : Int) (h : g ≠ f) :
    (o.set f x).get g = o.get g := by
  cases f <;> cases g <;> first | rfl | exact absurd rfl h

/-- What `addField` does to the fields, with no case on the amount. -/
theorem get_addField (o : Account α κ) (f g : BalanceField) (amount : Int) :
    (o.addField f amount).get g = if g = f then o.get g + amount else o.get g := by
  unfold addField
  split
  · next h => subst h; split <;> simp_all
  · split
    · next h => subst h; simp
    · next h => exact get_set_ne o _ h

theorem get_subField (o : Account α κ) (f g : BalanceField) (amount : Int) :
    (o.subField f amount).get g = if g = f then o.get g - amount else o.get g := by
  unfold subField
  split
  · next h => subst h; split <;> simp_all
  · split
    · next h => subst h; simp
    · next h => exact get_set_ne o _ h

theorem get_addField_of_ne (o : Account α κ) {f g : BalanceField} (amount : Int) (h : g ≠ f) :
    (o.addField f amount).get g = o.get g := by
  rw [get_addField, if_neg h]

theorem get_subField_of_ne (o : Account α κ) {f g : BalanceField} (amount : Int) (h : g ≠ f) :
    (o.subField f amount).get g = o.get g := by
  rw [get_subField, if_neg h]

/-- The `set` of a balance field leaves the tries, the flags and the reward total alone. -/
@[simp] theorem set_proxied (o : Account α κ) (f : BalanceField) (x : Int) :
    (o.set f x).proxied = o.proxied := by
  cases f <;> rfl

@[simp] theorem set_reward (o : Account α κ) (f : BalanceField) (x : Int) :
    (o.set f x).reward = o.reward := by
  cases f <;> rfl

@[simp] theorem set_rewardBalance (o : Account α κ) (f : BalanceField) (x : Int) :
    (o.set f x).rewardBalance = o.rewardBalance := by
  cases f <;> rfl

@[simp] theorem set_candidate (o : Account α κ) (f : BalanceField) (x : Int) :
    (o.set f x).candidate = o.candidate := by
  cases f <;> rfl

@[simp] theorem addField_proxied (o : Account α κ) (f : BalanceField) (x : Int) :
    (o.addField f x).proxied = o.proxied := by
  unfold addField; split <;> simp

@[simp] theorem subField_proxied (o : Account α κ) (f : BalanceField) (x : Int) :
    (o.subField f x).proxied = o.proxied := by
  unfold subField; split <;> simp

@[simp] theorem addField_reward (o : Account α κ) (f : BalanceField) (x : Int) :
    (o.addField f x).reward = o.reward := by
  unfold addField; split <;> simp

@[simp] theorem subField_reward (o : Account α κ) (f : BalanceField) (x : Int) :
    (o.subField f x).reward = o.reward := by
  unfold subField; split <;> simp

@[simp] theorem addField_rewardBalance (o : Account α κ) (f : BalanceField) (x : Int) :
    (o.addField f x).rewardBalance = o.rewardBalance := by
  unfold addField; split <;> simp

@[simp] theorem subField_rewardBalance (o : Account α κ) (f : BalanceField) (x : Int) :
    (o.subField f x).rewardBalance = o.rewardBalance := by
  unfold subField; split <;> simp

@[simp] theorem addRewardBalance_reward (o : Account α κ) (x : Int) :
    (o.addRewardBalance x).reward = o.reward := by
  unfold addRewardBalance setRewardBalance; split <;> rfl

@[simp] theorem subRewardBalance_reward (o : Account α κ) (x : Int) :
    (o.subRewardBalance x).reward = o.reward := by
  unfold subRewardBalance setRewardBalance; split <;> rfl

@[simp] theorem addRewardBalance_proxied (o : Account α κ) (x : Int) :
    (o.addRewardBalance x).proxied = o.proxied := by
  unfold addRewardBalance setRewardBalance; split <;> rfl

@[simp] theorem subRewardBalance_proxied (o : Account α κ) (x : Int) :
    (o.subRewardBalance x).proxied = o.proxied := by
  unfold subRewardBalance setRewardBalance; split <;> rfl

end Account

/-- The staking view of `StateDB`: the account trie and the delegate refund set. -/
structure StateDB (α κ : Type) where
  accounts : KeyMap α (Account α κ)
  /-- `DelegateRefundSet`, a Go map, listed in the order its keys were marked. -/
  delegateRefundSet : List α

namespace StateDB

variable {α κ : Type} [DecidableEq α]

/-- The state of an empty database: no account and an empty refund set. -/
def empty : StateDB α κ := ⟨KeyMap.empty, []⟩

def getStateObject (s : StateDB α κ) (addr : α) : Option (Account α κ) := s.accounts.find? addr

/-- The object the getters read, `newObject` data when there is none. -/
def account (s : StateDB α κ) (addr : α) : Account α κ := s.accounts.findD addr Account.empty

/-- `GetOrNewStateObject` followed by a change of the object. -/
def updateAccount (s : StateDB α κ) (addr : α) (f : Account α κ → Account α κ) : StateDB α κ :=
  { s with accounts := s.accounts.modify addr Account.empty f }

def getBalance (s : StateDB α κ) (addr : α) : Int := (s.account addr).balance
def getDepositBalance (s : StateDB α κ) (addr : α) : Int := (s.account addr).depositBalance
def getDelegateBalance (s : StateDB α κ) (addr : α) : Int := (s.account addr).delegateBalance
def getTotalProxiedBalance (s : StateDB α κ) (addr : α) : Int := (s.account addr).proxiedBalance
def getTotalDepositProxiedBalance (s : StateDB α κ) (addr : α) : Int :=
  (s.account addr).depositProxiedBalance
def getTotalPendingRefundBalance (s : StateDB α κ) (addr : α) : Int :=
  (s.account addr).pendingRefundBalance
def getTotalRewardBalance (s : StateDB α κ) (addr : α) : Int := (s.account addr).rewardBalance
def isCandidate (s : StateDB α κ) (addr : α) : Bool := (s.account addr).candidate
def getCommission (s : StateDB α κ) (addr : α) : UInt8 := (s.account addr).commission
def getPubkey (s : StateDB α κ) (addr : α) : Option κ := (s.account addr).pubkey

/-- `GetAccountProxiedBalance`, with a missing entry read as `NewAccountProxiedBalance`. -/
def getAccountProxiedBalance (s : StateDB α κ) (addr user : α) : AccountProxiedBalance :=
  (s.account addr).proxied.findD user .zero

def getProxiedBalanceByUser (s : StateDB α κ) (addr user : α) : Int :=
  (s.getAccountProxiedBalance addr user).proxiedBalance
def getDepositProxiedBalanceByUser (s : StateDB α κ) (addr user : α) : Int :=
  (s.getAccountProxiedBalance addr user).depositProxiedBalance
def getPendingRefundBalanceByUser (s : StateDB α κ) (addr user : α) : Int :=
  (s.getAccountProxiedBalance addr user).pendingRefundBalance

def getRewardBalanceByDelegateAddress (s : StateDB α κ) (addr deleAddress : α) : Int :=
  ((s.account addr).reward.find? deleAddress).getD 0

def addBalance (s : StateDB α κ) (addr : α) (amount : Int) : StateDB α κ :=
  s.updateAccount addr (·.addField .balance amount)
def subBalance (s : StateDB α κ) (addr : α) (amount : Int) : StateDB α κ :=
  s.updateAccount addr (·.subField .balance amount)
def addDepositBalance (s : StateDB α κ) (addr : α) (amount : Int) : StateDB α κ :=
  s.updateAccount addr (·.addField .depositBalance amount)
def subDepositBalance (s : StateDB α κ) (addr : α) (amount : Int) : StateDB α κ :=
  s.updateAccount addr (·.subField .depositBalance amount)
def addDelegateBalance (s : StateDB α κ) (addr : α) (amount : Int) : StateDB α κ :=
  s.updateAccount addr (·.addField .delegateBalance amount)
def subDelegateBalance (s : StateDB α κ) (addr : α) (amount : Int) : StateDB α κ :=
  s.updateAccount addr (·.subField .delegateBalance amount)

/-- `Add…BalanceByUser`: the user's entry, a fresh one when absent, and the account's total
move together. -/
def addByUser (s : StateDB α κ) (f : ProxiedField) (addr user : α) (amount : Int) :
    StateDB α κ :=
  s.updateAccount addr fun o =>
    let apb := o.proxied.findD user .zero
    ({ o with proxied := o.proxied.insert user (apb.set f (apb.get f + amount)) }).addField
      f.total amount

/-- `Sub…BalanceByUser`. -/
def subByUser (s : StateDB α κ) (f : ProxiedField) (addr user : α) (amount : Int) :
    StateDB α κ :=
  s.updateAccount addr fun o =>
    let apb := o.proxied.findD user .zero
    ({ o with proxied := o.proxied.insert user (apb.set f (apb.get f - amount)) }).subField
      f.total amount

def addProxiedBalanceByUser (s : StateDB α κ) (addr user : α) (amount : Int) : StateDB α κ :=
  s.addByUser .proxied addr user amount
def subProxiedBalanceByUser (s : StateDB α κ) (addr user : α) (amount : Int) : StateDB α κ :=
  s.subByUser .proxied addr user amount
def addDepositProxiedBalanceByUser (s : StateDB α κ) (addr user : α) (amount : Int) :
    StateDB α κ :=
  s.addByUser .depositProxied addr user amount
def subDepositProxiedBalanceByUser (s : StateDB α κ) (addr user : α) (amount : Int) :
    StateDB α κ :=
  s.subByUser .depositProxied addr user amount
def addPendingRefundBalanceByUser (s : StateDB α κ) (addr user : α) (amount : Int) :
    StateDB α κ :=
  s.addByUser .pendingRefund addr user amount
def subPendingRefundBalanceByUser (s : StateDB α κ) (addr user : α) (amount : Int) :
    StateDB α κ :=
  s.subByUser .pendingRefund addr user amount

/-- `AddRewardBalanceByDelegateAddress`: a `nil` entry becomes the amount itself. -/
def addRewardBalanceByDelegateAddress (s : StateDB α κ) (addr deleAddress : α) (amount : Int) :
    StateDB α κ :=
  s.updateAccount addr fun o =>
    let v := match o.reward.find? deleAddress with
      | none => amount
      | some r => r + amount
    ({ o with reward := o.reward.insert deleAddress v }).addRewardBalance amount

/-- `SubRewardBalanceByDelegateAddress` panics on a `nil` entry. -/
def subRewardBalanceByDelegateAddress (s : StateDB α κ) (addr deleAddress : α) (amount : Int) :
    Option (StateDB α κ) :=
  match (s.account addr).reward.find? deleAddress with
  | none => none
  | some r => some <| s.updateAccount addr fun o =>
      ({ o with reward := o.reward.insert deleAddress (r - amount) }).subRewardBalance amount

def applyForCandidate (s : StateDB α κ) (addr : α) (pubkey : κ) (commission : UInt8) :
    StateDB α κ :=
  s.updateAccount addr fun o => { o with candidate := true, commission, pubkey := some pubkey }

def cancelCandidate (s : StateDB α κ) (addr : α) (allRefund : Bool) : StateDB α κ :=
  s.updateAccount addr fun o =>
    { o with candidate := false, pubkey := none,
             commission := if allRefund then 0 else o.commission }

def clearCommission (s : StateDB α κ) (addr : α) : StateDB α κ :=
  s.updateAccount addr fun o => { o with commission := 0 }

def isCleanAddress (s : StateDB α κ) (addr : α) : Bool :=
  match s.getStateObject addr with
  | none => true
  | some o => !o.candidate && decide o.IsEmptyTrie

/-- `GetProxiedAddressNumber` counts the leaves of the proxied trie, the non-empty entries. -/
def getProxiedAddressNumber (s : StateDB α κ) (addr : α) : Nat :=
  match s.getStateObject addr with
  | none => 0
  | some o => (o.proxied.entries.filter fun e => !decide e.2.IsEmpty).length

def markDelegateAddressRefund (s : StateDB α κ) (addr : α) : StateDB α κ :=
  if addr ∈ s.delegateRefundSet then s
  else { s with delegateRefundSet := s.delegateRefundSet ++ [addr] }

def clearDelegateRefundSet (s : StateDB α κ) : StateDB α κ := { s with delegateRefundSet := [] }

/-- `ForEachProxied`: the keys are those of the trie when the iteration starts, and the
callback sees each entry as it is when its key is reached. The second component is the state
the Go callbacks keep in captured variables. -/
def forEachProxied {β : Type} (s : StateDB α κ) (addr : α) (b : β)
    (cb : α → AccountProxiedBalance → StateDB α κ × β → StateDB α κ × β) : StateDB α κ × β :=
  match s.getStateObject addr with
  | none => (s, b)
  | some o => o.proxied.keys.foldl
      (fun acc key => cb key (acc.1.getAccountProxiedBalance addr key) acc) (s, b)

/-- A property of the state and the captured variables that every callback keeps, given the
key it is called on, holds after `ForEachProxied`. -/
theorem forEachProxied_induction {β : Type} (P : StateDB α κ × β → Prop) (s : StateDB α κ)
    (addr : α) (b : β) (cb : α → AccountProxiedBalance → StateDB α κ × β → StateDB α κ × β)
    (h0 : P (s, b))
    (hcb : ∀ key ∈ (s.account addr).proxied.keys, ∀ acc, P acc →
      P (cb key (acc.1.getAccountProxiedBalance addr key) acc)) :
    P (s.forEachProxied addr b cb) := by
  unfold forEachProxied
  cases h : s.getStateObject addr with
  | none => exact h0
  | some o =>
    have ho : s.account addr = o := by
      have h' : s.accounts.find? addr = some o := h
      simp [account, KeyMap.findD, h']
    subst ho
    exact Run.foldl_induction _ P h0 hcb

/-- The prefix form of `forEachProxied_induction`: the motive also sees the keys done so far. -/
theorem forEachProxied_prefix_induction {β : Type} (P : List α → StateDB α κ × β → Prop)
    (s : StateDB α κ) (addr : α) (b : β)
    (cb : α → AccountProxiedBalance → StateDB α κ × β → StateDB α κ × β) (h0 : P [] (s, b))
    (hcb : ∀ pre key rest acc, pre ++ key :: rest = (s.account addr).proxied.keys → P pre acc →
      P (pre ++ [key]) (cb key (acc.1.getAccountProxiedBalance addr key) acc)) :
    P (s.account addr).proxied.keys (s.forEachProxied addr b cb) := by
  unfold forEachProxied
  cases h : s.getStateObject addr with
  | none =>
    have ho : s.account addr = Account.empty := by
      have h' : s.accounts.find? addr = none := h
      simp [account, KeyMap.findD, h']
    rw [ho]
    exact h0
  | some o =>
    have ho : s.account addr = o := by
      have h' : s.accounts.find? addr = some o := h
      simp [account, KeyMap.findD, h']
    subst ho
    exact Run.foldl_prefix_induction _ P h0 hcb

theorem account_updateAccount (s : StateDB α κ) (a b : α) (f : Account α κ → Account α κ) :
    (s.updateAccount a f).account b = if b = a then f (s.account a) else s.account b :=
  KeyMap.findD_modify _ _ _ _ _

@[simp] theorem account_updateAccount_self (s : StateDB α κ) (a : α)
    (f : Account α κ → Account α κ) : (s.updateAccount a f).account a = f (s.account a) := by
  simp [account_updateAccount]

theorem account_updateAccount_ne (s : StateDB α κ) {a b : α} (f : Account α κ → Account α κ)
    (h : b ≠ a) : (s.updateAccount a f).account b = s.account b := by
  simp [account_updateAccount, h]

@[simp] theorem delegateRefundSet_updateAccount (s : StateDB α κ) (a : α)
    (f : Account α κ → Account α κ) :
    (s.updateAccount a f).delegateRefundSet = s.delegateRefundSet := rfl

/-- An update depends only on what it makes of the updated account. -/
theorem updateAccount_congr (s : StateDB α κ) (a : α) {g₁ g₂ : Account α κ → Account α κ}
    (h : g₁ (s.account a) = g₂ (s.account a)) : s.updateAccount a g₁ = s.updateAccount a g₂ := by
  have h' : g₁ (s.accounts.findD a Account.empty) = g₂ (s.accounts.findD a Account.empty) := h
  simp only [updateAccount, KeyMap.modify, h']

@[simp] theorem account_markDelegateAddressRefund (s : StateDB α κ) (a c : α) :
    (s.markDelegateAddressRefund a).account c = s.account c := by
  unfold markDelegateAddressRefund
  split <;> rfl

@[simp] theorem account_clearDelegateRefundSet (s : StateDB α κ) (c : α) :
    s.clearDelegateRefundSet.account c = s.account c := rfl

theorem mem_delegateRefundSet_mark (s : StateDB α κ) (a c : α) :
    c ∈ (s.markDelegateAddressRefund a).delegateRefundSet ↔ c = a ∨ c ∈ s.delegateRefundSet := by
  unfold markDelegateAddressRefund
  split
  · next h => constructor
              · exact Or.inr
              · rintro (rfl | h') <;> assumption
  · simp [or_comm]

/-- An update that keeps the proxied trie keeps every proxied entry. -/
theorem getAccountProxiedBalance_updateAccount_of_proxied (s : StateDB α κ) (a : α)
    (g : Account α κ → Account α κ) (hg : ∀ o, (g o).proxied = o.proxied) (c u : α) :
    (s.updateAccount a g).getAccountProxiedBalance c u = s.getAccountProxiedBalance c u := by
  unfold getAccountProxiedBalance
  rw [account_updateAccount]
  split
  · next h => subst h; rw [hg]
  · rfl

@[simp] theorem getAccountProxiedBalance_addBalance (s : StateDB α κ) (a : α) (x : Int) (c u : α) :
    (s.addBalance a x).getAccountProxiedBalance c u = s.getAccountProxiedBalance c u :=
  getAccountProxiedBalance_updateAccount_of_proxied s a _ (fun o => o.addField_proxied _ x) c u

@[simp] theorem getAccountProxiedBalance_subBalance (s : StateDB α κ) (a : α) (x : Int) (c u : α) :
    (s.subBalance a x).getAccountProxiedBalance c u = s.getAccountProxiedBalance c u :=
  getAccountProxiedBalance_updateAccount_of_proxied s a _ (fun o => o.subField_proxied _ x) c u

@[simp] theorem getAccountProxiedBalance_subDepositBalance (s : StateDB α κ) (a : α) (x : Int)
    (c u : α) :
    (s.subDepositBalance a x).getAccountProxiedBalance c u = s.getAccountProxiedBalance c u :=
  getAccountProxiedBalance_updateAccount_of_proxied s a _ (fun o => o.subField_proxied _ x) c u

@[simp] theorem getAccountProxiedBalance_addDelegateBalance (s : StateDB α κ) (a : α) (x : Int)
    (c u : α) :
    (s.addDelegateBalance a x).getAccountProxiedBalance c u = s.getAccountProxiedBalance c u :=
  getAccountProxiedBalance_updateAccount_of_proxied s a _ (fun o => o.addField_proxied _ x) c u

@[simp] theorem getAccountProxiedBalance_subDelegateBalance (s : StateDB α κ) (a : α) (x : Int)
    (c u : α) :
    (s.subDelegateBalance a x).getAccountProxiedBalance c u = s.getAccountProxiedBalance c u :=
  getAccountProxiedBalance_updateAccount_of_proxied s a _ (fun o => o.subField_proxied _ x) c u

@[simp] theorem getAccountProxiedBalance_clearCommission (s : StateDB α κ) (a c u : α) :
    (s.clearCommission a).getAccountProxiedBalance c u = s.getAccountProxiedBalance c u :=
  getAccountProxiedBalance_updateAccount_of_proxied s a (fun o => { o with commission := 0 })
    (fun _ => rfl) c u

@[simp] theorem getAccountProxiedBalance_markDelegateAddressRefund (s : StateDB α κ) (a c u : α) :
    (s.markDelegateAddressRefund a).getAccountProxiedBalance c u =
      s.getAccountProxiedBalance c u := by
  simp [getAccountProxiedBalance]

@[simp] theorem getAccountProxiedBalance_addRewardBalanceByDelegateAddress (s : StateDB α κ)
    (a d : α) (x : Int) (c u : α) :
    (s.addRewardBalanceByDelegateAddress a d x).getAccountProxiedBalance c u =
      s.getAccountProxiedBalance c u := by
  refine getAccountProxiedBalance_updateAccount_of_proxied s a _ (fun o => ?_) c u
  simp

/-- `Add…BalanceByUser` changes one entry, the user's at the candidate. -/
theorem getAccountProxiedBalance_addByUser (s : StateDB α κ) (f : ProxiedField) (c u : α)
    (x : Int) (c' u' : α) :
    (s.addByUser f c u x).getAccountProxiedBalance c' u' =
      if c' = c ∧ u' = u then
        (s.getAccountProxiedBalance c u).set f ((s.getAccountProxiedBalance c u).get f + x)
      else s.getAccountProxiedBalance c' u' := by
  unfold addByUser getAccountProxiedBalance
  rw [account_updateAccount]
  by_cases hc : c' = c
  · subst hc
    by_cases hu : u' = u
    · subst hu; simp [KeyMap.findD_insert]
    · simp [KeyMap.findD_insert, hu]
  · simp [hc]

theorem subByUser_eq_addByUser_neg (s : StateDB α κ) (f : ProxiedField) (c u : α) (x : Int) :
    s.subByUser f c u x = s.addByUser f c u (-x) := by
  simp only [subByUser, addByUser, Account.subField, Account.addField, neg_eq_zero,
    sub_eq_add_neg]

theorem subDelegateBalance_eq_addDelegateBalance_neg (s : StateDB α κ) (a : α) (x : Int) :
    s.subDelegateBalance a x = s.addDelegateBalance a (-x) := by
  simp only [subDelegateBalance, addDelegateBalance, Account.subField, Account.addField,
    neg_eq_zero, sub_eq_add_neg]

end StateDB

end IntChain
