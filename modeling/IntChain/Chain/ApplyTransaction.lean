import Mathlib

/-!
# Transactions to the chain contract

`core/tx_pool.go` `validateTx` and `core/state_processor.go` `ApplyTransactionEx`, with the
miner's `commitTransactionEx` (`miner/worker.go`) around the latter. A transaction addressed to
the chain contract calls the function that the first four bytes of its data name; the pool
checks it with the validation callback registered for that function, a block applies it with
the apply callback, and no EVM runs.

`Data()` returns a fresh copy of the payload, whose capacity is its length, so the selector
slice `data[:4]` of a shorter payload panics, in the pool and in a block alike. In a block the
gas is bought from the pool of the block and from the sender before the required gas, the value
and the callback are checked; those three exits return without giving the gas back to the pool.

Out of the model: the ABI lookup of a selector (the selectors hash the method signatures of the
chain ABI), the recovery of the sender from the signature, the callbacks themselves and the EVM
path of every other transaction are parameters. The state database is reached through
`StateAccess`; the miner's `RevertToSnapshot` gives the state back as it was at the snapshot
(`State/Revert` says what of it a revert restores).
-/

namespace IntChain

/-- `intAbi.FunctionType`: the functions of the chain contract. -/
inductive FunctionType
  | createChildChain | joinChildChain | depositInMainChain | depositInChildChain
  | withdrawFromChildChain | withdrawFromMainChain | saveDataToMainChain | setBlockReward
  | voteNextEpoch | revealVote | delegate | unDelegate | register | unRegister
  | editValidator | withdrawReward | unForbidden | setCommission | setAddress
  | unknown
  deriving DecidableEq, Repr

namespace FunctionType

/-- The `cross` flag of the table of functions. -/
def isCrossChainType : FunctionType → Bool
  | createChildChain | joinChildChain | depositInMainChain | depositInChildChain
  | withdrawFromChildChain | withdrawFromMainChain | saveDataToMainChain | setBlockReward => true
  | _ => false

/-- The `main` flag of the table of functions. -/
def allowInMainChain : FunctionType → Bool
  | depositInChildChain | withdrawFromChildChain | setBlockReward | unknown => false
  | _ => true

/-- The `child` flag of the table of functions. -/
def allowInChildChain : FunctionType → Bool
  | createChildChain | joinChildChain | depositInMainChain | withdrawFromMainChain
  | saveDataToMainChain | unknown => false
  | _ => true

def requiredGas : FunctionType → Nat
  | createChildChain | depositInMainChain | withdrawFromChildChain => 42000
  | depositInChildChain | withdrawFromMainChain | saveDataToMainChain | unknown => 0
  | _ => 21000

end FunctionType

/-- The errors of the two functions, under the names of the source. -/
inductive TxError
  /-- `ErrOversizedData` -/
  | oversizedData
  /-- `ErrNegativeValue` -/
  | negativeValue
  /-- `ErrGasLimit`: the transaction asks for more gas than a block has -/
  | gasLimit
  /-- `ErrInvalidSender`, or the error of `AsMessage` -/
  | invalidSender
  /-- `ErrUnderpriced` -/
  | underpriced
  /-- `ErrNonceTooLow` -/
  | nonceTooLow
  /-- `ErrNonceTooHigh` -/
  | nonceTooHigh
  /-- `ErrInsufficientFunds` -/
  | insufficientFunds
  /-- `ErrIntrinsicGas` -/
  | intrinsicGas
  /-- `ErrNotAllowedInMainChain` -/
  | notAllowedInMainChain
  /-- `ErrNotAllowedInChildChain` -/
  | notAllowedInChildChain
  /-- `ErrGasLimitReached`, of `GasPool.SubGas` -/
  | gasLimitReached
  /-- `vm.ErrOutOfGas` -/
  | outOfGas
  /-- "insufficient INT for gas (…)" -/
  | insufficientGasFunds
  /-- "insufficient INT for tx amount (…)" -/
  | insufficientAmountFunds
  /-- the error of the ABI lookup of the selector -/
  | abi
  /-- an error of a callback -/
  | callback
  /-- the call panics -/
  | panic
  deriving DecidableEq, Repr

/-- The fields of a transaction that the two functions read. `size` is the length of its RLP
encoding, which `Size()` computes; `recipient` is `none` for a contract creation. -/
structure Transaction (α : Type) where
  nonce : Nat
  gasPrice : Int
  gas : Nat
  recipient : Option α
  value : Int
  data : List UInt8
  size : Nat
  deriving DecidableEq, Repr

/-- `Cost()`: the value and the price of all the gas. -/
def Transaction.cost {α : Type} (tx : Transaction α) : Int := tx.gasPrice * tx.gas + tx.value

/-- The flags of `params.ChainConfig` the two functions read. -/
structure ChainConfig where
  isMainChain : Bool
  isByzantium : Bool
  isEIP158 : Bool
  deriving DecidableEq, Repr

/-- What the two functions read and write of the state database. `finalise s b` is
`Finalise(b)`, which `IntermediateRoot(b)` also runs. -/
structure StateAccess (S α : Type) where
  getNonce : S → α → Nat
  setNonce : S → α → Nat → S
  getBalance : S → α → Int
  addBalance : S → α → Int → S
  subBalance : S → α → Int → S
  finalise : S → Bool → S

/-- The Go slice expression `b[:n]` on a slice whose capacity is its length. -/
def sliceTo (b : List UInt8) (n : Nat) : Except TxError (List UInt8) :=
  if n ≤ b.length then .ok (b.take n) else .error .panic

def maxUint64 : Nat := 2 ^ 64 - 1

def txGas : Nat := 21000

def txGasContractCreation : Nat := 53000

def txDataZeroGas : Nat := 4

def txDataNonZeroGasFrontier : Nat := 68

/-- `IntrinsicGas`, with its checks against overflow of `uint64`. -/
def intrinsicGas (data : List UInt8) (contractCreation homestead : Bool) : Except TxError Nat :=
  let gas := if contractCreation && homestead then txGasContractCreation else txGas
  if data.length = 0 then .ok gas
  else
    let nz := data.countP (· != 0)
    if (maxUint64 - gas) / txDataNonZeroGasFrontier < nz then .error .outOfGas
    else
      let gas := gas + nz * txDataNonZeroGasFrontier
      let z := data.length - nz
      if (maxUint64 - gas) / txDataZeroGas < z then .error .outOfGas
      else .ok (gas + z * txDataZeroGas)

section Pool

variable {S α : Type} [DecidableEq α]

/-- A validation callback, `CrossChainValidateCb` or `NonCrossChainValidateCb`. -/
inductive ValidateCb (S α : Type)
  | crossChain (fn : Transaction α → S → Except TxError Unit)
  | nonCrossChain (fn : Transaction α → S → Except TxError Unit)

/-- The call of the registered validation callback, if any: a callback of the other kind than
the function fails the type assertion and panics. -/
def callValidateCb : Option (ValidateCb S α) → Bool → Transaction α → S → Except TxError Unit
  | none, _, _, _ => .ok ()
  | some (.crossChain fn), true, tx, s => fn tx s
  | some (.nonCrossChain fn), false, tx, s => fn tx s
  | some _, _, _, _ => .error .panic

/-- The part of `TxPool` that `validateTx` reads. -/
structure TxPool (S α : Type) where
  currentMaxGas : Nat
  gasPrice : Int
  /-- `locals.contains` -/
  locals : α → Bool
  currentState : S

/-- `TxPool.validateTx`. `sender` is `types.Sender` with the pool's signer. -/
def validateTx (A : StateAccess S α) (config : ChainConfig) (sender : Transaction α → Option α)
    (chainContract : α) (functionTypeFromId : List UInt8 → Except TxError FunctionType)
    (getValidateCb : FunctionType → Option (ValidateCb S α)) (pool : TxPool S α)
    (tx : Transaction α) (isLocal : Bool) : Except TxError Unit :=
  if 32 * 1024 < tx.size then .error .oversizedData
  else if tx.value < 0 then .error .negativeValue
  else if pool.currentMaxGas < tx.gas then .error .gasLimit
  else
    match sender tx with
    | none => .error .invalidSender
    | some from_ =>
      let isLocal := isLocal || pool.locals from_
      if !isLocal && tx.gasPrice < pool.gasPrice then .error .underpriced
      else if tx.nonce < A.getNonce pool.currentState from_ then .error .nonceTooLow
      else if A.getBalance pool.currentState from_ < tx.cost then .error .insufficientFunds
      else if tx.recipient ≠ some chainContract then
        match intrinsicGas tx.data (tx.recipient == none) true with
        | .error e => .error e
        | .ok intrGas => if tx.gas < intrGas then .error .intrinsicGas else .ok ()
      else
        -- the first 4 bytes is the function identifier
        match sliceTo tx.data 4 >>= functionTypeFromId with
        | .error e => .error e
        | .ok function =>
          if config.isMainChain && !function.allowInMainChain then .error .notAllowedInMainChain
          else if !config.isMainChain && !function.allowInChildChain then
            .error .notAllowedInChildChain
          else callValidateCb (getValidateCb function) function.isCrossChainType tx
            pool.currentState

end Pool

section Apply

variable {S Op α : Type} [DecidableEq α]

/-- An apply callback, `CrossChainApplyCb` or `NonCrossChainApplyCb`. It may change the state and
append pending operations before it returns an error. -/
inductive ApplyCb (S Op α : Type)
  | crossChain (fn : Transaction α → S → List Op → S × List Op × Except TxError Unit)
  | nonCrossChain (fn : Transaction α → S → List Op → S × List Op × Except TxError Unit)

/-- The call of the registered apply callback, if any, as `callValidateCb`. -/
def callApplyCb : Option (ApplyCb S Op α) → Bool → Transaction α → S → List Op →
    S × List Op × Except TxError Unit
  | none, _, _, s, ops => (s, ops, .ok ())
  | some (.crossChain fn), true, tx, s, ops => fn tx s ops
  | some (.nonCrossChain fn), false, tx, s, ops => fn tx s ops
  | some _, _, _, s, ops => (s, ops, .error .panic)

/-- What `ApplyTransactionEx` changes through its pointers: the gas pool of the block, the state,
the pending operations, the gas used in the block and the money spent on gas. -/
structure BlockAcc (S Op : Type) where
  gp : Nat
  statedb : S
  ops : List Op
  usedGas : Nat
  totalUsedMoney : Int

/-- The fields of the receipt that the chain-contract branch computes. -/
structure Receipt where
  cumulativeGasUsed : Nat
  gasUsed : Nat
  deriving DecidableEq, Repr

/-- `GasPool.AddGas`: it panics past the range of `uint64`. -/
def addGas (gp amount : Nat) : Option Nat :=
  if maxUint64 - amount < gp then none else some (gp + amount)

/-- The part of `ApplyTransactionEx` after the gas is bought from the pool and the sender: the
check of the required gas and of the value, the callback, the refund of the gas left, the
counters and the nonce. The first three exits keep the gas that was bought. -/
def applyBoughtGas (A : StateAccess S α) (config : ChainConfig)
    (getApplyCb : FunctionType → Option (ApplyCb S Op α)) (from_ : α) (function : FunctionType)
    (tx : Transaction α) (acc : BlockAcc S Op) : BlockAcc S Op × Except TxError Receipt :=
  let gas := function.requiredGas
  if tx.gas < gas then (acc, .error .outOfGas)
  else if A.getBalance acc.statedb from_ < tx.value then (acc, .error .insufficientAmountFunds)
  else
    let (statedb, ops, r) := callApplyCb (getApplyCb function) function.isCrossChainType tx
      acc.statedb acc.ops
    let acc := { acc with statedb, ops }
    match r with
    | .error e => (acc, .error e)
    | .ok () =>
      let remainingGas := tx.gas - gas
      let statedb := A.addBalance acc.statedb from_ (remainingGas * tx.gasPrice)
      match addGas acc.gp remainingGas with
      | none => ({ acc with statedb }, .error .panic)
      | some gp =>
        let usedGas := (acc.usedGas + gas) % 2 ^ 64
        let totalUsedMoney := acc.totalUsedMoney + gas * tx.gasPrice
        let statedb := A.finalise statedb (config.isByzantium || config.isEIP158)
        let statedb := A.setNonce statedb from_ (A.getNonce statedb from_ + 1)
        ({ gp, statedb, ops := acc.ops, usedGas, totalUsedMoney }, .ok ⟨usedGas, gas⟩)

/-- `ApplyTransactionEx`. `applyMessageEx` is the EVM path of a transaction to any other
address, from its sender. -/
def applyTransactionEx (A : StateAccess S α) (config : ChainConfig)
    (sender : Transaction α → Option α) (chainContract : α)
    (functionTypeFromId : List UInt8 → Except TxError FunctionType)
    (getApplyCb : FunctionType → Option (ApplyCb S Op α))
    (applyMessageEx : α → Transaction α → BlockAcc S Op → BlockAcc S Op × Except TxError Receipt)
    (tx : Transaction α) (acc : BlockAcc S Op) : BlockAcc S Op × Except TxError Receipt :=
  match sender tx with
  | none => (acc, .error .invalidSender)
  | some from_ =>
    if tx.recipient ≠ some chainContract then applyMessageEx from_ tx acc
    else
      match sliceTo tx.data 4 >>= functionTypeFromId with
      | .error e => (acc, .error e)
      | .ok function =>
        if config.isMainChain && !function.allowInMainChain then
          (acc, .error .notAllowedInMainChain)
        else if !config.isMainChain && !function.allowInChildChain then
          (acc, .error .notAllowedInChildChain)
        else
          let nonce := A.getNonce acc.statedb from_
          if nonce < tx.nonce then (acc, .error .nonceTooHigh)
          else if tx.nonce < nonce then (acc, .error .nonceTooLow)
          else
            let gasValue := tx.gas * tx.gasPrice
            if A.getBalance acc.statedb from_ < gasValue then (acc, .error .insufficientGasFunds)
            else if acc.gp < tx.gas then (acc, .error .gasLimitReached)
            else
              applyBoughtGas A config getApplyCb from_ function tx
                { acc with gp := acc.gp - tx.gas, statedb := A.subBalance acc.statedb from_ gasValue }

/-- `worker.commitTransactionEx`: on an error the state goes back to the snapshot taken before
the call, and nothing else does. -/
def commitTransactionEx (A : StateAccess S α) (config : ChainConfig)
    (sender : Transaction α → Option α) (chainContract : α)
    (functionTypeFromId : List UInt8 → Except TxError FunctionType)
    (getApplyCb : FunctionType → Option (ApplyCb S Op α))
    (applyMessageEx : α → Transaction α → BlockAcc S Op → BlockAcc S Op × Except TxError Receipt)
    (tx : Transaction α) (acc : BlockAcc S Op) : BlockAcc S Op × Except TxError Receipt :=
  match applyTransactionEx A config sender chainContract functionTypeFromId getApplyCb
      applyMessageEx tx acc with
  | (acc', .error e) => ({ acc' with statedb := acc.statedb }, .error e)
  | (acc', .ok receipt) => (acc', .ok receipt)

end Apply

section Facts

variable {S Op α : Type} [DecidableEq α]

theorem sliceTo_of_lt {b : List UInt8} {n : Nat} (h : b.length < n) : sliceTo b n = .error .panic := by
  rw [sliceTo, if_neg (by omega)]

theorem sliceTo_of_le {b : List UInt8} {n : Nat} (h : n ≤ b.length) : sliceTo b n = .ok (b.take n) := by
  rw [sliceTo, if_pos h]

variable (A : StateAccess S α) (config : ChainConfig) (sender : Transaction α → Option α)
  (chainContract : α) (functionTypeFromId : List UInt8 → Except TxError FunctionType)
  (getApplyCb : FunctionType → Option (ApplyCb S Op α))
  (applyMessageEx : α → Transaction α → BlockAcc S Op → BlockAcc S Op × Except TxError Receipt)

omit [DecidableEq α] in
/-- After the gas is bought, a failure leaves the gas pool and the two counters as they are. -/
theorem applyBoughtGas_error {from_ : α} {function : FunctionType} {tx : Transaction α}
    {acc acc' : BlockAcc S Op} {e : TxError}
    (h : applyBoughtGas A config getApplyCb from_ function tx acc = (acc', .error e)) :
    acc'.gp = acc.gp ∧ acc'.usedGas = acc.usedGas ∧ acc'.totalUsedMoney = acc.totalUsedMoney := by
  unfold applyBoughtGas at h
  dsimp only at h
  split_ifs at h with hgas hamt
  · cases h
    exact ⟨rfl, rfl, rfl⟩
  · cases h
    exact ⟨rfl, rfl, rfl⟩
  generalize callApplyCb (getApplyCb function) function.isCrossChainType tx acc.statedb acc.ops =
    res at h
  obtain ⟨statedb, ops, r | ⟨⟩⟩ := res
  · -- the callback failed
    cases h
    exact ⟨rfl, rfl, rfl⟩
  dsimp only at h
  split at h
  · -- `AddGas` panicked
    cases h
    exact ⟨rfl, rfl, rfl⟩
  · cases h

/-- What a chain-contract transaction does to the accumulators when it fails: either it fails
before the gas is bought and changes nothing, or after, with the gas pool lowered by the gas of
the transaction and the two counters unchanged. -/
theorem applyTransactionEx_chain_error {tx : Transaction α} {acc acc' : BlockAcc S Op}
    {e : TxError} (hrecip : tx.recipient = some chainContract)
    (h : applyTransactionEx A config sender chainContract functionTypeFromId getApplyCb
      applyMessageEx tx acc = (acc', .error e)) :
    acc' = acc ∨ (tx.gas ≤ acc.gp ∧ acc'.gp = acc.gp - tx.gas ∧ acc'.usedGas = acc.usedGas ∧
      acc'.totalUsedMoney = acc.totalUsedMoney) := by
  unfold applyTransactionEx at h
  split at h
  · -- no sender
    cases h
    exact .inl rfl
  rw [if_neg (by rw [hrecip]; exact not_not_intro rfl)] at h
  split at h
  · cases h
    exact .inl rfl
  dsimp only at h
  split_ifs at h with hmain hchild hhigh hlow hfunds hgp
  -- the six exits before the gas is bought
  any_goals
    cases h
    exact .inl rfl
  -- the exits after
  obtain ⟨hgp', hused, hmoney⟩ := applyBoughtGas_error A config getApplyCb h
  exact .inr ⟨by omega, hgp', hused, hmoney⟩
/-- A failed chain-contract transaction in the miner: the state goes back to the snapshot, the
two counters stay, and the gas pool stays or is lower by the gas of the transaction. -/
theorem commitTransactionEx_chain_error {tx : Transaction α} {acc acc' : BlockAcc S Op}
    {e : TxError} (hrecip : tx.recipient = some chainContract)
    (h : commitTransactionEx A config sender chainContract functionTypeFromId getApplyCb
      applyMessageEx tx acc = (acc', .error e)) :
    acc'.statedb = acc.statedb ∧ acc'.usedGas = acc.usedGas ∧
      acc'.totalUsedMoney = acc.totalUsedMoney ∧ (acc'.gp = acc.gp ∨ acc'.gp + tx.gas = acc.gp) := by
  unfold commitTransactionEx at h
  generalize hres : applyTransactionEx A config sender chainContract functionTypeFromId getApplyCb
    applyMessageEx tx acc = res at h
  obtain ⟨acc'', r | receipt⟩ := res
  · cases h
    rcases applyTransactionEx_chain_error A config sender chainContract functionTypeFromId
      getApplyCb applyMessageEx hrecip hres with rfl | ⟨hgp, hgp', hused, hmoney⟩
    · exact ⟨rfl, rfl, rfl, .inl rfl⟩
    · refine ⟨rfl, hused, hmoney, .inr ?_⟩
      dsimp only
      omega
  · cases h

/-- A chain-contract transaction that passes every check before the gas is bought but asks for
less gas than its function requires: the miner reverts the state, but the gas pool of the block
stays lower by all the gas of the transaction. -/
theorem commitTransactionEx_out_of_gas {tx : Transaction α} {acc : BlockAcc S Op} {from_ : α}
    {function : FunctionType} (hsender : sender tx = some from_)
    (hrecip : tx.recipient = some chainContract) (hdata : 4 ≤ tx.data.length)
    (hfn : functionTypeFromId (tx.data.take 4) = .ok function)
    (hmain : config.isMainChain = true → function.allowInMainChain = true)
    (hchild : config.isMainChain = false → function.allowInChildChain = true)
    (hnonce : A.getNonce acc.statedb from_ = tx.nonce)
    (hfunds : tx.gas * tx.gasPrice ≤ A.getBalance acc.statedb from_) (hgp : tx.gas ≤ acc.gp)
    (hgas : tx.gas < function.requiredGas) :
    commitTransactionEx A config sender chainContract functionTypeFromId getApplyCb
      applyMessageEx tx acc = ({ acc with gp := acc.gp - tx.gas }, .error .outOfGas) := by
  have hsel : (sliceTo tx.data 4 >>= functionTypeFromId) = .ok function := by
    rw [sliceTo_of_le hdata]
    exact hfn
  have hmain' : ¬(config.isMainChain && !function.allowInMainChain) = true := by
    cases hm : config.isMainChain <;> simp_all
  have hchild' : ¬(!config.isMainChain && !function.allowInChildChain) = true := by
    cases hm : config.isMainChain <;> simp_all
  unfold commitTransactionEx applyTransactionEx
  rw [hsender]
  dsimp only
  rw [if_neg (not_not_intro hrecip), hsel]
  dsimp only
  rw [if_neg hmain', if_neg hchild', if_neg (by omega), if_neg (by omega), if_neg (by omega),
    if_neg (by omega)]
  unfold applyBoughtGas
  dsimp only
  rw [if_pos hgas]

theorem commitTransactionEx_out_of_gas_delegate :
    commitTransactionEx (⟨fun _ _ => 0, fun s _ _ => s, fun _ _ => 1000000, fun s _ _ => s,
        fun s _ _ => s, fun s _ => s⟩ : StateAccess Unit Nat) ⟨true, true, true⟩ (fun _ => some 1) 7
      (fun _ => .ok .delegate) (fun _ => none) (fun _ _ acc => (acc, .error .callback))
      ⟨0, 1, 1, some 7, 0, [1, 2, 3, 4], 100⟩ (⟨1000, (), [], 0, 0⟩ : BlockAcc Unit Unit) =
      (⟨999, (), [], 0, 0⟩, .error .outOfGas) :=
  commitTransactionEx_out_of_gas _ _ _ _ _ _ _ rfl rfl (by decide) rfl (fun _ => rfl)
    (fun h => absurd h (by decide)) rfl (by decide) (by decide) (by decide)

/-- A transaction to the chain contract whose data is shorter than a selector: the pool panics
on it once it passes the checks that come before the selector, and a block panics on it at once. -/
theorem validateTx_short_data_panics {pool : TxPool S α} {tx : Transaction α} {from_ : α}
    (getValidateCb : FunctionType → Option (ValidateCb S α)) (isLocal : Bool)
    (hrecip : tx.recipient = some chainContract) (hshort : tx.data.length < 4)
    (hsize : tx.size ≤ 32 * 1024) (hvalue : 0 ≤ tx.value) (hgas : tx.gas ≤ pool.currentMaxGas)
    (hsender : sender tx = some from_) (hprice : pool.gasPrice ≤ tx.gasPrice)
    (hnonce : A.getNonce pool.currentState from_ ≤ tx.nonce)
    (hfunds : tx.cost ≤ A.getBalance pool.currentState from_) :
    validateTx A config sender chainContract functionTypeFromId getValidateCb pool tx isLocal =
        .error .panic ∧
      ∀ acc : BlockAcc S Op, applyTransactionEx A config sender chainContract functionTypeFromId
        getApplyCb applyMessageEx tx acc = (acc, .error .panic) := by
  have hsel : (sliceTo tx.data 4 >>= functionTypeFromId) = .error .panic := by
    rw [sliceTo_of_lt hshort]
    rfl
  constructor
  · unfold validateTx
    rw [if_neg (by omega), if_neg (by omega), if_neg (by omega), hsender]
    dsimp only
    have hpriced : ¬(!(isLocal || pool.locals from_) && decide (tx.gasPrice < pool.gasPrice)) = true := by
      simp [hprice]
    rw [if_neg hpriced, if_neg (by omega), if_neg (by omega), if_neg (not_not_intro hrecip), hsel]
  · intro acc
    unfold applyTransactionEx
    rw [hsender]
    dsimp only
    rw [if_neg (not_not_intro hrecip), hsel]

theorem validateTx_short_data_panics_empty :
    validateTx (⟨fun _ _ => 0, fun s _ _ => s, fun _ _ => 1000000, fun s _ _ => s,
        fun s _ _ => s, fun s _ => s⟩ : StateAccess Unit Nat) ⟨true, true, true⟩ (fun _ => some 1) 7
      (fun _ => .ok .delegate) (fun _ => none) ⟨100000, 1, fun _ => false, ()⟩
      ⟨0, 1, 21000, some 7, 0, [], 100⟩ false = .error .panic ∧
    ∀ acc : BlockAcc Unit Unit,
      applyTransactionEx (⟨fun _ _ => 0, fun s _ _ => s, fun _ _ => 1000000, fun s _ _ => s,
          fun s _ _ => s, fun s _ => s⟩ : StateAccess Unit Nat) ⟨true, true, true⟩
        (fun _ => some 1) 7 (fun _ => .ok .delegate) (fun _ => none)
        (fun _ _ acc => (acc, .error .callback)) ⟨0, 1, 21000, some 7, 0, [], 100⟩ acc =
        (acc, .error .panic) :=
  validateTx_short_data_panics _ _ _ _ _ _ _ _ false rfl (by decide) (by decide) (by decide)
    (by decide) rfl (by decide) (by decide) (by decide)

end Facts

end IntChain
