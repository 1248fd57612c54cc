import IntChain.State.StakingDB

/-!
# Validator sets and epoch vote sets

`consensus/ipbft/types/validator_set.go` (`GetByAddress`, `Add`, `Update`, `Remove`) and
`consensus/ipbft/epoch/epoch_vote.go`. A validator set is its `Validators` slice; every lookup
is the linear scan of the source, so a set with a repeated address answers with the first
copy.

The votes of an epoch vote set all come from `CrossChainHelper.UpdateNextEpoch`: no
transaction creates a `VoteNextEpochOp` or a `RevealVoteOp`, so every vote carries an amount
and a public key, and `StoreVote` keeps one vote per address. The set is its `Votes` slice;
`GetVoteByAddress` reads the vote of that address from it.
-/

namespace IntChain

/-- `types.Validator`. -/
structure Validator (α κ : Type) where
  address : α
  pubKey : κ
  votingPower : Int
  remainingEpoch : Nat
  deriving DecidableEq, Repr

/-- `NewValidator`: a fresh validator has no remaining epochs. -/
def Validator.new {α κ : Type} (address : α) (pubKey : κ) (votingPower : Int) : Validator α κ :=
  ⟨address, pubKey, votingPower, 0⟩

/-- `types.RefundValidatorAmount`. The amount of a vote-out refund is `nil` in the source and
`0` here; nothing reads it. -/
structure RefundValidatorAmount (α : Type) where
  address : α
  amount : Int
  voteout : Bool
  deriving DecidableEq, Repr

namespace ValidatorSet

variable {α κ : Type} [DecidableEq α]

/-- The index `GetByAddress` finds, the first validator with the address. -/
def indexOf (vals : List (Validator α κ)) (addr : α) : Option Nat :=
  (vals.findIdx? fun v => v.address = addr)

def getByAddress (vals : List (Validator α κ)) (addr : α) : Option (Nat × Validator α κ) :=
  match indexOf vals addr with
  | none => none
  | some i => (vals[i]?).map fun v => (i, v)

def hasAddress (vals : List (Validator α κ)) (addr : α) : Bool :=
  vals.any fun v => v.address = addr

/-- `Add` appends a validator whose address is not in the set. -/
def add (vals : List (Validator α κ)) (val : Validator α κ) : List (Validator α κ) × Bool :=
  if hasAddress vals val.address then (vals, false) else (vals ++ [val], true)

/-- `Update` overwrites the validator found by `GetByAddress`. -/
def update (vals : List (Validator α κ)) (val : Validator α κ) : List (Validator α κ) × Bool :=
  match indexOf vals val.address with
  | none => (vals, false)
  | some i => (vals.set i val, true)

/-- `Remove` cuts the validator found by `GetByAddress` out of the slice. -/
def remove (vals : List (Validator α κ)) (addr : α) :
    List (Validator α κ) × Option (Validator α κ) :=
  match indexOf vals addr with
  | none => (vals, none)
  | some i => (vals.eraseIdx i, vals[i]?)

variable {vals : List (Validator α κ)}

/-! The scan finds nothing exactly when no validator has the address, and otherwise finds one
that has it. -/

theorem indexOf_eq_none_iff {a : α} : indexOf vals a = none ↔ a ∉ vals.map (·.address) := by
  unfold indexOf
  rw [List.findIdx?_eq_none_iff]
  simp

theorem getElem_indexOf {a : α} {i : Nat} (h : indexOf vals a = some i) :
    ∃ hi : i < vals.length, vals[i].address = a := by
  unfold indexOf at h
  obtain ⟨hi, hp, -⟩ := List.findIdx?_eq_some_iff_getElem.1 h
  exact ⟨hi, by simpa using hp⟩

theorem hasAddress_eq_false {a : α} (h : a ∉ vals.map (·.address)) : hasAddress vals a = false := by
  rw [Bool.eq_false_iff]
  intro h'
  obtain ⟨x, hx, hxa⟩ := List.any_eq_true.1 h'
  exact h (List.mem_map.2 ⟨x, hx, by simpa using hxa⟩)

/-! In a set with distinct addresses the scan finds the validator where it stands. -/

theorem indexOf_getElem (hnd : (vals.map (·.address)).Nodup) {i : Nat} (hi : i < vals.length) :
    indexOf vals vals[i].address = some i := by
  unfold indexOf
  rw [List.findIdx?_eq_some_iff_getElem]
  refine ⟨hi, by simp, fun j hji => ?_⟩
  have hj : j < vals.length := by omega
  -- the addresses before index i differ from the one at i
  have hne := List.nodup_iff_getElem?_ne_getElem?.1 hnd j i hji (by simpa using hi)
  simp only [List.getElem?_map, List.getElem?_eq_getElem hj, List.getElem?_eq_getElem hi,
    Option.map_some, ne_eq, Option.some.injEq] at hne
  simpa using hne

theorem remove_getElem (hnd : (vals.map (·.address)).Nodup) {i : Nat} (hi : i < vals.length) :
    remove vals vals[i].address = (vals.eraseIdx i, some vals[i]) := by
  rw [remove, indexOf_getElem hnd hi]
  dsimp only
  rw [List.getElem?_eq_getElem hi]

theorem update_getElem (hnd : (vals.map (·.address)).Nodup) {i : Nat} (hi : i < vals.length)
    {val : Validator α κ} (ha : val.address = vals[i].address) :
    update vals val = (vals.set i val, true) := by
  rw [update, ha, indexOf_getElem hnd hi]

end ValidatorSet

/-- `EpochValidatorVote`, without the vote and transaction hashes, which no decision reads. -/
structure EpochValidatorVote (α κ : Type) where
  address : α
  pubKey : κ
  amount : Int
  salt : String
  deriving DecidableEq, Repr

/-- `EpochValidatorVoteSet`, as its `Votes` slice. -/
structure EpochValidatorVoteSet (α κ : Type) where
  votes : List (EpochValidatorVote α κ)
  deriving DecidableEq, Repr

namespace EpochValidatorVoteSet

variable {α κ : Type} [DecidableEq α]

/-- `NewEpochValidatorVoteSet`. -/
def new : EpochValidatorVoteSet α κ := ⟨[]⟩

def getVoteByAddress (vs : EpochValidatorVoteSet α κ) (addr : α) :
    Option (EpochValidatorVote α κ) :=
  vs.votes.find? fun v => v.address = addr

/-- `StoreVote`: the old vote of the address leaves the slice and the new one is appended. -/
def storeVote (vs : EpochValidatorVoteSet α κ) (vote : EpochValidatorVote α κ) :
    EpochValidatorVoteSet α κ :=
  ⟨(vs.votes.filter fun v => v.address ≠ vote.address) ++ [vote]⟩

/-- `IsEmpty` of a vote set that may be `nil`. -/
def IsEmpty (vs : Option (EpochValidatorVoteSet α κ)) : Bool :=
  match vs with
  | none => true
  | some vs => vs.votes.isEmpty

end EpochValidatorVoteSet

/-- `CrossChainHelper.UpdateNextEpoch` on the next epoch's vote set: an existing vote of the
address gets the new amount in place, otherwise a vote with salt `"intchain"` is stored. -/
def updateNextEpochVote {α κ : Type} [DecidableEq α] (voteSet : Option (EpochValidatorVoteSet α κ))
    (from_ : α) (pubkey : κ) (depositAmount : Int) : EpochValidatorVoteSet α κ :=
  let vs := voteSet.getD .new
  match vs.getVoteByAddress from_ with
  | some _ => ⟨vs.votes.map fun v => if v.address = from_ then { v with amount := depositAmount } else v⟩
  | none => vs.storeVote ⟨from_, pubkey, depositAmount, "intchain"⟩

end IntChain
