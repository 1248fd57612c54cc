import IntChain.Lib.BinaryFloat
import IntChain.State.StakingDB

/-!
# The block reward

`accumulateRewards` of `consensus/ipbft/engine.go`. Half the gas fee goes to the fee address;
the coinbase reward is the epoch's reward per block (four fifths of it when a foundation
address is set) on the main and test chains, or what the child-chain reward address can pay
on a child chain, plus the other half of the fee. When the coinbase has deposit proxied
balance, its own share is the coinbase reward scaled by `selfDeposit / totalDeposit` in
`big.Float` arithmetic, a commission of the delegators' share is added to it, and the rest is
split among the delegators in proportion to their deposit proxied balances, the remainder of
the integer divisions going to the coinbase.
-/

namespace IntChain

open BinaryFloat

/-- What `accumulateRewards` reads from the chain configuration and the block. The child-chain
reward per block is read from the state; no modelled operation writes it. -/
structure RewardConfig (α : Type) where
  /-- `IntChainId` is the mainnet's or the testnet's. -/
  isMainOrTestnet : Bool
  /-- `none` is the zero address. -/
  foundationAddress : Option α
  feeAddress : α
  childChainRewardAddress : α
  childChainRewardPerBlock : Int

variable {α κ : Type} [DecidableEq α]

/-- The coinbase reward and the state after the foundation's share or the child chain's
payment is moved. -/
def coinbaseRewardOf (cfg : RewardConfig α) (rewardPerBlock halfGasFee : Int)
    (s : StateDB α κ) : StateDB α κ × Int :=
  if cfg.isMainOrTestnet then
    if 0 < rewardPerBlock then
      match cfg.foundationAddress with
      | none => (s, rewardPerBlock + halfGasFee)
      | some foundationAddress =>
        let coinbaseReward := (rewardPerBlock * 8).tdiv 10
        (s.addBalance foundationAddress (rewardPerBlock - coinbaseReward),
          coinbaseReward + halfGasFee)
    else (s, halfGasFee)
  else
    if 0 < cfg.childChainRewardPerBlock then
      let childChainRewardBalance := s.getBalance cfg.childChainRewardAddress
      let rewardPerBlock := if childChainRewardBalance < cfg.childChainRewardPerBlock then
        childChainRewardBalance else cfg.childChainRewardPerBlock
      (s.subBalance cfg.childChainRewardAddress rewardPerBlock, rewardPerBlock + halfGasFee)
    else (s, halfGasFee)

/-- `selfPercent := selfDeposit / totalDeposit` and `selfReward := coinbaseReward * selfPercent`
in `big.Float`, truncated by `Int`. `none` is a panic; an infinite product leaves the
`selfReward` that `new(big.Int)` made, zero. -/
def selfRewardOf (coinbaseReward selfDeposit totalDeposit : Int) : Option Int := do
  let selfPercent ← (BigFloat.setInt selfDeposit).quo (BigFloat.setInt totalDeposit)
  let product ← (BigFloat.setInt coinbaseReward).mul selfPercent
  return product.int.getD 0

/-- The self reward and the delegators' reward after the commission moves between them;
`none` for the delegators when the coinbase has no deposit proxied balance. -/
def splitReward (coinbaseReward selfDeposit totalProxiedDeposit : Int) (commission : UInt8) :
    Option (Int × Option Int) :=
  if totalProxiedDeposit = 0 then some (coinbaseReward, none)
  else do
    let selfReward ← selfRewardOf coinbaseReward selfDeposit (selfDeposit + totalProxiedDeposit)
    let delegateReward := coinbaseReward - selfReward
    if 0 < commission then
      let commissionReward := (delegateReward * commission.toNat).tdiv 100
      return (selfReward + commissionReward, some (delegateReward - commissionReward))
    else return (selfReward, some delegateReward)

/-- The callback of the delegators' split on one delegator: the reward and the running total
of what has been given. -/
def delegateRewardCb (coinbase : α) (delegateReward totalProxiedDeposit : Int) (key : α)
    (apb : AccountProxiedBalance) (acc : StateDB α κ × Int) : StateDB α κ × Int :=
  if 0 < apb.depositProxiedBalance then
    let individualReward := (apb.depositProxiedBalance * delegateReward).tdiv totalProxiedDeposit
    (acc.1.addRewardBalanceByDelegateAddress key coinbase individualReward,
      acc.2 + individualReward)
  else acc

/-- The delegators' split and the settlement of its rounding with the coinbase. `none` is the
panic of `SubRewardBalanceByDelegateAddress` on a missing entry. -/
def distributeDelegateReward (coinbase : α) (delegateReward totalProxiedDeposit : Int)
    (s : StateDB α κ) : Option (StateDB α κ) :=
  let (s, totalIndividualReward) :=
    s.forEachProxied coinbase 0 (delegateRewardCb coinbase delegateReward totalProxiedDeposit)
  if totalIndividualReward < delegateReward then
    some (s.addRewardBalanceByDelegateAddress coinbase coinbase
      (delegateReward - totalIndividualReward))
  else if delegateReward < totalIndividualReward then
    s.subRewardBalanceByDelegateAddress coinbase coinbase (totalIndividualReward - delegateReward)
  else some s

/-- `accumulateRewards`. The total gas fee is a sum of gas used times gas price, so a natural
number; `none` is a panic. -/
def accumulateRewards (cfg : RewardConfig α) (coinbase : α) (rewardPerBlock : Int)
    (totalGasFee : Nat) (s : StateDB α κ) : Option (StateDB α κ) := do
  let halfGasFee : Int := (totalGasFee / 2 : Nat)
  let (s, coinbaseReward) :=
    coinbaseRewardOf cfg rewardPerBlock halfGasFee (s.addBalance cfg.feeAddress halfGasFee)
  let totalProxiedDeposit := s.getTotalDepositProxiedBalance coinbase
  let (selfReward, delegateReward) ← splitReward coinbaseReward (s.getDepositBalance coinbase)
    totalProxiedDeposit (s.getCommission coinbase)
  let s := s.addRewardBalanceByDelegateAddress coinbase coinbase selfReward
  match delegateReward with
  | some delegateReward =>
    if 0 < delegateReward then distributeDelegateReward coinbase delegateReward totalProxiedDeposit s
    else some s
  | none => some s

end IntChain
