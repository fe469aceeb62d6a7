/-
The managed price oracle and the one that checks what is pushed to it against a feed. Storage
carries its own bounds: a band of at most 100% and feed decimals of at most 36 are all that can be
configured.
-/
import MoneyMarket.Evm.ERC20
import MoneyMarket.Evm.External

namespace MoneyMarket

open Evm

/-! ## Errors -/

inductive OracleError where
  | invalidFeed
  | invalidBps
  | invalidPrice
  | notPriceSetter
  | checkPriceUnavailable
  | priceDeviationTooLarge (price checkPrice : Int256) (deviationBps maxDiffBps : Nat)
  | invalidCoefficient
  deriving DecidableEq

abbrev OracleTx := Except (Revert OracleError)

/-! ## The managed oracle -/

namespace ManagedOracle

structure RoundData where
  roundId : Nat
  answer : Int256
  startedAt : Nat
  updatedAt : Nat
  answeredInRound : Nat
  deriving DecidableEq

/-- The decimals of the prices it reports. -/
def decimals : Nat := 8

end ManagedOracle

structure ManagedOracle where
  owner : Address
  currentRound : ManagedOracle.RoundData
  deriving DecidableEq

namespace ManagedOracle

/-- `onlyOwner`. -/
def onlyOwner (o : ManagedOracle) (sender : Address) : OracleTx Unit :=
  require (o.owner = sender) (.reason "Ownable: caller is not the owner")

def transferOwnership (o : ManagedOracle) (sender newOwner : Address) : OracleTx ManagedOracle := do
  o.onlyOwner sender
  require (newOwner ≠ 0) (.reason "Ownable: new owner is the zero address")
  return { o with owner := newOwner }

def renounceOwnership (o : ManagedOracle) (sender : Address) : OracleTx ManagedOracle := do
  o.onlyOwner sender
  return { o with owner := 0 }

/-- The constructor, run by `deployer`. -/
def construct (deployer : Address) (now : Nat) (initialOwner : Address) (initialPrice : Int256) :
    OracleTx ManagedOracle := do
  let o : ManagedOracle := ⟨deployer, ⟨0, ⟨0, by decide⟩, 0, 0, 0⟩⟩
  let o ← o.transferOwnership deployer initialOwner
  return { o with currentRound := ⟨1, initialPrice, now, now, 1⟩ }

/-- `_setPrice`: the next round. -/
def setPrice (o : ManagedOracle) (now : Nat) (price : Int256) : OracleTx ManagedOracle := do
  let roundId := o.currentRound.roundId + 1
  require (roundId < 2 ^ 80) (.panic .arithmetic)
  return { o with currentRound := ⟨roundId, price, now, now, roundId⟩ }

end ManagedOracle

/-! ## The checked oracle -/

/-- What a check feed answers. -/
structure CheckFeed where
  latestAnswer : Outcome Int256
  decimals : Outcome (Fin 256)

namespace CheckedOracle

def maxBps : Nat := 10000
def maxFeedDecimals : Nat := 36

end CheckedOracle

structure CheckedOracle extends ManagedOracle where
  /-- The check feed, zero while pushes are not checked. -/
  checkOracle : Address
  checkDecimals : { d : Nat // d ≤ CheckedOracle.maxFeedDecimals }
  maxDiffBps : { bps : Nat // bps ≤ CheckedOracle.maxBps }
  pusher : Address
  deriving DecidableEq

namespace CheckedOracle

/-! ## Configuration -/

/-- `_feedAnswers`. -/
def feedAnswers (feed : CheckFeed) : OracleTx Bool := do
  match ← tryCall feed.latestAnswer with
  | some answer => return decide (0 < answer.1)
  | none => return false

/-- `_feedDecimals`. -/
def feedDecimals (feed : CheckFeed) : OracleTx { d : Nat // d ≤ maxFeedDecimals } := do
  match ← tryCall feed.decimals with
  | some d => if h : d.1 ≤ maxFeedDecimals then return ⟨d.1, h⟩ else throw (.custom .invalidFeed)
  | none => return ⟨ManagedOracle.decimals, by decide⟩

/-- `_setCheckOracle`. -/
def setCheckOracle (o : CheckedOracle) (feeds : Address → CheckFeed) (checkOracle : Address) :
    OracleTx CheckedOracle := do
  if checkOracle = 0 then return { o with checkOracle, checkDecimals := ⟨0, by decide⟩ }
  else
    let checkDecimals ← feedDecimals (feeds checkOracle)
    require ((← feedAnswers (feeds checkOracle)) = true) (.custom .invalidFeed)
    return { o with checkOracle, checkDecimals }

/-- `_setMaxDiffBps`. -/
def setMaxDiffBps (o : CheckedOracle) (maxDiffBps : Nat) : OracleTx CheckedOracle :=
  if h : maxDiffBps ≤ maxBps then .ok { o with maxDiffBps := ⟨maxDiffBps, h⟩ } else .error (.custom .invalidBps)

/-- `_setPusher`. -/
def setPusher (o : CheckedOracle) (pusher : Address) : CheckedOracle := { o with pusher }

/-- The constructor. -/
def construct (deployer : Address) (feeds : Address → CheckFeed) (now : Nat) (initialOwner : Address)
    (initialPrice : Int256) (checkOracle : Address) (maxDiffBps : Nat) (pusher : Address) : OracleTx CheckedOracle := do
  let o ← ManagedOracle.construct deployer now initialOwner initialPrice
  let o : CheckedOracle :=
    { o with checkOracle := 0, checkDecimals := ⟨0, by decide⟩, maxDiffBps := ⟨0, by decide⟩, pusher := 0 }
  let o ← o.setCheckOracle feeds checkOracle
  let o ← o.setMaxDiffBps maxDiffBps
  return o.setPusher pusher

/-! ## The band -/

/-- `_scale`. -/
def scale (o : CheckedOracle) (answer : Nat) : OracleTx Nat :=
  let d := o.checkDecimals.1
  if d = ManagedOracle.decimals then .ok answer
  else if d < ManagedOracle.decimals then checkedMul answer (10 ^ (ManagedOracle.decimals - d))
  else .ok (answer / 10 ^ (d - ManagedOracle.decimals))

/-- `_checkPrice`: the check price where there is one. -/
def checkPrice (o : CheckedOracle) (feeds : Address → CheckFeed) : OracleTx (Option Nat) := do
  if o.checkOracle = 0 then return none
  else
    match ← tryCall (feeds o.checkOracle).latestAnswer with
    | some answer => if answer.1 ≤ 0 then return none else return some (← o.scale answer.toUint)
    | none => return none

def priceDiff (p c : Nat) : Nat := if c < p then p - c else c - p

/-- `_withinBand`. -/
def withinBand (o : CheckedOracle) (p c : Nat) : OracleTx Bool := do
  let diff ← checkedMul (priceDiff p c) maxBps
  let allowed ← checkedMul o.maxDiffBps.1 c
  return decide (diff ≤ allowed)

/-- `_deviationBps`. -/
def deviationBps (p c : Nat) : OracleTx Nat := do
  let diff ← checkedMul (priceDiff p c) maxBps
  checkedDiv diff c

/-- The gate of `setPrice`, in both contracts: `price` is within the band around the check price. -/
def requireInBand (o : CheckedOracle) (feeds : Address → CheckFeed) (price : Int256) : OracleTx Unit := do
  match ← o.checkPrice feeds with
  | none => throw (.custom .checkPriceUnavailable)
  | some check =>
    let p := price.toUint
    if (← o.withinBand p check) = true then return ()
    else
      let deviation ← deviationBps p check
      throw (.custom (.priceDeviationTooLarge price (.ofUint check) deviation o.maxDiffBps.1))

/-! ## Pushing -/

/-- `onlyPriceSetter`. -/
def onlyPriceSetter (o : CheckedOracle) (sender : Address) : OracleTx Unit :=
  require (sender = o.pusher ∨ sender = o.owner) (.custom .notPriceSetter)

/-- The next round of the base contract. -/
def storePrice (o : CheckedOracle) (now : Nat) (price : Int256) : OracleTx CheckedOracle := do
  return { o with toManagedOracle := ← o.toManagedOracle.setPrice now price }

def setPrice (o : CheckedOracle) (feeds : Address → CheckFeed) (sender : Address) (now : Nat) (price : Int256) :
    OracleTx CheckedOracle := do
  o.onlyPriceSetter sender
  require (0 < price.1) (.custom .invalidPrice)
  if o.checkOracle = 0 then o.storePrice now price
  else
    o.requireInBand feeds price
    o.storePrice now price

/-- The check price is only read for the event. -/
def setPriceUnchecked (o : CheckedOracle) (feeds : Address → CheckFeed) (sender : Address) (now : Nat)
    (price : Int256) : OracleTx CheckedOracle := do
  o.onlyOwner sender
  let _ ← o.checkPrice feeds
  o.storePrice now price

/-! ## Views -/

/-- Whether pushes are checked at all. -/
def checked (o : CheckedOracle) : Bool := decide (o.checkOracle ≠ 0)

/-- The end of `previewSetPrice`, in both contracts: whether `price` passes the gate, and by how many
basis points it deviates. -/
def previewInBand (o : CheckedOracle) (feeds : Address → CheckFeed) (price : Int256) : OracleTx (Bool × Nat) := do
  match ← o.checkPrice feeds with
  | none => return (false, 0)
  | some check =>
    let p := price.toUint
    return (← o.withinBand p check, ← deviationBps p check)

def previewSetPrice (o : CheckedOracle) (feeds : Address → CheckFeed) (price : Int256) : OracleTx (Bool × Nat) :=
  if price.1 ≤ 0 then .ok (false, 0)
  else if o.checked = false then .ok (true, 0)
  else o.previewInBand feeds price

end CheckedOracle

end MoneyMarket
