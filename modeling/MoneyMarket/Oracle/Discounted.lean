/-
The checked oracle that marks pushed prices down, and the two contracts as one transition system:
any accounts call either of them, and the check feeds answer anything.
-/
import MoneyMarket.Lib.Transition
import MoneyMarket.Oracle.Checked

namespace MoneyMarket

open Evm

/-! ## The discount -/

namespace DiscountedCheckedOracle

def one : Nat := 10 ^ 8
def minCoefficient : Nat := 9 * 10 ^ 7
def maxCoefficient : Nat := one

/-- The coefficients that can be set. -/
abbrev Coefficient := { n : Nat // minCoefficient ≤ n ∧ n ≤ maxCoefficient }

end DiscountedCheckedOracle

structure DiscountedCheckedOracle extends CheckedOracle where
  coefficient : DiscountedCheckedOracle.Coefficient
  deriving DecidableEq

namespace DiscountedCheckedOracle

/-- The check of `_setCoefficient`. -/
def checkCoefficient (coefficient : Nat) : OracleTx Coefficient :=
  if h : minCoefficient ≤ coefficient ∧ coefficient ≤ maxCoefficient then .ok ⟨coefficient, h⟩
  else .error (.custom .invalidCoefficient)

/-- `_discount`. -/
def discount (o : DiscountedCheckedOracle) (raw : Int256) : OracleTx Int256 := do
  return .ofUint ((← checkedMul raw.toUint o.coefficient.1) / one)

/-- `_setDiscountedPrice`. -/
def setDiscountedPrice (o : DiscountedCheckedOracle) (feeds : Address → CheckFeed) (now : Nat) (raw : Int256)
    (enforceBand : Bool) : OracleTx DiscountedCheckedOracle := do
  require (0 < raw.1) (.custom .invalidPrice)
  let adjusted ← o.discount raw
  require (0 < adjusted.1) (.custom .invalidPrice)
  if enforceBand = true ∧ o.checkOracle ≠ 0 then o.requireInBand feeds adjusted
  return { o with toCheckedOracle := ← o.storePrice now adjusted }

def setPrice (o : DiscountedCheckedOracle) (feeds : Address → CheckFeed) (sender : Address) (now : Nat)
    (raw : Int256) : OracleTx DiscountedCheckedOracle := do
  o.onlyPriceSetter sender
  o.setDiscountedPrice feeds now raw true

/-- The constructor. -/
def construct (deployer : Address) (feeds : Address → CheckFeed) (now : Nat) (initialOwner : Address)
    (initialPrice : Int256) (checkOracle : Address) (maxDiffBps : Nat) (pusher : Address) (coefficient : Nat) :
    OracleTx DiscountedCheckedOracle := do
  let o ← CheckedOracle.construct deployer feeds now initialOwner initialPrice checkOracle maxDiffBps pusher
  let coefficient ← checkCoefficient coefficient
  setDiscountedPrice { o with coefficient } feeds now initialPrice false

def previewSetPrice (o : DiscountedCheckedOracle) (feeds : Address → CheckFeed) (raw : Int256) :
    OracleTx (Bool × Nat) :=
  if raw.1 ≤ 0 then .ok (false, 0)
  else do
    let adjusted ← o.discount raw
    if adjusted.1 ≤ 0 then return (false, 0)
    else if o.checked = false then return (true, 0)
    else o.previewInBand feeds adjusted

end DiscountedCheckedOracle

/-! ## Transactions -/

namespace CheckedOracle

/-- The functions that write, those of the base contracts included. -/
inductive Call where
  | setPrice (price : Int256)
  | setPriceUnchecked (price : Int256)
  | setCheckOracle (checkOracle : Address)
  | setMaxDiffBps (maxDiffBps : Nat)
  | setPusher (pusher : Address)
  | transferOwnership (newOwner : Address)
  | renounceOwnership
  deriving DecidableEq

def call (o : CheckedOracle) (feeds : Address → CheckFeed) (sender : Address) (now : Nat) :
    Call → OracleTx CheckedOracle
  | .setPrice price => o.setPrice feeds sender now price
  | .setPriceUnchecked price => o.setPriceUnchecked feeds sender now price
  | .setCheckOracle checkOracle => do
    o.onlyOwner sender
    o.setCheckOracle feeds checkOracle
  | .setMaxDiffBps maxDiffBps => do
    o.onlyOwner sender
    o.setMaxDiffBps maxDiffBps
  | .setPusher pusher => do
    o.onlyOwner sender
    return o.setPusher pusher
  | .transferOwnership newOwner => do
    return { o with toManagedOracle := ← o.toManagedOracle.transferOwnership sender newOwner }
  | .renounceOwnership => do return { o with toManagedOracle := ← o.toManagedOracle.renounceOwnership sender }

end CheckedOracle

/-- Either contract. -/
inductive PriceOracle where
  | checked (o : CheckedOracle)
  | discounted (o : DiscountedCheckedOracle)

namespace PriceOracle

/-- The storage both contracts have. -/
def base : PriceOracle → CheckedOracle
  | .checked o => o
  | .discounted o => o.toCheckedOracle

/-- The functions of either contract. -/
inductive Call where
  | checked (c : CheckedOracle.Call)
  | setCoefficient (coefficient : Nat)
  deriving DecidableEq

/-- What `setPrice` stores for a pushed price. -/
def published : PriceOracle → Int256 → OracleTx Int256
  | .checked _, price => .ok price
  | .discounted o, price => o.discount price

/-- `previewSetPrice` of either contract. -/
def previewSetPrice : PriceOracle → (Address → CheckFeed) → Int256 → OracleTx (Bool × Nat)
  | .checked o, feeds, price => o.previewSetPrice feeds price
  | .discounted o, feeds, raw => o.previewSetPrice feeds raw

structure Transaction where
  sender : Address
  now : Nat
  feeds : Address → CheckFeed
  call : Call

/-- Run a transaction. The discounted contract overrides `setPrice`. The other one has no coefficient,
and a function that it does not have reverts. -/
def run : PriceOracle → Transaction → OracleTx PriceOracle
  | .checked o, tx =>
    match tx.call with
    | .checked c => do return .checked (← o.call tx.feeds tx.sender tx.now c)
    | .setCoefficient _ => .error (.reason "")
  | .discounted o, tx =>
    match tx.call with
    | .checked (.setPrice raw) => do return .discounted (← o.setPrice tx.feeds tx.sender tx.now raw)
    | .checked c => do return .discounted { o with toCheckedOracle := ← o.call tx.feeds tx.sender tx.now c }
    | .setCoefficient coefficient => do
      o.onlyOwner tx.sender
      return .discounted { o with coefficient := ← DiscountedCheckedOracle.checkCoefficient coefficient }

/-- A contract as its constructor leaves it. -/
inductive Constructed : PriceOracle → Prop
  | checked {o : CheckedOracle} {deployer initialOwner checkOracle pusher : Address} {feeds : Address → CheckFeed}
      {now maxDiffBps : Nat} {initialPrice : Int256} :
      CheckedOracle.construct deployer feeds now initialOwner initialPrice checkOracle maxDiffBps pusher = .ok o →
      Constructed (.checked o)
  | discounted {o : DiscountedCheckedOracle} {deployer initialOwner checkOracle pusher : Address}
      {feeds : Address → CheckFeed} {now maxDiffBps coefficient : Nat} {initialPrice : Int256} :
      DiscountedCheckedOracle.construct deployer feeds now initialOwner initialPrice checkOracle maxDiffBps pusher
        coefficient = .ok o → Constructed (.discounted o)

/-- The runs of either contract. -/
def machine : Transition.System PriceOracle Transaction where
  init := Constructed
  next o tx o' := o.run tx = .ok o'

end PriceOracle

end MoneyMarket
