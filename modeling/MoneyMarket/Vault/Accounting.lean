/-
The vault's accounting views and its internal steps: pricing, the maturity sync, opening a
position in a pool, settling the queue and the sweep of redeemed positions.
-/
import MoneyMarket.Vault.QueueLib

namespace MoneyMarket

open Evm

/-! ## Pricing -/

/-- The time the live aggregate accrues to: an overdue heap root clamps it. -/
def accrualTime (s : State) : Nat :=
  match s.maturityHeap.head? with
  | some root => if entryMaturity root < s.now then entryMaturity root else s.now
  | none => s.now

def accruedYield (s : State) : Tx Nat :=
  if 0 < s.yieldRateSum then do
    let gross ← checkedMul (accrualTime s) s.yieldRateSum
    if s.yieldOffsetSum < gross then checkedDiv (gross - s.yieldOffsetSum) (secondsPerYear * wad)
    else return 0
  else return 0

def totalAssets (s : State) : Tx Nat := do
  let accrued ← accruedYield s
  let a ← checkedAdd s.totalInvestedPrincipal accrued
  let b ← checkedAdd a s.idleHollar
  let c ← checkedAdd b s.totalPendingYield
  checkedAdd c s.totalReservedHollar

def activeAssets (s : State) : Tx Nat := do
  let total ← totalAssets s
  return if s.totalReservedHollar < total then total - s.totalReservedHollar else 0

def activeSupply (s : State) : Nat :=
  if s.totalSettledBil < s.bil.totalSupply then s.bil.totalSupply - s.totalSettledBil else 0

def exchangeRate (s : State) : Tx Nat :=
  if activeSupply s = 0 then return wad
  else do
    let assets ← activeAssets s
    let scaled ← checkedMul assets wad
    checkedDiv scaled (activeSupply s)

/-! ## Maturities -/

def hasMaturedBacklog (s : State) : Bool :=
  match s.maturityHeap.head? with
  | some root => decide (entryMaturity root ≤ s.now)
  | none => false

def requireNoMaturityBacklog (s : State) : Tx Unit :=
  require (hasMaturedBacklog s = false) (.custom .maturityBacklog)

/-- Returns the number of positions capped. -/
def syncMaturities (s : State) (maxPositions : Nat) : Tx (State × Nat) := do
  let r ← processMaturities s.positions s.maturityHeap maxPositions s.now s.yieldRateSum s.yieldOffsetSum
    (secondsPerYear * wad)
  let totalPendingYield ← checkedAdd s.totalPendingYield r.pendingYieldAdded
  return ({ s with
    positions := r.positions, maturityHeap := r.heap, yieldRateSum := r.newRateSum,
    yieldOffsetSum := r.newOffsetSum, totalPendingYield }, r.processed)

def syncBeforeRateSensitiveAction (s : State) : Tx State := do
  let (s, _) ← syncMaturities s maxMaturitySync
  requireNoMaturityBacklog s
  return s

/-! ## Positions -/

/-- Bump the principal and the yield aggregates, and queue the maturity. -/
def addToBucket (b : Book) (positionIndex apyWad principal yieldStartTime : Nat) : Tx Book := do
  let totalInvestedPrincipal ← checkedAdd b.totalInvestedPrincipal principal
  let rate ← checkedMul apyWad principal
  let yieldRateSum ← checkedAdd b.yieldRateSum rate
  let offset ← checkedMul rate yieldStartTime
  let yieldOffsetSum ← checkedAdd b.yieldOffsetSum offset
  let pos ← readAt b.positions positionIndex
  let maturityHeap ← pushMaturity b.maturityHeap pos.maturityTime positionIndex
  return { b with totalInvestedPrincipal, yieldRateSum, yieldOffsetSum, maturityHeap }

/-- Record the position a pool opened. -/
def recordPosition (b : Book) (pool : Address) (tokenId apyWad amount period timestamp : Nat) : Tx Book := do
  let maturityTime ← checkedAdd timestamp period
  let idx := b.positions.length
  addToBucket
    { b with
      positions := b.positions ++
        [{ tokenId, principal := amount, apyWad, depositTime := timestamp, maturityTime,
           yieldStartTime := timestamp, state := .active, yieldCapped := false, pendingYield := 0 }]
      positionPool := Function.update b.positionPool idx pool }
    idx apyWad amount timestamp

/-- `try pool.deposit(amount)`: the pool pulls from the vault under its allowance and returns a
token id, or reverts; a pull the ledger refuses is a revert of the pool. -/
def poolDeposit (d : Deployment) (reply : PoolReply) (token : ERC20) (pool : Address) : Option (Nat × ERC20) :=
  match reply.deposit with
  | none => none
  | some (tokenId, pulled) =>
    match (token.transferFrom pool d.self pool pulled : Tx ERC20) with
    | .ok token => some (tokenId, token)
    | .error _ => none

/-- `try pool.execute…Withdrawal(tokenId)`: the pool pays the vault, or reverts; a payment the
ledger refuses is a revert of the pool. -/
def poolPay (d : Deployment) (paid : Option Nat) (token : ERC20) (pool : Address) : Option ERC20 :=
  match paid with
  | none => none
  | some amount =>
    match (token.transfer pool d.self amount : Tx ERC20) with
    | .ok token => some token
    | .error _ => none

/-- Forward HOLLAR to the active pool and record the position. A refusal leaves only the
approvals and returns `false`. -/
def depositIntoDecentral (d : Deployment) (env : Replies) (s : State) (amount : Nat) : Tx (State × Bool) := do
  let pool := s.activeDepositPool
  let apyWad ← returned (env.pool pool).fixedAPYWad
  -- an approval left by a refusal is cleared first
  let token ← s.token.safeApprove d.self pool 0
  let token ← token.safeApprove d.self pool amount
  match poolDeposit d (env.pool pool) token pool with
  | none => return ({ s with token }, false)
  | some (tokenId, token) => do
    let period ← returned (env.pool pool).minimumInvestmentPeriodSeconds
    let book ← recordPosition s.toBook pool tokenId apyWad amount period s.now
    return ({ s with toBook := book, token }, true)

def sweepPositionHead (s : State) : State :=
  { s with positionHead := MoneyMarket.advancePositionHead s.positions maxPositionHeadSweep s.positionHead }

/-! ## The queue -/

/-- Rate-lock pending requests: returns the HOLLAR moved from idle to reserved and the BIL locked. -/
def processQueueWithHollar (s : State) (available rate : Nat) : Tx (State × Nat × Nat) := do
  let r ← processQueue s.toQueueStore s.queueHead s.queueTail available rate maxQueueIterations maxQueueSkips wad
  let idleHollar ← checkedSub s.idleHollar r.hollarUsed
  let totalReservedHollar ← checkedAdd s.totalReservedHollar r.hollarUsed
  let totalSettledBil ← checkedAdd s.totalSettledBil r.bilLocked
  return ({ s with
    toQueueStore := r.toQueueStore, queueHead := r.newQueueHead, idleHollar, totalReservedHollar,
    totalSettledBil }, r.hollarUsed, r.bilLocked)

/-! ## Claim views -/

def maxWithdraw (s : State) (controller : Address) : Tx Nat :=
  sumSettled s.redemptionQueue (s.settledByController controller) controller true

def maxRedeem (s : State) (controller : Address) : Tx Nat :=
  sumSettled s.redemptionQueue (s.settledByController controller) controller false

end MoneyMarket
