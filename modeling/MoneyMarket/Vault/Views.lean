/-
The view surface of the vault that the calls themselves do not use: conversions and previews at the
active price, what each request has pending and claimable, the estimated wait of a request, and the
price the oracle reports.
-/
import MoneyMarket.Vault.Calls

namespace MoneyMarket

open Evm

/-! ## Quotes -/

/-- Without the dust of a first deposit. -/
def convertToShares (s : State) (assets : Nat) : Tx Nat :=
  if activeSupply s = 0 then return assets
  else do
    let activeA ← activeAssets s
    if activeA = 0 then return 0
    else do
      let scaled ← checkedMul assets (activeSupply s)
      checkedDiv scaled activeA

def convertToAssets (s : State) (shares : Nat) : Tx Nat :=
  if activeSupply s = 0 then return shares
  else do
    let activeA ← activeAssets s
    let scaled ← checkedMul shares activeA
    checkedDiv scaled (activeSupply s)

def maxDeposit (s : State) : Tx Nat :=
  if s.paused = true ∨ s.depositsPaused = true ∨ hasMaturedBacklog s = true then return 0
  else do
    let totalA ← totalAssets s
    if s.tvlCap ≤ totalA then return 0 else checkedSub s.tvlCap totalA

def maxMint (s : State) : Tx Nat := do
  let assets ← maxDeposit s
  convertToShares s assets

/-- The checks of a deposit but for its limits. -/
def previewDeposit (s : State) (hollarAmount : Nat) : Tx Nat := do
  require (hollarAmount ≠ 0) (.custom .zeroAmount)
  if s.bil.totalSupply = 0 then do
    require (deadShares < hollarAmount) (.custom .depositTooSmall)
    checkedSub hollarAmount deadShares
  else do
    let activeA ← activeAssets s
    require (activeA ≠ 0 ∧ activeSupply s ≠ 0) (.custom .vaultEmpty)
    let scaled ← checkedMul hollarAmount (activeSupply s)
    let bilAmount ← checkedDiv scaled activeA
    require (bilAmount ≠ 0) (.custom .depositTooSmall)
    return bilAmount

def previewRedeem (s : State) (bilAmount : Nat) : Tx Nat :=
  if activeSupply s = 0 then return 0
  else do
    let activeA ← activeAssets s
    let scaled ← checkedMul bilAmount activeA
    checkedDiv scaled (activeSupply s)

/-! ## Requests -/

def pendingRedeemRequest (s : State) (requestId : Nat) (controller : Address) : Tx Nat :=
  let r := s.redemptionQueue requestId
  if r.user ≠ controller then return 0 else checkedSub r.bilAmount r.bilSettled

def claimableRedeemRequest (s : State) (requestId : Nat) (controller : Address) : Nat :=
  let r := s.redemptionQueue requestId
  if r.user ≠ controller then 0 else r.bilSettled

/-- The HOLLAR that the requests `ids` still need at `rate`. -/
def hollarNeeded (queue : Nat → Request) (rate : Nat) (ids : List Nat) : Tx Nat :=
  ids.foldlM (fun total i =>
    if (queue i).user = 0 then .ok total
    else do
      let pending ← checkedSub (queue i).bilAmount (queue i).bilSettled
      let scaled ← checkedMul pending rate
      let value ← checkedDiv scaled wad
      checkedAdd total value) 0

/-- The time until the positions `ids` have paid `needed` on top of what is accumulated, the largest
number when they never will. -/
def readyIn (delay : Address → Option Nat) (b : Book) (needed timestamp : Nat) : (ids : List Nat) → Nat → Tx Nat
  | [], _ => .ok (uintSize - 1)
  | i :: ids, accumulated => do
    let pos ← readAt b.positions i
    if pos.state = .redeemed then readyIn delay b needed timestamp ids accumulated
    else do
      let rate ← checkedMul pos.principal pos.apyWad
      let elapsed ← checkedSub pos.maturityTime pos.yieldStartTime
      let scaled ← checkedMul rate elapsed
      let expectedYield ← checkedDiv scaled (secondsPerYear * wad)
      let value ← checkedAdd pos.principal expectedYield
      let accumulated ← checkedAdd accumulated value
      if needed ≤ accumulated then do
        let wait ← returned (delay (b.positionPool i))
        let readyAt ← checkedAdd pos.maturityTime wait
        return if timestamp < readyAt then readyAt - timestamp else 0
      else readyIn delay b needed timestamp ids accumulated

/-- `delay` is what the pools answer as their withdrawal delay. -/
def getEstimatedWaitTime (delay : Address → Option Nat) (s : State) (requestId : Nat) : Tx Nat := do
  let rate ← exchangeRate s
  if (s.redemptionQueue requestId).user = 0 then return 0
  else do
    let needed ← hollarNeeded s.redemptionQueue rate (List.range' s.queueHead (requestId + 1 - s.queueHead))
    if needed ≤ s.idleHollar then return 0
    else do
      let needed ← checkedSub needed s.idleHollar
      readyIn delay s.toBook needed s.now (List.range' s.positionHead (s.positions.length - s.positionHead)) 0

/-! ## The oracle -/

def getOraclePrice (env : Replies) (s : State) : Tx Nat := oraclePrice s.oracle (env.feed s.oracle)

/-! ## The total -/

/-- The components of the total that are not reserved. -/
theorem totalAssets_ok_iff {s : State} {total : Nat} : totalAssets s = .ok total ↔
    ∃ accrued, accruedYield s = .ok accrued ∧
    s.totalInvestedPrincipal + accrued + s.idleHollar + s.totalPendingYield + s.totalReservedHollar = total ∧
    total < uintSize := by
  simp only [totalAssets, bind_ok_iff, checkedAdd_ok_iff]
  constructor
  · rintro ⟨accrued, hacc, _, ⟨-, rfl⟩, _, ⟨-, rfl⟩, _, ⟨-, rfl⟩, hlt, rfl⟩
    exact ⟨accrued, hacc, rfl, hlt⟩
  · rintro ⟨accrued, hacc, rfl, hlt⟩
    exact ⟨accrued, hacc, _, ⟨by omega, rfl⟩, _, ⟨by omega, rfl⟩, _, ⟨by omega, rfl⟩, hlt, rfl⟩

theorem activeAssets_of_total {s : State} {total : Nat} (h : totalAssets s = .ok total) :
    activeAssets s = .ok (total - s.totalReservedHollar) := by
  obtain ⟨accrued, -, hsum, -⟩ := totalAssets_ok_iff.1 h
  simp only [activeAssets, bind_ok_iff, pure_ok_iff]
  refine ⟨total, h, ?_⟩
  split_ifs with hlt
  · rfl
  · omega

end MoneyMarket
