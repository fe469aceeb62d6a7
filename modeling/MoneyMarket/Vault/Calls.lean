/-
The vault's external functions. Each takes the state its transaction starts from and gives the
state it leaves, or reverts. `pokeDecentral` also reports the payouts it credited.
-/
import MoneyMarket.Vault.Accounting

namespace MoneyMarket

open Evm

/-! ## Guards -/

def whenNotPaused (s : State) : Tx Unit := require (s.paused = false) (.reason "Pausable: paused")
def whenPaused (s : State) : Tx Unit := require (s.paused = true) (.reason "Pausable: not paused")

def onlyRole (s : State) (role : Role) (sender : Address) : Tx Unit :=
  require (s.hasRole role sender = true) (.custom .missingRole)

def onlyAdminOrGuardian (s : State) (sender : Address) : Tx Unit :=
  require (s.hasRole .admin sender = true ∨ s.hasRole .guardian sender = true) (.custom .notAdminOrGuardian)

/-! ## Deposits -/

def validateDeposit (s : State) (assets : Nat) : Tx Unit := do
  require (s.depositsPaused = false) (.custom .depositsArePaused)
  require (assets ≠ 0) (.custom .zeroAmount)
  let total ← totalAssets s
  let after ← checkedAdd total assets
  require (after ≤ s.tvlCap) (.custom .exceedsTvlCap)

def validateAndPreviewShares (s : State) (assets : Nat) : Tx Nat := do
  validateDeposit s assets
  if s.bil.totalSupply = 0 then do
    require (deadShares < assets) (.custom .depositTooSmall)
    checkedSub assets deadShares
  else do
    -- priced on the active pool: settled shares and the HOLLAR reserved for them are out of it
    let activeA ← activeAssets s
    require (activeA ≠ 0 ∧ activeSupply s ≠ 0) (.custom .vaultEmpty)
    let scaled ← checkedMul assets (activeSupply s)
    let shares ← checkedDiv scaled activeA
    require (shares ≠ 0) (.custom .depositTooSmall)
    return shares

/-- Rounds up. -/
def previewMint (s : State) (shares : Nat) : Tx Nat :=
  if activeSupply s = 0 then checkedAdd shares deadShares
  else do
    let activeA ← activeAssets s
    let scaled ← checkedMul shares activeA
    let padded ← checkedAdd scaled (activeSupply s)
    let numerator ← checkedSub padded 1
    checkedDiv numerator (activeSupply s)

/-- The dead shares of the first deposit. -/
def bootstrap (bil : ERC20) : Tx ERC20 := if bil.totalSupply = 0 then bil.mint deadAddress deadShares else return bil

/-- `_deposit`: mint, pull the HOLLAR and push it into the active pool. -/
def depositShares (d : Deployment) (env : Replies) (s : State) (sender receiver : Address) (assets shares : Nat) :
    Tx State := do
  let bil ← bootstrap s.bil
  let bil ← bil.mint receiver shares
  let token ← s.token.transferFrom d.self sender d.self assets
  let (s, ok) ← depositIntoDecentral d env { s with bil, token } assets
  require (ok = true) (.custom .decentralDepositFailed)
  return s

def deposit (d : Deployment) (env : Replies) (s : State) (sender : Address) (assets : Nat) (receiver : Address) :
    Tx (State × Nat) := do
  whenNotPaused s
  require (receiver ≠ 0) (.custom .zeroAddress)
  let shares ← validateAndPreviewShares s assets
  requireNoMaturityBacklog s
  let s ← depositShares d env s sender receiver assets shares
  return (s, shares)

def mint (d : Deployment) (env : Replies) (s : State) (sender : Address) (shares : Nat) (receiver : Address) :
    Tx (State × Nat) := do
  whenNotPaused s
  require (receiver ≠ 0) (.custom .zeroAddress)
  require (shares ≠ 0) (.custom .zeroAmount)
  requireNoMaturityBacklog s
  let assets ← previewMint s shares
  validateDeposit s assets
  let s ← depositShares d env s sender receiver assets shares
  return (s, assets)

/-! ## Redemption requests -/

def requestRedeem (d : Deployment) (s : State) (sender : Address) (shares : Nat) (controller owner : Address) :
    Tx (State × Nat) := do
  whenNotPaused s
  require (s.minRedeemAmount ≤ shares) (.custom .belowMinimumRedeem)
  require (controller ≠ 0) (.custom .zeroAddress)
  require (owner ≠ 0) (.custom .zeroAddress)
  require (sender = owner ∨ s.isOperator owner sender = true) (.custom .notAuthorized)
  let bil ← s.bil.transfer owner d.self shares
  let requestId := s.queueTail
  let queueTail ← checkedAdd s.queueTail 1
  let totalQueuedBil ← checkedAdd s.totalQueuedBil shares
  return ({ s with
    bil, queueTail, totalQueuedBil,
    redemptionQueue := Function.update s.redemptionQueue requestId ⟨controller, shares, 0, 0⟩ }, requestId)

/-- Refund the unsettled shares to the controller and shrink the request to its settled part. -/
def refundUnsettled (d : Deployment) (s : State) (requestId unsettled : Nat) : Tx State :=
  if 0 < unsettled then do
    let request := s.redemptionQueue requestId
    let totalQueuedBil ← checkedSub s.totalQueuedBil unsettled
    let bil ← s.bil.transfer d.self request.user unsettled
    return { s with
      bil, totalQueuedBil,
      redemptionQueue :=
        Function.update s.redemptionQueue requestId { request with bilAmount := request.bilSettled } }
  else return s

/-- Delete a request with nothing settled, sweeping the queue head if it was there. -/
def deleteUnsettled (s : State) (requestId : Nat) : State :=
  if (s.redemptionQueue requestId).bilSettled = 0 then
    let queue := Function.update s.redemptionQueue requestId Request.empty
    { s with
      redemptionQueue := queue
      queueHead :=
        if requestId = s.queueHead then MoneyMarket.advanceQueueHead queue s.queueTail maxQueueIterations s.queueHead
        else s.queueHead }
  else s

/-- Works while paused. -/
def cancelRedeem (d : Deployment) (s : State) (sender : Address) (requestId : Nat) : Tx State := do
  require (requestId < s.queueTail) (.custom .invalidRequestId)
  let request := s.redemptionQueue requestId
  require (request.user ≠ 0) (.custom .requestNotActive)
  require (sender = request.user ∨ s.isOperator request.user sender = true) (.custom .notRequestOwner)
  -- what is settled stays in the request, for its controller to claim
  let unsettled ← checkedSub request.bilAmount request.bilSettled
  let s ← refundUnsettled d s requestId unsettled
  return deleteUnsettled s requestId

/-! ## Claims -/

def authorizeClaim (s : State) (sender receiver controller : Address) : Tx Unit :=
  require (sender = controller ∨ s.isOperator controller sender = true ∨
    (s.hasRole .claimOperator sender = true ∧ s.autoClaimEnabled controller = true ∧ receiver = controller))
    (.custom .notAuthorized)

/-- The end of both claims: burn the escrowed shares, release the ledgers and pay. -/
def payClaim (d : Deployment) (s : State) (store : QueueStore) (shares assets : Nat) (receiver : Address) :
    Tx State := do
  let bil ← s.bil.burn d.self shares
  let totalQueuedBil ← checkedSub s.totalQueuedBil shares
  let totalSettledBil ← checkedSub s.totalSettledBil shares
  let totalReservedHollar ← checkedSub s.totalReservedHollar assets
  let token ← s.token.transfer d.self receiver assets
  return { s with toQueueStore := store, bil, totalQueuedBil, totalSettledBil, totalReservedHollar, token }

def redeem (d : Deployment) (s : State) (sender : Address) (shares : Nat) (receiver controller : Address) :
    Tx (State × Nat) := do
  whenNotPaused s
  require (shares ≠ 0) (.custom .zeroAmount)
  require (receiver ≠ 0) (.custom .zeroAddress)
  authorizeClaim s sender receiver controller
  let (store, assets) ← claimByShares s.toQueueStore controller shares
  let s ← payClaim d s store shares assets receiver
  return (s, assets)

def withdraw (d : Deployment) (s : State) (sender : Address) (assets : Nat) (receiver controller : Address) :
    Tx (State × Nat) := do
  whenNotPaused s
  require (assets ≠ 0) (.custom .zeroAmount)
  require (receiver ≠ 0) (.custom .zeroAddress)
  authorizeClaim s sender receiver controller
  let (store, shares, assets) ← claimByAssets s.toQueueStore controller assets
  let s ← payClaim d s store shares assets receiver
  return (s, shares)

/-! ## The lifecycle of a position -/

/-- A payout credited to idle HOLLAR: the amount recorded for it and the amount received. -/
structure Payout where
  positionIndex : Nat
  ofPrincipal : Bool
  expected : Nat
  received : Nat
  deriving Repr, DecidableEq

/-- Where a lifecycle branch leaves: the state, its payouts, and whether it returned early. -/
structure Flow where
  state : State
  payouts : List Payout
  left : Bool

/-- The next branch, unless the branches before it returned. -/
def Flow.andThen (a : Flow) (next : State → Tx Flow) : Tx Flow :=
  if a.left then return a
  else do
    let b ← next a.state
    return { b with payouts := a.payouts ++ b.payouts }

def setPosition (s : State) (i : Nat) (pos : NFTPosition) : State :=
  { s with positions := s.positions.set i pos }

/-- Active → YieldWithdrawalRequested, or directly → YieldClaimed without yield. -/
def requestYieldBranch (env : Replies) (pool : Address) (i : Nat) (s : State) : Tx Flow := do
  let pos ← readAt s.positions i
  if pos.state = .active ∧ pos.maturityTime ≤ s.now then
    -- overdue but not capped: the sync of this call ran out before this position
    if pos.yieldCapped = false then return ⟨s, [], true⟩
    else if pos.pendingYield = 0 then return ⟨setPosition s i { pos with state := .yieldClaimed }, [], false⟩
    else if (env.pool pool).requestYieldWithdrawal = true then
      return ⟨setPosition s i { pos with state := .yieldWithdrawalRequested }, [], false⟩
    else return ⟨s, [], true⟩
  else return ⟨s, [], false⟩

/-- The circuit breaker: a shortfall of more basis points than the threshold reverts. -/
def requireNoDrift (s : State) (expected received : Nat) (error : Nat → VaultError) : Tx Unit :=
  if 0 < expected ∧ received < expected then do
    let missing ← checkedSub expected received
    let scaled ← checkedMul missing 10000
    let shortfallBps ← checkedDiv scaled expected
    require (shortfallBps ≤ s.principalMismatchBpsThreshold) (.custom (error shortfallBps))
  else return ()

/-- The signed difference the mismatch event carries. -/
def mismatchDelta (received expected : Nat) : Tx Int :=
  if received ≠ expected then checkedDelta received expected else return 0

/-- YieldWithdrawalRequested → YieldClaimed. -/
def executeYieldBranch (d : Deployment) (env : Replies) (pool : Address) (i : Nat) (s : State) : Tx Flow := do
  let pos ← readAt s.positions i
  if pos.state = .yieldWithdrawalRequested then
    -- a refusal leaves the position in its state for the next poke
    match poolPay d (env.pool pool).executeYieldWithdrawal s.token pool with
    | none => return ⟨s, [], true⟩
    | some token => do
      let yieldReceived ← checkedSub (token.balanceOf d.self) (s.token.balanceOf d.self)
      let totalPendingYield ← checkedSub s.totalPendingYield pos.pendingYield
      let idleHollar ← checkedAdd s.idleHollar yieldReceived
      let after := setPosition { s with token, totalPendingYield, idleHollar } i
        { pos with pendingYield := 0, state := .yieldClaimed }
      requireNoDrift after pos.pendingYield yieldReceived (.yieldDriftTooLarge i pos.pendingYield yieldReceived)
      return ⟨after, [⟨i, false, pos.pendingYield, yieldReceived⟩], false⟩
  else return ⟨s, [], false⟩

/-- YieldClaimed → PrincipalWithdrawalRequested. -/
def requestPrincipalBranch (env : Replies) (pool : Address) (i : Nat) (s : State) : Tx Flow := do
  let pos ← readAt s.positions i
  if pos.state = .yieldClaimed then
    if (env.pool pool).requestPrincipalWithdrawal = true then
      return ⟨setPosition s i { pos with state := .principalWithdrawalRequested }, [], false⟩
    else return ⟨s, [], true⟩
  else return ⟨s, [], false⟩

/-- Offer the idle HOLLAR to the queue after a redemption. -/
def distribute (s : State) : Tx State :=
  if 0 < s.totalQueuedBil ∧ 0 < s.idleHollar ∧ hasMaturedBacklog s = false then do
    let rate ← exchangeRate s
    let (s, _) ← processQueueWithHollar s s.idleHollar rate
    return s
  else return s

/-- PrincipalWithdrawalRequested → Redeemed. -/
def executePrincipalBranch (d : Deployment) (env : Replies) (pool : Address) (i : Nat) (s : State) : Tx Flow := do
  let pos ← readAt s.positions i
  if pos.state = .principalWithdrawalRequested then
    match poolPay d (env.pool pool).executePrincipalWithdrawal s.token pool with
    | none => return ⟨s, [], true⟩
    | some token => do
      let principalReceived ← checkedSub (token.balanceOf d.self) (s.token.balanceOf d.self)
      let _ ← mismatchDelta principalReceived pos.principal
      let totalInvestedPrincipal ← checkedSub s.totalInvestedPrincipal pos.principal
      let idleHollar ← checkedAdd s.idleHollar principalReceived
      let after := setPosition { s with token, totalInvestedPrincipal, idleHollar } i { pos with state := .redeemed }
      let after ← distribute (sweepPositionHead after)
      -- the guard on the expected amount is the yield branch's; a shortfall implies it
      requireNoDrift after pos.principal principalReceived (.principalDriftTooLarge i pos.principal principalReceived)
      return ⟨after, [⟨i, true, pos.principal, principalReceived⟩], false⟩
  else return ⟨s, [], false⟩

def pokeDecentral (d : Deployment) (env : Replies) (s : State) (positionIndex : Nat) :
    Tx (State × List Payout) := do
  whenNotPaused s
  let pos ← readAt s.positions positionIndex
  require (pos.state ≠ .redeemed) (.custom .positionAlreadyRedeemed)
  let (s, _) ← syncMaturities s maxMaturitySync
  let pool := s.positionPool positionIndex
  let flow ← requestYieldBranch env pool positionIndex s
  let flow ← flow.andThen (executeYieldBranch d env pool positionIndex)
  let flow ← flow.andThen (requestPrincipalBranch env pool positionIndex)
  let flow ← flow.andThen (executePrincipalBranch d env pool positionIndex)
  return (flow.state, flow.payouts)

/-! ## The queue poke -/

/-- The idle HOLLAR, up to what the cap on principal leaves. -/
def reinvestAmount (s : State) : Tx Nat := do
  let after ← checkedAdd s.totalInvestedPrincipal s.idleHollar
  if s.tvlCap < after then checkedSub s.tvlCap s.totalInvestedPrincipal else return s.idleHollar

/-- `_reinvest`. A refusal of the pool leaves the HOLLAR idle. -/
def reinvest (d : Deployment) (env : Replies) (s : State) : Tx State :=
  if s.tvlCap ≤ s.totalInvestedPrincipal then return s
  else do
    let amount ← reinvestAmount s
    if amount < s.minReinvestAmount then return s
    else do
      let (s, ok) ← depositIntoDecentral d env s amount
      if ok = true then do
        let idleHollar ← checkedSub s.idleHollar amount
        return { s with idleHollar }
      else return s

def pokeQueue (d : Deployment) (env : Replies) (s : State) : Tx State := do
  whenNotPaused s
  let s ← syncBeforeRateSensitiveAction s
  let rate ← exchangeRate s
  let (s, hollarUsed, _) ← processQueueWithHollar s s.idleHollar rate
  let s := sweepPositionHead s
  -- no HOLLAR used stands for a queue that cannot progress
  if hollarUsed = 0 ∧ s.minReinvestAmount ≤ s.idleHollar ∧ s.depositsPaused = false then reinvest d env s
  else return s

/-! ## Settings of one account -/

def setOperator (s : State) (sender operator : Address) (approved : Bool) : Tx State := do
  require (operator ≠ 0) (.custom .zeroAddress)
  return { s with
    isOperator := Function.update s.isOperator sender (Function.update (s.isOperator sender) operator approved) }

def setAutoClaim (s : State) (sender : Address) (enabled : Bool) : State :=
  { s with autoClaimEnabled := Function.update s.autoClaimEnabled sender enabled }

/-! ## Administration -/

def setDepositsPaused (s : State) (sender : Address) (value : Bool) : Tx State := do
  onlyAdminOrGuardian s sender
  return { s with depositsPaused := value }

def pauseDeposits (s : State) (sender : Address) : Tx State := setDepositsPaused s sender true
def unpauseDeposits (s : State) (sender : Address) : Tx State := setDepositsPaused s sender false

def pause (s : State) (sender : Address) : Tx State := do
  onlyAdminOrGuardian s sender
  whenNotPaused s
  return { s with paused := true }

def unpause (s : State) (sender : Address) : Tx State := do
  onlyAdminOrGuardian s sender
  whenPaused s
  return { s with paused := false }

def setTvlCap (s : State) (sender : Address) (newCap : Nat) : Tx State := do
  onlyRole s .admin sender
  let total ← totalAssets s
  require (total ≤ newCap) (.custom .capBelowAssets)
  return { s with tvlCap := newCap }

/-- Zero is accepted, unlike for the redemption minimum. -/
def setMinReinvestAmount (s : State) (sender : Address) (amount : Nat) : Tx State := do
  onlyRole s .admin sender
  return { s with minReinvestAmount := amount }

def setMinRedeemAmount (s : State) (sender : Address) (amount : Nat) : Tx State := do
  onlyRole s .admin sender
  require (amount ≠ 0) (.custom .minMustBePositive)
  return { s with minRedeemAmount := amount }

def setOracle (env : Replies) (s : State) (sender oracle : Address) : Tx State := do
  onlyRole s .admin sender
  require (oracle ≠ 0) (.custom .zeroAddress)
  validateOracle (env.feed oracle)
  return { s with oracle }

def setPrincipalMismatchBpsThreshold (s : State) (sender : Address) (bps : Nat) : Tx State := do
  onlyRole s .admin sender
  require (bps ≤ 10000) (.custom .bpsAboveMax)
  return { s with principalMismatchBpsThreshold := bps }

def registerPoolCall (env : Replies) (s : State) (sender newPool : Address) : Tx State := do
  onlyRole s .admin sender
  let registry ← registerPool (env.pool newPool) s.toRegistry newPool s.hollar 0
  return { s with toRegistry := registry }

def setActiveDepositPool (s : State) (sender pool : Address) : Tx State := do
  onlyRole s .admin sender
  require (s.isPoolRegistered pool = true) (.custom .poolNotRegistered)
  return { s with activeDepositPool := pool }

def retirePool (env : Replies) (s : State) (sender pool : Address) : Tx State := do
  onlyRole s .admin sender
  require (s.isPoolRegistered pool = true) (.custom .poolNotRegistered)
  require (pool ≠ s.activeDepositPool) (.custom .cannotRetireActivePool)
  let pools ← removePool s.positions s.positionPool s.pools s.positionHead pool
  let poolToken ← returned (env.pool pool).poolToken
  return { s with
    pools
    isPoolRegistered := Function.update s.isPoolRegistered pool false
    isRegisteredPoolToken := Function.update s.isRegisteredPoolToken poolToken false }

/-! ## Roles -/

def setRole (s : State) (role : Role) (account : Address) (value : Bool) : State :=
  { s with hasRole := Function.update s.hasRole role (Function.update (s.hasRole role) account value) }

def grantRole (s : State) (sender : Address) (role : Role) (account : Address) : Tx State := do
  onlyRole s .defaultAdmin sender
  return setRole s role account true

def revokeRole (s : State) (sender : Address) (role : Role) (account : Address) : Tx State := do
  onlyRole s .defaultAdmin sender
  return setRole s role account false

def renounceRole (s : State) (sender : Address) (role : Role) (account : Address) : Tx State := do
  require (account = sender) (.reason "AccessControl: can only renounce roles for self")
  return setRole s role account false

end MoneyMarket
