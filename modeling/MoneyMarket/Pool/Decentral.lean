/-
A Decentral pool and its NFT. A deposit mints a token; the yield of a token and its principal are
each withdrawn in three steps: its owner requests, Decentral approves, its owner executes. Every
function either reverts or gives the state it leaves.
-/
import MoneyMarket.Evm.ERC20

namespace MoneyMarket

open Evm

/-! ## Requests -/

/-- `pending` is the source's `exists`. -/
structure YieldWithdrawalRequest where
  amount : Nat
  requestTimestamp : Nat
  pending : Bool
  approved : Bool
  deriving Repr, DecidableEq

def YieldWithdrawalRequest.empty : YieldWithdrawalRequest := ⟨0, 0, false, false⟩

structure PrincipalWithdrawalRequest where
  amount : Nat
  requestTimestamp : Nat
  availableTimestamp : Nat
  pending : Bool
  approved : Bool
  deriving Repr, DecidableEq

def PrincipalWithdrawalRequest.empty : PrincipalWithdrawalRequest := ⟨0, 0, 0, false, false⟩

/-- The requests of all tokens, which every account can read. -/
structure Requests where
  yieldWithdrawalRequests : Nat → YieldWithdrawalRequest
  principalWithdrawalRequests : Nat → PrincipalWithdrawalRequest

def Requests.getYieldWithdrawalRequest (r : Requests) (tokenId : Nat) : YieldWithdrawalRequest :=
  r.yieldWithdrawalRequests tokenId

def Requests.getPrincipalWithdrawalRequest (r : Requests) (tokenId : Nat) : PrincipalWithdrawalRequest :=
  r.principalWithdrawalRequests tokenId

/-! ## The two contracts -/

structure MockPosition where
  depositor : Address
  principal : Nat
  depositTime : Nat
  lastYieldPayoutTime : Nat
  rewardDebt : Nat
  deriving Repr, DecidableEq

def MockPosition.empty : MockPosition := ⟨0, 0, 0, 0, 0⟩

structure DecentralPool extends Requests where
  stablecoin : Address
  poolToken : Address
  fixedAPYWad : Nat
  minimumInvestmentAmount : Nat
  maximumInvestmentAmount : Nat
  paymentFrequencySeconds : Nat
  minimumInvestmentPeriodSeconds : Nat
  principalWithdrawalDelaySeconds : Nat
  isShutdown : Bool
  isPaused : Bool
  revertOnRequestYield : Bool
  revertOnRequestPrincipal : Bool
  cumulativeRewardPerShare : Nat
  lastUpdateTime : Nat
  totalPrincipalShares : Nat
  mockPositions : Nat → MockPosition
  /-- What a payout of the principal is off by, and of the yield. -/
  payoutDeltaWei : Nat → Int
  yieldDeltaWei : Nat → Int

/-- The NFT contract, the zero address owning what does not exist. -/
structure PoolToken where
  owner : Nat → Address
  nextTokenId : Nat
  registeredPools : Address → Bool

/-- The pools and the NFT have no custom errors. -/
abbrev PoolTx := Except (Revert Empty)

def rewardPrecision : Nat := 10 ^ 27

/-- `SECONDS_PER_YEAR * WAD` of the pool. -/
def rewardYear : Nat := 365 * 24 * 60 * 60 * 10 ^ 18

namespace PoolToken

variable (nft : PoolToken)

def ownerOf (tokenId : Nat) : PoolTx Address := do
  require (nft.owner tokenId ≠ 0) (.reason "ERC721: invalid token ID")
  return nft.owner tokenId

def onlyPool (pool : Address) : PoolTx Unit :=
  require (nft.registeredPools pool = true) (.reason "MockPoolToken: caller is not a registered pool")

/-- `mint`. The ids count up and are never used twice. -/
def mint (pool dst : Address) : PoolTx (PoolToken × Nat) := do
  nft.onlyPool pool
  let tokenId := nft.nextTokenId
  let nextTokenId ← checkedAdd nft.nextTokenId 1
  require (dst ≠ 0) (.reason "ERC721: mint to the zero address")
  require (nft.owner tokenId = 0) (.reason "ERC721: token already minted")
  return ({ nft with owner := Function.update nft.owner tokenId dst, nextTokenId }, tokenId)

def burn (pool : Address) (tokenId : Nat) : PoolTx PoolToken := do
  nft.onlyPool pool
  let _ ← nft.ownerOf tokenId
  return { nft with owner := Function.update nft.owner tokenId 0 }

end PoolToken

namespace DecentralPool

variable (p : DecentralPool)

/-! ## Accrual -/

/-- `_updateRewardAccrual`. -/
def updateRewardAccrual (now : Nat) : PoolTx DecentralPool :=
  if p.totalPrincipalShares = 0 then return { p with lastUpdateTime := now }
  else do
    let elapsed ← checkedSub now p.lastUpdateTime
    if elapsed = 0 then return p
    else do
      let rate ← checkedMul p.totalPrincipalShares p.fixedAPYWad
      let gross ← checkedMul rate elapsed
      let rewardAccrued := gross / rewardYear
      if 0 < rewardAccrued then do
        let scaled ← checkedMul rewardAccrued rewardPrecision
        let cumulativeRewardPerShare ← checkedAdd p.cumulativeRewardPerShare (scaled / p.totalPrincipalShares)
        return { p with cumulativeRewardPerShare, lastUpdateTime := now }
      else return { p with lastUpdateTime := now }

/-! ## Deposits -/

/-- `deposit`; the caller's HOLLAR is pulled beside it. -/
def deposit (nft : PoolToken) (self sender : Address) (now amount : Nat) :
    PoolTx (DecentralPool × PoolToken × Nat) := do
  require (p.isPaused = false) (.reason "Pool paused")
  require (p.isShutdown = false) (.reason "Pool shutdown")
  require (0 < amount) (.reason "Amount must be > 0")
  require (p.minimumInvestmentAmount ≤ amount) (.reason "Below minimum investment")
  require (amount ≤ p.maximumInvestmentAmount) (.reason "Above maximum investment")
  let p ← p.updateRewardAccrual now
  let rewardDebt ← checkedMul amount p.cumulativeRewardPerShare
  let totalPrincipalShares ← checkedAdd p.totalPrincipalShares amount
  let (nft, tokenId) ← nft.mint self sender
  return ({ p with
    totalPrincipalShares
    mockPositions := Function.update p.mockPositions tokenId
      { depositor := sender, principal := amount, depositTime := now, lastYieldPayoutTime := now, rewardDebt } },
    nft, tokenId)

/-! ## Withdrawals -/

def onlyTokenOwner (nft : PoolToken) (sender : Address) (tokenId : Nat) : PoolTx Unit := do
  let owner ← nft.ownerOf tokenId
  require (owner = sender) (.reason "Not token owner")

def requestYieldWithdrawal (nft : PoolToken) (sender : Address) (now tokenId : Nat) : PoolTx DecentralPool := do
  require (p.revertOnRequestYield = false) (.reason "Test: requestYield reverted")
  require (p.isPaused = false) (.reason "Pool paused")
  require (p.isShutdown = false) (.reason "Pool shutdown")
  onlyTokenOwner nft sender tokenId
  require ((p.yieldWithdrawalRequests tokenId).pending = false) (.reason "Yield request already pending")
  let pos := p.mockPositions tokenId
  let dueAt ← checkedAdd pos.lastYieldPayoutTime p.paymentFrequencySeconds
  require (dueAt ≤ now) (.reason "Payment frequency not met")
  let p ← p.updateRewardAccrual now
  let totalEarned ← checkedMul pos.principal p.cumulativeRewardPerShare
  let earned ← checkedSub totalEarned pos.rewardDebt
  let yieldToWithdraw := earned / rewardPrecision
  require (0 < yieldToWithdraw) (.reason "No yield to withdraw")
  return { p with
    yieldWithdrawalRequests := Function.update p.yieldWithdrawalRequests tokenId
      { amount := yieldToWithdraw, requestTimestamp := now, pending := true, approved := false } }

/-- `_applyPayoutDelta`, `_applyYieldDelta`. -/
def applyDelta (delta : Int) (amount : Nat) : PoolTx Nat :=
  if delta = 0 then return amount
  else if 0 < delta then checkedAdd amount delta.toNat
  else return if amount ≤ (-delta).toNat then 0 else amount - (-delta).toNat

/-- `executeYieldWithdrawal`, and what it pays the caller. -/
def executeYieldWithdrawal (nft : PoolToken) (self sender : Address) (now tokenId : Nat) :
    PoolTx (DecentralPool × Nat) := do
  require (p.isPaused = false) (.reason "Pool paused")
  require (p.isShutdown = false) (.reason "Pool shutdown")
  onlyTokenOwner nft sender tokenId
  let req := p.yieldWithdrawalRequests tokenId
  require (req.pending = true) (.reason "No yield request")
  require (req.approved = true) (.reason "Yield not approved")
  let p ← p.updateRewardAccrual now
  let scaled ← checkedMul req.amount rewardPrecision
  let rewardDebt ← checkedAdd (p.mockPositions tokenId).rewardDebt scaled
  nft.onlyPool self
  let paid ← applyDelta (p.yieldDeltaWei tokenId) req.amount
  return ({ p with
    mockPositions := Function.update p.mockPositions tokenId
      { p.mockPositions tokenId with rewardDebt, lastYieldPayoutTime := now }
    yieldWithdrawalRequests := Function.update p.yieldWithdrawalRequests tokenId .empty }, paid)

def requestPrincipalWithdrawal (nft : PoolToken) (sender : Address) (now tokenId : Nat) : PoolTx DecentralPool := do
  require (p.revertOnRequestPrincipal = false) (.reason "Test: requestPrincipal reverted")
  require (p.isPaused = false) (.reason "Pool paused")
  require (p.isShutdown = false) (.reason "Pool shutdown")
  onlyTokenOwner nft sender tokenId
  require ((p.principalWithdrawalRequests tokenId).pending = false) (.reason "Principal request already pending")
  let pos := p.mockPositions tokenId
  let dueAt ← checkedAdd pos.depositTime p.minimumInvestmentPeriodSeconds
  require (dueAt ≤ now) (.reason "Min investment period not met")
  let p ← p.updateRewardAccrual now
  let availableTimestamp ← checkedAdd now p.principalWithdrawalDelaySeconds
  return { p with
    principalWithdrawalRequests := Function.update p.principalWithdrawalRequests tokenId
      { amount := pos.principal, requestTimestamp := now, availableTimestamp, pending := true, approved := false } }

/-- `executePrincipalWithdrawal`, and what it pays the caller. A shutdown does not stop it. -/
def executePrincipalWithdrawal (nft : PoolToken) (self sender : Address) (now tokenId : Nat) :
    PoolTx (DecentralPool × PoolToken × Nat) := do
  require (p.isPaused = false) (.reason "Pool paused")
  onlyTokenOwner nft sender tokenId
  let req := p.principalWithdrawalRequests tokenId
  require (req.pending = true) (.reason "No principal request")
  require (req.approved = true) (.reason "Principal not approved")
  require (req.availableTimestamp ≤ now) (.reason "Delay not elapsed")
  let p ← p.updateRewardAccrual now
  let totalPrincipalShares ← checkedSub p.totalPrincipalShares req.amount
  let paid ← applyDelta (p.payoutDeltaWei tokenId) req.amount
  let nft ← nft.burn self tokenId
  return ({ p with
    totalPrincipalShares
    principalWithdrawalRequests := Function.update p.principalWithdrawalRequests tokenId .empty
    mockPositions := Function.update p.mockPositions tokenId .empty }, nft, paid)

/-! ## Approvals -/

def approveYieldWithdrawal (tokenId : Nat) : PoolTx DecentralPool := do
  let req := p.yieldWithdrawalRequests tokenId
  require (req.pending = true) (.reason "No yield request")
  require (req.approved = false) (.reason "Already approved")
  return { p with
    yieldWithdrawalRequests := Function.update p.yieldWithdrawalRequests tokenId { req with approved := true } }

def approvePrincipalWithdrawal (tokenId : Nat) : PoolTx DecentralPool := do
  let req := p.principalWithdrawalRequests tokenId
  require (req.pending = true) (.reason "No principal request")
  require (req.approved = false) (.reason "Already approved")
  return { p with
    principalWithdrawalRequests :=
      Function.update p.principalWithdrawalRequests tokenId { req with approved := true } }

/-- Unlike the single approval, it takes a request approved before. -/
def batchApproveYieldWithdrawals : DecentralPool → List Nat → PoolTx DecentralPool
  | p, [] => return p
  | p, tokenId :: tokenIds => do
    let req := p.yieldWithdrawalRequests tokenId
    require (req.pending = true) (.reason "No yield request")
    batchApproveYieldWithdrawals { p with
      yieldWithdrawalRequests := Function.update p.yieldWithdrawalRequests tokenId { req with approved := true } }
      tokenIds

def batchApprovePrincipalWithdrawals : DecentralPool → List Nat → PoolTx DecentralPool
  | p, [] => return p
  | p, tokenId :: tokenIds => do
    let req := p.principalWithdrawalRequests tokenId
    require (req.pending = true) (.reason "No principal request")
    batchApprovePrincipalWithdrawals { p with
      principalWithdrawalRequests :=
        Function.update p.principalWithdrawalRequests tokenId { req with approved := true } } tokenIds

/-- The constructor. -/
def construct (stablecoin poolToken : Address) (apyWad now : Nat) : DecentralPool where
  yieldWithdrawalRequests _ := .empty
  principalWithdrawalRequests _ := .empty
  stablecoin
  poolToken
  fixedAPYWad := apyWad
  minimumInvestmentAmount := 10 * 10 ^ 18
  maximumInvestmentAmount := uintSize - 1
  paymentFrequencySeconds := 24 * 60 * 60
  minimumInvestmentPeriodSeconds := 60 * 24 * 60 * 60
  principalWithdrawalDelaySeconds := 48 * 60 * 60
  isShutdown := false
  isPaused := false
  revertOnRequestYield := false
  revertOnRequestPrincipal := false
  cumulativeRewardPerShare := 0
  lastUpdateTime := now
  totalPrincipalShares := 0
  mockPositions _ := .empty
  payoutDeltaWei _ := 0
  yieldDeltaWei _ := 0

end DecentralPool

/-! ## Transactions -/

/-- A pool with its NFT and the ledger of its stablecoin. -/
structure Side where
  pool : DecentralPool
  nft : PoolToken
  token : ERC20

/-- What a pool and its NFT record of one token. -/
structure Slot where
  owner : Address
  principal : Nat
  depositTime : Nat
  yieldPending : Bool
  exitPending : Bool
  exitAmount : Nat
  deriving Repr, DecidableEq

/-- A token never minted, or burned. -/
def Slot.empty : Slot := ⟨0, 0, 0, false, false, 0⟩

def Side.slot (s : Side) (t : Nat) : Slot where
  owner := s.nft.owner t
  principal := (s.pool.mockPositions t).principal
  depositTime := (s.pool.mockPositions t).depositTime
  yieldPending := (s.pool.yieldWithdrawalRequests t).pending
  exitPending := (s.pool.principalWithdrawalRequests t).pending
  exitAmount := (s.pool.principalWithdrawalRequests t).amount

/-- Who calls the pool at `self`, and when. -/
structure Visit where
  self : Address
  sender : Address
  now : Nat

/-- The functions of a pool that write; the setters are open to all in this pool. -/
inductive PoolCall where
  | deposit (amount : Nat)
  | requestYieldWithdrawal (tokenId : Nat)
  | executeYieldWithdrawal (tokenId : Nat)
  | requestPrincipalWithdrawal (tokenId : Nat)
  | executePrincipalWithdrawal (tokenId : Nat)
  | approveYieldWithdrawal (tokenId : Nat)
  | approvePrincipalWithdrawal (tokenId : Nat)
  | batchApproveYieldWithdrawals (tokenIds : List Nat)
  | batchApprovePrincipalWithdrawals (tokenIds : List Nat)
  | setPayoutDelta (tokenId : Nat) (delta : Int)
  | setYieldDelta (tokenId : Nat) (delta : Int)
  | setAPY (newAPY : Nat)
  | setMinimumInvestmentAmount (amount : Nat)
  | setMaximumInvestmentAmount (amount : Nat)
  | setPaused (value : Bool)
  | setShutdown (value : Bool)
  | setRevertOnRequestYield (value : Bool)
  | setRevertOnRequestPrincipal (value : Bool)
  | setMinimumInvestmentPeriodSeconds (seconds : Nat)
  | setPrincipalWithdrawalDelaySeconds (seconds : Nat)
  | fundPool (amount : Nat)
  deriving Repr, DecidableEq

/-- What a call leaves, and the token id or the HOLLAR it gives its caller. -/
def PoolCall.run (v : Visit) (s : Side) : PoolCall → PoolTx (Side × Nat)
  | .deposit amount => do
    let (pool, nft, tokenId) ← s.pool.deposit s.nft v.self v.sender v.now amount
    let token ← s.token.transferFrom v.self v.sender v.self amount
    return (⟨pool, nft, token⟩, tokenId)
  | .requestYieldWithdrawal tokenId => do
    return ({ s with pool := ← s.pool.requestYieldWithdrawal s.nft v.sender v.now tokenId }, 0)
  | .executeYieldWithdrawal tokenId => do
    let (pool, paid) ← s.pool.executeYieldWithdrawal s.nft v.self v.sender v.now tokenId
    let token ← s.token.transfer v.self v.sender paid
    return ({ s with pool, token }, paid)
  | .requestPrincipalWithdrawal tokenId => do
    return ({ s with pool := ← s.pool.requestPrincipalWithdrawal s.nft v.sender v.now tokenId }, 0)
  | .executePrincipalWithdrawal tokenId => do
    let (pool, nft, paid) ← s.pool.executePrincipalWithdrawal s.nft v.self v.sender v.now tokenId
    let token ← s.token.transfer v.self v.sender paid
    return (⟨pool, nft, token⟩, paid)
  | .approveYieldWithdrawal tokenId => do return ({ s with pool := ← s.pool.approveYieldWithdrawal tokenId }, 0)
  | .approvePrincipalWithdrawal tokenId => do
    return ({ s with pool := ← s.pool.approvePrincipalWithdrawal tokenId }, 0)
  | .batchApproveYieldWithdrawals tokenIds => do
    return ({ s with pool := ← s.pool.batchApproveYieldWithdrawals tokenIds }, 0)
  | .batchApprovePrincipalWithdrawals tokenIds => do
    return ({ s with pool := ← s.pool.batchApprovePrincipalWithdrawals tokenIds }, 0)
  | .setPayoutDelta tokenId delta =>
    .ok ({ s with pool.payoutDeltaWei := Function.update s.pool.payoutDeltaWei tokenId delta }, 0)
  | .setYieldDelta tokenId delta =>
    .ok ({ s with pool.yieldDeltaWei := Function.update s.pool.yieldDeltaWei tokenId delta }, 0)
  | .setAPY newAPY => .ok ({ s with pool.fixedAPYWad := newAPY }, 0)
  | .setMinimumInvestmentAmount amount => .ok ({ s with pool.minimumInvestmentAmount := amount }, 0)
  | .setMaximumInvestmentAmount amount => .ok ({ s with pool.maximumInvestmentAmount := amount }, 0)
  | .setPaused value => .ok ({ s with pool.isPaused := value }, 0)
  | .setShutdown value => .ok ({ s with pool.isShutdown := value }, 0)
  | .setRevertOnRequestYield value => .ok ({ s with pool.revertOnRequestYield := value }, 0)
  | .setRevertOnRequestPrincipal value => .ok ({ s with pool.revertOnRequestPrincipal := value }, 0)
  | .setMinimumInvestmentPeriodSeconds seconds =>
    .ok ({ s with pool.minimumInvestmentPeriodSeconds := seconds }, 0)
  | .setPrincipalWithdrawalDelaySeconds seconds =>
    .ok ({ s with pool.principalWithdrawalDelaySeconds := seconds }, 0)
  | .fundPool amount => do return ({ s with token := ← s.token.transferFrom v.self v.sender v.self amount }, 0)

/-- `try`: a call that reverts, or that its share of the gas does not cover, leaves nothing. -/
def Side.attempt (v : Visit) (gas : Bool) (s : Side) (c : PoolCall) : Side × Option Nat :=
  match gas, c.run v s with
  | true, .ok (s, given) => (s, some given)
  | _, _ => (s, none)

end MoneyMarket
