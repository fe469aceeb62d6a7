/-
The storage of the vault, what its counterparties answer, and its errors. The storage is split
the way the contract's own sections are: the pool registry, the mutable settings, the access
tables, the positions with their yield aggregates, and the redemption queue with its ledgers.
The state of the system adds the token ledgers of BIL and HOLLAR and the block time.
-/
import MoneyMarket.Evm.ERC20

namespace MoneyMarket

open Evm

/-! ## Constants -/

def wad : Nat := 10 ^ 18
def secondsPerYear : Nat := 365 * 24 * 60 * 60
/-- Minted to the dead address on the first deposit. -/
def deadShares : Nat := 1000
def deadAddress : Address := 0xdead
def maxQueueIterations : Nat := 50
def maxQueueSkips : Nat := 500
def maxPositionHeadSweep : Nat := 50
def maxMaturitySync : Nat := 50

/-! ## Errors -/

inductive VaultError where
  | depositsArePaused
  | zeroAmount
  | zeroAddress
  | exceedsTvlCap
  | positionAlreadyRedeemed
  | notRequestOwner
  | requestNotActive
  | invalidRequestId
  | belowMinimumRedeem
  | insufficientClaimable
  | depositTooSmall
  | vaultEmpty
  | oracleNotSet
  | oracleInvalidAnswer
  | oracleRoundIncomplete
  | oracleStaleRound
  | oracleDecimalsOutOfRange
  | notAdminOrGuardian
  | notAuthorized
  | capBelowAssets
  | minMustBePositive
  | poolNotRegistered
  | cannotRetireActivePool
  | poolAlreadyRegistered
  | poolWrongStablecoin
  | poolNoNFTContract
  | poolTokenMismatch
  | onlyPoolNFTs
  | poolHasOpenPositions
  | principalDriftTooLarge (positionIndex expected received shortfallBps : Nat)
  | yieldDriftTooLarge (positionIndex expected received shortfallBps : Nat)
  | bpsAboveMax
  | maturityBacklog
  | decentralDepositFailed
  /-- The role check of the access-control base contract. -/
  | missingRole
  deriving Repr, DecidableEq

/-- A call of the vault: a value, or the revert that undoes it. -/
abbrev Tx := Except (Revert VaultError)

/-! ## Records -/

inductive NFTState where
  | active
  | yieldWithdrawalRequested
  | yieldClaimed
  | principalWithdrawalRequested
  | redeemed
  deriving Repr, DecidableEq

structure NFTPosition where
  tokenId : Nat
  principal : Nat
  apyWad : Nat
  depositTime : Nat
  maturityTime : Nat
  yieldStartTime : Nat
  state : NFTState
  yieldCapped : Bool
  pendingYield : Nat
  deriving Repr, DecidableEq

/-- A queued redemption request; the zero record is an empty or deleted slot. -/
structure Request where
  user : Address
  bilAmount : Nat
  bilSettled : Nat
  hollarOwed : Nat
  deriving Repr, DecidableEq

def Request.empty : Request := ⟨0, 0, 0, 0⟩

inductive Role where
  | defaultAdmin
  | admin
  | upgrader
  | guardian
  | claimOperator
  deriving Repr, DecidableEq

/-! ## Storage -/

structure Registry where
  hollar : Address
  activeDepositPool : Address
  pools : List Address
  isPoolRegistered : Address → Bool
  isRegisteredPoolToken : Address → Bool

structure Settings where
  tvlCap : Nat
  depositsPaused : Bool
  minReinvestAmount : Nat
  minRedeemAmount : Nat
  oracle : Address
  principalMismatchBpsThreshold : Nat
  paused : Bool

structure Access where
  hasRole : Role → Address → Bool
  isOperator : Address → Address → Bool
  autoClaimEnabled : Address → Bool

/-- The positions, the pool each belongs to, and the aggregates over them. -/
structure Book where
  positions : List NFTPosition
  positionPool : Nat → Address
  positionHead : Nat
  maturityHeap : List Nat
  totalInvestedPrincipal : Nat
  yieldRateSum : Nat
  yieldOffsetSum : Nat
  totalPendingYield : Nat

/-- The two maps the queue walks write. -/
structure QueueStore where
  redemptionQueue : Nat → Request
  settledByController : Address → List Nat

structure Redemptions extends QueueStore where
  queueHead : Nat
  queueTail : Nat
  totalQueuedBil : Nat
  totalReservedHollar : Nat
  totalSettledBil : Nat

/-- The vault with the ledgers of its two tokens and the time of the current block. -/
structure State extends Registry, Settings, Access, Book, Redemptions where
  idleHollar : Nat
  /-- The vault's own share token. -/
  bil : ERC20
  /-- The ledger of the HOLLAR token. -/
  token : ERC20
  now : Nat

/-! ## Counterparties -/

/-- What a pool answers in one call of the vault, `none` or `false` being a revert. No call of
the vault reaches one entry point of a pool twice. A pool does not call the vault back. -/
structure PoolReply where
  stablecoin : Option Address
  poolToken : Option Address
  fixedAPYWad : Option Nat
  minimumInvestmentPeriodSeconds : Option Nat
  /-- The token id it returns and the HOLLAR it pulls from the vault. -/
  deposit : Option (Nat × Nat)
  requestYieldWithdrawal : Bool
  /-- The HOLLAR it pays. -/
  executeYieldWithdrawal : Option Nat
  requestPrincipalWithdrawal : Bool
  /-- The HOLLAR it pays. -/
  executePrincipalWithdrawal : Option Nat

structure RoundData where
  roundId : Nat
  answer : Int
  startedAt : Nat
  updatedAt : Nat
  answeredInRound : Nat

/-- What a price feed answers. -/
structure FeedReply where
  latestRoundData : Option RoundData
  decimals : Option Nat

/-- What the code outside the vault answers during one call. -/
structure Replies where
  pool : Address → PoolReply
  feed : Address → FeedReply

/-- Where the vault lives: `address(this)`. -/
structure Deployment where
  self : Address
  self_ne_zero : self ≠ 0
  self_ne_dead : self ≠ deadAddress

end MoneyMarket
