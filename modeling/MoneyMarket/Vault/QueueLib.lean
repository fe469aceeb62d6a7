/-
The vault's linked library, function by function: the maturity heap, the sweeps, the pool
registry, queue settlement and the two claim walks. Loops run a pass of their body until it
stops, with more fuel than they have passes.
-/
import MoneyMarket.Evm.Loop
import MoneyMarket.Lib.Heap
import MoneyMarket.Vault.State

namespace MoneyMarket

open Evm

/-! ## Maturities -/

/-- A heap entry: the maturity above the position index. -/
def packEntry (maturityTime positionIndex : Nat) : Nat := maturityTime <<< 128 ||| positionIndex
def entryMaturity (entry : Nat) : Nat := entry >>> 128
/-- `uint128(entry)`. -/
def entryIndex (entry : Nat) : Nat := entry % 2 ^ 128

def pushMaturity (heap : List Nat) (maturityTime positionIndex : Nat) : Tx (List Nat) := do
  require (maturityTime ≤ 2 ^ 128 - 1) (.reason "maturity overflow")
  require (positionIndex ≤ 2 ^ 128 - 1) (.reason "position overflow")
  return Heap.push heap (packEntry maturityTime positionIndex)

/-- The variables of the capping loop. -/
structure MaturityRun where
  positions : List NFTPosition
  heap : List Nat
  processed : Nat
  newRateSum : Nat
  newOffsetSum : Nat
  pendingYieldAdded : Nat

/-- Lock the yield of a position at its maturity. -/
def NFTPosition.cap (pos : NFTPosition) (capped : Nat) : NFTPosition :=
  { pos with pendingYield := capped, yieldCapped := true }

def maturityPass (maxPositions timestamp denominator : Nat) (r : MaturityRun) : Tx (Pass MaturityRun) :=
  if r.processed < maxPositions ∧ 0 < r.heap.length then do
    let entry ← readAt r.heap 0
    -- the root matures first: if it is not due, nothing is
    if timestamp < entryMaturity entry then return .stop r
    else do
      let pos ← readAt r.positions (entryIndex entry)
      let rate ← checkedMul pos.apyWad pos.principal
      let elapsed ← checkedSub (entryMaturity entry) pos.yieldStartTime
      let accrued ← checkedMul rate elapsed
      let capped ← checkedDiv accrued denominator
      let newRateSum ← checkedSub r.newRateSum rate
      let offset ← checkedMul rate pos.yieldStartTime
      let newOffsetSum ← checkedSub r.newOffsetSum offset
      let pendingYieldAdded ← checkedAdd r.pendingYieldAdded capped
      return .again
        { positions := r.positions.set (entryIndex entry) (pos.cap capped), heap := Heap.pop r.heap,
          processed := r.processed + 1, newRateSum, newOffsetSum, pendingYieldAdded }
  else .ok (.stop r)

def processMaturities (positions : List NFTPosition) (heap : List Nat)
    (maxPositions timestamp rateSum offsetSum denominator : Nat) : Tx MaturityRun :=
  loop (maturityPass maxPositions timestamp denominator) (heap.length + 1)
    { positions, heap, processed := 0, newRateSum := rateSum, newOffsetSum := offsetSum, pendingYieldAdded := 0 }

/-! ## Sums and sweeps -/

/-- The claimable HOLLAR or shares of a controller's settled requests. -/
def sumSettled (queue : Nat → Request) (ids : List Nat) (controller : Address) (assets : Bool) : Tx Nat :=
  ids.foldlM (fun total i =>
    if (queue i).user = controller then
      checkedAdd total (if assets then (queue i).hollarOwed else (queue i).bilSettled)
    else .ok total) 0

def advanceQueueHead (queue : Nat → Request) (tail : Nat) : (maxIterations head : Nat) → Nat
  | 0, head => head
  | n + 1, head =>
    if head < tail ∧ (queue head).user = 0 then advanceQueueHead queue tail n (head + 1) else head

def advancePositionHead (positions : List NFTPosition) : (maxIterations head : Nat) → Nat
  | 0, head => head
  | n + 1, head =>
    match positions[head]? with
    | some pos => if pos.state = .redeemed then advancePositionHead positions n (head + 1) else head
    | none => head

/-! ## Pool registry -/

/-- Whether a position from `positionHead` on is open and belongs to the pool. -/
def hasOpenPosition (positions : List NFTPosition) (positionPool : Nat → Address) (positionHead : Nat)
    (pool : Address) : Bool :=
  (List.range positions.length).any fun i =>
    decide (positionHead ≤ i) && decide (positionPool i = pool) &&
      (positions[i]?.any fun pos => decide (pos.state ≠ .redeemed))

/-- Drop the first occurrence, the last entry taking its place. -/
def dropPool (pools : List Address) (pool : Address) : List Address :=
  match pools.findIdx? (· = pool), pools.getLast? with
  | some i, some last => (pools.set i last).dropLast
  | _, _ => pools

def removePool (positions : List NFTPosition) (positionPool : Nat → Address) (pools : List Address)
    (positionHead : Nat) (pool : Address) : Tx (List Address) := do
  require (hasOpenPosition positions positionPool positionHead pool = false) (.custom .poolHasOpenPositions)
  return dropPool pools pool

/-- The zero `expectedPoolToken` skips the match of the pool's token. -/
def registerPool (reply : PoolReply) (g : Registry) (newPool expectedStablecoin expectedPoolToken : Address) :
    Tx Registry := do
  require (newPool ≠ 0) (.custom .zeroAddress)
  require (g.isPoolRegistered newPool = false) (.custom .poolAlreadyRegistered)
  let stablecoin ← returned reply.stablecoin
  require (stablecoin = expectedStablecoin) (.custom .poolWrongStablecoin)
  let poolTokenAddr ← returned reply.poolToken
  require (poolTokenAddr ≠ 0) (.custom .poolNoNFTContract)
  require (expectedPoolToken = 0 ∨ poolTokenAddr = expectedPoolToken) (.custom .poolTokenMismatch)
  return { g with
    isPoolRegistered := Function.update g.isPoolRegistered newPool true
    isRegisteredPoolToken := Function.update g.isRegisteredPoolToken poolTokenAddr true
    pools := g.pools ++ [newPool] }

def validateOracle (candidate : FeedReply) : Tx Unit := do
  let round ← returned candidate.latestRoundData
  require (0 < round.answer) (.custom .oracleInvalidAnswer)
  require (round.updatedAt ≠ 0) (.custom .oracleRoundIncomplete)
  let decimals ← returned candidate.decimals
  require (6 ≤ decimals ∧ decimals ≤ 18) (.custom .oracleDecimalsOutOfRange)

/-- The price in 18 decimals. -/
def oraclePrice (oracle : Address) (feed : FeedReply) : Tx Nat := do
  require (oracle ≠ 0) (.custom .oracleNotSet)
  let round ← returned feed.latestRoundData
  require (0 < round.answer) (.custom .oracleInvalidAnswer)
  require (round.roundId ≠ 0 ∧ round.updatedAt ≠ 0) (.custom .oracleRoundIncomplete)
  require (round.roundId ≤ round.answeredInRound) (.custom .oracleStaleRound)
  let scaled ← checkedMul round.answer.toNat (10 ^ 18)
  let decimals ← returned feed.decimals
  let unit ← checkedPow 10 decimals
  checkedDiv scaled unit

/-! ## Settlement -/

/-- The variables of the settlement loop. -/
structure SettleRun extends QueueStore where
  newQueueHead : Nat
  hollarUsed : Nat
  bilLocked : Nat
  available : Nat
  iterations : Nat
  skips : Nat
  cursor : Nat

/-- Advance the head past the cursor while they are at the same entry. -/
def SettleRun.headPast (r : SettleRun) : Nat :=
  if r.cursor = r.newQueueHead then r.newQueueHead + 1 else r.newQueueHead

/-- Sweep past a hole or a fully settled entry. -/
def SettleRun.skip (r : SettleRun) : SettleRun :=
  { r with newQueueHead := r.headPast, cursor := r.cursor + 1, skips := r.skips + 1 }

/-- Write the settled amounts of request `i`, indexing it on its first settle. -/
def QueueStore.lock (store : QueueStore) (i bilSettled hollarOwed : Nat) : QueueStore :=
  let request := store.redemptionQueue i
  { redemptionQueue := Function.update store.redemptionQueue i { request with bilSettled, hollarOwed }
    settledByController :=
      if request.bilSettled = 0 then
        Function.update store.settledByController request.user (store.settledByController request.user ++ [i])
      else store.settledByController }

def settlePass (queueTail rate maxIterations maxSkips wad : Nat) (r : SettleRun) : Tx (Pass SettleRun) :=
  if r.cursor < queueTail ∧ r.iterations < maxIterations ∧ r.skips < maxSkips then
    let request := r.redemptionQueue r.cursor
    if request.user = 0 then .ok (.again r.skip)
    else if request.bilSettled = request.bilAmount then .ok (.again r.skip)
    else if r.available = 0 then .ok (.stop r)
    else do
      let pending ← checkedSub request.bilAmount request.bilSettled
      let scaled ← checkedMul pending rate
      let hollarValue ← checkedDiv scaled wad
      if hollarValue = 0 then return .stop { r with iterations := r.iterations + 1 }
      else if hollarValue ≤ r.available then do
        -- fully settle: the entry stays for the claim walks, head and cursor move past it
        let hollarOwed ← checkedAdd request.hollarOwed hollarValue
        let hollarUsed ← checkedAdd r.hollarUsed hollarValue
        let bilLocked ← checkedAdd r.bilLocked pending
        let available ← checkedSub r.available hollarValue
        return .again
          { toQueueStore := r.lock r.cursor request.bilAmount hollarOwed, newQueueHead := r.headPast,
            hollarUsed, bilLocked, available, iterations := r.iterations + 1, skips := r.skips, cursor := r.cursor + 1 }
      else do
        -- partially settle: the next pass stops at this entry, nothing being available
        let scaledAvailable ← checkedMul r.available wad
        let bilToSettle ← checkedDiv scaledAvailable rate
        if bilToSettle = 0 then return .stop { r with iterations := r.iterations + 1 }
        else do
          let scaledBil ← checkedMul bilToSettle rate
          let hollarToReserve ← checkedDiv scaledBil wad
          let bilSettled ← checkedAdd request.bilSettled bilToSettle
          let hollarOwed ← checkedAdd request.hollarOwed hollarToReserve
          let hollarUsed ← checkedAdd r.hollarUsed hollarToReserve
          let bilLocked ← checkedAdd r.bilLocked bilToSettle
          return .again
            { toQueueStore := r.lock r.cursor bilSettled hollarOwed, newQueueHead := r.newQueueHead,
              hollarUsed, bilLocked, available := 0, iterations := r.iterations + 1,
              skips := r.skips, cursor := r.cursor }
  else .ok (.stop r)

/-- Every pass that does not stop uses one of the two budgets. -/
def processQueue (store : QueueStore) (queueHead queueTail available rate maxIterations maxSkips wad : Nat) :
    Tx SettleRun :=
  loop (settlePass queueTail rate maxIterations maxSkips wad) (maxIterations + maxSkips + 1)
    { toQueueStore := store, newQueueHead := queueHead, hollarUsed := 0, bilLocked := 0, available,
      iterations := 0, skips := 0, cursor := queueHead }

/-! ## Claims -/

/-- Remove an entry by moving the last one into its place. -/
def swapPop (arr : List Nat) (idx : Nat) : Tx (List Nat) := do
  let last ← checkedSub arr.length 1
  if idx ≠ last then do
    let moved ← readAt arr last
    return (arr.set idx moved).dropLast
  else return arr.dropLast

/-- What a claim counts down: settled shares, or the HOLLAR locked for them. -/
inductive ClaimUnit where
  | shares
  | assets
  deriving Repr, DecidableEq

/-- The amount of a request the walk counts down. -/
def ClaimUnit.counted : ClaimUnit → Request → Nat
  | .shares, request => request.bilSettled
  | .assets, request => request.hollarOwed

/-- The amount drawn pro rata with it. -/
def ClaimUnit.paired : ClaimUnit → Request → Nat
  | .shares, request => request.hollarOwed
  | .assets, request => request.bilSettled

/-- How much of a request a walk with `remaining` to claim takes. -/
def ClaimUnit.take (u : ClaimUnit) (request : Request) (remaining : Nat) : Nat :=
  if u.counted request ≤ remaining then u.counted request else remaining

def ClaimUnit.sharesTake (take proRata : Nat) : ClaimUnit → Nat
  | .shares => take
  | .assets => proRata

def ClaimUnit.hollarTake (take proRata : Nat) : ClaimUnit → Nat
  | .shares => proRata
  | .assets => take

/-- The walk by shares keeps no count of the shares: `remaining` is what it has left. -/
def ClaimUnit.tally (shares sharesTake : Nat) : ClaimUnit → Tx Nat
  | .shares => .ok (shares + sharesTake)
  | .assets => checkedAdd shares sharesTake

/-- The variables of a claim walk; `j` counts down over the controller's index. -/
structure ClaimRun where
  redemptionQueue : Nat → Request
  ids : List Nat
  j : Nat
  remaining : Nat
  shares : Nat
  assets : Nat

/-- Draw `sharesTake` and `hollarTake` from request `i` at index `j`; a drained request leaves the
index, and its slot is deleted when nothing is pending either. -/
def ClaimRun.draw (r : ClaimRun) (j i sharesTake hollarTake : Nat) : Tx ((Nat → Request) × List Nat) := do
  let request := r.redemptionQueue i
  let bilSettled ← checkedSub request.bilSettled sharesTake
  let hollarOwed ← checkedSub request.hollarOwed hollarTake
  let bilAmount ← checkedSub request.bilAmount sharesTake
  if bilAmount = 0 then do
    let ids ← swapPop r.ids j
    return (Function.update r.redemptionQueue i Request.empty, ids)
  else do
    let queue := Function.update r.redemptionQueue i { request with bilAmount, bilSettled, hollarOwed }
    if bilSettled = 0 then do
      let ids ← swapPop r.ids j
      return (queue, ids)
    else return (queue, r.ids)

/-- The body both walks share. -/
def claimPass (u : ClaimUnit) (controller : Address) (r : ClaimRun) : Tx (Pass ClaimRun) :=
  if 0 < r.j ∧ 0 < r.remaining then do
    let j := r.j - 1
    let i ← readAt r.ids j
    let request := r.redemptionQueue i
    -- the source calls such an entry stale; by assets it may still have settled shares
    if request.user ≠ controller ∨ u.counted request = 0 then do
      let ids ← swapPop r.ids j
      return .again { r with ids, j }
    else do
      let take := u.take request r.remaining
      let scaled ← checkedMul take (u.paired request)
      let proRata ← checkedDiv scaled (u.counted request)
      let sharesTake := u.sharesTake take proRata
      let hollarTake := u.hollarTake take proRata
      let (redemptionQueue, ids) ← r.draw j i sharesTake hollarTake
      let remaining ← checkedSub r.remaining take
      let shares ← u.tally r.shares sharesTake
      let assets ← checkedAdd r.assets hollarTake
      return .again { redemptionQueue, ids, j, remaining, shares, assets }
  else .ok (.stop r)

def claimWalk (u : ClaimUnit) (store : QueueStore) (controller : Address) (amount : Nat) : Tx ClaimRun := do
  let ids := store.settledByController controller
  let r ← loop (claimPass u controller) (ids.length + 1)
    { redemptionQueue := store.redemptionQueue, ids, j := ids.length, remaining := amount, shares := 0, assets := 0 }
  require (r.remaining = 0) (.custom .insufficientClaimable)
  return r

/-- The maps a finished walk leaves. -/
def ClaimRun.store (r : ClaimRun) (store : QueueStore) (controller : Address) : QueueStore :=
  { redemptionQueue := r.redemptionQueue
    settledByController := Function.update store.settledByController controller r.ids }

/-- Returns the HOLLAR drawn. -/
def claimByShares (store : QueueStore) (controller : Address) (shares : Nat) : Tx (QueueStore × Nat) := do
  let r ← claimWalk .shares store controller shares
  return (r.store store controller, r.assets)

/-- Returns the shares consumed and the HOLLAR drawn. -/
def claimByAssets (store : QueueStore) (controller : Address) (assets : Nat) : Tx (QueueStore × Nat × Nat) := do
  let r ← claimWalk .assets store controller assets
  return (r.store store controller, r.shares, r.assets)

end MoneyMarket
