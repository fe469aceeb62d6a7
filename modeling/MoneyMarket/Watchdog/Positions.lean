/-
The watchdog's eye on the positions past their maturity: who is holding them up, the keeper or
Decentral. A scan of a reachable world throws only over a date that cannot be written; otherwise its
digest adds up exactly the withdrawals that the pools have not approved, and the positions it finds ready
are exactly those whose withdrawal the keeper would poke (`watchdog_blames`). Over successive scans that
go through it calls the keeper idle on exactly the positions that have been ready in every scan of a
stretch as long as the grace period (`ready_window`).
-/
import MoneyMarket.Keeper.Positions
import MoneyMarket.Watchdog.Alerts

namespace MoneyMarket

open Evm Transition

/-! ## What a scan reads -/

/-- The settings this section of a scan reads. -/
structure PositionWatch where
  maturedGraceSeconds : Nat
  claimGraceSeconds : Nat
  approvalSlaSeconds : Nat
  digestMinWaitSeconds : Nat
  stuckThresholdSeconds : Nat

/-- What the next step of a position at Decentral waits for (nothing: it can proceed), since when it waits
for an approval, and the amount asked for. -/
structure DecentralStatus where
  waiting : Option Waiting
  requestedAt : Option Nat
  amount : Nat

def DecentralStatus.clear : DecentralStatus := ⟨none, none, 0⟩

/-- `none` where the pool does not answer, or the date cannot be written. -/
def decentralStatus (w : World) (index tokenId : Nat) (state : NFTState) (now : Nat) : Option DecentralStatus :=
  match state with
  | .yieldWithdrawalRequested => do
    let pool ← w.pools (w.vault.positionPool index)
    let request := pool.getYieldWithdrawalRequest tokenId
    if request.pending = true ∧ request.approved = false then
      return ⟨some .yieldNotApproved, some request.requestTimestamp, request.amount⟩
    else return .clear
  | .principalWithdrawalRequested => do
    let pool ← w.pools (w.vault.positionPool index)
    let request := pool.getPrincipalWithdrawalRequest tokenId
    if request.pending = true ∧ request.approved = false then
      return ⟨some .principalNotApproved, some request.requestTimestamp, request.amount⟩
    else if request.pending = true ∧ now < request.availableTimestamp then do
      let time ← toISOString request.availableTimestamp
      return ⟨some (.availableAt time), none, request.amount⟩
    else return .clear
  | _ => some .clear

/-! ## A scan -/

/-- A position as the issues describe it. -/
structure PositionDesc where
  index : Nat
  tokenId : Nat
  principal : Nat
  state : NFTState
  past : Int
  deriving Repr, DecidableEq

inductive PositionKey where
  | pos (index : Nat)
  | ready (index : Nat)
  deriving Repr, DecidableEq

inductive PositionIssue where
  | notAdvanced (pos : PositionDesc)
  | keeperIdle (pos : PositionDesc) (since : Int)
  | stuck (pos : PositionDesc) (waiting : Option Waiting)
  deriving Repr, DecidableEq

def PositionIssue.level : PositionIssue → Level
  | .notAdvanced _ => .warn
  | .keeperIdle _ _ => .error
  | .stuck _ _ => .error

structure MaturedPosition where
  index : Nat
  tokenId : Nat
  principal : Nat
  maturity : Nat
  state : NFTState
  waiting : Option Waiting
  requestedAt : Option Nat

structure UpcomingPosition where
  index : Nat
  tokenId : Nat
  principal : Nat
  maturity : Nat

/-- What the loop over the positions builds up. -/
structure PositionScan where
  issues : List (PositionKey × PositionIssue)
  ready : List Nat
  readySince : List (Nat × Nat)
  matured : List MaturedPosition
  upcoming : List UpcomingPosition
  dec : Alerts.Decentral

/-- A withdrawal that waits for its approval. -/
structure ApprovalWait where
  age : Int
  principal : Nat
  yield : Nat

namespace PositionWatch

variable (cfg : PositionWatch)

def addWait (dec : Alerts.Decentral) (x : ApprovalWait) : Alerts.Decentral where
  waitingCount := dec.waitingCount + 1
  waitingPrincipal := dec.waitingPrincipal + x.principal
  waitingYield := dec.waitingYield + x.yield
  oldestWait := max dec.oldestWait x.age.toNat
  overdueCount := if cfg.approvalSlaSeconds ≤ x.age then dec.overdueCount + 1 else dec.overdueCount
  slowCount := if cfg.digestMinWaitSeconds ≤ x.age then dec.slowCount + 1 else dec.slowCount
  slowPrincipal := if cfg.digestMinWaitSeconds ≤ x.age then dec.slowPrincipal + x.principal else dec.slowPrincipal
  slowYield := if cfg.digestMinWaitSeconds ≤ x.age then dec.slowYield + x.yield else dec.slowYield

/-- Active past its maturity for the grace period. -/
def notAdvanced (paused : Bool) (desc : PositionDesc) (acc : PositionScan) : PositionScan :=
  if paused = false ∧ cfg.maturedGraceSeconds ≤ desc.past then
    { acc with issues := OrderedMap.set acc.issues (.pos desc.index) (.notAdvanced desc) }
  else acc

/-- The wait of a position, if it is one for an approval. -/
def approvalWait (now : Nat) (pos : NFTPosition) (d : DecentralStatus) : Option ApprovalWait :=
  match d.waiting, d.requestedAt with
  | some _, some requestedAt =>
    some ⟨(now : Int) - requestedAt, pos.principal, if pos.state = .yieldWithdrawalRequested then d.amount else 0⟩
  | _, _ => none

/-- The time since a position is ready is kept, and past the grace period is an issue. -/
def allows (paused : Bool) (now : Nat) (desc : PositionDesc) (d : DecentralStatus) (acc : PositionScan) : PositionScan :=
  if d.waiting = none then
    let since := (OrderedMap.get acc.readySince desc.index).getD now
    let age : Int := (now : Int) - since
    { acc with
      ready := acc.ready ++ [desc.index]
      readySince := OrderedMap.set acc.readySince desc.index since
      issues :=
        if paused = false ∧ cfg.claimGraceSeconds ≤ age then
          OrderedMap.set acc.issues (.ready desc.index) (.keeperIdle desc age)
        else acc.issues }
  else acc

/-- Every matured position is listed, and stuck past the threshold unless it waits for an approval. -/
def finish (pos : NFTPosition) (desc : PositionDesc) (d : DecentralStatus) (acc : PositionScan) : PositionScan :=
  { acc with
    matured := acc.matured ++
      [⟨desc.index, pos.tokenId, pos.principal, pos.maturityTime, pos.state, d.waiting, d.requestedAt⟩]
    issues :=
      if cfg.stuckThresholdSeconds ≤ desc.past ∧ d.requestedAt = none then
        OrderedMap.set acc.issues (.pos desc.index) (.stuck desc d.waiting)
      else acc.issues }

/-- One round of the loop. Where it throws, the times set so far stay. -/
def scanPosition (w : World) (acc : PositionScan) (e : Nat × NFTPosition) : Except (List (Nat × Nat)) PositionScan :=
  let pos := e.2
  let past : Int := (w.vault.now : Int) - pos.maturityTime
  let desc : PositionDesc := ⟨e.1, pos.tokenId, pos.principal, pos.state, past⟩
  if pos.state = .redeemed then .ok acc
  else if past < 0 then
    .ok { acc with upcoming := acc.upcoming ++ [⟨e.1, pos.tokenId, pos.principal, pos.maturityTime⟩] }
  else if pos.state = .active then
    .ok (cfg.finish pos desc .clear (cfg.notAdvanced w.vault.paused desc acc))
  else
    match decentralStatus w e.1 pos.tokenId pos.state w.vault.now with
    | some d =>
      let acc := { acc with dec := ((approvalWait w.vault.now pos d).map (cfg.addWait acc.dec)).getD acc.dec }
      .ok (cfg.finish pos desc d (cfg.allows w.vault.paused w.vault.now desc d acc))
    | none => .error acc.readySince

def noWaits : Alerts.Decentral := ⟨0, 0, 0, 0, 0, 0, 0, 0⟩

/-- `Promise.all` over the reads of a batch. -/
def readAll (es : List (Nat × Option NFTPosition)) : Option (List (Nat × NFTPosition)) :=
  es.mapM fun e => e.2.map fun pos => (e.1, pos)

/-- The section of `scan` on the positions, from the times kept so far. An error is a scan that throws, with the
times that stay. -/
def scan (w : World) (readySince : List (Nat × Nat)) : Except (List (Nat × Nat)) PositionScan :=
  match readAll (batch w.vault.positionHead w.vault.positions.length fun i => w.vault.positions[i]?) with
  | none => .error readySince
  | some positions => do
    let r ← positions.foldlM (cfg.scanPosition w) ⟨[], [], readySince, [], [], noWaits⟩
    return { r with
      readySince := r.readySince.filter fun e => decide (e.1 ∈ r.ready)
      upcoming := r.upcoming.mergeSort fun a b => decide (a.maturity ≤ b.maturity) }

/-- The times kept after scans of the given worlds, the latest first. -/
def kept : List World → List (Nat × Nat)
  | [] => []
  | w :: earlier =>
    match cfg.scan w (kept earlier) with
    | .ok r => r.readySince
    | .error readySince => readySince

end PositionWatch

/-! ## What it is compared with -/

namespace World

variable (w : World)

/-- The wait for the approval of a position's pool, by the records of the pool. -/
def unapproved (i : Nat) : Option ApprovalWait := do
  let pos ← w.vault.positions[i]?
  let pool ← w.pools (w.vault.positionPool i)
  let yield := pool.getYieldWithdrawalRequest pos.tokenId
  let principal := pool.getPrincipalWithdrawalRequest pos.tokenId
  if yield.pending = true ∧ yield.approved = false then
    return ⟨(w.vault.now : Int) - yield.requestTimestamp, pos.principal, yield.amount⟩
  else if principal.pending = true ∧ principal.approved = false then
    return ⟨(w.vault.now : Int) - principal.requestTimestamp, pos.principal, 0⟩
  else none

/-- The positions that the head has not passed. -/
def unswept : List Nat := List.range' w.vault.positionHead (w.vault.positions.length - w.vault.positionHead)

/-- The keeper would poke the position for its withdrawal, on the clock of the chain. -/
def keeperDue (i : Nat) : Bool :=
  (w.vault.positions[i]?).any (fun pos => decide (pos.state ≠ .active)) && (handlePosition 0 w w.vault.now i).pokes

/-- The date of an approved principal is past the last. -/
def Undatable (i : Nat) : Prop :=
  ∃ pos p, w.vault.positions[i]? = some pos ∧ w.pools (w.vault.positionPool i) = some p ∧
    MoneyMarket.Undatable p.toRequests pos.tokenId pos.state w.vault.now

/-- An open position on either side of its maturity. -/
def isMatured (i : Nat) : Bool :=
  (w.vault.positions[i]?).any fun pos => decide (pos.state ≠ .redeemed ∧ pos.maturityTime ≤ w.vault.now)

def isUpcoming (i : Nat) : Bool :=
  (w.vault.positions[i]?).any fun pos => decide (pos.state ≠ .redeemed ∧ w.vault.now < pos.maturityTime)

end World

/-- What the digest says of the withdrawals that wait for their approval. -/
def PositionWatch.digest (cfg : PositionWatch) (ws : List ApprovalWait) : Alerts.Decentral :=
  let slow := ws.filter fun x => decide ((cfg.digestMinWaitSeconds : Int) ≤ x.age)
  { waitingCount := ws.length
    waitingPrincipal := (ws.map ApprovalWait.principal).sum
    waitingYield := (ws.map ApprovalWait.yield).sum
    oldestWait := (ws.map fun x => x.age.toNat).foldl max 0
    overdueCount := (ws.filter fun x => decide ((cfg.approvalSlaSeconds : Int) ≤ x.age)).length
    slowCount := slow.length
    slowPrincipal := (slow.map ApprovalWait.principal).sum
    slowYield := (slow.map ApprovalWait.yield).sum }

/-- Not held up by an approval, a position is due for an issue: active past its maturity by the first grace
period while the vault runs, or open past it by the threshold. -/
def PositionWatch.late (cfg : PositionWatch) (w : World) (i : Nat) : Bool :=
  (w.vault.positions[i]?).any (fun pos => decide (pos.state ≠ .redeemed ∧
    ((pos.state = .active ∧ w.vault.paused = false ∧ pos.maturityTime + cfg.maturedGraceSeconds ≤ w.vault.now) ∨
      pos.maturityTime + cfg.stuckThresholdSeconds ≤ w.vault.now))) && (w.unapproved i).isNone

/-! ## One position -/

/-- A position beside its pool, in a world where the two agree. -/
structure Reading (d : Deployment) (w : World) (i : Nat) (pos : NFTPosition) (p : DecentralPool) : Prop where
  position : w.vault.positions[i]? = some pos
  pool : w.pools (w.vault.positionPool i) = some p
  /-- The pool waits for a withdrawal in the state that says so. -/
  yield : (p.yieldWithdrawalRequests pos.tokenId).pending = decide (pos.state = .yieldWithdrawalRequested)
  exit : (p.principalWithdrawalRequests pos.tokenId).pending = decide (pos.state = .principalWithdrawalRequested)
  matured : pos.state ≠ .active → pos.maturityTime ≤ w.vault.now

section Reading

variable {d : Deployment} {w : World} {i : Nat} {pos : NFTPosition} {p : DecentralPool}

theorem Reading.of_reach (h : (world d).Reach w) (hpos : w.vault.positions[i]? = some pos) :
    ∃ p, Reading d w i pos p := by
  obtain ⟨p, hp, hslot, -⟩ := (World.agrees h).holds i pos hpos
  have hleft := ((World.vault_reachable h).1.inv.lifecycle.positions pos (List.mem_of_getElem? hpos)).left
  obtain ⟨hyield, hexit⟩ := pos.toTerms.slot_pending d.self
  exact ⟨p, hpos, hp, (congrArg Slot.yieldPending hslot).trans hyield, (congrArg Slot.exitPending hslot).trans hexit,
    fun hne => (hleft hne).2⟩

theorem Reading.isMatured (h : Reading d w i pos p) :
    w.isMatured i = decide (pos.state ≠ .redeemed ∧ pos.maturityTime ≤ w.vault.now) := by
  unfold World.isMatured
  rw [h.position]
  rfl

theorem Reading.isUpcoming (h : Reading d w i pos p) :
    w.isUpcoming i = decide (pos.state ≠ .redeemed ∧ w.vault.now < pos.maturityTime) := by
  unfold World.isUpcoming
  rw [h.position]
  rfl

theorem Reading.undatable_iff (h : Reading d w i pos p) :
    w.Undatable i ↔ MoneyMarket.Undatable p.toRequests pos.tokenId pos.state w.vault.now := by
  constructor
  · rintro ⟨pos', p', hpos, hp, hdate⟩
    obtain rfl := Option.some.inj (h.position.symm.trans hpos)
    obtain rfl := Option.some.inj (h.pool.symm.trans hp)
    exact hdate
  · exact fun hdate => ⟨pos, p, h.position, h.pool, hdate⟩

/-- The keeper pokes the withdrawals that wait for nothing. -/
theorem Reading.keeperDue_iff (h : Reading d w i pos p) : w.keeperDue i = true ↔ pos.state ≠ .active ∧
    pos.state ≠ .redeemed ∧ decentralWaiting p.toRequests pos.tokenId pos.state w.vault.now = some none := by
  obtain ⟨-, hheld, -⟩ := processPositionIfNeeded_spec 0 w.vault.now h.position h.pool
  unfold World.keeperDue
  rw [h.position, Bool.and_eq_true]
  simp only [Option.any_some, decide_eq_true_iff]
  refine and_congr_right fun hactive => ?_
  have hpokes : (handlePosition 0 w w.vault.now i).pokes = true ↔ ¬ HeldBack p pos w.vault.now := by
    rw [← hheld, Bool.not_eq_false]
  rw [hpokes, HeldBack, not_or, not_or, not_and, not_not]
  exact ⟨fun ⟨hopen, _, hready⟩ => ⟨hopen, hready⟩, fun ⟨hopen, hready⟩ => ⟨hopen, fun ha => absurd ha hactive, hready⟩⟩

/-- Without a request nothing waits for an approval. -/
theorem Reading.unapproved_none (h : Reading d w i pos p) (hyield : pos.state ≠ .yieldWithdrawalRequested)
    (hexit : pos.state ≠ .principalWithdrawalRequested) : w.unapproved i = none := by
  have h₁ := h.yield.trans (decide_eq_false hyield)
  have h₂ := h.exit.trans (decide_eq_false hexit)
  simp only [World.unapproved, h.position, h.pool, Requests.getYieldWithdrawalRequest,
    Requests.getPrincipalWithdrawalRequest, h₁, h₂, Bool.false_eq_true, false_and, if_false, Option.bind_eq_bind,
    Option.bind_some]

/-- A date that cannot be written leaves no status. -/
theorem Reading.status_none (h : Reading d w i pos p) (hdate : w.Undatable i) :
    decentralStatus w i pos.tokenId pos.state w.vault.now = none := by
  obtain ⟨hstate, hpending, happroved, hearly, hbeyond⟩ := h.undatable_iff.1 hdate
  rw [hstate]
  simp only [decentralStatus, h.pool, Requests.getPrincipalWithdrawalRequest, hpending, happroved, hearly,
    toISOString_none_iff.2 hbeyond, Bool.true_eq_false, and_false, and_self, if_false, if_true, Option.bind_eq_bind,
    Option.bind_some, Option.bind_none]

/-- Otherwise, past the active state, the status at Decentral is read, and says what the records and the keeper's
check say. -/
theorem Reading.status (h : Reading d w i pos p) (hactive : pos.state ≠ .active) (hopen : pos.state ≠ .redeemed)
    (hdate : ¬ w.Undatable i) :
    ∃ status, decentralStatus w i pos.tokenId pos.state w.vault.now = some status ∧
      PositionWatch.approvalWait w.vault.now pos status = w.unapproved i ∧
      (status.requestedAt = none ↔ w.unapproved i = none) ∧
      (status.waiting = none ↔ w.keeperDue i = true) := by
  rw [h.keeperDue_iff, and_iff_right hactive, and_iff_right hopen]
  cases hstate : pos.state with
  | active => exact absurd hstate hactive
  | redeemed => exact absurd hstate hopen
  | yieldClaimed =>
    have hnone := h.unapproved_none (by rw [hstate]; decide) (by rw [hstate]; decide)
    exact ⟨.clear, rfl, hnone.symm, iff_of_true rfl hnone, iff_of_true rfl rfl⟩
  | yieldWithdrawalRequested =>
    have hpending := h.yield.trans (decide_eq_true hstate)
    rw [decentralWaiting_yield_iff hpending]
    have hexit := h.exit.trans (decide_eq_false (by rw [hstate]; decide))
    simp only [World.unapproved, decentralStatus, h.position, h.pool, Requests.getYieldWithdrawalRequest,
      Requests.getPrincipalWithdrawalRequest, hpending, hexit, true_and, Bool.false_eq_true, false_and, if_false,
      Option.bind_eq_bind, Option.bind_some]
    cases happroved : (p.yieldWithdrawalRequests pos.tokenId).approved with
    | true => exact ⟨.clear, rfl, rfl, iff_of_true rfl rfl, iff_of_true rfl rfl⟩
    | false =>
      refine ⟨_, if_pos rfl, ?_, by simp, by simp⟩
      simp [PositionWatch.approvalWait, hstate]
  | principalWithdrawalRequested =>
    have hpending := h.exit.trans (decide_eq_true hstate)
    rw [decentralWaiting_principal_iff hpending]
    have hyield := h.yield.trans (decide_eq_false (by rw [hstate]; decide))
    simp only [World.unapproved, decentralStatus, h.position, h.pool, Requests.getYieldWithdrawalRequest,
      Requests.getPrincipalWithdrawalRequest, hpending, hyield, true_and, Bool.false_eq_true, false_and, if_false,
      Option.bind_eq_bind, Option.bind_some]
    cases happroved : (p.principalWithdrawalRequests pos.tokenId).approved with
    | true =>
      by_cases hlate : w.vault.now < (p.principalWithdrawalRequests pos.tokenId).availableTimestamp
      · have hwritten : toISOString (p.principalWithdrawalRequests pos.tokenId).availableTimestamp =
            some (p.principalWithdrawalRequests pos.tokenId).availableTimestamp := by
          refine if_pos (not_lt.1 fun hbeyond => hdate (h.undatable_iff.2 ?_))
          exact ⟨hstate, hpending, happroved, hlate, hbeyond⟩
        rw [if_neg (by simp), if_pos hlate, hwritten]
        refine ⟨_, rfl, ?_, by simp, ?_⟩
        · simp [PositionWatch.approvalWait]
        · simp [hlate]
      · refine ⟨_, if_neg hlate, ?_, by simp [DecentralStatus.clear], ?_⟩
        · simp [PositionWatch.approvalWait, DecentralStatus.clear]
        · simp [DecentralStatus.clear, not_lt.1 hlate]
    | false =>
      refine ⟨_, if_pos rfl, ?_, by simp, by simp⟩
      simp [PositionWatch.approvalWait, hstate]

end Reading

/-! ## The loop -/

/-- What rounds over the positions `is` add to what was there. -/
structure Scans (cfg : PositionWatch) (w : World) (is : List Nat) (acc acc' : PositionScan) : Prop where
  dec : acc'.dec = (is.filterMap w.unapproved).foldl cfg.addWait acc.dec
  ready : ∀ k, k ∈ acc'.ready ↔ k ∈ acc.ready ∨ k ∈ is ∧ w.keeperDue k = true
  since : ∀ k, OrderedMap.get acc'.readySince k =
    if k ∈ is ∧ w.keeperDue k = true then some ((OrderedMap.get acc.readySince k).getD w.vault.now)
    else OrderedMap.get acc.readySince k
  idle : ∀ k, (OrderedMap.get acc'.issues (.ready k)).isSome = true ↔
    (OrderedMap.get acc.issues (.ready k)).isSome = true ∨ (k ∈ is ∧ w.keeperDue k = true) ∧ w.vault.paused = false ∧
      (cfg.claimGraceSeconds : Int) ≤
        (w.vault.now : Int) - ((OrderedMap.get acc.readySince k).getD w.vault.now : Nat)
  late : ∀ k, (OrderedMap.get acc'.issues (.pos k)).isSome = true ↔
    (OrderedMap.get acc.issues (.pos k)).isSome = true ∨ k ∈ is ∧ cfg.late w k = true
  matured : ∀ k, k ∈ acc'.matured.map MaturedPosition.index ↔
    k ∈ acc.matured.map MaturedPosition.index ∨ k ∈ is ∧ w.isMatured k = true
  upcoming : ∀ k, k ∈ acc'.upcoming.map UpcomingPosition.index ↔
    k ∈ acc.upcoming.map UpcomingPosition.index ∨ k ∈ is ∧ w.isUpcoming k = true

section Loop

variable {d : Deployment} {cfg : PositionWatch} {w : World} {i : Nat} {is : List Nat} {acc a acc' : PositionScan}
  {pos : NFTPosition} {p : DecentralPool}

theorem Scans.nil : Scans cfg w [] acc acc := by
  refine ⟨rfl, fun k => ?_, fun k => ?_, fun k => ?_, fun k => ?_, fun k => ?_, fun k => ?_⟩ <;> simp

/-- One round after another. -/
theorem Scans.cons (h : Scans cfg w [i] acc a) (h' : Scans cfg w is a acc') : Scans cfg w (i :: is) acc acc' := by
  have hsplit : ∀ {k : Nat} {b : Bool}, k ∈ i :: is ∧ b = true ↔ (k ∈ [i] ∧ b = true) ∨ (k ∈ is ∧ b = true) := by
    intro k b
    rw [List.mem_cons, List.mem_singleton, or_and_right]
  -- a round that sets a time sets it to what it counts from
  have hcount : ∀ k, (OrderedMap.get a.readySince k).getD w.vault.now =
      (OrderedMap.get acc.readySince k).getD w.vault.now := by
    intro k
    rw [h.since]
    split_ifs <;> rfl
  refine ⟨?_, fun k => ?_, fun k => ?_, fun k => ?_, fun k => ?_, fun k => ?_, fun k => ?_⟩
  · rw [h'.dec, h.dec, ← List.foldl_append, ← List.filterMap_append, List.singleton_append]
  · rw [h'.ready, h.ready, hsplit, or_assoc]
  · rw [h'.since, hcount, h.since]
    by_cases hlater : k ∈ is ∧ w.keeperDue k = true
    · rw [if_pos hlater, if_pos (hsplit.2 (.inr hlater))]
    · rw [if_neg hlater]
      exact if_congr (by rw [hsplit, or_iff_left hlater]) rfl rfl
  · rw [h'.idle, hcount, h.idle, hsplit, or_assoc, or_and_right]
  · rw [h'.late, h.late, hsplit, or_assoc]
  · rw [h'.matured, h.matured, hsplit, or_assoc]
  · rw [h'.upcoming, h.upcoming, hsplit, or_assoc]

/-- Listing a matured position touches no time, and no issue about the keeper. -/
theorem finish_scans {status : DecentralStatus} {desc : PositionDesc} (h : Reading d w i pos p)
    (hopen : pos.state ≠ .redeemed) (hpast : pos.maturityTime ≤ w.vault.now)
    (hdesc : desc.index = i ∧ desc.past = (w.vault.now : Int) - pos.maturityTime)
    (hwait : status.requestedAt = none ↔ w.unapproved i = none)
    (hdec : a.dec = ([i].filterMap w.unapproved).foldl cfg.addWait acc.dec)
    (hready : ∀ k, k ∈ a.ready ↔ k ∈ acc.ready ∨ k ∈ [i] ∧ w.keeperDue k = true)
    (hsince : ∀ k, OrderedMap.get a.readySince k =
      if k ∈ [i] ∧ w.keeperDue k = true then some ((OrderedMap.get acc.readySince k).getD w.vault.now)
      else OrderedMap.get acc.readySince k)
    (hidle : ∀ k, (OrderedMap.get a.issues (.ready k)).isSome = true ↔
      (OrderedMap.get acc.issues (.ready k)).isSome = true ∨ (k ∈ [i] ∧ w.keeperDue k = true) ∧
        w.vault.paused = false ∧ (cfg.claimGraceSeconds : Int) ≤
          (w.vault.now : Int) - ((OrderedMap.get acc.readySince k).getD w.vault.now : Nat))
    (hlate : ∀ k, (OrderedMap.get a.issues (.pos k)).isSome = true ↔
      (OrderedMap.get acc.issues (.pos k)).isSome = true ∨ k = i ∧ w.unapproved i = none ∧ pos.state = .active ∧
        w.vault.paused = false ∧ (cfg.maturedGraceSeconds : Int) ≤ desc.past)
    (hlists : a.matured = acc.matured ∧ a.upcoming = acc.upcoming) :
    Scans cfg w [i] acc (cfg.finish pos desc status a) where
  dec := hdec
  ready := hready
  since := hsince
  idle k := by
    rw [← hidle k]
    unfold PositionWatch.finish
    dsimp only
    split_ifs
    · rw [OrderedMap.get_set, if_neg (by simp)]
    · rfl
  late k := by
    have hmem : k ∈ [i] ∧ cfg.late w k = true ↔ k = i ∧ w.unapproved i = none ∧ ((pos.state = .active ∧
        w.vault.paused = false ∧ (cfg.maturedGraceSeconds : Int) ≤ desc.past) ∨
        (cfg.stuckThresholdSeconds : Int) ≤ desc.past) := by
      rw [List.mem_singleton, hdesc.2]
      refine and_congr_right ?_
      rintro rfl
      unfold PositionWatch.late
      rw [h.position, Bool.and_eq_true, Option.isNone_iff_eq_none, and_comm, Option.any_some, decide_eq_true_iff,
        and_iff_right hopen]
      have hage : ∀ n : Nat, (n : Int) ≤ (w.vault.now : Int) - pos.maturityTime ↔ pos.maturityTime + n ≤ w.vault.now := by
        intro n
        omega
      rw [hage, hage]
    rw [hmem]
    unfold PositionWatch.finish
    dsimp only
    by_cases hstuck : (cfg.stuckThresholdSeconds : Int) ≤ desc.past ∧ status.requestedAt = none
    · rw [if_pos hstuck, OrderedMap.get_set, hdesc.1]
      by_cases hk : k = i
      · subst hk
        rw [if_pos rfl]
        exact iff_of_true rfl (.inr ⟨rfl, hwait.1 hstuck.2, .inr hstuck.1⟩)
      · rw [if_neg fun hik => hk (PositionKey.pos.inj hik).symm, hlate, or_iff_left fun hik => hk hik.1,
          or_iff_left fun hik => hk hik.1]
    · rw [if_neg hstuck, hlate]
      refine or_congr_right (and_congr_right fun _ => and_congr_right fun hnone => ?_)
      rw [or_iff_left fun hold => hstuck ⟨hold, hwait.2 hnone⟩]
  matured k := by
    have hmem : k ∈ [i] ∧ w.isMatured k = true ↔ k = i := by
      rw [List.mem_singleton]
      refine and_iff_left_of_imp ?_
      rintro rfl
      rw [h.isMatured]
      exact decide_eq_true ⟨hopen, hpast⟩
    rw [hmem]
    simp [PositionWatch.finish, hlists.1, hdesc.1]
  upcoming k := by
    rw [or_iff_left, ← hlists.2]
    · rfl
    · rintro ⟨hk, hu⟩
      rw [List.mem_singleton.1 hk, h.isUpcoming] at hu
      exact absurd (of_decide_eq_true hu).2 (not_lt.2 hpast)

/-- Who is neither matured nor due is not at Decentral. -/
theorem Reading.quiet (h : Reading d w i pos p) (hquiet : pos.state = .redeemed ∨ w.vault.now < pos.maturityTime) :
    w.unapproved i = none ∧ w.keeperDue i = false ∧ cfg.late w i = false ∧ w.isMatured i = false := by
  have hstate : pos.state = .active ∨ pos.state = .redeemed := by
    rcases hquiet with hredeemed | hearly
    · exact .inr hredeemed
    · exact .inl (by_contra fun hne => absurd (h.matured hne) (not_le.2 hearly))
  refine ⟨?_, eq_false_of_ne_true fun hdue => ?_, ?_, ?_⟩
  · apply h.unapproved_none
    · rcases hstate with hs | hs <;> rw [hs] <;> decide
    · rcases hstate with hs | hs <;> rw [hs] <;> decide
  · obtain ⟨hactive, hopen, -⟩ := h.keeperDue_iff.1 hdue
    exact hstate.elim hactive hopen
  · unfold PositionWatch.late
    rw [h.position, Option.any_some, Bool.and_eq_false_iff]
    refine .inl (decide_eq_false ?_)
    rintro ⟨hopen, hpast⟩
    rcases hquiet with hredeemed | hearly
    · exact hopen hredeemed
    · omega
  · rw [h.isMatured]
    refine decide_eq_false fun hm => ?_
    rcases hquiet with hredeemed | hearly
    · exact hm.1 hredeemed
    · exact absurd hm.2 (not_le.2 hearly)

/-- A round that sees nothing to do adds at most to the upcoming positions. -/
theorem quiet_scans
    (h : w.unapproved i = none ∧ w.keeperDue i = false ∧ cfg.late w i = false ∧ w.isMatured i = false)
    {us : List UpcomingPosition} (hu : ∀ k, k ∈ us.map UpcomingPosition.index ↔
      k ∈ acc.upcoming.map UpcomingPosition.index ∨ k ∈ [i] ∧ w.isUpcoming k = true) :
    Scans cfg w [i] acc { acc with upcoming := us } := by
  obtain ⟨hwait, hdue, hlate, hmatured⟩ := h
  have hnot : ∀ {b : Nat → Bool} {k : Nat}, b i = false → ¬ (k ∈ [i] ∧ b k = true) := by
    rintro b k hb ⟨hk, hbk⟩
    rw [List.mem_singleton.1 hk, hb] at hbk
    cases hbk
  refine ⟨?_, fun k => (or_iff_left (hnot hdue)).symm, fun k => (if_neg (hnot hdue)).symm, fun k => ?_,
    fun k => (or_iff_left (hnot hlate)).symm, fun k => (or_iff_left (hnot hmatured)).symm, hu⟩
  · rw [List.filterMap_cons_none hwait]
    rfl
  · exact (or_iff_left fun hk => hnot hdue hk.1).symm

/-- An active position past its maturity: nothing is asked of Decentral yet. -/
theorem notAdvanced_scans {desc : PositionDesc} (h : Reading d w i pos p) (hactive : pos.state = .active)
    (hpast : pos.maturityTime ≤ w.vault.now)
    (hdesc : desc.index = i ∧ desc.past = (w.vault.now : Int) - pos.maturityTime) :
    Scans cfg w [i] acc (cfg.finish pos desc .clear (cfg.notAdvanced w.vault.paused desc acc)) := by
  have hdue : w.keeperDue i = false := eq_false_of_ne_true fun hdue => (h.keeperDue_iff.1 hdue).1 hactive
  have hnot : ∀ {k : Nat}, ¬ (k ∈ [i] ∧ w.keeperDue k = true) := by
    rintro k ⟨hk, hbk⟩
    rw [List.mem_singleton.1 hk, hdue] at hbk
    cases hbk
  have hwait : w.unapproved i = none := h.unapproved_none (by rw [hactive]; decide) (by rw [hactive]; decide)
  refine finish_scans h (by rw [hactive]; decide) hpast hdesc (iff_of_true rfl hwait) ?_ (fun k => ?_) (fun k => ?_)
    (fun k => ?_) (fun k => ?_) ?_
  · rw [List.filterMap_cons_none hwait]
    unfold PositionWatch.notAdvanced
    split_ifs <;> rfl
  · rw [or_iff_left hnot]
    unfold PositionWatch.notAdvanced
    split_ifs <;> rfl
  · rw [if_neg hnot]
    unfold PositionWatch.notAdvanced
    split_ifs <;> rfl
  · rw [or_iff_left fun hk => hnot hk.1]
    unfold PositionWatch.notAdvanced
    split_ifs
    · rw [OrderedMap.get_set, if_neg (by simp)]
    · rfl
  · rw [and_iff_right hwait, and_iff_right hactive]
    unfold PositionWatch.notAdvanced
    rw [hdesc.1]
    by_cases hk : k = i
    · subst hk
      split_ifs with hgrace
      · rw [OrderedMap.get_set, if_pos rfl]
        exact iff_of_true rfl (.inr ⟨rfl, hgrace⟩)
      · rw [or_iff_left fun hlate => hgrace hlate.2]
    · rw [or_iff_left fun hlate => hk hlate.1]
      split_ifs
      · rw [OrderedMap.get_set, if_neg fun hik => hk (PositionKey.pos.inj hik).symm]
      · rfl
  · unfold PositionWatch.notAdvanced
    split_ifs <;> exact ⟨rfl, rfl⟩

/-- A position at Decentral, with the status read there. -/
theorem allows_scans {desc : PositionDesc} {status : DecentralStatus} (h : Reading d w i pos p)
    (hactive : pos.state ≠ .active) (hopen : pos.state ≠ .redeemed) (hpast : pos.maturityTime ≤ w.vault.now)
    (hdesc : desc.index = i ∧ desc.past = (w.vault.now : Int) - pos.maturityTime)
    (hwait : status.requestedAt = none ↔ w.unapproved i = none) (hdue : status.waiting = none ↔ w.keeperDue i = true) :
    Scans cfg w [i] acc (cfg.finish pos desc status (cfg.allows w.vault.paused w.vault.now desc status
      { acc with dec := ((w.unapproved i).map (cfg.addWait acc.dec)).getD acc.dec })) := by
  have hmem : ∀ k, k ∈ [i] ∧ w.keeperDue k = true ↔ k = i ∧ status.waiting = none := by
    intro k
    rw [List.mem_singleton]
    refine and_congr_right ?_
    rintro rfl
    exact hdue.symm
  refine finish_scans h hopen hpast hdesc hwait ?_ (fun k => ?_) (fun k => ?_) (fun k => ?_) (fun k => ?_) ?_
  · unfold PositionWatch.allows
    cases hu : w.unapproved i with
    | none =>
      rw [List.filterMap_cons_none hu]
      split_ifs <;> rfl
    | some x =>
      rw [List.filterMap_cons_some hu]
      split_ifs <;> rfl
  · rw [hmem]
    unfold PositionWatch.allows
    split_ifs with hnone
    · simp [hnone, hdesc.1]
    · simp [hnone]
  · rw [if_congr (hmem k) rfl rfl]
    unfold PositionWatch.allows
    rw [hdesc.1]
    split_ifs with hnone hk hk
    · rw [hk.1, OrderedMap.get_set, if_pos rfl]
    · dsimp only
      rw [OrderedMap.get_set, if_neg fun hik => hk ⟨hik.symm, hnone⟩]
    · exact absurd hk.2 hnone
    · rfl
  · rw [hmem]
    unfold PositionWatch.allows
    rw [hdesc.1]
    by_cases hnone : status.waiting = none
    · rw [if_pos hnone]
      dsimp only
      by_cases hk : k = i
      · subst hk
        split_ifs with hidle
        · rw [OrderedMap.get_set, if_pos rfl]
          exact iff_of_true rfl (.inr ⟨⟨rfl, hnone⟩, hidle⟩)
        · rw [or_iff_left fun hage => hidle hage.2]
      · rw [or_iff_left fun hage => hk hage.1.1]
        split_ifs
        · rw [OrderedMap.get_set, if_neg fun hik => hk (PositionKey.ready.inj hik).symm]
        · rfl
    · rw [if_neg hnone, or_iff_left fun hk => hnone hk.1.2]
  · rw [or_iff_left fun hk => hactive hk.2.2.1]
    unfold PositionWatch.allows
    dsimp only
    split_ifs
    · rw [OrderedMap.get_set, if_neg (by simp)]
    · rfl
    · rfl
  · unfold PositionWatch.allows
    split_ifs <;> exact ⟨rfl, rfl⟩

/-- One round of the loop, by the state of the position. -/
theorem scanPosition_scans (h : Reading d w i pos p) (hdate : ¬ w.Undatable i) (acc : PositionScan) :
    ∃ acc', cfg.scanPosition w acc (i, pos) = .ok acc' ∧ Scans cfg w [i] acc acc' := by
  unfold PositionWatch.scanPosition
  dsimp only
  by_cases hredeemed : pos.state = .redeemed
  · rw [if_pos hredeemed]
    have hup : w.isUpcoming i = false := by
      rw [h.isUpcoming]
      exact decide_eq_false fun hu => hu.1 hredeemed
    refine ⟨acc, rfl, quiet_scans (h.quiet (.inl hredeemed)) fun k => (or_iff_left ?_).symm⟩
    rintro ⟨hk, hu⟩
    rw [List.mem_singleton.1 hk, hup] at hu
    cases hu
  rw [if_neg hredeemed]
  by_cases hearly : w.vault.now < pos.maturityTime
  · rw [if_pos (by omega)]
    have hup : w.isUpcoming i = true := by
      rw [h.isUpcoming]
      exact decide_eq_true ⟨hredeemed, hearly⟩
    refine ⟨_, rfl, quiet_scans (h.quiet (.inr hearly)) fun k => ?_⟩
    rw [List.map_append, List.mem_append]
    refine or_congr_right ⟨fun hk => ?_, fun hk => hk.1⟩
    exact ⟨hk, by rw [List.mem_singleton.1 hk]; exact hup⟩
  rw [if_neg (by omega)]
  have hpast : pos.maturityTime ≤ w.vault.now := not_lt.1 hearly
  by_cases hactive : pos.state = .active
  · rw [if_pos hactive]
    exact ⟨_, rfl, notAdvanced_scans h hactive hpast ⟨rfl, rfl⟩⟩
  · rw [if_neg hactive]
    obtain ⟨status, hstatus, hwait, hasked, hdue⟩ := h.status hactive hredeemed hdate
    rw [hstatus]
    refine ⟨_, rfl, ?_⟩
    rw [hwait]
    exact allows_scans h hactive hredeemed hpast ⟨rfl, rfl⟩ hasked hdue

/-- A round that throws leaves the times as they were. -/
theorem scanPosition_throws (h : Reading d w i pos p) (hdate : w.Undatable i) (acc : PositionScan) :
    cfg.scanPosition w acc (i, pos) = .error acc.readySince := by
  have hstate := (h.undatable_iff.1 hdate).state
  have hpast := h.matured (by rw [hstate]; decide)
  unfold PositionWatch.scanPosition
  dsimp only
  rw [h.status_none hdate, if_neg (by rw [hstate]; decide), if_neg (by omega), if_neg (by rw [hstate]; decide)]

/-- The rounds go through, or stop at the first position whose date cannot be written. -/
theorem foldlM_scans (cfg : PositionWatch) {es : List (Nat × NFTPosition)}
    (hread : ∀ e ∈ es, ∃ p, Reading d w e.1 e.2 p) (acc : PositionScan) :
    ((∀ e ∈ es, ¬ w.Undatable e.1) ∧ ∃ acc', es.foldlM (cfg.scanPosition w) acc = .ok acc' ∧
        Scans cfg w (es.map Prod.fst) acc acc') ∨
      ∃ before e after a, es = before ++ e :: after ∧ w.Undatable e.1 ∧ (∀ e' ∈ before, ¬ w.Undatable e'.1) ∧
        es.foldlM (cfg.scanPosition w) acc = .error a.readySince ∧ Scans cfg w (before.map Prod.fst) acc a := by
  induction es generalizing acc with
  | nil => exact .inl ⟨fun _ he => absurd he List.not_mem_nil, acc, rfl, .nil⟩
  | cons e es ih =>
    obtain ⟨p, h⟩ := hread e List.mem_cons_self
    by_cases hdate : w.Undatable e.1
    · refine .inr ⟨[], e, es, acc, rfl, hdate, fun _ he => absurd he List.not_mem_nil, ?_, .nil⟩
      rw [List.foldlM_cons, scanPosition_throws h hdate]
      rfl
    · obtain ⟨a, hround, hscans⟩ := scanPosition_scans h hdate acc
      rw [List.foldlM_cons, hround]
      rcases ih (fun e he => hread e (List.mem_cons_of_mem _ he)) a with
        ⟨hdates, acc', hrest, hscans'⟩ | ⟨before, e', after, a', rfl, hdate', hdates, hrest, hscans'⟩
      · exact .inl ⟨List.forall_mem_cons.2 ⟨hdate, hdates⟩, acc', hrest, hscans.cons hscans'⟩
      · exact .inr ⟨e :: before, e', after, a', rfl, hdate', List.forall_mem_cons.2 ⟨hdate, hdates⟩, hrest,
          hscans.cons hscans'⟩

end Loop

/-! ## A scan of a reachable world -/

section Blame

variable {d : Deployment} {w : World} {cfg : PositionWatch}

/-- The positions of a batch come in order. -/
theorem batch_eq {α : Type} (lo hi : Nat) (fn : Nat → α) :
    batch lo hi fn = (List.range' lo (hi - lo)).map fun id => (id, fn id) := by
  have hfirst : ∀ m, (List.range m).flatMap (fun k => List.range' (lo + k * batchSize)
      (min hi (lo + k * batchSize + batchSize) - (lo + k * batchSize))) = List.range' lo (min (m * batchSize) (hi - lo)) := by
    intro m
    induction m with
    | zero => simp
    | succ m ih =>
      rw [List.range_succ, List.flatMap_append, ih, List.flatMap_singleton]
      by_cases hlt : m * batchSize ≤ hi - lo
      · rw [min_eq_left hlt, List.range'_append_1]
        congr 1
        have hsucc : (m + 1) * batchSize = m * batchSize + batchSize := Nat.succ_mul ..
        omega
      · have hsucc : (m + 1) * batchSize = m * batchSize + batchSize := Nat.succ_mul ..
        rw [show min hi (lo + m * batchSize + batchSize) - (lo + m * batchSize) = 0 by omega, List.range'_zero,
          List.append_nil]
        congr 1
        omega
  have hall : min ((hi - lo + batchSize - 1) / batchSize * batchSize) (hi - lo) = hi - lo := by
    apply min_eq_right
    unfold batchSize
    omega
  have hids := hfirst ((hi - lo + batchSize - 1) / batchSize)
  rw [hall] at hids
  rw [← hids, List.map_flatMap]
  rfl

/-- The loop adds up the digest. -/
theorem PositionWatch.digest_foldl (cfg : PositionWatch) (ws : List ApprovalWait) :
    ws.foldl cfg.addWait noWaits = cfg.digest ws := by
  induction ws using List.reverseRecOn with
  | nil => rfl
  | append_singleton ws x ih =>
    rw [List.foldl_append, ih]
    simp only [List.foldl_cons, List.foldl_nil, addWait, digest, List.filter_append, List.map_append, List.foldl_append,
      List.length_append, List.sum_append, List.map_cons, List.map_nil, List.sum_singleton, List.length_singleton]
    by_cases hlate : (cfg.approvalSlaSeconds : Int) ≤ x.age <;> by_cases hslow : (cfg.digestMinWaitSeconds : Int) ≤ x.age <;>
      simp [hlate, hslow]

/-- Nothing is due at a position that a scan does not read. -/
theorem World.unread (cfg : PositionWatch) (h : (world d).Reach w) {i : Nat} (hi : i ∉ w.unswept) :
    w.unapproved i = none ∧ w.keeperDue i = false ∧ cfg.late w i = false ∧ w.isMatured i = false ∧
      w.isUpcoming i = false := by
  rw [World.unswept, List.mem_range'_1, not_and_or, not_le, not_lt] at hi
  rcases lt_or_ge i w.vault.positionHead with hlt | hge
  · -- the head has passed redeemed positions only
    obtain ⟨pos, hpos, hredeemed⟩ := (World.vault_reachable h).1.inv.lifecycle.swept i hlt
    obtain ⟨p, hreading⟩ := Reading.of_reach h hpos
    obtain ⟨hwait, hdue, hlate, hmatured⟩ := hreading.quiet (.inl hredeemed)
    refine ⟨hwait, hdue, hlate, hmatured, ?_⟩
    rw [hreading.isUpcoming]
    exact decide_eq_false fun hu => hu.1 hredeemed
  · have hnone : w.vault.positions[i]? = none := List.getElem?_eq_none (by omega)
    simp only [World.unapproved, World.keeperDue, PositionWatch.late, World.isMatured, World.isUpcoming, hnone,
      Option.bind_eq_bind, Option.bind_none, Option.any_none, Bool.false_and, and_self]

theorem World.unswept_due {b : Nat → Bool} {i : Nat} (h : i ∉ w.unswept → b i = false) :
    i ∈ w.unswept ∧ b i = true ↔ b i = true := by
  refine and_iff_right_of_imp fun hi => by_contra fun hnot => ?_
  rw [h hnot] at hi
  cases hi

/-- The digest leaves out what a scan does not read. -/
theorem World.unapproved_unswept (h : (world d).Reach w) :
    w.unswept.filterMap w.unapproved = (List.range w.vault.positions.length).filterMap w.unapproved := by
  have hhead : w.vault.positionHead ≤ w.vault.positions.length := by
    by_contra hlt
    obtain ⟨pos, hpos, -⟩ := (World.vault_reachable h).1.inv.lifecycle.swept w.vault.positions.length (not_le.1 hlt)
    rw [List.getElem?_eq_none (le_refl _)] at hpos
    cases hpos
  have hsplit : List.range w.vault.positions.length = List.range' 0 w.vault.positionHead ++ w.unswept := by
    have happend := @List.range'_append_1 0 w.vault.positionHead (w.vault.positions.length - w.vault.positionHead)
    rw [Nat.zero_add, Nat.add_sub_cancel' hhead] at happend
    rw [World.unswept, happend, List.range_eq_range']
  have hswept : (List.range' 0 w.vault.positionHead).filterMap w.unapproved = [] := by
    rw [List.filterMap_eq_nil_iff]
    intro i hi
    refine (World.unread ⟨0, 0, 0, 0, 0⟩ h fun hread => ?_).1
    have hlt := (List.mem_range'_1.1 hi).2
    have hge := (List.mem_range'_1.1 hread).1
    omega
  rw [hsplit, List.filterMap_append, hswept, List.nil_append]

/-- The reads of positions that are there. -/
theorem readAll_some {is : List Nat} (h : ∀ i ∈ is, i < w.vault.positions.length) :
    ∃ es, PositionWatch.readAll (is.map fun i => (i, w.vault.positions[i]?)) = some es ∧ es.map Prod.fst = is ∧
      ∀ e ∈ es, w.vault.positions[e.1]? = some e.2 := by
  induction is with
  | nil => exact ⟨[], rfl, rfl, fun _ he => absurd he List.not_mem_nil⟩
  | cons i is ih =>
    obtain ⟨es, hes, hfst, hall⟩ := ih fun j hj => h j (List.mem_cons_of_mem _ hj)
    have hpos := List.getElem?_eq_getElem (h i List.mem_cons_self)
    refine ⟨(i, w.vault.positions.get ⟨i, h i List.mem_cons_self⟩) :: es, ?_, by rw [List.map_cons, hfst], ?_⟩
    · unfold PositionWatch.readAll at hes ⊢
      rw [List.map_cons, List.mapM_cons, hes, hpos]
      rfl
    · intro e he
      rcases List.mem_cons.1 he with rfl | he
      · exact hpos
      · exact hall e he

/-- What is there before an index in the middle of a range. -/
theorem mem_before {lo n i k : Nat} {before after : List Nat} (h : List.range' lo n = before ++ i :: after) :
    k ∈ before ↔ k ∈ List.range' lo n ∧ k < i := by
  have hsorted : (before ++ i :: after).Pairwise (· < ·) := h ▸ List.pairwise_lt_range'
  rw [h, List.mem_append, List.mem_cons]
  obtain ⟨-, htail, hcross⟩ := List.pairwise_append.1 hsorted
  constructor
  · exact fun hk => ⟨.inl hk, hcross k hk i List.mem_cons_self⟩
  · rintro ⟨hk | rfl | hk, hlt⟩
    · exact hk
    · exact absurd hlt (lt_irrefl _)
    · exact absurd (List.rel_of_pairwise_cons htail hk) (by omega)

/-- A position that the head has passed is redeemed, and waits for no date. -/
theorem World.Undatable.unswept (h : (world d).Reach w) (hdate : w.Undatable i) : i ∈ w.unswept := by
  obtain ⟨pos, p, hpos, -, hdate⟩ := hdate
  by_contra hi
  rw [World.unswept, List.mem_range'_1, not_and_or, not_le, not_lt] at hi
  rcases hi with hlt | hge
  · obtain ⟨pos', hpos', hredeemed⟩ := (World.vault_reachable h).1.inv.lifecycle.swept i hlt
    obtain rfl := Option.some.inj (hpos.symm.trans hpos')
    cases hredeemed.symm.trans hdate.state
  · rw [List.getElem?_eq_none (by omega)] at hpos
    cases hpos

/-- A scan goes through over the positions that the head has not passed, or stops at the first one whose date
cannot be written. -/
theorem scan_scans (cfg : PositionWatch) (readySince : List (Nat × Nat)) (h : (world d).Reach w) :
    ((∀ i, ¬ w.Undatable i) ∧
      ∃ r, Scans cfg w w.unswept ⟨[], [], readySince, [], [], PositionWatch.noWaits⟩ r ∧
        cfg.scan w readySince = .ok { r with
          readySince := r.readySince.filter fun e => decide (e.1 ∈ r.ready)
          upcoming := r.upcoming.mergeSort fun a b => decide (a.maturity ≤ b.maturity) }) ∨
      ∃ i before after r, w.unswept = before ++ i :: after ∧ w.Undatable i ∧ (∀ j < i, ¬ w.Undatable j) ∧
        Scans cfg w before ⟨[], [], readySince, [], [], PositionWatch.noWaits⟩ r ∧
        cfg.scan w readySince = .error r.readySince := by
  have hinside : ∀ i ∈ w.unswept, i < w.vault.positions.length := by
    intro i hi
    have := List.mem_range'_1.1 hi
    omega
  obtain ⟨es, hes, hfst, hall⟩ := readAll_some hinside
  have hscan : ∀ x, es.foldlM (cfg.scanPosition w) ⟨[], [], readySince, [], [], PositionWatch.noWaits⟩ = x →
      cfg.scan w readySince = x >>= fun r => pure { r with
        readySince := r.readySince.filter fun e => decide (e.1 ∈ r.ready)
        upcoming := r.upcoming.mergeSort fun a b => decide (a.maturity ≤ b.maturity) } := by
    rintro x rfl
    unfold PositionWatch.scan
    rw [batch_eq]
    unfold World.unswept at hes
    rw [hes]
  have hread : ∀ e ∈ es, ∃ p, Reading d w e.1 e.2 p := fun e he => Reading.of_reach h (hall e he)
  rcases foldlM_scans cfg hread ⟨[], [], readySince, [], [], PositionWatch.noWaits⟩ with
    ⟨hdates, r, hr, hscans⟩ | ⟨before, e, after, r, rfl, hdate, hdates, hr, hscans⟩
  · rw [hfst] at hscans
    refine .inl ⟨fun i hdate => ?_, r, hscans, hscan _ hr⟩
    have hi := hdate.unswept h
    rw [← hfst] at hi
    obtain ⟨e, he, rfl⟩ := List.mem_map.1 hi
    exact hdates e he hdate
  · rw [List.map_append, List.map_cons] at hfst
    refine .inr ⟨e.1, before.map Prod.fst, after.map Prod.fst, r, hfst.symm, hdate, fun j hlt hdate' => ?_, hscans,
      hscan _ hr⟩
    obtain ⟨e', he', rfl⟩ := List.mem_map.1 ((mem_before hfst.symm).2 ⟨hdate'.unswept h, hlt⟩)
    exact hdates e' he' hdate'

/-- Whether a scan goes through does not depend on the times kept before it. -/
theorem scan_goes (readySince : List (Nat × Nat)) (h : (world d).Reach w) (hok : (cfg.scan w readySince).isOk = true)
    (readySince' : List (Nat × Nat)) : ∃ r, cfg.scan w readySince' = .ok r := by
  rcases scan_scans cfg readySince' h with ⟨-, r, -, hr⟩ | ⟨i, -, -, -, -, hdate, -, -, -⟩
  · exact ⟨_, hr⟩
  · rcases scan_scans cfg readySince h with ⟨hdates, -⟩ | ⟨_, _, _, _, -, -, -, -, herror⟩
    · exact absurd hdate (hdates i)
    · rw [herror] at hok
      cases hok

/-- What the loop over the positions that the head has not passed finds, it finds of all positions. -/
theorem Scans.found {readySince : List (Nat × Nat)} {r : PositionScan} (h : (world d).Reach w)
    (hscans : Scans cfg w w.unswept ⟨[], [], readySince, [], [], PositionWatch.noWaits⟩ r) :
    r.dec = cfg.digest ((List.range w.vault.positions.length).filterMap w.unapproved) ∧
      (∀ i, i ∈ r.ready ↔ w.keeperDue i = true) ∧
      (∀ i, (OrderedMap.get r.issues (.pos i)).isSome = true ↔ cfg.late w i = true) ∧
      (∀ i, i ∈ r.matured.map MaturedPosition.index ↔ w.isMatured i = true) ∧
      ∀ i, i ∈ r.upcoming.map UpcomingPosition.index ↔ w.isUpcoming i = true := by
  refine ⟨?_, fun i => ?_, fun i => ?_, fun i => ?_, fun i => ?_⟩
  · rw [hscans.dec, World.unapproved_unswept h, PositionWatch.digest_foldl]
  · rw [hscans.ready, or_iff_right List.not_mem_nil]
    exact World.unswept_due fun hi => (World.unread cfg h hi).2.1
  · have hblank : ¬ (OrderedMap.get ([] : List (PositionKey × PositionIssue)) (.pos i)).isSome = true :=
      Bool.false_ne_true
    rw [hscans.late, or_iff_right hblank]
    exact World.unswept_due fun hi => (World.unread cfg h hi).2.2.1
  · refine (hscans.matured i).trans ((or_iff_right List.not_mem_nil).trans ?_)
    exact World.unswept_due fun hi => (World.unread cfg h hi).2.2.2.1
  · refine (hscans.upcoming i).trans ((or_iff_right List.not_mem_nil).trans ?_)
    exact World.unswept_due fun hi => (World.unread cfg h hi).2.2.2.2

/-- The times set before a position in the middle. -/
theorem Scans.times {readySince : List (Nat × Nat)} {r : PositionScan} {before after : List Nat}
    (h : (world d).Reach w) (hsplit : w.unswept = before ++ i :: after)
    (hscans : Scans cfg w before ⟨[], [], readySince, [], [], PositionWatch.noWaits⟩ r) (k : Nat) :
    OrderedMap.get r.readySince k =
      if k < i ∧ w.keeperDue k = true then some ((OrderedMap.get readySince k).getD w.vault.now)
      else OrderedMap.get readySince k := by
  refine (hscans.since k).trans (if_congr ?_ rfl rfl)
  have hdue : k ∈ w.unswept ∧ w.keeperDue k = true ↔ w.keeperDue k = true :=
    World.unswept_due fun hk => (World.unread cfg h hk).2.1
  constructor
  · rintro ⟨hk, hd⟩
    exact ⟨((mem_before hsplit).1 hk).2, hd⟩
  · rintro ⟨hlt, hd⟩
    exact ⟨(mem_before hsplit).2 ⟨(hdue.2 hd).1, hlt⟩, hd⟩

end Blame

/-- The settings by their defaults. -/
def watchDefaults : PositionWatch where
  maturedGraceSeconds := 60 * 60
  claimGraceSeconds := 10 * 60
  approvalSlaSeconds := 48 * 3600
  digestMinWaitSeconds := 24 * 3600
  stuckThresholdSeconds := 96 * 3600

/-- A delay of the principal past every date blinds the watchdog to all positions. -/
theorem watchdog_throws : ∃ w times, (world demo).Reach w ∧ watchDefaults.scan w [] = .error times := by
  obtain ⟨w, hw, ht⟩ := observe_world
    (demoVisits.take (demoFunding.length + 4) ++ .pool bob demoPool (.setPrincipalWithdrawalDelaySeconds lastDate) ::
      demoVisits.drop (demoFunding.length + 4))
    (fun w => !(watchDefaults.scan w []).isOk) (by decide +kernel)
  cases hscan : watchDefaults.scan w [] with
  | ok r =>
    rw [hscan] at ht
    cases ht
  | error times => exact ⟨w, times, hw, hscan⟩

/-! ## Over successive scans -/

section Window

variable {d : Deployment} {w : World} {cfg : PositionWatch}

/-- After a scan that goes through, the ready positions, and no others, have a time: the one they had, or now. -/
theorem scan_since {readySince : List (Nat × Nat)} {r : PositionScan} (h : (world d).Reach w)
    (hr : cfg.scan w readySince = .ok r) :
    (∀ i, OrderedMap.get r.readySince i =
      if w.keeperDue i = true then some ((OrderedMap.get readySince i).getD w.vault.now) else none) ∧
      ∀ i, (OrderedMap.get r.issues (.ready i)).isSome = true ↔ w.keeperDue i = true ∧ w.vault.paused = false ∧
        (cfg.claimGraceSeconds : Int) ≤ (w.vault.now : Int) - ((OrderedMap.get readySince i).getD w.vault.now : Nat) := by
  rcases scan_scans cfg readySince h with ⟨-, r₀, hscans, hr₀⟩ | ⟨_, _, _, _, -, -, -, -, hr₀⟩
  · obtain rfl := Except.ok.inj (hr₀.symm.trans hr)
    have hdue : ∀ i, i ∈ w.unswept ∧ w.keeperDue i = true ↔ w.keeperDue i = true := fun i =>
      World.unswept_due fun hi => (World.unread cfg h hi).2.1
    refine ⟨fun i => ?_, fun i => ?_⟩
    · have hready : i ∈ r₀.ready ↔ w.keeperDue i = true := by
        rw [hscans.ready, or_iff_right List.not_mem_nil, hdue]
      refine (OrderedMap.get_filter (fun k => k ∈ r₀.ready) r₀.readySince i).trans ?_
      rw [if_congr hready rfl rfl, hscans.since]
      by_cases hi : w.keeperDue i = true
      · rw [if_pos hi, if_pos hi, if_pos ((hdue i).2 hi)]
      · rw [if_neg hi, if_neg hi]
    · have hblank : ¬ (OrderedMap.get ([] : List (PositionKey × PositionIssue)) (.ready i)).isSome = true :=
        Bool.false_ne_true
      show (OrderedMap.get r₀.issues (.ready i)).isSome = true ↔ _
      rw [hscans.idle, or_iff_right hblank, hdue]
  · rw [hr₀] at hr
    cases hr

/-- Every one of the scans goes through. -/
def PositionWatch.GoThrough (cfg : PositionWatch) (ws : List World) : Prop :=
  ∀ u before, (u :: before) <:+ ws → ∃ r, cfg.scan u (cfg.kept before) = .ok r

/-- The times kept say since when each position has been ready in every scan. -/
theorem kept_since {ws : List World} (h : ∀ u ∈ ws, (world d).Reach u) (hok : cfg.GoThrough ws) (i : Nat) :
    OrderedMap.get (cfg.kept ws) i = Rounds.since (fun u => u.vault.now) (fun u => u.keeperDue i) ws := by
  induction ws with
  | nil => exact Rounds.since_nil.symm
  | cons w earlier ih =>
    obtain ⟨r, hr⟩ := hok w earlier List.suffix_rfl
    have hget := (scan_since (h w List.mem_cons_self) hr).1
    rw [PositionWatch.kept, hr]
    show OrderedMap.get r.readySince i = _
    rw [hget, ih (fun u hu => h u (List.mem_cons_of_mem _ hu)) fun u before hsuffix =>
      hok u before (hsuffix.trans (List.suffix_cons w earlier))]
    by_cases hi : w.keeperDue i = true
    · rw [if_pos hi, Rounds.since_cons_of_pos earlier hi]
    · rw [if_neg hi, Rounds.since_cons_of_neg earlier hi]

/-- The last of some scans of reachable worlds, which all go through, calls the keeper idle on a position where the
vault is not paused and a scan that is the grace period old, or older, and every scan since, found it ready, none
just before. -/
theorem ready_window (cfg : PositionWatch) {earlier : List World} (h : ∀ u ∈ w :: earlier, (world d).Reach u)
    (hok : cfg.GoThrough (w :: earlier)) :
    ∃ r, cfg.scan w (cfg.kept earlier) = .ok r ∧ ∀ i, (OrderedMap.get r.issues (.ready i)).isSome = true ↔
      w.vault.paused = false ∧ ∃ during first before, w :: earlier = during ++ first :: before ∧
        (∀ u ∈ during ++ [first], u.keeperDue i = true) ∧ (∀ u ∈ before.head?, ¬ u.keeperDue i = true) ∧
        (cfg.claimGraceSeconds : Int) ≤ (w.vault.now : Int) - first.vault.now := by
  obtain ⟨r, hr⟩ := hok w earlier List.suffix_rfl
  have hidle := (scan_since (h w List.mem_cons_self) hr).2
  refine ⟨r, hr, fun i => ?_⟩
  rw [hidle, kept_since (fun u hu => h u (List.mem_cons_of_mem _ hu)) fun u before hsuffix =>
    hok u before (hsuffix.trans (List.suffix_cons w earlier))]
  have hcons : w.keeperDue i = true → Rounds.since (fun u => u.vault.now) (fun u => u.keeperDue i) (w :: earlier) =
      some ((Rounds.since (fun u => u.vault.now) (fun u => u.keeperDue i) earlier).getD w.vault.now) :=
    fun hdue => Rounds.since_cons_of_pos earlier hdue
  constructor
  · rintro ⟨hdue, hrunning, hage⟩
    obtain ⟨during, first, before, hsplit, hall, hbefore, htime⟩ := Rounds.since_eq_some_iff.1 (hcons hdue)
    exact ⟨hrunning, during, first, before, hsplit, hall, hbefore, by rw [htime]; exact hage⟩
  · rintro ⟨hrunning, during, first, before, hsplit, hall, hbefore, hage⟩
    have hdue : w.keeperDue i = true := by
      refine hall w ?_
      cases during with
      | nil => exact List.mem_singleton.2 (List.cons.inj hsplit).1
      | cons u during => exact List.mem_append_left _ ((List.cons.inj hsplit).1 ▸ List.mem_cons_self)
    have hsince : Rounds.since (fun u => u.vault.now) (fun u => u.keeperDue i) (w :: earlier) = some first.vault.now :=
      Rounds.since_eq_some_iff.2 ⟨during, first, before, hsplit, hall, hbefore, rfl⟩
    rw [hcons hdue] at hsince
    exact ⟨hdue, hrunning, by rw [Option.some.inj hsince]; exact hage⟩

end Window

/-- Ten minutes after a scan that found the position ready the keeper is called idle. -/
theorem ready_window_demo : ∃ u w r, (world demo).Reach u ∧ (world demo).Reach w ∧
    watchDefaults.scan w (watchDefaults.kept [u]) = .ok r ∧ (OrderedMap.get r.issues (.ready 0)).isSome = true := by
  obtain ⟨u, hu, hut⟩ := observe_world demoVisits
    (fun u => u.keeperDue 0 && decide (u.vault.now = 62 * 24 * 60 * 60) && (watchDefaults.scan u []).isOk)
    (by decide +kernel)
  obtain ⟨w, hw, hwt⟩ := observe_world (demoVisits ++ [.outside (.tick (62 * 24 * 60 * 60 + 10 * 60))])
    (fun w => w.keeperDue 0 && decide (w.vault.now = 62 * 24 * 60 * 60 + 10 * 60 ∧ w.vault.paused = false) &&
      (watchDefaults.scan w []).isOk) (by decide +kernel)
  simp only [Bool.and_eq_true, decide_eq_true_iff] at hut hwt
  have hreach : ∀ v ∈ [w, u], (world demo).Reach v := by
    simp [hu, hw]
  have hok : watchDefaults.GoThrough [w, u] := by
    intro v before hsuffix
    have hv : v ∈ [w, u] := hsuffix.subset List.mem_cons_self
    refine scan_goes [] (hreach v hv) ?_ _
    rcases List.mem_cons.1 hv with rfl | hv
    · exact hwt.2
    · rw [List.mem_singleton.1 hv]
      exact hut.2
  obtain ⟨r, hr, hidle⟩ := ready_window watchDefaults hreach hok
  refine ⟨u, w, r, hu, hw, hr, (hidle 0).2 ⟨hwt.1.2.2, [w], u, [], rfl, ?_, by simp, ?_⟩⟩
  · simp [hut.1.1, hwt.1.1]
  · rw [hut.1.2, hwt.1.2.1]
    decide

end MoneyMarket
