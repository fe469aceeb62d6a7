/-
The watchdog's eye on unclaimed redemptions. Each scan reads the queue from `getQueueHead` on and
tracks since when an opted-in settled request is waiting. A request the head has passed is out of
its sight: a run of scans alerts on an unclaimed request if and only if the head has not passed it
(`watchdog_window`), and settling a request in full takes the head past it (`watchdog_blind`).
-/
import MoneyMarket.Keeper.AutoClaim
import MoneyMarket.Vault.Settlement

namespace MoneyMarket

open Evm Relation Transition

/-! ## What a scan reads -/

/-- The settings this section of a scan reads. -/
structure Watchdog where
  keeperAddress : Option Address
  claimGraceSeconds : Nat

def batchSize : Nat := 20

/-- The ids of `[lo, hi)` with what is read of each, one batch after another. -/
def batch {α : Type} (lo hi : Nat) (fn : Nat → α) : List (Nat × α) :=
  (List.range ((hi - lo + batchSize - 1) / batchSize)).flatMap fun k =>
    let i := lo + k * batchSize
    (List.range' i (min hi (i + batchSize) - i)).map fun id => (id, fn id)

def getQueueHead (s : State) : Nat := s.queueHead

/-- What `getRedemptionRequest` answers. -/
abbrev RequestView := Address × Nat × Nat × Nat × Bool

/-- The requests from the head on that are in use and have settled shares. -/
def settledRequests (s : State) : List (Nat × RequestView) :=
  (batch (getQueueHead s) (getRedemptionQueueLength s) (getRedemptionRequest s)).filter fun e =>
    let (_, _, bilSettled, _, active) := e.2
    active && decide (0 < bilSettled)

/-- The opt-in flag of each user, read once. -/
def optInFlags (s : State) (users : List Address) : List (Address × Bool) :=
  users.foldl (fun optIn u => OrderedMap.set optIn u (s.autoClaimEnabled u)) []

/-- The settled requests that the keeper should have claimed. -/
def waitingRequests (s : State) : List (Nat × RequestView) :=
  let settled := settledRequests s
  let optIn := optInFlags s (settled.map fun e => e.2.1).eraseDups
  settled.filter fun e => (OrderedMap.get optIn e.2.1).getD false

/-! ## A scan -/

inductive Level where
  | warn
  | error
  deriving Repr, DecidableEq

/-- An issue by its key, with the values its text shows. -/
inductive Issue where
  | vaultPaused
  | claimDisabled (waiting : Nat)
  | claim (id : Nat) (user : Address) (bilSettled hollarOwed : Nat) (age : Int)
  deriving Repr, DecidableEq

def Issue.level : Issue → Level
  | .vaultPaused => .warn
  | .claimDisabled _ => .warn
  | .claim _ _ _ _ _ => .error

/-- Each waiting request keeps the time it was first seen, and past the grace period is an issue. -/
def trackClaims (w : Watchdog) (now : Nat) :
    List (Nat × RequestView) → List (Nat × Nat) → List Issue → List (Nat × Nat) × List Issue
  | [], settledSince, issues => (settledSince, issues)
  | (id, user, _, bilSettled, hollarOwed, _) :: rest, settledSince, issues =>
    let since := (OrderedMap.get settledSince id).getD now
    let age : Int := (now : Int) - since
    let issues :=
      if (w.claimGraceSeconds : Int) ≤ age then issues ++ [.claim id user bilSettled hollarOwed age] else issues
    trackClaims w now rest (OrderedMap.set settledSince id since) issues

def Watchdog.claimRole (w : Watchdog) (s : State) : Bool :=
  match w.keeperAddress with
  | some keeper => s.hasRole .claimOperator keeper
  | none => false

/-- The requests a scan tracks: none while the keeper could not claim them. -/
def Watchdog.tracked (w : Watchdog) (s : State) : List (Nat × RequestView) :=
  if w.claimRole s && !s.paused then waitingRequests s else []

/-- The auto-claim section of `scan`: the times it keeps and the issues it raises. -/
def Watchdog.scan (w : Watchdog) (s : State) (settledSince : List (Nat × Nat)) : List (Nat × Nat) × List Issue :=
  let issues := if s.paused then [Issue.vaultPaused] else []
  let waiting := waitingRequests s
  let issues :=
    if w.keeperAddress.isSome && !w.claimRole s && !waiting.isEmpty then issues ++ [.claimDisabled waiting.length]
    else issues
  let (settledSince, issues) := trackClaims w s.now (w.tracked s) settledSince issues
  (settledSince.filter fun e => decide (e.1 ∈ (w.tracked s).map Prod.fst), issues)

/-- Scans of the given states, the latest first, by a watchdog that starts with nothing tracked. -/
def Watchdog.watch (w : Watchdog) : List State → List (Nat × Nat) × List Issue
  | [] => ([], [])
  | s :: earlier => w.scan s (w.watch earlier).1

/-- The last of the scans raises the issue of the request, with what the vault then says of it. -/
def Watchdog.Alerts (w : Watchdog) (s : State) (earlier : List State) (id : Nat) : Prop :=
  ∃ age, .claim id (s.redemptionQueue id).user (s.redemptionQueue id).bilSettled (s.redemptionQueue id).hollarOwed age ∈
    (w.watch (s :: earlier)).2

/-- The states some scans read, the latest first: each comes after the one before in a run. -/
inductive Timeline (d : Deployment) : List State → Prop
  | first {s : State} : Reachable d s → Timeline d [s]
  | next {s t : State} {earlier : List State} :
      Timeline d (s :: earlier) → (vault d).Leads s t → Timeline d (t :: s :: earlier)

/-- A live request with settled shares whose controller lets the keeper claim. -/
def Due (s : State) (id : Nat) : Prop :=
  (s.redemptionQueue id).user ≠ 0 ∧ 0 < (s.redemptionQueue id).bilSettled ∧
    s.autoClaimEnabled (s.redemptionQueue id).user = true

/-! ## The waiting requests -/

theorem mem_batch {α : Type} {lo hi : Nat} {fn : Nat → α} {id : Nat} {r : α} :
    (id, r) ∈ batch lo hi fn ↔ lo ≤ id ∧ id < hi ∧ r = fn id := by
  simp only [batch, List.mem_flatMap, List.mem_range, List.mem_map, List.mem_range'_1, Prod.mk.injEq]
  constructor
  · rintro ⟨k, -, j, ⟨hle, hlt⟩, rfl, rfl⟩
    exact ⟨by omega, by omega, rfl⟩
  · rintro ⟨hle, hlt, rfl⟩
    have hdiv := Nat.div_add_mod (id - lo) batchSize
    have hmod : (id - lo) % batchSize < batchSize := Nat.mod_lt _ (by decide)
    refine ⟨(id - lo) / batchSize, ?_, id, ⟨?_, ?_⟩, rfl, rfl⟩ <;> unfold batchSize at * <;> omega

theorem mem_settledRequests {s : State} {id : Nat} {r : RequestView} :
    (id, r) ∈ settledRequests s ↔ s.queueHead ≤ id ∧ id < s.queueTail ∧ r = getRedemptionRequest s id ∧
      (s.redemptionQueue id).user ≠ 0 ∧ 0 < (s.redemptionQueue id).bilSettled := by
  unfold settledRequests
  rw [List.mem_filter, mem_batch]
  constructor
  · rintro ⟨⟨hle, hlt, rfl⟩, hlive⟩
    obtain ⟨huser, hpos⟩ := (Bool.and_eq_true _ _).mp hlive
    exact ⟨hle, hlt, rfl, of_decide_eq_true huser, of_decide_eq_true hpos⟩
  · rintro ⟨hle, hlt, rfl, huser, hpos⟩
    exact ⟨⟨hle, hlt, rfl⟩, (Bool.and_eq_true _ _).mpr ⟨decide_eq_true huser, decide_eq_true hpos⟩⟩

/-- The flag a scan looks up is the vault's own. -/
theorem optInFlags_get {s : State} {users : List Address} {u : Address} (hu : u ∈ users) :
    OrderedMap.get (optInFlags s users) u = some (s.autoClaimEnabled u) := by
  unfold optInFlags
  rw [OrderedMap.get_foldl_set, if_pos hu]

/-- A scan waits for exactly the due requests from the head on. -/
theorem mem_waitingRequests {d : Deployment} {s : State} (h : Invariant d s) {id : Nat} {r : RequestView} :
    (id, r) ∈ waitingRequests s ↔ Due s id ∧ s.queueHead ≤ id ∧ r = getRedemptionRequest s id := by
  unfold waitingRequests
  rw [List.mem_filter, mem_settledRequests]
  constructor
  · rintro ⟨⟨hle, hlt, rfl, huser, hpos⟩, hflag⟩
    rw [optInFlags_get] at hflag
    · exact ⟨⟨huser, hpos, hflag⟩, hle, rfl⟩
    · rw [List.mem_eraseDups]
      exact List.mem_map_of_mem (mem_settledRequests.2 ⟨hle, hlt, rfl, huser, hpos⟩)
  · rintro ⟨⟨huser, hpos, hflag⟩, hle, rfl⟩
    have hmem : s.queueHead ≤ id ∧ id < s.queueTail ∧ getRedemptionRequest s id = getRedemptionRequest s id ∧
        (s.redemptionQueue id).user ≠ 0 ∧ 0 < (s.redemptionQueue id).bilSettled :=
      ⟨hle, h.ledger.lt_tail huser, rfl, huser, hpos⟩
    refine ⟨hmem, ?_⟩
    rw [optInFlags_get]
    · exact hflag
    · rw [List.mem_eraseDups]
      exact List.mem_map_of_mem (mem_settledRequests.2 hmem)

theorem mem_waiting_ids {d : Deployment} {s : State} (h : Invariant d s) {id : Nat} :
    id ∈ (waitingRequests s).map Prod.fst ↔ Due s id ∧ s.queueHead ≤ id := by
  rw [List.mem_map]
  constructor
  · rintro ⟨⟨k, r⟩, hmem, rfl⟩
    obtain ⟨hdue, hle, -⟩ := (mem_waitingRequests h).1 hmem
    exact ⟨hdue, hle⟩
  · rintro ⟨hdue, hle⟩
    exact ⟨_, (mem_waitingRequests h).2 ⟨hdue, hle, rfl⟩, rfl⟩

/-- What the head has passed and is still live is settled in full. -/
theorem passed_settled {d : Deployment} {s : State} (h : Invariant d s) {id : Nat} (hid : id < s.queueHead)
    (hu : (s.redemptionQueue id).user ≠ 0) : 0 < (s.redemptionQueue id).bilSettled := by
  rw [h.fifo.below id hid]
  exact (h.ledger.live id hu).pos

/-! ## The times it keeps -/

section Track

variable {w : Watchdog} {now : Nat}

/-- Setting a request's time to what it counts from changes no count. -/
theorem since_set (m : List (Nat × Nat)) (k id : Nat) :
    (OrderedMap.get (OrderedMap.set m k ((OrderedMap.get m k).getD now)) id).getD now =
      (OrderedMap.get m id).getD now := by
  rw [OrderedMap.get_set]
  by_cases hk : k = id
  · subst hk; rw [if_pos rfl]; rfl
  · rw [if_neg hk]

theorem trackClaims_get (ws : List (Nat × RequestView)) (m : List (Nat × Nat)) (issues : List Issue) (id : Nat) :
    OrderedMap.get (trackClaims w now ws m issues).1 id =
      if id ∈ ws.map Prod.fst then some ((OrderedMap.get m id).getD now) else OrderedMap.get m id := by
  induction ws generalizing m issues with
  | nil => simp [trackClaims]
  | cons e ws ih =>
    obtain ⟨k, user, amount, bilSettled, hollarOwed, active⟩ := e
    rw [trackClaims, ih, since_set, OrderedMap.get_set]
    by_cases hk : k = id
    · subst hk
      rw [if_pos rfl, ite_self]
      exact (if_pos List.mem_cons_self).symm
    · rw [if_neg hk]
      exact if_congr (by rw [List.map_cons, List.mem_cons, or_iff_right (Ne.symm hk)]) rfl rfl

theorem mem_trackClaims (ws : List (Nat × RequestView)) (m : List (Nat × Nat)) (issues : List Issue) (issue : Issue) :
    issue ∈ (trackClaims w now ws m issues).2 ↔ issue ∈ issues ∨
      ∃ id user amount bilSettled hollarOwed active, (id, user, amount, bilSettled, hollarOwed, active) ∈ ws ∧
        (w.claimGraceSeconds : Int) ≤ (now : Int) - ((OrderedMap.get m id).getD now : Nat) ∧
        issue = .claim id user bilSettled hollarOwed ((now : Int) - ((OrderedMap.get m id).getD now : Nat)) := by
  induction ws generalizing m issues with
  | nil => simp [trackClaims]
  | cons e ws ih =>
    obtain ⟨k, user, amount, bilSettled, hollarOwed, active⟩ := e
    rw [trackClaims, ih]
    simp only [since_set, List.mem_cons]
    constructor
    · rintro (hin | ⟨id, u, n, b, v, x, hmem, hage, rfl⟩)
      · split_ifs at hin with hage
        · rcases List.mem_append.1 hin with hin | hin
          · exact .inl hin
          · exact .inr ⟨k, user, amount, bilSettled, hollarOwed, active, .inl rfl, hage, List.mem_singleton.1 hin⟩
        · exact .inl hin
      · exact .inr ⟨id, u, n, b, v, x, .inr hmem, hage, rfl⟩
    · rintro (hin | ⟨id, u, n, b, v, x, hmem | hmem, hage, rfl⟩)
      · refine .inl ?_
        split_ifs
        · exact List.mem_append_left _ hin
        · exact hin
      · cases hmem
        rw [if_pos hage]
        exact .inl (List.mem_append_right _ (List.mem_singleton_self _))
      · exact .inr ⟨id, u, n, b, v, x, hmem, hage, rfl⟩

end Track

/-! ## Over successive scans -/

/-- The keeper could claim: it has the role, and the vault is not paused. -/
def Watchdog.Answerable (w : Watchdog) (s : State) : Prop := w.claimRole s = true ∧ s.paused = false

section Watch

variable {d : Deployment} {w : Watchdog} {s : State} {earlier : List State} {id : Nat}

theorem mem_tracked (h : Invariant d s) {r : RequestView} :
    (id, r) ∈ w.tracked s ↔ w.Answerable s ∧ Due s id ∧ s.queueHead ≤ id ∧ r = getRedemptionRequest s id := by
  unfold Watchdog.tracked Watchdog.Answerable
  rw [← mem_waitingRequests h]
  by_cases ha : w.claimRole s = true ∧ s.paused = false
  · rw [if_pos (by rw [ha.1, ha.2]; rfl)]
    exact (and_iff_right ha).symm
  · rw [if_neg fun hc => ha (by simpa using hc)]
    exact iff_of_false List.not_mem_nil fun hc => ha hc.1

theorem mem_tracked_ids (h : Invariant d s) :
    id ∈ (w.tracked s).map Prod.fst ↔ w.Answerable s ∧ Due s id ∧ s.queueHead ≤ id := by
  rw [List.mem_map]
  constructor
  · rintro ⟨⟨k, r⟩, hmem, rfl⟩
    obtain ⟨ha, hdue, hle, -⟩ := (mem_tracked h).1 hmem
    exact ⟨ha, hdue, hle⟩
  · rintro ⟨ha, hdue, hle⟩
    exact ⟨_, (mem_tracked h).2 ⟨ha, hdue, hle, rfl⟩, rfl⟩

/-- After a scan the tracked requests, and no others, have a time: the one they had, or now. -/
theorem scan_get (m : List (Nat × Nat)) :
    OrderedMap.get (w.scan s m).1 id =
      if id ∈ (w.tracked s).map Prod.fst then some ((OrderedMap.get m id).getD s.now) else none := by
  refine (OrderedMap.get_filter (fun k => k ∈ (w.tracked s).map Prod.fst) _ id).trans ?_
  by_cases hid : id ∈ (w.tracked s).map Prod.fst
  · rw [if_pos hid, if_pos hid, trackClaims_get, if_pos hid]
  · rw [if_neg hid, if_neg hid]

/-- A scan alerts on the tracked requests that it has known for the grace period. -/
theorem alerts_iff (h : Invariant d s) :
    w.Alerts s earlier id ↔ (w.Answerable s ∧ Due s id ∧ s.queueHead ≤ id) ∧
      (w.claimGraceSeconds : Int) ≤ (s.now : Int) - ((OrderedMap.get (w.watch earlier).1 id).getD s.now : Nat) := by
  unfold Watchdog.Alerts
  rw [Watchdog.watch, Watchdog.scan]
  simp only [mem_trackClaims]
  constructor
  · rintro ⟨age, hin | ⟨k, user, amount, bilSettled, hollarOwed, active, hmem, hage, heq⟩⟩
    · -- the other issues of the section are not about a request
      exfalso
      split_ifs at hin <;> simp at hin
    · cases heq
      obtain ⟨ha, hdue, hle, -⟩ := (mem_tracked h).1 hmem
      exact ⟨⟨ha, hdue, hle⟩, hage⟩
  · rintro ⟨⟨ha, hdue, hle⟩, hage⟩
    exact ⟨_, .inr ⟨id, _, _, _, _, _, (mem_tracked h).2 ⟨ha, hdue, hle, rfl⟩, hage, rfl⟩⟩

/-- Along a run neither the time nor the head of the queue goes back. -/
theorem leads_forward {t : State} (h : Reachable d s) (hl : (vault d).Leads s t) :
    s.now ≤ t.now ∧ s.queueHead ≤ t.queueHead := by
  refine System.Leads.invariant (I := fun t => s.now ≤ t.now ∧ s.queueHead ≤ t.queueHead) h ?_ hl
    ⟨le_refl _, le_refl _⟩
  rintro u a v hu ⟨hnow, hhead⟩ ⟨hlegal, ps, hs⟩
  exact ⟨le_trans hnow (step_now_le hlegal hs),
    le_trans hhead (moves_advances (step_queue (Reachable.inv hu) hlegal hs)).head_le⟩

namespace Timeline

theorem reachable (h : Timeline d (s :: earlier)) : Reachable d s := by
  generalize hl : s :: earlier = ss at h
  induction h generalizing s earlier with
  | first hr => cases hl; exact hr
  | next _ hleads ih => cases hl; exact (ih rfl).leads hleads

theorem tail {t : State} (h : Timeline d (t :: s :: earlier)) : Timeline d (s :: earlier) ∧ (vault d).Leads s t := by
  cases h with
  | next h hleads => exact ⟨h, hleads⟩

/-- The head has passed in the last state all it had passed in an earlier one. -/
theorem head_le (h : Timeline d (s :: earlier)) {u : State} (hu : u ∈ s :: earlier) :
    Reachable d u ∧ u.queueHead ≤ s.queueHead := by
  induction earlier generalizing s with
  | nil =>
    rw [List.mem_singleton.1 hu]
    exact ⟨h.reachable, le_refl _⟩
  | cons v earlier ih =>
    rcases List.mem_cons.1 hu with rfl | hu
    · exact ⟨h.reachable, le_refl _⟩
    · obtain ⟨htail, hleads⟩ := h.tail
      obtain ⟨hr, hle⟩ := ih htail hu
      exact ⟨hr, le_trans hle (leads_forward htail.reachable hleads).2⟩

/-- The times a watchdog keeps are those of its scans. -/
theorem since_le (h : Timeline d (s :: earlier)) {since : Nat}
    (hs : OrderedMap.get (w.watch (s :: earlier)).1 id = some since) : since ≤ s.now := by
  induction earlier generalizing s with
  | nil =>
    unfold Watchdog.watch at hs
    rw [scan_get] at hs
    split_ifs at hs
    cases hs
    exact le_refl _
  | cons u earlier ih =>
    obtain ⟨hu, hleads⟩ := h.tail
    unfold Watchdog.watch at hs
    rw [scan_get] at hs
    split_ifs at hs
    cases hprev : OrderedMap.get (w.watch (u :: earlier)).1 id with
    | none => rw [hprev] at hs; cases hs; exact le_refl _
    | some before =>
      rw [hprev] at hs
      cases hs
      exact le_trans (ih hu hprev) (leads_forward hu.reachable hleads).1

/-- A request that every scan from `first` on tracks keeps a time no later than that scan. -/
theorem tracked_since {during before : List State} {first : State}
    (h : Timeline d (s :: earlier)) (heq : s :: earlier = during ++ first :: before)
    (hall : ∀ u ∈ during ++ [first], id ∈ (w.tracked u).map Prod.fst) :
    ∃ since ≤ first.now, OrderedMap.get (w.watch (s :: earlier)).1 id = some since := by
  induction during generalizing s earlier with
  | nil =>
    cases heq
    have hget : OrderedMap.get (w.watch (first :: before)).1 id = _ := scan_get (w.watch before).1
    rw [if_pos (hall first (List.mem_singleton_self _))] at hget
    exact ⟨_, h.since_le hget, hget⟩
  | cons u during ih =>
    rw [List.cons_append, List.cons.injEq] at heq
    obtain ⟨rfl, rfl⟩ := heq
    have hget : OrderedMap.get (w.watch (s :: (during ++ first :: before))).1 id = _ :=
      scan_get (w.watch (during ++ first :: before)).1
    rw [if_pos (hall s List.mem_cons_self)] at hget
    obtain ⟨v, rest, hrest⟩ : ∃ v rest, during ++ first :: before = v :: rest :=
      List.exists_cons_of_ne_nil (by simp)
    rw [hrest] at h hget
    obtain ⟨since, hle, hsince⟩ := ih h.tail.1 hrest.symm fun x hx => hall x (List.mem_cons_of_mem _ hx)
    rw [hsince] at hget
    exact ⟨since, hle, by rw [hrest]; exact hget⟩

end Timeline

end Watch

/-! ## What the watchdog sees -/

/-- A controller has settled shares that the keeper's walk would claim where a due request says so. -/
theorem keeper_claims_iff {d : Deployment} {s : State} (h : Invariant d s) (c : Address) :
    s.autoClaimEnabled c = true ∧ 0 < autoClaimSum s c ↔ ∃ id, Due s id ∧ (s.redemptionQueue id).user = c := by
  rw [autoClaimSum_settled h.ledger, settledOf]
  constructor
  · rintro ⟨hflag, hpos⟩
    obtain ⟨id, hid, hne⟩ := Finset.exists_ne_zero_of_sum_ne_zero hpos.ne'
    -- a request of another controller adds nothing to the sum
    by_cases hu : (s.redemptionQueue id).user = c
    · rw [if_pos hu] at hne
      have hamount := h.ledger.settled_le_amount id
      exact ⟨id, ⟨h.ledger.user_ne_zero (by omega), Nat.pos_of_ne_zero hne, by rw [hu]; exact hflag⟩, hu⟩
    · rw [if_neg hu] at hne
      exact absurd rfl hne
  · rintro ⟨id, ⟨huser, hpos, hflag⟩, rfl⟩
    refine ⟨hflag, Finset.sum_pos' (fun _ _ => Nat.zero_le _) ⟨id, Finset.mem_range.2 (h.ledger.lt_tail huser), ?_⟩⟩
    rw [if_pos rfl]
    exact hpos

/-- The state the last of some successive scans reads. Every request that the keeper's walk would
claim is in the waiting set if and only if the head has passed no live request of an opted-in
controller. A request that stays due, with the keeper able to claim, for the grace period over
successive scans raises its issue if and only if the head has not passed it. -/
theorem watchdog_window {d : Deployment} {s : State} {earlier : List State} (h : Timeline d (s :: earlier)) :
    (∀ c, s.autoClaimEnabled c = true ∧ 0 < autoClaimSum s c ↔ ∃ id, Due s id ∧ (s.redemptionQueue id).user = c) ∧
    ((∀ id, Due s id → id ∈ (waitingRequests s).map Prod.fst) ↔
      ∀ id < s.queueHead, (s.redemptionQueue id).user ≠ 0 →
        s.autoClaimEnabled (s.redemptionQueue id).user = false) ∧
    ∀ (w : Watchdog) (id : Nat) (during before : List State) (first : State),
      s :: earlier = during ++ first :: before → (∀ u ∈ during ++ [first], w.Answerable u ∧ Due u id) →
      first.now + w.claimGraceSeconds ≤ s.now → (w.Alerts s earlier id ↔ s.queueHead ≤ id) := by
  have hinv := Reachable.inv h.reachable
  refine ⟨keeper_claims_iff hinv, ?_, fun w id during before first heq hall hgrace => ?_⟩
  · constructor
    · intro hall id hid huser
      by_contra hflag
      have hmem := hall id ⟨huser, passed_settled hinv hid huser, Bool.eq_true_of_not_eq_false hflag⟩
      exact absurd hid (not_lt.2 ((mem_waiting_ids hinv).1 hmem).2)
    · intro hclear id hdue
      have hle : s.queueHead ≤ id := by
        by_contra hlt
        have hflag := hclear id (not_le.1 hlt) hdue.1
        rw [hdue.2.2] at hflag
        cases hflag
      exact (mem_waiting_ids hinv).2 ⟨hdue, hle⟩
  · rw [alerts_iff hinv]
    constructor
    · rintro ⟨⟨-, -, hle⟩, -⟩
      exact hle
    · intro hle
      have htracked : ∀ u ∈ during ++ [first], id ∈ (w.tracked u).map Prod.fst := by
        intro u hu
        have hmem : u ∈ s :: earlier := by
          rw [heq, List.append_cons]
          exact List.mem_append_left _ hu
        obtain ⟨hr, hhead⟩ := h.head_le hmem
        exact (mem_tracked_ids (Reachable.inv hr)).2 ⟨(hall u hu).1, (hall u hu).2, le_trans hhead hle⟩
      have hs : s ∈ during ++ [first] := by
        cases during with
        | nil => cases heq; exact List.mem_singleton_self _
        | cons u during => cases heq; exact List.mem_cons_self
      -- the scan does not change the time it counts from, so the one it keeps is that of the count
      obtain ⟨since, hsince, hget⟩ := h.tracked_since heq htracked
      have hkept : some ((OrderedMap.get (w.watch earlier).1 id).getD s.now) = some since := by
        rw [← hget]
        exact ((scan_get (w.watch earlier).1).trans (if_pos (htracked s hs))).symm
      refine ⟨(mem_tracked_ids hinv).1 (htracked s hs), ?_⟩
      rw [Option.some.inj hkept]
      omega

def demoWatchdog : Watchdog := ⟨some bob, 600⟩

/-- Alice lets the keeper claim, and the first of her two positions settles a third of her request. -/
def partlySettledRun : List Action :=
  demoFunding ++
    [.call alice (demoReplies 0 1000 (some (10 ^ 19)) none none) (.deposit (10 ^ 19) alice),
     .call alice (demoReplies 0 100000 (some (9 * 10 ^ 19)) none none) (.deposit (9 * 10 ^ 19) alice),
     .call alice demoQuiet (.requestRedeem (30 * 10 ^ 18) alice alice),
     .call alice demoQuiet (.setAutoClaim true),
     .call 0xad demoQuiet (.grantRole .claimOperator bob),
     .tick 1000,
     .call bob (demoReplies 0 0 none none (some (10 ^ 19))) (.pokeDecentral 0)]

/-- After it and ten minutes more the second of two scans alerts. -/
theorem watchdog_window_demo : ∃ s t : State, Timeline demo [t, s] ∧ demoWatchdog.Alerts t [s] 0 := by
  obtain ⟨s, hs, ht⟩ := observe_reach demo (fun _ _ => True) demoQuiet demoSetup partlySettledRun
    (fun s => decide (s.queueHead = 0 ∧ s.now = 1000 ∧ demoWatchdog.claimRole s = true ∧ s.paused = false ∧
      (s.redemptionQueue 0).user ≠ 0 ∧ 0 < (s.redemptionQueue 0).bilSettled ∧
      s.autoClaimEnabled (s.redemptionQueue 0).user = true)) (by decide +kernel)
  obtain ⟨hhead, hnow, hrole, hpaused, hdue⟩ := of_decide_eq_true ht
  have htick : (vault demo).next s (.tick 1600) { s with now := 1600 } :=
    ⟨show s.now ≤ 1600 by omega, [], rfl⟩
  have hhistory : Timeline demo [{ s with now := 1600 }, s] :=
    .next (.first hs.of_restrict) (.single ⟨_, htick⟩)
  refine ⟨s, { s with now := 1600 }, hhistory, ?_⟩
  refine ((watchdog_window hhistory).2.2 demoWatchdog 0 [{ s with now := 1600 }] [] s rfl ?_ ?_).2 hhead.le
  · intro u hu
    rcases List.mem_cons.1 hu with rfl | hu
    · exact ⟨⟨hrole, hpaused⟩, hdue⟩
    · rw [List.mem_singleton.1 hu]
      exact ⟨⟨hrole, hpaused⟩, hdue⟩
  · rw [hnow]
    exact le_refl 1600

/-- Settled in full, both of alice's requests are behind the head, and no scan waits for them. -/
theorem watchdog_blind : ¬ ∀ (d : Deployment) (s : State), Reachable d s → ∀ id, Due s id →
    id ∈ (waitingRequests s).map Prod.fst := by
  intro hall
  obtain ⟨s, hs, ht⟩ := observe_reach demo (fun _ _ => True) demoQuiet demoSetup
    (demoRun ++ [.call alice demoQuiet (.setAutoClaim true)])
    (fun s => decide (s.queueHead = 2 ∧ (s.redemptionQueue 0).user ≠ 0 ∧ 0 < (s.redemptionQueue 0).bilSettled ∧
      s.autoClaimEnabled (s.redemptionQueue 0).user = true)) (by decide +kernel)
  obtain ⟨hhead, hdue⟩ := of_decide_eq_true ht
  have hmem := hall demo s hs.of_restrict 0 hdue
  rw [mem_waiting_ids (Reachable.inv hs.of_restrict), hhead] at hmem
  exact absurd hmem.2 (by decide)

end MoneyMarket
