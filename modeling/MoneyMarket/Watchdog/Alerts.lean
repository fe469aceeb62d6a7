/-
The watchdog's alerts. A cycle scans the vault and compares what the scan found with the issues it
has open: it alerts on what is new or was last alerted on long enough ago, and says what is resolved.
Over any cycles, of which any may fail, the alerts on an issue and its resolutions take turns, none is
left out and none repeated early (`alerts_orderly`); a blind spell is announced once, at the failure
that makes it one, and its end once (`blindness_announced`); and the digests of slow approvals keep
their distance (`digests_spaced`).
-/
import MoneyMarket.Lib.OrderedMap
import MoneyMarket.Lib.Rounds
import MoneyMarket.Watchdog.Scan

namespace MoneyMarket.Alerts

open Rounds

variable {κ τ : Type} [DecidableEq κ]

/-! ## What a cycle works on -/

structure AlertSettings where
  rpcFailuresBeforeAlert : Nat
  realertSeconds : Nat
  digestSeconds : Nat

structure Issue (τ : Type) where
  level : Level
  text : τ

structure Tracked (τ : Type) extends Issue τ where
  firstSeen : Nat
  lastAlert : Nat

/-- The positions that wait for Decentral's approval: all of them, those past the SLA, the slow ones. -/
structure Decentral where
  waitingCount : Nat
  waitingPrincipal : Nat
  waitingYield : Nat
  oldestWait : Nat
  overdueCount : Nat
  slowCount : Nat
  slowPrincipal : Nat
  slowYield : Nat
  deriving DecidableEq

/-- What a scan returns. The issues are a map: no key is twice. -/
structure Scanned (κ τ : Type) where
  issues : List (κ × Issue τ)
  distinct : (issues.map Prod.fst).Nodup
  now : Nat
  decentral : Decentral

inductive Post (κ τ : Type) where
  | blind (failures : Nat) (error : String)
  | recovered (failures : Nat)
  | issues (level : Level) (fire : List (κ × Issue τ))
  | resolved (closed : List (κ × τ))
  /-- A warning where waits are overdue, else for information. -/
  | slowApprovals (warn : Bool) (d : Decentral)

/-- What the watchdog keeps from one cycle to the next. -/
structure Memory (κ τ : Type) where
  opened : List (κ × Tracked τ)
  rpcFailures : Nat
  rpcAlerted : Bool
  lastDigest : Nat
  snapshot : Option (Scanned κ τ)
  lastError : Option String

def Memory.blank : Memory κ τ := ⟨[], 0, false, 0, none, none⟩

/-! ## A cycle -/

/-- The first loop over the issues: each is tracked, and fired when new or due again. -/
def track (cfg : AlertSettings) (now : Nat) :
    List (κ × Issue τ) → List (κ × Tracked τ) → List (κ × Issue τ) → List (κ × Tracked τ) × List (κ × Issue τ)
  | [], opened, fire => (opened, fire)
  | (key, issue) :: rest, opened, fire =>
    match OrderedMap.get opened key with
    | none => track cfg now rest (OrderedMap.set opened key ⟨issue, now, now⟩) (fire ++ [(key, issue)])
    | some prev =>
      if cfg.realertSeconds ≤ (now : Int) - prev.lastAlert then
        track cfg now rest (OrderedMap.set opened key ⟨issue, prev.firstSeen, now⟩) (fire ++ [(key, issue)])
      else track cfg now rest (OrderedMap.set opened key ⟨issue, prev.firstSeen, prev.lastAlert⟩) fire

/-- The second loop: the open issues the scan did not find. -/
def closed (issues : List (κ × Issue τ)) (opened : List (κ × Tracked τ)) : List (κ × τ) :=
  (opened.filter fun e => decide (e.1 ∉ issues.map Prod.fst)).map fun e => (e.1, e.2.text)

def fireLevel (fire : List (κ × Issue τ)) : Level :=
  if fire.any fun e => decide (e.2.level = .error) then .error else .warn

/-- A cycle whose scan threw. -/
def failed (cfg : AlertSettings) (m : Memory κ τ) (error : String) : Memory κ τ × List (Post κ τ) :=
  let rpcFailures := m.rpcFailures + 1
  if cfg.rpcFailuresBeforeAlert ≤ rpcFailures ∧ m.rpcAlerted = false then
    ({ m with rpcFailures, lastError := some error, rpcAlerted := true }, [.blind rpcFailures error])
  else ({ m with rpcFailures, lastError := some error }, [])

def digestDue (cfg : AlertSettings) (lastDigest : Nat) (r : Scanned κ τ) : Prop :=
  0 < r.decentral.slowCount ∧ cfg.digestSeconds ≤ (r.now : Int) - lastDigest

instance (cfg : AlertSettings) (lastDigest : Nat) (r : Scanned κ τ) : Decidable (digestDue cfg lastDigest r) :=
  inferInstanceAs (Decidable (_ ∧ _))

/-- A cycle whose scan returned. -/
def scanned (cfg : AlertSettings) (m : Memory κ τ) (r : Scanned κ τ) : Memory κ τ × List (Post κ τ) :=
  let (opened, fire) := track cfg r.now r.issues m.opened []
  let resolved := closed r.issues opened
  let posts :=
    (if m.rpcAlerted then [Post.recovered m.rpcFailures] else []) ++
    (if fire.isEmpty then [] else [.issues (fireLevel fire) fire]) ++
    (if resolved.isEmpty then [] else [.resolved resolved]) ++
    (if digestDue cfg m.lastDigest r then [.slowApprovals (decide (r.decentral.overdueCount ≠ 0)) r.decentral] else [])
  ({ opened := opened.filter fun e => decide (e.1 ∈ r.issues.map Prod.fst)
     rpcFailures := 0
     rpcAlerted := false
     lastDigest := if digestDue cfg m.lastDigest r then r.now else m.lastDigest
     snapshot := some r
     lastError := none }, posts)

/-- What a scan comes back with: an error, or what it found. -/
abbrev Outcome (κ τ : Type) := Except String (Scanned κ τ)

def runCycle (cfg : AlertSettings) (m : Memory κ τ) : Outcome κ τ → Memory κ τ × List (Post κ τ)
  | .error error => failed cfg m error
  | .ok r => scanned cfg m r

/-- Cycles, the latest first: the memory they leave and the posts of the latest. -/
def watch (cfg : AlertSettings) : List (Outcome κ τ) → Memory κ τ × List (Post κ τ)
  | [] => (.blank, [])
  | c :: earlier => runCycle cfg (watch cfg earlier).1 c

/-! ## Status -/

/-- The `ok` of a status that answers: there is a scan to show, and the latest did not fail. `buildStatus`
throws where a position it lists matures later than any date. -/
def Memory.statusOk (m : Memory κ τ) : Bool := m.snapshot.isSome && m.lastError.isNone

/-- The issues of a status that answers: the open ones, and since when. -/
def Memory.statusIssues (m : Memory κ τ) : List (κ × Issue τ × Nat) :=
  m.opened.map fun e => (e.1, e.2.toIssue, e.2.firstSeen)

/-! ## Logs -/

/-- What the posts of some cycles say of one matter, the latest first. -/
def log (cfg : AlertSettings) (say : List (Outcome κ τ) → Post κ τ → List Entry) : List (Outcome κ τ) → List Entry
  | [] => []
  | c :: earlier => (watch cfg (c :: earlier)).2.flatMap (say (c :: earlier)) ++ log cfg say earlier

/-- The chain time the latest cycle saw. -/
def chainTime : List (Outcome κ τ) → Nat
  | .ok r :: _ => r.now
  | _ => 0

/-- What a post says of an issue. -/
def ofIssue (key : κ) (cycles : List (Outcome κ τ)) : Post κ τ → List Entry
  | .issues _ fire => if key ∈ fire.map Prod.fst then [.raised (chainTime cycles)] else []
  | .resolved closed => if key ∈ closed.map Prod.fst then [.cleared (chainTime cycles)] else []
  | _ => []

/-- What a post says of the watchdog's sight, by the number of cycles run. -/
def ofSight (cycles : List (Outcome κ τ)) : Post κ τ → List Entry
  | .blind _ _ => [.raised cycles.length]
  | .recovered _ => [.cleared cycles.length]
  | _ => []

/-- The digests a post is. -/
def ofDigest (cycles : List (Outcome κ τ)) : Post κ τ → List Entry
  | .slowApprovals _ _ => [.raised (chainTime cycles)]
  | _ => []

/-- The scans that returned. -/
def scans (cycles : List (Outcome κ τ)) : List (Scanned κ τ) := cycles.filterMap Except.toOption

def Scanned.finds (key : κ) (r : Scanned κ τ) : Bool := decide (key ∈ r.issues.map Prod.fst)

/-! ## What a cycle does to one issue -/

/-- An issue is due for an alert when it is new, or was last alerted on a whole period ago. -/
def Due (cfg : AlertSettings) (now : Nat) (prev : Option (Tracked τ)) : Prop :=
  ∀ t ∈ prev, t.lastAlert + cfg.realertSeconds ≤ now

instance (cfg : AlertSettings) (now : Nat) (prev : Option (Tracked τ)) : Decidable (Due cfg now prev) :=
  inferInstanceAs (Decidable (∀ t ∈ prev, _))

/-- How an issue is tracked after a scan found it. -/
def renewed (cfg : AlertSettings) (now : Nat) (issue : Issue τ) (prev : Option (Tracked τ)) : Tracked τ where
  toIssue := issue
  firstSeen := (prev.map Tracked.firstSeen).getD now
  lastAlert := if Due cfg now prev then now else (prev.map Tracked.lastAlert).getD now

section Track

variable {cfg : AlertSettings} {now : Nat} {issues rest : List (κ × Issue τ)} {opened : List (κ × Tracked τ)}
  {fire : List (κ × Issue τ)} {key k : κ} {issue : Issue τ}

theorem track_cons : track cfg now ((key, issue) :: rest) opened fire =
    track cfg now rest (OrderedMap.set opened key (renewed cfg now issue (OrderedMap.get opened key)))
      (if Due cfg now (OrderedMap.get opened key) then fire ++ [(key, issue)] else fire) := by
  rw [track]
  cases hget : OrderedMap.get opened key with
  | none =>
    have hdue : Due cfg now (none : Option (Tracked τ)) := by simp [Due]
    simp only [renewed, if_pos hdue]
    rfl
  | some prev =>
    by_cases hle : cfg.realertSeconds ≤ (now : Int) - prev.lastAlert
    · have hdue : Due cfg now (some prev) := by
        rintro t ⟨⟩
        omega
      simp only [renewed, if_pos hdue, if_pos hle]
      rfl
    · have hdue : ¬ Due cfg now (some prev) := fun h => hle (by have := h prev rfl; omega)
      simp only [renewed, if_neg hdue, if_neg hle]
      rfl

/-- The loop renews what the scan found and leaves the rest. -/
theorem track_get (hd : (issues.map Prod.fst).Nodup) (k : κ) :
    OrderedMap.get (track cfg now issues opened fire).1 k =
      ((OrderedMap.get issues k).map fun issue => renewed cfg now issue (OrderedMap.get opened k)).or
        (OrderedMap.get opened k) := by
  induction issues generalizing opened fire with
  | nil => rfl
  | cons e rest ih =>
    obtain ⟨key, issue⟩ := e
    obtain ⟨hnot, hd⟩ := List.nodup_cons.1 hd
    rw [track_cons, ih hd, OrderedMap.get_set, OrderedMap.get]
    by_cases hk : key = k
    · subst hk
      rw [OrderedMap.get_eq_none_iff.2 hnot, if_pos rfl, if_pos rfl]
      rfl
    · rw [if_neg hk, if_neg hk]

theorem track_nodup (h : (opened.map Prod.fst).Nodup) :
    ((track cfg now issues opened fire).1.map Prod.fst).Nodup := by
  induction issues generalizing opened fire with
  | nil => exact h
  | cons e rest ih =>
    obtain ⟨key, issue⟩ := e
    rw [track_cons]
    exact ih (OrderedMap.nodup_set h _ _)

/-- It fires the issues the scan found that are due. -/
theorem mem_track (hd : (issues.map Prod.fst).Nodup) {k : κ} {i : Issue τ} :
    (k, i) ∈ (track cfg now issues opened fire).2 ↔
      (k, i) ∈ fire ∨ (k, i) ∈ issues ∧ Due cfg now (OrderedMap.get opened k) := by
  induction issues generalizing opened fire with
  | nil => simp [track]
  | cons e rest ih =>
    obtain ⟨key, issue⟩ := e
    obtain ⟨hnot, hd⟩ := List.nodup_cons.1 hd
    rw [track_cons, ih hd, List.mem_cons]
    by_cases hk : key = k
    · subst hk
      have hrest : (key, i) ∉ rest := fun h => hnot (List.mem_map.2 ⟨_, h, rfl⟩)
      by_cases hdue : Due cfg now (OrderedMap.get opened key)
      · rw [if_pos hdue, List.mem_append, List.mem_singleton]
        tauto
      · rw [if_neg hdue]
        tauto
    · rw [OrderedMap.get_set, if_neg hk]
      have hne : (k, i) ≠ (key, issue) := fun h => hk (congrArg Prod.fst h).symm
      split_ifs
      · rw [List.mem_append, List.mem_singleton]
        tauto
      · tauto

end Track

/-! ## What a cycle does to the memory -/

section Cycle

variable {cfg : AlertSettings} {m : Memory κ τ} {r : Scanned κ τ} {c : Outcome κ τ} {cycles : List (Outcome κ τ)}

/-- After a scan the issues it found, and no others, are open. -/
theorem scanned_get (k : κ) : OrderedMap.get (scanned cfg m r).1.opened k =
    (OrderedMap.get r.issues k).map fun issue => renewed cfg r.now issue (OrderedMap.get m.opened k) := by
  refine (OrderedMap.get_filter (fun key => key ∈ r.issues.map Prod.fst) _ k).trans ?_
  by_cases hk : k ∈ r.issues.map Prod.fst
  · obtain ⟨issue, hissue⟩ := Option.isSome_iff_exists.1 (OrderedMap.isSome_get_iff.2 hk)
    rw [if_pos hk, track_get r.distinct, hissue]
    rfl
  · rw [if_neg hk, OrderedMap.get_eq_none_iff.2 hk]
    rfl

omit [DecidableEq κ] in
theorem failed_opened (error : String) : (failed cfg m error).1.opened = m.opened := by
  unfold failed
  dsimp only
  split_ifs <;> rfl

theorem failed_posts (k : κ) (error : String) : (failed cfg m error).2.flatMap (ofIssue k cycles) = [] := by
  unfold failed
  dsimp only
  split_ifs <;> rfl

variable (cfg) in
/-- The keys open when the second loop runs are those of before and those of the scan. -/
theorem mem_closed {k : κ} : k ∈ (closed r.issues (track cfg r.now r.issues m.opened []).1).map Prod.fst ↔
    (OrderedMap.get m.opened k).isSome = true ∧ OrderedMap.get r.issues k = none := by
  have hkeys : k ∈ (closed r.issues (track cfg r.now r.issues m.opened []).1).map Prod.fst ↔
      k ∈ (track cfg r.now r.issues m.opened []).1.map Prod.fst ∧ k ∉ r.issues.map Prod.fst := by
    simp only [closed, List.map_map, List.mem_map, List.mem_filter, decide_eq_true_eq]
    constructor
    · rintro ⟨e, ⟨he, hnot⟩, rfl⟩
      exact ⟨⟨e, he, rfl⟩, hnot⟩
    · rintro ⟨⟨e, he, rfl⟩, hnot⟩
      exact ⟨e, ⟨he, hnot⟩, rfl⟩
  rw [hkeys, ← OrderedMap.isSome_get_iff, track_get r.distinct, ← OrderedMap.get_eq_none_iff]
  constructor
  · rintro ⟨hsome, hnone⟩
    rw [hnone] at hsome
    exact ⟨hsome, hnone⟩
  · rintro ⟨hsome, hnone⟩
    rw [hnone]
    exact ⟨hsome, rfl⟩

theorem mem_fired {k : κ} : k ∈ (track cfg r.now r.issues m.opened []).2.map Prod.fst ↔
    (OrderedMap.get r.issues k).isSome = true ∧ Due cfg r.now (OrderedMap.get m.opened k) := by
  rw [OrderedMap.isSome_get_iff, List.mem_map, List.mem_map]
  constructor
  · rintro ⟨⟨key, issue⟩, hmem, rfl⟩
    obtain ⟨hissue, hdue⟩ := ((mem_track r.distinct).1 hmem).resolve_left List.not_mem_nil
    exact ⟨⟨_, hissue, rfl⟩, hdue⟩
  · rintro ⟨⟨⟨key, issue⟩, hissue, rfl⟩, hdue⟩
    exact ⟨(key, issue), (mem_track r.distinct).2 (.inr ⟨hissue, hdue⟩), rfl⟩

/-- What the posts of a scan say of an issue: an alert, or that it is resolved, or nothing. -/
theorem scanned_posts (k : κ) : (scanned cfg m r).2.flatMap (ofIssue k cycles) =
    match OrderedMap.get r.issues k, OrderedMap.get m.opened k with
    | some _, prev => if Due cfg r.now prev then [.raised (chainTime cycles)] else []
    | none, some _ => [.cleared (chainTime cycles)]
    | none, none => [] := by
  have hfire : (if (track cfg r.now r.issues m.opened []).2.isEmpty then [] else
      [Post.issues (fireLevel (track cfg r.now r.issues m.opened []).2)
        (track cfg r.now r.issues m.opened []).2]).flatMap (ofIssue k cycles) =
      if (OrderedMap.get r.issues k).isSome = true ∧ Due cfg r.now (OrderedMap.get m.opened k) then
        [.raised (chainTime cycles)] else [] := by
    split_ifs with hempty hk hk
    · rw [← mem_fired, List.isEmpty_iff.1 hempty] at hk
      cases hk
    · rfl
    · simpa [ofIssue] using mem_fired.2 hk
    · simpa [ofIssue] using fun i hi => hk (mem_fired.1 (List.mem_map.2 ⟨_, hi, rfl⟩))
  have hclosed : (if (closed r.issues (track cfg r.now r.issues m.opened []).1).isEmpty then [] else
      [Post.resolved (closed r.issues (track cfg r.now r.issues m.opened []).1)]).flatMap (ofIssue k cycles) =
      if (OrderedMap.get m.opened k).isSome = true ∧ OrderedMap.get r.issues k = none then
        [.cleared (chainTime cycles)] else [] := by
    split_ifs with hempty hk hk
    · rw [← mem_closed cfg, List.isEmpty_iff.1 hempty] at hk
      cases hk
    · rfl
    · simpa [ofIssue] using (mem_closed cfg).2 hk
    · simpa [ofIssue] using fun i hi => hk ((mem_closed cfg).1 (List.mem_map.2 ⟨_, hi, rfl⟩))
  have hrest : (if m.rpcAlerted = true then [Post.recovered m.rpcFailures] else []).flatMap (ofIssue k cycles) = [] ∧
      (if digestDue cfg m.lastDigest r then
        [Post.slowApprovals (decide (r.decentral.overdueCount ≠ 0)) r.decentral] else []).flatMap (ofIssue k cycles) =
        [] := by
    constructor <;> split_ifs <;> rfl
  show ((if m.rpcAlerted then _ else _) ++ _ ++ _ ++ _ : List (Post κ τ)).flatMap _ = _
  rw [List.flatMap_append, List.flatMap_append, List.flatMap_append, hrest.1, hrest.2, hfire, hclosed]
  cases OrderedMap.get r.issues k <;> cases OrderedMap.get m.opened k <;> simp

end Cycle

/-! ## The alerts on one issue -/

/-- The spacing of two alerts with no resolution between them. -/
def Again (gap : Nat) (s t : Nat) : Prop := s + gap ≤ t

section Watch

variable {cfg : AlertSettings}

variable (cfg) in
/-- The open issues are those of the latest scan, each since the scan from which on all found it. -/
theorem opened_get (cycles : List (Outcome κ τ)) (k : κ) :
    (OrderedMap.get (watch cfg cycles).1.opened k).map Tracked.toIssue =
        (scans cycles).head?.bind (fun r => OrderedMap.get r.issues k) ∧
      (OrderedMap.get (watch cfg cycles).1.opened k).map Tracked.firstSeen =
        since Scanned.now (Scanned.finds k) (scans cycles) := by
  induction cycles with
  | nil => exact ⟨rfl, rfl⟩
  | cons c earlier ih =>
    cases c with
    | error error =>
      have hopened : (watch cfg (.error error :: earlier)).1.opened = (watch cfg earlier).1.opened :=
        failed_opened error
      rw [hopened]
      exact ih
    | ok r =>
      show (OrderedMap.get (scanned cfg _ r).1.opened k).map _ = OrderedMap.get r.issues k ∧
        (OrderedMap.get (scanned cfg _ r).1.opened k).map _ = since _ _ (r :: scans earlier)
      rw [scanned_get, Option.map_map, Option.map_map]
      cases hissue : OrderedMap.get r.issues k with
      | none =>
        rw [since_cons_of_neg _ (by simpa [Scanned.finds] using OrderedMap.get_eq_none_iff.1 hissue)]
        exact ⟨rfl, rfl⟩
      | some issue =>
        have hk : r.finds k = true := decide_eq_true (OrderedMap.isSome_get_iff.1 (by rw [hissue]; rfl))
        rw [since_cons_of_pos _ hk, ← ih.2]
        exact ⟨rfl, rfl⟩

theorem opened_nodup (cycles : List (Outcome κ τ)) : ((watch cfg cycles).1.opened.map Prod.fst).Nodup := by
  induction cycles with
  | nil => exact List.nodup_nil
  | cons c earlier ih =>
    cases c with
    | error error =>
      show ((failed cfg _ error).1.opened.map Prod.fst).Nodup
      rw [failed_opened]
      exact ih
    | ok r => exact (track_nodup ih).sublist (List.filter_sublist.map _)

theorem log_failed (error : String) (earlier : List (Outcome κ τ)) (k : κ) :
    log cfg (ofIssue k) (.error error :: earlier) = log cfg (ofIssue k) earlier := by
  rw [log]
  show (failed cfg (watch cfg earlier).1 error).2.flatMap _ ++ _ = _
  rw [failed_posts, List.nil_append]

variable (cfg) in
/-- An issue is raised in the log while it is open, and was last raised at its last alert. -/
theorem issue_log (cycles : List (Outcome κ τ)) (k : κ) :
    Alternating (Again cfg.realertSeconds) (log cfg (ofIssue k) cycles) ∧
      raisedAt (log cfg (ofIssue k) cycles) =
        (OrderedMap.get (watch cfg cycles).1.opened k).map Tracked.lastAlert := by
  induction cycles with
  | nil => exact ⟨.nil, rfl⟩
  | cons c earlier ih =>
    obtain ⟨horderly, hraised⟩ := ih
    cases c with
    | error error =>
      rw [log_failed]
      refine ⟨horderly, hraised.trans ?_⟩
      show _ = (OrderedMap.get (failed cfg _ error).1.opened k).map _
      rw [failed_opened]
    | ok r =>
      rw [log]
      show Alternating _ ((scanned cfg _ r).2.flatMap _ ++ _) ∧
        raisedAt ((scanned cfg _ r).2.flatMap _ ++ _) = (OrderedMap.get (scanned cfg _ r).1.opened k).map _
      rw [scanned_posts, scanned_get]
      cases OrderedMap.get r.issues k with
      | some issue =>
        by_cases hdue : Due cfg r.now (OrderedMap.get (watch cfg earlier).1.opened k)
        · simp only [if_pos hdue, List.cons_append, List.nil_append, Option.map_some, renewed]
          refine ⟨horderly.raise_of fun s hs => ?_, rfl⟩
          rw [hraised] at hs
          obtain ⟨prev, hprev, rfl⟩ := Option.map_eq_some_iff.1 hs
          exact hdue prev hprev
        · simp only [if_neg hdue, List.nil_append, Option.map_some, renewed]
          refine ⟨horderly, hraised.trans ?_⟩
          cases hprev : OrderedMap.get (watch cfg earlier).1.opened k with
          | none => exact absurd (by rw [hprev]; simp [Due]) hdue
          | some prev => rfl
      | none =>
        cases hprev : OrderedMap.get (watch cfg earlier).1.opened k with
        | none =>
          rw [hprev] at hraised
          exact ⟨horderly, hraised⟩
        | some prev =>
          rw [hprev] at hraised
          exact ⟨horderly.clear_of (by rw [hraised]; rfl), rfl⟩

/-- What an issue was last alerted on for is less than a period old. -/
theorem alert_recent (cycles : List (Outcome κ τ)) {r : Scanned κ τ} (hr : (scans cycles).head? = some r) {k : κ}
    {t : Tracked τ} (ht : OrderedMap.get (watch cfg cycles).1.opened k = some t) :
    t.lastAlert = r.now ∨ r.now < t.lastAlert + cfg.realertSeconds := by
  induction cycles with
  | nil => cases hr
  | cons c earlier ih =>
    cases c with
    | error error =>
      change OrderedMap.get (failed cfg _ error).1.opened k = some t at ht
      rw [failed_opened] at ht
      exact ih hr ht
    | ok u =>
      change OrderedMap.get (scanned cfg _ u).1.opened k = some t at ht
      cases hr
      rw [scanned_get] at ht
      obtain ⟨issue, -, rfl⟩ := Option.map_eq_some_iff.1 ht
      by_cases hdue : Due cfg r.now (OrderedMap.get (watch cfg earlier).1.opened k)
      · exact .inl (if_pos hdue)
      · refine .inr ?_
        rw [renewed, if_neg hdue]
        cases hprev : OrderedMap.get (watch cfg earlier).1.opened k with
        | none => exact absurd (by rw [hprev]; simp [Due]) hdue
        | some prev =>
          rw [hprev] at hdue
          simpa [Due] using hdue

end Watch

/-- Over any cycles, the alerts on an issue and its resolutions take turns: the log begins with an
alert, only what is alerted on is resolved, and two alerts without a resolution between them are a
whole period apart. An issue of the latest scan has an alert less than a period old, and one it did
not find is resolved. A status that answers shows the issues of the latest scan, with their latest text,
since the first scan of the unbroken stretch of scans that found them. -/
theorem alerts_orderly (cfg : AlertSettings) (cycles : List (Outcome κ τ)) (k : κ) :
    Alternating (Again cfg.realertSeconds) (log cfg (ofIssue k) cycles) ∧
    (∀ r, (scans cycles).head? = some r →
      (k ∈ r.issues.map Prod.fst → Recent cfg.realertSeconds (log cfg (ofIssue k) cycles) r.now) ∧
      (k ∉ r.issues.map Prod.fst → raisedAt (log cfg (ofIssue k) cycles) = none)) ∧
    ∀ issue first, (k, issue, first) ∈ (watch cfg cycles).1.statusIssues ↔
      (∃ r, (scans cycles).head? = some r ∧ (k, issue) ∈ r.issues) ∧
        since Scanned.now (Scanned.finds k) (scans cycles) = some first := by
  obtain ⟨horderly, hraised⟩ := issue_log cfg cycles k
  obtain ⟨hissue, hfirst⟩ := opened_get cfg cycles k
  refine ⟨horderly, fun r hr => ?_, fun issue first => ?_⟩
  · rw [hr, Option.bind_some] at hissue
    cases hget : OrderedMap.get (watch cfg cycles).1.opened k with
    | none =>
      rw [hget] at hissue hraised
      exact ⟨fun hk => absurd hk (OrderedMap.get_eq_none_iff.1 hissue.symm), fun _ => hraised⟩
    | some t =>
      rw [hget] at hissue hraised
      refine ⟨fun _ => ⟨t.lastAlert, hraised, alert_recent cycles hr hget⟩, fun hk => ?_⟩
      rw [OrderedMap.get_eq_none_iff.2 hk] at hissue
      cases hissue
  · rw [← hfirst]
    constructor
    · intro h
      obtain ⟨⟨k, t⟩, hmem, heq⟩ := List.mem_map.1 h
      cases heq
      have hget := (OrderedMap.get_eq_some_iff (opened_nodup cycles)).2 hmem
      rw [hget] at hissue
      obtain ⟨r, hr, hin⟩ := Option.bind_eq_some_iff.1 hissue.symm
      exact ⟨⟨r, hr, OrderedMap.mem_of_get hin⟩, by rw [hget]; rfl⟩
    · rintro ⟨⟨r, hr, hin⟩, hsince⟩
      obtain ⟨t, hget, rfl⟩ := Option.map_eq_some_iff.1 hsince
      rw [hget, hr, Option.bind_some, (OrderedMap.get_eq_some_iff r.distinct).2 hin] at hissue
      cases hissue
      exact List.mem_map.2 ⟨_, OrderedMap.mem_of_get hget, rfl⟩

/-! ## Blind spells -/

def threw : Outcome κ τ → Bool
  | .error _ => true
  | .ok _ => false

/-- The failures in a row up to the latest cycle. -/
def outage (cycles : List (Outcome κ τ)) : Nat := (cycles.takeWhile threw).length

/-- The failures in a row that make a spell blind; the first failure is the earliest that can. -/
def blindAfter (cfg : AlertSettings) : Nat := max 1 cfg.rpcFailuresBeforeAlert

section Sight

variable {cfg : AlertSettings}

variable (cfg) in
/-- The watchdog counts the failures of the spell, and has announced it once it is blind. -/
theorem watch_outage (cycles : List (Outcome κ τ)) :
    (watch cfg cycles).1.rpcFailures = outage cycles ∧
      ((watch cfg cycles).1.rpcAlerted = true ↔ blindAfter cfg ≤ outage cycles) := by
  induction cycles with
  | nil => exact ⟨rfl, by simp [watch, Memory.blank, outage, blindAfter]⟩
  | cons c earlier ih =>
    obtain ⟨hcount, halerted⟩ := ih
    cases c with
    | error error =>
      have houtage : outage (.error error :: earlier : List (Outcome κ τ)) = outage earlier + 1 := rfl
      show (failed cfg _ error).1.rpcFailures = _ ∧ ((failed cfg _ error).1.rpcAlerted = true ↔ _)
      rw [houtage]
      unfold failed
      dsimp only
      rw [hcount]
      split_ifs with h
      · refine ⟨rfl, iff_of_true rfl ?_⟩
        unfold blindAfter
        omega
      · refine ⟨rfl, ?_⟩
        -- a spell not announced at this failure is too short, or was announced before
        show (watch cfg earlier).1.rpcAlerted = true ↔ _
        rw [halerted]
        rw [← Bool.not_eq_true, halerted] at h
        unfold blindAfter at *
        omega
    | ok r =>
      have houtage : outage (.ok r :: earlier : List (Outcome κ τ)) = 0 := rfl
      rw [houtage]
      refine ⟨rfl, iff_of_false (fun h => by cases h) ?_⟩
      unfold blindAfter
      omega

/-- The posts of a failed cycle: the spell, at the failure that makes it blind. -/
theorem failed_announces (error : String) (earlier : List (Outcome κ τ)) :
    (watch cfg (.error error :: earlier)).2 =
      if outage earlier + 1 = blindAfter cfg then [.blind (outage earlier + 1) error] else [] := by
  obtain ⟨hcount, halerted⟩ := watch_outage cfg earlier
  have hannounce : (cfg.rpcFailuresBeforeAlert ≤ (watch cfg earlier).1.rpcFailures + 1 ∧
      (watch cfg earlier).1.rpcAlerted = false) ↔ outage earlier + 1 = blindAfter cfg := by
    rw [← Bool.not_eq_true, halerted, hcount]
    unfold blindAfter
    omega
  show (failed cfg _ error).2 = _
  unfold failed
  dsimp only
  by_cases hblind : outage earlier + 1 = blindAfter cfg
  · rw [if_pos (hannounce.2 hblind), if_pos hblind, hcount]
  · rw [if_neg fun h => hblind (hannounce.1 h), if_neg hblind]

/-- A returning scan posts the end of a spell that was blind, and no other. -/
theorem scanned_announces (r : Scanned κ τ) (earlier : List (Outcome κ τ)) (failures : Nat) :
    Post.recovered failures ∈ (watch cfg (.ok r :: earlier)).2 ↔
      failures = outage earlier ∧ blindAfter cfg ≤ outage earlier := by
  obtain ⟨hcount, halerted⟩ := watch_outage cfg earlier
  show Post.recovered failures ∈ (scanned cfg _ r).2 ↔ _
  rw [← halerted, ← hcount]
  unfold scanned
  simp only [List.mem_append]
  split_ifs <;> simp_all

theorem sight_scanned (r : Scanned κ τ) (earlier : List (Outcome κ τ)) :
    (watch cfg (.ok r :: earlier)).2.flatMap (ofSight (.ok r :: earlier)) =
      if blindAfter cfg ≤ outage earlier then [.cleared (earlier.length + 1)] else [] := by
  obtain ⟨-, halerted⟩ := watch_outage cfg earlier
  show (scanned cfg _ r).2.flatMap _ = _
  unfold scanned
  simp only [← halerted, List.flatMap_append]
  split_ifs <;> rfl

theorem sight_log (cycles : List (Outcome κ τ)) :
    Alternating (fun _ _ => False) (log cfg ofSight cycles) ∧
      ((raisedAt (log cfg ofSight cycles)).isSome = true ↔ blindAfter cfg ≤ outage cycles) := by
  induction cycles with
  | nil => exact ⟨.nil, by simp [log, raisedAt, outage, blindAfter]⟩
  | cons c earlier ih =>
    obtain ⟨horderly, hraised⟩ := ih
    rw [log]
    cases c with
    | error error =>
      have houtage : outage (.error error :: earlier : List (Outcome κ τ)) = outage earlier + 1 := rfl
      rw [failed_announces, houtage]
      split_ifs with h
      · refine ⟨horderly.raise_of fun s hs => ?_, iff_of_true rfl (by omega)⟩
        have := hraised.1 (by rw [hs]; rfl)
        omega
      · refine ⟨horderly, ?_⟩
        show (raisedAt (log cfg ofSight earlier)).isSome = true ↔ _
        rw [hraised]
        omega
    | ok r =>
      have houtage : outage (.ok r :: earlier : List (Outcome κ τ)) = 0 := rfl
      have hlate : ¬ blindAfter cfg ≤ 0 := by
        unfold blindAfter
        omega
      rw [sight_scanned, houtage]
      split_ifs with h
      · exact ⟨horderly.clear_of (hraised.2 h), iff_of_false (by simp [raisedAt]) hlate⟩
      · exact ⟨horderly, iff_of_false (fun hs => h (hraised.1 hs)) hlate⟩

end Sight

/-- A failed cycle announces that the watchdog is blind exactly when it is the failure in a row that
makes it so, a returning scan that it sees again exactly when it ends such a spell, with the number of
failures; so the two announcements take turns. A status that answers is ok exactly when the latest scan
returned. -/
theorem blindness_announced (cfg : AlertSettings) (cycles : List (Outcome κ τ)) :
    (∀ error, (watch cfg (.error error :: cycles)).2 =
      if outage cycles + 1 = blindAfter cfg then [.blind (outage cycles + 1) error] else []) ∧
    (∀ r failures, Post.recovered failures ∈ (watch cfg (.ok r :: cycles)).2 ↔
      failures = outage cycles ∧ blindAfter cfg ≤ outage cycles) ∧
    Alternating (fun _ _ => False) (log cfg ofSight cycles) ∧
    ((raisedAt (log cfg ofSight cycles)).isSome = true ↔ blindAfter cfg ≤ outage cycles) ∧
    ((watch cfg cycles).1.statusOk = true ↔ ∃ r earlier, cycles = .ok r :: earlier) := by
  refine ⟨fun error => failed_announces error cycles, fun r failures => scanned_announces r cycles failures,
    (sight_log cycles).1, (sight_log cycles).2, ?_⟩
  cases cycles with
  | nil => simp [watch, Memory.blank, Memory.statusOk]
  | cons c earlier =>
    cases c with
    | error error =>
      refine iff_of_false (fun h => ?_) (by simp)
      have herror : (failed cfg (watch cfg earlier).1 error).1.lastError = some error := by
        unfold failed
        dsimp only
        split_ifs <;> rfl
      rw [Memory.statusOk, watch, runCycle, herror] at h
      simp at h
    | ok r => exact iff_of_true rfl ⟨r, earlier, rfl⟩

/-! ## Digests -/

section Digests

variable {cfg : AlertSettings}

theorem digest_failed (error : String) (earlier : List (Outcome κ τ)) :
    log cfg ofDigest (.error error :: earlier) = log cfg ofDigest earlier ∧
      (watch cfg (.error error :: earlier)).1.lastDigest = (watch cfg earlier).1.lastDigest := by
  rw [log, failed_announces]
  refine ⟨by split_ifs <;> rfl, ?_⟩
  show (failed cfg _ error).1.lastDigest = _
  unfold failed
  dsimp only
  split_ifs <;> rfl

theorem digest_scanned (r : Scanned κ τ) (earlier : List (Outcome κ τ)) :
    (watch cfg (.ok r :: earlier)).2.flatMap (ofDigest (.ok r :: earlier)) =
      if digestDue cfg (watch cfg earlier).1.lastDigest r then [.raised r.now] else [] := by
  show (scanned cfg _ r).2.flatMap _ = _
  unfold scanned
  simp only [List.flatMap_append]
  split_ifs <;> rfl

/-- The log of the digests, counted from the start of the clock. -/
theorem digest_log (cycles : List (Outcome κ τ)) :
    Alternating (Again cfg.digestSeconds) (log cfg ofDigest cycles ++ [.raised 0]) ∧
      raisedAt (log cfg ofDigest cycles ++ [.raised 0]) = some (watch cfg cycles).1.lastDigest := by
  induction cycles with
  | nil => exact ⟨.raise .nil (by simp), rfl⟩
  | cons c earlier ih =>
    obtain ⟨horderly, hraised⟩ := ih
    cases c with
    | error error =>
      rw [(digest_failed error earlier).1, (digest_failed error earlier).2]
      exact ⟨horderly, hraised⟩
    | ok r =>
      have hlast : (watch cfg (.ok r :: earlier)).1.lastDigest =
          if digestDue cfg (watch cfg earlier).1.lastDigest r then r.now else (watch cfg earlier).1.lastDigest := rfl
      rw [log, digest_scanned, hlast]
      split_ifs with hdue
      · refine ⟨horderly.raise_of fun s hs => ?_, rfl⟩
        rw [hraised, Option.mem_some] at hs
        have := hdue.2
        unfold Again
        omega
      · exact ⟨horderly, hraised⟩

end Digests

/-- Over any cycles the digests are a whole period apart, the first counted from the start of the clock;
a scan that finds slow approvals has a digest less than a period old; and a digest shows the scan of
its cycle, as a warning exactly when approvals are overdue. -/
theorem digests_spaced (cfg : AlertSettings) (cycles : List (Outcome κ τ)) :
    Alternating (Again cfg.digestSeconds) (log cfg ofDigest cycles ++ [.raised 0]) ∧
    ∀ r, (∀ warn d, Post.slowApprovals warn d ∈ (watch cfg (.ok r :: cycles)).2 →
        d = r.decentral ∧ 0 < d.slowCount ∧ (warn = true ↔ d.overdueCount ≠ 0)) ∧
      (0 < r.decentral.slowCount →
        Recent cfg.digestSeconds (log cfg ofDigest (.ok r :: cycles) ++ [.raised 0]) r.now) := by
  refine ⟨(digest_log cycles).1, fun r => ⟨fun warn d hpost => ?_, fun hslow => ?_⟩⟩
  · change _ ∈ (scanned cfg _ r).2 at hpost
    unfold scanned at hpost
    simp only [List.mem_append] at hpost
    rcases hpost with ((hpost | hpost) | hpost) | hpost
    · split_ifs at hpost <;> simp at hpost
    · split_ifs at hpost <;> simp at hpost
    · split_ifs at hpost <;> simp at hpost
    · split_ifs at hpost with hdue
      · cases List.mem_singleton.1 hpost
        exact ⟨rfl, hdue.1, by simp⟩
      · cases hpost
  · refine ⟨_, (digest_log (.ok r :: cycles)).2, ?_⟩
    have hlast : (watch cfg (.ok r :: cycles)).1.lastDigest =
        if digestDue cfg (watch cfg cycles).1.lastDigest r then r.now else (watch cfg cycles).1.lastDigest := rfl
    rw [hlast]
    split_ifs with hdue
    · exact .inl rfl
    · refine .inr ?_
      have hnot := not_and.1 hdue hslow
      omega

end MoneyMarket.Alerts
