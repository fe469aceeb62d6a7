/-
Settlements that lock no HOLLAR. Such a run found nothing waiting, or ran out of skips before the
first request that waits, or could not pay that request, or locked a share of it that the rate
rounds to nothing (`processQueue_unused`). One that locks some has paid the first request that waits
(`processQueue_used`).
-/
import MoneyMarket.Queue.Ledger

namespace MoneyMarket

open Evm Relation

/-- A live request with shares still to be settled. -/
def Request.Waits (request : Request) : Prop := request.user ≠ 0 ∧ request.bilSettled < request.bilAmount

instance (request : Request) : Decidable request.Waits :=
  inferInstanceAs (Decidable (request.user ≠ 0 ∧ request.bilSettled < request.bilAmount))

/-- The waiting request with the lowest id. -/
structure FirstWaiting (q : Redemptions) (p : Nat) : Prop where
  waits : (q.redemptionQueue p).Waits
  first : ∀ i < p, ¬ (q.redemptionQueue i).Waits

theorem QueueLedger.done_iff {q : Redemptions} (h : QueueLedger q) (i : Nat) :
    (q.redemptionQueue i).Done ↔ ¬ (q.redemptionQueue i).Waits := by
  have := h.settled_le_amount i
  unfold Request.Done Request.Waits
  constructor
  · rintro (hu | hs) ⟨hu', hlt⟩
    · exact hu' hu
    · omega
  · intro hw
    by_cases hu : (q.redemptionQueue i).user = 0
    · exact .inl hu
    · exact .inr (by by_contra hne; exact hw ⟨hu, by omega⟩)

/-- What the unsettled shares of a request cost, and what of them `available` HOLLAR buys. -/
def Request.cost (rate : Nat) (request : Request) : Nat := (request.bilAmount - request.bilSettled) * rate / wad
def buys (rate available : Nat) : Nat := available * wad / rate

/-! ## One pass -/

section Pass

variable {queueTail rate maxIterations maxSkips : Nat} {r r' : SettleRun}

/-- Why a pass stops. -/
theorem settlePass_stop_why (h : settlePass queueTail rate maxIterations maxSkips wad r = .ok (.stop r')) :
    queueTail ≤ r.cursor ∨ maxIterations ≤ r.iterations ∨ maxSkips ≤ r.skips ∨
      (r.cursor < queueTail ∧ ¬ (r.redemptionQueue r.cursor).Done ∧
        (r.available = 0 ∨ (r.redemptionQueue r.cursor).cost rate = 0 ∨
          (r.available < (r.redemptionQueue r.cursor).cost rate ∧ buys rate r.available = 0))) := by
  unfold settlePass at h
  dsimp only at h
  split_ifs at h with hguard hhole hdone havail
  · cases h
  · cases h
  · exact .inr (.inr (.inr ⟨hguard.1, not_or.2 ⟨hhole, hdone⟩, .inl havail⟩))
  · simp only [bind_ok_iff, checkedSub_ok_iff, checkedMul_ok_iff, checkedDiv_ok_iff] at h
    obtain ⟨_, ⟨-, rfl⟩, _, ⟨-, rfl⟩, _, ⟨-, rfl⟩, h⟩ := h
    split_ifs at h with hzero hfits
    · exact .inr (.inr (.inr ⟨hguard.1, not_or.2 ⟨hhole, hdone⟩, .inr (.inl hzero)⟩))
    · simp only [bind_ok_iff, pure_ok_iff, reduceCtorEq, and_false, exists_false] at h
    · simp only [bind_ok_iff, checkedMul_ok_iff, checkedDiv_ok_iff] at h
      obtain ⟨_, ⟨-, rfl⟩, _, ⟨-, rfl⟩, h⟩ := h
      split_ifs at h with hb
      · exact .inr (.inr (.inr ⟨hguard.1, not_or.2 ⟨hhole, hdone⟩, .inr (.inr ⟨not_le.1 hfits, hb⟩)⟩))
      · simp only [bind_ok_iff, pure_ok_iff, reduceCtorEq, and_false, exists_false] at h
  · rcases not_and_or.1 hguard with h | h
    · exact .inl (not_lt.1 h)
    · rcases not_and_or.1 h with h | h
      · exact .inr (.inl (not_lt.1 h))
      · exact .inr (.inr (.inl (not_lt.1 h)))

end Pass

/-! ## Runs that lock nothing -/

/-- A run offered `idle` that has only passed done entries. -/
structure Passing (q : Redemptions) (idle : Nat) (r : SettleRun) : Prop where
  store : r.toQueueStore = q.toQueueStore
  available : r.available = idle
  used : r.hollarUsed = 0
  iterations : r.iterations = 0
  cursor : r.cursor = q.queueHead + r.skips
  passed : ∀ i, q.queueHead ≤ i → i < r.cursor → (q.redemptionQueue i).Done

/-- A run offered `idle` whose partial fill of `p` locked shares for no HOLLAR. -/
structure Dusted (q : Redemptions) (rate idle p : Nat) (r : SettleRun) : Prop where
  store : r.toQueueStore =
    q.lock p ((q.redemptionQueue p).bilSettled + buys rate idle) ((q.redemptionQueue p).hollarOwed + 0)
  available : r.available = 0
  used : r.hollarUsed = 0
  cursor : r.cursor = p
  passed : ∀ i, q.queueHead ≤ i → i < p → (q.redemptionQueue i).Done
  waits : ¬ (q.redemptionQueue p).Done
  short : idle < (q.redemptionQueue p).cost rate
  bought : 0 < buys rate idle
  nothing : buys rate idle * rate / wad = 0

/-- The request `p` that a run with `idle` HOLLAR pays first: it waits behind done ones within the skips of
the run, and what the HOLLAR buys of it is worth some. -/
structure PaidFirst (q : Redemptions) (rate idle maxSkips p : Nat) : Prop where
  passed : ∀ i, q.queueHead ≤ i → i < p → (q.redemptionQueue i).Done
  waits : ¬ (q.redemptionQueue p).Done
  near : p < q.queueHead + maxSkips
  worth : idle < (q.redemptionQueue p).cost rate → 0 < buys rate idle * rate / wad

section Run

variable {q : Redemptions} {rate idle maxIterations maxSkips p : Nat} {r r' : SettleRun}

/-- The shares a fill for nothing buys leave more than one unit's worth waiting. -/
theorem Dusted.left (h : Dusted q rate idle p r) :
    (q.redemptionQueue p).bilSettled + buys rate idle < (q.redemptionQueue p).bilAmount ∧
      0 < ((q.redemptionQueue p).bilAmount - ((q.redemptionQueue p).bilSettled + buys rate idle)) * rate / wad := by
  have hbought := h.bought
  have hwad : 0 < wad := by decide
  -- a unit of HOLLAR is short of the cost, and buys shares worth less than a unit
  have hnothing : buys rate idle * rate < wad := by
    have := (Nat.div_eq_zero_iff).1 h.nothing
    omega
  have hidle : 0 < idle := by
    rcases Nat.eq_zero_or_pos idle with h0 | hpos
    · rw [h0, buys, Nat.zero_mul, Nat.zero_div] at hbought
      exact absurd hbought (lt_irrefl 0)
    · exact hpos
  have hcost : 2 * wad ≤ ((q.redemptionQueue p).bilAmount - (q.redemptionQueue p).bilSettled) * rate :=
    (Nat.le_div_iff_mul_le hwad).1 (Nat.lt_of_le_of_lt hidle h.short)
  have hrest : (((q.redemptionQueue p).bilAmount - (q.redemptionQueue p).bilSettled) - buys rate idle) * rate =
      ((q.redemptionQueue p).bilAmount - (q.redemptionQueue p).bilSettled) * rate - buys rate idle * rate :=
        Nat.sub_mul _ _ _
  have hsub : (q.redemptionQueue p).bilAmount - ((q.redemptionQueue p).bilSettled + buys rate idle) =
      (q.redemptionQueue p).bilAmount - (q.redemptionQueue p).bilSettled - buys rate idle := by omega
  have hworth : wad ≤ ((q.redemptionQueue p).bilAmount -
    ((q.redemptionQueue p).bilSettled + buys rate idle)) * rate := by
    rw [hsub, hrest]; omega
  refine ⟨?_, (Nat.le_div_iff_mul_le hwad).2 (by rw [Nat.one_mul]; exact hworth)⟩
  by_contra hge
  rw [show (q.redemptionQueue p).bilAmount - ((q.redemptionQueue p).bilSettled + buys rate idle) = 0 by omega,
    Nat.zero_mul] at hworth
  omega

/-- How far a run has come: it is passing done entries, or has filled one for nothing, or has paid one. -/
def SoFar (q : Redemptions) (rate idle maxSkips : Nat) (r : SettleRun) : Prop :=
  Passing q idle r ∨ (∃ p, Dusted q rate idle p r) ∨ (0 < r.hollarUsed ∧ ∃ p, PaidFirst q rate idle maxSkips p)

theorem Passing.step (h : Passing q idle r) (hs : SettleStep q.queueTail rate maxIterations maxSkips r r') :
    SoFar q rate idle maxSkips r' := by
  have hqueue : r.redemptionQueue = q.redemptionQueue := congrArg QueueStore.redemptionQueue h.store
  have hcursor := h.cursor
  cases hs with
  | skip _ _ _ hdone =>
    refine .inl ⟨h.store, h.available, h.used, h.iterations, ?_, fun i hi hlt => ?_⟩
    · show r.cursor + 1 = q.queueHead + (r.skips + 1)
      omega
    · rcases Nat.lt_succ_iff_lt_or_eq.1 hlt with hlt | rfl
      · exact h.passed i hi hlt
      · rw [← hqueue]; exact hdone
  | full pending hollarValue _ _ hskips huser hpending hsum hvalue hpos hle =>
    rw [hqueue] at huser hsum
    rw [h.available] at hle
    refine .inr (.inr ⟨Nat.add_pos_right _ hpos, r.cursor, h.passed, not_or.2 ⟨huser, fun heq => ?_⟩, by omega,
      fun hshort => ?_⟩)
    · omega
    · -- it costs no more than is there
      have hcost : (q.redemptionQueue r.cursor).cost rate = hollarValue := by
        rw [hvalue, Request.cost, show (q.redemptionQueue r.cursor).bilAmount -
          (q.redemptionQueue r.cursor).bilSettled = pending by omega]
      omega
  | part pending b _ _ hskips huser hsum hshort hb hpos =>
    rw [hqueue] at huser hsum
    rw [h.available] at hshort hb
    have hpending : pending = (q.redemptionQueue r.cursor).bilAmount - (q.redemptionQueue r.cursor).bilSettled := by
      omega
    have hwaits : ¬ (q.redemptionQueue r.cursor).Done := by
      refine not_or.2 ⟨huser, fun heq => ?_⟩
      rw [show pending = 0 by omega, Nat.zero_mul, Nat.zero_div] at hshort
      exact absurd hshort (Nat.not_lt_zero _)
    have hbuys : buys rate idle = b := hb.symm
    rcases Nat.eq_zero_or_pos (b * rate / wad) with h0 | hused
    · refine .inr (.inl ⟨r.cursor, ?_, rfl, ?_, rfl, h.passed, hwaits, ?_, ?_, ?_⟩)
      · rw [hbuys, ← hqueue, ← h.store, ← h0]
      · show r.hollarUsed + b * rate / wad = 0
        rw [h.used, h0]
      · rw [hpending] at hshort; exact hshort
      · rw [hbuys]; exact hpos
      · rw [hbuys]; exact h0
    · refine .inr (.inr ⟨Nat.add_pos_right _ hused, r.cursor, h.passed, hwaits, by omega, fun _ => ?_⟩)
      rw [hbuys]
      exact hused

/-- After a fill for nothing there is nothing left to fill with. -/
theorem Dusted.last (h : Dusted q rate idle p r) : ¬ SettleStep q.queueTail rate maxIterations maxSkips r r' := by
  have hentry : r.redemptionQueue r.cursor =
      { q.redemptionQueue p with
        bilSettled := (q.redemptionQueue p).bilSettled + buys rate idle
        hollarOwed := (q.redemptionQueue p).hollarOwed + 0 } := by
    have : r.redemptionQueue = _ := congrArg QueueStore.redemptionQueue h.store
    rw [this, h.cursor]
    exact Function.update_self ..
  intro hs
  cases hs with
  | skip _ _ _ hdone =>
    rw [hentry] at hdone
    rcases hdone with hu | hs
    · exact h.waits (.inl hu)
    · have : (q.redemptionQueue p).bilSettled + buys rate idle = (q.redemptionQueue p).bilAmount := hs
      have := h.left.1
      omega
  | full pending hollarValue _ _ _ _ _ _ _ hpos hle =>
    rw [h.available] at hle; omega
  | part pending b _ _ _ _ _ _ hb hpos =>
    rw [h.available, Nat.zero_mul, Nat.zero_div] at hb; omega

theorem SoFar.step (h : SoFar q rate idle maxSkips r)
    (hs : SettleStep q.queueTail rate maxIterations maxSkips r r') : SoFar q rate idle maxSkips r' := by
  rcases h with h | ⟨p, h⟩ | ⟨hused, hpaid⟩
  · exact h.step hs
  · exact absurd hs h.last
  · -- what is used stays used
    refine .inr (.inr ⟨?_, hpaid⟩)
    cases hs with
    | skip _ _ _ _ => exact hused
    | full _ _ _ _ _ _ _ _ _ _ _ => exact Nat.add_pos_left hused _
    | part _ _ _ _ _ _ _ _ _ _ => exact Nat.add_pos_left hused _

/-- A pass uses one of its two budgets. -/
theorem SettleStep.budget_lt {queueTail : Nat} (hs : SettleStep queueTail rate maxIterations maxSkips r r') :
    maxIterations - r'.iterations + (maxSkips - r'.skips) < maxIterations - r.iterations + (maxSkips - r.skips) := by
  cases hs with
  | skip _ _ hskips _ =>
    show maxIterations - r.iterations + (maxSkips - (r.skips + 1)) < _
    omega
  | full _ _ _ hit _ _ _ _ _ _ _ =>
    show maxIterations - (r.iterations + 1) + (maxSkips - r.skips) < _
    omega
  | part _ _ _ hit _ _ _ _ _ _ =>
    show maxIterations - (r.iterations + 1) + (maxSkips - r.skips) < _
    omega

/-- How far a settlement has come at its last pass. -/
theorem processQueue_soFar
    (h : processQueue q.toQueueStore q.queueHead q.queueTail idle rate maxIterations maxSkips wad = .ok r) :
    ∃ t, SoFar q rate idle maxSkips t ∧ settlePass q.queueTail rate maxIterations maxSkips wad t = .ok (.stop r) ∧
      r.toQueueStore = t.toQueueStore ∧ r.hollarUsed = t.hollarUsed := by
  obtain ⟨t, ht, hstop⟩ := loop_exits (I := SoFar q rate idle maxSkips)
    (fun r => maxIterations - r.iterations + (maxSkips - r.skips))
    (fun r r' hi hp => ⟨hi.step (settlePass_again hp), (settlePass_again hp).budget_lt⟩)
    (.inl ⟨rfl, rfl, rfl, rfl, rfl, fun i hi hlt => absurd hlt (not_lt.2 hi)⟩)
    (by show maxIterations - 0 + (maxSkips - 0) < _; omega) h
  refine ⟨t, ht, hstop, ?_⟩
  rcases settlePass_stop hstop with rfl | rfl <;> exact ⟨rfl, rfl⟩

/-- How a settlement ends that locks no HOLLAR: it stops at an entry `c` after done ones, which is
the tail, or beyond its skips, or cannot be paid; or it has filled a request for nothing. -/
theorem processQueue_unused (hiterations : 0 < maxIterations)
    (h : processQueue q.toQueueStore q.queueHead q.queueTail idle rate maxIterations maxSkips wad = .ok r)
    (hused : r.hollarUsed = 0) :
    (r.toQueueStore = q.toQueueStore ∧ ∃ c, q.queueHead ≤ c ∧
    (∀ i, q.queueHead ≤ i → i < c → (q.redemptionQueue i).Done) ∧
      (q.queueTail ≤ c ∨ q.queueHead + maxSkips ≤ c ∨
        (¬ (q.redemptionQueue c).Done ∧ (idle = 0 ∨ (q.redemptionQueue c).cost rate = 0 ∨ buys rate idle = 0)))) ∨
    ∃ p r', Dusted q rate idle p r' ∧ r.toQueueStore = r'.toQueueStore := by
  obtain ⟨t, ht, hstop, hstore, hsame⟩ := processQueue_soFar h
  rcases ht with ht | ⟨p, ht⟩ | ⟨ht, -⟩
  · left
    have hqueue : t.redemptionQueue = q.redemptionQueue := congrArg QueueStore.redemptionQueue ht.store
    have hcursor := ht.cursor
    refine ⟨hstore.trans ht.store, t.cursor, by omega, ht.passed, ?_⟩
    rcases settlePass_stop_why hstop with htail | hbudget | hskips | ⟨-, hwaits, hpoor⟩
    · exact .inl htail
    · have := ht.iterations; omega
    · exact .inr (.inl (by omega))
    · rw [hqueue] at hwaits hpoor
      rw [ht.available] at hpoor
      exact .inr (.inr ⟨hwaits, hpoor.imp_right fun h => h.imp_right And.right⟩)
  · exact .inr ⟨p, t, ht, hstore⟩
  · omega

/-- A settlement that locks HOLLAR has paid a request within its skips. -/
theorem processQueue_used
    (h : processQueue q.toQueueStore q.queueHead q.queueTail idle rate maxIterations maxSkips wad = .ok r)
    (hused : r.hollarUsed ≠ 0) : ∃ p, PaidFirst q rate idle maxSkips p := by
  obtain ⟨t, ht, -, -, hsame⟩ := processQueue_soFar h
  rcases ht with ht | ⟨p, ht⟩ | ⟨-, hpaid⟩
  · exact absurd (hsame.trans ht.used) hused
  · exact absurd (hsame.trans ht.used) hused
  · exact hpaid

end Run

end MoneyMarket
