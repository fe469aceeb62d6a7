/-
Reinvesting and the queue. `pokeQueue` reinvests the idle HOLLAR when its settlement locked none.
That passes over a request it could have paid in two cases: the request is more skips away than one
call has, or the call locked shares of it for nothing (`reinvest_jump_iff`). Requests that are made
and cancelled again bring about the first (`cancel_spam`).
-/
import MoneyMarket.Queue.Idle
import MoneyMarket.Vault.Invariant
import MoneyMarket.Vault.Replay

namespace MoneyMarket

open Evm Relation Transition

/-- What a poke of the queue has done when it decides on the reinvest: the rate it settled at, the
HOLLAR it used, and the state. -/
def settleQueue (s : State) : Tx (Nat × Nat × State) := do
  let s ← syncBeforeRateSensitiveAction s
  let rate ← exchangeRate s
  let (s, hollarUsed, _) ← processQueueWithHollar s s.idleHollar rate
  return (rate, hollarUsed, s)

/-- At `rate` the idle HOLLAR cannot pay the first waiting request: the request is worth nothing, or
the HOLLAR buys none of its shares. -/
def NoJump (rate : Nat) (s : State) : Prop :=
  ∀ p, FirstWaiting s.toRedemptions p → (s.redemptionQueue p).cost rate = 0 ∨ buys rate s.idleHollar = 0

/-- A first waiting request that can be paid is within the skips of one call, and unless it is paid
in full the shares that the idle HOLLAR buys of it are worth some. -/
def Served (rate : Nat) (s : State) : Prop :=
  ∀ p, FirstWaiting s.toRedemptions p → 0 < (s.redemptionQueue p).cost rate → 0 < buys rate s.idleHollar →
    p < s.queueHead + maxQueueSkips ∧ (s.idleHollar < (s.redemptionQueue p).cost rate →
      0 < buys rate s.idleHollar * rate / wad)

theorem FirstWaiting.unique {q : Redemptions} {p p' : Nat} (h : FirstWaiting q p)
    (h' : FirstWaiting q p') : p = p' := by
  rcases Nat.lt_trichotomy p p' with hlt | heq | hlt
  · exact absurd h.waits (h'.first p hlt)
  · exact heq
  · exact absurd h'.waits (h.first p' hlt)

/-! ## The call -/

section Call

variable {d : Deployment} {env : Replies} {s t s₁ s₂ : State} {rate used locked : Nat}

theorem processQueueWithHollar_run (h : processQueueWithHollar s s.idleHollar rate = .ok (t, used, locked)) :
    ∃ r, processQueue s.toQueueStore s.queueHead s.queueTail s.idleHollar rate maxQueueIterations
      maxQueueSkips wad = .ok r ∧
      used = r.hollarUsed ∧ t.redemptionQueue = r.redemptionQueue ∧ t.idleHollar = s.idleHollar - r.hollarUsed ∧
      t.toBook = s.toBook := by
  simp only [processQueueWithHollar, bind_ok_iff, checkedSub_ok_iff, checkedAdd_ok_iff, pure_ok_iff, Prod.mk.injEq] at h
  obtain ⟨r, hr, _, ⟨-, rfl⟩, _, ⟨-, rfl⟩, _, ⟨-, rfl⟩, rfl, rfl, -⟩ := h
  exact ⟨r, hr, rfl, rfl, rfl, rfl⟩

theorem caps_length {now : Nat} {b b' : Book} (h : ReflTransGen (Cap now) b b') :
    b'.positions.length = b.positions.length := by
  induction h with
  | refl => rfl
  | tail _ hc ih =>
    cases hc with
    | cap entry pos _ _ _ _ =>
      rw [← ih]
      exact List.length_set

/-- The sync of a call leaves the queue and the idle HOLLAR, and opens nothing. -/
theorem syncBefore_frame (h : syncBeforeRateSensitiveAction s = .ok t) :
    t.toRedemptions = s.toRedemptions ∧ t.idleHollar = s.idleHollar ∧ t.positions.length = s.positions.length := by
  simp only [syncBeforeRateSensitiveAction, syncMaturities, bind_ok_iff, checkedAdd_ok_iff, pure_ok_iff, Prod.exists,
    Prod.mk.injEq] at h
  obtain ⟨_, _, ⟨r, hr, _, ⟨-, rfl⟩, rfl, -⟩, _, -, rfl⟩ := h
  exact ⟨rfl, rfl, caps_length (processMaturities_caps (b := s.toBook) hr)⟩

theorem settleQueue_ok_iff {used : Nat} : settleQueue s = .ok (rate, used, t) ↔
    ∃ s₁ locked, syncBeforeRateSensitiveAction s = .ok s₁ ∧ exchangeRate s₁ = .ok rate ∧
      processQueueWithHollar s₁ s₁.idleHollar rate = .ok (t, used, locked) := by
  simp only [settleQueue, bind_ok_iff, pure_ok_iff, Prod.mk.injEq]
  constructor
  · rintro ⟨s₁, hsync, _, hrate, ⟨_, _, locked⟩, hq, rfl, rfl, rfl⟩
    exact ⟨s₁, locked, hsync, hrate, hq⟩
  · rintro ⟨s₁, locked, hsync, hrate, hq⟩
    exact ⟨s₁, hsync, rate, hrate, _, hq, rfl, rfl, rfl⟩

/-- A poke of the queue settles, and reinvests where that used no HOLLAR. -/
theorem pokeQueue_ok_iff : pokeQueue d env s = .ok t ↔
    s.paused = false ∧ ∃ rate used s₂, settleQueue s = .ok (rate, used, s₂) ∧
      (if used = 0 ∧ s₂.minReinvestAmount ≤ s₂.idleHollar ∧ s₂.depositsPaused = false then
          reinvest d env (sweepPositionHead s₂)
        else .ok (sweepPositionHead s₂)) = .ok t := by
  simp only [pokeQueue, whenNotPaused, bind_ok_iff, require_ok_iff, settleQueue_ok_iff]
  constructor
  · rintro ⟨_, hpaused, s₁, hsync, rate, hrate, ⟨s₂, used, locked⟩, hq, h⟩
    exact ⟨hpaused, rate, used, s₂, ⟨s₁, locked, hsync, hrate, hq⟩, h⟩
  · rintro ⟨hpaused, rate, used, s₂, ⟨s₁, locked, hsync, hrate, hq⟩, h⟩
    exact ⟨(), hpaused, s₁, hsync, rate, hrate, _, hq, h⟩

/-- What the settlement of a poke leaves is the queue processed from the state before the poke. -/
theorem settleQueue_run (h : settleQueue s = .ok (rate, used, t)) :
    ∃ r, processQueue s.toQueueStore s.queueHead s.queueTail s.idleHollar rate maxQueueIterations
      maxQueueSkips wad = .ok r ∧
      used = r.hollarUsed ∧ t.redemptionQueue = r.redemptionQueue ∧ t.idleHollar = s.idleHollar - used ∧
      t.positions.length = s.positions.length := by
  obtain ⟨s₁, locked, hsync, -, hq⟩ := settleQueue_ok_iff.1 h
  obtain ⟨hqueue, hidle, hlen⟩ := syncBefore_frame hsync
  obtain ⟨r, hr, hused, hqueue₂, hidle₂, hbook⟩ := processQueueWithHollar_run hq
  refine ⟨r, ?_, hused, hqueue₂, ?_, (congrArg (fun b => b.positions.length) hbook).trans hlen⟩
  · have hstore : s.toQueueStore = s₁.toQueueStore := (congrArg Redemptions.toQueueStore hqueue).symm
    have hhead : s.queueHead = s₁.queueHead := (congrArg Redemptions.queueHead hqueue).symm
    have htail : s.queueTail = s₁.queueTail := (congrArg Redemptions.queueTail hqueue).symm
    rw [hstore, hhead, htail, ← hidle]
    exact hr
  · rw [hidle₂, hidle, hused]

/-- A poke of the queue that opens a position has locked no HOLLAR. -/
theorem pokeQueue_unused (hpoke : pokeQueue d env s = .ok t) (hq : settleQueue s = .ok (rate, used, s₂))
    (hopen : s.positions.length < t.positions.length) : used = 0 := by
  obtain ⟨-, rate', used', s₂', hq', hpoke⟩ := pokeQueue_ok_iff.1 hpoke
  cases hq.symm.trans hq'
  split at hpoke
  · rename_i hguard
    exact hguard.1
  · cases hpoke
    obtain ⟨_, _, _, _, _, hlen⟩ := settleQueue_run hq
    have hopen : s.positions.length < s₂.positions.length := hopen
    omega

end Call

/-! ## Exactly when it jumps -/

section Jump

variable {d : Deployment} {s s₂ : State} {rate : Nat}

/-- What waits first is at or behind the head, and everything before it is done. -/
theorem Invariant.done_below (h : Invariant d s) {c : Nat}
    (hpassed : ∀ i, s.queueHead ≤ i → i < c → (s.redemptionQueue i).Done) : ∀ i < c, ¬ (s.redemptionQueue i).Waits := by
  intro i hi
  rcases Nat.lt_or_ge i s.queueHead with hlt | hge
  · exact (h.ledger.done_iff i).1 (.inr (h.fifo.below i hlt))
  · exact (h.ledger.done_iff i).1 (hpassed i hge hi)

/-- A fill for nothing is a jump over the request it fills. -/
theorem dusted_jumps {p : Nat} {r : SettleRun} (hinv : Invariant d s) (h : Dusted s.toRedemptions rate s.idleHollar p r)
    (hqueue : s₂.redemptionQueue = r.redemptionQueue) (hidle : s₂.idleHollar = s.idleHollar) :
    ¬ NoJump rate s₂ ∧ ¬ Served rate s := by
  have hwaits : (s.redemptionQueue p).Waits := by
    by_contra hno
    exact h.waits ((hinv.ledger.done_iff p).2 hno)
  have hfirst := hinv.done_below h.passed
  have hlock : s₂.redemptionQueue = Function.update s.redemptionQueue p
      { s.redemptionQueue p with
        bilSettled := (s.redemptionQueue p).bilSettled + buys rate s.idleHollar
        hollarOwed := (s.redemptionQueue p).hollarOwed + 0 } := by
    rw [hqueue]
    exact congrArg QueueStore.redemptionQueue h.store
  constructor
  · intro hno
    -- it waits with a share less than it asked for, and still nothing before it waits
    have hstill : FirstWaiting s₂.toRedemptions p := by
      refine ⟨?_, fun i hi => ?_⟩
      · show (s₂.redemptionQueue p).Waits
        rw [hlock, Function.update_self]
        exact ⟨hwaits.1, h.left.1⟩
      · show ¬ (s₂.redemptionQueue i).Waits
        rw [hlock, Function.update_of_ne hi.ne]
        exact hfirst i hi
    rcases hno p hstill with hcost | hbuys
    · rw [hlock, Function.update_self] at hcost
      exact absurd hcost h.left.2.ne'
    · rw [hidle] at hbuys
      exact absurd hbuys h.bought.ne'
  · intro hserved
    have hcost : 0 < (s.redemptionQueue p).cost rate := lt_of_le_of_lt (Nat.zero_le _) h.short
    have := (hserved p ⟨hwaits, hfirst⟩ hcost h.bought).2 h.short
    rw [h.nothing] at this
    exact absurd this (lt_irrefl 0)

/-- A settlement that changes no request jumps exactly when it has run out of skips. -/
theorem passed_jumps {c : Nat} (hinv : Invariant d s) (hqueue : s₂.redemptionQueue = s.redemptionQueue)
    (hidle : s₂.idleHollar = s.idleHollar) (hpassed : ∀ i, s.queueHead ≤ i → i < c → (s.redemptionQueue i).Done)
    (hend : s.queueTail ≤ c ∨ s.queueHead + maxQueueSkips ≤ c ∨
      (¬ (s.redemptionQueue c).Done ∧ (s.idleHollar = 0 ∨ (s.redemptionQueue c).cost rate = 0 ∨
        buys rate s.idleHollar = 0))) :
    NoJump rate s₂ ↔ Served rate s := by
  have hfirst := hinv.done_below hpassed
  have hsame : ∀ p, FirstWaiting s₂.toRedemptions p ↔ FirstWaiting s.toRedemptions p := by
    intro p
    constructor
    · rintro ⟨hw, hf⟩
      exact ⟨by rw [← hqueue]; exact hw, by rw [← hqueue]; exact hf⟩
    · rintro ⟨hw, hf⟩
      exact ⟨by show (s₂.redemptionQueue p).Waits; rw [hqueue]; exact hw,
        fun i hi => by show ¬ (s₂.redemptionQueue i).Waits; rw [hqueue]; exact hf i hi⟩
  constructor
  · intro hno p hp hcost hbuys
    rcases hno p ((hsame p).2 hp) with h0 | h0
    · rw [hqueue] at h0; omega
    · rw [hidle] at h0; omega
  · intro hserved p hp
    have hp := (hsame p).1 hp
    rw [hqueue, hidle]
    by_contra hpay
    obtain ⟨hcost, hbuys⟩ := not_or.1 hpay
    have hskips := (hserved p hp (Nat.pos_of_ne_zero hcost) (Nat.pos_of_ne_zero hbuys)).1
    -- the walk stopped no later than at the first request that waits
    have hpc : ¬ p < c := fun hlt => hfirst p hlt hp.waits
    have hlive : p < s.queueTail := hinv.ledger.lt_tail hp.waits.1
    rcases hend with htail | hbudget | ⟨hwaits, hpoor⟩
    · omega
    · omega
    · have hwaits : (s.redemptionQueue c).Waits := by
        by_contra hno
        exact hwaits ((hinv.ledger.done_iff c).2 hno)
      -- both are the first that waits
      obtain rfl : p = c := hp.unique ⟨hwaits, hfirst⟩
      rcases hpoor with h0 | h0 | h0
      · rw [h0, buys, Nat.zero_mul, Nat.zero_div] at hbuys
        exact hbuys rfl
      · exact hcost h0
      · exact hbuys h0

/-- A settlement that used no HOLLAR passed over nothing it could have paid, exactly when it had to serve
what waits first. -/
theorem settled_jumps (hinv : Invariant d s) (hq : settleQueue s = .ok (rate, 0, s₂)) :
    NoJump rate s₂ ↔ Served rate s := by
  obtain ⟨r, hr, hused, hqueue, hidle, -⟩ := settleQueue_run hq
  have hidle : s₂.idleHollar = s.idleHollar := hidle
  rcases processQueue_unused (q := s.toRedemptions) (by decide) hr hused.symm with
    ⟨hstore, c, -, hpassed, hend⟩ | ⟨p, r', hdust, hstore⟩
  · exact passed_jumps hinv (hqueue.trans (congrArg QueueStore.redemptionQueue hstore)) hidle hpassed hend
  · obtain ⟨hjump, hunserved⟩ :=
      dusted_jumps hinv hdust (hqueue.trans (congrArg QueueStore.redemptionQueue hstore)) hidle
    exact ⟨fun h => absurd h hjump, fun h => absurd h hunserved⟩

/-- A settlement that used HOLLAR served what waits first. -/
theorem used_serves {used : Nat} (hinv : Invariant d s) (hq : settleQueue s = .ok (rate, used, s₂)) (hused : used ≠ 0) :
    Served rate s := by
  obtain ⟨r, hr, rfl, -⟩ := settleQueue_run hq
  obtain ⟨p, hpaid⟩ := processQueue_used (q := s.toRedemptions) hr hused
  have hwaits : (s.redemptionQueue p).Waits := by
    by_contra hno
    exact hpaid.waits ((hinv.ledger.done_iff p).2 hno)
  intro p' hp' _ _
  obtain rfl : p' = p := hp'.unique ⟨hwaits, hinv.done_below hpaid.passed⟩
  exact ⟨hpaid.near, hpaid.worth⟩

end Jump

/-- A poke of the queue that opens a position passes over no request it could have paid, if and
only if the first waiting one, when it can be paid, is within the skips of the call and is not to be
filled for nothing. -/
theorem reinvest_jump_iff {d : Deployment} {env : Replies} {s t s₂ : State} {rate used : Nat} (h : Reachable d s)
    (hpoke : pokeQueue d env s = .ok t) (hq : settleQueue s = .ok (rate, used, s₂))
    (hopen : s.positions.length < t.positions.length) : NoJump rate s₂ ↔ Served rate s := by
  obtain rfl := pokeQueue_unused hpoke hq hopen
  exact settled_jumps h.inv hq

/-- Alice deposits 10 HOLLAR for a while and 90 for long. The first 10 buy all but one of the shares of
her first request. Then the 90 come back short by half a percent, within the threshold. -/
def wedgedRun : List Action :=
  demoFunding ++
    [.call alice (demoReplies 0 1000 (some (10 ^ 19)) none none) (.deposit (10 ^ 19) alice),
     .call alice (demoReplies 0 100000 (some (9 * 10 ^ 19)) none none) (.deposit (9 * 10 ^ 19) alice),
     .tick 1000,
     .call bob (demoReplies 0 0 none none (some (10 ^ 19))) (.pokeDecentral 0),
     .call alice demoQuiet (.requestRedeem (10 ^ 19 + 1) alice alice),
     .call bob demoQuiet .pokeQueue,
     .call alice demoQuiet (.requestRedeem (5 * 10 ^ 18) alice alice),
     .tick 100000,
     .call bob (demoReplies 0 0 none none (some (8955 * 10 ^ 16))) (.pokeDecentral 1)]

/-- The poke reinvests the 89.55 HOLLAR in front of that request, whose one share is worth nothing. -/
theorem reinvest_jump_iff_demo : ∃ s t s₂ rate used, Reachable demo s ∧
    pokeQueue demo (demoReplies 0 1000 (some (8955 * 10 ^ 16)) none none) s = .ok t ∧
    settleQueue s = .ok (rate, used, s₂) ∧ s.positions.length < t.positions.length ∧
    FirstWaiting s.toRedemptions 0 ∧ (s.redemptionQueue 0).cost rate = 0 ∧ buys rate s.idleHollar ≠ 0 ∧
    (NoJump rate s₂ ↔ Served rate s) := by
  obtain ⟨s, hs, ht⟩ := observe_reach demo DeadSilent demoQuiet demoSetup wedgedRun
    (fun s => passes (pokeQueue demo (demoReplies 0 1000 (some (8955 * 10 ^ 16)) none none) s) fun t =>
      passes (settleQueue s) fun r => decide (s.positions.length < t.positions.length ∧
        (s.redemptionQueue 0).Waits ∧ (s.redemptionQueue 0).cost r.1 = 0 ∧ buys r.1 s.idleHollar ≠ 0))
      (by decide +kernel)
  obtain ⟨t, hpoke, ht⟩ := passes_ok ht
  obtain ⟨⟨rate, used, s₂⟩, hq, ht⟩ := passes_ok ht
  obtain ⟨hopen, hwaits, hcost, hbuys⟩ := of_decide_eq_true ht
  exact ⟨s, t, s₂, rate, used, hs.of_restrict, hpoke, hq, hopen, ⟨hwaits, fun i hi => absurd hi (Nat.not_lt_zero i)⟩,
    hcost, hbuys, reinvest_jump_iff hs.of_restrict hpoke hq hopen⟩

/-! ## Cancelled requests -/

section Spam

variable {d : Deployment} {s : State} {a : Address} {shares : Nat}

/-- An account that can lock `shares` while the queue holds something else. -/
structure CanSpam (d : Deployment) (s : State) (a : Address) (shares : Nat) : Prop where
  unpaused : s.paused = false
  account : a ≠ 0 ∧ a ≠ d.self
  enough : s.minRedeemAmount ≤ shares ∧ shares ≤ s.bil.balanceOf a
  fits : s.totalQueuedBil + shares < uintSize
  behind : s.queueHead < s.queueTail

/-- The state with the request of `a` at the tail. -/
def State.requested (d : Deployment) (s : State) (a : Address) (shares : Nat) : State :=
  { s with
    bil := s.bil.move a d.self shares, queueTail := s.queueTail + 1, totalQueuedBil := s.totalQueuedBil + shares
    redemptionQueue := Function.update s.redemptionQueue s.queueTail ⟨a, shares, 0, 0⟩ }

/-- The state with `n` ids used up. -/
def State.spent (s : State) (n : Nat) : State := { s with queueTail := s.queueTail + n }

theorem request_spam (h : CanSpam d s a shares) (htail : s.queueTail + 1 < uintSize) :
    requestRedeem d s a shares a a = .ok (s.requested d a shares, s.queueTail) := by
  simp only [requestRedeem, whenNotPaused, bind_ok_iff, require_ok_iff, checkedAdd_ok_iff,
    ERC20.transfer_ok_iff, pure_ok_iff,
    true_or]
  exact ⟨(), h.unpaused, (), h.enough.1, (), h.account.1, (), h.account.1, (), trivial, _,
    ⟨h.account.1, d.self_ne_zero, h.enough.2, rfl⟩, _, ⟨htail, rfl⟩, _, ⟨h.fits, rfl⟩, rfl⟩

/-- The refund gives the shares back and leaves an empty request. -/
theorem refund_spam (h : CanSpam d s a shares) (hpos : 0 < shares) :
    refundUnsettled d (s.requested d a shares) s.queueTail shares =
      .ok { s.spent 1 with redemptionQueue := Function.update s.redemptionQueue s.queueTail ⟨a, 0, 0, 0⟩ } := by
  have hpaid : shares ≤ (s.bil.move a d.self shares).balanceOf d.self := by
    rw [ERC20.move_target _ _ _ _ h.account.2.symm]
    exact Nat.le_add_left _ _
  have hslot : (s.requested d a shares).redemptionQueue s.queueTail = ⟨a, shares, 0, 0⟩ := Function.update_self ..
  have hback : (s.bil.move a d.self shares).move d.self a shares = s.bil := ERC20.move_back _ _ _ h.account.2 h.enough.2
  rw [refundUnsettled, if_pos hpos, hslot]
  simp only [bind_ok_iff, checkedSub_ok_iff, ERC20.transfer_ok_iff, pure_ok_iff]
  refine ⟨_, ⟨Nat.le_add_left _ _, rfl⟩, _, ⟨d.self_ne_zero, h.account.1, hpaid, hback⟩, ?_⟩
  simp only [State.requested, State.spent, Function.update_idem, Nat.add_sub_cancel]

/-- A request that is cancelled at once leaves its id behind and nothing else. -/
theorem cancel_spam (hinv : Invariant d s) (h : CanSpam d s a shares) :
    cancelRedeem d (s.requested d a shares) a s.queueTail = .ok (s.spent 1) := by
  have hslot : (s.requested d a shares).redemptionQueue s.queueTail = ⟨a, shares, 0, 0⟩ := Function.update_self ..
  have hblank : s.redemptionQueue s.queueTail = Request.empty := hinv.ledger.blank s.queueTail (.inr (le_refl _))
  have hhead : ¬ s.queueTail = s.queueHead := h.behind.ne'
  simp only [cancelRedeem, hslot, bind_ok_iff, require_ok_iff, checkedSub_ok_iff, pure_ok_iff, true_or]
  refine ⟨(), Nat.lt_succ_self _, (), h.account.1, (), trivial, _, ⟨Nat.zero_le _, rfl⟩, _,
    refund_spam h (lt_of_lt_of_le hinv.minRedeem h.enough.1), ?_⟩
  simp only [deleteUnsettled, Function.update_self, if_pos, Function.update_idem, State.spent, if_neg hhead]
  rw [← hblank, Function.update_eq_self]

/-- So an account uses up as many ids as it likes. -/
theorem spam_reach {n : Nat} (hr : Reachable d s) (h : CanSpam d s a shares) (hn : s.queueTail + n < uintSize) :
    Reachable d (s.spent n) := by
  induction n with
  | zero => exact hr
  | succ n ih =>
    have hr := ih (by omega)
    have h : CanSpam d (s.spent n) a shares := ⟨h.unpaused, h.account, h.enough, h.fits, Nat.lt_add_right n h.behind⟩
    have hrequest := request_spam h (show s.queueTail + n + 1 < uintSize by omega)
    have hcancel := cancel_spam hr.inv h
    have hrequested : Reachable d ((s.spent n).requested d a shares) := by
      refine .step (.call a demoQuiet (.requestRedeem shares a a)) hr ⟨h.account.2, [], ?_⟩
      show (requestRedeem d (s.spent n) a shares a a >>= _) = _
      rw [hrequest]
      rfl
    refine .step (.call a demoQuiet (.cancelRedeem (s.spent n).queueTail)) hrequested ⟨h.account.2, [], ?_⟩
    show (cancelRedeem d ((s.spent n).requested d a shares) a (s.spent n).queueTail >>= _) = _
    rw [hcancel]
    rfl

end Spam

instance (d : Deployment) (s : State) (a : Address) (shares : Nat) : Decidable (CanSpam d s a shares) :=
  decidable_of_iff (s.paused = false ∧ (a ≠ 0 ∧ a ≠ d.self) ∧
    (s.minRedeemAmount ≤ shares ∧ shares ≤ s.bil.balanceOf a) ∧
      s.totalQueuedBil + shares < uintSize ∧ s.queueHead < s.queueTail)
    ⟨fun ⟨h₁, h₂, h₃, h₄, h₅⟩ => ⟨h₁, h₂, h₃, h₄, h₅⟩, fun h => ⟨h.unpaused, h.account, h.enough, h.fits, h.behind⟩⟩

/-- Alice's position is redeemed in full while nobody waits, which leaves all of it idle. -/
def idleRun : List Action :=
  demoFunding ++
    [.call alice (demoReplies (10 ^ 17) 1000 (some (10 ^ 20)) none none) (.deposit (10 ^ 20) alice),
     .tick 1000,
     .call bob (demoReplies 0 0 none (some 317097919837645) (some (10 ^ 20))) (.pokeDecentral 0)]

/-- A pool that takes all that is idle after that run. -/
def idleTaken : Replies := demoReplies (10 ^ 17) 1000 (some 100000317097919837645) none none

/-- Alice gives bob 10 shares of an idle vault and requests one. -/
def spamPrefix : List Action :=
  idleRun ++
    [.call alice demoQuiet (.share (.transfer bob (10 * 10 ^ 18))),
     .call alice demoQuiet (.requestRedeem (10 ^ 18) alice alice)]

/-- After her spam bob requests 5 shares, and alice takes her own request back. -/
def spamSuffix : List Action :=
  [.call bob demoQuiet (.requestRedeem (5 * 10 ^ 18) bob bob),
   .call alice demoQuiet (.cancelRedeem 0)]

/-- A poke of the queue of `s` opens a position while the request `p` is the first that waits and can
be paid. -/
def jumpsOver (d : Deployment) (env : Replies) (s : State) (p : Nat) : Bool :=
  passes (pokeQueue d env s) fun t => passes (settleQueue s) fun r =>
    decide (s.positions.length < t.positions.length ∧
      ((r.2.2.redemptionQueue p).Waits ∧ ∀ i < p, ¬ (r.2.2.redemptionQueue i).Waits) ∧
      (r.2.2.redemptionQueue p).cost r.1 ≠ 0 ∧ buys r.1 r.2.2.idleHollar ≠ 0)

/-- Alice spams 549 ids between her request and bob's. Her own request out of the way, the poke
sweeps 500 of them and reinvests a hundred HOLLAR in front of bob's five shares. -/
theorem reinvest_jumps : ¬ ∀ (d : Deployment) (env : Replies) (s t s₂ : State) (rate used : Nat), Reachable d s →
    pokeQueue d env s = .ok t → settleQueue s = .ok (rate, used, s₂) → s.positions.length < t.positions.length →
      NoJump rate s₂ := by
  intro hall
  obtain ⟨s₀, hs₀, ht⟩ := observe_reach demo DeadSilent demoQuiet demoSetup spamPrefix
    (fun s => decide (CanSpam demo s alice (10 ^ 18) ∧ s.queueTail + 549 < uintSize) &&
      (System.exec (replayStep demo DeadSilent) (s.spent 549) spamSuffix).any fun s => jumpsOver demo idleTaken s 550)
    (by decide +kernel)
  rw [Bool.and_eq_true, decide_eq_true_iff] at ht
  obtain ⟨⟨hspam, hfits⟩, ht⟩ := ht
  obtain ⟨s, hexec, ht⟩ := (Option.any_eq_true _ _).1 ht
  have hs : Reachable demo s :=
    .exec (fun _ _ _ h => (replayStep_sound h).2) (spam_reach hs₀.of_restrict hspam hfits) hexec
  obtain ⟨t, hpoke, ht⟩ := passes_ok ht
  obtain ⟨⟨rate, used, s₂⟩, hq, ht⟩ := passes_ok ht
  obtain ⟨hopen, ⟨hwaits, hfirst⟩, hcost, hbuys⟩ := of_decide_eq_true ht
  rcases hall demo idleTaken s t s₂ rate used hs hpoke hq hopen 550 ⟨hwaits, hfirst⟩ with h | h
  · exact hcost h
  · exact hbuys h

end MoneyMarket
