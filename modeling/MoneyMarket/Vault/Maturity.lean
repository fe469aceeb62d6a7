/-
Maturity syncs over whole runs. A sync fails only where the yield that it makes pending does not
fit, caps the first due positions with the yield of their whole terms, and no position twice; and
two schedules of syncs over one history end in the same books (`maturity_sync`).
-/
import MoneyMarket.Vault.Outlay
import MoneyMarket.Vault.Positions
import MoneyMarket.Vault.Schedule

namespace MoneyMarket

open Evm Relational Relation Transition

/-! ## Bounds -/

section Bounds

variable {d : Deployment} {s : State} {n : Nat}

theorem Effect.sized {a : Action} {t : State} (h : Effect d a s t) (hs : s.toBook.Sized) : t.toBook.Sized := by
  cases h with
  | kept hk => exact hk.sized hs
  | opened amount idle hk hopen _ =>
    cases hopen with
    | opened tokenId apyWad period pulled token _ _ hfits => exact (hk.sized hs).opened hfits
  | recapped newCap total _ _ => exact hs
  | enrolled sender env c g _ _ => exact hs

theorem Reachable.sized (h : Reachable d s) : s.toBook.Sized := by
  refine h.invariant (I := fun s => s.toBook.Sized) ?_ fun _ _ _ _ hi ⟨_, _, hs⟩ => (step_effect hs).sized hi
  rintro s ⟨env, p, token, now, -, hinit⟩
  obtain ⟨g, c, a, -, -, rfl⟩ := initializeVault_ok hinit
  exact ⟨show 0 < uintSize by decide, fun _ hp => absurd hp List.not_mem_nil⟩

/-- What the sync multiplies is bounded by the aggregate at the present. -/
theorem Reachable.ratesFit (h : Reachable d s) (hfit : s.now * s.yieldRateSum < uintSize) :
    s.toBook.RatesFit s.now := by
  intro pos hp ⟨hu, hdue⟩
  have hle : pos.rate ≤ s.yieldRateSum := h.inv.yield.rate_le_sum hp hu
  refine ⟨lt_of_le_of_lt hle h.sized.rate, lt_of_le_of_lt ?_ hfit⟩
  rw [Nat.mul_comm]
  exact Nat.mul_le_mul hdue hle

/-- A sync succeeds exactly where the yield pending after it fits. -/
theorem syncMaturities_succeeds_iff (h : YieldBook s.now s.toBook) (hrates : s.toBook.RatesFit s.now) :
    (∃ r, syncMaturities s n = .ok r) ↔
      s.totalPendingYield + (((s.toBook.dueList s.now).take n).map s.toBook.lockedYield).sum < uintSize := by
  rw [← h.sum_dueList]
  constructor
  · rintro ⟨r, hr⟩
    simp only [syncMaturities, bind_ok_iff, checkedAdd_ok_iff] at hr
    obtain ⟨run, hrun, _, ⟨hfits, -⟩, -⟩ := hr
    obtain ⟨-, -, hadded, -⟩ := processMaturities_locks (b := s.toBook) h hrun
    rw [hadded] at hfits
    exact hfits
  · intro hfits
    obtain ⟨run, hrun⟩ := processMaturities_succeeds (n := n) h hrates (lt_of_le_of_lt (Nat.le_add_left _ _) hfits)
    obtain ⟨-, -, hadded, -⟩ := processMaturities_locks (b := s.toBook) h hrun
    rw [← hadded] at hfits
    unfold syncMaturities
    refine ⟨_, bind_ok_iff.2 ⟨run, hrun, bind_ok_iff.2 ⟨_, checkedAdd_ok_iff.2 ⟨hfits, rfl⟩, rfl⟩⟩⟩

/-- What a sync leaves. -/
theorem syncMaturities_locks {t : State} {k : Nat} (h : YieldBook s.now s.toBook)
    (hs : syncMaturities s n = .ok (t, k)) :
    k = min n (s.toBook.dueList s.now).length ∧
      t.positions = lockAt s.positions ((s.toBook.dueList s.now).take n) ∧
      t.totalPendingYield =
        s.totalPendingYield + (((s.toBook.dueList s.now).take n).map s.toBook.lockedYield).sum ∧
      t = { s with
        positions := t.positions, maturityHeap := t.maturityHeap, yieldRateSum := t.yieldRateSum
        yieldOffsetSum := t.yieldOffsetSum, totalPendingYield := t.totalPendingYield } := by
  simp only [syncMaturities, bind_ok_iff, checkedAdd_ok_iff, pure_ok_iff, Prod.mk.injEq] at hs
  obtain ⟨r, hr, _, ⟨-, rfl⟩, rfl, rfl⟩ := hs
  obtain ⟨hprocessed, hpos, hadded, -⟩ := processMaturities_locks (b := s.toBook) h hr
  rw [h.sum_dueList] at hadded
  exact ⟨hprocessed, hpos, congrArg (s.totalPendingYield + ·) hadded, rfl⟩

/-- Where the products fit, they fit before the division of every yield a sync leaves pending. -/
theorem Reachable.locked_fits (h : Reachable d s) (hrates : s.toBook.RatesFit s.now) {pos : NFTPosition}
    (hp : pos ∈ lockAt s.positions ((s.toBook.dueList s.now).take n)) : pos.pendingYield * yearWad < uintSize := by
  obtain ⟨i, hi⟩ := List.mem_iff_getElem?.1 hp
  rw [getElem?_lockAt] at hi
  obtain ⟨p, hpos, hlock⟩ := Option.map_eq_some_iff.1 hi
  split_ifs at hlock with hin
  · obtain ⟨q, hq, hdue⟩ := (h.inv.yield.dueList.mem i).1 (List.mem_of_mem_take hin)
    obtain rfl := Option.some.inj (hpos.symm.trans hq)
    rw [← hlock]
    apply lt_of_le_of_lt (Nat.div_mul_le_self _ _)
    exact lt_of_le_of_lt (Nat.mul_le_mul_left _ (Nat.sub_le _ _)) (hrates p (List.mem_of_getElem? hpos) hdue).2
  · rw [← hlock]
    exact h.sized.pending p (List.mem_of_getElem? hpos)

/-- No yield is more than its share of the products that fit, so few enough of them fit together. -/
theorem Reachable.pending_fits (h : Reachable d s) (hrates : s.toBook.RatesFit s.now)
    (hcount : s.positions.length ≤ yearWad) :
    s.totalPendingYield + (((s.toBook.dueList s.now).take n).map s.toBook.lockedYield).sum < uintSize := by
  have hlist := h.inv.yield.dueList
  have hsum := hlist.sum_lockAt NFTPosition.pendingYield n
  -- a position that is due has no yield pending yet
  have hzero : (((s.toBook.dueList s.now).take n).map (weightAt NFTPosition.pendingYield s.positions)).sum = 0 := by
    refine List.sum_eq_zero fun x hx => ?_
    obtain ⟨i, hi, rfl⟩ := List.mem_map.1 hx
    obtain ⟨pos, hpos, hdue⟩ := (hlist.mem i).1 (List.mem_of_mem_take hi)
    rw [weightAt, hpos]
    exact (h.inv.lifecycle.positions pos (List.mem_of_getElem? hpos)).uncapped hdue.1
  rw [hzero, Nat.add_zero, ← h.inv.lifecycle.pending] at hsum
  have hlocked : s.toBook.lockedYield = weightAt (fun pos => pos.locked.pendingYield) s.positions := rfl
  rw [hlocked, ← hsum]
  have heach : ∀ x ∈ (lockAt s.positions ((s.toBook.dueList s.now).take n)).map fun pos => pos.pendingYield * yearWad,
      x ≤ uintSize - 1 := by
    intro x hx
    obtain ⟨pos, hp, rfl⟩ := List.mem_map.1 hx
    exact Nat.le_sub_one_of_lt (h.locked_fits hrates hp)
  -- so the products add up to less than the count times the largest word
  have htotal := List.sum_le_card_nsmul _ _ heach
  rw [List.length_map, length_lockAt, smul_eq_mul, List.sum_map_mul_right] at htotal
  have hle : _ * yearWad ≤ yearWad * (uintSize - 1) := le_trans htotal (Nat.mul_le_mul_right _ hcount)
  rw [Nat.mul_comm] at hle
  have := Nat.le_of_mul_le_mul_left hle (by decide)
  exact lt_of_le_of_lt this (by decide)

end Bounds

/-! ## The life of a position -/

/-- What a position was opened with. -/
def NFTPosition.terms (pos : NFTPosition) : Nat × Nat × Nat × Nat :=
  (pos.apyWad, pos.principal, pos.yieldStartTime, pos.maturityTime)

/-- Until it is claimed, the yield of a capped position is the one of its whole term. -/
def NFTPosition.Fixed (pos : NFTPosition) : Prop :=
  pos.yieldCapped = true → pos.state = .active ∨ pos.state = .yieldWithdrawalRequested →
    pos.pendingYield = pos.locked.pendingYield

section Life

variable {now : Nat} {pos pos' : NFTPosition} {b b' : Book}

theorem NFTPosition.Step.fixed (h : NFTPosition.Step now pos pos') (hf : pos.Fixed) : pos'.Fixed := by
  cases h with
  | cap _ _ => exact fun _ _ => rfl
  | ask state ha =>
    cases ha with
    | skipYield _ _ _ _ =>
      rintro - (hstate | hstate)
      · cases hstate
      · cases hstate
    | requestYield hactive _ hcapped _ => exact fun _ _ => hf hcapped (.inl hactive)
    | requestPrincipal _ =>
      rintro - (hstate | hstate)
      · cases hstate
      · cases hstate
  | yieldPaid _ =>
    rintro - (hstate | hstate)
    · cases hstate
    · cases hstate
  | principalPaid _ =>
    rintro - (hstate | hstate)
    · cases hstate
    · cases hstate

/-- A position keeps its terms, and once capped it stays so. -/
theorem NFTPosition.Step.keeps (h : NFTPosition.Step now pos pos') :
    pos'.terms = pos.terms ∧ (pos.yieldCapped = true → pos'.yieldCapped = true) := by
  cases h with
  | cap _ _ => exact ⟨rfl, fun _ => rfl⟩
  | _ => exact ⟨rfl, id⟩

theorem steps_keep (h : ReflTransGen (NFTPosition.Step now) pos pos') :
    pos'.terms = pos.terms ∧ (pos.yieldCapped = true → pos'.yieldCapped = true) := by
  induction h with
  | refl => exact ⟨rfl, id⟩
  | tail _ hs ih =>
    obtain ⟨hterms, hcapped⟩ := hs.keeps
    exact ⟨hterms.trans ih.1, hcapped ∘ ih.2⟩

theorem fixed_set {i : Nat} (hpos : b.positions[i]? = some pos) (hs : NFTPosition.Step now pos pos')
    (hf : ∀ p ∈ b.positions, p.Fixed) : ∀ p ∈ b.positions.set i pos', p.Fixed := by
  intro p hp
  rcases List.mem_or_eq_of_mem_set hp with hp | rfl
  · exact hf p hp
  · exact hs.fixed (hf pos (List.mem_of_getElem? hpos))

theorem BookMove.fixed (hm : BookMove now b b') (hy : YieldBook now b) (hf : ∀ pos ∈ b.positions, pos.Fixed) :
    ∀ pos ∈ b'.positions, pos.Fixed := by
  cases hm with
  | opened pool tokenId apyWad amount period _ _ _ =>
    intro pos hp
    rcases List.mem_append.1 hp with hp | hp
    · exact hf pos hp
    · rw [List.mem_singleton.1 hp]
      exact fun hcapped => by cases hcapped
  | cap hc =>
    cases hc with
    | cap entry pos hroot hdue hpos _ =>
      obtain ⟨hu, hm, -⟩ := hy.cap hroot hpos
      have hstep : NFTPosition.Step now pos (pos.cap (pos.yieldAt pos.maturityTime)) := .cap hu (by rw [hm]; exact hdue)
      rw [hm] at hstep
      exact fixed_set hpos hstep hf
  | ask i pos state hi ha => exact fixed_set hi (.ask state ha) hf
  | yieldPaid i pos hi hs => exact fixed_set hi (show NFTPosition.Step now _ _ from .yieldPaid hs) hf
  | principalPaid i pos hi hs => exact fixed_set hi (show NFTPosition.Step now _ _ from .principalPaid hs) hf
  | sweep hs =>
    cases hs with
    | sweep pos _ _ => exact hf

variable {d : Deployment} {s t : State}

theorem fixed_of_move (h : Invariant d s) (hm : b = s.toBook ∨ BookMove s.now s.toBook b)
    (hf : ∀ pos ∈ s.positions, pos.Fixed) : ∀ pos ∈ b.positions, pos.Fixed := by
  rcases hm with rfl | hm
  · exact hf
  · exact hm.fixed h.yield hf

theorem step_fixed {a : Action} {ps : List Payout} (h : Invariant d s) (hlegal : Legal d s a)
    (hs : step d s a = .ok (t, ps)) (hf : ∀ pos ∈ s.positions, pos.Fixed) : ∀ pos ∈ t.positions, pos.Fixed := by
  rcases step_moves hlegal hs with ⟨ha, -⟩ | hp
  · exact fixed_of_move h ha.book hf
  · refine (Moves.invariant (I := fun x => Invariant d x ∧ ∀ pos ∈ x.positions, pos.Fixed) ?_ hp ⟨h, hf⟩).2
    rintro x qs y ⟨hx, hf⟩ hm
    exact ⟨hx.poke hm, fixed_of_move hx hm.book hf⟩

theorem Reachable.fixed (h : Reachable d s) : ∀ pos ∈ s.positions, pos.Fixed := by
  refine h.invariant (I := fun s => ∀ pos ∈ s.positions, pos.Fixed) ?_ ?_
  · rintro s ⟨env, p, token, now, -, hinit⟩
    obtain ⟨g, c, a, -, -, rfl⟩ := initializeVault_ok hinit
    exact fun _ hp => absurd hp List.not_mem_nil
  · rintro s a t hr hf ⟨hlegal, ps, hs⟩
    exact step_fixed (Reachable.inv hr) hlegal hs hf

/-- Over any run. -/
theorem leads_keep (h : Reachable d s) (hl : (vault d).Leads s t) {i : Nat} (hpos : s.positions[i]? = some pos) :
    ∃ pos', t.positions[i]? = some pos' ∧ pos'.terms = pos.terms ∧
      (pos.yieldCapped = true → pos'.yieldCapped = true) := by
  refine System.Leads.invariant (I := fun t => ∃ pos', t.positions[i]? = some pos' ∧ pos'.terms = pos.terms ∧
    (pos.yieldCapped = true → pos'.yieldCapped = true)) h ?_ hl ⟨pos, hpos, rfl, id⟩
  rintro u a v hu ⟨p, hp, hterms, hcapped⟩ ⟨hlegal, ps, hs⟩
  obtain ⟨p', hp', hsteps⟩ := (step_evolves (Reachable.inv hu) hlegal hs).positions i p hp
  obtain ⟨hterms', hcapped'⟩ := steps_keep hsteps
  exact ⟨p', hp', hterms'.trans hterms, hcapped' ∘ hcapped⟩

end Life

/-! ## Maturity synchronisation -/

/-- Every sync locks the first due positions, by maturity and then by index, with the yield of their
whole terms. While the time times the rate aggregate fits, it fails only where the yield pending
after it does not, which takes more positions than a year has wads. A position is capped once in its
life; and two schedules of syncs over one history that end with nothing due end in the same book. -/
theorem maturity_sync {d : Deployment} {s : State} (h : Reachable d s) :
    (∃ order, s.toBook.DueList s.now order ∧ ∀ n,
      (s.now * s.yieldRateSum < uintSize →
        ((∃ r, syncMaturities s n = .ok r) ↔
          s.totalPendingYield + ((order.take n).map s.toBook.lockedYield).sum < uintSize)) ∧
      ∀ t k, syncMaturities s n = .ok (t, k) →
        k = min n order.length ∧ t.positions = lockAt s.positions (order.take n) ∧
        t.totalPendingYield = s.totalPendingYield + ((order.take n).map s.toBook.lockedYield).sum ∧
        t = { s with
          positions := t.positions, maturityHeap := t.maturityHeap, yieldRateSum := t.yieldRateSum
          yieldOffsetSum := t.yieldOffsetSum, totalPendingYield := t.totalPendingYield }) ∧
    (s.now * s.yieldRateSum < uintSize → s.positions.length ≤ secondsPerYear * wad →
      ∀ n, ∃ r, syncMaturities s n = .ok r) ∧
    (∀ pos ∈ s.positions, pos.Fixed) ∧
    (∀ t, (vault d).Leads s t → ∀ (i : Nat) (pos : NFTPosition), s.positions[i]? = some pos →
      ∃ pos', t.positions[i]? = some pos' ∧ pos'.terms = pos.terms ∧
        (pos.yieldCapped = true → pos'.yieldCapped = true)) ∧
    ∀ p, (schedules d s).Reach p → (∀ pos ∈ p.1.positions, ¬ pos.Due p.1.now) →
      (∀ pos ∈ p.2.positions, ¬ pos.Due p.2.now) →
      p.2.positions = p.1.positions ∧ p.2.yieldRateSum = p.1.yieldRateSum ∧
        p.2.yieldOffsetSum = p.1.yieldOffsetSum ∧ p.2.totalPendingYield = p.1.totalPendingYield ∧
        ∃ maturityHeap, p.2 = { p.1 with maturityHeap } := by
  have hy := h.inv.yield
  refine ⟨⟨s.toBook.dueList s.now, hy.dueList, fun n => ⟨fun hfit => ?_, fun t k hs => ?_⟩⟩, fun hfit hcount n => ?_,
    h.fixed, fun t hl i pos hpos => leads_keep h hl hpos, fun p hp hnone hnone' => ?_⟩
  · exact syncMaturities_succeeds_iff hy (h.ratesFit hfit)
  · exact syncMaturities_locks hy hs
  · have hrates := h.ratesFit hfit
    exact (syncMaturities_succeeds_iff hy hrates).2 (h.pending_fits hrates hcount)
  · obtain ⟨maturityHeap, heq⟩ := (schedules_aligned h hp).meet hnone hnone'
    rw [heq]
    exact ⟨rfl, rfl, rfl, rfl, maturityHeap, rfl⟩

/-- Alice opens three positions, the second for half the term of the others, and all mature. -/
def threeDueRun : List Action :=
  demoFunding ++
    [.call alice (demoReplies (10 ^ 17) 1000 (some (10 ^ 20)) none none) (.deposit (10 ^ 20) alice),
     .call alice (demoReplies (10 ^ 17) 500 (some (10 ^ 20)) none none) (.deposit (10 ^ 20) alice),
     .call alice (demoReplies (10 ^ 17) 1000 (some (10 ^ 20)) none none) (.deposit (10 ^ 20) alice),
     .tick 2000]

/-- Synced at once or in two batches, they end in the same book. -/
theorem maturity_sync_demo : ∃ s t u t' : State, ∃ order, s.toBook.DueList s.now order ∧
    syncMaturities s 3 = .ok (t, 3) ∧ syncMaturities s 1 = .ok (u, 1) ∧ syncMaturities u 2 = .ok (t', 2) ∧
    t.positions = lockAt s.positions (order.take 3) ∧ t'.positions = t.positions ∧
    t'.totalPendingYield = t.totalPendingYield := by
  obtain ⟨s, hs, htest⟩ := observe_reach demo DeadSilent demoQuiet demoSetup threeDueRun
    (fun s => passes (syncMaturities s 3) fun r => passes (syncMaturities s 1) fun r₁ =>
      passes (syncMaturities r₁.1 2) fun r₂ => decide (r.2 = 3 ∧ r₁.2 = 1 ∧ r₂.2 = 2 ∧
        (∀ pos ∈ r.1.positions, ¬ pos.Due r.1.now) ∧ ∀ pos ∈ r₂.1.positions, ¬ pos.Due r₂.1.now))
    (by decide +kernel)
  obtain ⟨⟨t, k⟩, ht, htest⟩ := passes_ok htest
  obtain ⟨⟨u, j⟩, hu, htest⟩ := passes_ok htest
  obtain ⟨⟨t', l⟩, ht', htest⟩ := passes_ok htest
  obtain ⟨rfl, rfl, rfl, hnone, hnone'⟩ := of_decide_eq_true htest
  obtain ⟨⟨order, horder, hsync⟩, -, -, -, hschedules⟩ := maturity_sync hs.of_restrict
  have hfirst : (schedules demo s).Reach (t, s) := .step (.first 3) (.init rfl) ⟨⟨3, ht⟩, rfl⟩
  have hsecond : (schedules demo s).Reach (t, u) := .step (.second 1) hfirst ⟨rfl, 1, hu⟩
  have hboth : (schedules demo s).Reach (t, t') := .step (.second 2) hsecond ⟨rfl, 2, ht'⟩
  obtain ⟨-, hpos, -⟩ := (hsync 3).2 t 3 ht
  obtain ⟨heq, -, -, hpending, -⟩ := hschedules (t, t') hboth hnone hnone'
  exact ⟨s, t, u, t', order, horder, ht, hu, ht', hpos, heq, hpending⟩

/-! ## More positions than a year has wads -/

/-- A pool whose yield for one wei is almost the whole range, before the division. -/
def dustReplies : Replies := demoReplies (2 ^ 170) (2 ^ 86 - 1) (some 1) none none

/-- A first position without term or yield, capped at once. -/
def dustPrefix : List Action :=
  [.hollarMint alice (10 ^ 26), .hollar alice (.approve demo.self (uintSize - 1)),
   .call alice (demoReplies 0 0 (some 1001) none none) (.deposit 1001 alice),
   .call alice demoQuiet (.syncMaturities 1)]

/-- Position `i` of a vault in which alice has opened positions of one wei behind the first. -/
def IsDust (i : Nat) (pos : NFTPosition) : Prop :=
  if i = 0 then pos.yieldCapped = true
  else pos.yieldCapped = false ∧ pos.apyWad = 2 ^ 170 ∧ pos.principal = 1 ∧ pos.yieldStartTime = 0 ∧
    pos.maturityTime = 2 ^ 86 - 1

/-- Alice has opened `k` positions of one wei at time zero. -/
structure Sprinkled (k : Nat) (s : State) : Prop where
  now : s.now = 0
  paused : s.paused = false
  depositsPaused : s.depositsPaused = false
  cap : s.tvlCap = 10 ^ 30
  pool : s.activeDepositPool = demoPool
  rate : s.yieldRateSum = k * 2 ^ 170
  offset : s.yieldOffsetSum = 0
  invested : s.totalInvestedPrincipal = 1001 + k
  idle : s.idleHollar = 0
  pending : s.totalPendingYield = 0
  reserved : s.totalReservedHollar = 0
  settled : s.totalSettledBil = 0
  supply : s.bil.totalSupply = 1001 + k
  funds : s.token.balanceOf alice + 1001 + k = 10 ^ 26
  allowed : s.token.allowance alice demo.self = uintSize - 1
  count : s.positions.length = 1 + k
  positions : ∀ i pos, s.positions[i]? = some pos → IsDust i pos

/-- The state with one more position of one wei. -/
def State.dusted (s : State) (bil token : ERC20) : State :=
  { s with bil, token, toBook := s.toBook.opened demoPool 0 (2 ^ 170) 1 (2 ^ 86 - 1) s.now }

namespace Sprinkled

variable {k : Nat} {s : State}

theorem none_due (h : Sprinkled k s) (hy : YieldBook s.now s.toBook) : NoneDue s := by
  intro root hroot
  obtain ⟨pos, hpos, hu, hm, -⟩ := hy.entry_pos (YieldBook.root_mem hroot)
  have hdust := h.positions _ pos hpos
  unfold IsDust at hdust
  rw [← hm, h.now]
  split_ifs at hdust
  · rw [hu] at hdust
    cases hdust
  · rw [hdust.2.2.2.2]
    decide

theorem totalAssets_eq (h : Sprinkled k s) (hy : YieldBook s.now s.toBook) (hk : k < 2 ^ 85) :
    totalAssets s = .ok (1001 + k) := by
  have haccrued : accruedYield s = .ok 0 := by
    unfold accruedYield
    rw [(h.none_due hy).accrualTime_eq, h.now, h.offset]
    split_ifs
    · simp only [bind_ok_iff, checkedMul_ok_iff]
      exact ⟨0, ⟨by rw [Nat.zero_mul]; decide, Nat.zero_mul _⟩, rfl⟩
    · rfl
  have hfits : 1001 + k < uintSize := by unfold uintSize; omega
  simp only [totalAssets, haccrued, bind_ok_iff, checkedAdd_ok_iff, h.invested, h.idle, h.pending, h.reserved,
    Except.ok.injEq, exists_eq_left', Nat.add_zero]
  exact ⟨_, ⟨hfits, rfl⟩, _, ⟨hfits, rfl⟩, _, ⟨hfits, rfl⟩, hfits, rfl⟩

/-- One share for one wei. -/
theorem shares_eq (h : Sprinkled k s) (hy : YieldBook s.now s.toBook) (hk : k < 2 ^ 85) :
    validateAndPreviewShares s 1 = .ok 1 := by
  have htotal := h.totalAssets_eq hy hk
  have hactive : activeAssets s = .ok (1001 + k) := by
    unfold activeAssets
    rw [htotal, h.reserved]
    simp
  have hsupply : activeSupply s = 1001 + k := by
    unfold activeSupply
    rw [h.settled, h.supply, if_pos (by omega), Nat.sub_zero]
  have hvalid : validateDeposit s 1 = .ok () := by
    simp only [validateDeposit, htotal, bind_ok_iff, require_ok_iff, checkedAdd_ok_iff, h.cap, Except.ok.injEq,
      exists_eq_left']
    exact ⟨(), h.depositsPaused, (), by decide, _, ⟨by unfold uintSize; omega, rfl⟩, by omega⟩
  unfold validateAndPreviewShares
  rw [hvalid, hactive, hsupply, h.supply]
  simp only [bind_ok_iff]
  refine ⟨(), trivial, ?_⟩
  rw [if_neg (by omega)]
  simp only [bind_ok_iff, require_ok_iff, checkedMul_ok_iff, checkedDiv_ok_iff, Except.ok.injEq, exists_eq_left',
    pure_ok_iff]
  refine ⟨(), by omega, _, ⟨by unfold uintSize; omega, rfl⟩, 1, ⟨by omega, ?_⟩, (), by decide, rfl⟩
  rw [Nat.one_mul, Nat.div_self (by omega)]

/-- The book with one more position of one wei. -/
theorem recorded (h : Sprinkled k s) (hk : k < 2 ^ 85) :
    recordPosition s.toBook demoPool 0 (2 ^ 170) 1 (2 ^ 86 - 1) s.now =
      .ok (s.toBook.opened demoPool 0 (2 ^ 170) 1 (2 ^ 86 - 1) s.now) := by
  have hcount := h.count
  refine recordPosition_ok_iff.2 ⟨⟨?_, ?_, ?_, ?_, ?_⟩, rfl⟩
  · rw [h.invested]
    unfold uintSize
    omega
  · rw [h.rate]
    unfold uintSize
    omega
  · rw [h.offset, h.now]
    decide
  · rw [h.now]
    decide
  · omega

/-- The pool pulls the wei it is approved. -/
theorem opens (h : Sprinkled k s) (hk : k < 2 ^ 85) (bil : ERC20) {token : ERC20}
    (hbal : 1 ≤ token.balanceOf demo.self) :
    ∃ token', depositIntoDecentral demo dustReplies { s with bil, token } 1 =
        .ok (s.dusted bil token', true) ∧
      token'.balanceOf = (token.move demo.self demoPool 1).balanceOf ∧
      token'.allowance alice = token.allowance alice := by
  set approved := (token.setAllowance demo.self demoPool 0).setAllowance demo.self demoPool 1 with happroved
  set spent := approved.setAllowance demo.self demoPool 0 with hspent
  have hpull : (approved.transferFrom demoPool demo.self demoPool 1 : Tx ERC20) =
      .ok (spent.move demo.self demoPool 1) := by
    have hone : approved.allowance demo.self demoPool = 1 := ERC20.setAllowance_self ..
    unfold ERC20.transferFrom ERC20.spendAllowance
    rw [hone, if_neg (by decide)]
    simp only [bind_ok_iff, require_ok_iff, ERC20.approve_ok_iff, ERC20.transfer_ok_iff]
    exact ⟨spent, ⟨(), le_refl _, by decide, by decide, rfl⟩, by decide, by decide, hbal, rfl⟩
  have hpool : poolDeposit demo (dustReplies.pool demoPool) approved demoPool =
      some (0, spent.move demo.self demoPool 1) := by
    have hreply : (dustReplies.pool demoPool).deposit = some (0, 1) := rfl
    simp only [poolDeposit, hreply, hpull]
  refine ⟨spent.move demo.self demoPool 1, ?_, ?_, ?_⟩
  · unfold depositIntoDecentral
    simp only [h.pool, bind_ok_iff, returned_ok_iff, ERC20.safeApprove_ok_iff]
    refine ⟨2 ^ 170, rfl, _, ⟨.inl trivial, by decide, by decide, rfl⟩, _,
      ⟨.inr (ERC20.setAllowance_self ..), by decide, by decide, rfl⟩, ?_⟩
    rw [← happroved, hpool]
    simp only [bind_ok_iff, returned_ok_iff, pure_ok_iff]
    exact ⟨2 ^ 86 - 1, rfl, _, h.recorded hk, rfl⟩
  · funext x
    rw [ERC20.move_balanceOf, ERC20.move_balanceOf]
    rfl
  · rw [ERC20.move_allowance, hspent, ERC20.setAllowance_other _ _ _ _ (by decide), happroved,
      ERC20.setAllowance_other _ _ _ _ (by decide), ERC20.setAllowance_other _ _ _ _ (by decide)]

/-- A deposit of one wei mints one share. -/
theorem deposits (h : Sprinkled k s) (hy : YieldBook s.now s.toBook) (hk : k < 2 ^ 85) :
    ∃ bil token, deposit demo dustReplies s alice 1 alice = .ok (s.dusted bil token, 1) ∧
      bil.totalSupply = s.bil.totalSupply + 1 ∧ token.balanceOf alice = s.token.balanceOf alice - 1 ∧
        token.allowance alice demo.self = uintSize - 1 := by
  have hnone := h.none_due hy
  have hfunds := h.funds
  set bil : ERC20 := { s.bil.setBalance alice (s.bil.balanceOf alice + 1) with totalSupply := s.bil.totalSupply + 1 }
  have hmint : (s.bil.mint alice 1 : Tx ERC20) = .ok bil :=
    ERC20.mint_ok_iff.2 ⟨by decide, by rw [h.supply]; unfold uintSize; omega, rfl⟩
  have hboot : bootstrap s.bil = .ok s.bil := if_neg (by rw [h.supply]; omega)
  set pulled := s.token.move alice demo.self 1 with hpulled
  have hpull : (s.token.transferFrom demo.self alice demo.self 1 : Tx ERC20) = .ok pulled := by
    unfold ERC20.transferFrom ERC20.spendAllowance
    rw [if_pos h.allowed]
    simp only [bind_ok_iff, ERC20.transfer_ok_iff]
    exact ⟨s.token, rfl, by decide, by decide, by omega, rfl⟩
  have hself : 1 ≤ pulled.balanceOf demo.self := by
    rw [hpulled, ERC20.move_target _ _ _ _ (by decide)]
    exact Nat.le_add_left _ _
  obtain ⟨token, hopen, hbal, hallow⟩ := h.opens hk bil hself
  have hdeposit : deposit demo dustReplies s alice 1 alice = .ok (s.dusted bil token, 1) := by
    simp only [deposit, depositShares, bind_ok_iff, pure_ok_iff]
    exact ⟨(), require_ok_iff.2 h.paused, (), require_ok_iff.2 (by decide), 1, h.shares_eq hy hk, (), hnone.no_backlog,
      _, ⟨s.bil, hboot, bil, hmint, pulled, hpull, _, hopen, (), require_ok_iff.2 rfl, rfl⟩, rfl⟩
  refine ⟨bil, token, hdeposit, rfl, ?_, ?_⟩
  · rw [hbal, ERC20.move_balanceOf, if_neg (by decide), if_neg (by decide), hpulled, ERC20.move_balanceOf,
      if_neg (by decide), if_pos rfl]
  · rw [hallow, hpulled, ERC20.move_allowance, h.allowed]

/-- One more position of one wei. -/
theorem grow (h : Sprinkled k s) (hy : YieldBook s.now s.toBook) (hk : k < 2 ^ 85) :
    ∃ t, deposit demo dustReplies s alice 1 alice = .ok (t, 1) ∧ Sprinkled (k + 1) t := by
  obtain ⟨bil, token, hdeposit, hsupply, halice, hallow⟩ := h.deposits hy hk
  have hfunds := h.funds
  refine ⟨s.dusted bil token, hdeposit, h.now, h.paused, h.depositsPaused, h.cap, h.pool, ?_, ?_, ?_, h.idle, h.pending,
    h.reserved, h.settled, ?_, ?_, hallow, ?_, ?_⟩
  · show s.yieldRateSum + 2 ^ 170 * 1 = (k + 1) * 2 ^ 170
    rw [h.rate]
    omega
  · show s.yieldOffsetSum + 2 ^ 170 * 1 * s.now = 0
    rw [h.offset, h.now, Nat.mul_zero]
  · show s.totalInvestedPrincipal + 1 = 1001 + (k + 1)
    rw [h.invested]
    rfl
  · show bil.totalSupply = 1001 + (k + 1)
    rw [hsupply, h.supply]
    rfl
  · show token.balanceOf alice + 1001 + (k + 1) = 10 ^ 26
    rw [halice]
    omega
  · show (s.positions ++ [_]).length = 1 + (k + 1)
    rw [List.length_append, h.count]
    rfl
  · intro i pos hpos
    have hpos : (s.positions ++ [_])[i]? = some pos := hpos
    rw [List.getElem?_append] at hpos
    split_ifs at hpos with hlt
    · exact h.positions i pos hpos
    · -- the new position is behind the others
      have hi : i ≠ 0 := by
        have := h.count
        omega
      rw [List.mem_singleton.1 (List.mem_of_getElem? hpos), IsDust, if_neg hi, h.now]
      exact ⟨rfl, rfl, rfl, rfl, Nat.zero_add _⟩

end Sprinkled

/-- As many of them as she likes. -/
theorem sprinkled_reach : ∀ k ≤ 2 ^ 85, ∃ s, Reachable demo s ∧ Sprinkled k s := by
  intro k hk
  induction k with
  | zero =>
    obtain ⟨s, hs, htest⟩ := observe_reach demo DeadSilent demoQuiet demoSetup dustPrefix
      (fun s => decide ((s.now = 0 ∧ s.paused = false ∧ s.depositsPaused = false ∧ s.tvlCap = 10 ^ 30 ∧
        s.activeDepositPool = demoPool) ∧ (s.yieldRateSum = 0 * 2 ^ 170 ∧ s.yieldOffsetSum = 0 ∧
        s.totalInvestedPrincipal = 1001 + 0 ∧ s.idleHollar = 0 ∧ s.totalPendingYield = 0 ∧ s.totalReservedHollar = 0 ∧
        s.totalSettledBil = 0 ∧ s.bil.totalSupply = 1001 + 0) ∧ s.token.balanceOf alice + 1001 + 0 = 10 ^ 26 ∧
        s.token.allowance alice demo.self = uintSize - 1 ∧ s.positions.length = 1 + 0 ∧
        ∀ pos ∈ s.positions, pos.yieldCapped = true)) (by decide +kernel)
    obtain ⟨⟨hnow, hpaused, hdeposits, hcap, hpool⟩, ⟨hrate, hoffset, hinvested, hidle, hpending, hreserved, hsettled,
      hsupply⟩, hfunds, hallowed, hcount, hcapped⟩ := of_decide_eq_true htest
    refine ⟨s, hs.of_restrict, hnow, hpaused, hdeposits, hcap, hpool, hrate, hoffset, hinvested, hidle, hpending,
      hreserved, hsettled, hsupply, hfunds, hallowed, hcount, fun i pos hpos => ?_⟩
    have hi : i = 0 := by
      have := (List.getElem?_eq_some_iff.1 hpos).1
      omega
    rw [IsDust, if_pos hi]
    exact hcapped pos (List.mem_of_getElem? hpos)
  | succ k ih =>
    obtain ⟨s, hs, hdust⟩ := ih (by omega)
    obtain ⟨t, hdeposit, ht⟩ := hdust.grow hs.inv.yield (by omega)
    refine ⟨t, .step (.call alice dustReplies (.deposit 1 alice)) hs ⟨show alice ≠ demo.self by decide, [], ?_⟩, ht⟩
    show (deposit demo dustReplies s alice 1 alice >>= _) = _
    rw [hdeposit]
    rfl

/-- The yield of one such position. -/
def dustYield : Nat := 2 ^ 170 * (2 ^ 86 - 1) / yearWad

/-- All but the first are due at the end of their term. -/
theorem dust_due {b : Book} {n : Nat} {order : List Nat} (h : b.DueList (2 ^ 86 - 1) order)
    (hdust : ∀ i pos, b.positions[i]? = some pos → IsDust i pos) (hcount : b.positions.length = 1 + n) :
    order.length = n := by
  have hperm : order.Perm (List.range' 1 n) := by
    refine (List.perm_ext_iff_of_nodup h.nodup List.nodup_range').2 fun i => ?_
    rw [h.mem, List.mem_range'_1]
    constructor
    · rintro ⟨pos, hpos, hu, -⟩
      have hlt := (List.getElem?_eq_some_iff.1 hpos).1
      have hd := hdust i pos hpos
      unfold IsDust at hd
      split_ifs at hd with hi
      · rw [hu] at hd
        cases hd
      · omega
    · rintro ⟨hle, hlt⟩
      have hpos : b.positions[i]? = some b.positions[i] := List.getElem?_eq_getElem (by omega)
      have hd := hdust i _ hpos
      rw [IsDust, if_neg (by omega)] at hd
      exact ⟨_, hpos, hd.1, hd.2.2.2.2.le⟩
  rw [hperm.length_eq, List.length_range']

/-- What a due one has. -/
theorem IsDust.of_due {now i : Nat} {pos : NFTPosition} (h : IsDust i pos) (hdue : pos.Due now) :
    pos.rate = 2 ^ 170 ∧ pos.maturityTime = 2 ^ 86 - 1 ∧ pos.locked.pendingYield = dustYield := by
  unfold IsDust at h
  split_ifs at h
  · rw [hdue.1] at h
    cases h
  · obtain ⟨-, hapy, hprincipal, hstart, hterm⟩ := h
    refine ⟨by rw [NFTPosition.rate, hapy, hprincipal, Nat.mul_one], hterm, ?_⟩
    show pos.apyWad * pos.principal * (pos.maturityTime - pos.yieldStartTime) / yearWad = _
    rw [hapy, hprincipal, hterm, hstart]
    rfl

/-- Due positions of one yield. -/
theorem Book.DueList.sum_yields {b : Book} {now y : Nat} {order : List Nat} (h : b.DueList now order)
    (hyield : ∀ pos ∈ b.positions, pos.Due now → pos.locked.pendingYield = y) (m : Nat) :
    ((order.take m).map b.lockedYield).sum = min m order.length * y := by
  have hconst : (order.take m).map b.lockedYield = (order.take m).map fun _ => y := by
    refine List.map_congr_left fun i hi => ?_
    obtain ⟨pos, hpos, hdue⟩ := (h.mem i).1 (List.mem_of_mem_take hi)
    rw [Book.lockedYield, hpos]
    exact hyield pos (List.mem_of_getElem? hpos) hdue
  rw [hconst, List.map_const', List.sum_replicate, List.length_take, smul_eq_mul]

/-- The rates that locking due positions of one rate leaves. -/
theorem Book.DueList.sum_rates {b : Book} {now rate : Nat} {order : List Nat} (h : b.DueList now order)
    (hrate : ∀ pos ∈ b.positions, pos.Due now → pos.rate = rate) (m : Nat) :
    ((lockAt b.positions (order.take m)).map NFTPosition.liveRate).sum + min m order.length * rate =
      (b.positions.map NFTPosition.liveRate).sum := by
  have hsum := h.sum_lockAt NFTPosition.liveRate m
  have hold : (order.take m).map (weightAt NFTPosition.liveRate b.positions) = (order.take m).map fun _ => rate := by
    refine List.map_congr_left fun i hi => ?_
    obtain ⟨pos, hpos, hdue⟩ := (h.mem i).1 (List.mem_of_mem_take hi)
    rw [weightAt, hpos]
    show pos.liveRate = rate
    rw [NFTPosition.liveRate, if_neg (by rw [hdue.1]; decide)]
    exact hrate pos (List.mem_of_getElem? hpos) hdue
  have hnew : ((order.take m).map (weightAt (fun pos => pos.locked.liveRate) b.positions)).sum = 0 := by
    refine List.sum_eq_zero fun x hx => ?_
    obtain ⟨i, -, rfl⟩ := List.mem_map.1 hx
    unfold weightAt
    cases b.positions[i]? <;> rfl
  rw [hold, hnew, List.map_const', List.sum_replicate, List.length_take, smul_eq_mul, Nat.add_zero] at hsum
  exact hsum

/-- The end of the term of as many wei as a year has wads, and of one more. -/
structure Overdue (s : State) : Prop where
  now : s.now = 2 ^ 86 - 1
  rate : s.yieldRateSum = (yearWad + 1) * 2 ^ 170
  pending : s.totalPendingYield = 0
  count : (s.toBook.dueList s.now).length = yearWad + 1
  dust : ∀ pos ∈ s.positions, pos.Due s.now →
    pos.rate = 2 ^ 170 ∧ pos.maturityTime = 2 ^ 86 - 1 ∧ pos.locked.pendingYield = dustYield

theorem overdue_reach : ∃ s, Reachable demo s ∧ Overdue s := by
  obtain ⟨s, hs, hdusted⟩ := sprinkled_reach (yearWad + 1) (by decide)
  have ht : Reachable demo { s with now := 2 ^ 86 - 1 } :=
    .step (.tick (2 ^ 86 - 1)) hs ⟨show s.now ≤ _ by rw [hdusted.now]; exact Nat.zero_le _, [], rfl⟩
  have hlist : s.toBook.DueList (2 ^ 86 - 1) (s.toBook.dueList (2 ^ 86 - 1)) := ht.inv.yield.dueList
  refine ⟨_, ht, rfl, hdusted.rate, hdusted.pending, dust_due hlist hdusted.positions hdusted.count, ?_⟩
  intro pos hp hdue
  obtain ⟨i, hi⟩ := List.mem_iff_getElem?.1 hp
  exact (hdusted.positions i pos hi).of_due hdue

/-- All but one of the yields can be locked. -/
theorem Overdue.syncs {s : State} (h : Overdue s) (hs : Reachable demo s) :
    ∃ t k, Reachable demo t ∧ syncMaturities s yearWad = .ok (t, k) := by
  have hrates : s.toBook.RatesFit s.now := by
    intro pos hp hdue
    obtain ⟨hrate, hterm, -⟩ := h.dust pos hp hdue
    rw [hrate, hterm]
    decide
  obtain ⟨⟨t, k⟩, hsync⟩ := (syncMaturities_succeeds_iff (n := yearWad) hs.inv.yield hrates).2 (by
    rw [hs.inv.yield.dueList.sum_yields fun pos hp hdue => (h.dust pos hp hdue).2.2, h.count, h.pending]
    decide)
  refine ⟨t, k, .step (.call alice demoQuiet (.syncMaturities yearWad)) hs ⟨show alice ≠ demo.self by decide, [], ?_⟩,
    hsync⟩
  show (syncMaturities s yearWad >>= _) = _
  rw [hsync]
  rfl

/-- Then the rate of one position is left. -/
theorem Overdue.rate_left {s t : State} {k : Nat} (h : Overdue s) (hs : Reachable demo s) (ht : Reachable demo t)
    (hsync : syncMaturities s yearWad = .ok (t, k)) : t.yieldRateSum = 2 ^ 170 := by
  obtain ⟨-, htpos, -, -⟩ := syncMaturities_locks hs.inv.yield hsync
  have hsum := hs.inv.yield.dueList.sum_rates (fun pos hp hdue => (h.dust pos hp hdue).1) yearWad
  rw [← htpos, ← ht.inv.yield.rateSum, ← hs.inv.yield.rateSum, h.count, h.rate, min_eq_left (Nat.le_succ _), Nat.add_mul,
    Nat.one_mul, Nat.add_comm] at hsum
  exact Nat.add_left_cancel hsum

/-- As many wei as a year has wads, and one more: once all but one of the yields are locked, the last
sync reverts, although the time times the rate aggregate fits. -/
theorem sync_overflows : ¬ ∀ (d : Deployment) (s : State) (n : Nat), Reachable d s →
    s.now * s.yieldRateSum < uintSize → ∃ r, syncMaturities s n = .ok r := by
  intro hall
  obtain ⟨s, hs, h⟩ := overdue_reach
  obtain ⟨t, k, ht, hsync⟩ := h.syncs hs
  obtain ⟨-, htpos, htpending, htrest⟩ := syncMaturities_locks hs.inv.yield hsync
  have hlist := hs.inv.yield.dueList
  have hsame : t.now = s.now := by rw [htrest]
  have hfit : t.now * t.yieldRateSum < uintSize := by
    rw [hsame, h.now, h.rate_left hs ht hsync]
    decide
  have htlist := ht.inv.yield.dueList
  rw [hsame] at htlist
  -- the last one is still due, and its yield does not fit
  have hnone : t.toBook.dueList s.now ≠ [] := by
    intro hnil
    obtain ⟨j, hj⟩ : ∃ j, j ∈ (s.toBook.dueList s.now).drop yearWad := by
      apply List.exists_mem_of_length_pos
      rw [List.length_drop, h.count]
      omega
    have hmem := hlist.left htlist htpos hj
    rw [hnil] at hmem
    exact List.not_mem_nil hmem
  have hyields := hlist.sum_yields (fun pos hp hdue => (h.dust pos hp hdue).2.2) yearWad
  have htyields := htlist.sum_yields (fun pos hp hdue => (h.dust pos (due_lockAt (htpos ▸ hp) hdue) hdue).2.2) 1
  have hover := (syncMaturities_succeeds_iff (n := 1) ht.inv.yield (ht.ratesFit hfit)).1 (hall demo t 1 ht hfit)
  rw [hsame, htyields, min_eq_left (List.length_pos_iff.2 hnone), htpending, hyields, h.count, h.pending,
    min_eq_left (Nat.le_succ _)] at hover
  exact absurd hover (by decide)

end MoneyMarket
