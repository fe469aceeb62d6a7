/-
The wait estimate of a redemption request. Its walk counts every open position at its principal and
the yield of its whole term, in the order of the book, and answers with the readiness of the position
that brings the count to what is needed. The positions counted before that one may be ready later,
and a yield already received is counted again. The estimate is sound exactly where the count has
enough to spare for both (`wait_covered_iff`), as where the positions become ready in their order and
none has had its yield (`Orderly.covered`).
-/
import MoneyMarket.Queue.Idle
import MoneyMarket.Vault.Maturity
import MoneyMarket.Vault.Replay
import MoneyMarket.Vault.Views

namespace MoneyMarket

open Evm Transition

/-! ## What the positions pay -/

namespace NFTPosition

/-- What the estimate counts for a position. -/
def counted (pos : NFTPosition) : Nat :=
  if pos.state = .redeemed then 0 else pos.principal + pos.locked.pendingYield

/-- The yield not received yet: what is pending of it, or for a position not capped the yield of its term. -/
def unreceived (pos : NFTPosition) : Nat := if pos.yieldCapped then pos.pendingYield else pos.locked.pendingYield

/-- The yield received before the principal. -/
def received (pos : NFTPosition) : Nat :=
  if pos.state = .yieldClaimed ∨ pos.state = .principalWithdrawalRequested then pos.locked.pendingYield else 0

/-- The principal of a position at `i` can have been withdrawn by `time`. -/
def readyBy (delay : Address → Option Nat) (b : Book) (time i : Nat) (pos : NFTPosition) : Bool :=
  (delay (b.positionPool i)).any fun wait => decide (pos.maturityTime + wait ≤ time)

theorem readyBy_mono {delay : Address → Option Nat} {b : Book} {time later i : Nat} {pos : NFTPosition}
    (hle : time ≤ later) (h : pos.readyBy delay b time i = true) : pos.readyBy delay b later i = true := by
  unfold readyBy at *
  cases hwait : delay (b.positionPool i) with
  | none => rw [hwait] at h; cases h
  | some wait =>
    rw [hwait] at h
    exact decide_eq_true (le_trans (of_decide_eq_true h) hle)

/-- The yield of the term is received or it is not. -/
theorem unreceived_add_received {now : Nat} {pos : NFTPosition} (hc : pos.Consistent now) (hf : pos.Fixed)
    (hopen : pos.state ≠ .redeemed) : pos.unreceived + pos.received = pos.locked.pendingYield := by
  unfold unreceived received
  cases hcapped : pos.yieldCapped with
  | false =>
    have hactive : pos.state = .active := by
      by_contra hne
      exact absurd (hc.left hne).1 (by rw [hcapped]; decide)
    simp [hactive]
  | true =>
    cases hstate : pos.state with
    | active => simp [hf hcapped (.inl hstate)]
    | yieldWithdrawalRequested => simp [hf hcapped (.inr hstate)]
    | yieldClaimed =>
      have hzero := hc.claimed (by rw [hstate]; decide) (by rw [hstate]; decide)
      simp [hzero]
    | principalWithdrawalRequested =>
      have hzero := hc.claimed (by rw [hstate]; decide) (by rw [hstate]; decide)
      simp [hzero]
    | redeemed => exact absurd hstate hopen

end NFTPosition

namespace Book

variable (delay : Address → Option Nat) (b : Book) (time i : Nat)

/-- What the estimate counts at `i`. -/
def counted : Nat := weightAt NFTPosition.counted b.positions i

/-- What position `i` can have paid by `time`. -/
def arrived : Nat := (b.positions[i]?).elim 0 fun pos =>
  if pos.state ≠ .redeemed ∧ pos.readyBy delay b time i then pos.principal + pos.unreceived else 0

/-- What is counted of position `i` but does not arrive by `time`: all of it while it is not ready,
and the yield it has paid before. -/
def missing : Nat := (b.positions[i]?).elim 0 fun pos =>
  if pos.state = .redeemed then 0 else if pos.readyBy delay b time i then pos.received else pos.counted

variable {delay b time i}

theorem missing_add_arrived {now : Nat} (hl : Lifecycle now b) (hf : ∀ pos ∈ b.positions, pos.Fixed) :
    b.missing delay time i + b.arrived delay time i = b.counted i := by
  unfold missing arrived counted weightAt
  cases hpos : b.positions[i]? with
  | none => rfl
  | some pos =>
    have hmem := List.mem_of_getElem? hpos
    by_cases hred : pos.state = .redeemed
    · simp [hred, NFTPosition.counted]
    · have hyield := NFTPosition.unreceived_add_received (hl.positions pos hmem) (hf pos hmem) hred
      cases hready : pos.readyBy delay b time i with
      | false => simp [hred, hready]
      | true =>
        simp only [Option.elim_some, hred, hready, NFTPosition.counted, not_false_eq_true, ne_eq, and_self, ↓reduceIte]
        omega

/-- Nothing is missing of a position that is ready and has not had its yield. -/
theorem missing_of_ready (h : ∀ pos, b.positions[i]? = some pos → pos.state ≠ .redeemed →
    pos.readyBy delay b time i = true ∧ pos.state ≠ .yieldClaimed ∧ pos.state ≠ .principalWithdrawalRequested) :
    b.missing delay time i = 0 := by
  unfold missing
  cases hpos : b.positions[i]? with
  | none => rfl
  | some pos =>
    by_cases hred : pos.state = .redeemed
    · simp [hred]
    · obtain ⟨hready, hclaimed, hrequested⟩ := h pos hpos hred
      simp [hred, hready, NFTPosition.received, hclaimed, hrequested]

/-- Behind the head nothing arrives. -/
theorem arrived_of_swept {now : Nat} (hl : Lifecycle now b) (hi : i < b.positionHead) : b.arrived delay time i = 0 := by
  obtain ⟨pos, hpos, hred⟩ := hl.swept i hi
  simp [arrived, hpos, hred]

end Book

/-! ## The walks of the estimate -/

section Walks

variable {delay : Address → Option Nat} {b : Book}

/-- The first walk sums the costs of the requests. -/
theorem hollarNeeded_ok {queue : Nat → Request} {rate start : Nat}
    (hblank : ∀ i, (queue i).user = 0 → queue i = Request.empty) :
    ∀ {n needed : Nat}, hollarNeeded queue rate (List.range' start n) = .ok needed →
      needed = ∑ i ∈ Finset.Ico start (start + n), (queue i).cost rate
  | 0, needed, h => by
    cases h
    simp
  | n + 1, needed, h => by
    rw [hollarNeeded, List.range'_concat, List.foldlM_append, bind_ok_iff] at h
    obtain ⟨total, htotal, h⟩ := h
    have ih := hollarNeeded_ok hblank htotal
    rw [Nat.one_mul, List.foldlM_cons, bind_ok_iff] at h
    obtain ⟨_, hlast, h⟩ := h
    cases h
    rw [← Nat.add_assoc, Finset.sum_Ico_succ_top (Nat.le_add_right _ _), ← ih]
    split_ifs at hlast with huser
    · cases hlast
      rw [hblank _ huser]
      simp [Request.cost, Request.empty]
    · simp only [bind_ok_iff, checkedSub_ok_iff, checkedMul_ok_iff, checkedDiv_ok_iff, checkedAdd_ok_iff] at hlast
      obtain ⟨_, ⟨-, rfl⟩, _, ⟨-, rfl⟩, _, ⟨-, rfl⟩, -, rfl⟩ := hlast
      rfl

/-- The second walk answers with the readiness of the position that brings the count to `needed`. -/
theorem readyIn_ok {needed now : Nat} : ∀ {n start accumulated w : Nat}, accumulated < needed →
    readyIn delay b needed now (List.range' start n) accumulated = .ok w → w ≠ uintSize - 1 →
    ∃ k pos wait, Sums.Crosses b.counted start (needed - accumulated) k ∧ b.positions[k]? = some pos ∧
      delay (b.positionPool k) = some wait ∧ w = pos.maturityTime + wait - now
  | 0, start, accumulated, w, _, h, hfinite => by
    cases h
    exact absurd rfl hfinite
  | n + 1, start, accumulated, w, hlt, h, hfinite => by
    rw [List.range'_succ, readyIn, bind_ok_iff] at h
    obtain ⟨pos, hpos, h⟩ := h
    rw [readAt_ok_iff] at hpos
    split_ifs at h with hred
    · -- a redeemed position counts nothing
      have hzero : b.counted start = 0 := by simp [Book.counted, weightAt, hpos, NFTPosition.counted, hred]
      obtain ⟨k, p, wait, hk, hp⟩ := readyIn_ok hlt h hfinite
      refine ⟨k, p, wait, .next (by omega) ?_, hp⟩
      rw [hzero, Nat.sub_zero]
      exact hk
    · simp only [bind_ok_iff, checkedMul_ok_iff, checkedSub_ok_iff, checkedDiv_ok_iff, checkedAdd_ok_iff] at h
      obtain ⟨_, ⟨-, rfl⟩, _, ⟨-, rfl⟩, _, ⟨-, rfl⟩, _, ⟨-, rfl⟩, _, ⟨-, rfl⟩, _, ⟨-, rfl⟩, h⟩ := h
      have hcount : b.counted start =
          pos.principal + pos.principal * pos.apyWad * (pos.maturityTime - pos.yieldStartTime) /
            (secondsPerYear * wad) := by
        simp [Book.counted, weightAt, hpos, NFTPosition.counted, hred, NFTPosition.locked, NFTPosition.cap,
          Nat.mul_comm pos.apyWad]
      rw [← hcount] at h
      split_ifs at h with henough
      · simp only [bind_ok_iff, returned_ok_iff, checkedAdd_ok_iff, pure_ok_iff] at h
        obtain ⟨wait, hwait, _, ⟨-, rfl⟩, rfl⟩ := h
        refine ⟨start, pos, wait, .first (by omega) (by omega), hpos, hwait, ?_⟩
        split_ifs <;> omega
      · obtain ⟨k, p, wait, hk, hp⟩ := readyIn_ok (not_le.1 henough) h hfinite
        refine ⟨k, p, wait, .next (by omega) ?_, hp⟩
        rw [Nat.sub_sub]
        exact hk

end Walks

/-! ## The estimate -/

section Estimate

variable {d : Deployment} {s : State} {delay : Address → Option Nat} {rate id w : Nat}

/-- What request `id` and the requests ahead of it still cost. -/
def State.costUpTo (s : State) (rate id : Nat) : Nat :=
  ∑ i ∈ Finset.Icc s.queueHead id, (s.redemptionQueue i).cost rate

/-- The HOLLAR that can have arrived `w` from now covers request `id` and the requests ahead of it. -/
def Covered (delay : Address → Option Nat) (s : State) (rate id w : Nat) : Prop :=
  s.costUpTo rate id ≤ s.idleHollar + ∑ i ∈ Finset.range s.positions.length, s.arrived delay (s.now + w) i

instance (delay : Address → Option Nat) (s : State) (rate id w : Nat) : Decidable (Covered delay s rate id w) :=
  inferInstanceAs (Decidable (_ ≤ _))

/-- What is missing by `time` of the positions up to `k` is made up for by what their count has to spare
over `need` and by the positions after `k`. -/
def MadeUpBy (delay : Address → Option Nat) (s : State) (need k time : Nat) : Prop :=
  ∑ i ∈ Finset.Ico s.positionHead (k + 1), s.missing delay time i ≤
    (∑ i ∈ Finset.Ico s.positionHead (k + 1), s.counted i - need) +
      ∑ i ∈ Finset.Ico (k + 1) s.positions.length, s.arrived delay time i

/-- It is, by the time that the position is ready which brings the count to `need`. -/
def MadeUp (delay : Address → Option Nat) (s : State) (need : Nat) : Prop :=
  ∀ k pos wait, Sums.Crosses s.counted s.positionHead need k → s.positions[k]? = some pos →
    delay (s.positionPool k) = some wait → MadeUpBy delay s need k (max s.now (pos.maturityTime + wait))

/-- The open positions become ready in the order of the book, and none of them has had its yield. -/
structure Orderly (delay : Address → Option Nat) (b : Book) : Prop where
  unclaimed : ∀ pos ∈ b.positions, pos.state ≠ .yieldClaimed ∧ pos.state ≠ .principalWithdrawalRequested
  ordered : ∀ i j p q wait, i < j → b.positions[i]? = some p → p.state ≠ .redeemed → b.positions[j]? = some q →
    q.state ≠ .redeemed → delay (b.positionPool j) = some wait → p.readyBy delay b (q.maturityTime + wait) i = true

/-- A finite estimate finds the queue covered by what is idle, or is the readiness of the position that
brings the count to what is needed. -/
theorem getEstimatedWaitTime_ok (h : Reachable d s) (hw : (s.redemptionQueue id).Waits)
    (hrate : exchangeRate s = .ok rate) (hview : getEstimatedWaitTime delay s id = .ok w) (hfinite : w ≠ uintSize - 1) :
    s.costUpTo rate id ≤ s.idleHollar ∨
      ∃ k pos wait, Sums.Crosses s.counted s.positionHead (s.costUpTo rate id - s.idleHollar) k ∧
        s.positions[k]? = some pos ∧ delay (s.positionPool k) = some wait ∧
        s.now + w = max s.now (pos.maturityTime + wait) := by
  rw [getEstimatedWaitTime, bind_ok_iff] at hview
  obtain ⟨rate', hrate', hview⟩ := hview
  cases hrate.symm.trans hrate'
  rw [if_neg hw.1, bind_ok_iff] at hview
  obtain ⟨needed, hneeded, hview⟩ := hview
  have hsum := hollarNeeded_ok (fun i hi => h.inv.ledger.blank i (.inl hi)) hneeded
  have hcost : needed = s.costUpTo rate id := by
    rw [hsum, State.costUpTo]
    congr 1
    ext i
    rw [Finset.mem_Ico, Finset.mem_Icc]
    omega
  rw [hcost] at hview
  split_ifs at hview with hidle
  · exact .inl hidle
  · right
    simp only [bind_ok_iff, checkedSub_ok_iff] at hview
    obtain ⟨_, ⟨-, rfl⟩, hview⟩ := hview
    obtain ⟨k, pos, wait, hk, hpos, hwait, rfl⟩ := readyIn_ok (by omega) hview hfinite
    exact ⟨k, pos, wait, hk, hpos, hwait, by omega⟩

/-- All that arrives is what is counted up to `k` without what is missing of it, and what the later
positions pay. -/
theorem arrived_add_missing (h : Reachable d s) (delay : Address → Option Nat) (time : Nat) {k : Nat}
    (hhead : s.positionHead ≤ k) (hk : k < s.positions.length) :
    ∑ i ∈ Finset.range s.positions.length, s.arrived delay time i +
        ∑ i ∈ Finset.Ico s.positionHead (k + 1), s.missing delay time i =
      ∑ i ∈ Finset.Ico s.positionHead (k + 1), s.counted i +
        ∑ i ∈ Finset.Ico (k + 1) s.positions.length, s.arrived delay time i := by
  have hswept : ∑ i ∈ Finset.range s.positionHead, s.arrived delay time i = 0 := by
    apply Finset.sum_eq_zero
    intro i hi
    exact Book.arrived_of_swept h.inv.lifecycle (Finset.mem_range.1 hi)
  have hcounted : ∑ i ∈ Finset.Ico s.positionHead (k + 1), s.missing delay time i +
      ∑ i ∈ Finset.Ico s.positionHead (k + 1), s.arrived delay time i =
        ∑ i ∈ Finset.Ico s.positionHead (k + 1), s.counted i := by
    rw [← Finset.sum_add_distrib]
    apply Finset.sum_congr rfl
    intro i _
    exact Book.missing_add_arrived h.inv.lifecycle h.fixed
  have hsplit : ∑ i ∈ Finset.range s.positions.length, s.arrived delay time i =
      ∑ i ∈ Finset.range s.positionHead, s.arrived delay time i +
        (∑ i ∈ Finset.Ico s.positionHead (k + 1), s.arrived delay time i +
          ∑ i ∈ Finset.Ico (k + 1) s.positions.length, s.arrived delay time i) := by
    rw [Finset.sum_Ico_consecutive _ (by omega) (by omega), Finset.sum_range_add_sum_Ico _ (by omega)]
  omega

theorem covered_iff_madeUpBy (h : Reachable d s) {k : Nat}
    (hk : Sums.Crosses s.counted s.positionHead (s.costUpTo rate id - s.idleHollar) k) (hlt : k < s.positions.length) :
    Covered delay s rate id w ↔ MadeUpBy delay s (s.costUpTo rate id - s.idleHollar) k (s.now + w) := by
  have hsum := arrived_add_missing h delay (s.now + w) hk.start_le hlt
  have hreached := hk.reached
  have hneed := hk.before
  unfold Covered MadeUpBy
  omega

/-- With the open positions in order nothing counted is missing. -/
theorem Orderly.madeUp (h : Orderly delay s.toBook) (need : Nat) : MadeUp delay s need := by
  intro k pos wait hk hpos hwait
  have hopen : pos.state ≠ .redeemed := by
    intro hred
    have := hk.entry_pos
    simp [Book.counted, weightAt, hpos, NFTPosition.counted, hred] at this
  have hnone : ∑ i ∈ Finset.Ico s.positionHead (k + 1),
      s.missing delay (max s.now (pos.maturityTime + wait)) i = 0 := by
    apply Finset.sum_eq_zero
    intro i hi
    apply Book.missing_of_ready
    intro p hp hred
    refine ⟨?_, h.unclaimed p (List.mem_of_getElem? hp)⟩
    apply NFTPosition.readyBy_mono (le_max_right s.now (pos.maturityTime + wait))
    rcases (Nat.lt_succ_iff.1 (Finset.mem_Ico.1 hi).2).lt_or_eq with hlt | rfl
    · exact h.ordered i k p pos wait hlt hp hred hpos hopen hwait
    · cases hp.symm.trans hpos
      simp [NFTPosition.readyBy, hwait]
  unfold MadeUpBy
  omega

/-- A finite estimate covers what is made up for. -/
theorem MadeUp.covered (h : Reachable d s) (hw : (s.redemptionQueue id).Waits) (hrate : exchangeRate s = .ok rate)
    (hview : getEstimatedWaitTime delay s id = .ok w) (hfinite : w ≠ uintSize - 1)
    (hmade : MadeUp delay s (s.costUpTo rate id - s.idleHollar)) : Covered delay s rate id w := by
  rcases getEstimatedWaitTime_ok h hw hrate hview hfinite with hidle | ⟨k, pos, wait, hk, hpos, hwait, htime⟩
  · exact le_trans hidle (Nat.le_add_right _ _)
  · rw [covered_iff_madeUpBy h hk (List.getElem?_eq_some_iff.1 hpos).1, htime]
    exact hmade k pos wait hk hpos hwait

/-- What a finite estimate covers is made up for. -/
theorem Covered.madeUp (h : Reachable d s) (hw : (s.redemptionQueue id).Waits) (hrate : exchangeRate s = .ok rate)
    (hview : getEstimatedWaitTime delay s id = .ok w) (hfinite : w ≠ uintSize - 1)
    (hcovered : Covered delay s rate id w) :
    MadeUp delay s (s.costUpTo rate id - s.idleHollar) := by
  intro k pos wait hk hpos hwait
  rcases getEstimatedWaitTime_ok h hw hrate hview hfinite with hidle | ⟨k', pos', wait', hk', hpos', hwait', htime⟩
  · -- nothing is needed, and no position brings the count to that
    have := hk.before
    omega
  · obtain rfl := hk.unique hk'
    cases hpos.symm.trans hpos'
    cases hwait.symm.trans hwait'
    rw [covered_iff_madeUpBy h hk (List.getElem?_eq_some_iff.1 hpos).1, htime] at hcovered
    exact hcovered

/-- While the open positions become ready in the order of the book, and none of them has had its yield, every
finite estimate is sound. -/
theorem Orderly.covered (horderly : Orderly delay s.toBook) (h : Reachable d s) (hw : (s.redemptionQueue id).Waits)
    (hrate : exchangeRate s = .ok rate) (hview : getEstimatedWaitTime delay s id = .ok w) (hfinite : w ≠ uintSize - 1) :
    Covered delay s rate id w :=
  (horderly.madeUp _).covered h hw hrate hview hfinite

/-- In every reachable state a finite estimate is sound, if and only if what is missing of the positions
it counts is made up for. -/
theorem wait_covered_iff (h : Reachable d s) (hw : (s.redemptionQueue id).Waits) (hrate : exchangeRate s = .ok rate)
    (hview : getEstimatedWaitTime delay s id = .ok w) (hfinite : w ≠ uintSize - 1) :
    Covered delay s rate id w ↔ MadeUp delay s (s.costUpTo rate id - s.idleHollar) :=
  ⟨fun hcovered => hcovered.madeUp h hw hrate hview hfinite, fun hmade => hmade.covered h hw hrate hview hfinite⟩

end Estimate

/-! ## Two books out of order -/

/-- Every pool takes two days for a withdrawal. -/
def demoDelay (_ : Address) : Option Nat := some 172800

/-- 50, 40 and 60 HOLLAR in pools of ever shorter terms, and requests of 20 and 40 shares. -/
def spareRun : List Action :=
  demoFunding ++
    [.call alice (demoReplies (10 ^ 17) 100000 (some (5 * 10 ^ 19)) none none) (.deposit (5 * 10 ^ 19) alice),
     .call 0xad demoQuiet (.registerPool 0x2),
     .call 0xad demoQuiet (.setActiveDepositPool 0x2),
     .call alice (demoReplies (10 ^ 17) 1000 (some (4 * 10 ^ 19)) none none) (.deposit (4 * 10 ^ 19) alice),
     .call 0xad demoQuiet (.registerPool 0x3),
     .call 0xad demoQuiet (.setActiveDepositPool 0x3),
     .call alice (demoReplies (10 ^ 17) 500 (some (6 * 10 ^ 19)) none none) (.deposit (6 * 10 ^ 19) alice),
     .call alice demoQuiet (.requestRedeem (2 * 10 ^ 19) alice alice),
     .call alice demoQuiet (.requestRedeem (4 * 10 ^ 19) alice alice)]

/-- The second request is told the readiness of the second position, when the first is not ready: the 60 HOLLAR
of the third make up for its 50. -/
theorem wait_covered_iff_demo : ∃ s : State, s.positions.length = 3 ∧ (s.redemptionQueue 0).Waits ∧
    (s.redemptionQueue 1).Waits ∧ getEstimatedWaitTime demoDelay s 1 = .ok 173800 ∧
    s.missing demoDelay (s.now + 173800) 0 ≠ 0 ∧ Covered demoDelay s wad 1 173800 ∧
    MadeUp demoDelay s (s.costUpTo wad 1 - s.idleHollar) := by
  obtain ⟨s, hs, ht⟩ := observe_reach demo DeadSilent demoQuiet demoSetup spareRun
    (fun s => passes (exchangeRate s) (fun rate => decide (rate = wad)) &&
      passes (getEstimatedWaitTime demoDelay s 1) (fun w => decide (w = 173800)) &&
      decide (s.positions.length = 3 ∧ (s.redemptionQueue 0).Waits ∧ (s.redemptionQueue 1).Waits ∧
        s.missing demoDelay (s.now + 173800) 0 ≠ 0 ∧ Covered demoDelay s wad 1 173800)) (by decide +kernel)
  simp only [Bool.and_eq_true, decide_eq_true_iff] at ht
  obtain ⟨⟨hrate, hview⟩, hcount, hfirst, hsecond, hmissing, hcovered⟩ := ht
  obtain ⟨_, hrate, heq⟩ := passes_ok hrate
  obtain rfl := of_decide_eq_true heq
  obtain ⟨_, hview, heq⟩ := passes_ok hview
  obtain rfl := of_decide_eq_true heq
  exact ⟨s, hcount, hfirst, hsecond, hview, hmissing, hcovered,
    (wait_covered_iff hs.of_restrict hsecond hrate hview (by decide)).1 hcovered⟩

/-- 50 HOLLAR in a pool with a long term, and then 50 in a pool with a short one. -/
def disorderlyRun : List Action :=
  demoFunding ++
    [.call alice (demoReplies (10 ^ 17) 100000 (some (5 * 10 ^ 19)) none none) (.deposit (5 * 10 ^ 19) alice),
     .call 0xad demoQuiet (.registerPool 0x2),
     .call 0xad demoQuiet (.setActiveDepositPool 0x2),
     .call alice (demoReplies (10 ^ 17) 1000 (some (5 * 10 ^ 19)) none none) (.deposit (5 * 10 ^ 19) alice),
     .call alice demoQuiet (.requestRedeem (8 * 10 ^ 19) alice alice)]

/-- A request of 80 shares is told the readiness of the second position, when the first is not ready. -/
theorem wait_understated : ¬ ∀ (d : Deployment) (delay : Address → Option Nat) (s : State) (rate id w : Nat),
    Reachable d s → (s.redemptionQueue id).Waits → exchangeRate s = .ok rate →
    getEstimatedWaitTime delay s id = .ok w → w ≠ uintSize - 1 → Covered delay s rate id w := by
  intro hall
  obtain ⟨s, hs, ht⟩ := observe_reach demo DeadSilent demoQuiet demoSetup disorderlyRun
    (fun s => decide ((s.redemptionQueue 0).Waits) && passes (exchangeRate s) (fun rate => decide (rate = wad)) &&
      passes (getEstimatedWaitTime demoDelay s 0) (fun w => decide (w = 173800)) &&
      decide (¬ Covered demoDelay s wad 0 173800)) (by decide +kernel)
  simp only [Bool.and_eq_true, decide_eq_true_iff] at ht
  obtain ⟨⟨⟨hwaits, hrate⟩, hview⟩, hshort⟩ := ht
  obtain ⟨_, hrate, heq⟩ := passes_ok hrate
  obtain rfl := of_decide_eq_true heq
  obtain ⟨_, hview, heq⟩ := passes_ok hview
  obtain rfl := of_decide_eq_true heq
  exact hshort (hall demo demoDelay s wad 0 173800 hs.of_restrict hwaits hrate hview (by decide))

end MoneyMarket
