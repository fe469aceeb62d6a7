/-
The ledger of the redemption queue: the three totals are the sums over the requests, an empty
slot is all zeros, and a live request is well formed. Every change of the queue keeps it.
-/
import MoneyMarket.Queue.Moves

namespace MoneyMarket

open Evm Relation

/-- A live request: something is queued, no more is settled, and nothing is owed for nothing. -/
structure Request.WellFormed (request : Request) : Prop where
  pos : 0 < request.bilAmount
  settled_le : request.bilSettled ≤ request.bilAmount
  unowed : request.bilSettled = 0 → request.hollarOwed = 0

structure QueueLedger (q : Redemptions) : Prop where
  queued : q.totalQueuedBil = ∑ i ∈ Finset.range q.queueTail, (q.redemptionQueue i).bilAmount
  settled : q.totalSettledBil = ∑ i ∈ Finset.range q.queueTail, (q.redemptionQueue i).bilSettled
  reserved : q.totalReservedHollar = ∑ i ∈ Finset.range q.queueTail, (q.redemptionQueue i).hollarOwed
  blank : ∀ i, (q.redemptionQueue i).user = 0 ∨ q.queueTail ≤ i → q.redemptionQueue i = Request.empty
  live : ∀ i, (q.redemptionQueue i).user ≠ 0 → (q.redemptionQueue i).WellFormed

namespace QueueLedger

variable {q q' : Redemptions}

/-! ## Reading the ledger -/

theorem lt_tail (h : QueueLedger q) {i : Nat} (hi : (q.redemptionQueue i).user ≠ 0) : i < q.queueTail := by
  by_contra hge
  have := h.blank i (.inr (not_lt.1 hge))
  rw [this] at hi
  exact hi rfl

theorem settled_le_amount (h : QueueLedger q) (i : Nat) :
    (q.redemptionQueue i).bilSettled ≤ (q.redemptionQueue i).bilAmount := by
  by_cases hi : (q.redemptionQueue i).user = 0
  · rw [h.blank i (.inl hi)]; exact le_refl _
  · exact (h.live i hi).settled_le

theorem user_ne_zero (h : QueueLedger q) {i : Nat} (hi : 0 < (q.redemptionQueue i).bilAmount) :
    (q.redemptionQueue i).user ≠ 0 := by
  intro h0
  rw [h.blank i (.inl h0)] at hi
  exact absurd hi (lt_irrefl 0)

theorem amount_le (h : QueueLedger q) (i : Nat) : (q.redemptionQueue i).bilAmount ≤ q.totalQueuedBil := by
  rcases lt_or_ge i q.queueTail with hi | hi
  · rw [h.queued]; exact Sums.le_sum_range (fun i => (q.redemptionQueue i).bilAmount) hi
  · rw [h.blank i (.inr hi)]; exact Nat.zero_le _

theorem settled_le (h : QueueLedger q) (i : Nat) : (q.redemptionQueue i).bilSettled ≤ q.totalSettledBil := by
  rcases lt_or_ge i q.queueTail with hi | hi
  · rw [h.settled]; exact Sums.le_sum_range (fun i => (q.redemptionQueue i).bilSettled) hi
  · rw [h.blank i (.inr hi)]; exact Nat.zero_le _

theorem owed_le (h : QueueLedger q) (i : Nat) : (q.redemptionQueue i).hollarOwed ≤ q.totalReservedHollar := by
  rcases lt_or_ge i q.queueTail with hi | hi
  · rw [h.reserved]; exact Sums.le_sum_range (fun i => (q.redemptionQueue i).hollarOwed) hi
  · rw [h.blank i (.inr hi)]; exact Nat.zero_le _

/-- No more is settled than is queued. -/
theorem totalSettled_le (h : QueueLedger q) : q.totalSettledBil ≤ q.totalQueuedBil := by
  rw [h.settled, h.queued]
  exact Finset.sum_le_sum fun i _ => h.settled_le_amount i

/-! ## One request rewritten -/

/-- Rewriting one request keeps the ledger when the totals move with it. -/
theorem rewrite (h : QueueLedger q) {i : Nat} (hi : i < q.queueTail) (request : Request)
    (hqueue : q'.redemptionQueue = Function.update q.redemptionQueue i request) (htail : q'.queueTail = q.queueTail)
    (hwf : request = Request.empty ∨ request.WellFormed ∧ request.user ≠ 0)
    (hq : q'.totalQueuedBil + (q.redemptionQueue i).bilAmount = q.totalQueuedBil + request.bilAmount)
    (hs : q'.totalSettledBil + (q.redemptionQueue i).bilSettled = q.totalSettledBil + request.bilSettled)
    (hr : q'.totalReservedHollar + (q.redemptionQueue i).hollarOwed = q.totalReservedHollar + request.hollarOwed) :
    QueueLedger q' := by
  refine ⟨?_, ?_, ?_, fun j hj => ?_, fun j hj => ?_⟩
  · have := Sums.sum_range_update Request.bilAmount q.redemptionQueue request hi
    rw [← h.queued] at this
    rw [hqueue, htail]; omega
  · have := Sums.sum_range_update Request.bilSettled q.redemptionQueue request hi
    rw [← h.settled] at this
    rw [hqueue, htail]; omega
  · have := Sums.sum_range_update Request.hollarOwed q.redemptionQueue request hi
    rw [← h.reserved] at this
    rw [hqueue, htail]; omega
  · rw [hqueue, htail] at hj
    rw [hqueue]
    by_cases hij : j = i
    · subst hij
      rw [Function.update_self] at hj ⊢
      rcases hwf with rfl | ⟨-, hu⟩
      · rfl
      -- a request of somebody in the queue is not to be blank
      · rcases hj with hj | hj
        · exact absurd hj hu
        · exact absurd hi (not_lt.2 hj)
    · rw [Function.update_of_ne hij] at hj ⊢
      exact h.blank j hj
  · rw [hqueue] at hj ⊢
    by_cases hij : j = i
    · subst hij
      rw [Function.update_self] at hj ⊢
      rcases hwf with rfl | ⟨hw, -⟩
      · exact absurd rfl hj
      · exact hw
    · rw [Function.update_of_ne hij] at hj ⊢
      exact h.live j hj

/-- What the ledger does not mention may change. -/
theorem congr (h : QueueLedger q) (hqueue : q'.redemptionQueue = q.redemptionQueue) (htail : q'.queueTail = q.queueTail)
    (hq : q'.totalQueuedBil = q.totalQueuedBil) (hs : q'.totalSettledBil = q.totalSettledBil)
    (hr : q'.totalReservedHollar = q.totalReservedHollar) : QueueLedger q' :=
  ⟨by rw [hq, hqueue, htail, h.queued], by rw [hs, hqueue, htail, h.settled], by rw [hr, hqueue, htail, h.reserved],
    fun i => by rw [hqueue, htail]; exact h.blank i, fun i => by rw [hqueue]; exact h.live i⟩

/-! ## The moves -/

theorem push (h : QueueLedger q) {user : Address} {shares : Nat} (hu : user ≠ 0) (hs : 0 < shares) :
    QueueLedger (q.push user shares) := by
  have hsum : ∀ w : Request → Nat,
      ∑ i ∈ Finset.range (q.queueTail + 1), w (Function.update q.redemptionQueue q.queueTail ⟨user, shares, 0, 0⟩ i) =
        ∑ i ∈ Finset.range q.queueTail, w (q.redemptionQueue i) + w ⟨user, shares, 0, 0⟩ := by
    intro w
    rw [Finset.sum_range_succ, Function.update_self]
    congr 1
    apply Finset.sum_congr rfl
    intro i hi
    rw [Function.update_of_ne (Finset.mem_range.1 hi).ne]
  refine ⟨?_, ?_, ?_, fun j hj => ?_, fun j hj => ?_⟩
  · show q.totalQueuedBil + shares = _
    rw [h.queued]; exact (hsum Request.bilAmount).symm
  · show q.totalSettledBil = _
    rw [h.settled]; exact (hsum Request.bilSettled).symm
  · show q.totalReservedHollar = _
    rw [h.reserved]; exact (hsum Request.hollarOwed).symm
  · simp only [Redemptions.push] at hj ⊢
    by_cases hjt : j = q.queueTail
    · subst hjt
      rw [Function.update_self] at hj
      rcases hj with hj | hj
      · exact absurd hj hu
      · omega
    · rw [Function.update_of_ne hjt] at hj ⊢
      exact h.blank j (hj.imp_right (by omega))
  · simp only [Redemptions.push] at hj ⊢
    by_cases hjt : j = q.queueTail
    · subst hjt
      rw [Function.update_self]
      exact ⟨hs, Nat.zero_le _, fun _ => rfl⟩
    · rw [Function.update_of_ne hjt] at hj ⊢
      exact h.live j hj

theorem cancel (h : QueueLedger q) {i : Nat} (hi : (q.redemptionQueue i).user ≠ 0) : QueueLedger (q.cancelled i) := by
  have hw := h.live i hi
  have hle := hw.settled_le
  have htot := h.amount_le i
  by_cases h0 : (q.redemptionQueue i).bilSettled = 0
  · have howed := hw.unowed h0
    refine h.rewrite (h.lt_tail hi) Request.empty (by simp only [Redemptions.cancelled, if_pos h0]) rfl
      (.inl rfl) ?_ ?_ ?_
    · simp only [Redemptions.cancelled, Request.empty]; omega
    · simp only [Redemptions.cancelled, Request.empty]; omega
    · simp only [Redemptions.cancelled, Request.empty]; omega
  · refine h.rewrite (h.lt_tail hi)
      { q.redemptionQueue i with bilAmount := (q.redemptionQueue i).bilSettled }
      (by simp only [Redemptions.cancelled, if_neg h0]) rfl
      (.inr ⟨⟨Nat.pos_of_ne_zero h0, le_refl _, hw.unowed⟩, hi⟩) ?_ rfl rfl
    simp only [Redemptions.cancelled]; omega

theorem fill (h : QueueLedger q) {rate : Nat} (hf : Fill rate q q') : QueueLedger q' := by
  cases hf with
  | pass _ _ => exact h.congr rfl rfl rfl rfl rfl
  | lock b hlt hu hpos hle =>
    have hw := h.live _ hu
    refine h.rewrite hlt _ rfl rfl (.inr ⟨⟨hw.pos, hle, fun h0 => ?_⟩, hu⟩) rfl ?_ ?_
    · simp only at h0; omega
    · simp only [Redemptions.lockHead]; omega
    · simp only [Redemptions.lockHead]; omega

theorem draw (h : QueueLedger q) {u : ClaimUnit} {c : Address} (hd : Draw u c q q') : QueueLedger q' := by
  cases hd with
  | evict _ _ _ => exact h.congr rfl rfl rfl rfl rfl
  | draw i b v hlast hu hbs hba hvo hall =>
    by_cases hlive : (q.redemptionQueue i).user = 0
    · -- an empty slot has nothing to draw
      have hempty := h.blank i (.inl hlive)
      rw [hempty] at hbs hvo
      obtain rfl : b = 0 := Nat.le_zero.1 hbs
      obtain rfl : v = 0 := Nat.le_zero.1 hvo
      refine h.congr ?_ rfl rfl rfl rfl
      simp only [Redemptions.drawn, hempty, Request.drawn, Request.empty, if_pos]
      exact Function.update_eq_self_iff.2 hempty.symm
    · have hw := h.live i hlive
      have hqueued := h.amount_le i
      have hsettled := h.settled_le i
      have hreserved := h.owed_le i
      have hle := hw.settled_le
      by_cases hempty : (q.redemptionQueue i).bilAmount = b
      · have hb : b = (q.redemptionQueue i).bilSettled := by omega
        have hv := hall (by have := hw.pos; omega) hb
        refine h.rewrite (h.lt_tail hlive) Request.empty
          (by simp only [Redemptions.drawn, Request.drawn, if_pos hempty]) rfl (.inl rfl) ?_ ?_ ?_
        · simp only [Redemptions.drawn, Request.empty]; omega
        · simp only [Redemptions.drawn, Request.empty]; omega
        · simp only [Redemptions.drawn, Request.empty]; omega
      · refine h.rewrite (h.lt_tail hlive) ((q.redemptionQueue i).drawn b v) rfl rfl
          (.inr ?_) ?_ ?_ ?_
        · simp only [Request.drawn, if_neg hempty]
          refine ⟨⟨?_, ?_, fun h0 => ?_⟩, hlive⟩
          · show 0 < (q.redemptionQueue i).bilAmount - b; omega
          · show (q.redemptionQueue i).bilSettled - b ≤ (q.redemptionQueue i).bilAmount - b; omega
          · show (q.redemptionQueue i).hollarOwed - v = 0
            have h0 : (q.redemptionQueue i).bilSettled - b = 0 := h0
            by_cases hs : (q.redemptionQueue i).bilSettled = 0
            · have := hw.unowed hs; omega
            · have := hall (Nat.pos_of_ne_zero hs) (by omega); omega
        · simp only [Redemptions.drawn, Request.drawn, if_neg hempty]; omega
        · simp only [Redemptions.drawn, Request.drawn, if_neg hempty]; omega
        · simp only [Redemptions.drawn, Request.drawn, if_neg hempty]; omega

/-- Every change of the queue keeps its ledger. -/
theorem move (h : QueueLedger q) (hm : QueueMove q q') : QueueLedger q' := by
  cases hm with
  | push user shares hu hs => exact h.push hu hs
  | cancel i _ hu _ => exact h.cancel hu
  | fill hf => exact h.fill hf
  | draw hd => exact h.draw hd

end QueueLedger

end MoneyMarket
