/-
Settlement over whole runs: requests are settled strictly first in, first out, through cancels and
claims.
-/
import MoneyMarket.Vault.Invariant
import MoneyMarket.Vault.Replay

namespace MoneyMarket

open Evm Relation Transition

/-! ## First in, first out -/

/-- A sequence of moves settles only up to where it leaves the head. -/
theorem moves_advances {q q' : Redemptions} (h : ReflTransGen QueueMove q q') : Advances q q' := by
  induction h with
  | refl => exact .refl q
  | tail _ hm ih => exact ih.trans hm.advances

/-- In every reachable state nothing is left to settle below the head, at most one request is
partly settled and nothing behind a pending request is; and whatever a step settles, every live
request before it is fully settled afterwards. -/
theorem fifo_settlement {d : Deployment} {s : State} (h : Reachable d s) :
    (∀ i < s.queueHead, (s.redemptionQueue i).user ≠ 0 →
      (s.redemptionQueue i).bilSettled = (s.redemptionQueue i).bilAmount) ∧
    s.queueHead ≤ s.queueTail ∧
    (∀ i j, 0 < (s.redemptionQueue i).bilSettled → (s.redemptionQueue i).bilSettled < (s.redemptionQueue i).bilAmount →
      0 < (s.redemptionQueue j).bilSettled →
      (s.redemptionQueue j).bilSettled < (s.redemptionQueue j).bilAmount → i = j) ∧
    (∀ i j, i < j → (s.redemptionQueue i).bilSettled < (s.redemptionQueue i).bilAmount →
      (s.redemptionQueue j).bilSettled = 0) ∧
    ∀ a t ps, Legal d s a → step d s a = .ok (t, ps) →
      s.queueHead ≤ t.queueHead ∧
      ∀ j, (s.redemptionQueue j).bilSettled < (t.redemptionQueue j).bilSettled →
        ∀ i < j, (t.redemptionQueue i).user ≠ 0 →
          (t.redemptionQueue i).bilSettled = (t.redemptionQueue i).bilAmount := by
  have hf := h.inv.fifo
  refine ⟨fun i hi _ => hf.below i hi, hf.head_le, fun i j hi hi' hj hj' => ?_, hf.behind, fun a t ps hlegal hs => ?_⟩
  · rcases lt_trichotomy i j with hij | hij | hij
    · have := hf.behind i j hij hi'; omega
    · exact hij
    · have := hf.behind j i hij hj'; omega
  · have hadv := moves_advances (step_queue h.inv hlegal hs)
    have hf' := (h.inv.step hlegal hs).fifo
    exact ⟨hadv.head_le, fun j hj i hij _ => hf'.below i (lt_of_lt_of_le hij (hadv.settled j hj))⟩

/-- The replayed run settles two requests of alice. -/
theorem fifo_settlement_demo : ∃ s : State, s.totalSettledBil = 32 * 10 ^ 18 ∧ s.queueHead ≤ s.queueTail := by
  obtain ⟨s, hs, -, hsettled, -⟩ := demoRun_settled
  exact ⟨s, hsettled, (fifo_settlement hs.of_restrict).2.1⟩

end MoneyMarket
