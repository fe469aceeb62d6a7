/-
The order of claims in the vault. In every reachable state the index of a controller has its oldest
settled request first, and a claim begins at the other end: it goes in the order of the requests
exactly when there is none older than those it can draw on (`claims_fifo_iff`).
-/
import MoneyMarket.Queue.Order
import MoneyMarket.Vault.Claiming

namespace MoneyMarket

open Evm Relation Transition

/-! ## The index over a run -/

/-- Moves of the queue keep the index in order. -/
theorem moves_ascends {q q' : Redemptions} (h : ReflTransGen QueueMove q q') (hl : QueueLedger q) (hs : IndexSound q)
    (hf : Fifo q) (ha : IndexAscends q) : IndexAscends q' := by
  induction h with
  | refl => exact ha
  | tail hrun hm ih => exact ih.move (queue_sound hrun hl hs hf).2.1 hm

/-- In every reachable state each index is in the order of the ids. -/
theorem Reachable.ascends {d : Deployment} {s : State} (h : Reachable d s) : IndexAscends s.toRedemptions := by
  refine h.invariant (I := fun s => IndexAscends s.toRedemptions) ?_ ?_
  · rintro s ⟨env, p, token, now, -, hinit⟩
    obtain ⟨g, c, a, -, -, rfl⟩ := initializeVault_ok hinit
    exact ⟨fun _ => .nil, fun _ i hi => absurd hi List.not_mem_nil⟩
  · rintro s a t hr ha ⟨hlegal, ps, hs⟩
    have hinv := Reachable.inv hr
    exact moves_ascends (step_queue hinv hlegal hs) hinv.ledger hinv.index hinv.fifo ha

/-! ## The order of a claim -/

section Claims

variable {d : Deployment} {s t : State} {sender receiver c : Address}

/-- A walk in a reachable state. -/
theorem Reachable.claim_fifo_iff (h : Reachable d s) {u : ClaimUnit} {amount : Nat} {r : ClaimRun} (hpos : 0 < amount)
    (hwalk : claimWalk u s.toQueueStore c amount = .ok r) :
    ClaimsFifo u s.toRedemptions c amount r.shares r.assets ↔ OnlyOldest u s.toQueueStore c := by
  have hinv := h.inv
  rw [claimWalk_oldest_iff (q := s.toRedemptions) hinv.index hinv.ledger hwalk]
  exact oldestBehind_iff h.ascends hpos

theorem redeem_pos {shares paid : Nat} (h : redeem d s sender shares receiver c = .ok (t, paid)) : 0 < shares := by
  simp only [redeem, bind_ok_iff, require_ok_iff] at h
  obtain ⟨_, -, _, hpos, -⟩ := h
  exact Nat.pos_of_ne_zero hpos

theorem withdraw_pos {assets burnt : Nat} (h : withdraw d s sender assets receiver c = .ok (t, burnt)) :
    0 < assets := by
  simp only [withdraw, bind_ok_iff, require_ok_iff] at h
  obtain ⟨_, -, _, hpos, -⟩ := h
  exact Nat.pos_of_ne_zero hpos

/-- In every reachable state a claim goes in the order of the requests, and pays what the oldest of
them are owed first, exactly when none is older than those it can draw on. -/
theorem claims_fifo_iff (h : Reachable d s) :
    (∀ sender shares receiver c t paid, redeem d s sender shares receiver c = .ok (t, paid) →
      (ClaimsFifo .shares s.toRedemptions c shares shares paid ↔ OnlyOldest .shares s.toQueueStore c)) ∧
    ∀ sender assets receiver c t burnt, withdraw d s sender assets receiver c = .ok (t, burnt) →
      (ClaimsFifo .assets s.toRedemptions c assets burnt assets ↔ OnlyOldest .assets s.toQueueStore c) := by
  constructor
  · intro sender shares receiver c t paid hredeem
    obtain ⟨r, hwalk, hshares, hassets, -, -⟩ := redeem_claimed h.inv.ledger hredeem
    have hiff := h.claim_fifo_iff (redeem_pos hredeem) hwalk
    rwa [hshares, hassets] at hiff
  · intro sender assets receiver c t burnt hwithdraw
    obtain ⟨r, hwalk, hassets, hshares, -, -⟩ := withdraw_claimed h.inv.ledger hwithdraw
    have hiff := h.claim_fifo_iff (withdraw_pos hwithdraw) hwalk
    rwa [hshares, hassets] at hiff

end Claims

/-- Alice requests 2 shares, which the first of two positions settles, and then 30 more, which the
second settles at the rate of its longer term. -/
def twoRatesRun : List Action :=
  demoFunding ++
    [.call alice (demoReplies (10 ^ 17) 1000 (some (10 ^ 19)) none none) (.deposit (10 ^ 19) alice),
     .call alice (demoReplies (10 ^ 17) 1000000 (some (9 * 10 ^ 19)) none none) (.deposit (9 * 10 ^ 19) alice),
     .call alice demoQuiet (.requestRedeem (2 * 10 ^ 18) alice alice),
     .tick 1000,
     .call bob (demoReplies 0 0 none (some 31709791983764) (some (10 ^ 19))) (.pokeDecentral 0),
     .call alice demoQuiet (.requestRedeem (30 * 10 ^ 18) alice alice),
     .tick 1000000,
     .call bob (demoReplies 0 0 none (some 285388127853881278) (some (9 * 10 ^ 19))) (.pokeDecentral 1)]

/-- With only the first request settled, a redeem of half of it goes in order. -/
theorem claims_fifo_iff_demo : ∃ s t paid, redeem demo s alice (10 ^ 18) alice alice = .ok (t, paid) ∧
    ClaimsFifo .shares s.toRedemptions alice (10 ^ 18) (10 ^ 18) paid := by
  obtain ⟨s, hs, ht⟩ := observe_reach demo DeadSilent demoQuiet demoSetup (twoRatesRun.take 8)
    (fun s => decide (s.settledByController alice = [0]) && passes (redeem demo s alice (10 ^ 18) alice alice)
      fun _ => true) (by decide +kernel)
  rw [Bool.and_eq_true, decide_eq_true_iff] at ht
  obtain ⟨hidx, ht⟩ := ht
  obtain ⟨⟨t, paid⟩, hredeem, -⟩ := passes_ok ht
  refine ⟨s, t, paid, hredeem, ((claims_fifo_iff hs.of_restrict).1 _ _ _ _ _ _ hredeem).2 ?_⟩
  intro j hj _ i _
  rw [hidx, List.mem_singleton] at hj
  rw [hj]
  exact Nat.zero_le i

/-- With both settled it goes to the second request, at the better rate. -/
theorem claim_not_fifo : ¬ ∀ (d : Deployment) (s : State), Reachable d s → ∀ sender shares receiver c t paid,
    redeem d s sender shares receiver c = .ok (t, paid) → ClaimsFifo .shares s.toRedemptions c shares shares paid := by
  intro hall
  obtain ⟨s, hs, ht⟩ := observe_reach demo DeadSilent demoQuiet demoSetup twoRatesRun
    (fun s => passes (redeem demo s alice (10 ^ 18) alice alice) fun r =>
      decide (r.2 = 1002912382609055798 ∧
        ClaimUnit.totalDrawn .shares s.redemptionQueue (settledIds s.toRedemptions alice) (10 ^ 18) =
          (10 ^ 18, 1000003170979198376))) (by decide +kernel)
  obtain ⟨⟨t, paid⟩, hredeem, ht⟩ := passes_ok ht
  obtain ⟨hpaid, holdest⟩ := of_decide_eq_true ht
  have hdrawn := (hall demo s hs.of_restrict _ _ _ _ _ _ hredeem).drawn
  rw [holdest] at hdrawn
  have hsame : paid = 1000003170979198376 := congrArg Prod.snd hdrawn
  exact absurd (hpaid.symm.trans hsame) (by decide)

end MoneyMarket
