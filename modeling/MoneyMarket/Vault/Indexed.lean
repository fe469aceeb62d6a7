/-
The per-controller index over whole runs. It lists exactly the settled requests in every state
reached by claims that meet no settled request without HOLLAR (`index_exact`). A withdraw that
meets one evicts it, and what is locked into it afterwards is out of its controller's reach
(`index_not_exact`).
-/
import MoneyMarket.Keeper.AutoClaim

namespace MoneyMarket

open Evm Relation Transition

/-- The index lists exactly the settled requests, each once; so the claims of all controllers add
up to the HOLLAR reserved, and the keeper asks for all each of them may claim. -/
structure IndexExact (s : State) : Prop where
  nodup : ∀ c, (s.settledByController c).Nodup
  mem_iff : ∀ c i, i ∈ s.settledByController c ↔
    (s.redemptionQueue i).user ≠ 0 ∧ (s.redemptionQueue i).user = c ∧ 0 < (s.redemptionQueue i).bilSettled
  withdrawable : ∃ amount : Address → Nat, (∀ c, maxWithdraw s c = .ok (amount c)) ∧
    ∑ c, amount c = s.totalReservedHollar
  redeemable : ∀ c, maxRedeem s c = .ok (autoClaimSum s c)

/-- A withdraw starts where each entry it meets, from the back of the index, is owed HOLLAR. -/
def meetsOnlyOwed (s : State) : Action → Bool
  | .call _ _ (.withdraw assets _ controller) =>
      meetsOwed s.redemptionQueue (s.settledByController controller).reverse assets
  | _ => true

/-- The runs whose withdraws meet no entry without HOLLAR. -/
abbrev owedVault (d : Deployment) : System State Action := (vault d).restrict fun s a => meetsOnlyOwed s a = true

/-! ## Completeness along a run -/

namespace IndexComplete

variable {d : Deployment} {s t : State} {a : Action}

theorem fills {q q' : Redemptions} {rate : Nat} (h : IndexComplete q) (hf : ReflTransGen (Fill rate) q q') :
    IndexComplete q' := by
  induction hf with
  | refl => exact h
  | tail _ hf ih => exact ih.fill hf

theorem poke {ps : List Payout} (h : IndexComplete s.toRedemptions) (hp : Poke d s ps t) :
    IndexComplete t.toRedemptions := by
  cases hp with
  | settle rate _ _ hfills _ => exact h.fills hfills
  | _ => exact h

theorem act (h : IndexComplete s.toRedemptions) (hinv : Invariant d s) (hmeets : meetsOnlyOwed s a = true)
    (ha : Act d a s t) :
    IndexComplete t.toRedemptions := by
  cases ha with
  | request controller owner shares _ _ _ _ _ _ => exact h.push controller shares
  | cancel i n _ _ _ _ _ => exact (h.cancel i).fills (advanceQueueHead_fills 0 n (s.toRedemptions.cancelled i))
  | claim u c receiver amount r _ _ hwalk hassets _ _ _ _ _ =>
    refine claimWalk_complete hinv.index hinv.ledger h (fun hu => ?_) hwalk
    obtain ⟨env, ha⟩ := hassets hu
    rw [ha] at hmeets
    exact hmeets
  | tick _ _ => exact h
  | ledger _ _ => exact h
  | configure _ _ _ _ _ => exact h
  | share _ _ _ => exact h
  | deposit _ _ _ _ _ _ _ _ _ _ _ _ _ _ _ _ _ => exact h

end IndexComplete

theorem owed_indexComplete {d : Deployment} {s : State} (h : (owedVault d).Reach s) :
    IndexComplete s.toRedemptions := by
  refine System.Reach.invariant (M := owedVault d) (I := fun s => IndexComplete s.toRedemptions) ?_ ?_ h
  · rintro s ⟨env, p, token, now, -, hinit⟩
    obtain ⟨g, c, a, -, -, rfl⟩ := initializeVault_ok hinit
    exact fun _ h => absurd h (lt_irrefl 0)
  · rintro s a t hr hc ⟨hmeets, hlegal, ps, hs⟩
    have hinv : Invariant d s := Reachable.inv hr.of_restrict
    rcases step_moves hlegal hs with ⟨ha, -⟩ | hp
    · exact hc.act hinv hmeets ha
    · exact Moves.invariant (I := fun s => IndexComplete s.toRedemptions) (fun _ _ _ hi hm => hi.poke hm) hp hc

/-! ## What a complete index adds up to -/

section Sums

variable {q : Redemptions}

theorem mem_index_iff (hs : IndexSound q) (hl : QueueLedger q) (hc : IndexComplete q) (c : Address) (i : Nat) :
    i ∈ q.settledByController c ↔
      (q.redemptionQueue i).user ≠ 0 ∧ (q.redemptionQueue i).user = c ∧ 0 < (q.redemptionQueue i).bilSettled := by
  constructor
  · intro hi
    obtain ⟨hu, hpos⟩ := hs.sound c i hi
    exact ⟨hl.user_ne_zero (lt_of_lt_of_le hpos (hl.settled_le_amount i)), hu, hpos⟩
  · rintro ⟨-, rfl, hpos⟩
    exact hc i hpos

/-- An amount that only settled requests have sums over the index as over the whole queue. -/
theorem claimable_eq (f : Request → Nat) (hs : IndexSound q) (hl : QueueLedger q) (hc : IndexComplete q)
    (hf : ∀ i, (q.redemptionQueue i).bilSettled = 0 → f (q.redemptionQueue i) = 0) (c : Address) :
    claimable f q.toQueueStore c =
      ∑ i ∈ Finset.range q.queueTail, if (q.redemptionQueue i).user = c then f (q.redemptionQueue i) else 0 := by
  unfold claimable
  rw [← List.sum_toFinset _ (hs.nodup c)]
  have hsub : (q.settledByController c).toFinset ⊆ Finset.range q.queueTail := fun i hi => by
    obtain ⟨hu, -, -⟩ := (mem_index_iff hs hl hc c i).1 (List.mem_toFinset.1 hi)
    exact Finset.mem_range.2 (hl.lt_tail hu)
  rw [← Finset.sum_subset hsub]
  · apply Finset.sum_congr rfl
    intro i hi
    rw [if_pos ((mem_index_iff hs hl hc c i).1 (List.mem_toFinset.1 hi)).2.1]
  · -- what the index does not list is not settled, or is not of `c`
    intro i _ hi
    split_ifs with hu
    · refine hf i (Nat.eq_zero_of_not_pos fun hpos => hi (List.mem_toFinset.2 ?_))
      rw [← hu]; exact hc i hpos
    · rfl

/-- Over all controllers the HOLLAR claimable is the HOLLAR reserved. -/
theorem sum_claimable (hs : IndexSound q) (hl : QueueLedger q) (hc : IndexComplete q) :
    ∑ c, claimable Request.hollarOwed q.toQueueStore c = q.totalReservedHollar := by
  have howed : ∀ i, (q.redemptionQueue i).bilSettled = 0 → (q.redemptionQueue i).hollarOwed = 0 := by
    intro i h0
    by_cases hu : (q.redemptionQueue i).user = 0
    · rw [hl.blank i (.inl hu)]; rfl
    · exact (hl.live i hu).unowed h0
  simp only [claimable_eq Request.hollarOwed hs hl hc howed]
  rw [Finset.sum_comm, hl.reserved]
  apply Finset.sum_congr rfl
  intro i _
  rw [Finset.sum_ite_eq, if_pos (Finset.mem_univ _)]

end Sums

/-! ## Exactness -/

/-- In every run whose withdraws meet no settled request that is owed no HOLLAR, the index is exact
in every state reached. -/
theorem index_exact {d : Deployment} {s : State} (h : (owedVault d).Reach s) : IndexExact s := by
  have hinv : Invariant d s := Reachable.inv h.of_restrict
  have hc := owed_indexComplete h
  refine ⟨hinv.index.nodup, mem_index_iff hinv.index hinv.ledger hc,
    ⟨_, hinv.maxWithdraw, sum_claimable hinv.index hinv.ledger hc⟩,
    fun c => ?_⟩
  rw [autoClaimSum_settled hinv.ledger, hinv.maxRedeem]
  exact congrArg _ (claimable_eq Request.bilSettled hinv.index hinv.ledger hc (fun _ h0 => h0) c)

/-- The demo run, and a withdraw over both of alice's requests. -/
theorem index_exact_demo : ∃ s : State, s.settledByController alice = [0] ∧ IndexExact s := by
  obtain ⟨s, hs, ht⟩ := observe_reach demo (fun s a => meetsOnlyOwed s a = true) demoQuiet demoSetup
    (demoRun ++ [.call alice demoQuiet (.withdraw (31 * 10 ^ 18) alice alice)])
    (fun s => decide (s.settledByController alice = [0])) (by decide +kernel)
  exact ⟨s, of_decide_eq_true ht, index_exact hs⟩

/-- A position pays one percent short, and its 9.9 HOLLAR settle the first request but for one wei.
That buys one share of the second for nothing. A withdraw of one wei meets it, and the HOLLAR of
the next position is then locked into a request that no index lists. -/
def strandingRun : List Action :=
  demoFunding ++
    [.call alice (demoReplies 0 1000 (some (10 ^ 19)) none none) (.deposit (10 ^ 19) alice),
     .call alice (demoReplies 0 100000 (some (9 * 10 ^ 19)) none none) (.deposit (9 * 10 ^ 19) alice),
     .call alice demoQuiet (.requestRedeem 9909909909909909909 alice alice),
     .call alice demoQuiet (.requestRedeem (5 * 10 ^ 18) alice alice),
     .tick 1000,
     .call bob (demoReplies 0 0 none none (some (99 * 10 ^ 17))) (.pokeDecentral 0),
     .call alice demoQuiet (.withdraw 1 alice alice),
     .tick 100000,
     .call bob (demoReplies 0 0 none none (some (9 * 10 ^ 19))) (.pokeDecentral 1)]

theorem index_not_exact : ¬ ∀ (d : Deployment) (s : State), Reachable d s → IndexExact s := by
  intro hall
  obtain ⟨s, hs, ht⟩ := observe_reach demo (fun _ _ => True) demoQuiet demoSetup strandingRun
    (fun s => decide (s.settledByController alice = [0] ∧ (s.redemptionQueue 1).user = alice ∧
      (s.redemptionQueue 1).bilSettled = 5 * 10 ^ 18 ∧ (s.redemptionQueue 1).hollarOwed = 4994999999999999999))
    (by decide +kernel)
  obtain ⟨hidx, huser, hsettled, -⟩ := of_decide_eq_true ht
  have hmem := ((hall demo s hs.of_restrict).mem_iff alice 1).2 ⟨by rw [huser]; decide, huser, by rw [hsettled]; decide⟩
  rw [hidx] at hmem
  exact absurd hmem (by decide)

end MoneyMarket
