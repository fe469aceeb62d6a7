/-
What a claim walk reads: the index of its controller and the requests listed there. On two stores that
agree on these it fails with the same error, or draws the same amounts.
-/
import MoneyMarket.Queue.Moves

namespace MoneyMarket

open Evm Relational

/-! ## Two walks -/

section Walk

variable {u : ClaimUnit} {c : Address} {r r' : ClaimRun}

/-- Two walks that see the same requests in the same index. -/
def ClaimRun.Alike (r r' : ClaimRun) : Prop :=
  ∃ redemptionQueue, r' = { r with redemptionQueue } ∧ ∀ i ∈ r.ids, redemptionQueue i = r.redemptionQueue i

theorem mem_of_swapPop {arr arr' : List Nat} {idx i : Nat} (h : swapPop arr idx = .ok arr') (hi : i ∈ arr') :
    i ∈ arr := by
  simp only [swapPop, bind_ok_iff] at h
  obtain ⟨last, -, h⟩ := h
  split_ifs at h with hidx
  · simp only [bind_ok_iff, readAt_ok_iff, pure_ok_iff] at h
    obtain ⟨moved, hmoved, rfl⟩ := h
    rcases List.mem_or_eq_of_mem_set (List.mem_of_mem_dropLast hi) with hi | rfl
    · exact hi
    · exact List.mem_of_getElem? hmoved
  · cases h
    exact List.mem_of_mem_dropLast hi

/-- A draw from a listed request leaves the two walks alike. -/
theorem ClaimRun.draw_alike {j i sharesTake hollarTake : Nat} {queue : Nat → Request} (hi : i ∈ r.ids)
    (h : ∀ k ∈ r.ids, queue k = r.redemptionQueue k) :
    Both (fun a b => b.2 = a.2 ∧ ∀ k ∈ a.2, b.1 k = a.1 k) (r.draw j i sharesTake hollarTake)
      (ClaimRun.draw { r with redemptionQueue := queue } j i sharesTake hollarTake) := by
  have hupdate : ∀ (request : Request) (ids : List Nat), (∀ k ∈ ids, k ∈ r.ids) → ∀ k ∈ ids,
      Function.update queue i request k = Function.update r.redemptionQueue i request k := by
    intro request ids hsub k hk
    rw [Function.update_apply, Function.update_apply, h k (hsub k hk)]
  unfold ClaimRun.draw
  dsimp only
  rw [h i hi]
  refine .same fun bilSettled _ => .same fun hollarOwed _ => .same fun bilAmount _ => ?_
  refine .branch (fun _ => .same fun ids hids => ?_) fun _ => .branch (fun _ => .same fun ids hids => ?_) fun _ => ?_
  · exact .ok ⟨rfl, hupdate _ ids fun k hk => mem_of_swapPop hids hk⟩
  · exact .ok ⟨rfl, hupdate _ ids fun k hk => mem_of_swapPop hids hk⟩
  · exact .ok ⟨rfl, hupdate _ r.ids fun k hk => hk⟩

theorem claimPass_alike (h : r.Alike r') : Both (SamePass ClaimRun.Alike) (claimPass u c r) (claimPass u c r') := by
  obtain ⟨queue, rfl, hqueue⟩ := h
  unfold claimPass
  refine .branch (fun _ => .same fun i hread => ?_) fun _ => .ok (.stop ⟨queue, rfl, hqueue⟩)
  have hi : i ∈ r.ids := List.mem_of_getElem? (readAt_ok_iff.1 hread)
  dsimp only
  rw [hqueue i hi]
  refine .branch (fun _ => .same fun ids hids => .ok (.again ⟨queue, rfl, fun k hk => ?_⟩)) fun _ => ?_
  · exact hqueue k (mem_of_swapPop hids hk)
  · refine .same fun scaled _ => .same fun proRata _ => .bind (ClaimRun.draw_alike hi hqueue) ?_
    rintro ⟨drawn, ids⟩ ⟨drawn', _⟩ - - ⟨rfl, hdrawn⟩
    exact .same fun remaining _ => .same fun shares _ => .same fun assets _ => .ok (.again ⟨drawn', rfl, hdrawn⟩)

/-- A walk that goes through does so on every store with the same index and the same requests in it. -/
theorem claimWalk_alike {q q' : QueueStore} {amount : Nat} (hindex : q'.settledByController c = q.settledByController c)
    (hqueue : ∀ i ∈ q.settledByController c, q'.redemptionQueue i = q.redemptionQueue i)
    (h : claimWalk u q c amount = .ok r) : ∃ r', claimWalk u q' c amount = .ok r' ∧ r.Alike r' := by
  have hstart : (ClaimRun.start q c amount).Alike (.start q' c amount) :=
    ⟨q'.redemptionQueue, by rw [ClaimRun.start, hindex]; rfl, hqueue⟩
  have hwalk : Both ClaimRun.Alike (claimWalk u q c amount) (claimWalk u q' c amount) := by
    rw [claimWalk_eq, claimWalk_eq, hindex]
    refine .bind (loop_both (fun _ _ => claimPass_alike) _ _ _ hstart) ?_
    rintro r₁ _ - - ⟨queue, rfl, hr⟩
    exact .same fun _ _ => .ok ⟨queue, rfl, hr⟩
  rcases hwalk.sides with ⟨e, herror, -⟩ | ⟨_, r', hok, hok', halike⟩
  · cases h.symm.trans herror
  · obtain rfl := Except.ok.inj (h.symm.trans hok)
    exact ⟨r', hok', halike⟩

end Walk

end MoneyMarket
