/-
What a sync caps, and what it leaves. Popping the heap goes through its entries in sorted order,
so a sync of `n` caps exactly the first `n` due entries of that order (`processMaturities_exact`),
and the worth it leaves can be read off the book it starts from (`Book.worthAfter`).
-/
import MoneyMarket.Book.Worth

namespace MoneyMarket

open Evm Relation

namespace Book

variable (b : Book)

/-! ## The order of the caps -/

/-- The heap entries in the order in which they are capped. -/
def dueOrder : List Nat := b.maturityHeap.insertionSort (· ≤ ·)

/-- How many of them are due. -/
def dueCount (now : Nat) : Nat := (b.dueOrder.takeWhile fun entry => decide (entryMaturity entry ≤ now)).length

/-- The yield a cap of the entry locks. -/
def entryYield (entry : Nat) : Nat :=
  (b.positions[entryIndex entry]?).elim 0 fun pos => pos.yieldAt (entryMaturity entry)

/-- What the position of the entry has accrued at `time`, over `yearWad`. -/
def entryAccrued (time entry : Nat) : Nat :=
  (b.positions[entryIndex entry]?).elim 0 fun pos => pos.rate * (time - pos.yieldStartTime)

end Book

/-- Where the aggregate stops when the entries left are these, in order. -/
def stopAt (now : Nat) (entries : List Nat) : Nat :=
  match entries.head? with
  | some root => if entryMaturity root < now then entryMaturity root else now
  | none => now

/-- The worth of the book once its first `k` entries are capped: their yields are floored one by one. -/
def Book.worthAfter (now : Nat) (b : Book) (k : Nat) : Nat :=
  b.totalInvestedPrincipal + ((b.dueOrder.drop k).map (b.entryAccrued (stopAt now (b.dueOrder.drop k)))).sum / yearWad +
    (b.totalPendingYield + ((b.dueOrder.take k).map b.entryYield).sum)

/-! ## One cap -/

/-- Capping a position changes no rate and no start. -/
theorem entry_capped {b : Book} {entry : Nat} {pos : NFTPosition} (hpos : b.positions[entryIndex entry]? = some pos)
    (e time : Nat) :
    (b.capped entry pos).entryYield e = b.entryYield e ∧
    (b.capped entry pos).entryAccrued time e = b.entryAccrued time e := by
  unfold Book.entryYield Book.entryAccrued
  simp only [Book.capped]
  by_cases h : entryIndex entry = entryIndex e
  · rw [h] at hpos
    rw [h, List.getElem?_set_self (List.getElem?_eq_some_iff.1 hpos).1, hpos]
    exact ⟨rfl, rfl⟩
  · rw [List.getElem?_set_ne h]
    exact ⟨rfl, rfl⟩

theorem YieldBook.cap_order {now : Nat} {b b' : Book} (h : YieldBook now b) (hc : Cap now b b') :
    ∃ entry, entryMaturity entry ≤ now ∧ b.dueOrder = entry :: b'.dueOrder ∧
      ∀ k, b.worthAfter now (k + 1) = b'.worthAfter now k := by
  cases hc with
  | cap entry pos hroot hdue hpos _ =>
    have horder : b.dueOrder = entry :: (b.capped entry pos).dueOrder := Heap.sorted_pop h.ordered hroot
    refine ⟨entry, hdue, horder, fun k => ?_⟩
    have hown : b.entryYield entry = pos.yieldAt (entryMaturity entry) := by simp [Book.entryYield, hpos]
    have hyield : (b.capped entry pos).entryYield = b.entryYield := funext fun e => (entry_capped hpos e 0).1
    have haccrued : ∀ time, (b.capped entry pos).entryAccrued time = b.entryAccrued time := fun time =>
      funext fun e => (entry_capped hpos e time).2
    unfold Book.worthAfter
    rw [horder, List.drop_succ_cons, List.take_succ_cons, List.map_cons, List.sum_cons, hown, hyield, haccrued]
    show _ = b.totalInvestedPrincipal + _ + (b.totalPendingYield + pos.yieldAt (entryMaturity entry) + _)
    omega

/-! ## No cap -/

/-- A sum over the entries is a sum over the uncapped positions. -/
theorem sum_liveEntries (g : Nat → Nat) (f : NFTPosition → Nat) : ∀ (k : Nat) (ps : List NFTPosition),
    (∀ i pos, ps[i]? = some pos → pos.yieldCapped = false → g (packEntry pos.maturityTime (k + i)) = f pos) →
      ((liveEntries k ps).map g).sum = (ps.map fun pos => if pos.yieldCapped then 0 else f pos).sum
  | k, [], _ => rfl
  | k, pos :: ps, h => by
    have ih := sum_liveEntries g f (k + 1) ps fun i p hp hu => by
      rw [show k + 1 + i = k + (i + 1) by omega]; exact h (i + 1) p hp hu
    unfold liveEntries
    rw [List.map_cons, List.sum_cons, ← ih]
    by_cases hc : pos.yieldCapped = true
    · rw [if_pos hc, if_pos hc, Nat.zero_add]
    · rw [if_neg hc, if_neg hc, List.map_cons, List.sum_cons]
      exact congrArg (· + _) (h 0 pos rfl (by simpa using hc))

theorem YieldBook.dueOrder_head {now : Nat} {b : Book} (h : YieldBook now b) :
    b.dueOrder.head? = b.maturityHeap[0]? := by
  cases hroot : b.maturityHeap[0]? with
  | none =>
    have hnil : b.maturityHeap = [] := List.eq_nil_of_length_eq_zero (by simpa using hroot)
    simp [Book.dueOrder, hnil]
  | some root =>
    rw [Book.dueOrder, Heap.sorted_pop h.ordered hroot, List.head?_cons]

theorem YieldBook.worthAfter_zero {now : Nat} {b : Book} (h : YieldBook now b) : b.worthAfter now 0 = b.worth now := by
  have hstop : stopAt now b.dueOrder = b.stop now := by
    show stopAt now b.dueOrder = stopAt now b.maturityHeap
    unfold stopAt
    rw [h.dueOrder_head, List.head?_eq_getElem?]
  have hperm : b.dueOrder.Perm (liveEntries 0 b.positions) := (List.perm_insertionSort _ _).trans h.entries
  have hsum := sum_liveEntries (b.entryAccrued (b.stop now)) (fun pos => pos.rate * (b.stop now - pos.yieldStartTime)) 0
    b.positions fun i pos hp hu => by
      rw [Nat.zero_add, Book.entryAccrued, entryIndex_pack _ (h.small i pos hp hu), hp]
      rfl
  unfold Book.worthAfter Book.worth
  rw [List.drop_zero, List.take_zero, hstop, (hperm.map _).sum_eq, hsum]
  rfl

/-! ## A sync -/

/-- A capping run that has capped the first `processed` entries. -/
structure Capping (now maxPositions : Nat) (b : Book) (r : MaturityRun) : Prop where
  yield : YieldBook now (r.onto b)
  le : r.processed ≤ maxPositions
  order : ∃ done, b.dueOrder = done ++ (r.onto b).dueOrder ∧ done.length = r.processed ∧
    ∀ entry ∈ done, entryMaturity entry ≤ now
  worth : ∀ k, b.worthAfter now (r.processed + k) = (r.onto b).worthAfter now k

theorem Capping.step {now maxPositions : Nat} {b : Book} {r r' : MaturityRun} (h : Capping now maxPositions b r)
    (hp : maturityPass maxPositions now (secondsPerYear * wad) r = .ok (.again r')) :
      Capping now maxPositions b r' := by
  obtain ⟨hcap, hprocessed, hlt, -⟩ := maturityPass_again b hp
  obtain ⟨entry, hdue, horder, hworth⟩ := h.yield.cap_order hcap
  obtain ⟨done, hdone, hlen, hall⟩ := h.order
  refine ⟨h.yield.move (.cap hcap), by omega, ⟨done ++ [entry], ?_, ?_, ?_⟩, fun k => ?_⟩
  · rw [hdone, horder, List.append_assoc]; rfl
  · rw [List.length_append, hlen, hprocessed]; rfl
  · intro e he
    rcases List.mem_append.1 he with he | he
    · exact hall e he
    · rw [List.mem_singleton.1 he]; exact hdue
  · rw [hprocessed, ← hworth k, ← h.worth (k + 1), Nat.add_right_comm, Nat.add_assoc]

/-- A pass stops when the budget is used, the heap is empty or its root is not due. -/
theorem maturityPass_stop_why {maxPositions now : Nat} {r r' : MaturityRun}
    (h : maturityPass maxPositions now (secondsPerYear * wad) r = .ok (.stop r')) :
    maxPositions ≤ r.processed ∨ ∀ root, r.heap[0]? = some root → now < entryMaturity root := by
  unfold maturityPass at h
  split at h
  · simp only [bind_ok_iff, readAt_ok_iff] at h
    obtain ⟨entry, hroot, h⟩ := h
    split at h
    · rename_i hlater
      refine .inr fun root hr => ?_
      rw [hroot] at hr
      cases hr
      exact hlater
    · simp only [bind_ok_iff, pure_ok_iff, reduceCtorEq, and_false, exists_false] at h
  · rename_i hguard
    by_cases hlt : r.processed < maxPositions
    · refine .inr fun root hr => ?_
      have := (List.getElem?_eq_some_iff.1 hr).1
      exact absurd ⟨hlt, this⟩ hguard
    · exact .inl (not_lt.1 hlt)

/-- A sync caps exactly the first due entries, as many as it may, and leaves the worth read off the
book it started from. -/
theorem processMaturities_exact {b : Book} {maxPositions now : Nat} {r : MaturityRun} (h : YieldBook now b)
    (hr : processMaturities b.positions b.maturityHeap maxPositions now b.yieldRateSum b.yieldOffsetSum
      (secondsPerYear * wad) = .ok r) :
    r.processed = min maxPositions (b.dueCount now) ∧ (r.onto b).worth now = b.worthAfter now r.processed := by
  obtain ⟨r₁, hrun, hstop⟩ := loop_exits (I := Capping now maxPositions b) (fun r => r.heap.length)
    (fun r r' hi hp => by
      obtain ⟨hcap, -⟩ := maturityPass_again b hp
      exact ⟨hi.step hp, hcap.length_lt⟩)
    (s := ⟨b.positions, b.maturityHeap, 0, b.yieldRateSum, b.yieldOffsetSum, 0⟩)
    ⟨h, Nat.zero_le _, ⟨[], rfl, rfl, fun _ h => absurd h List.not_mem_nil⟩, fun k => by rw [Nat.zero_add]; rfl⟩
    (Nat.lt_succ_self _) hr
  obtain rfl := maturityPass_stop hstop
  obtain ⟨done, hdone, hlen, hall⟩ := hrun.order
  have hle := hrun.le
  constructor
  · -- the entries left start with one that is not due, or the budget is used
    have hcount : b.dueCount now = done.length +
      ((r.onto b).dueOrder.takeWhile fun entry => decide (entryMaturity entry ≤ now)).length := by
      unfold Book.dueCount
      rw [hdone, List.takeWhile_append_of_pos fun e he => decide_eq_true (hall e he), List.length_append]
    rcases maturityPass_stop_why hstop with hbudget | hlater
    · omega
    · have hnone : ((r.onto b).dueOrder.takeWhile fun entry => decide (entryMaturity entry ≤ now)) = [] := by
        have hhead := hrun.yield.dueOrder_head
        cases horder : (r.onto b).dueOrder with
        | nil => rfl
        | cons root rest =>
          rw [horder] at hhead
          have : now < entryMaturity root := hlater root hhead.symm
          rw [List.takeWhile_cons_of_neg (by simpa using this)]
      rw [hnone] at hcount
      simp only [List.length_nil] at hcount
      omega
  · rw [← hrun.yield.worthAfter_zero, ← hrun.worth 0, Nat.add_zero]

/-- It loses a unit for each of them at most. -/
theorem processMaturities_loss {b : Book} {maxPositions now : Nat} {r : MaturityRun} (h : YieldBook now b)
    (hr : processMaturities b.positions b.maturityHeap maxPositions now b.yieldRateSum b.yieldOffsetSum
      (secondsPerYear * wad) = .ok r) : b.worth now ≤ (r.onto b).worth now + r.processed := by
  have hrun := loop_invariant
    (I := fun r : MaturityRun => YieldBook now (r.onto b) ∧ b.worth now ≤ (r.onto b).worth now + r.processed)
    (fun r r' hi hp => by
      obtain rfl := maturityPass_stop hp
      exact hi)
    (fun r r' hi hp => by
      obtain ⟨hy, hle⟩ := hi
      obtain ⟨hcap, hprocessed, -, -⟩ := maturityPass_again b hp
      obtain ⟨hworth, -⟩ := hy.worth_cap hcap
      exact ⟨hy.move (.cap hcap), by omega⟩)
    (s := ⟨b.positions, b.maturityHeap, 0, b.yieldRateSum, b.yieldOffsetSum, 0⟩) ⟨h, le_refl _⟩ hr
  exact hrun.2

end MoneyMarket
