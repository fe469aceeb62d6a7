/-
Which positions a sync caps, and to what. The due positions are listed by maturity, and by index
where maturities are equal (`Book.DueList`). A sync locks the first of them, each with the yield of
its own term (`processMaturities_locks`), and fails for no other reason than that their yields do
not fit (`processMaturities_succeeds`).
-/
import MoneyMarket.Book.Sync

namespace MoneyMarket

open Evm Relation

/-- The position capped, with the yield of its whole term. -/
def NFTPosition.locked (pos : NFTPosition) : NFTPosition :=
  pos.cap (pos.apyWad * pos.principal * (pos.maturityTime - pos.yieldStartTime) / (secondsPerYear * wad))

/-- Uncapped, and mature at `now`. -/
def NFTPosition.Due (now : Nat) (pos : NFTPosition) : Prop := pos.yieldCapped = false ∧ pos.maturityTime ≤ now

instance (now : Nat) (pos : NFTPosition) : Decidable (pos.Due now) :=
  inferInstanceAs (Decidable (pos.yieldCapped = false ∧ pos.maturityTime ≤ now))

/-- The positions, those at the given indices locked. -/
def lockAt (positions : List NFTPosition) (indices : List Nat) : List NFTPosition :=
  positions.mapIdx fun i pos => if i ∈ indices then pos.locked else pos

namespace Book

variable (b : Book)

/-- Position `i` matures before position `j`, or with it and is the older one. -/
def Before (i j : Nat) : Prop :=
  ∃ p q, b.positions[i]? = some p ∧ b.positions[j]? = some q ∧
    (p.maturityTime < q.maturityTime ∨ p.maturityTime = q.maturityTime ∧ i < j)

/-- `order` lists the positions that are due. -/
structure DueList (now : Nat) (order : List Nat) : Prop where
  mem : ∀ i, i ∈ order ↔ ∃ pos, b.positions[i]? = some pos ∧ pos.Due now
  sorted : order.Pairwise b.Before

/-- The yield that position `i` locks. -/
def lockedYield (i : Nat) : Nat := (b.positions[i]?).elim 0 fun pos => pos.locked.pendingYield

/-- No position is due twice. -/
theorem DueList.nodup {b : Book} {now : Nat} {order : List Nat} (h : b.DueList now order) : order.Nodup := by
  apply h.sorted.imp
  rintro i j ⟨p, q, hp, hq, hbefore⟩ rfl
  rw [hp] at hq
  cases hq
  rcases hbefore with hlt | ⟨-, hlt⟩
  · exact lt_irrefl _ hlt
  · exact lt_irrefl _ hlt

/-- The due positions in the order of the heap. -/
def dueList (now : Nat) : List Nat := (b.dueOrder.take (b.dueCount now)).map entryIndex

end Book

/-! ## The due positions -/

/-- What a predicate that only stops holding lets through of a sorted list is all of it that has it. -/
theorem mem_takeWhile_sorted {p : Nat → Bool} (hp : ∀ a b, a ≤ b → p b = true → p a = true) {a : Nat} :
    ∀ {l : List Nat}, l.Pairwise (· ≤ ·) → (a ∈ l.takeWhile p ↔ a ∈ l ∧ p a = true)
  | [], _ => by simp
  | x :: l, h => by
    obtain ⟨hx, hl⟩ := List.pairwise_cons.1 h
    have ih := mem_takeWhile_sorted hp (a := a) hl
    by_cases hpx : p x = true
    · rw [List.takeWhile_cons_of_pos hpx, List.mem_cons, List.mem_cons, ih]
      constructor
      · rintro (rfl | ⟨ha, hpa⟩)
        · exact ⟨.inl rfl, hpx⟩
        · exact ⟨.inr ha, hpa⟩
      · rintro ⟨rfl | ha, hpa⟩
        · exact .inl rfl
        · exact .inr ⟨ha, hpa⟩
    -- what comes after an element that fails is larger, so it fails too
    · rw [List.takeWhile_cons_of_neg hpx]
      apply iff_of_false List.not_mem_nil
      rintro ⟨ha, hpa⟩
      rcases List.mem_cons.1 ha with rfl | ha
      · exact hpx hpa
      · exact hpx (hp x a (hx a ha) hpa)

/-- No entry is twice in the heap. -/
theorem liveEntries_nodup : ∀ {k : Nat} {ps : List NFTPosition},
    (∀ i pos, ps[i]? = some pos → pos.yieldCapped = false → k + i < 2 ^ 128) → (liveEntries k ps).Nodup
  | k, [], _ => List.nodup_nil
  | k, pos :: ps, hsmall => by
    have hsmall' : ∀ i p, ps[i]? = some p → p.yieldCapped = false → k + 1 + i < 2 ^ 128 := fun i p hp hu => by
      have := hsmall (i + 1) p hp hu
      omega
    have ih := liveEntries_nodup (k := k + 1) hsmall'
    unfold liveEntries
    split_ifs with hc
    · exact ih
    · refine List.nodup_cons.2 ⟨fun hmem => ?_, ih⟩
      obtain ⟨i, p, hp, hu, heq⟩ := mem_liveEntries.1 hmem
      -- an equal entry later in the list would carry a larger index
      have hk : k < 2 ^ 128 := hsmall 0 pos rfl (by simpa using hc)
      have := congrArg entryIndex heq
      rw [entryIndex_pack _ hk, entryIndex_pack _ (hsmall' i p hp hu)] at this
      omega

namespace YieldBook

variable {now : Nat} {b : Book}

theorem mem_dueOrder {entry : Nat} : entry ∈ b.dueOrder ↔ entry ∈ b.maturityHeap :=
  (List.perm_insertionSort _ _).mem_iff

/-- The due entries are the ones the sorted heap starts with. -/
theorem mem_due {entry : Nat} :
    entry ∈ b.dueOrder.take (b.dueCount now) ↔ entry ∈ b.maturityHeap ∧ entryMaturity entry ≤ now := by
  have htake : b.dueOrder.take (b.dueCount now) =
      b.dueOrder.takeWhile fun entry => decide (entryMaturity entry ≤ now) :=
    (List.prefix_iff_eq_take.1 (List.takeWhile_prefix _)).symm
  have hsorted : b.dueOrder.Pairwise (· ≤ ·) := List.pairwise_insertionSort _ _
  have hdown : ∀ e e', e ≤ e' → decide (entryMaturity e' ≤ now) = true → decide (entryMaturity e ≤ now) = true := by
    intro e e' hle he
    rw [decide_eq_true_iff] at he ⊢
    exact le_trans (entryMaturity_mono hle) he
  rw [htake, mem_takeWhile_sorted hdown hsorted, mem_dueOrder, decide_eq_true_iff]

theorem dueList (h : YieldBook now b) : b.DueList now (b.dueList now) := by
  constructor
  · intro i
    constructor
    · intro hi
      obtain ⟨entry, he, rfl⟩ := List.mem_map.1 hi
      obtain ⟨hheap, hdue⟩ := mem_due.1 he
      obtain ⟨pos, hpos, hu, hm, -⟩ := h.entry_pos hheap
      exact ⟨pos, hpos, hu, by rw [hm]; exact hdue⟩
    · rintro ⟨pos, hpos, hu, hdue⟩
      have hi := h.small i pos hpos hu
      refine List.mem_map.2 ⟨packEntry pos.maturityTime i, mem_due.2 ⟨?_, ?_⟩, entryIndex_pack _ hi⟩
      · exact h.entries.mem_iff.2 (mem_liveEntries.2 ⟨i, pos, hpos, hu, by rw [Nat.zero_add]⟩)
      · rw [entryMaturity_pack _ hi]
        exact hdue
  · have hnodup : b.dueOrder.Nodup := ((List.perm_insertionSort _ _).trans h.entries).nodup_iff.2
      (liveEntries_nodup fun i pos hpos hu => by rw [Nat.zero_add]; exact h.small i pos hpos hu)
    have hsorted : (b.dueOrder.take (b.dueCount now)).Pairwise fun e e' => e ≤ e' ∧ e ≠ e' :=
      ((List.pairwise_insertionSort _ _).and hnodup).sublist (List.take_sublist _ _)
    refine List.pairwise_map.2 (hsorted.imp_of_mem ?_)
    rintro e e' he he' ⟨hle, hne⟩
    obtain ⟨p, hp, hu, -, heq⟩ := h.entry_pos (mem_due.1 he).1
    obtain ⟨q, hq, hv, -, heq'⟩ := h.entry_pos (mem_due.1 he').1
    refine ⟨p, q, hp, hq, ?_⟩
    -- the order of the packed entries is the order of the pairs
    have hi := h.small _ p hp hu
    have hj := h.small _ q hq hv
    rw [packEntry_eq _ hi] at heq
    rw [packEntry_eq _ hj] at heq'
    omega

end YieldBook

/-! ## Locking -/

theorem getElem?_lockAt (positions : List NFTPosition) (indices : List Nat) (i : Nat) :
    (lockAt positions indices)[i]? = (positions[i]?).map fun pos => if i ∈ indices then pos.locked else pos :=
  List.getElem?_mapIdx

/-- One more position locked. -/
theorem lockAt_set {positions : List NFTPosition} {indices : List Nat} {i : Nat} {pos : NFTPosition}
    (hpos : positions[i]? = some pos) :
    (lockAt positions indices).set i pos.locked = lockAt positions (indices ++ [i]) := by
  refine List.ext_getElem? fun j => ?_
  rw [getElem?_lockAt, List.getElem?_set]
  by_cases hij : i = j
  · have hlt : i < (lockAt positions indices).length := by
      rw [lockAt, List.length_mapIdx]
      exact (List.getElem?_eq_some_iff.1 hpos).1
    rw [if_pos hij, if_pos hlt, ← hij, hpos]
    simp
  · rw [if_neg hij, getElem?_lockAt]
    have hmem : j ∈ indices ++ [i] ↔ j ∈ indices := by
      simp [Ne.symm hij]
    simp only [hmem]

theorem lockAt_nil (positions : List NFTPosition) : lockAt positions [] = positions := by
  refine List.ext_getElem? fun i => ?_
  rw [getElem?_lockAt]
  cases positions[i]? <;> rfl

theorem Cap.inv {now : Nat} {b b' : Book} (h : Cap now b b') :
    ∃ entry pos, b.maturityHeap[0]? = some entry ∧ entryMaturity entry ≤ now ∧
      b.positions[entryIndex entry]? = some pos ∧ b' = b.capped entry pos := by
  cases h with
  | cap entry pos hroot hdue hpos _ => exact ⟨entry, pos, hroot, hdue, hpos, rfl⟩

theorem length_lockAt (positions : List NFTPosition) (indices : List Nat) :
    (lockAt positions indices).length = positions.length :=
  List.length_mapIdx

/-- The weight of position `i`; nothing where there is none. -/
def weightAt (w : NFTPosition → Nat) (positions : List NFTPosition) (i : Nat) : Nat := (positions[i]?).elim 0 w

/-- Locking positions moves a sum by what it moves for each of them. -/
theorem sum_lockAt (w : NFTPosition → Nat) {positions : List NFTPosition} : ∀ {indices : List Nat}, indices.Nodup →
    (∀ i ∈ indices, ∃ pos, positions[i]? = some pos) →
      ((lockAt positions indices).map w).sum + (indices.map (weightAt w positions)).sum =
        (positions.map w).sum + (indices.map (weightAt (fun pos => w pos.locked) positions)).sum := by
  intro indices
  induction indices using List.reverseRecOn with
  | nil =>
    intro _ _
    rw [lockAt_nil]
    rfl
  | append_singleton indices i ih =>
    intro hnodup hin
    obtain ⟨hnodup, -, hdisjoint⟩ := List.nodup_append.1 hnodup
    obtain ⟨pos, hpos⟩ := hin i (List.mem_append_right _ (List.mem_singleton_self i))
    -- the position is locked once, so it still has its old weight when its turn comes
    have hi : i ∉ indices := fun hmem => hdisjoint i hmem i (List.mem_singleton_self i) rfl
    have hold : (lockAt positions indices)[i]? = some pos := by
      rw [getElem?_lockAt, hpos, Option.map_some, if_neg hi]
    have hset := Sums.sum_map_set w pos.locked hold
    have hweight : ∀ v : NFTPosition → Nat, weightAt v positions i = v pos := fun v => by
      rw [weightAt, hpos]
      rfl
    have ih := ih hnodup fun j hj => hin j (List.mem_append_left _ hj)
    rw [lockAt_set hpos] at hset
    rw [List.map_append, List.sum_append, List.map_singleton, List.sum_singleton, hweight, List.map_append,
      List.sum_append, List.map_singleton, List.sum_singleton, hweight]
    omega

namespace Book.DueList

variable {now m : Nat} {b b' : Book} {order order' : List Nat}

/-- Locking the first due positions moves a sum by what it moves for each of them. -/
theorem sum_lockAt (h : b.DueList now order) (w : NFTPosition → Nat) (m : Nat) :
    ((lockAt b.positions (order.take m)).map w).sum + ((order.take m).map (weightAt w b.positions)).sum =
      (b.positions.map w).sum + ((order.take m).map (weightAt (fun pos => w pos.locked) b.positions)).sum := by
  refine MoneyMarket.sum_lockAt w (h.nodup.sublist (List.take_sublist m _)) fun i hi => ?_
  obtain ⟨pos, hpos, -⟩ := (h.mem i).1 (List.mem_of_mem_take hi)
  exact ⟨pos, hpos⟩

/-- The others are due still. -/
theorem left (h : b.DueList now order) (h' : b'.DueList now order')
    (hlock : b'.positions = lockAt b.positions (order.take m)) {i : Nat} (hi : i ∈ order.drop m) : i ∈ order' := by
  have hout : i ∉ order.take m := fun hin => List.disjoint_take_drop h.nodup (le_refl _) hin hi
  obtain ⟨pos, hpos, hdue⟩ := (h.mem i).1 (List.mem_of_mem_drop hi)
  refine (h'.mem i).2 ⟨pos, ?_, hdue⟩
  rw [hlock, getElem?_lockAt, hpos, Option.map_some, if_neg hout]

end Book.DueList

/-- What is due after some are locked was due before. -/
theorem due_lockAt {now : Nat} {positions : List NFTPosition} {indices : List Nat} {pos : NFTPosition}
    (hp : pos ∈ lockAt positions indices) (hdue : pos.Due now) : pos ∈ positions := by
  obtain ⟨i, hi⟩ := List.mem_iff_getElem?.1 hp
  rw [getElem?_lockAt] at hi
  obtain ⟨p, hpos, hlock⟩ := Option.map_eq_some_iff.1 hi
  split_ifs at hlock
  · rw [← hlock] at hdue
    cases hdue.1
  · rw [← hlock]
    exact List.mem_of_getElem? hpos

/-- A run of the capping loop that has locked the positions of the entries `done`. -/
structure Locking (now : Nat) (b : Book) (done : List Nat) (r : MaturityRun) : Prop where
  yield : YieldBook now (r.onto b)
  order : b.dueOrder = done ++ (r.onto b).dueOrder
  count : done.length = r.processed
  due : ∀ entry ∈ done, entryMaturity entry ≤ now
  positions : r.positions = lockAt b.positions (done.map entryIndex)
  added : r.pendingYieldAdded = (done.map b.entryYield).sum

namespace Locking

variable {now maxPositions : Nat} {b : Book} {done : List Nat} {r r' : MaturityRun}

theorem start (h : YieldBook now b) :
    Locking now b [] ⟨b.positions, b.maturityHeap, 0, b.yieldRateSum, b.yieldOffsetSum, 0⟩ :=
  ⟨h, rfl, rfl, fun _ he => absurd he List.not_mem_nil, (lockAt_nil _).symm, rfl⟩

/-- The position of an entry still in the heap is as it was. -/
theorem untouched (h : Locking now b done r) {entry : Nat} (he : entry ∈ r.heap) :
    ∃ pos, r.positions[entryIndex entry]? = some pos ∧ b.positions[entryIndex entry]? = some pos ∧
      pos.yieldCapped = false ∧ pos.maturityTime = entryMaturity entry := by
  obtain ⟨pos, hpos, hu, hm, -⟩ := h.yield.entry_pos he
  have hpos : r.positions[entryIndex entry]? = some pos := hpos
  refine ⟨pos, hpos, ?_, hu, hm⟩
  rw [h.positions, getElem?_lockAt] at hpos
  obtain ⟨p, hp, hlock⟩ := Option.map_eq_some_iff.1 hpos
  -- a locked position is capped, and the heap has entries of uncapped ones alone
  split_ifs at hlock with hin
  · rw [← hlock] at hu
    cases hu
  · rw [hp, hlock]

theorem step (h : Locking now b done r)
    (hp : maturityPass maxPositions now (secondsPerYear * wad) r = .ok (.again r')) :
    ∃ entry, Locking now b (done ++ [entry]) r' := by
  obtain ⟨hcap, hprocessed, -, -⟩ := maturityPass_again b hp
  obtain ⟨entry, pos, hroot, hdue, hpos, hnext⟩ := hcap.inv
  have hroot : r.heap[0]? = some entry := hroot
  obtain ⟨p, hp, hb, hu, hm⟩ := h.untouched (List.mem_of_getElem? hroot)
  obtain rfl : p = pos := Option.some.inj (hp.symm.trans hpos)
  -- the root is the front of the sorted heap, and popping it leaves the rest in order
  have horder : (r.onto b).dueOrder = entry :: (r'.onto b).dueOrder := by
    rw [hnext]
    exact Heap.sorted_pop h.yield.ordered hroot
  refine ⟨entry, h.yield.move (.cap hcap), ?_, ?_, ?_, ?_, ?_⟩
  · rw [h.order, horder, List.append_assoc]
    rfl
  · rw [List.length_append, h.count, hprocessed]
    rfl
  · intro e he
    rcases List.mem_append.1 he with he | he
    · exact h.due e he
    · rw [List.mem_singleton.1 he]
      exact hdue
  · have hset : r'.positions = r.positions.set (entryIndex entry) (p.cap (p.yieldAt (entryMaturity entry))) :=
      congrArg Book.positions hnext
    rw [hset, ← hm, h.positions, List.map_append]
    exact lockAt_set hb
  · have hsum : b.totalPendingYield + r'.pendingYieldAdded =
        b.totalPendingYield + r.pendingYieldAdded + p.yieldAt (entryMaturity entry) :=
      congrArg Book.totalPendingYield hnext
    have hown : b.entryYield entry = p.yieldAt (entryMaturity entry) := by
      rw [Book.entryYield, hb]
      rfl
    rw [List.map_append, List.sum_append, ← h.added, List.map_singleton, List.sum_singleton, hown]
    omega

end Locking

/-! ## A sync -/

section Sync

variable {now n : Nat} {b : Book} {r : MaturityRun}

/-- The first due entries, by their positions. -/
theorem dueList_take (n : Nat) :
    (b.dueList now).take n = (b.dueOrder.take (min n (b.dueCount now))).map entryIndex := by
  rw [Book.dueList, ← List.map_take, List.take_take]

theorem dueList_length : (b.dueList now).length = b.dueCount now := by
  have hle : b.dueCount now ≤ b.dueOrder.length := (List.takeWhile_prefix _).length_le
  rw [Book.dueList, List.length_map, List.length_take, min_eq_left hle]

/-- A sync locks the first due positions, as many as it may, and no other. -/
theorem processMaturities_locks (h : YieldBook now b)
    (hr : processMaturities b.positions b.maturityHeap n now b.yieldRateSum b.yieldOffsetSum
      (secondsPerYear * wad) = .ok r) :
    r.processed = min n (b.dueList now).length ∧ r.positions = lockAt b.positions ((b.dueList now).take n) ∧
      r.pendingYieldAdded = ((b.dueOrder.take (min n (b.dueCount now))).map b.entryYield).sum ∧
        YieldBook now (r.onto b) := by
  obtain ⟨r₁, ⟨done, hrun⟩, hstop⟩ := loop_exits (I := fun r => ∃ done, Locking now b done r) (fun r => r.heap.length)
    (fun r r' ⟨done, hi⟩ hp => by
      obtain ⟨hcap, -⟩ := maturityPass_again b hp
      obtain ⟨entry, hi'⟩ := hi.step hp
      exact ⟨⟨_, hi'⟩, hcap.length_lt⟩)
    ⟨[], .start h⟩ (Nat.lt_succ_self _) hr
  obtain rfl := maturityPass_stop hstop
  obtain ⟨hprocessed, -⟩ := processMaturities_exact h hr
  -- as many entries are done as were processed, and they are the first
  have hdone : done = b.dueOrder.take (min n (b.dueCount now)) := by
    rw [← hprocessed, ← hrun.count, hrun.order, List.take_left]
  rw [dueList_length, dueList_take, ← hdone]
  exact ⟨hprocessed, hrun.positions, hrun.added, hrun.yield⟩

/-- What the products of the capping loop need of the due positions. -/
def Book.RatesFit (now : Nat) (b : Book) : Prop :=
  ∀ pos ∈ b.positions, pos.Due now → pos.rate < uintSize ∧ pos.rate * pos.maturityTime < uintSize

/-- Entries at the front of the order, not more than a sync may cap, lock no more than it does. -/
theorem Locking.fits {done : List Nat} {entry : Nat} (h : Locking now b done r) (hlt : r.processed < n)
    (hroot : r.heap[0]? = some entry) (hdue : entryMaturity entry ≤ now) :
    ((done ++ [entry]).map b.entryYield).sum ≤ ((b.dueOrder.take (min n (b.dueCount now))).map b.entryYield).sum := by
  have horder : (r.onto b).dueOrder = entry :: (Heap.pop r.heap).insertionSort (· ≤ ·) :=
    Heap.sorted_pop h.yield.ordered hroot
  have hfront : b.dueOrder = (done ++ [entry]) ++ (Heap.pop r.heap).insertionSort (· ≤ ·) := by
    rw [h.order, horder, List.append_assoc]
    rfl
  have hall : ∀ e ∈ done ++ [entry], decide (entryMaturity e ≤ now) = true := by
    intro e he
    rw [decide_eq_true_iff]
    rcases List.mem_append.1 he with he | he
    · exact h.due e he
    · rw [List.mem_singleton.1 he]
      exact hdue
  have hcount : (done ++ [entry]).length ≤ b.dueCount now := by
    unfold Book.dueCount
    rw [hfront, List.takeWhile_append_of_pos hall]
    exact (List.prefix_append _ _).length_le
  have hbudget : (done ++ [entry]).length ≤ n := by
    rw [List.length_append, h.count]
    exact hlt
  have hstart : done ++ [entry] <+: b.dueOrder.take (min n (b.dueCount now)) := by
    rw [List.prefix_take_iff]
    exact ⟨by rw [hfront]; exact List.prefix_append _ _, le_min hbudget hcount⟩
  exact (hstart.sublist.map b.entryYield).sum_le_sum fun _ _ => Nat.zero_le _

/-- A pass fails for no other reason than that the yields do not fit. -/
theorem Locking.pass_ok {done : List Nat} (h : Locking now b done r) (hrates : b.RatesFit now)
    (hsum : ((b.dueOrder.take (min n (b.dueCount now))).map b.entryYield).sum < uintSize) :
    ∃ p, maturityPass n now (secondsPerYear * wad) r = .ok p := by
  unfold maturityPass
  by_cases hguard : r.processed < n ∧ 0 < r.heap.length
  · obtain ⟨entry, hroot⟩ : ∃ entry, r.heap[0]? = some entry := ⟨_, List.getElem?_eq_getElem hguard.2⟩
    rw [if_pos hguard]
    by_cases hlater : now < entryMaturity entry
    · refine ⟨.stop r, ?_⟩
      simp only [bind_ok_iff, readAt_ok_iff]
      exact ⟨entry, hroot, by rw [if_pos hlater]; rfl⟩
    · have hdue : entryMaturity entry ≤ now := not_lt.1 hlater
      obtain ⟨pos, hpos, hb, hu, hm⟩ := h.untouched (List.mem_of_getElem? hroot)
      have hmem : pos ∈ r.positions := List.mem_of_getElem? hpos
      obtain ⟨hrate, hterm⟩ := hrates pos (List.mem_of_getElem? hb) ⟨hu, by rw [hm]; exact hdue⟩
      have hstart : pos.yieldStartTime ≤ pos.maturityTime := h.yield.started pos hmem hu pos hmem hu
      -- the aggregates still hold what the pass takes out of them
      have hlive : pos.rate ≤ r.newRateSum := h.yield.rate_le_sum hmem hu
      have hoffset : pos.rate * pos.yieldStartTime ≤ r.newOffsetSum := h.yield.offset_le_sum hmem hu
      have hyield : r.pendingYieldAdded + pos.rate * (pos.maturityTime - pos.yieldStartTime) / yearWad < uintSize := by
        refine lt_of_le_of_lt ?_ hsum
        refine le_trans (le_of_eq ?_) (h.fits hguard.1 hroot hdue)
        rw [List.map_append, List.sum_append, ← h.added, List.map_singleton, List.sum_singleton, Book.entryYield, hb,
          hm]
        rfl
      refine ⟨.again
        { positions := r.positions.set (entryIndex entry)
            (pos.cap (pos.rate * (pos.maturityTime - pos.yieldStartTime) / (secondsPerYear * wad)))
          heap := Heap.pop r.heap, processed := r.processed + 1, newRateSum := r.newRateSum - pos.rate
          newOffsetSum := r.newOffsetSum - pos.rate * pos.yieldStartTime
          pendingYieldAdded :=
            r.pendingYieldAdded + pos.rate * (pos.maturityTime - pos.yieldStartTime) / (secondsPerYear * wad) }, ?_⟩
      simp only [bind_ok_iff, readAt_ok_iff]
      refine ⟨entry, hroot, ?_⟩
      rw [if_neg hlater, ← hm]
      simp only [bind_ok_iff, readAt_ok_iff, checkedMul_ok_iff, checkedSub_ok_iff, checkedDiv_ok_iff, checkedAdd_ok_iff,
        pure_ok_iff]
      refine ⟨pos, hpos, _, ⟨hrate, rfl⟩, _, ⟨hstart, rfl⟩, _, ⟨?_, rfl⟩, _, ⟨by decide, rfl⟩, _, ⟨hlive, rfl⟩, _,
        ⟨?_, rfl⟩, _, ⟨hoffset, rfl⟩, _, ⟨hyield, rfl⟩, rfl⟩
      · exact lt_of_le_of_lt (Nat.mul_le_mul_left _ (Nat.sub_le _ _)) hterm
      · exact lt_of_le_of_lt (Nat.mul_le_mul_left _ hstart) hterm
  · exact ⟨.stop r, if_neg hguard⟩

/-- So a sync of `n` succeeds when the yields of the first `n` due positions fit. -/
theorem processMaturities_succeeds (h : YieldBook now b) (hrates : b.RatesFit now)
    (hsum : ((b.dueOrder.take (min n (b.dueCount now))).map b.entryYield).sum < uintSize) :
    ∃ r, processMaturities b.positions b.maturityHeap n now b.yieldRateSum b.yieldOffsetSum (secondsPerYear * wad) =
      .ok r :=
  loop_total (I := fun r => ∃ done, Locking now b done r) (fun _ ⟨_, hi⟩ => hi.pass_ok hrates hsum)
    (fun _ _ ⟨_, hi⟩ hp => by
      obtain ⟨entry, hi'⟩ := hi.step hp
      exact ⟨_, hi'⟩)
    _ _ ⟨[], .start h⟩

/-- The yield of an entry is the one its position locks. -/
theorem YieldBook.entryYield_eq (h : YieldBook now b) {entry : Nat} (he : entry ∈ b.maturityHeap) :
    b.entryYield entry = b.lockedYield (entryIndex entry) := by
  obtain ⟨pos, hpos, -, hm, -⟩ := h.entry_pos he
  rw [Book.entryYield, Book.lockedYield, hpos, ← hm]
  rfl

theorem YieldBook.sum_dueList (h : YieldBook now b) (n : Nat) :
    ((b.dueOrder.take (min n (b.dueCount now))).map b.entryYield).sum =
      (((b.dueList now).take n).map b.lockedYield).sum := by
  rw [dueList_take, List.map_map]
  refine congrArg List.sum (List.map_congr_left fun entry he => ?_)
  exact h.entryYield_eq (mem_dueOrder.1 (List.mem_of_mem_take he))

end Sync

/-! ## Bounds -/

/-- What the checked products leave bounded: the rate aggregate, and each pending yield before its
division. -/
structure Book.Sized (b : Book) : Prop where
  rate : b.yieldRateSum < uintSize
  pending : ∀ pos ∈ b.positions, pos.pendingYield * yearWad < uintSize

namespace Book.Sized

variable {b : Book}

/-- A position rewritten with no more yield pending. -/
theorem set (h : b.Sized) {i : Nat} {pos pos' : NFTPosition} (hpos : b.positions[i]? = some pos)
    (hle : pos'.pendingYield ≤ pos.pendingYield) {b' : Book} (hrate : b'.yieldRateSum = b.yieldRateSum)
    (hset : b'.positions = b.positions.set i pos') : b'.Sized := by
  refine ⟨by rw [hrate]; exact h.rate, fun p hp => ?_⟩
  rw [hset] at hp
  rcases List.mem_or_eq_of_mem_set hp with hp | rfl
  · exact h.pending p hp
  · exact lt_of_le_of_lt (Nat.mul_le_mul_right _ hle) (h.pending pos (List.mem_of_getElem? hpos))

theorem opened (h : b.Sized) {pool : Address} {tokenId apyWad amount period now : Nat}
    (hrate : b.yieldRateSum + apyWad * amount < uintSize) :
    (b.opened pool tokenId apyWad amount period now).Sized := by
  refine ⟨hrate, fun pos hp => ?_⟩
  rcases List.mem_append.1 hp with hp | hp
  · exact h.pending pos hp
  · rw [List.mem_singleton.1 hp]
    show 0 * yearWad < uintSize
    rw [Nat.zero_mul]
    decide

/-- The product of a yield is checked before the division. -/
theorem pass {now n : Nat} {r r' : MaturityRun}
    (hp : maturityPass n now (secondsPerYear * wad) r = .ok (.again r')) (h : (r.onto b).Sized) :
    (r'.onto b).Sized := by
  unfold maturityPass at hp
  split at hp
  · simp only [bind_ok_iff, readAt_ok_iff] at hp
    obtain ⟨entry, -, hp⟩ := hp
    split at hp
    · cases hp
    · simp only [bind_ok_iff, readAt_ok_iff, checkedMul_ok_iff, checkedSub_ok_iff, checkedDiv_ok_iff, checkedAdd_ok_iff,
        pure_ok_iff, Pass.again.injEq] at hp
      obtain ⟨pos, -, _, -, _, -, accrued, ⟨hfits, rfl⟩, _, ⟨-, rfl⟩, _, ⟨-, rfl⟩, _, -, _, -, _, -, rfl⟩ := hp
      refine ⟨lt_of_le_of_lt (Nat.sub_le _ _) h.rate, fun p hp => ?_⟩
      rcases List.mem_or_eq_of_mem_set hp with hp | rfl
      · exact h.pending p hp
      · exact lt_of_le_of_lt (Nat.div_mul_le_self _ _) hfits
  · cases hp

theorem sync {now n : Nat} {r : MaturityRun} (h : b.Sized)
    (hr : processMaturities b.positions b.maturityHeap n now b.yieldRateSum b.yieldOffsetSum
      (secondsPerYear * wad) = .ok r) : (r.onto b).Sized :=
  loop_invariant (I := fun r : MaturityRun => (r.onto b).Sized)
    (fun _ _ hi hp => by
      rw [maturityPass_stop hp]
      exact hi)
    (fun _ _ hi hp => pass hp hi)
    (s := ⟨b.positions, b.maturityHeap, 0, b.yieldRateSum, b.yieldOffsetSum, 0⟩)
    ⟨h.rate, h.pending⟩ hr

end Book.Sized

end MoneyMarket
