/-
The yield aggregate against per-position accrual. While the block time does not go back, the two
sums are the sums over the uncapped positions, the heap holds exactly their entries, and none of
them starts after any of them matures (`YieldBook`); so the aggregate stopped at the heap root is
the sum of all accruals stopped there (`YieldBook.accrual`).
-/
import MoneyMarket.Book.Moves

namespace MoneyMarket

open Evm Relation

/-! ## Heap entries -/

theorem packEntry_eq (m : Nat) {i : Nat} (hi : i < 2 ^ 128) : packEntry m i = m * 2 ^ 128 + i := by
  unfold packEntry
  rw [← Nat.shiftLeft_add_eq_or_of_lt hi, Nat.shiftLeft_eq]

theorem entryMaturity_pack (m : Nat) {i : Nat} (hi : i < 2 ^ 128) : entryMaturity (packEntry m i) = m := by
  rw [packEntry_eq m hi, entryMaturity, Nat.shiftRight_eq_div_pow]
  omega

theorem entryIndex_pack (m : Nat) {i : Nat} (hi : i < 2 ^ 128) : entryIndex (packEntry m i) = i := by
  rw [packEntry_eq m hi, entryIndex]
  omega

theorem entryMaturity_mono {e e' : Nat} (h : e ≤ e') : entryMaturity e ≤ entryMaturity e' := by
  simp only [entryMaturity, Nat.shiftRight_eq_div_pow]
  exact Nat.div_le_div_right h

/-- The heap entries of the uncapped positions of a list whose first has index `k`. -/
def liveEntries : Nat → List NFTPosition → List Nat
  | _, [] => []
  | k, pos :: ps =>
    if pos.yieldCapped then liveEntries (k + 1) ps else packEntry pos.maturityTime k :: liveEntries (k + 1) ps

theorem liveEntries_append : ∀ (k : Nat) (ps qs : List NFTPosition),
    liveEntries k (ps ++ qs) = liveEntries k ps ++ liveEntries (k + ps.length) qs
  | k, [], qs => by simp [liveEntries]
  | k, pos :: ps, qs => by
    have hk : k + 1 + ps.length = k + (pos :: ps).length := by simp only [List.length_cons]; omega
    simp only [List.cons_append, liveEntries, liveEntries_append (k + 1) ps qs, hk]
    split_ifs <;> rfl

theorem mem_liveEntries {e : Nat} : ∀ {k : Nat} {ps : List NFTPosition},
    e ∈ liveEntries k ps ↔ ∃ i pos, ps[i]? = some pos ∧ pos.yieldCapped = false ∧ e = packEntry pos.maturityTime (k + i)
  | k, [] => by simp [liveEntries]
  | k, pos :: ps => by
    have ih := @mem_liveEntries e (k + 1) ps
    have hshift : ∀ i, k + 1 + i = k + (i + 1) := fun i => by omega
    constructor
    · intro h
      unfold liveEntries at h
      split_ifs at h with hc
      · obtain ⟨i, p, hp, hu, he⟩ := ih.1 h
        exact ⟨i + 1, p, hp, hu, by rw [he, hshift]⟩
      · rcases List.mem_cons.1 h with h | h
        · exact ⟨0, pos, rfl, by simpa using hc, h⟩
        · obtain ⟨i, p, hp, hu, he⟩ := ih.1 h
          exact ⟨i + 1, p, hp, hu, by rw [he, hshift]⟩
    · rintro ⟨i, p, hp, hu, he⟩
      unfold liveEntries
      cases i with
      | zero =>
        obtain rfl : pos = p := Option.some.inj hp
        rw [if_neg (by simp [hu])]
        exact List.mem_cons.2 (.inl he)
      | succ i =>
        have := ih.2 ⟨i, p, hp, hu, by rw [he, hshift]⟩
        split_ifs
        · exact this
        · exact List.mem_cons_of_mem _ this

/-- Rewriting a position with the same maturity and flag keeps the entries. -/
theorem liveEntries_set_same {pos pos' : NFTPosition} (hm : pos'.maturityTime = pos.maturityTime)
    (hc : pos'.yieldCapped = pos.yieldCapped) : ∀ {k i : Nat} {ps : List NFTPosition}, ps[i]? = some pos →
      liveEntries k (ps.set i pos') = liveEntries k ps
  | k, 0, p :: ps, h => by
    obtain rfl : p = pos := Option.some.inj h
    simp only [List.set_cons_zero, liveEntries, hc, hm]
  | k, i + 1, p :: ps, h => by
    simp only [List.set_cons_succ, liveEntries, liveEntries_set_same hm hc (k := k + 1) (show ps[i]? = some pos from h)]

/-- Capping a position removes its entry. -/
theorem liveEntries_set_capped {pos pos' : NFTPosition} (hu : pos.yieldCapped = false) (hc : pos'.yieldCapped = true) :
    ∀ {k i : Nat} {ps : List NFTPosition}, ps[i]? = some pos →
      (packEntry pos.maturityTime (k + i) :: liveEntries k (ps.set i pos')).Perm (liveEntries k ps)
  | k, 0, p :: ps, h => by
    obtain rfl : p = pos := Option.some.inj h
    simp only [List.set_cons_zero, liveEntries, hc, hu, if_true, Nat.add_zero, Bool.false_eq_true, if_false]
    exact .refl _
  | k, i + 1, p :: ps, h => by
    have ih := liveEntries_set_capped hu hc (k := k + 1) (show ps[i]? = some pos from h)
    rw [show k + 1 + i = k + (i + 1) by omega] at ih
    simp only [List.set_cons_succ, liveEntries]
    split_ifs
    · exact ih
    · exact (List.Perm.swap _ _ _).trans (ih.cons _)

/-! ## The invariant -/

/-- What an uncapped position adds to `yieldRateSum` and `yieldOffsetSum`. -/
def NFTPosition.liveRate (pos : NFTPosition) : Nat := if pos.yieldCapped then 0 else pos.rate
def NFTPosition.liveOffset (pos : NFTPosition) : Nat := if pos.yieldCapped then 0 else pos.rate * pos.yieldStartTime

structure YieldBook (now : Nat) (b : Book) : Prop where
  rateSum : b.yieldRateSum = (b.positions.map NFTPosition.liveRate).sum
  offsetSum : b.yieldOffsetSum = (b.positions.map NFTPosition.liveOffset).sum
  entries : b.maturityHeap.Perm (liveEntries 0 b.positions)
  ordered : Heap.Ordered b.maturityHeap
  small : ∀ i pos, b.positions[i]? = some pos → pos.yieldCapped = false → i < 2 ^ 128
  started : ∀ p ∈ b.positions, p.yieldCapped = false → ∀ q ∈ b.positions, q.yieldCapped = false →
    p.yieldStartTime ≤ q.maturityTime
  past : ∀ p ∈ b.positions, p.yieldCapped = false → p.yieldStartTime ≤ now

namespace YieldBook

variable {now : Nat} {b : Book}

/-- A heap entry is the entry of an uncapped position. -/
theorem entry_pos (h : YieldBook now b) {entry : Nat} (he : entry ∈ b.maturityHeap) :
    ∃ pos, b.positions[entryIndex entry]? = some pos ∧ pos.yieldCapped = false ∧
      pos.maturityTime = entryMaturity entry ∧
      entry = packEntry pos.maturityTime (entryIndex entry) := by
  obtain ⟨i, pos, hp, hu, rfl⟩ := mem_liveEntries.1 (h.entries.mem_iff.1 he)
  have hi := h.small i pos hp hu
  rw [Nat.zero_add, entryIndex_pack _ hi, entryMaturity_pack _ hi]
  exact ⟨pos, hp, hu, rfl, rfl⟩

/-- An uncapped position is in the aggregates. -/
theorem rate_le_sum (h : YieldBook now b) {pos : NFTPosition} (hp : pos ∈ b.positions) (hu : pos.yieldCapped = false) :
    pos.rate ≤ b.yieldRateSum := by
  have hle := Sums.le_sum_map NFTPosition.liveRate hp
  rw [h.rateSum]
  simpa [NFTPosition.liveRate, hu] using hle

theorem offset_le_sum (h : YieldBook now b) {pos : NFTPosition} (hp : pos ∈ b.positions)
    (hu : pos.yieldCapped = false) : pos.rate * pos.yieldStartTime ≤ b.yieldOffsetSum := by
  have hle := Sums.le_sum_map NFTPosition.liveOffset hp
  rw [h.offsetSum]
  simpa [NFTPosition.liveOffset, hu] using hle

/-- The root matures first. -/
theorem root_le (h : YieldBook now b) {root : Nat} (hr : b.maturityHeap[0]? = some root) {pos : NFTPosition}
    (hp : pos ∈ b.positions) (hu : pos.yieldCapped = false) : entryMaturity root ≤ pos.maturityTime := by
  obtain ⟨i, hi⟩ := List.mem_iff_getElem?.1 hp
  have hmem : packEntry pos.maturityTime i ∈ b.maturityHeap :=
    h.entries.mem_iff.2 (mem_liveEntries.2 ⟨i, pos, hi, hu, by rw [Nat.zero_add]⟩)
  have := entryMaturity_mono (h.ordered.root_le hr _ hmem)
  rwa [entryMaturity_pack _ (h.small i pos hi hu)] at this

theorem root_mem {root : Nat} (hr : b.maturityHeap[0]? = some root) : root ∈ b.maturityHeap :=
  List.mem_of_getElem? hr

/-! ## The moves -/

theorem opened (h : YieldBook now b) {pool : Address} {tokenId apyWad amount period : Nat}
    (hdue : ∀ root, b.maturityHeap[0]? = some root → now < entryMaturity root) (hsmall : b.positions.length < 2 ^ 128) :
    YieldBook now (b.opened pool tokenId apyWad amount period now) := by
  -- nothing is due, so the new position starts no later than the others mature
  have hlater : ∀ p ∈ b.positions, p.yieldCapped = false → now ≤ p.maturityTime := by
    intro p hp hu
    obtain ⟨i, hi⟩ := List.mem_iff_getElem?.1 hp
    have hmem : packEntry p.maturityTime i ∈ b.maturityHeap :=
      h.entries.mem_iff.2 (mem_liveEntries.2 ⟨i, p, hi, hu, by rw [Nat.zero_add]⟩)
    obtain ⟨root, hroot⟩ : ∃ root, b.maturityHeap[0]? = some root := by
      cases hh : b.maturityHeap with
      | nil => rw [hh] at hmem; exact absurd hmem List.not_mem_nil
      | cons root _ => exact ⟨root, rfl⟩
    exact le_trans (hdue root hroot).le (h.root_le hroot hp hu)
  refine ⟨?_, ?_, ?_, Heap.push_ordered h.ordered _, ?_, ?_, ?_⟩
  · simp [Book.opened, h.rateSum, NFTPosition.liveRate, NFTPosition.rate]
  · simp [Book.opened, h.offsetSum, NFTPosition.liveOffset, NFTPosition.rate]
  · refine (Heap.push_perm _ _).trans ?_
    simp only [Book.opened, liveEntries_append, liveEntries, Nat.zero_add]
    exact ((@List.perm_append_comm _ [_] _).trans (h.entries.append_right _))
  · intro i pos hp hu
    rw [Book.opened, List.getElem?_append] at hp
    split_ifs at hp with hlt
    · exact h.small i pos hp hu
    · have := (List.getElem?_eq_some_iff.1 hp).1
      simp only [List.length_singleton] at this
      omega
  · intro p hp hu q hq hv
    rcases List.mem_append.1 hp with hp | hp <;> rcases List.mem_append.1 hq with hq | hq
    · exact h.started p hp hu q hq hv
    · rw [List.mem_singleton.1 hq]; exact le_trans (h.past p hp hu) (Nat.le_add_right _ _)
    · rw [List.mem_singleton.1 hp]; exact hlater q hq hv
    · rw [List.mem_singleton.1 hp, List.mem_singleton.1 hq]; exact Nat.le_add_right _ _
  · intro p hp hu
    rcases List.mem_append.1 hp with hp | hp
    · exact h.past p hp hu
    · rw [List.mem_singleton.1 hp]

/-- Rewriting a position with the same terms and flag keeps the aggregate. -/
theorem rewrite (h : YieldBook now b) {b' : Book} {i : Nat} {pos pos' : NFTPosition} (hi : b.positions[i]? = some pos)
    (hpos : b'.positions = b.positions.set i pos') (hheap : b'.maturityHeap = b.maturityHeap)
    (hr : b'.yieldRateSum = b.yieldRateSum) (ho : b'.yieldOffsetSum = b.yieldOffsetSum)
    (hrate : pos'.rate = pos.rate) (hstart : pos'.yieldStartTime = pos.yieldStartTime)
    (hm : pos'.maturityTime = pos.maturityTime) (hc : pos'.yieldCapped = pos.yieldCapped) : YieldBook now b' := by
  have hmem : ∀ p ∈ b'.positions, ∃ p₀ ∈ b.positions, p₀.yieldStartTime = p.yieldStartTime ∧
      p₀.maturityTime = p.maturityTime ∧ p₀.yieldCapped = p.yieldCapped := by
    intro p hp
    rw [hpos] at hp
    rcases List.mem_or_eq_of_mem_set hp with hp | rfl
    · exact ⟨p, hp, rfl, rfl, rfl⟩
    · exact ⟨pos, List.mem_of_getElem? hi, hstart.symm, hm.symm, hc.symm⟩
  refine ⟨?_, ?_, ?_, by rw [hheap]; exact h.ordered, ?_, ?_, ?_⟩
  · have := Sums.sum_map_set NFTPosition.liveRate pos' hi
    have hw : pos'.liveRate = pos.liveRate := by simp only [NFTPosition.liveRate, hc, hrate]
    rw [hr, hpos, h.rateSum]; omega
  · have := Sums.sum_map_set NFTPosition.liveOffset pos' hi
    have hw : pos'.liveOffset = pos.liveOffset := by simp only [NFTPosition.liveOffset, hc, hrate, hstart]
    rw [ho, hpos, h.offsetSum]; omega
  · rw [hheap, hpos, liveEntries_set_same hm hc hi]; exact h.entries
  · intro j p hp hu
    rw [hpos] at hp
    by_cases hij : i = j
    · subst hij
      rw [List.getElem?_set_self (List.getElem?_eq_some_iff.1 hi).1] at hp
      obtain rfl := Option.some.inj hp
      exact h.small i pos hi (by rw [← hc]; exact hu)
    · rw [List.getElem?_set_ne hij] at hp
      exact h.small j p hp hu
  · intro p hp hu q hq hv
    obtain ⟨p₀, hp₀, hps, -, hpc⟩ := hmem p hp
    obtain ⟨q₀, hq₀, -, hqm, hqc⟩ := hmem q hq
    rw [← hps, ← hqm]
    exact h.started p₀ hp₀ (hpc.trans hu) q₀ hq₀ (hqc.trans hv)
  · intro p hp hu
    obtain ⟨p₀, hp₀, hps, -, hpc⟩ := hmem p hp
    rw [← hps]; exact h.past p₀ hp₀ (hpc.trans hu)

theorem cap (h : YieldBook now b) {entry : Nat} {pos : NFTPosition} (hroot : b.maturityHeap[0]? = some entry)
    (hpos : b.positions[entryIndex entry]? = some pos) :
    pos.yieldCapped = false ∧ pos.maturityTime = entryMaturity entry ∧ YieldBook now (b.capped entry pos) := by
  obtain ⟨p, hp, hu, hm, he⟩ := h.entry_pos (root_mem hroot)
  obtain rfl : p = pos := Option.some.inj (hp.symm.trans hpos)
  have hold : ∀ q ∈ (b.capped entry p).positions, q.yieldCapped = false → q ∈ b.positions := by
    intro q hq hv
    rcases List.mem_or_eq_of_mem_set hq with hq | rfl
    · exact hq
    · exact absurd hv (by simp [NFTPosition.cap])
  refine ⟨hu, hm, ?_, ?_, ?_, Heap.pop_ordered h.ordered, ?_, ?_, ?_⟩
  · have := Sums.sum_map_set NFTPosition.liveRate (p.cap (p.yieldAt (entryMaturity entry))) hpos
    have h1 : p.liveRate = p.rate := by simp [NFTPosition.liveRate, hu]
    have h2 : (p.cap (p.yieldAt (entryMaturity entry))).liveRate = 0 := by simp [NFTPosition.liveRate, NFTPosition.cap]
    simp only [Book.capped, h.rateSum]; omega
  · have := Sums.sum_map_set NFTPosition.liveOffset (p.cap (p.yieldAt (entryMaturity entry))) hpos
    have h1 : p.liveOffset = p.rate * p.yieldStartTime := by simp [NFTPosition.liveOffset, hu]
    have h2 : (p.cap (p.yieldAt (entryMaturity entry))).liveOffset = 0 := by
      simp [NFTPosition.liveOffset, NFTPosition.cap]
    simp only [Book.capped, h.offsetSum]; omega
  · have h1 := Heap.pop_perm hroot
    have h2 := @liveEntries_set_capped p (p.cap (p.yieldAt (entryMaturity entry))) hu rfl 0 _ _ hpos
    rw [Nat.zero_add, ← he] at h2
    -- the heap loses the root, and the live entries lose the entry of the capped position
    exact List.Perm.cons_inv (h1.trans (h.entries.trans h2.symm))
  · intro i q hq hv
    rw [Book.capped] at hq
    by_cases hi : entryIndex entry = i
    · subst hi
      rw [List.getElem?_set_self (List.getElem?_eq_some_iff.1 hpos).1] at hq
      obtain rfl := Option.some.inj hq
      exact absurd hv (by simp [NFTPosition.cap])
    · rw [List.getElem?_set_ne hi] at hq
      exact h.small i q hq hv
  · exact fun q hq hv r hr hw => h.started q (hold q hq hv) hv r (hold r hr hw) hw
  · exact fun q hq hv => h.past q (hold q hq hv) hv

theorem tick (h : YieldBook now b) {later : Nat} (hle : now ≤ later) : YieldBook later b :=
  ⟨h.rateSum, h.offsetSum, h.entries, h.ordered, h.small, h.started, fun p hp hu => le_trans (h.past p hp hu) hle⟩

/-- Every change of the book keeps the aggregate. -/
theorem move (h : YieldBook now b) {b' : Book} (hm : BookMove now b b') : YieldBook now b' := by
  cases hm with
  | opened pool tokenId apyWad amount period hdue _ hsmall => exact h.opened hdue hsmall
  | cap hc =>
    cases hc with
    | cap entry pos hroot _ hpos _ => exact (h.cap hroot hpos).2.2
  | ask i pos state hi _ => exact h.rewrite hi rfl rfl rfl rfl rfl rfl rfl rfl
  | yieldPaid i pos hi _ => exact h.rewrite hi rfl rfl rfl rfl rfl rfl rfl rfl
  | principalPaid i pos hi _ => exact h.rewrite hi rfl rfl rfl rfl rfl rfl rfl rfl
  | sweep hs =>
    cases hs
    exact ⟨h.rateSum, h.offsetSum, h.entries, h.ordered, h.small, h.started, h.past⟩

end YieldBook

/-! ## Accrual -/

/-- What an uncapped position has accrued at `time`, over `yearWad`. -/
def NFTPosition.accrued (time : Nat) (pos : NFTPosition) : Nat :=
  if pos.yieldCapped then 0 else pos.rate * (time - pos.yieldStartTime)

/-- The accruals of all uncapped positions stopped at `time`. -/
def Book.accrued (b : Book) (time : Nat) : Nat := (b.positions.map (NFTPosition.accrued time)).sum

/-- The accruals of all uncapped positions, each stopped at its own maturity. -/
def Book.accruedOwn (b : Book) (now : Nat) : Nat :=
  (b.positions.map fun pos => pos.accrued (min now pos.maturityTime)).sum

/-- Where the aggregate stops: at the heap root once it is overdue. -/
def Book.stop (b : Book) (now : Nat) : Nat :=
  match b.maturityHeap.head? with
  | some root => if entryMaturity root < now then entryMaturity root else now
  | none => now

theorem accrualTime_eq (s : State) : accrualTime s = s.toBook.stop s.now := rfl

theorem Book.stop_le_now (b : Book) (now : Nat) : b.stop now ≤ now := by
  unfold Book.stop
  split
  · split_ifs <;> omega
  · exact le_refl _

theorem Book.stop_le_root {b : Book} {root : Nat} (h : b.maturityHeap[0]? = some root) (now : Nat) :
    b.stop now ≤ entryMaturity root := by
  unfold Book.stop
  rw [List.head?_eq_getElem?, h]
  dsimp only
  split_ifs <;> omega

/-- Before the root is overdue the aggregate runs to the present. -/
theorem Book.stop_eq_now {b : Book} {now : Nat}
    (h : ∀ root, b.maturityHeap[0]? = some root → now ≤ entryMaturity root) :
    b.stop now = now := by
  unfold Book.stop
  split
  · rename_i root hroot
    rw [List.head?_eq_getElem?] at hroot
    rw [if_neg (not_lt.2 (h root hroot))]
  · rfl

namespace YieldBook

variable {now : Nat} {b : Book}

theorem stop_le_maturity (h : YieldBook now b) {pos : NFTPosition} (hp : pos ∈ b.positions)
    (hu : pos.yieldCapped = false) : b.stop now ≤ pos.maturityTime := by
  obtain ⟨i, hi⟩ := List.mem_iff_getElem?.1 hp
  have hmem : packEntry pos.maturityTime i ∈ b.maturityHeap :=
    h.entries.mem_iff.2 (mem_liveEntries.2 ⟨i, pos, hi, hu, by rw [Nat.zero_add]⟩)
  cases hh : b.maturityHeap with
  | nil => rw [hh] at hmem; exact absurd hmem List.not_mem_nil
  | cons root rest =>
    have hroot : b.maturityHeap[0]? = some root := by rw [hh]; rfl
    exact le_trans (Book.stop_le_root hroot now) (h.root_le hroot hp hu)

/-- No uncapped position starts after the aggregate stops. -/
theorem start_le_stop (h : YieldBook now b) {pos : NFTPosition} (hp : pos ∈ b.positions)
    (hu : pos.yieldCapped = false) : pos.yieldStartTime ≤ b.stop now := by
  unfold Book.stop
  split
  · rename_i root hroot
    obtain ⟨p, hpos, hpu, hm, -⟩ := h.entry_pos (List.mem_of_mem_head? hroot)
    split_ifs
    · rw [← hm]; exact h.started pos hp hu p (List.mem_of_getElem? hpos) hpu
    · exact h.past pos hp hu
  · exact h.past pos hp hu

/-- The stop is the least of the present and the uncapped maturities. -/
theorem stop_isLeast (h : YieldBook now b) :
    IsLeast (insert now {m | ∃ pos ∈ b.positions, pos.yieldCapped = false ∧ pos.maturityTime = m}) (b.stop now) := by
  constructor
  · unfold Book.stop
    split
    · rename_i root hroot
      obtain ⟨p, hpos, hpu, hm, -⟩ := h.entry_pos (List.mem_of_mem_head? hroot)
      split_ifs
      · exact Set.mem_insert_of_mem _ ⟨p, List.mem_of_getElem? hpos, hpu, hm⟩
      · exact Set.mem_insert _ _
    · exact Set.mem_insert _ _
  · rintro m (rfl | ⟨pos, hp, hu, rfl⟩)
    · exact b.stop_le_now m
    · exact h.stop_le_maturity hp hu

end YieldBook

/-- Sums of rates and offsets are a sum of accruals, when nothing starts after `time`. -/
theorem sum_accrued (time : Nat) : ∀ {ps : List NFTPosition},
    (∀ pos ∈ ps, pos.yieldCapped = false → pos.yieldStartTime ≤ time) →
      time * (ps.map NFTPosition.liveRate).sum =
        (ps.map NFTPosition.liveOffset).sum + (ps.map (NFTPosition.accrued time)).sum
  | [], _ => by simp
  | pos :: ps, h => by
    have ih := sum_accrued time fun p hp => h p (List.mem_cons_of_mem _ hp)
    have hpos : time * pos.liveRate = pos.liveOffset + pos.accrued time := by
      unfold NFTPosition.liveRate NFTPosition.liveOffset NFTPosition.accrued
      split_ifs with hc
      · rfl
      · have hle := h pos (List.mem_cons_self ..) (by simpa using hc)
        rw [← Nat.mul_add, Nat.add_sub_cancel' hle, Nat.mul_comm]
    simp only [List.map_cons, List.sum_cons, Nat.mul_add, ih, hpos]
    omega

/-- The aggregate is the sum of the accruals stopped at the root. -/
theorem YieldBook.accrual {now : Nat} {b : Book} (h : YieldBook now b) :
    b.stop now * b.yieldRateSum = b.yieldOffsetSum + b.accrued (b.stop now) := by
  rw [h.rateSum, h.offsetSum]
  exact sum_accrued _ fun pos hp hu => h.start_le_stop hp hu

/-- The view of the accrued yield is the floor of the sum, unless the product overflows. -/
theorem accruedYield_eq {s : State} (h : YieldBook s.now s.toBook) :
    accruedYield s = if s.toBook.stop s.now * s.yieldRateSum < uintSize then
      .ok (s.toBook.accrued (s.toBook.stop s.now) / yearWad) else .error (.panic .arithmetic) := by
  have hsum := h.accrual
  have hD : secondsPerYear * wad = yearWad := rfl
  unfold accruedYield
  rw [accrualTime_eq, checkedMul, hD]
  by_cases hR : 0 < s.yieldRateSum
  · rw [if_pos hR]
    by_cases hfit : s.toBook.stop s.now * s.yieldRateSum < uintSize
    · rw [if_pos hfit, if_pos hfit]
      show (if _ then _ else _) = _
      split_ifs with hgross
      · rw [hsum, Nat.add_sub_cancel_left, checkedDiv, if_neg (by decide)]
      · have : s.toBook.accrued (s.toBook.stop s.now) = 0 := by omega
        rw [this, Nat.zero_div]; rfl
    · rw [if_neg hfit, if_neg hfit]; rfl
  · have hR0 : s.yieldRateSum = 0 := by omega
    rw [hR0, Nat.mul_zero] at hsum
    have : s.toBook.accrued (s.toBook.stop s.now) = 0 := by omega
    rw [if_neg hR, hR0, Nat.mul_zero, if_pos (by decide), this, Nat.zero_div]; rfl

/-- Accrual does not decrease with time. -/
theorem NFTPosition.accrued_mono {t t' : Nat} (h : t ≤ t') (pos : NFTPosition) : pos.accrued t ≤ pos.accrued t' := by
  unfold NFTPosition.accrued
  split_ifs
  · exact le_refl _
  · exact Nat.mul_le_mul_left _ (Nat.sub_le_sub_right h _)

theorem Book.accrued_mono (b : Book) {t t' : Nat} (h : t ≤ t') : b.accrued t ≤ b.accrued t' :=
  List.sum_le_sum fun pos _ => pos.accrued_mono h

/-- Stopping at the root never counts more than stopping each position at its own maturity. -/
theorem YieldBook.accrued_le_own {now : Nat} {b : Book} (h : YieldBook now b) :
    b.accrued (b.stop now) ≤ b.accruedOwn now := by
  apply List.sum_le_sum
  intro pos hp
  by_cases hu : pos.yieldCapped = false
  · exact pos.accrued_mono (le_min (b.stop_le_now now) (h.stop_le_maturity hp hu))
  · simp [NFTPosition.accrued, hu]

/-- It counts the same when no uncapped maturity is in the past. -/
theorem YieldBook.accrued_eq_own {now : Nat} {b : Book} (h : YieldBook now b)
    (hdue : ∀ pos ∈ b.positions, pos.yieldCapped = false → now ≤ pos.maturityTime) :
    b.accrued (b.stop now) = b.accruedOwn now := by
  have hstop : b.stop now = now := by
    apply Book.stop_eq_now
    intro root hroot
    obtain ⟨p, hp, hu, hm, -⟩ := h.entry_pos (root_mem hroot)
    rw [← hm]; exact hdue p (List.mem_of_getElem? hp) hu
  rw [hstop]
  unfold Book.accrued Book.accruedOwn
  congr 1
  apply List.map_congr_left
  intro pos hp
  by_cases hu : pos.yieldCapped = false
  · rw [min_eq_left (hdue pos hp hu)]
  · simp [NFTPosition.accrued, hu]

end MoneyMarket
