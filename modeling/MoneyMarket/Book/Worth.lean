/-
What the positions are worth to the vault: the invested principal, the accrual of the uncapped
positions floored as one sum, and the capped yield still pending. Opening a position adds its
principal, a payout takes what was recorded for it, and a cap loses at most one unit, its yield
being floored alone from then on.
-/
import MoneyMarket.Book.Lifecycle

namespace MoneyMarket

open Evm Relation

namespace Book

def worth (now : Nat) (b : Book) : Nat :=
  b.totalInvestedPrincipal + b.accrued (b.stop now) / yearWad + b.totalPendingYield

/-- The positions capped so far. -/
def cappedCount (b : Book) : Nat := b.positions.countP NFTPosition.yieldCapped

theorem countP_set {p : NFTPosition → Bool} {x y : NFTPosition} : ∀ {l : List NFTPosition} {i : Nat}, l[i]? = some x →
    (l.set i y).countP p + (if p x then 1 else 0) = l.countP p + (if p y then 1 else 0)
  | a :: l, 0, h => by
    obtain rfl : a = x := Option.some.inj h
    simp only [List.set_cons_zero, List.countP_cons]
    omega
  | a :: l, i + 1, h => by
    have := countP_set (p := p) (y := y) (show l[i]? = some x from h)
    simp only [List.set_cons_succ, List.countP_cons]
    omega

/-- Rewriting a position with the same terms and flag keeps the accrual. -/
theorem accrued_rewrite {b : Book} (b' : Book) {i : Nat} {pos pos' : NFTPosition} (hi : b.positions[i]? = some pos)
    (hpos : b'.positions = b.positions.set i pos') (hrate : pos'.rate = pos.rate)
    (hstart : pos'.yieldStartTime = pos.yieldStartTime) (hc : pos'.yieldCapped = pos.yieldCapped) (time : Nat) :
    b'.accrued time = b.accrued time ∧ b'.cappedCount = b.cappedCount := by
  have hsum := Sums.sum_map_set (NFTPosition.accrued time) pos' hi
  have hsame : pos'.accrued time = pos.accrued time := by
    unfold NFTPosition.accrued
    rw [hc, hrate, hstart]
  have hcount := countP_set (p := NFTPosition.yieldCapped) (y := pos') hi
  unfold Book.accrued Book.cappedCount
  rw [hpos]
  rw [hc] at hcount
  omega

theorem stop_congr {b b' : Book} (h : b'.maturityHeap = b.maturityHeap) (now : Nat) : b'.stop now = b.stop now := by
  unfold Book.stop; rw [h]

/-- The accrual of a position rewritten in a book that keeps its heap. -/
theorem worth_rewrite {b : Book} (b' : Book) {i : Nat} {pos pos' : NFTPosition} (hi : b.positions[i]? = some pos)
    (hpos : b'.positions = b.positions.set i pos') (hheap : b'.maturityHeap = b.maturityHeap)
    (hrate : pos'.rate = pos.rate)
    (hstart : pos'.yieldStartTime = pos.yieldStartTime) (hc : pos'.yieldCapped = pos.yieldCapped) (now : Nat) :
    b'.accrued (b'.stop now) = b.accrued (b.stop now) := by
  rw [stop_congr hheap]
  exact (accrued_rewrite b' hi hpos hrate hstart hc _).1

/-- A transition that pays nothing. -/
theorem worth_ask {b : Book} {i : Nat} {pos : NFTPosition} (hi : b.positions[i]? = some pos)
    (state : NFTState) (now : Nat) :
    (b.setPosition i { pos with state }).worth now = b.worth now ∧
      (b.setPosition i { pos with state }).cappedCount = b.cappedCount := by
  constructor
  · unfold Book.worth
    rw [Book.worth_rewrite (b.setPosition i { pos with state }) hi rfl rfl rfl rfl rfl now]
    rfl
  · exact (Book.accrued_rewrite (b.setPosition i { pos with state }) hi rfl rfl rfl rfl now).2

end Book

theorem Cap.length_lt {now : Nat} {b b' : Book} (h : Cap now b b') :
    b'.maturityHeap.length < b.maturityHeap.length := by
  cases h with
  | cap entry pos hroot _ _ _ =>
    have := (Heap.pop_perm hroot).length_eq
    rw [List.length_cons] at this
    show (Heap.pop b.maturityHeap).length < _
    omega

namespace YieldBook

variable {now later : Nat} {b : Book}

theorem le_stop (h : YieldBook later b) {time : Nat} (hle : time ≤ later)
    (hm : ∀ pos ∈ b.positions, pos.yieldCapped = false → time ≤ pos.maturityTime) : time ≤ b.stop later := by
  rcases h.stop_isLeast.1 with hstop | ⟨pos, hp, hu, hstop⟩
  · rw [hstop]; exact hle
  · rw [← hstop]; exact hm pos hp hu

/-- A position opened while none is due adds its principal. -/
theorem worth_opened (h : YieldBook now b) (hdue : ∀ root, b.maturityHeap[0]? = some root → now < entryMaturity root)
    (hsmall : b.positions.length < 2 ^ 128) (pool : Address) (tokenId apyWad amount period : Nat) :
    (b.opened pool tokenId apyWad amount period now).worth now = b.worth now + amount ∧
      (b.opened pool tokenId apyWad amount period now).cappedCount = b.cappedCount := by
  have hstop : b.stop now = now := Book.stop_eq_now fun root hroot => (hdue root hroot).le
  have hstop' : (b.opened pool tokenId apyWad amount period now).stop now = now := by
    refine le_antisymm (Book.stop_le_now _ _) ((h.opened hdue hsmall).le_stop (le_refl _) fun pos hp hu => ?_)
    rcases List.mem_append.1 hp with hp | hp
    · rw [← hstop]; exact h.stop_le_maturity hp hu
    · rw [List.mem_singleton.1 hp]; exact Nat.le_add_right _ _
  have haccrued : (b.opened pool tokenId apyWad amount period now).accrued now = b.accrued now := by
    simp [Book.accrued, Book.opened, NFTPosition.accrued]
  constructor
  · unfold Book.worth
    rw [hstop, hstop', haccrued]
    show b.totalInvestedPrincipal + amount + _ + b.totalPendingYield = _
    omega
  · simp [Book.cappedCount, Book.opened]

/-- A cap loses at most one unit. -/
theorem worth_cap (h : YieldBook now b) {b' : Book} (hc : Cap now b b') :
    b.worth now ≤ b'.worth now + 1 ∧ b'.cappedCount = b.cappedCount + 1 := by
  cases hc with
  | cap entry pos hroot hdue hpos hstart =>
    obtain ⟨hu, hm, h'⟩ := h.cap hroot hpos
    have hcount := Book.countP_set (p := NFTPosition.yieldCapped)
      (y := pos.cap (pos.yieldAt (entryMaturity entry))) hpos
    have hstop : b.stop now = entryMaturity entry := by
      refine le_antisymm (Book.stop_le_root hroot now) (h.le_stop hdue fun p hp hpu => h.root_le hroot hp hpu)
    -- the others accrue at least as long as before
    have hlater : entryMaturity entry ≤ (b.capped entry pos).stop now := by
      apply h'.le_stop hdue
      intro p hp hpu
      rcases List.mem_or_eq_of_mem_set hp with hp | rfl
      · exact h.root_le hroot hp hpu
      · exact absurd hpu (by simp [NFTPosition.cap])
    have hsum := Sums.sum_map_set (NFTPosition.accrued (entryMaturity entry))
      (pos.cap (pos.yieldAt (entryMaturity entry))) hpos
    have h0 : (pos.cap (pos.yieldAt (entryMaturity entry))).accrued (entryMaturity entry) = 0 := by
      simp [NFTPosition.accrued, NFTPosition.cap]
    have hown : pos.accrued (entryMaturity entry) = pos.rate * (entryMaturity entry - pos.yieldStartTime) := by
      simp [NFTPosition.accrued, hu]
    have hsplit : b.accrued (entryMaturity entry) =
        (b.capped entry pos).accrued (entryMaturity entry) + pos.rate * (entryMaturity entry - pos.yieldStartTime) := by
      rw [← hown]
      unfold Book.accrued
      show _ = (List.map _ (b.positions.set _ _)).sum + _
      omega
    have hmono : (b.capped entry pos).accrued (entryMaturity entry) / yearWad ≤
        (b.capped entry pos).accrued ((b.capped entry pos).stop now) / yearWad :=
      Nat.div_le_div_right ((b.capped entry pos).accrued_mono hlater)
    have hfloor := Nat.add_div_le_div_add_div_add_one ((b.capped entry pos).accrued (entryMaturity entry))
      (pos.rate * (entryMaturity entry - pos.yieldStartTime)) yearWad
    constructor
    · unfold Book.worth
      rw [hstop, hsplit]
      show _ ≤ b.totalInvestedPrincipal + _ +
        (b.totalPendingYield + pos.rate * (entryMaturity entry - pos.yieldStartTime) / yearWad) + 1
      omega
    · rw [hu] at hcount
      have h1 : (pos.cap (pos.yieldAt (entryMaturity entry))).yieldCapped = true := rfl
      rw [h1, if_neg (by decide), if_pos rfl] at hcount
      exact hcount

/-- Time alone does not lower it. -/
theorem worth_tick (h : YieldBook now b) (hle : now ≤ later) : b.worth now ≤ b.worth later := by
  have hstop : b.stop now ≤ b.stop later :=
    (h.tick hle).le_stop (le_trans (b.stop_le_now now) hle) fun pos hp hu => h.stop_le_maturity hp hu
  have : b.accrued (b.stop now) / yearWad ≤ b.accrued (b.stop later) / yearWad :=
    Nat.div_le_div_right (b.accrued_mono hstop)
  unfold Book.worth
  omega

end YieldBook

namespace Lifecycle

variable {now : Nat} {b : Book} {i : Nat} {pos : NFTPosition}

/-- A yield payout takes what was pending. -/
theorem worth_yieldPaid (h : Lifecycle now b) (hi : b.positions[i]? = some pos) :
    (b.yieldPaid i pos).worth now + pos.pendingYield = b.worth now ∧
    (b.yieldPaid i pos).cappedCount = b.cappedCount := by
  have hle : pos.pendingYield ≤ b.totalPendingYield := by
    rw [h.pending]; exact Sums.le_sum_map _ (List.mem_of_getElem? hi)
  constructor
  · unfold Book.worth
    rw [Book.worth_rewrite (b.yieldPaid i pos) hi rfl rfl rfl rfl rfl now]
    show b.totalInvestedPrincipal + _ + (b.totalPendingYield - pos.pendingYield) + _ = _
    omega
  · exact (Book.accrued_rewrite (b.yieldPaid i pos) hi rfl rfl rfl rfl now).2

/-- A principal payout takes the principal. -/
theorem worth_principalPaid (h : Lifecycle now b) (hi : b.positions[i]? = some pos)
    (hstate : pos.state = .principalWithdrawalRequested) :
    (b.principalPaid i pos).worth now + pos.principal = b.worth now ∧
    (b.principalPaid i pos).cappedCount = b.cappedCount := by
  have hopen : pos.openPrincipal = pos.principal := if_neg (by rw [hstate]; decide)
  have hle : pos.principal ≤ b.totalInvestedPrincipal := by
    rw [h.invested, ← hopen]; exact Sums.le_sum_map _ (List.mem_of_getElem? hi)
  constructor
  · unfold Book.worth
    rw [Book.worth_rewrite (b.principalPaid i pos) hi rfl rfl rfl rfl rfl now]
    show b.totalInvestedPrincipal - pos.principal + _ + b.totalPendingYield + _ = _
    omega
  · exact (Book.accrued_rewrite (b.principalPaid i pos) hi rfl rfl rfl rfl now).2

end Lifecycle

end MoneyMarket
