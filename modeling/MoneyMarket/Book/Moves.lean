/-
The book of positions as a machine of its own: opening a position, capping the one at the root of
the maturity heap, the lifecycle transitions and the sweep of redeemed positions, one change at a
time. A sync is a sequence of caps (`processMaturities_caps`).
-/
import Mathlib.Logic.Relation
import MoneyMarket.Vault.Accounting

namespace MoneyMarket

open Evm Relation

/-- The denominator of accrual: rates are in wad and per year. -/
def yearWad : Nat := secondsPerYear * wad

/-- What a position accrues per second, over `yearWad`. -/
def NFTPosition.rate (pos : NFTPosition) : Nat := pos.apyWad * pos.principal

/-- The yield of a position stopped at `time`. -/
def NFTPosition.yieldAt (pos : NFTPosition) (time : Nat) : Nat := pos.rate * (time - pos.yieldStartTime) / yearWad

namespace Book

variable (b : Book)

/-! ## The changes -/

def setPosition (i : Nat) (pos : NFTPosition) : Book := { b with positions := b.positions.set i pos }

/-- A position of the given terms at the end of the book. -/
def opened (pool : Address) (tokenId apyWad amount period now : Nat) : Book :=
  { b with
    positions := b.positions ++
      [{ tokenId, principal := amount, apyWad, depositTime := now, maturityTime := now + period,
         yieldStartTime := now, state := .active, yieldCapped := false, pendingYield := 0 }]
    positionPool := Function.update b.positionPool b.positions.length pool
    maturityHeap := Heap.push b.maturityHeap (packEntry (now + period) b.positions.length)
    totalInvestedPrincipal := b.totalInvestedPrincipal + amount
    yieldRateSum := b.yieldRateSum + apyWad * amount
    yieldOffsetSum := b.yieldOffsetSum + apyWad * amount * now }

/-- The position of a heap entry capped, and the entry removed from the root. -/
def capped (entry : Nat) (pos : NFTPosition) : Book :=
  { b with
    positions := b.positions.set (entryIndex entry) (pos.cap (pos.yieldAt (entryMaturity entry)))
    maturityHeap := Heap.pop b.maturityHeap
    yieldRateSum := b.yieldRateSum - pos.rate
    yieldOffsetSum := b.yieldOffsetSum - pos.rate * pos.yieldStartTime
    totalPendingYield := b.totalPendingYield + pos.yieldAt (entryMaturity entry) }

/-- The pending yield of a position released. -/
def yieldPaid (i : Nat) (pos : NFTPosition) : Book :=
  { b with
    positions := b.positions.set i { pos with pendingYield := 0, state := .yieldClaimed }
    totalPendingYield := b.totalPendingYield - pos.pendingYield }

/-- The principal of a position released. -/
def principalPaid (i : Nat) (pos : NFTPosition) : Book :=
  { b with
    positions := b.positions.set i { pos with state := .redeemed }
    totalInvestedPrincipal := b.totalInvestedPrincipal - pos.principal }

end Book

/-- The due position at the heap root is capped. -/
inductive Cap (now : Nat) : Book → Book → Prop
  | cap {b : Book} (entry : Nat) (pos : NFTPosition) : b.maturityHeap[0]? = some entry → entryMaturity entry ≤ now →
      b.positions[entryIndex entry]? = some pos → pos.yieldStartTime ≤ entryMaturity entry →
      Cap now b (b.capped entry pos)

/-- The redeemed position at the head is passed. -/
inductive Sweep : Book → Book → Prop
  | sweep {b : Book} (pos : NFTPosition) : b.positions[b.positionHead]? = some pos → pos.state = .redeemed →
      Sweep b { b with positionHead := b.positionHead + 1 }

/-- The transitions of a position that pay nothing. -/
inductive Asks (now : Nat) (pos : NFTPosition) : NFTState → Prop
  | skipYield : pos.state = .active → pos.maturityTime ≤ now → pos.yieldCapped = true → pos.pendingYield = 0 →
      Asks now pos .yieldClaimed
  | requestYield : pos.state = .active → pos.maturityTime ≤ now → pos.yieldCapped = true → pos.pendingYield ≠ 0 →
      Asks now pos .yieldWithdrawalRequested
  | requestPrincipal : pos.state = .yieldClaimed → Asks now pos .principalWithdrawalRequested

/-- One change of the book at the time `now`. -/
inductive BookMove (now : Nat) : Book → Book → Prop
  | opened {b : Book} (pool : Address) (tokenId apyWad amount period : Nat) :
      (∀ root, b.maturityHeap[0]? = some root → now < entryMaturity root) → now + period < 2 ^ 128 →
      b.positions.length < 2 ^ 128 → BookMove now b (b.opened pool tokenId apyWad amount period now)
  | cap {b b' : Book} : Cap now b b' → BookMove now b b'
  | ask {b : Book} (i : Nat) (pos : NFTPosition) (state : NFTState) : b.positions[i]? = some pos →
      Asks now pos state → BookMove now b (b.setPosition i { pos with state })
  | yieldPaid {b : Book} (i : Nat) (pos : NFTPosition) : b.positions[i]? = some pos →
      pos.state = .yieldWithdrawalRequested → BookMove now b (b.yieldPaid i pos)
  | principalPaid {b : Book} (i : Nat) (pos : NFTPosition) : b.positions[i]? = some pos →
      pos.state = .principalWithdrawalRequested → BookMove now b (b.principalPaid i pos)
  | sweep {b b' : Book} : Sweep b b' → BookMove now b b'

/-! ## Opening -/

/-- The sums, the maturity and the index of a position to open fit their words. -/
structure Book.OpeningFits (b : Book) (apyWad amount period now : Nat) : Prop where
  invested : b.totalInvestedPrincipal + amount < uintSize
  rate : b.yieldRateSum + apyWad * amount < uintSize
  offset : b.yieldOffsetSum + apyWad * amount * now < uintSize
  maturity : now + period < 2 ^ 128
  index : b.positions.length < 2 ^ 128

/-- A position is recorded exactly where it fits. -/
theorem recordPosition_ok_iff {b b' : Book} {pool : Address} {tokenId apyWad amount period now : Nat} :
    recordPosition b pool tokenId apyWad amount period now = .ok b' ↔
      b.OpeningFits apyWad amount period now ∧ b.opened pool tokenId apyWad amount period now = b' := by
  simp only [recordPosition, addToBucket, pushMaturity, bind_ok_iff, checkedAdd_ok_iff, checkedMul_ok_iff,
    readAt_ok_iff, require_ok_iff, pure_ok_iff]
  constructor
  · rintro ⟨_, ⟨-, rfl⟩, _, ⟨hinvested, rfl⟩, _, ⟨-, rfl⟩, _, ⟨hrate, rfl⟩, _, ⟨-, rfl⟩, _, ⟨hoffset, rfl⟩, pos, hpos,
      heap, ⟨_, hm, _, hi, hheap⟩, rfl⟩
    simp only [List.getElem?_concat_length, Option.some.injEq] at hpos
    subst hpos
    simp only at hm
    refine ⟨⟨hinvested, hrate, hoffset, by omega, by omega⟩, ?_⟩
    rw [← hheap]
    rfl
  · rintro ⟨⟨hinvested, hrate, hoffset, hmaturity, hindex⟩, rfl⟩
    have hword : 2 ^ 128 ≤ uintSize := by decide
    refine ⟨_, ⟨by omega, rfl⟩, _, ⟨hinvested, rfl⟩, _, ⟨by omega, rfl⟩, _, ⟨hrate, rfl⟩, _, ⟨by omega, rfl⟩, _,
      ⟨hoffset, rfl⟩, _, List.getElem?_concat_length, _, ⟨(), ?_, (), by omega, rfl⟩, rfl⟩
    show now + period ≤ 2 ^ 128 - 1
    omega

/-! ## Capping -/

/-- The book as a capping run that started from `b` has it. -/
def MaturityRun.onto (r : MaturityRun) (b : Book) : Book :=
  { b with
    positions := r.positions
    maturityHeap := r.heap
    yieldRateSum := r.newRateSum
    yieldOffsetSum := r.newOffsetSum
    totalPendingYield := b.totalPendingYield + r.pendingYieldAdded }

theorem maturityPass_stop {maxPositions now : Nat} {r r' : MaturityRun}
    (h : maturityPass maxPositions now (secondsPerYear * wad) r = .ok (.stop r')) : r' = r := by
  unfold maturityPass at h
  split at h
  · simp only [bind_ok_iff] at h
    obtain ⟨entry, -, h⟩ := h
    split at h
    · cases h; rfl
    · simp only [bind_ok_iff, pure_ok_iff, reduceCtorEq, and_false, exists_false] at h
  · cases h; rfl

/-- A pass that goes on caps the due position at the root. -/
theorem maturityPass_again {maxPositions now : Nat} {r r' : MaturityRun} (b : Book)
    (h : maturityPass maxPositions now (secondsPerYear * wad) r = .ok (.again r')) :
    Cap now (r.onto b) (r'.onto b) ∧ r'.processed = r.processed + 1 ∧ r.processed < maxPositions ∧
      r'.heap = Heap.pop r.heap := by
  unfold maturityPass at h
  split at h
  · rename_i hguard
    simp only [bind_ok_iff, readAt_ok_iff] at h
    obtain ⟨entry, hroot, h⟩ := h
    split at h
    · cases h
    · rename_i hdue
      simp only [bind_ok_iff, readAt_ok_iff, checkedMul_ok_iff, checkedSub_ok_iff, checkedDiv_ok_iff, checkedAdd_ok_iff,
        pure_ok_iff, Pass.again.injEq] at h
      obtain ⟨pos, hpos, _, ⟨-, rfl⟩, _, ⟨hstart, rfl⟩, _, ⟨-, rfl⟩, _, ⟨-, rfl⟩, _, ⟨-, rfl⟩, _, ⟨-, rfl⟩, _, ⟨-, rfl⟩,
        _, ⟨-, rfl⟩, rfl⟩ := h
      refine ⟨?_, rfl, hguard.1, rfl⟩
      convert Cap.cap (b := r.onto b) entry pos hroot (not_lt.1 hdue) hpos hstart using 1
      simp [MaturityRun.onto, Book.capped, NFTPosition.yieldAt, NFTPosition.rate, yearWad, add_assoc]
  · cases h

/-- A sync is a sequence of caps. -/
theorem processMaturities_caps {b : Book} {maxPositions now : Nat} {r : MaturityRun}
    (h : processMaturities b.positions b.maturityHeap maxPositions now b.yieldRateSum b.yieldOffsetSum
      (secondsPerYear * wad) = .ok r) : ReflTransGen (Cap now) b (r.onto b) :=
  loop_invariant (I := fun r : MaturityRun => ReflTransGen (Cap now) b (r.onto b))
    (fun r r' hi hp => by rw [maturityPass_stop hp]; exact hi)
    (fun r r' hi hp => hi.tail (maturityPass_again b hp).1)
    .refl h

/-! ## The sweep -/

/-- Advancing the head is passing redeemed positions. -/
theorem advancePositionHead_sweeps : ∀ (n : Nat) (b : Book),
    ReflTransGen Sweep b { b with positionHead := advancePositionHead b.positions n b.positionHead }
  | 0, b => .refl
  | n + 1, b => by
    unfold advancePositionHead
    split
    · rename_i pos hpos
      split_ifs with hstate
      · exact .head (.sweep pos hpos hstate)
          (advancePositionHead_sweeps n { b with positionHead := b.positionHead + 1 })
      · exact .refl
    · exact .refl

end MoneyMarket
