/-
The maturity heap as the storage array the contract writes slot by slot. Both loops move a hole:
a pass overwrites the hole with the entry that passes it, and the entry being placed is written
only after the loop. They leave what `Heap.push` and `Heap.pop` give (`Storage.pushMaturity_eq`,
`Storage.popMaturity_eq`), so the array is ordered again and changed by one entry
(`maturity_heap`).

Slots are numbers without a bound, for the vault's heap is too short for the child of a slot to
overflow (`YieldBook.child_fits`).
-/
import MoneyMarket.Book.Yield

namespace MoneyMarket

open Evm

/-! ## The loops -/

namespace Storage

/-- The variables of a sift: the array and the hole. -/
structure SiftRun where
  heap : List Nat
  cursor : Nat

/-- One pass of the loop of `pushMaturity`. -/
def pushPass (entry : Nat) (r : SiftRun) : Tx (Pass SiftRun) :=
  if 0 < r.cursor then do
    let parent := (r.cursor - 1) / 2
    let above ← readAt r.heap parent
    if above ≤ entry then return .stop r
    else do
      let heap ← writeAt r.heap r.cursor above
      return .again { heap, cursor := parent }
  else return .stop r

/-- The array with the new entry in its last slot, where the hole starts. -/
def SiftRun.pushed (heap : List Nat) (entry : Nat) : SiftRun := ⟨heap ++ [entry], heap.length⟩

def pushMaturity (heap : List Nat) (maturityTime positionIndex : Nat) : Tx (List Nat) := do
  require (maturityTime ≤ 2 ^ 128 - 1) (.reason "maturity overflow")
  require (positionIndex ≤ 2 ^ 128 - 1) (.reason "position overflow")
  let entry := packEntry maturityTime positionIndex
  let r ← loop (pushPass entry) (heap.length + 1) (.pushed heap entry)
  writeAt r.heap r.cursor entry

/-- The slot of the smaller child, the left one on a tie. -/
def smallest (heap : List Nat) (left : Nat) : Tx Nat :=
  let right := left + 1
  if right < heap.length then do
    let onRight ← readAt heap right
    let onLeft ← readAt heap left
    return if onRight < onLeft then right else left
  else return left

/-- One pass of the loop of `_popMaturity`. -/
def popPass (last : Nat) (r : SiftRun) : Tx (Pass SiftRun) :=
  let left := r.cursor * 2 + 1
  if r.heap.length ≤ left then return .stop r
  else do
    let smallest ← smallest r.heap left
    let least ← readAt r.heap smallest
    if last ≤ least then return .stop r
    else do
      let heap ← writeAt r.heap r.cursor least
      return .again { heap, cursor := smallest }

/-- `_popMaturity`. -/
def popMaturity (heap : List Nat) : Tx (List Nat) := do
  let lastIndex ← checkedSub heap.length 1
  let last ← readAt heap lastIndex
  if lastIndex = 0 then return heap.dropLast
  else do
    let r ← loop (popPass last) heap.length ⟨heap.dropLast, 0⟩
    writeAt r.heap r.cursor last

/-! ## The way up -/

variable {e n : Nat} {h : List Nat} {c : Nat}

/-- The pass that finds the root, or an ancestor that stays above. -/
theorem pushPass_stop (hstop : 0 < c → ∃ p, h[Heap.parent c]? = some p ∧ p ≤ e) :
    pushPass e ⟨h, c⟩ = .ok (.stop ⟨h, c⟩) := by
  unfold pushPass
  dsimp only
  split_ifs with hc
  · obtain ⟨p, hp, hle⟩ := hstop hc
    simp only [bind_ok_iff, readAt_ok_iff]
    exact ⟨p, hp, by rw [if_pos hle]; rfl⟩
  · rfl

/-- The pass that moves an ancestor down. -/
theorem pushPass_again {p : Nat} (hc : 0 < c) (hcl : c < h.length) (hp : h[Heap.parent c]? = some p) (hlt : ¬ p ≤ e) :
    pushPass e ⟨h, c⟩ = .ok (.again ⟨h.set c p, Heap.parent c⟩) := by
  unfold pushPass
  dsimp only
  rw [if_pos hc]
  simp only [bind_ok_iff, readAt_ok_iff]
  refine ⟨p, hp, ?_⟩
  rw [if_neg hlt]
  simp only [bind_ok_iff, writeAt_ok_iff, pure_ok_iff]
  exact ⟨_, ⟨hcl, rfl⟩, rfl⟩

/-- The hole moves up until the entry is placed where `Heap.siftUp` places it. -/
theorem pushPass_exits (e : Nat) : ∀ (fuel : Nat) (h : List Nat) (c : Nat), c ≤ fuel → c < h.length →
    ∃ n r, Exits (pushPass e) n ⟨h, c⟩ r ∧ n ≤ c + 1 ∧
      (writeAt r.heap r.cursor e : Tx (List Nat)) = .ok (Heap.siftUp e fuel h c)
  | 0, h, c, hf, hcl => by
    refine ⟨1, ⟨h, c⟩, .stop (pushPass_stop fun hc => absurd hc (by omega)), by omega, ?_⟩
    exact writeAt_ok_iff.2 ⟨hcl, rfl⟩
  | fuel + 1, h, c, hf, hcl => by
    by_cases hc : c = 0
    · refine ⟨1, ⟨h, c⟩, .stop (pushPass_stop fun hc' => absurd hc' (by omega)), by omega, ?_⟩
      exact writeAt_ok_iff.2 ⟨hcl, by rw [Heap.siftUp, if_pos hc]⟩
    have hpc : Heap.parent c < c := Heap.parent_lt (by omega)
    obtain ⟨p, hp⟩ : ∃ p, h[Heap.parent c]? = some p := ⟨_, List.getElem?_eq_getElem (by omega)⟩
    by_cases hle : p ≤ e
    · refine ⟨1, ⟨h, c⟩, .stop (pushPass_stop fun _ => ⟨p, hp, hle⟩), by omega, ?_⟩
      exact writeAt_ok_iff.2 ⟨hcl, by simp only [Heap.siftUp, if_neg hc, hp, if_pos hle]⟩
    · obtain ⟨n, r, hexits, hn, hwrite⟩ := pushPass_exits e fuel (h.set c p) (Heap.parent c) (by omega)
        (by rw [List.length_set]; omega)
      refine ⟨n + 1, r, .again (pushPass_again (by omega) hcl hp hle) hexits, by omega, ?_⟩
      simp only [hwrite, Heap.siftUp, if_neg hc, hp, if_neg hle]

/-! ## The way down -/

theorem smallest_none (hs : Heap.smallestChild h c = none) : h.length ≤ c * 2 + 1 := by
  have := Heap.smallestChild_none hs (2 * c + 1) (by omega) ((Heap.parent_child (by omega)).2 (.inl rfl))
  rw [List.getElem?_eq_none_iff] at this
  omega

theorem smallest_some {k v : Nat} (hs : Heap.smallestChild h c = some (k, v)) :
    c * 2 + 1 < h.length ∧ smallest h (c * 2 + 1) = .ok k := by
  rw [Nat.mul_comm c 2]
  unfold Heap.smallestChild at hs
  unfold smallest
  dsimp only
  split at hs
  · cases hs
  · rename_i l hl hr
    rw [List.getElem?_eq_none_iff] at hr
    rw [if_neg (by omega)]
    cases hs
    exact ⟨(List.getElem?_eq_some_iff.1 hl).1, rfl⟩
  · rename_i l r hl hr
    refine ⟨(List.getElem?_eq_some_iff.1 hl).1, ?_⟩
    rw [if_pos (List.getElem?_eq_some_iff.1 hr).1]
    simp only [bind_ok_iff, readAt_ok_iff, pure_ok_iff]
    refine ⟨r, hr, l, hl, ?_⟩
    split_ifs at hs ⊢ <;> cases hs <;> rfl

/-- The pass that finds no child, or none that the entry does not stay above. -/
theorem popPass_stop (hstop : ∀ k v, Heap.smallestChild h c = some (k, v) → e ≤ v) :
    popPass e ⟨h, c⟩ = .ok (.stop ⟨h, c⟩) := by
  unfold popPass
  dsimp only
  cases hs : Heap.smallestChild h c with
  | none => rw [if_pos (smallest_none hs)]; rfl
  | some kv =>
    obtain ⟨hlt, hsmallest⟩ := smallest_some (k := kv.1) (v := kv.2) hs
    rw [if_neg (by omega)]
    simp only [bind_ok_iff, readAt_ok_iff]
    refine ⟨_, hsmallest, kv.2, (Heap.smallestChild_spec hs).2.1, ?_⟩
    rw [if_pos (hstop _ _ hs)]
    rfl

/-- The pass that moves a child up. -/
theorem popPass_again {k v : Nat} (hcl : c < h.length) (hs : Heap.smallestChild h c = some (k, v)) (hlt : ¬ e ≤ v) :
    popPass e ⟨h, c⟩ = .ok (.again ⟨h.set c v, k⟩) := by
  obtain ⟨hleft, hsmallest⟩ := smallest_some hs
  unfold popPass
  dsimp only
  rw [if_neg (by omega)]
  simp only [bind_ok_iff, readAt_ok_iff]
  refine ⟨_, hsmallest, v, (Heap.smallestChild_spec hs).2.1, ?_⟩
  rw [if_neg hlt]
  simp only [bind_ok_iff, writeAt_ok_iff, pure_ok_iff]
  exact ⟨_, ⟨hcl, rfl⟩, rfl⟩

/-- The hole moves down until the entry is placed where `Heap.siftDown` places it. -/
theorem popPass_exits (e : Nat) : ∀ (fuel : Nat) (h : List Nat) (c : Nat), h.length ≤ fuel + c → c < h.length →
    ∃ n r, Exits (popPass e) n ⟨h, c⟩ r ∧ n + c ≤ h.length ∧
      (writeAt r.heap r.cursor e : Tx (List Nat)) = .ok (Heap.siftDown e fuel h c)
  | 0, h, c, hf, hcl => by omega
  | fuel + 1, h, c, hf, hcl => by
    cases hs : Heap.smallestChild h c with
    | none =>
      refine ⟨1, ⟨h, c⟩, .stop (popPass_stop fun k v hk => by rw [hs] at hk; cases hk), by omega, ?_⟩
      exact writeAt_ok_iff.2 ⟨hcl, by simp only [Heap.siftDown, hs]⟩
    | some kv =>
      obtain ⟨k, v⟩ := kv
      obtain ⟨hkc, hkv, -⟩ := Heap.smallestChild_spec hs
      have hkl : k < h.length := (List.getElem?_eq_some_iff.1 hkv).1
      by_cases hle : e ≤ v
      · refine ⟨1, ⟨h, c⟩, .stop (popPass_stop fun k' v' hk => ?_), by omega, ?_⟩
        · rw [hs] at hk; cases hk; exact hle
        · exact writeAt_ok_iff.2 ⟨hcl, by simp only [Heap.siftDown, hs, if_pos hle]⟩
      · obtain ⟨n, r, hexits, hn, hwrite⟩ := popPass_exits e fuel (h.set c v) k
          (by rw [List.length_set]; omega) (by rw [List.length_set]; exact hkl)
        rw [List.length_set] at hn
        refine ⟨n + 1, r, .again (popPass_again hcl hs hle) hexits, by omega, ?_⟩
        simp only [hwrite, Heap.siftDown, hs, if_neg hle]

/-! ## The two operations -/

/-- The loop of a push leaves after at most one pass for each slot. -/
theorem pushMaturity_exits (heap : List Nat) (entry : Nat) :
    ∃ n r, Exits (pushPass entry) n (.pushed heap entry) r ∧ n ≤ heap.length + 1 ∧
      (writeAt r.heap r.cursor entry : Tx (List Nat)) = .ok (Heap.push heap entry) :=
  pushPass_exits entry _ _ _ (le_refl _) (by simp)

/-- So does the loop of a pop, unless the last entry was the root. -/
theorem popMaturity_exits {heap : List Nat} {last : Nat} (hlast : heap.getLast? = some last) (hlen : 1 < heap.length) :
    ∃ n r, Exits (popPass last) n ⟨heap.dropLast, 0⟩ r ∧ n ≤ heap.length ∧
      (writeAt r.heap r.cursor last : Tx (List Nat)) = .ok (Heap.pop heap) := by
  have hshort : heap.dropLast.length = heap.length - 1 := List.length_dropLast
  obtain ⟨n, r, hexits, hn, hwrite⟩ := popPass_exits last heap.length heap.dropLast 0
    (by omega) (by omega)
  refine ⟨n, r, hexits, by omega, ?_⟩
  rw [hwrite, Heap.pop, hlast]

/-- Slot by slot, a push places the entry where `Heap.push` does. -/
theorem pushMaturity_eq (heap : List Nat) (maturityTime positionIndex : Nat) :
    pushMaturity heap maturityTime positionIndex = MoneyMarket.pushMaturity heap maturityTime positionIndex := by
  obtain ⟨n, r, hexits, hn, hwrite⟩ := pushMaturity_exits heap (packEntry maturityTime positionIndex)
  unfold pushMaturity MoneyMarket.pushMaturity
  dsimp only
  rw [hexits.loop hn]
  show (require _ _ >>= fun _ => require _ _ >>= fun _ => writeAt r.heap r.cursor _) = _
  rw [hwrite]
  rfl

/-- And a pop leaves what `Heap.pop` does. -/
theorem popMaturity_eq {heap : List Nat} (hne : heap ≠ []) : popMaturity heap = .ok (Heap.pop heap) := by
  have hlen : 0 < heap.length := List.length_pos_iff.2 hne
  obtain ⟨last, hlast⟩ : ∃ last, heap.getLast? = some last := ⟨_, List.getLast?_eq_getLast_of_ne_nil hne⟩
  have hread : heap[heap.length - 1]? = some last := by rw [← List.getLast?_eq_getElem?]; exact hlast
  simp only [popMaturity, bind_ok_iff, checkedSub_ok_iff, readAt_ok_iff]
  refine ⟨_, ⟨hlen, rfl⟩, last, hread, ?_⟩
  split_ifs with hone
  · -- the root was the only entry
    obtain ⟨root, rfl⟩ := List.length_eq_one_iff.1 (show heap.length = 1 by omega)
    cases hlast
    rfl
  · obtain ⟨n, r, hexits, hn, hwrite⟩ := popMaturity_exits hlast (by omega)
    rw [hexits.loop hn]
    exact hwrite

end Storage

/-! ## Entries in order -/

theorem packEntry_lt {m i : Nat} (hm : m < 2 ^ 128) (hi : i < 2 ^ 128) : packEntry m i < uintSize := by
  rw [packEntry_eq m hi]
  unfold uintSize
  omega

/-- Entries compare by maturity first, and by index at one maturity. -/
theorem packEntry_le_iff {m i m' i' : Nat} (hi : i < 2 ^ 128) (hi' : i' < 2 ^ 128) :
    packEntry m i ≤ packEntry m' i' ↔ m < m' ∨ m = m' ∧ i ≤ i' := by
  rw [packEntry_eq m hi, packEntry_eq m' hi']
  omega

/-! ## The length of the heap -/

theorem liveEntries_length_le {n : Nat} : ∀ {k : Nat} {ps : List NFTPosition},
    (∀ i pos, ps[i]? = some pos → pos.yieldCapped = false → k + i < n) → (liveEntries k ps).length ≤ n - k
  | k, [], _ => Nat.zero_le _
  | k, pos :: ps, hsmall => by
    have ih : (liveEntries (k + 1) ps).length ≤ n - (k + 1) := liveEntries_length_le fun i p hp hu => by
      have := hsmall (i + 1) p hp hu
      omega
    unfold liveEntries
    split_ifs with hc
    · exact le_trans ih (Nat.sub_le_sub_left (Nat.le_succ k) n)
    · have : k < n := hsmall 0 pos rfl (by simpa using hc)
      rw [List.length_cons]
      omega

/-- Each entry is of another position, so the children of a slot have their positions in a word. -/
theorem YieldBook.child_fits {now : Nat} {b : Book} (h : YieldBook now b) {cursor : Nat}
    (hc : cursor < b.maturityHeap.length) : cursor * 2 + 1 + 1 < uintSize := by
  have hlen : (liveEntries 0 b.positions).length ≤ 2 ^ 128 - 0 := liveEntries_length_le fun i pos hpos hu => by
    rw [Nat.zero_add]
    exact h.small i pos hpos hu
  rw [h.entries.length_eq] at hc
  unfold uintSize
  omega

/-! ## The heap law -/

/-- On an ordered array both operations return by a pass that stops and leave the array ordered; a
push adds exactly the entry, a pop removes exactly the root, which is a least entry. An entry fits a
word, reads back as what it was packed of, and entries are ordered by maturity and then by index. -/
theorem maturity_heap {heap : List Nat} (ho : Heap.Ordered heap) {m i : Nat} (hm : m < 2 ^ 128) (hi : i < 2 ^ 128) :
    (∃ n r heap', Exits (Storage.pushPass (packEntry m i)) n (.pushed heap (packEntry m i)) r ∧
      Storage.pushMaturity heap m i = .ok heap' ∧ Heap.Ordered heap' ∧ heap'.Perm (packEntry m i :: heap)) ∧
    (∀ root, heap[0]? = some root →
      (∀ last, heap.getLast? = some last → 1 < heap.length →
        ∃ n r, Exits (Storage.popPass last) n ⟨heap.dropLast, 0⟩ r) ∧
      ∃ heap', Storage.popMaturity heap = .ok heap' ∧ Heap.Ordered heap' ∧ (root :: heap').Perm heap ∧
        ∀ entry ∈ heap, root ≤ entry) ∧
    packEntry m i < uintSize ∧ entryMaturity (packEntry m i) = m ∧ entryIndex (packEntry m i) = i ∧
    ∀ m' i', m' < 2 ^ 128 → i' < 2 ^ 128 → (packEntry m i ≤ packEntry m' i' ↔ m < m' ∨ m = m' ∧ i ≤ i') := by
  refine ⟨?_, fun root hroot => ⟨fun last hlast hlen => ?_, ?_⟩, packEntry_lt hm hi, entryMaturity_pack m hi,
    entryIndex_pack m hi, fun m' i' _ hi' => packEntry_le_iff hi hi'⟩
  · obtain ⟨n, r, hexits, -, -⟩ := Storage.pushMaturity_exits heap (packEntry m i)
    refine ⟨n, r, Heap.push heap (packEntry m i), hexits, ?_, Heap.push_ordered ho _, Heap.push_perm heap _⟩
    rw [Storage.pushMaturity_eq]
    simp only [pushMaturity, bind_ok_iff, require_ok_iff, pure_ok_iff]
    exact ⟨(), by omega, (), by omega, trivial⟩
  · obtain ⟨n, r, hexits, -, -⟩ := Storage.popMaturity_exits hlast hlen
    exact ⟨n, r, hexits⟩
  · have hne : heap ≠ [] := by rintro rfl; cases hroot
    exact ⟨_, Storage.popMaturity_eq hne, Heap.pop_ordered ho, Heap.pop_perm hroot, ho.root_le hroot⟩

/-- Two positions that mature together, the one with the larger index pushed first. -/
def demoHeap : List Nat := Heap.push (Heap.push [] (packEntry 1000 1)) (packEntry 1000 0)

theorem maturity_heap_demo : (∃ heap', Storage.pushMaturity demoHeap 500 2 = .ok heap' ∧ Heap.Ordered heap' ∧
      heap'.Perm (packEntry 500 2 :: demoHeap)) ∧
    ∃ heap', Storage.popMaturity demoHeap = .ok heap' ∧ Heap.Ordered heap' ∧
      (packEntry 1000 0 :: heap').Perm demoHeap := by
  have hempty : Heap.Ordered ([] : List Nat) := fun _ _ _ _ ha _ => by cases ha
  have ho : Heap.Ordered demoHeap := Heap.push_ordered (Heap.push_ordered hempty _) _
  obtain ⟨⟨_, _, pushed, -, hpush⟩, hpop, -⟩ := maturity_heap ho (m := 500) (i := 2) (by decide) (by decide)
  obtain ⟨-, popped, hpopped, hordered, hperm, -⟩ := hpop (packEntry 1000 0) (by decide)
  exact ⟨⟨pushed, hpush⟩, popped, hpopped, hordered, hperm⟩

end MoneyMarket
