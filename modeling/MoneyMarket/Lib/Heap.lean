/-
A binary min-heap in an array, sifting by a moving hole: the entry being placed is kept aside
while the entries it passes move into the hole, and is written once at the end. Pushing and
popping keep the heap ordered and change its entries by exactly the one pushed or popped, the
least entry being at the root.

Between two moves the array with the waiting entry written into the hole is what the invariants
talk about: it holds the right entries, and is ordered but for the pairs the hole touches.
-/
import Mathlib.Tactic

namespace Heap

variable {α : Type} [LinearOrder α]

def parent (i : Nat) : Nat := (i - 1) / 2

/-- Every parent is at most its children. -/
def Ordered (h : List α) : Prop :=
  ∀ i a b, 0 < i → h[parent i]? = some a → h[i]? = some b → a ≤ b

/-- Move the larger ancestors of the hole `c` down, then write `e` where they stop. -/
def siftUp (e : α) : Nat → List α → Nat → List α
  | 0, h, c => h.set c e
  | fuel + 1, h, c =>
    if c = 0 then h.set c e
    else
      match h[parent c]? with
      | none => h.set c e
      | some p => if p ≤ e then h.set c e else siftUp e fuel (h.set c p) (parent c)

def push (h : List α) (e : α) : List α := siftUp e h.length (h ++ [e]) h.length

/-- The smaller child of `c` and its position, the left one on a tie. -/
def smallestChild (h : List α) (c : Nat) : Option (Nat × α) :=
  match h[2 * c + 1]?, h[2 * c + 2]? with
  | none, _ => none
  | some l, none => some (2 * c + 1, l)
  | some l, some r => if r < l then some (2 * c + 2, r) else some (2 * c + 1, l)

/-- Move the smaller children of the hole `c` up, then write `e` where they stop. -/
def siftDown (e : α) : Nat → List α → Nat → List α
  | 0, h, c => h.set c e
  | fuel + 1, h, c =>
    match smallestChild h c with
    | none => h.set c e
    | some (k, v) => if e ≤ v then h.set c e else siftDown e fuel (h.set c v) k

/-- Remove the root: the last entry is sifted down from its place. -/
def pop (h : List α) : List α :=
  match h.getLast? with
  | none => []
  | some last => siftDown last h.length h.dropLast 0

/-! ## Positions -/

theorem parent_lt {i : Nat} (h : 0 < i) : parent i < i := by unfold parent; omega

theorem parent_child {i c : Nat} (h : 0 < i) : parent i = c ↔ i = 2 * c + 1 ∨ i = 2 * c + 2 := by
  unfold parent; omega

theorem smallestChild_spec {h : List α} {c k : Nat} {v : α} (hs : smallestChild h c = some (k, v)) :
    (k = 2 * c + 1 ∨ k = 2 * c + 2) ∧ h[k]? = some v ∧
      ∀ i b, 0 < i → parent i = c → h[i]? = some b → v ≤ b := by
  unfold smallestChild at hs
  split at hs
  · cases hs
  · rename_i l hl hr
    simp only [Option.some.injEq, Prod.mk.injEq] at hs
    obtain ⟨rfl, rfl⟩ := hs
    refine ⟨.inl rfl, hl, fun i b hi hp hb => ?_⟩
    rcases (parent_child hi).1 hp with rfl | rfl
    · rw [hl] at hb; cases hb; exact le_refl _
    · rw [hr] at hb; cases hb
  · rename_i l r hl hr
    split at hs <;> rename_i hlt <;> simp only [Option.some.injEq, Prod.mk.injEq] at hs <;>
      obtain ⟨rfl, rfl⟩ := hs
    · refine ⟨.inr rfl, hr, fun i b hi hp hb => ?_⟩
      rcases (parent_child hi).1 hp with rfl | rfl
      · rw [hl] at hb; cases hb; exact hlt.le
      · rw [hr] at hb; cases hb; exact le_refl _
    · refine ⟨.inl rfl, hl, fun i b hi hp hb => ?_⟩
      rcases (parent_child hi).1 hp with rfl | rfl
      · rw [hl] at hb; cases hb; exact le_refl _
      · rw [hr] at hb; cases hb; exact not_lt.1 hlt

theorem smallestChild_none {h : List α} {c : Nat} (hs : smallestChild h c = none) :
    ∀ i, 0 < i → parent i = c → h[i]? = none := by
  have hl : h[2 * c + 1]? = none := by
    unfold smallestChild at hs
    split at hs
    · assumption
    · cases hs
    · split at hs <;> cases hs
  intro i hi hp
  rw [List.getElem?_eq_none_iff] at hl ⊢
  rcases (parent_child hi).1 hp with rfl | rfl <;> omega

/-! ## The entries -/

/-- Moving the entry at `j` into the hole at `i` and the hole to `j` permutes the array. -/
theorem perm_move {h : List α} {i j : Nat} {v e : α} (hij : i ≠ j) (hi : i < h.length) (hj : h[j]? = some v) :
    ((h.set i v).set j e).Perm (h.set i e) := by
  obtain ⟨hjl, hjv⟩ := List.getElem?_eq_some_iff.1 hj
  have hmem : ∀ {k : Nat} (hk : k < h.length) (a : α), (h[k] == a) = true → 1 ≤ h.count a := by
    intro k hk a hb
    rw [beq_iff_eq] at hb
    exact List.one_le_count_iff.2 (hb ▸ List.getElem_mem hk)
  rw [List.perm_iff_count]
  intro a
  have hcj := hmem hjl a
  have hci := hmem hi a
  rw [List.count_set (by simpa using hjl), List.count_set hi, List.count_set hi, List.getElem_set_ne hij, hjv]
  rw [hjv] at hcj
  split_ifs at * <;> simp_all

theorem siftUp_perm {e : α} : ∀ {fuel : Nat} {h : List α} {c : Nat}, c < h.length →
    (siftUp e fuel h c).Perm (h.set c e)
  | 0, _, _, _ => .refl _
  | fuel + 1, h, c, hc => by
    unfold siftUp
    split
    · exact .refl _
    · rename_i hc0
      split
      · exact .refl _
      · rename_i p hp
        split
        · exact .refl _
        · have hlt : parent c < c := parent_lt (by omega)
          exact (siftUp_perm (by simp; omega)).trans (perm_move (by omega) hc hp)

theorem siftDown_perm {e : α} : ∀ {fuel : Nat} {h : List α} {c : Nat}, c < h.length →
    (siftDown e fuel h c).Perm (h.set c e)
  | 0, _, _, _ => .refl _
  | fuel + 1, h, c, hc => by
    unfold siftDown
    split
    · exact .refl _
    · rename_i k v hk
      split
      · exact .refl _
      · obtain ⟨hkc, hkv, -⟩ := smallestChild_spec hk
        have hkl : k < h.length := (List.getElem?_eq_some_iff.1 hkv).1
        exact (siftDown_perm (by simpa using hkl)).trans (perm_move (by omega) hc hkv)

/-- Pushing adds exactly the entry. -/
theorem push_perm (h : List α) (e : α) : (push h e).Perm (e :: h) := by
  have : (siftUp e h.length (h ++ [e]) h.length).Perm ((h ++ [e]).set h.length e) := siftUp_perm (by simp)
  apply this.trans
  rw [List.set_append_right _ _ (le_refl _)]
  simp

/-- Popping removes exactly the root. -/
theorem pop_perm {h : List α} {root : α} (hr : h[0]? = some root) : (root :: pop h).Perm h := by
  unfold pop
  obtain ⟨init, last, rfl⟩ : ∃ init last, h = init ++ [last] := by
    rcases List.eq_nil_or_concat h with rfl | ⟨init, last, h'⟩
    · cases hr
    · exact ⟨init, last, by rw [h', List.concat_eq_append]⟩
  simp only [List.getLast?_concat, List.dropLast_concat]
  cases init with
  | nil =>
    simp only [List.nil_append, List.getElem?_cons_zero, Option.some.injEq] at hr
    subst hr
    simp [siftDown, smallestChild]
  | cons x xs =>
    simp only [List.cons_append, List.getElem?_cons_zero, Option.some.injEq] at hr
    subst hr
    have : (siftDown last (x :: xs ++ [last]).length (x :: xs) 0).Perm ((x :: xs).set 0 last) := siftDown_perm (by simp)
    refine (List.Perm.cons x this).trans ?_
    simpa using List.Perm.cons x (List.perm_append_singleton last xs).symm

/-! ## The order -/

/-- An array with the entry `e` waiting in the hole `c` is ordered but for the pair of the hole and
its parent; the hole's children are at least its parent. -/
structure UpOrder (h : List α) (c : Nat) (e : α) : Prop where
  off : ∀ i a b, 0 < i → i ≠ c → parent i ≠ c → h[parent i]? = some a → h[i]? = some b → a ≤ b
  above : 0 < c → ∀ i a b, 0 < i → parent i = c → h[parent c]? = some a → h[i]? = some b → a ≤ b
  below : ∀ i b, 0 < i → parent i = c → h[i]? = some b → e ≤ b

/-- An array with the entry `e` waiting in the hole `c` is ordered but for the pairs of the hole
and its children; the hole's parent is at most `e` and at most the hole's children. -/
structure DownOrder (h : List α) (c : Nat) (e : α) : Prop where
  off : ∀ i a b, 0 < i → i ≠ c → parent i ≠ c → h[parent i]? = some a → h[i]? = some b → a ≤ b
  above : 0 < c → ∀ i a b, 0 < i → parent i = c → h[parent c]? = some a → h[i]? = some b → a ≤ b
  up : 0 < c → ∀ a, h[parent c]? = some a → a ≤ e

omit [LinearOrder α] in
theorem getElem?_set_hole {h : List α} {c i : Nat} {v b : α} (hb : (h.set c v)[i]? = some b) :
    (i = c ∧ b = v) ∨ (i ≠ c ∧ h[i]? = some b) := by
  rw [List.getElem?_set] at hb
  split_ifs at hb with h1 h2
  · cases hb; exact .inl ⟨h1.symm, rfl⟩
  · exact .inr ⟨fun hic => h1 hic.symm, hb⟩

/-- Writing the waiting entry gives an ordered heap once it is at least the hole's parent and at
most the hole's children. -/
theorem ordered_set {h : List α} {c : Nat} {e : α}
    (off : ∀ i a b, 0 < i → i ≠ c → parent i ≠ c → h[parent i]? = some a → h[i]? = some b → a ≤ b)
    (up : 0 < c → ∀ a, h[parent c]? = some a → a ≤ e)
    (below : ∀ i b, 0 < i → parent i = c → h[i]? = some b → e ≤ b) : Ordered (h.set c e) := by
  intro i a b hi ha hb
  rcases getElem?_set_hole hb with ⟨rfl, rfl⟩ | ⟨hic, hb'⟩
  · rcases getElem?_set_hole ha with ⟨hp, -⟩ | ⟨-, ha⟩
    · have := parent_lt hi; omega
    · exact up hi a ha
  · rcases getElem?_set_hole ha with ⟨hp, rfl⟩ | ⟨hp, ha⟩
    · exact below i b hi hp hb'
    · exact off i a b hi hic hp ha hb'

/-- Moving the parent down into the hole keeps the order of the rest. -/
theorem UpOrder.move {h : List α} {c : Nat} {e p : α} (o : UpOrder h c e) (hc : 0 < c) (hcl : c < h.length)
    (hp : h[parent c]? = some p) (hlt : e < p) : UpOrder (h.set c p) (parent c) e := by
  have hpc := parent_lt hc
  constructor
  · intro i a b hi hip hpp ha hb
    rcases getElem?_set_hole hb with ⟨rfl, rfl⟩ | ⟨hic, hb'⟩
    · exact absurd rfl hpp
    · rcases getElem?_set_hole ha with ⟨hpi, rfl⟩ | ⟨hpi, ha⟩
      · exact o.above hc i _ b hi hpi hp hb'
      · exact o.off i a b hi hic hpi ha hb'
  · intro hp0 i a b hi hpi ha hb
    have hne : parent (parent c) ≠ c := by have := parent_lt hp0; omega
    rcases getElem?_set_hole ha with ⟨h1, -⟩ | ⟨-, ha⟩
    · exact absurd h1 hne
    have hap : a ≤ p := o.off (parent c) a p hp0 (by omega) hne ha hp
    rcases getElem?_set_hole hb with ⟨rfl, rfl⟩ | ⟨hic, hb⟩
    · exact hap
    · exact hap.trans (o.off i p b hi hic (by omega) (hpi ▸ hp) hb)
  · intro i b hi hpi hb
    rcases getElem?_set_hole hb with ⟨rfl, rfl⟩ | ⟨hic, hb⟩
    · exact hlt.le
    · exact hlt.le.trans (o.off i p b hi hic (by omega) (hpi ▸ hp) hb)

theorem siftUp_ordered {e : α} : ∀ {fuel : Nat} {h : List α} {c : Nat}, c ≤ fuel → c < h.length →
    UpOrder h c e → Ordered (siftUp e fuel h c)
  | 0, h, c, hf, _, o => by
    obtain rfl : c = 0 := by omega
    exact ordered_set o.off (fun h0 => absurd h0 (by omega)) o.below
  | fuel + 1, h, c, hf, hcl, o => by
    unfold siftUp
    split
    · rename_i hc0
      subst hc0
      exact ordered_set o.off (fun h0 => absurd h0 (by omega)) o.below
    · rename_i hc0
      have hpc : parent c < c := parent_lt (by omega)
      split
      · rename_i hp
        rw [List.getElem?_eq_none_iff] at hp
        omega
      · rename_i p hp
        split
        · rename_i hle
          exact ordered_set o.off (fun _ a ha => by rw [hp] at ha; cases ha; exact hle) o.below
        · rename_i hle
          exact siftUp_ordered (by omega) (by simp; omega) (o.move (by omega) hcl hp (not_le.1 hle))

/-- Pushing keeps the heap ordered. -/
theorem push_ordered {h : List α} (ho : Ordered h) (e : α) : Ordered (push h e) := by
  refine siftUp_ordered (le_refl _) (by simp) ⟨?_, ?_, ?_⟩
  · intro i a b hi hic hpc ha hb
    have hil : i < h.length := by
      have := (List.getElem?_eq_some_iff.1 hb).1
      simp at this; omega
    have hpl := parent_lt hi
    rw [List.getElem?_append_left (by omega)] at ha hb
    exact ho i a b hi ha hb
  · intro _ i a b hi hpi _ hb
    have := (List.getElem?_eq_some_iff.1 hb).1
    have := parent_lt hi
    simp at *; omega
  · intro i b hi hpi hb
    have := (List.getElem?_eq_some_iff.1 hb).1
    have := parent_lt hi
    simp at *; omega

/-- Moving the smaller child up into the hole keeps the order of the rest. -/
theorem DownOrder.move {h : List α} {c k : Nat} {e v : α} (o : DownOrder h c e)
    (hk : smallestChild h c = some (k, v)) (hlt : v < e) : DownOrder (h.set c v) k e := by
  obtain ⟨hkc, hkv, hmin⟩ := smallestChild_spec hk
  have hk0 : 0 < k := by omega
  have hpk : parent k = c := (parent_child hk0).2 hkc
  constructor
  · intro i a b hi hik hpi ha hb
    rcases getElem?_set_hole hb with ⟨rfl, rfl⟩ | ⟨hic, hb'⟩
    · rcases getElem?_set_hole ha with ⟨h1, -⟩ | ⟨-, ha⟩
      · have := parent_lt hi; omega
      · exact o.above hi k a _ hk0 hpk ha hkv
    · rcases getElem?_set_hole ha with ⟨hpc, rfl⟩ | ⟨hpc, ha⟩
      · exact hmin i b hi hpc hb'
      · exact o.off i a b hi hic hpc ha hb'
  · intro _ i a b hi hpi ha hb
    rcases getElem?_set_hole ha with ⟨-, rfl⟩ | ⟨h1, -⟩
    · have hic : i ≠ c := by have := parent_lt hi; omega
      rcases getElem?_set_hole hb with ⟨h1, -⟩ | ⟨-, hb⟩
      · exact absurd h1 hic
      · exact o.off i _ b hi hic (by omega) (hpi ▸ hkv) hb
    · exact absurd hpk h1
  · intro _ a ha
    rcases getElem?_set_hole ha with ⟨-, rfl⟩ | ⟨h1, -⟩
    · exact hlt.le
    · exact absurd hpk h1

theorem siftDown_ordered {e : α} : ∀ {fuel : Nat} {h : List α} {c : Nat}, h.length ≤ fuel + c → c < h.length →
    DownOrder h c e → Ordered (siftDown e fuel h c)
  | 0, h, c, hf, hcl, _ => by omega
  | fuel + 1, h, c, hf, hcl, o => by
    unfold siftDown
    split
    · rename_i hk
      apply ordered_set o.off o.up
      intro i b hi hpi hb
      rw [smallestChild_none hk i hi hpi] at hb
      cases hb
    · rename_i k v hk
      obtain ⟨hkc, hkv, hmin⟩ := smallestChild_spec hk
      split
      · rename_i hle
        exact ordered_set o.off o.up fun i b hi hpi hb => hle.trans (hmin i b hi hpi hb)
      · rename_i hle
        have hkl : k < h.length := (List.getElem?_eq_some_iff.1 hkv).1
        exact siftDown_ordered (by simp; omega) (by simpa using hkl) (o.move hk (not_le.1 hle))

/-- Popping keeps the heap ordered. -/
theorem pop_ordered {h : List α} (ho : Ordered h) : Ordered (pop h) := by
  unfold pop
  split
  · intro i a b _ ha _
    cases ha
  · rename_i last hlast
    by_cases hne : h.dropLast = []
    · rw [hne]
      cases hl : h.length with
      | zero => intro i a b _ ha _; simp [siftDown] at ha
      | succ n => intro i a b _ ha _; simp [siftDown, smallestChild] at ha
    · have hlen : 0 < h.dropLast.length := List.length_pos_iff.2 hne
      refine siftDown_ordered (by simp) hlen ⟨?_, fun h0 => absurd h0 (by omega), fun h0 => absurd h0 (by omega)⟩
      intro i a b hi _ _ ha hb
      rw [List.getElem?_dropLast] at ha hb
      split_ifs at ha hb with h1 h2
      exact ho i a b hi ha hb

/-- The root of an ordered heap is its least entry. -/
theorem Ordered.root_le {h : List α} (ho : Ordered h) {root : α} (hr : h[0]? = some root) :
    ∀ b ∈ h, root ≤ b := by
  have key : ∀ (i : Nat) (b : α), h[i]? = some b → root ≤ b := by
    intro i
    induction i using Nat.strong_induction_on with
    | _ i ih =>
      intro b hb
      by_cases hi : i = 0
      · subst hi; rw [hr] at hb; cases hb; exact le_refl _
      · have hp := parent_lt (show 0 < i by omega)
        have hil := (List.getElem?_eq_some_iff.1 hb).1
        obtain ⟨a, ha⟩ : ∃ a, h[parent i]? = some a := ⟨_, List.getElem?_eq_getElem (by omega)⟩
        exact (ih (parent i) hp a ha).trans (ho i a b (by omega) ha hb)
  intro b hb
  obtain ⟨i, hi⟩ := List.getElem?_of_mem hb
  exact key i b hi

/-- Popping takes the first entry off the sorted order. -/
theorem sorted_pop {h : List α} (ho : Ordered h) {root : α} (hr : h[0]? = some root) :
    h.insertionSort (· ≤ ·) = root :: (pop h).insertionSort (· ≤ ·) := by
  have hperm := pop_perm hr
  have hle : ∀ b ∈ pop h, root ≤ b := fun b hb => ho.root_le hr b (hperm.mem_iff.1 (List.mem_cons_of_mem _ hb))
  rw [← List.insertionSort_cons_of_forall_rel (· ≤ ·) hle]
  apply List.Perm.eq_of_pairwise' (List.pairwise_insertionSort _ _) (List.pairwise_insertionSort _ _)
  exact (List.perm_insertionSort _ _).trans (hperm.symm.trans (List.perm_insertionSort _ _).symm)

end Heap
