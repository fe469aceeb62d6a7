/-
Sums that move when one entry does: over a finite type and over an initial segment under a
function update, and over a list under a set. Stated additively, so that they read over `Nat`. And
where a running sum first reaches a bound.
-/
import Mathlib.Tactic

namespace Sums

section Finite

variable {ι : Type} [Fintype ι] [DecidableEq ι]

/-- Replacing one value moves the sum by the difference. -/
theorem sum_update (f : ι → Nat) (a : ι) (v : Nat) :
    ∑ x, Function.update f a v x + f a = ∑ x, f x + v := by
  rw [Finset.sum_update_of_mem (Finset.mem_univ a), ← Finset.add_sum_erase _ f (Finset.mem_univ a),
    Finset.sdiff_singleton_eq_erase]
  omega

/-- Two different entries never exceed the sum. -/
theorem add_le_sum (f : ι → Nat) {a b : ι} (h : a ≠ b) : f a + f b ≤ ∑ x, f x := by
  rw [← Finset.sum_pair h]
  exact Finset.sum_le_sum_of_subset (Finset.subset_univ _)

end Finite

section Range

variable {α : Type} (w : α → Nat)

/-- Replacing the entry at `i < n` moves the sum of the first `n` by the difference. -/
theorem sum_range_update (f : Nat → α) {i n : Nat} (v : α) (h : i < n) :
    ∑ k ∈ Finset.range n, w (Function.update f i v k) + w (f i) = ∑ k ∈ Finset.range n, w (f k) + w v := by
  have hi : i ∈ Finset.range n := Finset.mem_range.2 h
  rw [← Finset.add_sum_erase _ _ hi, ← Finset.add_sum_erase _ (fun k => w (f k)) hi, Function.update_self]
  have : ∑ k ∈ (Finset.range n).erase i, w (Function.update f i v k) =
      ∑ k ∈ (Finset.range n).erase i, w (f k) := by
    apply Finset.sum_congr rfl
    intro k hk
    rw [Function.update_of_ne (Finset.ne_of_mem_erase hk)]
  rw [this]
  omega

/-- An entry below `n` is at most the sum of the first `n`. -/
theorem le_sum_range (f : Nat → Nat) {i n : Nat} (h : i < n) : f i ≤ ∑ k ∈ Finset.range n, f k :=
  Finset.single_le_sum  (fun _ _ => Nat.zero_le _) (Finset.mem_range.2 h)

/-- Replacing the entry at `i` moves the sum of a list by the difference. -/
theorem sum_map_set : ∀ {l : List α} {i : Nat} {a : α} (v : α), l[i]? = some a →
    ((l.set i v).map w).sum + w a = (l.map w).sum + w v
  | x :: l, 0, a, v, h => by
    simp only [List.getElem?_cons_zero, Option.some.injEq] at h
    subst h
    simp only [List.set_cons_zero, List.map_cons, List.sum_cons]
    omega
  | x :: l, i + 1, a, v, h => by
    have := sum_map_set v (by simpa using h : l[i]? = some a)
    simp only [List.set_cons_succ, List.map_cons, List.sum_cons]
    omega

/-- An entry of a list is at most the sum. -/
theorem le_sum_map {l : List α} {a : α} (h : a ∈ l) : w a ≤ (l.map w).sum :=
  List.le_sum_of_mem (List.mem_map_of_mem h)

end Range

/-! ## Where a running sum reaches a bound -/

/-- The sum of `f` from `start` on first reaches `need` with the entry at `k`. -/
structure Crosses (f : Nat → Nat) (start need k : Nat) : Prop where
  start_le : start ≤ k
  before : ∑ i ∈ Finset.Ico start k, f i < need
  reached : need ≤ ∑ i ∈ Finset.Ico start (k + 1), f i

namespace Crosses

variable {f : Nat → Nat} {start need k k' : Nat}

theorem first (hneed : 0 < need) (h : need ≤ f start) : Crosses f start need start := by
  refine ⟨le_refl _, ?_, ?_⟩
  · rw [Finset.Ico_self]; exact hneed
  · rw [Finset.sum_Ico_succ_top (le_refl _), Finset.Ico_self, Finset.sum_empty, Nat.zero_add]; exact h

/-- An entry that does not reach the bound leaves the rest of it to the entries after it. -/
theorem next (hlt : f start < need) (h : Crosses f (start + 1) (need - f start) k) : Crosses f start need k := by
  have hle : start < k := h.start_le
  have hbefore := h.before
  have hreached := h.reached
  refine ⟨hle.le, ?_, ?_⟩
  · rw [Finset.sum_eq_sum_Ico_succ_bot hle]; omega
  · rw [Finset.sum_eq_sum_Ico_succ_bot (show start < k + 1 by omega)]; omega

theorem le_of_crosses (h : Crosses f start need k) (h' : Crosses f start need k') : k ≤ k' := by
  by_contra hlt
  have hsub : Finset.Ico start (k' + 1) ⊆ Finset.Ico start k := Finset.Ico_subset_Ico_right (not_le.1 hlt)
  have hmono : ∑ i ∈ Finset.Ico start (k' + 1), f i ≤ ∑ i ∈ Finset.Ico start k, f i :=
    Finset.sum_le_sum_of_subset hsub
  exact absurd (lt_of_le_of_lt (le_trans h'.reached hmono) h.before) (lt_irrefl _)

/-- It is reached only once. -/
theorem unique (h : Crosses f start need k) (h' : Crosses f start need k') : k = k' :=
  le_antisymm (h.le_of_crosses h') (h'.le_of_crosses h)

/-- The entry that reaches it counts. -/
theorem entry_pos (h : Crosses f start need k) : 0 < f k := by
  have hreached := h.reached
  rw [Finset.sum_Ico_succ_top h.start_le] at hreached
  have hbefore := h.before
  omega

end Crosses

end Sums
