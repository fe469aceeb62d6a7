/-
Greedy allotment: an amount is taken from the elements of a list one after the other, from each as
much as it holds. Elements that hold nothing are passed over. A list that offers the least element
first, as far as the amount goes, is allotted like the sorted list (`allot_eq_sorted`).
-/
import Mathlib.Tactic

namespace Greedy

variable {α : Type}

/-- What is taken of each element, in the order of the list. -/
def allot (f : α → Nat) : List α → Nat → List (α × Nat)
  | [], _ => []
  | x :: xs, n => if min (f x) n = 0 then allot f xs n else (x, min (f x) n) :: allot f xs (n - min (f x) n)

variable {f : α → Nat} {n : Nat}

@[simp] theorem allot_zero (f : α → Nat) : ∀ xs, allot f xs 0 = []
  | [] => rfl
  | x :: xs => by rw [allot, if_pos (Nat.min_zero _), allot_zero f xs]

theorem allot_skip {x : α} (h : f x = 0) (xs : List α) (n : Nat) : allot f (x :: xs) n = allot f xs n := by
  rw [allot, h, Nat.zero_min, if_pos rfl]

theorem allot_take {x : α} (hx : f x ≠ 0) (hn : n ≠ 0) (xs : List α) :
    allot f (x :: xs) n = (x, min (f x) n) :: allot f xs (n - min (f x) n) := by
  rw [allot, if_neg (by omega)]

/-- Of a sorted list the least element that holds something is taken from first. -/
theorem allot_least [LinearOrder α] {x : α} (hx : f x ≠ 0) (hn : n ≠ 0) : ∀ {w : List α}, w.Pairwise (· < ·) → x ∈ w →
    (∀ y ∈ w, y < x → f y = 0) → allot f w n = (x, min (f x) n) :: allot f (w.erase x) (n - min (f x) n)
  | y :: w, hw, hmem, hleast => by
    obtain ⟨hy, hw'⟩ := List.pairwise_cons.1 hw
    by_cases hyx : y = x
    · subst hyx
      rw [List.erase_cons_head, allot_take hx hn]
    · have hxw : x ∈ w := (List.mem_cons.1 hmem).resolve_left fun h => hyx h.symm
      have hzero : f y = 0 := hleast y (List.mem_cons_self ..) (hy x hxw)
      rw [allot_skip hzero, List.erase_cons_tail (by simpa using hyx), allot_skip hzero]
      exact allot_least hx hn hw' hxw fun z hz => hleast z (List.mem_cons_of_mem _ hz)

/-- Every element that the amount reaches is the least of those that are left and hold something. -/
def LeastFirst [LinearOrder α] (f : α → Nat) (v w : List α) (n : Nat) : Prop :=
  ∀ p x t, v = p ++ x :: t → (p.map f).sum < n → f x ≠ 0 → ∀ y ∈ w, y < x → y ∈ p ∨ f y = 0

/-- Such a list is allotted like the sorted one. -/
theorem allot_eq_sorted [LinearOrder α] : ∀ {v w : List α} {n : Nat}, w.Pairwise (· < ·) → v.Nodup →
    (∀ x ∈ v, x ∈ w) → n ≤ (v.map f).sum → LeastFirst f v w n → allot f v n = allot f w n
  | [], w, n, _, _, _, hcover, _ => by
    obtain rfl : n = 0 := Nat.le_zero.1 hcover
    rw [allot_zero, allot_zero]
  | x :: v, w, n, hw, hv, hsub, hcover, hleast => by
    obtain ⟨hxv, hv'⟩ := List.nodup_cons.1 hv
    rw [List.map_cons, List.sum_cons] at hcover
    by_cases hn : n = 0
    · rw [hn, allot_zero, allot_zero]
    by_cases hx : f x = 0
    · rw [allot_skip hx]
      refine allot_eq_sorted hw hv' (fun y hy => hsub y (List.mem_cons_of_mem _ hy)) (by omega) ?_
      intro p y t hsplit hsum hy z hz hlt
      have hsum' : ((x :: p).map f).sum < n := by rw [List.map_cons, List.sum_cons, hx, Nat.zero_add]; exact hsum
      rcases hleast (x :: p) y t (by rw [hsplit]; rfl) hsum' hy z hz hlt with hmem | hzero
      · rcases List.mem_cons.1 hmem with rfl | hmem
        · exact .inr hx
        · exact .inl hmem
      · exact .inr hzero
    -- the head is the least element that holds something
    · have hfirst : ∀ y ∈ w, y < x → f y = 0 := fun y hy hlt =>
        (hleast [] x v rfl (Nat.pos_of_ne_zero hn) hx y hy hlt).resolve_left List.not_mem_nil
      rw [allot_take hx hn, allot_least hx hn hw (hsub x (List.mem_cons_self ..)) hfirst]
      congr 1
      have hnodup : w.Nodup := hw.imp fun h => h.ne
      refine allot_eq_sorted (hw.sublist List.erase_sublist) hv' (fun y hy => ?_) (by omega) ?_
      · have hyx : y ≠ x := fun h => hxv (h ▸ hy)
        exact (List.mem_erase_of_ne hyx).2 (hsub y (List.mem_cons_of_mem _ hy))
      · intro p y t hsplit hsum hy z hz hlt
        have hsum' : ((x :: p).map f).sum < n := by rw [List.map_cons, List.sum_cons]; omega
        obtain ⟨hzx, hzw⟩ := hnodup.mem_erase_iff.1 hz
        rcases hleast (x :: p) y t (by rw [hsplit]; rfl) hsum' hy z hzw hlt with hmem | hzero
        · exact .inl ((List.mem_cons.1 hmem).resolve_left hzx)
        · exact .inr hzero

end Greedy
