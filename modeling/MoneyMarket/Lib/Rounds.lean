/-
Observation in rounds, the latest first: since when a condition has held in every round (`since`),
and the log of what is said about a condition that comes and goes (`Alternating`): it is raised, perhaps
raised again, and cleared before it is raised anew.
-/
import Mathlib.Data.List.TakeWhile
import Mathlib.Tactic

namespace Rounds

/-! ## Since when -/

section Since

variable {ρ : Type} (time : ρ → Nat) (p : ρ → Bool)

/-- The time of the first round of the unbroken stretch of rounds with `p` that ends with the latest. -/
def since (rs : List ρ) : Option Nat := (rs.takeWhile p).getLast?.map time

variable {time p}

theorem since_nil : since time p [] = none := rfl

theorem since_cons_of_pos {r : ρ} (rs : List ρ) (h : p r = true) :
    since time p (r :: rs) = some ((since time p rs).getD (time r)) := by
  unfold since
  rw [List.takeWhile_cons_of_pos h, List.getLast?_cons, Option.map_some]
  cases (rs.takeWhile p).getLast? <;> rfl

theorem since_cons_of_neg {r : ρ} (rs : List ρ) (h : ¬ p r = true) : since time p (r :: rs) = none := by
  unfold since
  rw [List.takeWhile_cons_of_neg h]
  rfl

/-- From the round it is the time of on every round has `p`, and the one before has not. -/
theorem since_eq_some_iff {rs : List ρ} {t : Nat} : since time p rs = some t ↔
    ∃ during first before, rs = during ++ first :: before ∧ (∀ r ∈ during ++ [first], p r = true) ∧
      (∀ r ∈ before.head?, ¬ p r = true) ∧ time first = t := by
  constructor
  · intro h
    obtain ⟨first, hfirst, ht⟩ := Option.map_eq_some_iff.1 h
    obtain ⟨during, hduring⟩ := List.getLast?_eq_some_iff.1 hfirst
    refine ⟨during, first, rs.dropWhile p, ?_, ?_, ?_, ht⟩
    · rw [List.append_cons, ← hduring, List.takeWhile_append_dropWhile]
    · rw [← hduring]
      exact fun r hr => List.mem_takeWhile_imp hr
    · intro r hr
      have hnot := List.head?_dropWhile_not p rs
      rw [Option.mem_def.1 hr] at hnot
      simpa using hnot
  · rintro ⟨during, first, before, rfl, hall, hbefore, ht⟩
    have hstop : before.takeWhile p = [] := by
      cases before with
      | nil => rfl
      | cons r before => exact List.takeWhile_cons_of_neg (hbefore r rfl)
    unfold since
    rw [List.append_cons, List.takeWhile_append_of_pos hall, hstop, List.append_nil, List.getLast?_concat,
      Option.map_some, ht]

end Since

/-! ## What is said of it -/

/-- A condition is raised, or cleared, at a time. -/
inductive Entry where
  | raised (t : Nat)
  | cleared (t : Nat)
  deriving Repr, DecidableEq

/-- The logs, latest entry first, in which a raised condition is raised again only when `again` lets
it, given the two times, and only a raised condition is cleared. -/
inductive Alternating (again : Nat → Nat → Prop) : List Entry → Prop
  | nil : Alternating again []
  | raise {t : Nat} {log : List Entry} : Alternating again log → (∀ s, log.head? = some (.raised s) → again s t) →
      Alternating again (.raised t :: log)
  | clear {s t : Nat} {log : List Entry} : Alternating again (.raised s :: log) →
      Alternating again (.cleared t :: .raised s :: log)

/-- The condition was last raised, at that time. -/
def raisedAt : List Entry → Option Nat
  | .raised t :: _ => some t
  | _ => none

/-- Raised last at a time not a whole gap before `t`, or at `t` itself. -/
def Recent (gap : Nat) (log : List Entry) (t : Nat) : Prop := ∃ s, raisedAt log = some s ∧ (s = t ∨ t < s + gap)

section Log

variable {again : Nat → Nat → Prop} {log : List Entry} {t : Nat}

theorem raisedAt_eq_some_iff : raisedAt log = some t ↔ log.head? = some (.raised t) := by
  cases log with
  | nil => simp [raisedAt]
  | cons e log => cases e <;> simp [raisedAt]

/-- A log grows by an entry where the condition is not raised, or may be raised again. -/
theorem Alternating.raise_of (h : Alternating again log) (ht : ∀ s ∈ raisedAt log, again s t) :
    Alternating again (.raised t :: log) :=
  .raise h fun s hs => ht s (raisedAt_eq_some_iff.2 hs)

theorem Alternating.clear_of (h : Alternating again log) (hs : (raisedAt log).isSome) :
    Alternating again (.cleared t :: log) := by
  obtain ⟨s, hs⟩ := Option.isSome_iff_exists.1 hs
  rw [raisedAt_eq_some_iff] at hs
  obtain ⟨rest, rfl⟩ := List.head?_eq_some_iff.1 hs
  exact .clear h

/-- What was said last decides whether the condition is raised: every clearing follows a raising. -/
theorem Alternating.tail {e : Entry} (h : Alternating again (e :: log)) : Alternating again log := by
  cases h with
  | raise h _ => exact h
  | clear h => exact h

end Log

end Rounds
