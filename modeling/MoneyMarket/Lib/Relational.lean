/-
Two programs of an error monad side by side: they fail with the same error, or end in related
values. The rules follow the two programs step by step.
-/
import Mathlib.Tactic

namespace Relational

variable {ε α β α' β' : Type} {R : α → β → Prop} {S : α' → β' → Prop}

inductive Both (R : α → β → Prop) : Except ε α → Except ε β → Prop
  | ok {a : α} {b : β} : R a b → Both R (.ok a) (.ok b)
  | error (e : ε) : Both R (.error e) (.error e)

namespace Both

variable {x : Except ε α} {y : Except ε β} {f : α → Except ε α'} {g : β → Except ε β'}

/-- Related parts, then related continuations. -/
theorem bind (hxy : Both R x y) (hfg : ∀ a b, x = .ok a → y = .ok b → R a b → Both S (f a) (g b)) :
    Both S (x >>= f) (y >>= g) := by
  cases hxy with
  | ok h => exact hfg _ _ rfl rfl h
  | error e => exact .error e

/-- The same part on both sides, then related continuations. -/
theorem same {x : Except ε α} {g : α → Except ε β'} (hfg : ∀ a, x = .ok a → Both S (f a) (g a)) :
    Both S (x >>= f) (x >>= g) := by
  cases x with
  | ok a => exact hfg a rfl
  | error e => exact .error e

/-- The same branch on both sides. -/
theorem branch {p : Prop} [Decidable p] {x x' : Except ε α} {y y' : Except ε β} (ht : p → Both R x y)
    (hf : ¬ p → Both R x' y') : Both R (if p then x else x') (if p then y else y') := by
  by_cases hp : p
  · rw [if_pos hp, if_pos hp]; exact ht hp
  · rw [if_neg hp, if_neg hp]; exact hf hp

theorem refl {R : α → α → Prop} (hrefl : ∀ a, R a a) (x : Except ε α) : Both R x x := by
  cases x with
  | ok a => exact .ok (hrefl a)
  | error e => exact .error e

theorem mono {R' : α → β → Prop} (h : Both R x y) (hR : ∀ a b, R a b → R' a b) : Both R' x y := by
  cases h with
  | ok h => exact .ok (hR _ _ h)
  | error e => exact .error e

/-- Two successes are related. -/
theorem values (h : Both R x y) {a : α} {b : β} (hx : x = .ok a) (hy : y = .ok b) : R a b := by
  cases h with
  | ok h =>
    cases hx
    cases hy
    exact h
  | error e => cases hx

/-- How the two sides end. -/
theorem sides (h : Both R x y) :
    (∃ e, x = .error e ∧ y = .error e) ∨ ∃ a b, x = .ok a ∧ y = .ok b ∧ R a b := by
  cases h with
  | ok h => exact .inr ⟨_, _, rfl, rfl, h⟩
  | error e => exact .inl ⟨e, rfl, rfl⟩

end Both

end Relational
