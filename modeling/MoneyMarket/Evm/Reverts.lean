/-
What a program does not revert with. `Avoids E x` rules out the errors `E` for `x`; a sequence avoids
them when each of its parts does, on the values that get there (`avoids_bind_iff`).
-/
import MoneyMarket.Evm.ERC20

namespace Evm

variable {κ ε α β : Type}

/-- If `x` fails, then not with an error in `E`. -/
def Avoids (E : ε → Prop) (x : Except ε α) : Prop := ∀ e, x = .error e → ¬ E e

section Rules

variable {E : ε → Prop} {x : Except ε α} {f : α → Except ε β}

@[simp] theorem avoids_ok (a : α) : Avoids E (.ok a : Except ε α) := fun _ h => by cases h

@[simp] theorem avoids_pure (a : α) : Avoids E (pure a : Except ε α) := avoids_ok a

@[simp] theorem avoids_error_iff {e : ε} : Avoids E (.error e : Except ε α) ↔ ¬ E e := by
  constructor
  · intro h
    exact h e rfl
  · rintro h _ ⟨⟩
    exact h

/-- The later parts run only where the earlier ones succeed. -/
@[simp] theorem avoids_bind_iff : Avoids E (x >>= f) ↔ Avoids E x ∧ ∀ a, x = .ok a → Avoids E (f a) := by
  cases x with
  | error e =>
    show Avoids E (.error e : Except ε β) ↔ _
    simp
  | ok a =>
    show Avoids E (f a) ↔ _
    simp

@[simp] theorem avoids_map_iff {g : α → β} : Avoids E (g <$> x) ↔ Avoids E x := by
  cases x with
  | error e =>
    show Avoids E (.error e : Except ε β) ↔ _
    simp
  | ok a =>
    show Avoids E (.ok (g a) : Except ε β) ↔ _
    simp

end Rules

/-! ## The parts of a call -/

section Parts

variable {E : Revert κ → Prop} {a b : Nat}

@[simp] theorem avoids_require_iff {p : Prop} [Decidable p] {e : Revert κ} : Avoids E (require p e) ↔ p ∨ ¬ E e := by
  unfold require
  split_ifs with hp <;> simp [hp]

theorem avoids_returned (h : ¬ E .bubbled) (x : Option α) : Avoids E (returned x : Except (Revert κ) α) := by
  cases x with
  | none => exact avoids_error_iff.2 h
  | some a => exact avoids_ok a

theorem avoids_readAt (h : ¬ E (.panic .outOfBounds)) (xs : List α) (i : Nat) :
    Avoids E (readAt xs i : Except (Revert κ) α) := by
  unfold readAt
  split
  · exact avoids_ok _
  · exact avoids_error_iff.2 h

theorem avoids_checkedAdd (h : ¬ E (.panic .arithmetic)) : Avoids E (checkedAdd a b : Except (Revert κ) Nat) := by
  unfold checkedAdd
  split_ifs <;> simp [h]

theorem avoids_checkedSub (h : ¬ E (.panic .arithmetic)) : Avoids E (checkedSub a b : Except (Revert κ) Nat) := by
  unfold checkedSub
  split_ifs <;> simp [h]

theorem avoids_checkedMul (h : ¬ E (.panic .arithmetic)) : Avoids E (checkedMul a b : Except (Revert κ) Nat) := by
  unfold checkedMul
  split_ifs <;> simp [h]

theorem avoids_checkedDiv (h : ¬ E (.panic .divisionByZero)) : Avoids E (checkedDiv a b : Except (Revert κ) Nat) := by
  unfold checkedDiv
  split_ifs <;> simp [h]

end Parts

end Evm
