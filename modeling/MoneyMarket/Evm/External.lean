/-
What a contract sees of another one: signed words, and the ways an external view call can come
back to a `try`.
-/
import MoneyMarket.Evm.Checked

namespace Evm

/-! ## Signed words -/

/-- `int256`. -/
abbrev Int256 := { x : Int // -2 ^ 255 ≤ x ∧ x < 2 ^ 255 }

namespace Int256

/-- `uint256(x)`: the same word, unsigned. -/
def toUint (x : Int256) : Nat := (x.1 % 2 ^ 256).toNat

theorem asInt256_range (n : Nat) : -2 ^ 255 ≤ asInt256 (n % uintSize) ∧ asInt256 (n % uintSize) < 2 ^ 255 := by
  have hlt : n % uintSize < 2 ^ 256 := Nat.mod_lt _ (by decide)
  unfold asInt256
  split <;> omega

/-- `int256(n)`: the same word, signed. -/
def ofUint (n : Nat) : Int256 := ⟨asInt256 (n % uintSize), asInt256_range n⟩

theorem toUint_of_nonneg {x : Int256} (h : 0 ≤ x.1) : (x.toUint : Int) = x.1 := by
  have hx := x.2
  unfold toUint
  omega

/-- A negative number is a large word. -/
theorem toUint_of_neg {x : Int256} (h : x.1 < 0) : (x.toUint : Int) = x.1 + 2 ^ 256 := by
  have hx := x.2
  unfold toUint
  omega

theorem toUint_lt (x : Int256) : x.toUint < uintSize := by
  unfold toUint uintSize
  omega

/-- A small word is the number it is. -/
theorem ofUint_val {n : Nat} (h : n < 2 ^ 255) : (ofUint n).1 = n := by
  have hlt : n < uintSize := lt_trans h (by decide)
  show asInt256 (n % uintSize) = n
  rw [Nat.mod_eq_of_lt hlt]
  exact if_pos h

end Int256

/-! ## External view calls -/

/-- How an external view call comes back: with a value, with a revert, or with data that does not
decode, as from an account without code. -/
inductive Outcome (α : Type) where
  | value (a : α)
  | reverted
  | undecodable
  deriving Repr, DecidableEq

section Try

variable {κ α : Type}

/-- The value a `try` gets, none where its `catch` runs. What does not decode reverts the caller. -/
def tryCall : Outcome α → Except (Revert κ) (Option α)
  | .value a => .ok (some a)
  | .reverted => .ok none
  | .undecodable => .error .bubbled

@[simp] theorem tryCall_some_iff {x : Outcome α} {a : α} :
    (tryCall x : Except (Revert κ) (Option α)) = .ok (some a) ↔ x = .value a := by
  cases x <;> simp [tryCall]

@[simp] theorem tryCall_none_iff {x : Outcome α} :
    (tryCall x : Except (Revert κ) (Option α)) = .ok none ↔ x = .reverted := by
  cases x <;> simp [tryCall]

end Try

end Evm
