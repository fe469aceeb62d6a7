/-
Checked `uint256` arithmetic and reverting programs. A contract function is a program of
`Except (Revert κ)`, with `κ` the contract's custom errors: an `.error` undoes the whole call.
Every operator is inverted by a simp lemma, so a successful run reads as a conjunction of guards
and values.
-/
import Mathlib.Tactic

namespace Evm

/-- The compiler-inserted panics a modelled function can raise. -/
inductive Panic
  | arithmetic
  | divisionByZero
  | outOfBounds
  deriving Repr, DecidableEq

/-- Why a call reverts: a panic, an `Error(string)`, a custom error, or a revert bubbling up
from an external call that is not caught. -/
inductive Revert (κ : Type) where
  | panic (code : Panic)
  | reason (text : String)
  | custom (error : κ)
  | bubbled
  deriving Repr, DecidableEq

/-- The number of `uint256` values. -/
def uintSize : Nat := 2 ^ 256

section Programs

variable {κ α β : Type}

/-- `require(p)`, or `if (!p) revert e`. -/
def require (p : Prop) [Decidable p] (e : Revert κ) : Except (Revert κ) Unit :=
  if p then .ok () else .error e

/-- The value of an uncaught external view call. -/
def returned : Option α → Except (Revert κ) α
  | some a => .ok a
  | none => .error .bubbled

/-- A storage array read. -/
def readAt (xs : List α) (i : Nat) : Except (Revert κ) α :=
  match xs[i]? with
  | some a => .ok a
  | none => .error (.panic .outOfBounds)

/-- A storage array write. -/
def writeAt (xs : List α) (i : Nat) (a : α) : Except (Revert κ) (List α) :=
  if i < xs.length then .ok (xs.set i a) else .error (.panic .outOfBounds)

def checkedAdd (a b : Nat) : Except (Revert κ) Nat :=
  if a + b < uintSize then .ok (a + b) else .error (.panic .arithmetic)

def checkedSub (a b : Nat) : Except (Revert κ) Nat :=
  if b ≤ a then .ok (a - b) else .error (.panic .arithmetic)

def checkedMul (a b : Nat) : Except (Revert κ) Nat :=
  if a * b < uintSize then .ok (a * b) else .error (.panic .arithmetic)

def checkedPow (a b : Nat) : Except (Revert κ) Nat :=
  if a ^ b < uintSize then .ok (a ^ b) else .error (.panic .arithmetic)

def checkedDiv (a b : Nat) : Except (Revert κ) Nat :=
  if b = 0 then .error (.panic .divisionByZero) else .ok (a / b)

/-- `int256(a)`. -/
def asInt256 (a : Nat) : Int := if a < 2 ^ 255 then a else a - 2 ^ 256

/-- `int256(a) - int256(b)`. -/
def checkedDelta (a b : Nat) : Except (Revert κ) Int :=
  let delta := asInt256 a - asInt256 b
  if -2 ^ 255 ≤ delta ∧ delta < 2 ^ 255 then .ok delta else .error (.panic .arithmetic)

/-! ## Successful runs -/

@[simp] theorem bind_ok_iff {ε : Type} {x : Except ε α} {f : α → Except ε β} {b : β} :
    (x >>= f) = .ok b ↔ ∃ a, x = .ok a ∧ f a = .ok b := by
  cases x <;> simp [bind, Except.bind]

@[simp] theorem pure_ok_iff {ε : Type} {a b : α} : (pure a : Except ε α) = .ok b ↔ a = b := by
  simp [pure, Except.pure]

@[simp] theorem map_ok_iff {ε : Type} {x : Except ε α} {f : α → β} {b : β} :
    (f <$> x) = .ok b ↔ ∃ a, x = .ok a ∧ f a = b := by
  cases x <;> simp [Functor.map, Except.map]

@[simp] theorem require_ok_iff {p : Prop} [Decidable p] {e : Revert κ} {u : Unit} :
    require p e = .ok u ↔ p := by
  unfold require; split <;> simp_all

@[simp] theorem returned_ok_iff {x : Option α} {a : α} :
    (returned x : Except (Revert κ) α) = .ok a ↔ x = some a := by
  cases x <;> simp [returned]

@[simp] theorem readAt_ok_iff {xs : List α} {i : Nat} {a : α} :
    (readAt xs i : Except (Revert κ) α) = .ok a ↔ xs[i]? = some a := by
  unfold readAt; cases xs[i]? <;> simp

@[simp] theorem writeAt_ok_iff {xs ys : List α} {i : Nat} {a : α} :
    (writeAt xs i a : Except (Revert κ) (List α)) = .ok ys ↔ i < xs.length ∧ xs.set i a = ys := by
  unfold writeAt; split <;> simp_all

@[simp] theorem checkedAdd_ok_iff {a b c : Nat} :
    (checkedAdd a b : Except (Revert κ) Nat) = .ok c ↔ a + b < uintSize ∧ a + b = c := by
  unfold checkedAdd; split <;> simp_all

@[simp] theorem checkedSub_ok_iff {a b c : Nat} :
    (checkedSub a b : Except (Revert κ) Nat) = .ok c ↔ b ≤ a ∧ a - b = c := by
  unfold checkedSub; split <;> simp_all

@[simp] theorem checkedMul_ok_iff {a b c : Nat} :
    (checkedMul a b : Except (Revert κ) Nat) = .ok c ↔ a * b < uintSize ∧ a * b = c := by
  unfold checkedMul; split <;> simp_all

@[simp] theorem checkedPow_ok_iff {a b c : Nat} :
    (checkedPow a b : Except (Revert κ) Nat) = .ok c ↔ a ^ b < uintSize ∧ a ^ b = c := by
  unfold checkedPow; split <;> simp_all

@[simp] theorem checkedDiv_ok_iff {a b c : Nat} :
    (checkedDiv a b : Except (Revert κ) Nat) = .ok c ↔ b ≠ 0 ∧ a / b = c := by
  unfold checkedDiv; split <;> simp_all

/-! ## Programs that succeed -/

/-- A sequence succeeds when its first part does, and the rest does on its value. -/
theorem exists_bind_ok {ε : Type} {x : Except ε α} {f : α → Except ε β} :
    (∃ b, (x >>= f) = .ok b) ↔ ∃ a, x = .ok a ∧ ∃ b, f a = .ok b := by
  simp only [bind_ok_iff]
  constructor
  · rintro ⟨b, a, ha, hb⟩; exact ⟨a, ha, b, hb⟩
  · rintro ⟨a, ha, b, hb⟩; exact ⟨b, a, ha, hb⟩

/-! ## Programs step by step -/

variable {f : α → Except (Revert κ) β} {g : Unit → Except (Revert κ) β} {p : Prop} [Decidable p] {e : Revert κ}

theorem returned_bind (a : α) : (returned (some a) >>= f) = f a := by
  rw [returned]
  rfl

theorem require_bind (h : p) : (require p e >>= g) = g () := by
  rw [require, if_pos h]
  rfl

/-- A failed guard is the whole program. -/
theorem require_bind_error (h : ¬ p) : (require p e >>= g) = .error e := by
  rw [require, if_neg h]
  rfl

end Programs

end Evm
