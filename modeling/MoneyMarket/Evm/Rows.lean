/-
A ledger with what one account allows put to something else. What others do on it they do on the
ledger itself: the same calls fail, and those that go through leave it with the same row put in.
-/
import MoneyMarket.Evm.ERC20
import MoneyMarket.Lib.Relational

namespace Evm.ERC20

open Relational

variable {κ : Type} {t t' : ERC20} {u a b c owner spender : Address} {row : Address → Nat} {amount : Nat}

/-- The ledger where `u` allows what `row` says. -/
def withRow (t : ERC20) (u : Address) (row : Address → Nat) : ERC20 :=
  { t with allowance := Function.update t.allowance u row }

@[simp] theorem withRow_balanceOf : (t.withRow u row).balanceOf = t.balanceOf := rfl
@[simp] theorem withRow_totalSupply : (t.withRow u row).totalSupply = t.totalSupply := rfl

@[simp] theorem withRow_self : (t.withRow u row).allowance u = row := Function.update_self ..

theorem withRow_other (h : owner ≠ u) : (t.withRow u row).allowance owner = t.allowance owner :=
  Function.update_of_ne h _ _

theorem withRow_same : t.withRow u (t.allowance u) = t :=
  congrArg (fun allowance => { t with allowance }) (Function.update_eq_self u t.allowance)

theorem withRow_again (row row' : Address → Nat) : (t.withRow u row).withRow u row' = t.withRow u row' :=
  congrArg (fun allowance => { t with allowance }) (Function.update_idem row row' t.allowance)

theorem setAllowance_row (v : Nat) :
    t.setAllowance owner spender v = t.withRow owner (Function.update (t.allowance owner) spender v) := rfl

theorem setAllowance_withRow (h : owner ≠ u) (v : Nat) :
    (t.withRow u row).setAllowance owner spender v = (t.setAllowance owner spender v).withRow u row := by
  rw [setAllowance_row, setAllowance_row, withRow_other h]
  exact congrArg (fun allowance => { t with allowance }) (Function.update_comm h.symm _ _ _)

/-! ## The operations -/

/-- What two ledgers related by a row end in. -/
abbrev SameRow (u : Address) (row : Address → Nat) (t t' : ERC20) : Prop := t' = t.withRow u row

theorem transfer_withRow : Both (SameRow u row) (t.transfer a b amount : Except (Revert κ) ERC20)
    ((t.withRow u row).transfer a b amount) := by
  unfold transfer
  exact .same fun _ _ => .same fun _ _ => .same fun _ _ => .ok rfl

theorem approve_withRow (h : owner ≠ u) :
    Both (SameRow u row) (t.approve owner spender amount : Except (Revert κ) ERC20)
      ((t.withRow u row).approve owner spender amount) := by
  unfold approve
  exact .same fun _ _ => .same fun _ _ => .ok (setAllowance_withRow h amount)

theorem safeApprove_withRow (h : owner ≠ u) :
    Both (SameRow u row) (t.safeApprove owner spender amount : Except (Revert κ) ERC20)
      ((t.withRow u row).safeApprove owner spender amount) := by
  unfold safeApprove
  rw [withRow_other h]
  exact .same fun _ _ => approve_withRow h

theorem transferFrom_withRow (h : a ≠ u) :
    Both (SameRow u row) (t.transferFrom spender a b amount : Except (Revert κ) ERC20)
      ((t.withRow u row).transferFrom spender a b amount) := by
  have hspend : Both (SameRow u row) (t.spendAllowance a spender amount : Except (Revert κ) ERC20)
      ((t.withRow u row).spendAllowance a spender amount) := by
    unfold spendAllowance
    rw [withRow_other h]
    exact .branch (fun _ => .ok rfl) fun _ => .same fun _ _ => approve_withRow h
  unfold transferFrom
  refine .bind hspend ?_
  rintro t₁ _ - - rfl
  exact transfer_withRow

/-! ## Draws -/

/-- `spender` may draw the amount. -/
def Allows (t : ERC20) (owner spender : Address) (amount : Nat) : Prop :=
  t.allowance owner spender = uintSize - 1 ∨ amount ≤ t.allowance owner spender

/-- What a draw leaves the owner allowing. -/
def spentRow (t : ERC20) (owner spender : Address) (amount : Nat) : Address → Nat :=
  if t.allowance owner spender = uintSize - 1 then t.allowance owner
  else Function.update (t.allowance owner) spender (t.allowance owner spender - amount)

/-- A draw puts the row in and moves the tokens. -/
theorem transferFrom_ok_iff (hspender : spender ≠ 0) :
    (t.transferFrom spender a b amount : Except (Revert κ) ERC20) = .ok t' ↔
      t.Allows a spender amount ∧ a ≠ 0 ∧ b ≠ 0 ∧ amount ≤ t.balanceOf a ∧
        (t.move a b amount).withRow a (t.spentRow a spender amount) = t' := by
  unfold transferFrom spendAllowance Allows spentRow
  by_cases hmax : t.allowance a spender = uintSize - 1
  · rw [if_pos hmax, if_pos hmax]
    have hsame : (t.move a b amount).withRow a (t.allowance a) = t.move a b amount := withRow_same
    simp only [bind_ok_iff, Except.ok.injEq, exists_eq_left', transfer_ok_iff, hsame, hmax, true_or, true_and]
  · rw [if_neg hmax, if_neg hmax]
    simp only [bind_ok_iff, require_ok_iff, approve_ok_iff, transfer_ok_iff]
    constructor
    · rintro ⟨_, ⟨_, hle, ha, -, rfl⟩, -, hb, hbal, rfl⟩
      exact ⟨.inr hle, ha, hb, hbal, rfl⟩
    · rintro ⟨hle | hle, ha, hb, hbal, rfl⟩
      · exact absurd hle hmax
      · exact ⟨_, ⟨(), hle, ha, hspender, rfl⟩, ha, hb, hbal, rfl⟩

/-- A draw on the whole allowance leaves the row. -/
theorem transferFrom_max_iff (hmax : t.allowance a spender = uintSize - 1) :
    (t.transferFrom spender a b amount : Except (Revert κ) ERC20) = .ok t' ↔
      a ≠ 0 ∧ b ≠ 0 ∧ amount ≤ t.balanceOf a ∧ t.move a b amount = t' := by
  unfold transferFrom spendAllowance
  rw [if_pos hmax]
  exact transfer_ok_iff

/-! ## Passing on -/

theorem move_other (t : ERC20) (v : Nat) (ha : u ≠ a) (hb : u ≠ b) :
    (t.move a b v).balanceOf u = t.balanceOf u := by
  rw [move_balanceOf, if_neg hb, if_neg ha]

/-- What goes through an account in between goes straight. -/
theorem move_through (hab : a ≠ b) (hbc : b ≠ c) (v : Nat) : (t.move a b v).move b c v = t.move a c v := by
  have hbalances : ((t.move a b v).move b c v).balanceOf = (t.move a c v).balanceOf := by
    funext x
    rw [move_balanceOf, if_neg hbc.symm, move_balanceOf, move_balanceOf, move_balanceOf, move_balanceOf, if_pos rfl,
      if_neg hab.symm, if_neg hbc.symm, Nat.add_sub_cancel]
    by_cases hxc : x = c
    · rw [if_pos hxc, if_pos hxc]
    · rw [if_neg hxc, if_neg hxc]
      by_cases hxb : x = b
      · rw [if_pos hxb, if_neg fun hxa => hab (hxa.symm.trans hxb), hxb]
      · rw [if_neg hxb, if_neg hxb]
  exact congrArg (fun balanceOf => { t with balanceOf }) hbalances

/-- What is minted to one account and passed on is minted to the other. -/
theorem mint_through (hab : a ≠ b) (v : Nat) :
    ({ t.setBalance a (t.balanceOf a + v) with totalSupply := t.totalSupply + v } : ERC20).move a b v =
      { t.setBalance b (t.balanceOf b + v) with totalSupply := t.totalSupply + v } := by
  have hbalances : (({ t.setBalance a (t.balanceOf a + v) with totalSupply := t.totalSupply + v } : ERC20).move a b
      v).balanceOf = (t.setBalance b (t.balanceOf b + v)).balanceOf := by
    funext x
    rw [move_balanceOf]
    simp only [setBalance_balanceOf, Function.update_self, Function.update_apply, if_neg hab.symm,
      Nat.add_sub_cancel]
    split_ifs with hxb hxa
    · rfl
    · rw [hxa]
    · rfl
  exact congrArg (fun balanceOf => { t with balanceOf, totalSupply := t.totalSupply + v }) hbalances

end Evm.ERC20
