/-
Two ledgers of one token that differ by gifts to one account: the other accounts hold no more, it
holds no less, and the rest is the same. Every operation keeps them so, and fails on one where it
fails on the other, as long as it asks no account for what only its gifts are missing.
-/
import MoneyMarket.Evm.ERC20
import MoneyMarket.Lib.Relational

namespace Evm

open Relational

/-- `t'` is `t` after gifts to `payee`. -/
structure Gifted (payee : Address) (t t' : ERC20) : Prop where
  allowance : t'.allowance = t.allowance
  supply : t'.totalSupply = t.totalSupply
  self_le : t.balanceOf payee ≤ t'.balanceOf payee
  other_le : ∀ x, x ≠ payee → t'.balanceOf x ≤ t.balanceOf x
  conserved : t'.Conserved
  supply_lt : t'.totalSupply < uintSize

/-- Gifts leave `x` what it had, or `amount`. -/
def Covers (t t' : ERC20) (x : Address) (amount : Nat) : Prop :=
  t'.balanceOf x = t.balanceOf x ∨ amount ≤ t'.balanceOf x

theorem Covers.mono {t t' : ERC20} {x : Address} {m n : Nat} (h : Covers t t' x n) (hle : m ≤ n) :
    Covers t t' x m :=
  h.imp id fun hn => le_trans hle hn

namespace Gifted

variable {κ : Type} {payee : Address} {t t' u : ERC20} {src dst : Address} {amount : Nat}

theorem covered (h : Gifted payee t t') {x : Address} (hx : x ≠ payee) (hc : Covers t t' x amount) :
    amount ≤ t.balanceOf x ↔ amount ≤ t'.balanceOf x := by
  have hle := h.other_le x hx
  rcases hc with hc | hc <;> omega

theorem self_lt (h : Gifted payee t t') : t'.balanceOf payee < uintSize :=
  lt_of_le_of_lt (h.conserved.balance_le payee) h.supply_lt

/-- One more gift. -/
theorem give (h : Gifted payee t t') (hsrc : src ≠ payee)
    (hgift : (t'.transfer src payee amount : Except (Revert κ) ERC20) = .ok u) : Gifted payee t u := by
  obtain ⟨-, -, hle, rfl⟩ := ERC20.transfer_ok_iff.1 hgift
  refine ⟨h.allowance, h.supply, le_trans h.self_le (ERC20.le_move t' _ _ _ hsrc.symm), fun x hx => ?_,
    h.conserved.move hle, h.supply_lt⟩
  refine le_trans ?_ (h.other_le x hx)
  rw [ERC20.move_balanceOf, if_neg hx]
  split_ifs with hxs
  · rw [hxs]; exact Nat.sub_le _ _
  · exact le_refl _

theorem move (h : Gifted payee t t') (hle' : amount ≤ t'.balanceOf src) :
    Gifted payee (t.move src dst amount) (t'.move src dst amount) := by
  refine ⟨h.allowance, h.supply, ?_, fun x hx => ?_, h.conserved.move hle', h.supply_lt⟩
  · have hself := h.self_le
    rw [ERC20.move_balanceOf, ERC20.move_balanceOf]
    split_ifs with h1 h2 h2
    · rw [← h2, ← h1]; omega
    · rw [← h1]; omega
    · rw [← h2]; omega
    · exact hself
  · have hother := h.other_le x hx
    rw [ERC20.move_balanceOf, ERC20.move_balanceOf]
    split_ifs with h1 h2 h2
    · rw [← h2, ← h1]; omega
    · rw [← h1]; omega
    · rw [← h2]; omega
    · exact hother

theorem congr {v v' : ERC20} (h : Gifted payee t t') (hb : v.balanceOf = t.balanceOf)
    (hb' : v'.balanceOf = t'.balanceOf) (ha : v'.allowance = v.allowance) (hs : v.totalSupply = t.totalSupply)
    (hs' : v'.totalSupply = t'.totalSupply) : Gifted payee v v' := by
  refine ⟨ha, by rw [hs', hs]; exact h.supply, by rw [hb, hb']; exact h.self_le, by rw [hb, hb']; exact h.other_le,
    h.conserved.congr hb' hs', by rw [hs']; exact h.supply_lt⟩

/-! ## The operations -/

theorem transfer (h : Gifted payee t t') (hcov : amount ≤ t.balanceOf src ↔ amount ≤ t'.balanceOf src) :
    Both (Gifted payee) (t.transfer src dst amount : Except (Revert κ) ERC20) (t'.transfer src dst amount) := by
  unfold ERC20.transfer
  refine .same fun _ _ => .same fun _ _ => ?_
  by_cases hle : amount ≤ t.balanceOf src
  · have hle' := hcov.1 hle
    simp only [require, if_pos hle, if_pos hle']
    exact .ok (h.move hle')
  · simp only [require, if_neg hle, if_neg fun hle' => hle (hcov.2 hle')]
    exact .error _

/-- Two ledgers after the same change of their allowances. -/
def SameBalances (payee : Address) (t t' v v' : ERC20) : Prop :=
  Gifted payee v v' ∧ v.balanceOf = t.balanceOf ∧ v'.balanceOf = t'.balanceOf

theorem approve (h : Gifted payee t t') (owner spender : Address) (amount : Nat) :
    Both (SameBalances payee t t') (t.approve owner spender amount : Except (Revert κ) ERC20)
      (t'.approve owner spender amount) := by
  unfold ERC20.approve
  refine .same fun _ _ => .same fun _ _ => .ok ⟨h.congr rfl rfl ?_ rfl rfl, rfl, rfl⟩
  show (t'.setAllowance owner spender amount).allowance = (t.setAllowance owner spender amount).allowance
  unfold ERC20.setAllowance
  rw [h.allowance]

theorem safeApprove (h : Gifted payee t t') (owner spender : Address) (amount : Nat) :
    Both (SameBalances payee t t') (t.safeApprove owner spender amount : Except (Revert κ) ERC20)
      (t'.safeApprove owner spender amount) := by
  unfold ERC20.safeApprove
  rw [h.allowance]
  exact .same fun _ _ => h.approve owner spender amount

theorem spendAllowance (h : Gifted payee t t') (owner spender : Address) (amount : Nat) :
    Both (SameBalances payee t t') (t.spendAllowance owner spender amount : Except (Revert κ) ERC20)
      (t'.spendAllowance owner spender amount) := by
  unfold ERC20.spendAllowance
  rw [h.allowance]
  exact .branch (fun _ => .ok ⟨h, rfl, rfl⟩) fun _ => .same fun _ _ => h.approve owner spender _

theorem transferFrom {spender : Address} (h : Gifted payee t t')
    (hcov : t.allowance src spender = uintSize - 1 ∨ amount ≤ t.allowance src spender →
      (amount ≤ t.balanceOf src ↔ amount ≤ t'.balanceOf src)) :
    Both (Gifted payee) (t.transferFrom spender src dst amount : Except (Revert κ) ERC20)
      (t'.transferFrom spender src dst amount) := by
  unfold ERC20.transferFrom
  refine .bind (h.spendAllowance src spender amount) ?_
  rintro v v' hspend - ⟨hv, hb, hb'⟩
  apply hv.transfer
  rw [hb, hb']
  exact hcov (ERC20.spendAllowance_ok hspend).2.2.2

theorem mint (h : Gifted payee t t') (account : Address) (amount : Nat) :
    Both (Gifted payee) (t.mint account amount : Except (Revert κ) ERC20) (t'.mint account amount) := by
  unfold ERC20.mint
  rw [h.supply]
  refine .same fun _ hne => .same fun supply hadd => .ok ?_
  obtain ⟨hlt, rfl⟩ := checkedAdd_ok_iff.1 hadd
  have hmint : (t'.mint account amount : Except (Revert κ) ERC20) =
      .ok { t'.setBalance account (t'.balanceOf account + amount) with totalSupply := t.totalSupply + amount } :=
    ERC20.mint_ok_iff.2 ⟨require_ok_iff.1 hne, by rw [h.supply]; exact hlt, by rw [h.supply]⟩
  refine ⟨h.allowance, rfl, ?_, fun x hx => ?_, h.conserved.mint hmint, hlt⟩
  · have hself := h.self_le
    simp only [ERC20.setBalance_balanceOf, Function.update_apply]
    split_ifs with hp
    · rw [← hp]; omega
    · exact hself
  · have hother := h.other_le x hx
    simp only [ERC20.setBalance_balanceOf, Function.update_apply]
    split_ifs with hp
    · rw [← hp]; omega
    · exact hother

theorem burn {account : Address} (h : Gifted payee t t') (hne : account ≠ payee)
    (hcov : amount ≤ t.balanceOf account ↔ amount ≤ t'.balanceOf account) :
    Both (Gifted payee) (t.burn account amount : Except (Revert κ) ERC20) (t'.burn account amount) := by
  unfold ERC20.burn
  refine .same fun _ hzero => ?_
  by_cases hle : amount ≤ t.balanceOf account
  · have hle' := hcov.1 hle
    have hburn : (t'.burn account amount : Except (Revert κ) ERC20) = .ok _ :=
      ERC20.burn_ok_iff.2 ⟨require_ok_iff.1 hzero, hle', rfl⟩
    simp only [require, if_pos hle, if_pos hle']
    refine .ok ⟨h.allowance, ?_, ?_, fun x hx => ?_, h.conserved.burn hburn, ?_⟩
    · show t'.totalSupply - amount = t.totalSupply - amount
      rw [h.supply]
    · simp only [ERC20.setBalance_balanceOf, Function.update_of_ne hne.symm]
      exact h.self_le
    · have hother := h.other_le x hx
      simp only [ERC20.setBalance_balanceOf, Function.update_apply]
      split_ifs with hp
      · rw [← hp]; omega
      · exact hother
    · exact lt_of_le_of_lt (Nat.sub_le _ _) h.supply_lt
  · simp only [require, if_neg hle, if_neg fun hle' => hle (hcov.2 hle')]
    exact .error _

end Gifted

/-- What a call of `sender` asks of `x`. -/
def ERC20.Call.asks (sender : Address) : ERC20.Call → Address → Nat
  | .transfer _ amount, x => if x = sender then amount else 0
  | .transferFrom src _ amount, x => if x = src then amount else 0
  | _, _ => 0

/-- A call by another account that draws on another account. -/
theorem Gifted.call {κ : Type} {payee sender : Address} {t t' : ERC20} {c : ERC20.Call} (h : Gifted payee t t')
    (hcov : ∀ x, c.asks sender x ≤ t.balanceOf x ↔ c.asks sender x ≤ t'.balanceOf x) :
    Both (Gifted payee) (t.call sender c : Except (Revert κ) ERC20) (t'.call sender c) := by
  cases c with
  | transfer dst amount =>
    have hsrc := hcov sender
    simp only [ERC20.Call.asks, if_true] at hsrc
    exact h.transfer hsrc
  | transferFrom src dst amount =>
    have hsrc := hcov src
    simp only [ERC20.Call.asks, if_true] at hsrc
    exact h.transferFrom fun _ => hsrc
  | approve spender amount => exact (h.approve sender spender amount).mono fun _ _ hv => hv.1
  | increaseAllowance spender addedValue =>
    show Both _ (_ >>= _) (_ >>= _)
    rw [h.allowance]
    exact .same fun _ _ => (h.approve sender spender _).mono fun _ _ hv => hv.1
  | decreaseAllowance spender subtractedValue =>
    show Both _ (_ >>= _) (_ >>= _)
    rw [h.allowance]
    exact .same fun _ _ => (h.approve sender spender _).mono fun _ _ hv => hv.1

end Evm
