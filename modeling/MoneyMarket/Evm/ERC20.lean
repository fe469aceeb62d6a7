/-
The plain ERC-20 ledger: balances, allowances and the supply, with the transfers, mints, burns
and approvals every such token makes. Addresses are the 160-bit words, `0` the zero address.
The laws: what one operation does to one balance, and that the balances always add up to the
supply, so two accounts never hold more than it.
-/
import MoneyMarket.Evm.Checked
import MoneyMarket.Lib.Sums

namespace Evm

/-- A 160-bit account address. -/
abbrev Address := Fin (2 ^ 160)

instance addressWord : NeZero (2 ^ 160) := ⟨by decide⟩

/-- The state of a token. -/
structure ERC20 where
  balanceOf : Address → Nat
  allowance : Address → Address → Nat
  totalSupply : Nat

namespace ERC20

variable {κ : Type}

def setBalance (t : ERC20) (a : Address) (v : Nat) : ERC20 :=
  { t with balanceOf := Function.update t.balanceOf a v }

def setAllowance (t : ERC20) (owner spender : Address) (v : Nat) : ERC20 :=
  { t with allowance := Function.update t.allowance owner (Function.update (t.allowance owner) spender v) }

/-- `_transfer`. The credit reads the balance the debit left, so a transfer to oneself is neutral. -/
def move (t : ERC20) (src dst : Address) (amount : Nat) : ERC20 :=
  let t := t.setBalance src (t.balanceOf src - amount)
  t.setBalance dst (t.balanceOf dst + amount)

def transfer (t : ERC20) (src dst : Address) (amount : Nat) : Except (Revert κ) ERC20 := do
  require (src ≠ 0) (.reason "ERC20: transfer from the zero address")
  require (dst ≠ 0) (.reason "ERC20: transfer to the zero address")
  require (amount ≤ t.balanceOf src) (.reason "ERC20: transfer amount exceeds balance")
  return t.move src dst amount

def mint (t : ERC20) (account : Address) (amount : Nat) : Except (Revert κ) ERC20 := do
  require (account ≠ 0) (.reason "ERC20: mint to the zero address")
  let totalSupply ← checkedAdd t.totalSupply amount
  return { t.setBalance account (t.balanceOf account + amount) with totalSupply }

def burn (t : ERC20) (account : Address) (amount : Nat) : Except (Revert κ) ERC20 := do
  require (account ≠ 0) (.reason "ERC20: burn from the zero address")
  require (amount ≤ t.balanceOf account) (.reason "ERC20: burn amount exceeds balance")
  return { t.setBalance account (t.balanceOf account - amount) with totalSupply := t.totalSupply - amount }

def approve (t : ERC20) (owner spender : Address) (amount : Nat) : Except (Revert κ) ERC20 := do
  require (owner ≠ 0) (.reason "ERC20: approve from the zero address")
  require (spender ≠ 0) (.reason "ERC20: approve to the zero address")
  return t.setAllowance owner spender amount

/-- The largest allowance is never spent down. -/
def spendAllowance (t : ERC20) (owner spender : Address) (amount : Nat) : Except (Revert κ) ERC20 :=
  if t.allowance owner spender = uintSize - 1 then .ok t
  else do
    require (amount ≤ t.allowance owner spender) (.reason "ERC20: insufficient allowance")
    t.approve owner spender (t.allowance owner spender - amount)

def transferFrom (t : ERC20) (spender src dst : Address) (amount : Nat) : Except (Revert κ) ERC20 := do
  let t ← t.spendAllowance src spender amount
  t.transfer src dst amount

/-- `SafeERC20.safeApprove`: an allowance is only set from zero or to zero. -/
def safeApprove (t : ERC20) (owner spender : Address) (amount : Nat) : Except (Revert κ) ERC20 := do
  require (amount = 0 ∨ t.allowance owner spender = 0)
    (.reason "SafeERC20: approve from non-zero to non-zero allowance")
  t.approve owner spender amount

/-- The calls any account can make on a token. -/
inductive Call where
  | transfer (dst : Address) (amount : Nat)
  | approve (spender : Address) (amount : Nat)
  | transferFrom (src dst : Address) (amount : Nat)
  | increaseAllowance (spender : Address) (addedValue : Nat)
  | decreaseAllowance (spender : Address) (subtractedValue : Nat)
  deriving Repr, DecidableEq

/-- A token call by `sender`. -/
def call (t : ERC20) (sender : Address) : Call → Except (Revert κ) ERC20
  | .transfer dst amount => t.transfer sender dst amount
  | .approve spender amount => t.approve sender spender amount
  | .transferFrom src dst amount => t.transferFrom sender src dst amount
  | .increaseAllowance spender addedValue => do
    t.approve sender spender (← checkedAdd (t.allowance sender spender) addedValue)
  | .decreaseAllowance spender subtractedValue => do
    require (subtractedValue ≤ t.allowance sender spender) (.reason "ERC20: decreased allowance below zero")
    t.approve sender spender (t.allowance sender spender - subtractedValue)

/-! ## What each operation leaves -/

section Fields

variable (t : ERC20) (a b owner spender : Address) (v : Nat)

@[simp] theorem setBalance_balanceOf : (t.setBalance a v).balanceOf = Function.update t.balanceOf a v := rfl
@[simp] theorem move_allowance : (t.move a b v).allowance = t.allowance := rfl

theorem setAllowance_other {o : Address} (h : o ≠ owner) :
    (t.setAllowance owner spender v).allowance o = t.allowance o := by
  simp [setAllowance, Function.update_of_ne h]

@[simp] theorem setAllowance_self : (t.setAllowance owner spender v).allowance owner spender = v := by
  simp [setAllowance]

theorem move_balanceOf (x : Address) :
    (t.move a b v).balanceOf x =
      if x = b then (if b = a then t.balanceOf a - v else t.balanceOf b) + v
      else if x = a then t.balanceOf a - v else t.balanceOf x := by
  simp only [move, setBalance_balanceOf, Function.update_apply]

/-- A transfer never lowers the balance of an account other than its source. -/
theorem le_move {x : Address} (ha : x ≠ a) : t.balanceOf x ≤ (t.move a b v).balanceOf x := by
  rw [move_balanceOf]
  split_ifs with h1 h2
  · exact absurd (h1.trans h2) ha
  · rw [h1]; omega
  · exact le_refl _

/-- The source of a covered transfer loses at most the amount. -/
theorem move_source {amount : Nat} (h : amount ≤ t.balanceOf a) :
    t.balanceOf a ≤ (t.move a b amount).balanceOf a + amount := by
  rw [move_balanceOf]
  by_cases hab : a = b
  · rw [if_pos hab, if_pos hab.symm]; omega
  · rw [if_neg hab, if_pos rfl]; omega

/-- The target of a covered transfer from another account gains the amount. -/
theorem move_target (h : b ≠ a) : (t.move a b v).balanceOf b = t.balanceOf b + v := by
  rw [move_balanceOf, if_pos rfl, if_neg h]

/-- A transfer and its return cancel out. -/
theorem move_back {amount : Nat} (hne : a ≠ b) (h : amount ≤ t.balanceOf a) :
    (t.move a b amount).move b a amount = t := by
  have hbal : ((t.move a b amount).move b a amount).balanceOf = t.balanceOf := by
    funext x
    rw [move_balanceOf, if_neg hne, move_balanceOf, move_balanceOf, move_balanceOf, if_pos rfl, if_neg hne,
      if_neg hne.symm, if_pos rfl, Nat.add_sub_cancel]
    split_ifs with hxa hxb
    · rw [hxa]; omega
    · rw [hxb]
    · rfl
  exact congrArg (fun balanceOf => { t with balanceOf }) hbal

end Fields

section Inversion

variable {t t' : ERC20} {a b owner spender : Address} {amount : Nat}

theorem transfer_ok_iff : (t.transfer a b amount : Except (Revert κ) ERC20) = .ok t' ↔
    a ≠ 0 ∧ b ≠ 0 ∧ amount ≤ t.balanceOf a ∧ t.move a b amount = t' := by
  simp [transfer]

theorem mint_ok_iff : (t.mint a amount : Except (Revert κ) ERC20) = .ok t' ↔
    a ≠ 0 ∧ t.totalSupply + amount < uintSize ∧
      { t.setBalance a (t.balanceOf a + amount) with totalSupply := t.totalSupply + amount } = t' := by
  simp [mint]

theorem burn_ok_iff : (t.burn a amount : Except (Revert κ) ERC20) = .ok t' ↔
    a ≠ 0 ∧ amount ≤ t.balanceOf a ∧
      { t.setBalance a (t.balanceOf a - amount) with totalSupply := t.totalSupply - amount } = t' := by
  simp [burn]

theorem approve_ok_iff : (t.approve owner spender amount : Except (Revert κ) ERC20) = .ok t' ↔
    owner ≠ 0 ∧ spender ≠ 0 ∧ t.setAllowance owner spender amount = t' := by
  simp [approve]

theorem safeApprove_ok_iff : (t.safeApprove owner spender amount : Except (Revert κ) ERC20) = .ok t' ↔
    (amount = 0 ∨ t.allowance owner spender = 0) ∧ owner ≠ 0 ∧ spender ≠ 0 ∧
      t.setAllowance owner spender amount = t' := by
  simp [safeApprove, approve]

/-- Spending an allowance moves no tokens, touches only the owner's row and needs the allowance. -/
theorem spendAllowance_ok (h : (t.spendAllowance owner spender amount : Except (Revert κ) ERC20) = .ok t') :
    t'.balanceOf = t.balanceOf ∧ t'.totalSupply = t.totalSupply ∧
      (∀ o, o ≠ owner → t'.allowance o = t.allowance o) ∧
      (t.allowance owner spender = uintSize - 1 ∨ amount ≤ t.allowance owner spender) := by
  unfold spendAllowance at h
  split at h
  · rename_i hmax
    cases h
    exact ⟨rfl, rfl, fun _ _ => rfl, .inl hmax⟩
  · simp only [bind_ok_iff, require_ok_iff, approve_ok_iff] at h
    obtain ⟨-, hle, -, -, rfl⟩ := h
    exact ⟨rfl, rfl, fun o ho => setAllowance_other _ _ _ _ ho, .inr hle⟩

/-- A delegated transfer moves the amount and touches only the owner's allowances. -/
theorem transferFrom_ok (h : (t.transferFrom spender a b amount : Except (Revert κ) ERC20) = .ok t') :
    a ≠ 0 ∧ b ≠ 0 ∧ amount ≤ t.balanceOf a ∧ t'.balanceOf = (t.move a b amount).balanceOf ∧
      t'.totalSupply = t.totalSupply ∧ (∀ o, o ≠ a → t'.allowance o = t.allowance o) ∧
      (t.allowance a spender = uintSize - 1 ∨ amount ≤ t.allowance a spender) := by
  simp only [transferFrom, bind_ok_iff, transfer_ok_iff] at h
  obtain ⟨t₁, h₁, ha, hb, hle, rfl⟩ := h
  obtain ⟨hbal, hsup, hoth, hall⟩ := spendAllowance_ok h₁
  refine ⟨ha, hb, by rw [← hbal]; exact hle, ?_, hsup, hoth, hall⟩
  funext x
  rw [move_balanceOf, move_balanceOf, hbal]

/-- A transfer that goes through does so whatever errors its caller knows. -/
theorem transferFrom_ok_any {κ' : Type} (h : (t.transferFrom spender a b amount : Except (Revert κ) ERC20) = .ok t') :
    (t.transferFrom spender a b amount : Except (Revert κ') ERC20) = .ok t' := by
  simp only [transferFrom, spendAllowance, bind_ok_iff, transfer_ok_iff] at h ⊢
  obtain ⟨t₁, hspend, htransfer⟩ := h
  refine ⟨t₁, ?_, htransfer⟩
  split_ifs at hspend ⊢ with hmax
  · cases hspend
    rfl
  · simp only [bind_ok_iff, require_ok_iff, approve_ok_iff] at hspend ⊢
    exact hspend

end Inversion

/-! ## Conservation -/

/-- The balances add up to the supply. -/
def Conserved (t : ERC20) : Prop := ∑ a, t.balanceOf a = t.totalSupply

section Conservation

variable {t t' : ERC20} {a b spender : Address} {amount : Nat}

/-- Two accounts never hold more than the supply. -/
theorem Conserved.add_le (h : t.Conserved) (hne : a ≠ b) : t.balanceOf a + t.balanceOf b ≤ t.totalSupply := by
  rw [← h]; exact Sums.add_le_sum t.balanceOf hne

theorem Conserved.balance_le (h : t.Conserved) (a : Address) : t.balanceOf a ≤ t.totalSupply := by
  rw [← h]; exact Finset.single_le_sum (f := t.balanceOf) (fun _ _ => Nat.zero_le _) (Finset.mem_univ a)

theorem Conserved.congr (h : t.Conserved) (hb : t'.balanceOf = t.balanceOf) (hs : t'.totalSupply = t.totalSupply) :
    t'.Conserved := by
  unfold Conserved; rw [hb, hs]; exact h

theorem Conserved.move (h : t.Conserved) (hle : amount ≤ t.balanceOf a) : (t.move a b amount).Conserved := by
  have h1 := Sums.sum_update t.balanceOf a (t.balanceOf a - amount)
  have h2 := Sums.sum_update (t.setBalance a (t.balanceOf a - amount)).balanceOf b
    ((t.setBalance a (t.balanceOf a - amount)).balanceOf b + amount)
  have h0 : ∑ x, t.balanceOf x = t.totalSupply := h
  show ∑ x, Function.update (t.setBalance a (t.balanceOf a - amount)).balanceOf b _ x = t.totalSupply
  simp only [setBalance_balanceOf] at h2 ⊢
  omega

theorem Conserved.mint (h : t.Conserved) (hm : (t.mint a amount : Except (Revert κ) ERC20) = .ok t') :
    t'.Conserved := by
  obtain ⟨-, -, rfl⟩ := mint_ok_iff.1 hm
  have h1 := Sums.sum_update t.balanceOf a (t.balanceOf a + amount)
  have h0 : ∑ x, t.balanceOf x = t.totalSupply := h
  show ∑ x, Function.update t.balanceOf a _ x = t.totalSupply + amount
  omega

theorem Conserved.burn (h : t.Conserved) (hb : (t.burn a amount : Except (Revert κ) ERC20) = .ok t') :
    t'.Conserved := by
  obtain ⟨-, hle, rfl⟩ := burn_ok_iff.1 hb
  have h1 := Sums.sum_update t.balanceOf a (t.balanceOf a - amount)
  have h0 : ∑ x, t.balanceOf x = t.totalSupply := h
  show ∑ x, Function.update t.balanceOf a _ x = t.totalSupply - amount
  omega

/-- Any account's call keeps the conservation. -/
theorem Conserved.call (h : t.Conserved) {sender : Address} {c : Call}
    (hc : (t.call sender c : Except (Revert κ) ERC20) = .ok t') : t'.Conserved := by
  cases c with
  | transfer dst amount =>
    obtain ⟨-, -, hle, rfl⟩ := transfer_ok_iff.1 hc
    exact h.move hle
  | approve spender amount =>
    obtain ⟨-, -, rfl⟩ := approve_ok_iff.1 hc
    exact h.congr rfl rfl
  | transferFrom src dst amount =>
    obtain ⟨-, -, hle, hb, hs, -⟩ := transferFrom_ok hc
    exact (h.move (b := dst) hle).congr hb hs
  | increaseAllowance spender addedValue =>
    simp only [ERC20.call, bind_ok_iff, approve_ok_iff] at hc
    obtain ⟨_, -, -, -, rfl⟩ := hc
    exact h.congr rfl rfl
  | decreaseAllowance spender subtractedValue =>
    simp only [ERC20.call, bind_ok_iff, approve_ok_iff] at hc
    obtain ⟨_, -, -, -, rfl⟩ := hc
    exact h.congr rfl rfl

end Conservation

/-! ## Accounts that do not act -/

section Frame

variable {t t' : ERC20} {a sender : Address} {c : Call}

/-- A call changes only the sender's allowances and those it has been given. -/
theorem call_allowance (hc : (t.call sender c : Except (Revert κ) ERC20) = .ok t') (ha : a ≠ sender)
    (hnone : ∀ s, t.allowance a s = 0) : ∀ s, t'.allowance a s = 0 := by
  cases c with
  | transfer dst amount =>
    obtain ⟨-, -, -, rfl⟩ := transfer_ok_iff.1 hc
    exact hnone
  | approve spender amount =>
    obtain ⟨-, -, rfl⟩ := approve_ok_iff.1 hc
    rw [setAllowance_other _ _ _ _ ha]; exact hnone
  | transferFrom src dst amount =>
    have hsp := hc
    simp only [ERC20.call, transferFrom, bind_ok_iff, transfer_ok_iff] at hsp
    obtain ⟨t₁, h₁, -, -, -, rfl⟩ := hsp
    simp only [move_allowance]
    by_cases hsrc : a = src
    · -- an owner that gave no allowance can only be drawn for nothing
      subst hsrc
      unfold spendAllowance at h₁
      rw [hnone sender, if_neg (by decide : ¬ 0 = uintSize - 1)] at h₁
      simp only [bind_ok_iff, approve_ok_iff] at h₁
      obtain ⟨_, -, -, -, rfl⟩ := h₁
      intro s
      simp only [setAllowance, Function.update_self, Function.update_apply]
      split_ifs
      · omega
      · exact hnone s
    · rw [(spendAllowance_ok h₁).2.2.1 a hsrc]; exact hnone
  | increaseAllowance spender addedValue =>
    simp only [ERC20.call, bind_ok_iff, approve_ok_iff] at hc
    obtain ⟨_, -, -, -, rfl⟩ := hc
    rw [setAllowance_other _ _ _ _ ha]; exact hnone
  | decreaseAllowance spender subtractedValue =>
    simp only [ERC20.call, bind_ok_iff, approve_ok_iff] at hc
    obtain ⟨_, -, -, -, rfl⟩ := hc
    rw [setAllowance_other _ _ _ _ ha]; exact hnone

/-- An account that neither calls nor has given an allowance loses nothing by a call. -/
theorem le_call (hc : (t.call sender c : Except (Revert κ) ERC20) = .ok t') (ha : a ≠ sender)
    (hnone : t.allowance a sender = 0) : t.balanceOf a ≤ t'.balanceOf a := by
  cases c with
  | transfer dst amount =>
    obtain ⟨-, -, -, rfl⟩ := transfer_ok_iff.1 hc
    exact le_move _ _ _ _ ha
  | approve spender amount =>
    obtain ⟨-, -, rfl⟩ := approve_ok_iff.1 hc
    exact le_refl _
  | transferFrom src dst amount =>
    obtain ⟨-, -, hle, hb, -, -, hall⟩ := transferFrom_ok hc
    rw [hb]
    by_cases hsrc : a = src
    · subst hsrc
      have : amount = 0 := by
        rcases hall with h | h
        · rw [hnone] at h; exact absurd h (by decide)
        · omega
      have := move_source t a dst hle
      omega
    · exact le_move _ _ _ _ hsrc
  | increaseAllowance spender addedValue =>
    simp only [ERC20.call, bind_ok_iff, approve_ok_iff] at hc
    obtain ⟨_, -, -, -, rfl⟩ := hc
    exact le_refl _
  | decreaseAllowance spender subtractedValue =>
    simp only [ERC20.call, bind_ok_iff, approve_ok_iff] at hc
    obtain ⟨_, -, -, -, rfl⟩ := hc
    exact le_refl _

/-- No call mints or burns. -/
theorem call_totalSupply (hc : (t.call sender c : Except (Revert κ) ERC20) = .ok t') :
    t'.totalSupply = t.totalSupply := by
  cases c with
  | transfer dst amount =>
    obtain ⟨-, -, -, rfl⟩ := transfer_ok_iff.1 hc
    rfl
  | approve spender amount =>
    obtain ⟨-, -, rfl⟩ := approve_ok_iff.1 hc
    rfl
  | transferFrom src dst amount => exact (transferFrom_ok hc).2.2.2.2.1
  | increaseAllowance spender addedValue =>
    simp only [ERC20.call, bind_ok_iff, approve_ok_iff] at hc
    obtain ⟨_, -, -, -, rfl⟩ := hc
    rfl
  | decreaseAllowance spender subtractedValue =>
    simp only [ERC20.call, bind_ok_iff, approve_ok_iff] at hc
    obtain ⟨_, -, -, -, rfl⟩ := hc
    rfl

end Frame

end ERC20

end Evm
