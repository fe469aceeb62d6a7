/-
Two states of the vault side by side that differ in the HOLLAR ledger and in the book of positions
alone (`Beside`). A call that reads neither does the same to both, and a claim does where both
ledgers pay it.
-/
import MoneyMarket.Lib.Relational
import MoneyMarket.Vault.Machine

namespace MoneyMarket

open Evm Relational

/-- The same state but for related ledgers and related books. -/
inductive Beside (T : ERC20 → ERC20 → Prop) (B : Book → Book → Prop) (s : State) : State → Prop
  | mk (token : ERC20) (book : Book) : T s.token token → B s.toBook book →
      Beside T B s { s with token, toBook := book }

/-- And the same value. -/
def Besides {α : Type} (T : ERC20 → ERC20 → Prop) (B : Book → Book → Prop) (p q : State × α) : Prop :=
  Beside T B p.1 q.1 ∧ q.2 = p.2

/-- The calls that read neither HOLLAR nor the book. -/
def Call.Apart : Call → Prop
  | .deposit _ _ | .mint _ _ | .redeem _ _ _ | .withdraw _ _ _ | .pokeDecentral _ | .pokeQueue | .syncMaturities _
  | .setTvlCap _ | .retirePool _ => False
  | _ => True

section Calls

variable {T : ERC20 → ERC20 → Prop} {B : Book → Book → Prop} {d : Deployment} {env : Replies} {s s' : State}
  {sender receiver controller owner : Address} {shares assets requestId : Nat}

/-- A call of its own checks alone. -/
theorem checked_beside {x y : Tx State} (h : Both (Beside T B) x y) :
    Both (Besides T B) (do return (← x, ([] : List Payout))) (do return (← y, [])) :=
  .bind h fun _ _ _ _ hb => .ok ⟨hb, rfl⟩

theorem requestRedeem_beside (h : Beside T B s s') :
    Both (Besides T B) (requestRedeem d s sender shares controller owner)
      (requestRedeem d s' sender shares controller owner) := by
  cases h with
  | mk token book ht hb =>
    unfold requestRedeem
    refine .same fun _ _ => .same fun _ _ => .same fun _ _ => .same fun _ _ => .same fun _ _ => ?_
    exact .same fun bil _ => .same fun tail _ => .same fun queued _ => .ok ⟨.mk token book ht hb, rfl⟩

theorem refundUnsettled_beside (h : Beside T B s s') (unsettled : Nat) :
    Both (Beside T B) (refundUnsettled d s requestId unsettled) (refundUnsettled d s' requestId unsettled) := by
  cases h with
  | mk token book ht hb =>
    unfold refundUnsettled
    refine .branch (fun _ => ?_) fun _ => .ok (.mk token book ht hb)
    exact .same fun queued _ => .same fun bil _ => .ok (.mk token book ht hb)

theorem deleteUnsettled_beside (h : Beside T B s s') :
    Beside T B (deleteUnsettled s requestId) (deleteUnsettled s' requestId) := by
  cases h with
  | mk token book ht hb =>
    unfold deleteUnsettled
    by_cases h0 : (s.redemptionQueue requestId).bilSettled = 0
    · rw [if_pos h0, if_pos h0]; exact .mk token book ht hb
    · rw [if_neg h0, if_neg h0]; exact .mk token book ht hb

theorem cancelRedeem_beside (h : Beside T B s s') :
    Both (Beside T B) (cancelRedeem d s sender requestId) (cancelRedeem d s' sender requestId) := by
  cases h with
  | mk token book ht hb =>
    unfold cancelRedeem
    refine .same fun _ _ => .same fun _ _ => .same fun _ _ => .same fun unsettled _ => ?_
    refine .bind (refundUnsettled_beside (.mk token book ht hb) unsettled) fun t t' _ _ h => ?_
    exact .ok (deleteUnsettled_beside h)

/-- Both ledgers pay, or neither does. -/
def SamePay (T : ERC20 → ERC20 → Prop) (d : Deployment) (s s' : State) (receiver : Address) : Prop :=
  ∀ amount ≤ s.totalReservedHollar,
    Both T (s.token.transfer d.self receiver amount : Tx ERC20) (s'.token.transfer d.self receiver amount)

theorem payClaim_beside {store : QueueStore} (h : Beside T B s s') (hpay : SamePay T d s s' receiver) :
    Both (Beside T B) (payClaim d s store shares assets receiver) (payClaim d s' store shares assets receiver) := by
  cases h with
  | mk token book ht hb =>
    unfold payClaim
    refine .same fun bil _ => .same fun queued _ => .same fun settled _ => .same fun reserved hreserved => ?_
    -- the reserve covers the claim, so the ledgers are asked for no more than they agree on
    obtain ⟨hle, -⟩ := checkedSub_ok_iff.1 hreserved
    exact .bind (hpay assets hle) fun u u' _ _ hu => .ok (.mk u' book hu hb)

theorem redeem_beside (h : Beside T B s s') (hpay : SamePay T d s s' receiver) :
    Both (Besides T B) (redeem d s sender shares receiver controller)
      (redeem d s' sender shares receiver controller) := by
  cases h with
  | mk token book ht hb =>
    unfold redeem
    refine .same fun _ _ => .same fun _ _ => .same fun _ _ => .same fun _ _ => .same fun r _ => ?_
    exact .bind (payClaim_beside (.mk token book ht hb) hpay) fun t t' _ _ h => .ok ⟨h, rfl⟩

theorem withdraw_beside (h : Beside T B s s') (hpay : SamePay T d s s' receiver) :
    Both (Besides T B) (withdraw d s sender assets receiver controller)
      (withdraw d s' sender assets receiver controller) := by
  cases h with
  | mk token book ht hb =>
    unfold withdraw
    refine .same fun _ _ => .same fun _ _ => .same fun _ _ => .same fun _ _ => .same fun r _ => ?_
    exact .bind (payClaim_beside (.mk token book ht hb) hpay) fun t t' _ _ h => .ok ⟨h, rfl⟩

/-- The calls that read neither the ledger nor the book. -/
theorem Call.run_beside {c : Call} (hc : c.Apart) (h : Beside T B s s') :
    Both (Besides T B) (c.run d env s sender) (c.run d env s' sender) := by
  obtain ⟨token, book, ht, hb⟩ := h
  have h : Beside T B s { s with token, toBook := book } := .mk token book ht hb
  cases c with
  | requestRedeem shares controller owner =>
    exact .bind (requestRedeem_beside h) fun _ _ _ _ h => .ok ⟨h.1, rfl⟩
  | cancelRedeem requestId => exact checked_beside (cancelRedeem_beside h)
  | setOperator operator approved => exact checked_beside (.same fun _ _ => .ok (.mk token book ht hb))
  | setAutoClaim enabled => exact .ok ⟨.mk token book ht hb, rfl⟩
  | pauseDeposits => exact checked_beside (.same fun _ _ => .ok (.mk token book ht hb))
  | unpauseDeposits => exact checked_beside (.same fun _ _ => .ok (.mk token book ht hb))
  | pause => exact checked_beside (.same fun _ _ => .same fun _ _ => .ok (.mk token book ht hb))
  | unpause => exact checked_beside (.same fun _ _ => .same fun _ _ => .ok (.mk token book ht hb))
  | setMinReinvestAmount amount => exact checked_beside (.same fun _ _ => .ok (.mk token book ht hb))
  | setMinRedeemAmount amount => exact checked_beside (.same fun _ _ => .same fun _ _ => .ok (.mk token book ht hb))
  | setOracle oracle =>
    exact checked_beside (.same fun _ _ => .same fun _ _ => .same fun _ _ => .ok (.mk token book ht hb))
  | setPrincipalMismatchBpsThreshold bps =>
    exact checked_beside (.same fun _ _ => .same fun _ _ => .ok (.mk token book ht hb))
  | registerPool newPool => exact checked_beside (.same fun _ _ => .same fun _ _ => .ok (.mk token book ht hb))
  | setActiveDepositPool pool => exact checked_beside (.same fun _ _ => .same fun _ _ => .ok (.mk token book ht hb))
  | grantRole role account => exact checked_beside (.same fun _ _ => .ok (.mk token book ht hb))
  | revokeRole role account => exact checked_beside (.same fun _ _ => .ok (.mk token book ht hb))
  | renounceRole role account => exact checked_beside (.same fun _ _ => .ok (.mk token book ht hb))
  | share c => exact .same fun bil _ => .ok ⟨.mk token book ht hb, rfl⟩
  | _ => exact hc.elim

end Calls

end MoneyMarket
