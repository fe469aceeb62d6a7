/-
What the vault does to an account that takes no part in a step. An account that does not act, is no
pool, and has given no say over its tokens but for an allowance of HOLLAR to the vault, loses neither
HOLLAR nor shares, and gives nobody a say (`step_spares`).
-/
import MoneyMarket.Vault.Invariant

namespace MoneyMarket

open Evm Relation Transition

/-! ## Ledgers -/

/-- `u` loses nothing, and what it allows stays. -/
structure Spared (u : Address) (token token' : ERC20) : Prop where
  balance : token.balanceOf u ≤ token'.balanceOf u
  allowance : token'.allowance u = token.allowance u

section Ledger

variable {u src dst sender spender : Address} {amount : Nat} {token token' token'' : ERC20}

theorem Spared.refl (u : Address) (token : ERC20) : Spared u token token := ⟨le_refl _, rfl⟩

theorem Spared.trans (h : Spared u token token') (h' : Spared u token' token'') : Spared u token token'' :=
  ⟨le_trans h.balance h'.balance, h'.allowance.trans h.allowance⟩

theorem transfer_spares (hu : u ≠ src) (h : (token.transfer src dst amount : Tx ERC20) = .ok token') :
    Spared u token token' := by
  obtain ⟨-, -, -, rfl⟩ := ERC20.transfer_ok_iff.1 h
  exact ⟨ERC20.le_move _ _ _ _ hu, rfl⟩

theorem transferFrom_spares (hu : u ≠ src) (h : (token.transferFrom spender src dst amount : Tx ERC20) = .ok token') :
    Spared u token token' := by
  obtain ⟨-, -, -, hbalance, -, hallowance, -⟩ := ERC20.transferFrom_ok h
  exact ⟨by rw [hbalance]; exact ERC20.le_move _ _ _ _ hu, hallowance u hu⟩

theorem setAllowance_spares (hu : u ≠ src) : Spared u token (token.setAllowance src spender amount) :=
  ⟨le_refl _, ERC20.setAllowance_other _ _ _ _ hu⟩

/-- A call of another account, to which `u` allows nothing. -/
theorem call_spares_ledger {c : ERC20.Call} (hu : u ≠ sender) (hnone : token.allowance u sender = 0)
    (h : (token.call sender c : Tx ERC20) = .ok token') : Spared u token token' := by
  refine ⟨ERC20.le_call h hu hnone, ?_⟩
  cases c with
  | transfer dst amount => exact (transfer_spares hu h).allowance
  | approve spender amount =>
    obtain ⟨-, -, rfl⟩ := ERC20.approve_ok_iff.1 h
    exact ERC20.setAllowance_other _ _ _ _ hu
  | transferFrom src dst amount =>
    by_cases hsrc : u = src
    · -- what is drawn is nothing, and the allowance stays at nothing
      subst hsrc
      simp only [ERC20.call, ERC20.transferFrom, bind_ok_iff, ERC20.transfer_ok_iff] at h
      obtain ⟨spent, hspend, -, -, -, rfl⟩ := h
      unfold ERC20.spendAllowance at hspend
      rw [hnone, if_neg (by decide : ¬ 0 = uintSize - 1)] at hspend
      simp only [bind_ok_iff, ERC20.approve_ok_iff] at hspend
      obtain ⟨_, -, -, -, rfl⟩ := hspend
      show Function.update token.allowance u (Function.update (token.allowance u) sender (0 - amount)) u = _
      rw [Function.update_self, Nat.zero_sub, ← hnone, Function.update_eq_self]
    · exact (transferFrom_spares hsrc h).allowance
  | increaseAllowance spender addedValue =>
    simp only [ERC20.call, bind_ok_iff, ERC20.approve_ok_iff] at h
    obtain ⟨_, -, -, -, rfl⟩ := h
    exact ERC20.setAllowance_other _ _ _ _ hu
  | decreaseAllowance spender subtractedValue =>
    simp only [ERC20.call, bind_ok_iff, ERC20.approve_ok_iff] at h
    obtain ⟨_, -, -, -, rfl⟩ := h
    exact ERC20.setAllowance_other _ _ _ _ hu

end Ledger

/-! ## Calls -/

/-- What an account that is no pool answers: every call reverts. -/
def noPool : PoolReply := ⟨none, none, none, none, none, false, none, false, none⟩

section Calls

variable {d : Deployment} {env : Replies} {s t : State} {u m pool : Address} {i : Nat} {f : Flow}

theorem poolPay_spares {paid : Option Nat} {token token' : ERC20} (hpaid : pool = u → paid = none)
    (h : poolPay d paid token pool = some token') : Spared u token token' := by
  unfold poolPay at h
  split at h
  · cases h
  · rename_i amount
    have hu : u ≠ pool := fun hu => Option.some_ne_none _ (hpaid hu.symm)
    split at h
    · rename_i hpay
      cases h
      exact transfer_spares hu hpay
    · cases h

/-- Only the vault's own HOLLAR and allowances go into a position. -/
theorem depositIntoDecentral_spares {amount : Nat} {ok : Bool} (hu : u ≠ d.self)
    (h : depositIntoDecentral d env s amount = .ok (t, ok)) : Spared u s.token t.token := by
  simp only [depositIntoDecentral, bind_ok_iff, returned_ok_iff, ERC20.safeApprove_ok_iff] at h
  obtain ⟨apyWad, -, _, ⟨-, -, -, rfl⟩, _, ⟨-, -, -, rfl⟩, h⟩ := h
  have happroved (amount : Nat) : Spared u s.token
      ((s.token.setAllowance d.self s.activeDepositPool 0).setAllowance d.self s.activeDepositPool amount) :=
    (setAllowance_spares hu).trans (setAllowance_spares hu)
  split at h
  · cases h
    exact happroved _
  · rename_i tokenId token hdep
    simp only [bind_ok_iff, pure_ok_iff, Prod.mk.injEq] at h
    obtain ⟨period, -, book, -, rfl, -⟩ := h
    unfold poolDeposit at hdep
    split at hdep
    · cases hdep
    · split at hdep
      · rename_i hpull
        cases hdep
        exact (happroved _).trans (transferFrom_spares hu hpull)
      · cases hdep

theorem depositShares_spares {receiver : Address} {assets shares : Nat} (hu : u ≠ d.self) (hm : u ≠ m)
    (h : depositShares d env s m receiver assets shares = .ok t) : Spared u s.token t.token := by
  simp only [depositShares, bind_ok_iff, Prod.exists, require_ok_iff, pure_ok_iff] at h
  obtain ⟨bil₀, -, bil, -, token, hpull, s₁, ok, hdep, _, -, rfl⟩ := h
  exact (transferFrom_spares hm hpull).trans (depositIntoDecentral_spares hu hdep)

theorem payClaim_spares {store : QueueStore} {shares assets : Nat} {receiver : Address} (hu : u ≠ d.self)
    (h : payClaim d s store shares assets receiver = .ok t) : Spared u s.token t.token := by
  simp only [payClaim, bind_ok_iff, pure_ok_iff] at h
  obtain ⟨_, -, _, -, _, -, _, -, token, hpay, rfl⟩ := h
  exact transfer_spares hu hpay

theorem reinvest_spares (hu : u ≠ d.self) (h : reinvest d env s = .ok t) : Spared u s.token t.token := by
  unfold reinvest at h
  split at h
  · cases h; exact .refl u _
  · simp only [bind_ok_iff] at h
    obtain ⟨amount, -, h⟩ := h
    split at h
    · cases h; exact .refl u _
    · simp only [bind_ok_iff, Prod.exists] at h
      obtain ⟨s₁, ok, hdep, h⟩ := h
      have hspares := depositIntoDecentral_spares hu hdep
      split at h
      · simp only [bind_ok_iff, pure_ok_iff] at h
        obtain ⟨_, -, rfl⟩ := h
        exact hspares
      · cases h; exact hspares

theorem syncMaturities_token {n k : Nat} (h : syncMaturities s n = .ok (t, k)) : t.token = s.token := by
  simp only [syncMaturities, bind_ok_iff, pure_ok_iff, Prod.mk.injEq] at h
  obtain ⟨r, -, -, -, rfl, -⟩ := h
  rfl

theorem processQueueWithHollar_token {available rate used locked : Nat}
    (h : processQueueWithHollar s available rate = .ok (t, used, locked)) : t.token = s.token := by
  simp only [processQueueWithHollar, bind_ok_iff, pure_ok_iff, Prod.mk.injEq] at h
  obtain ⟨r, -, _, -, _, -, _, -, rfl, -, -⟩ := h
  rfl

theorem distribute_token (h : distribute s = .ok t) : t.token = s.token := by
  unfold distribute at h
  split at h
  · simp only [bind_ok_iff, pure_ok_iff, Prod.exists] at h
    obtain ⟨rate, -, _, used, locked, hq, rfl⟩ := h
    exact processQueueWithHollar_token hq
  · cases h; rfl

theorem requestYieldBranch_token (h : requestYieldBranch env pool i s = .ok f) : f.state.token = s.token := by
  simp only [requestYieldBranch, bind_ok_iff] at h
  obtain ⟨pos, -, h⟩ := h
  split_ifs at h <;> cases h <;> rfl

theorem requestPrincipalBranch_token (h : requestPrincipalBranch env pool i s = .ok f) : f.state.token = s.token := by
  simp only [requestPrincipalBranch, bind_ok_iff] at h
  obtain ⟨pos, -, h⟩ := h
  split_ifs at h <;> cases h <;> rfl

theorem executeYieldBranch_spares (hpool : env.pool u = noPool) (h : executeYieldBranch d env pool i s = .ok f) :
    Spared u s.token f.state.token := by
  simp only [executeYieldBranch, bind_ok_iff] at h
  obtain ⟨pos, -, h⟩ := h
  split at h
  · split at h
    · cases h; exact .refl u _
    · rename_i token hpay
      simp only [bind_ok_iff, pure_ok_iff] at h
      obtain ⟨_, -, _, -, _, -, _, -, rfl⟩ := h
      exact poolPay_spares (fun heq => by rw [heq, hpool]; rfl) hpay
  · cases h; exact .refl u _

theorem executePrincipalBranch_spares (hpool : env.pool u = noPool)
    (h : executePrincipalBranch d env pool i s = .ok f) : Spared u s.token f.state.token := by
  simp only [executePrincipalBranch, bind_ok_iff] at h
  obtain ⟨pos, -, h⟩ := h
  split at h
  · split at h
    · cases h; exact .refl u _
    · rename_i token hpay
      simp only [bind_ok_iff, pure_ok_iff] at h
      obtain ⟨_, -, _, -, _, -, _, -, after, hdist, _, -, rfl⟩ := h
      rw [distribute_token hdist]
      exact poolPay_spares (fun heq => by rw [heq, hpool]; rfl) hpay
  · cases h; exact .refl u _

theorem Flow.andThen_spares {a : Flow} {next : State → Tx Flow} (ha : Spared u s.token a.state.token)
    (hnext : ∀ g, next a.state = .ok g → Spared u a.state.token g.state.token) (h : a.andThen next = .ok f) :
    Spared u s.token f.state.token := by
  unfold Flow.andThen at h
  split at h
  · cases h; exact ha
  · simp only [bind_ok_iff, pure_ok_iff] at h
    obtain ⟨g, hg, rfl⟩ := h
    exact ha.trans (hnext g hg)

theorem pokeDecentral_spares {ps : List Payout} (hpool : env.pool u = noPool)
    (h : pokeDecentral d env s i = .ok (t, ps)) : Spared u s.token t.token := by
  simp only [pokeDecentral, bind_ok_iff, Prod.exists, pure_ok_iff, Prod.mk.injEq] at h
  obtain ⟨_, -, _, -, _, -, s₁, k, hsync, f₁, h1, f₂, h2, f₃, h3, f₄, h4, rfl, -⟩ := h
  have hspares : Spared u s.token f₁.state.token := by
    rw [requestYieldBranch_token h1, syncMaturities_token hsync]
    exact .refl u _
  have hspares := Flow.andThen_spares hspares (fun _ hg => executeYieldBranch_spares hpool hg) h2
  have hspares := Flow.andThen_spares hspares (fun g hg => by
    rw [requestPrincipalBranch_token hg]
    exact .refl u _) h3
  exact Flow.andThen_spares hspares (fun _ hg => executePrincipalBranch_spares hpool hg) h4

theorem pokeQueue_spares (hu : u ≠ d.self) (h : pokeQueue d env s = .ok t) : Spared u s.token t.token := by
  simp only [pokeQueue, syncBeforeRateSensitiveAction, bind_ok_iff, Prod.exists, pure_ok_iff] at h
  obtain ⟨_, -, s₁, ⟨s₁', k, hsync, _, -, rfl⟩, rate, -, s₂, used, locked, hq, h⟩ := h
  have hsame : (sweepPositionHead s₂).token = s.token :=
    (processQueueWithHollar_token hq).trans (syncMaturities_token hsync)
  split at h
  · rw [← hsame]
    exact reinvest_spares hu h
  · cases h
    rw [hsame]
    exact .refl u _

/-- No call of another account takes HOLLAR of `u`. -/
theorem call_spares {c : Call} {ps : List Payout} (hu : u ≠ d.self) (hm : u ≠ m) (hpool : env.pool u = noPool)
    (h : c.run d env s m = .ok (t, ps)) : Spared u s.token t.token := by
  cases c with
  | deposit assets receiver =>
    simp only [Call.run, deposit, bind_ok_iff, Prod.exists, pure_ok_iff, Prod.mk.injEq] at h
    obtain ⟨_, _, ⟨_, -, _, -, _, -, _, -, _, hdep, rfl, -⟩, rfl, -⟩ := h
    exact depositShares_spares hu hm hdep
  | mint shares receiver =>
    simp only [Call.run, mint, bind_ok_iff, Prod.exists, pure_ok_iff, Prod.mk.injEq] at h
    obtain ⟨_, _, ⟨_, -, _, -, _, -, _, -, _, -, _, -, _, hdep, rfl, -⟩, rfl, -⟩ := h
    exact depositShares_spares hu hm hdep
  | requestRedeem shares controller owner =>
    simp only [Call.run, requestRedeem, bind_ok_iff, Prod.exists, pure_ok_iff, Prod.mk.injEq] at h
    obtain ⟨_, _, ⟨_, -, _, -, _, -, _, -, _, -, _, -, _, -, _, -, rfl, -⟩, rfl, -⟩ := h
    exact .refl u _
  | cancelRedeem requestId =>
    simp only [Call.run, cancelRedeem, bind_ok_iff, pure_ok_iff, Prod.mk.injEq] at h
    obtain ⟨_, ⟨_, -, _, -, _, -, unsettled, -, s₁, hrefund, rfl⟩, rfl, -⟩ := h
    have hrefunded : s₁.token = s.token := by
      unfold refundUnsettled at hrefund
      split at hrefund
      · simp only [bind_ok_iff, pure_ok_iff] at hrefund
        obtain ⟨_, -, _, -, rfl⟩ := hrefund
        rfl
      · cases hrefund; rfl
    have hdeleted : (deleteUnsettled s₁ requestId).token = s₁.token := by
      unfold deleteUnsettled
      split_ifs <;> rfl
    rw [hdeleted, hrefunded]
    exact .refl u _
  | redeem shares receiver controller =>
    simp only [Call.run, redeem, bind_ok_iff, Prod.exists, pure_ok_iff, Prod.mk.injEq] at h
    obtain ⟨_, _, ⟨_, -, _, -, _, -, _, -, _, _, -, _, hpay, rfl, -⟩, rfl, -⟩ := h
    exact payClaim_spares hu hpay
  | withdraw assets receiver controller =>
    simp only [Call.run, withdraw, bind_ok_iff, Prod.exists, pure_ok_iff, Prod.mk.injEq] at h
    obtain ⟨_, _, ⟨_, -, _, -, _, -, _, -, _, _, _, -, _, hpay, rfl, -⟩, rfl, -⟩ := h
    exact payClaim_spares hu hpay
  | pokeDecentral i => exact pokeDecentral_spares hpool h
  | pokeQueue =>
    simp only [Call.run, bind_ok_iff, pure_ok_iff, Prod.mk.injEq] at h
    obtain ⟨_, h, rfl, -⟩ := h
    exact pokeQueue_spares hu h
  | syncMaturities n =>
    simp only [Call.run, bind_ok_iff, Prod.exists, pure_ok_iff, Prod.mk.injEq] at h
    obtain ⟨_, k, h, rfl, -⟩ := h
    rw [syncMaturities_token h]
    exact .refl u _
  | share c =>
    simp only [Call.run, bind_ok_iff, pure_ok_iff, Prod.mk.injEq] at h
    obtain ⟨_, -, rfl, -⟩ := h
    exact .refl u _
  | _ =>
    obtain ⟨⟨g, f, p⟩, -⟩ := Configured.of_run (by trivial) h
    exact .refl u _

end Calls

/-! ## Accounts that take no part -/

/-- `u` has given nobody a say over its shares, and over its HOLLAR none but the vault. -/
structure Aloof (d : Deployment) (u : Address) (s : State) : Prop where
  unapproved : ∀ spender, s.bil.allowance u spender = 0
  unoperated : ∀ operator, s.isOperator u operator = false
  undrawn : ∀ spender, spender ≠ d.self → s.token.allowance u spender = 0

/-- The action is not of `u`, and `u` answers no call of the vault. -/
def Absent (u : Address) : Action → Prop
  | .tick _ => True
  | .call sender env _ => sender ≠ u ∧ env.pool u = noPool
  | .hollar sender _ => sender ≠ u
  | .hollarMint _ _ => True
  | .hollarBurn account _ => account ≠ u

/-- `u` loses neither HOLLAR nor shares, and what it allows stays. -/
structure Intact (u : Address) (s t : State) : Prop where
  hollar : Spared u s.token t.token
  shares : Spared u s.bil t.bil
  operators : ∀ operator, t.isOperator u operator = s.isOperator u operator

section Steps

variable {d : Deployment} {s t : State} {u : Address} {a : Action} {ps : List Payout}

theorem Aloof.intact (h : Aloof d u s) (hst : Intact u s t) : Aloof d u t := by
  refine ⟨fun x => ?_, fun o => ?_, fun x hx => ?_⟩
  · rw [hst.shares.allowance]; exact h.unapproved x
  · rw [hst.operators]; exact h.unoperated o
  · rw [hst.hollar.allowance]; exact h.undrawn x hx

theorem Intact.trans {r : State} (h : Intact u s t) (h' : Intact u t r) : Intact u s r :=
  ⟨h.hollar.trans h'.hollar, h.shares.trans h'.shares, fun o => (h'.operators o).trans (h.operators o)⟩

/-- A keeper moves no shares. -/
theorem Pokes.bil (hp : Pokes d s ps t) : t.bil = s.bil ∧ t.isOperator = s.isOperator :=
  Moves.relation (I := fun _ => True) (R := fun (s t : State) => t.bil = s.bil ∧ t.isOperator = s.isOperator)
    (fun _ => ⟨rfl, rfl⟩) (fun _ _ _ h h' => ⟨h'.1.trans h.1, h'.2.trans h.2⟩)
    (fun _ _ _ _ hm => ⟨trivial, by cases hm <;> exact ⟨rfl, rfl⟩⟩) hp trivial

/-- Every other account's act leaves the shares of an aloof one. -/
theorem Aloof.act (h : Aloof d u s) (hu : u ≠ d.self) (hsender : a.sender ≠ u) (ha : Act d a s t) :
    Spared u s.bil t.bil ∧ ∀ operator, t.isOperator u operator = s.isOperator u operator := by
  cases ha with
  | tick _ _ => exact ⟨.refl u _, fun _ => rfl⟩
  | ledger _ _ => exact ⟨.refl u _, fun _ => rfl⟩
  | configure g c p _ hop => exact ⟨.refl u _, fun o => congrFun (hop _ hsender.symm) o⟩
  | share c bil hcall => exact ⟨call_spares_ledger hsender.symm (h.unapproved _) hcall, fun _ => rfl⟩
  | deposit receiver pool assets shares tokenId apyWad period bil₀ bil token _ _ hboot hmint _ _ _ =>
    obtain ⟨hb₀, ha₀, -⟩ := bootstrap_grows hboot u
    obtain ⟨hb, ha⟩ := mint_grows hmint u
    exact ⟨⟨le_trans hb₀ hb, by rw [ha, ha₀]⟩, fun _ => rfl⟩
  | request controller owner shares bil _ _ hauth hbil _ =>
    -- nobody else may put its shares in a request
    have howner : u ≠ owner := by
      rintro rfl
      rcases hauth with hauth | hauth
      · exact hsender hauth
      · rw [h.unoperated] at hauth; exact Bool.false_ne_true hauth
    exact ⟨transfer_spares howner hbil, fun _ => rfl⟩
  | cancel i n bil _ _ _ hbil =>
    rcases hbil with ⟨rfl, -⟩ | hbil
    · exact ⟨.refl u _, fun _ => rfl⟩
    · exact ⟨transfer_spares hu hbil, fun _ => rfl⟩
  | claim _ c receiver amount r bil token _ _ _ _ _ hburn _ =>
    obtain ⟨-, -, rfl⟩ := ERC20.burn_ok_iff.1 hburn
    exact ⟨⟨(Function.update_of_ne hu _ _).ge, rfl⟩, fun _ => rfl⟩

/-- The HOLLAR of an aloof account that is absent. -/
theorem Aloof.hollar (h : Aloof d u s) (hu : u ≠ d.self) (ha : Absent u a) (hlegal : Legal d s a)
    (hs : step d s a = .ok (t, ps)) : Spared u s.token t.token := by
  cases a with
  | tick now =>
    cases hs
    exact .refl u _
  | call sender env c => exact call_spares hu ha.1.symm ha.2 hs
  | hollar sender c =>
    simp only [step, bind_ok_iff, pure_ok_iff, Prod.mk.injEq] at hs
    obtain ⟨token, hcall, rfl, -⟩ := hs
    exact call_spares_ledger (Ne.symm ha) (h.undrawn _ hlegal.1) hcall
  | hollarMint account amount =>
    simp only [step, bind_ok_iff, pure_ok_iff, Prod.mk.injEq] at hs
    obtain ⟨token, hmint, rfl, -⟩ := hs
    obtain ⟨hbalance, hallowance⟩ := mint_grows hmint u
    exact ⟨hbalance, congrFun hallowance u⟩
  | hollarBurn account amount =>
    simp only [step, bind_ok_iff, pure_ok_iff, Prod.mk.injEq] at hs
    obtain ⟨token, hburn, rfl, -⟩ := hs
    obtain ⟨-, -, rfl⟩ := ERC20.burn_ok_iff.1 hburn
    exact ⟨(Function.update_of_ne (Ne.symm ha) _ _).ge, rfl⟩

/-- No step that an aloof account takes no part in disturbs it. -/
theorem step_spares (h : Aloof d u s) (hu : u ≠ d.self) (hzero : u ≠ 0) (ha : Absent u a) (hlegal : Legal d s a)
    (hs : step d s a = .ok (t, ps)) : Intact u s t := by
  have hsender : a.sender ≠ u := by
    cases a with
    | call sender env c => exact ha.1
    | _ => exact hzero.symm
  obtain ⟨hshares, hops⟩ : Spared u s.bil t.bil ∧ ∀ operator, t.isOperator u operator = s.isOperator u operator := by
    rcases step_moves hlegal hs with ⟨hact, -⟩ | hp
    · exact h.act hu hsender hact
    · obtain ⟨hbil, hops⟩ := Pokes.bil hp
      rw [hbil, hops]
      exact ⟨.refl u _, fun _ => rfl⟩
  exact ⟨h.hollar hu ha hlegal hs, hshares, hops⟩

end Steps

end MoneyMarket
