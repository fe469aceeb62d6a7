/-
Gifts of HOLLAR to the vault change nothing but the vault's own balance. Two runs of the same
calls, one of them with gifts in between, are in states that agree on everything but the HOLLAR
ledger (`Twin`). A call succeeds in one where it does in the other, as long as nobody it draws
HOLLAR from is short for having given (`Unshort`), and then returns the same.
-/
import MoneyMarket.Evm.Gift
import MoneyMarket.Vault.Beside
import MoneyMarket.Vault.Outlay
import MoneyMarket.Vault.Replay
import MoneyMarket.Vault.Views

namespace MoneyMarket

open Evm Relational Transition

/-! ## Twins -/

/-- `t` is `s` after gifts of HOLLAR to the vault. -/
inductive Twin (d : Deployment) (s : State) : State → Prop
  | mk (token : ERC20) : Gifted d.self s.token token → Twin d s { s with token }

/-- Twins, with the same value. -/
def Twins {α : Type} (d : Deployment) (p q : State × α) : Prop := Twin d p.1 q.1 ∧ q.2 = p.2

theorem Twin.beside {d : Deployment} {s s' : State} (h : Twin d s s') : Beside (Gifted d.self) Eq s s' := by
  cases h with
  | mk token hg => exact .mk token s.toBook hg rfl

theorem Beside.twin {d : Deployment} {s s' : State} (h : Beside (Gifted d.self) Eq s s') : Twin d s s' := by
  cases h with
  | mk token book hg hb =>
    subst hb
    exact .mk token hg

/-- The pool calls that the vault itself does not answer. -/
def Replies.Foreign (d : Deployment) (env : Replies) : Prop :=
  (env.pool d.self).executeYieldWithdrawal = none ∧ (env.pool d.self).executePrincipalWithdrawal = none

section Steps

variable {d : Deployment} {env : Replies} {s s' : State}

/-! ## The keeper's steps -/

theorem syncMaturities_twin (h : Twin d s s') (n : Nat) :
    Both (Twins d) (syncMaturities s n) (syncMaturities s' n) := by
  cases h with
  | mk token hg =>
    unfold syncMaturities
    exact .same fun r _ => .same fun total _ => .ok ⟨.mk token hg, rfl⟩

theorem syncBeforeRateSensitiveAction_twin (h : Twin d s s') :
    Both (Twin d) (syncBeforeRateSensitiveAction s) (syncBeforeRateSensitiveAction s') := by
  unfold syncBeforeRateSensitiveAction
  refine .bind (syncMaturities_twin h maxMaturitySync) ?_
  rintro ⟨t, k⟩ ⟨t', k'⟩ - - ⟨ht, -⟩
  cases ht with
  | mk token hg => exact .same fun _ _ => .ok (.mk token hg)

theorem processQueueWithHollar_twin (h : Twin d s s') (available rate : Nat) :
    Both (Twins d) (processQueueWithHollar s available rate) (processQueueWithHollar s' available rate) := by
  cases h with
  | mk token hg =>
    unfold processQueueWithHollar
    exact .same fun r _ => .same fun idle _ => .same fun reserved _ => .same fun settled _ => .ok ⟨.mk token hg, rfl⟩

theorem distribute_twin (h : Twin d s s') : Both (Twin d) (distribute s) (distribute s') := by
  cases h with
  | mk token hg =>
    unfold distribute
    refine .branch (fun _ => .same fun rate _ => ?_) fun _ => .ok (.mk token hg)
    refine .bind (processQueueWithHollar_twin (.mk token hg) s.idleHollar rate) ?_
    rintro ⟨t, used, locked⟩ ⟨t', used', locked'⟩ - - ⟨ht, -⟩
    exact .ok ht

theorem sweepPositionHead_twin (h : Twin d s s') : Twin d (sweepPositionHead s) (sweepPositionHead s') := by
  cases h with
  | mk token hg => exact .mk token hg

theorem setPosition_twin (h : Twin d s s') (i : Nat) (pos : NFTPosition) :
    Twin d (setPosition s i pos) (setPosition s' i pos) := by
  cases h with
  | mk token hg => exact .mk token hg

/-! ## Pools -/

/-- A pool pulls what it was approved, which the vault has. -/
theorem poolDeposit_twin (reply : PoolReply) {t t' : ERC20} {pool : Address} (hg : Gifted d.self t t')
    (hcov : t.allowance d.self pool ≤ t.balanceOf d.self) :
    (poolDeposit d reply t pool = none ∧ poolDeposit d reply t' pool = none) ∨
      ∃ id u u', poolDeposit d reply t pool = some (id, u) ∧ poolDeposit d reply t' pool = some (id, u') ∧
        Gifted d.self u u' := by
  unfold poolDeposit
  cases reply.deposit with
  | none => exact .inl ⟨rfl, rfl⟩
  | some r =>
    obtain ⟨id, pulled⟩ := r
    have hpull : Both (Gifted d.self) (t.transferFrom pool d.self pool pulled : Tx ERC20)
        (t'.transferFrom pool d.self pool pulled) := by
      apply hg.transferFrom
      have hle := hg.self_le
      have hlt := hg.self_lt
      rintro (hmax | hallowed)
      · -- an approval that nobody spends down is of the whole supply, and nothing can be given to its owner
        have heq : t'.balanceOf d.self = t.balanceOf d.self := by omega
        rw [heq]
      · omega
    rcases hpull.sides with ⟨e, ht, ht'⟩ | ⟨u, u', ht, ht', hu⟩
    · simp only [ht, ht']
      exact .inl ⟨trivial, trivial⟩
    · simp only [ht, ht']
      exact .inr ⟨id, u, u', rfl, rfl, hu⟩

/-- What a pool pays arrives in both, and costs it the same. -/
theorem poolPay_twin {paid : Option Nat} {t t' : ERC20} {pool : Address} {n : Nat} (hg : Gifted d.self t t')
    (hpool : pool = d.self → paid = none) (hpaid : paid.getD 0 ≤ n) (hcov : Covers t t' pool n) :
    (poolPay d paid t pool = none ∧ poolPay d paid t' pool = none) ∨
      ∃ u u' amount, poolPay d paid t pool = some u ∧ poolPay d paid t' pool = some u' ∧ Gifted d.self u u' ∧
        u.balanceOf d.self = t.balanceOf d.self + amount ∧ u'.balanceOf d.self = t'.balanceOf d.self + amount ∧
        Covers u u' pool (n - paid.getD 0) := by
  cases paid with
  | none => exact .inl ⟨rfl, rfl⟩
  | some amount =>
    have hne : pool ≠ d.self := fun heq => by cases hpool heq
    have hiff : amount ≤ t.balanceOf pool ↔ amount ≤ t'.balanceOf pool := by
      refine hg.covered hne (hcov.imp id fun hn => le_trans hpaid hn)
    have hpay : Both (Gifted d.self) (t.transfer pool d.self amount : Tx ERC20) (t'.transfer pool d.self amount) :=
      hg.transfer hiff
    unfold poolPay
    rcases hpay.sides with ⟨e, ht, ht'⟩ | ⟨u, u', ht, ht', hu⟩
    · simp only [ht, ht']
      exact .inl ⟨trivial, trivial⟩
    · simp only [ht, ht']
      obtain ⟨-, -, hle, rfl⟩ := ERC20.transfer_ok_iff.1 ht
      obtain ⟨-, -, hle', rfl⟩ := ERC20.transfer_ok_iff.1 ht'
      refine .inr ⟨_, _, amount, rfl, rfl, hu, ERC20.move_target _ _ _ _ hne.symm,
        ERC20.move_target _ _ _ _ hne.symm, ?_⟩
      have hleft : ∀ v : ERC20, (v.move pool d.self amount).balanceOf pool = v.balanceOf pool - amount := fun v => by
        rw [ERC20.move_balanceOf, if_neg hne, if_pos rfl]
      unfold Covers
      rw [hleft, hleft]
      simp only [Option.getD_some]
      rcases hcov with hcov | hcov
      · left; rw [hcov]
      · right; omega

/-! ## The lifecycle of a position -/

/-- Twin flows, their ledgers still good for `n` of the pool's HOLLAR. -/
structure FlowTwin (d : Deployment) (pool : Address) (n : Nat) (f f' : Flow) : Prop where
  payouts : f'.payouts = f.payouts
  left : f'.left = f.left
  twin : Twin d f.state f'.state
  covers : Covers f.state.token f'.state.token pool n

variable {pool : Address} {i m n : Nat}

theorem Flow.andThen_twin {a a' : Flow} {next : State → Tx Flow} (ha : FlowTwin d pool n a a') (hle : m ≤ n)
    (hnext : ∀ s s', Twin d s s' → Covers s.token s'.token pool n → Both (FlowTwin d pool m) (next s) (next s')) :
    Both (FlowTwin d pool m) (a.andThen next) (a'.andThen next) := by
  unfold Flow.andThen
  rw [ha.left]
  refine .branch (fun _ => .ok ⟨ha.payouts, ha.left, ha.twin, ha.covers.mono hle⟩) fun _ => ?_
  refine .bind (hnext _ _ ha.twin ha.covers) ?_
  intro b b' _ _ hb
  exact .ok ⟨by rw [ha.payouts, hb.payouts], hb.left, hb.twin, hb.covers⟩

theorem requestYieldBranch_twin (h : Twin d s s') (hc : Covers s.token s'.token pool n) :
    Both (FlowTwin d pool n) (requestYieldBranch env pool i s) (requestYieldBranch env pool i s') := by
  cases h with
  | mk token hg =>
    unfold requestYieldBranch
    refine .same fun pos _ => .branch (fun _ => ?_) fun _ => .ok ⟨rfl, rfl, .mk token hg, hc⟩
    refine .branch (fun _ => .ok ⟨rfl, rfl, .mk token hg, hc⟩) fun _ => ?_
    refine .branch (fun _ => .ok ⟨rfl, rfl, setPosition_twin (.mk token hg) i _, hc⟩) fun _ => ?_
    refine .branch (fun _ => .ok ⟨rfl, rfl, setPosition_twin (.mk token hg) i _, hc⟩) fun _ => ?_
    exact .ok ⟨rfl, rfl, .mk token hg, hc⟩

theorem requestPrincipalBranch_twin (h : Twin d s s') (hc : Covers s.token s'.token pool n) :
    Both (FlowTwin d pool n) (requestPrincipalBranch env pool i s) (requestPrincipalBranch env pool i s') := by
  cases h with
  | mk token hg =>
    unfold requestPrincipalBranch
    refine .same fun pos _ => .branch (fun _ => ?_) fun _ => .ok ⟨rfl, rfl, .mk token hg, hc⟩
    refine .branch (fun _ => .ok ⟨rfl, rfl, setPosition_twin (.mk token hg) i _, hc⟩) fun _ => ?_
    exact .ok ⟨rfl, rfl, .mk token hg, hc⟩

/-- The credit is the difference the pool's payment makes. -/
theorem credit_eq (before amount : Nat) : (checkedSub (before + amount) before : Tx Nat) = .ok amount :=
  checkedSub_ok_iff.2 ⟨Nat.le_add_right _ _, by omega⟩

theorem executeYieldBranch_twin (h : Twin d s s')
    (hpool : pool = d.self → (env.pool pool).executeYieldWithdrawal = none)
    (hn : (env.pool pool).executeYieldWithdrawal.getD 0 ≤ n) (hc : Covers s.token s'.token pool n) :
    Both (FlowTwin d pool (n - (env.pool pool).executeYieldWithdrawal.getD 0)) (executeYieldBranch d env pool i s)
      (executeYieldBranch d env pool i s') := by
  cases h with
  | mk token hg =>
    have hless := hc.mono (Nat.sub_le n ((env.pool pool).executeYieldWithdrawal.getD 0))
    unfold executeYieldBranch
    refine .same fun pos _ => .branch (fun _ => ?_) fun _ => .ok ⟨rfl, rfl, .mk token hg, hless⟩
    rcases poolPay_twin hg hpool hn hc with ⟨h₁, h₂⟩ | ⟨u, u', amount, h₁, h₂, hu, hb, hb', hcu⟩
    · simp only [h₁, h₂]
      exact .ok ⟨rfl, rfl, .mk token hg, hless⟩
    · simp only [h₁, h₂, hb, hb', credit_eq]
      refine .same fun received _ => .same fun pending _ => .same fun idle _ => .same fun _ _ => ?_
      exact .ok ⟨rfl, rfl, setPosition_twin (.mk u' hu) i _, hcu⟩

theorem executePrincipalBranch_twin (h : Twin d s s')
    (hpool : pool = d.self → (env.pool pool).executePrincipalWithdrawal = none)
    (hn : (env.pool pool).executePrincipalWithdrawal.getD 0 ≤ n) (hc : Covers s.token s'.token pool n) :
    Both (FlowTwin d pool 0) (executePrincipalBranch d env pool i s) (executePrincipalBranch d env pool i s') := by
  cases h with
  | mk token hg =>
    have hless := hc.mono (Nat.zero_le n)
    unfold executePrincipalBranch
    refine .same fun pos _ => .branch (fun _ => ?_) fun _ => .ok ⟨rfl, rfl, .mk token hg, hless⟩
    rcases poolPay_twin hg hpool hn hc with ⟨h₁, h₂⟩ | ⟨u, u', amount, h₁, h₂, hu, hb, hb', hcu⟩
    · simp only [h₁, h₂]
      exact .ok ⟨rfl, rfl, .mk token hg, hless⟩
    · simp only [h₁, h₂, hb, hb', credit_eq]
      refine .same fun received _ => .same fun delta _ => .same fun invested _ => .same fun idle _ => ?_
      refine .bind (distribute_twin (sweepPositionHead_twin (setPosition_twin (.mk u' hu) i _))) ?_
      intro after after' _ _ hafter
      cases hafter with
      | mk token hg => exact .same fun _ _ => .ok ⟨rfl, rfl, .mk token hg, .inr (Nat.zero_le _)⟩

theorem syncMaturities_rest {n k : Nat} {t : State} (h : syncMaturities s n = .ok (t, k)) :
    t.token = s.token ∧ t.idleHollar = s.idleHollar ∧ t.positionPool = s.positionPool := by
  simp only [syncMaturities, bind_ok_iff, pure_ok_iff, Prod.mk.injEq] at h
  obtain ⟨_, -, _, -, rfl, -⟩ := h
  exact ⟨rfl, rfl, rfl⟩

/-- What the two payouts of a poke of position `i` could cost its pool. -/
def poolAsks (env : Replies) (s : State) (i : Nat) : Nat :=
  (env.pool (s.positionPool i)).executeYieldWithdrawal.getD 0 +
    (env.pool (s.positionPool i)).executePrincipalWithdrawal.getD 0

theorem pokeDecentral_twin (h : Twin d s s') (hf : env.Foreign d)
    (hc : Covers s.token s'.token (s.positionPool i) (poolAsks env s i)) :
    Both (Twins d) (pokeDecentral d env s i) (pokeDecentral d env s' i) := by
  have hfy : s.positionPool i = d.self → (env.pool (s.positionPool i)).executeYieldWithdrawal = none :=
    fun heq => by rw [heq]; exact hf.1
  have hfp : s.positionPool i = d.self → (env.pool (s.positionPool i)).executePrincipalWithdrawal = none :=
    fun heq => by rw [heq]; exact hf.2
  have hleft : poolAsks env s i - (env.pool (s.positionPool i)).executeYieldWithdrawal.getD 0 =
      (env.pool (s.positionPool i)).executePrincipalWithdrawal.getD 0 := Nat.add_sub_cancel_left _ _
  cases h with
  | mk token hg =>
    unfold pokeDecentral
    refine .same fun _ _ => .same fun pos _ => .same fun _ _ => ?_
    refine .bind (syncMaturities_twin (.mk token hg) maxMaturitySync) ?_
    rintro ⟨t, k⟩ ⟨t', k'⟩ hsync hsync' ⟨ht, -⟩
    obtain ⟨htoken, -, hpools⟩ := syncMaturities_rest hsync
    obtain ⟨htoken', -, hpools'⟩ := syncMaturities_rest hsync'
    simp only [hpools, hpools']
    -- the sync moves no HOLLAR and no position to another pool
    have hcov : Covers t.token t'.token (s.positionPool i) (poolAsks env s i) := by
      rw [htoken, htoken']; exact hc
    refine .bind (requestYieldBranch_twin ht hcov) fun f₁ f₁' _ _ h₁ => ?_
    refine .bind (Flow.andThen_twin h₁ (Nat.sub_le _ _) fun _ _ hx hcx =>
      executeYieldBranch_twin hx hfy (Nat.le_add_right _ _) hcx) fun f₂ f₂' _ _ h₂ => ?_
    refine .bind (Flow.andThen_twin h₂ (le_refl _) fun _ _ hx hcx => requestPrincipalBranch_twin hx hcx)
      fun f₃ f₃' _ _ h₃ => ?_
    refine .bind (Flow.andThen_twin h₃ (Nat.zero_le _) fun _ _ hx hcx =>
      executePrincipalBranch_twin hx hfp hleft.ge hcx) fun f₄ f₄' _ _ h₄ => ?_
    exact .ok ⟨h₄.twin, h₄.payouts⟩

/-! ## Deposits and reinvestment -/

theorem depositIntoDecentral_twin {amount : Nat} (h : Twin d s s') (hcov : amount ≤ s.token.balanceOf d.self) :
    Both (Twins d) (depositIntoDecentral d env s amount) (depositIntoDecentral d env s' amount) := by
  cases h with
  | mk token hg =>
    unfold depositIntoDecentral
    refine .same fun apyWad _ => .bind (hg.safeApprove d.self s.activeDepositPool 0) ?_
    rintro v v' - - ⟨hv, hb, -⟩
    refine .bind (hv.safeApprove d.self s.activeDepositPool amount) ?_
    rintro w w' hw - ⟨hgw, hbw, -⟩
    obtain ⟨-, -, -, rfl⟩ := ERC20.safeApprove_ok_iff.1 hw
    have hallow : (v.setAllowance d.self s.activeDepositPool amount).allowance d.self s.activeDepositPool ≤
        (v.setAllowance d.self s.activeDepositPool amount).balanceOf d.self := by
      rw [ERC20.setAllowance_self, hbw, hb]
      exact hcov
    rcases poolDeposit_twin (env.pool s.activeDepositPool) hgw hallow with
      ⟨h₁, h₂⟩ | ⟨id, u, u', h₁, h₂, hu⟩
    · simp only [h₁, h₂]
      exact .ok ⟨.mk w' hgw, rfl⟩
    · simp only [h₁, h₂]
      exact .same fun period _ => .same fun book _ => .ok ⟨.mk u' hu, rfl⟩

theorem depositShares_twin {sender receiver : Address} {assets shares : Nat} (h : Twin d s s')
    (hsender : sender ≠ d.self) (hc : Covers s.token s'.token sender assets) :
    Both (Twin d) (depositShares d env s sender receiver assets shares)
      (depositShares d env s' sender receiver assets shares) := by
  cases h with
  | mk token hg =>
    unfold depositShares
    refine .same fun bil₀ _ => .same fun bil _ => .bind (hg.transferFrom fun _ => hg.covered hsender hc) ?_
    intro u u' hu _ hgu
    -- the vault can pay the pool what it has just been paid
    have hcov : assets ≤ u.balanceOf d.self := by
      obtain ⟨-, -, -, hb, -⟩ := ERC20.transferFrom_ok hu
      rw [hb, ERC20.move_target _ _ _ _ hsender.symm]
      exact Nat.le_add_left _ _
    refine .bind (depositIntoDecentral_twin (s := { s with bil, token := u }) (.mk u' hgu) hcov) ?_
    rintro ⟨t, ok⟩ ⟨t', ok'⟩ - - ⟨ht, rfl⟩
    exact .same fun _ _ => .ok ht

theorem deposit_twin {sender receiver : Address} {assets : Nat} (h : Twin d s s') (hsender : sender ≠ d.self)
    (hc : Covers s.token s'.token sender assets) :
    Both (Twins d) (deposit d env s sender assets receiver) (deposit d env s' sender assets receiver) := by
  cases h with
  | mk token hg =>
    unfold deposit
    refine .same fun _ _ => .same fun _ _ => .same fun shares _ => .same fun _ _ => ?_
    refine .bind (depositShares_twin (.mk token hg) hsender hc) fun t t' _ _ ht => ?_
    exact .ok ⟨ht, rfl⟩

/-- What a mint of the shares costs its sender; nothing where it has no price. -/
def mintAsks (s : State) (shares : Nat) : Nat :=
  match previewMint s shares with
  | .ok assets => assets
  | .error _ => 0

theorem mint_twin {sender receiver : Address} {shares : Nat} (h : Twin d s s') (hsender : sender ≠ d.self)
    (hc : Covers s.token s'.token sender (mintAsks s shares)) :
    Both (Twins d) (mint d env s sender shares receiver) (mint d env s' sender shares receiver) := by
  cases h with
  | mk token hg =>
    unfold mint
    refine .same fun _ _ => .same fun _ _ => .same fun _ _ => .same fun _ _ => ?_
    refine .same fun assets hassets => .same fun _ _ => ?_
    unfold mintAsks at hc
    rw [hassets] at hc
    refine .bind (depositShares_twin (.mk token hg) hsender hc) fun t t' _ _ ht => ?_
    exact .ok ⟨ht, rfl⟩

theorem reinvest_twin (h : Twin d s s') (hcov : s.idleHollar ≤ s.token.balanceOf d.self) :
    Both (Twin d) (reinvest d env s) (reinvest d env s') := by
  cases h with
  | mk token hg =>
    unfold reinvest
    refine .branch (fun _ => .ok (.mk token hg)) fun hcap => .same fun amount hamount => ?_
    refine .branch (fun _ => .ok (.mk token hg)) fun _ => ?_
    -- no more is invested than is idle, which the vault has
    have hle : amount ≤ s.idleHollar := (reinvestAmount_ok (not_le.1 hcap) hamount).1
    refine .bind (depositIntoDecentral_twin (.mk token hg) (le_trans hle hcov)) ?_
    rintro ⟨t, ok⟩ ⟨t', ok'⟩ - - ⟨ht, rfl⟩
    have ht : Twin d t t' := ht
    cases ht with
    | mk token' hg' => exact .branch (fun _ => .same fun idle _ => .ok (.mk token' hg')) fun _ => .ok (.mk token' hg')

theorem processQueueWithHollar_rest {available rate used locked : Nat} {t : State}
    (h : processQueueWithHollar s available rate = .ok (t, used, locked)) :
    t.token = s.token ∧ t.idleHollar ≤ s.idleHollar := by
  simp only [processQueueWithHollar, bind_ok_iff, checkedSub_ok_iff, pure_ok_iff, Prod.mk.injEq] at h
  obtain ⟨_, -, _, ⟨-, rfl⟩, _, -, _, -, rfl, -⟩ := h
  exact ⟨rfl, Nat.sub_le _ _⟩

theorem pokeQueue_twin (h : Twin d s s') (hcov : s.idleHollar ≤ s.token.balanceOf d.self) :
    Both (Twin d) (pokeQueue d env s) (pokeQueue d env s') := by
  cases h with
  | mk token hg =>
    unfold pokeQueue
    refine .same fun _ _ => .bind (syncBeforeRateSensitiveAction_twin (.mk token hg)) fun s₁ s₁' hsync _ h₁ => ?_
    -- the sync leaves the idle HOLLAR and the ledger as they are
    have hcov₁ : s₁.idleHollar ≤ s₁.token.balanceOf d.self := by
      simp only [syncBeforeRateSensitiveAction, bind_ok_iff, Prod.exists, pure_ok_iff] at hsync
      obtain ⟨_, _, hsync, _, -, rfl⟩ := hsync
      obtain ⟨htoken, hidle, -⟩ := syncMaturities_rest hsync
      rw [htoken, hidle]
      exact hcov
    cases h₁ with
    | mk token₁ hg₁ =>
      refine .same fun rate _ => .bind (processQueueWithHollar_twin (.mk token₁ hg₁) s₁.idleHollar rate) ?_
      rintro ⟨t, used, locked⟩ ⟨t', used', locked'⟩ hq - ⟨ht, heq⟩
      obtain ⟨rfl, rfl⟩ := Prod.mk.inj heq
      obtain ⟨htoken, hidle⟩ := processQueueWithHollar_rest hq
      have ht : Twin d t t' := ht
      cases ht with
      | mk token₂ hg₂ =>
        refine .branch (fun _ => reinvest_twin (.mk token₂ hg₂) ?_) fun _ => .ok (.mk token₂ hg₂)
        show t.idleHollar ≤ t.token.balanceOf d.self
        rw [htoken]
        exact le_trans hidle hcov₁

/-! ## Requests and claims -/

variable {sender receiver controller owner : Address} {shares assets requestId : Nat}

theorem requestRedeem_twin (h : Twin d s s') :
    Both (Twins d) (requestRedeem d s sender shares controller owner)
      (requestRedeem d s' sender shares controller owner) :=
  (requestRedeem_beside h.beside).mono fun _ _ h => ⟨h.1.twin, h.2⟩

/-- The vault has what it reserved. -/
theorem Twin.samePay (h : Twin d s s') (hcov : s.totalReservedHollar ≤ s.token.balanceOf d.self) :
    SamePay (Gifted d.self) d s s' receiver := by
  intro amount hle
  cases h with
  | mk token hg =>
    have hself := hg.self_le
    exact hg.transfer (by omega)

theorem redeem_twin (h : Twin d s s') (hcov : s.totalReservedHollar ≤ s.token.balanceOf d.self) :
    Both (Twins d) (redeem d s sender shares receiver controller) (redeem d s' sender shares receiver controller) :=
  (redeem_beside h.beside (h.samePay hcov)).mono fun _ _ h => ⟨h.1.twin, h.2⟩

theorem withdraw_twin (h : Twin d s s') (hcov : s.totalReservedHollar ≤ s.token.balanceOf d.self) :
    Both (Twins d) (withdraw d s sender assets receiver controller)
      (withdraw d s' sender assets receiver controller) :=
  (withdraw_beside h.beside (h.samePay hcov)).mono fun _ _ h => ⟨h.1.twin, h.2⟩

theorem setTvlCap_twin {newCap : Nat} (h : Twin d s s') :
    Both (Twin d) (setTvlCap s sender newCap) (setTvlCap s' sender newCap) := by
  cases h with
  | mk token hg => exact .same fun _ _ => .same fun _ _ => .same fun _ _ => .ok (.mk token hg)

theorem retirePool_twin {pool : Address} (h : Twin d s s') :
    Both (Twin d) (retirePool env s sender pool) (retirePool env s' sender pool) := by
  cases h with
  | mk token hg =>
    refine .same fun _ _ => .same fun _ _ => .same fun _ _ => ?_
    exact .same fun pools _ => .same fun poolToken _ => .ok (.mk token hg)

end Steps

/-! ## Calls and what they return -/

/-- The number a call returns, where it returns one. -/
def Call.returns (d : Deployment) (env : Replies) (s : State) (sender : Address) : Call → Tx (Option Nat)
  | .deposit assets receiver => do
    let (_, shares) ← MoneyMarket.deposit d env s sender assets receiver
    return some shares
  | .mint shares receiver => do
    let (_, assets) ← MoneyMarket.mint d env s sender shares receiver
    return some assets
  | .requestRedeem shares controller owner => do
    let (_, requestId) ← MoneyMarket.requestRedeem d s sender shares controller owner
    return some requestId
  | .redeem shares receiver controller => do
    let (_, assets) ← MoneyMarket.redeem d s sender shares receiver controller
    return some assets
  | .withdraw assets receiver controller => do
    let (_, shares) ← MoneyMarket.withdraw d s sender assets receiver controller
    return some shares
  | .syncMaturities maxPositions => do
    let (_, processed) ← MoneyMarket.syncMaturities s maxPositions
    return some processed
  | _ => return none

/-- The HOLLAR a call asks of an account other than the vault. -/
def Call.asks (env : Replies) (s : State) (sender : Address) : Call → Address → Nat
  | .deposit assets _, x => if x = sender then assets else 0
  | .mint shares _, x => if x = sender then mintAsks s shares else 0
  | .pokeDecentral i, x => if x = s.positionPool i then poolAsks env s i else 0
  | _, _ => 0

def Action.asks (s : State) : Action → Address → Nat
  | .call sender env c, x => c.asks env s sender x
  | .hollar sender c, x => c.asks sender x
  | .hollarBurn account amount, x => if x = account then amount else 0
  | _, _ => 0

/-- Nobody whom the action asks for HOLLAR is short of it for having given. -/
def Unshort (d : Deployment) (s s' : State) (a : Action) : Prop :=
  ∀ x, x ≠ d.self → Covers s.token s'.token x (a.asks s x)

/-- The replies of an action name the vault for no pool that pays. -/
def Action.Foreign (d : Deployment) : Action → Prop
  | .call _ env _ => env.Foreign d
  | _ => True

section Calls

variable {d : Deployment} {env : Replies} {s s' : State} {sender : Address} {c : Call}

theorem covers_sender {n : Nat} {f : Address → Nat} (hun : ∀ x, x ≠ d.self → Covers s.token s'.token x (f x))
    {x : Address} (hx : x ≠ d.self) (hf : f x = n) : Covers s.token s'.token x n := by
  rw [← hf]; exact hun x hx

theorem Call.run_twin (hinv : Invariant d s) (h : Twin d s s') (hsender : sender ≠ d.self) (hf : env.Foreign d)
    (hun : ∀ x, x ≠ d.self → Covers s.token s'.token x (c.asks env s sender x)) :
    Both (Twins d) (c.run d env s sender) (c.run d env s' sender) := by
  have hidle : s.idleHollar ≤ s.token.balanceOf d.self := le_trans (Nat.le_add_right _ _) hinv.backed
  have hreserved : s.totalReservedHollar ≤ s.token.balanceOf d.self := le_trans (Nat.le_add_left _ _) hinv.backed
  obtain ⟨token, hg⟩ := h
  have h : Twin d s { s with token } := .mk token hg
  cases c with
  | deposit assets receiver =>
    have hc := covers_sender hun hsender (if_pos rfl)
    exact .bind (deposit_twin h hsender hc) fun _ _ _ _ ht => .ok ⟨ht.1, rfl⟩
  | mint shares receiver =>
    have hc := covers_sender hun hsender (if_pos rfl)
    exact .bind (mint_twin h hsender hc) fun _ _ _ _ ht => .ok ⟨ht.1, rfl⟩
  | pokeDecentral i =>
    apply pokeDecentral_twin h hf
    -- the vault as a pool answers nothing, so it is asked for nothing
    by_cases hpool : s.positionPool i = d.self
    · unfold poolAsks
      rw [hpool, hf.1, hf.2]
      exact .inr (Nat.zero_le _)
    · exact covers_sender hun hpool (if_pos rfl)
  | pokeQueue => exact .bind (pokeQueue_twin h hidle) fun _ _ _ _ ht => .ok ⟨ht, rfl⟩
  | syncMaturities n => exact .bind (syncMaturities_twin h n) fun _ _ _ _ ht => .ok ⟨ht.1, rfl⟩
  | redeem shares receiver controller =>
    exact .bind (redeem_twin h hreserved) fun _ _ _ _ ht => .ok ⟨ht.1, rfl⟩
  | withdraw assets receiver controller =>
    exact .bind (withdraw_twin h hreserved) fun _ _ _ _ ht => .ok ⟨ht.1, rfl⟩
  | setTvlCap newCap => exact .bind (setTvlCap_twin h) fun _ _ _ _ ht => .ok ⟨ht, rfl⟩
  | retirePool pool => exact .bind (retirePool_twin h) fun _ _ _ _ ht => .ok ⟨ht, rfl⟩
  | _ =>
    refine (Call.run_beside ?_ h.beside).mono fun _ _ h => ⟨h.1.twin, h.2⟩
    trivial

/-- What the calls return. -/
theorem Call.returns_twin (hinv : Invariant d s) (h : Twin d s s') (hsender : sender ≠ d.self)
    (hun : ∀ x, x ≠ d.self → Covers s.token s'.token x (c.asks env s sender x)) :
    Both Eq (c.returns d env s sender) (c.returns d env s' sender) := by
  have hreserved : s.totalReservedHollar ≤ s.token.balanceOf d.self := le_trans (Nat.le_add_left _ _) hinv.backed
  have hvalue : ∀ {x y : Tx (State × Nat)}, Both (Twins d) x y →
      Both Eq (do let (_, n) ← x; return some n) (do let (_, n) ← y; return some n) :=
    fun hxy => .bind hxy fun _ _ _ _ ht => .ok (congrArg some ht.2.symm)
  cases c with
  | deposit assets receiver => exact hvalue (deposit_twin h hsender (covers_sender hun hsender (if_pos rfl)))
  | mint shares receiver => exact hvalue (mint_twin h hsender (covers_sender hun hsender (if_pos rfl)))
  | requestRedeem shares controller owner => exact hvalue (requestRedeem_twin h)
  | redeem shares receiver controller => exact hvalue (redeem_twin h hreserved)
  | withdraw assets receiver controller => exact hvalue (withdraw_twin h hreserved)
  | syncMaturities n => exact hvalue (syncMaturities_twin h n)
  | _ => exact .ok rfl

end Calls

/-! ## Actions -/

section Actions

variable {d : Deployment} {s s' : State} {a : Action}

/-- An action does the same to twins. -/
theorem step_twin (hinv : Invariant d s) (h : Twin d s s') (hlegal : Legal d s a) (hf : a.Foreign d)
    (hun : Unshort d s s' a) : Both (Twins d) (step d s a) (step d s' a) := by
  cases a with
  | tick now => cases h with | mk token hg => exact .ok ⟨.mk token hg, rfl⟩
  | call sender env c => exact Call.run_twin hinv h hlegal hf hun
  | hollar sender c =>
    cases h with
    | mk token hg =>
      have hcov : ∀ x, c.asks sender x ≤ s.token.balanceOf x ↔ c.asks sender x ≤ token.balanceOf x := by
        intro x
        -- the two ledgers differ in the vault's balance, and a legal transaction draws nothing from it
        by_cases hx : x = d.self
        · have h0 : c.asks sender x = 0 := by
            rw [hx]
            cases c with
            | transfer dst amount => exact if_neg fun heq => hlegal.1 heq.symm
            | transferFrom src dst amount => exact if_neg fun heq => hlegal.2 heq.symm
            | _ => rfl
          rw [h0]
          exact iff_of_true (Nat.zero_le _) (Nat.zero_le _)
        · exact hg.covered hx (hun x hx)
      exact .bind (hg.call hcov) fun u u' _ _ hu => .ok ⟨.mk u' hu, rfl⟩
  | hollarMint account amount =>
    cases h with
    | mk token hg => exact .bind (hg.mint account amount) fun u u' _ _ hu => .ok ⟨.mk u' hu, rfl⟩
  | hollarBurn account amount =>
    cases h with
    | mk token hg =>
      have hne : account ≠ d.self := hlegal
      have hcov := hg.covered hne (covers_sender (d := d) hun hne (if_pos rfl))
      exact .bind (hg.burn hne hcov) fun u u' _ _ hu => .ok ⟨.mk u' hu, rfl⟩

/-- What an action returns; a HOLLAR transaction has no number to return. -/
def Action.returns (d : Deployment) (s : State) : Action → Tx (Option Nat)
  | .call sender env c => c.returns d env s sender
  | _ => .ok none

theorem returns_twin (hinv : Invariant d s) (h : Twin d s s') (hlegal : Legal d s a) (hun : Unshort d s s' a) :
    Both Eq (a.returns d s) (a.returns d s') := by
  cases a with
  | call sender env c => exact Call.returns_twin hinv h hlegal hun
  | _ => exact .ok rfl

end Actions

/-! ## Quotes -/

/-- Every view with a number in it that the vault computes. -/
structure SameQuotes (s t : State) : Prop where
  totalAssets : totalAssets t = totalAssets s
  exchangeRate : exchangeRate t = exchangeRate s
  convertToShares : convertToShares t = convertToShares s
  convertToAssets : convertToAssets t = convertToAssets s
  maxDeposit : maxDeposit t = maxDeposit s
  maxMint : maxMint t = maxMint s
  maxWithdraw : maxWithdraw t = maxWithdraw s
  maxRedeem : maxRedeem t = maxRedeem s
  previewDeposit : previewDeposit t = previewDeposit s
  previewMint : previewMint t = previewMint s
  previewRedeem : previewRedeem t = previewRedeem s
  pendingRedeemRequest : pendingRedeemRequest t = pendingRedeemRequest s
  claimableRedeemRequest : claimableRedeemRequest t = claimableRedeemRequest s
  getEstimatedWaitTime : ∀ delay, getEstimatedWaitTime delay t = getEstimatedWaitTime delay s

theorem Twin.sameQuotes {d : Deployment} {s t : State} (h : Twin d s t) : SameQuotes s t := by
  cases h with
  | mk token hg => exact ⟨rfl, rfl, rfl, rfl, rfl, rfl, rfl, rfl, rfl, rfl, rfl, rfl, rfl, fun _ => rfl⟩

/-- Twins differ in the HOLLAR ledger alone. -/
theorem Twin.token_only {d : Deployment} {s t : State} (h : Twin d s t) : ∃ token, t = { s with token } := by
  cases h with
  | mk token hg => exact ⟨token, rfl⟩

/-! ## Two runs -/

/-- What an action makes of a state; one that reverts leaves it. -/
def settled (d : Deployment) (s : State) (a : Action) : State :=
  match step d s a with
  | .ok (t, _) => t
  | .error _ => s

/-- What happens to a pair of runs: the same action to both, or a gift in the second. -/
inductive PairAction where
  | both (a : Action)
  | donate (donor : Address) (amount : Nat)

/-- The pairs of runs that are the same but for gifts of HOLLAR to the vault between the actions of
the second. -/
def pairedRuns (d : Deployment) : System (State × State) PairAction where
  init p := (vault d).init p.1 ∧ p.2 = p.1
  next p x q :=
    match x with
    | .both a => Legal d p.1 a ∧ a.Foreign d ∧ q = (settled d p.1 a, settled d p.2 a)
    | .donate donor amount =>
      donor ≠ d.self ∧ ∃ token, (p.2.token.transfer donor d.self amount : Tx ERC20) = .ok token ∧
        q = (p.1, { p.2 with token })

/-- The pairs in which no action asks a donor for HOLLAR that it has given. -/
abbrev sparedRuns (d : Deployment) : System (State × State) PairAction :=
  (pairedRuns d).restrict fun p x => ∀ a, x = .both a → Unshort d p.1 p.2 a

theorem settled_inv {d : Deployment} {s : State} {a : Action} (hinv : Invariant d s) (hlegal : Legal d s a) :
    Invariant d (settled d s a) := by
  unfold settled
  cases hs : step d s a with
  | error e => exact hinv
  | ok r =>
    obtain ⟨t, ps⟩ := r
    exact hinv.step hlegal hs

theorem spared_twins {d : Deployment} {p : State × State} (h : (sparedRuns d).Reach p) :
    Invariant d p.1 ∧ Twin d p.1 p.2 := by
  refine System.Reach.invariant (I := fun p => Invariant d p.1 ∧ Twin d p.1 p.2) ?_ ?_ h
  · rintro ⟨s, s'⟩ ⟨hinit, heq⟩
    have heq : s' = s := heq
    subst heq
    have hinv := Invariant.init hinit
    exact ⟨hinv, .mk s'.token ⟨rfl, rfl, le_refl _, fun _ _ => le_refl _, hinv.token.conserved, hinv.token.supply⟩⟩
  · rintro ⟨s, s'⟩ x q - ⟨hinv, ht⟩ ⟨hspared, hnext⟩
    cases x with
    | both a =>
      obtain ⟨hlegal, hf, rfl⟩ := hnext
      refine ⟨settled_inv hinv hlegal, ?_⟩
      unfold settled
      rcases (step_twin hinv ht hlegal hf (hspared a rfl)).sides with ⟨e, h₁, h₂⟩ | ⟨r, r', h₁, h₂, hr⟩
      · rw [h₁, h₂]; exact ht
      · rw [h₁, h₂]; exact hr.1
    | donate donor amount =>
      -- only the second run sees the gift
      obtain ⟨hdonor, token, hgift, rfl⟩ := hnext
      have ht : Twin d s s' := ht
      cases ht with
      | mk token₀ hg => exact ⟨hinv, .mk token (hg.give hdonor hgift)⟩

/-- Gifts of HOLLAR to the vault show nowhere: at every point of two runs that differ by them alone
the states are equal but for the HOLLAR ledger, every quote is the same, and the next action fails
with the same error or succeeds with the same state, payouts and value. -/
theorem donation_neutral {d : Deployment} {s s' : State} (h : (sparedRuns d).Reach (s, s')) :
    (∃ token, s' = { s with token }) ∧ SameQuotes s s' ∧
      ∀ a, Legal d s a → a.Foreign d → Unshort d s s' a →
        Both (fun r r' => (∃ token, r'.1 = { r.1 with token }) ∧ r'.2 = r.2) (step d s a) (step d s' a) ∧
          Both Eq (a.returns d s) (a.returns d s') := by
  obtain ⟨hinv, ht⟩ := spared_twins h
  have ht : Twin d s s' := ht
  refine ⟨ht.token_only, ht.sameQuotes, fun a hlegal hf hun => ⟨?_, returns_twin hinv ht hlegal hun⟩⟩
  exact (step_twin hinv ht hlegal hf hun).mono fun _ _ hr => ⟨hr.1.token_only, hr.2⟩

/-! ## A gift to the demo vault -/

/-- A run of the vault is a pair of runs without gifts. -/
theorem spared_same {d : Deployment} {s : State} (h : ((vault d).restrict fun _ a => a.Foreign d).Reach s) :
    (sparedRuns d).Reach (s, s) := by
  refine System.Reach.invariant (I := fun s => (sparedRuns d).Reach (s, s)) ?_ ?_ h
  · rintro s hinit
    exact .init ⟨hinit, rfl⟩
  · rintro s a t - ih ⟨hf, hlegal, ps, hs⟩
    have hsettled : settled d s a = t := by
      unfold settled
      rw [hs]
    refine .step (.both a) ih ⟨fun _ _ _ _ => .inl rfl, hlegal, hf, ?_⟩
    rw [hsettled]

/-- Replies in which the vault itself answers no pool call. -/
def Replies.away (d : Deployment) (env : Replies) : Replies :=
  { env with pool := fun a => if a = d.self then demoQuiet.pool a else env.pool a }

instance (d : Deployment) (a : Action) : Decidable (a.Foreign d) :=
  match a with
  | .call _ env _ => inferInstanceAs (Decidable ((env.pool d.self).executeYieldWithdrawal = none ∧
      (env.pool d.self).executePrincipalWithdrawal = none))
  | .tick _ => inferInstanceAs (Decidable True)
  | .hollar _ _ => inferInstanceAs (Decidable True)
  | .hollarMint _ _ => inferInstanceAs (Decidable True)
  | .hollarBurn _ _ => inferInstanceAs (Decidable True)

def demoDepositAway : Action :=
  .call alice ((demoReplies (10 ^ 17) 1000 (some (10 ^ 20)) none none).away demo) (.deposit (10 ^ 20) alice)

def demoPokeAway : Action :=
  .call bob ((demoReplies 0 0 none (some 317097919837645) (some (10 ^ 20))).away demo) (.pokeDecentral 0)

/-- Alice gives the vault as much as she deposited; the position is redeemed in both runs with the
same credits. -/
theorem donation_neutral_demo : ∃ s s', (sparedRuns demo).Reach (s, s') ∧
    s'.token.balanceOf demo.self = s.token.balanceOf demo.self + 10 ^ 20 ∧ SameQuotes s s' ∧
      ∃ t t' ps, step demo s demoPokeAway = .ok (t, ps) ∧ step demo s' demoPokeAway = .ok (t', ps) ∧
        ps.length = 2 := by
  obtain ⟨s, t, ps, hs, hlegal, hstep, htest⟩ := observe_step demo (fun _ a => a.Foreign demo) demoQuiet demoSetup
    (demoFunding ++ [demoDepositAway, .tick 1000]) demoPokeAway
    (fun s _ ps => decide (10 ^ 20 ≤ s.token.balanceOf alice ∧ s.positionPool 0 = demoPool ∧ ps.length = 2))
    (by decide +kernel)
  obtain ⟨hhas, hpool, hps⟩ := of_decide_eq_true htest
  have hgift : (s.token.transfer alice demo.self (10 ^ 20) : Tx ERC20) =
      .ok (s.token.move alice demo.self (10 ^ 20)) :=
    ERC20.transfer_ok_iff.2 ⟨by decide, by decide, hhas, rfl⟩
  have hreach : (sparedRuns demo).Reach (s, { s with token := s.token.move alice demo.self (10 ^ 20) }) :=
    .step (.donate alice (10 ^ 20)) (spared_same hs) ⟨nofun, by decide, _, hgift, rfl⟩
  have hun : Unshort demo s { s with token := s.token.move alice demo.self (10 ^ 20) } demoPokeAway := by
    intro x hx
    by_cases hxa : x = alice
    · -- a poke asks the pool alone
      have hasks : demoPokeAway.asks s x = 0 := by
        rw [hxa]
        refine if_neg fun heq => ?_
        rw [hpool] at heq
        exact absurd heq (by decide)
      rw [hasks]
      exact .inr (Nat.zero_le _)
    · left
      show (s.token.move alice demo.self (10 ^ 20)).balanceOf x = s.token.balanceOf x
      rw [ERC20.move_balanceOf, if_neg hx, if_neg hxa]
  obtain ⟨-, hquotes, hnext⟩ := donation_neutral hreach
  obtain ⟨hboth, -⟩ := hnext demoPokeAway hlegal (by decide) hun
  rcases hboth.sides with ⟨e, herr, -⟩ | ⟨r, ⟨t', ps'⟩, h₁, h₂, -, heq⟩
  · rw [hstep] at herr
    cases herr
  · rw [hstep] at h₁
    cases h₁
    have heq : ps' = ps := heq
    rw [heq] at h₂
    refine ⟨s, _, hreach, ?_, hquotes, t, t', ps, hstep, h₂, hps⟩
    exact ERC20.move_target _ _ _ _ (by decide)

/-- A donor that needs its HOLLAR back: alice gives all she has, and the deposit she makes next
succeeds in the run without the gift alone. -/
theorem donor_needs_hollar : ¬ ∀ (d : Deployment) (s s' : State) (a : Action), (pairedRuns d).Reach (s, s') →
    Legal d s a → a.Foreign d → ((∃ r, step d s a = .ok r) ↔ ∃ r, step d s' a = .ok r) := by
  intro hall
  obtain ⟨s, t, ps, hs, hlegal, hstep, htest⟩ := observe_step demo (fun _ a => a.Foreign demo) demoQuiet demoSetup
    demoFunding demoDepositAway (fun s _ _ => decide (s.token.balanceOf alice = 10 ^ 24) &&
      !passes (step demo { s with token := s.token.move alice demo.self (10 ^ 24) } demoDepositAway) fun _ => true)
    (by decide +kernel)
  rw [Bool.and_eq_true, decide_eq_true_iff, Bool.not_eq_true'] at htest
  obtain ⟨hhas, hfails⟩ := htest
  have hgift : (s.token.transfer alice demo.self (10 ^ 24) : Tx ERC20) =
      .ok (s.token.move alice demo.self (10 ^ 24)) :=
    ERC20.transfer_ok_iff.2 ⟨by decide, by decide, le_of_eq hhas.symm, rfl⟩
  have hreach : (pairedRuns demo).Reach (s, { s with token := s.token.move alice demo.self (10 ^ 24) }) :=
    .step (.donate alice (10 ^ 24)) (spared_same hs).of_restrict ⟨by decide, _, hgift, rfl⟩
  obtain ⟨r, hr⟩ := (hall demo s _ demoDepositAway hreach hlegal (by decide)).1 ⟨_, hstep⟩
  rw [hr] at hfails
  cases hfails

end MoneyMarket
