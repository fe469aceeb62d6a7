/-
The vault while it is paused. Positions stay as they are but for yields locked as they mature, HOLLAR
only comes in, no shares are made or burned, and a request either stays or is cut down to its settled
part, so nobody's claims change (`pause_freezes`). What is not settled can be taken back at any time
(`cancel_goes_iff`).
-/
import MoneyMarket.Vault.Claiming
import MoneyMarket.Vault.Course
import MoneyMarket.Vault.Terms
import MoneyMarket.Vault.Value

namespace MoneyMarket

open Evm Relation Transition

/-! ## What a pause stops -/

/-- The calls that a pause stops. -/
def Call.Halts : Call → Prop
  | .deposit _ _ | .mint _ _ | .requestRedeem _ _ _ | .redeem _ _ _ | .withdraw _ _ _ | .pokeDecentral _
  | .pokeQueue => True
  | _ => False

/-- Nobody lifts the pause. -/
def StaysPaused (_ : State) (a : Action) : Prop := ∀ sender env, a ≠ .call sender env .unpause

/-- What is left of a request when it is cancelled. -/
def Request.settledPart (request : Request) : Request :=
  if request.bilSettled = 0 then .empty else { request with bilAmount := request.bilSettled }

/-- What stays under a pause. -/
structure Frozen (d : Deployment) (s t : State) : Prop where
  terms : KeepsTerms s t
  invested : t.totalInvestedPrincipal = s.totalInvestedPrincipal
  idle : t.idleHollar = s.idleHollar
  reserved : t.totalReservedHollar = s.totalReservedHollar
  settled : t.totalSettledBil = s.totalSettledBil
  supply : t.bil.totalSupply = s.bil.totalSupply
  tail : t.queueTail = s.queueTail
  index : t.settledByController = s.settledByController
  requests : ∀ i, t.redemptionQueue i = s.redemptionQueue i ∨ t.redemptionQueue i = (s.redemptionQueue i).settledPart
  hollar : s.token.balanceOf d.self ≤ t.token.balanceOf d.self
  /-- A cap costs a unit of value at most, and nothing else costs any. -/
  value : activeValue s + s.toBook.cappedCount ≤ activeValue t + t.toBook.cappedCount

section Halts

variable {d : Deployment} {env : Replies} {s t : State} {sender : Address} {c : Call} {ps : List Payout}

theorem paused_stops (hpaused : s.paused = true) (hc : c.Halts) : c.run d env s sender ≠ .ok (t, ps) := by
  have hstop : ∀ u, whenNotPaused s ≠ .ok u := by
    intro u hu
    have hgo := require_ok_iff.1 hu
    rw [hpaused] at hgo
    cases hgo
  intro h
  cases c with
  | deposit assets receiver =>
    simp only [Call.run, deposit, bind_ok_iff] at h
    obtain ⟨_, ⟨_, hgo, -⟩, -⟩ := h
    exact hstop _ hgo
  | mint shares receiver =>
    simp only [Call.run, mint, bind_ok_iff] at h
    obtain ⟨_, ⟨_, hgo, -⟩, -⟩ := h
    exact hstop _ hgo
  | requestRedeem shares controller owner =>
    simp only [Call.run, requestRedeem, bind_ok_iff] at h
    obtain ⟨_, ⟨_, hgo, -⟩, -⟩ := h
    exact hstop _ hgo
  | redeem shares receiver controller =>
    simp only [Call.run, redeem, bind_ok_iff] at h
    obtain ⟨_, ⟨_, hgo, -⟩, -⟩ := h
    exact hstop _ hgo
  | withdraw assets receiver controller =>
    simp only [Call.run, withdraw, bind_ok_iff] at h
    obtain ⟨_, ⟨_, hgo, -⟩, -⟩ := h
    exact hstop _ hgo
  | pokeDecentral i =>
    simp only [Call.run, pokeDecentral, bind_ok_iff] at h
    obtain ⟨_, hgo, -⟩ := h
    exact hstop _ hgo
  | pokeQueue =>
    simp only [Call.run, pokeQueue, bind_ok_iff] at h
    obtain ⟨_, ⟨_, hgo, -⟩, -⟩ := h
    exact hstop _ hgo
  | _ => exact hc.elim

/-- Only two calls set the flag. -/
theorem run_paused (hc : c.Configures) (hpause : c ≠ .pause) (hunpause : c ≠ .unpause)
    (h : c.run d env s sender = .ok (t, ps)) : t.paused = s.paused := by
  cases c with
  | pause => exact absurd rfl hpause
  | unpause => exact absurd rfl hunpause
  | setAutoClaim enabled =>
    cases h
    rfl
  | setOperator operator approved =>
    simp only [Call.run, setOperator, bind_ok_iff, pure_ok_iff, Prod.mk.injEq] at h
    obtain ⟨_, ⟨_, -, rfl⟩, rfl, -⟩ := h
    rfl
  | pauseDeposits =>
    simp only [Call.run, pauseDeposits, setDepositsPaused, bind_ok_iff, pure_ok_iff, Prod.mk.injEq] at h
    obtain ⟨_, ⟨_, -, rfl⟩, rfl, -⟩ := h
    rfl
  | unpauseDeposits =>
    simp only [Call.run, unpauseDeposits, setDepositsPaused, bind_ok_iff, pure_ok_iff, Prod.mk.injEq] at h
    obtain ⟨_, ⟨_, -, rfl⟩, rfl, -⟩ := h
    rfl
  | setTvlCap newCap =>
    simp only [Call.run, setTvlCap, bind_ok_iff, pure_ok_iff, Prod.mk.injEq] at h
    obtain ⟨_, ⟨_, -, _, -, _, -, rfl⟩, rfl, -⟩ := h
    rfl
  | setMinReinvestAmount amount =>
    simp only [Call.run, setMinReinvestAmount, bind_ok_iff, pure_ok_iff, Prod.mk.injEq] at h
    obtain ⟨_, ⟨_, -, rfl⟩, rfl, -⟩ := h
    rfl
  | setMinRedeemAmount amount =>
    simp only [Call.run, setMinRedeemAmount, bind_ok_iff, pure_ok_iff, Prod.mk.injEq] at h
    obtain ⟨_, ⟨_, -, _, -, rfl⟩, rfl, -⟩ := h
    rfl
  | setOracle oracle =>
    simp only [Call.run, setOracle, bind_ok_iff, pure_ok_iff, Prod.mk.injEq] at h
    obtain ⟨_, ⟨_, -, _, -, _, -, rfl⟩, rfl, -⟩ := h
    rfl
  | setPrincipalMismatchBpsThreshold bps =>
    simp only [Call.run, setPrincipalMismatchBpsThreshold, bind_ok_iff, pure_ok_iff, Prod.mk.injEq] at h
    obtain ⟨_, ⟨_, -, _, -, rfl⟩, rfl, -⟩ := h
    rfl
  | registerPool newPool =>
    simp only [Call.run, registerPoolCall, bind_ok_iff, pure_ok_iff, Prod.mk.injEq] at h
    obtain ⟨_, ⟨_, -, g, -, rfl⟩, rfl, -⟩ := h
    rfl
  | setActiveDepositPool pool =>
    simp only [Call.run, setActiveDepositPool, bind_ok_iff, pure_ok_iff, Prod.mk.injEq] at h
    obtain ⟨_, ⟨_, -, _, -, rfl⟩, rfl, -⟩ := h
    rfl
  | retirePool pool =>
    simp only [Call.run, retirePool, bind_ok_iff, pure_ok_iff, Prod.mk.injEq] at h
    obtain ⟨_, ⟨_, -, _, -, _, -, _, -, _, -, rfl⟩, rfl, -⟩ := h
    rfl
  | grantRole role account =>
    simp only [Call.run, grantRole, bind_ok_iff, pure_ok_iff, Prod.mk.injEq] at h
    obtain ⟨_, ⟨_, -, rfl⟩, rfl, -⟩ := h
    rfl
  | revokeRole role account =>
    simp only [Call.run, revokeRole, bind_ok_iff, pure_ok_iff, Prod.mk.injEq] at h
    obtain ⟨_, ⟨_, -, rfl⟩, rfl, -⟩ := h
    rfl
  | renounceRole role account =>
    simp only [Call.run, renounceRole, bind_ok_iff, pure_ok_iff, Prod.mk.injEq] at h
    obtain ⟨_, ⟨_, -, rfl⟩, rfl, -⟩ := h
    rfl
  | _ => exact hc.elim

end Halts

/-! ## What a pause keeps -/

theorem Request.settledPart_idem (request : Request) : request.settledPart.settledPart = request.settledPart := by
  by_cases h : request.bilSettled = 0
  · simp [Request.settledPart, h, Request.empty]
  · simp [Request.settledPart, h]

/-- The settled part has all that is settled. -/
theorem Request.settledPart_claims {request : Request} (h : request.bilSettled = 0 → request.hollarOwed = 0) :
    request.settledPart.bilSettled = request.bilSettled ∧ request.settledPart.hollarOwed = request.hollarOwed := by
  unfold Request.settledPart
  split_ifs with hzero
  · exact ⟨hzero.symm, (h hzero).symm⟩
  · exact ⟨rfl, rfl⟩

namespace Frozen

variable {d : Deployment} {s t u : State}

theorem refl (s : State) : Frozen d s s :=
  ⟨.refl s, rfl, rfl, rfl, rfl, rfl, rfl, rfl, fun _ => .inl rfl, le_refl _, le_refl _⟩

theorem trans (h : Frozen d s t) (h' : Frozen d t u) : Frozen d s u where
  terms := h.terms.trans h'.terms
  invested := h'.invested.trans h.invested
  idle := h'.idle.trans h.idle
  reserved := h'.reserved.trans h.reserved
  settled := h'.settled.trans h.settled
  supply := h'.supply.trans h.supply
  tail := h'.tail.trans h.tail
  index := h'.index.trans h.index
  requests i := by
    rcases h'.requests i with h' | h'
    · rw [h']
      exact h.requests i
    · right
      rw [h']
      rcases h.requests i with h | h
      · rw [h]
      · rw [h, Request.settledPart_idem]
  hollar := le_trans h.hollar h'.hollar
  value := le_trans h.value h'.value

/-- What is neither in the book nor in the queue is free to change, but for the HOLLAR of the vault. -/
theorem of_rest (hbook : t.toBook = s.toBook) (hqueue : t.toRedemptions = s.toRedemptions)
    (hidle : t.idleHollar = s.idleHollar) (hbil : t.bil.totalSupply = s.bil.totalSupply) (hnow : t.now = s.now)
    (hhollar : s.token.balanceOf d.self ≤ t.token.balanceOf d.self) : Frozen d s t := by
  refine ⟨.of_book hbook, by rw [hbook], hidle, by rw [hqueue], by rw [hqueue], hbil, by rw [hqueue], by rw [hqueue],
    fun i => .inl (by rw [hqueue]), hhollar, ?_⟩
  unfold activeValue
  rw [hbook, hidle, hnow]

end Frozen

section Steps

variable {d : Deployment} {env : Replies} {s t : State} {sender : Address} {i : Nat}

theorem cancelRedeem_frozen (h : cancelRedeem d s sender i = .ok t) : Frozen d s t := by
  obtain ⟨bil, head, hsupply, rfl⟩ := cancelRedeem_eq h
  refine ⟨.of_book rfl, rfl, rfl, rfl, rfl, hsupply, rfl, rfl, fun j => ?_, le_refl _, le_refl _⟩
  show Function.update s.redemptionQueue i (s.redemptionQueue i).settledPart j = _ ∨
    Function.update s.redemptionQueue i (s.redemptionQueue i).settledPart j = _
  rw [Function.update_apply]
  split_ifs with hj
  · exact .inr (by rw [hj])
  · exact .inl rfl

/-- A sync loses a unit of value with each cap at most. -/
theorem caps_value {b b' : Book} {now : Nat} (hy : YieldBook now b) (h : ReflTransGen (Cap now) b b') :
    b.worth now + b.cappedCount ≤ b'.worth now + b'.cappedCount := by
  have hall : YieldBook now b' ∧ b.worth now + b.cappedCount ≤ b'.worth now + b'.cappedCount := by
    induction h with
    | refl => exact ⟨hy, le_refl _⟩
    | @tail x y _ hc ih =>
      obtain ⟨hx, hle⟩ := ih
      obtain ⟨hworth, hcount⟩ := hx.worth_cap hc
      have hy : YieldBook now y := by
        cases hc with
        | cap entry pos hroot _ hpos _ => exact (hx.cap hroot hpos).2.2
      exact ⟨hy, by omega⟩
  exact hall.2

theorem syncMaturities_frozen {n k : Nat} (hy : YieldBook s.now s.toBook) (h : syncMaturities s n = .ok (t, k)) :
    Frozen d s t := by
  obtain ⟨b, rfl, hcaps⟩ := syncMaturities_caps h
  refine ⟨⟨caps_terms hcaps, (caps_frame hcaps).1⟩, ?_, rfl, rfl, rfl, rfl, rfl, rfl, fun _ => .inl rfl, le_refl _, ?_⟩
  · exact (caps_frame hcaps).2.2
  · have hvalue := caps_value hy hcaps
    show s.toBook.worth s.now + s.idleHollar + s.toBook.cappedCount ≤ b.worth s.now + s.idleHollar + b.cappedCount
    omega

/-- One step under the pause. -/
theorem Frozen.step {a : Action} {ps : List Payout} (h : Invariant d s) (hpaused : s.paused = true)
    (hstays : StaysPaused s a) (hlegal : Legal d s a) (hstep : MoneyMarket.step d s a = .ok (t, ps)) :
    t.paused = true ∧ Frozen d s t := by
  cases a with
  | tick now =>
    cases hstep
    refine ⟨hpaused, .of_book rfl, rfl, rfl, rfl, rfl, rfl, rfl, rfl, fun _ => .inl rfl, le_refl _, ?_⟩
    have hworth := h.yield.worth_tick hlegal
    show s.toBook.worth s.now + s.idleHollar + s.toBook.cappedCount ≤
      s.toBook.worth now + s.idleHollar + s.toBook.cappedCount
    omega
  | hollar sender c =>
    simp only [MoneyMarket.step, bind_ok_iff, pure_ok_iff, Prod.mk.injEq] at hstep
    obtain ⟨token, htoken, rfl, -⟩ := hstep
    exact ⟨hpaused, .of_rest rfl rfl rfl rfl rfl (Spends.of_call hlegal.1 hlegal.2 htoken h.token).2⟩
  | hollarMint account amount =>
    simp only [MoneyMarket.step, bind_ok_iff, pure_ok_iff, Prod.mk.injEq] at hstep
    obtain ⟨token, htoken, rfl, -⟩ := hstep
    obtain ⟨-, -, rfl⟩ := ERC20.mint_ok_iff.1 htoken
    refine ⟨hpaused, .of_rest rfl rfl rfl rfl rfl ?_⟩
    show _ ≤ (s.token.setBalance account (s.token.balanceOf account + amount)).balanceOf d.self
    rw [ERC20.setBalance_balanceOf, Function.update_apply]
    split_ifs with haccount
    · rw [haccount]
      exact Nat.le_add_right _ _
    · exact le_refl _
  | hollarBurn account amount =>
    simp only [MoneyMarket.step, bind_ok_iff, pure_ok_iff, Prod.mk.injEq] at hstep
    obtain ⟨token, htoken, rfl, -⟩ := hstep
    obtain ⟨-, -, rfl⟩ := ERC20.burn_ok_iff.1 htoken
    refine ⟨hpaused, .of_rest rfl rfl rfl rfl rfl ?_⟩
    show _ ≤ (s.token.setBalance account (s.token.balanceOf account - amount)).balanceOf d.self
    rw [ERC20.setBalance_balanceOf, Function.update_of_ne (Ne.symm hlegal)]
  | call sender env c =>
    have hrun : c.run d env s sender = .ok (t, ps) := hstep
    have hgo : ¬ c.Halts := fun hc => paused_stops hpaused hc hrun
    cases call_course hrun with
    | cancelRedeem requestId hcancel =>
      obtain ⟨bil, head, -, rfl⟩ := cancelRedeem_eq hcancel
      exact ⟨hpaused, cancelRedeem_frozen hcancel⟩
    | syncMaturities n hstill hqueue =>
      simp only [Call.run, bind_ok_iff, Prod.exists, pure_ok_iff, Prod.mk.injEq] at hrun
      obtain ⟨_, k, hsync, rfl, -⟩ := hrun
      exact ⟨(congrArg Settings.paused hstill.settings).trans hpaused, syncMaturities_frozen h.yield hsync⟩
    | share c bil hcall => exact ⟨hpaused, .of_rest rfl rfl rfl (ERC20.call_totalSupply hcall) rfl (le_refl _)⟩
    | configure g f p hc =>
      refine ⟨?_, .of_rest rfl rfl rfl rfl rfl (le_refl _)⟩
      by_cases hpause : c = .pause
      · -- a second pause reverts
        subst hpause
        simp only [Call.run, MoneyMarket.pause, bind_ok_iff] at hrun
        obtain ⟨_, ⟨_, -, _, hunpaused, -⟩, -⟩ := hrun
        rw [whenNotPaused, require_ok_iff, hpaused] at hunpaused
        cases hunpaused
      · exact (run_paused hc hpause (fun hc => hstays sender env (by rw [hc])) hrun).trans hpaused
    | _ => exact absurd trivial hgo

/-- A whole run under the pause. -/
theorem Frozen.run (h : Reachable d s) (hpaused : s.paused = true)
    (hl : ((vault d).restrict StaysPaused).Leads s t) : Reachable d t ∧ t.paused = true ∧ Frozen d s t := by
  induction hl with
  | refl => exact ⟨h, hpaused, .refl s⟩
  | tail _ hnext ih =>
    obtain ⟨hr, hp, hfrozen⟩ := ih
    obtain ⟨a, hstays, hlegal, ps, hstep⟩ := hnext
    obtain ⟨hp', hfrozen'⟩ := Frozen.step hr.inv hp hstays hlegal hstep
    exact ⟨.step a hr ⟨hlegal, ps, hstep⟩, hp', hfrozen.trans hfrozen'⟩

/-- Settled requests stay as they are, but for the shares that were not settled. -/
theorem Frozen.claims (h : Frozen d s t) (hinv : Invariant d s) (i : Nat) :
    (t.redemptionQueue i).bilSettled = (s.redemptionQueue i).bilSettled ∧
      (t.redemptionQueue i).hollarOwed = (s.redemptionQueue i).hollarOwed := by
  rcases h.requests i with heq | heq
  · rw [heq]
    exact ⟨rfl, rfl⟩
  · rw [heq]
    apply Request.settledPart_claims
    intro hzero
    by_cases huser : (s.redemptionQueue i).user = 0
    · rw [hinv.ledger.blank i (.inl huser)]
      rfl
    · exact (hinv.ledger.live i huser).unowed hzero

theorem Frozen.claimable (h : Frozen d s t) {f : Request → Nat}
    (hf : ∀ i, f (t.redemptionQueue i) = f (s.redemptionQueue i)) (c : Address) :
    claimable f t.toQueueStore c = claimable f s.toQueueStore c := by
  unfold MoneyMarket.claimable
  rw [h.index]
  exact congrArg List.sum (List.map_congr_left fun i _ => hf i)

end Steps

/-- Along any run that nobody lifts the pause in, from any reachable state that is paused: no position is
opened or moved on, no HOLLAR is reserved, placed or paid out, no shares are made or burned, every request
stays or keeps its settled part alone, every controller can claim later what it could claim before, and
what the shares are worth falls by no more than a unit for each yield locked. -/
theorem pause_freezes {d : Deployment} {s t : State} (h : Reachable d s) (hpaused : s.paused = true)
    (hl : ((vault d).restrict StaysPaused).Leads s t) :
    t.paused = true ∧ Frozen d s t ∧ ∀ c, maxRedeem t c = maxRedeem s c ∧ maxWithdraw t c = maxWithdraw s c := by
  obtain ⟨hr, hp, hfrozen⟩ := Frozen.run h hpaused hl
  refine ⟨hp, hfrozen, fun c => ⟨?_, ?_⟩⟩
  · rw [hr.inv.maxRedeem, h.inv.maxRedeem, hfrozen.claimable fun i => (hfrozen.claims h.inv i).1]
  · rw [hr.inv.maxWithdraw, h.inv.maxWithdraw, hfrozen.claimable fun i => (hfrozen.claims h.inv i).2]

instance (s : State) (a : Action) : Decidable (StaysPaused s a) :=
  match a with
  | .call _ _ c =>
    decidable_of_iff (c ≠ .unpause) ⟨fun h _ _ heq => h (Action.call.inj heq).2.2, fun h heq => h _ _ (congrArg _ heq)⟩
  | .tick _ | .hollar _ _ | .hollarMint _ _ | .hollarBurn _ _ => .isTrue fun _ _ heq => nomatch heq

/-- Alice's 100 HOLLAR are placed and 30 of her shares queued when the vault is paused. -/
def pausedRun : List Action :=
  demoFunding ++
    [.call alice (demoReplies (10 ^ 17) 1000 (some (10 ^ 20)) none none) (.deposit (10 ^ 20) alice),
     .call alice demoQuiet (.requestRedeem (30 * 10 ^ 18) alice alice),
     .call 0xad demoQuiet .pause]

/-- Under the pause the position matures and is synced, and alice takes her request back. -/
theorem pause_freezes_demo : ∃ s t : State, Reachable demo s ∧ s.totalPendingYield = 0 ∧ t.totalPendingYield ≠ 0 ∧
    (s.redemptionQueue 0).bilAmount = 30 * 10 ^ 18 ∧ t.redemptionQueue 0 = Request.empty ∧ t.paused = true ∧
    Frozen demo s t := by
  obtain ⟨s, hs, ht⟩ := observe_reach demo DeadSilent demoQuiet demoSetup pausedRun
    (fun s => decide (s.paused = true ∧ s.totalPendingYield = 0 ∧ (s.redemptionQueue 0).bilAmount = 30 * 10 ^ 18) &&
      (System.exec (replayStep demo StaysPaused) s
        [.tick 1000, .call bob demoQuiet (.syncMaturities 5), .call alice demoQuiet (.cancelRedeem 0)]).any
        fun (t : State) => decide (t.totalPendingYield ≠ 0 ∧ t.redemptionQueue 0 = Request.empty)) (by decide +kernel)
  rw [Bool.and_eq_true, decide_eq_true_iff] at ht
  obtain ⟨⟨hpaused, hpending, hamount⟩, ht⟩ := ht
  obtain ⟨t, hexec, ht⟩ := (Option.any_eq_true _ _).1 ht
  obtain ⟨hsynced, hempty⟩ := of_decide_eq_true ht
  obtain ⟨hp, hfrozen, -⟩ := pause_freezes hs.of_restrict hpaused (.exec (fun _ _ _ => replayStep_sound) hexec)
  exact ⟨s, t, hs.of_restrict, hpending, hsynced, hamount, hempty, hp, hfrozen⟩

/-! ## Cancels -/

section Cancels

variable {d : Deployment} {s t : State} {sender : Address} {i : Nat}

/-- The escrow holds what a cancel gives back. -/
theorem cancelRedeem_goes (h : Invariant d s) (huser : (s.redemptionQueue i).user ≠ 0)
    (hauth : sender = (s.redemptionQueue i).user ∨ s.isOperator (s.redemptionQueue i).user sender = true) :
    ∃ t, cancelRedeem d s sender i = .ok t := by
  have hle := h.ledger.settled_le_amount i
  have hamount := h.ledger.amount_le i
  have hescrow := h.escrow
  obtain ⟨t, hrefund⟩ : ∃ t, refundUnsettled d s i ((s.redemptionQueue i).bilAmount - (s.redemptionQueue i).bilSettled) =
      .ok t := by
    unfold refundUnsettled
    split_ifs
    · refine ⟨_, bind_ok_iff.2 ⟨_, checkedSub_ok_iff.2 ⟨by omega, rfl⟩, bind_ok_iff.2 ⟨_, ERC20.transfer_ok_iff.2
        ⟨d.self_ne_zero, huser, by omega, rfl⟩, rfl⟩⟩⟩
    · exact ⟨s, rfl⟩
  refine ⟨deleteUnsettled t i, ?_⟩
  simp only [cancelRedeem, bind_ok_iff, require_ok_iff, checkedSub_ok_iff, pure_ok_iff]
  exact ⟨(), h.ledger.lt_tail huser, (), huser, (), hauth, _, ⟨hle, rfl⟩, t, hrefund, rfl⟩

theorem move_zero (token : ERC20) (a b : Address) : (token.move a b 0).balanceOf = token.balanceOf := by
  funext x
  rw [ERC20.move_balanceOf]
  split_ifs with hx hba ha
  · rw [hx, hba, Nat.sub_zero, Nat.add_zero]
  · rw [hx, Nat.add_zero]
  · rw [ha, Nat.sub_zero]
  · rfl

/-- The shares move as far as they are not settled. -/
theorem cancelRedeem_bil (h : cancelRedeem d s sender i = .ok t) :
    t.bil.balanceOf = (s.bil.move d.self (s.redemptionQueue i).user
      ((s.redemptionQueue i).bilAmount - (s.redemptionQueue i).bilSettled)).balanceOf := by
  obtain ⟨-, -, hbil, -⟩ := cancelRedeem_ok h
  rcases hbil with ⟨hbil, hsettled⟩ | hbil
  · rw [hbil, hsettled, Nat.sub_self, move_zero]
  · obtain ⟨-, -, -, hmove⟩ := ERC20.transfer_ok_iff.1 hbil
    rw [hmove]

end Cancels

/-- In every reachable state, paused or not: a cancel goes through exactly for the controller of a request
that is there and for its operators. It gives the controller what is not settled, leaves the settled part,
and changes no position, no other request, no ledger of what is settled and no HOLLAR. -/
theorem cancel_goes_iff {d : Deployment} {s : State} (h : Reachable d s) (sender : Address) (i : Nat) :
    ((∃ t, cancelRedeem d s sender i = .ok t) ↔
      (s.redemptionQueue i).user ≠ 0 ∧
        (sender = (s.redemptionQueue i).user ∨ s.isOperator (s.redemptionQueue i).user sender = true)) ∧
    ∀ t, cancelRedeem d s sender i = .ok t →
      t.redemptionQueue = Function.update s.redemptionQueue i (s.redemptionQueue i).settledPart ∧
      t.totalQueuedBil + ((s.redemptionQueue i).bilAmount - (s.redemptionQueue i).bilSettled) = s.totalQueuedBil ∧
      t.bil.balanceOf = (s.bil.move d.self (s.redemptionQueue i).user
        ((s.redemptionQueue i).bilAmount - (s.redemptionQueue i).bilSettled)).balanceOf ∧
      t.token = s.token ∧ t.toBook = s.toBook ∧ Frozen d s t := by
  refine ⟨⟨?_, fun ⟨huser, hauth⟩ => cancelRedeem_goes h.inv huser hauth⟩, fun t ht => ?_⟩
  · rintro ⟨t, ht⟩
    obtain ⟨huser, hauth, -⟩ := cancelRedeem_ok ht
    exact ⟨huser, hauth⟩
  · obtain ⟨-, -, -, htoken, hqueue⟩ := cancelRedeem_ok ht
    obtain ⟨bil, head, -, heq⟩ := cancelRedeem_eq ht
    refine ⟨hqueue, ?_, cancelRedeem_bil ht, htoken, by rw [heq], cancelRedeem_frozen ht⟩
    rw [heq]
    have hamount := h.inv.ledger.amount_le i
    show s.totalQueuedBil - ((s.redemptionQueue i).bilAmount - (s.redemptionQueue i).bilSettled) + _ = _
    omega

/-- Under the pause alice gets her 30 shares back. -/
theorem cancel_goes_iff_demo : ∃ s t : State, s.paused = true ∧ cancelRedeem demo s alice 0 = .ok t ∧
    t.redemptionQueue 0 = Request.empty ∧ t.bil.balanceOf alice = s.bil.balanceOf alice + 30 * 10 ^ 18 := by
  obtain ⟨s, hs, ht⟩ := observe_reach demo DeadSilent demoQuiet demoSetup pausedRun
    (fun s => decide (s.paused = true ∧ s.redemptionQueue 0 = ⟨alice, 30 * 10 ^ 18, 0, 0⟩)) (by decide +kernel)
  obtain ⟨hpaused, hrequest⟩ := of_decide_eq_true ht
  obtain ⟨hgoes, heffect⟩ := cancel_goes_iff hs.of_restrict alice 0
  obtain ⟨t, ht⟩ := hgoes.2 (by rw [hrequest]; exact ⟨by decide, .inl rfl⟩)
  obtain ⟨hqueue, -, hbil, -⟩ := heffect t ht
  refine ⟨s, t, hpaused, ht, ?_, ?_⟩
  · rw [hqueue, Function.update_self, hrequest]
    rfl
  · rw [hbil, hrequest]
    exact ERC20.move_target _ _ _ _ (by decide)

end MoneyMarket
