/-
What a successful call has done, by the function it ran. The functions that only configure the vault
are one case (`Call.Configures`), and the keeper's two calls lock requests at the rate of a state on
their way or leave the queue alone (`Settlement`).
-/
import MoneyMarket.Queue.Locks
import MoneyMarket.Vault.Outlay

namespace MoneyMarket

open Evm Relation

/-! ## Settlement -/

/-- The requests of `t` are those of `s` with shares locked at the rate of `s₁`, which still had them. -/
structure LockedAt (s₁ s t : State) (rate : Nat) : Prop where
  queue : s₁.toRedemptions = s.toRedemptions
  priced : exchangeRate s₁ = .ok rate
  locks : Locks rate s.toRedemptions t.toRedemptions

/-- What a part of a call with the payouts `ps` does to the queue: nothing, or it locks at the rate of the
state that it led to with them. -/
inductive Distribution (d : Deployment) (s : State) (ps : List Payout) (t : State) : Prop
  | none : t.toRedemptions = s.toRedemptions → Distribution d s ps t
  | locked (s₁ : State) (rate : Nat) : Works d s ps s₁ → LockedAt s₁ s t rate → Distribution d s ps t

/-- What the keeper's two calls do to the queue: nothing, or they lock at the rate after their own sync, in
a poke of a position with its own payouts after it. -/
inductive Settlement (d : Deployment) (s : State) : Call → List Payout → State → Prop
  | none {c : Call} {ps : List Payout} {t : State} : t.toRedemptions = s.toRedemptions → Settlement d s c ps t
  | queue {t : State} (s₁ : State) (k rate : Nat) : syncMaturities s maxMaturitySync = .ok (s₁, k) →
      LockedAt s₁ s t rate → Settlement d s .pokeQueue [] t
  | position {ps : List Payout} {t : State} (i k : Nat) (s₀ s₁ : State) (rate : Nat) :
      syncMaturities s maxMaturitySync = .ok (s₀, k) → Works d s₀ ps s₁ → LockedAt s₁ s t rate →
      Settlement d s (.pokeDecentral i) ps t

section Settlement

variable {d : Deployment} {env : Replies} {s s₁ t u : State} {rate : Nat}

/-- What keeps the queue may come first. -/
theorem LockedAt.after (h : LockedAt s₁ s t rate) (hs : s.toRedemptions = u.toRedemptions) : LockedAt s₁ u t rate :=
  ⟨h.queue.trans hs, h.priced, by rw [← hs]; exact h.locks⟩

/-- And what keeps it may come after. -/
theorem LockedAt.through (h : LockedAt s₁ s t rate) (ht : u.toRedemptions = t.toRedemptions) : LockedAt s₁ s u rate :=
  ⟨h.queue, h.priced, by rw [ht]; exact h.locks⟩

theorem Distribution.after {ps qs : List Payout} (h : Distribution d s ps t) (hw : Works d u qs s)
    (hs : s.toRedemptions = u.toRedemptions) : Distribution d u (qs ++ ps) t := by
  cases h with
  | none hqueue => exact .none (hqueue.trans hs)
  | locked s₁ rate hworks hlocked => exact .locked s₁ rate (hw.trans hworks) (hlocked.after hs)

theorem processQueueWithHollar_locked {available used locked : Nat} (hrate : exchangeRate s = .ok rate)
    (h : processQueueWithHollar s available rate = .ok (t, used, locked)) : LockedAt s s t rate := by
  simp only [processQueueWithHollar, bind_ok_iff, checkedSub_ok_iff, checkedAdd_ok_iff, pure_ok_iff, Prod.mk.injEq] at h
  obtain ⟨r, hr, _, ⟨-, rfl⟩, _, ⟨-, rfl⟩, _, ⟨-, rfl⟩, rfl, -, -⟩ := h
  exact ⟨rfl, hrate, processQueue_locks (q := s.toRedemptions) hr⟩

theorem syncMaturities_queue {n k : Nat} (h : syncMaturities s n = .ok (t, k)) :
    t.toRedemptions = s.toRedemptions := by
  simp only [syncMaturities, bind_ok_iff, checkedAdd_ok_iff, pure_ok_iff, Prod.mk.injEq] at h
  obtain ⟨r, -, _, -, rfl, -⟩ := h
  rfl

theorem distribute_distribution (h : distribute s = .ok t) : Distribution d s [] t := by
  unfold distribute at h
  split at h
  · simp only [bind_ok_iff, pure_ok_iff, Prod.exists] at h
    obtain ⟨rate, hrate, t', used, locked, hq, rfl⟩ := h
    exact .locked s rate (.refl s) (processQueueWithHollar_locked hrate hq)
  · cases h; exact .none rfl

variable {pool : Address} {i : Nat} {f : Flow}

theorem requestYieldBranch_queue (h : requestYieldBranch env pool i s = .ok f) :
    f.state.toRedemptions = s.toRedemptions := by
  simp only [requestYieldBranch, bind_ok_iff, readAt_ok_iff] at h
  obtain ⟨pos, -, h⟩ := h
  split_ifs at h <;> cases h <;> rfl

theorem executeYieldBranch_queue (h : executeYieldBranch d env pool i s = .ok f) :
    f.state.toRedemptions = s.toRedemptions := by
  simp only [executeYieldBranch, bind_ok_iff, readAt_ok_iff] at h
  obtain ⟨pos, -, h⟩ := h
  split at h
  · split at h
    · cases h; rfl
    · simp only [bind_ok_iff, pure_ok_iff] at h
      obtain ⟨_, -, _, -, _, -, _, -, rfl⟩ := h
      rfl
  · cases h; rfl

theorem requestPrincipalBranch_queue (h : requestPrincipalBranch env pool i s = .ok f) :
    f.state.toRedemptions = s.toRedemptions := by
  simp only [requestPrincipalBranch, bind_ok_iff, readAt_ok_iff] at h
  obtain ⟨pos, -, h⟩ := h
  split_ifs at h <;> cases h <;> rfl

theorem executePrincipalBranch_distribution (h : executePrincipalBranch d env pool i s = .ok f) :
    Distribution d s f.payouts f.state := by
  rcases executePrincipalBranch_ok h with ⟨hs, -⟩ | ⟨u, hpaid, hqueue, hdist⟩
  · exact .none (by rw [hs])
  · have hoffer := (distribute_distribution hdist).after hpaid hqueue
    rwa [List.append_nil] at hoffer

/-- A branch that keeps the queue, and then one that settles. -/
theorem Flow.andThen_distribution {a : Flow} {next : State → Tx Flow} (hp : Works d s a.payouts a.state)
    (ha : a.state.toRedemptions = s.toRedemptions)
    (hnext : ∀ g, next a.state = .ok g → Distribution d a.state g.payouts g.state) (h : a.andThen next = .ok f) :
    Distribution d s f.payouts f.state := by
  unfold Flow.andThen at h
  split at h
  · cases h; exact .none ha
  · simp only [bind_ok_iff, pure_ok_iff] at h
    obtain ⟨g, hg, rfl⟩ := h
    exact (hnext g hg).after hp ha

theorem Flow.andThen_queue {a : Flow} {next : State → Tx Flow} (ha : a.state.toRedemptions = s.toRedemptions)
    (hnext : ∀ g, next a.state = .ok g → g.state.toRedemptions = a.state.toRedemptions)
    (h : a.andThen next = .ok f) : f.state.toRedemptions = s.toRedemptions := by
  unfold Flow.andThen at h
  split at h
  · cases h; exact ha
  · simp only [bind_ok_iff, pure_ok_iff] at h
    obtain ⟨g, hg, rfl⟩ := h
    exact (hnext g hg).trans ha

/-- Only the last branch of a lifecycle poke settles. -/
theorem pokeDecentral_settlement {ps : List Payout} (h : pokeDecentral d env s i = .ok (t, ps)) :
    Settlement d s (.pokeDecentral i) ps t := by
  simp only [pokeDecentral, bind_ok_iff, Prod.exists, pure_ok_iff, Prod.mk.injEq] at h
  obtain ⟨_, -, _, -, _, -, s₁, k, hsync, f₁, h1, f₂, h2, f₃, h3, f₄, h4, rfl, rfl⟩ := h
  have hp := Flow.andThen_works (requestYieldBranch_works h1) (fun _ hg => executeYieldBranch_works hg) h2
  have hp := Flow.andThen_works hp (fun _ hg => requestPrincipalBranch_works hg) h3
  have hq := Flow.andThen_queue (requestYieldBranch_queue h1) (fun _ hg => executeYieldBranch_queue hg) h2
  have hq := Flow.andThen_queue hq (fun _ hg => requestPrincipalBranch_queue hg) h3
  have hsynced := syncMaturities_queue hsync
  cases Flow.andThen_distribution (d := d) hp hq (fun _ hg => executePrincipalBranch_distribution hg) h4 with
  | none hqueue => exact .none (hqueue.trans hsynced)
  | locked s₂ rate hworks hlocked => exact .position i k s₁ s₂ rate hsync hworks (hlocked.after hsynced)

theorem depositIntoDecentral_queue {amount : Nat} {ok : Bool} (h : depositIntoDecentral d env s amount = .ok (t, ok)) :
    t.toRedemptions = s.toRedemptions := by
  rcases depositIntoDecentral_ok h with ⟨-, token, rfl, -⟩ | ⟨-, _, _, _, _, rfl, -⟩
  · rfl
  · rfl

theorem reinvest_queue (h : MoneyMarket.reinvest d env s = .ok t) : t.toRedemptions = s.toRedemptions := by
  unfold MoneyMarket.reinvest at h
  split at h
  · cases h; rfl
  · simp only [bind_ok_iff] at h
    obtain ⟨amount, -, h⟩ := h
    split at h
    · cases h; rfl
    · simp only [bind_ok_iff, Prod.exists] at h
      obtain ⟨s₁, ok, hdep, h⟩ := h
      have hq := depositIntoDecentral_queue hdep
      split at h
      · simp only [bind_ok_iff, pure_ok_iff] at h
        obtain ⟨_, -, rfl⟩ := h
        exact hq
      · cases h; exact hq

theorem pokeQueue_settlement (h : pokeQueue d env s = .ok t) : Settlement d s .pokeQueue [] t := by
  simp only [pokeQueue, syncBeforeRateSensitiveAction, bind_ok_iff, Prod.exists, pure_ok_iff] at h
  obtain ⟨_, -, s₁, ⟨s₁', k, hsync, _, -, rfl⟩, rate, hrate, s₂, used, locked, hq, h⟩ := h
  refine .queue s₁' k rate hsync
    (((processQueueWithHollar_locked hrate hq).after (syncMaturities_queue hsync)).through ?_)
  split at h
  · exact (reinvest_queue h).trans rfl
  · cases h; rfl

end Settlement

/-! ## Requests -/

section Requests

variable {d : Deployment} {s t : State} {sender : Address}

/-- A request escrows the shares of its owner under the next id. -/
theorem requestRedeem_ok {shares id : Nat} {controller owner : Address}
    (h : requestRedeem d s sender shares controller owner = .ok (t, id)) :
    id = s.queueTail ∧ (sender = owner ∨ s.isOperator owner sender = true) ∧
      (s.bil.transfer owner d.self shares : Tx ERC20) = .ok t.bil ∧ t.token = s.token ∧
      t.toRedemptions = s.toRedemptions.push controller shares := by
  simp only [requestRedeem, bind_ok_iff, require_ok_iff, checkedAdd_ok_iff, pure_ok_iff, Prod.mk.injEq] at h
  obtain ⟨_, -, _, -, _, -, _, -, _, hauth, bil, hbil, _, ⟨-, rfl⟩, _, ⟨-, rfl⟩, rfl, rfl⟩ := h
  exact ⟨rfl, hauth, hbil, rfl, rfl⟩

/-- A cancel refunds what is pending to the user, and leaves the other requests. -/
theorem cancelRedeem_ok {i : Nat} (h : cancelRedeem d s sender i = .ok t) :
    (s.redemptionQueue i).user ≠ 0 ∧
      (sender = (s.redemptionQueue i).user ∨ s.isOperator (s.redemptionQueue i).user sender = true) ∧
      (t.bil = s.bil ∧ (s.redemptionQueue i).bilSettled = (s.redemptionQueue i).bilAmount ∨
        (s.bil.transfer d.self (s.redemptionQueue i).user
          ((s.redemptionQueue i).bilAmount - (s.redemptionQueue i).bilSettled) : Tx ERC20) = .ok t.bil) ∧
      t.token = s.token ∧ t.redemptionQueue = (s.toRedemptions.cancelled i).redemptionQueue := by
  simp only [cancelRedeem, bind_ok_iff, require_ok_iff, checkedSub_ok_iff, pure_ok_iff] at h
  obtain ⟨_, -, _, huser, _, hauth, _, ⟨hle, rfl⟩, s₁, hrefund, rfl⟩ := h
  obtain ⟨bil, hbil, rfl⟩ := refundUnsettled_ok hle hrefund
  unfold deleteUnsettled
  simp only [Function.update_self, Function.update_idem, Redemptions.cancelled]
  by_cases h0 : (s.redemptionQueue i).bilSettled = 0
  · rw [if_pos h0, if_pos h0]
    exact ⟨huser, hauth, hbil, rfl, rfl⟩
  · rw [if_neg h0, if_neg h0]
    exact ⟨huser, hauth, hbil, rfl, rfl⟩

/-- A cancel changes the shares, one request and the head of the queue. -/
theorem cancelRedeem_eq (h : cancelRedeem d s sender i = .ok t) :
    ∃ bil head, bil.totalSupply = s.bil.totalSupply ∧
      t = { s with bil, toRedemptions := { s.toRedemptions.cancelled i with queueHead := head } } := by
  simp only [cancelRedeem, bind_ok_iff, require_ok_iff, checkedSub_ok_iff, pure_ok_iff] at h
  obtain ⟨_, -, _, -, _, -, _, ⟨hle, rfl⟩, s₁, hrefund, rfl⟩ := h
  obtain ⟨bil, hbil, rfl⟩ := refundUnsettled_ok hle hrefund
  have hsupply : bil.totalSupply = s.bil.totalSupply := by
    rcases hbil with ⟨rfl, -⟩ | hbil
    · rfl
    · obtain ⟨-, -, -, rfl⟩ := ERC20.transfer_ok_iff.1 hbil
      rfl
  unfold deleteUnsettled
  simp only [Function.update_self, Function.update_idem]
  by_cases hzero : (s.redemptionQueue i).bilSettled = 0
  · rw [if_pos hzero]
    refine ⟨bil, if i = s.queueHead then advanceQueueHead (Function.update s.redemptionQueue i .empty) s.queueTail
      maxQueueIterations s.queueHead else s.queueHead, hsupply, ?_⟩
    simp only [Redemptions.cancelled, if_pos hzero]
  · rw [if_neg hzero]
    exact ⟨bil, s.queueHead, hsupply, by simp only [Redemptions.cancelled, if_neg hzero]⟩

end Requests

/-! ## Calls -/

/-- What a successful call of `sender` has run, with its payouts. -/
inductive Course (d : Deployment) (env : Replies) (sender : Address) (s : State) : Call → State → List Payout → Prop
  | deposit {t : State} (assets shares : Nat) (receiver : Address) :
      depositShares d env s sender receiver assets shares = .ok t →
      Course d env sender s (.deposit assets receiver) t []
  | mint {t : State} (assets shares : Nat) (receiver : Address) :
      depositShares d env s sender receiver assets shares = .ok t →
      Course d env sender s (.mint shares receiver) t []
  | requestRedeem {t : State} (shares requestId : Nat) (controller owner : Address) :
      requestRedeem d s sender shares controller owner = .ok (t, requestId) →
      Course d env sender s (.requestRedeem shares controller owner) t []
  | cancelRedeem {t : State} (requestId : Nat) : cancelRedeem d s sender requestId = .ok t →
      Course d env sender s (.cancelRedeem requestId) t []
  | redeem {t : State} (shares paid : Nat) (receiver controller : Address) :
      redeem d s sender shares receiver controller = .ok (t, paid) →
      Course d env sender s (.redeem shares receiver controller) t []
  | withdraw {t : State} (assets burnt : Nat) (receiver controller : Address) :
      withdraw d s sender assets receiver controller = .ok (t, burnt) →
      Course d env sender s (.withdraw assets receiver controller) t []
  | pokeDecentral {t : State} {ps : List Payout} (i : Nat) : Still d s t → Settlement d s (.pokeDecentral i) ps t →
      Course d env sender s (.pokeDecentral i) t ps
  | pokeQueue {t : State} : pokeQueue d env s = .ok t → Settlement d s .pokeQueue [] t →
      Course d env sender s .pokeQueue t []
  | syncMaturities {t : State} (n : Nat) : Still d s t → t.toRedemptions = s.toRedemptions →
      Course d env sender s (.syncMaturities n) t []
  | share (c : ERC20.Call) (bil : ERC20) : (s.bil.call sender c : Tx ERC20) = .ok bil →
      Course d env sender s (.share c) { s with bil } []
  | configure {c : Call} (g : Registry) (f : Settings) (p : Access) : c.Configures →
      Course d env sender s c { s with toRegistry := g, toSettings := f, toAccess := p } []

theorem call_course {d : Deployment} {env : Replies} {s t : State} {sender : Address} {c : Call} {ps : List Payout}
    (h : c.run d env s sender = .ok (t, ps)) : Course d env sender s c t ps := by
  by_cases hc : c.Configures
  · obtain ⟨⟨g, f, p⟩, rfl⟩ := Configured.of_run hc h
    exact .configure g f p hc
  cases c with
  | deposit assets receiver =>
    simp only [Call.run, bind_ok_iff, Prod.exists, pure_ok_iff, Prod.mk.injEq] at h
    obtain ⟨_, shares, h, rfl, rfl⟩ := h
    exact .deposit assets shares receiver (deposit_outlay h).2
  | mint shares receiver =>
    simp only [Call.run, bind_ok_iff, Prod.exists, pure_ok_iff, Prod.mk.injEq] at h
    obtain ⟨_, assets, h, rfl, rfl⟩ := h
    exact .mint assets shares receiver (mint_outlay h).2
  | requestRedeem shares controller owner =>
    simp only [Call.run, bind_ok_iff, Prod.exists, pure_ok_iff, Prod.mk.injEq] at h
    obtain ⟨_, id, h, rfl, rfl⟩ := h
    exact .requestRedeem shares id controller owner h
  | cancelRedeem requestId =>
    simp only [Call.run, bind_ok_iff, pure_ok_iff, Prod.mk.injEq] at h
    obtain ⟨_, h, rfl, rfl⟩ := h
    exact .cancelRedeem requestId h
  | redeem shares receiver controller =>
    simp only [Call.run, bind_ok_iff, Prod.exists, pure_ok_iff, Prod.mk.injEq] at h
    obtain ⟨_, paid, h, rfl, rfl⟩ := h
    exact .redeem shares paid receiver controller h
  | withdraw assets receiver controller =>
    simp only [Call.run, bind_ok_iff, Prod.exists, pure_ok_iff, Prod.mk.injEq] at h
    obtain ⟨_, burnt, h, rfl, rfl⟩ := h
    exact .withdraw assets burnt receiver controller h
  | pokeDecentral i => exact .pokeDecentral i (pokeDecentral_still h) (pokeDecentral_settlement h)
  | pokeQueue =>
    simp only [Call.run, bind_ok_iff, pure_ok_iff, Prod.mk.injEq] at h
    obtain ⟨_, h, rfl, rfl⟩ := h
    exact .pokeQueue h (pokeQueue_settlement h)
  | syncMaturities n =>
    simp only [Call.run, bind_ok_iff, Prod.exists, pure_ok_iff, Prod.mk.injEq] at h
    obtain ⟨_, k, h, rfl, rfl⟩ := h
    exact .syncMaturities n (syncMaturities_still h) (syncMaturities_queue h)
  | share c =>
    simp only [Call.run, bind_ok_iff, pure_ok_iff, Prod.mk.injEq] at h
    obtain ⟨bil, h, rfl, rfl⟩ := h
    exact .share c bil h
  | _ => exact absurd trivial hc

end MoneyMarket
