/-
The circuit breaker of `pokeDecentral`, exactly. A poke goes through when it would with the breaker
disabled and every shortfall of what the pool pays, in basis points rounded down, is within the
threshold (`pokeDecentral_breaker_iff`). What it pays is settled by the position after the sync and
the answers of the pool (`offers`). So a shortfall of less than one basis point beyond the threshold
passes (`breaker_exact`), also at the threshold that is documented to let none pass.
-/
import MoneyMarket.Vault.Outlay

namespace MoneyMarket

open Evm

/-- The received amount is within `bps` basis points of the recorded one. -/
def Payout.Within (bps : Nat) (p : Payout) : Prop :=
  0 < p.expected → p.received < p.expected → (p.expected - p.received) * 10000 ≤ bps * p.expected

/-- And with the basis points rounded down. -/
def Payout.RoundsWithin (bps : Nat) (p : Payout) : Prop :=
  0 < p.expected → p.received < p.expected → (p.expected - p.received) * 10000 < (bps + 1) * p.expected

instance (bps : Nat) (p : Payout) : Decidable (p.Within bps) := inferInstanceAs (Decidable (_ → _ → _))
instance (bps : Nat) (p : Payout) : Decidable (p.RoundsWithin bps) := inferInstanceAs (Decidable (_ → _ → _))

/-- The same state with another threshold; `10000` disables the breaker. -/
def State.withThreshold (s : State) (bps : Nat) : State := { s with principalMismatchBpsThreshold := bps }

def Flow.withThreshold (f : Flow) (bps : Nat) : Flow := { f with state := f.state.withThreshold bps }

theorem Payout.Within.rounds {bps : Nat} {p : Payout} (h : p.Within bps) : p.RoundsWithin bps := by
  intro hpos hshort
  have := h hpos hshort
  rw [Nat.succ_mul]
  omega

/-- No shortfall rounds down to more than all of it. -/
theorem Payout.roundsWithin_all (p : Payout) : p.RoundsWithin 10000 := by
  intro hpos _
  omega

/-! ## The check -/

section Check

variable {d : Deployment} {env : Replies} {s t : State} {pool : Address} {i bps : Nat} {f : Flow}

theorem requireNoDrift_ok_iff {p : Payout} {error : Nat → VaultError} :
    requireNoDrift s p.expected p.received error = .ok () ↔
      (0 < p.expected → p.received < p.expected → (p.expected - p.received) * 10000 < uintSize) ∧
        p.RoundsWithin s.principalMismatchBpsThreshold := by
  unfold requireNoDrift Payout.RoundsWithin
  by_cases hshort : 0 < p.expected ∧ p.received < p.expected
  · rw [if_pos hshort]
    simp only [bind_ok_iff, checkedSub_ok_iff, checkedMul_ok_iff, checkedDiv_ok_iff, require_ok_iff]
    constructor
    · rintro ⟨_, ⟨-, rfl⟩, _, ⟨hfits, rfl⟩, _, ⟨-, rfl⟩, hle⟩
      exact ⟨fun _ _ => hfits, fun _ _ => (Nat.div_lt_iff_lt_mul hshort.1).1 (Nat.lt_succ_of_le hle)⟩
    · rintro ⟨hfits, hrounds⟩
      refine ⟨_, ⟨hshort.2.le, rfl⟩, _, ⟨hfits hshort.1 hshort.2, rfl⟩, _, ⟨hshort.1.ne', rfl⟩, ?_⟩
      exact Nat.le_of_lt_succ ((Nat.div_lt_iff_lt_mul hshort.1).2 (hrounds hshort.1 hshort.2))
  · rw [if_neg hshort]
    refine ⟨fun _ => ⟨fun h1 h2 => absurd ⟨h1, h2⟩ hshort, fun h1 h2 => absurd ⟨h1, h2⟩ hshort⟩, fun _ => rfl⟩

/-- What passed one threshold passes another it rounds within. -/
theorem requireNoDrift_withThreshold {p : Payout} {error : Nat → VaultError}
    (h : requireNoDrift s p.expected p.received error = .ok ()) (hrounds : p.RoundsWithin bps) :
    requireNoDrift (s.withThreshold bps) p.expected p.received error = .ok () :=
  requireNoDrift_ok_iff.2 ⟨(requireNoDrift_ok_iff.1 h).1, hrounds⟩

/-! ## Nothing else reads the threshold -/

theorem syncMaturities_withThreshold {n k : Nat} (h : syncMaturities s n = .ok (t, k)) :
    syncMaturities (s.withThreshold bps) n = .ok (t.withThreshold bps, k) := by
  simp only [syncMaturities, bind_ok_iff, pure_ok_iff, Prod.mk.injEq] at h ⊢
  obtain ⟨r, hr, total, htotal, rfl, rfl⟩ := h
  exact ⟨r, hr, total, htotal, rfl, rfl⟩

theorem distribute_withThreshold (h : distribute s = .ok t) :
    distribute (s.withThreshold bps) = .ok (t.withThreshold bps) := by
  unfold distribute at h ⊢
  split at h
  · rename_i hguard
    refine (if_pos hguard).trans ?_
    simp only [processQueueWithHollar, bind_ok_iff, pure_ok_iff, Prod.exists, Prod.mk.injEq] at h ⊢
    obtain ⟨rate, hrate, _, _, _, ⟨r, hr, idle, hidle, reserved, hreserved, settled, hsettled, rfl, rfl, rfl⟩, rfl⟩ := h
    exact ⟨rate, hrate, _, _, _, ⟨r, hr, idle, hidle, reserved, hreserved, settled, hsettled, rfl, rfl, rfl⟩, rfl⟩
  · rename_i hguard
    cases h
    exact if_neg hguard

theorem Flow.andThen_withThreshold {a : Flow} {next : State → Tx Flow} (hps : ∀ p ∈ f.payouts, p.RoundsWithin bps)
    (hnext : ∀ g, (∀ p ∈ g.payouts, p.RoundsWithin bps) → next a.state = .ok g →
      next (a.state.withThreshold bps) = .ok (g.withThreshold bps))
    (h : a.andThen next = .ok f) : (a.withThreshold bps).andThen next = .ok (f.withThreshold bps) := by
  unfold Flow.andThen at h ⊢
  by_cases hleft : a.left = true
  · rw [if_pos hleft] at h
    cases h
    exact if_pos hleft
  · rw [if_neg hleft] at h
    refine (if_neg hleft).trans ?_
    simp only [bind_ok_iff, pure_ok_iff] at h ⊢
    obtain ⟨g, hg, rfl⟩ := h
    exact ⟨_, hnext g (fun p hp => hps p (List.mem_append_right _ hp)) hg, rfl⟩

theorem Flow.andThen_sub {a : Flow} {next : State → Tx Flow} (h : a.andThen next = .ok f) :
    ∀ p ∈ a.payouts, p ∈ f.payouts := by
  unfold Flow.andThen at h
  split at h
  · cases h
    exact fun _ hp => hp
  · simp only [bind_ok_iff, pure_ok_iff] at h
    obtain ⟨g, -, rfl⟩ := h
    exact fun _ hp => List.mem_append_left _ hp

theorem requestYieldBranch_withThreshold (h : requestYieldBranch env pool i s = .ok f) :
    requestYieldBranch env pool i (s.withThreshold bps) = .ok (f.withThreshold bps) := by
  simp only [requestYieldBranch, bind_ok_iff, readAt_ok_iff] at h ⊢
  obtain ⟨pos, hpos, h⟩ := h
  refine ⟨pos, hpos, ?_⟩
  change (if pos.state = .active ∧ pos.maturityTime ≤ s.now then _ else _) = _
  split_ifs at h ⊢ <;> cases h <;> rfl

theorem requestPrincipalBranch_withThreshold (h : requestPrincipalBranch env pool i s = .ok f) :
    requestPrincipalBranch env pool i (s.withThreshold bps) = .ok (f.withThreshold bps) := by
  simp only [requestPrincipalBranch, bind_ok_iff, readAt_ok_iff] at h ⊢
  obtain ⟨pos, hpos, h⟩ := h
  refine ⟨pos, hpos, ?_⟩
  split_ifs at h ⊢ <;> cases h <;> rfl

theorem executeYieldBranch_withThreshold (hps : ∀ p ∈ f.payouts, p.RoundsWithin bps)
    (h : executeYieldBranch d env pool i s = .ok f) :
    executeYieldBranch d env pool i (s.withThreshold bps) = .ok (f.withThreshold bps) := by
  simp only [executeYieldBranch, bind_ok_iff, readAt_ok_iff] at h ⊢
  obtain ⟨pos, hpos, h⟩ := h
  refine ⟨pos, hpos, ?_⟩
  split_ifs at h ⊢
  · split at h
    · rename_i hpay
      cases h
      rw [show poolPay d _ (s.withThreshold bps).token pool = none from hpay]
      rfl
    · rename_i token hpay
      rw [show poolPay d _ (s.withThreshold bps).token pool = some token from hpay]
      simp only [bind_ok_iff, pure_ok_iff] at h ⊢
      obtain ⟨received, hreceived, total, htotal, idle, hidle, _, hcheck, rfl⟩ := h
      have hrounds := hps _ (List.mem_singleton_self _)
      exact ⟨received, hreceived, total, htotal, idle, hidle, _, requireNoDrift_withThreshold hcheck hrounds, rfl⟩
  · cases h
    rfl

theorem executePrincipalBranch_withThreshold (hps : ∀ p ∈ f.payouts, p.RoundsWithin bps)
    (h : executePrincipalBranch d env pool i s = .ok f) :
    executePrincipalBranch d env pool i (s.withThreshold bps) = .ok (f.withThreshold bps) := by
  simp only [executePrincipalBranch, bind_ok_iff, readAt_ok_iff] at h ⊢
  obtain ⟨pos, hpos, h⟩ := h
  refine ⟨pos, hpos, ?_⟩
  split_ifs at h ⊢
  · split at h
    · rename_i hpay
      cases h
      rw [show poolPay d _ (s.withThreshold bps).token pool = none from hpay]
      rfl
    · rename_i token hpay
      rw [show poolPay d _ (s.withThreshold bps).token pool = some token from hpay]
      simp only [bind_ok_iff, pure_ok_iff] at h ⊢
      obtain ⟨received, hreceived, delta, hdelta, total, htotal, idle, hidle, after, hafter, _, hcheck, rfl⟩ := h
      have hrounds := hps _ (List.mem_singleton_self _)
      -- paying and sweeping commute with the change of the threshold
      have hsame : sweepPositionHead (setPosition { s.withThreshold bps with
            token, totalInvestedPrincipal := total, idleHollar := idle } i { pos with state := .redeemed }) =
          (sweepPositionHead (setPosition { s with
            token, totalInvestedPrincipal := total, idleHollar := idle } i
            { pos with state := .redeemed })).withThreshold bps := rfl
      refine ⟨received, hreceived, delta, hdelta, total, htotal, idle, hidle, ?_⟩
      rw [hsame]
      exact ⟨_, distribute_withThreshold hafter, _, requireNoDrift_withThreshold hcheck hrounds, rfl⟩
  · cases h
    rfl

/-! ## Every payout was checked -/

theorem executeYieldBranch_rounds (h : executeYieldBranch d env pool i s = .ok f) :
    ∀ p ∈ f.payouts, p.RoundsWithin s.principalMismatchBpsThreshold := by
  simp only [executeYieldBranch, bind_ok_iff, readAt_ok_iff] at h
  obtain ⟨pos, -, h⟩ := h
  split_ifs at h
  · split at h
    · cases h
      exact fun p hp => absurd hp List.not_mem_nil
    · simp only [bind_ok_iff, pure_ok_iff] at h
      obtain ⟨received, -, total, -, idle, -, _, hcheck, rfl⟩ := h
      intro p hp
      rw [List.mem_singleton.1 hp]
      exact (requireNoDrift_ok_iff (p := ⟨i, false, pos.pendingYield, received⟩).1 hcheck).2
  · cases h
    exact fun p hp => absurd hp List.not_mem_nil

theorem executePrincipalBranch_rounds (h : executePrincipalBranch d env pool i s = .ok f) :
    ∀ p ∈ f.payouts, p.RoundsWithin s.principalMismatchBpsThreshold := by
  simp only [executePrincipalBranch, bind_ok_iff, readAt_ok_iff] at h
  obtain ⟨pos, -, h⟩ := h
  split_ifs at h
  · split at h
    · cases h
      exact fun p hp => absurd hp List.not_mem_nil
    · simp only [bind_ok_iff, pure_ok_iff] at h
      obtain ⟨received, -, _, -, total, -, idle, -, after, hafter, _, hcheck, rfl⟩ := h
      intro p hp
      rw [List.mem_singleton.1 hp]
      -- the distribution leaves the threshold
      have hsettings := (distribute_still (d := d) hafter).settings
      have hrounds := (requireNoDrift_ok_iff (p := ⟨i, true, pos.principal, received⟩).1 hcheck).2
      rwa [show after.principalMismatchBpsThreshold = s.principalMismatchBpsThreshold from
        congrArg Settings.principalMismatchBpsThreshold hsettings] at hrounds
  · cases h
    exact fun p hp => absurd hp List.not_mem_nil

theorem Flow.andThen_payouts {a : Flow} {next : State → Tx Flow} {P : Payout → Prop} (ha : ∀ p ∈ a.payouts, P p)
    (hnext : ∀ g, next a.state = .ok g → ∀ p ∈ g.payouts, P p) (h : a.andThen next = .ok f) :
    ∀ p ∈ f.payouts, P p := by
  unfold Flow.andThen at h
  split at h
  · cases h
    exact ha
  · simp only [bind_ok_iff, pure_ok_iff] at h
    obtain ⟨g, hg, rfl⟩ := h
    intro p hp
    rcases List.mem_append.1 hp with hp | hp
    · exact ha p hp
    · exact hnext g hg p hp

theorem requestYieldBranch_payouts (h : requestYieldBranch env pool i s = .ok f) : f.payouts = [] := by
  simp only [requestYieldBranch, bind_ok_iff] at h
  obtain ⟨pos, -, h⟩ := h
  split_ifs at h <;> cases h <;> rfl

theorem requestPrincipalBranch_payouts (h : requestPrincipalBranch env pool i s = .ok f) : f.payouts = [] := by
  simp only [requestPrincipalBranch, bind_ok_iff] at h
  obtain ⟨pos, -, h⟩ := h
  split_ifs at h <;> cases h <;> rfl

theorem pokeDecentral_rounds {ps : List Payout} (h : pokeDecentral d env s i = .ok (t, ps)) :
    ∀ p ∈ ps, p.RoundsWithin s.principalMismatchBpsThreshold := by
  simp only [pokeDecentral, bind_ok_iff, Prod.exists, pure_ok_iff, Prod.mk.injEq] at h
  obtain ⟨_, -, _, -, _, -, s₁, k, hsync, f₁, h1, f₂, h2, f₃, h3, f₄, h4, -, rfl⟩ := h
  -- the threshold is the one of `s` in every branch
  have hs₁ := (syncMaturities_still (d := d) hsync).settings
  have hf₁ := (requestYieldBranch_still (d := d) h1).settings.trans hs₁
  have hf₂ := (Flow.andThen_still (d := d) (.refl _) (fun _ hg => executeYieldBranch_still hg) h2).settings.trans hf₁
  have hf₃ := (Flow.andThen_still (d := d) (.refl _) (fun _ hg => requestPrincipalBranch_still hg) h3).settings.trans hf₂
  refine Flow.andThen_payouts (Flow.andThen_payouts (Flow.andThen_payouts ?_ ?_ h2) ?_ h3) ?_ h4
  · rw [requestYieldBranch_payouts h1]
    exact fun p hp => absurd hp List.not_mem_nil
  · intro g hg
    have := executeYieldBranch_rounds hg
    rwa [show f₁.state.principalMismatchBpsThreshold = _ from congrArg _ hf₁] at this
  · intro g hg
    rw [requestPrincipalBranch_payouts hg]
    exact fun p hp => absurd hp List.not_mem_nil
  · intro g hg
    have := executePrincipalBranch_rounds hg
    rwa [show f₃.state.principalMismatchBpsThreshold = _ from congrArg _ hf₃] at this

theorem pokeDecentral_withThreshold {ps : List Payout} (h : pokeDecentral d env s i = .ok (t, ps))
    (hps : ∀ p ∈ ps, p.RoundsWithin bps) :
    pokeDecentral d env (s.withThreshold bps) i = .ok (t.withThreshold bps, ps) := by
  simp only [pokeDecentral, bind_ok_iff, Prod.exists, pure_ok_iff, Prod.mk.injEq] at h ⊢
  obtain ⟨_, hpaused, pos, hpos, _, hopen, s₁, k, hsync, f₁, h1, f₂, h2, f₃, h3, f₄, h4, rfl, rfl⟩ := h
  have hps₃ : ∀ p ∈ f₃.payouts, p.RoundsWithin bps := fun p hp => hps p (Flow.andThen_sub h4 p hp)
  have hps₂ : ∀ p ∈ f₂.payouts, p.RoundsWithin bps := fun p hp => hps₃ p (Flow.andThen_sub h3 p hp)
  exact ⟨_, hpaused, pos, hpos, _, hopen, _, k, syncMaturities_withThreshold hsync, _,
    requestYieldBranch_withThreshold h1, _,
    Flow.andThen_withThreshold hps₂ (fun _ hg => executeYieldBranch_withThreshold hg) h2, _,
    Flow.andThen_withThreshold hps₃ (fun _ _ => requestPrincipalBranch_withThreshold) h3, _,
    Flow.andThen_withThreshold hps (fun _ hg => executePrincipalBranch_withThreshold hg) h4, rfl, rfl⟩

/-- A poke goes through exactly when it does with the breaker disabled, and every shortfall rounds
down to the threshold. -/
theorem pokeDecentral_breaker_iff {ps : List Payout} : (∃ t, pokeDecentral d env s i = .ok (t, ps)) ↔
    (∃ t, pokeDecentral d env (s.withThreshold 10000) i = .ok (t, ps)) ∧
      ∀ p ∈ ps, p.RoundsWithin s.principalMismatchBpsThreshold := by
  constructor
  · rintro ⟨t, h⟩
    exact ⟨⟨_, pokeDecentral_withThreshold h fun p _ => p.roundsWithin_all⟩, pokeDecentral_rounds h⟩
  · rintro ⟨⟨t, h⟩, hps⟩
    -- setting the threshold back gives the state itself
    have hback : (s.withThreshold 10000).withThreshold s.principalMismatchBpsThreshold = s := rfl
    have := pokeDecentral_withThreshold h hps
    rw [hback] at this
    exact ⟨_, this⟩

/-! ## What a poke pays -/

end Check

/-- Due, and its yield locked. -/
def NFTPosition.overdue (now : Nat) (pos : NFTPosition) : Bool :=
  decide (pos.state = .active ∧ pos.maturityTime ≤ now ∧ pos.yieldCapped = true)

/-- A poke at `now` has the pool pay the yield: asked for before, or in this call. -/
def NFTPosition.paysYield (reply : PoolReply) (now : Nat) (pos : NFTPosition) : Bool :=
  decide (pos.state = .yieldWithdrawalRequested) ||
    pos.overdue now && decide (pos.pendingYield ≠ 0) && reply.requestYieldWithdrawal

/-- And the principal, once the yield is in or there is none. -/
def NFTPosition.paysPrincipal (reply : PoolReply) (now : Nat) (paid : Bool) (pos : NFTPosition) : Bool :=
  decide (pos.state = .principalWithdrawalRequested) ||
    (paid || decide (pos.state = .yieldClaimed) || pos.overdue now && decide (pos.pendingYield = 0)) &&
      reply.requestPrincipalWithdrawal

/-- What arrives between two ledgers. -/
def arrived (d : Deployment) (token token' : ERC20) : Nat := token'.balanceOf d.self - token.balanceOf d.self

/-- A payment as a payout. -/
def payment (d : Deployment) (token : ERC20) (i : Nat) (ofPrincipal : Bool) (expected : Nat) (paid : Option ERC20) :
    List Payout :=
  (paid.map fun t => ⟨i, ofPrincipal, expected, arrived d token t⟩).toList

/-- The payouts for a position, from its pool's answers. -/
def positionOffers (d : Deployment) (reply : PoolReply) (token : ERC20) (now : Nat) (pool : Address) (i : Nat)
    (pos : NFTPosition) : List Payout :=
  let yield := if pos.paysYield reply now then poolPay d reply.executeYieldWithdrawal token pool else none
  let ledger := yield.getD token
  let principal :=
    if pos.paysPrincipal reply now yield.isSome then poolPay d reply.executePrincipalWithdrawal ledger pool else none
  payment d token i false pos.pendingYield yield ++ payment d ledger i true pos.principal principal

/-- The payouts of a poke, from the position after the sync. -/
def offers (d : Deployment) (env : Replies) (s : State) (i : Nat) : List Payout :=
  match syncMaturities s maxMaturitySync with
  | .ok (s, _) =>
    match s.positions[i]? with
    | some pos => positionOffers d (env.pool (s.positionPool i)) s.token s.now (s.positionPool i) i pos
    | none => []
  | .error _ => []

section Offers

variable {d : Deployment} {env : Replies} {s t : State} {pool : Address} {i : Nat} {f : Flow} {pos : NFTPosition}

theorem Flow.andThen_left {a : Flow} {next : State → Tx Flow} (hleft : a.left = true) (h : a.andThen next = .ok f) :
    f = a := by
  rw [Flow.andThen, if_pos hleft] at h
  cases h
  rfl

theorem Flow.andThen_on {a : Flow} {next : State → Tx Flow} (hleft : a.left = false) (h : a.andThen next = .ok f) :
    ∃ g, next a.state = .ok g ∧ f = { g with payouts := a.payouts ++ g.payouts } := by
  rw [Flow.andThen, if_neg (by rw [hleft]; decide)] at h
  simp only [bind_ok_iff, pure_ok_iff] at h
  obtain ⟨g, hg, rfl⟩ := h
  exact ⟨g, hg, rfl⟩

theorem setPosition_get {pos' : NFTPosition} (hi : s.positions[i]? = some pos) :
    (setPosition s i pos').positions[i]? = some pos' :=
  List.getElem?_set_self (List.getElem?_eq_some_iff.1 hi).1

/-- Where the first branch leaves. -/
theorem requestYieldBranch_spec (hi : s.positions[i]? = some pos) (h : requestYieldBranch env pool i s = .ok f) :
    (f = ⟨s, [], true⟩ ∧ pos.state = .active ∧ pos.paysYield (env.pool pool) s.now = false ∧
        (pos.overdue s.now && decide (pos.pendingYield = 0)) = false) ∨
      (f = ⟨s, [], false⟩ ∧ pos.overdue s.now = false) ∨
      (f = ⟨setPosition s i { pos with state := .yieldClaimed }, [], false⟩ ∧ pos.overdue s.now = true ∧
        pos.pendingYield = 0) ∨
      (f = ⟨setPosition s i { pos with state := .yieldWithdrawalRequested }, [], false⟩ ∧
        pos.paysYield (env.pool pool) s.now = true ∧ pos.overdue s.now = true ∧ pos.pendingYield ≠ 0) := by
  simp only [requestYieldBranch, bind_ok_iff, readAt_ok_iff] at h
  obtain ⟨_, hpos, h⟩ := h
  obtain rfl := Option.some.inj (hi.symm.trans hpos)
  unfold NFTPosition.paysYield NFTPosition.overdue
  split_ifs at h with hdue hcapped hzero hasked
  · cases h
    exact .inl ⟨rfl, hdue.1, by simp [hdue.1, hcapped], by simp [hcapped]⟩
  · cases h
    exact .inr (.inr (.inl ⟨rfl, by simp [hdue, hcapped], hzero⟩))
  · cases h
    exact .inr (.inr (.inr ⟨rfl, by simp [hdue, hcapped, hzero, hasked], by simp [hdue, hcapped], hzero⟩))
  · cases h
    exact .inl ⟨rfl, hdue.1, by simp [hdue.1, hasked], by simp [hzero]⟩
  · cases h
    exact .inr (.inl ⟨rfl, decide_eq_false fun h => hdue ⟨h.1, h.2.1⟩⟩)

/-- Where the second leaves. -/
theorem executeYieldBranch_spec (hi : s.positions[i]? = some pos) (h : executeYieldBranch d env pool i s = .ok f) :
    (pos.state ≠ .yieldWithdrawalRequested ∧ f = ⟨s, [], false⟩) ∨
      (pos.state = .yieldWithdrawalRequested ∧
        ((poolPay d (env.pool pool).executeYieldWithdrawal s.token pool = none ∧ f = ⟨s, [], true⟩) ∨
          ∃ token, poolPay d (env.pool pool).executeYieldWithdrawal s.token pool = some token ∧
            f.state.positions[i]? = some { pos with pendingYield := 0, state := .yieldClaimed } ∧
            f.state.token = token ∧ f.payouts = payment d s.token i false pos.pendingYield (some token) ∧
            f.left = false)) := by
  simp only [executeYieldBranch, bind_ok_iff, readAt_ok_iff] at h
  obtain ⟨_, hpos, h⟩ := h
  obtain rfl := Option.some.inj (hi.symm.trans hpos)
  split_ifs at h with hstate
  · refine .inr ⟨hstate, ?_⟩
    split at h
    · rename_i hpay
      cases h
      exact .inl ⟨hpay, rfl⟩
    · rename_i token hpay
      simp only [bind_ok_iff, checkedSub_ok_iff, pure_ok_iff] at h
      obtain ⟨received, ⟨-, rfl⟩, total, -, idle, -, _, -, rfl⟩ := h
      exact .inr ⟨token, hpay, setPosition_get hi, rfl, rfl, rfl⟩
  · cases h
    exact .inl ⟨hstate, rfl⟩

theorem executePrincipalBranch_payouts (hi : s.positions[i]? = some pos)
    (h : executePrincipalBranch d env pool i s = .ok f) :
    f.payouts = payment d s.token i true pos.principal
      (if pos.state = .principalWithdrawalRequested then
        poolPay d (env.pool pool).executePrincipalWithdrawal s.token pool else none) := by
  simp only [executePrincipalBranch, bind_ok_iff, readAt_ok_iff] at h
  obtain ⟨_, hpos, h⟩ := h
  obtain rfl := Option.some.inj (hi.symm.trans hpos)
  split_ifs at h ⊢ with hstate
  · split at h
    · rename_i hpay
      cases h
      rw [hpay]
      rfl
    · rename_i token hpay
      simp only [bind_ok_iff, checkedSub_ok_iff, pure_ok_iff] at h
      obtain ⟨received, ⟨-, rfl⟩, _, -, total, -, idle, -, after, -, _, -, rfl⟩ := h
      rw [hpay]
      rfl
  · cases h
    rfl

/-- The last two branches pay the principal of a position whose yield is in. -/
theorem principal_payouts {f₃ f₄ : Flow} (hleft : f.left = false) (hi : f.state.positions[i]? = some pos)
    (h3 : f.andThen (requestPrincipalBranch env pool i) = .ok f₃)
    (h4 : f₃.andThen (executePrincipalBranch d env pool i) = .ok f₄) :
    f₄.payouts = f.payouts ++ payment d f.state.token i true pos.principal
      (if pos.state = .principalWithdrawalRequested ∨
          (pos.state = .yieldClaimed ∧ (env.pool pool).requestPrincipalWithdrawal = true) then
        poolPay d (env.pool pool).executePrincipalWithdrawal f.state.token pool else none) := by
  obtain ⟨g, hg, rfl⟩ := Flow.andThen_on hleft h3
  simp only [requestPrincipalBranch, bind_ok_iff, readAt_ok_iff] at hg
  obtain ⟨_, hpos, hg⟩ := hg
  obtain rfl := Option.some.inj (hi.symm.trans hpos)
  split_ifs at hg with hclaimed hasked
  · cases hg
    obtain ⟨g', hg', rfl⟩ := Flow.andThen_on rfl h4
    have := executePrincipalBranch_payouts (setPosition_get hi) hg'
    simp only [if_true] at this
    rw [if_pos (.inr ⟨hclaimed, hasked⟩)]
    simp only [List.append_nil]
    rw [this]
    rfl
  · cases hg
    rw [Flow.andThen_left rfl h4, if_neg (by rw [hclaimed]; simp [hasked])]
    rfl
  · cases hg
    obtain ⟨g', hg', rfl⟩ := Flow.andThen_on rfl h4
    have := executePrincipalBranch_payouts hi hg'
    simp only [List.append_nil]
    rw [this]
    simp only [hclaimed, false_and, or_false]

/-- Where the second branch finds nothing to pay. -/
theorem executeYieldBranch_none (hi : s.positions[i]? = some pos) (hstate : pos.state ≠ .yieldWithdrawalRequested)
    (h : executeYieldBranch d env pool i s = .ok f) : f = ⟨s, [], false⟩ := by
  rcases executeYieldBranch_spec hi h with ⟨-, rfl⟩ | ⟨h, -⟩
  · rfl
  · exact absurd h hstate

/-- After the first branch left the yield asked for, the pool pays it or the poke ends. -/
theorem yield_payouts {f₂ f₃ f₄ : Flow} (hi : s.positions[i]? = some pos)
    (hstate : pos.state = .yieldWithdrawalRequested) (h2 : executeYieldBranch d env pool i s = .ok f₂)
    (h3 : f₂.andThen (requestPrincipalBranch env pool i) = .ok f₃)
    (h4 : f₃.andThen (executePrincipalBranch d env pool i) = .ok f₄) :
    let paid := poolPay d (env.pool pool).executeYieldWithdrawal s.token pool
    f₄.payouts = payment d s.token i false pos.pendingYield paid ++
      payment d (paid.getD s.token) i true pos.principal
        (if paid.isSome && (env.pool pool).requestPrincipalWithdrawal then
          poolPay d (env.pool pool).executePrincipalWithdrawal (paid.getD s.token) pool else none) := by
  rcases executeYieldBranch_spec hi h2 with ⟨hne, -⟩ | ⟨-, ⟨hpay, rfl⟩ | ⟨token, hpay, hi', htoken, hps, hleft⟩⟩
  · exact absurd hstate hne
  · obtain rfl := Flow.andThen_left rfl h3
    obtain rfl := Flow.andThen_left rfl h4
    rw [hpay]
    simp [payment]
  · rw [principal_payouts hleft hi' h3 h4, hps, hpay, htoken]
    simp

/-- The payouts of a poke that goes through are those its pool offers. -/
theorem pokeDecentral_payouts {ps : List Payout} (h : pokeDecentral d env s i = .ok (t, ps)) :
    ps = offers d env s i := by
  simp only [pokeDecentral, bind_ok_iff, Prod.exists, pure_ok_iff, Prod.mk.injEq] at h
  obtain ⟨_, -, _, -, _, -, s₁, k, hsync, f₁, h1, f₂, h2, f₃, h3, f₄, h4, -, rfl⟩ := h
  obtain ⟨pos, hi⟩ : ∃ pos, s₁.positions[i]? = some pos := by
    simp only [requestYieldBranch, bind_ok_iff, readAt_ok_iff] at h1
    obtain ⟨pos, hi, -⟩ := h1
    exact ⟨pos, hi⟩
  unfold offers
  rw [hsync]
  dsimp only
  rw [hi]
  dsimp only
  unfold positionOffers
  rcases requestYieldBranch_spec hi h1 with ⟨rfl, hactive, hyield, hnone⟩ | ⟨rfl, hdue⟩ | ⟨rfl, hdue, hzero⟩ |
    ⟨rfl, hyield, hdue, hpos⟩
  · -- nothing to ask for yet, or refused: the poke ends
    obtain rfl := Flow.andThen_left rfl h2
    obtain rfl := Flow.andThen_left rfl h3
    obtain rfl := Flow.andThen_left rfl h4
    simp [NFTPosition.paysPrincipal, hyield, hactive, hnone, payment]
  · obtain ⟨g, hg, rfl⟩ := Flow.andThen_on rfl h2
    by_cases hstate : pos.state = .yieldWithdrawalRequested
    · rw [yield_payouts hi hstate hg h3 h4]
      simp [NFTPosition.paysYield, NFTPosition.paysPrincipal, hstate, hdue]
    · obtain rfl := executeYieldBranch_none hi hstate hg
      rw [principal_payouts rfl hi h3 h4]
      simp [NFTPosition.paysYield, NFTPosition.paysPrincipal, hstate, hdue, payment]
  · -- no yield to pay: the principal, if its pool takes the request
    obtain ⟨g, hg, rfl⟩ := Flow.andThen_on rfl h2
    have hactive : pos.state = .active := (of_decide_eq_true hdue).1
    obtain rfl := executeYieldBranch_none (setPosition_get hi) (by simp) hg
    rw [principal_payouts rfl (setPosition_get hi) h3 h4]
    simp [NFTPosition.paysYield, NFTPosition.paysPrincipal, hactive, hdue, hzero, payment, setPosition]
  · obtain ⟨g, hg, rfl⟩ := Flow.andThen_on rfl h2
    have hactive : pos.state = .active := (of_decide_eq_true hdue).1
    rw [yield_payouts (setPosition_get hi) rfl hg h3 h4]
    have hprincipal : ∀ paid, pos.paysPrincipal (env.pool (s₁.positionPool i)) s₁.now paid =
        (paid && (env.pool (s₁.positionPool i)).requestPrincipalWithdrawal) := by
      intro paid
      simp [NFTPosition.paysPrincipal, hactive, hpos]
    simp only [hyield, if_true, hprincipal]
    rfl

/-- The offers do not depend on the threshold. -/
theorem offers_withThreshold (bps : Nat) : offers d env (s.withThreshold bps) i = offers d env s i := by
  unfold offers
  cases hsync : syncMaturities s maxMaturitySync with
  | ok r =>
    rw [syncMaturities_withThreshold hsync]
    rfl
  | error e =>
    cases hsync' : syncMaturities (s.withThreshold bps) maxMaturitySync with
    | ok r =>
      have hback : syncMaturities s maxMaturitySync = .ok (r.1.withThreshold s.principalMismatchBpsThreshold, r.2) :=
        syncMaturities_withThreshold (s := s.withThreshold bps) hsync'
      rw [hback] at hsync
      cases hsync
    | error e => rfl

/-- Nothing but the breaker can make the poke revert. -/
def Undisturbed (d : Deployment) (env : Replies) (s : State) (i : Nat) : Prop :=
  ∃ t ps, pokeDecentral d env (s.withThreshold 10000) i = .ok (t, ps)

/-- A poke goes through exactly when nothing else makes it revert and every shortfall its pool offers
rounds down to the threshold. -/
theorem pokeDecentral_succeeds_iff : (∃ t ps, pokeDecentral d env s i = .ok (t, ps)) ↔
    Undisturbed d env s i ∧ ∀ p ∈ offers d env s i, p.RoundsWithin s.principalMismatchBpsThreshold := by
  constructor
  · rintro ⟨t, ps, h⟩
    obtain ⟨⟨t', ht'⟩, hps⟩ := pokeDecentral_breaker_iff.1 ⟨t, h⟩
    rw [pokeDecentral_payouts h] at hps
    exact ⟨⟨t', ps, ht'⟩, hps⟩
  · rintro ⟨⟨t', ps, ht'⟩, hps⟩
    rw [← offers_withThreshold 10000, ← pokeDecentral_payouts ht'] at hps
    obtain ⟨t, h⟩ := pokeDecentral_breaker_iff.2 ⟨⟨t', ht'⟩, hps⟩
    exact ⟨t, ps, h⟩

/-- A poke lets only payouts within the threshold pass, unless all that its pool offers round down to
the threshold and one of them is beyond it. One that rounds to more is no step of the vault. -/
theorem breaker_exact (d : Deployment) (env : Replies) (s : State) (sender : Address) (i : Nat) :
    ((∀ t ps, step d s (.call sender env (.pokeDecentral i)) = .ok (t, ps) →
        ∀ p ∈ ps, p.Within s.principalMismatchBpsThreshold) ↔
      ¬ (Undisturbed d env s i ∧ (∀ p ∈ offers d env s i, p.RoundsWithin s.principalMismatchBpsThreshold) ∧
        ∃ p ∈ offers d env s i, ¬ p.Within s.principalMismatchBpsThreshold)) ∧
    ((∃ p ∈ offers d env s i, ¬ p.RoundsWithin s.principalMismatchBpsThreshold) →
      ∀ t, ¬ (vault d).next s (.call sender env (.pokeDecentral i)) t) := by
  refine ⟨⟨?_, ?_⟩, ?_⟩
  · rintro hall ⟨hundisturbed, hrounds, p, hp, hbeyond⟩
    obtain ⟨t, ps, h⟩ := pokeDecentral_succeeds_iff.2 ⟨hundisturbed, hrounds⟩
    rw [← pokeDecentral_payouts h] at hp
    exact hbeyond (hall t ps h p hp)
  · intro hnot t ps h p hp
    have hpoke : pokeDecentral d env s i = .ok (t, ps) := h
    obtain ⟨hundisturbed, hrounds⟩ := pokeDecentral_succeeds_iff.1 ⟨t, ps, hpoke⟩
    by_contra hbeyond
    rw [pokeDecentral_payouts hpoke] at hp
    exact hnot ⟨hundisturbed, hrounds, p, hp, hbeyond⟩
  · rintro ⟨p, hp, hbeyond⟩ t ⟨-, ps, h⟩
    exact hbeyond ((pokeDecentral_succeeds_iff.1 ⟨t, ps, h⟩).2 p hp)

end Offers

/-- Alice's 10 HOLLAR mature under the threshold that lets nothing pass. -/
def strictRun : List Action :=
  demoFunding ++
    [.call 0xad demoQuiet (.setPrincipalMismatchBpsThreshold 0),
     .call alice (demoReplies 0 1000 (some (10 ^ 19)) none none) (.deposit (10 ^ 19) alice),
     .tick 1000]

/-- The pool pays a unit less than the 10 HOLLAR, and the poke goes through. -/
theorem breaker_lets_pass : ¬ ∀ (d : Deployment) (s t : State) (sender : Address) (env : Replies) (i : Nat)
    (ps : List Payout), Reachable d s → Legal d s (.call sender env (.pokeDecentral i)) →
    step d s (.call sender env (.pokeDecentral i)) = .ok (t, ps) →
      ∀ p ∈ ps, p.Within s.principalMismatchBpsThreshold := by
  intro hall
  obtain ⟨s, t, ps, hs, hlegal, hstep, ht⟩ := observe_step demo DeadSilent demoQuiet demoSetup strictRun
    (.call bob (demoReplies 0 0 none none (some (10 ^ 19 - 1))) (.pokeDecentral 0))
    (fun s _ ps => decide (s.principalMismatchBpsThreshold = 0 ∧ ps = [⟨0, true, 10 ^ 19, 10 ^ 19 - 1⟩]))
    (by decide +kernel)
  obtain ⟨hthreshold, rfl⟩ := of_decide_eq_true ht
  have := hall demo s t bob _ 0 _ hs.of_restrict hlegal hstep _ (List.mem_singleton_self _)
  rw [hthreshold] at this
  exact absurd this (by decide)

end MoneyMarket
