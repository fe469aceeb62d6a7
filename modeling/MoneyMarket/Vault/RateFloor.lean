/-
The floor of the exchange rate. Every move but a cap keeps the active shares covered one to one; a
cap floors the yield of a position alone that was priced in one sum with the others until then. So
the rate stays at its floor in the runs whose syncs leave the shares covered (`rate_floor`), as those do
that have a unit over the shares for each cap (`surplus_floor`), and a settlement just before a sync can
break it (`rate_below_floor`).
-/
import MoneyMarket.Vault.Replay
import MoneyMarket.Vault.Value

namespace MoneyMarket

open Evm Relation Transition

/-- The payouts of an action are all at least what was recorded for them. -/
def paysInFull (d : Deployment) (s : State) (a : Action) : Bool :=
  match step d s a with
  | .ok (_, ps) => ps.all fun p => decide (p.expected ≤ p.received)
  | .error _ => true

/-- A call that syncs starts where the assets, with the yields it will lock floored one by one and
the rest accrued to where the aggregate will then stop, cover the active shares. -/
def capsCovered (s : State) (a : Action) : Bool :=
  match a.syncLimit with
  | some n => decide (activeSupply s ≤ s.toBook.worthAfter s.now (min n (s.toBook.dueCount s.now)) + s.idleHollar)
  | none => true

/-- A call that syncs starts with a unit of value over the active shares for each position it will cap. -/
def capsAfforded (s : State) (a : Action) : Bool :=
  match a.syncLimit with
  | some n => decide (activeSupply s + min n (s.toBook.dueCount s.now) ≤ activeValue s)
  | none => true

/-- The runs with payouts in full. -/
abbrev fullVault (d : Deployment) : System State Action := (vault d).restrict fun s a => paysInFull d s a = true

/-- Those whose syncs leave the shares covered. -/
abbrev coveredVault (d : Deployment) : System State Action :=
  (vault d).restrict fun s a => paysInFull d s a = true ∧ capsCovered s a = true

/-- Those whose syncs can afford their caps. -/
abbrev surplusVault (d : Deployment) : System State Action :=
  (vault d).restrict fun s a => paysInFull d s a = true ∧ capsAfforded s a = true

section Cover

variable {d : Deployment} {s t : State} {a : Action} {ps : List Payout}

theorem paidInFull (h : paysInFull d s a = true) (hs : step d s a = .ok (t, ps)) : PaidInFull ps := by
  unfold paysInFull at h
  rw [hs] at h
  exact fun p hp => of_decide_eq_true (List.all_eq_true.1 h p hp)

/-- A move that caps nothing keeps the shares covered. -/
theorem Revalued.covered (h : Revalued ps s t) (hfull : PaidInFull ps)
    (hheap : s.maturityHeap.length ≤ t.maturityHeap.length)
    (hcover : activeSupply s ≤ activeValue s) : activeSupply t ≤ activeValue t := by
  cases h with
  | kept hS hV _ => rw [hS]; exact le_trans hcover (hV hfull)
  | capped _ _ _ hlt => omega
  | settled b h hS hV hprice _ =>
    rw [hS, hV] at hcover hprice
    exact Ratio.sell_covered hcover hprice
  | bought b a hS hV hprice hfirst _ =>
    have hb : b ≤ a := by
      rcases Nat.eq_zero_or_pos (activeSupply s) with h0 | hpos
      · exact hfirst h0
      · exact Nat.le_of_mul_le_mul_right (le_trans (Nat.mul_le_mul_left _ hcover) (hprice hpos)) hpos
    rw [hS, hV]
    exact Nat.add_le_add hcover hb

theorem works_covered (hinv : Invariant d s) (hw : Works d s ps t) (hfull : PaidInFull ps)
    (hcover : activeSupply s ≤ activeValue s) :
    activeSupply t ≤ activeValue t := by
  refine Moves.reports (I := Invariant d)
    (R := fun s ps t => PaidInFull ps → activeSupply s ≤ activeValue s → activeSupply t ≤ activeValue t)
    (fun _ _ => id) (fun s bs t cs u h₁ h₂ hfull hc => ?_)
      (fun s bs t hi hm => ⟨hi.poke hm.1, fun hfull hc => ?_⟩) hw hinv hfull hcover
  · exact h₂ (fun p hp => hfull p (List.mem_append_right _ hp))
      (h₁ (fun p hp => hfull p (List.mem_append_left _ hp)) hc)
  · exact (hm.1.revalued hi).covered hfull hm.2 hc

/-- A sync that the call starts with leaves the active shares covered. -/
def SyncsCovered (s : State) (a : Action) : Prop :=
  ∀ n s₁ k, a.syncLimit = some n → syncMaturities s n = .ok (s₁, k) → activeSupply s₁ ≤ activeValue s₁

theorem syncs_of_covered (hinv : Invariant d s) (hcaps : capsCovered s a = true) : SyncsCovered s a := by
  intro n s₁ k hlimit hsync
  obtain ⟨rfl, hS, hV⟩ := syncMaturities_exact hinv.yield hsync
  unfold capsCovered at hcaps
  rw [hlimit] at hcaps
  rw [hS, hV]
  exact of_decide_eq_true hcaps

/-- A cap costs a unit at most. -/
theorem syncs_of_afforded (hinv : Invariant d s) (hcaps : capsAfforded s a = true) : SyncsCovered s a := by
  intro n s₁ k hlimit hsync
  obtain ⟨rfl, hS, -⟩ := syncMaturities_exact hinv.yield hsync
  have hloss := syncMaturities_loss hinv.yield hsync
  unfold capsAfforded at hcaps
  rw [hlimit] at hcaps
  have hsurplus := of_decide_eq_true hcaps
  rw [hS]
  omega

/-- A step whose payouts are in full and whose sync leaves the shares covered keeps them covered. -/
theorem step_covered (hinv : Invariant d s) (hlegal : Legal d s a) (hs : step d s a = .ok (t, ps))
    (hfull : PaidInFull ps) (hsyncs : SyncsCovered s a) (hcover : activeSupply s ≤ activeValue s) :
    activeSupply t ≤ activeValue t := by
  rcases step_works hlegal hs with ⟨ha, rfl⟩ | ⟨n, s₁, k, hlimit, hsync, hworks⟩
  · exact (ha.revalued hinv).covered hfull ha.heap_le hcover
  · exact works_covered (hinv.pokes (syncMaturities_pokes hsync).1) hworks hfull (hsyncs n s₁ k hlimit hsync)

/-- Along runs of such steps the shares stay covered. -/
theorem reach_covered {C : State → Action → Prop}
    (hC : ∀ s a, Invariant d s → C s a → paysInFull d s a = true ∧ SyncsCovered s a)
    (h : ((vault d).restrict C).Reach s) : activeSupply s ≤ activeValue s := by
  refine System.Reach.invariant (M := (vault d).restrict C) (I := fun s => activeSupply s ≤ activeValue s) ?_ ?_ h
  · rintro s ⟨env, p, token, now, -, hinit⟩
    obtain ⟨g, c, a, -, -, rfl⟩ := initializeVault_ok hinit
    exact Nat.zero_le _
  · rintro s a t hreach hcover ⟨hc, hlegal, ps, hs⟩
    have hinv : Invariant d s := Reachable.inv hreach.of_restrict
    obtain ⟨hpays, hsyncs⟩ := hC s a hinv hc
    exact step_covered hinv hlegal hs (paidInFull hpays hs) hsyncs hcover

end Cover

/-- The exchange rate is at least one in every state of a run whose payouts are in full and whose
syncs leave the active shares covered. -/
theorem rate_floor {d : Deployment} {s : State} {rate : Nat} (h : (coveredVault d).Reach s)
    (hr : exchangeRate s = .ok rate) :
    wad ≤ rate := by
  have hinv : Invariant d s := Reachable.inv h.of_restrict
  exact wad_le_rate hinv.yield hr (reach_covered (fun _ _ hinv hc => ⟨hc.1, syncs_of_covered hinv hc.2⟩) h)

/-- Both payouts of the demo run are in full, and its sync loses nothing. -/
theorem rate_floor_demo : ∃ s, exchangeRate s = .ok 1000003170979198376 ∧ wad ≤ 1000003170979198376 := by
  obtain ⟨s, hs, ht⟩ := observe_reach demo (fun s a => paysInFull demo s a = true ∧ capsCovered s a = true)
    demoQuiet demoSetup demoRun
    (fun s => decide (exchangeRate s = .ok 1000003170979198376)) (by decide +kernel)
  have hrate := of_decide_eq_true ht
  exact ⟨s, hrate, rate_floor hs hrate⟩

/-- In plain terms: a surplus of one unit for each position a sync caps is enough. -/
theorem surplus_floor {d : Deployment} {s : State} {rate : Nat} (h : (surplusVault d).Reach s)
    (hr : exchangeRate s = .ok rate) : wad ≤ rate := by
  have hinv : Invariant d s := Reachable.inv h.of_restrict
  exact wad_le_rate hinv.yield hr (reach_covered (fun _ _ hinv hc => ⟨hc.1, syncs_of_afforded hinv hc.2⟩) h)

/-- Three small positions have accrued nine tenths of a unit each when a large one is paid and
settles a redemption, at a price that counts two whole units of theirs. The next sync floors each
to nothing. -/
def flooringRun : List Action :=
  demoFunding ++
    [.call alice (demoReplies 0 28382399 (some (15 * 10 ^ 17)) none none) (.deposit (15 * 10 ^ 17) alice),
     .call alice (demoReplies (10 ^ 17) 28382400 (some 10) none none) (.deposit 10 alice),
     .call alice (demoReplies (10 ^ 17) 28382400 (some 10) none none) (.deposit 10 alice),
     .call alice (demoReplies (10 ^ 17) 28382400 (some 10) none none) (.deposit 10 alice),
     .call alice demoQuiet (.requestRedeem (10 ^ 18) alice alice),
     .tick 28382399,
     .call bob (demoReplies 0 0 none none (some (15 * 10 ^ 17))) (.pokeDecentral 0),
     .tick 28382400,
     .call bob demoQuiet (.syncMaturities 3)]

theorem rate_below_floor : ¬ ∀ (d : Deployment) (s : State) (rate : Nat), (fullVault d).Reach s →
    0 < s.bil.totalSupply →
    exchangeRate s = .ok rate → wad ≤ rate := by
  intro hall
  obtain ⟨s, hs, ht⟩ := observe_reach demo (fun s a => paysInFull demo s a = true) demoQuiet demoSetup
    flooringRun (fun s => decide (0 < s.bil.totalSupply ∧ exchangeRate s = .ok 999999999999999998)) (by decide +kernel)
  obtain ⟨hpos, hrate⟩ := of_decide_eq_true ht
  exact absurd (hall demo s _ hs hpos hrate) (by decide)

end MoneyMarket
