/-
The price of a share. No call whose payouts are in full lowers the active price by more than one
unit of value for each position it caps (`no_dilution`). Before any shares are active there is no
price to keep: what a deposit then finds in the vault is shared with it (`dilution_of_nobody`). Nor is
there one after the last share is settled, which takes the dead address (`last_shares_lower`).
-/
import MoneyMarket.Vault.Solvency
import MoneyMarket.Vault.Value

namespace MoneyMarket

open Evm Relation Transition

section Price

variable {d : Deployment} {s t : State} {ps : List Payout}

/-- One move keeps the price but for the units its cap loses, when the shares shrink or there is a
price to keep. -/
theorem Revalued.price (h : Revalued ps s t) (hfull : PaidInFull ps)
    (hside : activeSupply t ≤ activeSupply s ∨ 0 < activeSupply s ∨ activeValue s = 0) :
    s.toBook.cappedCount ≤ t.toBook.cappedCount ∧
      activeValue s * activeSupply t ≤ (activeValue t + (t.toBook.cappedCount - s.toBook.cappedCount)) *
        activeSupply s := by
  cases h with
  | kept hS hV hk =>
    rw [hk, hS, Nat.sub_self]
    exact ⟨le_refl _, Nat.mul_le_mul_right _ (hV hfull)⟩
  | capped hS hV hk _ =>
    rw [hk, hS, Nat.add_sub_cancel_left]
    exact ⟨Nat.le_succ _, Nat.mul_le_mul_right _ hV⟩
  | settled b h hS hV hprice hk =>
    rw [hk, Nat.sub_self]
    rw [hS, hV] at hprice ⊢
    exact ⟨le_refl _, Ratio.sell hprice⟩
  | bought b a hS hV hprice hfirst hk =>
    rw [hk, hS, hV, Nat.sub_self]
    refine ⟨le_refl _, ?_⟩
    rcases hside with hle | hpos | hzero
    · have hb : b = 0 := by omega
      rw [hb]
      exact Nat.mul_le_mul_right _ (Nat.le_add_right _ _)
    · exact Ratio.buy (hprice hpos)
    · rw [hzero, Nat.zero_mul]; exact Nat.zero_le _

/-- The keeper issues no shares. -/
theorem Poke.supply_le (hp : Poke d s ps t) : activeSupply t ≤ activeSupply s := by
  cases hp with
  | settle rate _ _ hfills _ =>
    obtain ⟨-, hs, -⟩ := fills_totals hfills
    rw [activeSupply_eq, activeSupply_eq]
    exact Nat.sub_le_sub_left hs _
  | _ => exact le_refl _

/-- A keeper's call keeps the price but for the units its caps lose. -/
theorem pokes_price (hinv : Invariant d s) (hp : Pokes d s ps t) (hfull : PaidInFull ps) :
    activeSupply t ≤ activeSupply s ∧ s.toBook.cappedCount ≤ t.toBook.cappedCount ∧
      activeValue s * activeSupply t ≤ (activeValue t + (t.toBook.cappedCount - s.toBook.cappedCount)) *
        activeSupply s := by
  refine Moves.reports (I := Invariant d)
    (R := fun s ps t => PaidInFull ps → activeSupply t ≤ activeSupply s ∧ s.toBook.cappedCount ≤ t.toBook.cappedCount ∧
      activeValue s * activeSupply t ≤ (activeValue t + (t.toBook.cappedCount - s.toBook.cappedCount)) * activeSupply s)
    ?_ ?_ ?_ hp hinv hfull
  · intro s _
    rw [Nat.sub_self]
    exact ⟨le_refl _, le_refl _, le_refl _⟩
  · intro s bs t cs u h₁ h₂ hfull
    obtain ⟨hS₁, hk₁, hp₁⟩ := h₁ fun p hp => hfull p (List.mem_append_left _ hp)
    obtain ⟨hS₂, hk₂, hp₂⟩ := h₂ fun p hp => hfull p (List.mem_append_right _ hp)
    refine ⟨le_trans hS₂ hS₁, le_trans hk₁ hk₂, ?_⟩
    have hk : u.toBook.cappedCount - s.toBook.cappedCount =
        t.toBook.cappedCount - s.toBook.cappedCount + (u.toBook.cappedCount - t.toBook.cappedCount) := by omega
    rw [hk]
    exact Ratio.trans_le hp₁ hp₂ hS₂
  · intro s bs t hi hm
    refine ⟨hi.poke hm, fun hfull => ⟨hm.supply_le, (hm.revalued hi).price hfull (.inl hm.supply_le)⟩⟩

/-- From no active shares, a move leaves shares that the assets cover. -/
theorem Revalued.covers (h : Revalued ps s t) (h0 : activeSupply s = 0) : activeSupply t ≤ activeValue t := by
  cases h with
  | kept hS _ _ => rw [hS, h0]; exact Nat.zero_le _
  | capped hS _ _ _ => rw [hS, h0]; exact Nat.zero_le _
  | settled b h hS _ _ _ => omega
  | bought b a hS hV _ hfirst _ =>
    have := hfirst h0
    omega

end Price

/-- The price of a share over one action of any reachable state, its payouts in full. The active
price falls by at most one unit of value for each position capped, from any state with active
shares or without active assets; time alone does not lower the value; and with nothing capped the
exchange rate does not fall, when the dead address never transacts. -/
theorem no_dilution {d : Deployment} {s t : State} {a : Action} {ps : List Payout} {active active' : Nat}
    (h : Reachable d s)
    (hlegal : Legal d s a) (hs : step d s a = .ok (t, ps)) (hfull : PaidInFull ps) (hA : activeAssets s = .ok active)
    (hA' : activeAssets t = .ok active') :
    (0 < activeSupply s ∨ active = 0 →
      active * activeSupply t ≤ (active' + (t.toBook.cappedCount - s.toBook.cappedCount)) * activeSupply s) ∧
    (∀ now, a = .tick now → active ≤ active' ∧ activeSupply t = activeSupply s) ∧
    ((silentVault d).Reach s → DeadSilent s a → t.toBook.cappedCount = s.toBook.cappedCount →
      ∀ rate rate', exchangeRate s = .ok rate → exchangeRate t = .ok rate' → rate ≤ rate') := by
  have hinv := h.inv
  have ht := hinv.step hlegal hs
  obtain rfl := activeAssets_value hinv.yield hA
  obtain rfl := activeAssets_value ht.yield hA'
  have hprice : 0 < activeSupply s ∨ activeValue s = 0 → activeValue s * activeSupply t ≤
      (activeValue t + (t.toBook.cappedCount - s.toBook.cappedCount)) * activeSupply s := by
    intro hside
    rcases step_moves hlegal hs with ⟨ha, rfl⟩ | hp
    · exact ((ha.revalued hinv).price hfull (.inr hside)).2
    · exact (pokes_price hinv hp hfull).2.2
  refine ⟨hprice, ?_, ?_⟩
  · rintro now rfl
    cases hs
    refine ⟨?_, rfl⟩
    have := hinv.yield.worth_tick hlegal
    show s.toBook.worth s.now + s.idleHollar ≤ s.toBook.worth now + s.idleHollar
    omega
  · intro hreach hsilent hk rate rate' hr hr'
    have hdead := silent_deadShares hreach
    rcases exchangeRate_ok hinv.yield hr with ⟨h0, rfl⟩ | ⟨hpos, rfl⟩
    · apply wad_le_rate ht.yield hr'
      rcases step_moves hlegal hs with ⟨ha, rfl⟩ | hp
      · exact (ha.revalued hinv).covers h0
      · have := (pokes_price hinv hp hfull).1
        omega
    · -- the dead shares stay active, so there is a price after the step as well
      have hpos' : 0 < activeSupply t := by
        rw [activeSupply_eq] at hpos ⊢
        obtain ⟨-, hmono⟩ := hdead.step hsilent hlegal hs
        have := ht.dead_active (le_trans (hdead.held (by omega)) hmono)
        have : 0 < deadShares := by decide
        omega
      rcases exchangeRate_ok ht.yield hr' with ⟨h0, -⟩ | ⟨-, rfl⟩
      · omega
      · have := hprice (.inl hpos)
        rw [hk, Nat.sub_self, Nat.add_zero] at this
        exact Ratio.floor_le this hpos hpos'

/-- A deposit of ten HOLLAR by alice. -/
def demoDeposit : Action := .call alice (demoReplies 0 1000 (some (10 ^ 19)) none none) (.deposit (10 ^ 19) alice)

/-- At the end of the demo run it is at the price. -/
theorem no_dilution_demo : ∃ s t : State,
    68000215626585489613 * activeSupply t ≤ (78000215626585489613 + (t.toBook.cappedCount - s.toBook.cappedCount)) *
      activeSupply s := by
  obtain ⟨s, t, ps, hs, hlegal, hstep, ht⟩ := observe_step demo DeadSilent demoQuiet demoSetup demoRun demoDeposit
    (fun s t ps => decide (ps = [] ∧ 0 < activeSupply s ∧ activeAssets s = .ok 68000215626585489613 ∧
      activeAssets t = .ok 78000215626585489613)) (by decide +kernel)
  obtain ⟨rfl, hpos, hA, hA'⟩ := of_decide_eq_true ht
  exact ⟨s, t, (no_dilution hs.of_restrict hlegal hstep (fun _ h => absurd h List.not_mem_nil) hA hA').1 (.inl hpos)⟩

/-- With a zero minimum the empty vault opens a position of nothing, whose payout is a surplus. -/
def surplusRun : List Action :=
  demoFunding ++
    [.call 0xad demoQuiet (.setMinReinvestAmount 0),
     .call bob (demoReplies 0 1000 (some 0) none none) .pokeQueue,
     .tick 1000,
     .call bob (demoReplies 0 0 none none (some (5 * 10 ^ 18))) (.pokeDecentral 0)]

/-- The first deposit then shares the surplus: without active shares there is no price to keep. -/
theorem dilution_of_nobody : ¬ ∀ (d : Deployment) (s t : State) (a : Action) (ps : List Payout) (active active' : Nat),
    Reachable d s → Legal d s a → step d s a = .ok (t, ps) → PaidInFull ps → activeAssets s = .ok active →
    activeAssets t = .ok active' →
    active * activeSupply t ≤ (active' + (t.toBook.cappedCount - s.toBook.cappedCount)) * activeSupply s := by
  intro hall
  obtain ⟨s, t, ps, hs, hlegal, hstep, ht⟩ := observe_step demo DeadSilent demoQuiet demoSetup surplusRun demoDeposit
    (fun s t ps => decide (ps = [] ∧ activeSupply s = 0 ∧ activeSupply t = 10 ^ 19 ∧
      activeAssets s = .ok (5 * 10 ^ 18) ∧ activeAssets t = .ok (15 * 10 ^ 18))) (by decide +kernel)
  obtain ⟨rfl, h0, hnew, hA, hA'⟩ := of_decide_eq_true ht
  have := hall demo s t _ [] _ _ hs.of_restrict hlegal hstep (fun _ h => absurd h List.not_mem_nil) hA hA'
  rw [h0, hnew, Nat.mul_zero] at this
  exact absurd this (by decide)

/-- Alice requests all her shares and the dead address its own, and the yield of the one position is capped. -/
def lastSharesRun : List Action :=
  demoFunding ++
    [.call 0xad demoQuiet (.setMinRedeemAmount 1),
     .call alice (demoReplies (10 ^ 17) 1000 (some (10 ^ 20)) none none) (.deposit (10 ^ 20) alice),
     .call alice demoQuiet (.requestRedeem (10 ^ 20 - 1000) alice alice),
     .call deadAddress demoQuiet (.requestRedeem 1000 deadAddress deadAddress),
     .tick 1000,
     .call bob demoQuiet (.syncMaturities 1)]

/-- The payout then settles all shares, and the rate falls to the one of a vault without any. -/
theorem last_shares_lower : ¬ ∀ (d : Deployment) (s t : State) (a : Action) (ps : List Payout) (rate rate' : Nat),
    Reachable d s → Legal d s a → step d s a = .ok (t, ps) → PaidInFull ps →
    t.toBook.cappedCount = s.toBook.cappedCount → exchangeRate s = .ok rate → exchangeRate t = .ok rate' →
    rate ≤ rate' := by
  intro hall
  obtain ⟨s, t, ps, hs, hlegal, hstep, ht⟩ := observe_step demo (fun _ _ => True) demoQuiet demoSetup lastSharesRun
    (.call bob (demoReplies 0 0 none (some 317097919837645) (some (10 ^ 20))) (.pokeDecentral 0))
    (fun s t ps => decide ((∀ p ∈ ps, p.expected ≤ p.received) ∧ t.toBook.cappedCount = s.toBook.cappedCount ∧
      exchangeRate s = .ok 1000003170979198376 ∧ exchangeRate t = .ok wad)) (by decide +kernel)
  obtain ⟨hfull, hcount, hrate, hrate'⟩ := of_decide_eq_true ht
  exact absurd (hall demo s t _ ps _ _ hs.of_restrict hlegal hstep hfull hcount hrate hrate') (by decide)

end MoneyMarket
