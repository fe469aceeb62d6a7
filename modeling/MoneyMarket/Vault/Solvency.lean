/-
The ledgers of the vault in every reachable state: the totals of the queue are the sums over its
requests, the vault holds the shares it has escrowed and the HOLLAR it holds idle and reserved,
and at least the dead shares stay active.
-/
import MoneyMarket.Vault.Invariant
import MoneyMarket.Vault.Replay

namespace MoneyMarket

open Evm Relation Transition

/-! ## The dead shares -/

/-- The dead address has given nobody a say over its shares, and has them once there are any. -/
structure DeadShares (s : State) : Prop where
  unapproved : ∀ spender, s.bil.allowance deadAddress spender = 0
  unoperated : ∀ operator, s.isOperator deadAddress operator = false
  held : s.bil.totalSupply ≠ 0 → deadShares ≤ s.bil.balanceOf deadAddress

namespace DeadShares

variable {d : Deployment} {s t : State} {a : Action}

theorem init (h : (vault d).init s) : DeadShares s := by
  obtain ⟨env, p, token, now, -, hinit⟩ := h
  obtain ⟨g, c, a, hop, -, rfl⟩ := initializeVault_ok hinit
  exact ⟨fun _ => rfl, fun o => hop _ o, fun h => absurd rfl h⟩

theorem poke {ps : List Payout} (h : DeadShares s) (hp : Poke d s ps t) :
    DeadShares t ∧ s.bil.balanceOf deadAddress ≤ t.bil.balanceOf deadAddress := by
  cases hp <;> exact ⟨⟨h.unapproved, h.unoperated, h.held⟩, le_refl _⟩

/-- The first deposit gives the dead address its shares. -/
theorem bootstrap_held {bil bil₀ : ERC20} (hheld : bil.totalSupply ≠ 0 → deadShares ≤ bil.balanceOf deadAddress)
    (hboot : bootstrap bil = .ok bil₀) : deadShares ≤ bil₀.balanceOf deadAddress ∧ bil₀.totalSupply ≠ 0 := by
  unfold bootstrap at hboot
  split at hboot
  · obtain ⟨-, -, rfl⟩ := ERC20.mint_ok_iff.1 hboot
    refine ⟨?_, (Nat.add_pos_right bil.totalSupply (show 0 < deadShares by decide)).ne'⟩
    show deadShares ≤ Function.update bil.balanceOf deadAddress (bil.balanceOf deadAddress + deadShares) deadAddress
    rw [Function.update_self]
    exact Nat.le_add_left _ _
  · rename_i hsupply
    cases hboot
    exact ⟨hheld hsupply, hsupply⟩

/-- Every action of another account keeps them. -/
theorem act (h : DeadShares s) (hsilent : a.sender ≠ deadAddress) (ha : Act d a s t) :
    DeadShares t ∧ s.bil.balanceOf deadAddress ≤ t.bil.balanceOf deadAddress := by
  cases ha with
  | tick _ _ => exact ⟨⟨h.unapproved, h.unoperated, h.held⟩, le_refl _⟩
  | ledger _ _ => exact ⟨⟨h.unapproved, h.unoperated, h.held⟩, le_refl _⟩
  | configure g c p _ hop =>
    refine ⟨⟨h.unapproved, fun o => ?_, h.held⟩, le_refl _⟩
    show p.isOperator deadAddress o = false
    rw [hop _ hsilent.symm]; exact h.unoperated o
  | share c bil hcall =>
    have hbal := ERC20.le_call hcall hsilent.symm (h.unapproved _)
    refine ⟨⟨ERC20.call_allowance hcall hsilent.symm h.unapproved, h.unoperated, fun hsupply => ?_⟩, hbal⟩
    rw [ERC20.call_totalSupply hcall] at hsupply
    exact le_trans (h.held hsupply) hbal
  | deposit receiver pool assets shares tokenId apyWad period bil₀ bil token _ _ hboot hmint _ _ _ =>
    obtain ⟨hb₀, ha₀, -⟩ := bootstrap_grows hboot deadAddress
    obtain ⟨hb, ha⟩ := mint_grows hmint deadAddress
    refine ⟨⟨fun x => ?_, h.unoperated, fun _ => le_trans (bootstrap_held h.held hboot).1 hb⟩, le_trans hb₀ hb⟩
    show bil.allowance deadAddress x = 0
    rw [ha, ha₀]; exact h.unapproved x
  | request controller owner shares bil _ _ hauth hbil _ =>
    -- nobody acts for the dead address, so its shares are not requested
    have howner : deadAddress ≠ owner := by
      rintro rfl
      rcases hauth with hauth | hauth
      · exact hsilent hauth
      · rw [h.unoperated] at hauth; exact absurd hauth (by decide)
    obtain ⟨-, -, -, rfl⟩ := ERC20.transfer_ok_iff.1 hbil
    have hbal := ERC20.le_move s.bil owner d.self shares howner
    exact ⟨⟨h.unapproved, h.unoperated, fun hsupply => le_trans (h.held hsupply) hbal⟩, hbal⟩
  | cancel i n bil _ _ _ hbil =>
    rcases hbil with ⟨rfl, -⟩ | hbil
    · exact ⟨⟨h.unapproved, h.unoperated, h.held⟩, le_refl _⟩
    · obtain ⟨-, -, -, rfl⟩ := ERC20.transfer_ok_iff.1 hbil
      have hbal := ERC20.le_move s.bil d.self (s.redemptionQueue i).user
        ((s.redemptionQueue i).bilAmount - (s.redemptionQueue i).bilSettled) d.self_ne_dead.symm
      exact ⟨⟨h.unapproved, h.unoperated, fun hsupply => le_trans (h.held hsupply) hbal⟩, hbal⟩
  | claim u c receiver amount r bil token _ _ _ _ _ hburn _ =>
    obtain ⟨-, -, rfl⟩ := ERC20.burn_ok_iff.1 hburn
    -- the burn is of the vault's own shares
    have hbal : Function.update s.bil.balanceOf d.self (s.bil.balanceOf d.self - r.shares) deadAddress =
        s.bil.balanceOf deadAddress := Function.update_of_ne d.self_ne_dead.symm _ _
    refine ⟨⟨h.unapproved, h.unoperated, fun hsupply => le_trans (h.held fun h0 => hsupply ?_) hbal.ge⟩, hbal.ge⟩
    show s.bil.totalSupply - r.shares = 0
    omega

theorem step {ps : List Payout} (h : DeadShares s) (hsilent : DeadSilent s a) (hlegal : Legal d s a)
    (hs : MoneyMarket.step d s a = .ok (t, ps)) :
    DeadShares t ∧ s.bil.balanceOf deadAddress ≤ t.bil.balanceOf deadAddress := by
  rcases step_moves hlegal hs with ⟨ha, -⟩ | hp
  · exact h.act hsilent ha
  · exact ⟨Moves.invariant (fun _ _ _ hi hm => (hi.poke hm).1) hp h,
      Moves.relation (I := DeadShares) (R := fun s t => s.bil.balanceOf deadAddress ≤ t.bil.balanceOf deadAddress)
        (fun _ => le_refl _) (fun _ _ _ => le_trans) (fun _ _ _ hi hm => hi.poke hm) hp h⟩

end DeadShares

/-- The runs in which the dead address never transacts. -/
abbrev silentVault (d : Deployment) : System State Action := (vault d).restrict DeadSilent

theorem silent_deadShares {d : Deployment} {s : State} (h : (silentVault d).Reach s) : DeadShares s := by
  refine System.Reach.invariant (M := silentVault d) (fun _ hs => DeadShares.init (d := d) hs) ?_ h
  rintro s a t - hi ⟨hsilent, hlegal, ps, hs⟩
  exact (hi.step hsilent hlegal hs).1

/-! ## After a deposit -/

def Call.IsDeposit : Call → Prop
  | .deposit _ _ => True
  | .mint _ _ => True
  | _ => False

/-- `s` comes after a deposit or a mint, in a run in which the dead address never transacts. -/
def AfterDeposit (d : Deployment) (s : State) : Prop :=
  ∃ s₀ sender env c t, (silentVault d).Reach s₀ ∧ Call.IsDeposit c ∧ (silentVault d).next s₀ (.call sender env c) t ∧
    (silentVault d).Leads t s

theorem depositShares_supply {d : Deployment} {env : Replies} {s t : State} {sender receiver : Address}
    {assets shares : Nat}
    (h : depositShares d env s sender receiver assets shares = .ok t) : t.bil.totalSupply ≠ 0 := by
  simp only [depositShares, bind_ok_iff, Prod.exists, require_ok_iff, pure_ok_iff] at h
  obtain ⟨bil₀, hboot, bil, hmint, token, -, s₁, ok, hdep, _, rfl, rfl⟩ := h
  have hpos : bil₀.totalSupply ≠ 0 := by
    unfold bootstrap at hboot
    split at hboot
    · obtain ⟨-, -, rfl⟩ := ERC20.mint_ok_iff.1 hboot
      exact (Nat.add_pos_right s.bil.totalSupply (show 0 < deadShares by decide)).ne'
    · cases hboot; assumption
  have hbil : s₁.bil = bil := by
    rcases depositIntoDecentral_ok hdep with ⟨-, _, rfl, -⟩ | ⟨-, _, _, _, _, rfl, -⟩ <;> rfl
  obtain ⟨-, -, rfl⟩ := ERC20.mint_ok_iff.1 hmint
  rw [hbil]
  show bil₀.totalSupply + shares ≠ 0
  omega

theorem Call.IsDeposit.supply {d : Deployment} {env : Replies} {s t : State} {sender : Address} {c : Call}
    {ps : List Payout}
    (hc : c.IsDeposit) (h : c.run d env s sender = .ok (t, ps)) : t.bil.totalSupply ≠ 0 := by
  cases c with
  | deposit assets receiver =>
    simp only [Call.run, MoneyMarket.deposit, bind_ok_iff, Prod.exists, pure_ok_iff, Prod.mk.injEq] at h
    obtain ⟨_, _, ⟨_, -, _, -, _, -, _, -, _, hdep, rfl, -⟩, rfl, -⟩ := h
    exact depositShares_supply hdep
  | mint shares receiver =>
    simp only [Call.run, MoneyMarket.mint, bind_ok_iff, Prod.exists, pure_ok_iff, Prod.mk.injEq] at h
    obtain ⟨_, _, ⟨_, -, _, -, _, -, _, -, _, -, _, -, _, hdep, rfl, -⟩, rfl, -⟩ := h
    exact depositShares_supply hdep
  | _ => exact hc.elim

/-- The dead shares and the escrowed ones are held by two accounts. -/
theorem Invariant.dead_active {d : Deployment} {s : State} (h : Invariant d s)
    (hheld : deadShares ≤ s.bil.balanceOf deadAddress) :
    s.totalSettledBil + deadShares ≤ s.bil.totalSupply := by
  have hboth := h.bil.conserved.add_le d.self_ne_dead.symm
  have hescrow := h.escrow
  have hsettled := h.ledger.totalSettled_le
  omega

/-- From the first deposit on, at least the dead shares are active. -/
theorem AfterDeposit.active {d : Deployment} {s : State} (h : AfterDeposit d s) :
    s.totalSettledBil + deadShares ≤ s.bil.totalSupply := by
  obtain ⟨s₀, sender, env, c, t, hs₀, hc, hnext, hleads⟩ := h
  have ht : (silentVault d).Reach t := .step _ hs₀ hnext
  obtain ⟨-, -, ps, hrun⟩ := hnext
  have hheld : deadShares ≤ s.bil.balanceOf deadAddress := by
    refine hleads.invariant (I := fun s => deadShares ≤ s.bil.balanceOf deadAddress) ht
      (fun u a v hu hheld ⟨hsilent, hlegal, _, hstep⟩ => ?_)
        ((silent_deadShares ht).held (Call.IsDeposit.supply hc hrun))
    exact le_trans hheld ((silent_deadShares hu).step hsilent hlegal hstep).2
  have hinv : Invariant d s := Reachable.inv ((ht.leads hleads).of_restrict)
  exact hinv.dead_active hheld

/-! ## The ledgers -/

/-- In every reachable state the totals are the sums over the requests, empty slots hold only
zeros, live requests are consistent and their shares escrowed; and from the first deposit on at
least the dead shares are active, when the dead address never transacts. -/
theorem ledgers_exact {d : Deployment} {s : State} (h : Reachable d s) :
    s.totalQueuedBil = ∑ i ∈ Finset.range s.queueTail, (s.redemptionQueue i).bilAmount ∧
    s.totalSettledBil = ∑ i ∈ Finset.range s.queueTail, (s.redemptionQueue i).bilSettled ∧
    s.totalReservedHollar = ∑ i ∈ Finset.range s.queueTail, (s.redemptionQueue i).hollarOwed ∧
    (∀ i, (s.redemptionQueue i).user = 0 ∨ s.queueTail ≤ i → s.redemptionQueue i = Request.empty) ∧
    (∀ i, (s.redemptionQueue i).user ≠ 0 → 0 < (s.redemptionQueue i).bilAmount ∧
      (s.redemptionQueue i).bilSettled ≤ (s.redemptionQueue i).bilAmount ∧
      ((s.redemptionQueue i).bilSettled = 0 → (s.redemptionQueue i).hollarOwed = 0)) ∧
    s.totalQueuedBil ≤ s.bil.balanceOf d.self ∧
    (AfterDeposit d s → deadShares ≤ s.bil.totalSupply - s.totalSettledBil) := by
  have hinv := h.inv
  refine ⟨hinv.ledger.queued, hinv.ledger.settled, hinv.ledger.reserved, hinv.ledger.blank, fun i hi => ?_, hinv.escrow,
    fun hdep => ?_⟩
  · exact ⟨(hinv.ledger.live i hi).pos, (hinv.ledger.live i hi).settled_le, (hinv.ledger.live i hi).unowed⟩
  · have := hdep.active
    omega

/-- The replayed run settles 32 of alice's shares. -/
theorem ledgers_exact_demo : ∃ s : State, s.totalSettledBil = 32 * 10 ^ 18 ∧
    s.totalSettledBil = ∑ i ∈ Finset.range s.queueTail, (s.redemptionQueue i).bilSettled := by
  obtain ⟨s, hs, -, hsettled, -⟩ := demoRun_settled
  exact ⟨s, hsettled, (ledgers_exact hs.of_restrict).2.1⟩

/-! ## Backing -/

/-- In every reachable state the vault's HOLLAR covers what it holds idle and reserved. -/
theorem hollar_backing {d : Deployment} {s : State} (h : Reachable d s) :
    s.idleHollar + s.totalReservedHollar ≤ s.token.balanceOf d.self := h.inv.backed

theorem hollar_backing_demo : ∃ s : State, s.totalReservedHollar = 32000101471334348032 ∧
    s.idleHollar + s.totalReservedHollar ≤ s.token.balanceOf demo.self := by
  obtain ⟨s, hs, -, -, hreserved, -⟩ := demoRun_settled
  exact ⟨s, hreserved, hollar_backing hs.of_restrict⟩

end MoneyMarket
