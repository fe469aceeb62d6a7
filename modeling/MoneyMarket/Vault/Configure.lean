/-
The calls that only configure the vault: pauses, caps, roles, operators and pools. They write the
registry, the settings and the access rights and leave everything else alone (`Configured.of_run`).
-/
import MoneyMarket.Vault.Machine

namespace MoneyMarket

open Evm

/-- The calls that touch neither shares, nor HOLLAR, nor positions, nor the queue. -/
def Call.Configures : Call → Prop
  | .deposit _ _ | .mint _ _ | .requestRedeem _ _ _ | .cancelRedeem _ | .redeem _ _ _ | .withdraw _ _ _
  | .pokeDecentral _ | .pokeQueue | .syncMaturities _ | .share _ => False
  | _ => True

/-- The calls that change which pools the vault has, or the one it deposits into. -/
def Call.SetsPools : Call → Prop
  | .registerPool _ | .setActiveDepositPool _ | .retirePool _ => True
  | _ => False

/-- The state a configuring call of `sender` leaves: pools and the cap are for calls of their own, a
minimum stays one, and nobody else's operators change. -/
inductive Configured (sender : Address) (s : State) (c : Call) : State → Prop
  | mk (g : Registry) (f : Settings) (p : Access) :
      (c.SetsPools ∨ g = s.toRegistry) → ((∃ newCap, c = .setTvlCap newCap) ∨ f.tvlCap = s.tvlCap) →
      (0 < s.minRedeemAmount → 0 < f.minRedeemAmount) → (∀ o, o ≠ sender → p.isOperator o = s.isOperator o) →
      Configured sender s c { s with toRegistry := g, toSettings := f, toAccess := p }

section Configure

variable {d : Deployment} {env : Replies} {sender : Address} {s t : State} {c : Call} {ps : List Payout}

namespace Configured

theorem pools (g : Registry) (hc : c.SetsPools) : Configured sender s c { s with toRegistry := g } :=
  .mk g s.toSettings s.toAccess (.inl hc) (.inr rfl) id fun _ _ => rfl

theorem settings (f : Settings) (hcap : f.tvlCap = s.tvlCap) (hmin : f.minRedeemAmount = s.minRedeemAmount) :
    Configured sender s c { s with toSettings := f } :=
  .mk s.toRegistry f s.toAccess (.inr rfl) (.inr hcap) (fun hpos => hmin ▸ hpos) fun _ _ => rfl

theorem access (p : Access) (hp : ∀ o, o ≠ sender → p.isOperator o = s.isOperator o) :
    Configured sender s c { s with toAccess := p } :=
  .mk s.toRegistry s.toSettings p (.inr rfl) (.inr rfl) id hp

/-- A role says nothing of operators. -/
theorem role {role : Role} {account : Address} {value : Bool} :
    Configured sender s c (setRole s role account value) :=
  .access _ fun _ _ => rfl

end Configured

theorem Configured.of_run (hc : c.Configures) (h : c.run d env s sender = .ok (t, ps)) :
    Configured sender s c t ∧ ps = [] := by
  cases c with
  | setOperator operator approved =>
    simp only [Call.run, setOperator, bind_ok_iff, pure_ok_iff, Prod.mk.injEq] at h
    obtain ⟨_, ⟨_, -, rfl⟩, rfl, rfl⟩ := h
    exact ⟨.access _ fun o ho => Function.update_of_ne ho _ _, rfl⟩
  | setAutoClaim enabled =>
    cases h
    exact ⟨.access _ fun _ _ => rfl, rfl⟩
  | pauseDeposits =>
    simp only [Call.run, pauseDeposits, setDepositsPaused, bind_ok_iff, pure_ok_iff, Prod.mk.injEq] at h
    obtain ⟨_, ⟨_, -, rfl⟩, rfl, rfl⟩ := h
    exact ⟨.settings _ rfl rfl, rfl⟩
  | unpauseDeposits =>
    simp only [Call.run, unpauseDeposits, setDepositsPaused, bind_ok_iff, pure_ok_iff, Prod.mk.injEq] at h
    obtain ⟨_, ⟨_, -, rfl⟩, rfl, rfl⟩ := h
    exact ⟨.settings _ rfl rfl, rfl⟩
  | pause =>
    simp only [Call.run, MoneyMarket.pause, bind_ok_iff, pure_ok_iff, Prod.mk.injEq] at h
    obtain ⟨_, ⟨_, -, _, -, rfl⟩, rfl, rfl⟩ := h
    exact ⟨.settings _ rfl rfl, rfl⟩
  | unpause =>
    simp only [Call.run, MoneyMarket.unpause, bind_ok_iff, pure_ok_iff, Prod.mk.injEq] at h
    obtain ⟨_, ⟨_, -, _, -, rfl⟩, rfl, rfl⟩ := h
    exact ⟨.settings _ rfl rfl, rfl⟩
  | setTvlCap newCap =>
    simp only [Call.run, setTvlCap, bind_ok_iff, pure_ok_iff, Prod.mk.injEq] at h
    obtain ⟨_, ⟨_, -, _, -, _, -, rfl⟩, rfl, rfl⟩ := h
    exact ⟨.mk s.toRegistry _ s.toAccess (.inr rfl) (.inl ⟨newCap, rfl⟩) id fun _ _ => rfl, rfl⟩
  | setMinReinvestAmount amount =>
    simp only [Call.run, setMinReinvestAmount, bind_ok_iff, pure_ok_iff, Prod.mk.injEq] at h
    obtain ⟨_, ⟨_, -, rfl⟩, rfl, rfl⟩ := h
    exact ⟨.settings _ rfl rfl, rfl⟩
  | setMinRedeemAmount amount =>
    simp only [Call.run, setMinRedeemAmount, bind_ok_iff, require_ok_iff, pure_ok_iff, Prod.mk.injEq] at h
    obtain ⟨_, ⟨_, -, _, hne, rfl⟩, rfl, rfl⟩ := h
    have hpos : 0 < amount := Nat.pos_of_ne_zero hne
    exact ⟨.mk s.toRegistry _ s.toAccess (.inr rfl) (.inr rfl) (fun _ => hpos) fun _ _ => rfl, rfl⟩
  | setOracle oracle =>
    simp only [Call.run, setOracle, bind_ok_iff, pure_ok_iff, Prod.mk.injEq] at h
    obtain ⟨_, ⟨_, -, _, -, _, -, rfl⟩, rfl, rfl⟩ := h
    exact ⟨.settings _ rfl rfl, rfl⟩
  | setPrincipalMismatchBpsThreshold bps =>
    simp only [Call.run, setPrincipalMismatchBpsThreshold, bind_ok_iff, pure_ok_iff, Prod.mk.injEq] at h
    obtain ⟨_, ⟨_, -, _, -, rfl⟩, rfl, rfl⟩ := h
    exact ⟨.settings _ rfl rfl, rfl⟩
  | registerPool newPool =>
    simp only [Call.run, registerPoolCall, bind_ok_iff, pure_ok_iff, Prod.mk.injEq] at h
    obtain ⟨_, ⟨_, -, g, -, rfl⟩, rfl, rfl⟩ := h
    exact ⟨.pools g trivial, rfl⟩
  | setActiveDepositPool pool =>
    simp only [Call.run, setActiveDepositPool, bind_ok_iff, pure_ok_iff, Prod.mk.injEq] at h
    obtain ⟨_, ⟨_, -, _, -, rfl⟩, rfl, rfl⟩ := h
    exact ⟨.pools _ trivial, rfl⟩
  | retirePool pool =>
    simp only [Call.run, retirePool, bind_ok_iff, pure_ok_iff, Prod.mk.injEq] at h
    obtain ⟨_, ⟨_, -, _, -, _, -, _, -, _, -, rfl⟩, rfl, rfl⟩ := h
    exact ⟨.pools _ trivial, rfl⟩
  | grantRole role account =>
    simp only [Call.run, grantRole, bind_ok_iff, pure_ok_iff, Prod.mk.injEq] at h
    obtain ⟨_, ⟨_, -, rfl⟩, rfl, rfl⟩ := h
    exact ⟨.role, rfl⟩
  | revokeRole role account =>
    simp only [Call.run, revokeRole, bind_ok_iff, pure_ok_iff, Prod.mk.injEq] at h
    obtain ⟨_, ⟨_, -, rfl⟩, rfl, rfl⟩ := h
    exact ⟨.role, rfl⟩
  | renounceRole role account =>
    simp only [Call.run, renounceRole, bind_ok_iff, pure_ok_iff, Prod.mk.injEq] at h
    obtain ⟨_, ⟨_, -, rfl⟩, rfl, rfl⟩ := h
    exact ⟨.role, rfl⟩
  | _ => exact hc.elim

end Configure

end MoneyMarket
