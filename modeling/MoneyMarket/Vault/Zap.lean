/-
The zap that buys shares and supplies them as collateral in one transaction. A call of it is a call
of the vault with the caller's HOLLAR and the market's account as the receiver (`zap_transparent`),
and in every run beside the vault it keeps nothing of what passes through it, so that the whole
allowance it gave the vault is never there to be drawn (`zap_holds_nothing`).
-/
import MoneyMarket.Evm.Rows
import MoneyMarket.Vault.Bystander
import MoneyMarket.Vault.Replay

namespace MoneyMarket

open Evm Relational Transition

/-! ## The contract -/

/-- A zap beside the vault, with what it was deployed with and where its market keeps the shares. -/
structure BILDepositZap (d : Deployment) where
  self : Address
  pool : Address
  bilPrecompile : Address
  aToken : Address
  self_ne_zero : self ≠ 0
  self_ne_dead : self ≠ deadAddress
  self_ne_vault : self ≠ d.self
  self_ne_aToken : self ≠ aToken

/-- `POOL.supply(asset, amount, onBehalfOf, referralCode)`, on the ledger of the shares. -/
abbrev Supply := Address → Nat → Address → Nat → ERC20 → Tx ERC20

/-- The event of the same name. -/
structure DepositAndSupply where
  user : Address
  hollarAmount : Nat
  bilMinted : Nat

namespace BILDepositZap

variable {d : Deployment} (z : BILDepositZap d)

/-- The constructor, on the ledger of `hollar`. -/
def construct (hollar vault : Address) (token : ERC20) : Tx ERC20 := do
  require (hollar ≠ 0) (.reason "Zero HOLLAR")
  require (vault ≠ 0) (.reason "Zero VAULT")
  require (z.pool ≠ 0) (.reason "Zero POOL")
  require (z.bilPrecompile ≠ 0) (.reason "Zero precompile")
  token.approve z.self vault (uintSize - 1)

def depositAndSupply (env : Replies) (supply : Supply) (s : State) (sender : Address) (hollarAmount : Nat) :
    Tx (State × DepositAndSupply) := do
  let token ← s.token.transferFrom z.self sender z.self hollarAmount
  let (s, bilMinted) ← deposit d env { s with token } z.self hollarAmount z.self
  let bil ← supply z.bilPrecompile bilMinted sender 0 s.bil
  return ({ s with bil }, ⟨sender, hollarAmount, bilMinted⟩)

/-- The market takes what it accepts from the zap into its account, without an allowance: the precompile
lets it. Nothing else moves. -/
def Collects (accepts : Nat → Address → Nat → Bool) (supply : Supply) : Prop :=
  ∀ amount onBehalfOf referralCode bil after,
    supply z.bilPrecompile amount onBehalfOf referralCode bil = .ok after ↔
      accepts amount onBehalfOf referralCode = true ∧ (bil.transfer z.self z.aToken amount : Tx ERC20) = .ok after

end BILDepositZap

/-! ## Runs -/

inductive ZapAction where
  /-- A step of the vault, or of its ledger, that is not the zap's. -/
  | beside (a : Action)
  | depositAndSupply (sender : Address) (env : Replies) (supply : Supply) (hollarAmount : Nat)

/-- The vault from the deployment of the zap on. -/
def zapped {d : Deployment} (z : BILDepositZap d) : System State ZapAction where
  init s := ∃ s₀ token, Reachable d s₀ ∧ Aloof d z.self s₀ ∧ z.construct s₀.hollar d.self s₀.token = .ok token ∧
    s = { s₀ with token }
  next s a t :=
    match a with
    | .beside a => Absent z.self a ∧ (vault d).next s a t
    | .depositAndSupply sender env supply hollarAmount => sender ≠ z.self ∧ sender ≠ d.self ∧
        env.pool z.self = noPool ∧ (∃ accepts, z.Collects accepts supply) ∧
        ∃ e, z.depositAndSupply env supply s sender hollarAmount = .ok (t, e)

/-! ## A deposit beside other ledgers -/

section Deposit

variable {d : Deployment} {env : Replies} {s t : State} {u sender receiver : Address} {assets shares : Nat}

/-- The state with other shares, and another row of allowances of HOLLAR. -/
def State.relabelled (s : State) (bil : ERC20) (u : Address) (row : Address → Nat) : State :=
  { s with bil, token := s.token.withRow u row }

theorem poolDeposit_withRow {reply : PoolReply} {token : ERC20} {pool : Address} {row : Address → Nat}
    (hu : d.self ≠ u) : poolDeposit d reply (token.withRow u row) pool =
      (poolDeposit d reply token pool).map fun r => (r.1, r.2.withRow u row) := by
  unfold poolDeposit
  split
  · rfl
  · rename_i tokenId pulled _
    have hpull : Both (ERC20.SameRow u row) (token.transferFrom pool d.self pool pulled : Tx ERC20)
        ((token.withRow u row).transferFrom pool d.self pool pulled) := ERC20.transferFrom_withRow hu
    rcases hpull.sides with ⟨e, herror, herror'⟩ | ⟨after, _, hafter, hafter', rfl⟩
    · rw [herror, herror']; rfl
    · rw [hafter, hafter']; rfl

/-- The position a deposit opens depends neither on the shares nor on what `u` allows. -/
theorem depositIntoDecentral_relabelled {amount : Nat} (bil : ERC20) (row : Address → Nat) (hu : d.self ≠ u) :
    Both (fun r r' => r' = (r.1.relabelled bil u row, r.2)) (depositIntoDecentral d env s amount)
      (depositIntoDecentral d env (s.relabelled bil u row) amount) := by
  unfold depositIntoDecentral
  refine .same fun apyWad _ => .bind (ERC20.safeApprove_withRow hu) ?_
  rintro token₁ _ - - rfl
  refine .bind (ERC20.safeApprove_withRow hu) ?_
  rintro token₂ _ - - rfl
  rw [show (s.relabelled bil u row).activeDepositPool = s.activeDepositPool from rfl, poolDeposit_withRow hu]
  cases poolDeposit d (env.pool s.activeDepositPool) token₂ s.activeDepositPool with
  | none => exact .ok rfl
  | some r => exact .same fun period _ => .same fun book _ => .ok rfl

/-- The guards of a deposit, and what it does once they are met. -/
theorem deposit_ok_iff : deposit d env s sender assets receiver = .ok (t, shares) ↔
    s.paused = false ∧ receiver ≠ 0 ∧ validateAndPreviewShares s assets = .ok shares ∧
      hasMaturedBacklog s = false ∧ ∃ bil₀ bil token, bootstrap s.bil = .ok bil₀ ∧
        (bil₀.mint receiver shares : Tx ERC20) = .ok bil ∧
        (s.token.transferFrom d.self sender d.self assets : Tx ERC20) = .ok token ∧
        depositIntoDecentral d env { s with bil, token } assets = .ok (t, true) := by
  simp only [deposit, depositShares, whenNotPaused, requireNoMaturityBacklog, bind_ok_iff, require_ok_iff, pure_ok_iff,
    Prod.mk.injEq, Prod.exists]
  constructor
  · rintro ⟨_, hpaused, _, hreceiver, _, hshares, _, hbacklog, _, ⟨bil₀, hboot, bil, hmint, token, hpull, _, ok, hdep,
      _, rfl, rfl⟩, rfl, rfl⟩
    exact ⟨hpaused, hreceiver, hshares, hbacklog, bil₀, bil, token, hboot, hmint, hpull, hdep⟩
  · rintro ⟨hpaused, hreceiver, hshares, hbacklog, bil₀, bil, token, hboot, hmint, hpull, hdep⟩
    exact ⟨(), hpaused, (), hreceiver, _, hshares, (), hbacklog, _,
      ⟨bil₀, hboot, bil, hmint, token, hpull, _, _, hdep, (), rfl, rfl⟩, rfl, rfl⟩

theorem depositIntoDecentral_relabelled_iff {amount : Nat} {ok : Bool} (bil : ERC20) (row : Address → Nat)
    (hu : d.self ≠ u) : depositIntoDecentral d env (s.relabelled bil u row) amount = .ok (t, ok) ↔
      ∃ t₁, depositIntoDecentral d env s amount = .ok (t₁, ok) ∧ t = t₁.relabelled bil u row := by
  have hboth : Both _ (depositIntoDecentral d env s amount) _ := depositIntoDecentral_relabelled bil row hu
  rcases hboth.sides with ⟨e, herror, herror'⟩ | ⟨⟨t₁, ok₁⟩, _, hdep, hdep', rfl⟩
  · rw [herror, herror']
    constructor
    · intro h; cases h
    · rintro ⟨_, h, -⟩; cases h
  · rw [hdep, hdep']
    constructor
    · intro h
      cases h
      exact ⟨t₁, rfl, rfl⟩
    · rintro ⟨_, h, rfl⟩
      cases h
      rfl

theorem depositIntoDecentral_bil {amount : Nat} {ok : Bool} (h : depositIntoDecentral d env s amount = .ok (t, ok)) :
    t.bil = s.bil := by
  rcases depositIntoDecentral_ok h with ⟨-, _, rfl, -⟩ | ⟨-, _, _, _, _, rfl, -⟩ <;> rfl

/-- An account beside the vault that is no pool keeps the HOLLAR it has. -/
theorem depositIntoDecentral_keeps {amount : Nat} (hu : u ≠ d.self) (hpool : env.pool u = noPool)
    (h : depositIntoDecentral d env s amount = .ok (t, true)) : t.token.balanceOf u = s.token.balanceOf u := by
  simp only [depositIntoDecentral, bind_ok_iff, returned_ok_iff, ERC20.safeApprove_ok_iff] at h
  obtain ⟨apyWad, -, _, ⟨-, -, -, rfl⟩, _, ⟨-, -, -, rfl⟩, h⟩ := h
  split at h
  · cases h
  · rename_i tokenId token hdep
    simp only [bind_ok_iff, pure_ok_iff, Prod.mk.injEq] at h
    obtain ⟨period, -, book, -, rfl, -⟩ := h
    unfold poolDeposit at hdep
    split at hdep
    · cases hdep
    · rename_i pulled hreply
      split at hdep
      · rename_i hpull
        cases hdep
        have hne : u ≠ s.activeDepositPool := by
          rintro rfl
          rw [hpool] at hreply
          cases hreply
        obtain ⟨-, -, -, hbalances, -⟩ := ERC20.transferFrom_ok hpull
        show token.balanceOf u = _
        rw [hbalances]
        exact ERC20.move_other _ _ hu hne
      · cases hdep

end Deposit

/-! ## One call -/

section Call

variable {d : Deployment} {z : BILDepositZap d} {env : Replies} {supply : Supply}
  {accepts : Nat → Address → Nat → Bool} {s t : State} {sender : Address} {hollarAmount : Nat} {e : DepositAndSupply}

/-- The state in which `sender` lets the vault draw all it has. -/
def State.approving (s : State) (d : Deployment) (sender : Address) : State :=
  { s with token := s.token.setAllowance sender d.self (uintSize - 1) }

namespace BILDepositZap

/-- The two draws are one draw of the vault on the caller, and the zap's allowance is spent. -/
theorem draws_iff {token token₂ : ERC20} (hmax : token.allowance z.self d.self = uintSize - 1)
    (hsender : sender ≠ z.self) :
    (∃ token₁, (token.transferFrom z.self sender z.self hollarAmount : Tx ERC20) = .ok token₁ ∧
      (token₁.transferFrom d.self z.self d.self hollarAmount : Tx ERC20) = .ok token₂) ↔
      token.Allows sender z.self hollarAmount ∧ ∃ direct,
        ((token.setAllowance sender d.self (uintSize - 1)).transferFrom d.self sender d.self hollarAmount : Tx ERC20) =
          .ok direct ∧ token₂ = direct.withRow sender (token.spentRow sender z.self hollarAmount) := by
  have hmax₁ : ((token.move sender z.self hollarAmount).withRow sender
      (token.spentRow sender z.self hollarAmount)).allowance z.self d.self = uintSize - 1 := by
    rw [ERC20.withRow_other hsender.symm]
    exact hmax
  have hthrough : ((token.move sender z.self hollarAmount).withRow sender
      (token.spentRow sender z.self hollarAmount)).move z.self d.self hollarAmount =
        ((token.setAllowance sender d.self (uintSize - 1)).move sender d.self hollarAmount).withRow sender
          (token.spentRow sender z.self hollarAmount) := by
    show ((token.move sender z.self hollarAmount).move z.self d.self hollarAmount).withRow sender _ = _
    rw [ERC20.move_through hsender z.self_ne_vault, ERC20.setAllowance_row]
    exact (ERC20.withRow_again _ _).symm
  simp only [ERC20.transferFrom_ok_iff z.self_ne_zero,
    ERC20.transferFrom_max_iff (ERC20.setAllowance_self token sender d.self (uintSize - 1))]
  constructor
  · rintro ⟨_, ⟨hallows, hzero, -, hcovered, rfl⟩, hpull⟩
    obtain ⟨-, hself, -, rfl⟩ := (ERC20.transferFrom_max_iff hmax₁).1 hpull
    exact ⟨hallows, _, ⟨hzero, hself, hcovered, rfl⟩, hthrough⟩
  · rintro ⟨hallows, _, ⟨hzero, hself, hcovered, rfl⟩, rfl⟩
    refine ⟨_, ⟨hallows, hzero, z.self_ne_zero, hcovered, rfl⟩,
      (ERC20.transferFrom_max_iff hmax₁).2 ⟨z.self_ne_zero, hself, ?_, hthrough⟩⟩
    -- the zap has just been given the amount
    show hollarAmount ≤ (token.move sender z.self hollarAmount).balanceOf z.self
    rw [ERC20.move_target _ _ _ _ hsender.symm]
    exact Nat.le_add_left _ _

/-- What the market gets through the zap it could be given by the vault. -/
theorem passes_iff {bil bil₂ : ERC20} {shares : Nat} :
    (∃ bil₁, (bil.mint z.self shares : Tx ERC20) = .ok bil₁ ∧
      (bil₁.transfer z.self z.aToken shares : Tx ERC20) = .ok bil₂) ↔
      (bil.mint z.aToken shares : Tx ERC20) = .ok bil₂ := by
  simp only [ERC20.mint_ok_iff, ERC20.transfer_ok_iff]
  constructor
  · rintro ⟨_, ⟨-, hsupply, rfl⟩, -, haToken, -, rfl⟩
    exact ⟨haToken, hsupply, (ERC20.mint_through z.self_ne_aToken shares).symm⟩
  · rintro ⟨haToken, hsupply, rfl⟩
    refine ⟨_, ⟨z.self_ne_zero, hsupply, rfl⟩, z.self_ne_zero, haToken, ?_, ERC20.mint_through z.self_ne_aToken shares⟩
    show shares ≤ Function.update bil.balanceOf z.self (bil.balanceOf z.self + shares) z.self
    rw [Function.update_self]
    exact Nat.le_add_left _ _

/-- A call of the zap is a call of the vault for the market's account. -/
theorem depositAndSupply_ok_iff (hmarket : z.Collects accepts supply)
    (hmax : s.token.allowance z.self d.self = uintSize - 1) (hsender : sender ≠ z.self) (hvault : sender ≠ d.self) :
    z.depositAndSupply env supply s sender hollarAmount = .ok (t, e) ↔
      s.token.Allows sender z.self hollarAmount ∧ e.user = sender ∧ e.hollarAmount = hollarAmount ∧
        accepts e.bilMinted sender 0 = true ∧ ∃ t₁,
          deposit d env (s.approving d sender) sender hollarAmount z.aToken = .ok (t₁, e.bilMinted) ∧
          t = { t₁ with token := t₁.token.withRow sender (s.token.spentRow sender z.self hollarAmount) } := by
  constructor
  · intro h
    simp only [depositAndSupply, bind_ok_iff, Prod.exists, hmarket _, pure_ok_iff, Prod.mk.injEq] at h
    obtain ⟨token₁, hpull, s₁, shares, hdep, bil₂, ⟨haccepts, hpass⟩, rfl, rfl⟩ := h
    obtain ⟨hpaused, -, hshares, hbacklog, bil₀, bil, token₂, hboot, hmint, hpull₂, hopen⟩ := deposit_ok_iff.1 hdep
    obtain ⟨hallows, direct, hdirect, rfl⟩ := (draws_iff hmax hsender).1 ⟨token₁, hpull, hpull₂⟩
    obtain ⟨t₁, hopen₁, rfl⟩ := (depositIntoDecentral_relabelled_iff (s := { s with bil := bil₂, token := direct }) bil
      (s.token.spentRow sender z.self hollarAmount) hvault.symm).1 hopen
    have hpassed := passes_iff.1 ⟨bil, hmint, hpass⟩
    refine ⟨hallows, rfl, rfl, haccepts, t₁, deposit_ok_iff.2 ⟨hpaused, (ERC20.mint_ok_iff.1 hpassed).1, hshares,
      hbacklog, bil₀, bil₂, direct, hboot, hpassed, hdirect, hopen₁⟩, ?_⟩
    have hbil : t₁.bil = bil₂ := depositIntoDecentral_bil hopen₁
    rw [← hbil]
    rfl
  · rintro ⟨hallows, rfl, rfl, haccepts, t₁, hdep, rfl⟩
    obtain ⟨hpaused, -, hshares, hbacklog, bil₀, bil₂, direct, hboot, hpassed, hdirect, hopen₁⟩ := deposit_ok_iff.1 hdep
    obtain ⟨bil, hmint, hpass⟩ := passes_iff.2 hpassed
    obtain ⟨token₁, hpull, hpull₂⟩ := (draws_iff hmax hsender).2 ⟨hallows, direct, hdirect, rfl⟩
    have hopen := (depositIntoDecentral_relabelled_iff (s := { s with bil := bil₂, token := direct }) bil
      (s.token.spentRow e.user z.self e.hollarAmount) hvault.symm).2 ⟨t₁, hopen₁, rfl⟩
    simp only [depositAndSupply, bind_ok_iff, Prod.exists, hmarket _, pure_ok_iff, Prod.mk.injEq]
    refine ⟨token₁, hpull, _, _, deposit_ok_iff.2 ⟨hpaused, z.self_ne_zero, hshares, hbacklog, bil₀, bil, _, hboot,
      hmint, hpull₂, hopen⟩, bil₂, ⟨haccepts, hpass⟩, ?_, rfl⟩
    have hbil : t₁.bil = bil₂ := depositIntoDecentral_bil hopen₁
    rw [← hbil]
    rfl

/-- A call of the zap leaves it what it had. -/
theorem depositAndSupply_keeps (hmarket : z.Collects accepts supply)
    (hmax : s.token.allowance z.self d.self = uintSize - 1) (hsender : sender ≠ z.self)
    (hvault : sender ≠ d.self) (hpool : env.pool z.self = noPool)
    (h : z.depositAndSupply env supply s sender hollarAmount = .ok (t, e)) :
    t.token.balanceOf z.self = s.token.balanceOf z.self ∧ t.bil.balanceOf z.self = s.bil.balanceOf z.self := by
  obtain ⟨-, -, -, -, t₁, hdep, rfl⟩ := (depositAndSupply_ok_iff hmarket hmax hsender hvault).1 h
  obtain ⟨-, -, -, -, bil₀, bil₂, direct, hboot, hmint, hpull, hopen⟩ := deposit_ok_iff.1 hdep
  obtain ⟨-, -, -, rfl⟩ := (ERC20.transferFrom_max_iff (ERC20.setAllowance_self ..)).1 hpull
  constructor
  · show t₁.token.balanceOf z.self = _
    rw [depositIntoDecentral_keeps z.self_ne_vault hpool hopen]
    exact ERC20.move_other _ _ hsender.symm z.self_ne_vault
  · show t₁.bil.balanceOf z.self = _
    rw [depositIntoDecentral_bil hopen]
    obtain ⟨-, -, rfl⟩ := ERC20.mint_ok_iff.1 hmint
    have hbalance : bil₀.balanceOf z.self = s.bil.balanceOf z.self := by
      unfold bootstrap at hboot
      split at hboot
      · obtain ⟨-, -, rfl⟩ := ERC20.mint_ok_iff.1 hboot
        exact Function.update_of_ne z.self_ne_dead _ _
      · cases hboot; rfl
    rw [← hbalance]
    exact Function.update_of_ne z.self_ne_aToken _ _

/-- Nor is it disturbed. -/
theorem depositAndSupply_intact (hmarket : z.Collects accepts supply)
    (hmax : s.token.allowance z.self d.self = uintSize - 1) (haloof : Aloof d z.self s)
    (hsender : sender ≠ z.self) (hvault : sender ≠ d.self) (hpool : env.pool z.self = noPool)
    (h : z.depositAndSupply env supply s sender hollarAmount = .ok (t, e)) : Intact z.self s t := by
  obtain ⟨-, -, -, -, t₁, hdep, rfl⟩ := (depositAndSupply_ok_iff hmarket hmax hsender hvault).1 h
  have happroved : Intact z.self s (s.approving d sender) :=
    ⟨setAllowance_spares hsender.symm, .refl _ _, fun _ => rfl⟩
  have hdirect : Intact z.self (s.approving d sender) t₁ := by
    apply step_spares (a := .call sender env (.deposit hollarAmount z.aToken)) (haloof.intact happroved)
      z.self_ne_vault z.self_ne_zero ⟨hsender, hpool⟩ hvault
    simp only [step, Call.run, hdep]
    rfl
  have hrow : Intact z.self t₁
      { t₁ with token := t₁.token.withRow sender (s.token.spentRow sender z.self hollarAmount) } :=
    ⟨⟨le_refl _, ERC20.withRow_other hsender.symm⟩, .refl _ _, fun _ => rfl⟩
  exact (happroved.trans hdirect).trans hrow

/-- It is three transactions of the zap: a draw of HOLLAR, a deposit and a transfer of shares. -/
theorem depositAndSupply_runs (hmarket : z.Collects accepts supply) (hvault : sender ≠ d.self)
    (h : z.depositAndSupply env supply s sender hollarAmount = .ok (t, e)) : (vault d).Leads s t := by
  simp only [depositAndSupply, bind_ok_iff, Prod.exists, hmarket _, pure_ok_iff, Prod.mk.injEq] at h
  obtain ⟨token, hpull, s₁, shares, hdep, bil, ⟨-, hpass⟩, rfl, -⟩ := h
  have hdraw : (vault d).next s (.hollar z.self (.transferFrom sender z.self hollarAmount)) { s with token } := by
    refine ⟨⟨z.self_ne_vault, hvault⟩, [], ?_⟩
    simp only [step, ERC20.call, hpull]
    rfl
  have hdeposit : (vault d).next { s with token } (.call z.self env (.deposit hollarAmount z.self)) s₁ := by
    refine ⟨z.self_ne_vault, [], ?_⟩
    simp only [step, Call.run, hdep]
    rfl
  have hshares : (vault d).next s₁ (.call z.self env (.share (.transfer z.aToken shares))) { s₁ with bil } := by
    refine ⟨z.self_ne_vault, [], ?_⟩
    simp only [step, Call.run, ERC20.call, hpass]
    rfl
  exact .head ⟨_, hdraw⟩ (.head ⟨_, hdeposit⟩ (.single ⟨_, hshares⟩))

end BILDepositZap

end Call

/-! ## Every run -/

section Runs

variable {d : Deployment} {z : BILDepositZap d} {s t : State} {a : ZapAction}

/-- What the zap's deployment sets up. -/
structure Deployed (z : BILDepositZap d) (s : State) : Prop where
  reached : Reachable d s
  aloof : Aloof d z.self s
  approved : s.token.allowance z.self d.self = uintSize - 1

theorem Deployed.init (h : (zapped z).init s) : Deployed z s := by
  obtain ⟨s₀, token, hs₀, haloof, hconstruct, rfl⟩ := h
  simp only [BILDepositZap.construct, bind_ok_iff, require_ok_iff, exists_const] at hconstruct
  obtain ⟨-, -, -, -, happrove⟩ := hconstruct
  have hnext : (vault d).next s₀ (.hollar z.self (.approve d.self (uintSize - 1))) { s₀ with token } := by
    refine ⟨⟨z.self_ne_vault, id⟩, [], ?_⟩
    simp only [step, ERC20.call, happrove]
    rfl
  obtain ⟨-, -, rfl⟩ := ERC20.approve_ok_iff.1 happrove
  refine ⟨.step _ hs₀ hnext, ⟨haloof.unapproved, haloof.unoperated, fun x hx => ?_⟩, ERC20.setAllowance_self ..⟩
  rw [ERC20.setAllowance_row, ERC20.withRow_self, Function.update_of_ne hx]
  exact haloof.undrawn x hx

theorem Deployed.intact (h : Deployed z s) (ht : Reachable d t) (hst : Intact z.self s t) :
    Deployed z t := by
  refine ⟨ht, h.aloof.intact hst, ?_⟩
  rw [hst.hollar.allowance]
  exact h.approved

/-- One step beside the zap, or one call of it. -/
theorem Deployed.step (h : Deployed z s) (hnext : (zapped z).next s a t) :
    Deployed z t ∧ Intact z.self s t := by
  cases a with
  | beside a =>
    obtain ⟨habsent, hstep⟩ := hnext
    have hst : Intact z.self s t := by
      obtain ⟨hlegal, ps, hrun⟩ := hstep
      exact step_spares h.aloof z.self_ne_vault z.self_ne_zero habsent hlegal hrun
    exact ⟨h.intact (.step _ h.reached hstep) hst, hst⟩
  | depositAndSupply sender env supply hollarAmount =>
    obtain ⟨hsender, hvault, hpool, ⟨accepts, hmarket⟩, e, hcall⟩ := hnext
    have hst := BILDepositZap.depositAndSupply_intact hmarket h.approved h.aloof hsender hvault hpool hcall
    exact ⟨h.intact (h.reached.leads (BILDepositZap.depositAndSupply_runs hmarket hvault hcall)) hst, hst⟩

theorem deployed (h : (zapped z).Reach s) : Deployed z s :=
  h.invariant (fun _ => Deployed.init) fun _ _ _ _ hi hn => (hi.step hn).1

end Runs

/-! ## A zap to replay on -/

deriving instance DecidableEq for PoolReply

instance (u : Address) (a : Action) : Decidable (Absent u a) :=
  match a with
  | .tick _ => inferInstanceAs (Decidable True)
  | .call sender env _ => inferInstanceAs (Decidable (sender ≠ u ∧ env.pool u = noPool))
  | .hollar sender _ => inferInstanceAs (Decidable (sender ≠ u))
  | .hollarMint _ _ => inferInstanceAs (Decidable True)
  | .hollarBurn account _ => inferInstanceAs (Decidable (account ≠ u))

/-- One action of a run beside the zap, without its own calls: a market is no datum to run. -/
def zapStep {d : Deployment} (z : BILDepositZap d) (s : State) : ZapAction → Option State
  | .beside a => replayStep d (fun _ a => Absent z.self a) s a
  | .depositAndSupply .. => none

theorem zapStep_sound {d : Deployment} {z : BILDepositZap d} {s t : State} {a : ZapAction}
    (h : zapStep z s a = some t) : (zapped z).next s a t := by
  cases a with
  | beside a => exact replayStep_sound (C := fun _ a => Absent z.self a) h
  | depositAndSupply => cases h

def demoZap : BILDepositZap demo := ⟨0x2a9, 0x900, 0xb11, 0xa70, by decide, by decide, by decide, by decide⟩

/-- The pool of the demo, which the zap is not. -/
def zapReplies : Replies where
  pool a := if a = demoZap.self then noPool else (demoReplies (10 ^ 17) 1000 (some (10 ^ 20)) none none).pool a
  feed _ := ⟨none, none⟩

/-- A market that accepts all it is given. -/
def demoMarket : Supply := fun _ amount _ _ bil => bil.transfer demoZap.self demoZap.aToken amount

theorem demoMarket_collects : demoZap.Collects (fun _ _ _ => true) demoMarket :=
  fun _ _ _ _ _ => ⟨fun h => ⟨rfl, h⟩, fun h => h.2⟩

/-- The vault and the zap are deployed, and alice lets the zap draw 100 HOLLAR. -/
def demoZapped : Option State :=
  match initializeVault demoQuiet demoSetup emptyLedger 0 with
  | .ok s =>
    match demoZap.construct s.hollar demo.self s.token with
    | .ok token => System.exec (zapStep demoZap) { s with token }
        [.beside (.hollarMint alice (10 ^ 24)), .beside (.hollar alice (.approve demoZap.self (10 ^ 20)))]
    | .error _ => none
  | .error _ => none

theorem demoZapped_reach {s : State} (h : demoZapped = some s) : (zapped demoZap).Reach s := by
  unfold demoZapped at h
  split at h
  · rename_i s₀ hinit
    split at h
    · rename_i token hconstruct
      refine .exec (fun _ _ _ => zapStep_sound) (.init ⟨s₀, token, ?_, ?_, hconstruct, rfl⟩) h
      · exact .init ⟨demoQuiet, demoSetup, emptyLedger, 0, .empty, hinit⟩
      · obtain ⟨g, c, p, hop, -, rfl⟩ := initializeVault_ok hinit
        exact ⟨fun _ => rfl, hop _, fun _ _ => rfl⟩
    · cases h
  · cases h

/-- Alice zaps 100 HOLLAR into the market. -/
theorem demoZap_goes : ∃ s t e, (zapped demoZap).Reach s ∧
    demoZap.depositAndSupply zapReplies demoMarket s alice (10 ^ 20) = .ok (t, e) ∧
    e.bilMinted = 10 ^ 20 - deadShares := by
  have hrun : demoZapped.any (fun s =>
      passes (demoZap.depositAndSupply zapReplies demoMarket s alice (10 ^ 20))
        fun r => decide (r.2.bilMinted = 10 ^ 20 - deadShares)) = true := by decide +kernel
  obtain ⟨s, hs, hpasses⟩ := (Option.any_eq_true _ _).1 hrun
  obtain ⟨⟨t, e⟩, hcall, hminted⟩ := passes_ok hpasses
  exact ⟨s, t, e, demoZapped_reach hs, hcall, of_decide_eq_true hminted⟩

/-! ## What the zap does -/

section Results

variable {d : Deployment} {z : BILDepositZap d} {s t : State}

/-- In every run beside the zap, a call of it with a market that takes just what it accepts goes through
for exactly those who let it draw the amount and whose own deposit for the market's account would go
through, of an amount the market accepts; it mints as many shares, and leaves what that deposit leaves
but for what the caller allows. -/
theorem zap_transparent {env : Replies} {supply : Supply} {accepts : Nat → Address → Nat → Bool} {sender : Address}
    {hollarAmount : Nat} {e : DepositAndSupply} (h : (zapped z).Reach s) (hmarket : z.Collects accepts supply)
    (hsender : sender ≠ z.self) (hvault : sender ≠ d.self) :
    z.depositAndSupply env supply s sender hollarAmount = .ok (t, e) ↔
      s.token.Allows sender z.self hollarAmount ∧ e.user = sender ∧ e.hollarAmount = hollarAmount ∧
        accepts e.bilMinted sender 0 = true ∧ ∃ t₁,
          deposit d env (s.approving d sender) sender hollarAmount z.aToken = .ok (t₁, e.bilMinted) ∧
          t = { t₁ with token := t₁.token.withRow sender (s.token.spentRow sender z.self hollarAmount) } :=
  BILDepositZap.depositAndSupply_ok_iff hmarket (deployed h).approved hsender hvault

/-- Alice could have deposited the 100 HOLLAR herself. -/
theorem zap_transparent_demo : ∃ s t₁, (zapped demoZap).Reach s ∧
    deposit demo zapReplies (s.approving demo alice) alice (10 ^ 20) demoZap.aToken =
      .ok (t₁, 10 ^ 20 - deadShares) := by
  obtain ⟨s, t, e, hs, hcall, hminted⟩ := demoZap_goes
  obtain ⟨-, -, -, -, t₁, hdep, -⟩ := (zap_transparent hs demoMarket_collects (by decide) (by decide)).1 hcall
  exact ⟨s, t₁, hs, hminted ▸ hdep⟩

/-- In every run beside the zap: the states are states of runs of the vault, the vault alone may draw on
the zap, and draws nothing it holds. Nobody takes HOLLAR or shares from it at any later time, and its
own calls leave it with what it had. -/
theorem zap_holds_nothing (h : (zapped z).Reach s) :
    Reachable d s ∧ s.token.allowance z.self d.self = uintSize - 1 ∧
      (∀ spender, spender ≠ d.self → s.token.allowance z.self spender = 0) ∧
      (∀ spender, s.bil.allowance z.self spender = 0) ∧
      (∀ t, (zapped z).Leads s t →
        s.token.balanceOf z.self ≤ t.token.balanceOf z.self ∧ s.bil.balanceOf z.self ≤ t.bil.balanceOf z.self) ∧
      ∀ sender env supply hollarAmount t, (zapped z).next s (.depositAndSupply sender env supply hollarAmount) t →
        t.token.balanceOf z.self = s.token.balanceOf z.self ∧ t.bil.balanceOf z.self = s.bil.balanceOf z.self := by
  have hs := deployed h
  refine ⟨hs.reached, hs.approved, hs.aloof.undrawn, hs.aloof.unapproved, fun t hleads => ?_, ?_⟩
  · have hrun : Intact z.self s t := by
      refine hleads.invariant (I := Intact z.self s) h (fun u _ v hu hi hn => hi.trans ?_)
        ⟨.refl _ _, .refl _ _, fun _ => rfl⟩
      exact ((deployed hu).step hn).2
    exact ⟨hrun.hollar.balance, hrun.shares.balance⟩
  · rintro sender env supply hollarAmount t ⟨hsender, hvault, hpool, ⟨accepts, hmarket⟩, e, hcall⟩
    exact BILDepositZap.depositAndSupply_keeps hmarket hs.approved hsender hvault hpool hcall

/-- The 100 HOLLAR of alice leave nothing behind. -/
theorem zap_holds_nothing_demo : ∃ s t e,
    demoZap.depositAndSupply zapReplies demoMarket s alice (10 ^ 20) = .ok (t, e) ∧
    e.bilMinted = 10 ^ 20 - deadShares ∧ t.token.balanceOf demoZap.self = s.token.balanceOf demoZap.self ∧
    t.bil.balanceOf demoZap.self = s.bil.balanceOf demoZap.self := by
  obtain ⟨s, t, e, hs, hcall, hminted⟩ := demoZap_goes
  obtain ⟨-, -, -, -, -, hkeeps⟩ := zap_holds_nothing hs
  have hpool : zapReplies.pool demoZap.self = noPool := by decide
  exact ⟨s, t, e, hcall, hminted, hkeeps _ _ _ _ _ ⟨by decide, by decide, hpool, ⟨_, demoMarket_collects⟩, e, hcall⟩⟩

end Results

end MoneyMarket
