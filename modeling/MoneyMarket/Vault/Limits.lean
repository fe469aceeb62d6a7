/-
The limits of deposits and mints. `maxDeposit` is the most that the pauses, the maturity backlog and the
cap let in. `maxMint` converts it without the dead shares of a first deposit, so it is the most shares
they let in where there are active shares already, or nothing is let in at all (`limits_exact_iff`).
-/
import MoneyMarket.Evm.Reverts
import MoneyMarket.Vault.Quotes

namespace MoneyMarket

open Evm

/-- The reverts of the limits. -/
def IsLimit : Revert VaultError → Prop
  | .reason text => text = "Pausable: paused"
  | .custom error => error = .depositsArePaused ∨ error = .maturityBacklog ∨ error = .exceedsTvlCap
  | _ => False

/-- The limits let `assets` in. -/
structure Admits (s : State) (assets : Nat) : Prop where
  unpaused : s.paused = false
  depositsOpen : s.depositsPaused = false
  noBacklog : hasMaturedBacklog s = false
  underCap : ∃ total, totalAssets s = .ok total ∧ total + assets ≤ s.tvlCap

/-- The assets that a mint of `shares` costs, whatever the size of the intermediate products. -/
def mintCost (s : State) (shares : Nat) : Nat :=
  if activeSupply s = 0 then shares + deadShares else (shares * activeValue s) ⌈/⌉ activeSupply s

/-! ## Reverts -/

section Reverts

variable {d : Deployment} {env : Replies} {s : State} {sender receiver : Address} {assets shares : Nat}

/-- Arithmetic reverts with panics. -/
theorem checked_avoids (a b : Nat) :
    Avoids IsLimit (checkedAdd a b) ∧ Avoids IsLimit (checkedSub a b) ∧ Avoids IsLimit (checkedMul a b) ∧
      Avoids IsLimit (checkedDiv a b) :=
  ⟨avoids_checkedAdd id, avoids_checkedSub id, avoids_checkedMul id, avoids_checkedDiv id⟩

theorem accruedYield_avoids : Avoids IsLimit (accruedYield s) := by
  unfold accruedYield
  split_ifs
  · refine avoids_bind_iff.2 ⟨(checked_avoids _ _).2.2.1, fun gross _ => ?_⟩
    split_ifs
    · exact (checked_avoids _ _).2.2.2
    · exact avoids_pure _
  · exact avoids_pure _

theorem totalAssets_avoids : Avoids IsLimit (totalAssets s) := by
  simp only [totalAssets, avoids_bind_iff, checked_avoids, accruedYield_avoids, implies_true, and_self]

theorem activeAssets_avoids : Avoids IsLimit (activeAssets s) := by
  simp only [activeAssets, avoids_bind_iff, totalAssets_avoids, avoids_pure, implies_true, and_self]

theorem previewMint_avoids : Avoids IsLimit (previewMint s shares) := by
  unfold previewMint
  split_ifs
  · exact (checked_avoids _ _).1
  · simp only [avoids_bind_iff, activeAssets_avoids, checked_avoids, implies_true, and_self]

/-- The token gives reasons of its own. -/
theorem transfer_avoids {t : ERC20} {a b : Address} {n : Nat} : Avoids IsLimit (t.transfer a b n : Tx ERC20) := by
  simp [ERC20.transfer, IsLimit]

theorem mint_avoids {t : ERC20} {a : Address} {n : Nat} : Avoids IsLimit (t.mint a n : Tx ERC20) := by
  simp [ERC20.mint, IsLimit, checked_avoids]

theorem approve_avoids {t : ERC20} {a b : Address} {n : Nat} : Avoids IsLimit (t.approve a b n : Tx ERC20) := by
  simp [ERC20.approve, IsLimit]

theorem safeApprove_avoids {t : ERC20} {a b : Address} {n : Nat} : Avoids IsLimit (t.safeApprove a b n : Tx ERC20) := by
  simp [ERC20.safeApprove, IsLimit, approve_avoids]

theorem transferFrom_avoids {t : ERC20} {spender a b : Address} {n : Nat} :
    Avoids IsLimit (t.transferFrom spender a b n : Tx ERC20) := by
  refine avoids_bind_iff.2 ⟨?_, fun _ _ => transfer_avoids⟩
  unfold ERC20.spendAllowance
  split_ifs
  · exact avoids_ok _
  · simp [IsLimit, approve_avoids]

/-- Recording a position checks its own limits. -/
theorem recordPosition_avoids {b : Book} {pool : Address} {tokenId apyWad amount period timestamp : Nat} :
    Avoids IsLimit (recordPosition b pool tokenId apyWad amount period timestamp) := by
  have hread : ∀ (positions : List NFTPosition) (i : Nat), Avoids IsLimit (readAt positions i) := avoids_readAt id
  simp [recordPosition, addToBucket, pushMaturity, IsLimit, checked_avoids, hread]

theorem depositIntoDecentral_avoids {amount : Nat} : Avoids IsLimit (depositIntoDecentral d env s amount) := by
  simp only [depositIntoDecentral, avoids_bind_iff]
  refine ⟨avoids_returned id _, fun _ _ => ⟨safeApprove_avoids, fun _ _ => ⟨safeApprove_avoids, fun token _ => ?_⟩⟩⟩
  split
  · exact avoids_pure _
  · simp only [avoids_bind_iff, avoids_pure, implies_true, and_true]
    exact ⟨avoids_returned id _, fun _ _ => recordPosition_avoids⟩

theorem depositShares_avoids : Avoids IsLimit (depositShares d env s sender receiver assets shares) := by
  have hboot : Avoids IsLimit (bootstrap s.bil) := by
    unfold bootstrap
    split_ifs
    · exact mint_avoids
    · exact avoids_pure _
  simp only [depositShares, avoids_bind_iff, avoids_pure, avoids_require_iff, implies_true, and_true]
  refine ⟨hboot, fun _ _ => ⟨mint_avoids, fun _ _ => ⟨transferFrom_avoids, fun _ _ =>
    ⟨depositIntoDecentral_avoids, fun r _ => .inr ?_⟩⟩⟩⟩
  simp [IsLimit]

/-- What the limits let in they do not turn away. -/
theorem Admits.validates (h : Admits s assets) : Avoids IsLimit (validateDeposit s assets) := by
  obtain ⟨total, htotal, hcap⟩ := h.underCap
  simp only [validateDeposit, avoids_bind_iff, avoids_require_iff]
  refine ⟨.inl h.depositsOpen, fun _ _ => ⟨.inr (by simp [IsLimit]), fun _ _ =>
    ⟨totalAssets_avoids, fun total' ht => ?_⟩⟩⟩
  cases htotal.symm.trans ht
  refine ⟨(checked_avoids _ _).1, fun after hafter => .inl ?_⟩
  obtain ⟨-, rfl⟩ := checkedAdd_ok_iff.1 hafter
  exact hcap

theorem previewDeposit_avoids : Avoids IsLimit (previewDeposit s assets) := by
  simp only [previewDeposit, avoids_bind_iff, avoids_require_iff]
  refine ⟨.inr (by simp [IsLimit]), fun _ _ => ?_⟩
  split_ifs
  · simp [IsLimit, checked_avoids]
  · simp [IsLimit, checked_avoids, activeAssets_avoids]

/-- Neither does the price. -/
theorem Admits.prices (h : Admits s assets) : Avoids IsLimit (validateAndPreviewShares s assets) := by
  cases hvalid : validateDeposit s assets with
  | error e =>
    unfold validateAndPreviewShares
    rw [hvalid]
    exact avoids_error_iff.2 (h.validates e hvalid)
  | ok _ =>
    rw [validateAndPreviewShares_eq hvalid]
    exact previewDeposit_avoids

/-- A deposit that the limits let in is not turned away by them. -/
theorem Admits.deposit (h : Admits s assets) : Avoids IsLimit (deposit d env s sender assets receiver) := by
  simp only [MoneyMarket.deposit, whenNotPaused, requireNoMaturityBacklog, avoids_bind_iff, avoids_require_iff,
    avoids_pure, implies_true, and_true]
  exact ⟨.inl h.unpaused, fun _ _ => ⟨.inr (by simp [IsLimit]), fun _ _ => ⟨h.prices, fun _ _ => ⟨.inl h.noBacklog,
    fun _ _ => depositShares_avoids⟩⟩⟩⟩

/-- And one that goes through they have let in. -/
theorem Admits.of_deposit {r : State × Nat} (h : MoneyMarket.deposit d env s sender assets receiver = .ok r) :
    Admits s assets := by
  obtain ⟨t, shares⟩ := r
  have hcap := (deposit_outlay h).1
  simp only [MoneyMarket.deposit, whenNotPaused, requireNoMaturityBacklog, bind_ok_iff, require_ok_iff] at h
  obtain ⟨_, hpaused, _, -, _, hprice, _, hnone, -⟩ := h
  have hvalid := (validateAndPreviewShares_ok_iff.1 hprice).1
  simp only [validateDeposit, bind_ok_iff, require_ok_iff] at hvalid
  obtain ⟨_, hopen, -⟩ := hvalid
  exact ⟨hpaused, hopen, hnone, hcap⟩

/-- What a mint is quoted at is its cost. -/
theorem previewMint_cost (hy : YieldBook s.now s.toBook) {cost : Nat} (h : previewMint s shares = .ok cost) :
    cost = mintCost s shares := by
  unfold mintCost
  split_ifs with hsupply
  · exact ((previewMint_first hsupply).1 h).2.symm
  · obtain ⟨active, hactive⟩ : ∃ active, activeAssets s = .ok active := by
      unfold previewMint at h
      rw [if_neg hsupply] at h
      simp only [bind_ok_iff] at h
      exact h.imp fun _ h => h.1
    rw [← activeAssets_value hy hactive]
    exact ((previewMint_active hsupply hactive).1 h).2.symm

/-- The same for a mint, and its cost. -/
theorem Admits.mint (hy : YieldBook s.now s.toBook) (h : Admits s (mintCost s shares)) :
    Avoids IsLimit (mint d env s sender shares receiver) := by
  simp only [MoneyMarket.mint, whenNotPaused, requireNoMaturityBacklog, avoids_bind_iff, avoids_require_iff,
    avoids_pure, implies_true, and_true]
  refine ⟨.inl h.unpaused, fun _ _ => ⟨.inr (by simp [IsLimit]), fun _ _ => ⟨.inr (by simp [IsLimit]), fun _ _ =>
    ⟨.inl h.noBacklog, fun _ _ => ⟨previewMint_avoids, fun cost hcost => ⟨?_, fun _ _ => depositShares_avoids⟩⟩⟩⟩⟩⟩
  rw [previewMint_cost hy hcost]
  exact h.validates

theorem Admits.of_mint (hy : YieldBook s.now s.toBook) {r : State × Nat}
    (h : MoneyMarket.mint d env s sender shares receiver = .ok r) : Admits s (mintCost s shares) := by
  obtain ⟨t, cost⟩ := r
  have hcap := (mint_outlay h).1
  have hcost := previewMint_cost hy (mint_quoted h).1
  simp only [MoneyMarket.mint, whenNotPaused, requireNoMaturityBacklog, bind_ok_iff, require_ok_iff,
    validateDeposit] at h
  obtain ⟨_, hpaused, _, -, _, -, _, hnone, _, -, _, ⟨_, hopen, -⟩, -⟩ := h
  rw [← hcost]
  exact ⟨hpaused, hopen, hnone, hcap⟩

end Reverts

/-! ## The views -/

section Views

variable {d : Deployment} {s : State} {assets shares max : Nat}

/-- Less is let in as well. -/
theorem Admits.mono (h : Admits s assets) {less : Nat} (hle : less ≤ assets) : Admits s less := by
  obtain ⟨total, htotal, hcap⟩ := h.underCap
  exact ⟨h.unpaused, h.depositsOpen, h.noBacklog, total, htotal, by omega⟩

/-- `maxDeposit` is the most the limits let in. -/
theorem maxDeposit_iff (h : maxDeposit s = .ok max) (hpos : 0 < assets) : assets ≤ max ↔ Admits s assets := by
  unfold maxDeposit at h
  split at h
  · rename_i hclosed
    cases h
    refine iff_of_false (by omega) fun hadmits => ?_
    rcases hclosed with hpaused | hpaused | hdue
    · rw [hadmits.unpaused] at hpaused
      cases hpaused
    · rw [hadmits.depositsOpen] at hpaused
      cases hpaused
    · rw [hadmits.noBacklog] at hdue
      cases hdue
  · rename_i hopen
    simp only [not_or, Bool.not_eq_true] at hopen
    simp only [bind_ok_iff] at h
    obtain ⟨total, htotal, h⟩ := h
    have hadmits : Admits s assets ↔ total + assets ≤ s.tvlCap := by
      constructor
      · rintro ⟨-, -, -, total', htotal', hcap⟩
        cases htotal.symm.trans htotal'
        exact hcap
      · intro hcap
        exact ⟨hopen.1, hopen.2.1, hopen.2.2, total, htotal, hcap⟩
    rw [hadmits]
    split at h
    · cases h
      omega
    · obtain ⟨-, rfl⟩ := checkedSub_ok_iff.1 h
      omega

/-- A mint costs something where the active shares are backed. -/
theorem mintCost_pos (hbacked : activeSupply s = 0 ∨ 0 < activeValue s) (hpos : 0 < shares) :
    0 < mintCost s shares := by
  unfold mintCost
  split_ifs with hsupply
  · omega
  · by_contra hzero
    have hle := (ceilDiv_le_iff_le_mul (Nat.pos_of_ne_zero hsupply)).1 (not_lt.1 hzero)
    rw [Nat.mul_zero] at hle
    exact absurd (Nat.mul_pos hpos (hbacked.resolve_left hsupply)) (by omega)

/-- Where there are shares, `maxMint` is the most the limits let in. -/
theorem maxMint_iff (hy : YieldBook s.now s.toBook) (hsupply : activeSupply s ≠ 0) (hbacked : 0 < activeValue s)
    (h : maxMint s = .ok max) (hpos : 0 < shares) : shares ≤ max ↔ Admits s (mintCost s shares) := by
  simp only [maxMint, bind_ok_iff] at h
  obtain ⟨headroom, hroom, h⟩ := h
  unfold convertToShares at h
  rw [if_neg hsupply] at h
  simp only [bind_ok_iff] at h
  obtain ⟨active, hactive, h⟩ := h
  have hvalue := activeAssets_value hy hactive
  rw [if_neg (by omega)] at h
  simp only [bind_ok_iff, checkedMul_ok_iff, checkedDiv_ok_iff] at h
  obtain ⟨_, ⟨-, rfl⟩, -, rfl⟩ := h
  rw [← maxDeposit_iff hroom (mintCost_pos (.inr hbacked) hpos), hvalue, mintCost, if_neg hsupply]
  exact (Ratio.price_gc hbacked (Nat.pos_of_ne_zero hsupply) shares headroom).symm

/-- Where the active shares are not backed, it is nothing. -/
theorem maxMint_unbacked (hy : YieldBook s.now s.toBook) (hsupply : activeSupply s ≠ 0) (hbacked : activeValue s = 0)
    (h : maxMint s = .ok max) : max = 0 := by
  simp only [maxMint, bind_ok_iff] at h
  obtain ⟨headroom, -, h⟩ := h
  unfold convertToShares at h
  rw [if_neg hsupply] at h
  simp only [bind_ok_iff] at h
  obtain ⟨active, hactive, h⟩ := h
  rw [if_pos ((activeAssets_value hy hactive).trans hbacked)] at h
  cases h
  rfl

/-- Where there are active shares, what is within it is let in, and with backed ones nothing beyond it is. -/
theorem maxMint_active (hy : YieldBook s.now s.toBook) (hsupply : activeSupply s ≠ 0) (h : maxMint s = .ok max) :
    (∀ shares, 0 < shares → shares ≤ max → Admits s (mintCost s shares)) ∧
      (Quoted s → ∀ shares, max < shares → ¬ Admits s (mintCost s shares)) := by
  rcases Nat.eq_zero_or_pos (activeValue s) with hzero | hbacked
  · have hmax := maxMint_unbacked hy hsupply hzero h
    constructor
    · intro shares hpos hle
      omega
    · -- the state is not quoted
      rintro (hnone | ⟨active, hactive, hpos⟩)
      · exact absurd (activeSupply_zero hnone) hsupply
      · exact absurd (activeAssets_value hy hactive) (by omega)
  · constructor
    · intro shares hpos hle
      exact (maxMint_iff hy hsupply hbacked h hpos).1 hle
    · intro _ shares hlt hadmits
      exact absurd ((maxMint_iff hy hsupply hbacked h (by omega)).2 hadmits) (not_le.2 hlt)

/-- Before the first deposit it is `maxDeposit`. -/
theorem maxMint_first (hsupply : activeSupply s = 0) : maxMint s = maxDeposit s := by
  unfold maxMint convertToShares
  simp only [if_pos hsupply]
  exact bind_pure _

/-- Where the limits let a wei in, the room up to the cap is quoted. -/
theorem Admits.headroom (h : Admits s 1) :
    ∃ total, totalAssets s = .ok total ∧ total < s.tvlCap ∧ maxDeposit s = .ok (s.tvlCap - total) := by
  obtain ⟨total, htotal, hcap⟩ := h.underCap
  refine ⟨total, htotal, hcap, ?_⟩
  unfold maxDeposit
  rw [if_neg (by simp [h.unpaused, h.depositsOpen, h.noBacklog]), htotal]
  show (if s.tvlCap ≤ total then _ else _) = _
  rw [if_neg (by omega)]
  exact checkedSub_ok_iff.2 ⟨by omega, rfl⟩

/-- All of that room in shares of a first deposit costs more than the room. -/
theorem Admits.first_unsound (h : Admits s 1) (hsupply : activeSupply s = 0) :
    ∃ max, 0 < max ∧ maxMint s = .ok max ∧ ¬ Admits s (mintCost s max) := by
  obtain ⟨total, htotal, hlt, hroom⟩ := h.headroom
  refine ⟨s.tvlCap - total, by omega, (maxMint_first hsupply).trans hroom, ?_⟩
  rintro ⟨-, -, -, total', htotal', hover⟩
  cases htotal.symm.trans htotal'
  rw [mintCost, if_pos hsupply] at hover
  have hdead : 0 < deadShares := by decide
  omega

/-- Where the limits let no wei in, no first deposit is let in. -/
theorem first_closed (hsupply : activeSupply s = 0) (hnone : ¬ Admits s 1) : ¬ Admits s (mintCost s shares) := by
  intro hadmits
  rw [mintCost, if_pos hsupply] at hadmits
  have hdead : 0 < deadShares := by decide
  exact hnone (hadmits.mono (by omega))

end Views

/-- The views are sound, what is within them is let in and not turned away by the limits, and tight, what
is beyond them is not let in and reverts. -/
def LimitsExact (d : Deployment) (s : State) : Prop :=
  (∀ max, maxDeposit s = .ok max → ∀ env sender receiver assets,
    (0 < assets → assets ≤ max → Admits s assets ∧ Avoids IsLimit (deposit d env s sender assets receiver)) ∧
    (max < assets → ¬ Admits s assets ∧ ∀ r, deposit d env s sender assets receiver ≠ .ok r)) ∧
  ∀ max, maxMint s = .ok max → ∀ env sender receiver shares,
    (0 < shares → shares ≤ max → Admits s (mintCost s shares) ∧ Avoids IsLimit (mint d env s sender shares receiver)) ∧
    (Quoted s → max < shares → ¬ Admits s (mintCost s shares) ∧ ∀ r, mint d env s sender shares receiver ≠ .ok r)

section Exact

variable {d : Deployment} {s : State} {max : Nat}

/-- For deposits they always are. -/
theorem maxDeposit_exact (h : maxDeposit s = .ok max) (env : Replies) (sender receiver : Address) (assets : Nat) :
    (0 < assets → assets ≤ max → Admits s assets ∧ Avoids IsLimit (deposit d env s sender assets receiver)) ∧
      (max < assets → ¬ Admits s assets ∧ ∀ r, deposit d env s sender assets receiver ≠ .ok r) := by
  constructor
  · intro hpos hle
    have hadmits := (maxDeposit_iff h hpos).1 hle
    exact ⟨hadmits, hadmits.deposit⟩
  · intro hlt
    have hout : ¬ Admits s assets := fun hadmits => absurd ((maxDeposit_iff h (by omega)).2 hadmits) (not_le.2 hlt)
    exact ⟨hout, fun r hr => hout (.of_deposit hr)⟩

/-- For mints they are as far as the costs are let in. -/
theorem maxMint_exact (hy : YieldBook s.now s.toBook)
    (hsound : ∀ shares, 0 < shares → shares ≤ max → Admits s (mintCost s shares))
    (htight : Quoted s → ∀ shares, max < shares → ¬ Admits s (mintCost s shares))
    (env : Replies) (sender receiver : Address) (shares : Nat) :
    (0 < shares → shares ≤ max → Admits s (mintCost s shares) ∧ Avoids IsLimit (mint d env s sender shares receiver)) ∧
      (Quoted s → max < shares →
        ¬ Admits s (mintCost s shares) ∧ ∀ r, mint d env s sender shares receiver ≠ .ok r) := by
  constructor
  · intro hpos hle
    have hadmits := hsound shares hpos hle
    exact ⟨hadmits, hadmits.mint hy⟩
  · intro hq hlt
    have hout := htight hq shares hlt
    exact ⟨hout, fun r hr => hout (.of_mint hy hr)⟩

end Exact

/-- Where `maxDeposit` returns, `maxMint` does too, unless the product that turns the one into the other
exceeds 256 bits, as it may under a cap of that size. -/
theorem maxMint_goes_iff {s : State} {assets : Nat} (hmax : maxDeposit s = .ok assets) :
    (∃ max, maxMint s = .ok max) ↔ activeSupply s = 0 ∨
      ∃ active, activeAssets s = .ok active ∧ (active = 0 ∨ assets * activeSupply s < uintSize) := by
  unfold maxMint
  rw [hmax]
  show (∃ max, convertToShares s assets = .ok max) ↔ _
  unfold convertToShares
  split_ifs with hsupply
  · exact iff_of_true ⟨assets, rfl⟩ (.inl hsupply)
  · simp only [bind_ok_iff, hsupply, false_or]
    constructor
    · rintro ⟨max, active, hactive, h⟩
      refine ⟨active, hactive, ?_⟩
      split_ifs at h with hzero
      · exact .inl hzero
      · simp only [bind_ok_iff, checkedMul_ok_iff] at h
        obtain ⟨_, ⟨hfits, -⟩, -⟩ := h
        exact .inr hfits
    · rintro ⟨active, hactive, hfits⟩
      by_cases hzero : active = 0
      · exact ⟨0, active, hactive, by rw [if_pos hzero]; rfl⟩
      · refine ⟨assets * activeSupply s / active, active, hactive, ?_⟩
        rw [if_neg hzero]
        simp only [bind_ok_iff, checkedMul_ok_iff, checkedDiv_ok_iff]
        exact ⟨_, ⟨hfits.resolve_left hzero, rfl⟩, hzero, rfl⟩

/-- In every reachable state the views are sound and tight, if and only if there are active shares already
or the limits do not let in a single wei: `maxMint` leaves out the dead shares of the first deposit. -/
theorem limits_exact_iff {d : Deployment} {s : State} (h : Reachable d s) :
    LimitsExact d s ↔ activeSupply s ≠ 0 ∨ ¬ Admits s 1 := by
  have hy : YieldBook s.now s.toBook := h.inv.yield
  constructor
  · rintro ⟨-, hmint⟩
    by_contra hfirst
    obtain ⟨hsupply, hadmits⟩ := not_or.1 hfirst
    obtain ⟨max, hpos, hmax, hout⟩ := (not_not.1 hadmits).first_unsound (not_not.1 hsupply)
    exact hout ((hmint max hmax demoQuiet 0 0 max).1 hpos (le_refl _)).1
  · intro hsome
    refine ⟨fun max hmax => maxDeposit_exact hmax, fun max hmax => ?_⟩
    by_cases hsupply : activeSupply s = 0
    · have hnone : ¬ Admits s 1 := hsome.resolve_left (not_not.2 hsupply)
      rw [maxMint_first hsupply] at hmax
      refine maxMint_exact hy (fun shares hpos hle => ?_) fun _ shares _ => first_closed hsupply hnone
      exact absurd (((maxDeposit_iff hmax hpos).1 hle).mono hpos) hnone
    · obtain ⟨hsound, htight⟩ := maxMint_active hy hsupply hmax
      exact maxMint_exact hy hsound htight

/-- After alice's deposit they are exact. -/
theorem limits_exact_iff_demo : ∃ s : State, activeSupply s = 10 ^ 20 ∧ LimitsExact demo s := by
  obtain ⟨s, hs, -, hsupply, -⟩ := quotedRun_ends
  exact ⟨s, hsupply, (limits_exact_iff hs.of_restrict).2 (.inl (by rw [hsupply]; decide))⟩

/-- A call that the cap turns away. -/
def exceedsCap {α : Type} : Tx α → Bool
  | .error (.custom .exceedsTvlCap) => true
  | _ => false

/-- Before the first deposit the whole of `maxMint` costs a thousand wei more than the cap lets in. -/
theorem maxMint_rejected : ¬ ∀ (d : Deployment) (env : Replies) (s : State) (sender receiver : Address)
    (shares max : Nat), Reachable d s → maxMint s = .ok max → 0 < shares → shares ≤ max →
    mint d env s sender shares receiver ≠ .error (.custom .exceedsTvlCap) := by
  intro hall
  obtain ⟨s, hs, htest⟩ := observe_reach demo DeadSilent demoQuiet demoSetup demoFunding
    (fun s => passes (maxMint s) fun max => decide (max = 10 ^ 30) &&
      exceedsCap (mint demo demoQuiet s alice (10 ^ 30) alice)) (by decide +kernel)
  obtain ⟨max, hmax, htest⟩ := passes_ok htest
  rw [Bool.and_eq_true, decide_eq_true_iff] at htest
  obtain ⟨rfl, htest⟩ := htest
  refine hall demo demoQuiet s alice alice (10 ^ 30) (10 ^ 30) hs.of_restrict hmax (by decide) (le_refl _) ?_
  unfold exceedsCap at htest
  split at htest
  · assumption
  · cases htest

end MoneyMarket
