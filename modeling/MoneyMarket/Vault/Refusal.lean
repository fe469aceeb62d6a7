/-
A poke of the queue goes through. While its products fit, at most as many positions are due as one
sync caps, and the views of the active pool answer, neither the sync, nor the rate, nor the settlement,
nor the reinvest reverts, whether the pool takes the deposit or refuses it (`pokeQueue_goes`). A refusal
leaves only approvals (`refusal_harmless`). A pool that takes it gets the HOLLAR of a request that the
settlement had to serve and did not (`unserved_jumps`).
-/
import MoneyMarket.Evm.Rows
import MoneyMarket.Vault.Maturity
import MoneyMarket.Vault.Progress
import MoneyMarket.Vault.Registry

namespace MoneyMarket

open Evm Relation

/-! ## The sync -/

section Sync

variable {d : Deployment} {s s₁ : State} {order : List Nat}

/-- All lists of the due positions are as long. -/
theorem Book.DueList.length_eq {b : Book} {now : Nat} {order order' : List Nat} (h : b.DueList now order)
    (h' : b.DueList now order') : order.length = order'.length := by
  refine List.Perm.length_eq ((List.perm_ext_iff_of_nodup h.nodup h'.nodup).2 fun i => ?_)
  rw [h.mem, h'.mem]

/-- A sync that may cap all that is due leaves nothing due. -/
theorem sync_clears {k : Nat} (h : Invariant d s) (horder : s.toBook.DueList s.now order)
    (hdue : order.length ≤ maxMaturitySync) (hsync : syncMaturities s maxMaturitySync = .ok (s₁, k)) : NoneDue s₁ := by
  obtain ⟨-, hpositions, -, hframe⟩ := syncMaturities_locks h.yield hsync
  have hlen := h.yield.dueList.length_eq horder
  rw [List.take_of_length_le (by omega)] at hpositions
  have hy : YieldBook s₁.now s₁.toBook := (h.pokes (syncMaturities_pokes hsync).1).yield
  have hnow : s₁.now = s.now := by rw [hframe]
  intro root hroot
  by_contra hlate
  -- the root would be of a position left uncapped and due
  obtain ⟨pos, hpos, hu, hm, -⟩ := hy.entry_pos (YieldBook.root_mem hroot)
  have hpos : s₁.positions[entryIndex root]? = some pos := hpos
  rw [hpositions, getElem?_lockAt] at hpos
  obtain ⟨p, hp, hlock⟩ := Option.map_eq_some_iff.1 hpos
  split_ifs at hlock with hin
  · rw [← hlock] at hu
    cases hu
  · subst hlock
    exact hin ((h.yield.dueList.mem _).2 ⟨p, hp, hu, by omega⟩)

/-- No cap raises the rate aggregate. -/
theorem caps_rateSum {now : Nat} {b b' : Book} (h : ReflTransGen (Cap now) b b') :
    b'.yieldRateSum ≤ b.yieldRateSum := by
  induction h with
  | refl => exact le_refl _
  | tail _ hc ih =>
    cases hc with
    | cap entry pos _ _ _ _ => exact le_trans (Nat.sub_le _ _) ih

/-- The offsets are within the rates at the present. -/
theorem YieldBook.offset_le {now : Nat} {b : Book} (h : YieldBook now b) : b.yieldOffsetSum ≤ b.yieldRateSum * now := by
  rw [h.offsetSum, h.rateSum, ← List.sum_map_mul_right]
  refine List.sum_le_sum fun pos hp => ?_
  unfold NFTPosition.liveOffset NFTPosition.liveRate
  split_ifs with hu
  · exact Nat.zero_le _
  · exact Nat.mul_le_mul_left _ (h.past pos hp (by simpa using hu))

end Sync

/-! ## What has to fit -/

/-- The product of the rate fits: the assets, with the yield accrued so far, in wads. -/
def PricedFits (s : State) : Prop :=
  ∀ accrued, accruedYield s = .ok accrued →
    (s.totalInvestedPrincipal + accrued + s.idleHollar + s.totalPendingYield + s.totalReservedHollar) * wad < uintSize

/-- The idle HOLLAR that fits under the cap. -/
def State.placeable (s : State) : Nat := min s.idleHollar (s.tvlCap - s.totalInvestedPrincipal)

/-- The products of a poke fit: the rate aggregate with the idle HOLLAR placed at `apyWad`, that
aggregate times the present, and the assets in wads, before the sync and after it. -/
structure PokeFits (s : State) (apyWad : Nat) : Prop where
  rates : s.yieldRateSum + apyWad * s.placeable < uintSize
  accrual : s.now * (s.yieldRateSum + apyWad * s.placeable) < uintSize
  priced : PricedFits s
  synced : ∀ s₁, syncBeforeRateSensitiveAction s = .ok s₁ → PricedFits s₁

/-- The views of the active pool answer. -/
structure Answers (env : Replies) (s : State) (apyWad period : Nat) : Prop where
  apy : (env.pool s.activeDepositPool).fixedAPYWad = some apyWad
  period : (env.pool s.activeDepositPool).minimumInvestmentPeriodSeconds = some period

section Fits

variable {d : Deployment} {s s₁ : State} {order : List Nat} {n apyWad rate : Nat}

theorem PokeFits.now_rates (h : PokeFits s apyWad) : s.now * s.yieldRateSum < uintSize :=
  lt_of_le_of_lt (Nat.mul_le_mul_left _ (Nat.le_add_right _ _)) h.accrual

/-- Accrual needs the aggregate at the present at most. -/
theorem accruedYield_goes (hy : YieldBook s.now s.toBook) (hnow : s.now * s.yieldRateSum < uintSize) :
    ∃ accrued, accruedYield s = .ok accrued := by
  have hstop : s.toBook.stop s.now * s.yieldRateSum ≤ s.now * s.yieldRateSum :=
    Nat.mul_le_mul_right _ (Book.stop_le_now _ _)
  rw [accruedYield_eq hy, if_pos (lt_of_le_of_lt hstop hnow)]
  exact ⟨_, rfl⟩

/-- The rate is defined where its product fits. -/
theorem exchangeRate_goes (hy : YieldBook s.now s.toBook) (hnow : s.now * s.yieldRateSum < uintSize)
    (hfits : PricedFits s) : ∃ rate, exchangeRate s = .ok rate := by
  obtain ⟨accrued, haccrued⟩ := accruedYield_goes hy hnow
  have hall := hfits accrued haccrued
  have hwad : 0 < wad := by decide
  unfold exchangeRate
  split_ifs with hzero
  · exact ⟨wad, rfl⟩
  · have htotal := totalAssets_ok_iff.2 ⟨accrued, haccrued, rfl, lt_of_le_of_lt (Nat.le_mul_of_pos_right _ hwad) hall⟩
    refine ⟨_, bind_ok_iff.2 ⟨_, activeAssets_of_total htotal, bind_ok_iff.2 ⟨_, checkedMul_ok_iff.2 ⟨?_, rfl⟩,
      checkedDiv_ok_iff.2 ⟨hzero, rfl⟩⟩⟩⟩
    exact lt_of_le_of_lt (Nat.mul_le_mul_right _ (Nat.sub_le _ _)) hall

/-- What as many positions lock as one sync caps fits beside the yield pending so far. -/
theorem sync_fits (h : Reachable d s) (hnow : s.now * s.yieldRateSum < uintSize)
    (hpending : s.totalPendingYield * wad < uintSize) :
    s.totalPendingYield + (((s.toBook.dueList s.now).take maxMaturitySync).map s.toBook.lockedYield).sum <
      uintSize := by
  set due := (s.toBook.dueList s.now).take maxMaturitySync with hdef
  have hrates := h.ratesFit hnow
  have heach : ∀ x ∈ due.map fun i => s.toBook.lockedYield i * yearWad, x ≤ uintSize - 1 := by
    intro x hx
    obtain ⟨i, hi, rfl⟩ := List.mem_map.1 hx
    obtain ⟨pos, hpos, hdue⟩ := (h.inv.yield.dueList.mem i).1 (List.mem_of_mem_take hi)
    rw [Book.lockedYield, hpos]
    refine Nat.le_sub_one_of_lt (lt_of_le_of_lt (Nat.div_mul_le_self _ _) ?_)
    exact lt_of_le_of_lt (Nat.mul_le_mul_left _ (Nat.sub_le _ _)) (hrates pos (List.mem_of_getElem? hpos) hdue).2
  have htotal := List.sum_le_card_nsmul _ _ heach
  have hcount : due.length ≤ maxMaturitySync := List.length_take_le _ _
  rw [List.length_map, smul_eq_mul, List.sum_map_mul_right] at htotal
  have hlocked := le_trans htotal (Nat.mul_le_mul_right _ hcount)
  -- fifty parts in a year of wads and one part in a wad are less than the whole
  simp only [uintSize, maxMaturitySync, yearWad, secondsPerYear, wad] at hlocked hpending ⊢
  omega

/-- With no more due than a sync caps, the sync of a poke goes through, and leaves nothing due. -/
theorem syncBefore_goes (h : Reachable d s) (horder : s.toBook.DueList s.now order)
    (hdue : order.length ≤ maxMaturitySync) (hnow : s.now * s.yieldRateSum < uintSize) (hfits : PricedFits s) :
    ∃ s₁, syncBeforeRateSensitiveAction s = .ok s₁ ∧ NoneDue s₁ := by
  obtain ⟨accrued, haccrued⟩ := accruedYield_goes h.inv.yield hnow
  have hpending : s.totalPendingYield * wad < uintSize :=
    lt_of_le_of_lt (Nat.mul_le_mul_right _ (by omega)) (hfits accrued haccrued)
  obtain ⟨⟨s₁, k⟩, hsync⟩ := (syncMaturities_succeeds_iff h.inv.yield (h.ratesFit hnow)).2 (sync_fits h hnow hpending)
  have hnone := sync_clears h.inv horder hdue hsync
  refine ⟨s₁, ?_, hnone⟩
  simp only [syncBeforeRateSensitiveAction, bind_ok_iff, Prod.exists, pure_ok_iff]
  exact ⟨s₁, k, hsync, (), hnone.no_backlog, rfl⟩

/-- A sync with nothing due does nothing. -/
theorem NoneDue.syncBefore_eq (h : NoneDue s) (hpending : s.totalPendingYield < uintSize) :
    syncBeforeRateSensitiveAction s = .ok s := by
  have hpass : maturityPass maxMaturitySync s.now (secondsPerYear * wad)
      ⟨s.positions, s.maturityHeap, 0, s.yieldRateSum, s.yieldOffsetSum, 0⟩ =
        .ok (.stop ⟨s.positions, s.maturityHeap, 0, s.yieldRateSum, s.yieldOffsetSum, 0⟩) := by
    unfold maturityPass
    split_ifs with hguard
    · obtain ⟨root, hroot⟩ : ∃ root, s.maturityHeap[0]? = some root := ⟨_, List.getElem?_eq_getElem hguard.2⟩
      refine bind_ok_iff.2 ⟨root, readAt_ok_iff.2 hroot, ?_⟩
      rw [if_pos (h root hroot)]
      rfl
    · rfl
  simp only [syncBeforeRateSensitiveAction, syncMaturities, processMaturities, loop, hpass, bind_ok_iff, Prod.exists,
    checkedAdd_ok_iff, pure_ok_iff, Prod.mk.injEq]
  exact ⟨s, 0, ⟨_, rfl, _, ⟨hpending, rfl⟩, rfl, rfl⟩, (), h.no_backlog, rfl⟩

end Fits

/-! ## The reinvest -/

/-- The zero address is never registered. -/
theorem Effect.unzero {d : Deployment} {a : Action} {s t : State} (h : Effect d a s t)
    (hs : s.isPoolRegistered 0 = false) : t.isPoolRegistered 0 = false := by
  cases h with
  | kept hk =>
    rw [hk.registry]
    exact hs
  | @opened s₁ s₂ amount idle hk hopen _ =>
    cases hopen with
    | opened tokenId apyWad period pulled token _ _ _ =>
      have hreg : s₁.toRegistry = s.toRegistry := hk.registry
      show s₁.isPoolRegistered 0 = false
      rw [hreg]
      exact hs
  | recapped newCap total _ _ => exact hs
  | enrolled sender env c g _ he =>
    cases he with
    | register pool token hpool _ _ _ =>
      show Function.update s.isPoolRegistered pool true 0 = false
      rw [Function.update_of_ne hpool.symm]
      exact hs
    | activate pool _ => exact hs
    | retire pool token _ _ _ _ =>
      show Function.update s.isPoolRegistered pool false 0 = false
      rw [Function.update_apply, hs, ite_self]

theorem Reachable.pool_ne_zero {d : Deployment} {s : State} (h : Reachable d s) : s.activeDepositPool ≠ 0 := by
  have hzero : s.isPoolRegistered 0 = false := by
    refine h.invariant (I := fun s => s.isPoolRegistered 0 = false) ?_ ?_
    · rintro s ⟨env, p, token, now, -, hinit⟩
      simp only [initializeVault, registerPool, bind_ok_iff, require_ok_iff, pure_ok_iff] at hinit
      obtain ⟨_, hpool, _, -, _, -, _, -, _, ⟨_, -, _, -, _, -, _, -, _, -, _, -, _, -, rfl⟩, rfl⟩ := hinit
      exact Function.update_of_ne hpool.symm _ _
    · rintro s a t - hi ⟨-, _, hs⟩
      exact (step_effect hs).unzero hi
  intro heq
  have hactive := h.registry.active
  rw [heq, hzero] at hactive
  cases hactive

/-- What a refused reinvest leaves: everything but the approval of the pool. -/
structure Unplaced (d : Deployment) (s t : State) : Prop where
  rest : t = { s with token := t.token }
  balances : t.token.balanceOf = s.token.balanceOf
  supply : t.token.totalSupply = s.token.totalSupply
  others : ∀ owner spender, owner ≠ d.self ∨ spender ≠ s.activeDepositPool →
    t.token.allowance owner spender = s.token.allowance owner spender

section Reinvest

variable {d : Deployment} {env : Replies} {s : State} {apyWad period amount : Nat}

theorem Unplaced.refl (s : State) : Unplaced d s s := ⟨rfl, rfl, rfl, fun _ _ _ => rfl⟩

theorem setAllowance_elsewhere {t : ERC20} {a b : Address} {v : Nat} {owner spender : Address}
    (h : owner ≠ a ∨ spender ≠ b) : (t.setAllowance a b v).allowance owner spender = t.allowance owner spender := by
  simp only [ERC20.setAllowance, Function.update_apply]
  split_ifs with ho
  · subst ho
    rw [Function.update_of_ne (h.resolve_left fun hne => hne rfl)]
  · rfl

/-- A deposit into the active pool goes through, and is refused or opens a position. -/
theorem depositIntoDecentral_goes (hpool : s.activeDepositPool ≠ 0) (hanswers : Answers env s apyWad period)
    (hfits : s.toBook.OpeningFits apyWad amount period s.now) :
    ∃ t ok, depositIntoDecentral d env s amount = .ok (t, ok) ∧
      ((ok = false ∧ Unplaced d s t) ∨
        ok = true ∧ (env.pool s.activeDepositPool).deposit ≠ none ∧ t.positions.length = s.positions.length + 1 ∧
          t.idleHollar = s.idleHollar) := by
  set approved := (s.token.setAllowance d.self s.activeDepositPool 0).setAllowance d.self s.activeDepositPool amount
    with hdef
  cases hdep : poolDeposit d (env.pool s.activeDepositPool) approved s.activeDepositPool with
  | none =>
    refine ⟨{ s with token := approved }, false, ?_, .inl ⟨rfl, rfl, rfl, rfl, fun owner spender hne => ?_⟩⟩
    · simp only [depositIntoDecentral, bind_ok_iff, returned_ok_iff, ERC20.safeApprove_ok_iff]
      refine ⟨apyWad, hanswers.apy, _, ⟨.inl trivial, d.self_ne_zero, hpool, rfl⟩, approved,
        ⟨.inr (ERC20.setAllowance_self ..), d.self_ne_zero, hpool, rfl⟩, ?_⟩
      rw [hdep]
      rfl
    · show approved.allowance owner spender = _
      rw [hdef, setAllowance_elsewhere hne, setAllowance_elsewhere hne]
  | some out =>
    obtain ⟨tokenId, token⟩ := out
    have hbook : recordPosition s.toBook s.activeDepositPool tokenId apyWad amount period s.now =
        .ok (s.toBook.opened s.activeDepositPool tokenId apyWad amount period s.now) :=
      recordPosition_ok_iff.2 ⟨hfits, rfl⟩
    refine ⟨{ s with token, toBook := s.toBook.opened s.activeDepositPool tokenId apyWad amount period s.now }, true, ?_,
      .inr ⟨rfl, fun hnone => ?_, List.length_append, rfl⟩⟩
    · simp only [depositIntoDecentral, bind_ok_iff, returned_ok_iff, ERC20.safeApprove_ok_iff]
      refine ⟨apyWad, hanswers.apy, _, ⟨.inl trivial, d.self_ne_zero, hpool, rfl⟩, approved,
        ⟨.inr (ERC20.setAllowance_self ..), d.self_ne_zero, hpool, rfl⟩, ?_⟩
      rw [hdep]
      exact bind_ok_iff.2 ⟨period, returned_ok_iff.2 hanswers.period, bind_ok_iff.2 ⟨_, hbook, rfl⟩⟩
    · -- a pool that answers nothing refuses
      rw [poolDeposit, hnone] at hdep
      cases hdep

/-- Under the cap the amount to reinvest is what fits. -/
theorem reinvestAmount_eq (hcap : s.totalInvestedPrincipal < s.tvlCap)
    (hinvested : s.totalInvestedPrincipal + s.idleHollar < uintSize) : reinvestAmount s = .ok s.placeable := by
  simp only [reinvestAmount, bind_ok_iff, checkedAdd_ok_iff]
  refine ⟨_, ⟨hinvested, rfl⟩, ?_⟩
  by_cases hover : s.tvlCap < s.totalInvestedPrincipal + s.idleHollar
  · rw [if_pos hover, checkedSub_ok_iff]
    exact ⟨hcap.le, (min_eq_right (by omega)).symm⟩
  · rw [if_neg hover, pure_ok_iff]
    exact (min_eq_left (by omega)).symm

/-- So does the reinvest of the idle HOLLAR. -/
theorem reinvest_goes (hpool : s.activeDepositPool ≠ 0) (hanswers : Answers env s apyWad period)
    (hinvested : s.totalInvestedPrincipal + s.idleHollar < uintSize)
    (hfits : s.toBook.OpeningFits apyWad s.placeable period s.now) :
    ∃ t, reinvest d env s = .ok t ∧
      (Unplaced d s t ∨
        (env.pool s.activeDepositPool).deposit ≠ none ∧ t.positions.length = s.positions.length + 1) := by
  unfold reinvest
  split_ifs with hcap
  · exact ⟨s, rfl, .inl (.refl s)⟩
  · have hamount := reinvestAmount_eq (not_le.1 hcap) hinvested
    by_cases hmin : s.placeable < s.minReinvestAmount
    · refine ⟨s, bind_ok_iff.2 ⟨_, hamount, ?_⟩, .inl (.refl s)⟩
      rw [if_pos hmin]
      rfl
    · obtain ⟨t, ok, hdep, hcases⟩ := depositIntoDecentral_goes (d := d) hpool hanswers hfits
      rcases hcases with ⟨rfl, hunplaced⟩ | ⟨rfl, haccepts, hopened, hidle⟩
      · refine ⟨t, bind_ok_iff.2 ⟨_, hamount, ?_⟩, .inl hunplaced⟩
        rw [if_neg hmin]
        exact bind_ok_iff.2 ⟨_, hdep, rfl⟩
      · refine ⟨{ t with idleHollar := t.idleHollar - s.placeable }, bind_ok_iff.2 ⟨_, hamount, ?_⟩,
          .inr ⟨haccepts, hopened⟩⟩
        rw [if_neg hmin]
        refine bind_ok_iff.2 ⟨_, hdep, bind_ok_iff.2 ⟨_, checkedSub_ok_iff.2 ⟨?_, rfl⟩, rfl⟩⟩
        rw [hidle]
        exact Nat.min_le_left _ _

/-- The active pool takes a deposit of `amount`: it asks for no more than that, and the vault has it. -/
def Accepts (d : Deployment) (env : Replies) (s : State) (amount : Nat) : Prop :=
  ∃ tokenId pulled, (env.pool s.activeDepositPool).deposit = some (tokenId, pulled) ∧ pulled ≤ amount ∧
    pulled ≤ s.token.balanceOf d.self

theorem Accepts.taken {ok : Bool} {t : State} (haccepts : Accepts d env s amount) (hpool : s.activeDepositPool ≠ 0)
    (h : depositIntoDecentral d env s amount = .ok (t, ok)) : ok = true := by
  obtain ⟨tokenId, pulled, hdeposit, hallowed, hpaid⟩ := haccepts
  simp only [depositIntoDecentral, bind_ok_iff, returned_ok_iff, ERC20.safeApprove_ok_iff] at h
  obtain ⟨apyWad, -, _, ⟨-, -, -, rfl⟩, _, ⟨-, -, -, rfl⟩, h⟩ := h
  set approved := (s.token.setAllowance d.self s.activeDepositPool 0).setAllowance d.self s.activeDepositPool amount
    with happroved
  have hallows : approved.Allows d.self s.activeDepositPool pulled := by
    refine .inr ?_
    rw [happroved, ERC20.setAllowance_self]
    exact hallowed
  have hpull := (ERC20.transferFrom_ok_iff (κ := VaultError) hpool).2
    ⟨hallows, d.self_ne_zero, hpool, hpaid, rfl⟩
  rw [poolDeposit, hdeposit] at h
  dsimp only at h
  rw [hpull] at h
  simp only [bind_ok_iff, returned_ok_iff, pure_ok_iff, Prod.mk.injEq] at h
  obtain ⟨_, -, _, -, -, rfl⟩ := h
  rfl

/-- A reinvest that the pool takes opens a position. -/
theorem reinvest_opens (hpool : s.activeDepositPool ≠ 0) (hanswers : Answers env s apyWad period)
    (hinvested : s.totalInvestedPrincipal + s.idleHollar < uintSize)
    (hfits : s.toBook.OpeningFits apyWad s.placeable period s.now) (hpos : 0 < s.placeable)
    (hmin : s.minReinvestAmount ≤ s.placeable) (haccepts : Accepts d env s s.placeable) :
    ∃ t, reinvest d env s = .ok t ∧ t.positions.length = s.positions.length + 1 := by
  have hcap : ¬ s.tvlCap ≤ s.totalInvestedPrincipal := by
    have hroom : s.placeable ≤ s.tvlCap - s.totalInvestedPrincipal := Nat.min_le_right _ _
    omega
  obtain ⟨t, ok, hdep, hcases⟩ := depositIntoDecentral_goes (d := d) hpool hanswers hfits
  obtain rfl := haccepts.taken hpool hdep
  rcases hcases with ⟨hrefused, -⟩ | ⟨-, -, hopened, hidle⟩
  · cases hrefused
  · refine ⟨{ t with idleHollar := t.idleHollar - s.placeable }, ?_, hopened⟩
    unfold reinvest
    rw [if_neg hcap]
    refine bind_ok_iff.2 ⟨_, reinvestAmount_eq (not_le.1 hcap) hinvested, ?_⟩
    rw [if_neg (not_lt.2 hmin)]
    refine bind_ok_iff.2 ⟨_, hdep, bind_ok_iff.2 ⟨_, checkedSub_ok_iff.2 ⟨?_, rfl⟩, rfl⟩⟩
    rw [hidle]
    exact Nat.min_le_left _ _

end Reinvest

/-! ## The poke -/

section Poke

variable {d : Deployment} {env : Replies} {s s₁ t : State} {order : List Nat} {apyWad period : Nat}

/-- The sync of a call changes the book alone, by caps. -/
theorem syncBefore_caps (h : syncBeforeRateSensitiveAction s = .ok s₁) :
    ∃ b, s₁ = { s with toBook := b } ∧ ReflTransGen (Cap s.now) s.toBook b := by
  simp only [syncBeforeRateSensitiveAction, syncMaturities, bind_ok_iff, checkedAdd_ok_iff, pure_ok_iff, Prod.exists,
    Prod.mk.injEq] at h
  obtain ⟨_, _, ⟨r, hr, _, ⟨-, rfl⟩, rfl, -⟩, _, -, rfl⟩ := h
  exact ⟨r.onto s.toBook, rfl, processMaturities_caps (b := s.toBook) hr⟩

/-- A settlement moves HOLLAR from idle to reserved, which the products do not see. -/
theorem PricedFits.settledBy (h : PricedFits s) {r : SettleRun} (hused : r.hollarUsed ≤ s.idleHollar) :
    PricedFits (sweepPositionHead (s.settledBy r)) := by
  intro accrued haccrued
  have hbefore := h accrued haccrued
  have hsum : s.totalInvestedPrincipal + accrued + (s.idleHollar - r.hollarUsed) + s.totalPendingYield +
      (s.totalReservedHollar + r.hollarUsed) =
        s.totalInvestedPrincipal + accrued + s.idleHollar + s.totalPendingYield + s.totalReservedHollar := by
    omega
  rw [← hsum] at hbefore
  exact hbefore

/-- What a poke of `s` has when it decides about the reinvest. -/
structure Ready (s : State) (apyWad : Nat) (x : State) : Prop where
  now : x.now = s.now
  pool : x.activeDepositPool = s.activeDepositPool
  paused : x.paused = s.paused
  count : x.positions.length = s.positions.length
  none_due : NoneDue x
  offset : x.yieldOffsetSum ≤ x.yieldRateSum * x.now
  /-- Every summand of the assets fits. -/
  parts : x.totalInvestedPrincipal + x.idleHollar < uintSize ∧ x.totalPendingYield < uintSize
  fits : PokeFits x apyWad

/-- The idle HOLLAR it would place fits. -/
theorem Ready.opening {x : State} (h : Ready s apyWad x) (hterm : s.now + period < 2 ^ 128)
    (hcount : s.positions.length < 2 ^ 128) : x.toBook.OpeningFits apyWad x.placeable period x.now where
  invested := lt_of_le_of_lt (Nat.add_le_add_left (Nat.min_le_left _ _) _) h.parts.1
  rate := h.fits.rates
  offset := by
    apply lt_of_le_of_lt (Nat.add_le_add_right h.offset _)
    rw [← Nat.add_mul, Nat.mul_comm]
    exact h.fits.accrual
  maturity := by
    rw [h.now]
    exact hterm
  index := by
    rw [h.count]
    exact hcount

/-- The parts of assets whose product fits. -/
theorem PricedFits.parts (h : PricedFits s) (hy : YieldBook s.now s.toBook) (hnow : s.now * s.yieldRateSum < uintSize) :
    s.totalInvestedPrincipal + s.idleHollar < uintSize ∧ s.totalPendingYield < uintSize := by
  obtain ⟨accrued, haccrued⟩ := accruedYield_goes hy hnow
  have hwad : 0 < wad := by decide
  have hall := lt_of_le_of_lt (Nat.le_mul_of_pos_right _ hwad) (h accrued haccrued)
  constructor
  · omega
  · omega

/-- The sync, the rate and the settlement of a poke go through. -/
theorem settle_goes (h : Reachable d s) (horder : s.toBook.DueList s.now order) (hdue : order.length ≤ maxMaturitySync)
    (hfits : PokeFits s apyWad) :
    ∃ s₁ rate s₂ used locked, syncBeforeRateSensitiveAction s = .ok s₁ ∧ exchangeRate s₁ = .ok rate ∧
      processQueueWithHollar s₁ s₁.idleHollar rate = .ok (s₂, used, locked) ∧
      Ready s apyWad (sweepPositionHead s₂) := by
  obtain ⟨s₁, hsync, hnone⟩ := syncBefore_goes h horder hdue hfits.now_rates hfits.priced
  have hinv : Invariant d s₁ := h.inv.syncBefore hsync
  have hpriced := hfits.synced s₁ hsync
  obtain ⟨b, rfl, hcaps⟩ := syncBefore_caps hsync
  have hrates : b.yieldRateSum ≤ s.yieldRateSum := caps_rateSum hcaps
  obtain ⟨-, hcount, hprincipal⟩ := caps_frame hcaps
  have hproducts : s.now * b.yieldRateSum < uintSize :=
    lt_of_le_of_lt (Nat.mul_le_mul_left _ hrates) hfits.now_rates
  obtain ⟨rate, hrate⟩ := exchangeRate_goes hinv.yield hproducts hpriced
  obtain ⟨r, hbatch, hq⟩ := hinv.settles hrate
  have hused : r.hollarUsed ≤ s.idleHollar := hbatch.used_le
  obtain ⟨hinvested, hpending⟩ := hpriced.parts hinv.yield hproducts
  refine ⟨_, rate, _, _, _, hsync, hrate, hq, rfl, rfl, rfl, hcount, hnone, hinv.yield.offset_le, ⟨?_, hpending⟩, ?_⟩
  · exact lt_of_le_of_lt (Nat.add_le_add_left (Nat.sub_le _ _) _) hinvested
  · have hplaceable : min (s.idleHollar - r.hollarUsed) (s.tvlCap - b.totalInvestedPrincipal) ≤ s.placeable := by
      rw [hprincipal]
      exact min_le_min_right _ (Nat.sub_le _ _)
    have hle := Nat.add_le_add hrates (Nat.mul_le_mul_left apyWad hplaceable)
    have hpriced' := hpriced.settledBy hused
    refine ⟨lt_of_le_of_lt hle hfits.rates, lt_of_le_of_lt (Nat.mul_le_mul_left _ hle) hfits.accrual, hpriced', ?_⟩
    -- nothing is due, so another sync would change nothing
    intro s₃ hsync'
    have hnone' : NoneDue (sweepPositionHead (State.settledBy { s with toBook := b } r)) := hnone
    rw [hnone'.syncBefore_eq hpending] at hsync'
    cases hsync'
    exact hpriced'

/-- A poke of the queue goes through: nothing is placed, or the pool has accepted a deposit and a
position is opened. -/
theorem pokeQueue_goes (h : Reachable d s) (hpaused : s.paused = false) (horder : s.toBook.DueList s.now order)
    (hdue : order.length ≤ maxMaturitySync) (hanswers : Answers env s apyWad period)
    (hterm : s.now + period < 2 ^ 128) (hcount : s.positions.length < 2 ^ 128) (hfits : PokeFits s apyWad) :
    ∃ rate used s₂ t, settleQueue s = .ok (rate, used, s₂) ∧ pokeQueue d env s = .ok t ∧
      Ready s apyWad (sweepPositionHead s₂) ∧
      (Unplaced d (sweepPositionHead s₂) t ∨
        (env.pool s.activeDepositPool).deposit ≠ none ∧ t.positions.length = s.positions.length + 1) := by
  obtain ⟨s₁, rate, s₂, used, locked, hsync, hrate, hq, hready⟩ := settle_goes h horder hdue hfits
  have hsettle : settleQueue s = .ok (rate, used, s₂) := settleQueue_ok_iff.2 ⟨s₁, locked, hsync, hrate, hq⟩
  have hpoke : ∀ t, (if used = 0 ∧ (sweepPositionHead s₂).minReinvestAmount ≤ (sweepPositionHead s₂).idleHollar ∧
      (sweepPositionHead s₂).depositsPaused = false then reinvest d env (sweepPositionHead s₂)
      else .ok (sweepPositionHead s₂)) = .ok t → pokeQueue d env s = .ok t :=
    fun t ht => pokeQueue_ok_iff.2 ⟨hpaused, rate, used, s₂, hsettle, ht⟩
  split_ifs at hpoke
  · have hanswers' : Answers env (sweepPositionHead s₂) apyWad period := by
      constructor
      · rw [hready.pool]
        exact hanswers.apy
      · rw [hready.pool]
        exact hanswers.period
    have hpool : (sweepPositionHead s₂).activeDepositPool ≠ 0 := by
      rw [hready.pool]
      exact h.pool_ne_zero
    obtain ⟨t, ht, hend⟩ := reinvest_goes (d := d) hpool hanswers' hready.parts.1 (hready.opening hterm hcount)
    rw [hready.pool, hready.count] at hend
    exact ⟨rate, used, s₂, t, hsettle, hpoke t ht, hready, hend⟩
  · exact ⟨rate, used, s₂, _, hsettle, hpoke _ rfl, hready, .inl (.refl _)⟩

/-- The settlement of a poke leaves the settings, the HOLLAR and the principal. -/
theorem settleQueue_frame {s₂ : State} {rate used : Nat} (h : settleQueue s = .ok (rate, used, s₂)) :
    s₂.toSettings = s.toSettings ∧ s₂.token = s.token ∧ s₂.totalInvestedPrincipal = s.totalInvestedPrincipal := by
  obtain ⟨s₁, locked, hsync, -, hq⟩ := settleQueue_ok_iff.1 h
  obtain ⟨b, rfl, hcaps⟩ := syncBefore_caps hsync
  obtain ⟨-, -, hprincipal⟩ := caps_frame hcaps
  simp only [processQueueWithHollar, bind_ok_iff, pure_ok_iff, Prod.mk.injEq] at hq
  obtain ⟨r, -, _, -, _, -, _, -, rfl, -, -⟩ := hq
  exact ⟨rfl, rfl, hprincipal⟩

/-- The poke jumps whenever it can: where it had to serve what waits first and did not, enough HOLLAR fits
under the cap and the pool takes it, it opens a position in front of a request it could have paid. -/
theorem unserved_jumps {s₂ : State} {rate used : Nat} (h : Reachable d s) (hpaused : s.paused = false)
    (horder : s.toBook.DueList s.now order) (hdue : order.length ≤ maxMaturitySync)
    (hanswers : Answers env s apyWad period) (hterm : s.now + period < 2 ^ 128) (hcount : s.positions.length < 2 ^ 128)
    (hfits : PokeFits s apyWad) (hq : settleQueue s = .ok (rate, used, s₂)) (hunserved : ¬ Served rate s)
    (hdeposits : s.depositsPaused = false) (hpos : 0 < s.placeable) (hmin : s.minReinvestAmount ≤ s.placeable)
    (haccepts : Accepts d env s s.placeable) :
    ∃ t, pokeQueue d env s = .ok t ∧ t.positions.length = s.positions.length + 1 ∧ ¬ NoJump rate s₂ := by
  obtain rfl : used = 0 := by
    by_contra hused
    exact hunserved (used_serves h.inv hq hused)
  obtain ⟨s₁, rate', s₂', used', locked, hsync, hrate, hqueue, hready⟩ := settle_goes h horder hdue hfits
  cases hq.symm.trans (settleQueue_ok_iff.2 ⟨s₁, locked, hsync, hrate, hqueue⟩)
  obtain ⟨-, -, -, -, hidle, -⟩ := settleQueue_run hq
  obtain ⟨hsettings, htoken, hprincipal⟩ := settleQueue_frame hq
  -- what the reinvest reads is what it was before the poke
  have hplaceable : (sweepPositionHead s₂).placeable = s.placeable := by
    show min s₂.idleHollar (s₂.tvlCap - s₂.totalInvestedPrincipal) = _
    rw [hidle, hprincipal, hsettings]
    rfl
  have hmin' : (sweepPositionHead s₂).minReinvestAmount ≤ s.placeable := by
    show s₂.minReinvestAmount ≤ _
    rw [hsettings]
    exact hmin
  have hanswers' : Answers env (sweepPositionHead s₂) apyWad period := by
    constructor
    · rw [hready.pool]
      exact hanswers.apy
    · rw [hready.pool]
      exact hanswers.period
  have haccepts' : Accepts d env (sweepPositionHead s₂) s.placeable := by
    obtain ⟨tokenId, pulled, hdeposit, hallowed, hpaid⟩ := haccepts
    refine ⟨tokenId, pulled, by rw [hready.pool]; exact hdeposit, hallowed, ?_⟩
    show pulled ≤ s₂.token.balanceOf d.self
    rw [htoken]
    exact hpaid
  rw [← hplaceable] at hpos hmin' haccepts'
  obtain ⟨t, ht, hopened⟩ := reinvest_opens (by rw [hready.pool]; exact h.pool_ne_zero) hanswers' hready.parts.1
    (hready.opening hterm hcount) hpos hmin' haccepts'
  refine ⟨t, pokeQueue_ok_iff.2 ⟨hpaused, rate, 0, s₂, hq, ?_⟩, hopened.trans (by rw [hready.count]),
    fun hno => hunserved ((settled_jumps h.inv hq).1 hno)⟩
  rw [if_pos ⟨rfl, hmin'.trans (Nat.min_le_left _ _), by rw [hsettings]; exact hdeposits⟩]
  exact ht

/-- A state with nothing due lists nothing. -/
theorem YieldBook.dueList_nil {b : Book} {now : Nat} (h : YieldBook now b)
    (hnone : ∀ root, b.maturityHeap[0]? = some root → now < entryMaturity root) : b.DueList now [] := by
  refine ⟨fun i => ⟨fun hi => absurd hi List.not_mem_nil, ?_⟩, .nil⟩
  rintro ⟨pos, hpos, hdue⟩
  exact absurd hdue (h.none_due hnone pos (List.mem_of_getElem? hpos))

/-- Where nothing is placed, the next poke goes through as well. -/
theorem Ready.again {x : State} (h : Ready s apyWad x) (hreach : Reachable d t) (hend : Unplaced d x t)
    (hpaused : s.paused = false) (hanswers : Answers env t apyWad period) (hterm : s.now + period < 2 ^ 128)
    (hcount : s.positions.length < 2 ^ 128) : ∃ u, pokeQueue d env t = .ok u := by
  have hrest := hend.rest
  have hnow : t.now = s.now := by
    rw [hrest]
    exact h.now
  have hlen : t.positions.length = s.positions.length := by
    rw [hrest]
    exact h.count
  have hnone : NoneDue t := by
    rw [hrest]
    exact h.none_due
  have hfits : PokeFits t apyWad := by
    have hpriced : PricedFits t := by
      rw [hrest]
      exact h.fits.priced
    refine ⟨?_, ?_, hpriced, fun t' hsync => ?_⟩
    · rw [hrest]
      exact h.fits.rates
    · rw [hrest]
      exact h.fits.accrual
    · rw [hnone.syncBefore_eq (by rw [hrest]; exact h.parts.2)] at hsync
      cases hsync
      exact hpriced
  obtain ⟨_, _, _, u, -, hu, -⟩ := pokeQueue_goes hreach (by rw [hrest]; exact h.paused.trans hpaused)
    (hreach.inv.yield.dueList_nil hnone) (Nat.zero_le _) hanswers (by rw [hnow]; exact hterm)
    (by rw [hlen]; exact hcount) hfits
  exact ⟨u, hu⟩

end Poke

/-- A refusing pool cannot brick the queue. While the vault has fewer than 2^128 positions and is not
paused, the views of the active pool answer, the products fit, and no more positions are due than one
sync caps, a poke of the queue does not revert, whatever the deposit of the pool does. Where it opens
no position, as where the pool refuses, it leaves all but the approval of the pool as the settlement
left it, and the next poke goes through as well. -/
theorem refusal_harmless {d : Deployment} {env : Replies} {s : State} {order : List Nat} {apyWad period : Nat}
    (h : Reachable d s) (hpaused : s.paused = false) (horder : s.toBook.DueList s.now order) (hdue : order.length ≤ 50)
    (hanswers : Answers env s apyWad period) (hterm : s.now + period < 2 ^ 128) (hcount : s.positions.length < 2 ^ 128)
    (hfits : PokeFits s apyWad) :
    ∃ rate used s₂ t, settleQueue s = .ok (rate, used, s₂) ∧ pokeQueue d env s = .ok t ∧
      ((env.pool s.activeDepositPool).deposit = none → t.positions.length = s.positions.length) ∧
      (t.positions.length = s.positions.length →
        Unplaced d (sweepPositionHead s₂) t ∧ exchangeRate t = exchangeRate (sweepPositionHead s₂) ∧
        ∀ env' period', Answers env' t apyWad period' → t.now + period' < 2 ^ 128 →
          ∃ u, pokeQueue d env' t = .ok u) := by
  obtain ⟨rate, used, s₂, t, hsettle, hpoke, hready, hend⟩ :=
    pokeQueue_goes h hpaused horder hdue hanswers hterm hcount hfits
  refine ⟨rate, used, s₂, t, hsettle, hpoke, fun hrefused => ?_, fun hsame => ?_⟩
  · rcases hend with hend | ⟨haccepts, -⟩
    · rw [hend.rest]
      exact hready.count
    · exact absurd hrefused haccepts
  · have hend : Unplaced d (sweepPositionHead s₂) t := by
      rcases hend with hend | ⟨-, hopened⟩
      · exact hend
      · omega
    have hnow : t.now = s.now := by
      rw [hend.rest]
      exact hready.now
    have hreach : Reachable d t := by
      refine .step (.call 0 env .pokeQueue) h ⟨d.self_ne_zero.symm, [], ?_⟩
      show (pokeQueue d env s >>= _) = _
      rw [hpoke]
      rfl
    refine ⟨hend, ?_, fun env' period' hanswers' hterm' => ?_⟩
    · rw [hend.rest]
      rfl
    · rw [hnow] at hterm'
      exact hready.again hreach hend hpaused hanswers' hterm' hcount

/-- The pool refuses the hundred HOLLAR of an idle vault. -/
theorem refusal_harmless_demo : ∃ s t s₂ : State, s.idleHollar = 100000317097919837645 ∧
    pokeQueue demo (demoReplies (10 ^ 17) 1000 none none none) s = .ok t ∧ Unplaced demo (sweepPositionHead s₂) t := by
  obtain ⟨s, hs, htest⟩ := observe_reach demo DeadSilent demoQuiet demoSetup idleRun
    (fun s => decide (s.idleHollar = 100000317097919837645 ∧ s.paused = false ∧ s.now = 1000 ∧
        s.positions.length = 1 ∧ s.yieldRateSum = 0 ∧ s.placeable = 100000317097919837645 ∧
        (s.toBook.dueList s.now).length ≤ 50) &&
      (passes (totalAssets s) (fun total => decide (total * wad < uintSize)) &&
        passes (syncBeforeRateSensitiveAction s) fun s₁ =>
          passes (totalAssets s₁) fun total => decide (total * wad < uintSize))) (by decide +kernel)
  rw [Bool.and_eq_true, Bool.and_eq_true] at htest
  obtain ⟨hstate, hpriced, hsynced⟩ := htest
  obtain ⟨hidle, hpaused, hnow, hcount, hrate, hplaceable, hdue⟩ := of_decide_eq_true hstate
  obtain ⟨total, htotal, hpriced⟩ := passes_ok hpriced
  obtain ⟨s₁, hsync, hsynced⟩ := passes_ok hsynced
  obtain ⟨total₁, htotal₁, hsynced⟩ := passes_ok hsynced
  have hfits : PokeFits s (10 ^ 17) := by
    refine ⟨by rw [hrate, hplaceable]; decide, by rw [hrate, hplaceable, hnow]; decide, fun accrued haccrued => ?_,
      fun s' hsync' accrued haccrued => ?_⟩
    · obtain ⟨accrued', haccrued', heq, -⟩ := totalAssets_ok_iff.1 htotal
      cases haccrued.symm.trans haccrued'
      rw [heq]
      exact of_decide_eq_true hpriced
    · cases hsync.symm.trans hsync'
      obtain ⟨accrued', haccrued', heq, -⟩ := totalAssets_ok_iff.1 htotal₁
      cases haccrued.symm.trans haccrued'
      rw [heq]
      exact of_decide_eq_true hsynced
  have hanswers : Answers (demoReplies (10 ^ 17) 1000 none none none) s (10 ^ 17) 1000 := ⟨rfl, rfl⟩
  obtain ⟨rate, used, s₂, t, -, hpoke, hrefused, hkept⟩ := refusal_harmless hs.of_restrict hpaused
    (Reachable.inv hs.of_restrict).yield.dueList hdue hanswers (by rw [hnow]; decide) (by rw [hcount]; decide) hfits
  exact ⟨s, t, s₂, hidle, hpoke, (hkept (hrefused rfl)).1⟩

/-! ## As many positions as an index has values -/

/-- A pool that takes a deposit of nothing. -/
def crowdReplies : Replies := demoReplies 0 1000 (some 0) none none

/-- `n` reinvests of nothing, at time zero, into a vault without deposits. -/
structure Crowded (n : Nat) (s : State) : Prop where
  now : s.now = 0
  paused : s.paused = false
  depositsPaused : s.depositsPaused = false
  min : s.minReinvestAmount = 0
  cap : 0 < s.tvlCap
  pool : s.activeDepositPool = demoPool
  rate : s.yieldRateSum = 0
  offset : s.yieldOffsetSum = 0
  invested : s.totalInvestedPrincipal = 0
  pending : s.totalPendingYield = 0
  idle : s.idleHollar = 0
  reserved : s.totalReservedHollar = 0
  supply : s.bil.totalSupply = 0
  queue : s.queueHead = s.queueTail
  count : s.positions.length = n
  terms : ∀ pos ∈ s.positions, pos.maturityTime = 1000

namespace Crowded

variable {n : Nat} {s : State}

theorem none_due (h : Crowded n s) (hy : YieldBook s.now s.toBook) : NoneDue s := by
  intro root hroot
  obtain ⟨pos, hpos, -, hm, -⟩ := hy.entry_pos (YieldBook.root_mem hroot)
  rw [← hm, h.terms pos (List.mem_of_getElem? hpos), h.now]
  decide

/-- Nothing is accrued on nothing. -/
theorem priced (h : Crowded n s) : PricedFits s := by
  intro accrued haccrued
  unfold accruedYield at haccrued
  rw [if_neg (by rw [h.rate]; decide)] at haccrued
  cases haccrued
  rw [h.invested, h.pending, h.idle, h.reserved]
  decide

theorem fits (h : Crowded n s) (hy : YieldBook s.now s.toBook) : PokeFits s 0 := by
  refine ⟨by rw [h.rate, Nat.zero_mul]; decide, by rw [h.now, Nat.zero_mul]; decide, h.priced, fun s₁ hsync => ?_⟩
  rw [(h.none_due hy).syncBefore_eq (by rw [h.pending]; decide)] at hsync
  cases hsync
  exact h.priced

/-- The settlement of a poke finds nothing to do. -/
theorem settles (h : Crowded n s) (hinv : Invariant demo s) :
    ∃ s₂, settleQueue s = .ok (wad, 0, s₂) ∧ Crowded n (sweepPositionHead s₂) := by
  have hrate : exchangeRate s = .ok wad := if_pos (activeSupply_zero h.supply)
  obtain ⟨r, hbatch, hq⟩ := hinv.settles hrate
  have hused : r.hollarUsed = 0 := by
    have := hbatch.used_le
    have := h.idle
    omega
  have hhead : r.newQueueHead = s.queueTail := by
    have := hbatch.head_le
    have := hbatch.le_tail
    have := hbatch.atHead
    have := h.queue
    omega
  refine ⟨s.settledBy r, ?_, ?_⟩
  · rw [hused] at hq
    have hsync := (h.none_due hinv.yield).syncBefore_eq (by rw [h.pending]; decide)
    exact settleQueue_ok_iff.2 ⟨s, r.bilLocked, hsync, hrate, hq⟩
  · refine ⟨h.now, h.paused, h.depositsPaused, h.min, h.cap, h.pool, h.rate, h.offset, h.invested, h.pending, ?_, ?_,
      h.supply, hhead, h.count, h.terms⟩
    · show s.idleHollar - r.hollarUsed = 0
      rw [h.idle, Nat.zero_sub]
    · show s.totalReservedHollar + r.hollarUsed = 0
      rw [h.reserved, hused]

/-- The pool takes nothing from the ledger. -/
theorem accepts (token : ERC20) :
    ∃ token', poolDeposit demo (crowdReplies.pool demoPool)
      ((token.setAllowance demo.self demoPool 0).setAllowance demo.self demoPool 0) demoPool = some (0, token') := by
  set approved := (token.setAllowance demo.self demoPool 0).setAllowance demo.self demoPool 0
  set spent := approved.setAllowance demo.self demoPool 0
  have hpull : (approved.transferFrom demoPool demo.self demoPool 0 : Tx ERC20) =
      .ok (spent.move demo.self demoPool 0) := by
    have hnone : approved.allowance demo.self demoPool = 0 := ERC20.setAllowance_self ..
    unfold ERC20.transferFrom ERC20.spendAllowance
    rw [hnone, if_neg (by decide)]
    simp only [bind_ok_iff, require_ok_iff, ERC20.approve_ok_iff, ERC20.transfer_ok_iff]
    exact ⟨spent, ⟨(), le_refl _, by decide, by decide, rfl⟩, by decide, by decide, Nat.zero_le _, rfl⟩
  refine ⟨spent.move demo.self demoPool 0, ?_⟩
  have hreply : (crowdReplies.pool demoPool).deposit = some (0, 0) := rfl
  simp only [poolDeposit, hreply, hpull]

/-- A reinvest of nothing records a position of nothing. -/
theorem reinvest_iff (h : Crowded n s) : ∃ token, ∀ t, reinvest demo crowdReplies s = .ok t ↔
    ∃ book, recordPosition s.toBook demoPool 0 0 0 1000 s.now = .ok book ∧
      { s with toBook := book, token, idleHollar := 0 } = t := by
  obtain ⟨token, haccepts⟩ := accepts s.token
  have hamount : reinvestAmount s = .ok 0 := by
    simp only [reinvestAmount, bind_ok_iff, checkedAdd_ok_iff, h.invested, h.idle]
    exact ⟨0, ⟨by decide, rfl⟩, if_neg (Nat.not_lt_zero _)⟩
  refine ⟨token, fun t => ?_⟩
  unfold reinvest
  rw [if_neg (by rw [h.invested]; exact not_le.2 h.cap)]
  simp only [bind_ok_iff, hamount, Except.ok.injEq, exists_eq_left', h.min, lt_irrefl, if_false, depositIntoDecentral,
    returned_ok_iff, ERC20.safeApprove_ok_iff, h.pool, Prod.exists]
  constructor
  · rintro ⟨_, _, ⟨apyWad, hapy, _, ⟨-, -, -, rfl⟩, _, ⟨-, -, -, rfl⟩, hrest⟩, hidle⟩
    rw [haccepts] at hrest
    simp only [bind_ok_iff, returned_ok_iff, pure_ok_iff, Prod.mk.injEq] at hrest
    obtain ⟨period, hperiod, book, hbook, rfl, rfl⟩ := hrest
    cases hapy
    cases hperiod
    rw [if_pos rfl] at hidle
    simp only [bind_ok_iff, checkedSub_ok_iff, pure_ok_iff] at hidle
    obtain ⟨_, ⟨-, rfl⟩, rfl⟩ := hidle
    refine ⟨book, hbook, ?_⟩
    rw [h.idle]
  · rintro ⟨book, hbook, rfl⟩
    refine ⟨{ s with toBook := book, token }, true, ⟨0, rfl, _, ⟨.inl trivial, by decide, by decide, rfl⟩, _,
      ⟨.inl trivial, by decide, by decide, rfl⟩, ?_⟩, ?_⟩
    · rw [haccepts]
      exact bind_ok_iff.2 ⟨1000, rfl, bind_ok_iff.2 ⟨book, hbook, rfl⟩⟩
    · rw [if_pos rfl]
      exact bind_ok_iff.2 ⟨0, checkedSub_ok_iff.2 ⟨Nat.zero_le _, h.idle⟩, rfl⟩

/-- The poke of the queue comes to the reinvest. -/
theorem poke_iff (h : Crowded n s) (hinv : Invariant demo s) : ∃ s₂ token, Crowded n s₂ ∧ ∀ t,
    pokeQueue demo crowdReplies s = .ok t ↔
      ∃ book, recordPosition s₂.toBook demoPool 0 0 0 1000 s₂.now = .ok book ∧
        { s₂ with toBook := book, token, idleHollar := 0 } = t := by
  obtain ⟨s₂, hsettle, h₂⟩ := h.settles hinv
  obtain ⟨token, hreinvest⟩ := h₂.reinvest_iff
  refine ⟨sweepPositionHead s₂, token, h₂, fun t => ?_⟩
  rw [← hreinvest]
  have hguard : (0 : Nat) = 0 ∧ s₂.minReinvestAmount ≤ s₂.idleHollar ∧ s₂.depositsPaused = false :=
    ⟨rfl, (show s₂.minReinvestAmount = 0 from h₂.min).le.trans (Nat.zero_le _), h₂.depositsPaused⟩
  constructor
  · intro hpoke
    obtain ⟨-, rate, used, s₂', hsettle', hpoke⟩ := pokeQueue_ok_iff.1 hpoke
    cases hsettle.symm.trans hsettle'
    rwa [if_pos hguard] at hpoke
  · intro ht
    exact pokeQueue_ok_iff.2 ⟨h.paused, wad, 0, s₂, hsettle, (if_pos hguard).trans ht⟩

/-- A poke of the queue opens one more, as long as its index fits. -/
theorem grow (h : Crowded n s) (hinv : Invariant demo s) (hn : n < 2 ^ 128) :
    ∃ t, pokeQueue demo crowdReplies s = .ok t ∧ Crowded (n + 1) t := by
  obtain ⟨s₂, token, h₂, hpoke⟩ := h.poke_iff hinv
  have hbook : recordPosition s₂.toBook demoPool 0 0 0 1000 s₂.now =
      .ok (s₂.toBook.opened demoPool 0 0 0 1000 s₂.now) := by
    refine recordPosition_ok_iff.2 ⟨⟨?_, ?_, ?_, ?_, ?_⟩, rfl⟩
    · rw [h₂.invested]
      decide
    · rw [h₂.rate]
      decide
    · rw [h₂.offset, h₂.now]
      decide
    · rw [h₂.now]
      decide
    · rw [h₂.count]
      exact hn
  refine ⟨_, (hpoke _).2 ⟨_, hbook, rfl⟩, ⟨h₂.now, h₂.paused, h₂.depositsPaused, h₂.min, h₂.cap, h₂.pool, ?_, ?_,
    h₂.invested, h₂.pending, rfl, h₂.reserved, h₂.supply, h₂.queue, ?_, fun pos hp => ?_⟩⟩
  · show s₂.yieldRateSum + 0 * 0 = 0
    rw [h₂.rate]
  · show s₂.yieldOffsetSum + 0 * 0 * s₂.now = 0
    rw [h₂.offset, Nat.zero_mul]
  · show (s₂.positions ++ [_]).length = n + 1
    rw [List.length_append, h₂.count]
    rfl
  · rcases List.mem_append.1 hp with hp | hp
    · exact h₂.terms pos hp
    · rw [List.mem_singleton.1 hp]
      show s₂.now + 1000 = 1000
      rw [h₂.now]

/-- And none beyond that. -/
theorem lt_of_poke (h : Crowded n s) (hinv : Invariant demo s) {t : State}
    (hpoke : pokeQueue demo crowdReplies s = .ok t) : n < 2 ^ 128 := by
  obtain ⟨s₂, token, h₂, hiff⟩ := h.poke_iff hinv
  obtain ⟨book, hbook, -⟩ := (hiff t).1 hpoke
  rw [← h₂.count]
  exact (recordPosition_ok_iff.1 hbook).1.index

end Crowded

/-- The admin asks for no least reinvest. -/
def crowdPrefix : List Action := [.call 0xad demoQuiet (.setMinReinvestAmount 0)]

/-- As many positions as an index has values. -/
theorem crowded_reach : ∀ n ≤ 2 ^ 128, ∃ s, Reachable demo s ∧ Crowded n s := by
  intro n hn
  induction n with
  | zero =>
    obtain ⟨s, hs, htest⟩ := observe_reach demo DeadSilent demoQuiet demoSetup crowdPrefix
      (fun s => decide ((s.now = 0 ∧ s.paused = false ∧ s.depositsPaused = false ∧ s.minReinvestAmount = 0 ∧
        0 < s.tvlCap ∧ s.activeDepositPool = demoPool) ∧
        (s.yieldRateSum = 0 ∧ s.yieldOffsetSum = 0 ∧ s.totalInvestedPrincipal = 0 ∧
        s.totalPendingYield = 0 ∧ s.idleHollar = 0 ∧ s.totalReservedHollar = 0 ∧ s.bil.totalSupply = 0) ∧
        s.queueHead = s.queueTail ∧ s.positions = [])) (by decide +kernel)
    obtain ⟨⟨hnow, hpaused, hdeposits, hmin, hcap, hpool⟩,
      ⟨hrate, hoffset, hinvested, hpending, hidle, hreserved, hsupply⟩, hqueue, hpositions⟩ := of_decide_eq_true htest
    exact ⟨s, hs.of_restrict, hnow, hpaused, hdeposits, hmin, hcap, hpool, hrate, hoffset, hinvested, hpending, hidle,
      hreserved, hsupply, hqueue, by rw [hpositions]; rfl,
      fun pos hp => absurd hp (by rw [hpositions]; exact List.not_mem_nil)⟩
  | succ n ih =>
    obtain ⟨s, hs, hcrowd⟩ := ih (by omega)
    obtain ⟨t, hpoke, ht⟩ := hcrowd.grow hs.inv (by omega)
    refine ⟨t, .step (.call alice crowdReplies .pokeQueue) hs ⟨show alice ≠ demo.self by decide, [], ?_⟩, ht⟩
    show (pokeQueue demo crowdReplies s >>= _) = _
    rw [hpoke]
    rfl

/-- With that many the next accepted deposit finds no index, and the poke reverts. -/
theorem refusal_bricks : ¬ ∀ (d : Deployment) (env : Replies) (s : State) (order : List Nat) (apyWad period : Nat),
    Reachable d s → s.paused = false → s.toBook.DueList s.now order → order.length ≤ 50 → Answers env s apyWad period →
    s.now + period < 2 ^ 128 → PokeFits s apyWad → ∃ t, pokeQueue d env s = .ok t := by
  intro hall
  obtain ⟨s, hs, hcrowd⟩ := crowded_reach (2 ^ 128) (le_refl _)
  have hinv : Invariant demo s := hs.inv
  have hnone := hcrowd.none_due hinv.yield
  have hterm : s.now + 1000 < 2 ^ 128 := by
    rw [hcrowd.now]
    decide
  obtain ⟨t, hpoke⟩ := hall demo crowdReplies s [] 0 1000 hs hcrowd.paused (hinv.yield.dueList_nil hnone) (Nat.zero_le _)
    ⟨by rw [hcrowd.pool]; rfl, by rw [hcrowd.pool]; rfl⟩ hterm (hcrowd.fits hinv.yield)
  exact absurd (hcrowd.lt_of_poke hinv hpoke) (lt_irrefl _)

end MoneyMarket
