/-
A poke of a position goes through. Whatever its pool answers to the calls of the poke, and whether it
answers at all, none of the four branches reverts while the products of the call fit: what the branches
subtract is counted in what they subtract it from, what they add is HOLLAR of the ledger, and the
settlement at the end goes through. So a poke of an open position reverts for the breaker alone
(`poke_goes_iff`), and a pool that refuses everything cannot hold it up.
-/
import MoneyMarket.Vault.Breaker
import MoneyMarket.Vault.Refusal
import MoneyMarket.Vault.Terms

namespace MoneyMarket

open Evm Relation

/-! ## What has to fit -/

/-- The products of a poke fit: the rates over the time that has passed, and in wads the assets with all that
can have accrued and all the HOLLAR there is. -/
structure StepFits (s : State) : Prop where
  accrual : s.now * s.yieldRateSum < uintSize
  wide : (s.totalInvestedPrincipal + s.totalPendingYield + s.now * s.yieldRateSum / yearWad + s.token.totalSupply) *
    wad < uintSize

section Fits

variable {s t : State}

/-- What has accrued is what the rates give over the time that has passed, at most. -/
theorem accruedYield_le (hy : YieldBook s.now s.toBook) {accrued : Nat} (h : accruedYield s = .ok accrued) :
    accrued ≤ s.now * s.yieldRateSum / yearWad := by
  rw [accruedYield_eq hy] at h
  split_ifs at h
  cases h
  apply Nat.div_le_div_right
  calc s.toBook.accrued (s.toBook.stop s.now)
      ≤ s.toBook.stop s.now * s.yieldRateSum := by rw [hy.accrual]; exact Nat.le_add_left _ _
    _ ≤ s.now * s.yieldRateSum := Nat.mul_le_mul_right _ (Book.stop_le_now _ _)

/-- What a cap makes pending is no more than what it takes from the rates. -/
theorem caps_ahead {now : Nat} {b b' : Book} (hy : YieldBook now b) (h : ReflTransGen (Cap now) b b') :
    b'.totalPendingYield + now * b'.yieldRateSum / yearWad ≤ b.totalPendingYield + now * b.yieldRateSum / yearWad := by
  have hall : YieldBook now b' ∧ b'.totalPendingYield + now * b'.yieldRateSum / yearWad ≤
      b.totalPendingYield + now * b.yieldRateSum / yearWad := by
    induction h with
    | refl => exact ⟨hy, le_refl _⟩
    | @tail x y _ hc ih =>
      obtain ⟨hx, hle⟩ := ih
      cases hc with
      | cap entry pos hroot hdue hpos hstart =>
        obtain ⟨hu, -, hx'⟩ := hx.cap hroot hpos
        have hrate := hx.rate_le_sum (List.mem_of_getElem? hpos) hu
        refine ⟨hx', le_trans ?_ hle⟩
        have hcapped : pos.rate * (entryMaturity entry - pos.yieldStartTime) / yearWad ≤ now * pos.rate / yearWad := by
          apply Nat.div_le_div_right
          rw [Nat.mul_comm now]
          exact Nat.mul_le_mul_left _ (by omega)
        have hsplit : now * x.yieldRateSum = now * pos.rate + now * (x.yieldRateSum - pos.rate) := by
          rw [← Nat.mul_add]
          congr 1
          omega
        have hfloor : now * pos.rate / yearWad + now * (x.yieldRateSum - pos.rate) / yearWad ≤
            (now * pos.rate + now * (x.yieldRateSum - pos.rate)) / yearWad := Nat.div_add_div_le_add_div
        rw [← hsplit] at hfloor
        show x.totalPendingYield + pos.rate * (entryMaturity entry - pos.yieldStartTime) / yearWad +
          now * (x.yieldRateSum - pos.rate) / yearWad ≤ _
        omega
  exact hall.2

/-- The rate of a state that fits is defined. -/
theorem StepFits.priced {d : Deployment} (h : StepFits s) (hinv : Invariant d s) : PricedFits s := by
  intro accrued haccrued
  refine lt_of_le_of_lt (Nat.mul_le_mul_right _ ?_) h.wide
  have haccrued := accruedYield_le hinv.yield haccrued
  have hbacked := hinv.backed
  have hbalance := hinv.token.conserved.balance_le d.self
  omega

/-- Nothing has to fit that is worth more than before. -/
theorem StepFits.lower (h : StepFits s) (hnow : t.now = s.now) (hrates : t.yieldRateSum ≤ s.yieldRateSum)
    (hsum : t.totalInvestedPrincipal + t.totalPendingYield + t.now * t.yieldRateSum / yearWad + t.token.totalSupply ≤
      s.totalInvestedPrincipal + s.totalPendingYield + s.now * s.yieldRateSum / yearWad + s.token.totalSupply) :
    StepFits t where
  accrual := by
    rw [hnow]
    exact lt_of_le_of_lt (Nat.mul_le_mul_left _ hrates) h.accrual
  wide := lt_of_le_of_lt (Nat.mul_le_mul_right _ hsum) h.wide

end Fits

/-- A state between two branches of a poke with the breaker disabled. -/
structure Between (d : Deployment) (i : Nat) (s : State) : Prop where
  inv : Invariant d s
  inside : i < s.positions.length
  fits : StepFits s
  disabled : s.principalMismatchBpsThreshold = 10000

section Branches

variable {d : Deployment} {env : Replies} {s t : State} {pool : Address} {i : Nat} {pos : NFTPosition} {f : Flow}

/-- Its parts fit with room to spare. -/
theorem Between.parts (h : Between d i s) :
    (s.totalInvestedPrincipal + s.totalPendingYield + s.token.totalSupply) * wad < uintSize :=
  lt_of_le_of_lt (Nat.mul_le_mul_right _ (Nat.add_le_add_right (Nat.le_add_right _ _) _)) h.fits.wide

/-- A payment of the ledger leaves the supply. -/
theorem poolPay_supply {paid : Option Nat} {token token' : ERC20} (h : poolPay d paid token pool = some token') :
    token'.totalSupply = token.totalSupply := by
  unfold poolPay at h
  split at h
  · cases h
  · split at h
    · rename_i ht
      cases h
      obtain ⟨-, -, -, rfl⟩ := ERC20.transfer_ok_iff.1 ht
      rfl
    · cases h

/-- What arrives is HOLLAR of the ledger, and fits beside what the vault holds. -/
theorem Between.received (h : Between d i s) {paid : Option Nat} {token : ERC20}
    (hpay : poolPay d paid s.token pool = some token) :
    s.token.balanceOf d.self ≤ token.balanceOf d.self ∧
      s.idleHollar + s.totalReservedHollar + arrived d s.token token ≤ s.token.totalSupply := by
  obtain ⟨hplain, hle⟩ := poolPay_some hpay
  have hbalance := (hplain h.inv.token).conserved.balance_le d.self
  have hbacked := h.inv.backed
  rw [poolPay_supply hpay] at hbalance
  unfold arrived
  exact ⟨hle, by omega⟩

/-- With the breaker disabled a shortfall of what fits passes. -/
theorem Between.noDrift (hdisabled : s.principalMismatchBpsThreshold = 10000) {expected received : Nat}
    {error : Nat → VaultError} (hfits : expected * wad < uintSize) :
    requireNoDrift s expected received error = .ok () := by
  refine (requireNoDrift_ok_iff (p := ⟨0, true, expected, received⟩)).2 ⟨fun _ _ => ?_, ?_⟩
  · have hwad : 10000 ≤ wad := by decide
    exact lt_of_le_of_lt (Nat.mul_le_mul (Nat.sub_le _ _) hwad) hfits
  · rw [hdisabled]
    exact Payout.roundsWithin_all _

/-- A position that only moves on leaves all that has to fit. -/
theorem Between.setPosition (h : Between d i s) (pos' : NFTPosition)
    (hworks : Works d s [] (MoneyMarket.setPosition s i pos')) : Between d i (MoneyMarket.setPosition s i pos') where
  inv := h.inv.pokes hworks.pokes
  inside := by
    show i < (s.positions.set i pos').length
    rw [List.length_set]
    exact h.inside
  fits := ⟨h.fits.accrual, h.fits.wide⟩
  disabled := h.disabled

theorem requestYieldBranch_goes (env : Replies) (pool : Address) (h : Between d i s) :
    ∃ f, requestYieldBranch env pool i s = .ok f ∧ Between d i f.state := by
  obtain ⟨pos, hpos⟩ : ∃ pos, s.positions[i]? = some pos := ⟨_, List.getElem?_eq_getElem h.inside⟩
  have hmoves : ∀ state, Asks s.now pos state → Between d i (MoneyMarket.setPosition s i { pos with state }) := by
    intro state hasks
    exact h.setPosition _ (.single ⟨.ask i pos state hpos hasks, le_refl _⟩)
  simp only [requestYieldBranch, bind_ok_iff, readAt_ok_iff]
  by_cases hactive : pos.state = .active ∧ pos.maturityTime ≤ s.now
  · by_cases hcapped : pos.yieldCapped = false
    · exact ⟨_, ⟨pos, hpos, by rw [if_pos hactive, if_pos hcapped]; rfl⟩, h⟩
    · by_cases hzero : pos.pendingYield = 0
      · exact ⟨_, ⟨pos, hpos, by rw [if_pos hactive, if_neg hcapped, if_pos hzero]; rfl⟩,
          hmoves _ (.skipYield hactive.1 hactive.2 (by simpa using hcapped) hzero)⟩
      · by_cases hasked : (env.pool pool).requestYieldWithdrawal = true
        · exact ⟨_, ⟨pos, hpos, by rw [if_pos hactive, if_neg hcapped, if_neg hzero, if_pos hasked]; rfl⟩,
            hmoves _ (.requestYield hactive.1 hactive.2 (by simpa using hcapped) hzero)⟩
        · exact ⟨_, ⟨pos, hpos, by rw [if_pos hactive, if_neg hcapped, if_neg hzero, if_neg hasked]; rfl⟩, h⟩
  · exact ⟨_, ⟨pos, hpos, by rw [if_neg hactive]; rfl⟩, h⟩

theorem requestPrincipalBranch_goes (env : Replies) (pool : Address) (h : Between d i s) :
    ∃ f, requestPrincipalBranch env pool i s = .ok f ∧ Between d i f.state := by
  obtain ⟨pos, hpos⟩ : ∃ pos, s.positions[i]? = some pos := ⟨_, List.getElem?_eq_getElem h.inside⟩
  simp only [requestPrincipalBranch, bind_ok_iff, readAt_ok_iff]
  by_cases hclaimed : pos.state = .yieldClaimed
  · by_cases hasked : (env.pool pool).requestPrincipalWithdrawal = true
    · exact ⟨_, ⟨pos, hpos, by rw [if_pos hclaimed, if_pos hasked]; rfl⟩,
        h.setPosition _ (.single ⟨.ask i pos _ hpos (.requestPrincipal hclaimed), le_refl _⟩)⟩
    · exact ⟨_, ⟨pos, hpos, by rw [if_pos hclaimed, if_neg hasked]; rfl⟩, h⟩
  · exact ⟨_, ⟨pos, hpos, by rw [if_neg hclaimed]; rfl⟩, h⟩

/-- The yield is counted as pending, and its payment fits. -/
theorem executeYieldBranch_goes (env : Replies) (pool : Address) (h : Between d i s) :
    ∃ f, executeYieldBranch d env pool i s = .ok f ∧ Between d i f.state := by
  obtain ⟨pos, hpos⟩ : ∃ pos, s.positions[i]? = some pos := ⟨_, List.getElem?_eq_getElem h.inside⟩
  have hparts := h.parts
  have hpending := h.inv.lifecycle.pending_le hpos
  by_cases hstate : pos.state = .yieldWithdrawalRequested
  · cases hpay : poolPay d (env.pool pool).executeYieldWithdrawal s.token pool with
    | none =>
      refine ⟨⟨s, [], true⟩, ?_, h⟩
      simp only [executeYieldBranch, bind_ok_iff, readAt_ok_iff]
      refine ⟨pos, hpos, ?_⟩
      rw [if_pos hstate, hpay]
      rfl
    | some token =>
      obtain ⟨hle, hheld⟩ := h.received hpay
      have hrun : executeYieldBranch d env pool i s = .ok ⟨MoneyMarket.setPosition
          { s with
            token, totalPendingYield := s.totalPendingYield - pos.pendingYield
            idleHollar := s.idleHollar + arrived d s.token token } i
          { pos with pendingYield := 0, state := .yieldClaimed },
          [⟨i, false, pos.pendingYield, arrived d s.token token⟩], false⟩ := by
        simp only [executeYieldBranch, bind_ok_iff, readAt_ok_iff]
        refine ⟨pos, hpos, ?_⟩
        rw [if_pos hstate, hpay]
        simp only [bind_ok_iff, checkedSub_ok_iff, checkedAdd_ok_iff, pure_ok_iff]
        refine ⟨_, ⟨hle, rfl⟩, _, ⟨hpending, rfl⟩, _, ⟨?_, rfl⟩, (), ?_, rfl⟩
        · have hsupply := h.inv.token.supply
          unfold arrived at hheld
          omega
        · apply Between.noDrift h.disabled
          exact lt_of_le_of_lt (Nat.mul_le_mul_right _ (by omega)) hparts
      refine ⟨_, hrun, h.inv.pokes (executeYieldBranch_works hrun).pokes, ?_, ?_, h.disabled⟩
      · show i < (s.positions.set i _).length
        rw [List.length_set]
        exact h.inside
      · refine StepFits.lower h.fits ?_ ?_ ?_
        · rfl
        · exact le_refl _
        show s.totalInvestedPrincipal + (s.totalPendingYield - pos.pendingYield) + s.now * s.yieldRateSum / yearWad +
          token.totalSupply ≤ _
        rw [poolPay_supply hpay]
        omega
  · refine ⟨⟨s, [], false⟩, ?_, h⟩
    simp only [executeYieldBranch, bind_ok_iff, readAt_ok_iff]
    refine ⟨pos, hpos, ?_⟩
    rw [if_neg hstate]
    rfl

/-- Words below half the range subtract as integers. -/
theorem checkedDelta_goes {a b : Nat} (ha : a < 2 ^ 255) (hb : b < 2 ^ 255) :
    (checkedDelta a b : Tx Int) = .ok ((a : Int) - b) := by
  unfold checkedDelta asInt256
  rw [if_pos ha, if_pos hb, if_pos (by omega)]

/-- The distribution goes through: the rate fits, and the settlement at it. -/
theorem distribute_goes (h : Invariant d s) (hfits : StepFits s) : ∃ t, distribute s = .ok t := by
  unfold distribute
  split_ifs
  · obtain ⟨rate, hrate⟩ := exchangeRate_goes h.yield hfits.accrual (hfits.priced h)
    obtain ⟨r, -, hsettle⟩ := h.settles hrate
    refine ⟨_, bind_ok_iff.2 ⟨rate, hrate, bind_ok_iff.2 ⟨_, hsettle, rfl⟩⟩⟩
  · exact ⟨s, rfl⟩

/-- The principal is counted as invested, its payment fits, and what it frees is distributed. -/
theorem executePrincipalBranch_goes (env : Replies) (pool : Address) (h : Between d i s) :
    ∃ f, executePrincipalBranch d env pool i s = .ok f := by
  obtain ⟨pos, hpos⟩ : ∃ pos, s.positions[i]? = some pos := ⟨_, List.getElem?_eq_getElem h.inside⟩
  have hparts := h.parts
  simp only [executePrincipalBranch, bind_ok_iff, readAt_ok_iff]
  by_cases hstate : pos.state = .principalWithdrawalRequested
  · have hprincipal := h.inv.lifecycle.principal_le hpos (by rw [hstate]; decide)
    cases hpay : poolPay d (env.pool pool).executePrincipalWithdrawal s.token pool with
    | none =>
      refine ⟨⟨s, [], true⟩, pos, hpos, ?_⟩
      rw [if_pos hstate]
      rfl
    | some token =>
      obtain ⟨hle, hheld⟩ := h.received hpay
      have hwad : 2 ≤ wad := by decide
      have hhalf : ∀ n, n * wad < uintSize → n < 2 ^ 255 := by
        intro n hn
        have hdouble := Nat.mul_le_mul_left n hwad
        simp only [uintSize] at hn
        omega
      set paid := MoneyMarket.setPosition
        { s with
          token, totalInvestedPrincipal := s.totalInvestedPrincipal - pos.principal
          idleHollar := s.idleHollar + arrived d s.token token } i { pos with state := .redeemed } with hpaid
      have hworks : Works d s [⟨i, true, pos.principal, arrived d s.token token⟩] (sweepPositionHead paid) :=
        .step ⟨.principalPaid i pos token _ hpos hstate ⟨(poolPay_some hpay).1, by unfold arrived; omega⟩, le_refl _⟩
          sweepPositionHead_works
      have hfits : StepFits (sweepPositionHead paid) := by
        refine StepFits.lower h.fits ?_ ?_ ?_
        · rfl
        · exact le_refl _
        show s.totalInvestedPrincipal - pos.principal + s.totalPendingYield + s.now * s.yieldRateSum / yearWad +
          token.totalSupply ≤ _
        rw [poolPay_supply hpay]
        omega
      obtain ⟨after, hafter⟩ := distribute_goes (h.inv.pokes hworks.pokes) hfits
      have hthreshold : after.principalMismatchBpsThreshold = 10000 := by
        have hsettings := (distribute_still (d := d) hafter).settings
        exact (congrArg Settings.principalMismatchBpsThreshold hsettings).trans h.disabled
      refine ⟨⟨after, [⟨i, true, pos.principal, arrived d s.token token⟩], false⟩, pos, hpos, ?_⟩
      rw [if_pos hstate]
      simp only [bind_ok_iff, checkedSub_ok_iff, checkedAdd_ok_iff, pure_ok_iff]
      refine ⟨_, ⟨hle, rfl⟩, ?_⟩
      have hdelta : ∃ delta, mismatchDelta (arrived d s.token token) pos.principal = .ok delta := by
        unfold mismatchDelta
        split_ifs
        · refine ⟨_, checkedDelta_goes (hhalf _ ?_) (hhalf _ ?_)⟩
          · exact lt_of_le_of_lt (Nat.mul_le_mul_right _ (by omega)) hparts
          · exact lt_of_le_of_lt (Nat.mul_le_mul_right _ (by omega)) hparts
        · exact ⟨0, rfl⟩
      obtain ⟨delta, hdelta⟩ := hdelta
      refine ⟨delta, hdelta, _, ⟨hprincipal, rfl⟩, _, ⟨?_, rfl⟩, after, hafter, (), ?_, rfl⟩
      · have hsupply := h.inv.token.supply
        unfold arrived at hheld
        omega
      · apply Between.noDrift hthreshold
        exact lt_of_le_of_lt (Nat.mul_le_mul_right _ (by omega)) hparts
  · refine ⟨⟨s, [], false⟩, pos, hpos, ?_⟩
    rw [if_neg hstate]
    rfl

/-- One branch after another. -/
theorem Flow.andThen_goes {a : Flow} {next : State → Tx Flow} {P : State → Prop} (ha : P a.state)
    (hnext : ∃ g, next a.state = .ok g ∧ P g.state) : ∃ f, a.andThen next = .ok f ∧ P f.state := by
  unfold Flow.andThen
  split_ifs
  · exact ⟨a, rfl, ha⟩
  · obtain ⟨g, hg, hpg⟩ := hnext
    exact ⟨_, bind_ok_iff.2 ⟨g, hg, rfl⟩, hpg⟩

end Branches

/-! ## The poke -/

section Poke

variable {d : Deployment} {env : Replies} {s : State} {i : Nat} {pos : NFTPosition}

/-- The invariant does not read the threshold. -/
theorem Invariant.withThreshold (h : Invariant d s) (bps : Nat) : Invariant d (s.withThreshold bps) :=
  ⟨h.ledger, h.index, h.fifo, h.yield, h.lifecycle, h.token, h.backed, h.bil, h.escrow, h.unapproved, h.unoperated,
    h.minRedeem⟩

/-- Nothing but the breaker makes the poke of an open position revert. -/
theorem undisturbed (h : Reachable d s) (hpaused : s.paused = false) (hpos : s.positions[i]? = some pos)
    (hopen : pos.state ≠ .redeemed) (hfits : StepFits s) : Undisturbed d env s i := by
  have hpending : s.totalPendingYield * wad < uintSize := by
    refine lt_of_le_of_lt (Nat.mul_le_mul_right _ ?_) hfits.wide
    exact le_trans (Nat.le_add_left _ _) (le_trans (Nat.le_add_right _ _) (Nat.le_add_right _ _))
  obtain ⟨⟨s₁, k⟩, hsync⟩ :=
    (syncMaturities_succeeds_iff h.inv.yield (h.ratesFit hfits.accrual)).2 (sync_fits h hfits.accrual hpending)
  have hinv := h.inv.pokes (syncMaturities_pokes hsync).1
  obtain ⟨b, rfl, hcaps⟩ := syncMaturities_caps hsync
  have hstart : Between d i (State.withThreshold { s with toBook := b } 10000) := by
    refine ⟨hinv.withThreshold 10000, ?_, ?_, rfl⟩
    · show i < b.positions.length
      rw [(caps_frame hcaps).2.1]
      exact (List.getElem?_eq_some_iff.1 hpos).1
    · refine StepFits.lower hfits ?_ ?_ ?_
      · rfl
      · exact caps_rateSum hcaps
      have hahead := caps_ahead h.inv.yield hcaps
      show b.totalInvestedPrincipal + b.totalPendingYield + s.now * b.yieldRateSum / yearWad + s.token.totalSupply ≤ _
      rw [(caps_frame hcaps).2.2]
      omega
  set pool := b.positionPool i
  obtain ⟨f₁, h1, hb₁⟩ := requestYieldBranch_goes env pool hstart
  obtain ⟨f₂, h2, hb₂⟩ := Flow.andThen_goes hb₁ (executeYieldBranch_goes env pool hb₁)
  obtain ⟨f₃, h3, hb₃⟩ := Flow.andThen_goes hb₂ (requestPrincipalBranch_goes env pool hb₂)
  obtain ⟨f₄, h4, -⟩ := Flow.andThen_goes (P := fun _ => True) trivial
    ((executePrincipalBranch_goes env pool hb₃).imp fun _ hg => ⟨hg, trivial⟩)
  refine ⟨f₄.state, f₄.payouts, ?_⟩
  simp only [pokeDecentral, bind_ok_iff, Prod.exists, pure_ok_iff, Prod.mk.injEq]
  exact ⟨(), require_ok_iff.2 hpaused, pos, readAt_ok_iff.2 hpos, (), require_ok_iff.2 hopen, _, k,
    syncMaturities_withThreshold hsync, f₁, h1, f₂, h2, f₃, h3, f₄, h4, rfl, rfl⟩

/-- In every reachable state, unpaused, while the products fit: a poke of a position goes through, whatever
its pool answers, exactly when the position is open and every shortfall of what the pool pays rounds down
to the threshold of the breaker. -/
theorem poke_goes_iff (env : Replies) (h : Reachable d s) (hpaused : s.paused = false)
    (hpos : s.positions[i]? = some pos) (hfits : StepFits s) :
    (∃ t ps, pokeDecentral d env s i = .ok (t, ps)) ↔
      pos.state ≠ .redeemed ∧ ∀ p ∈ offers d env s i, p.RoundsWithin s.principalMismatchBpsThreshold := by
  rw [pokeDecentral_succeeds_iff]
  refine and_congr_left fun _ => ⟨?_, fun hopen => undisturbed h hpaused hpos hopen hfits⟩
  rintro ⟨t, ps, hpoke⟩
  simp only [pokeDecentral, bind_ok_iff, require_ok_iff, readAt_ok_iff] at hpoke
  obtain ⟨_, -, old, hold, _, hopen, -⟩ := hpoke
  rw [Option.some.inj (hpos.symm.trans hold)]
  exact hopen

end Poke

/-- Every call reverts. -/
def refusing : Replies := ⟨fun _ => ⟨none, none, none, none, none, false, none, false, none⟩, fun _ => ⟨none, none⟩⟩

/-- A pool that pays `amount` of the principal. -/
def paying (amount : Nat) : Replies := demoReplies 0 0 none none (some amount)

/-- The 10 HOLLAR are due under the threshold of 0. The poke goes through where the pool refuses every call,
and where it pays a unit less than that, but not where it pays a thousandth less. -/
theorem poke_goes_iff_demo : ∃ s pos, Reachable demo s ∧ s.principalMismatchBpsThreshold = 0 ∧
    s.positions[0]? = some pos ∧ pos.state = .active ∧ pos.maturityTime ≤ s.now ∧
    offers demo (paying (10 ^ 19 - 10 ^ 16)) s 0 = [⟨0, true, 10 ^ 19, 10 ^ 19 - 10 ^ 16⟩] ∧
    (∃ t ps, pokeDecentral demo refusing s 0 = .ok (t, ps)) ∧
    (∃ t ps, pokeDecentral demo (paying (10 ^ 19 - 1)) s 0 = .ok (t, ps)) ∧
    ¬ ∃ t ps, pokeDecentral demo (paying (10 ^ 19 - 10 ^ 16)) s 0 = .ok (t, ps) := by
  obtain ⟨s, hs, ht⟩ := observe_reach demo DeadSilent demoQuiet demoSetup strictRun
    (fun s => decide (s.principalMismatchBpsThreshold = 0 ∧ s.paused = false ∧
      s.now * s.yieldRateSum < uintSize ∧
      (s.totalInvestedPrincipal + s.totalPendingYield + s.now * s.yieldRateSum / yearWad + s.token.totalSupply) * wad <
        uintSize) &&
      decide (offers demo refusing s 0 = [] ∧ offers demo (paying (10 ^ 19 - 1)) s 0 = [⟨0, true, 10 ^ 19, 10 ^ 19 - 1⟩] ∧
        offers demo (paying (10 ^ 19 - 10 ^ 16)) s 0 = [⟨0, true, 10 ^ 19, 10 ^ 19 - 10 ^ 16⟩]) &&
      s.positions[0]?.any fun (pos : NFTPosition) => decide (pos.state = .active ∧ pos.maturityTime ≤ s.now))
    (by decide +kernel)
  rw [Bool.and_eq_true, Bool.and_eq_true, decide_eq_true_iff, decide_eq_true_iff] at ht
  obtain ⟨⟨⟨hthreshold, hpaused, haccrual, hwide⟩, hnothing, hunit, hshort⟩, ht⟩ := ht
  obtain ⟨pos, hpos, ht⟩ := (Option.any_eq_true _ _).1 ht
  obtain ⟨hactive, hdue⟩ := of_decide_eq_true ht
  have hgoes := fun env => poke_goes_iff env hs.of_restrict hpaused hpos ⟨haccrual, hwide⟩
  have hopen : pos.state ≠ .redeemed := by rw [hactive]; decide
  refine ⟨s, pos, hs.of_restrict, hthreshold, hpos, hactive, hdue, hshort, ?_, ?_, ?_⟩
  · refine (hgoes refusing).2 ⟨hopen, fun p hp => ?_⟩
    rw [hnothing] at hp
    cases hp
  · refine (hgoes _).2 ⟨hopen, fun p hp => ?_⟩
    rw [hunit, List.mem_singleton] at hp
    rw [hp, hthreshold]
    decide
  · rw [hgoes, hshort, hthreshold]
    rintro ⟨-, hall⟩
    exact absurd (hall _ (List.mem_singleton_self _)) (by decide)

end MoneyMarket
