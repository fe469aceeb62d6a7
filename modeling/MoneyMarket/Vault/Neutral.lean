/-
What a claim leaves alone. A redeem or a withdraw burns shares that were settled and pays HOLLAR that
was reserved for them, so the active assets, the active shares and every quote on them stay as they
are, and so do all requests of the other controllers (`claim_neutral`).
-/
import MoneyMarket.Queue.Locks
import MoneyMarket.Vault.Claiming
import MoneyMarket.Vault.Solvency
import MoneyMarket.Vault.Value
import MoneyMarket.Vault.Views

namespace MoneyMarket

open Evm Relation Transition

/-! ## The call -/

/-- A redeem or a withdraw on `c` that succeeds. -/
def Claims (d : Deployment) (s : State) (c : Address) (t : State) : Prop :=
  (∃ sender shares receiver paid, redeem d s sender shares receiver c = .ok (t, paid)) ∨
    ∃ sender assets receiver burnt, withdraw d s sender assets receiver c = .ok (t, burnt)

/-! ## The price -/

/-- Two states that the pricing views cannot tell apart, up to the reserve and the settled shares. -/
structure SamePrice (s t : State) : Prop where
  book : t.toBook = s.toBook
  settings : t.toSettings = s.toSettings
  now : t.now = s.now
  idle : t.idleHollar = s.idleHollar
  reserved_le : t.totalReservedHollar ≤ s.totalReservedHollar
  supply : t.bil.totalSupply + s.totalSettledBil = s.bil.totalSupply + t.totalSettledBil
  supply_le : t.bil.totalSupply ≤ s.bil.totalSupply
  settled_le : t.totalSettledBil ≤ t.bil.totalSupply

theorem Claimed.samePrice {d : Deployment} {u : ClaimUnit} {c receiver : Address} {r : ClaimRun} {s t : State}
    (hinv : Invariant d s) (h : Claimed d u c receiver r s t) : SamePrice s t := by
  have hle := hinv.settled_le_supply
  obtain ⟨hshares, -⟩ := h.within
  have hsettled : t.totalSettledBil = s.totalSettledBil - r.shares := congrArg Redemptions.totalSettledBil h.queue
  have hreserved : t.totalReservedHollar = s.totalReservedHollar - r.assets :=
    congrArg Redemptions.totalReservedHollar h.queue
  have hsupply : t.bil.totalSupply = s.bil.totalSupply - r.shares := by
    obtain ⟨-, -, hbil⟩ := ERC20.burn_ok_iff.1 h.burned
    rw [← hbil]
  refine ⟨by rw [h.rest], by rw [h.rest], by rw [h.rest], by rw [h.rest], ?_, ?_, ?_, ?_⟩
  · rw [hreserved]; exact Nat.sub_le _ _
  · omega
  · rw [hsupply]; exact Nat.sub_le _ _
  · omega

namespace SamePrice

variable {s t : State}

theorem activeSupply_eq (h : SamePrice s t) : activeSupply t = activeSupply s := by
  rw [MoneyMarket.activeSupply_eq, MoneyMarket.activeSupply_eq]
  have := h.supply
  have := h.settled_le
  omega

theorem activeValue_eq (h : SamePrice s t) : activeValue t = activeValue s := by
  unfold activeValue
  rw [h.book, h.now, h.idle]

theorem accruedYield_eq (h : SamePrice s t) : accruedYield t = accruedYield s := by
  unfold accruedYield accrualTime
  rw [h.book, h.now]

/-- The total falls by what the reserve does. -/
theorem total (h : SamePrice s t) {total : Nat} (ht : totalAssets s = .ok total) :
    ∃ total', totalAssets t = .ok total' ∧ total' + s.totalReservedHollar = total + t.totalReservedHollar := by
  obtain ⟨accrued, hacc, hsum, hlt⟩ := totalAssets_ok_iff.1 ht
  have hle := h.reserved_le
  refine ⟨total - s.totalReservedHollar + t.totalReservedHollar, totalAssets_ok_iff.2 ⟨accrued, ?_, ?_, ?_⟩, ?_⟩
  · rw [h.accruedYield_eq, hacc]
  · rw [h.book, h.idle]; omega
  · omega
  · omega

theorem activeAssets_eq (h : SamePrice s t) {total : Nat} (ht : totalAssets s = .ok total) :
    activeAssets t = activeAssets s := by
  obtain ⟨total', ht', hsum⟩ := h.total ht
  rw [activeAssets_of_total ht, activeAssets_of_total ht']
  congr 1
  obtain ⟨accrued, -, hs, -⟩ := totalAssets_ok_iff.1 ht
  obtain ⟨accrued', -, ht, -⟩ := totalAssets_ok_iff.1 ht'
  omega

/-- The views that read the active assets and the active shares alone. -/
theorem quotes (h : SamePrice s t) {total : Nat} (ht : totalAssets s = .ok total) :
    exchangeRate t = exchangeRate s ∧ previewMint t = previewMint s ∧ previewRedeem t = previewRedeem s ∧
      convertToShares t = convertToShares s ∧ convertToAssets t = convertToAssets s := by
  have hA := h.activeAssets_eq ht
  have hS := h.activeSupply_eq
  refine ⟨?_, ?_, ?_, ?_, ?_⟩
  · unfold exchangeRate; rw [hA, hS]
  · funext shares; unfold previewMint; rw [hA, hS]
  · funext shares; unfold previewRedeem; rw [hA, hS]
  · funext assets; unfold convertToShares; rw [hA, hS]
  · funext shares; unfold convertToAssets; rw [hA, hS]

/-- A deposit is priced as before, unless the last shares are gone. -/
theorem previewDeposit_eq (h : SamePrice s t) {total : Nat} (ht : totalAssets s = .ok total)
    (hsupply : t.bil.totalSupply = 0 ↔ s.bil.totalSupply = 0) : previewDeposit t = previewDeposit s := by
  funext assets
  unfold previewDeposit
  rw [h.activeAssets_eq ht, h.activeSupply_eq]
  simp only [hsupply]

/-- What a deposit would mint it still mints. -/
theorem previewDeposit_ok (h : SamePrice s t) {assets shares : Nat} (hq : previewDeposit s assets = .ok shares) :
    previewDeposit t assets = .ok shares := by
  by_cases h0 : s.bil.totalSupply = 0
  · have ht0 : t.bil.totalSupply = 0 := Nat.le_zero.1 (h0 ▸ h.supply_le)
    unfold previewDeposit at hq ⊢
    rw [if_pos h0] at hq
    rw [if_pos ht0]
    exact hq
  · have hq' := hq
    unfold previewDeposit at hq'
    rw [if_neg h0] at hq'
    simp only [bind_ok_iff, require_ok_iff] at hq'
    obtain ⟨_, -, active, hactive, _, ⟨-, hpos⟩, -⟩ := hq'
    simp only [activeAssets, bind_ok_iff] at hactive
    obtain ⟨total, ht, -⟩ := hactive
    rw [h.previewDeposit_eq ht]
    · exact hq
    · -- a price was quoted, so some shares are active
      refine iff_of_false (fun ht0 => hpos ?_) h0
      rw [← h.activeSupply_eq, MoneyMarket.activeSupply_eq, ht0, Nat.zero_sub]

theorem validateDeposit_ok (h : SamePrice s t) {assets : Nat} (hv : validateDeposit s assets = .ok ()) :
    validateDeposit t assets = .ok () := by
  simp only [validateDeposit, bind_ok_iff, require_ok_iff, checkedAdd_ok_iff] at hv ⊢
  obtain ⟨_, hopen, _, hne, total, ht, _, ⟨hlt, rfl⟩, hcap⟩ := hv
  obtain ⟨total', ht', hsum⟩ := h.total ht
  have hle := h.reserved_le
  rw [h.settings]
  exact ⟨(), hopen, (), hne, total', ht', _, ⟨by omega, rfl⟩, by omega⟩

end SamePrice

/-- A deposit mints what the preview says, when its limits let it. -/
theorem validateAndPreviewShares_ok_iff {s : State} {assets shares : Nat} :
    validateAndPreviewShares s assets = .ok shares ↔
      validateDeposit s assets = .ok () ∧ previewDeposit s assets = .ok shares := by
  unfold validateAndPreviewShares previewDeposit
  simp only [bind_ok_iff, require_ok_iff]
  constructor
  · rintro ⟨_, hv, hq⟩
    refine ⟨hv, (), ?_, hq⟩
    simp only [validateDeposit, bind_ok_iff, require_ok_iff] at hv
    obtain ⟨_, -, _, hne, -⟩ := hv
    exact hne
  · rintro ⟨hv, _, -, hq⟩
    exact ⟨(), hv, hq⟩

/-! ## Neutrality -/

/-- In every reachable state a successful claim on `c` leaves the active assets and shares, the rate
and every quote on them (that of a deposit unless no share is left, which takes the dead ones), the
idle HOLLAR, what is pending in each request, and all requests and claimable amounts of the other
controllers. -/
theorem claim_neutral {d : Deployment} {s t : State} {c : Address} (h : Reachable d s) (hc : Claims d s c t) :
    (∀ total, totalAssets s = .ok total →
      (∃ total', totalAssets t = .ok total' ∧ total' + s.totalReservedHollar = total + t.totalReservedHollar) ∧
      exchangeRate t = exchangeRate s ∧ previewMint t = previewMint s ∧ previewRedeem t = previewRedeem s ∧
      convertToShares t = convertToShares s ∧ convertToAssets t = convertToAssets s ∧
      ((silentVault d).Reach s ∨ t.bil.totalSupply ≠ 0 → previewDeposit t = previewDeposit s)) ∧
    activeValue t = activeValue s ∧
    t.bil.totalSupply + s.totalSettledBil = s.bil.totalSupply + t.totalSettledBil ∧
    (∀ assets shares, previewDeposit s assets = .ok shares → previewDeposit t assets = .ok shares) ∧
    (∀ assets shares, validateAndPreviewShares s assets = .ok shares →
      validateAndPreviewShares t assets = .ok shares) ∧
    (∀ assets, validateDeposit s assets = .ok () → validateDeposit t assets = .ok ()) ∧
    t.idleHollar = s.idleHollar ∧
    (∀ i, (t.redemptionQueue i).bilAmount - (t.redemptionQueue i).bilSettled =
      (s.redemptionQueue i).bilAmount - (s.redemptionQueue i).bilSettled) ∧
    (∀ i, (s.redemptionQueue i).user ≠ c → t.redemptionQueue i = s.redemptionQueue i) ∧
    (∀ i, (s.redemptionQueue i).user = c → (t.redemptionQueue i).user = c ∨ t.redemptionQueue i = Request.empty) ∧
    ∀ c', c' ≠ c → maxRedeem t c' = maxRedeem s c' ∧ maxWithdraw t c' = maxWithdraw s c' := by
  have hinv := h.inv
  obtain ⟨u, receiver, r, hclaim⟩ : ∃ u receiver r, Claimed d u c receiver r s t := by
    rcases hc with ⟨_, _, receiver, _, hr⟩ | ⟨_, _, receiver, _, hw⟩
    · obtain ⟨r, -, -, -, -, hclaim⟩ := redeem_claimed hinv.ledger hr
      exact ⟨_, _, r, hclaim⟩
    · obtain ⟨r, -, -, -, -, hclaim⟩ := withdraw_claimed hinv.ledger hw
      exact ⟨_, _, r, hclaim⟩
  have hprice := hclaim.samePrice hinv
  obtain ⟨hl, hqueue⟩ := draws_untouched hinv.ledger hclaim.draws
  have hindex : IndexSound t.toRedemptions :=
    (queue_sound (draws_moves hclaim.draws) hinv.ledger hinv.index hinv.fifo).2.1
  refine ⟨fun total ht => ?_, hprice.activeValue_eq, hprice.supply, fun _ _ hq => hprice.previewDeposit_ok hq,
    fun assets shares hq => ?_, fun _ hv => hprice.validateDeposit_ok hv, hprice.idle, hqueue.pending, hqueue.others,
    hqueue.own, fun c' hne => ⟨?_, ?_⟩⟩
  · obtain ⟨hrate, hmint, hredeem, hshares, hassets⟩ := hprice.quotes ht
    refine ⟨hprice.total ht, hrate, hmint, hredeem, hshares, hassets, fun hleft => hprice.previewDeposit_eq ht ?_⟩
    constructor
    · intro ht0
      by_contra hs0
      rcases hleft with hsilent | hleft
      · -- the dead shares are not settled, so they are not claimed
        have hactive := hinv.dead_active ((silent_deadShares hsilent).held hs0)
        have hsupply := hprice.supply
        have hpos : 0 < deadShares := by decide
        omega
      · exact hleft ht0
    · intro hs0
      exact Nat.le_zero.1 (hs0 ▸ hprice.supply_le)
  · rw [validateAndPreviewShares_ok_iff] at hq ⊢
    exact ⟨hprice.validateDeposit_ok hq.1, hprice.previewDeposit_ok hq.2⟩
  · have heq := hqueue.claimable_eq hinv.index Request.bilSettled hne
    rw [hinv.maxRedeem, maxRedeem_eq hindex, heq]
    rw [heq]
    exact lt_of_le_of_lt (claimable_settled_le hinv.index hinv.ledger c') hinv.settled_lt
  · have heq := hqueue.claimable_eq hinv.index Request.hollarOwed hne
    rw [hinv.maxWithdraw, maxWithdraw_eq hindex, heq]
    rw [heq]
    exact lt_of_le_of_lt (claimable_owed_le hinv.index hinv.ledger c') hinv.reserved_lt

/-- Alice redeems the first of her requests to bob. -/
theorem claim_neutral_demo : ∃ s t : State, s.settledByController alice = [0, 1] ∧
    t.settledByController alice = [0] ∧ t.idleHollar = s.idleHollar := by
  obtain ⟨s, t, ps, hs, -, hstep, ht⟩ := observe_step demo DeadSilent demoQuiet demoSetup demoRun
    (.call alice demoQuiet (.redeem (30 * 10 ^ 18) bob alice))
    (fun s t _ => decide (s.settledByController alice = [0, 1] ∧ t.settledByController alice = [0]))
    (by decide +kernel)
  simp only [step, Call.run, bind_ok_iff, pure_ok_iff, Prod.exists, Prod.mk.injEq] at hstep
  obtain ⟨_, paid, hredeem, rfl, -⟩ := hstep
  have hneutral := claim_neutral hs.of_restrict (.inl ⟨alice, _, bob, paid, hredeem⟩)
  exact ⟨s, _, (of_decide_eq_true ht).1, (of_decide_eq_true ht).2, hneutral.2.2.2.2.2.2.1⟩

end MoneyMarket
