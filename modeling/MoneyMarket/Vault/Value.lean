/-
What the active holders own, step by step: the value of the positions with the idle HOLLAR, and
the shares that are not settled. Every move of the vault revalues them in one of four ways
(`Revalued`); the price of a share is argued from these alone.
-/
import MoneyMarket.Book.Sync
import MoneyMarket.Lib.Ratio
import MoneyMarket.Vault.Invariant

namespace MoneyMarket

open Evm Relation Transition

/-- The active assets, whatever the size of the intermediate products. -/
def activeValue (s : State) : Nat := s.toBook.worth s.now + s.idleHollar

theorem activeSupply_eq (s : State) : activeSupply s = s.bil.totalSupply - s.totalSettledBil := by
  unfold activeSupply
  split_ifs <;> omega

theorem activeAssets_value {s : State} {active : Nat} (h : YieldBook s.now s.toBook)
    (ha : activeAssets s = .ok active) :
    active = activeValue s := by
  simp only [activeAssets, totalAssets, bind_ok_iff, checkedAdd_ok_iff, pure_ok_iff] at ha
  obtain ⟨_, ⟨accrued, hacc, _, ⟨-, rfl⟩, _, ⟨-, rfl⟩, _, ⟨-, rfl⟩, -, rfl⟩, rfl⟩ := ha
  rw [accruedYield_eq h] at hacc
  split at hacc
  · cases hacc
    unfold activeValue Book.worth
    generalize s.toBook.accrued (s.toBook.stop s.now) / yearWad = accrued
    split_ifs <;> omega
  · cases hacc

/-- The rate of a call is the active price, rounded down. -/
theorem exchangeRate_ok {s : State} {rate : Nat} (h : YieldBook s.now s.toBook) (hr : exchangeRate s = .ok rate) :
    (activeSupply s = 0 ∧ rate = wad) ∨ (0 < activeSupply s ∧ rate = activeValue s * wad / activeSupply s) := by
  unfold exchangeRate at hr
  split at hr
  · rename_i h0
    exact .inl ⟨h0, (pure_ok_iff.1 hr).symm⟩
  · rename_i h0
    simp only [bind_ok_iff, checkedMul_ok_iff, checkedDiv_ok_iff] at hr
    obtain ⟨active, hactive, _, ⟨-, rfl⟩, -, rfl⟩ := hr
    rw [activeAssets_value h hactive]
    exact .inr ⟨Nat.pos_of_ne_zero h0, rfl⟩

/-- Shares that the assets cover are worth at least one unit each. -/
theorem wad_le_rate {s : State} {rate : Nat} (h : YieldBook s.now s.toBook) (hr : exchangeRate s = .ok rate)
    (hcover : activeSupply s ≤ activeValue s) : wad ≤ rate := by
  rcases exchangeRate_ok h hr with ⟨-, rfl⟩ | ⟨hpos, rfl⟩
  · exact le_refl _
  · exact Ratio.unit_le_floor hcover hpos

theorem Invariant.settled_le_supply {d : Deployment} {s : State} (h : Invariant d s) :
    s.totalSettledBil ≤ s.bil.totalSupply :=
  le_trans h.ledger.totalSettled_le (le_trans h.escrow (h.bil.conserved.balance_le d.self))

/-! ## The four ways -/

/-- Every payout is at least what was recorded for it. -/
def PaidInFull (ps : List Payout) : Prop := ∀ p ∈ ps, p.expected ≤ p.received

/-- How a move that credits `ps` changes the value and the shares of the active holders. -/
inductive Revalued (ps : List Payout) (s t : State) : Prop
  | kept : activeSupply t = activeSupply s → (PaidInFull ps → activeValue s ≤ activeValue t) →
      t.toBook.cappedCount = s.toBook.cappedCount → Revalued ps s t
  | capped : activeSupply t = activeSupply s → activeValue s ≤ activeValue t + 1 →
      t.toBook.cappedCount = s.toBook.cappedCount + 1 → t.maturityHeap.length < s.maturityHeap.length → Revalued ps s t
  | settled (b h : Nat) : activeSupply s = activeSupply t + b → activeValue s = activeValue t + h →
      h * activeSupply s ≤ b * activeValue s → t.toBook.cappedCount = s.toBook.cappedCount → Revalued ps s t
  | bought (b a : Nat) : activeSupply t = activeSupply s + b → activeValue t = activeValue s + a →
      (0 < activeSupply s → b * activeValue s ≤ a * activeSupply s) → (activeSupply s = 0 → b ≤ a) →
      t.toBook.cappedCount = s.toBook.cappedCount → Revalued ps s t

section Moves

variable {d : Deployment} {s t : State}

/-- A settlement pays the price for the shares it locks, rounded down. -/
theorem settle_revalued {q : Redemptions} {rate : Nat} (hinv : Invariant d s) (hrate : exchangeRate s = .ok rate)
    (hfills : ReflTransGen (Fill rate) s.toRedemptions q)
    (hle : q.totalReservedHollar ≤ s.totalReservedHollar + s.idleHollar)
    (hsettled : q.totalSettledBil ≤ s.bil.totalSupply) :
    Revalued [] s
      { s with toRedemptions := q, idleHollar := s.idleHollar - (q.totalReservedHollar - s.totalReservedHollar) } := by
  obtain ⟨-, hs, hr, hpay⟩ := fills_totals hfills
  have hsupply := activeSupply_eq s
  refine .settled (q.totalSettledBil - s.totalSettledBil) (q.totalReservedHollar - s.totalReservedHollar) ?_ ?_ ?_ rfl
  · rw [activeSupply_eq, activeSupply_eq]
    show s.bil.totalSupply - s.totalSettledBil = s.bil.totalSupply - q.totalSettledBil + _
    omega
  · show s.toBook.worth s.now + s.idleHollar =
      s.toBook.worth s.now + (s.idleHollar - (q.totalReservedHollar - s.totalReservedHollar)) + _
    omega
  · rcases exchangeRate_ok hinv.yield hrate with ⟨h0, -⟩ | ⟨hpos, hval⟩
    · rw [h0, Nat.mul_zero]; exact Nat.zero_le _
    · apply Ratio.pay_at_rate (show 0 < wad by decide) hpay
      rw [hval]
      exact Nat.div_mul_le_self _ _

theorem Poke.revalued {ps : List Payout} (hinv : Invariant d s) (hp : Poke d s ps t) : Revalued ps s t := by
  have ht := hinv.poke hp
  cases hp with
  | cap hc =>
    rename_i b
    obtain ⟨hworth, hcount⟩ := hinv.yield.worth_cap hc
    refine .capped rfl ?_ hcount hc.length_lt
    -- the division of the capped yield on its own rounds down once more
    show s.toBook.worth s.now + s.idleHollar ≤ b.worth s.now + s.idleHollar + 1
    omega
  | ask i pos state hi _ =>
    obtain ⟨hworth, hcount⟩ := Book.worth_ask hi state s.now
    refine .kept rfl (fun _ => ?_) hcount
    show s.toBook.worth s.now + s.idleHollar ≤ (s.toBook.setPosition i { pos with state }).worth s.now + s.idleHollar
    omega
  | yieldPaid i pos token received hi _ _ =>
    obtain ⟨hworth, hcount⟩ := hinv.lifecycle.worth_yieldPaid hi
    refine .kept rfl (fun hfull => ?_) hcount
    have hfull : pos.pendingYield ≤ received := hfull _ (List.mem_singleton_self _)
    -- what the book gives up arrives as idle HOLLAR
    show s.toBook.worth s.now + s.idleHollar ≤ (s.toBook.yieldPaid i pos).worth s.now + (s.idleHollar + received)
    omega
  | principalPaid i pos token received hi hstate _ =>
    obtain ⟨hworth, hcount⟩ := hinv.lifecycle.worth_principalPaid hi hstate
    refine .kept rfl (fun hfull => ?_) hcount
    have hfull : pos.principal ≤ received := hfull _ (List.mem_singleton_self _)
    show s.toBook.worth s.now + s.idleHollar ≤ (s.toBook.principalPaid i pos).worth s.now + (s.idleHollar + received)
    omega
  | sweep hs => cases hs; exact .kept rfl (fun _ => le_refl _) rfl
  | settle rate _ hrate hfills hle => exact settle_revalued hinv hrate hfills hle ht.settled_le_supply
  | reinvest pool tokenId apyWad amount period token hdue hle _ _ hi _ =>
    obtain ⟨hworth, hcount⟩ := hinv.yield.worth_opened hdue hi pool tokenId apyWad amount period
    refine .kept rfl (fun _ => ?_) hcount
    show s.toBook.worth s.now + s.idleHollar ≤
      (s.toBook.opened pool tokenId apyWad amount period s.now).worth s.now + (s.idleHollar - amount)
    omega
  | refused _ _ => exact .kept rfl (fun _ => le_refl _) rfl

theorem mint_supply {token token' : ERC20} {a : Address} {n : Nat} (h : (token.mint a n : Tx ERC20) = .ok token') :
    token'.totalSupply = token.totalSupply + n := by
  obtain ⟨-, -, rfl⟩ := ERC20.mint_ok_iff.1 h
  rfl

/-- A deposit buys shares at the price, or the first ones one to one. -/
theorem deposit_revalued {receiver pool : Address} {assets shares tokenId apyWad period : Nat} {bil₀ bil token : ERC20}
    (hinv : Invariant d s) (hdue : NoneDue s) (hpriced : Priced s assets shares) (hboot : bootstrap s.bil = .ok bil₀)
    (hmint : (bil₀.mint receiver shares : Tx ERC20) = .ok bil) (hi : s.positions.length < 2 ^ 128) :
    Revalued [] s { s with bil, token, toBook := s.toBook.opened pool tokenId apyWad assets period s.now } := by
  obtain ⟨hworth, hcount⟩ := hinv.yield.worth_opened hdue hi pool tokenId apyWad assets period
  have hle := hinv.settled_le_supply
  have hsupply := mint_supply hmint
  have hvalue : activeValue { s with bil, token, toBook := s.toBook.opened pool tokenId apyWad assets period s.now } =
      activeValue s + assets := by
    show (s.toBook.opened pool tokenId apyWad assets period s.now).worth s.now + s.idleHollar =
      s.toBook.worth s.now + s.idleHollar + assets
    omega
  have hS := activeSupply_eq s
  rcases hpriced with ⟨h0, hassets⟩ | ⟨hpos, active, hactive, hprice⟩
  · -- no shares are active: the dead shares are minted too, or all shares are settled
    refine .bought (bil.totalSupply - s.bil.totalSupply) assets ?_ hvalue (fun h => absurd h0 h.ne')
      (fun _ => ?_) hcount
    · rw [activeSupply_eq]
      show bil.totalSupply - s.totalSettledBil = _
      unfold bootstrap at hboot
      split at hboot
      · have := mint_supply hboot; omega
      · cases hboot; omega
    · unfold bootstrap at hboot
      split at hboot
      · have := mint_supply hboot; omega
      · cases hboot; omega
  · have hne : s.bil.totalSupply ≠ 0 := by omega
    rw [bootstrap, if_neg hne] at hboot
    cases hboot
    rw [activeAssets_value hinv.yield hactive] at hprice
    refine .bought shares assets ?_ hvalue (fun _ => hprice) (fun h => absurd h hpos.ne') hcount
    rw [activeSupply_eq]
    show bil.totalSupply - s.totalSettledBil = _
    omega

variable {a : Action}

theorem Act.revalued (hinv : Invariant d s) (ha : Act d a s t) : Revalued [] s t := by
  cases ha with
  | tick now hle =>
    refine .kept rfl (fun _ => ?_) rfl
    have := hinv.yield.worth_tick hle
    show s.toBook.worth s.now + s.idleHollar ≤ s.toBook.worth now + s.idleHollar
    omega
  | ledger _ _ => exact .kept rfl (fun _ => le_refl _) rfl
  | configure _ _ _ _ _ => exact .kept rfl (fun _ => le_refl _) rfl
  | share c bil hcall =>
    refine .kept ?_ (fun _ => le_refl _) rfl
    rw [activeSupply_eq, activeSupply_eq]
    show bil.totalSupply - _ = _
    rw [ERC20.call_totalSupply hcall]
  | deposit receiver pool assets shares tokenId apyWad period bil₀ bil token hdue hpriced hboot hmint _ hi _ =>
    exact deposit_revalued hinv hdue hpriced hboot hmint hi
  | request controller owner shares bil _ _ _ hbil _ =>
    obtain ⟨-, -, -, rfl⟩ := ERC20.transfer_ok_iff.1 hbil
    exact .kept rfl (fun _ => le_refl _) rfl
  | cancel i n bil _ _ _ hbil =>
    rcases hbil with ⟨rfl, -⟩ | hbil
    · exact .kept rfl (fun _ => le_refl _) rfl
    · obtain ⟨-, -, -, rfl⟩ := ERC20.transfer_ok_iff.1 hbil
      exact .kept rfl (fun _ => le_refl _) rfl
  | claim u c receiver amount r bil token _ _ hq hs hr hburn _ =>
    obtain ⟨-, -, rfl⟩ := ERC20.burn_ok_iff.1 hburn
    refine .kept ?_ (fun _ => le_refl _) rfl
    rw [activeSupply_eq, activeSupply_eq]
    show s.bil.totalSupply - r.shares - (s.totalSettledBil - r.shares) = _
    omega

/-- No other action takes an entry off the maturity heap. -/
theorem Act.heap_le (ha : Act d a s t) : s.maturityHeap.length ≤ t.maturityHeap.length := by
  cases ha with
  | deposit receiver pool assets shares tokenId apyWad period _ _ _ _ _ _ _ _ _ _ =>
    have := (Heap.push_perm s.maturityHeap (packEntry (s.now + period) s.positions.length)).length_eq
    rw [List.length_cons] at this
    show s.maturityHeap.length ≤ (Heap.push s.maturityHeap _).length
    omega
  | _ => exact le_refl _

/-- A sync leaves the worth read off the book it starts from. -/
theorem syncMaturities_exact {n k : Nat} (h : YieldBook s.now s.toBook) (hs : syncMaturities s n = .ok (t, k)) :
    k = min n (s.toBook.dueCount s.now) ∧ activeSupply t = activeSupply s ∧
      activeValue t = s.toBook.worthAfter s.now k + s.idleHollar := by
  simp only [syncMaturities, bind_ok_iff, checkedAdd_ok_iff, pure_ok_iff, Prod.mk.injEq] at hs
  obtain ⟨r, hr, _, ⟨-, rfl⟩, rfl, rfl⟩ := hs
  obtain ⟨hk, hworth⟩ := processMaturities_exact (b := s.toBook) h hr
  exact ⟨hk, rfl, congrArg (· + s.idleHollar) hworth⟩

/-- A sync loses a unit for each position it caps at most. -/
theorem syncMaturities_loss {n k : Nat} (h : YieldBook s.now s.toBook) (hs : syncMaturities s n = .ok (t, k)) :
    activeValue s ≤ activeValue t + k := by
  simp only [syncMaturities, bind_ok_iff, checkedAdd_ok_iff, pure_ok_iff, Prod.mk.injEq] at hs
  obtain ⟨r, hr, _, ⟨-, rfl⟩, rfl, rfl⟩ := hs
  have hloss := processMaturities_loss (b := s.toBook) h hr
  show s.toBook.worth s.now + s.idleHollar ≤ (r.onto s.toBook).worth s.now + s.idleHollar + r.processed
  omega

end Moves

end MoneyMarket
