/-
The books balance. Next to every run of the vault a tally of HOLLAR is kept: what deposits paid in, what
claims paid out, and what the payouts of the pools brought beyond and short of what was recorded for
them. In every state what the vault has on its books is exactly what came in less what went out, with
the yield the positions locked in at their maturities (`books_balance`); so the total it reports covers
what was paid in, and is no more than that with the yield promised at the deposits.
-/
import MoneyMarket.Vault.Claiming
import MoneyMarket.Vault.Course
import MoneyMarket.Vault.Value
import MoneyMarket.Vault.Views

namespace MoneyMarket

open Evm Relation Transition

/-! ## The books -/

/-- The HOLLAR on the books: invested, locked in as yield, idle and reserved. -/
def booked (s : State) : Nat := s.totalInvestedPrincipal + s.totalPendingYield + s.idleHollar + s.totalReservedHollar

/-- The yield a position locked in when it was capped. -/
def NFTPosition.earned (pos : NFTPosition) : Nat := if pos.yieldCapped then pos.yieldAt pos.maturityTime else 0

/-- The yield a position has over its whole term, in units of `yearWad`. -/
def NFTPosition.promised (pos : NFTPosition) : Nat := pos.rate * (pos.maturityTime - pos.yieldStartTime)

def Book.earned (b : Book) : Nat := (b.positions.map NFTPosition.earned).sum

def Book.promised (b : Book) : Nat := (b.positions.map NFTPosition.promised).sum

/-- What the payouts of a call fall short of what was recorded for them. -/
def shortfall (ps : List Payout) : Nat := (ps.map fun p => p.expected - p.received).sum

/-- And what they bring beyond it. -/
def surplus (ps : List Payout) : Nat := (ps.map fun p => p.received - p.expected).sum

/-- From `s` to `t` the books move by the HOLLAR paid in and out, the payouts and the yield locked in. -/
def Balanced (s t : State) (ps : List Payout) (paidIn paidOut : Nat) : Prop :=
  booked t + paidOut + shortfall ps + s.toBook.earned = booked s + paidIn + surplus ps + t.toBook.earned

section Books

variable {b b' : Book} {i : Nat} {pos pos' : NFTPosition}

/-- A position rewritten with its terms and its flag has earned the same. -/
theorem Book.earned_rewrite (hi : b.positions[i]? = some pos) (hpos : b'.positions = b.positions.set i pos')
    (hearned : pos'.earned = pos.earned) : b'.earned = b.earned := by
  have hsum := Sums.sum_map_set NFTPosition.earned pos' hi
  unfold Book.earned
  rw [hpos]
  omega

/-- A cap locks in the yield of its position. -/
theorem YieldBook.earned_cap {now : Nat} (h : YieldBook now b) (hc : Cap now b b') :
    b'.earned + b.totalPendingYield = b.earned + b'.totalPendingYield ∧
      b'.totalInvestedPrincipal = b.totalInvestedPrincipal := by
  cases hc with
  | cap entry pos hroot _ hpos _ =>
    obtain ⟨hlive, hmaturity, -⟩ := h.cap hroot hpos
    have hsum := Sums.sum_map_set NFTPosition.earned (pos.cap (pos.yieldAt (entryMaturity entry))) hpos
    have hold : pos.earned = 0 := if_neg (by rw [hlive]; exact Bool.false_ne_true)
    have hnew : (pos.cap (pos.yieldAt (entryMaturity entry))).earned = pos.yieldAt (entryMaturity entry) := by
      rw [← hmaturity]
      rfl
    refine ⟨?_, rfl⟩
    unfold Book.earned
    show ((b.positions.set _ _).map NFTPosition.earned).sum + b.totalPendingYield =
      (b.positions.map NFTPosition.earned).sum + (b.totalPendingYield + pos.yieldAt (entryMaturity entry))
    omega

theorem Book.earned_opened (b : Book) (pool : Address) (tokenId apyWad amount period now : Nat) :
    (b.opened pool tokenId apyWad amount period now).earned = b.earned := by
  unfold Book.earned Book.opened
  rw [List.map_append, List.sum_append]
  rfl

/-- What is earned and what accrues is within what was promised. -/
theorem YieldBook.earned_le {now : Nat} (h : YieldBook now b) :
    b.earned + b.accrued (b.stop now) / yearWad ≤ b.promised / yearWad := by
  have heach : ∀ pos ∈ b.positions, pos.earned * yearWad + pos.accrued (b.stop now) ≤ pos.promised := by
    intro pos hp
    unfold NFTPosition.earned NFTPosition.accrued NFTPosition.promised
    cases hc : pos.yieldCapped with
    | true =>
      rw [if_pos rfl, if_pos rfl, Nat.add_zero, NFTPosition.yieldAt]
      exact Nat.div_mul_le_self _ _
    | false =>
      rw [if_neg Bool.false_ne_true, if_neg Bool.false_ne_true, Nat.zero_mul, Nat.zero_add]
      exact Nat.mul_le_mul_left _ (Nat.sub_le_sub_right (h.stop_le_maturity hp hc) _)
  have hall : b.earned * yearWad + b.accrued (b.stop now) ≤ b.promised := by
    unfold Book.earned Book.accrued Book.promised
    rw [← List.sum_map_mul_right, ← List.sum_map_add]
    exact List.sum_le_sum heach
  have hpos : 0 < yearWad := by decide
  calc b.earned + b.accrued (b.stop now) / yearWad
      = (b.earned * yearWad + b.accrued (b.stop now)) / yearWad := by
        rw [Nat.add_comm (b.earned * yearWad), Nat.add_mul_div_right _ _ hpos, Nat.add_comm]
    _ ≤ b.promised / yearWad := Nat.div_le_div_right hall

end Books

theorem shortfall_append (ps qs : List Payout) : shortfall (ps ++ qs) = shortfall ps + shortfall qs := by
  unfold shortfall
  rw [List.map_append, List.sum_append]

theorem surplus_append (ps qs : List Payout) : surplus (ps ++ qs) = surplus ps + surplus qs := by
  unfold surplus
  rw [List.map_append, List.sum_append]

/-! ## The keeper's moves -/

section Keeper

variable {d : Deployment} {s t : State} {ps : List Payout}

theorem Balanced.refl (s : State) : Balanced s s [] 0 0 := rfl

/-- One payout: the books give up what was recorded, and what arrives is idle. -/
theorem Balanced.payout {p : Payout} (hbooked : booked t + p.expected = booked s + p.received)
    (hearned : t.toBook.earned = s.toBook.earned) : Balanced s t [p] 0 0 := by
  unfold Balanced
  show booked t + 0 + (p.expected - p.received + 0) + _ = booked s + 0 + (p.received - p.expected + 0) + _
  omega

theorem Poke.balanced (hinv : Invariant d s) (hp : Poke d s ps t) : Balanced s t ps 0 0 := by
  cases hp with
  | cap hc =>
    rename_i b
    obtain ⟨hearned, hinvested⟩ := hinv.yield.earned_cap hc
    show b.totalInvestedPrincipal + b.totalPendingYield + s.idleHollar + s.totalReservedHollar + 0 + 0 +
      s.toBook.earned = booked s + 0 + 0 + b.earned
    unfold booked
    omega
  | ask i pos state hi _ =>
    have hearned : (s.toBook.setPosition i { pos with state }).earned = s.toBook.earned :=
      Book.earned_rewrite hi rfl rfl
    show booked s + 0 + 0 + s.toBook.earned = booked s + 0 + 0 + (s.toBook.setPosition i { pos with state }).earned
    rw [hearned]
  | yieldPaid i pos token received hi _ _ =>
    have hpending := hinv.lifecycle.pending_le hi
    refine .payout ?_ (Book.earned_rewrite hi rfl rfl)
    show s.totalInvestedPrincipal + (s.totalPendingYield - pos.pendingYield) + (s.idleHollar + received) +
      s.totalReservedHollar + pos.pendingYield = booked s + received
    unfold booked
    omega
  | principalPaid i pos token received hi hstate _ =>
    have hprincipal := hinv.lifecycle.principal_le hi (by rw [hstate]; decide)
    refine .payout ?_ (Book.earned_rewrite hi rfl rfl)
    show s.totalInvestedPrincipal - pos.principal + s.totalPendingYield + (s.idleHollar + received) +
      s.totalReservedHollar + pos.principal = booked s + received
    unfold booked
    omega
  | sweep hs => cases hs; rfl
  | @settle q rate _ _ hfills hle =>
    -- the reserve gains what the idle HOLLAR loses
    obtain ⟨-, -, hreserved, -⟩ := fills_totals hfills
    show s.totalInvestedPrincipal + s.totalPendingYield +
      (s.idleHollar - (q.totalReservedHollar - s.totalReservedHollar)) + q.totalReservedHollar + 0 + 0 +
        s.toBook.earned = booked s + 0 + 0 + s.toBook.earned
    unfold booked
    omega
  | reinvest pool tokenId apyWad amount period token _ hle _ _ _ _ =>
    have hearned := s.toBook.earned_opened pool tokenId apyWad amount period s.now
    show s.totalInvestedPrincipal + amount + s.totalPendingYield + (s.idleHollar - amount) + s.totalReservedHollar + 0 +
      0 + s.toBook.earned =
        booked s + 0 + 0 + (s.toBook.opened pool tokenId apyWad amount period s.now).earned
    unfold booked
    omega
  | refused _ _ => rfl

theorem Pokes.balanced (hinv : Invariant d s) (hp : Pokes d s ps t) : Balanced s t ps 0 0 := by
  refine Moves.reports (I := Invariant d) (R := fun s ps t => Balanced s t ps 0 0) Balanced.refl ?_ ?_ hp hinv
  · intro s ps t qs u h h'
    unfold Balanced at h h' ⊢
    rw [shortfall_append, surplus_append]
    omega
  · intro s ps t hinv hp
    exact ⟨hinv.poke hp, hp.balanced hinv⟩

end Keeper

/-! ## Every step -/

/-- The amount a call returns, if it goes through. -/
def returns (x : Tx (State × Nat)) : Nat :=
  match x with
  | .ok (_, amount) => amount
  | .error _ => 0

/-- The HOLLAR an action pays in. -/
def Action.paidIn (d : Deployment) (s : State) : Action → Nat
  | .call _ _ (.deposit assets _) => assets
  | .call sender env (.mint shares receiver) => returns (mint d env s sender shares receiver)
  | _ => 0

/-- The HOLLAR an action pays out. -/
def Action.paidOut (d : Deployment) (s : State) : Action → Nat
  | .call sender _ (.redeem shares receiver controller) => returns (redeem d s sender shares receiver controller)
  | .call _ _ (.withdraw assets _ _) => assets
  | _ => 0

section Steps

variable {d : Deployment} {env : Replies} {s t : State} {m : Address} {ps : List Payout}

/-- What is neither in the book nor HOLLAR of the vault may change. -/
theorem Balanced.of_rest (hbook : t.toBook = s.toBook) (hidle : t.idleHollar = s.idleHollar)
    (hreserved : t.totalReservedHollar = s.totalReservedHollar) : Balanced s t [] 0 0 := by
  unfold Balanced booked
  rw [hbook, hidle, hreserved]
  rfl

/-- A deposit is invested at once. -/
theorem depositShares_balanced {receiver : Address} {assets shares : Nat}
    (h : depositShares d env s m receiver assets shares = .ok t) : Balanced s t [] assets 0 := by
  obtain ⟨bil₀, bil, token, -, -, -, -, hopen⟩ := depositShares_outlay h
  cases hopen with
  | opened tokenId apyWad period pulled token' _ _ _ =>
    have hearned := s.toBook.earned_opened s.activeDepositPool tokenId apyWad assets period s.now
    show s.totalInvestedPrincipal + assets + s.totalPendingYield + s.idleHollar + s.totalReservedHollar + 0 + 0 +
      s.toBook.earned = booked s + assets + 0 +
        (s.toBook.opened s.activeDepositPool tokenId apyWad assets period s.now).earned
    unfold booked
    omega

/-- A claim is paid out of the reserve. -/
theorem Claimed.balanced {u : ClaimUnit} {c receiver : Address} {r : ClaimRun} (h : Claimed d u c receiver r s t) :
    Balanced s t [] 0 r.assets := by
  have hwithin := h.within.2
  have hreserved : t.totalReservedHollar = s.totalReservedHollar - r.assets :=
    congrArg Redemptions.totalReservedHollar h.queue
  have hbook : t.toBook = s.toBook := by rw [h.rest]
  have hidle : t.idleHollar = s.idleHollar := by rw [h.rest]
  unfold Balanced booked
  rw [hbook, hidle, hreserved]
  show _ + 0 + _ = _ + 0 + 0 + _
  omega

/-- What the keeper does after its sync, with the sync. -/
theorem keeper_pokes {n k : Nat} {s₁ : State} (hsync : syncMaturities s n = .ok (s₁, k)) (hworks : Works d s₁ ps t) :
    Pokes d s ps t :=
  (syncMaturities_pokes hsync).1.trans hworks.pokes

theorem call_balanced {c : Call} (hinv : Invariant d s) (h : c.run d env s m = .ok (t, ps)) :
    Balanced s t ps ((Action.call m env c).paidIn d s) ((Action.call m env c).paidOut d s) := by
  cases c with
  | deposit assets receiver =>
    simp only [Call.run, bind_ok_iff, Prod.exists, pure_ok_iff, Prod.mk.injEq] at h
    obtain ⟨_, shares, h, rfl, rfl⟩ := h
    exact depositShares_balanced (deposit_outlay h).2
  | mint shares receiver =>
    simp only [Call.run, bind_ok_iff, Prod.exists, pure_ok_iff, Prod.mk.injEq] at h
    obtain ⟨_, assets, h, rfl, rfl⟩ := h
    show Balanced s _ [] (returns (mint d env s m shares receiver)) 0
    rw [h]
    exact depositShares_balanced (mint_outlay h).2
  | requestRedeem shares controller owner =>
    simp only [Call.run, requestRedeem, bind_ok_iff, Prod.exists, pure_ok_iff, Prod.mk.injEq] at h
    obtain ⟨_, _, ⟨_, -, _, -, _, -, _, -, _, -, _, -, _, -, _, -, rfl, -⟩, rfl, rfl⟩ := h
    exact .of_rest rfl rfl rfl
  | cancelRedeem requestId =>
    simp only [Call.run, bind_ok_iff, pure_ok_iff, Prod.mk.injEq] at h
    obtain ⟨_, h, rfl, rfl⟩ := h
    obtain ⟨bil, head, -, rfl⟩ := cancelRedeem_eq h
    exact .of_rest rfl rfl rfl
  | redeem shares receiver controller =>
    simp only [Call.run, bind_ok_iff, Prod.exists, pure_ok_iff, Prod.mk.injEq] at h
    obtain ⟨_, paid, h, rfl, rfl⟩ := h
    obtain ⟨r, -, -, hpaid, -, hclaimed⟩ := redeem_claimed hinv.ledger h
    show Balanced s _ [] 0 (returns (redeem d s m shares receiver controller))
    rw [h, ← hpaid]
    exact hclaimed.balanced
  | withdraw assets receiver controller =>
    simp only [Call.run, bind_ok_iff, Prod.exists, pure_ok_iff, Prod.mk.injEq] at h
    obtain ⟨_, burnt, h, rfl, rfl⟩ := h
    obtain ⟨r, -, rfl, -, -, hclaimed⟩ := withdraw_claimed hinv.ledger h
    exact hclaimed.balanced
  | pokeDecentral i =>
    obtain ⟨s₁, k, hsync, hworks⟩ := pokeDecentral_works h
    exact (keeper_pokes hsync hworks).balanced hinv
  | pokeQueue =>
    simp only [Call.run, bind_ok_iff, pure_ok_iff, Prod.mk.injEq] at h
    obtain ⟨_, h, rfl, rfl⟩ := h
    obtain ⟨s₁, k, hsync, hworks⟩ := pokeQueue_works (d := d) h
    exact (keeper_pokes hsync hworks).balanced hinv
  | syncMaturities n =>
    simp only [Call.run, bind_ok_iff, Prod.exists, pure_ok_iff, Prod.mk.injEq] at h
    obtain ⟨_, k, h, rfl, rfl⟩ := h
    exact (syncMaturities_pokes (d := d) h).1.balanced hinv
  | share c =>
    simp only [Call.run, bind_ok_iff, pure_ok_iff, Prod.mk.injEq] at h
    obtain ⟨bil, -, rfl, rfl⟩ := h
    exact .of_rest rfl rfl rfl
  | _ =>
    -- the calls that configure the vault
    obtain ⟨⟨g, f, p⟩, rfl⟩ := Configured.of_run (by trivial) h
    exact .of_rest rfl rfl rfl

theorem step_balanced {a : Action} (hinv : Invariant d s) (h : step d s a = .ok (t, ps)) :
    Balanced s t ps (a.paidIn d s) (a.paidOut d s) := by
  cases a with
  | tick now =>
    cases h
    exact .of_rest rfl rfl rfl
  | call sender env c => exact call_balanced hinv h
  | hollar sender c =>
    simp only [step, bind_ok_iff, pure_ok_iff, Prod.mk.injEq] at h
    obtain ⟨_, -, rfl, rfl⟩ := h
    exact .of_rest rfl rfl rfl
  | hollarMint account amount =>
    simp only [step, bind_ok_iff, pure_ok_iff, Prod.mk.injEq] at h
    obtain ⟨_, -, rfl, rfl⟩ := h
    exact .of_rest rfl rfl rfl
  | hollarBurn account amount =>
    simp only [step, bind_ok_iff, pure_ok_iff, Prod.mk.injEq] at h
    obtain ⟨_, -, rfl, rfl⟩ := h
    exact .of_rest rfl rfl rfl

end Steps

/-! ## Every run -/

/-- What came in and went out over a run. -/
structure Tally where
  paidIn : Nat
  paidOut : Nat
  surplus : Nat
  short : Nat
  deriving DecidableEq

/-- The tally after an action in `s` that credited the payouts `ps`. -/
def Tally.book (tally : Tally) (d : Deployment) (s : State) (a : Action) (ps : List Payout) : Tally where
  paidIn := tally.paidIn + a.paidIn d s
  paidOut := tally.paidOut + a.paidOut d s
  surplus := tally.surplus + MoneyMarket.surplus ps
  short := tally.short + shortfall ps

/-- The runs of the vault with their tally. -/
def talliedVault (d : Deployment) : System (State × Tally) Action where
  init p := (vault d).init p.1 ∧ p.2 = ⟨0, 0, 0, 0⟩
  next p a p' := Legal d p.1 a ∧ ∃ ps, step d p.1 a = .ok (p'.1, ps) ∧ p'.2 = p.2.book d p.1 a ps

theorem Tallied.reachable {d : Deployment} {p : State × Tally} (h : (talliedVault d).Reach p) : Reachable d p.1 := by
  refine h.invariant (I := fun p => Reachable d p.1) ?_ ?_
  · rintro p ⟨hinit, -⟩
    exact .init hinit
  · rintro p a p' - ih ⟨hlegal, ps, hstep, -⟩
    exact .step a ih ⟨hlegal, ps, hstep⟩

/-- Every run of the vault has a tally. -/
theorem Reachable.tallied {d : Deployment} {s : State} (h : Reachable d s) :
    ∃ tally, (talliedVault d).Reach (s, tally) := by
  induction h with
  | init hs => exact ⟨_, .init ⟨hs, rfl⟩⟩
  | @step s t a _ hn ih =>
    obtain ⟨tally, ih⟩ := ih
    obtain ⟨hlegal, ps, hstep⟩ := hn
    exact ⟨tally.book d s a ps, .step a ih ⟨hlegal, ps, hstep, rfl⟩⟩

/-- In every run the HOLLAR on the books with all that was paid out and all that fell short is what was paid
in with the surplus of the payouts and the yield locked in, to the unit. So the total that the vault
reports covers what was paid in and not paid out again, but for the shortfalls, and exceeds it by no more
than the surplus and the yield promised over the terms of the positions. -/
theorem books_balance {d : Deployment} {s : State} {tally : Tally} (h : (talliedVault d).Reach (s, tally)) :
    booked s + tally.paidOut + tally.short = tally.paidIn + tally.surplus + s.toBook.earned ∧
      ∀ total, totalAssets s = .ok total →
        tally.paidIn + tally.surplus ≤ total + tally.paidOut + tally.short ∧
          total + tally.paidOut + tally.short ≤ tally.paidIn + tally.surplus + s.toBook.promised / yearWad := by
  have hbalance : booked s + tally.paidOut + tally.short = tally.paidIn + tally.surplus + s.toBook.earned := by
    refine h.invariant (I := fun p => booked p.1 + p.2.paidOut + p.2.short =
      p.2.paidIn + p.2.surplus + p.1.toBook.earned) ?_ ?_
    · rintro p ⟨⟨env, setup, token, now, -, hinit⟩, hempty⟩
      obtain ⟨g, c, a, -, -, hs⟩ := initializeVault_ok hinit
      rw [hempty, hs]
      rfl
    · rintro p a p' hr hi ⟨-, ps, hstep, hbook⟩
      have hstep := step_balanced (Tallied.reachable hr).inv hstep
      unfold Balanced at hstep
      rw [hbook]
      show booked p'.1 + (p.2.paidOut + a.paidOut d p.1) + (p.2.short + shortfall ps) =
        p.2.paidIn + a.paidIn d p.1 + (p.2.surplus + surplus ps) + p'.1.toBook.earned
      omega
  refine ⟨hbalance, fun total htotal => ?_⟩
  have hyield : YieldBook s.now s.toBook := (Tallied.reachable h).inv.yield
  obtain ⟨accrued, haccrued, rfl, -⟩ := totalAssets_ok_iff.1 htotal
  rw [accruedYield_eq hyield] at haccrued
  split_ifs at haccrued
  cases haccrued
  have hpromised := hyield.earned_le
  unfold booked at hbalance
  generalize s.toBook.accrued (s.toBook.stop s.now) / yearWad = accrued at hpromised ⊢
  omega

/-- The yield of alice's position comes in 645 short and its principal with 7 more, and she claims 20 shares. -/
def unevenRun : List Action :=
  demoFunding ++
    [.call alice (demoReplies (10 ^ 17) 1000 (some (10 ^ 20)) none none) (.deposit (10 ^ 20) alice),
     .call alice demoQuiet (.requestRedeem (30 * 10 ^ 18) alice alice),
     .tick 1000,
     .call bob (demoReplies 0 0 none (some 317097919837000) (some (10 ^ 20 + 7))) (.pokeDecentral 0),
     .call alice demoQuiet (.redeem (20 * 10 ^ 18) alice alice)]

/-- The books balance to the unit. -/
theorem books_balance_demo : ∃ (s : State) (tally : Tally), tally = ⟨10 ^ 20, 20000063419583967400, 7, 645⟩ ∧
    booked s = 80000253678335869607 ∧ s.toBook.earned = 317097919837645 ∧
    booked s + tally.paidOut + tally.short = tally.paidIn + tally.surplus + s.toBook.earned := by
  obtain ⟨⟨s, tally⟩, htallied, ht⟩ := observe_record demo (fun (tally : Tally) s a _ ps => tally.book demo s a ps)
    (M := talliedVault demo) (fun s hs => ⟨hs, rfl⟩) (fun p a t ps hlegal hstep => ⟨hlegal, ps, hstep, rfl⟩)
    demoQuiet demoSetup unevenRun
    (fun p => decide (p.2 = ⟨10 ^ 20, 20000063419583967400, 7, 645⟩ ∧ booked p.1 = 80000253678335869607 ∧
      p.1.toBook.earned = 317097919837645)) (by decide +kernel)
  obtain ⟨htally, hbooked, hearned⟩ := of_decide_eq_true ht
  exact ⟨s, tally, htally, hbooked, hearned, (books_balance htallied).1⟩

end MoneyMarket
