/-
The accrued yield of the vault in every reachable state: one running sum, stopped at the earliest
uncapped maturity, equals the sum over the uncapped positions; and whenever shares are priced it is
the sum of what each position has accrued to its own maturity.
-/
import MoneyMarket.Vault.Invariant
import MoneyMarket.Vault.Replay

namespace MoneyMarket

open Evm Relation Transition

/-- The positions whose yield is not capped yet. -/
def Book.live (b : Book) : List NFTPosition := b.positions.filter fun pos => !pos.yieldCapped

theorem mem_live {b : Book} {pos : NFTPosition} : pos ∈ b.live ↔ pos ∈ b.positions ∧ pos.yieldCapped = false := by
  simp [Book.live]

/-- A sum over the uncapped positions, as a sum over all of them. -/
theorem sum_live (f : NFTPosition → Nat) : ∀ ps : List NFTPosition,
    ((ps.filter fun pos => !pos.yieldCapped).map f).sum = (ps.map fun pos => if pos.yieldCapped then 0 else f pos).sum
  | [] => rfl
  | pos :: ps => by
    have ih := sum_live f ps
    cases hc : pos.yieldCapped
    · simp only [List.filter_cons, hc, Bool.not_false, if_true, List.map_cons, List.sum_cons,
        Bool.false_eq_true, if_false, ih]
    · simp only [List.filter_cons, hc, Bool.not_true, Bool.false_eq_true, if_false, List.map_cons,
        List.sum_cons, if_true, ih, Nat.zero_add]

/-- The view of the accrued yield is the floor of the per-position sum, each position stopped at
its own maturity. -/
def ExactAccrual (s : State) : Prop :=
  ∀ accrued, accruedYield s = .ok accrued →
    accrued = (s.toBook.live.map fun pos =>
      pos.apyWad * pos.principal * (min s.now pos.maturityTime - pos.yieldStartTime)).sum / (secondsPerYear * wad)

/-- Accrual is exact when no uncapped maturity is in the past. -/
theorem YieldBook.exact {s : State} (h : YieldBook s.now s.toBook)
    (hdue : ∀ pos ∈ s.toBook.live, s.now ≤ pos.maturityTime) : ExactAccrual s := by
  intro accrued ha
  rw [accruedYield_eq h] at ha
  split at ha
  · have hown := h.accrued_eq_own fun pos hp hu => hdue pos (mem_live.2 ⟨hp, hu⟩)
    rw [Book.live, sum_live]
    rw [hown] at ha
    exact (Except.ok.inj ha).symm
  · cases ha

theorem YieldBook.exact_of_noneDue {s : State} (h : YieldBook s.now s.toBook) (hdue : NoneDue s) : ExactAccrual s := by
  apply h.exact
  intro pos hp
  obtain ⟨hmem, hu⟩ := mem_live.1 hp
  have hstop : s.toBook.stop s.now = s.now := Book.stop_eq_now fun root hroot => (hdue root hroot).le
  rw [← hstop]
  exact h.stop_le_maturity hmem hu

/-- A call of `_distribute` that settles anything does so at an exact rate. -/
theorem distribute_exact {s t : State} (h : YieldBook s.now s.toBook) (hd : distribute s = .ok t) :
    t = s ∨ ExactAccrual s := by
  unfold distribute at hd
  split at hd
  · rename_i hguard
    exact .inr (h.exact_of_noneDue (noneDue_iff.1 hguard.2.2))
  · cases hd; exact .inl rfl

/-- The aggregate agrees with per-position accrual in every reachable state, and is exact whenever
shares are minted or settled. -/
theorem yield_aggregate {d : Deployment} {s : State} (h : Reachable d s) :
    ∃ T, IsLeast (insert s.now {m | ∃ pos ∈ s.toBook.live, pos.maturityTime = m}) T ∧
    s.yieldRateSum = (s.toBook.live.map fun pos => pos.apyWad * pos.principal).sum ∧
    s.yieldOffsetSum = (s.toBook.live.map fun pos => pos.apyWad * pos.principal * pos.yieldStartTime).sum ∧
    s.maturityHeap.Perm (liveEntries 0 s.positions) ∧
    (∀ pos ∈ s.toBook.live, pos.yieldStartTime ≤ T) ∧
    accruedYield s = (if T * s.yieldRateSum < uintSize then
      .ok ((s.toBook.live.map fun pos => pos.apyWad * pos.principal * (T - pos.yieldStartTime)).sum /
        (secondsPerYear * wad)) else .error (.panic .arithmetic)) ∧
    (s.toBook.live.map fun pos => pos.apyWad * pos.principal * (T - pos.yieldStartTime)).sum ≤
      (s.toBook.live.map fun pos =>
        pos.apyWad * pos.principal * (min s.now pos.maturityTime - pos.yieldStartTime)).sum ∧
    ((∀ pos ∈ s.toBook.live, s.now ≤ pos.maturityTime) → ExactAccrual s) ∧
    (∀ env sender assets receiver out, deposit d env s sender assets receiver = .ok out → ExactAccrual s) ∧
    (∀ env sender shares receiver out, mint d env s sender shares receiver = .ok out → ExactAccrual s) ∧
    (∀ env t, pokeQueue d env s = .ok t → ∃ s₁ k rate s₂, syncMaturities s maxMaturitySync = .ok (s₁, k) ∧
      exchangeRate s₁ = .ok rate ∧ processQueueWithHollar s₁ s₁.idleHollar rate = .ok s₂ ∧ ExactAccrual s₁) ∧
    (∀ ps x t, Pokes d s ps x → distribute x = .ok t → t = x ∨ ExactAccrual x) := by
  have hy := h.inv.yield
  refine ⟨s.toBook.stop s.now, ?_, ?_, ?_, hy.entries, fun pos hp => ?_, ?_, ?_, hy.exact, ?_, ?_, ?_, ?_⟩
  · simpa only [mem_live, and_assoc] using hy.stop_isLeast
  · rw [Book.live, sum_live]; exact hy.rateSum
  · rw [Book.live, sum_live]; exact hy.offsetSum
  · exact hy.start_le_stop (mem_live.1 hp).1 (mem_live.1 hp).2
  · rw [accruedYield_eq hy, Book.live, sum_live]; rfl
  · rw [Book.live, sum_live, sum_live]; exact hy.accrued_le_own
  · intro env sender assets receiver out hdep
    simp only [deposit, requireNoMaturityBacklog, bind_ok_iff, require_ok_iff] at hdep
    obtain ⟨_, -, _, -, _, -, _, hdue, -⟩ := hdep
    exact hy.exact_of_noneDue (noneDue_iff.1 hdue)
  · intro env sender shares receiver out hmint
    simp only [mint, requireNoMaturityBacklog, bind_ok_iff, require_ok_iff] at hmint
    obtain ⟨_, -, _, -, _, -, _, hdue, -⟩ := hmint
    exact hy.exact_of_noneDue (noneDue_iff.1 hdue)
  · intro env t hpoke
    simp only [pokeQueue, syncBeforeRateSensitiveAction, requireNoMaturityBacklog, bind_ok_iff,
      Prod.exists, pure_ok_iff, require_ok_iff] at hpoke
    obtain ⟨_, -, s₁, ⟨s₁', k, hsync, _, hdue, rfl⟩, rate, hrate, s₂, used, locked, hq, -⟩ := hpoke
    -- it prices after its own sync, with nothing left due
    have hinv := h.inv.pokes (syncMaturities_pokes (d := d) hsync).1
    exact ⟨s₁', k, rate, _, hsync, hrate, hq, hinv.yield.exact_of_noneDue (noneDue_iff.1 hdue)⟩
  · intro ps x t hp hd
    exact distribute_exact (h.inv.pokes hp).yield hd

/-- Two positions of different rates, stopped at the maturity of the second, which is past. -/
theorem yield_aggregate_demo : ∃ s : State, s.now = 950 ∧
    (s.toBook.live.map fun pos => (pos.apyWad, pos.principal, pos.yieldStartTime, pos.maturityTime)) =
      [(10 ^ 17, 10 ^ 20, 0, 1000), (5 * 10 ^ 16, 5 * 10 ^ 19, 400, 900)] ∧
    accruedYield s = .ok 325025367833587 ∧
    s.yieldRateSum = (s.toBook.live.map fun pos => pos.apyWad * pos.principal).sum ∧
    ∃ T, IsLeast (insert s.now {m | ∃ pos ∈ s.toBook.live, pos.maturityTime = m}) T ∧ ∀ pos ∈ s.toBook.live,
      pos.yieldStartTime ≤ T := by
  obtain ⟨s, hs, ht⟩ := observe_reach demo DeadSilent demoQuiet demoSetup ratesRun
    (fun s => decide (s.now = 950 ∧
      (s.toBook.live.map fun pos => (pos.apyWad, pos.principal, pos.yieldStartTime, pos.maturityTime)) =
        [(10 ^ 17, 10 ^ 20, 0, 1000), (5 * 10 ^ 16, 5 * 10 ^ 19, 400, 900)]) &&
      passes (accruedYield s) fun accrued => decide (accrued = 325025367833587)) (by decide +kernel)
  rw [Bool.and_eq_true, decide_eq_true_iff] at ht
  obtain ⟨⟨hnow, hlive⟩, ht⟩ := ht
  obtain ⟨_, haccrued, heq⟩ := passes_ok ht
  obtain rfl := of_decide_eq_true heq
  obtain ⟨T, hleast, hrate, -, -, hstart, -⟩ := yield_aggregate hs.of_restrict
  exact ⟨s, hnow, hlive, haccrued, hrate, T, hleast, hstart⟩

end MoneyMarket
