/-
When a poke of the queue makes progress. In every state of the invariant the settlement goes through
at the rate of that state (`Invariant.settles`). It locks shares of the first waiting request exactly
when those pending in it are worth a unit of HOLLAR, and the idle HOLLAR pays all of them or buys one
(`progress_iff`). A remainder of one share, at a rate below one, holds up all the requests behind it.
-/
import MoneyMarket.Queue.Batch
import MoneyMarket.Vault.Course
import MoneyMarket.Vault.Reinvest
import MoneyMarket.Vault.Views

namespace MoneyMarket

open Evm Relation

/-! ## The settlement goes through -/

theorem QueueLedger.pendingIn_le {q : Redemptions} (h : QueueLedger q) (head : Nat) :
    q.pendingIn head q.queueTail + q.totalSettledBil ≤ q.totalQueuedBil := by
  rw [h.queued, h.settled]
  have hpending : q.pendingIn head q.queueTail ≤ ∑ i ∈ Finset.range q.queueTail, (q.redemptionQueue i).pending := by
    have hsub : Finset.Ico head q.queueTail ⊆ Finset.range q.queueTail := by
      intro i hi
      exact Finset.mem_range.2 (Finset.mem_Ico.1 hi).2
    refine le_trans (Finset.sum_le_sum fun i _ => ?_) (Finset.sum_le_sum_of_subset hsub)
    split_ifs
    · exact Nat.zero_le _
    · exact le_refl _
  apply le_trans (Nat.add_le_add_right hpending _)
  rw [← Finset.sum_add_distrib]
  refine Finset.sum_le_sum fun i _ => ?_
  have := h.settled_le_amount i
  unfold Request.pending
  omega

theorem QueueLedger.pending_le {q : Redemptions} (h : QueueLedger q) {i : Nat} (hi : i < q.queueTail) :
    (q.redemptionQueue i).pending + q.totalSettledBil ≤ q.totalQueuedBil := by
  rw [h.queued, h.settled]
  have hone : (q.redemptionQueue i).pending ≤ ∑ k ∈ Finset.range q.queueTail, (q.redemptionQueue k).pending :=
    Sums.le_sum_range (fun k => (q.redemptionQueue k).pending) hi
  apply le_trans (Nat.add_le_add_right hone _)
  rw [← Finset.sum_add_distrib]
  refine Finset.sum_le_sum fun k _ => ?_
  have := h.settled_le_amount k
  unfold Request.pending
  omega

/-- The state that a finished settlement leaves. -/
def State.settledBy (s : State) (r : SettleRun) : State :=
  { s with
    toQueueStore := r.toQueueStore, queueHead := r.newQueueHead, idleHollar := s.idleHollar - r.hollarUsed
    totalReservedHollar := s.totalReservedHollar + r.hollarUsed, totalSettledBil := s.totalSettledBil + r.bilLocked }

section Settles

variable {d : Deployment} {s t : State} {rate : Nat}

theorem Invariant.queued_le_supply (h : Invariant d s) : s.totalQueuedBil ≤ s.bil.totalSupply :=
  le_trans h.escrow (h.bil.conserved.balance_le d.self)

/-- Where something is pending, the rate is the one of the active pool. -/
theorem Invariant.rate_of_pending (h : Invariant d s) (hrate : exchangeRate s = .ok rate) {i : Nat}
    (hi : i < s.queueTail) (hwaits : ¬ (s.redemptionQueue i).Done) :
    ∃ total, totalAssets s = .ok total ∧ total < uintSize ∧
      (total - s.totalReservedHollar) * wad < uintSize ∧ (s.redemptionQueue i).pending ≤ activeSupply s ∧
      rate = (total - s.totalReservedHollar) * wad / activeSupply s := by
  have hpos : 0 < (s.redemptionQueue i).pending := by
    have := h.ledger.settled_le_amount i
    have := (not_or.1 hwaits).2
    unfold Request.pending
    omega
  have hpending : (s.redemptionQueue i).pending ≤ activeSupply s := by
    have := h.ledger.pending_le hi
    have := h.queued_le_supply
    unfold activeSupply
    split_ifs <;> omega
  unfold exchangeRate at hrate
  rw [if_neg (by omega)] at hrate
  simp only [bind_ok_iff, checkedMul_ok_iff, checkedDiv_ok_iff] at hrate
  obtain ⟨assets, hassets, _, ⟨hfits, rfl⟩, -, rfl⟩ := hrate
  obtain ⟨total, htotal⟩ : ∃ total, totalAssets s = .ok total := by
    simp only [activeAssets, bind_ok_iff] at hassets
    exact hassets.imp fun _ h => h.1
  rw [activeAssets_of_total htotal] at hassets
  cases hassets
  obtain ⟨_, -, -, hlt⟩ := totalAssets_ok_iff.1 htotal
  exact ⟨total, htotal, hlt, hfits, hpending, rfl⟩

/-- All that a settlement at the active rate multiplies and adds up fits. -/
theorem Invariant.batchFits (h : Invariant d s) (hrate : exchangeRate s = .ok rate) :
    BatchFits s.toQueueStore s.queueHead s.queueTail s.idleHollar rate := by
  refine ⟨fun i _ hi hwaits => ?_, fun i _ hi hwaits => ?_, fun i _ _ => ?_, fun i _ hi hwaits => ?_, ?_⟩
  · obtain ⟨total, htotal, -, hfits, -, -⟩ := h.rate_of_pending hrate hi hwaits
    obtain ⟨accrued, -, hsum, -⟩ := totalAssets_ok_iff.1 htotal
    exact lt_of_le_of_lt (Nat.mul_le_mul_right _ (by omega)) hfits
  · obtain ⟨total, -, -, hfits, hpending, rfl⟩ := h.rate_of_pending hrate hi hwaits
    exact lt_of_le_of_lt (le_trans (Nat.mul_le_mul_right _ hpending) (Nat.mul_div_le _ _)) hfits
  · exact lt_of_le_of_lt (h.ledger.amount_le i) h.queued_lt
  · obtain ⟨total, htotal, hlt, -, hpending, rfl⟩ := h.rate_of_pending hrate hi hwaits
    obtain ⟨accrued, -, hsum, -⟩ := totalAssets_ok_iff.1 htotal
    -- the cost is within the active assets, the rest of the total is reserved
    have hcost : (s.redemptionQueue i).cost ((total - s.totalReservedHollar) * wad / activeSupply s) ≤
        total - s.totalReservedHollar := by
      apply Nat.div_le_of_le_mul
      rw [Nat.mul_comm wad]
      exact le_trans (Nat.mul_le_mul_right _ hpending) (Nat.mul_div_le _ _)
    have howed := h.ledger.owed_le i
    show (s.redemptionQueue i).hollarOwed + (s.redemptionQueue i).cost _ < uintSize
    omega
  · have := h.ledger.pendingIn_le s.queueHead
    have := h.queued_lt
    show s.pendingIn s.queueHead s.queueTail < uintSize
    omega

/-- The settlement of a poke at the active rate goes through, and leaves a batch. -/
theorem Invariant.settles (h : Invariant d s) (hrate : exchangeRate s = .ok rate) :
    ∃ r, Batch s.toQueueStore s.queueHead s.queueTail s.idleHollar rate maxQueueIterations maxQueueSkips r ∧
      processQueueWithHollar s s.idleHollar rate = .ok (s.settledBy r, r.hollarUsed, r.bilLocked) := by
  obtain ⟨r, hr, -, hbatch⟩ := processQueue_batch h.fifo.head_le h.ledger.settled_le_amount (h.batchFits hrate)
    maxQueueIterations maxQueueSkips
  have hused := hbatch.used_le
  have hbacked := h.backed
  have hbalance := h.token.conserved.balance_le d.self
  have hsupply := h.token.supply
  have hlocked : s.totalSettledBil + r.bilLocked < uintSize := by
    have := hbatch.locked_le
    have : s.pendingIn s.queueHead s.queueTail + s.totalSettledBil ≤ s.totalQueuedBil :=
      h.ledger.pendingIn_le s.queueHead
    have := h.queued_lt
    omega
  refine ⟨r, hbatch, ?_⟩
  simp only [processQueueWithHollar, bind_ok_iff, checkedSub_ok_iff, checkedAdd_ok_iff, pure_ok_iff]
  exact ⟨r, hr, _, ⟨hused, rfl⟩, _, ⟨by omega, rfl⟩, _, ⟨hlocked, rfl⟩, rfl⟩

end Settles

/-! ## What it does to the first waiting request -/

/-- The pending shares are worth a unit of HOLLAR, and `available` pays all of them or buys one. -/
def Request.Payable (rate available : Nat) (request : Request) : Prop :=
  0 < request.cost rate ∧ (request.cost rate ≤ available ∨ 0 < buys rate available)

section First

variable {q : QueueStore} {head tail available rate maxIterations maxSkips p : Nat} {r : SettleRun}

/-- Entries that are done cost nothing and use skips only. -/
theorem QueueStore.all_done {c : Nat} (hdone : ∀ i, head ≤ i → i < c → (q.redemptionQueue i).Done) :
    q.spent rate head c = 0 ∧ (q.waiting head c).card = 0 ∧ (q.passed head c).card = c - head := by
  have hmem : ∀ i ∈ Finset.Ico head c, (q.redemptionQueue i).Done := fun i hi =>
    hdone i (Finset.mem_Ico.1 hi).1 (Finset.mem_Ico.1 hi).2
  refine ⟨Finset.sum_eq_zero fun i hi => if_pos (hmem i hi), ?_, ?_⟩
  · rw [Finset.card_eq_zero]
    exact Finset.filter_eq_empty_iff.2 fun i hi h => h (hmem i hi)
  · rw [← Nat.card_Ico]
    exact congrArg Finset.card (Finset.filter_true_of_mem hmem)

theorem Request.settledAt_done {request : Request} (h : request.Done) : request.settledAt rate = request := if_pos h

/-- A batch that locks shares could pay the first pending entry. -/
theorem Batch.payable (h : Batch q head tail available rate maxIterations maxSkips r) (hhead : head ≤ p)
    (hdone : ∀ i, head ≤ i → i < p → (q.redemptionQueue i).Done) (hwaits : ¬ (q.redemptionQueue p).Done)
    (hlocked : 0 < r.bilLocked) : (q.redemptionQueue p).Payable rate available := by
  rcases Nat.lt_or_ge p r.cursor with hlt | hge
  · -- settled in full: its cost is part of what is spent
    have hcost := (h.settled p hhead hlt).2 hwaits
    refine ⟨hcost, .inl (le_trans ?_ h.last.1)⟩
    have hone := Finset.single_le_sum
      (f := fun i => if (q.redemptionQueue i).Done then 0 else (q.redemptionQueue i).cost rate)
      (fun _ _ => Nat.zero_le _) (Finset.mem_Ico.2 ⟨hhead, hlt⟩)
    rw [if_neg hwaits] at hone
    exact hone
  · have hbefore : ∀ i, head ≤ i → i < r.cursor → (q.redemptionQueue i).Done := fun i hi hlt => hdone i hi (by omega)
    rcases h.last.2 with ⟨hsame, -⟩ | ⟨-, hpending, hpart⟩
    · -- then nothing is locked
      refine absurd h.locked (ne_of_gt (lt_of_eq_of_lt ?_ hlocked))
      refine Finset.sum_eq_zero fun i hi => ?_
      obtain ⟨hi, -⟩ := Finset.mem_Ico.1 hi
      rcases lt_trichotomy i r.cursor with hlt | rfl | hgt
      · rw [(h.settled i hi hlt).1, Request.settledAt_done (hbefore i hi hlt), Nat.sub_self]
      · rw [hsame, Nat.sub_self]
      · rw [h.outside i (.inr hgt), Nat.sub_self]
    · have heq : r.cursor = p := by
        by_contra hne
        exact hpending (hdone _ h.head_le (by omega))
      rw [(QueueStore.all_done hbefore).1, Nat.sub_zero, heq] at hpart
      exact ⟨lt_of_le_of_lt (Nat.zero_le _) hpart.short, .inr hpart.bought⟩

/-- And one that can pay it, within its skips, does: in full or in part. -/
theorem Batch.reaches (h : Batch q head tail available rate maxIterations maxSkips r) (hhead : head ≤ p)
    (htail : p < tail) (hdone : ∀ i, head ≤ i → i < p → (q.redemptionQueue i).Done)
    (hiterations : 0 < maxIterations) (hskips : p - head < maxSkips) (havailable : 0 < available)
    (hpayable : (q.redemptionQueue p).Payable rate available) :
    p < r.cursor ∨ (r.cursor = p ∧ PartlySettled rate available (q.redemptionQueue p) (r.redemptionQueue p)) := by
  rcases Nat.lt_or_ge p r.cursor with hlt | hge
  · exact .inl hlt
  · have hbefore : ∀ i, head ≤ i → i < r.cursor → (q.redemptionQueue i).Done := fun i hi hlt => hdone i hi (by omega)
    obtain ⟨hspent, hwaiting, hpassed⟩ : q.spent rate head r.cursor = 0 ∧ _ ∧ _ := QueueStore.all_done hbefore
    have hle := h.head_le
    rcases h.stop (by omega) with hit | hskip | ⟨hpending, hwhy⟩
    · omega
    · omega
    · have heq : r.cursor = p := by
        by_contra hne
        exact hpending (hdone _ h.head_le (by omega))
      rw [hspent, Nat.sub_zero, heq] at hwhy
      obtain ⟨hcost, hpay⟩ := hpayable
      rcases hwhy with hall | hzero | ⟨hshort, hnone⟩ | hpart
      · -- the HOLLAR is gone: it went to this entry
        rcases h.last.2 with ⟨-, hused⟩ | ⟨-, -, hpart⟩
        · rw [hspent] at hused; omega
        · rw [hspent, Nat.sub_zero, heq] at hpart
          exact .inr ⟨heq, hpart⟩
      · omega
      · omega
      · exact .inr ⟨heq, hpart⟩

/-- HOLLAR that buys a share, and is a whole unit or more, buys shares worth some. -/
theorem buys_worth_pos (hbought : 0 < buys rate available) (hwhole : wad ≤ available) :
    0 < buys rate available * rate / wad := by
  have hrate : 0 < rate := by
    rcases Nat.eq_zero_or_pos rate with rfl | hpos
    · simp [buys] at hbought
    · exact hpos
  rcases Nat.eq_zero_or_pos (buys rate available * rate / wad) with hzero | hpos
  · -- the shares would be worth less than a unit, and one more than all the HOLLAR
    have hleft : (available - buys rate available * rate / wad) * wad < rate + wad := leftover_lt hrate
    rw [hzero] at hleft
    have hnothing : buys rate available * rate < wad := (Nat.div_eq_zero_iff_lt (by decide)).1 hzero
    have hone : rate ≤ buys rate available * rate := Nat.le_mul_of_pos_left _ hbought
    have hbig : wad * wad ≤ available * wad := Nat.mul_le_mul_right _ hwhole
    rw [Nat.sub_zero] at hleft
    have : wad * wad < wad + wad := by omega
    exact absurd this (by decide)
  · exact hpos

/-- Where the first pending entry is reached, shares are locked, and for HOLLAR when there is a whole
unit of it. -/
theorem Batch.gains (h : Batch q head tail available rate maxIterations maxSkips r)
    (hwf : ∀ i, (q.redemptionQueue i).bilSettled ≤ (q.redemptionQueue i).bilAmount) (hhead : head ≤ p)
    (htail : p < tail) (hwaits : ¬ (q.redemptionQueue p).Done) (hwhole : wad ≤ available)
    (hreach : p < r.cursor ∨
      (r.cursor = p ∧ PartlySettled rate available (q.redemptionQueue p) (r.redemptionQueue p))) :
    0 < r.bilLocked ∧ 0 < r.hollarUsed := by
  have hp : p ∈ Finset.Ico head tail := Finset.mem_Ico.2 ⟨hhead, htail⟩
  have hone := Finset.single_le_sum (f := fun i => (r.redemptionQueue i).bilSettled - (q.redemptionQueue i).bilSettled)
    (fun _ _ => Nat.zero_le _) hp
  have hone' := Finset.single_le_sum (f := fun i => (r.redemptionQueue i).hollarOwed - (q.redemptionQueue i).hollarOwed)
    (fun _ _ => Nat.zero_le _) hp
  rw [← h.locked] at hone
  rw [← h.used] at hone'
  rcases hreach with hlt | ⟨-, hpart⟩
  · obtain ⟨hfull, hcost⟩ := h.settled p hhead hlt
    obtain ⟨hsettled, howed⟩ := Request.settledAt_gains (q.redemptionQueue p) (hwf p)
    rw [hfull, hsettled, if_neg hwaits, Nat.add_sub_cancel_left] at hone
    rw [hfull, howed, if_neg hwaits, Nat.add_sub_cancel_left] at hone'
    have := hwf p
    have := (not_or.1 hwaits).2
    exact ⟨lt_of_lt_of_le (by unfold Request.pending; omega) hone, lt_of_lt_of_le (hcost hwaits) hone'⟩
  · rw [hpart.entry] at hone hone'
    dsimp only at hone hone'
    rw [Nat.add_sub_cancel_left] at hone hone'
    exact ⟨lt_of_lt_of_le hpart.bought hone, lt_of_lt_of_le (buys_worth_pos hpart.bought hwhole) hone'⟩

end First

/-! ## Progress -/

section Progress

variable {d : Deployment} {env : Replies} {s s₁ t : State} {rate n p : Nat}

/-- Before a request that waits there is a first one. -/
theorem FirstWaiting.exists {q : Redemptions} (h : (q.redemptionQueue n).Waits) : ∃ p ≤ n, FirstWaiting q p := by
  classical
  have hex : ∃ i, (q.redemptionQueue i).Waits := ⟨n, h⟩
  exact ⟨Nat.find hex, Nat.find_min' hex h, Nat.find_spec hex, fun i hi => Nat.find_min hex hi⟩

/-- At a rate of a half or more, what cannot be paid is a single share at a rate below one, or costs more
than the HOLLAR, which buys none of it. -/
theorem Request.payable_iff {request : Request} {available : Nat} (hlow : wad / 2 ≤ rate)
    (hpending : 0 < request.pending) :
    request.Payable rate available ↔
      ¬ (request.pending = 1 ∧ rate < wad) ∧ (request.cost rate ≤ available ∨ rate ≤ available * wad) := by
  have hrate : 0 < rate := lt_of_lt_of_le (by decide) hlow
  have hbuys : 0 < buys rate available ↔ rate ≤ available * wad :=
    Nat.div_pos_iff.trans ⟨fun h => h.2, fun h => ⟨hrate, h⟩⟩
  have hcost : 0 < request.cost rate ↔ ¬ (request.pending = 1 ∧ rate < wad) := by
    have hdef : request.cost rate = request.pending * rate / wad := rfl
    rw [hdef, Nat.div_pos_iff]
    constructor
    · rintro ⟨-, hle⟩ ⟨hone, hlt⟩
      rw [hone, Nat.one_mul] at hle
      omega
    · intro hnot
      refine ⟨by decide, ?_⟩
      rcases Nat.lt_or_ge rate wad with hlt | hge
      · have htwo : 2 ≤ request.pending := by
          by_contra hless
          exact hnot ⟨by omega, hlt⟩
        have hhalf : wad = 2 * (wad / 2) := by decide
        rw [hhalf]
        exact Nat.mul_le_mul htwo hlow
      · exact le_trans hge (Nat.le_mul_of_pos_left _ hpending)
  unfold Request.Payable
  rw [hbuys, hcost]

/-- The sync of a poke keeps the invariant. -/
theorem Invariant.syncBefore (h : Invariant d s) (hsync : syncBeforeRateSensitiveAction s = .ok s₁) :
    Invariant d s₁ := by
  simp only [syncBeforeRateSensitiveAction, bind_ok_iff, Prod.exists, pure_ok_iff] at hsync
  obtain ⟨s₂, k, hcaps, _, -, rfl⟩ := hsync
  exact h.pokes (syncMaturities_pokes hcaps).1

/-- The entries from the head to the first waiting one are all done. -/
theorem FirstWaiting.done (h : Invariant d s) (hp : FirstWaiting s.toRedemptions p) :
    s.queueHead ≤ p ∧ p < s.queueTail ∧ ¬ (s.redemptionQueue p).Done ∧
      ∀ i, s.queueHead ≤ i → i < p → (s.redemptionQueue i).Done := by
  refine ⟨?_, h.ledger.lt_tail hp.waits.1, fun hdone => (h.ledger.done_iff p).1 hdone hp.waits, fun i _ hi => ?_⟩
  · by_contra hlt
    have := h.fifo.below p (by omega)
    have := hp.waits.2
    omega
  · exact (h.ledger.done_iff i).2 (hp.first i hi)

/-- No more entries are passed before the first waiting one than before a later one. -/
theorem FirstWaiting.skips_le (h : Invariant d s) (hp : FirstWaiting s.toRedemptions p) (hle : p ≤ n) :
    p - s.queueHead ≤ (s.passed s.queueHead n).card := by
  obtain ⟨-, -, -, hdone⟩ := hp.done h
  have hsub : s.passed s.queueHead p ⊆ s.passed s.queueHead n :=
    Finset.filter_subset_filter _ (Finset.Ico_subset_Ico_right hle)
  have hall : QueueStore.spent s.toQueueStore wad s.queueHead p = 0 ∧ _ ∧
      (s.passed s.queueHead p).card = p - s.queueHead := QueueStore.all_done hdone
  rw [← hall.2.2]
  exact Finset.card_le_card hsub

/-- What a poke settles is what its settlement locks: a reinvest leaves the queue. -/
theorem pokeQueue_locks {s₂ : State} {used : Nat} (h : pokeQueue d env s = .ok t)
    (hsettle : settleQueue s = .ok (rate, used, s₂)) : t.totalSettledBil = s₂.totalSettledBil := by
  obtain ⟨-, rate', used', s₂', hsettle', hend⟩ := pokeQueue_ok_iff.1 h
  cases hsettle.symm.trans hsettle'
  split at hend
  · have hqueue := reinvest_queue hend
    exact congrArg Redemptions.totalSettledBil hqueue
  · cases hend
    rfl

/-- Progress, exactly. With a whole unit of idle HOLLAR and a waiting request within the skips of a
call, a poke of the queue settles shares, unless of the first waiting request a single share is
pending at a rate below one, or it costs more than the HOLLAR and that buys none of it. -/
theorem progress_iff (h : Reachable d s) (hpaused : s.paused = false)
    (hsync : syncBeforeRateSensitiveAction s = .ok s₁) (hrate : exchangeRate s₁ = .ok rate) (hlow : wad / 2 ≤ rate)
    (hidle : wad ≤ s.idleHollar) (hwaits : (s.redemptionQueue n).Waits)
    (hahead : (s.passed s.queueHead n).card ≤ 499) :
    (∃ t, pokeQueue d env s = .ok t ∧ s.totalSettledBil < t.totalSettledBil) ↔
      ∀ p, FirstWaiting s.toRedemptions p →
        ¬ ((s.redemptionQueue p).pending = 1 ∧ rate < wad) ∧
          ((s.redemptionQueue p).cost rate ≤ s.idleHollar ∨ rate ≤ s.idleHollar * wad) := by
  have hinv : Invariant d s := h.inv
  have hinv₁ := hinv.syncBefore hsync
  obtain ⟨hqueue, hidle₁, -⟩ := syncBefore_frame hsync
  obtain ⟨r, hbatch, hq⟩ := hinv₁.settles hrate
  -- the sync leaves the queue
  rw [show s₁.toQueueStore = s.toQueueStore from congrArg Redemptions.toQueueStore hqueue,
    show s₁.queueHead = s.queueHead from congrArg Redemptions.queueHead hqueue,
    show s₁.queueTail = s.queueTail from congrArg Redemptions.queueTail hqueue, hidle₁] at hbatch
  have hsettled : s₁.totalSettledBil = s.totalSettledBil := congrArg Redemptions.totalSettledBil hqueue
  obtain ⟨p, hpid, hp⟩ := FirstWaiting.exists hwaits
  obtain ⟨hhead, htail, hlive, hdone⟩ := hp.done hinv
  have hpending : 0 < (s.redemptionQueue p).pending := Nat.sub_pos_of_lt hp.waits.2
  have hskips : p - s.queueHead < maxQueueSkips :=
    lt_of_le_of_lt (le_trans (hp.skips_le hinv hpid) hahead) (by decide)
  have hsettle : settleQueue s = .ok (rate, r.hollarUsed, s₁.settledBy r) :=
    settleQueue_ok_iff.2 ⟨s₁, r.bilLocked, hsync, hrate, hq⟩
  constructor
  · rintro ⟨t, ht, hmore⟩ p' hp'
    obtain rfl := hp'.unique hp
    refine (Request.payable_iff hlow hpending).1 (hbatch.payable hhead hdone hlive ?_)
    have hlocks : t.totalSettledBil = s₁.totalSettledBil + r.bilLocked := pokeQueue_locks ht hsettle
    omega
  · intro hpay
    have hpayable := (Request.payable_iff hlow hpending).2 (hpay p hp)
    have hreach := hbatch.reaches hhead htail hdone (by decide) hskips (lt_of_lt_of_le (by decide) hidle) hpayable
    obtain ⟨hlocked, hused⟩ := hbatch.gains hinv.ledger.settled_le_amount hhead htail hlive hidle hreach
    refine ⟨sweepPositionHead (s₁.settledBy r), ?_, ?_⟩
    · exact pokeQueue_ok_iff.2 ⟨hpaused, rate, _, _, hsettle, if_neg fun h => absurd h.1 hused.ne'⟩
    · show s.totalSettledBil < s₁.totalSettledBil + r.bilLocked
      omega

end Progress

/-- Alice's second request waits behind the one share, with 89.55 HOLLAR idle at a rate of 0.995, and
a poke of the queue settles nothing. -/
theorem wedgedRun_ends : ∃ s s₁ t, Reachable demo s ∧ s.paused = false ∧ syncBeforeRateSensitiveAction s = .ok s₁ ∧
    exchangeRate s₁ = .ok (995 * 10 ^ 15) ∧ pokeQueue demo demoQuiet s = .ok t ∧
    (t.totalSettledBil = s.totalSettledBil ∧ s.idleHollar = 8955 * 10 ^ 16 ∧
      s.redemptionQueue 0 = ⟨alice, 10 ^ 19 + 1, 10 ^ 19, 10 ^ 19⟩ ∧
      s.redemptionQueue 1 = ⟨alice, 5 * 10 ^ 18, 0, 0⟩ ∧ s.queueHead = 0) := by
  obtain ⟨s, hs, ht⟩ := observe_reach demo DeadSilent demoQuiet demoSetup wedgedRun
    (fun s => decide (s.paused = false) &&
      (passes (syncBeforeRateSensitiveAction s)
          (fun s₁ => passes (exchangeRate s₁) fun rate => decide (rate = 995 * 10 ^ 15)) &&
        passes (pokeQueue demo demoQuiet s) fun t =>
          decide (t.totalSettledBil = s.totalSettledBil ∧ s.idleHollar = 8955 * 10 ^ 16 ∧
            s.redemptionQueue 0 = ⟨alice, 10 ^ 19 + 1, 10 ^ 19, 10 ^ 19⟩ ∧
            s.redemptionQueue 1 = ⟨alice, 5 * 10 ^ 18, 0, 0⟩ ∧ s.queueHead = 0)))
    (by decide +kernel)
  rw [Bool.and_eq_true, Bool.and_eq_true] at ht
  obtain ⟨hpaused, hrate, ht⟩ := ht
  obtain ⟨s₁, hsync, hrate⟩ := passes_ok hrate
  obtain ⟨rate, hrate, heq⟩ := passes_ok hrate
  obtain rfl := of_decide_eq_true heq
  obtain ⟨t, hpoke, ht⟩ := passes_ok ht
  exact ⟨s, s₁, t, hs.of_restrict, of_decide_eq_true hpaused, hsync, hrate, hpoke, of_decide_eq_true ht⟩

/-- The poke makes no progress there. -/
theorem progress_iff_demo : ∃ s s₁ : State, s.idleHollar = 8955 * 10 ^ 16 ∧ exchangeRate s₁ = .ok (995 * 10 ^ 15) ∧
    ((∃ t, pokeQueue demo demoQuiet s = .ok t ∧ s.totalSettledBil < t.totalSettledBil) ↔
      ∀ p, FirstWaiting s.toRedemptions p →
        ¬ ((s.redemptionQueue p).pending = 1 ∧ 995 * 10 ^ 15 < wad) ∧
          ((s.redemptionQueue p).cost (995 * 10 ^ 15) ≤ s.idleHollar ∨ 995 * 10 ^ 15 ≤ s.idleHollar * wad)) := by
  obtain ⟨s, s₁, _, hs, hpaused, hsync, hrate, -, -, hidle, -, hsecond, hhead⟩ := wedgedRun_ends
  have hahead : (s.passed s.queueHead 1).card ≤ 499 := by
    rw [hhead]
    exact le_trans (Finset.card_filter_le _ _) (by decide)
  exact ⟨s, s₁, hidle, hrate, progress_iff (n := 1) hs hpaused hsync hrate (by decide) (by rw [hidle]; decide)
    (by rw [hsecond]; exact ⟨by decide, by decide⟩) hahead⟩

/-- A single share at the head holds up the request behind it. -/
theorem progress_fails : ¬ ∀ (d : Deployment) (env : Replies) (s s₁ : State) (rate n : Nat), Reachable d s →
    s.paused = false → syncBeforeRateSensitiveAction s = .ok s₁ → exchangeRate s₁ = .ok rate → wad / 2 ≤ rate →
    wad ≤ s.idleHollar → (s.redemptionQueue n).Waits → (s.passed s.queueHead n).card ≤ 499 →
    ∃ t, pokeQueue d env s = .ok t ∧ s.totalSettledBil < t.totalSettledBil := by
  intro hall
  obtain ⟨s, s₁, t, hs, hpaused, hsync, hrate, hpoke, hsame, hidle, -, hsecond, hhead⟩ := wedgedRun_ends
  have hahead : (s.passed s.queueHead 1).card ≤ 499 := by
    rw [hhead]
    exact le_trans (Finset.card_filter_le _ _) (by decide)
  obtain ⟨t', hpoke', hmore⟩ := hall demo demoQuiet s s₁ _ 1 hs hpaused hsync hrate (by decide)
    (by rw [hidle]; decide) (by rw [hsecond]; exact ⟨by decide, by decide⟩) hahead
  cases hpoke.symm.trans hpoke'
  omega

end MoneyMarket
