/-
The positions over whole runs: each goes once along its lifecycle, each of its two payouts is
credited at most once in any run, and what it claimed of the totals leaves them with the credit.
-/
import MoneyMarket.Vault.Invariant
import MoneyMarket.Vault.Replay

namespace MoneyMarket

open Evm Relation Transition

/-! ## Lifecycles in a run -/

theorem evolves_of_move {now : Nat} {b b' : Book} (hy : YieldBook now b) (hm : b' = b ∨ BookMove now b b') :
    Evolves now b b' := by
  rcases hm with rfl | hm
  · exact .refl now b'
  · exact hm.evolves hy

/-- In one step every position goes along its lifecycle, and the head only forward. -/
theorem step_evolves {d : Deployment} {s t : State} {a : Action} {ps : List Payout} (h : Invariant d s)
    (hlegal : Legal d s a) (hs : step d s a = .ok (t, ps)) : Evolves s.now s.toBook t.toBook := by
  rcases step_moves hlegal hs with ⟨ha, -⟩ | hp
  · exact evolves_of_move h.yield ha.book
  · refine Moves.relation (I := fun x => Invariant d x ∧ x.now = s.now)
      (R := fun x y => Evolves s.now x.toBook y.toBook) (fun x => .refl _ _) (fun _ _ _ => .trans) ?_ hp ⟨h, rfl⟩
    rintro x qs y ⟨hx, hnow⟩ hm
    refine ⟨⟨hx.poke hm, hm.now_eq.trans hnow⟩, ?_⟩
    rw [← hnow]
    exact evolves_of_move hx.yield hm.book

/-! ## Payouts in a run -/

/-- How far along the lifecycle a state is. -/
def NFTState.rank : NFTState → Nat
  | .active => 0
  | .yieldWithdrawalRequested => 1
  | .yieldClaimed => 2
  | .principalWithdrawalRequested => 3
  | .redeemed => 4

theorem NFTPosition.Step.rank_le {now : Nat} {pos pos' : NFTPosition} (h : NFTPosition.Step now pos pos') :
    pos.state.rank ≤ pos'.state.rank := by
  cases h with
  | cap _ _ => exact le_refl _
  | ask state ha =>
    cases ha with
    | skipYield h1 _ _ _ => simp [h1, NFTState.rank]
    | requestYield h1 _ _ _ => simp [h1, NFTState.rank]
    | requestPrincipal h1 => simp [h1, NFTState.rank]
  | yieldPaid h1 => simp [h1, NFTState.rank]
  | principalPaid h1 => simp [h1, NFTState.rank]

/-- How far position `i` is; a position not opened yet is nowhere. -/
def Book.rankAt (b : Book) (i : Nat) : Nat :=
  match b.positions[i]? with
  | some pos => pos.state.rank
  | none => 0

theorem Evolves.rankAt_le {now : Nat} {b b' : Book} (h : Evolves now b b') (i : Nat) : b.rankAt i ≤ b'.rankAt i := by
  unfold Book.rankAt
  cases hi : b.positions[i]? with
  | none => exact Nat.zero_le _
  | some pos =>
    obtain ⟨pos', hpos', hsteps⟩ := h.positions i pos hi
    rw [hpos']
    show pos.state.rank ≤ pos'.state.rank
    clear hi hpos'
    induction hsteps with
    | refl => exact le_refl _
    | tail _ hs ih => exact le_trans ih hs.rank_le

/-- The payouts of one kind for one position. -/
def payoutsOf (ps : List Payout) (i : Nat) (ofPrincipal : Bool) : List Payout :=
  ps.filter fun p => p.positionIndex == i && p.ofPrincipal == ofPrincipal

/-- The last rank at which a payout of the kind can be credited. -/
def payableRank (ofPrincipal : Bool) : Nat := if ofPrincipal then 3 else 1

/-- No position goes back, and a payout takes its position past the rank at which it is payable. -/
structure CreditsOnce (b : Book) (ps : List Payout) (b' : Book) : Prop where
  rank_le : ∀ i, b.rankAt i ≤ b'.rankAt i
  once : ∀ i k, (payoutsOf ps i k).length ≤ 1
  past : ∀ i k, (payoutsOf ps i k).length = 1 → b.rankAt i ≤ payableRank k ∧ payableRank k < b'.rankAt i

theorem CreditsOnce.of_none {b b' : Book} (h : ∀ i, b.rankAt i ≤ b'.rankAt i) : CreditsOnce b [] b' :=
  ⟨h, fun _ _ => Nat.zero_le _, fun _ _ h0 => absurd h0 (by simp [payoutsOf])⟩

theorem CreditsOnce.trans {b b' b'' : Book} {ps qs : List Payout} (h : CreditsOnce b ps b')
    (h' : CreditsOnce b' qs b'') :
    CreditsOnce b (ps ++ qs) b'' := by
  have hlen : ∀ i k, (payoutsOf (ps ++ qs) i k).length = (payoutsOf ps i k).length + (payoutsOf qs i k).length := by
    intro i k
    simp only [payoutsOf, List.filter_append, List.length_append]
  refine ⟨fun i => le_trans (h.rank_le i) (h'.rank_le i), fun i k => ?_, fun i k hone => ?_⟩
  · rw [hlen]
    have h1 := h.once i k
    have h2 := h'.once i k
    by_contra htwo
    have := (h.past i k (by omega)).2
    have := (h'.past i k (by omega)).1
    omega
  · rw [hlen] at hone
    have h1 := h.rank_le i
    have h2 := h'.rank_le i
    rcases Nat.eq_zero_or_pos (payoutsOf ps i k).length with h0 | hpos
    · obtain ⟨hle, hlt⟩ := h'.past i k (by omega)
      exact ⟨le_trans h1 hle, hlt⟩
    · obtain ⟨hle, hlt⟩ := h.past i k (by omega)
      exact ⟨hle, lt_of_lt_of_le hlt h2⟩

/-- The one payout of a paying move takes its position past the rank at which it is payable. -/
theorem CreditsOnce.of_payout {b b' : Book} {p : Payout} (hrank : ∀ i, b.rankAt i ≤ b'.rankAt i)
    (hbefore : b.rankAt p.positionIndex = payableRank p.ofPrincipal)
    (hafter : payableRank p.ofPrincipal < b'.rankAt p.positionIndex) : CreditsOnce b [p] b' := by
  refine ⟨hrank, fun i k => ?_, fun i k hone => ?_⟩
  · exact le_trans (List.length_filter_le _ _) (le_refl _)
  · have hmatch : p.positionIndex = i ∧ p.ofPrincipal = k := by
      by_contra hne
      have : payoutsOf [p] i k = [] := by
        unfold payoutsOf
        rw [List.filter_cons, if_neg]
        · rfl
        · simpa using hne
      rw [this] at hone
      exact absurd hone (by decide)
    obtain ⟨rfl, rfl⟩ := hmatch
    exact ⟨hbefore.le, hafter⟩

theorem Poke.creditsOnce {d : Deployment} {s t : State} {ps : List Payout} (h : Invariant d s) (hp : Poke d s ps t) :
    CreditsOnce s.toBook ps t.toBook := by
  have hrank := (evolves_of_move h.yield hp.book).rankAt_le
  cases hp with
  | yieldPaid i pos token received hi hs _ =>
    refine .of_payout hrank ?_ ?_
    · simp [Book.rankAt, hi, hs, NFTState.rank, payableRank]
    · simp [Book.rankAt, Book.yieldPaid, List.getElem?_set_self (List.getElem?_eq_some_iff.1 hi).1,
        NFTState.rank, payableRank]
  | principalPaid i pos token received hi hs _ =>
    refine .of_payout hrank ?_ ?_
    · simp [Book.rankAt, hi, hs, NFTState.rank, payableRank]
    · simp [Book.rankAt, Book.principalPaid, List.getElem?_set_self (List.getElem?_eq_some_iff.1 hi).1, NFTState.rank,
        payableRank]
  | cap _ => exact .of_none hrank
  | ask _ _ _ _ _ => exact .of_none hrank
  | sweep _ => exact .of_none hrank
  | settle _ _ _ _ _ => exact .of_none hrank
  | reinvest _ _ _ _ _ _ _ _ _ _ _ _ => exact .of_none hrank
  | refused _ _ => exact .of_none hrank

theorem step_creditsOnce {d : Deployment} {s t : State} {a : Action} {ps : List Payout} (h : Invariant d s)
    (hlegal : Legal d s a) (hs : step d s a = .ok (t, ps)) : CreditsOnce s.toBook ps t.toBook := by
  rcases step_moves hlegal hs with ⟨ha, rfl⟩ | hp
  · exact .of_none (evolves_of_move h.yield ha.book).rankAt_le
  · exact hp.reports (I := Invariant d) (R := fun x qs y => CreditsOnce x.toBook qs y.toBook)
      (fun x => .of_none fun _ => le_refl _) (fun _ _ _ _ _ => .trans)
        (fun _ _ _ hi hm => ⟨hi.poke hm, hm.creditsOnce hi⟩) h

/-- The runs from a state, with all the payouts they credit. -/
abbrev History (d : Deployment) : State → List Payout → State → Prop :=
  Moves fun s ps t => ∃ a, Legal d s a ∧ step d s a = .ok (t, ps)

/-- In any run each position's yield and principal are credited at most once. -/
theorem history_creditsOnce {d : Deployment} {s t : State} {ps : List Payout} (h : Invariant d s)
    (hh : History d s ps t) :
    CreditsOnce s.toBook ps t.toBook :=
  hh.reports (I := Invariant d) (R := fun x qs y => CreditsOnce x.toBook qs y.toBook)
    (fun _ => .of_none fun _ => le_refl _) (fun _ _ _ _ _ => .trans)
    (fun _ _ _ hi ⟨_, hlegal, hs⟩ => ⟨hi.step hlegal hs, step_creditsOnce hi hlegal hs⟩) h

/-! ## What a payout credits -/

/-- The payouts arrive in idle or reserved HOLLAR, and what they were expected to be leaves the
totals. -/
structure Credits (s : State) (ps : List Payout) (t : State) : Prop where
  idle : t.idleHollar + t.totalReservedHollar = s.idleHollar + s.totalReservedHollar + (ps.map Payout.received).sum
  pending : t.totalPendingYield + ((ps.filter fun p => !p.ofPrincipal).map Payout.expected).sum = s.totalPendingYield
  invested : t.totalInvestedPrincipal + ((ps.filter fun p => p.ofPrincipal).map Payout.expected).sum =
    s.totalInvestedPrincipal

theorem Credits.refl (s : State) : Credits s [] s := ⟨rfl, rfl, rfl⟩

theorem Credits.trans {s t u : State} {ps qs : List Payout} (h : Credits s ps t) (h' : Credits t qs u) :
    Credits s (ps ++ qs) u := by
  refine ⟨?_, ?_, ?_⟩
  · rw [h'.idle, h.idle, List.map_append, List.sum_append, Nat.add_assoc]
  · have := h.pending
    have := h'.pending
    rw [List.filter_append, List.map_append, List.sum_append]; omega
  · have := h.invested
    have := h'.invested
    rw [List.filter_append, List.map_append, List.sum_append]; omega

section Branches

variable {d : Deployment} {env : Replies} {s t : State} {pool : Address} {i : Nat} {f : Flow}

theorem Flow.andThen_credits {a f : Flow} {next : State → Tx Flow} (ha : Credits s a.payouts a.state)
    (hnext : ∀ g, next a.state = .ok g → Credits a.state g.payouts g.state) (h : a.andThen next = .ok f) :
    Credits s f.payouts f.state := by
  unfold Flow.andThen at h
  split at h
  · cases h; exact ha
  · simp only [bind_ok_iff, pure_ok_iff] at h
    obtain ⟨g, hg, rfl⟩ := h
    exact ha.trans (hnext g hg)

theorem requestYieldBranch_credits (h : requestYieldBranch env pool i s = .ok f) : Credits s f.payouts f.state := by
  simp only [requestYieldBranch, bind_ok_iff, readAt_ok_iff] at h
  obtain ⟨pos, hpos, h⟩ := h
  split_ifs at h <;> cases h <;> exact ⟨rfl, rfl, rfl⟩

theorem executeYieldBranch_credits (h : executeYieldBranch d env pool i s = .ok f) : Credits s f.payouts f.state := by
  simp only [executeYieldBranch, bind_ok_iff, readAt_ok_iff] at h
  obtain ⟨pos, hpos, h⟩ := h
  split at h
  · split at h
    · cases h; exact .refl s
    · simp only [bind_ok_iff, checkedSub_ok_iff, checkedAdd_ok_iff, pure_ok_iff] at h
      obtain ⟨received, -, _, ⟨hle, rfl⟩, _, ⟨-, rfl⟩, _, -, rfl⟩ := h
      refine ⟨?_, ?_, rfl⟩
      · show s.idleHollar + received + s.totalReservedHollar = s.idleHollar + s.totalReservedHollar + received
        omega
      · show s.totalPendingYield - pos.pendingYield + pos.pendingYield = s.totalPendingYield
        omega
  · cases h; exact .refl s

theorem requestPrincipalBranch_credits (h : requestPrincipalBranch env pool i s = .ok f) :
    Credits s f.payouts f.state := by
  simp only [requestPrincipalBranch, bind_ok_iff, readAt_ok_iff] at h
  obtain ⟨pos, hpos, h⟩ := h
  split_ifs at h <;> cases h <;> exact ⟨rfl, rfl, rfl⟩

theorem distribute_credits (h : distribute s = .ok t) : Credits s [] t := by
  unfold distribute at h
  split at h
  · simp only [bind_ok_iff, pure_ok_iff, Prod.exists, processQueueWithHollar, checkedSub_ok_iff, checkedAdd_ok_iff,
      Prod.mk.injEq] at h
    obtain ⟨rate, -, t', _, _, ⟨r, -, _, ⟨hle, rfl⟩, _, ⟨-, rfl⟩, _, ⟨-, rfl⟩, rfl, -, -⟩, rfl⟩ := h
    refine ⟨?_, rfl, rfl⟩
    show s.idleHollar - r.hollarUsed + (s.totalReservedHollar + r.hollarUsed) = s.idleHollar + s.totalReservedHollar + 0
    omega
  · cases h; exact .refl s

theorem executePrincipalBranch_credits (h : executePrincipalBranch d env pool i s = .ok f) :
    Credits s f.payouts f.state := by
  simp only [executePrincipalBranch, bind_ok_iff, readAt_ok_iff] at h
  obtain ⟨pos, hpos, h⟩ := h
  split at h
  · split at h
    · cases h; exact .refl s
    · simp only [bind_ok_iff, checkedSub_ok_iff, checkedAdd_ok_iff, pure_ok_iff] at h
      obtain ⟨received, -, _, -, _, ⟨hle, rfl⟩, _, ⟨-, rfl⟩, after, hdist, _, -, rfl⟩ := h
      have hd := distribute_credits hdist
      refine ⟨?_, ?_, ?_⟩
      · have : after.idleHollar + after.totalReservedHollar =
          s.idleHollar + received + s.totalReservedHollar + 0 := hd.idle
        show after.idleHollar + after.totalReservedHollar = s.idleHollar + s.totalReservedHollar + received
        omega
      · exact hd.pending
      · have : after.totalInvestedPrincipal + 0 = s.totalInvestedPrincipal - pos.principal := hd.invested
        show after.totalInvestedPrincipal + pos.principal = s.totalInvestedPrincipal
        omega
  · cases h; exact .refl s

/-- A `pokeDecentral` credits its payouts, and releases what they were expected to be, after its sync. -/
theorem pokeDecentral_credits {ps : List Payout} (h : pokeDecentral d env s i = .ok (t, ps)) :
    ∃ s₁ k, syncMaturities s maxMaturitySync = .ok (s₁, k) ∧ Credits s₁ ps t := by
  simp only [pokeDecentral, bind_ok_iff, Prod.exists, pure_ok_iff, Prod.mk.injEq] at h
  obtain ⟨_, -, _, -, _, -, s₁, k, hsync, f₁, h1, f₂, h2, f₃, h3, f₄, h4, rfl, rfl⟩ := h
  have hc := Flow.andThen_credits (requestYieldBranch_credits h1) (fun _ hg => executeYieldBranch_credits hg) h2
  have hc := Flow.andThen_credits hc (fun _ hg => requestPrincipalBranch_credits hg) h3
  exact ⟨s₁, k, hsync, Flow.andThen_credits hc (fun _ hg => executePrincipalBranch_credits hg) h4⟩

end Branches

/-! ## The lifecycle -/

/-- In every reachable state the totals are what the positions still claim, every position that
left Active is capped and matured and its pending yield fits its state, and below the head all are
redeemed; every step takes each position along its lifecycle; and in every run each payout is
credited at most once, releasing exactly its claim. -/
theorem position_lifecycle {d : Deployment} {s : State} (h : Reachable d s) :
    s.totalInvestedPrincipal = (s.positions.map fun pos => if pos.state = .redeemed then 0 else pos.principal).sum ∧
    s.totalPendingYield = (s.positions.map NFTPosition.pendingYield).sum ∧
    (∀ pos ∈ s.positions,
      (pos.state ≠ .active → pos.yieldCapped = true ∧ pos.maturityTime ≤ s.now) ∧
      (pos.state = .yieldWithdrawalRequested → 0 < pos.pendingYield) ∧
      (pos.state ≠ .active → pos.state ≠ .yieldWithdrawalRequested → pos.pendingYield = 0)) ∧
    (∀ i < s.positionHead, ∃ pos, s.positions[i]? = some pos ∧ pos.state = .redeemed) ∧
    (∀ a t ps, Legal d s a → step d s a = .ok (t, ps) →
      s.positionHead ≤ t.positionHead ∧
      ∀ (i : Nat) (pos : NFTPosition), s.positions[i]? = some pos →
        ∃ pos', t.positions[i]? = some pos' ∧ ReflTransGen (NFTPosition.Step s.now) pos pos') ∧
    (∀ ps t, History d s ps t → ∀ i k, (payoutsOf ps i k).length ≤ 1) ∧
    (∀ env i t ps, pokeDecentral d env s i = .ok (t, ps) →
      ∃ s₁ k, syncMaturities s maxMaturitySync = .ok (s₁, k) ∧ Credits s₁ ps t) := by
  have hl := h.inv.lifecycle
  refine ⟨hl.invested, hl.pending, fun pos hp => ?_, hl.swept, fun a t ps hlegal hs => ?_, fun ps t hh => ?_,
    fun env i t ps hp => pokeDecentral_credits hp⟩
  · exact ⟨(hl.positions pos hp).left, (hl.positions pos hp).requested, (hl.positions pos hp).claimed⟩
  · have hev := step_evolves h.inv hlegal hs
    exact ⟨hev.head_le, hev.positions⟩
  · exact (history_creditsOnce h.inv hh).once

/-- In the replayed run the position has been redeemed, and claims nothing any more. -/
theorem position_lifecycle_demo : ∃ s : State, s.totalSettledBil = 32 * 10 ^ 18 ∧
    s.totalInvestedPrincipal = (s.positions.map fun pos => if pos.state = .redeemed then 0 else pos.principal).sum := by
  obtain ⟨s, hs, -, hsettled, -⟩ := demoRun_settled
  exact ⟨s, hsettled, (position_lifecycle hs.of_restrict).1⟩

end MoneyMarket
