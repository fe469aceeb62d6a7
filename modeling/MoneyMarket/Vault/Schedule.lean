/-
Two schedules of syncs over one history. As long as no position is poked, when the syncs run and in
which batches shows only in which due positions are capped already (`SameTerms`). Every call that
prices anything starts with no position due, and so does the same in both runs.
-/
import MoneyMarket.Book.Due
import MoneyMarket.Vault.Beside
import MoneyMarket.Vault.Invariant

namespace MoneyMarket

open Evm Relational Relation Transition

/-! ## The same terms -/

/-- The position as the syncs up to `now` are to leave it. -/
def NFTPosition.cappedBy (now : Nat) (pos : NFTPosition) : NFTPosition := if pos.Due now then pos.locked else pos

/-- The same book but for which due positions are capped, and for the yield aggregates. -/
structure SameTerms (now : Nat) (b b' : Book) : Prop where
  positions : b'.positions.map (NFTPosition.cappedBy now) = b.positions.map (NFTPosition.cappedBy now)
  pools : b'.positionPool = b.positionPool
  head : b'.positionHead = b.positionHead
  invested : b'.totalInvestedPrincipal = b.totalInvestedPrincipal

/-- The same state but for the layout of the maturity heap. -/
def Reheaped (s s' : State) : Prop := ∃ maturityHeap, s' = { s with maturityHeap }

section Terms

variable {now later : Nat} {pos : NFTPosition} {b b' b'' : Book}

theorem NFTPosition.cappedBy_locked (now : Nat) (pos : NFTPosition) : pos.locked.cappedBy now = pos.locked :=
  if_neg fun hdue => by cases hdue.1

theorem NFTPosition.cappedBy_later (h : now ≤ later) : (pos.cappedBy now).cappedBy later = pos.cappedBy later := by
  by_cases hdue : pos.Due now
  · have hlater : pos.Due later := ⟨hdue.1, le_trans hdue.2 h⟩
    rw [cappedBy, cappedBy, if_pos hdue, cappedBy, if_pos hlater]
    exact pos.cappedBy_locked later
  · rw [cappedBy.eq_1 now, if_neg hdue]

theorem SameTerms.symm (h : SameTerms now b b') : SameTerms now b' b :=
  ⟨h.positions.symm, h.pools.symm, h.head.symm, h.invested.symm⟩

theorem SameTerms.trans (h : SameTerms now b b') (h' : SameTerms now b' b'') : SameTerms now b b'' :=
  ⟨h'.positions.trans h.positions, h'.pools.trans h.pools, h'.head.trans h.head, h'.invested.trans h.invested⟩

theorem SameTerms.tick (h : SameTerms now b b') (hle : now ≤ later) : SameTerms later b b' := by
  have hlater : ∀ ps : List NFTPosition, (ps.map (NFTPosition.cappedBy now)).map (NFTPosition.cappedBy later) =
      ps.map (NFTPosition.cappedBy later) := by
    intro ps
    rw [List.map_map]
    exact List.map_congr_left fun p _ => NFTPosition.cappedBy_later hle
  refine ⟨?_, h.pools, h.head, h.invested⟩
  rw [← hlater b'.positions, h.positions, hlater]

/-- Locking due positions changes no terms. -/
theorem cappedBy_lockAt {ps : List NFTPosition} {indices : List Nat}
    (hdue : ∀ i ∈ indices, ∀ pos, ps[i]? = some pos → pos.Due now) :
    (lockAt ps indices).map (NFTPosition.cappedBy now) = ps.map (NFTPosition.cappedBy now) := by
  refine List.ext_getElem? fun i => ?_
  rw [List.getElem?_map, List.getElem?_map, getElem?_lockAt]
  cases hpos : ps[i]? with
  | none => rfl
  | some pos =>
    simp only [Option.map_some, Option.some.injEq]
    split_ifs with hi
    · rw [NFTPosition.cappedBy_locked, NFTPosition.cappedBy, if_pos (hdue i hi pos hpos)]
    · rfl

/-- Where no position is due the terms are the positions. -/
theorem cappedBy_self {ps : List NFTPosition} (h : ∀ pos ∈ ps, ¬ pos.Due now) :
    ps.map (NFTPosition.cappedBy now) = ps := by
  refine (List.map_congr_left fun pos hp => ?_).trans (List.map_id ps)
  exact if_neg (h pos hp)

/-- And they are all of the book but the layout of the heap. -/
theorem SameTerms.book_eq (h : SameTerms now b b') (hy : YieldBook now b) (hy' : YieldBook now b')
    (hl : Lifecycle now b) (hl' : Lifecycle now b') (hnone : ∀ pos ∈ b.positions, ¬ pos.Due now)
    (hnone' : ∀ pos ∈ b'.positions, ¬ pos.Due now) : b' = { b with maturityHeap := b'.maturityHeap } := by
  have hpos : b'.positions = b.positions := by
    have := h.positions
    rwa [cappedBy_self hnone, cappedBy_self hnone'] at this
  have hrate : b'.yieldRateSum = b.yieldRateSum := by rw [hy'.rateSum, hy.rateSum, hpos]
  have hoffset : b'.yieldOffsetSum = b.yieldOffsetSum := by rw [hy'.offsetSum, hy.offsetSum, hpos]
  have hpending : b'.totalPendingYield = b.totalPendingYield := by rw [hl'.pending, hl.pending, hpos]
  have hpools := h.pools
  have hhead := h.head
  have hinvested := h.invested
  cases b
  cases b'
  simp only at hpos hrate hoffset hpending hpools hhead hinvested
  subst hpos hrate hoffset hpending hpools hhead hinvested
  rfl

/-- The root of the heap is due where any position is. -/
theorem YieldBook.none_due (h : YieldBook now b)
    (hnone : ∀ root, b.maturityHeap[0]? = some root → now < entryMaturity root) :
    ∀ pos ∈ b.positions, ¬ pos.Due now := by
  intro pos hp hdue
  obtain ⟨i, hi⟩ := List.mem_iff_getElem?.1 hp
  have hmem : packEntry pos.maturityTime i ∈ b.maturityHeap :=
    h.entries.mem_iff.2 (mem_liveEntries.2 ⟨i, pos, hi, hdue.1, by rw [Nat.zero_add]⟩)
  cases hroot : b.maturityHeap[0]? with
  | none =>
    have hnil : b.maturityHeap = [] := List.eq_nil_of_length_eq_zero (by simpa using hroot)
    rw [hnil] at hmem
    exact List.not_mem_nil hmem
  | some root =>
    have hlater := hnone root hroot
    have hle := h.root_le hroot hp hdue.1
    have := hdue.2
    omega

end Terms

/-! ## Heaps of another layout -/

/-- And the same value. -/
def Reheapeds {α : Type} (p q : State × α) : Prop := Reheaped p.1 q.1 ∧ q.2 = p.2

section Reheaped

variable {d : Deployment} {env : Replies} {s s' : State} {maturityHeap : List Nat}

theorem NoneDue.accrualTime_eq (h : NoneDue s) : accrualTime s = s.now :=
  Book.stop_eq_now fun root hroot => (h root hroot).le

theorem NoneDue.no_backlog (h : NoneDue s) : requireNoMaturityBacklog s = .ok () :=
  require_ok_iff.2 (noneDue_iff.2 h)

/-- With no position due the aggregate runs to the present, whatever the heap. -/
theorem totalAssets_reheaped (h : NoneDue s) (h' : NoneDue { s with maturityHeap }) :
    totalAssets { s with maturityHeap } = totalAssets s := by
  have htime : accrualTime { s with maturityHeap } = accrualTime s := by
    rw [h.accrualTime_eq, h'.accrualTime_eq]
  unfold totalAssets accruedYield
  rw [htime]

theorem exchangeRate_reheaped (h : NoneDue s) (h' : NoneDue { s with maturityHeap }) :
    exchangeRate { s with maturityHeap } = exchangeRate s := by
  unfold exchangeRate activeAssets
  rw [totalAssets_reheaped h h']
  rfl

theorem validateDeposit_reheaped (h : NoneDue s) (h' : NoneDue { s with maturityHeap }) (assets : Nat) :
    validateDeposit { s with maturityHeap } assets = validateDeposit s assets := by
  unfold validateDeposit
  rw [totalAssets_reheaped h h']

theorem validateAndPreviewShares_reheaped (h : NoneDue s) (h' : NoneDue { s with maturityHeap }) (assets : Nat) :
    validateAndPreviewShares { s with maturityHeap } assets = validateAndPreviewShares s assets := by
  unfold validateAndPreviewShares activeAssets
  rw [validateDeposit_reheaped h h', totalAssets_reheaped h h']
  rfl

theorem previewMint_reheaped (h : NoneDue s) (h' : NoneDue { s with maturityHeap }) (shares : Nat) :
    previewMint { s with maturityHeap } shares = previewMint s shares := by
  unfold previewMint activeAssets
  rw [totalAssets_reheaped h h']
  rfl

theorem recordPosition_reheaped {b : Book} {pool : Address} {tokenId apyWad amount period now : Nat} :
    Both (fun b b' => ∃ maturityHeap, b' = { b with maturityHeap })
      (recordPosition b pool tokenId apyWad amount period now)
      (recordPosition { b with maturityHeap } pool tokenId apyWad amount period now) := by
  unfold recordPosition addToBucket pushMaturity
  refine .same fun maturityTime _ => .same fun invested _ => .same fun rate _ => .same fun rateSum _ => ?_
  refine .same fun offset _ => .same fun offsetSum _ => .same fun pos _ => ?_
  refine .bind (R := fun _ _ => True) (.same fun _ _ => .same fun _ _ => .ok trivial) fun heap heap' _ _ _ => ?_
  exact .ok ⟨heap', rfl⟩

theorem depositIntoDecentral_reheaped {amount : Nat} (h : Reheaped s s') :
    Both Reheapeds (depositIntoDecentral d env s amount) (depositIntoDecentral d env s' amount) := by
  obtain ⟨maturityHeap, rfl⟩ := h
  unfold depositIntoDecentral
  refine .same fun apyWad _ => .same fun token₁ _ => .same fun token₂ _ => ?_
  cases poolDeposit d (env.pool s.activeDepositPool) token₂ s.activeDepositPool with
  | none => exact .ok ⟨⟨maturityHeap, rfl⟩, rfl⟩
  | some r =>
    obtain ⟨tokenId, token⟩ := r
    refine .same fun period _ => .bind (recordPosition_reheaped (b := s.toBook)) ?_
    rintro book book' - - ⟨heap, rfl⟩
    exact .ok ⟨⟨heap, rfl⟩, rfl⟩

theorem depositShares_reheaped {sender receiver : Address} {assets shares : Nat} (h : Reheaped s s') :
    Both Reheaped (depositShares d env s sender receiver assets shares)
      (depositShares d env s' sender receiver assets shares) := by
  obtain ⟨maturityHeap, rfl⟩ := h
  unfold depositShares
  refine .same fun bil₀ _ => .same fun bil _ => .same fun token _ => ?_
  refine .bind (depositIntoDecentral_reheaped (s := { s with bil, token }) ⟨maturityHeap, rfl⟩) ?_
  rintro ⟨t, ok⟩ ⟨t', ok'⟩ - - ⟨ht, rfl⟩
  exact .same fun _ _ => .ok ht

theorem deposit_reheaped {sender receiver : Address} {assets : Nat} (h : NoneDue s) (h' : NoneDue s')
    (hs : Reheaped s s') :
    Both Reheapeds (deposit d env s sender assets receiver) (deposit d env s' sender assets receiver) := by
  obtain ⟨maturityHeap, rfl⟩ := hs
  unfold deposit
  rw [validateAndPreviewShares_reheaped h h', h.no_backlog, h'.no_backlog]
  refine .same fun _ _ => .same fun _ _ => .same fun shares _ => .same fun _ _ => ?_
  exact .bind (depositShares_reheaped ⟨maturityHeap, rfl⟩) fun t t' _ _ ht => .ok ⟨ht, rfl⟩

theorem mint_reheaped {sender receiver : Address} {shares : Nat} (h : NoneDue s) (h' : NoneDue s')
    (hs : Reheaped s s') :
    Both Reheapeds (mint d env s sender shares receiver) (mint d env s' sender shares receiver) := by
  obtain ⟨maturityHeap, rfl⟩ := hs
  unfold mint
  rw [previewMint_reheaped h h', h.no_backlog, h'.no_backlog]
  refine .same fun _ _ => .same fun _ _ => .same fun _ _ => .same fun _ _ => .same fun assets _ => ?_
  rw [validateDeposit_reheaped h h']
  refine .same fun _ _ => ?_
  exact .bind (depositShares_reheaped ⟨maturityHeap, rfl⟩) fun t t' _ _ ht => .ok ⟨ht, rfl⟩

theorem reinvest_reheaped (h : Reheaped s s') : Both Reheaped (reinvest d env s) (reinvest d env s') := by
  obtain ⟨maturityHeap, rfl⟩ := h
  unfold reinvest
  refine .branch (fun _ => .ok ⟨maturityHeap, rfl⟩) fun _ => .same fun amount _ => ?_
  refine .branch (fun _ => .ok ⟨maturityHeap, rfl⟩) fun _ => ?_
  refine .bind (depositIntoDecentral_reheaped ⟨maturityHeap, rfl⟩) ?_
  rintro ⟨t, ok⟩ ⟨t', ok'⟩ - - ⟨ht, rfl⟩
  obtain ⟨heap, rfl⟩ : Reheaped t t' := ht
  exact .branch (fun _ => .same fun idle _ => .ok ⟨heap, rfl⟩) fun _ => .ok ⟨heap, rfl⟩

theorem processQueueWithHollar_reheaped (h : Reheaped s s') (available rate : Nat) :
    Both Reheapeds (processQueueWithHollar s available rate) (processQueueWithHollar s' available rate) := by
  obtain ⟨maturityHeap, rfl⟩ := h
  unfold processQueueWithHollar
  refine .same fun r _ => .same fun idle _ => .same fun reserved _ => .same fun settled _ => ?_
  exact .ok ⟨⟨maturityHeap, rfl⟩, rfl⟩

end Reheaped

/-! ## Two schedules -/

/-- Two states of one history that was synced in two ways. -/
structure Aligned (d : Deployment) (s s' : State) : Prop where
  inv : Invariant d s
  inv' : Invariant d s'
  beside : Beside Eq (SameTerms s.now) s s'

section Schedules

variable {d : Deployment} {env : Replies} {s s' t t' : State} {sender : Address} {n k : Nat}

/-- A sync leaves the terms. -/
theorem syncMaturities_terms (hy : YieldBook s.now s.toBook) (h : syncMaturities s n = .ok (t, k)) :
    ∃ b, t = { s with toBook := b } ∧ SameTerms s.now s.toBook b := by
  simp only [syncMaturities, bind_ok_iff, pure_ok_iff, Prod.mk.injEq] at h
  obtain ⟨r, hr, pending, -, rfl, -⟩ := h
  obtain ⟨-, hpos, -, -⟩ := processMaturities_locks (b := s.toBook) hy hr
  refine ⟨_, rfl, ?_, rfl, rfl, rfl⟩
  show r.positions.map (NFTPosition.cappedBy s.now) = _
  rw [hpos]
  refine cappedBy_lockAt fun i hi pos hpos => ?_
  obtain ⟨p, hp, hdue⟩ := (hy.dueList.mem i).1 (List.mem_of_mem_take hi)
  rw [hpos] at hp
  cases hp
  exact hdue

theorem Invariant.sync (h : Invariant d s) (hs : syncMaturities s n = .ok (t, k)) : Invariant d t :=
  h.pokes (syncMaturities_pokes hs).1

namespace Aligned

theorem left (h : Aligned d s s') (hs : syncMaturities s n = .ok (t, k)) : Aligned d t s' := by
  have hinv := h.inv.sync hs
  obtain ⟨b, rfl, hb⟩ := syncMaturities_terms h.inv.yield hs
  refine ⟨hinv, h.inv', ?_⟩
  obtain ⟨token, book, rfl, hbook⟩ := h.beside
  exact .mk (s := { s with toBook := b }) s.token book rfl (hb.symm.trans hbook)

theorem right (h : Aligned d s s') (hs : syncMaturities s' n = .ok (t', k)) : Aligned d s t' := by
  have hinv := h.inv'.sync hs
  obtain ⟨b, rfl, hb⟩ := syncMaturities_terms h.inv'.yield hs
  refine ⟨h.inv, hinv, ?_⟩
  obtain ⟨token, book, rfl, hbook⟩ := h.beside
  exact .mk s.token b rfl (hbook.trans hb)

/-- Where neither has a position due, they differ in the layout of the heap alone. -/
theorem meet (h : Aligned d s s') (hnone : ∀ pos ∈ s.positions, ¬ pos.Due s.now)
    (hnone' : ∀ pos ∈ s'.positions, ¬ pos.Due s'.now) : Reheaped s s' := by
  have hy' := h.inv'.yield
  have hl' := h.inv'.lifecycle
  obtain ⟨token, book, rfl, hbook⟩ := h.beside
  have heq := hbook.book_eq h.inv.yield hy' h.inv.lifecycle hl' hnone hnone'
  rw [heq]
  exact ⟨book.maturityHeap, rfl⟩

theorem ready (h : Aligned d s s') (hnone : NoneDue s) (hnone' : NoneDue s') : Reheaped s s' :=
  h.meet (h.inv.yield.none_due hnone) (h.inv'.yield.none_due hnone')

theorem of_reheaped (hinv : Invariant d t) (hinv' : Invariant d t') (h : Reheaped t t') : Aligned d t t' := by
  obtain ⟨maturityHeap, rfl⟩ := h
  exact ⟨hinv, hinv', .mk t.token { t.toBook with maturityHeap } rfl ⟨rfl, rfl, rfl, rfl⟩⟩

/-- The terms at an earlier time are the terms later. -/
theorem of_beside {now : Nat} (hinv : Invariant d t) (hinv' : Invariant d t') (hle : now ≤ t.now)
    (h : Beside Eq (SameTerms now) t t') : Aligned d t t' := by
  obtain ⟨token, book, ht, hb⟩ := h
  exact ⟨hinv, hinv', .mk token book ht (hb.tick hle)⟩

end Aligned

theorem deposit_none_due {assets shares : Nat} {receiver : Address}
    (h : deposit d env s sender assets receiver = .ok (t, shares)) : NoneDue s := by
  simp only [deposit, requireNoMaturityBacklog, bind_ok_iff, require_ok_iff] at h
  obtain ⟨_, -, _, -, _, -, _, hnone, -⟩ := h
  exact noneDue_iff.1 hnone

theorem mint_none_due {assets shares : Nat} {receiver : Address}
    (h : mint d env s sender shares receiver = .ok (t, assets)) : NoneDue s := by
  simp only [mint, requireNoMaturityBacklog, bind_ok_iff, require_ok_iff] at h
  obtain ⟨_, -, _, -, _, -, _, hnone, -⟩ := h
  exact noneDue_iff.1 hnone

/-- A poke of the queue syncs until nothing is due, and the rest is the same in both. -/
theorem pokeQueue_aligned (h : Aligned d s s') (hs : pokeQueue d env s = .ok t) (hs' : pokeQueue d env s' = .ok t') :
    Reheaped t t' := by
  simp only [pokeQueue, syncBeforeRateSensitiveAction, requireNoMaturityBacklog, bind_ok_iff, Prod.exists,
    require_ok_iff, pure_ok_iff] at hs hs'
  obtain ⟨_, -, _, ⟨s₁, k, hsync, _, hnone, rfl⟩, rate, hrate, s₂, used, locked, hq, hs⟩ := hs
  obtain ⟨_, -, _, ⟨s₁', k', hsync', _, hnone', rfl⟩, rate', hrate', s₂', used', locked', hq', hs'⟩ := hs'
  have hnone := noneDue_iff.1 hnone
  have hnone' := noneDue_iff.1 hnone'
  -- after the two syncs nothing is due on either side, so only the heaps differ
  obtain ⟨maturityHeap, rfl⟩ := ((h.left hsync).right hsync').ready hnone hnone'
  obtain rfl : rate' = rate := by
    rw [exchangeRate_reheaped hnone hnone', hrate] at hrate'
    exact (Except.ok.inj hrate').symm
  obtain ⟨ht, heq⟩ := (processQueueWithHollar_reheaped ⟨maturityHeap, rfl⟩ s₁.idleHollar rate').values hq hq'
  obtain ⟨rfl, rfl⟩ := Prod.mk.inj heq
  obtain ⟨heap, rfl⟩ : Reheaped s₂ s₂' := ht
  have hrest : Both Reheaped
      (if used' = 0 ∧ s₂.minReinvestAmount ≤ s₂.idleHollar ∧ s₂.depositsPaused = false then
        reinvest d env (sweepPositionHead s₂) else return sweepPositionHead s₂)
      (if used' = 0 ∧ s₂.minReinvestAmount ≤ s₂.idleHollar ∧ s₂.depositsPaused = false then
        reinvest d env (sweepPositionHead { s₂ with maturityHeap := heap })
        else return sweepPositionHead { s₂ with maturityHeap := heap }) :=
    .branch (fun _ => reinvest_reheaped ⟨heap, rfl⟩) fun _ => .ok ⟨heap, rfl⟩
  exact hrest.values hs hs'

/-- A call other than a poke of a position takes aligned states to aligned states. -/
theorem call_aligned {c : Call} {ps ps' : List Payout} (h : Aligned d s s') (hc : ∀ i, c ≠ .pokeDecentral i)
    (hinv : Invariant d t) (hinv' : Invariant d t') (hle : s.now ≤ t.now) (hs : c.run d env s sender = .ok (t, ps))
    (hs' : c.run d env s' sender = .ok (t', ps')) : Aligned d t t' := by
  have hpay : ∀ receiver, SamePay Eq d s s' receiver := by
    intro receiver amount _
    obtain ⟨token, book, rfl, -⟩ := h.beside
    exact .refl (fun _ => rfl) _
  by_cases hapart : c.Apart
  · have hboth : Both (Besides Eq (SameTerms s.now)) (c.run d env s sender) (c.run d env s' sender) :=
      Call.run_beside hapart h.beside
    exact .of_beside hinv hinv' hle (hboth.values hs hs').1
  cases c with
  | deposit assets receiver =>
    simp only [Call.run, bind_ok_iff, Prod.exists, pure_ok_iff, Prod.mk.injEq] at hs hs'
    obtain ⟨_, shares, hs, rfl, -⟩ := hs
    obtain ⟨_, shares', hs', rfl, -⟩ := hs'
    have hnone := deposit_none_due hs
    have hnone' := deposit_none_due hs'
    exact .of_reheaped hinv hinv' ((deposit_reheaped hnone hnone' (h.ready hnone hnone')).values hs hs').1
  | mint shares receiver =>
    simp only [Call.run, bind_ok_iff, Prod.exists, pure_ok_iff, Prod.mk.injEq] at hs hs'
    obtain ⟨_, assets, hs, rfl, -⟩ := hs
    obtain ⟨_, assets', hs', rfl, -⟩ := hs'
    have hnone := mint_none_due hs
    have hnone' := mint_none_due hs'
    exact .of_reheaped hinv hinv' ((mint_reheaped hnone hnone' (h.ready hnone hnone')).values hs hs').1
  | redeem shares receiver controller =>
    simp only [Call.run, bind_ok_iff, Prod.exists, pure_ok_iff, Prod.mk.injEq] at hs hs'
    obtain ⟨_, assets, hs, rfl, -⟩ := hs
    obtain ⟨_, assets', hs', rfl, -⟩ := hs'
    exact .of_beside hinv hinv' hle ((redeem_beside h.beside (hpay receiver)).values hs hs').1
  | withdraw assets receiver controller =>
    simp only [Call.run, bind_ok_iff, Prod.exists, pure_ok_iff, Prod.mk.injEq] at hs hs'
    obtain ⟨_, shares, hs, rfl, -⟩ := hs
    obtain ⟨_, shares', hs', rfl, -⟩ := hs'
    exact .of_beside hinv hinv' hle ((withdraw_beside h.beside (hpay receiver)).values hs hs').1
  | pokeQueue =>
    simp only [Call.run, bind_ok_iff, pure_ok_iff, Prod.mk.injEq] at hs hs'
    obtain ⟨_, hs, rfl, -⟩ := hs
    obtain ⟨_, hs', rfl, -⟩ := hs'
    exact .of_reheaped hinv hinv' (pokeQueue_aligned h hs hs')
  | syncMaturities n =>
    simp only [Call.run, bind_ok_iff, Prod.exists, pure_ok_iff, Prod.mk.injEq] at hs hs'
    obtain ⟨_, k, hs, rfl, -⟩ := hs
    obtain ⟨_, k', hs', rfl, -⟩ := hs'
    exact (h.left hs).right hs'
  | setTvlCap newCap =>
    -- the check reads the book, what it sets does not
    simp only [Call.run, setTvlCap, bind_ok_iff, pure_ok_iff, Prod.mk.injEq] at hs hs'
    obtain ⟨_, ⟨_, -, _, -, _, -, rfl⟩, rfl, -⟩ := hs
    obtain ⟨_, ⟨_, -, _, -, _, -, rfl⟩, rfl, -⟩ := hs'
    obtain ⟨token, book, ht, hb⟩ := h.beside
    exact ⟨hinv, hinv', .mk token book ht hb⟩
  | retirePool pool =>
    simp only [Call.run, retirePool, removePool, bind_ok_iff, returned_ok_iff, pure_ok_iff, Prod.mk.injEq] at hs hs'
    obtain ⟨_, ⟨_, -, _, -, _, -, _, ⟨_, -, rfl⟩, poolToken, htoken, rfl⟩, rfl, -⟩ := hs
    obtain ⟨_, ⟨_, -, _, -, _, -, _, ⟨_, -, rfl⟩, poolToken', htoken', rfl⟩, rfl, -⟩ := hs'
    obtain rfl := Option.some.inj (htoken.symm.trans htoken')
    obtain ⟨token, book, ht, hb⟩ := h.beside
    exact ⟨hinv, hinv', .mk token book ht hb⟩
  | pokeDecentral i => exact absurd rfl (hc i)
  | _ => exact absurd trivial hapart

/-- So does every other action. -/
theorem step_aligned {a : Action} {ps ps' : List Payout} (h : Aligned d s s')
    (hpoke : ∀ sender env i, a ≠ .call sender env (.pokeDecentral i)) (hlegal : Legal d s a) (hlegal' : Legal d s' a)
    (hs : step d s a = .ok (t, ps)) (hs' : step d s' a = .ok (t', ps')) : Aligned d t t' := by
  have hinv := h.inv.step hlegal hs
  have hinv' := h.inv'.step hlegal' hs'
  have hle := step_now_le hlegal hs
  have hledger : ∀ {x : ERC20 → Tx ERC20},
      (do return ({ s with token := ← x s.token }, ([] : List Payout))) = Except.ok (t, ps) →
        (do return ({ s' with token := ← x s'.token }, ([] : List Payout))) = Except.ok (t', ps') → Aligned d t t' := by
    intro x hs hs'
    obtain ⟨token, book, rfl, hb⟩ := h.beside
    simp only [bind_ok_iff, pure_ok_iff, Prod.mk.injEq] at hs hs'
    obtain ⟨token, htoken, rfl, -⟩ := hs
    obtain ⟨token', htoken', rfl, -⟩ := hs'
    obtain rfl := Except.ok.inj (htoken.symm.trans htoken')
    exact ⟨hinv, hinv', .mk token book rfl hb⟩
  cases a with
  | tick now =>
    obtain ⟨token, book, ht, hb⟩ := h.beside
    cases hs
    cases hs'
    exact ⟨hinv, hinv', .mk token book ht (hb.tick hle)⟩
  | call sender env c => exact call_aligned h (fun i hi => hpoke sender env i (by rw [hi])) hinv hinv' hle hs hs'
  | hollar sender c => exact hledger (x := fun token => token.call sender c) hs hs'
  | hollarMint account amount => exact hledger (x := fun token => token.mint account amount) hs hs'
  | hollarBurn account amount => exact hledger (x := fun token => token.burn account amount) hs hs'

/-- What happens to a history under two schedules: an action of both, or a sync of one. -/
inductive ScheduleAction where
  | both (a : Action)
  | first (n : Nat)
  | second (n : Nat)

/-- Two schedules of syncs over one history from `s`, in which no position is poked. -/
def schedules (d : Deployment) (s : State) : System (State × State) ScheduleAction where
  init p := p = (s, s)
  next p x q :=
    match x with
    | .both a => (∀ sender env i, a ≠ .call sender env (.pokeDecentral i)) ∧ (vault d).next p.1 a q.1 ∧
        (vault d).next p.2 a q.2
    | .first n => (∃ k, syncMaturities p.1 n = .ok (q.1, k)) ∧ q.2 = p.2
    | .second n => q.1 = p.1 ∧ ∃ k, syncMaturities p.2 n = .ok (q.2, k)

theorem schedules_aligned (h : Reachable d s) {p : State × State} (hp : (schedules d s).Reach p) :
    Aligned d p.1 p.2 := by
  refine System.Reach.invariant (I := fun p => Aligned d p.1 p.2) ?_ ?_ hp
  · rintro p rfl
    exact .of_reheaped h.inv h.inv ⟨s.maturityHeap, rfl⟩
  · rintro ⟨s, s'⟩ x ⟨t, t'⟩ - h hnext
    cases x with
    | both a =>
      obtain ⟨hpoke, ⟨hlegal, ps, hs⟩, hlegal', ps', hs'⟩ := hnext
      exact step_aligned h hpoke hlegal hlegal' hs hs'
    | first n =>
      obtain ⟨⟨k, hs⟩, rfl⟩ := hnext
      exact h.left hs
    | second n =>
      obtain ⟨rfl, k, hs⟩ := hnext
      exact h.right hs

end Schedules

end MoneyMarket
