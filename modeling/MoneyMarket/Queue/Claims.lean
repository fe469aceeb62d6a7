/-
Claims on the queue. A walk over a sound index succeeds exactly when the index holds what it is
asked for (`claimWalk_ok_iff`), and what it draws leaves the claimable amounts (`draws_claimable`).
-/
import MoneyMarket.Queue.Index

namespace MoneyMarket

open Evm Relation

/-! ## Claimable amounts -/

/-- What the index of a controller adds up to. -/
def claimable (f : Request → Nat) (q : QueueStore) (c : Address) : Nat :=
  ((q.settledByController c).map fun i => f (q.redemptionQueue i)).sum

/-- All settled shares of a controller, indexed or not. -/
def settledOf (q : Redemptions) (c : Address) : Nat :=
  ∑ i ∈ Finset.range q.queueTail, if (q.redemptionQueue i).user = c then (q.redemptionQueue i).bilSettled else 0

theorem sumSettled_fold {queue : Nat → Request} {c : Address} {assets : Bool} : ∀ {ids : List Nat} {acc : Nat},
    (∀ i ∈ ids, (queue i).user = c) →
      acc + (ids.map fun i => if assets then (queue i).hollarOwed else (queue i).bilSettled).sum < uintSize →
      ids.foldlM (fun total i =>
        if (queue i).user = c then checkedAdd total (if assets then (queue i).hollarOwed else (queue i).bilSettled)
        else (.ok total : Tx Nat)) acc =
      .ok (acc + (ids.map fun i => if assets then (queue i).hollarOwed else (queue i).bilSettled).sum)
  | [], acc, _, _ => rfl
  | i :: ids, acc, hu, hlt => by
    rw [List.map_cons, List.sum_cons] at hlt ⊢
    rw [List.foldlM_cons, if_pos (hu i (List.mem_cons_self ..)), checkedAdd, if_pos (by omega)]
    show List.foldlM _ _ ids = _
    rw [sumSettled_fold (fun j hj => hu j (List.mem_cons_of_mem _ hj)) (by omega), Nat.add_assoc]

/-- A list without repeats sums no more than the requests below the tail. -/
theorem claimable_le (f : Request → Nat) {q : Redemptions} (h : IndexSound q) (hl : QueueLedger q) (c : Address) :
    claimable f q.toQueueStore c ≤ ∑ i ∈ Finset.range q.queueTail, f (q.redemptionQueue i) := by
  have hn := h.nodup c
  unfold claimable
  rw [← List.sum_toFinset _ hn]
  apply Finset.sum_le_sum_of_subset
  intro i hi
  have hs := h.sound c i (List.mem_toFinset.1 hi)
  have hpos : 0 < (q.redemptionQueue i).bilAmount := lt_of_lt_of_le hs.2 (hl.settled_le_amount i)
  exact Finset.mem_range.2 (hl.lt_tail (hl.user_ne_zero hpos))

theorem claimable_owed_le {q : Redemptions} (h : IndexSound q) (hl : QueueLedger q) (c : Address) :
    claimable Request.hollarOwed q.toQueueStore c ≤ q.totalReservedHollar := by
  rw [hl.reserved]; exact claimable_le _ h hl c

theorem claimable_settled_le {q : Redemptions} (h : IndexSound q) (hl : QueueLedger q) (c : Address) :
    claimable Request.bilSettled q.toQueueStore c ≤ q.totalSettledBil := by
  rw [hl.settled]; exact claimable_le _ h hl c

/-! ## What a draw takes -/

/-- The index sum after the request at its end is rewritten or leaves. -/
theorem claimable_split (f : Request → Nat) {q : QueueStore} {c : Address} {i : Nat}
    (hlast : (q.settledByController c).getLast? = some i) :
    claimable f q c = ((q.settledByController c).dropLast.map fun j => f (q.redemptionQueue j)).sum +
      f (q.redemptionQueue i) := by
  unfold claimable
  conv_lhs => rw [eq_dropLast_append hlast]
  rw [List.map_append, List.sum_append]
  rfl

/-- The other entries of the index do not see the rewriting of its last. -/
theorem sum_dropLast_update (f : Request → Nat) {q : QueueStore} {c : Address} {i : Nat} (r : Request)
    (hn : (q.settledByController c).Nodup) (hlast : (q.settledByController c).getLast? = some i) :
    ((q.settledByController c).dropLast.map fun j => f (Function.update q.redemptionQueue i r j)).sum =
      ((q.settledByController c).dropLast.map fun j => f (q.redemptionQueue j)).sum := by
  congr 1
  apply List.map_congr_left
  intro j hj
  rw [Function.update_of_ne ((mem_dropLast_iff hn hlast).1 hj).2]

/-- Drawing from the last request takes its share of any amount that is all drawn with the shares. -/
theorem claimable_drawn (f : Request → Nat) {q : Redemptions} {c : Address} {i b v x : Nat}
    (hn : (q.settledByController c).Nodup) (hlast : (q.settledByController c).getLast? = some i)
    (hle : (q.redemptionQueue i).bilSettled ≤ (q.redemptionQueue i).bilAmount)
    (hb : b ≤ (q.redemptionQueue i).bilSettled)
    (hgone : (q.redemptionQueue i).bilSettled = b → x = f (q.redemptionQueue i))
    (hkept : (q.redemptionQueue i).bilAmount ≠ b → f ((q.redemptionQueue i).drawn b v) + x = f (q.redemptionQueue i)) :
    claimable f (q.drawn c i b v).toQueueStore c + x = claimable f q.toQueueStore c := by
  rw [claimable_split f hlast]
  have hrest := sum_dropLast_update f ((q.redemptionQueue i).drawn b v) hn hlast
  by_cases hpop : (q.redemptionQueue i).bilAmount = b ∨ (q.redemptionQueue i).bilSettled = b
  · have hall : (q.redemptionQueue i).bilSettled = b := by
      rcases hpop with h | h <;> omega
    have hidx : (q.drawn c i b v).settledByController c = (q.settledByController c).dropLast := by
      simp only [Redemptions.drawn, if_pos hpop, Function.update_self]
    have : claimable f (q.drawn c i b v).toQueueStore c =
        ((q.settledByController c).dropLast.map fun j => f (q.redemptionQueue j)).sum := by
      unfold claimable
      rw [hidx]
      exact hrest
    rw [this, hgone hall]
  · have hidx : (q.drawn c i b v).settledByController c = q.settledByController c := by
      simp only [Redemptions.drawn, if_neg hpop]
    have hlast' : ((q.drawn c i b v).settledByController c).getLast? = some i := by rw [hidx]; exact hlast
    rw [claimable_split f hlast', hidx]
    have hi : (q.drawn c i b v).redemptionQueue i = (q.redemptionQueue i).drawn b v := by
      simp only [Redemptions.drawn, Function.update_self]
    have hrest' : ((q.settledByController c).dropLast.map fun j => f ((q.drawn c i b v).redemptionQueue j)).sum =
        ((q.settledByController c).dropLast.map fun j => f (q.redemptionQueue j)).sum := hrest
    rw [hi, hrest', Nat.add_assoc, hkept fun h => hpop (.inl h)]

/-- What the queue has left after draws of `c`, against what it had before. -/
structure Drawn (u : ClaimUnit) (c : Address) (q q' : Redemptions) : Prop where
  settled_le : q'.totalSettledBil ≤ q.totalSettledBil
  reserved_le : q'.totalReservedHollar ≤ q.totalReservedHollar
  owed : claimable Request.hollarOwed q'.toQueueStore c + q.totalReservedHollar =
    claimable Request.hollarOwed q.toQueueStore c + q'.totalReservedHollar
  shares : u = .shares → claimable Request.bilSettled q'.toQueueStore c + q.totalSettledBil =
    claimable Request.bilSettled q.toQueueStore c + q'.totalSettledBil
  all : settledOf q' c + q.totalSettledBil = settledOf q c + q'.totalSettledBil

theorem Drawn.trans {u : ClaimUnit} {c : Address} {q q' q'' : Redemptions} (h : Drawn u c q q')
    (h' : Drawn u c q' q'') :
    Drawn u c q q'' := by
  refine ⟨le_trans h'.settled_le h.settled_le, le_trans h'.reserved_le h.reserved_le, ?_, fun hu => ?_, ?_⟩
  · have := h.owed; have := h'.owed; omega
  · have := h.shares hu; have := h'.shares hu; omega
  · have := h.all; have := h'.all; omega

theorem Draw.drawn {u : ClaimUnit} {c : Address} {q q' : Redemptions} (hs : IndexSound q) (hl : QueueLedger q)
    (hd : Draw u c q q') : Drawn u c q q' := by
  cases hd with
  | evict i hlast hstale =>
    obtain ⟨huser, hpos⟩ := hs.sound c i (List.mem_of_getLast? hlast)
    rcases hstale with hne | hzero
    · exact absurd huser hne
    · cases u with
      | shares => exact absurd hzero hpos.ne'
      | assets =>
        -- an entry evicted by assets is owed nothing
        have hzero : (q.redemptionQueue i).hollarOwed = 0 := hzero
        refine ⟨le_refl _, le_refl _, ?_, fun h => absurd h (by decide), rfl⟩
        have : claimable Request.hollarOwed (q.dropLastOf c).toQueueStore c =
            ((q.settledByController c).dropLast.map fun j => (q.redemptionQueue j).hollarOwed).sum := by
          unfold claimable
          simp only [Redemptions.dropLastOf, Function.update_self]
        rw [this, claimable_split _ hlast, hzero]
        rfl
  | draw i b v hlast huser hbs hba hvo hall =>
    obtain ⟨-, hpos⟩ := hs.sound c i (List.mem_of_getLast? hlast)
    have hle := hl.settled_le_amount i
    have hsettled := hl.settled_le i
    have hreserved := hl.owed_le i
    have hlive : (q.redemptionQueue i).user ≠ 0 := hl.user_ne_zero (lt_of_lt_of_le hpos hle)
    have h1 := claimable_drawn Request.hollarOwed (v := v) (hs.nodup c) hlast hle hbs (fun h => hall hpos h.symm)
      (fun h => by rw [Request.drawn, if_neg h]; exact Nat.sub_add_cancel hvo)
    have h2 := claimable_drawn Request.bilSettled (v := v) (hs.nodup c) hlast hle hbs (fun h => h.symm)
      (fun h => by rw [Request.drawn, if_neg h]; exact Nat.sub_add_cancel hbs)
    have h3 := Sums.sum_range_update (fun r : Request => if r.user = c then r.bilSettled else 0) q.redemptionQueue
      ((q.redemptionQueue i).drawn b v) (hl.lt_tail hlive)
    have hnew :
        (if ((q.redemptionQueue i).drawn b v).user = c then ((q.redemptionQueue i).drawn b v).bilSettled else 0) =
        (q.redemptionQueue i).bilSettled - b := by
      by_cases hz : (q.redemptionQueue i).bilAmount = b
      · rw [Request.drawn, if_pos hz]
        show (if _ then 0 else 0) = _
        rw [ite_self]; omega
      · rw [Request.drawn, if_neg hz]
        exact if_pos huser
    rw [if_pos huser, hnew] at h3
    refine ⟨Nat.sub_le _ _, Nat.sub_le _ _, ?_, fun _ => ?_, ?_⟩
    · show _ + q.totalReservedHollar = _ + (q.totalReservedHollar - v)
      omega
    · show _ + q.totalSettledBil = _ + (q.totalSettledBil - b)
      omega
    · show settledOf (q.drawn c i b v) c + q.totalSettledBil = settledOf q c + (q.totalSettledBil - b)
      have : settledOf (q.drawn c i b v) c + (q.redemptionQueue i).bilSettled =
          settledOf q c + ((q.redemptionQueue i).bilSettled - b) := h3
      omega

/-- A claim takes what it draws from the claimable amounts. -/
theorem draws_claimable {u : ClaimUnit} {c : Address} {q q' : Redemptions} (hs : IndexSound q) (hl : QueueLedger q)
    (hd : ReflTransGen (Draw u c) q q') : Drawn u c q q' := by
  have key : IndexSound q' ∧ QueueLedger q' ∧ Drawn u c q q' := by
    induction hd with
    | refl => exact ⟨hs, hl, le_refl _, le_refl _, rfl, fun _ => rfl, rfl⟩
    | tail _ hstep ih =>
      obtain ⟨hs', hl', h⟩ := ih
      exact ⟨hs'.draw hl' hstep, hl'.draw hstep, h.trans (hstep.drawn hs' hl')⟩
  exact key.2.2

/-- What a claim burns and pays is part of the totals. -/
theorem claimWalk_within {u : ClaimUnit} {c : Address} {r : ClaimRun} {q : Redemptions} {amount : Nat}
    (hl : QueueLedger q)
    (h : claimWalk u q.toQueueStore c amount = .ok r) :
    r.shares ≤ q.totalSettledBil ∧ r.assets ≤ q.totalReservedHollar := by
  refine (claimWalk_invariant (q := q.toQueueStore)
    (I := fun r : ClaimRun => QueueLedger (r.onto q c) ∧ r.shares ≤ q.totalSettledBil ∧
      r.assets ≤ q.totalReservedHollar)
    ⟨by rw [ClaimRun.start_onto]; exact hl, Nat.zero_le _, Nat.zero_le _⟩ ?_ h).1.2
  rintro r r' - ⟨hled, hb, hv⟩ hs
  refine ⟨hled.draw (hs.draw_onto q), ?_⟩
  cases hs with
  | evict _ _ _ _ => exact ⟨hb, hv⟩
  | draw i take proRata b v _ _ _ _ _ _ _ hbs _ hvo =>
    -- the entry drawn on is still counted in what the totals have left
    have h1 : (r.redemptionQueue i).bilSettled ≤ q.totalSettledBil - r.shares := hled.settled_le i
    have h2 : (r.redemptionQueue i).hollarOwed ≤ q.totalReservedHollar - r.assets := hled.owed_le i
    constructor
    · show r.shares + b ≤ _
      omega
    · show r.assets + v ≤ _
      omega

/-! ## Claims that keep the index complete -/

/-- From the first entry on, each one that a claim of `remaining` HOLLAR meets is owed some. -/
def meetsOwed (queue : Nat → Request) : List Nat → Nat → Bool
  | [], _ => true
  | i :: ids, remaining =>
    remaining = 0 || ((queue i).hollarOwed ≠ 0 && meetsOwed queue ids (remaining - (queue i).hollarOwed))

theorem meetsOwed_zero (queue : Nat → Request) : ∀ ids, meetsOwed queue ids 0 = true
  | [] => rfl
  | _ :: _ => rfl

theorem meetsOwed_congr {queue queue' : Nat → Request} : ∀ {ids : List Nat} {remaining : Nat},
    (∀ i ∈ ids, queue' i = queue i) → meetsOwed queue' ids remaining = meetsOwed queue ids remaining
  | [], _, _ => rfl
  | i :: ids, remaining, h => by
    simp only [meetsOwed, h i (List.mem_cons_self ..), meetsOwed_congr fun j hj => h j (List.mem_cons_of_mem _ hj)]

/-- A walk from the back meets its last entry first. -/
theorem meetsOwed_last {queue : Nat → Request} {ids : List Nat} {i remaining : Nat} (hlast : ids.getLast? = some i)
    (hpos : 0 < remaining) (h : meetsOwed queue ids.reverse remaining = true) :
    (queue i).hollarOwed ≠ 0 ∧ meetsOwed queue ids.dropLast.reverse (remaining - (queue i).hollarOwed) = true := by
  rw [eq_dropLast_append hlast, List.reverse_append] at h
  simpa [meetsOwed, hpos.ne'] using h

/-- What a claim by assets still has to meet is owed HOLLAR. -/
def ClaimRun.Meets (u : ClaimUnit) (r : ClaimRun) : Prop :=
  u = .assets → meetsOwed r.redemptionQueue r.ids.reverse r.remaining = true

/-- A pass of such a walk evicts no settled request. -/
theorem ClaimStep.complete {u : ClaimUnit} {c : Address} {r r' : ClaimRun} {q : Redemptions}
    (hstep : ClaimStep u c r r')
    (hs : IndexSound (r.onto q c)) (hl : QueueLedger (r.onto q c)) (hc : IndexComplete (r.onto q c)) (hm : r.Meets u) :
    IndexComplete (r'.onto q c) ∧ r'.Meets u := by
  have hidx : (r.onto q c).settledByController c = r.ids := Function.update_self ..
  have hrem : 0 < r.remaining := by cases hstep <;> assumption
  have hmet : ∀ i, r.ids.getLast? = some i → u.counted (r.redemptionQueue i) ≠ 0 := by
    intro i hlast
    cases u with
    | shares => exact (hs.sound c i (by rw [hidx]; exact List.mem_of_getLast? hlast)).2.ne'
    | assets => exact (meetsOwed_last hlast hrem (hm rfl)).1
  refine ⟨hc.draw hs hl (hstep.draw_onto q) (by rw [hidx]; exact hmet), fun hu => ?_⟩
  subst hu
  cases hstep with
  | evict i _ hlast hstale =>
    refine absurd hstale (not_or.2 ⟨fun hu => hu ?_, hmet i hlast⟩)
    exact (hs.sound c i (by rw [hidx]; exact List.mem_of_getLast? hlast)).1
  | draw i take proRata b v _ hlast _ htake hpro hb hv _ _ _ =>
    by_cases hgo : 0 < r.remaining - take
    · -- the walk goes on, so the entry is drained and out of the index
      obtain ⟨hfull, hbfull, -⟩ := ClaimUnit.drains (hmet i hlast) htake hpro hb hv hgo
      have hrest := (meetsOwed_last hlast hrem (hm rfl)).2
      have hn : r.ids.Nodup := by rw [← hidx]; exact hs.nodup c
      show meetsOwed _ (if _ then r.ids.dropLast else r.ids).reverse (r.remaining - take) = true
      rw [if_pos (.inr hbfull.symm), hfull, ← hrest]
      refine meetsOwed_congr fun j hj => Function.update_of_ne ?_ _ _
      exact ((mem_dropLast_iff hn hlast).1 (List.mem_reverse.1 hj)).2
    · show meetsOwed _ _ (r.remaining - take) = true
      rw [Nat.eq_zero_of_not_pos hgo]
      exact meetsOwed_zero _ _

/-- A claim that meets no entry without HOLLAR keeps the index complete. -/
theorem claimWalk_complete {u : ClaimUnit} {c : Address} {r : ClaimRun} {q : Redemptions} {amount : Nat}
    (hs : IndexSound q)
    (hl : QueueLedger q) (hc : IndexComplete q)
    (hm : u = .assets → meetsOwed q.redemptionQueue (q.settledByController c).reverse amount = true)
    (h : claimWalk u q.toQueueStore c amount = .ok r) : IndexComplete (r.onto q c) := by
  refine (claimWalk_invariant (q := q.toQueueStore)
    (I := fun r : ClaimRun => (IndexSound (r.onto q c) ∧ QueueLedger (r.onto q c)) ∧ IndexComplete (r.onto q c) ∧
      r.Meets u)
    ⟨by rw [ClaimRun.start_onto]; exact ⟨hs, hl⟩, by rw [ClaimRun.start_onto]; exact hc, hm⟩ ?_ h).1.2.1
  rintro r r' - ⟨⟨hs, hl⟩, hc, hm⟩ hstep
  have hdraw := hstep.draw_onto q
  exact ⟨⟨hs.draw hl hdraw, hl.draw hdraw⟩, hstep.complete hs hl hc hm⟩

/-! ## When a walk succeeds -/

section Walk

variable {u : ClaimUnit} {c : Address} {r r' : ClaimRun}

theorem ClaimUnit.counted_mul_paired (request : Request) :
    u.counted request * u.paired request = request.bilSettled * request.hollarOwed := by
  cases u with
  | shares => rfl
  | assets => exact Nat.mul_comm _ _

theorem ClaimUnit.sharesTake_le {request : Request} {take : Nat} (hle : take ≤ u.counted request) :
    u.sharesTake take (take * u.paired request / u.counted request) ≤ request.bilSettled := by
  cases u with
  | shares => exact hle
  | assets => exact Nat.div_le_of_le_mul (Nat.mul_le_mul_right _ hle)

theorem ClaimUnit.hollarTake_le {request : Request} {take : Nat} (hle : take ≤ u.counted request) :
    u.hollarTake take (take * u.paired request / u.counted request) ≤ request.hollarOwed := by
  cases u with
  | shares => exact Nat.div_le_of_le_mul (Nat.mul_le_mul_right _ hle)
  | assets => exact hle

/-- Drawing no more than is there succeeds. -/
theorem ClaimRun.draw_succeeds {i b v : Nat} (hlen : 0 < r.ids.length) (hb : b ≤ (r.redemptionQueue i).bilSettled)
    (hle : (r.redemptionQueue i).bilSettled ≤ (r.redemptionQueue i).bilAmount)
    (hv : v ≤ (r.redemptionQueue i).hollarOwed) :
    ∃ p, r.draw (r.ids.length - 1) i b v = .ok p := by
  unfold ClaimRun.draw
  rw [exists_bind_ok]
  refine ⟨_, checkedSub_ok_iff.2 ⟨hb, rfl⟩, ?_⟩
  rw [exists_bind_ok]
  refine ⟨_, checkedSub_ok_iff.2 ⟨hv, rfl⟩, ?_⟩
  rw [exists_bind_ok]
  refine ⟨_, checkedSub_ok_iff.2 ⟨le_trans hb hle, rfl⟩, ?_⟩
  rw [swapPop_last hlen]
  split_ifs <;> exact ⟨_, rfl⟩

/-- A pass at the end of the index succeeds when nothing it adds or multiplies overflows. -/
theorem claimPass_succeeds (hend : r.AtEnd) (hfit : ∀ i, r.ids.getLast? = some i →
      (r.redemptionQueue i).bilSettled ≤ (r.redemptionQueue i).bilAmount ∧
      (r.redemptionQueue i).bilSettled * (r.redemptionQueue i).hollarOwed < uintSize ∧
      r.shares + (r.redemptionQueue i).bilSettled < uintSize ∧ r.assets + (r.redemptionQueue i).hollarOwed < uintSize) :
    ∃ p, claimPass u c r = .ok p := by
  unfold claimPass
  dsimp only
  split
  · rename_i hguard
    -- while something remains, the entry read is the last of the index
    have hlen := hend hguard.2
    have hpos : 0 < r.ids.length := by omega
    rw [← hlen]
    obtain ⟨i, hi⟩ : ∃ i, r.ids[r.ids.length - 1]? = some i := ⟨_, List.getElem?_eq_getElem (by omega)⟩
    obtain ⟨hle, hmul, hshares, hassets⟩ := hfit i (by rw [List.getLast?_eq_getElem?]; exact hi)
    rw [exists_bind_ok]
    refine ⟨i, readAt_ok_iff.2 hi, ?_⟩
    split
    · rw [swapPop_last hpos]
      exact ⟨_, rfl⟩
    · rename_i hstale
      have hcounted : u.counted (r.redemptionQueue i) ≠ 0 := fun h => hstale (.inr h)
      have htake := ClaimUnit.take_le_counted (u := u) (r.redemptionQueue i) r.remaining
      have hb := ClaimUnit.sharesTake_le htake
      have hv := ClaimUnit.hollarTake_le htake
      rw [exists_bind_ok]
      refine ⟨_, checkedMul_ok_iff.2 ⟨lt_of_le_of_lt (Nat.mul_le_mul_right _ htake) ?_, rfl⟩, ?_⟩
      · rw [ClaimUnit.counted_mul_paired]; exact hmul
      rw [exists_bind_ok]
      refine ⟨_, checkedDiv_ok_iff.2 ⟨hcounted, rfl⟩, ?_⟩
      rw [exists_bind_ok]
      obtain ⟨⟨queue, ids⟩, hdraw⟩ := ClaimRun.draw_succeeds hpos hb hle hv
      refine ⟨_, hdraw, ?_⟩
      rw [exists_bind_ok]
      refine ⟨_, checkedSub_ok_iff.2 ⟨ClaimUnit.take_le_remaining _ _, rfl⟩, ?_⟩
      rw [exists_bind_ok]
      obtain ⟨shares, htally⟩ : ∃ shares, ClaimUnit.tally r.shares
        (u.sharesTake (u.take (r.redemptionQueue i) r.remaining)
          (u.take (r.redemptionQueue i) r.remaining * u.paired (r.redemptionQueue i) / u.counted
            (r.redemptionQueue i))) u =
            .ok shares := by
        cases u with
        | shares => exact ⟨_, rfl⟩
        | assets => exact ⟨_, checkedAdd_ok_iff.2 ⟨by omega, rfl⟩⟩
      refine ⟨shares, htally, ?_⟩
      rw [exists_bind_ok]
      exact ⟨_, checkedAdd_ok_iff.2 ⟨by omega, rfl⟩, _, rfl⟩
  · exact ⟨_, rfl⟩

/-- A walk that has drawn all the entries behind it and left the ones before it alone. -/
structure Walking (u : ClaimUnit) (q : QueueStore) (c : Address) (amount : Nat) (r : ClaimRun) : Prop where
  atEnd : r.AtEnd
  le : r.j ≤ (q.settledByController c).length
  covered : amount ≤ r.remaining + (((q.settledByController c).drop r.j).map fun i =>
    u.counted (q.redemptionQueue i)).sum
  going : 0 < r.remaining →
    r.ids = (q.settledByController c).take r.j ∧ (∀ i ∈ r.ids, r.redemptionQueue i = q.redemptionQueue i) ∧
    amount = r.remaining + (((q.settledByController c).drop r.j).map fun i => u.counted (q.redemptionQueue i)).sum ∧
    r.shares ≤ (((q.settledByController c).drop r.j).map fun i => (q.redemptionQueue i).bilSettled).sum ∧
    r.assets ≤ (((q.settledByController c).drop r.j).map fun i => (q.redemptionQueue i).hollarOwed).sum

theorem Walking.start (u : ClaimUnit) (q : QueueStore) (c : Address) (amount : Nat) :
    Walking u q c amount (.start q c amount) := by
  refine ⟨fun _ => rfl, le_refl _, ?_, fun _ => ⟨?_, fun _ _ => rfl, ?_, Nat.zero_le _, Nat.zero_le _⟩⟩
  · show amount ≤ amount + (((q.settledByController c).drop (q.settledByController c).length).map _).sum
    rw [List.drop_length]; exact le_refl _
  · exact List.take_length.symm
  · show amount = amount + (((q.settledByController c).drop (q.settledByController c).length).map _).sum
    rw [List.drop_length]; rfl

/-- The last of the first `j` entries starts what is left from there on. -/
theorem drop_pred_of_last {l : List Nat} {j i : Nat} (hj : j ≤ l.length) (h : (l.take j).getLast? = some i) :
    0 < j ∧ l.drop (j - 1) = i :: l.drop j := by
  have hlen : (l.take j).length = j := by rw [List.length_take]; omega
  have hpos : 0 < j := by
    rcases Nat.eq_zero_or_pos j with rfl | hpos
    · simp at h
    · exact hpos
  rw [List.getLast?_eq_getElem?, hlen, List.getElem?_take, if_pos (by omega)] at h
  obtain ⟨hlt, hget⟩ := List.getElem?_eq_some_iff.1 h
  refine ⟨hpos, ?_⟩
  rw [List.drop_eq_getElem_cons hlt, hget, Nat.sub_add_cancel hpos]

theorem dropLast_take_pred {l : List Nat} {j : Nat} (hj : j ≤ l.length) : (l.take j).dropLast = l.take (j - 1) := by
  rw [List.dropLast_eq_take, List.length_take, Nat.min_eq_left hj, List.take_take, Nat.min_eq_left (Nat.sub_le _ _)]

/-- The last entry a walk has left is at its counter, with what is drawn already behind it. -/
theorem Walking.at_last {q : QueueStore} {amount i : Nat} (h : Walking u q c amount r) (hrem : 0 < r.remaining)
    (hlast : r.ids.getLast? = some i) :
    0 < r.j ∧ (q.settledByController c)[r.j - 1]? = some i ∧
      (q.settledByController c).drop (r.j - 1) = i :: (q.settledByController c).drop r.j ∧
      ((q.settledByController c).take r.j).reverse = i :: ((q.settledByController c).take (r.j - 1)).reverse ∧
      r.redemptionQueue i = q.redemptionQueue i := by
  obtain ⟨hids, hagree, -⟩ := h.going hrem
  have hi := hagree i (List.mem_of_getLast? hlast)
  rw [hids] at hlast
  obtain ⟨hpos, hdrop⟩ := drop_pred_of_last h.le hlast
  refine ⟨hpos, ?_, hdrop, ?_, hi⟩
  · have hhead := congrArg (fun l => l[0]?) hdrop
    rwa [List.getElem?_drop, Nat.add_zero] at hhead
  · conv_lhs => rw [eq_dropLast_append hlast, dropLast_take_pred h.le]
    rw [List.reverse_append, List.reverse_singleton, List.singleton_append]

/-- An entry that is evicted has nothing to draw: the index lists requests of its controller only. -/
theorem Walking.nothing_stale {q : Redemptions} {amount i : Nat} (hs : IndexSound q)
    (h : Walking u q.toQueueStore c amount r) (hrem : 0 < r.remaining) (hlast : r.ids.getLast? = some i)
    (hstale : u.Stale c (r.redemptionQueue i)) : u.counted (q.redemptionQueue i) = 0 := by
  obtain ⟨-, hget, -, -, hi⟩ := h.at_last hrem hlast
  rw [hi] at hstale
  exact hstale.resolve_left fun hu => hu (hs.sound c i (List.mem_of_getElem? hget)).1

theorem Walking.step {q : Redemptions} {amount : Nat} (hs : IndexSound q) (h : Walking u q.toQueueStore c amount r)
    (hstep : ClaimStep u c r r') : Walking u q.toQueueStore c amount r' := by
  have hn := hs.nodup c
  cases hstep with
  | evict i hrem hlast hstale =>
    obtain ⟨hids, hagree, hsum, hshares, hassets⟩ := h.going hrem
    obtain ⟨-, -, hdrop, -, -⟩ := h.at_last hrem hlast
    have hzero := h.nothing_stale hs hrem hlast hstale
    refine ⟨fun hr => ?_, le_trans (Nat.sub_le _ _) h.le, ?_, fun _ => ⟨?_, fun k hk => ?_, ?_, ?_, ?_⟩⟩
    · show r.ids.dropLast.length = r.j - 1
      rw [List.length_dropLast, h.atEnd hr]
    · show amount ≤ r.remaining + _
      rw [hdrop, List.map_cons, List.sum_cons, hzero, Nat.zero_add]; exact h.covered
    · show r.ids.dropLast = _
      rw [hids, dropLast_take_pred h.le]
    · exact hagree k (List.mem_of_mem_dropLast hk)
    · show amount = r.remaining + _
      rw [hdrop, List.map_cons, List.sum_cons, hzero, Nat.zero_add]; exact hsum
    · rw [hdrop, List.map_cons, List.sum_cons]; exact le_trans hshares (Nat.le_add_left _ _)
    · rw [hdrop, List.map_cons, List.sum_cons]; exact le_trans hassets (Nat.le_add_left _ _)
  | draw i take proRata b v hrem hlast hstale htake hpro hb hv hbs hba hvo =>
    obtain ⟨hids, hagree, hsum, hshares, hassets⟩ := h.going hrem
    obtain ⟨-, -, hdrop, -, hi⟩ := h.at_last hrem hlast
    have hcounted : u.counted (r.redemptionQueue i) ≠ 0 := fun h0 => hstale (.inr h0)
    have hle : take ≤ u.counted (r.redemptionQueue i) := by rw [htake]; exact ClaimUnit.take_le_counted ..
    have hrle : take ≤ r.remaining := by rw [htake]; exact ClaimUnit.take_le_remaining ..
    have hend := (ClaimStep.draw (c := c) i take proRata b v hrem hlast hstale htake hpro hb hv hbs hba
      hvo).counts h.atEnd rfl
    refine ⟨hend.1, le_trans (Nat.sub_le _ _) h.le, ?_, fun hgo => ?_⟩
    · show amount ≤ r.remaining - take + _
      rw [hdrop, List.map_cons, List.sum_cons, ← hi]
      omega
    · -- the walk goes on, so it has drawn all of this entry
      have hgo : 0 < r.remaining - take := hgo
      obtain ⟨hfull, hbfull, hvfull⟩ := ClaimUnit.drains hcounted htake hpro hb hv hgo
      have hids' : (if (r.redemptionQueue i).bilAmount = b ∨ (r.redemptionQueue i).bilSettled = b then r.ids.dropLast
          else r.ids) = r.ids.dropLast := if_pos (.inr hbfull.symm)
      refine ⟨?_, fun k hk => ?_, ?_, ?_, ?_⟩
      · show (if _ then _ else _) = _
        rw [hids', hids, dropLast_take_pred h.le]
      · have hk : k ∈ r.ids.dropLast := by rw [← hids']; exact hk
        have hne : k ≠ i := by
          refine ((mem_dropLast_iff ?_ hlast).1 hk).2
          rw [hids]; exact hn.sublist (List.take_sublist _ _)
        show Function.update r.redemptionQueue i _ k = _
        rw [Function.update_of_ne hne]
        exact hagree k (List.mem_of_mem_dropLast hk)
      · show amount = r.remaining - take + _
        rw [hdrop, List.map_cons, List.sum_cons, ← hi]; omega
      · show r.shares + b ≤ _
        rw [hdrop, List.map_cons, List.sum_cons, ← hi]; omega
      · show r.assets + v ≤ _
        rw [hdrop, List.map_cons, List.sum_cons, ← hi]; omega

/-- A sum over the entries from `j` on with one before them is within the sum of all. -/
theorem add_sum_drop_le {l : List Nat} {j i : Nat} (f : Nat → Nat) (hj : j ≤ l.length)
    (h : (l.take j).getLast? = some i) :
    ((l.drop j).map f).sum + f i ≤ (l.map f).sum := by
  obtain ⟨-, hdrop⟩ := drop_pred_of_last hj h
  conv_rhs => rw [← List.take_append_drop (j - 1) l, hdrop]
  simp only [List.map_append, List.map_cons, List.sum_append, List.sum_cons]
  omega

/-- Nothing a pass adds or multiplies overflows while the totals fit. -/
theorem Walking.pass_succeeds {q : Redemptions} {amount : Nat} (hs : IndexSound q) (hl : QueueLedger q)
    (hsettled : q.totalSettledBil < uintSize) (hreserved : q.totalReservedHollar < uintSize)
    (hproduct : ∀ i ∈ q.settledByController c,
      (q.redemptionQueue i).bilSettled * (q.redemptionQueue i).hollarOwed < uintSize)
    (h : Walking u q.toQueueStore c amount r) : ∃ p, claimPass u c r = .ok p := by
  by_cases hrem : 0 < r.remaining
  · obtain ⟨hids, hagree, -, hshares, hassets⟩ := h.going hrem
    refine claimPass_succeeds h.atEnd fun i hlast => ?_
    have hmem := List.mem_of_getLast? hlast
    rw [hagree i hmem]
    rw [hids] at hlast hmem
    have hidx := List.mem_of_mem_take hmem
    -- what is drawn and what the entry adds are within the totals
    have h1 := add_sum_drop_le (fun i => (q.redemptionQueue i).bilSettled) h.le hlast
    have h2 := add_sum_drop_le (fun i => (q.redemptionQueue i).hollarOwed) h.le hlast
    have h3 : ((q.settledByController c).map fun i => (q.redemptionQueue i).bilSettled).sum ≤ q.totalSettledBil :=
      claimable_settled_le hs hl c
    have h4 : ((q.settledByController c).map fun i => (q.redemptionQueue i).hollarOwed).sum ≤ q.totalReservedHollar :=
      claimable_owed_le hs hl c
    exact ⟨hl.settled_le_amount i, hproduct i hidx, by omega, by omega⟩
  · unfold claimPass
    rw [if_neg fun hg => hrem hg.2]
    exact ⟨_, rfl⟩

/-- A walk with nothing left has found the amount behind every place it has not come to. -/
theorem Walking.found {q : QueueStore} {amount k : Nat} (h : Walking u q c amount r) (hzero : r.remaining = 0)
    (hk : k ≤ r.j) :
    amount ≤ (((q.settledByController c).drop k).map fun i => u.counted (q.redemptionQueue i)).sum := by
  have hcovered := h.covered
  rw [hzero, Nat.zero_add] at hcovered
  have hsub := List.drop_sublist_drop_left (q.settledByController c) hk
  exact le_trans hcovered ((hsub.map _).sum_le_sum fun _ _ => Nat.zero_le _)

/-- A pass goes one entry down. -/
theorem ClaimStep.j_pred (h : ClaimStep u c r r') : r'.j = r.j - 1 := by
  cases h <;> rfl

theorem ClaimStep.j_lt (hend : r.AtEnd) (h : ClaimStep u c r r') : r'.j < r.j := by
  have hpos : 0 < r.j := by
    cases h with
    | evict i hrem hlast _ =>
      rw [← hend hrem]
      exact List.length_pos_of_mem (List.mem_of_getLast? hlast)
    | draw i _ _ _ _ hrem hlast _ _ _ _ _ _ _ _ =>
      rw [← hend hrem]
      exact List.length_pos_of_mem (List.mem_of_getLast? hlast)
  rw [h.j_pred]
  omega

/-- A walk over a sound index succeeds when the index holds what it is asked for, and otherwise
reverts for just that reason. -/
theorem claimWalk_spec {q : Redemptions} {amount : Nat} (hs : IndexSound q) (hl : QueueLedger q)
    (hsettled : q.totalSettledBil < uintSize) (hreserved : q.totalReservedHollar < uintSize)
    (hproduct : ∀ i ∈ q.settledByController c,
      (q.redemptionQueue i).bilSettled * (q.redemptionQueue i).hollarOwed < uintSize) :
    (amount ≤ claimable u.counted q.toQueueStore c → ∃ r, claimWalk u q.toQueueStore c amount = .ok r) ∧
    (claimable u.counted q.toQueueStore c < amount →
      claimWalk u q.toQueueStore c amount = .error (.custom .insufficientClaimable)) := by
  have hinit := Walking.start u q.toQueueStore c amount
  have hagain : ∀ r r', Walking u q.toQueueStore c amount r → claimPass u c r = .ok (.again r') →
      Walking u q.toQueueStore c amount r' := fun r r' hw hp => hw.step hs (claimPass_again hw.atEnd hp)
  obtain ⟨r, hr⟩ : ∃ r, loop (claimPass u c) ((q.settledByController c).length + 1)
      (.start q.toQueueStore c amount) = .ok r :=
    loop_total (fun r hw => Walking.pass_succeeds hs hl hsettled hreserved hproduct hw) hagain _ _ hinit
  obtain ⟨hwalked, hend⟩ : Walking u q.toQueueStore c amount r ∧ (r.j = 0 ∨ r.remaining = 0) := by
    obtain ⟨t, ht, hstop⟩ := loop_exits (I := Walking u q.toQueueStore c amount) ClaimRun.j
      (fun r r' hw hp => ⟨hagain r r' hw hp, (claimPass_again hw.atEnd hp).j_lt hw.atEnd⟩)
      hinit (Nat.lt_succ_self _) hr
    obtain ⟨rfl, hguard⟩ := claimPass_stop hstop
    exact ⟨ht, by omega⟩
  constructor
  · intro hle
    -- a walk with something left has been through the whole index
    have h0 : r.remaining = 0 := by
      by_contra hne
      have hsum := (hwalked.going (Nat.pos_of_ne_zero hne)).2.2.1
      rw [hend.resolve_right hne, List.drop_zero] at hsum
      unfold claimable at hle
      omega
    refine ⟨r, ?_⟩
    simp only [claimWalk, bind_ok_iff, require_ok_iff, pure_ok_iff]
    exact ⟨r, hr, (), h0, rfl⟩
  · intro hlt
    have hne : r.remaining ≠ 0 := fun hzero =>
      absurd hlt (not_lt.2 (hwalked.found hzero (Nat.zero_le _)))
    rw [claimWalk_eq, hr]
    exact require_bind_error hne

end Walk

end MoneyMarket
