/-
Settlement request by request. One run of the settlement locks each request at most once, and what
it adds to the HOLLAR owed is the value of the shares it adds to the settled ones, rounded down
(`processQueue_locks`). A claim draws from the requests of its controller and takes from nothing
else (`draws_untouched`).
-/
import MoneyMarket.Queue.Claims

namespace MoneyMarket

open Evm Relation

/-! ## Settlement -/

/-- Each request keeps its shares, and has some of them locked at `rate`. -/
structure Locks (rate : Nat) (q q' : Redemptions) : Prop where
  user : ∀ i, (q'.redemptionQueue i).user = (q.redemptionQueue i).user
  amount : ∀ i, (q'.redemptionQueue i).bilAmount = (q.redemptionQueue i).bilAmount
  settled : ∀ i, (q.redemptionQueue i).bilSettled ≤ (q'.redemptionQueue i).bilSettled
  owed : ∀ i, (q'.redemptionQueue i).hollarOwed = (q.redemptionQueue i).hollarOwed +
    ((q'.redemptionQueue i).bilSettled - (q.redemptionQueue i).bilSettled) * rate / wad
  tail : q'.queueTail = q.queueTail

section Settle

variable {rate maxIterations maxSkips : Nat} {q q' : Redemptions} {r r' : SettleRun}

theorem Locks.refl (rate : Nat) (q : Redemptions) : Locks rate q q :=
  ⟨fun _ => rfl, fun _ => rfl, fun _ => le_refl _, fun i => by simp, rfl⟩

theorem Locks.congr {q'' : Redemptions} (h : Locks rate q q') (hqueue : q''.redemptionQueue = q'.redemptionQueue)
    (htail : q''.queueTail = q'.queueTail) : Locks rate q q'' := by
  refine ⟨fun i => ?_, fun i => ?_, fun i => ?_, fun i => ?_, htail.trans h.tail⟩
  · rw [hqueue]; exact h.user i
  · rw [hqueue]; exact h.amount i
  · rw [hqueue]; exact h.settled i
  · rw [hqueue]; exact h.owed i

/-- The entries a settlement has yet to come to are as it found them; the one at the cursor too,
while there is HOLLAR left to lock into it. -/
structure SettleRun.Fresh (r : SettleRun) (q : Redemptions) : Prop where
  ahead : ∀ i, r.cursor < i → r.redemptionQueue i = q.redemptionQueue i
  atCursor : 0 < r.available → r.redemptionQueue r.cursor = q.redemptionQueue r.cursor

/-- Locking the fresh entry at the cursor. -/
theorem Locks.lock (h : Locks rate q (r.onto q)) (hfresh : r.redemptionQueue r.cursor = q.redemptionQueue r.cursor)
    (b : Nat) (hqueue : q'.redemptionQueue = Function.update r.redemptionQueue r.cursor
      { r.redemptionQueue r.cursor with
        bilSettled := (r.redemptionQueue r.cursor).bilSettled + b
        hollarOwed := (r.redemptionQueue r.cursor).hollarOwed + b * rate / wad })
    (htail : q'.queueTail = q.queueTail) : Locks rate q q' := by
  have hrest : ∀ i, i ≠ r.cursor → q'.redemptionQueue i = (r.onto q).redemptionQueue i := fun i hi => by
    rw [hqueue, Function.update_of_ne hi]
    rfl
  refine ⟨fun i => ?_, fun i => ?_, fun i => ?_, fun i => ?_, htail⟩
  · by_cases hi : i = r.cursor
    · subst hi
      rw [hqueue, Function.update_self, ← hfresh]
    · rw [hrest i hi]; exact h.user i
  · by_cases hi : i = r.cursor
    · subst hi
      rw [hqueue, Function.update_self, ← hfresh]
    · rw [hrest i hi]; exact h.amount i
  · by_cases hi : i = r.cursor
    · subst hi
      rw [hqueue, Function.update_self, ← hfresh]
      exact Nat.le_add_right _ _
    · rw [hrest i hi]; exact h.settled i
  · by_cases hi : i = r.cursor
    · subst hi
      rw [hqueue, Function.update_self, ← hfresh]
      show _ = (r.redemptionQueue r.cursor).hollarOwed +
        ((r.redemptionQueue r.cursor).bilSettled + b - (r.redemptionQueue r.cursor).bilSettled) * rate / wad
      rw [Nat.add_sub_cancel_left]
    · rw [hrest i hi]; exact h.owed i

/-- One pass locks a fresh entry or none, and leaves those ahead of it fresh. -/
theorem SettleStep.locks (hs : SettleStep q.queueTail rate maxIterations maxSkips r r')
    (h : Locks rate q (r.onto q)) (hf : r.Fresh q) : Locks rate q (r'.onto q) ∧ r'.Fresh q := by
  have hahead := hf.ahead
  cases hs with
  | skip _ _ _ _ =>
    refine ⟨h.congr rfl rfl, fun i hi => hahead i ?_, fun _ => hahead _ (Nat.lt_succ_self _)⟩
    exact lt_trans (Nat.lt_succ_self _) hi
  | full pending hollarValue _ _ _ _ hpos hsum hval hvpos hfits =>
    have hfresh := hf.atCursor (lt_of_lt_of_le hvpos hfits)
    refine ⟨h.lock hfresh pending ?_ rfl, fun i hi => ?_, fun _ => ?_⟩
    · subst hval
      rfl
    · have hi : r.cursor < i := lt_trans (Nat.lt_succ_self _) hi
      exact (Function.update_of_ne hi.ne' _ _).trans (hahead i hi)
    · exact (Function.update_of_ne (Nat.succ_ne_self _) _ _).trans (hahead _ (Nat.lt_succ_self _))
  | part pending b _ _ _ _ _ _ hb hbpos =>
    -- a part is bought, so there was HOLLAR left, and now there is none
    have hleft : 0 < r.available := by
      rcases Nat.eq_zero_or_pos r.available with h0 | hpos
      · rw [h0, Nat.zero_mul, Nat.zero_div] at hb
        omega
      · exact hpos
    refine ⟨h.lock (hf.atCursor hleft) b rfl rfl, fun i hi => ?_, fun h0 => absurd h0 (lt_irrefl 0)⟩
    exact (Function.update_of_ne (show i ≠ r.cursor from (show r.cursor < i from hi).ne') _ _).trans (hahead i hi)

/-- A run of the settlement locks each request at most once. -/
theorem processQueue_locks {available : Nat}
    (h : processQueue q.toQueueStore q.queueHead q.queueTail available rate maxIterations maxSkips wad = .ok r) :
    Locks rate q (r.onto q) := by
  have key := loop_invariant
    (I := fun r : SettleRun => Locks rate q (r.onto q) ∧ r.Fresh q)
    (fun r r' hi hp => by
      rcases settlePass_stop hp with rfl | rfl
      · exact hi
      · exact ⟨hi.1.congr rfl rfl, hi.2.ahead, hi.2.atCursor⟩)
    (fun r r' ⟨hl, hf⟩ hp => (settlePass_again hp).locks hl hf)
    ⟨(Locks.refl rate q).congr rfl rfl, fun _ _ => rfl, fun _ => rfl⟩ h
  exact key.1

end Settle

/-! ## Claims -/

/-- What draws from the requests of `c` leave: what is pending, and everything of the others. -/
structure Untouched (c : Address) (q q' : Redemptions) : Prop where
  pending : ∀ i, (q'.redemptionQueue i).bilAmount - (q'.redemptionQueue i).bilSettled =
    (q.redemptionQueue i).bilAmount - (q.redemptionQueue i).bilSettled
  others : ∀ i, (q.redemptionQueue i).user ≠ c → q'.redemptionQueue i = q.redemptionQueue i
  own : ∀ i, (q.redemptionQueue i).user = c →
    (q'.redemptionQueue i).user = c ∨ q'.redemptionQueue i = Request.empty
  amount_le : ∀ i, (q'.redemptionQueue i).bilAmount ≤ (q.redemptionQueue i).bilAmount
  settled_le : ∀ i, (q'.redemptionQueue i).bilSettled ≤ (q.redemptionQueue i).bilSettled
  owed_le : ∀ i, (q'.redemptionQueue i).hollarOwed ≤ (q.redemptionQueue i).hollarOwed
  index : ∀ c', c' ≠ c → q'.settledByController c' = q.settledByController c'
  head : q'.queueHead = q.queueHead
  tail : q'.queueTail = q.queueTail

section Claim

variable {u : ClaimUnit} {c : Address} {q q' q'' : Redemptions}

theorem Untouched.refl (q : Redemptions) : Untouched c q q :=
  ⟨fun _ => rfl, fun _ _ => rfl, fun _ h => .inl h, fun _ => le_refl _, fun _ => le_refl _, fun _ => le_refl _,
    fun _ _ => rfl, rfl, rfl⟩

theorem Untouched.trans (h : Untouched c q q') (h' : Untouched c q' q'') (hl : QueueLedger q'') :
    Untouched c q q'' := by
  refine ⟨fun i => (h'.pending i).trans (h.pending i), fun i hi => ?_, fun i hi => ?_,
    fun i => le_trans (h'.amount_le i) (h.amount_le i), fun i => le_trans (h'.settled_le i) (h.settled_le i),
    fun i => le_trans (h'.owed_le i) (h.owed_le i),
    fun c' hc => (h'.index c' hc).trans (h.index c' hc), h'.head.trans h.head, h'.tail.trans h.tail⟩
  · have hq := h.others i hi
    rw [h'.others i (by rw [hq]; exact hi), hq]
  · rcases h.own i hi with hu | hempty
    · exact h'.own i hu
    · by_cases hc : c = 0
      · -- an empty slot counts as one of the zero address, and stays empty
        right
        rcases h'.own i (by rw [hempty, hc]; rfl) with hu | hempty'
        · exact hl.blank i (.inl (hu.trans hc))
        · exact hempty'
      · right
        rw [h'.others i (by rw [hempty]; exact fun h0 => hc h0.symm), hempty]

theorem Draw.untouched (hl : QueueLedger q) (hd : Draw u c q q') : Untouched c q q' := by
  cases hd with
  | evict i hlast hstale =>
    refine ⟨fun _ => rfl, fun _ _ => rfl, fun _ h => .inl h, fun _ => le_refl _, fun _ => le_refl _,
      fun _ => le_refl _, fun c' hc => ?_, rfl, rfl⟩
    exact Function.update_of_ne hc _ _
  | draw i b v hlast huser hbs hba hvo hall =>
    have hle := hl.settled_le_amount i
    have hless : ∀ f : Request → Nat, f ((q.redemptionQueue i).drawn b v) ≤ f (q.redemptionQueue i) →
        ∀ j, f ((q.drawn c i b v).redemptionQueue j) ≤ f (q.redemptionQueue j) := by
      intro f hf j
      by_cases hji : j = i
      · subst hji
        simp only [Redemptions.drawn, Function.update_self]
        exact hf
      · simp only [Redemptions.drawn, Function.update_of_ne hji]
        exact le_refl _
    obtain ⟨hamount, hsettled, howed⟩ := Request.drawn_le (q.redemptionQueue i) b v
    refine ⟨fun j => ?_, fun j hj => ?_, fun j hj => ?_, hless _ hamount, hless _ hsettled, hless _ howed,
      fun c' hc => ?_, rfl, rfl⟩
    · by_cases hji : j = i
      · subst hji
        simp only [Redemptions.drawn, Function.update_self]
        exact Request.drawn_unsettled hle hbs v
      · simp only [Redemptions.drawn, Function.update_of_ne hji]
    · have hji : j ≠ i := by
        rintro rfl
        exact hj huser
      simp only [Redemptions.drawn, Function.update_of_ne hji]
    · by_cases hji : j = i
      · subst hji
        simp only [Redemptions.drawn, Function.update_self]
        exact (Request.drawn_user _ b v).imp_left fun hu => hu.trans huser
      · simp only [Redemptions.drawn, Function.update_of_ne hji]
        exact .inl hj
    · simp only [Redemptions.drawn]
      split_ifs
      · exact Function.update_of_ne hc _ _
      · rfl

theorem draws_untouched (hl : QueueLedger q) (hd : ReflTransGen (Draw u c) q q') :
    QueueLedger q' ∧ Untouched c q q' := by
  induction hd with
  | refl => exact ⟨hl, .refl q⟩
  | tail _ hstep ih =>
    obtain ⟨hl', hu⟩ := ih
    exact ⟨hl'.draw hstep, hu.trans (hstep.untouched hl') (hl'.draw hstep)⟩

/-- The claimable amounts of the others are where they were. -/
theorem Untouched.claimable_eq (h : Untouched c q q') (hs : IndexSound q) (f : Request → Nat) {c' : Address}
    (hc : c' ≠ c) : claimable f q'.toQueueStore c' = claimable f q.toQueueStore c' := by
  unfold claimable
  rw [h.index c' hc]
  congr 1
  apply List.map_congr_left
  intro i hi
  rw [h.others i (by rw [(hs.sound c' i hi).1]; exact hc)]

end Claim

end MoneyMarket
