/-
One settlement of the queue, exactly. It goes through the entries from the head on: what is done it
passes, what is pending it settles in full while the HOLLAR lasts, the last one perhaps in part, and
it stops at a pending entry with HOLLAR left for one of five reasons (`batch_law`).
-/
import MoneyMarket.Queue.Idle

namespace MoneyMarket

open Evm Relation

instance (request : Request) : Decidable request.Done := inferInstanceAs (Decidable (_ ∨ _))

/-- The shares of a request that are not settled. -/
def Request.pending (request : Request) : Nat := request.bilAmount - request.bilSettled

/-- A request settled in full at `rate`; what is done stays as it is. -/
def Request.settledAt (rate : Nat) (request : Request) : Request :=
  if request.Done then request
  else { request with bilSettled := request.bilAmount, hollarOwed := request.hollarOwed + request.cost rate }

/-! ## What HOLLAR buys -/

section Buys

variable {rate left : Nat} {request : Request}

theorem buys_mul_le (rate left : Nat) : buys rate left * rate ≤ left * wad := Nat.div_mul_le_self _ _

/-- HOLLAR short of a request's cost buys fewer shares than it has pending. -/
theorem buys_lt_pending (hshort : left < request.cost rate) : buys rate left < request.pending := by
  have hcost : left * wad < request.pending * rate :=
    lt_of_lt_of_le (Nat.mul_lt_mul_of_pos_right hshort (by decide)) (Nat.div_mul_le_self _ _)
  exact Nat.lt_of_mul_lt_mul_right (lt_of_le_of_lt (buys_mul_le rate left) hcost)

/-- What it buys is worth no more than it. -/
theorem buys_worth_le (rate left : Nat) : buys rate left * rate / wad ≤ left :=
  Nat.div_le_of_le_mul (by rw [Nat.mul_comm wad]; exact buys_mul_le rate left)

/-- What the purchase leaves over is less than the price of a share and one unit. -/
theorem leftover_lt (hrate : 0 < rate) : (left - buys rate left * rate / wad) * wad < rate + wad := by
  have hbought : left * wad < buys rate left * rate + rate := Nat.lt_div_mul_add hrate
  have hfloor : buys rate left * rate < buys rate left * rate / wad * wad + wad := Nat.lt_div_mul_add (by decide)
  rw [Nat.sub_mul]
  omega

theorem rate_pos_of_cost (hcost : 0 < request.cost rate) : 0 < rate := by
  rcases Nat.eq_zero_or_pos rate with rfl | hpos
  · simp [Request.cost] at hcost
  · exact hpos

end Buys

/-! ## The entries from the head to the cursor -/

namespace QueueStore

variable (q : QueueStore) (rate head c : Nat)

/-- The cost of the pending entries from `head` up to `c`. -/
def spent : Nat := ∑ i ∈ Finset.Ico head c, if (q.redemptionQueue i).Done then 0 else (q.redemptionQueue i).cost rate

/-- The shares pending in them. -/
def pendingIn : Nat := ∑ i ∈ Finset.Ico head c, if (q.redemptionQueue i).Done then 0 else (q.redemptionQueue i).pending

/-- The entries that are pending, and those that are done. -/
def waiting : Finset Nat := (Finset.Ico head c).filter fun i => ¬ (q.redemptionQueue i).Done
def passed : Finset Nat := (Finset.Ico head c).filter fun i => (q.redemptionQueue i).Done

variable {q rate head c}

theorem spent_succ (h : head ≤ c) : q.spent rate head (c + 1) =
    q.spent rate head c + if (q.redemptionQueue c).Done then 0 else (q.redemptionQueue c).cost rate :=
  Finset.sum_Ico_succ_top h _

theorem pendingIn_succ (h : head ≤ c) : q.pendingIn head (c + 1) =
    q.pendingIn head c + if (q.redemptionQueue c).Done then 0 else (q.redemptionQueue c).pending :=
  Finset.sum_Ico_succ_top h _

theorem card_waiting_succ (h : head ≤ c) : (q.waiting head (c + 1)).card =
    (q.waiting head c).card + if (q.redemptionQueue c).Done then 0 else 1 := by
  simp only [waiting, Finset.card_filter]
  rw [Finset.sum_Ico_succ_top h]
  split_ifs <;> rfl

theorem card_passed_succ (h : head ≤ c) : (q.passed head (c + 1)).card =
    (q.passed head c).card + if (q.redemptionQueue c).Done then 1 else 0 := by
  simp only [passed, Finset.card_filter]
  exact Finset.sum_Ico_succ_top h _

theorem pendingIn_mono {c' : Nat} (h : c ≤ c') : q.pendingIn head c ≤ q.pendingIn head c' :=
  Finset.sum_le_sum_of_subset (Finset.Ico_subset_Ico_right h)

end QueueStore

/-- What the arithmetic of a settlement needs where something is pending: the products, the sums it
keeps and the words of the queue fit 256 bits. -/
structure BatchFits (q : QueueStore) (head tail available rate : Nat) : Prop where
  offered : ∀ i, head ≤ i → i < tail → ¬ (q.redemptionQueue i).Done → available * wad < uintSize
  worth : ∀ i, head ≤ i → i < tail → ¬ (q.redemptionQueue i).Done → (q.redemptionQueue i).pending * rate < uintSize
  amount : ∀ i, head ≤ i → i < tail → (q.redemptionQueue i).bilAmount < uintSize
  owed : ∀ i, head ≤ i → i < tail → ¬ (q.redemptionQueue i).Done →
    (q.redemptionQueue i).hollarOwed + (q.redemptionQueue i).cost rate < uintSize
  locked : q.pendingIn head tail < uintSize

/-! ## The run -/

/-- A run offered `available` that has settled every pending entry up to its cursor in full. -/
structure Filling (q : QueueStore) (head tail available rate : Nat) (r : SettleRun) : Prop where
  head_le : head ≤ r.cursor
  le_tail : r.cursor ≤ tail
  atHead : r.cursor = r.newQueueHead
  before : ∀ i, head ≤ i → i < r.cursor → r.redemptionQueue i = (q.redemptionQueue i).settledAt rate
  after : ∀ i, i < head ∨ r.cursor ≤ i → r.redemptionQueue i = q.redemptionQueue i
  paid : ∀ i, head ≤ i → i < r.cursor → ¬ (q.redemptionQueue i).Done → 0 < (q.redemptionQueue i).cost rate
  used : r.hollarUsed = q.spent rate head r.cursor
  locked : r.bilLocked = q.pendingIn head r.cursor
  offered : r.available + r.hollarUsed = available
  iterations : r.iterations = (q.waiting head r.cursor).card
  skips : r.skips = (q.passed head r.cursor).card

/-- `r'` comes after `r` with the entry at the cursor settled in full, or passed where it is done. -/
structure Completes (q : QueueStore) (rate : Nat) (r r' : SettleRun) : Prop where
  cursor : r'.cursor = r.cursor + 1
  atHead : r'.newQueueHead = r'.cursor
  entry : r'.redemptionQueue r.cursor = (q.redemptionQueue r.cursor).settledAt rate
  others : ∀ i, i ≠ r.cursor → r'.redemptionQueue i = r.redemptionQueue i
  paid : ¬ (q.redemptionQueue r.cursor).Done → 0 < (q.redemptionQueue r.cursor).cost rate
  used : r'.hollarUsed =
    r.hollarUsed + if (q.redemptionQueue r.cursor).Done then 0 else (q.redemptionQueue r.cursor).cost rate
  locked : r'.bilLocked =
    r.bilLocked + if (q.redemptionQueue r.cursor).Done then 0 else (q.redemptionQueue r.cursor).pending
  kept : r'.available + r'.hollarUsed = r.available + r.hollarUsed
  iterations : r'.iterations = r.iterations + if (q.redemptionQueue r.cursor).Done then 0 else 1
  skips : r'.skips = r.skips + if (q.redemptionQueue r.cursor).Done then 1 else 0

/-- The run after it has locked what its HOLLAR buys of the entry at the cursor. -/
def SettleRun.partly (r : SettleRun) (rate : Nat) : SettleRun :=
  let b := buys rate r.available
  { toQueueStore := r.lock r.cursor ((r.redemptionQueue r.cursor).bilSettled + b)
      ((r.redemptionQueue r.cursor).hollarOwed + b * rate / wad)
    newQueueHead := r.newQueueHead, hollarUsed := r.hollarUsed + b * rate / wad, bilLocked := r.bilLocked + b,
    available := 0, iterations := r.iterations + 1, skips := r.skips, cursor := r.cursor }

/-- The entry at the cursor is pending, costs more than is left, and some of it can be bought. -/
structure Short (q : QueueStore) (tail rate : Nat) (r : SettleRun) : Prop where
  lt_tail : r.cursor < tail
  waits : ¬ (q.redemptionQueue r.cursor).Done
  short : r.available < (q.redemptionQueue r.cursor).cost rate
  bought : 0 < buys rate r.available

/-- A run settles in full, and in part at most once, at its end. -/
inductive Settling (q : QueueStore) (head tail available rate : Nat) : SettleRun → Prop
  | filling {r : SettleRun} : Filling q head tail available rate r → Settling q head tail available rate r
  | parted {r : SettleRun} : Filling q head tail available rate r → Short q tail rate r →
      Settling q head tail available rate (r.partly rate)

section Run

variable {q : QueueStore} {head tail available rate maxIterations maxSkips : Nat} {r r' : SettleRun}

theorem Filling.atCursor (h : Filling q head tail available rate r) :
    r.redemptionQueue r.cursor = q.redemptionQueue r.cursor := h.after _ (.inr (le_refl _))

/-- What holds up to the cursor holds up to the next one. -/
theorem Filling.advance (h : Filling q head tail available rate r) (ha : Completes q rate r r') (hlt : r.cursor < tail) :
    Filling q head tail available rate r' := by
  have hle := h.head_le
  have hcursor := ha.cursor
  refine ⟨by omega, by omega, ha.atHead.symm, fun i hi hlt => ?_, fun i hi => ?_, fun i hi hlt hwaits => ?_, ?_, ?_, ?_,
    ?_, ?_⟩
  · rcases Nat.lt_succ_iff_lt_or_eq.1 (hcursor ▸ hlt) with hlt | rfl
    · rw [ha.others i hlt.ne, h.before i hi hlt]
    · exact ha.entry
  · rw [ha.others i (by omega)]
    exact h.after i (hi.imp_right fun h => by omega)
  · rcases Nat.lt_succ_iff_lt_or_eq.1 (hcursor ▸ hlt) with hlt | rfl
    · exact h.paid i hi hlt hwaits
    · exact ha.paid hwaits
  · rw [hcursor, QueueStore.spent_succ hle, ha.used, h.used]
  · rw [hcursor, QueueStore.pendingIn_succ hle, ha.locked, h.locked]
  · rw [ha.kept, h.offered]
  · rw [hcursor, QueueStore.card_waiting_succ hle, ha.iterations, h.iterations]
  · rw [hcursor, QueueStore.card_passed_succ hle, ha.skips, h.skips]

/-- One pass settles the entry at the cursor in full or in part, or passes it. -/
theorem Filling.step (h : Filling q head tail available rate r)
    (hs : SettleStep tail rate maxIterations maxSkips r r') : Settling q head tail available rate r' := by
  have hcur := h.atCursor
  have hpast : r.headPast = r.cursor + 1 := by rw [SettleRun.headPast_eq h.atHead, h.atHead]
  cases hs with
  | skip hlt _ _ hdone =>
    rw [hcur] at hdone
    refine .filling (h.advance ⟨rfl, hpast, ?_, fun _ _ => rfl, fun hwaits => absurd hdone hwaits, ?_, ?_, rfl, ?_, ?_⟩
      hlt)
    · rw [Request.settledAt, if_pos hdone]
      exact hcur
    · rw [if_pos hdone]; rfl
    · rw [if_pos hdone]; rfl
    · rw [if_pos hdone]; rfl
    · rw [if_pos hdone]; rfl
  | full pending hollarValue hlt _ _ huser hpos hsum hval hvpos hfits =>
    rw [hcur] at huser hsum
    have hpending : pending = (q.redemptionQueue r.cursor).pending := by
      unfold Request.pending
      omega
    have hwaits : ¬ (q.redemptionQueue r.cursor).Done := not_or.2 ⟨huser, by omega⟩
    have hcost : hollarValue = (q.redemptionQueue r.cursor).cost rate := by
      rw [hval, hpending]
      rfl
    refine .filling (h.advance ⟨rfl, hpast, ?_, fun i hi => Function.update_of_ne hi _ _, fun _ => hcost ▸ hvpos, ?_, ?_,
      ?_, ?_, ?_⟩ hlt)
    · refine (Function.update_self ..).trans ?_
      rw [hcur, Request.settledAt, if_neg hwaits, hsum, hcost]
    · rw [if_neg hwaits, hcost]
    · rw [if_neg hwaits, hpending]
    · show r.available - hollarValue + (r.hollarUsed + hollarValue) = r.available + r.hollarUsed
      omega
    · rw [if_neg hwaits]
    · rw [if_neg hwaits]; rfl
  | part pending b hlt _ _ huser hsum hshort hb hpos =>
    rw [hcur] at huser hsum
    have hpending : pending = (q.redemptionQueue r.cursor).pending := by
      unfold Request.pending
      omega
    subst hb
    refine .parted h ⟨hlt, ?_, ?_, hpos⟩
    · refine not_or.2 ⟨huser, fun heq => ?_⟩
      rw [show pending = 0 by omega, Nat.zero_mul, Nat.zero_div] at hshort
      exact absurd hshort (Nat.not_lt_zero _)
    · rw [hpending] at hshort
      exact hshort

/-- Nothing more is settled after a part. -/
theorem Filling.parted_last (h : Filling q head tail available rate r) (hshort : Short q tail rate r) :
    ¬ SettleStep tail rate maxIterations maxSkips (r.partly rate) r' := by
  have hentry : (r.partly rate).redemptionQueue r.cursor =
      { q.redemptionQueue r.cursor with
        bilSettled := (q.redemptionQueue r.cursor).bilSettled + buys rate r.available
        hollarOwed := (q.redemptionQueue r.cursor).hollarOwed + buys rate r.available * rate / wad } := by
    rw [← h.atCursor]
    exact Function.update_self ..
  have hless := buys_lt_pending hshort.short
  have hleft : 0 < (r.partly rate).available → False := fun h0 => absurd h0 (lt_irrefl 0)
  intro hs
  cases hs with
  | skip _ _ _ hdone =>
    change ((r.partly rate).redemptionQueue r.cursor).Done at hdone
    rw [hentry] at hdone
    rcases hdone with hu | hs
    · exact hshort.waits (.inl hu)
    · have : (q.redemptionQueue r.cursor).bilSettled + buys rate r.available =
          (q.redemptionQueue r.cursor).bilAmount := hs
      unfold Request.pending at hless
      omega
  | full pending hollarValue _ _ _ _ _ _ _ hpos hle => exact hleft (lt_of_lt_of_le hpos hle)
  | part pending b _ _ _ _ _ _ hb hpos =>
    have hzero : b = 0 := by rw [hb]; exact (congrArg (· / rate) (Nat.zero_mul wad)).trans (Nat.zero_div rate)
    omega

theorem Settling.step (h : Settling q head tail available rate r)
    (hs : SettleStep tail rate maxIterations maxSkips r r') : Settling q head tail available rate r' := by
  cases h with
  | filling h => exact h.step hs
  | parted h hshort => exact absurd hs (h.parted_last hshort)

/-! ## No pass reverts -/

/-- A pass over a pending entry, the HOLLAR of which buys all of it, some of it, or none. -/
theorem Filling.pass_ok (h : Filling q head tail available rate r) (hfits : BatchFits q head tail available rate)
    (hwf : ∀ i, (q.redemptionQueue i).bilSettled ≤ (q.redemptionQueue i).bilAmount) :
    ∃ p, settlePass tail rate maxIterations maxSkips wad r = .ok p := by
  unfold settlePass
  dsimp only
  rw [h.atCursor]
  split_ifs with hguard hhole hdone havail
  · exact ⟨_, rfl⟩
  · exact ⟨_, rfl⟩
  · exact ⟨_, rfl⟩
  · have hle := h.head_le
    have hwaits : ¬ (q.redemptionQueue r.cursor).Done := not_or.2 ⟨hhole, hdone⟩
    have hworth := hfits.worth _ hle hguard.1 hwaits
    have howed := hfits.owed _ hle hguard.1 hwaits
    have hamount := hfits.amount _ hle hguard.1
    have hoffered := h.offered
    have hproduct := hfits.offered _ hle hguard.1 hwaits
    have havailable : available < uintSize := lt_of_le_of_lt (Nat.le_mul_of_pos_right _ (by decide)) hproduct
    -- the shares locked with this entry are among those pending
    have hlocked : r.bilLocked + (q.redemptionQueue r.cursor).pending < uintSize := by
      refine lt_of_le_of_lt ?_ hfits.locked
      have hmono : q.pendingIn head (r.cursor + 1) ≤ q.pendingIn head tail := QueueStore.pendingIn_mono hguard.1
      rw [QueueStore.pendingIn_succ hle, if_neg hwaits] at hmono
      rw [h.locked]
      exact hmono
    simp only [exists_bind_ok, checkedSub_ok_iff, checkedMul_ok_iff, checkedDiv_ok_iff]
    refine ⟨_, ⟨hwf _, rfl⟩, _, ⟨hworth, rfl⟩, _, ⟨by decide, rfl⟩, ?_⟩
    split_ifs with hzero hfull
    · exact ⟨_, rfl⟩
    · simp only [exists_bind_ok, checkedSub_ok_iff, checkedAdd_ok_iff]
      exact ⟨_, ⟨howed, rfl⟩, _, ⟨by omega, rfl⟩, _, ⟨hlocked, rfl⟩, _, ⟨hfull, rfl⟩, _, rfl⟩
    · have hshort : r.available < (q.redemptionQueue r.cursor).cost rate := not_le.1 hfull
      have hrate := rate_pos_of_cost (Nat.pos_of_ne_zero hzero)
      have hscaled : r.available * wad < uintSize :=
        lt_of_le_of_lt (Nat.mul_le_mul_right _ (by omega)) hproduct
      have hbought := buys_lt_pending hshort
      have hreserved := buys_worth_le rate r.available
      simp only [exists_bind_ok, checkedMul_ok_iff, checkedDiv_ok_iff]
      refine ⟨_, ⟨hscaled, rfl⟩, _, ⟨hrate.ne', rfl⟩, ?_⟩
      split_ifs with hnone
      · exact ⟨_, rfl⟩
      · simp only [exists_bind_ok, checkedMul_ok_iff, checkedDiv_ok_iff, checkedAdd_ok_iff]
        have hb : r.available * wad / rate = buys rate r.available := rfl
        simp only [hb]
        unfold Request.pending at hbought hlocked
        exact ⟨_, ⟨lt_of_le_of_lt (buys_mul_le rate _) hscaled, rfl⟩, _, ⟨by decide, rfl⟩, _, ⟨by omega, rfl⟩, _,
          ⟨by omega, rfl⟩, _, ⟨by omega, rfl⟩, _, ⟨by omega, rfl⟩, _, rfl⟩
  · exact ⟨_, rfl⟩

/-- A pass without HOLLAR locks nothing. -/
theorem settlePass_broke (hbroke : r.available = 0) :
    ∃ p, settlePass tail rate maxIterations maxSkips wad r = .ok p := by
  unfold settlePass
  dsimp only
  split_ifs with hguard hhole hdone
  · exact ⟨_, rfl⟩
  · exact ⟨_, rfl⟩
  · exact ⟨_, rfl⟩
  · exact ⟨_, rfl⟩

theorem Settling.pass_ok (h : Settling q head tail available rate r) (hfits : BatchFits q head tail available rate)
    (hwf : ∀ i, (q.redemptionQueue i).bilSettled ≤ (q.redemptionQueue i).bilAmount) :
    ∃ p, settlePass tail rate maxIterations maxSkips wad r = .ok p := by
  cases h with
  | filling h => exact h.pass_ok hfits hwf
  | parted _ _ => exact settlePass_broke rfl

/-- A pass that does not stop had both budgets left. -/
theorem SettleStep.within (hs : SettleStep tail rate maxIterations maxSkips r r') :
    r'.iterations ≤ maxIterations ∧ r'.skips ≤ maxSkips := by
  cases hs with
  | skip _ hit hskip _ => exact ⟨hit.le, hskip⟩
  | full _ _ _ hit hskip _ _ _ _ _ _ => exact ⟨hit, hskip.le⟩
  | part _ _ _ hit hskip _ _ _ _ _ => exact ⟨hit, hskip.le⟩

end Run

/-! ## The law -/

/-- A request some of which is locked: what `left` HOLLAR buys of it, for what that is worth. -/
structure PartlySettled (rate left : Nat) (request request' : Request) : Prop where
  short : left < request.cost rate
  bought : 0 < buys rate left
  fewer : buys rate left < request.pending
  covered : buys rate left * rate / wad ≤ left
  /-- What is left over is worth less than one more share. -/
  leftover : (left - buys rate left * rate / wad) * wad < rate + wad
  entry : request' = { request with
    bilSettled := request.bilSettled + buys rate left, hollarOwed := request.hollarOwed + buys rate left * rate / wad }

/-- What a settlement of `q` from `head` leaves, at the entry where it stops. -/
structure Batch (q : QueueStore) (head tail available rate maxIterations maxSkips : Nat) (r : SettleRun) : Prop where
  used_le : r.hollarUsed ≤ available
  atHead : r.cursor = r.newQueueHead
  head_le : head ≤ r.cursor
  le_tail : r.cursor ≤ tail
  grows : ∀ i, (q.redemptionQueue i).bilSettled ≤ (r.redemptionQueue i).bilSettled ∧
    (q.redemptionQueue i).hollarOwed ≤ (r.redemptionQueue i).hollarOwed
  used : r.hollarUsed =
    ∑ i ∈ Finset.Ico head tail, ((r.redemptionQueue i).hollarOwed - (q.redemptionQueue i).hollarOwed)
  locked : r.bilLocked =
    ∑ i ∈ Finset.Ico head tail, ((r.redemptionQueue i).bilSettled - (q.redemptionQueue i).bilSettled)
  locked_le : r.bilLocked ≤ q.pendingIn head tail
  /-- Every entry before the cursor is settled in full, for HOLLAR unless it was done before. -/
  settled : ∀ i, head ≤ i → i < r.cursor → r.redemptionQueue i = (q.redemptionQueue i).settledAt rate ∧
    (¬ (q.redemptionQueue i).Done → 0 < (q.redemptionQueue i).cost rate)
  outside : ∀ i, i < head ∨ r.cursor < i → r.redemptionQueue i = q.redemptionQueue i
  /-- The one at the cursor is as it was, or the rest is spent on a part of it. -/
  last : q.spent rate head r.cursor ≤ available ∧
    (r.redemptionQueue r.cursor = q.redemptionQueue r.cursor ∧ r.hollarUsed = q.spent rate head r.cursor ∨
      r.cursor < tail ∧ ¬ (q.redemptionQueue r.cursor).Done ∧
        PartlySettled rate (available - q.spent rate head r.cursor) (q.redemptionQueue r.cursor)
          (r.redemptionQueue r.cursor))
  budget : (q.waiting head r.cursor).card ≤ maxIterations ∧ (q.passed head r.cursor).card ≤ maxSkips
  /-- Why it stops before the tail: a budget, or an entry that is pending and cannot be settled. -/
  stop : r.cursor < tail →
    (q.waiting head r.cursor).card = maxIterations ∨ (q.passed head r.cursor).card = maxSkips ∨
      (¬ (q.redemptionQueue r.cursor).Done ∧
        (r.hollarUsed = available ∨ (q.redemptionQueue r.cursor).cost rate = 0 ∨
          (available - q.spent rate head r.cursor < (q.redemptionQueue r.cursor).cost rate ∧
            buys rate (available - q.spent rate head r.cursor) = 0) ∨
          PartlySettled rate (available - q.spent rate head r.cursor) (q.redemptionQueue r.cursor)
            (r.redemptionQueue r.cursor)))

section Law

variable {q : QueueStore} {head tail available rate maxIterations maxSkips : Nat} {r : SettleRun}

/-- A request settled in full gains what it had pending, and its cost. -/
theorem Request.settledAt_gains (request : Request) (hwf : request.bilSettled ≤ request.bilAmount) :
    (request.settledAt rate).bilSettled = request.bilSettled + (if request.Done then 0 else request.pending) ∧
    (request.settledAt rate).hollarOwed = request.hollarOwed + if request.Done then 0 else request.cost rate := by
  unfold Request.settledAt Request.pending
  split_ifs
  · exact ⟨rfl, rfl⟩
  · exact ⟨by show request.bilAmount = _; omega, rfl⟩

/-- A sum over the entries up to the tail is one up to the cursor, where nothing changes from there on. -/
theorem sum_Ico_stop {f : Nat → Nat} {c : Nat} (hc : head ≤ c) (ht : c ≤ tail) (hzero : ∀ i, c ≤ i → f i = 0) :
    ∑ i ∈ Finset.Ico head tail, f i = ∑ i ∈ Finset.Ico head c, f i := by
  rw [← Finset.sum_Ico_consecutive f hc ht]
  have : ∑ i ∈ Finset.Ico c tail, f i = 0 := Finset.sum_eq_zero fun i hi => hzero i (Finset.mem_Ico.1 hi).1
  omega

/-- What is settled and owed only grows. -/
theorem Filling.grows (h : Filling q head tail available rate r)
    (hwf : ∀ i, (q.redemptionQueue i).bilSettled ≤ (q.redemptionQueue i).bilAmount) (i : Nat) :
    (q.redemptionQueue i).bilSettled ≤ (r.redemptionQueue i).bilSettled ∧
      (q.redemptionQueue i).hollarOwed ≤ (r.redemptionQueue i).hollarOwed := by
  by_cases hi : head ≤ i ∧ i < r.cursor
  · rw [h.before i hi.1 hi.2, (Request.settledAt_gains _ (hwf i)).1, (Request.settledAt_gains _ (hwf i)).2]
    exact ⟨Nat.le_add_right _ _, Nat.le_add_right _ _⟩
  · rw [h.after i (by omega)]
    exact ⟨le_refl _, le_refl _⟩

/-- What the entries before the cursor gained. -/
theorem Filling.gains (h : Filling q head tail available rate r)
    (hwf : ∀ i, (q.redemptionQueue i).bilSettled ≤ (q.redemptionQueue i).bilAmount) {queue : Nat → Request}
    (hsame : ∀ i, i < r.cursor → queue i = r.redemptionQueue i) :
    ∑ i ∈ Finset.Ico head r.cursor, ((queue i).hollarOwed - (q.redemptionQueue i).hollarOwed) = r.hollarUsed ∧
    ∑ i ∈ Finset.Ico head r.cursor, ((queue i).bilSettled - (q.redemptionQueue i).bilSettled) = r.bilLocked := by
  have hentry : ∀ i ∈ Finset.Ico head r.cursor, queue i = (q.redemptionQueue i).settledAt rate := by
    intro i hi
    obtain ⟨hle, hlt⟩ := Finset.mem_Ico.1 hi
    rw [hsame i hlt, h.before i hle hlt]
  constructor
  · rw [h.used]
    refine Finset.sum_congr rfl fun i hi => ?_
    rw [hentry i hi, (Request.settledAt_gains _ (hwf i)).2, Nat.add_sub_cancel_left]
  · rw [h.locked]
    refine Finset.sum_congr rfl fun i hi => ?_
    rw [hentry i hi, (Request.settledAt_gains _ (hwf i)).1, Nat.add_sub_cancel_left]

/-- What a part of the entry at the cursor comes to. -/
theorem Short.partlySettled (h : Short q tail rate r)
    (hentry : r.redemptionQueue r.cursor = q.redemptionQueue r.cursor) :
    PartlySettled rate r.available (q.redemptionQueue r.cursor) ((r.partly rate).redemptionQueue r.cursor) := by
  have hrate : 0 < rate := rate_pos_of_cost (lt_of_le_of_lt (Nat.zero_le _) h.short)
  refine ⟨h.short, h.bought, buys_lt_pending h.short, buys_worth_le rate _, leftover_lt hrate, ?_⟩
  rw [← hentry]
  exact Function.update_self ..

/-- A run that stops after full settlements. -/
theorem Filling.batch (h : Filling q head tail available rate r)
    (hwf : ∀ i, (q.redemptionQueue i).bilSettled ≤ (q.redemptionQueue i).bilAmount)
    (hbudget : r.iterations ≤ maxIterations ∧ r.skips ≤ maxSkips)
    (hstop : settlePass tail rate maxIterations maxSkips wad r = .ok (.stop r')) :
    Batch q head tail available rate maxIterations maxSkips r := by
  have hoffered := h.offered
  have hleft : available - q.spent rate head r.cursor = r.available := by rw [← h.used]; omega
  obtain ⟨howed, hsettled⟩ := h.gains hwf fun i _ => (rfl : r.redemptionQueue i = r.redemptionQueue i)
  have hsame : ∀ i, r.cursor ≤ i → r.redemptionQueue i = q.redemptionQueue i := fun i hi => h.after i (.inr hi)
  have hits := h.iterations
  have hskips := h.skips
  refine ⟨by omega, h.atHead, h.head_le, h.le_tail, h.grows hwf, ?_, ?_,
    by rw [h.locked]; exact QueueStore.pendingIn_mono h.le_tail, fun i hi hlt => ⟨h.before i hi hlt, h.paid i hi hlt⟩,
    fun i hi => h.after i (hi.imp_right le_of_lt), ⟨by rw [← h.used]; omega, .inl ⟨h.atCursor, h.used⟩⟩,
    ⟨hits ▸ hbudget.1, hskips ▸ hbudget.2⟩, ?_⟩
  · rw [sum_Ico_stop h.head_le h.le_tail fun i hi => by rw [hsame i hi, Nat.sub_self], howed]
  · rw [sum_Ico_stop h.head_le h.le_tail fun i hi => by rw [hsame i hi, Nat.sub_self], hsettled]
  · intro hlt
    rw [hleft, ← hits, ← hskips, ← h.atCursor]
    rcases settlePass_stop_why hstop with htail | hit | hskip | ⟨-, hwaits, hnone | hzero | hshort⟩
    · omega
    · exact .inl (le_antisymm hbudget.1 hit)
    · exact .inr (.inl (le_antisymm hbudget.2 hskip))
    · exact .inr (.inr ⟨hwaits, .inl (by omega)⟩)
    · exact .inr (.inr ⟨hwaits, .inr (.inl hzero)⟩)
    · exact .inr (.inr ⟨hwaits, .inr (.inr (.inl hshort))⟩)

/-- A run that stops after a part. -/
theorem Filling.batch_partly (h : Filling q head tail available rate r) (hshort : Short q tail rate r)
    (hwf : ∀ i, (q.redemptionQueue i).bilSettled ≤ (q.redemptionQueue i).bilAmount)
    (hbudget : r.iterations ≤ maxIterations ∧ r.skips ≤ maxSkips) :
    Batch q head tail available rate maxIterations maxSkips (r.partly rate) := by
  have hoffered := h.offered
  have hle := h.head_le
  have hleft : available - q.spent rate head r.cursor = r.available := by rw [← h.used]; omega
  have hpart := hshort.partlySettled h.atCursor
  have hcovered := hpart.covered
  have hother : ∀ i, i ≠ r.cursor → (r.partly rate).redemptionQueue i = r.redemptionQueue i :=
    fun i hi => Function.update_of_ne hi _ _
  obtain ⟨howed, hsettled⟩ := h.gains hwf fun i hi => hother i hi.ne
  -- beyond the entry at the cursor nothing changed
  have hsame : ∀ i, r.cursor + 1 ≤ i → (r.partly rate).redemptionQueue i = q.redemptionQueue i := by
    intro i hi
    rw [hother i (by omega), h.after i (.inr (by omega))]
  refine ⟨?_, h.atHead, hle, hshort.lt_tail.le, ?_, ?_, ?_, ?_, ?_, ?_, ?_, ?_, ?_⟩
  · show r.hollarUsed + buys rate r.available * rate / wad ≤ available
    omega
  · intro i
    rcases eq_or_ne i r.cursor with rfl | hne
    · rw [hpart.entry]
      exact ⟨Nat.le_add_right _ _, Nat.le_add_right _ _⟩
    · rw [hother i hne]
      exact h.grows hwf i
  · rw [sum_Ico_stop (by omega : head ≤ r.cursor + 1) hshort.lt_tail fun i hi => by rw [hsame i hi, Nat.sub_self],
      Finset.sum_Ico_succ_top hle, howed, hpart.entry]
    exact congrArg (r.hollarUsed + ·) (Nat.add_sub_cancel_left ..).symm
  · rw [sum_Ico_stop (by omega : head ≤ r.cursor + 1) hshort.lt_tail fun i hi => by rw [hsame i hi, Nat.sub_self],
      Finset.sum_Ico_succ_top hle, hsettled, hpart.entry]
    exact congrArg (r.bilLocked + ·) (Nat.add_sub_cancel_left ..).symm
  · have hmono : q.pendingIn head (r.cursor + 1) ≤ q.pendingIn head tail := QueueStore.pendingIn_mono hshort.lt_tail
    rw [QueueStore.pendingIn_succ hle, if_neg hshort.waits, ← h.locked] at hmono
    exact le_trans (Nat.add_le_add_left hpart.fewer.le _) hmono
  · intro i hi hlt
    exact ⟨by rw [hother i (ne_of_lt hlt)]; exact h.before i hi hlt, h.paid i hi hlt⟩
  · intro i hi
    rw [hother i (by intro h; subst h; exact absurd hi (not_or.2 ⟨not_lt.2 hle, lt_irrefl _⟩))]
    exact h.after i (hi.imp_right le_of_lt)
  · refine ⟨by show q.spent rate head r.cursor ≤ available; rw [← h.used]; omega,
      .inr ⟨hshort.lt_tail, hshort.waits, ?_⟩⟩
    show PartlySettled rate (available - q.spent rate head r.cursor) _ _
    rw [hleft]
    exact hpart
  · exact ⟨h.iterations ▸ hbudget.1, h.skips ▸ hbudget.2⟩
  · intro _
    refine .inr (.inr ⟨hshort.waits, .inr (.inr (.inr ?_))⟩)
    show PartlySettled rate (available - q.spent rate head r.cursor) _ _
    rw [hleft]
    exact hpart

/-- What `processQueue` starts from, and the passes that ask for another. -/
def SettleRun.start (store : QueueStore) (head available : Nat) : SettleRun :=
  { toQueueStore := store, newQueueHead := head, hollarUsed := 0, bilLocked := 0, available, iterations := 0,
    skips := 0, cursor := head }

def SettleRun.Again (tail rate maxIterations maxSkips : Nat) (r r' : SettleRun) : Prop :=
  settlePass tail rate maxIterations maxSkips wad r = .ok (.again r')

theorem Filling.start (hle : head ≤ tail) : Filling q head tail available rate (.start q head available) := by
  refine ⟨le_refl _, hle, rfl, fun i hi hlt => absurd hlt (not_lt.2 hi), fun _ _ => rfl,
    fun i hi hlt => absurd hlt (not_lt.2 hi), ?_, ?_, Nat.add_zero _, ?_, ?_⟩
  · simp [SettleRun.start, QueueStore.spent]
  · simp [SettleRun.start, QueueStore.pendingIn]
  · simp [SettleRun.start, QueueStore.waiting]
  · simp [SettleRun.start, QueueStore.passed]

theorem Settling.atHead (h : Settling q head tail available rate r) : r.cursor = r.newQueueHead := by
  cases h with
  | filling h => exact h.atHead
  | parted h _ => exact h.atHead

/-- The run from the start keeps the shape of a settlement and its two budgets. -/
theorem Settling.run (hle : head ≤ tail)
    (hpasses : ReflTransGen (SettleRun.Again tail rate maxIterations maxSkips) (.start q head available) r) :
    Settling q head tail available rate r ∧ r.iterations ≤ maxIterations ∧ r.skips ≤ maxSkips := by
  induction hpasses with
  | refl => exact ⟨.filling (.start hle), Nat.zero_le _, Nat.zero_le _⟩
  | tail _ hp ih => exact ⟨ih.1.step (settlePass_again hp), (settlePass_again hp).within⟩

/-- A settlement returns by a pass that stops, and leaves a batch. -/
theorem processQueue_batch (hle : head ≤ tail)
    (hwf : ∀ i, (q.redemptionQueue i).bilSettled ≤ (q.redemptionQueue i).bilAmount)
    (hfits : BatchFits q head tail available rate) (maxIterations maxSkips : Nat) :
    ∃ r, processQueue q head tail available rate maxIterations maxSkips wad = .ok r ∧
      (∃ t, ReflTransGen (SettleRun.Again tail rate maxIterations maxSkips) (.start q head available) t ∧
        settlePass tail rate maxIterations maxSkips wad t = .ok (.stop r)) ∧
      Batch q head tail available rate maxIterations maxSkips r := by
  obtain ⟨r, hr⟩ := loop_total
    (I := ReflTransGen (SettleRun.Again tail rate maxIterations maxSkips) (.start q head available))
    (fun t ht => (Settling.run hle ht).1.pass_ok hfits hwf) (fun t t' ht hp => ht.tail hp)
    (maxIterations + maxSkips + 1) _ .refl
  -- every pass uses one of the two budgets
  obtain ⟨t, ht, hstop⟩ := loop_exits
    (I := ReflTransGen (SettleRun.Again tail rate maxIterations maxSkips) (.start q head available))
    (fun t => maxIterations - t.iterations + (maxSkips - t.skips))
    (fun t t' ht hp => ⟨ht.tail hp, (settlePass_again hp).budget_lt⟩)
    .refl (by show maxIterations - 0 + (maxSkips - 0) < _; omega) hr
  obtain ⟨hshape, hbudget⟩ := Settling.run hle ht
  have hbatch : Batch q head tail available rate maxIterations maxSkips t := by
    cases hshape with
    | filling h => exact h.batch hwf hbudget hstop
    | parted h hshort => exact h.batch_partly hshort hwf ⟨le_trans (Nat.le_succ _) hbudget.1, hbudget.2⟩
  refine ⟨r, hr, ⟨t, ht, hstop⟩, ?_⟩
  rcases settlePass_stop hstop with rfl | rfl
  · exact hbatch
  · exact ⟨hbatch.used_le, hbatch.atHead, hbatch.head_le, hbatch.le_tail, hbatch.grows, hbatch.used, hbatch.locked,
      hbatch.locked_le, hbatch.settled, hbatch.outside, hbatch.last, hbatch.budget, hbatch.stop⟩

/-- The law of a settlement, at every rate and with any budgets. It returns, by a pass that stops; on
the way there its cursor is at the head; and it leaves a batch. -/
theorem batch_law (hle : head ≤ tail) (hwf : ∀ i, (q.redemptionQueue i).bilSettled ≤ (q.redemptionQueue i).bilAmount)
    (hfits : BatchFits q head tail available rate) :
    ∃ r, processQueue q head tail available rate maxIterations maxSkips wad = .ok r ∧
      (∃ t, ReflTransGen (SettleRun.Again tail rate maxIterations maxSkips) (.start q head available) t ∧
        settlePass tail rate maxIterations maxSkips wad t = .ok (.stop r)) ∧
      (∀ t, ReflTransGen (SettleRun.Again tail rate maxIterations maxSkips) (.start q head available) t →
        t.cursor = t.newQueueHead) ∧
      Batch q head tail available rate maxIterations maxSkips r := by
  obtain ⟨r, hr, hstop, hbatch⟩ := processQueue_batch hle hwf hfits maxIterations maxSkips
  exact ⟨r, hr, hstop, fun t ht => (Settling.run hle ht).1.atHead, hbatch⟩

/-- A cancelled entry, a request for two shares and one for five. -/
def demoBatch : QueueStore :=
  { redemptionQueue := fun i =>
      if i = 1 then ⟨7, 2 * wad, 0, 0⟩ else if i = 2 then ⟨8, 5 * wad, wad, wad⟩ else Request.empty
    settledByController := fun _ => [] }

theorem batch_law_demo :
    ∃ r, processQueue demoBatch 0 3 (5 * wad) wad 50 500 wad = .ok r ∧
      (∃ t, ReflTransGen (SettleRun.Again 3 wad 50 500) (.start demoBatch 0 (5 * wad)) t ∧
        settlePass 3 wad 50 500 wad t = .ok (.stop r)) ∧
      (∀ t, ReflTransGen (SettleRun.Again 3 wad 50 500) (.start demoBatch 0 (5 * wad)) t → t.cursor = t.newQueueHead) ∧
      Batch demoBatch 0 3 (5 * wad) wad 50 500 r := by
  refine batch_law (by decide) (fun i => ?_) ⟨by decide, by decide, by decide, by decide, by decide⟩
  unfold demoBatch
  dsimp only
  split_ifs <;> decide

/-- Two requests of half the range each, at the smallest rate. -/
def twoHalves : QueueStore :=
  { redemptionQueue := fun i => if i < 2 then ⟨7, 2 ^ 255, 0, 0⟩ else Request.empty
    settledByController := fun _ => [] }

/-- Products that fit are not enough: the settlement also adds up the shares it locks. -/
theorem batch_law_sum : ¬ ∀ (q : QueueStore) (head tail available rate maxIterations maxSkips : Nat), head ≤ tail →
    (∀ i, (q.redemptionQueue i).bilSettled ≤ (q.redemptionQueue i).bilAmount) →
    (∀ i, (q.redemptionQueue i).bilAmount < uintSize ∧ (q.redemptionQueue i).hollarOwed < uintSize) →
    (∀ i, (q.redemptionQueue i).pending * rate < uintSize) → available * wad < uintSize →
    ∃ r, processQueue q head tail available rate maxIterations maxSkips wad = .ok r := by
  intro h
  have hentry : ∀ i, twoHalves.redemptionQueue i = ⟨7, 2 ^ 255, 0, 0⟩ ∨
      twoHalves.redemptionQueue i = Request.empty := by
    intro i
    unfold twoHalves
    dsimp only
    split_ifs
    · exact .inl rfl
    · exact .inr rfl
  have hreverts : processQueue twoHalves 0 2 ((uintSize - 1) / wad) 1 50 500 wad = .error (.panic .arithmetic) := rfl
  obtain ⟨r, hr⟩ := h twoHalves 0 2 ((uintSize - 1) / wad) 1 50 500 (by decide)
    (fun i => by rcases hentry i with he | he <;> rw [he] <;> decide)
    (fun i => by rcases hentry i with he | he <;> rw [he] <;> decide)
    (fun i => by rcases hentry i with he | he <;> rw [he] <;> decide)
    (by decide)
  rw [hreverts] at hr
  cases hr

end Law

end MoneyMarket
