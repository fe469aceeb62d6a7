/-
The redemption queue as a machine of its own: what the calls of the vault do to the requests, the
per-controller index and the three totals, one change at a time. Settlement is a sequence of
`Fill`s at the head (`processQueue_fills`), a claim a sequence of `Draw`s at the back of the
controller's index (`claimWalk_draws`).
-/
import Mathlib.Logic.Relation
import MoneyMarket.Vault.QueueLib

namespace MoneyMarket

open Evm Relation

/-- A request after `b` of its settled shares are claimed for `v` HOLLAR. -/
def Request.drawn (request : Request) (b v : Nat) : Request :=
  if request.bilAmount = b then Request.empty
  else { request with
    bilAmount := request.bilAmount - b, bilSettled := request.bilSettled - b, hollarOwed := request.hollarOwed - v }

section Drawn

variable {request : Request}

/-- A draw only takes away. -/
theorem Request.drawn_le (request : Request) (b v : Nat) :
    (request.drawn b v).bilAmount ≤ request.bilAmount ∧ (request.drawn b v).bilSettled ≤ request.bilSettled ∧
      (request.drawn b v).hollarOwed ≤ request.hollarOwed := by
  unfold Request.drawn
  split_ifs
  · exact ⟨Nat.zero_le _, Nat.zero_le _, Nat.zero_le _⟩
  · exact ⟨Nat.sub_le _ _, Nat.sub_le _ _, Nat.sub_le _ _⟩

/-- What is settled stays within the amount. -/
theorem Request.drawn_settled_le (hle : request.bilSettled ≤ request.bilAmount) (b v : Nat) :
    (request.drawn b v).bilSettled ≤ (request.drawn b v).bilAmount := by
  unfold Request.drawn
  split_ifs
  · exact le_refl _
  · exact Nat.sub_le_sub_right hle b

/-- What is not settled stays: a request that is drained was settled in full. -/
theorem Request.drawn_unsettled {b : Nat} (hle : request.bilSettled ≤ request.bilAmount) (hb : b ≤ request.bilSettled)
    (v : Nat) : (request.drawn b v).bilAmount - (request.drawn b v).bilSettled =
      request.bilAmount - request.bilSettled := by
  unfold Request.drawn
  split_ifs
  · show 0 - 0 = _
    omega
  · show request.bilAmount - b - (request.bilSettled - b) = _
    omega

theorem Request.drawn_user (request : Request) (b v : Nat) :
    (request.drawn b v).user = request.user ∨ request.drawn b v = Request.empty := by
  unfold Request.drawn
  split_ifs
  · exact .inr rfl
  · exact .inl rfl

end Drawn

namespace Redemptions

variable (q : Redemptions)

/-! ## The changes -/

/-- A new request at the tail. -/
def push (user : Address) (shares : Nat) : Redemptions :=
  { q with
    redemptionQueue := Function.update q.redemptionQueue q.queueTail ⟨user, shares, 0, 0⟩
    queueTail := q.queueTail + 1
    totalQueuedBil := q.totalQueuedBil + shares }

/-- A request without its unsettled shares, deleted when nothing of it is settled. -/
def cancelled (i : Nat) : Redemptions :=
  let request := q.redemptionQueue i
  { q with
    redemptionQueue := Function.update q.redemptionQueue i
      (if request.bilSettled = 0 then Request.empty else { request with bilAmount := request.bilSettled })
    totalQueuedBil := q.totalQueuedBil - (request.bilAmount - request.bilSettled) }

/-- The head one further. -/
def passHead : Redemptions := { q with queueHead := q.queueHead + 1 }

/-- `b` more shares of the head request locked for `v` HOLLAR. -/
def lockHead (b v : Nat) : Redemptions :=
  let request := q.redemptionQueue q.queueHead
  { q with
    toQueueStore := q.toQueueStore.lock q.queueHead (request.bilSettled + b) (request.hollarOwed + v)
    totalSettledBil := q.totalSettledBil + b
    totalReservedHollar := q.totalReservedHollar + v }

/-- The last entry of a controller's index removed. -/
def dropLastOf (c : Address) : Redemptions :=
  { q with
    settledByController := Function.update q.settledByController c (q.settledByController c).dropLast }

/-- `b` settled shares and `v` HOLLAR drawn from request `i`, the last of the index of `c`. -/
def drawn (c : Address) (i b v : Nat) : Redemptions :=
  let request := q.redemptionQueue i
  { q with
    redemptionQueue := Function.update q.redemptionQueue i (request.drawn b v)
    settledByController :=
      if request.bilAmount = b ∨ request.bilSettled = b then
        Function.update q.settledByController c (q.settledByController c).dropLast
      else q.settledByController
    totalQueuedBil := q.totalQueuedBil - b
    totalSettledBil := q.totalSettledBil - b
    totalReservedHollar := q.totalReservedHollar - v }

end Redemptions

/-- Nothing of the entry is left to settle. -/
def Request.Done (request : Request) : Prop := request.user = 0 ∨ request.bilSettled = request.bilAmount

/-- A settlement step at `rate`: the head passes an entry that is done, or locks shares of a
pending one at the rate, rounded down. -/
inductive Fill (rate : Nat) : Redemptions → Redemptions → Prop
  | pass {q : Redemptions} : q.queueHead < q.queueTail → (q.redemptionQueue q.queueHead).Done → Fill rate q q.passHead
  | lock {q : Redemptions} (b : Nat) : q.queueHead < q.queueTail → (q.redemptionQueue q.queueHead).user ≠ 0 →
      0 < b → (q.redemptionQueue q.queueHead).bilSettled + b ≤ (q.redemptionQueue q.queueHead).bilAmount →
      Fill rate q (q.lockHead b (b * rate / wad))

/-- The entries a walk by `u` evicts from the index of `c` without drawing on them. -/
def ClaimUnit.Stale (u : ClaimUnit) (c : Address) (request : Request) : Prop :=
  request.user ≠ c ∨ u.counted request = 0

/-- A step of a claim by `c` in the unit `u`, at the last entry of the index. Drawing all settled
shares of a request draws all its HOLLAR. -/
inductive Draw (u : ClaimUnit) (c : Address) : Redemptions → Redemptions → Prop
  | draw {q : Redemptions} (i b v : Nat) : (q.settledByController c).getLast? = some i →
      (q.redemptionQueue i).user = c → b ≤ (q.redemptionQueue i).bilSettled → b ≤ (q.redemptionQueue i).bilAmount →
      v ≤ (q.redemptionQueue i).hollarOwed →
      (0 < (q.redemptionQueue i).bilSettled → b = (q.redemptionQueue i).bilSettled →
        v = (q.redemptionQueue i).hollarOwed) →
      Draw u c q (q.drawn c i b v)
  | evict {q : Redemptions} (i : Nat) : (q.settledByController c).getLast? = some i →
      u.Stale c (q.redemptionQueue i) → Draw u c q (q.dropLastOf c)

/-- One change of the queue. -/
inductive QueueMove : Redemptions → Redemptions → Prop
  | push {q : Redemptions} (user : Address) (shares : Nat) : user ≠ 0 → 0 < shares → QueueMove q (q.push user shares)
  | cancel {q : Redemptions} (i : Nat) : i < q.queueTail → (q.redemptionQueue i).user ≠ 0 →
      (q.redemptionQueue i).bilSettled ≤ (q.redemptionQueue i).bilAmount → QueueMove q (q.cancelled i)
  | fill {q q' : Redemptions} {rate : Nat} : Fill rate q q' → QueueMove q q'
  | draw {q q' : Redemptions} {u : ClaimUnit} {c : Address} : Draw u c q q' → QueueMove q q'

theorem fills_moves {rate : Nat} {q q' : Redemptions} (h : ReflTransGen (Fill rate) q q') :
    ReflTransGen QueueMove q q' :=
  ReflTransGen.mono (fun _ _ hf => QueueMove.fill hf) _ _ h

theorem draws_moves {u : ClaimUnit} {c : Address} {q q' : Redemptions} (h : ReflTransGen (Draw u c) q q') :
    ReflTransGen QueueMove q q' :=
  ReflTransGen.mono (fun _ _ hd => QueueMove.draw hd) _ _ h

/-! ## What fills leave alone -/

theorem Fill.frame {rate : Nat} {q q' : Redemptions} (h : Fill rate q q') :
    q'.queueTail = q.queueTail ∧ q'.totalQueuedBil = q.totalQueuedBil := by
  cases h <;> exact ⟨rfl, rfl⟩

/-- Fills escrow nothing more, and what they settle they pay for at the rate, rounded down. -/
theorem fills_totals {rate : Nat} {q q' : Redemptions} (h : ReflTransGen (Fill rate) q q') :
    q'.totalQueuedBil = q.totalQueuedBil ∧ q.totalSettledBil ≤ q'.totalSettledBil ∧
      q.totalReservedHollar ≤ q'.totalReservedHollar ∧
      (q'.totalReservedHollar - q.totalReservedHollar) * wad ≤ (q'.totalSettledBil - q.totalSettledBil) * rate := by
  induction h with
  | refl => simp
  | tail _ hf ih =>
    obtain ⟨hq, hs, hr, hv⟩ := ih
    rename_i q₁ q₂ _
    refine ⟨hf.frame.2.trans hq, ?_⟩
    cases hf with
    | pass _ _ => exact ⟨hs, hr, hv⟩
    | lock b _ _ _ _ =>
      simp only [Redemptions.lockHead]
      refine ⟨Nat.le_add_right_of_le hs, Nat.le_add_right_of_le hr, ?_⟩
      have hb : b * rate / wad * wad ≤ b * rate := Nat.div_mul_le_self _ _
      rw [Nat.sub_add_comm hr, Nat.sub_add_comm hs, Nat.add_mul, Nat.add_mul]
      exact Nat.add_le_add hv hb

/-! ## Settlement -/

/-- The queue as a settlement run that started from `q` has it. -/
def SettleRun.onto (r : SettleRun) (q : Redemptions) : Redemptions :=
  { q with
    toQueueStore := r.toQueueStore
    queueHead := r.newQueueHead
    totalSettledBil := q.totalSettledBil + r.bilLocked
    totalReservedHollar := q.totalReservedHollar + r.hollarUsed }

/-- What one pass of the settlement loop does, and the budget it uses. -/
inductive SettleStep (queueTail rate maxIterations maxSkips : Nat) (r : SettleRun) : SettleRun → Prop
  | skip : r.cursor < queueTail → r.iterations < maxIterations → r.skips < maxSkips →
      (r.redemptionQueue r.cursor).Done → SettleStep queueTail rate maxIterations maxSkips r r.skip
  | full (pending hollarValue : Nat) : r.cursor < queueTail → r.iterations < maxIterations → r.skips < maxSkips →
      (r.redemptionQueue r.cursor).user ≠ 0 → 0 < pending →
      (r.redemptionQueue r.cursor).bilSettled + pending = (r.redemptionQueue r.cursor).bilAmount →
      hollarValue = pending * rate / wad → 0 < hollarValue → hollarValue ≤ r.available →
      SettleStep queueTail rate maxIterations maxSkips r
        { toQueueStore := r.lock r.cursor ((r.redemptionQueue r.cursor).bilSettled + pending)
            ((r.redemptionQueue r.cursor).hollarOwed + hollarValue)
          newQueueHead := r.headPast, hollarUsed := r.hollarUsed + hollarValue, bilLocked := r.bilLocked + pending,
          available := r.available - hollarValue, iterations := r.iterations + 1, skips := r.skips,
          cursor := r.cursor + 1 }
  | part (pending b : Nat) : r.cursor < queueTail → r.iterations < maxIterations → r.skips < maxSkips →
      (r.redemptionQueue r.cursor).user ≠ 0 →
      (r.redemptionQueue r.cursor).bilSettled + pending = (r.redemptionQueue r.cursor).bilAmount →
      r.available < pending * rate / wad → b = r.available * wad / rate → 0 < b →
      SettleStep queueTail rate maxIterations maxSkips r
        { toQueueStore := r.lock r.cursor ((r.redemptionQueue r.cursor).bilSettled + b)
            ((r.redemptionQueue r.cursor).hollarOwed + b * rate / wad)
          newQueueHead := r.newQueueHead, hollarUsed := r.hollarUsed + b * rate / wad, bilLocked := r.bilLocked + b,
          available := 0, iterations := r.iterations + 1, skips := r.skips, cursor := r.cursor }

section Settle

variable {queueTail rate maxIterations maxSkips : Nat} {r r' : SettleRun}

theorem settlePass_again (h : settlePass queueTail rate maxIterations maxSkips wad r = .ok (.again r')) :
    SettleStep queueTail rate maxIterations maxSkips r r' := by
  unfold settlePass at h
  dsimp only at h
  split_ifs at h with hguard hhole hdone
  · cases h
    exact .skip hguard.1 hguard.2.1 hguard.2.2 (.inl hhole)
  · cases h
    exact .skip hguard.1 hguard.2.1 hguard.2.2 (.inr hdone)
  · cases h
  · simp only [bind_ok_iff, checkedSub_ok_iff, checkedMul_ok_iff, checkedDiv_ok_iff] at h
    obtain ⟨pending, ⟨hle, rfl⟩, _, ⟨-, rfl⟩, hollarValue, ⟨-, rfl⟩, h⟩ := h
    split_ifs at h with hzero hfits
    · cases h
    · simp only [bind_ok_iff, checkedAdd_ok_iff, checkedSub_ok_iff, pure_ok_iff, Pass.again.injEq] at h
      obtain ⟨_, ⟨-, rfl⟩, _, ⟨-, rfl⟩, _, ⟨-, rfl⟩, _, ⟨-, rfl⟩, rfl⟩ := h
      have hsum := Nat.add_sub_cancel' hle
      have := @SettleStep.full queueTail rate maxIterations maxSkips r _ _ hguard.1 hguard.2.1 hguard.2.2 hhole
        (by omega) hsum rfl
        (Nat.pos_of_ne_zero hzero) hfits
      rwa [hsum] at this
    · simp only [bind_ok_iff, checkedMul_ok_iff, checkedDiv_ok_iff] at h
      obtain ⟨_, ⟨-, rfl⟩, b, ⟨-, rfl⟩, h⟩ := h
      split_ifs at h with hb
      · cases h
      · simp only [bind_ok_iff, checkedAdd_ok_iff, checkedMul_ok_iff, checkedDiv_ok_iff, pure_ok_iff,
          Pass.again.injEq] at h
        obtain ⟨_, ⟨-, rfl⟩, _, ⟨-, rfl⟩, _, ⟨-, rfl⟩, _, ⟨-, rfl⟩, _, ⟨-, rfl⟩, _, ⟨-, rfl⟩, rfl⟩ := h
        exact .part _ _ hguard.1 hguard.2.1 hguard.2.2 hhole (Nat.add_sub_cancel' hle) (by omega) rfl
          (Nat.pos_of_ne_zero hb)
  · cases h

/-- A stopping pass changes nothing but the iteration count. -/
theorem settlePass_stop (h : settlePass queueTail rate maxIterations maxSkips wad r = .ok (.stop r')) :
    r' = r ∨ r' = { r with iterations := r.iterations + 1 } := by
  unfold settlePass at h
  dsimp only at h
  split_ifs at h
  · cases h
  · cases h
  · cases h; exact .inl rfl
  · simp only [bind_ok_iff] at h
    obtain ⟨_, -, _, -, _, -, h⟩ := h
    split_ifs at h
    · cases h; exact .inr rfl
    · simp only [bind_ok_iff, pure_ok_iff, reduceCtorEq, and_false, exists_false] at h
    · simp only [bind_ok_iff] at h
      obtain ⟨_, -, _, -, h⟩ := h
      split_ifs at h
      · cases h; exact .inr rfl
      · simp only [bind_ok_iff, pure_ok_iff, reduceCtorEq, and_false, exists_false] at h
  · cases h; exact .inl rfl

theorem SettleRun.headPast_eq (h : r.cursor = r.newQueueHead) : r.headPast = r.newQueueHead + 1 := if_pos h

/-- One pass is one or two fills, its cursor stays at the head, and it uses only what it was given. -/
theorem SettleStep.fills {q : Redemptions} (hs : SettleStep q.queueTail rate maxIterations maxSkips r r')
    (hc : r.cursor = r.newQueueHead) :
    ReflTransGen (Fill rate) (r.onto q) (r'.onto q) ∧ r'.cursor = r'.newQueueHead ∧
      r'.hollarUsed + r'.available ≤ r.hollarUsed + r.available := by
  cases hs with
  | skip hlt _ _ hdone =>
    have hp : Fill rate (r.onto q) (r.onto q).passHead :=
      .pass (by rw [hc] at hlt; exact hlt) (by rw [hc] at hdone; exact hdone)
    refine ⟨.single ?_, ?_, le_refl _⟩
    · rw [show r.skip.onto q = (r.onto q).passHead by simp [SettleRun.onto, SettleRun.skip, Redemptions.passHead,
        SettleRun.headPast_eq hc]]
      exact hp
    · show r.cursor + 1 = r.headPast
      rw [SettleRun.headPast_eq hc, hc]
  | full pending hollarValue hlt _ _ huser hpos hsum hval hvpos hfits =>
    rw [hc] at hlt huser hsum
    have hl : Fill rate (r.onto q) ((r.onto q).lockHead pending (pending * rate / wad)) :=
      .lock pending hlt huser hpos (le_of_eq hsum)
    have hp := @Fill.pass rate ((r.onto q).lockHead pending (pending * rate / wad)) hlt
      (.inr (by simp only [Redemptions.lockHead, QueueStore.lock, Function.update_self]; exact hsum))
    refine ⟨(ReflTransGen.single hl).tail ?_, ?_, ?_⟩
    · subst hval
      convert hp using 1
      simp [SettleRun.onto, Redemptions.passHead, Redemptions.lockHead, SettleRun.headPast_eq hc, hc, add_assoc]
    · show r.cursor + 1 = r.headPast
      rw [SettleRun.headPast_eq hc, hc]
    · show r.hollarUsed + hollarValue + (r.available - hollarValue) ≤ _
      omega
  | part pending b hlt _ _ huser hsum hshort hb hpos =>
    have hcover : b * rate ≤ r.available * wad := by rw [hb]; exact Nat.div_mul_le_self _ _
    have hfit : b * rate / wad ≤ r.available := Nat.div_le_of_le_mul (by rw [mul_comm wad]; exact hcover)
    -- the shares the rest buys are fewer than the pending ones, which cost more than the rest
    have hless : b < pending := by
      have h1 : r.available * wad < pending * rate :=
        lt_of_lt_of_le (Nat.mul_lt_mul_of_pos_right hshort (by decide)) (Nat.div_mul_le_self _ _)
      exact Nat.lt_of_mul_lt_mul_right (lt_of_le_of_lt hcover h1)
    rw [hc] at hlt huser hsum
    have hl : Fill rate (r.onto q) ((r.onto q).lockHead b (b * rate / wad)) :=
      .lock b hlt huser hpos (le_trans (Nat.add_le_add_left hless.le _) (le_of_eq hsum))
    refine ⟨.single ?_, hc, ?_⟩
    · convert hl using 1
      simp [SettleRun.onto, Redemptions.lockHead, hc, add_assoc]
    · show r.hollarUsed + b * rate / wad + 0 ≤ _
      omega

/-- A settlement is a sequence of fills, and reserves no more than it was offered. -/
theorem processQueue_fills {q : Redemptions} {available : Nat}
    (h : processQueue q.toQueueStore q.queueHead q.queueTail available rate maxIterations maxSkips wad = .ok r) :
    ReflTransGen (Fill rate) q (r.onto q) ∧ r.hollarUsed ≤ available := by
  have key := loop_invariant
    (I := fun r : SettleRun => ReflTransGen (Fill rate) q (r.onto q) ∧ r.cursor = r.newQueueHead ∧
      r.hollarUsed + r.available ≤ available)
    (fun r r' hi hp => by
      rcases settlePass_stop hp with rfl | rfl
      · exact hi
      · exact hi)
    -- the cursor stays at the head: an entry is only left behind when it is done
    (fun r r' ⟨hf, hc, hu⟩ hp => by
      obtain ⟨hf', hc', hu'⟩ := (settlePass_again hp).fills hc
      exact ⟨hf.trans hf', hc', le_trans hu' hu⟩)
    ⟨.refl, rfl, (Nat.zero_add available).le⟩ h
  exact ⟨key.1, by have := key.2.2; omega⟩

end Settle

/-! ## The head sweep of a cancel -/

/-- Sweeping the head is passing holes. -/
theorem advanceQueueHead_fills (rate : Nat) : ∀ (n : Nat) (q : Redemptions),
    ReflTransGen (Fill rate) q { q with queueHead := advanceQueueHead q.redemptionQueue q.queueTail n q.queueHead }
  | 0, q => .refl
  | n + 1, q => by
    unfold advanceQueueHead
    split_ifs with h
    · exact .head (.pass h.1 (.inl h.2)) (advanceQueueHead_fills rate n q.passHead)
    · exact .refl

/-! ## Claims -/

/-- The queue as a claim walk of `c` that started from `q` has it. -/
def ClaimRun.onto (r : ClaimRun) (q : Redemptions) (c : Address) : Redemptions :=
  { q with
    toQueueStore := r.store q.toQueueStore c
    totalQueuedBil := q.totalQueuedBil - r.shares
    totalSettledBil := q.totalSettledBil - r.shares
    totalReservedHollar := q.totalReservedHollar - r.assets }

/-- What one pass of a claim walk at the end of the index does. -/
inductive ClaimStep (u : ClaimUnit) (c : Address) (r : ClaimRun) : ClaimRun → Prop
  | evict (i : Nat) : 0 < r.remaining → r.ids.getLast? = some i → u.Stale c (r.redemptionQueue i) →
      ClaimStep u c r { r with ids := r.ids.dropLast, j := r.j - 1 }
  | draw (i take proRata b v : Nat) : 0 < r.remaining → r.ids.getLast? = some i →
      ¬ u.Stale c (r.redemptionQueue i) → take = u.take (r.redemptionQueue i) r.remaining →
      proRata = take * u.paired (r.redemptionQueue i) / u.counted (r.redemptionQueue i) →
      b = u.sharesTake take proRata → v = u.hollarTake take proRata →
      b ≤ (r.redemptionQueue i).bilSettled → b ≤ (r.redemptionQueue i).bilAmount →
        v ≤ (r.redemptionQueue i).hollarOwed →
      ClaimStep u c r
        { redemptionQueue := Function.update r.redemptionQueue i ((r.redemptionQueue i).drawn b v)
          ids := if (r.redemptionQueue i).bilAmount = b ∨ (r.redemptionQueue i).bilSettled = b then r.ids.dropLast
            else r.ids
          j := r.j - 1, remaining := r.remaining - take, shares := r.shares + b, assets := r.assets + v }

section Claim

variable {u : ClaimUnit} {c : Address} {r r' : ClaimRun}

/-- Removing the last entry. -/
theorem swapPop_last {arr : List Nat} (h : 0 < arr.length) : swapPop arr (arr.length - 1) = .ok arr.dropLast := by
  simp only [swapPop, checkedSub, if_pos (Nat.one_le_iff_ne_zero.2 h.ne')]
  show (if arr.length - 1 ≠ arr.length - 1 then _ else _) = _
  rw [if_neg (not_not.2 rfl)]
  rfl

theorem ClaimRun.draw_last {i b v : Nat} {queue : Nat → Request} {ids : List Nat} (hlen : 0 < r.ids.length)
    (h : r.draw (r.ids.length - 1) i b v = .ok (queue, ids)) :
    b ≤ (r.redemptionQueue i).bilSettled ∧ b ≤ (r.redemptionQueue i).bilAmount ∧ v ≤ (r.redemptionQueue i).hollarOwed ∧
      queue = Function.update r.redemptionQueue i ((r.redemptionQueue i).drawn b v) ∧
      ids = if (r.redemptionQueue i).bilAmount = b ∨
        (r.redemptionQueue i).bilSettled = b then r.ids.dropLast else r.ids := by
  simp only [ClaimRun.draw, swapPop_last hlen, bind_ok_iff, checkedSub_ok_iff] at h
  obtain ⟨_, ⟨hs, rfl⟩, _, ⟨ho, rfl⟩, _, ⟨ha, rfl⟩, h⟩ := h
  refine ⟨hs, ha, ho, ?_⟩
  split_ifs at h with hz hz'
  · simp only [bind_ok_iff, pure_ok_iff, Prod.mk.injEq, Except.ok.injEq] at h
    obtain ⟨_, rfl, rfl, rfl⟩ := h
    have : (r.redemptionQueue i).bilAmount = b := by omega
    rw [Request.drawn, if_pos this, if_pos (.inl this)]
    exact ⟨rfl, rfl⟩
  · simp only [bind_ok_iff, pure_ok_iff, Prod.mk.injEq, Except.ok.injEq] at h
    obtain ⟨_, rfl, rfl, rfl⟩ := h
    rw [Request.drawn, if_neg (by omega), if_pos (.inr (by omega))]
    exact ⟨rfl, rfl⟩
  · simp only [pure_ok_iff, Prod.mk.injEq] at h
    obtain ⟨rfl, rfl⟩ := h
    rw [Request.drawn, if_neg (by omega), if_neg (by omega)]
    exact ⟨rfl, rfl⟩

/-- While something remains to be claimed, a walk is at the end of the index. -/
def ClaimRun.AtEnd (r : ClaimRun) : Prop := 0 < r.remaining → r.ids.length = r.j

theorem claimPass_again (hend : r.AtEnd) (h : claimPass u c r = .ok (.again r')) : ClaimStep u c r r' := by
  unfold claimPass at h
  dsimp only at h
  split at h
  · rename_i hguard
    have hlen := hend hguard.2
    have hpos : 0 < r.ids.length := by omega
    simp only [bind_ok_iff, readAt_ok_iff, ← hlen] at h
    obtain ⟨i, hi, h⟩ := h
    have hlast : r.ids.getLast? = some i := by rw [List.getLast?_eq_getElem?]; exact hi
    split at h
    · rename_i hstale
      simp only [bind_ok_iff, swapPop_last hpos, pure_ok_iff, Except.ok.injEq, Pass.again.injEq] at h
      obtain ⟨_, rfl, rfl⟩ := h
      rw [hlen]
      exact .evict i hguard.2 hlast hstale
    · rename_i hstale
      simp only [bind_ok_iff, checkedMul_ok_iff, checkedDiv_ok_iff, checkedAdd_ok_iff, checkedSub_ok_iff] at h
      obtain ⟨_, ⟨-, rfl⟩, proRata, ⟨-, hpro⟩, ⟨queue, ids⟩, hdraw, h⟩ := h
      obtain ⟨hb, hb', hv, rfl, rfl⟩ := ClaimRun.draw_last hpos hdraw
      obtain ⟨_, ⟨-, rfl⟩, shares, hshares, _, ⟨-, rfl⟩, h⟩ := h
      rw [pure_ok_iff, Pass.again.injEq] at h
      have hs : r.shares + u.sharesTake (u.take (r.redemptionQueue i) r.remaining) proRata = shares := by
        cases u with
        | shares => exact Except.ok.inj hshares
        | assets => exact (checkedAdd_ok_iff.1 hshares).2
      subst hs
      rw [← h, hlen]
      exact .draw i _ _ _ _ hguard.2 hlast hstale rfl hpro.symm rfl rfl hb hb' hv
  · cases h

/-- A stopping pass changes nothing: its guard failed. -/
theorem claimPass_stop (h : claimPass u c r = .ok (.stop r')) : r' = r ∧ ¬ (0 < r.j ∧ 0 < r.remaining) := by
  unfold claimPass at h
  dsimp only at h
  split at h
  · simp only [bind_ok_iff] at h
    obtain ⟨i, -, h⟩ := h
    split at h
    · simp only [bind_ok_iff, pure_ok_iff, reduceCtorEq, and_false, exists_false] at h
    · simp only [bind_ok_iff, pure_ok_iff, reduceCtorEq, and_false, exists_false] at h
  · rename_i hguard
    cases h
    exact ⟨rfl, hguard⟩

/-- What a walk has claimed so far in its unit. -/
def ClaimRun.claimed (r : ClaimRun) : ClaimUnit → Nat
  | .shares => r.shares
  | .assets => r.assets

theorem ClaimUnit.take_le_counted (request : Request) (remaining : Nat) :
    u.take request remaining ≤ u.counted request := by
  unfold ClaimUnit.take; split_ifs <;> omega

theorem ClaimUnit.take_le_remaining (request : Request) (remaining : Nat) : u.take request remaining ≤ remaining := by
  unfold ClaimUnit.take; split_ifs <;> omega

/-- A walk that goes on after a request has taken all of it. -/
theorem ClaimUnit.take_all {request : Request} {remaining : Nat} (h : 0 < remaining - u.take request remaining) :
    u.take request remaining = u.counted request := by
  unfold ClaimUnit.take at h ⊢; split_ifs at h ⊢ <;> omega

/-- Taking all of the counted amount draws all of both. -/
theorem ClaimUnit.drawn_all {request : Request} (hpos : u.counted request ≠ 0) :
    u.sharesTake (u.counted request) (u.counted request * u.paired request / u.counted request) = request.bilSettled ∧
      u.hollarTake (u.counted request) (u.counted request * u.paired request / u.counted request) =
        request.hollarOwed := by
  rw [Nat.mul_div_cancel_left _ (Nat.pos_of_ne_zero hpos)]
  cases u with
  | shares => exact ⟨rfl, rfl⟩
  | assets => exact ⟨rfl, rfl⟩

/-- A draw after which something remains to be claimed drains its request. -/
theorem ClaimUnit.drains {request : Request} {remaining take proRata b v : Nat} (hpos : u.counted request ≠ 0)
    (htake : take = u.take request remaining) (hpro : proRata = take * u.paired request / u.counted request)
    (hb : b = u.sharesTake take proRata) (hv : v = u.hollarTake take proRata) (hgo : 0 < remaining - take) :
    take = u.counted request ∧ b = request.bilSettled ∧ v = request.hollarOwed := by
  have hfull : take = u.counted request := by
    rw [htake] at hgo ⊢
    exact ClaimUnit.take_all hgo
  obtain ⟨hshares, hhollar⟩ := ClaimUnit.drawn_all hpos
  rw [hb, hv, hpro, hfull]
  exact ⟨rfl, hshares, hhollar⟩

/-- Drawing all settled shares draws all the HOLLAR. -/
theorem ClaimUnit.drawn_shares {request : Request} {take : Nat} (hpos : u.counted request ≠ 0)
    (hle : take ≤ u.counted request) (hs : 0 < request.bilSettled)
    (hb : u.sharesTake take (take * u.paired request / u.counted request) = request.bilSettled) :
    u.hollarTake take (take * u.paired request / u.counted request) = request.hollarOwed := by
  rcases eq_or_lt_of_le hle with rfl | hlt
  · exact (ClaimUnit.drawn_all hpos).2
  · cases u with
    | shares => exact absurd hb hlt.ne
    | assets =>
      have : take * request.bilSettled / request.hollarOwed < request.bilSettled :=
        Nat.div_lt_of_lt_mul (Nat.mul_lt_mul_of_pos_right hlt hs)
      exact absurd hb this.ne

/-- One pass of a walk is one draw of the queue. -/
theorem ClaimStep.draw_onto (q : Redemptions) (hs : ClaimStep u c r r') : Draw u c (r.onto q c) (r'.onto q c) := by
  cases hs with
  | evict i hrem hlast hstale =>
    have := Draw.evict (q := r.onto q c) (u := u) (c := c) i
      (by simpa [ClaimRun.onto, ClaimRun.store] using hlast) hstale
    simpa [Redemptions.dropLastOf, ClaimRun.onto, ClaimRun.store] using this
  | draw i take proRata b v hrem hlast hstale htake hpro hb hv hbs hba hvo =>
    have hpos : u.counted (r.redemptionQueue i) ≠ 0 := fun h => hstale (.inr h)
    have huser : (r.redemptionQueue i).user = c := by
      by_contra h; exact hstale (.inl h)
    have hall : 0 < (r.redemptionQueue i).bilSettled → b = (r.redemptionQueue i).bilSettled →
        v = (r.redemptionQueue i).hollarOwed := by
      intro hsettled hball
      subst htake hpro hb hv
      exact ClaimUnit.drawn_shares hpos (ClaimUnit.take_le_counted ..) hsettled hball
    have := Draw.draw (q := r.onto q c) (u := u) (c := c) i b v (by simpa [ClaimRun.onto, ClaimRun.store] using hlast)
      huser hbs hba hvo hall
    convert this using 1
    simp only [ClaimRun.onto, ClaimRun.store, Redemptions.drawn, Function.update_self, Function.update_idem,
      Nat.sub_add_eq]
    split_ifs <;> rfl

/-- A pass keeps the walk at the end of the index and the count of what is claimed. -/
theorem ClaimStep.counts {amount : Nat} (hs : ClaimStep u c r r') (hend : r.AtEnd)
    (hsum : r.claimed u + r.remaining = amount) : r'.AtEnd ∧ r'.claimed u + r'.remaining = amount := by
  cases hs with
  | evict i hrem hlast hstale =>
    refine ⟨fun h => ?_, hsum⟩
    show r.ids.dropLast.length = r.j - 1
    rw [List.length_dropLast, hend h]
  | draw i take proRata b v hrem hlast hstale htake hpro hb hv hbs hba hvo =>
    have hpos : u.counted (r.redemptionQueue i) ≠ 0 := fun h => hstale (.inr h)
    constructor
    · intro h
      obtain ⟨-, hbfull, -⟩ := ClaimUnit.drains hpos htake hpro hb hv h
      show (if _ then r.ids.dropLast else r.ids).length = r.j - 1
      rw [if_pos (.inr hbfull.symm), List.length_dropLast, hend hrem]
    · have hle : take ≤ r.remaining := by rw [htake]; exact ClaimUnit.take_le_remaining ..
      cases u with
      | shares =>
        have : r.shares + r.remaining = amount := hsum
        show r.shares + b + (r.remaining - take) = amount
        have : b = take := hb
        omega
      | assets =>
        have : r.assets + r.remaining = amount := hsum
        show r.assets + v + (r.remaining - take) = amount
        have : v = take := hv
        omega

/-- A walk of the whole index. -/
def ClaimRun.start (q : QueueStore) (c : Address) (amount : Nat) : ClaimRun :=
  ⟨q.redemptionQueue, q.settledByController c, (q.settledByController c).length, amount, 0, 0⟩

@[simp] theorem ClaimRun.start_onto (q : Redemptions) (c : Address) (amount : Nat) :
    (ClaimRun.start q.toQueueStore c amount).onto q c = q := by
  simp [ClaimRun.onto, ClaimRun.store, ClaimRun.start]

theorem claimWalk_eq (u : ClaimUnit) (q : QueueStore) (c : Address) (amount : Nat) : claimWalk u q c amount =
    (loop (claimPass u c) ((q.settledByController c).length + 1) (.start q c amount) >>= fun r =>
      require (r.remaining = 0) (.custom .insufficientClaimable) >>= fun _ => pure r) := rfl

/-- One pass of a walk that goes on. -/
def ClaimRun.Again (u : ClaimUnit) (c : Address) (r r' : ClaimRun) : Prop := claimPass u c r = .ok (.again r')

/-- A claim that succeeds is a walk of the whole index that stops with nothing left to claim. -/
theorem claimWalk_run {q : QueueStore} {amount : Nat} (h : claimWalk u q c amount = .ok r) :
    ReflTransGen (ClaimRun.Again u c) (.start q c amount) r ∧ r.remaining = 0 := by
  rw [claimWalk_eq] at h
  simp only [bind_ok_iff, require_ok_iff, pure_ok_iff] at h
  obtain ⟨r₁, hloop, _, hzero, rfl⟩ := h
  refine ⟨?_, hzero⟩
  exact loop_invariant (I := fun r => ReflTransGen (ClaimRun.Again u c) (.start q c amount) r)
    (fun r r' hi hp => by rw [(claimPass_stop hp).1]; exact hi) (fun r r' hi hp => hi.tail hp) .refl hloop

/-- What a pass at the end of the index keeps, the whole walk keeps. -/
theorem run_invariant {I : ClaimRun → Prop} {r₀ : ClaimRun} (hend : r₀.AtEnd) (hstart : I r₀)
    (hstep : ∀ r r', r.AtEnd → I r → ClaimStep u c r r' → I r') (h : ReflTransGen (ClaimRun.Again u c) r₀ r) :
    r.AtEnd ∧ I r := by
  induction h with
  | refl => exact ⟨hend, hstart⟩
  | tail _ hpass ih =>
    obtain ⟨hend', hi⟩ := ih
    have hs := claimPass_again hend' hpass
    exact ⟨(hs.counts hend' rfl).1, hstep _ _ hend' hi hs⟩

theorem claimWalk_invariant {I : ClaimRun → Prop} {q : QueueStore} {amount : Nat} (hstart : I (.start q c amount))
    (hstep : ∀ r r', r.AtEnd → I r → ClaimStep u c r r' → I r') (h : claimWalk u q c amount = .ok r) :
    I r ∧ r.remaining = 0 := by
  obtain ⟨hrun, hzero⟩ := claimWalk_run h
  exact ⟨(run_invariant (fun _ => rfl) hstart hstep hrun).2, hzero⟩

/-- A claim that succeeds is a sequence of draws and claims exactly the amount asked for. -/
theorem claimWalk_draws {q : Redemptions} {amount : Nat} (h : claimWalk u q.toQueueStore c amount = .ok r) :
    ReflTransGen (Draw u c) q (r.onto q c) ∧ r.claimed u = amount := by
  have key := claimWalk_invariant
    (I := fun r : ClaimRun => ReflTransGen (Draw u c) q (r.onto q c) ∧ r.claimed u + r.remaining = amount)
    ⟨by rw [ClaimRun.start_onto], by cases u <;> exact Nat.zero_add _⟩
    (fun r r' hend ⟨hd, hsum⟩ hs => ⟨hd.tail (hs.draw_onto q), (hs.counts hend hsum).2⟩) h
  obtain ⟨⟨hd, hsum⟩, hzero⟩ := key
  exact ⟨hd, by omega⟩

end Claim

end MoneyMarket
