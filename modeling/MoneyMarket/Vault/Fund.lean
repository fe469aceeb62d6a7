/-
What the vault is for, as a fund (`Fund`): its active shares own the positions and the idle HOLLAR
together, its controllers wait in line, have shares locked at the exchange rate and draw the HOLLAR
later. Every step of the vault is a run of that fund through the events its action stands for, and it
loses no more than the payouts fall short and a unit for each position capped (`vault_refines_fund`).
-/
import MoneyMarket.Lib.Fund
import MoneyMarket.Vault.Authority
import MoneyMarket.Vault.Balance

namespace MoneyMarket

open Evm Relation Transition

/-! ## The fund of a state -/

/-- The shares of a request that wait. -/
def Request.unsettled (request : Request) : Nat := request.bilAmount - request.bilSettled

/-- What a request counts for a controller. -/
def Request.countedFor (f : Request → Nat) (c : Address) (request : Request) : Nat :=
  if request.user = c then f request else 0

/-- What the requests of a controller add up to. -/
def sumOf (f : Request → Nat) (q : Redemptions) (c : Address) : Nat :=
  ∑ i ∈ Finset.range q.queueTail, (q.redemptionQueue i).countedFor f c

/-- The fund of a queue, with the value and the number of the active shares. -/
def Redemptions.fund (q : Redemptions) (value active : Nat) : Fund Address where
  value
  active
  pending := sumOf Request.unsettled q
  locked := settledOf q
  owed := owedOf q

def fundOf (s : State) : Fund Address := s.toRedemptions.fund (activeValue s) (activeSupply s)

section Sums

variable {f : Request → Nat} {q q' : Redemptions} {i : Nat} {request : Request}

/-- A request that is written, or was and is gone, moves what its controller adds up to. -/
theorem sumOf_update (hi : i < q.queueTail)
    (hqueue : q'.redemptionQueue = Function.update q.redemptionQueue i request) (htail : q'.queueTail = q.queueTail)
    (c : Address) :
    sumOf f q' c + (q.redemptionQueue i).countedFor f c = sumOf f q c + request.countedFor f c := by
  unfold sumOf
  rw [hqueue, htail]
  exact Sums.sum_range_update (Request.countedFor f c) q.redemptionQueue request hi

theorem sumOf_kept (hi : i < q.queueTail)
    (hqueue : q'.redemptionQueue = Function.update q.redemptionQueue i request) (htail : q'.queueTail = q.queueTail)
    (hcount : ∀ c, request.countedFor f c = (q.redemptionQueue i).countedFor f c) : sumOf f q' = sumOf f q := by
  funext c
  have hsum := sumOf_update (f := f) hi hqueue htail c
  rw [hcount c] at hsum
  omega

theorem sumOf_gain (hi : i < q.queueTail)
    (hqueue : q'.redemptionQueue = Function.update q.redemptionQueue i request) (htail : q'.queueTail = q.queueTail)
    {m : Address} {n : Nat}
    (hcount : ∀ c, request.countedFor f c = (q.redemptionQueue i).countedFor f c + if m = c then n else 0) :
    sumOf f q' = Function.update (sumOf f q) m (sumOf f q m + n) := by
  funext c
  have hsum := sumOf_update (f := f) hi hqueue htail c
  rw [hcount c] at hsum
  rw [Function.update_apply]
  split_ifs with hc
  · rw [hc, if_pos rfl] at hsum
    rw [hc]
    omega
  · rw [if_neg (Ne.symm hc)] at hsum
    omega

theorem sumOf_loss (hi : i < q.queueTail)
    (hqueue : q'.redemptionQueue = Function.update q.redemptionQueue i request) (htail : q'.queueTail = q.queueTail)
    {m : Address} {n : Nat}
    (hcount : ∀ c, (q.redemptionQueue i).countedFor f c = request.countedFor f c + if m = c then n else 0) :
    sumOf f q' = Function.update (sumOf f q) m (sumOf f q m - n) := by
  funext c
  have hsum := sumOf_update (f := f) hi hqueue htail c
  rw [hcount c] at hsum
  rw [Function.update_apply]
  split_ifs with hc
  · rw [hc, if_pos rfl] at hsum
    rw [hc]
    omega
  · rw [if_neg (Ne.symm hc)] at hsum
    omega

/-- A request is part of what its controller adds up to. -/
theorem le_sumOf (f : Request → Nat) {q : Redemptions} {i : Nat} (hi : i < q.queueTail) :
    f (q.redemptionQueue i) ≤ sumOf f q (q.redemptionQueue i).user := by
  calc f (q.redemptionQueue i) = (q.redemptionQueue i).countedFor f (q.redemptionQueue i).user := (if_pos rfl).symm
    _ ≤ _ := Sums.le_sum_range (fun k => (q.redemptionQueue k).countedFor f (q.redemptionQueue i).user) hi

/-- All controllers together have all the requests. -/
theorem sum_sumOf (f : Request → Nat) (q : Redemptions) :
    ∑ c, sumOf f q c = ∑ i ∈ Finset.range q.queueTail, f (q.redemptionQueue i) := by
  unfold sumOf Request.countedFor
  rw [Finset.sum_comm]
  apply Finset.sum_congr rfl
  intro i _
  rw [Finset.sum_ite_eq, if_pos (Finset.mem_univ _)]

theorem Request.countedFor_empty (f : Request → Nat) (hf : f .empty = 0) (c : Address) :
    Request.empty.countedFor f c = 0 := by
  unfold Request.countedFor
  rw [hf, ite_self]

end Sums

/-! ## The queue -/

section Queue

variable {q q' : Redemptions} {i : Nat}

/-- Of a request of the same controller only the count can differ. -/
theorem Request.countedFor_gain {f : Request → Nat} {request old : Request} {n : Nat} (huser : request.user = old.user)
    (hf : f request = f old + n) (c : Address) :
    request.countedFor f c = old.countedFor f c + if old.user = c then n else 0 := by
  unfold Request.countedFor
  rw [huser, hf]
  split_ifs <;> rfl

/-- A lock at the head is a lock of the fund. -/
theorem fund_lockHead {rate b value active : Nat} (hhead : q.queueHead < q.queueTail)
    (hle : (q.redemptionQueue q.queueHead).bilSettled + b ≤ (q.redemptionQueue q.queueHead).bilAmount) :
    (q.lockHead b (b * rate / wad)).fund (value - b * rate / wad) (active - b) =
      (q.fund value active).lock wad rate (q.redemptionQueue q.queueHead).user b := by
  set old := q.redemptionQueue q.queueHead with hold
  have hqueue : (q.lockHead b (b * rate / wad)).redemptionQueue = Function.update q.redemptionQueue q.queueHead
      { old with bilSettled := old.bilSettled + b, hollarOwed := old.hollarOwed + b * rate / wad } := rfl
  have hpending := sumOf_loss (f := Request.unsettled) (n := b) hhead hqueue rfl (Request.countedFor_gain rfl (by
    show old.bilAmount - old.bilSettled = old.bilAmount - (old.bilSettled + b) + b
    omega))
  have hlocked : settledOf _ = Function.update (settledOf q) _ _ :=
    sumOf_gain (f := Request.bilSettled) hhead hqueue rfl (Request.countedFor_gain rfl rfl)
  have howed : owedOf _ = Function.update (owedOf q) _ _ :=
    sumOf_gain (f := Request.hollarOwed) hhead hqueue rfl (Request.countedFor_gain rfl rfl)
  unfold Redemptions.fund Fund.lock
  rw [hpending, hlocked, howed]
  rfl

/-- A request at the tail adds to what its controller adds up to. -/
theorem sumOf_push (f : Request → Nat) (q : Redemptions) (controller : Address) (shares : Nat) (c : Address) :
    sumOf f (q.push controller shares) c = sumOf f q c + Request.countedFor f c ⟨controller, shares, 0, 0⟩ := by
  unfold sumOf
  show ∑ k ∈ Finset.range (q.queueTail + 1), _ = _
  rw [Finset.sum_range_succ]
  congr 1
  · apply Finset.sum_congr rfl
    intro k hk
    show (Function.update q.redemptionQueue q.queueTail _ k).countedFor f c = _
    rw [Function.update_of_ne (Finset.mem_range.1 hk).ne]
  · show (Function.update q.redemptionQueue q.queueTail _ q.queueTail).countedFor f c = _
    rw [Function.update_self]

/-- A request is one more in the line of the fund. -/
theorem fund_push (q : Redemptions) (controller : Address) (shares value active : Nat) :
    Fund.Step wad (q.fund value active) (.ask controller shares) ((q.push controller shares).fund value active) := by
  have hpending : sumOf Request.unsettled (q.push controller shares) =
      Function.update (sumOf Request.unsettled q) controller (sumOf Request.unsettled q controller + shares) := by
    refine Function.eq_update_iff.2 ⟨?_, fun c hc => ?_⟩
    · rw [sumOf_push, Request.countedFor, if_pos rfl]
      rfl
    · rw [sumOf_push, Request.countedFor, if_neg (Ne.symm hc), Nat.add_zero]
  have hnone : ∀ f : Request → Nat, f ⟨controller, shares, 0, 0⟩ = 0 → sumOf f (q.push controller shares) = sumOf f q := by
    intro f hf
    funext c
    rw [sumOf_push, Request.countedFor, hf, ite_self, Nat.add_zero]
  have hlocked : settledOf (q.push controller shares) = settledOf q := hnone Request.bilSettled rfl
  have howed : owedOf (q.push controller shares) = owedOf q := hnone Request.hollarOwed rfl
  unfold Redemptions.fund
  rw [hpending, hlocked, howed]
  exact .ask controller shares

/-- A deleted request counts what its settled part would. -/
theorem Request.countedFor_cancelled {f : Request → Nat} {old : Request} (hempty : f .empty = 0)
    (hzero : old.bilSettled = 0 → f { old with bilAmount := old.bilSettled } = 0) (c : Address) :
    (if old.bilSettled = 0 then .empty else { old with bilAmount := old.bilSettled } : Request).countedFor f c =
      Request.countedFor f c { old with bilAmount := old.bilSettled } := by
  split_ifs with hsettled
  · rw [Request.countedFor_empty f hempty, Request.countedFor, hzero hsettled, ite_self]
  · rfl

/-- A cancel takes what waits out of the line. -/
theorem fund_cancelled (hl : QueueLedger q) (huser : (q.redemptionQueue i).user ≠ 0) (head value active : Nat) :
    Fund.Step wad (q.fund value active) (.retract (q.redemptionQueue i).user (q.redemptionQueue i).unsettled)
      (Redemptions.fund { q.cancelled i with queueHead := head } value active) := by
  set old := q.redemptionQueue i with hold
  have hi := hl.lt_tail huser
  have hqueue : (q.cancelled i).redemptionQueue = Function.update q.redemptionQueue i
      (if old.bilSettled = 0 then .empty else { old with bilAmount := old.bilSettled }) := rfl
  have hpending : sumOf Request.unsettled { q.cancelled i with queueHead := head } = _ :=
    sumOf_loss (m := old.user) (n := old.unsettled) hi hqueue rfl fun c => by
      rw [Request.countedFor_cancelled rfl fun _ => Nat.sub_self _]
      have hcut : Request.unsettled { old with bilAmount := old.bilSettled } = 0 := Nat.sub_self _
      unfold Request.countedFor
      rw [hcut, ite_self, Nat.zero_add]
  have hlocked : settledOf { q.cancelled i with queueHead := head } = settledOf q :=
    sumOf_kept hi hqueue rfl fun c => Request.countedFor_cancelled rfl id c
  have howed : owedOf { q.cancelled i with queueHead := head } = owedOf q :=
    sumOf_kept hi hqueue rfl fun c => Request.countedFor_cancelled rfl (hl.live i huser).unowed c
  unfold Redemptions.fund
  rw [hpending, hlocked, howed]
  exact .retract old.user old.unsettled (le_sumOf Request.unsettled hi)

/-- A settlement is one of the fund, at the same rate. -/
theorem fund_fills {rate : Nat} (hfills : ReflTransGen (Fill rate) q q') : ∀ value active : Nat, QueueLedger q →
    q'.totalReservedHollar ≤ q.totalReservedHollar + value → q'.totalSettledBil ≤ q.totalSettledBil + active →
      ∃ locks, Fund.Locks wad rate (q.fund value active) locks
        (q'.fund (q.totalReservedHollar + value - q'.totalReservedHollar)
          (q.totalSettledBil + active - q'.totalSettledBil)) := by
  induction hfills using ReflTransGen.head_induction_on with
  | refl =>
    intro value active _ _ _
    rw [Nat.add_sub_cancel_left, Nat.add_sub_cancel_left]
    exact ⟨[], .nil _⟩
  | @head q q₁ hfill hrest ih =>
    intro value active hl hvalue hactive
    have hl₁ := hl.fill hfill
    obtain ⟨-, hsettled, hreserved, -⟩ := fills_totals hrest
    cases hfill with
    | pass _ _ => exact ih value active hl₁ hvalue hactive
    | lock b hhead huser hpos hle =>
      have hsettled : q.totalSettledBil + b ≤ q'.totalSettledBil := hsettled
      have hreserved : q.totalReservedHollar + b * rate / wad ≤ q'.totalReservedHollar := hreserved
      have hcash : b * rate / wad ≤ value := by omega
      have hshares : b ≤ active := by omega
      have hwaits : b ≤ sumOf Request.unsettled q (q.redemptionQueue q.queueHead).user := by
        apply le_trans _ (le_sumOf Request.unsettled hhead)
        show b ≤ (q.redemptionQueue q.queueHead).bilAmount - (q.redemptionQueue q.queueHead).bilSettled
        omega
      -- what the rest of the run locks comes after the first lock
      obtain ⟨locks, hlocks⟩ := ih (value - b * rate / wad) (active - b) hl₁
        (show _ ≤ q.totalReservedHollar + b * rate / wad + _ by omega) (show _ ≤ q.totalSettledBil + b + _ by omega)
      have hvalue' : (q.lockHead b (b * rate / wad)).totalReservedHollar + (value - b * rate / wad) =
          q.totalReservedHollar + value := by
        show q.totalReservedHollar + b * rate / wad + (value - b * rate / wad) = _
        omega
      have hactive' : (q.lockHead b (b * rate / wad)).totalSettledBil + (active - b) = q.totalSettledBil + active := by
        show q.totalSettledBil + b + (active - b) = _
        omega
      rw [fund_lockHead hhead hle, hvalue', hactive'] at hlocks
      exact ⟨_, .cons _ b hwaits hshares hcash hlocks⟩

/-- Draws of a controller leave what the others add up to. -/
theorem Untouched.sumOf_of_ne {c c' : Address} (h : Untouched c q q') (hc : c' ≠ c) {f : Request → Nat}
    (hf : f .empty = 0) : sumOf f q' c' = sumOf f q c' := by
  unfold sumOf
  rw [h.tail]
  apply Finset.sum_congr rfl
  intro i _
  by_cases hi : (q.redemptionQueue i).user = c
  · have hold : (q.redemptionQueue i).countedFor f c' = 0 := if_neg fun hu => hc (hu.symm.trans hi)
    rw [hold]
    rcases h.own i hi with hown | hempty
    · exact if_neg fun hu => hc (hu.symm.trans hown)
    · rw [hempty, Request.countedFor_empty f hf]
  · rw [h.others i hi]

/-- Draws take nothing from what waits. -/
theorem Untouched.sumOf_unsettled {c : Address} (h : Untouched c q q') :
    sumOf Request.unsettled q' = sumOf Request.unsettled q := by
  funext c'
  by_cases hc : c' = c
  · subst hc
    unfold sumOf
    rw [h.tail]
    apply Finset.sum_congr rfl
    intro i _
    have hpending : (q'.redemptionQueue i).unsettled = (q.redemptionQueue i).unsettled := h.pending i
    by_cases hi : (q.redemptionQueue i).user = c'
    · rcases h.own i hi with hown | hempty
      · rw [Request.countedFor, Request.countedFor, if_pos hown, if_pos hi, hpending]
      · rw [Request.countedFor, Request.countedFor, if_pos hi, ← hpending, hempty]
        exact ite_self _
    · rw [h.others i hi]
  · exact h.sumOf_of_ne hc rfl

/-- With no settled shares left to it, a controller is owed nothing. -/
theorem owedOf_zero (hl : QueueLedger q) {c : Address} (h : settledOf q c = 0) : owedOf q c = 0 := by
  apply Finset.sum_eq_zero
  intro i hi
  have hzero := (Finset.sum_eq_zero_iff.1 h) i hi
  split_ifs at hzero ⊢ with huser
  · by_cases hlive : (q.redemptionQueue i).user = 0
    · rw [hl.blank i (.inl hlive)]
      rfl
    · exact (hl.live i hlive).unowed hzero
  · rfl

/-- A claim is a payment of the fund. -/
theorem fund_claimed {u : ClaimUnit} {c : Address} {amount : Nat} {r : ClaimRun} (hl : QueueLedger q)
    (hs : IndexSound q) (hwalk : claimWalk u q.toQueueStore c amount = .ok r) (value active : Nat) :
    Fund.Step wad (q.fund value active) (.pay c r.shares r.assets) ((r.onto q c).fund value active) := by
  have hdraws := (claimWalk_draws hwalk).1
  obtain ⟨hl', huntouched⟩ := draws_untouched hl hdraws
  obtain ⟨hshares, hassets⟩ := claimWalk_within hl hwalk
  have hsettled : settledOf (r.onto q c) c + q.totalSettledBil = settledOf q c + (q.totalSettledBil - r.shares) :=
    (draws_claimable hs hl hdraws).all
  have howed : owedOf (r.onto q c) c + q.totalReservedHollar = owedOf q c + (q.totalReservedHollar - r.assets) :=
    huntouched.owedOf_eq hl hl'
  have hall : r.shares = settledOf q c → r.assets = owedOf q c := fun heq => by
    have hzero := owedOf_zero hl' (show settledOf (r.onto q c) c = 0 by omega)
    omega
  have hlocked' : settledOf (r.onto q c) = Function.update (settledOf q) c (settledOf q c - r.shares) :=
    Function.eq_update_iff.2 ⟨by omega, fun c' hc => huntouched.sumOf_of_ne (f := Request.bilSettled) hc rfl⟩
  have howed' : owedOf (r.onto q c) = Function.update (owedOf q) c (owedOf q c - r.assets) :=
    Function.eq_update_iff.2 ⟨by omega, fun c' hc => huntouched.sumOf_of_ne (f := Request.hollarOwed) hc rfl⟩
  unfold Redemptions.fund
  rw [huntouched.sumOf_unsettled, hlocked', howed']
  exact .pay c r.shares r.assets (show r.shares ≤ settledOf q c by omega) (show r.assets ≤ owedOf q c by omega) hall

end Queue

/-! ## The keeper's moves -/

/-- From `s` to `t` the fund runs through `es`, and loses no more than the payouts fall short and a unit for
each position capped. -/
structure Mirrors (s : State) (ps : List Payout) (t : State) (es : List (Fund.Event Address)) : Prop where
  runs : Fund.Runs wad (fundOf s) es (fundOf t)
  loss : Fund.total Fund.Event.loss es + s.toBook.cappedCount ≤ shortfall ps + t.toBook.cappedCount

/-- Through events that no controller takes part in. -/
structure Tended (s : State) (ps : List Payout) (t : State) (es : List (Fund.Event Address)) : Prop
    extends Mirrors s ps t es where
  internal : ∀ e ∈ es, e.Internal

section Keeper

variable {d : Deployment} {s t u : State} {ps qs : List Payout} {es es' : List (Fund.Event Address)}

theorem Tended.trans (h : Tended s ps t es) (h' : Tended t qs u es') : Tended s (ps ++ qs) u (es ++ es') := by
  refine ⟨⟨h.runs.trans h'.runs, ?_⟩, fun e he => ?_⟩
  · have h₁ := h.loss
    have h₂ := h'.loss
    rw [Fund.total_append, shortfall_append]
    omega
  · rcases List.mem_append.1 he with he | he
    · exact h.internal e he
    · exact h'.internal e he

/-- What leaves the fund alone is no event. -/
theorem Mirrors.still (hfund : fundOf t = fundOf s) (hcount : t.toBook.cappedCount = s.toBook.cappedCount) :
    Mirrors s [] t [] := by
  constructor
  · rw [hfund]
    exact .refl _
  · rw [hcount]
    exact Nat.add_le_add_right (Nat.zero_le _) _

theorem Tended.still (hfund : fundOf t = fundOf s) (hcount : t.toBook.cappedCount = s.toBook.cappedCount) :
    Tended s [] t [] :=
  ⟨.still hfund hcount, fun _ he => absurd he List.not_mem_nil⟩

/-- A move that changes only what the active shares are worth. -/
theorem Tended.revalued (hfund : fundOf t = { fundOf s with value := activeValue t })
    (hloss : activeValue s - activeValue t + s.toBook.cappedCount ≤ shortfall ps + t.toBook.cappedCount) :
    Tended s ps t (Fund.revalue (activeValue s) (activeValue t)) := by
  refine ⟨⟨?_, ?_⟩, Fund.revalue_internal _ _⟩
  · rw [hfund]
    exact Fund.revalue_runs (fundOf s) (activeValue t)
  · rw [Fund.revalue_loss]
    exact hloss

/-- The rate of a settlement is the price of the fund. -/
theorem exchangeRate_price {rate : Nat} (h : YieldBook s.now s.toBook) (hrate : exchangeRate s = .ok rate) :
    (fundOf s).price wad = rate := by
  unfold Fund.price
  rcases exchangeRate_ok h hrate with ⟨h0, rfl⟩ | ⟨hpos, rfl⟩
  · exact if_pos h0
  · exact if_neg hpos.ne'

/-- A settlement of the queue settles the fund. -/
theorem settle_tended {q : Redemptions} {rate : Nat} (hinv : Invariant d s) (hrate : exchangeRate s = .ok rate)
    (hfills : ReflTransGen (Fill rate) s.toRedemptions q)
    (hle : q.totalReservedHollar ≤ s.totalReservedHollar + s.idleHollar)
    (hsettled : q.totalSettledBil ≤ s.bil.totalSupply) :
    ∃ es, Tended s []
      { s with toRedemptions := q, idleHollar := s.idleHollar - (q.totalReservedHollar - s.totalReservedHollar) } es := by
  obtain ⟨-, hs, hr, -⟩ := fills_totals hfills
  have hsupply := activeSupply_eq s
  have hsettled' := hinv.settled_le_supply
  have hvalue : activeValue s = s.toBook.worth s.now + s.idleHollar := rfl
  obtain ⟨locks, hlocks⟩ := fund_fills hfills (activeValue s) (activeSupply s) hinv.ledger (by omega) (by omega)
  have hfund : fundOf { s with
      toRedemptions := q, idleHollar := s.idleHollar - (q.totalReservedHollar - s.totalReservedHollar) } =
        q.fund (s.totalReservedHollar + activeValue s - q.totalReservedHollar)
          (s.totalSettledBil + activeSupply s - q.totalSettledBil) := by
    unfold fundOf
    congr 1
    · show s.toBook.worth s.now + (s.idleHollar - (q.totalReservedHollar - s.totalReservedHollar)) = _
      omega
    · rw [activeSupply_eq]
      show s.bil.totalSupply - q.totalSettledBil = _
      omega
  rw [← exchangeRate_price hinv.yield hrate] at hlocks
  refine ⟨[.settle locks], ⟨?_, le_refl _⟩, fun e he => ?_⟩
  · rw [hfund]
    exact (Fund.Step.settle locks hlocks).runs
  · rw [List.mem_singleton.1 he]
    trivial

theorem Poke.tended (hinv : Invariant d s) (hp : Poke d s ps t) : ∃ es, Tended s ps t es := by
  have ht := hinv.poke hp
  cases hp with
  | cap hc =>
    rename_i b
    obtain ⟨hworth, hcount⟩ := hinv.yield.worth_cap hc
    refine ⟨_, .revalued rfl ?_⟩
    show s.toBook.worth s.now + s.idleHollar - (b.worth s.now + s.idleHollar) + _ ≤ 0 + b.cappedCount
    omega
  | ask i pos state hi _ =>
    obtain ⟨hworth, hcount⟩ := Book.worth_ask hi state s.now
    refine ⟨_, .still ?_ hcount⟩
    show s.toRedemptions.fund ((s.toBook.setPosition i { pos with state }).worth s.now + s.idleHollar) (activeSupply s) = _
    rw [hworth]
    rfl
  | yieldPaid i pos token received hi _ _ =>
    obtain ⟨hworth, hcount⟩ := hinv.lifecycle.worth_yieldPaid hi
    refine ⟨_, .revalued rfl ?_⟩
    show s.toBook.worth s.now + s.idleHollar - ((s.toBook.yieldPaid i pos).worth s.now + (s.idleHollar + received)) + _ ≤
      pos.pendingYield - received + 0 + (s.toBook.yieldPaid i pos).cappedCount
    omega
  | principalPaid i pos token received hi hstate _ =>
    obtain ⟨hworth, hcount⟩ := hinv.lifecycle.worth_principalPaid hi hstate
    refine ⟨_, .revalued rfl ?_⟩
    show s.toBook.worth s.now + s.idleHollar -
      ((s.toBook.principalPaid i pos).worth s.now + (s.idleHollar + received)) + _ ≤
        pos.principal - received + 0 + (s.toBook.principalPaid i pos).cappedCount
    omega
  | sweep hs => cases hs; exact ⟨_, .still rfl rfl⟩
  | settle rate _ hrate hfills hle => exact settle_tended hinv hrate hfills hle ht.settled_le_supply
  | reinvest pool tokenId apyWad amount period token hdue hle _ _ hi _ =>
    obtain ⟨hworth, hcount⟩ := hinv.yield.worth_opened hdue hi pool tokenId apyWad amount period
    have hvalue : (s.toBook.opened pool tokenId apyWad amount period s.now).worth s.now + (s.idleHollar - amount) =
        activeValue s := by
      show _ = s.toBook.worth s.now + s.idleHollar
      omega
    refine ⟨_, .still ?_ hcount⟩
    exact congrArg (fun value => s.toRedemptions.fund value (activeSupply s)) hvalue
  | refused _ _ => exact ⟨_, .still rfl rfl⟩

theorem Pokes.tended (hinv : Invariant d s) (hp : Pokes d s ps t) : ∃ es, Tended s ps t es := by
  refine Moves.reports (I := Invariant d) (R := fun s ps t => ∃ es, Tended s ps t es) (fun s => ⟨[], .still rfl rfl⟩)
    ?_ ?_ hp hinv
  · rintro s ps t qs u ⟨es, h⟩ ⟨es', h'⟩
    exact ⟨es ++ es', h.trans h'⟩
  · intro s ps t hinv hp
    exact ⟨hinv.poke hp, hp.tended hinv⟩

end Keeper

/-! ## Every step -/

/-- The shares a deposit adds: the dead shares too when they are the first. -/
def boughtShares (s : State) (shares : Nat) : Nat := if s.bil.totalSupply = 0 then shares + deadShares else shares

/-- The events that an action of the vault is. -/
def Explains (d : Deployment) (s : State) : Action → List (Fund.Event Address) → Prop
  | .tick _, es => ∃ amount, es = [.earn amount]
  | .call sender env (.deposit assets receiver), es =>
    ∃ t shares, deposit d env s sender assets receiver = .ok (t, shares) ∧ es = [.buy assets (boughtShares s shares)]
  | .call sender env (.mint shares receiver), es =>
    ∃ t assets, mint d env s sender shares receiver = .ok (t, assets) ∧ es = [.buy assets (boughtShares s shares)]
  | .call _ _ (.requestRedeem shares controller _), es => es = [.ask controller shares]
  | .call _ _ (.cancelRedeem i), es => es = [.retract (s.redemptionQueue i).user (s.redemptionQueue i).unsettled]
  | .call sender _ (.redeem shares receiver controller), es =>
    ∃ t paid, redeem d s sender shares receiver controller = .ok (t, paid) ∧ es = [.pay controller shares paid]
  | .call sender _ (.withdraw assets receiver controller), es =>
    ∃ t burnt, withdraw d s sender assets receiver controller = .ok (t, burnt) ∧ es = [.pay controller burnt assets]
  | .call _ _ (.pokeDecentral _), es => ∀ e ∈ es, e.Internal
  | .call _ _ .pokeQueue, es => ∀ e ∈ es, e.Internal
  | .call _ _ (.syncMaturities _), es => ∀ e ∈ es, e.Internal
  | _, es => es = []

section Steps

variable {d : Deployment} {env : Replies} {s t : State} {m : Address}

/-- A step that is one event of the fund, no loss. -/
theorem Mirrors.single {e : Fund.Event Address} (h : Fund.Step wad (fundOf s) e (fundOf t)) (hloss : e.loss = 0)
    (hcount : t.toBook.cappedCount = s.toBook.cappedCount) : Mirrors s [] t [e] := by
  refine ⟨h.runs, ?_⟩
  rw [hcount]
  show e.loss + 0 + _ ≤ 0 + _
  rw [hloss]

theorem boughtShares_minted {receiver : Address} {shares : Nat} {bil₀ bil : ERC20} (hboot : bootstrap s.bil = .ok bil₀)
    (hmint : (bil₀.mint receiver shares : Tx ERC20) = .ok bil) :
    bil.totalSupply = s.bil.totalSupply + boughtShares s shares := by
  have hminted := mint_supply hmint
  unfold bootstrap at hboot
  unfold boughtShares
  split_ifs at hboot ⊢ with hzero
  · have hdead := mint_supply hboot
    omega
  · cases hboot
    exact hminted

/-- A deposit buys shares of the fund for no less than they are worth. -/
theorem depositShares_buys {receiver : Address} {assets shares : Nat} (hinv : Invariant d s) (hdue : NoneDue s)
    (hpriced : Priced s assets shares) (h : depositShares d env s m receiver assets shares = .ok t) :
    Mirrors s [] t [.buy assets (boughtShares s shares)] := by
  simp only [depositShares, bind_ok_iff, Prod.exists, require_ok_iff, pure_ok_iff] at h
  obtain ⟨bil₀, hboot, bil, hmint, token, -, s₁, ok, hdep, _, rfl, rfl⟩ := h
  rcases depositIntoDecentral_ok hdep with ⟨hok, -⟩ | ⟨-, tokenId, apyWad, period, token', rfl, -, hi, -⟩
  · cases hok
  obtain ⟨hworth, hcount⟩ := hinv.yield.worth_opened hdue hi s.activeDepositPool tokenId apyWad assets period
  have hsupply := boughtShares_minted hboot hmint
  have hfirst : activeSupply s = 0 → boughtShares s shares ≤ assets := by
    intro hzero
    rcases hpriced with ⟨-, hassets⟩ | ⟨hpos, -⟩
    · unfold boughtShares
      split_ifs <;> omega
    · exact absurd hzero hpos.ne'
  have hlater : 0 < activeSupply s → boughtShares s shares * activeValue s ≤ assets * activeSupply s := by
    intro hpos
    rcases hpriced with ⟨hzero, -⟩ | ⟨-, active, hactive, hprice⟩
    · exact absurd hzero hpos.ne'
    · have hsome : s.bil.totalSupply ≠ 0 := fun hzero => hpos.ne' (activeSupply_zero hzero)
      rw [boughtShares, if_neg hsome, ← activeAssets_value hinv.yield hactive]
      exact hprice
  have hbuy : Fund.Step wad (fundOf s) (.buy assets (boughtShares s shares)) _ := .buy _ _ hfirst hlater
  refine .single ?_ rfl hcount
  convert hbuy using 1
  have hsettled := hinv.settled_le_supply
  unfold fundOf
  congr 1
  · show (s.toBook.opened s.activeDepositPool tokenId apyWad assets period s.now).worth s.now + s.idleHollar =
      s.toBook.worth s.now + s.idleHollar + assets
    omega
  · show activeSupply _ = activeSupply s + boughtShares s shares
    rw [activeSupply_eq, activeSupply_eq]
    show bil.totalSupply - s.totalSettledBil = _
    omega

/-- The shares a claim burns were not active. -/
theorem Claimed.paid_fund {u : ClaimUnit} {c receiver : Address} {r : ClaimRun} {amount : Nat} (hinv : Invariant d s)
    (h : Claimed d u c receiver r s t) (hwalk : claimWalk u s.toQueueStore c amount = .ok r) :
    Mirrors s [] t [.pay c r.shares r.assets] := by
  have hstep := fund_claimed hinv.ledger hinv.index hwalk (activeValue s) (activeSupply s)
  have hsettled := hinv.settled_le_supply
  have hwithin := h.within.1
  have hburned := h.burned
  obtain ⟨-, -, hbil⟩ := ERC20.burn_ok_iff.1 hburned
  have hsupply : t.bil.totalSupply = s.bil.totalSupply - r.shares := by
    rw [← hbil]
  have hactive : activeSupply t = activeSupply s := by
    rw [activeSupply_eq, activeSupply_eq, hsupply, show t.totalSettledBil = s.totalSettledBil - r.shares from
      congrArg Redemptions.totalSettledBil h.queue]
    omega
  have hvalue : activeValue t = activeValue s := by
    rw [h.rest]
    rfl
  refine .single ?_ rfl (by rw [h.rest])
  unfold fundOf
  rw [hactive, hvalue, h.queue]
  exact hstep

theorem requestRedeem_asks {shares id : Nat} {controller owner : Address}
    (h : requestRedeem d s m shares controller owner = .ok (t, id)) : Mirrors s [] t [.ask controller shares] := by
  simp only [requestRedeem, bind_ok_iff, require_ok_iff, checkedAdd_ok_iff, pure_ok_iff, Prod.mk.injEq] at h
  obtain ⟨_, -, _, -, _, -, _, -, _, -, bil, hbil, _, ⟨-, rfl⟩, _, ⟨-, rfl⟩, rfl, rfl⟩ := h
  obtain ⟨-, -, -, rfl⟩ := ERC20.transfer_ok_iff.1 hbil
  refine .single ?_ rfl rfl
  exact fund_push s.toRedemptions controller shares (activeValue s) (activeSupply s)

theorem cancelRedeem_retracts {i : Nat} (hinv : Invariant d s) (h : cancelRedeem d s m i = .ok t) :
    Mirrors s [] t [.retract (s.redemptionQueue i).user (s.redemptionQueue i).unsettled] := by
  have huser := (cancelRedeem_ok h).1
  obtain ⟨bil, head, hsupply, rfl⟩ := cancelRedeem_eq h
  refine .single ?_ rfl rfl
  have hactive : activeSupply { s with bil, toRedemptions := { s.toRedemptions.cancelled i with queueHead := head } } =
      activeSupply s := by
    rw [activeSupply_eq, activeSupply_eq]
    show bil.totalSupply - s.totalSettledBil = _
    rw [hsupply]
  unfold fundOf
  rw [hactive]
  exact fund_cancelled hinv.ledger huser head (activeValue s) (activeSupply s)

/-- A call is the events that it stands for. -/
theorem call_explained {c : Call} {ps : List Payout} (hinv : Invariant d s) (h : c.run d env s m = .ok (t, ps)) :
    ∃ es, Explains d s (.call m env c) es ∧ Mirrors s ps t es := by
  cases c with
  | deposit assets receiver =>
    simp only [Call.run, bind_ok_iff, Prod.exists, pure_ok_iff, Prod.mk.injEq] at h
    obtain ⟨_, shares, hrun, rfl, rfl⟩ := h
    refine ⟨_, ⟨_, shares, hrun, rfl⟩, ?_⟩
    simp only [deposit, requireNoMaturityBacklog, bind_ok_iff, require_ok_iff, pure_ok_iff, Prod.mk.injEq] at hrun
    obtain ⟨_, -, _, -, _, hprev, _, hdue, _, hdep, rfl, rfl⟩ := hrun
    exact depositShares_buys hinv (noneDue_iff.1 hdue) (validateAndPreviewShares_priced hprev) hdep
  | mint shares receiver =>
    simp only [Call.run, bind_ok_iff, Prod.exists, pure_ok_iff, Prod.mk.injEq] at h
    obtain ⟨_, assets, hrun, rfl, rfl⟩ := h
    refine ⟨_, ⟨_, assets, hrun, rfl⟩, ?_⟩
    simp only [mint, requireNoMaturityBacklog, bind_ok_iff, require_ok_iff, pure_ok_iff, Prod.mk.injEq] at hrun
    obtain ⟨_, -, _, -, _, -, _, hdue, _, hprev, _, -, _, hdep, rfl, rfl⟩ := hrun
    exact depositShares_buys hinv (noneDue_iff.1 hdue) (previewMint_priced hprev) hdep
  | requestRedeem shares controller owner =>
    simp only [Call.run, bind_ok_iff, Prod.exists, pure_ok_iff, Prod.mk.injEq] at h
    obtain ⟨_, id, hrun, rfl, rfl⟩ := h
    exact ⟨_, rfl, requestRedeem_asks hrun⟩
  | cancelRedeem requestId =>
    simp only [Call.run, bind_ok_iff, pure_ok_iff, Prod.mk.injEq] at h
    obtain ⟨_, hrun, rfl, rfl⟩ := h
    exact ⟨_, rfl, cancelRedeem_retracts hinv hrun⟩
  | redeem shares receiver controller =>
    simp only [Call.run, bind_ok_iff, Prod.exists, pure_ok_iff, Prod.mk.injEq] at h
    obtain ⟨_, paid, hrun, rfl, rfl⟩ := h
    obtain ⟨r, hwalk, rfl, rfl, -, hclaimed⟩ := redeem_claimed hinv.ledger hrun
    exact ⟨_, ⟨_, _, hrun, rfl⟩, hclaimed.paid_fund hinv hwalk⟩
  | withdraw assets receiver controller =>
    simp only [Call.run, bind_ok_iff, Prod.exists, pure_ok_iff, Prod.mk.injEq] at h
    obtain ⟨_, burnt, hrun, rfl, rfl⟩ := h
    obtain ⟨r, hwalk, rfl, rfl, -, hclaimed⟩ := withdraw_claimed hinv.ledger hrun
    exact ⟨_, ⟨_, _, hrun, rfl⟩, hclaimed.paid_fund hinv hwalk⟩
  | pokeDecentral i =>
    obtain ⟨s₁, k, hsync, hworks⟩ := pokeDecentral_works h
    obtain ⟨es, htended⟩ := (keeper_pokes hsync hworks).tended hinv
    exact ⟨es, htended.internal, htended.toMirrors⟩
  | pokeQueue =>
    simp only [Call.run, bind_ok_iff, pure_ok_iff, Prod.mk.injEq] at h
    obtain ⟨_, hrun, rfl, rfl⟩ := h
    obtain ⟨s₁, k, hsync, hworks⟩ := pokeQueue_works hrun
    obtain ⟨es, htended⟩ := (keeper_pokes hsync hworks).tended hinv
    exact ⟨es, htended.internal, htended.toMirrors⟩
  | syncMaturities n =>
    simp only [Call.run, bind_ok_iff, Prod.exists, pure_ok_iff, Prod.mk.injEq] at h
    obtain ⟨_, k, hsync, rfl, rfl⟩ := h
    obtain ⟨es, htended⟩ := (syncMaturities_pokes (d := d) hsync).1.tended hinv
    exact ⟨es, htended.internal, htended.toMirrors⟩
  | share c =>
    simp only [Call.run, bind_ok_iff, pure_ok_iff, Prod.mk.injEq] at h
    obtain ⟨bil, hcall, rfl, rfl⟩ := h
    refine ⟨[], rfl, .still ?_ rfl⟩
    have hactive : activeSupply { s with bil } = activeSupply s := by
      rw [activeSupply_eq, activeSupply_eq]
      show bil.totalSupply - s.totalSettledBil = _
      rw [ERC20.call_totalSupply hcall]
    unfold fundOf
    rw [hactive]
    rfl
  | _ =>
    -- the calls that configure the vault
    obtain ⟨⟨g, f, p⟩, rfl⟩ := Configured.of_run (by trivial) h
    exact ⟨[], rfl, .still rfl rfl⟩

/-- Every step is a run of the fund. -/
theorem step_explained {a : Action} {ps : List Payout} (hinv : Invariant d s) (hlegal : Legal d s a)
    (h : step d s a = .ok (t, ps)) : ∃ es, Explains d s a es ∧ Mirrors s ps t es := by
  cases a with
  | tick now =>
    cases h
    have hworth := hinv.yield.worth_tick hlegal
    have hvalue : activeValue s ≤ activeValue { s with now } := Nat.add_le_add_right hworth s.idleHollar
    have hearn : Fund.Step wad (fundOf s) (.earn (activeValue { s with now } - activeValue s)) _ := .earn _
    rw [show (fundOf s).value = activeValue s from rfl, Nat.add_sub_cancel' hvalue] at hearn
    exact ⟨_, ⟨_, rfl⟩, .single hearn rfl rfl⟩
  | call sender env c => exact call_explained hinv h
  | hollar sender c =>
    simp only [step, bind_ok_iff, pure_ok_iff, Prod.mk.injEq] at h
    obtain ⟨_, -, rfl, rfl⟩ := h
    exact ⟨[], rfl, .still rfl rfl⟩
  | hollarMint account amount =>
    simp only [step, bind_ok_iff, pure_ok_iff, Prod.mk.injEq] at h
    obtain ⟨_, -, rfl, rfl⟩ := h
    exact ⟨[], rfl, .still rfl rfl⟩
  | hollarBurn account amount =>
    simp only [step, bind_ok_iff, pure_ok_iff, Prod.mk.injEq] at h
    obtain ⟨_, -, rfl, rfl⟩ := h
    exact ⟨[], rfl, .still rfl rfl⟩

/-- A run starts from the empty fund. -/
theorem fundOf_init (h : (vault d).init s) : fundOf s = Fund.empty Address := by
  obtain ⟨env, p, token, now, -, hinit⟩ := h
  obtain ⟨g, c, a, -, -, rfl⟩ := initializeVault_ok hinit
  ext
  · show 0 + 0 / yearWad + 0 + 0 = 0
    rw [Nat.zero_div]
  · rfl
  · rfl
  · rfl
  · rfl

end Steps

/-- The vault is a fund. Every reachable state is one that the fund runs to from nothing, and its active assets
and its reserve are the cash of that run. Every step from it runs the fund through just the events the action
stands for, without a loss but what the payouts fall short and a unit for each position capped. -/
theorem vault_refines_fund {d : Deployment} {s : State} (h : Reachable d s) :
    (∃ es, Fund.Runs wad (Fund.empty Address) es (fundOf s) ∧
      activeValue s + s.totalReservedHollar + Fund.total Fund.Event.loss es + Fund.total Fund.Event.paidOut es =
        Fund.total Fund.Event.gain es + Fund.total Fund.Event.paidIn es) ∧
      ∀ a t ps, Legal d s a → step d s a = .ok (t, ps) → ∃ es, Explains d s a es ∧ Mirrors s ps t es := by
  constructor
  · have hrun : ∃ es, Fund.Runs wad (Fund.empty Address) es (fundOf s) := by
      refine h.invariant (I := fun s => ∃ es, Fund.Runs wad (Fund.empty Address) es (fundOf s)) ?_ ?_
      · intro s hinit
        rw [fundOf_init hinit]
        exact ⟨[], .refl _⟩
      · rintro s a t hr ⟨es, hruns⟩ ⟨hlegal, ps, hstep⟩
        obtain ⟨es', -, hmirrors⟩ := step_explained (Reachable.inv hr) hlegal hstep
        exact ⟨es ++ es', hruns.trans hmirrors.runs⟩
    obtain ⟨es, hruns⟩ := hrun
    refine ⟨es, hruns, ?_⟩
    have hcash := hruns.cash
    have howed : ∑ c, (fundOf s).owed c = s.totalReservedHollar := by
      rw [h.inv.ledger.reserved]
      exact sum_sumOf Request.hollarOwed s.toRedemptions
    have hzero : ∑ c, (Fund.empty Address).owed c = 0 := Finset.sum_const_zero
    have hvalue : (fundOf s).value = activeValue s := rfl
    have hnothing : (Fund.empty Address).value = 0 := rfl
    omega
  · intro a t ps hlegal hstep
    exact step_explained h.inv hlegal hstep

/-- The demo run, with its deposits, payouts and settlements, is a run of the fund. -/
theorem vault_refines_fund_demo : ∃ (s : State) (es : List (Fund.Event Address)),
    s.totalSettledBil = 32 * 10 ^ 18 ∧ Fund.Runs wad (Fund.empty Address) es (fundOf s) := by
  obtain ⟨s, hs, -, hsettled, -⟩ := demoRun_settled
  obtain ⟨⟨es, hruns, -⟩, -⟩ := vault_refines_fund hs.of_restrict
  exact ⟨s, es, hsettled, hruns⟩

end MoneyMarket
