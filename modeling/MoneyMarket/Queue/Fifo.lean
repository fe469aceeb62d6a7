/-
First in, first out. The head is a boundary: below it nothing is left to settle, and behind a
request with pending shares nothing is settled (`Fifo`). A move only moves the head forward, and
only settles at or below it (`QueueMove.advances`), so whatever a sequence of moves settles has no
pending request before it at the end.
-/
import MoneyMarket.Queue.Ledger

namespace MoneyMarket

open Evm Relation

structure Fifo (q : Redemptions) : Prop where
  head_le : q.queueHead ≤ q.queueTail
  below : ∀ i < q.queueHead, (q.redemptionQueue i).bilSettled = (q.redemptionQueue i).bilAmount
  behind : ∀ i j, i < j → (q.redemptionQueue i).bilSettled < (q.redemptionQueue i).bilAmount →
    (q.redemptionQueue j).bilSettled = 0

/-- The head does not go back, and what is settled more than before is not past it. -/
structure Advances (q q' : Redemptions) : Prop where
  head_le : q.queueHead ≤ q'.queueHead
  settled : ∀ j, (q.redemptionQueue j).bilSettled < (q'.redemptionQueue j).bilSettled → j ≤ q'.queueHead

namespace Advances

variable {q q' q'' : Redemptions}

theorem refl (q : Redemptions) : Advances q q := ⟨le_refl _, fun _ h => absurd h (lt_irrefl _)⟩

theorem trans (h : Advances q q') (h' : Advances q' q'') : Advances q q'' := by
  refine ⟨le_trans h.head_le h'.head_le, fun j hj => ?_⟩
  rcases lt_or_ge (q.redemptionQueue j).bilSettled (q'.redemptionQueue j).bilSettled with hlt | hge
  · exact le_trans (h.settled j hlt) h'.head_le
  · exact h'.settled j (lt_of_le_of_lt hge hj)

/-- One request rewritten without settling more, the head where it was. -/
theorem of_rewrite {i : Nat} {request : Request} (hhead : q'.queueHead = q.queueHead)
    (hqueue : q'.redemptionQueue = Function.update q.redemptionQueue i request)
    (hs : request.bilSettled ≤ (q.redemptionQueue i).bilSettled) : Advances q q' := by
  refine ⟨hhead.ge, fun j hj => ?_⟩
  rw [hqueue] at hj
  by_cases hji : j = i
  · subst hji
    rw [Function.update_self] at hj
    exact absurd hj (not_lt.2 hs)
  · rw [Function.update_of_ne hji] at hj
    exact absurd hj (lt_irrefl _)

end Advances

namespace Fifo

variable {q q' : Redemptions}

/-- One request rewritten so that what is pending, and what is settled at all, does not grow. -/
theorem rewrite (h : Fifo q) {i : Nat} {request : Request} (hhead : q'.queueHead = q.queueHead)
    (htail : q'.queueTail = q.queueTail) (hqueue : q'.redemptionQueue = Function.update q.redemptionQueue i request)
    (hpend : request.bilSettled < request.bilAmount →
      (q.redemptionQueue i).bilSettled < (q.redemptionQueue i).bilAmount)
    (hle : request.bilSettled ≤ request.bilAmount) (hs : request.bilSettled ≤ (q.redemptionQueue i).bilSettled) :
    Fifo q' := by
  refine ⟨by rw [hhead, htail]; exact h.head_le, fun j hj => ?_, fun j k hjk hp => ?_⟩
  · rw [hhead] at hj
    have hb := h.below j hj
    rw [hqueue]
    by_cases hji : j = i
    · subst hji
      rw [Function.update_self]
      by_contra hne
      have := hpend (by omega)
      omega
    · rw [Function.update_of_ne hji]; exact hb
  · have hp' : (q.redemptionQueue j).bilSettled < (q.redemptionQueue j).bilAmount := by
      rw [hqueue] at hp
      by_cases hji : j = i
      · subst hji; rw [Function.update_self] at hp; exact hpend hp
      · rwa [Function.update_of_ne hji] at hp
    have hk := h.behind j k hjk hp'
    rw [hqueue]
    by_cases hki : k = i
    · subst hki; rw [Function.update_self]; omega
    · rw [Function.update_of_ne hki]; exact hk

theorem push (h : Fifo q) (hl : QueueLedger q) (user : Address) (shares : Nat) : Fifo (q.push user shares) := by
  refine ⟨le_trans h.head_le (Nat.le_succ _), fun i hi => ?_, fun i j hij hp => ?_⟩
  · have hne : i ≠ q.queueTail := (lt_of_lt_of_le hi h.head_le).ne
    simp only [Redemptions.push, Function.update_of_ne hne]
    exact h.below i hi
  · simp only [Redemptions.push] at hp ⊢
    by_cases hjt : j = q.queueTail
    · subst hjt; rw [Function.update_self]
    · rw [Function.update_of_ne hjt]
      by_cases hit : i = q.queueTail
      · rw [hl.blank j (.inr (by omega))]; rfl
      · rw [Function.update_of_ne hit] at hp
        exact h.behind i j hij hp

theorem cancel (h : Fifo q) (hl : QueueLedger q) (i : Nat) : Fifo (q.cancelled i) := by
  have hle := hl.settled_le_amount i
  refine h.rewrite (i := i) rfl rfl rfl ?_ ?_ ?_
  · split_ifs
    · exact fun hp => absurd hp (lt_irrefl 0)
    · exact fun hp => absurd hp (lt_irrefl _)
  · split_ifs <;> exact le_refl _
  · split_ifs
    · exact Nat.zero_le _
    · exact le_refl _

theorem fill (h : Fifo q) (hl : QueueLedger q) {rate : Nat} (hf : Fill rate q q') : Fifo q' := by
  cases hf with
  | pass hlt hdone =>
    refine ⟨hlt, fun i hi => ?_, h.behind⟩
    rcases Nat.lt_succ_iff_lt_or_eq.1 hi with hi | rfl
    · exact h.below i hi
    · rcases hdone with hu | hs
      · show (q.redemptionQueue q.queueHead).bilSettled = (q.redemptionQueue q.queueHead).bilAmount
        rw [hl.blank _ (.inl hu)]; rfl
      · exact hs
  | lock b hlt hu hpos hle =>
    refine ⟨h.head_le, fun i hi => ?_, fun i j hij hp => ?_⟩
    · have hne : i ≠ q.queueHead := (show i < q.queueHead from hi).ne
      simp only [Redemptions.lockHead, QueueStore.lock, Function.update_of_ne hne]
      exact h.below i hi
    · -- the head is the lowest pending request, so only what comes after it is behind a pending one
      simp only [Redemptions.lockHead, QueueStore.lock] at hp ⊢
      have hhead : q.queueHead ≤ i := by
        by_contra hbelow
        rw [Function.update_of_ne (not_le.1 hbelow).ne, h.below i (not_le.1 hbelow)] at hp
        exact absurd hp (lt_irrefl _)
      rw [Function.update_of_ne (by omega : j ≠ q.queueHead)]
      by_cases hih : i = q.queueHead
      · subst hih; exact h.behind _ j hij (by omega)
      · rw [Function.update_of_ne hih] at hp; exact h.behind i j hij hp

theorem draw (h : Fifo q) (hl : QueueLedger q) {u : ClaimUnit} {c : Address} (hd : Draw u c q q') : Fifo q' := by
  cases hd with
  | evict _ _ _ => exact ⟨h.head_le, h.below, h.behind⟩
  | draw i b v hlast hu hbs hba hvo hall =>
    have hle := hl.settled_le_amount i
    have hpending := Request.drawn_unsettled hle hbs v
    refine h.rewrite (i := i) rfl rfl rfl (fun hp => ?_) (Request.drawn_settled_le hle b v)
      (Request.drawn_le _ b v).2.1
    omega

/-- Every change of the queue keeps the boundary. -/
theorem move (h : Fifo q) (hl : QueueLedger q) (hm : QueueMove q q') : Fifo q' := by
  cases hm with
  | push user shares _ _ => exact h.push hl user shares
  | cancel i _ _ _ => exact h.cancel hl i
  | fill hf => exact h.fill hl hf
  | draw hd => exact h.draw hl hd

end Fifo

/-- Every change of the queue moves the head forward and settles at or below it. -/
theorem QueueMove.advances {q q' : Redemptions} (hm : QueueMove q q') : Advances q q' := by
  cases hm with
  | push user shares _ _ =>
    exact .of_rewrite (i := q.queueTail) rfl rfl (Nat.zero_le _)
  | cancel i _ _ _ =>
    refine .of_rewrite (i := i) rfl rfl ?_
    split_ifs
    · exact Nat.zero_le _
    · exact le_refl _
  | fill hf =>
    cases hf with
    | pass _ _ => exact ⟨Nat.le_succ _, fun j hj => absurd hj (lt_irrefl _)⟩
    | lock b hlt hu hpos hle =>
      refine ⟨le_refl _, fun j hj => ?_⟩
      by_cases hjh : j = q.queueHead
      · exact hjh.le
      · simp only [Redemptions.lockHead, QueueStore.lock, Function.update_of_ne hjh] at hj
        exact absurd hj (lt_irrefl _)
  | draw hd =>
    cases hd with
    | evict _ _ _ => exact ⟨le_refl _, fun j hj => absurd hj (lt_irrefl _)⟩
    | draw i b v hlast hu hbs hba hvo hall =>
      exact .of_rewrite (i := i) rfl rfl (Request.drawn_le _ b v).2.1

end MoneyMarket
