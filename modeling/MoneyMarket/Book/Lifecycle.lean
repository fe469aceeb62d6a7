/-
The lifecycle of a position. Its state only moves forward along the edges of `NFTPosition.Step`,
and the two totals of the book are the sums of what the positions still claim (`Lifecycle`).
-/
import MoneyMarket.Book.Yield

namespace MoneyMarket

open Evm Relation

/-- One edge of the lifecycle at the time `now`. -/
inductive NFTPosition.Step (now : Nat) : NFTPosition → NFTPosition → Prop
  | cap {pos : NFTPosition} : pos.yieldCapped = false → pos.maturityTime ≤ now →
      Step now pos (pos.cap (pos.yieldAt pos.maturityTime))
  | ask {pos : NFTPosition} (state : NFTState) : Asks now pos state → Step now pos { pos with state }
  | yieldPaid {pos : NFTPosition} : pos.state = .yieldWithdrawalRequested →
      Step now pos { pos with pendingYield := 0, state := .yieldClaimed }
  | principalPaid {pos : NFTPosition} : pos.state = .principalWithdrawalRequested →
      Step now pos { pos with state := .redeemed }

/-- What a position claims of the principal total. -/
def NFTPosition.openPrincipal (pos : NFTPosition) : Nat := if pos.state = .redeemed then 0 else pos.principal

/-- A position that left Active is matured and capped, and its pending yield fits its state. -/
structure NFTPosition.Consistent (now : Nat) (pos : NFTPosition) : Prop where
  left : pos.state ≠ .active → pos.yieldCapped = true ∧ pos.maturityTime ≤ now
  uncapped : pos.yieldCapped = false → pos.pendingYield = 0
  requested : pos.state = .yieldWithdrawalRequested → 0 < pos.pendingYield
  claimed : pos.state ≠ .active → pos.state ≠ .yieldWithdrawalRequested → pos.pendingYield = 0

structure Lifecycle (now : Nat) (b : Book) : Prop where
  invested : b.totalInvestedPrincipal = (b.positions.map NFTPosition.openPrincipal).sum
  pending : b.totalPendingYield = (b.positions.map NFTPosition.pendingYield).sum
  positions : ∀ pos ∈ b.positions, pos.Consistent now
  swept : ∀ i < b.positionHead, ∃ pos, b.positions[i]? = some pos ∧ pos.state = .redeemed

/-! ## One position -/

namespace NFTPosition

variable {now : Nat} {pos pos' : NFTPosition}

/-- Every edge keeps a position consistent. -/
theorem Consistent.step (h : pos.Consistent now) (hs : Step now pos pos') : pos'.Consistent now := by
  cases hs with
  | cap hu hm =>
    have hactive : pos.state = .active := by
      by_contra hne
      have := (h.left hne).1
      rw [hu] at this; exact absurd this (by decide)
    refine ⟨fun hne => absurd hactive hne, fun hc => absurd hc (by simp [cap]), fun hr => ?_,
      fun hne => absurd hactive hne⟩
    have : pos.state = .yieldWithdrawalRequested := hr
    rw [hactive] at this; exact absurd this (by decide)
  | ask state ha =>
    cases ha with
    | skipYield h1 h2 h3 h4 =>
      exact ⟨fun _ => ⟨h3, h2⟩, h.uncapped, fun hr => absurd hr (by simp), fun _ _ => h4⟩
    | requestYield h1 h2 h3 h4 =>
      exact ⟨fun _ => ⟨h3, h2⟩, h.uncapped, fun _ => Nat.pos_of_ne_zero h4, fun _ hne => absurd rfl hne⟩
    | requestPrincipal h1 =>
      have hne : pos.state ≠ .active := by rw [h1]; decide
      have hzero := h.claimed hne (by rw [h1]; decide)
      exact ⟨fun _ => h.left hne, h.uncapped, fun hr => absurd hr (by simp), fun _ _ => hzero⟩
  | yieldPaid h1 =>
    have hne : pos.state ≠ .active := by rw [h1]; decide
    exact ⟨fun _ => h.left hne, fun _ => rfl, fun hr => absurd hr (by simp), fun _ _ => rfl⟩
  | principalPaid h1 =>
    have hne : pos.state ≠ .active := by rw [h1]; decide
    have hzero := h.claimed hne (by rw [h1]; decide)
    exact ⟨fun _ => h.left hne, h.uncapped, fun hr => absurd hr (by simp), fun _ _ => hzero⟩

theorem Consistent.mono {later : Nat} (h : pos.Consistent now) (hle : now ≤ later) : pos.Consistent later :=
  ⟨fun hne => ⟨(h.left hne).1, le_trans (h.left hne).2 hle⟩, h.uncapped, h.requested, h.claimed⟩

end NFTPosition

/-! ## The book -/

/-- Every position goes along its lifecycle, and the head only forward. -/
structure Evolves (now : Nat) (b b' : Book) : Prop where
  positions : ∀ (i : Nat) (pos : NFTPosition), b.positions[i]? = some pos →
    ∃ pos', b'.positions[i]? = some pos' ∧ ReflTransGen (NFTPosition.Step now) pos pos'
  head_le : b.positionHead ≤ b'.positionHead

namespace Evolves

variable {now : Nat} {b b' b'' : Book}

theorem refl (now : Nat) (b : Book) : Evolves now b b := ⟨fun _ pos h => ⟨pos, h, .refl⟩, le_refl _⟩

theorem trans (h : Evolves now b b') (h' : Evolves now b' b'') : Evolves now b b'' := by
  refine ⟨fun i pos hi => ?_, le_trans h.head_le h'.head_le⟩
  obtain ⟨p, hp, hs⟩ := h.positions i pos hi
  obtain ⟨p', hp', hs'⟩ := h'.positions i p hp
  exact ⟨p', hp', hs.trans hs'⟩

/-- One position replaced along an edge. -/
theorem of_set {i : Nat} {pos pos' : NFTPosition} (hi : b.positions[i]? = some pos)
    (hpos : b'.positions = b.positions.set i pos') (hhead : b'.positionHead = b.positionHead)
    (hs : NFTPosition.Step now pos pos') : Evolves now b b' := by
  refine ⟨fun j p hj => ?_, hhead.ge⟩
  by_cases hij : i = j
  · subst hij
    obtain rfl := Option.some.inj (hi.symm.trans hj)
    exact ⟨pos', by rw [hpos, List.getElem?_set_self (List.getElem?_eq_some_iff.1 hi).1], .single hs⟩
  · exact ⟨p, by rw [hpos, List.getElem?_set_ne hij]; exact hj, .refl⟩

end Evolves

theorem BookMove.evolves {now : Nat} {b b' : Book} (hy : YieldBook now b) (hm : BookMove now b b') :
    Evolves now b b' := by
  cases hm with
  | opened pool tokenId apyWad amount period _ _ _ =>
    refine ⟨fun i pos hi => ⟨pos, ?_, .refl⟩, le_refl _⟩
    rw [Book.opened, List.getElem?_append_left (List.getElem?_eq_some_iff.1 hi).1]; exact hi
  | cap hc =>
    cases hc with
    | cap entry pos hroot hdue hpos hstart =>
      obtain ⟨hu, hm, -⟩ := hy.cap hroot hpos
      rw [← hm] at hdue
      refine .of_set hpos rfl rfl ?_
      rw [← hm]; exact .cap hu hdue
  | ask i pos state hi ha => exact .of_set hi rfl rfl (.ask state ha)
  | yieldPaid i pos hi hs => exact .of_set hi rfl rfl (.yieldPaid hs)
  | principalPaid i pos hi hs => exact .of_set hi rfl rfl (.principalPaid hs)
  | sweep hs =>
    cases hs
    exact ⟨fun _ p h => ⟨p, h, .refl⟩, Nat.le_succ _⟩

namespace Lifecycle

variable {now : Nat} {b b' : Book}

theorem pending_le (h : Lifecycle now b) {i : Nat} {pos : NFTPosition} (hi : b.positions[i]? = some pos) :
    pos.pendingYield ≤ b.totalPendingYield := by
  rw [h.pending]; exact Sums.le_sum_map NFTPosition.pendingYield (List.mem_of_getElem? hi)

theorem principal_le (h : Lifecycle now b) {i : Nat} {pos : NFTPosition} (hi : b.positions[i]? = some pos)
    (hs : pos.state ≠ .redeemed) : pos.principal ≤ b.totalInvestedPrincipal := by
  have := Sums.le_sum_map NFTPosition.openPrincipal (List.mem_of_getElem? hi)
  rw [← h.invested, NFTPosition.openPrincipal, if_neg hs] at this
  exact this

/-- One position replaced along an edge, the totals moving with it. -/
theorem rewrite (h : Lifecycle now b) {i : Nat} {pos pos' : NFTPosition} (hi : b.positions[i]? = some pos)
    (hpos : b'.positions = b.positions.set i pos') (hhead : b'.positionHead = b.positionHead)
    (hs : NFTPosition.Step now pos pos')
    (hinv : b'.totalInvestedPrincipal + pos.openPrincipal = b.totalInvestedPrincipal + pos'.openPrincipal)
    (hpend : b'.totalPendingYield + pos.pendingYield = b.totalPendingYield + pos'.pendingYield) : Lifecycle now b' := by
  refine ⟨?_, ?_, fun p hp => ?_, fun j hj => ?_⟩
  · have := Sums.sum_map_set NFTPosition.openPrincipal pos' hi
    rw [← h.invested] at this
    rw [hpos]; omega
  · have := Sums.sum_map_set NFTPosition.pendingYield pos' hi
    rw [← h.pending] at this
    rw [hpos]; omega
  · rw [hpos] at hp
    rcases List.mem_or_eq_of_mem_set hp with hp | rfl
    · exact h.positions p hp
    · exact (h.positions pos (List.mem_of_getElem? hi)).step hs
  · rw [hhead] at hj
    obtain ⟨p, hp, hr⟩ := h.swept j hj
    rw [hpos]
    by_cases hij : i = j
    · -- a redeemed position has no edge left
      subst hij
      obtain rfl := Option.some.inj (hi.symm.trans hp)
      exfalso
      cases hs with
      | cap hu hm =>
        have := ((h.positions pos (List.mem_of_getElem? hi)).left (by rw [hr]; decide)).1
        rw [hu] at this; exact absurd this (by decide)
      | ask state ha =>
        cases ha with
        | skipYield h1 _ _ _ => rw [hr] at h1; exact absurd h1 (by decide)
        | requestYield h1 _ _ _ => rw [hr] at h1; exact absurd h1 (by decide)
        | requestPrincipal h1 => rw [hr] at h1; exact absurd h1 (by decide)
      | yieldPaid h1 => rw [hr] at h1; exact absurd h1 (by decide)
      | principalPaid h1 => rw [hr] at h1; exact absurd h1 (by decide)
    · exact ⟨p, by rw [List.getElem?_set_ne hij]; exact hp, hr⟩

theorem cap (h : Lifecycle now b) (hy : YieldBook now b) (hc : Cap now b b') : Lifecycle now b' := by
  cases hc with
  | cap entry pos hroot hdue hpos hstart =>
    obtain ⟨hu, hm, -⟩ := hy.cap hroot hpos
    rw [← hm] at hdue
    refine h.rewrite hpos rfl rfl (by rw [← hm]; exact .cap hu hdue) rfl ?_
    have hzero := (h.positions pos (List.mem_of_getElem? hpos)).uncapped hu
    simp only [Book.capped, NFTPosition.cap, hzero, Nat.add_zero]

/-- Every change of the book keeps the lifecycle. -/
theorem move (h : Lifecycle now b) (hy : YieldBook now b) (hm : BookMove now b b') : Lifecycle now b' := by
  cases hm with
  | opened pool tokenId apyWad amount period _ _ _ =>
    refine ⟨?_, ?_, fun p hp => ?_, fun i hi => ?_⟩
    · simp [Book.opened, h.invested, NFTPosition.openPrincipal]
    · simp [Book.opened, h.pending]
    · rcases List.mem_append.1 hp with hp | hp
      · exact h.positions p hp
      · rw [List.mem_singleton.1 hp]
        exact ⟨fun hne => absurd rfl hne, fun _ => rfl, fun hr => absurd hr (by simp), fun hne => absurd rfl hne⟩
    · obtain ⟨p, hp, hr⟩ := h.swept i hi
      exact ⟨p, by rw [Book.opened, List.getElem?_append_left (List.getElem?_eq_some_iff.1 hp).1]; exact hp, hr⟩
  | cap hc => exact h.cap hy hc
  | ask i pos state hi ha =>
    refine h.rewrite hi rfl rfl (.ask state ha) ?_ rfl
    -- no request redeems a position, so its principal counts before and after
    have hold : pos.openPrincipal = pos.principal := by
      rw [NFTPosition.openPrincipal, if_neg]
      cases ha with
      | skipYield h1 _ _ _ => rw [h1]; decide
      | requestYield h1 _ _ _ => rw [h1]; decide
      | requestPrincipal h1 => rw [h1]; decide
    have hnew : NFTPosition.openPrincipal { pos with state } = pos.principal := by
      rw [NFTPosition.openPrincipal, if_neg]
      cases ha with
      | skipYield _ _ _ _ => simp
      | requestYield _ _ _ _ => simp
      | requestPrincipal _ => simp
    rw [hold, hnew]; rfl
  | yieldPaid i pos hi hs =>
    have hle := h.pending_le hi
    refine h.rewrite hi rfl rfl (.yieldPaid hs) ?_ ?_
    · simp [Book.yieldPaid, NFTPosition.openPrincipal, hs]
    · simp only [Book.yieldPaid]; omega
  | principalPaid i pos hi hs =>
    have hle := h.principal_le hi (by rw [hs]; decide)
    refine h.rewrite hi rfl rfl (.principalPaid hs) ?_ rfl
    simp only [Book.principalPaid, NFTPosition.openPrincipal, hs, reduceCtorEq, if_false, if_true]; omega
  | sweep hs =>
    cases hs with
    | sweep pos hi hs =>
      refine ⟨h.invested, h.pending, h.positions, fun i hlt => ?_⟩
      rcases Nat.lt_succ_iff_lt_or_eq.1 hlt with hlt | rfl
      · exact h.swept i hlt
      · exact ⟨pos, hi, hs⟩

theorem tick (h : Lifecycle now b) {later : Nat} (hle : now ≤ later) : Lifecycle later b :=
  ⟨h.invested, h.pending, fun p hp => (h.positions p hp).mono hle, h.swept⟩

end Lifecycle

end MoneyMarket
