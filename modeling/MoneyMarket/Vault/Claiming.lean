/-
Claims of settled redemptions. In every reachable state a claim succeeds exactly when it asks for
a non-zero amount within the view the vault publishes, and takes from that view what it pays
(`claim_exactness`).
-/
import MoneyMarket.Queue.Claims
import MoneyMarket.Vault.Invariant
import MoneyMarket.Vault.Replay

namespace MoneyMarket

open Evm Relation Transition

/-! ## The views -/

section Views

variable {s : State} {c : Address}

theorem maxRedeem_eq (hs : IndexSound s.toRedemptions)
    (hlt : claimable Request.bilSettled s.toQueueStore c < uintSize) :
    maxRedeem s c = .ok (claimable Request.bilSettled s.toQueueStore c) := by
  have := @sumSettled_fold s.redemptionQueue c false (s.settledByController c) 0 (fun i hi => (hs.sound c i hi).1)
    (by rw [Nat.zero_add]; exact hlt)
  rw [Nat.zero_add] at this
  exact this

theorem maxWithdraw_eq (hs : IndexSound s.toRedemptions)
    (hlt : claimable Request.hollarOwed s.toQueueStore c < uintSize) :
    maxWithdraw s c = .ok (claimable Request.hollarOwed s.toQueueStore c) := by
  have := @sumSettled_fold s.redemptionQueue c true (s.settledByController c) 0 (fun i hi => (hs.sound c i hi).1)
    (by rw [Nat.zero_add]; exact hlt)
  rw [Nat.zero_add] at this
  exact this

theorem Invariant.settled_lt {d : Deployment} (h : Invariant d s) : s.totalSettledBil < uintSize :=
  lt_of_le_of_lt h.ledger.totalSettled_le h.queued_lt

theorem Invariant.maxRedeem {d : Deployment} (h : Invariant d s) (c : Address) :
    maxRedeem s c = .ok (claimable Request.bilSettled s.toQueueStore c) :=
  maxRedeem_eq h.index (lt_of_le_of_lt (claimable_settled_le h.index h.ledger c) h.settled_lt)

theorem Invariant.maxWithdraw {d : Deployment} (h : Invariant d s) (c : Address) :
    maxWithdraw s c = .ok (claimable Request.hollarOwed s.toQueueStore c) :=
  maxWithdraw_eq h.index (lt_of_le_of_lt (claimable_owed_le h.index h.ledger c) h.reserved_lt)

/-- A controller without settled shares in its index has none of its HOLLAR there either. -/
theorem claimable_owed_zero {q : Redemptions} (hs : IndexSound q)
    (h0 : claimable Request.bilSettled q.toQueueStore c = 0) :
    claimable Request.hollarOwed q.toQueueStore c = 0 := by
  have hnil : q.settledByController c = [] := by
    apply List.eq_nil_iff_forall_not_mem.2
    intro i hi
    have hle := List.le_sum_of_mem (List.mem_map_of_mem (f := fun i => (q.redemptionQueue i).bilSettled) hi)
    have hpos := (hs.sound c i hi).2
    unfold claimable at h0
    omega
  unfold claimable
  rw [hnil]
  rfl

end Views

/-! ## The two calls -/

/-- A call that the guards of both claims let through, whatever it asks for. -/
structure MayClaim (s : State) (sender receiver c : Address) : Prop where
  unpaused : s.paused = false
  authorized : authorizeClaim s sender receiver c = .ok ()
  receiver : receiver ≠ 0

/-- No product a claim by `c` computes exceeds 256 bits. -/
def ProductsFit (s : State) (c : Address) : Prop :=
  ∀ i ∈ s.settledByController c, (s.redemptionQueue i).bilSettled * (s.redemptionQueue i).hollarOwed < uintSize

section Calls

variable {d : Deployment} {s t : State} {sender receiver c : Address}

theorem redeem_ok_iff {shares paid : Nat} (hc : MayClaim s sender receiver c) :
    redeem d s sender shares receiver c = .ok (t, paid) ↔ shares ≠ 0 ∧
      ∃ r, claimWalk .shares s.toQueueStore c shares = .ok r ∧
      payClaim d s (r.store s.toQueueStore c) shares r.assets receiver = .ok t ∧ r.assets = paid := by
  simp only [redeem, whenNotPaused, claimByShares, bind_ok_iff, require_ok_iff, pure_ok_iff, Prod.exists, Prod.mk.injEq]
  constructor
  · rintro ⟨_, -, _, h0, _, -, _, -, _, _, ⟨r, hwalk, rfl, rfl⟩, _, hpay, rfl, rfl⟩
    exact ⟨h0, r, hwalk, hpay, rfl⟩
  · rintro ⟨h0, r, hwalk, hpay, rfl⟩
    exact ⟨(), hc.unpaused, (), h0, (), hc.receiver, (), hc.authorized, _, _, ⟨r, hwalk, rfl, rfl⟩, t, hpay, rfl, rfl⟩

theorem withdraw_ok_iff {assets burnt : Nat} (hc : MayClaim s sender receiver c) :
    withdraw d s sender assets receiver c = .ok (t, burnt) ↔ assets ≠ 0 ∧
      ∃ r, claimWalk .assets s.toQueueStore c assets = .ok r ∧
      payClaim d s (r.store s.toQueueStore c) r.shares r.assets receiver = .ok t ∧ r.shares = burnt := by
  simp only [withdraw, whenNotPaused, claimByAssets, bind_ok_iff, require_ok_iff, pure_ok_iff, Prod.exists,
    Prod.mk.injEq]
  constructor
  · rintro ⟨_, -, _, h0, _, -, _, -, _, _, _, ⟨r, hwalk, rfl, rfl, rfl⟩, _, hpay, rfl, rfl⟩
    exact ⟨h0, r, hwalk, hpay, rfl⟩
  · rintro ⟨h0, r, hwalk, hpay, rfl⟩
    exact ⟨(), hc.unpaused, (), h0, (), hc.receiver, (), hc.authorized, _, _, _, ⟨r, hwalk, rfl, rfl, rfl⟩, t,
      hpay, rfl, rfl⟩

/-- A claim of nothing, or of what the walk does not find, reverts with the error for it. -/
theorem redeem_refused {shares : Nat} (hc : MayClaim s sender receiver c) (h : shares = 0 ∨
      claimWalk .shares s.toQueueStore c shares = .error (.custom .insufficientClaimable)) :
    redeem d s sender shares receiver c = .error (.custom .zeroAmount) ∨
      redeem d s sender shares receiver c = .error (.custom .insufficientClaimable) := by
  have hauth := hc.authorized
  unfold redeem whenNotPaused claimByShares
  rw [hauth]
  simp only [require, if_pos hc.unpaused, if_pos hc.receiver]
  by_cases h0 : shares = 0
  · rw [if_neg (not_not.2 h0)]; exact .inl rfl
  · rw [if_pos h0, h.resolve_left h0]; exact .inr rfl

theorem withdraw_refused {assets : Nat} (hc : MayClaim s sender receiver c) (h : assets = 0 ∨
      claimWalk .assets s.toQueueStore c assets = .error (.custom .insufficientClaimable)) :
    withdraw d s sender assets receiver c = .error (.custom .zeroAmount) ∨
      withdraw d s sender assets receiver c = .error (.custom .insufficientClaimable) := by
  have hauth := hc.authorized
  unfold withdraw whenNotPaused claimByAssets
  rw [hauth]
  simp only [require, if_pos hc.unpaused, if_pos hc.receiver]
  by_cases h0 : assets = 0
  · rw [if_neg (not_not.2 h0)]; exact .inl rfl
  · rw [if_pos h0, h.resolve_left h0]; exact .inr rfl

/-- The vault can burn and pay whatever a walk draws. -/
theorem payClaim_succeeds {u : ClaimUnit} {amount : Nat} {r : ClaimRun} (hinv : Invariant d s)
    (hreceiver : receiver ≠ 0)
    (hwalk : claimWalk u s.toQueueStore c amount = .ok r) :
    ∃ t, payClaim d s (r.store s.toQueueStore c) r.shares r.assets receiver = .ok t := by
  obtain ⟨hshares, hassets⟩ := claimWalk_within (q := s.toRedemptions) hinv.ledger hwalk
  have hqueued : r.shares ≤ s.totalQueuedBil := le_trans hshares hinv.ledger.totalSettled_le
  have hpaid : r.assets ≤ s.token.balanceOf d.self :=
    le_trans hassets (le_trans (Nat.le_add_left _ _) hinv.backed)
  simp only [payClaim, bind_ok_iff, checkedSub_ok_iff, pure_ok_iff]
  exact ⟨_, _, ERC20.burn_ok_iff.2 ⟨d.self_ne_zero, le_trans hqueued hinv.escrow, rfl⟩, _, ⟨hqueued, rfl⟩, _,
    ⟨hshares, rfl⟩, _, ⟨hassets, rfl⟩, _, ERC20.transfer_ok_iff.2 ⟨d.self_ne_zero, hreceiver, hpaid, rfl⟩, rfl⟩

/-- A redeem that the guards let through goes through exactly when it asks for something its walk finds. -/
theorem redeem_goes_iff {shares : Nat} (hinv : Invariant d s) (hc : MayClaim s sender receiver c) :
    (∃ r, redeem d s sender shares receiver c = .ok r) ↔
      shares ≠ 0 ∧ ∃ r, claimWalk .shares s.toQueueStore c shares = .ok r := by
  constructor
  · rintro ⟨⟨t, paid⟩, hr⟩
    obtain ⟨h0, r, hw, -, -⟩ := (redeem_ok_iff hc).1 hr
    exact ⟨h0, r, hw⟩
  · rintro ⟨h0, r, hw⟩
    obtain ⟨t, hpay⟩ := payClaim_succeeds hinv hc.receiver hw
    have hclaimed : r.shares = shares := (claimWalk_draws (q := s.toRedemptions) hw).2
    rw [hclaimed] at hpay
    exact ⟨_, (redeem_ok_iff hc).2 ⟨h0, r, hw, hpay, rfl⟩⟩

/-- What a paid claim leaves: the tokens it moved, and the queue its walk left. -/
theorem payClaim_ok {store : QueueStore} {shares assets : Nat} (h : payClaim d s store shares assets receiver = .ok t) :
    (s.bil.burn d.self shares : Tx ERC20) = .ok t.bil ∧
    (s.token.transfer d.self receiver assets : Tx ERC20) = .ok t.token ∧
      t.toRedemptions =
        { s.toRedemptions with
          toQueueStore := store
          totalQueuedBil := s.totalQueuedBil - shares
          totalSettledBil := s.totalSettledBil - shares
          totalReservedHollar := s.totalReservedHollar - assets } := by
  simp only [payClaim, bind_ok_iff, checkedSub_ok_iff, pure_ok_iff] at h
  obtain ⟨bil, hbil, _, ⟨-, rfl⟩, _, ⟨-, rfl⟩, _, ⟨-, rfl⟩, token, htoken, rfl⟩ := h
  exact ⟨hbil, htoken, rfl⟩

/-- What a claim changes: the queue by a walk, and the totals by what the walk drew. -/
structure Claimed (d : Deployment) (u : ClaimUnit) (c receiver : Address) (r : ClaimRun) (s t : State) : Prop where
  draws : ReflTransGen (Draw u c) s.toRedemptions t.toRedemptions
  within : r.shares ≤ s.totalSettledBil ∧ r.assets ≤ s.totalReservedHollar
  queue : t.toRedemptions = r.onto s.toRedemptions c
  burned : (s.bil.burn d.self r.shares : Tx ERC20) = .ok t.bil
  paid : (s.token.transfer d.self receiver r.assets : Tx ERC20) = .ok t.token
  rest : t = { s with toRedemptions := t.toRedemptions, bil := t.bil, token := t.token }

theorem payClaim_claimed {u : ClaimUnit} {amount : Nat} {r : ClaimRun} (hl : QueueLedger s.toRedemptions)
    (hwalk : claimWalk u s.toQueueStore c amount = .ok r)
    (hpay : payClaim d s (r.store s.toQueueStore c) r.shares r.assets receiver = .ok t) :
    Claimed d u c receiver r s t := by
  obtain ⟨hburn, hsend, hqueue⟩ := payClaim_ok hpay
  refine ⟨?_, claimWalk_within (q := s.toRedemptions) hl hwalk, hqueue, hburn, hsend, ?_⟩
  · rw [hqueue]
    exact (claimWalk_draws (q := s.toRedemptions) hwalk).1
  · simp only [payClaim, bind_ok_iff, pure_ok_iff] at hpay
    obtain ⟨_, -, _, -, _, -, _, -, _, -, rfl⟩ := hpay
    rfl

theorem redeem_claimed {sender : Address} {shares paid : Nat} (hl : QueueLedger s.toRedemptions)
    (h : redeem d s sender shares receiver c = .ok (t, paid)) :
    ∃ r, claimWalk .shares s.toQueueStore c shares = .ok r ∧ r.shares = shares ∧ r.assets = paid ∧
      authorizeClaim s sender receiver c = .ok () ∧ Claimed d .shares c receiver r s t := by
  simp only [redeem, claimByShares, bind_ok_iff, pure_ok_iff, Prod.exists, Prod.mk.injEq] at h
  obtain ⟨_, -, _, -, _, -, _, hauth, _, _, ⟨r, hwalk, rfl, rfl⟩, _, hpay, rfl, rfl⟩ := h
  have hclaimed : r.shares = shares := (claimWalk_draws (q := s.toRedemptions) hwalk).2
  rw [← hclaimed] at hpay
  exact ⟨r, hwalk, hclaimed, rfl, hauth, payClaim_claimed hl hwalk hpay⟩

theorem withdraw_claimed {sender : Address} {assets burnt : Nat} (hl : QueueLedger s.toRedemptions)
    (h : withdraw d s sender assets receiver c = .ok (t, burnt)) :
    ∃ r, claimWalk .assets s.toQueueStore c assets = .ok r ∧ r.assets = assets ∧ r.shares = burnt ∧
      authorizeClaim s sender receiver c = .ok () ∧ Claimed d .assets c receiver r s t := by
  simp only [withdraw, claimByAssets, bind_ok_iff, pure_ok_iff, Prod.exists, Prod.mk.injEq] at h
  obtain ⟨_, -, _, -, _, -, _, hauth, _, _, _, ⟨r, hwalk, rfl, rfl, rfl⟩, _, hpay, rfl, rfl⟩ := h
  exact ⟨r, hwalk, (claimWalk_draws (q := s.toRedemptions) hwalk).2, rfl, hauth, payClaim_claimed hl hwalk hpay⟩

/-- What a walk draws is what leaves the claimable amounts of `c`. -/
structure Taken (u : ClaimUnit) (c : Address) (s t : State) (shares assets : Nat) : Prop where
  index : IndexSound t.toRedemptions
  owed : claimable Request.hollarOwed t.toQueueStore c + assets = claimable Request.hollarOwed s.toQueueStore c
  settled : u = .shares → claimable Request.bilSettled t.toQueueStore c + shares =
    claimable Request.bilSettled s.toQueueStore c
  all : settledOf t.toRedemptions c + shares = settledOf s.toRedemptions c

theorem claim_taken {u : ClaimUnit} {amount : Nat} {r : ClaimRun} (hinv : Invariant d s)
    (hwalk : claimWalk u s.toQueueStore c amount = .ok r) (ht : t.toRedemptions = r.onto s.toRedemptions c) :
    Taken u c s t r.shares r.assets := by
  obtain ⟨hshares, hassets⟩ := claimWalk_within (q := s.toRedemptions) hinv.ledger hwalk
  have hdraws := (claimWalk_draws (q := s.toRedemptions) hwalk).1
  have hdrawn := draws_claimable hinv.index hinv.ledger hdraws
  obtain ⟨-, hindex, -⟩ := queue_sound (draws_moves hdraws) hinv.ledger hinv.index hinv.fifo
  rw [← ht] at hdrawn hindex
  have hS : t.totalSettledBil = s.totalSettledBil - r.shares := congrArg Redemptions.totalSettledBil ht
  have hR : t.totalReservedHollar = s.totalReservedHollar - r.assets := congrArg Redemptions.totalReservedHollar ht
  refine ⟨hindex, ?_, fun hu => ?_, ?_⟩
  · have := hdrawn.owed; omega
  · have := hdrawn.shares hu; omega
  · have := hdrawn.all; omega

/-- A walk finds exactly what is claimable, and says so otherwise. -/
theorem walk_exact (hinv : Invariant d s) (hfit : ProductsFit s c) (u : ClaimUnit) (amount : Nat) :
    ((∃ r, claimWalk u s.toQueueStore c amount = .ok r) ↔ amount ≤ claimable u.counted s.toQueueStore c) ∧
      (claimable u.counted s.toQueueStore c < amount →
        claimWalk u s.toQueueStore c amount = .error (.custom .insufficientClaimable)) := by
  have hspec := @claimWalk_spec u c s.toRedemptions amount hinv.index hinv.ledger hinv.settled_lt hinv.reserved_lt hfit
  refine ⟨⟨?_, hspec.1⟩, hspec.2⟩
  rintro ⟨r, hr⟩
  by_contra hlt
  rw [hspec.2 (not_le.1 hlt)] at hr
  cases hr

theorem redeem_exact (hinv : Invariant d s) (hc : MayClaim s sender receiver c) (hfit : ProductsFit s c)
    (shares : Nat) :
    ((∃ r, redeem d s sender shares receiver c = .ok r) ↔
        1 ≤ shares ∧ shares ≤ claimable Request.bilSettled s.toQueueStore c) ∧
      (¬ (1 ≤ shares ∧ shares ≤ claimable Request.bilSettled s.toQueueStore c) →
        redeem d s sender shares receiver c = .error (.custom .zeroAmount) ∨
          redeem d s sender shares receiver c = .error (.custom .insufficientClaimable)) := by
  obtain ⟨hfound, hmissing⟩ := walk_exact hinv hfit .shares shares
  refine ⟨?_, fun hout => ?_⟩
  · rw [redeem_goes_iff hinv hc, hfound, Nat.pos_iff_ne_zero.symm]
    exact Iff.rfl
  · apply redeem_refused hc
    by_cases h0 : shares = 0
    · exact .inl h0
    · exact .inr (hmissing (not_le.1 fun hle => hout ⟨Nat.pos_of_ne_zero h0, hle⟩))

theorem withdraw_exact (hinv : Invariant d s) (hc : MayClaim s sender receiver c) (hfit : ProductsFit s c)
    (assets : Nat) :
    ((∃ r, withdraw d s sender assets receiver c = .ok r) ↔
        1 ≤ assets ∧ assets ≤ claimable Request.hollarOwed s.toQueueStore c) ∧
      (¬ (1 ≤ assets ∧ assets ≤ claimable Request.hollarOwed s.toQueueStore c) →
        withdraw d s sender assets receiver c = .error (.custom .zeroAmount) ∨
          withdraw d s sender assets receiver c = .error (.custom .insufficientClaimable)) := by
  obtain ⟨hfound, hmissing⟩ := walk_exact hinv hfit .assets assets
  refine ⟨⟨?_, ?_⟩, fun hout => ?_⟩
  · rintro ⟨⟨t, burnt⟩, hr⟩
    obtain ⟨h0, r, hw, -, -⟩ := (withdraw_ok_iff hc).1 hr
    exact ⟨Nat.pos_of_ne_zero h0, hfound.1 ⟨r, hw⟩⟩
  · rintro ⟨h0, hle⟩
    obtain ⟨r, hw⟩ := hfound.2 hle
    obtain ⟨t, hpay⟩ := payClaim_succeeds hinv hc.receiver hw
    exact ⟨_, (withdraw_ok_iff hc).2 ⟨by omega, r, hw, hpay, rfl⟩⟩
  · apply withdraw_refused hc
    by_cases h0 : assets = 0
    · exact .inl h0
    · exact .inr (hmissing (not_le.1 fun hle => hout ⟨Nat.pos_of_ne_zero h0, hle⟩))

end Calls

/-! ## Exactness -/

/-- In every reachable state a claim that its guards let through succeeds exactly when it asks for
a non-zero amount within the published view, and reverts with the error for it otherwise. It
burns and pays exactly what leaves the views; redeeming all of it pays all of it. -/
theorem claim_exactness {d : Deployment} {s : State} {sender receiver c : Address} (h : Reachable d s)
    (hc : MayClaim s sender receiver c) (hfit : ProductsFit s c) :
    ∃ mr mw, maxRedeem s c = .ok mr ∧ maxWithdraw s c = .ok mw ∧
      (∀ shares, ((∃ r, redeem d s sender shares receiver c = .ok r) ↔ 1 ≤ shares ∧ shares ≤ mr) ∧
        (¬ (1 ≤ shares ∧ shares ≤ mr) → redeem d s sender shares receiver c = .error (.custom .zeroAmount) ∨
          redeem d s sender shares receiver c = .error (.custom .insufficientClaimable))) ∧
      (∀ assets, ((∃ r, withdraw d s sender assets receiver c = .ok r) ↔ 1 ≤ assets ∧ assets ≤ mw) ∧
        (¬ (1 ≤ assets ∧ assets ≤ mw) → withdraw d s sender assets receiver c = .error (.custom .zeroAmount) ∨
          withdraw d s sender assets receiver c = .error (.custom .insufficientClaimable))) ∧
      (∀ shares t paid, redeem d s sender shares receiver c = .ok (t, paid) →
        (s.bil.burn d.self shares : Tx ERC20) = .ok t.bil ∧
          (s.token.transfer d.self receiver paid : Tx ERC20) = .ok t.token ∧
          ∃ mw', maxWithdraw t c = .ok mw' ∧ mw' + paid = mw) ∧
      (∀ assets t burnt, withdraw d s sender assets receiver c = .ok (t, burnt) →
        (s.bil.burn d.self burnt : Tx ERC20) = .ok t.bil ∧
          (s.token.transfer d.self receiver assets : Tx ERC20) = .ok t.token ∧
          settledOf t.toRedemptions c + burnt = settledOf s.toRedemptions c) ∧
      (∀ t paid, redeem d s sender mr receiver c = .ok (t, paid) → paid = mw) := by
  have hinv := h.inv
  -- a successful redeem takes from both views
  have hredeemed : ∀ shares t paid, redeem d s sender shares receiver c = .ok (t, paid) →
      (s.bil.burn d.self shares : Tx ERC20) = .ok t.bil ∧
        (s.token.transfer d.self receiver paid : Tx ERC20) = .ok t.token ∧
        Taken .shares c s t shares paid := by
    intro shares t paid hr
    obtain ⟨r, hw, rfl, rfl, -, hclaimed⟩ := redeem_claimed hinv.ledger hr
    exact ⟨hclaimed.burned, hclaimed.paid, claim_taken hinv hw hclaimed.queue⟩
  refine ⟨_, _, hinv.maxRedeem c, hinv.maxWithdraw c, redeem_exact hinv hc hfit, withdraw_exact hinv hc hfit,
    ?_, ?_, ?_⟩
  · intro shares t paid hr
    obtain ⟨hburn, hsend, htaken⟩ := hredeemed shares t paid hr
    refine ⟨hburn, hsend, _, maxWithdraw_eq htaken.index (lt_of_le_of_lt ?_ hinv.reserved_lt), htaken.owed⟩
    exact le_trans (Nat.le.intro htaken.owed) (claimable_owed_le hinv.index hinv.ledger c)
  · intro assets t burnt hr
    obtain ⟨r, hw, rfl, rfl, -, hclaimed⟩ := withdraw_claimed hinv.ledger hr
    exact ⟨hclaimed.burned, hclaimed.paid, (claim_taken hinv hw hclaimed.queue).all⟩
  · intro t paid hr
    obtain ⟨-, -, htaken⟩ := hredeemed _ t paid hr
    have hleft : claimable Request.bilSettled t.toQueueStore c = 0 := by
      have := htaken.settled rfl; omega
    have := htaken.owed
    have := claimable_owed_zero htaken.index hleft
    omega

/-- Alice may redeem exactly up to what the replayed run settled for her. -/
theorem claim_exactness_demo : ∃ s mr, maxRedeem s alice = .ok mr ∧ ∀ shares,
    (∃ r, redeem demo s alice shares bob alice = .ok r) ↔ 1 ≤ shares ∧ shares ≤ mr := by
  obtain ⟨s, hs, hidx, hsettled, hreserved, hpaused⟩ := demoRun_settled
  have hinv : Invariant demo s := Reachable.inv hs.of_restrict
  have hc : MayClaim s alice bob alice := ⟨hpaused, require_ok_iff.2 (.inl rfl), by decide⟩
  have hfit : ProductsFit s alice := fun i _ =>
    lt_of_le_of_lt (Nat.mul_le_mul (hinv.ledger.settled_le i) (hinv.ledger.owed_le i))
      (by rw [hsettled, hreserved]; decide)
  obtain ⟨mr, mw, hmr, -, hredeem, -⟩ := claim_exactness hs.of_restrict hc hfit
  exact ⟨s, mr, hmr, fun shares => (hredeem shares).1⟩

end MoneyMarket
