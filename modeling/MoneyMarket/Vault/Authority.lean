/-
Who may take from whom. An account that has made nobody its operator and given no allowance keeps
its shares and its requests through every call of the others, but for the claim that the holder of
the claim role makes for it and that pays it in full; and HOLLAR leaves the vault to the receiver of
a claim or to the active pool only (`authority`).
-/
import MoneyMarket.Vault.Claiming
import MoneyMarket.Vault.Course

namespace MoneyMarket

open Evm Relation Transition

/-! ## What an account has -/

/-- All the HOLLAR owed to a controller. -/
def owedOf (q : Redemptions) (c : Address) : Nat :=
  ∑ i ∈ Finset.range q.queueTail, if (q.redemptionQueue i).user = c then (q.redemptionQueue i).hollarOwed else 0

/-- A request stays with its user and loses nothing. -/
structure Request.Keeps (request request' : Request) : Prop where
  user : request'.user = request.user
  amount : request.bilAmount ≤ request'.bilAmount
  settled : request.bilSettled ≤ request'.bilSettled
  owed : request.hollarOwed ≤ request'.hollarOwed

/-- The live requests of `u` lose nothing. -/
def KeepsRequests (u : Address) (q q' : Redemptions) : Prop :=
  ∀ i, (q.redemptionQueue i).user ≠ 0 → (q.redemptionQueue i).user = u →
    (q.redemptionQueue i).Keeps (q'.redemptionQueue i)

/-- `m` claims for `u`, which has opted in, and the HOLLAR goes to `u`. -/
structure Assisted (d : Deployment) (m u : Address) (c : Call) (s t : State) : Prop where
  role : s.hasRole .claimOperator m = true
  enabled : s.autoClaimEnabled u = true
  call : ∃ amount, c = .redeem amount u u ∨ c = .withdraw amount u u
  paid : ∃ paid, owedOf t.toRedemptions u + paid = owedOf s.toRedemptions u ∧
    (s.token.transfer d.self u paid : Tx ERC20) = .ok t.token
  pending : ∀ i, (t.redemptionQueue i).bilAmount - (t.redemptionQueue i).bilSettled =
    (s.redemptionQueue i).bilAmount - (s.redemptionQueue i).bilSettled

/-! ## Requests -/

section Requests

variable {u c : Address} {q q' : Redemptions}

theorem Request.Keeps.refl (request : Request) : request.Keeps request := ⟨rfl, le_refl _, le_refl _, le_refl _⟩

theorem KeepsRequests.of_eq (h : q'.redemptionQueue = q.redemptionQueue) : KeepsRequests u q q' := fun i _ _ => by
  rw [h]
  exact .refl _

theorem Locks.keeps {rate : Nat} (h : Locks rate q q') : KeepsRequests u q q' := fun i _ _ =>
  ⟨h.user i, (h.amount i).ge, h.settled i, by rw [h.owed i]; exact Nat.le_add_right _ _⟩

theorem Settlement.keeps {d : Deployment} {s t : State} {c : Call} {ps : List Payout} (h : Settlement d s c ps t) :
    KeepsRequests u s.toRedemptions t.toRedemptions := by
  cases h with
  | none hqueue => exact .of_eq (congrArg (fun q => q.redemptionQueue) hqueue)
  | queue _ _ _ _ hlocked => exact hlocked.locks.keeps
  | position _ _ _ _ _ _ _ hlocked => exact hlocked.locks.keeps

/-- A claim of `c` takes nothing from the others. -/
theorem Untouched.keeps (h : Untouched c q q') (hu : u ≠ c) : KeepsRequests u q q' := fun i _ hi => by
  rw [h.others i (by rw [hi]; exact hu)]
  exact .refl _

/-- What `c` loses of the HOLLAR owed to it is what the reserve loses. -/
theorem Untouched.owedOf_eq (h : Untouched c q q') (hl : QueueLedger q) (hl' : QueueLedger q') :
    owedOf q' c + q.totalReservedHollar = owedOf q c + q'.totalReservedHollar := by
  have hsplit : ∀ p : Redemptions, QueueLedger p → p.totalReservedHollar = owedOf p c +
      ∑ i ∈ Finset.range p.queueTail,
        if (p.redemptionQueue i).user = c then 0 else (p.redemptionQueue i).hollarOwed := by
    intro p hp
    rw [hp.reserved, owedOf, ← Finset.sum_add_distrib]
    refine Finset.sum_congr rfl fun i _ => ?_
    split_ifs
    · rw [Nat.add_zero]
    · rw [Nat.zero_add]
  have hrest : ∀ i, (if (q'.redemptionQueue i).user = c then 0 else (q'.redemptionQueue i).hollarOwed) =
      if (q.redemptionQueue i).user = c then 0 else (q.redemptionQueue i).hollarOwed := by
    intro i
    by_cases hi : (q.redemptionQueue i).user = c
    · rcases h.own i hi with hown | hempty
      · rw [if_pos hown, if_pos hi]
      · rw [hempty, if_pos hi]
        exact ite_self _
    · rw [h.others i hi]
  have h1 := hsplit q hl
  have h2 := hsplit q' hl'
  rw [h.tail] at h2
  simp only [hrest] at h2
  omega

end Requests

/-! ## Calls on behalf of others -/

section Calls

variable {d : Deployment} {env : Replies} {s t : State} {m u : Address}

/-- A deposit only adds shares. -/
theorem depositShares_keeps {receiver : Address} {assets shares : Nat}
    (h : depositShares d env s m receiver assets shares = .ok t) :
    s.bil.balanceOf u ≤ t.bil.balanceOf u ∧ t.toRedemptions = s.toRedemptions := by
  obtain ⟨bil₀, bil, token, hboot, hmint, -, -, hopen⟩ := depositShares_outlay h
  cases hopen with
  | opened tokenId apyWad period pulled token' _ _ _ =>
    exact ⟨le_trans (bootstrap_grows hboot u).1 (mint_grows hmint u).1, rfl⟩

theorem requestRedeem_keeps {shares id : Nat} {controller owner : Address} (hl : QueueLedger s.toRedemptions)
    (hu : u ≠ m) (hop : s.isOperator u m = false) (h : requestRedeem d s m shares controller owner = .ok (t, id)) :
    s.bil.balanceOf u ≤ t.bil.balanceOf u ∧ KeepsRequests u s.toRedemptions t.toRedemptions := by
  obtain ⟨-, hauth, hbil, -, hqueue⟩ := requestRedeem_ok h
  obtain ⟨-, -, -, hbil⟩ := ERC20.transfer_ok_iff.1 hbil
  rw [← hbil, hqueue]
  constructor
  · -- the owner is the sender or has made it an operator
    apply ERC20.le_move
    rintro rfl
    rcases hauth with rfl | hauth
    · exact hu rfl
    · rw [hop] at hauth; cases hauth
  · intro i hlive _
    have hi : i ≠ s.queueTail := (hl.lt_tail hlive).ne
    simp only [Redemptions.push, Function.update_of_ne hi]
    exact .refl _

theorem cancelRedeem_keeps {requestId : Nat} (hu : u ≠ m) (huv : u ≠ d.self) (hop : s.isOperator u m = false)
    (h : cancelRedeem d s m requestId = .ok t) :
    s.bil.balanceOf u ≤ t.bil.balanceOf u ∧ KeepsRequests u s.toRedemptions t.toRedemptions := by
  obtain ⟨-, hauth, hbil, -, hqueue⟩ := cancelRedeem_ok h
  constructor
  · rcases hbil with ⟨hbil, -⟩ | hbil
    · rw [hbil]
    · obtain ⟨-, -, -, hbil⟩ := ERC20.transfer_ok_iff.1 hbil
      rw [← hbil]
      exact ERC20.le_move _ _ _ _ huv
  · intro i _ hi
    -- the request is of another user
    have hne : i ≠ requestId := by
      rintro rfl
      rw [hi] at hauth
      rcases hauth with hauth | hauth
      · exact hu hauth.symm
      · rw [hop] at hauth; cases hauth
    simp only [hqueue, Redemptions.cancelled, Function.update_of_ne hne]
    exact .refl _

/-- The burn of a claim takes from the escrow alone. -/
theorem Claimed.keeps_bil {v : ClaimUnit} {c receiver : Address} {r : ClaimRun} (h : Claimed d v c receiver r s t)
    (huv : u ≠ d.self) : s.bil.balanceOf u ≤ t.bil.balanceOf u := by
  obtain ⟨-, -, hbil⟩ := ERC20.burn_ok_iff.1 h.burned
  rw [← hbil]
  show s.bil.balanceOf u ≤ Function.update s.bil.balanceOf d.self _ u
  rw [Function.update_of_ne huv]

/-- Without an operator, only the claim role claims for `u`, and only to `u`. -/
theorem Claimed.assisted {v : ClaimUnit} {c receiver : Address} {r : ClaimRun} {call : Call} {amount : Nat}
    (hinv : Invariant d s) (h : Claimed d v c receiver r s t) (hauth : authorizeClaim s m receiver c = .ok ())
    (hcall : call = .redeem amount receiver c ∨ call = .withdraw amount receiver c) (hu : u ≠ m)
    (hop : s.isOperator u m = false) :
    KeepsRequests u s.toRedemptions t.toRedemptions ∨ Assisted d m u call s t := by
  obtain ⟨hl, hqueue⟩ := draws_untouched hinv.ledger h.draws
  by_cases hc : u = c
  · subst hc
    right
    rcases require_ok_iff.1 hauth with rfl | hauth | ⟨hrole, henabled, rfl⟩
    · exact absurd rfl hu
    · rw [hop] at hauth; cases hauth
    · refine ⟨hrole, henabled, ⟨amount, hcall⟩, ⟨r.assets, ?_, h.paid⟩, hqueue.pending⟩
      have howed := hqueue.owedOf_eq hinv.ledger hl
      have hreserved : t.totalReservedHollar = s.totalReservedHollar - r.assets :=
        congrArg Redemptions.totalReservedHollar h.queue
      have := h.within.2
      omega
  · exact .inl (hqueue.keeps hc)

/-- Whatever `m` calls, an account it may not act for keeps its shares, and its requests but for an
assisted claim. -/
theorem Course.keeps {c : Call} {ps : List Payout} (hinv : Invariant d s) (hu : u ≠ m) (huv : u ≠ d.self)
    (hop : s.isOperator u m = false) (hall : s.bil.allowance u m = 0) (h : Course d env m s c t ps) :
    s.bil.balanceOf u ≤ t.bil.balanceOf u ∧
      (KeepsRequests u s.toRedemptions t.toRedemptions ∨ Assisted d m u c s t) := by
  cases h with
  | deposit assets shares receiver h =>
    obtain ⟨hbal, hqueue⟩ := depositShares_keeps (u := u) h
    exact ⟨hbal, .inl (.of_eq (congrArg (fun q => q.redemptionQueue) hqueue))⟩
  | mint assets shares receiver h =>
    obtain ⟨hbal, hqueue⟩ := depositShares_keeps (u := u) h
    exact ⟨hbal, .inl (.of_eq (congrArg (fun q => q.redemptionQueue) hqueue))⟩
  | requestRedeem shares id controller owner h =>
    obtain ⟨hbal, hkeeps⟩ := requestRedeem_keeps hinv.ledger hu hop h
    exact ⟨hbal, .inl hkeeps⟩
  | cancelRedeem requestId h =>
    obtain ⟨hbal, hkeeps⟩ := cancelRedeem_keeps hu huv hop h
    exact ⟨hbal, .inl hkeeps⟩
  | redeem shares paid receiver controller h =>
    obtain ⟨r, -, -, -, hauth, hclaim⟩ := redeem_claimed hinv.ledger h
    exact ⟨hclaim.keeps_bil huv, hclaim.assisted hinv hauth (.inl rfl) hu hop⟩
  | withdraw assets burnt receiver controller h =>
    obtain ⟨r, -, -, -, hauth, hclaim⟩ := withdraw_claimed hinv.ledger h
    exact ⟨hclaim.keeps_bil huv, hclaim.assisted hinv hauth (.inr rfl) hu hop⟩
  | pokeDecentral i hstill hsettle =>
    rw [hstill.bil]
    exact ⟨le_refl _, .inl hsettle.keeps⟩
  | pokeQueue h hsettle =>
    refine ⟨?_, .inl hsettle.keeps⟩
    -- a reinvestment moves HOLLAR and no shares
    rcases pokeQueue_outlay h with hstill | ⟨s₁, s₂, amount, hstill, hopen, -, rfl⟩
    · rw [hstill.bil]
    · cases hopen with
      | opened tokenId apyWad period pulled token _ _ _ =>
        show s.bil.balanceOf u ≤ s₁.bil.balanceOf u
        rw [hstill.bil]
  | syncMaturities n hstill hqueue =>
    rw [hstill.bil]
    exact ⟨le_refl _, .inl (.of_eq (congrArg (fun q => q.redemptionQueue) hqueue))⟩
  | share c bil hcall => exact ⟨ERC20.le_call hcall hu hall, .inl (.of_eq rfl)⟩
  | configure g f p _ => exact ⟨le_refl _, .inl (.of_eq rfl)⟩

end Calls

/-! ## HOLLAR -/

/-- The calls that open a position when they succeed, or may. -/
def Call.Invests : Call → Prop
  | .deposit _ _ | .mint _ _ | .pokeQueue => True
  | _ => False

/-- The HOLLAR that moves in a step: none out of the vault, or to the receiver of a claim, or to the
active pool for a position it opens. -/
inductive Outflow (d : Deployment) (s t : State) : Action → Prop
  | outside {a : Action} : (∀ sender env c, a ≠ .call sender env c) →
      s.token.balanceOf d.self ≤ t.token.balanceOf d.self → Outflow d s t a
  | inward {sender : Address} {env : Replies} {c : Call} : Inflow d s.token t.token → Outflow d s t (.call sender env c)
  | claim {sender : Address} {env : Replies} {c : Call} (amount paid : Nat) (receiver controller : Address) :
      c = .redeem amount receiver controller ∨ c = .withdraw amount receiver controller →
      (s.token.transfer d.self receiver paid : Tx ERC20) = .ok t.token → Outflow d s t (.call sender env c)
  | invest {sender : Address} {env : Replies} {c : Call} (token : ERC20) (pulled : Nat) : c.Invests →
      Inflow d s.token token → pulled ≤ token.balanceOf d.self →
      t.token.balanceOf = (token.move d.self s.activeDepositPool pulled).balanceOf →
      t.positions.length = s.positions.length + 1 → Outflow d s t (.call sender env c)

section Hollar

variable {d : Deployment} {env : Replies} {s t : State} {m : Address}

/-- A deposit pulls from the sender before the pool pulls from the vault. -/
theorem depositShares_outflow {c : Call} {receiver : Address} {assets shares : Nat} (hm : m ≠ d.self)
    (hc : c.Invests) (h : depositShares d env s m receiver assets shares = .ok t) :
    Outflow d s t (.call m env c) := by
  obtain ⟨bil₀, bil, token, -, -, hle, hbal, hopen⟩ := depositShares_outlay h
  cases hopen with
  | opened tokenId apyWad period pulled token' hpulled htoken _ =>
    refine .invest token pulled hc ⟨fun x hx => ?_, ?_⟩ hpulled htoken (List.length_append ..)
    · rw [hbal, ERC20.move_balanceOf, if_neg hx]
      split_ifs with hxm
      · rw [hxm]; exact Nat.sub_le _ _
      · exact le_refl _
    · rw [hbal]
      exact ERC20.le_move _ _ _ _ hm.symm

theorem Course.outflow {c : Call} {ps : List Payout} (hinv : Invariant d s) (hm : m ≠ d.self)
    (h : Course d env m s c t ps) :
    Outflow d s t (.call m env c) := by
  cases h with
  | deposit assets shares receiver h => exact depositShares_outflow hm trivial h
  | mint assets shares receiver h => exact depositShares_outflow hm trivial h
  | requestRedeem shares id controller owner h =>
    exact .inward (.of_balances (by rw [(requestRedeem_ok h).2.2.2.1]))
  | cancelRedeem requestId h => exact .inward (.of_balances (by rw [(cancelRedeem_ok h).2.2.2.1]))
  | redeem shares paid receiver controller h =>
    obtain ⟨r, -, -, -, -, hclaim⟩ := redeem_claimed hinv.ledger h
    exact .claim shares r.assets receiver controller (.inl rfl) hclaim.paid
  | withdraw assets burnt receiver controller h =>
    obtain ⟨r, -, -, -, -, hclaim⟩ := withdraw_claimed hinv.ledger h
    exact .claim assets r.assets receiver controller (.inr rfl) hclaim.paid
  | pokeDecentral i hstill _ => exact .inward hstill.inflow
  | pokeQueue h _ =>
    rcases pokeQueue_outlay h with hstill | ⟨s₁, s₂, amount, hstill, hopen, -, rfl⟩
    · exact .inward hstill.inflow
    · cases hopen with
      | opened tokenId apyWad period pulled token hpulled htoken _ =>
        refine .invest s₁.token pulled trivial hstill.inflow hpulled ?_ ?_
        · rw [hstill.registry] at htoken
          exact htoken
        · exact (List.length_append ..).trans (congrArg (· + 1) hstill.count)
  | syncMaturities n hstill _ => exact .inward hstill.inflow
  | share c bil _ => exact .inward (.refl _)
  | configure g f p _ => exact .inward (.refl _)

theorem step_outflow {a : Action} {ps : List Payout} (hinv : Invariant d s) (hlegal : Legal d s a)
    (h : step d s a = .ok (t, ps)) : Outflow d s t a := by
  cases a with
  | call sender env c => exact (call_course h).outflow hinv hlegal
  | tick now =>
    cases h
    exact .outside (fun _ _ _ ha => by cases ha) (le_refl _)
  | hollar sender c =>
    simp only [step, bind_ok_iff, pure_ok_iff, Prod.mk.injEq] at h
    obtain ⟨token, hcall, rfl, -⟩ := h
    exact .outside (fun _ _ _ ha => by cases ha) (Spends.of_call hlegal.1 hlegal.2 hcall hinv.token).2
  | hollarMint account amount =>
    simp only [step, bind_ok_iff, pure_ok_iff, Prod.mk.injEq] at h
    obtain ⟨token, hmint, rfl, -⟩ := h
    exact .outside (fun _ _ _ ha => by cases ha) (mint_grows hmint d.self).1
  | hollarBurn account amount =>
    simp only [step, bind_ok_iff, pure_ok_iff, Prod.mk.injEq] at h
    obtain ⟨token, hburn, rfl, -⟩ := h
    obtain ⟨-, -, rfl⟩ := ERC20.burn_ok_iff.1 hburn
    refine .outside (fun _ _ _ ha => by cases ha) ?_
    show s.token.balanceOf d.self ≤ Function.update s.token.balanceOf account _ d.self
    rw [Function.update_of_ne (Ne.symm hlegal)]

end Hollar

/-! ## Authority -/

/-- In every reachable state and whatever `m` calls, an account that has neither made `m` its
operator nor given it an allowance loses none of its shares and nothing of its requests, but for a
claim that `m` makes with the claim role for an account that has opted in, which pays the account
what it takes and leaves its pending shares; and in every step HOLLAR leaves the vault only to the
receiver of a claim, or to the active pool for a position it opens. -/
theorem authority {d : Deployment} {s : State} (h : Reachable d s) :
    (∀ m env c t ps u, m ≠ d.self → step d s (.call m env c) = .ok (t, ps) → u ≠ m → u ≠ d.self →
      s.isOperator u m = false → s.bil.allowance u m = 0 →
      s.bil.balanceOf u ≤ t.bil.balanceOf u ∧
        (KeepsRequests u s.toRedemptions t.toRedemptions ∨ Assisted d m u c s t)) ∧
    ∀ a t ps, Legal d s a → step d s a = .ok (t, ps) → Outflow d s t a := by
  refine ⟨fun m env c t ps u _ hs hu huv hop hall => ?_, fun a t ps hlegal hs => step_outflow h.inv hlegal hs⟩
  exact (call_course hs).keeps h.inv hu huv hop hall

/-- In the demo run bob may not act for alice, whose requests the poke of bob settles. -/
theorem authority_demo : ∃ s t : State, s.totalSettledBil = 0 ∧ t.totalSettledBil = 32 * 10 ^ 18 ∧
    s.bil.balanceOf alice ≤ t.bil.balanceOf alice := by
  obtain ⟨s, t, ps, hs, hlegal, hstep, ht⟩ := observe_step demo DeadSilent demoQuiet demoSetup (demoRun.take 7)
    (.call bob (demoReplies 0 0 none (some 317097919837645) (some (10 ^ 20))) (.pokeDecentral 0))
    (fun s t _ => decide (s.totalSettledBil = 0 ∧ t.totalSettledBil = 32 * 10 ^ 18 ∧
      s.isOperator alice bob = false ∧ s.bil.allowance alice bob = 0)) (by decide +kernel)
  obtain ⟨h0, hsettled, hop, hall⟩ := of_decide_eq_true ht
  exact ⟨s, t, h0, hsettled, ((authority hs.of_restrict).1 bob _ _ t ps alice hlegal hstep (by decide) (by decide) hop
    hall).1⟩

end MoneyMarket
