/-
The keeper's claims for the controllers that opted in. It adds up the settled shares of each controller
and redeems the sum to the controller itself. One claim takes nothing from another controller, so a pass
that nobody disturbs serves each of them in turn as if it was alone: it pays all that is settled for a
controller whose sum the vault lets it redeem, and leaves the others as they are (`autoClaim_clears`).
-/
import MoneyMarket.Keeper.AutoClaim
import MoneyMarket.Queue.Reads
import MoneyMarket.Vault.Neutral

namespace MoneyMarket

open Evm Relation Transition

/-! ## The pass -/

/-- The claim for one entry of the map; what reverts is logged. -/
def claimFor (d : Deployment) (keeper : Address) (s : State) (e : Address × Nat) : State :=
  if s.autoClaimEnabled e.1 = true then
    match redeem d s keeper e.2 e.1 e.1 with
    | .ok (t, _) => t
    | .error _ => s
  else s

/-- `autoClaimSettled`. -/
def autoClaimSettled (d : Deployment) (keeper : Address) (s : State) : State :=
  if getRedemptionQueueLength s = 0 then s else (autoClaimable s).foldl (claimFor d keeper) s

/-! ## The map -/

section Map

variable {s : State}

/-- What the map holds: controllers with settled shares, no controller twice. -/
structure ClaimMap (m : List (Address × Nat)) : Prop where
  nodup : (m.map Prod.fst).Nodup
  key : ∀ e ∈ m, e.1 ≠ 0
  positive : ∀ e ∈ m, 0 < e.2

theorem ClaimMap.set {m : List (Address × Nat)} (h : ClaimMap m) {c : Address} {n : Nat} (hc : c ≠ 0) (hn : 0 < n) :
    ClaimMap (OrderedMap.set m c n) where
  nodup := OrderedMap.nodup_set h.nodup c n
  key e he := by
    rcases OrderedMap.mem_set he with rfl | he
    · exact hc
    · exact h.key e he
  positive e he := by
    rcases OrderedMap.mem_set he with rfl | he
    · exact hn
    · exact h.positive e he

theorem ClaimMap.nil : ClaimMap [] :=
  ⟨List.nodup_nil, fun _ he => absurd he List.not_mem_nil, fun _ he => absurd he List.not_mem_nil⟩

theorem autoClaimable_map (s : State) : ClaimMap (autoClaimable s) := by
  unfold autoClaimable
  generalize List.range (getRedemptionQueueLength s) = ids
  have hnil := ClaimMap.nil
  revert hnil
  generalize ([] : List (Address × Nat)) = m
  induction ids generalizing m with
  | nil => exact id
  | cons i ids ih =>
    intro hm
    rw [List.foldl_cons]
    apply ih
    show ClaimMap (if decide ((s.redemptionQueue i).user ≠ 0) = false ∨ (s.redemptionQueue i).bilSettled = 0 then m
      else _)
    by_cases hskip : decide ((s.redemptionQueue i).user ≠ 0) = false ∨ (s.redemptionQueue i).bilSettled = 0
    · rw [if_pos hskip]
      exact hm
    · rw [if_neg hskip]
      rw [not_or] at hskip
      refine hm.set ?_ (Nat.lt_of_lt_of_le (Nat.pos_of_ne_zero hskip.2) (Nat.le_add_left _ _))
      simpa using hskip.1

/-- An entry is the sum of its controller. -/
theorem autoClaimable_sum (hl : QueueLedger s.toRedemptions) {e : Address × Nat} (he : e ∈ autoClaimable s) :
    e.2 = settledOf s.toRedemptions e.1 := by
  have hget := (OrderedMap.get_eq_some_iff (autoClaimable_map s).nodup).2 he
  rw [← autoClaimSum_settled hl, autoClaimSum, hget]
  rfl

/-- A controller without an entry has nothing settled. -/
theorem autoClaimable_none (hl : QueueLedger s.toRedemptions) {c : Address}
    (hc : c ∉ (autoClaimable s).map Prod.fst) : settledOf s.toRedemptions c = 0 := by
  rw [← autoClaimSum_settled hl, autoClaimSum, OrderedMap.get_eq_none_iff.2 hc]
  rfl

end Map

/-! ## One claim -/

/-- What a controller has stays: its index, its requests and its HOLLAR. -/
structure LeftAlone (d : Deployment) (c : Address) (s t : State) : Prop where
  index : t.settledByController c = s.settledByController c
  requests : ∀ i, (s.redemptionQueue i).user = c → t.redemptionQueue i = s.redemptionQueue i
  settled : settledOf t.toRedemptions c = settledOf s.toRedemptions c
  balance : c ≠ d.self → t.token.balanceOf c = s.token.balanceOf c

/-- All that is settled for a controller is claimed, and paid to it. -/
structure Cleared (d : Deployment) (c : Address) (s t : State) : Prop where
  settled : settledOf t.toRedemptions c = 0
  balance : c ≠ d.self →
    t.token.balanceOf c = s.token.balanceOf c + claimable Request.hollarOwed s.toQueueStore c

/-- A controller opted in, and the redeem of all that is settled for it goes through. -/
def Redeemable (d : Deployment) (keeper c : Address) (s : State) : Prop :=
  s.autoClaimEnabled c = true ∧ ∃ r, redeem d s keeper (settledOf s.toRedemptions c) c c = .ok r

/-- What the pass comes to for a controller. -/
def Answered (d : Deployment) (keeper c : Address) (s t : State) : Prop :=
  (Redeemable d keeper c s → Cleared d c s t) ∧ (¬ Redeemable d keeper c s → LeftAlone d c s t)

/-- What no claim changes. -/
structure SameGuards (s t : State) : Prop where
  access : t.toAccess = s.toAccess
  settings : t.toSettings = s.toSettings

section Claim

variable {d : Deployment} {s t u : State} {c c' keeper : Address}

theorem LeftAlone.refl (s : State) : LeftAlone d c s s := ⟨rfl, fun _ _ => rfl, rfl, fun _ => rfl⟩

theorem LeftAlone.trans (h : LeftAlone d c s t) (h' : LeftAlone d c t u) : LeftAlone d c s u where
  index := h'.index.trans h.index
  requests i hi := by
    have hold := h.requests i hi
    rw [h'.requests i (by rw [hold]; exact hi), hold]
  settled := h'.settled.trans h.settled
  balance hc := (h'.balance hc).trans (h.balance hc)

/-- The index of a controller and what it adds up to come from its own requests. -/
theorem LeftAlone.claimable_eq (h : LeftAlone d c s t) (hs : IndexSound s.toRedemptions) (f : Request → Nat) :
    claimable f t.toQueueStore c = claimable f s.toQueueStore c := by
  unfold claimable
  rw [h.index]
  congr 1
  apply List.map_congr_left
  intro i hi
  rw [h.requests i (hs.sound c i hi).1]

/-- The index of a controller lists no more than all its settled shares. -/
theorem claimable_le_settledOf {q : Redemptions} (hs : IndexSound q) (hl : QueueLedger q) (c : Address) :
    claimable Request.bilSettled q.toQueueStore c ≤ settledOf q c := by
  refine le_trans (le_of_eq ?_) (claimable_le (fun r => if r.user = c then r.bilSettled else 0) hs hl c)
  unfold claimable
  congr 1
  apply List.map_congr_left
  intro i hi
  exact (if_pos (hs.sound c i hi).1).symm

/-- A claim of one controller keeps what the others have. -/
theorem Claimed.kept {v : ClaimUnit} {receiver : Address} {r : ClaimRun} (hinv : Invariant d s)
    (h : Claimed d v c receiver r s t) (hc : c' ≠ c) (hreceiver : c' ≠ receiver) : LeftAlone d c' s t := by
  obtain ⟨hl, huntouched⟩ := draws_untouched hinv.ledger h.draws
  refine ⟨huntouched.index c' hc, fun i hi => huntouched.others i (by rw [hi]; exact hc), ?_, fun hself => ?_⟩
  · unfold settledOf
    rw [huntouched.tail]
    refine Finset.sum_congr rfl fun i _ => ?_
    by_cases hi : (s.redemptionQueue i).user = c
    · -- a request of the claimed controller counts for no other, before and after
      have hold : (if (s.redemptionQueue i).user = c' then (s.redemptionQueue i).bilSettled else 0) = 0 :=
        if_neg (by rw [hi]; exact hc.symm)
      rw [hold]
      rcases huntouched.own i hi with hown | hempty
      · exact if_neg (by rw [hown]; exact hc.symm)
      · rw [hempty]
        exact ite_self _
    · rw [huntouched.others i hi]
  · obtain ⟨-, -, -, htoken⟩ := ERC20.transfer_ok_iff.1 h.paid
    rw [← htoken, ERC20.move_balanceOf, if_neg hreceiver, if_neg hself]

/-- A claim of all that is settled clears its controller: a walk that finds as much finds it in the index. -/
theorem redeem_clears {shares paid : Nat} {sender : Address} (hinv : Invariant d s)
    (hshares : shares = settledOf s.toRedemptions c)
    (h : redeem d s sender shares c c = .ok (t, paid)) : Cleared d c s t := by
  obtain ⟨r, hwalk, rfl, rfl, -, hclaimed⟩ := redeem_claimed hinv.ledger h
  have htaken := claim_taken hinv hwalk hclaimed.queue
  have hleft : claimable Request.bilSettled t.toQueueStore c = 0 := by
    have := htaken.settled rfl
    have := claimable_le_settledOf hinv.index hinv.ledger c
    omega
  refine ⟨?_, fun hself => ?_⟩
  · have := htaken.all
    omega
  · have howed := htaken.owed
    rw [claimable_owed_zero htaken.index hleft, Nat.zero_add] at howed
    obtain ⟨-, -, -, htoken⟩ := ERC20.transfer_ok_iff.1 hclaimed.paid
    rw [← htoken, ← howed]
    exact s.token.move_target _ _ _ hself

/-- The guards of the claim for a controller that opted in. -/
theorem mayClaim_opted (hpaused : s.paused = false) (hrole : s.hasRole .claimOperator keeper = true) (hc : c ≠ 0)
    (hopted : s.autoClaimEnabled c = true) : MayClaim s keeper c c :=
  ⟨hpaused, require_ok_iff.2 (.inr (.inr ⟨hrole, hopted, rfl⟩)), hc⟩

/-- A controller left alone is served as it was before: the walk reads its index and the requests listed there. -/
theorem LeftAlone.redeemable (h : LeftAlone d c s t) (hguards : SameGuards s t) (hs : Invariant d s) (ht : Invariant d t)
    (hpaused : s.paused = false) (hrole : s.hasRole .claimOperator keeper = true) (hc : c ≠ 0) :
    Redeemable d keeper c t ↔ Redeemable d keeper c s := by
  have hpaused' : t.paused = false := by rw [hguards.settings]; exact hpaused
  have hrole' : t.hasRole .claimOperator keeper = true := by rw [hguards.access]; exact hrole
  have hlisted : ∀ i ∈ s.settledByController c, t.redemptionQueue i = s.redemptionQueue i := fun i hi =>
    h.requests i (hs.index.sound c i hi).1
  unfold Redeemable
  rw [hguards.access, h.settled]
  refine and_congr_right fun hopted => ?_
  have hopted' : t.autoClaimEnabled c = true := by rw [hguards.access]; exact hopted
  rw [redeem_goes_iff ht (mayClaim_opted hpaused' hrole' hc hopted'),
    redeem_goes_iff hs (mayClaim_opted hpaused hrole hc hopted)]
  refine and_congr_right fun _ => ⟨?_, ?_⟩
  · rintro ⟨r, hwalk⟩
    obtain ⟨r', hwalk', -⟩ := claimWalk_alike h.index.symm (fun i hi => (hlisted i (by rw [← h.index]; exact hi)).symm)
      hwalk
    exact ⟨r', hwalk'⟩
  · rintro ⟨r, hwalk⟩
    obtain ⟨r', hwalk', -⟩ := claimWalk_alike h.index hlisted hwalk
    exact ⟨r', hwalk'⟩

/-- The claim for one controller serves it, and keeps what the others have. -/
theorem claimFor_serves {shares : Nat} (h : Reachable d s) (hkeeper : keeper ≠ d.self)
    (hshares : shares = settledOf s.toRedemptions c) (ht : claimFor d keeper s (c, shares) = t) :
    Reachable d t ∧ SameGuards s t ∧ Answered d keeper c s t ∧ ∀ c', c' ≠ c → LeftAlone d c' s t := by
  have hinv := h.inv
  by_cases hserved : Redeemable d keeper c s
  · obtain ⟨hopted, ⟨u, paid⟩, hredeem⟩ := id hserved
    rw [← hshares] at hredeem
    have hclaim : claimFor d keeper s (c, shares) = u := by
      unfold claimFor
      rw [if_pos hopted, hredeem]
    obtain rfl := hclaim.symm.trans ht
    obtain ⟨r, -, -, -, -, hclaimed⟩ := redeem_claimed hinv.ledger hredeem
    refine ⟨.step (.call keeper demoQuiet (.redeem shares c c)) h ⟨hkeeper, [], ?_⟩, ?_, ?_,
      fun c' hne => hclaimed.kept hinv hne hne⟩
    · simp only [step, Call.run, bind_ok_iff, pure_ok_iff, Prod.exists, Prod.mk.injEq]
      exact ⟨u, paid, hredeem, rfl, trivial⟩
    · rw [hclaimed.rest]
      exact ⟨rfl, rfl⟩
    · exact ⟨fun _ => redeem_clears hinv hshares hredeem, fun hnot => absurd hserved hnot⟩
  · -- a controller that did not opt in is passed by, and a redeem that reverts changes nothing
    have hstay : claimFor d keeper s (c, shares) = s := by
      unfold claimFor
      split_ifs with hopted
      · cases hredeem : redeem d s keeper shares c c with
        | error e => rfl
        | ok r => exact absurd ⟨hopted, r, by rw [← hshares]; exact hredeem⟩ hserved
      · rfl
    obtain rfl : s = t := hstay.symm.trans ht
    exact ⟨h, ⟨rfl, rfl⟩, ⟨fun hyes => absurd hyes hserved, fun _ => .refl s⟩, fun c' _ => .refl s⟩

end Claim

/-! ## All of them -/

section Pass

variable {d : Deployment} {keeper : Address}

/-- What an entry of the map says of a state. -/
structure EntryOf (s : State) (e : Address × Nat) : Prop where
  key : e.1 ≠ 0
  sum : e.2 = settledOf s.toRedemptions e.1

theorem LeftAlone.entryOf {s t : State} {e : Address × Nat} (h : LeftAlone d e.1 s t) (he : EntryOf s e) : EntryOf t e :=
  ⟨he.key, he.sum.trans h.settled.symm⟩

/-- A controller served and then left alone. -/
theorem Answered.then_kept {s t u : State} {c : Address} (h : Answered d keeper c s t) (h' : LeftAlone d c t u) :
    Answered d keeper c s u where
  left hserved :=
    have hcleared := h.1 hserved
    ⟨h'.settled.trans hcleared.settled, fun hc => (h'.balance hc).trans (hcleared.balance hc)⟩
  right hnot := (h.2 hnot).trans h'

/-- A controller left alone and then served. -/
theorem LeftAlone.then_served {s t u : State} {c : Address} (h : LeftAlone d c s t) (hs : IndexSound s.toRedemptions)
    (hiff : Redeemable d keeper c t ↔ Redeemable d keeper c s) (h' : Answered d keeper c t u) :
    Answered d keeper c s u := by
  refine ⟨fun hserved => ?_, fun hnot => h.trans (h'.2 fun hserved => hnot (hiff.1 hserved))⟩
  have hcleared := h'.1 (hiff.2 hserved)
  refine ⟨hcleared.settled, fun hc => ?_⟩
  rw [hcleared.balance hc, h.balance hc, h.claimable_eq hs]

/-- The pass over any entries of different controllers, each the sum of its own. -/
theorem claims_serve : ∀ (es : List (Address × Nat)) {s : State}, Reachable d s → keeper ≠ d.self →
    s.paused = false → s.hasRole .claimOperator keeper = true → (es.map Prod.fst).Nodup → (∀ e ∈ es, EntryOf s e) →
    Reachable d (es.foldl (claimFor d keeper) s) ∧
      (∀ c ∈ es.map Prod.fst, Answered d keeper c s (es.foldl (claimFor d keeper) s)) ∧
      ∀ c, c ∉ es.map Prod.fst → LeftAlone d c s (es.foldl (claimFor d keeper) s)
  | [], s, h, _, _, _, _, _ => ⟨h, fun _ hc => absurd hc List.not_mem_nil, fun _ _ => .refl s⟩
  | (c, shares) :: es, s, h, hkeeper, hpaused, hrole, hnodup, hentries => by
    obtain ⟨hnot, hnodup⟩ := List.nodup_cons.1 hnodup
    obtain ⟨ht, hguards, hanswered, hkept⟩ := claimFor_serves h hkeeper (hentries _ List.mem_cons_self).sum rfl
    rw [List.foldl_cons]
    generalize claimFor d keeper s (c, shares) = t at ht hguards hanswered hkept
    have hother : ∀ {c'}, c' ∈ es.map Prod.fst → c' ≠ c := by
      rintro c' hc' rfl
      exact hnot hc'
    -- the other entries read the same after the first claim
    obtain ⟨hu, hes, hrest⟩ := claims_serve es ht hkeeper (by rw [hguards.settings]; exact hpaused)
      (by rw [hguards.access]; exact hrole) hnodup fun e he =>
        (hkept e.1 (hother (List.mem_map_of_mem he))).entryOf (hentries e (List.mem_cons_of_mem _ he))
    refine ⟨hu, fun c' hc' => ?_, fun c' hc' => ?_⟩
    · rcases List.mem_cons.1 hc' with rfl | hc'
      · exact hanswered.then_kept (hrest c' hnot)
      · obtain ⟨e, he, rfl⟩ := List.mem_map.1 hc'
        have halone := hkept e.1 (hother hc')
        exact halone.then_served h.inv.index
          (halone.redeemable hguards h.inv ht.inv hpaused hrole (hentries e (List.mem_cons_of_mem _ he)).key)
          (hes e.1 hc')
    · rw [List.map_cons, List.mem_cons, not_or] at hc'
      exact (hkept c' hc'.1).trans (hrest c' hc'.2)

/-- A controller with nothing settled has no redeem to serve it. -/
theorem not_redeemable_zero {s : State} {c : Address} (hzero : settledOf s.toRedemptions c = 0) :
    ¬ Redeemable d keeper c s := by
  rintro ⟨-, ⟨t, paid⟩, hredeem⟩
  simp only [redeem, bind_ok_iff, require_ok_iff] at hredeem
  obtain ⟨_, -, _, hne, -⟩ := hredeem
  exact hne hzero

/-- Where no product overflows, the controllers served are those whose index lists all that is settled. -/
theorem redeems_iff_listed {s : State} {c : Address} (hinv : Invariant d s) (hpaused : s.paused = false)
    (hrole : s.hasRole .claimOperator keeper = true) (hc : c ≠ 0) (hopted : s.autoClaimEnabled c = true)
    (hfit : ProductsFit s c) : (∃ r, redeem d s keeper (settledOf s.toRedemptions c) c c = .ok r) ↔
      settledOf s.toRedemptions c ≠ 0 ∧ claimable Request.bilSettled s.toQueueStore c = settledOf s.toRedemptions c := by
  have hle := claimable_le_settledOf hinv.index hinv.ledger c
  rw [(redeem_exact hinv (mayClaim_opted hpaused hrole hc hopted) hfit _).1]
  omega

theorem autoClaimSettled_eq (s : State) :
    autoClaimSettled d keeper s = (autoClaimable s).foldl (claimFor d keeper) s := by
  unfold autoClaimSettled
  split_ifs with hlength
  · unfold autoClaimable
    rw [hlength]
    rfl
  · rfl

end Pass

/-- In every reachable state, unpaused, a pass of a keeper with the role that nobody disturbs is a run of
the vault. It claims all that is settled for every controller that opted in and whose sum it can redeem in
that state, and pays it what the view says it may withdraw; of any other controller it leaves the index, the
requests and the HOLLAR. Where the products of a controller fit, its sum can be redeemed exactly when it is
something and the view of what it may redeem gives the same. -/
theorem autoClaim_clears {d : Deployment} {s : State} {keeper : Address} (h : Reachable d s) (hkeeper : keeper ≠ d.self)
    (hpaused : s.paused = false) (hrole : s.hasRole .claimOperator keeper = true) :
    Reachable d (autoClaimSettled d keeper s) ∧ ∀ c,
      (s.autoClaimEnabled c = true ∧ (∃ r, redeem d s keeper (autoClaimSum s c) c c = .ok r) →
        maxRedeem (autoClaimSettled d keeper s) c = .ok 0 ∧
        settledOf (autoClaimSettled d keeper s).toRedemptions c = 0 ∧
        ∃ mw, maxWithdraw s c = .ok mw ∧
          (c ≠ d.self → (autoClaimSettled d keeper s).token.balanceOf c = s.token.balanceOf c + mw)) ∧
      (¬ (s.autoClaimEnabled c = true ∧ ∃ r, redeem d s keeper (autoClaimSum s c) c c = .ok r) →
        LeftAlone d c s (autoClaimSettled d keeper s)) ∧
      (s.autoClaimEnabled c = true → ProductsFit s c →
        ((∃ r, redeem d s keeper (autoClaimSum s c) c c = .ok r) ↔
          autoClaimSum s c ≠ 0 ∧ maxRedeem s c = .ok (autoClaimSum s c))) := by
  have hinv := h.inv
  obtain ⟨ht, hlisted, hkept⟩ := claims_serve (autoClaimable s) h hkeeper hpaused hrole
    (autoClaimable_map s).nodup fun e he => ⟨(autoClaimable_map s).key e he, autoClaimable_sum hinv.ledger he⟩
  rw [← autoClaimSettled_eq] at ht hlisted hkept
  refine ⟨ht, fun c => ?_⟩
  rw [autoClaimSum_settled hinv.ledger, hinv.maxRedeem, Except.ok.injEq]
  have hall : Answered d keeper c s (autoClaimSettled d keeper s) := by
    by_cases hc : c ∈ (autoClaimable s).map Prod.fst
    · exact hlisted c hc
    · exact ⟨fun hserved => absurd hserved (not_redeemable_zero (autoClaimable_none hinv.ledger hc)), fun _ => hkept c hc⟩
  refine ⟨fun hserved => ?_, hall.2, fun hopted hfit => ?_⟩
  · obtain ⟨hsettled, hbalance⟩ := hall.1 hserved
    refine ⟨?_, hsettled, _, hinv.maxWithdraw c, hbalance⟩
    have hle := claimable_le_settledOf ht.inv.index ht.inv.ledger c
    rw [ht.inv.maxRedeem, Nat.le_zero.1 (hle.trans hsettled.le)]
  · by_cases hc : c ∈ (autoClaimable s).map Prod.fst
    · obtain ⟨e, he, rfl⟩ := List.mem_map.1 hc
      exact redeems_iff_listed hinv hpaused hrole ((autoClaimable_map s).key e he) hopted hfit
    · have hzero := autoClaimable_none hinv.ledger hc
      refine ⟨fun hredeem => ?_, fun hne => absurd hzero hne.1⟩
      exact absurd ⟨hopted, hredeem⟩ (not_redeemable_zero hzero)

/-- Alice opts in, and bob gets the role. -/
def claimRun : List Action :=
  demoRun ++ [.call 0xad demoQuiet (.grantRole .claimOperator bob), .call alice demoQuiet (.setAutoClaim true)]

/-- The pass of bob claims both of her requests. -/
theorem autoClaim_clears_demo : ∃ s, Reachable demo s ∧ settledOf s.toRedemptions alice = 32 * 10 ^ 18 ∧
    settledOf (autoClaimSettled demo bob s).toRedemptions alice = 0 := by
  obtain ⟨s, hs, ht⟩ := observe_reach demo DeadSilent demoQuiet demoSetup claimRun
    (fun s => decide (s.paused = false ∧ s.hasRole .claimOperator bob = true ∧ s.autoClaimEnabled alice = true ∧
      autoClaimSum s alice = 32 * 10 ^ 18) &&
      passes (redeem demo s bob (autoClaimSum s alice) alice alice) fun _ => true) (by decide +kernel)
  rw [Bool.and_eq_true, decide_eq_true_iff] at ht
  obtain ⟨⟨hpaused, hrole, hopted, hsum⟩, hredeem⟩ := ht
  obtain ⟨r, hredeem, -⟩ := passes_ok hredeem
  have hinv : Invariant demo s := Reachable.inv hs.of_restrict
  obtain ⟨-, hall⟩ := autoClaim_clears hs.of_restrict (show bob ≠ demo.self by decide) hpaused hrole
  refine ⟨s, hs.of_restrict, ?_, ((hall alice).1 ⟨hopted, r, hredeem⟩).2.1⟩
  rw [← autoClaimSum_settled hinv.ledger, hsum]

end MoneyMarket
