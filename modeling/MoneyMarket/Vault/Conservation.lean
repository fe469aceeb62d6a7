/-
Accounts of the requests. Next to every run of the vault an account of each request is kept: the
shares escrowed for it, refunded and burned, and the HOLLAR locked into it and paid out. The entries
are the tokens that move (`Movement`), and the accounts balance in every state
(`request_conservation`).
-/
import MoneyMarket.Vault.Claiming
import MoneyMarket.Vault.Course

namespace MoneyMarket

open Evm Relation Transition

/-! ## Accounts -/

structure RequestAccount where
  escrowed : Nat
  refunded : Nat
  burned : Nat
  locked : Nat
  paid : Nat
  deriving DecidableEq

def RequestAccount.empty : RequestAccount := ⟨0, 0, 0, 0, 0⟩

/-- The account of request `i` after an action that led from `s` to `t`. -/
def RequestAccount.book (account : RequestAccount) (s t : State) (i : Nat) : Action → RequestAccount
  | .call _ _ (.requestRedeem shares _ _) =>
    if i = s.queueTail then { account with escrowed := account.escrowed + shares } else account
  | .call _ _ (.cancelRedeem requestId) =>
    if i = requestId then
      { account with
        refunded := account.refunded + ((s.redemptionQueue i).bilAmount - (s.redemptionQueue i).bilSettled) }
    else account
  | .call _ _ (.redeem _ _ _) | .call _ _ (.withdraw _ _ _) =>
    { account with
      burned := account.burned + ((s.redemptionQueue i).bilAmount - (t.redemptionQueue i).bilAmount)
      paid := account.paid + ((s.redemptionQueue i).hollarOwed - (t.redemptionQueue i).hollarOwed) }
  | .call _ _ (.pokeDecentral _) | .call _ _ .pokeQueue =>
    { account with
      locked := account.locked + ((t.redemptionQueue i).hollarOwed - (s.redemptionQueue i).hollarOwed) }
  | _ => account

/-- The runs of the vault with the accounts of all requests. -/
def bookedVault (d : Deployment) : System (State × (Nat → RequestAccount)) Action where
  init p := (vault d).init p.1 ∧ p.2 = fun _ => .empty
  next p a p' := (vault d).next p.1 a p'.1 ∧ p'.2 = fun i => (p.2 i).book p.1 p'.1 i a

/-- The account of a request adds up to what the request has. -/
structure RequestAccount.Balances (account : RequestAccount) (request : Request) : Prop where
  shares : account.escrowed = account.refunded + account.burned + request.bilAmount
  hollar : account.locked = account.paid + request.hollarOwed

namespace RequestAccount.Balances

variable {account : RequestAccount} {r r' : Request}

theorem escrow {controller : Address} {shares : Nat} (h : account.Balances .empty) :
    Balances { account with escrowed := account.escrowed + shares } ⟨controller, shares, 0, 0⟩ := by
  refine ⟨?_, h.hollar⟩
  show account.escrowed + shares = account.refunded + account.burned + shares
  rw [h.shares]
  rfl

theorem refund (h : account.Balances r) (hle : r.bilSettled ≤ r.bilAmount) (hamount : r'.bilAmount = r.bilSettled)
    (howed : r'.hollarOwed = r.hollarOwed) :
    Balances { account with refunded := account.refunded + (r.bilAmount - r.bilSettled) } r' := by
  obtain ⟨hshares, hhollar⟩ := h
  constructor
  · show account.escrowed = account.refunded + (r.bilAmount - r.bilSettled) + account.burned + r'.bilAmount
    omega
  · show account.locked = account.paid + r'.hollarOwed
    omega

theorem claim (h : account.Balances r) (hamount : r'.bilAmount ≤ r.bilAmount) (howed : r'.hollarOwed ≤ r.hollarOwed) :
    Balances
      { account with
        burned := account.burned + (r.bilAmount - r'.bilAmount)
        paid := account.paid + (r.hollarOwed - r'.hollarOwed) } r' := by
  obtain ⟨hshares, hhollar⟩ := h
  constructor
  · show account.escrowed = account.refunded + (account.burned + (r.bilAmount - r'.bilAmount)) + r'.bilAmount
    omega
  · show account.locked = account.paid + (r.hollarOwed - r'.hollarOwed) + r'.hollarOwed
    omega

theorem lock (h : account.Balances r) (hamount : r'.bilAmount = r.bilAmount) (howed : r.hollarOwed ≤ r'.hollarOwed) :
    Balances { account with locked := account.locked + (r'.hollarOwed - r.hollarOwed) } r' := by
  obtain ⟨hshares, hhollar⟩ := h
  constructor
  · show account.escrowed = account.refunded + account.burned + r'.bilAmount
    omega
  · show account.locked + (r'.hollarOwed - r.hollarOwed) = account.paid + r'.hollarOwed
    omega

end RequestAccount.Balances

/-! ## Movements -/

/-- The calls that change requests. -/
def Action.TouchesRequests : Action → Prop
  | .call _ _ (.requestRedeem _ _ _) | .call _ _ (.cancelRedeem _) | .call _ _ (.redeem _ _ _)
  | .call _ _ (.withdraw _ _ _) | .call _ _ (.pokeDecentral _) | .call _ _ .pokeQueue => True
  | _ => False

theorem Call.Configures.untouching {m : Address} {env : Replies} {c : Call} (h : c.Configures) :
    ¬ (Action.call m env c).TouchesRequests := by
  cases c <;> first | exact h.elim | exact id

/-- What a step does to the requests, and the tokens that move with it: a request escrows its shares,
a cancel refunds what is pending, a claim burns and pays what it draws from the requests of its
controller, and a poke locks HOLLAR at the rate. -/
inductive Movement (d : Deployment) (s t : State) : List Payout → Action → Prop
  | escrow {m : Address} {env : Replies} (shares : Nat) (controller owner : Address) :
      (s.bil.transfer owner d.self shares : Tx ERC20) = .ok t.bil →
      t.redemptionQueue = Function.update s.redemptionQueue s.queueTail ⟨controller, shares, 0, 0⟩ →
      Movement d s t [] (.call m env (.requestRedeem shares controller owner))
  | refund {m : Address} {env : Replies} (i : Nat) : (s.redemptionQueue i).user ≠ 0 →
      (t.bil = s.bil ∧ (s.redemptionQueue i).bilSettled = (s.redemptionQueue i).bilAmount ∨
        (s.bil.transfer d.self (s.redemptionQueue i).user
          ((s.redemptionQueue i).bilAmount - (s.redemptionQueue i).bilSettled) : Tx ERC20) = .ok t.bil) →
      (t.redemptionQueue i).bilAmount = (s.redemptionQueue i).bilSettled →
      (t.redemptionQueue i).bilSettled = (s.redemptionQueue i).bilSettled →
      (t.redemptionQueue i).hollarOwed = (s.redemptionQueue i).hollarOwed →
      (∀ j, j ≠ i → t.redemptionQueue j = s.redemptionQueue j) → Movement d s t [] (.call m env (.cancelRedeem i))
  | claim {m : Address} {env : Replies} {c : Call} (amount : Nat) (receiver controller : Address) :
      c = .redeem amount receiver controller ∨ c = .withdraw amount receiver controller →
      (s.bil.burn d.self (∑ i ∈ Finset.range s.queueTail,
        ((s.redemptionQueue i).bilAmount - (t.redemptionQueue i).bilAmount)) : Tx ERC20) = .ok t.bil →
      (s.token.transfer d.self receiver (∑ i ∈ Finset.range s.queueTail,
        ((s.redemptionQueue i).hollarOwed - (t.redemptionQueue i).hollarOwed)) : Tx ERC20) = .ok t.token →
      Untouched controller s.toRedemptions t.toRedemptions → Movement d s t [] (.call m env c)
  | lock {m : Address} {env : Replies} {c : Call} {ps : List Payout} : c = .pokeQueue ∨ (∃ i, c = .pokeDecentral i) →
      Settlement d s c ps t → Movement d s t ps (.call m env c)
  | rest {a : Action} : ¬ a.TouchesRequests → t.redemptionQueue = s.redemptionQueue → Movement d s t [] a

section Movements

variable {d : Deployment} {env : Replies} {s t : State} {m : Address}

/-- What a claim burns and pays is what leaves the requests. -/
theorem Claimed.movement {u : ClaimUnit} {controller receiver : Address} {r : ClaimRun} {c : Call} {amount : Nat}
    (hinv : Invariant d s) (h : Claimed d u controller receiver r s t)
    (hc : c = .redeem amount receiver controller ∨ c = .withdraw amount receiver controller) :
    Movement d s t [] (.call m env c) := by
  obtain ⟨hl, hqueue⟩ := draws_untouched hinv.ledger h.draws
  obtain ⟨hshares, hassets⟩ := h.within
  have hsettled := hinv.ledger.totalSettled_le
  have hqueued : t.totalQueuedBil = s.totalQueuedBil - r.shares := congrArg Redemptions.totalQueuedBil h.queue
  have hreserved : t.totalReservedHollar = s.totalReservedHollar - r.assets :=
    congrArg Redemptions.totalReservedHollar h.queue
  have htail : t.queueTail = s.queueTail := hqueue.tail
  refine .claim amount receiver controller hc ?_ ?_ hqueue
  · have hsum := Finset.sum_tsub_distrib (Finset.range s.queueTail) fun i _ => hqueue.amount_le i
    rw [← hinv.ledger.queued, ← htail, ← hl.queued, htail] at hsum
    rw [hsum, hqueued, Nat.sub_sub_self (le_trans hshares hsettled)]
    exact h.burned
  · have hsum := Finset.sum_tsub_distrib (Finset.range s.queueTail) fun i _ => hqueue.owed_le i
    rw [← hinv.ledger.reserved, ← htail, ← hl.reserved, htail] at hsum
    rw [hsum, hreserved, Nat.sub_sub_self hassets]
    exact h.paid

theorem cancelRedeem_movement {i : Nat} (hl : QueueLedger s.toRedemptions) (h : cancelRedeem d s m i = .ok t) :
    Movement d s t [] (.call m env (.cancelRedeem i)) := by
  obtain ⟨huser, -, hbil, -, hqueue⟩ := cancelRedeem_ok h
  have hi : t.redemptionQueue i = if (s.redemptionQueue i).bilSettled = 0 then Request.empty
      else { s.redemptionQueue i with bilAmount := (s.redemptionQueue i).bilSettled } := by
    rw [hqueue]
    exact Function.update_self ..
  refine .refund i huser hbil ?_ ?_ ?_ fun j hj => ?_
  · rw [hi]
    split_ifs with h0
    · exact h0.symm
    · rfl
  · rw [hi]
    split_ifs with h0
    · exact h0.symm
    · rfl
  · rw [hi]
    split_ifs with h0
    · exact ((hl.live i huser).unowed h0).symm
    · rfl
  · rw [hqueue]
    exact Function.update_of_ne hj _ _

theorem Course.movement {c : Call} {ps : List Payout} (hinv : Invariant d s) (h : Course d env m s c t ps) :
    Movement d s t ps (.call m env c) := by
  cases h with
  | deposit assets shares receiver h =>
    obtain ⟨_, _, _, -, -, -, -, hopen⟩ := depositShares_outlay h
    cases hopen
    exact .rest id rfl
  | mint assets shares receiver h =>
    obtain ⟨_, _, _, -, -, -, -, hopen⟩ := depositShares_outlay h
    cases hopen
    exact .rest id rfl
  | requestRedeem shares id controller owner h =>
    obtain ⟨-, -, hbil, -, hqueue⟩ := requestRedeem_ok h
    exact .escrow shares controller owner hbil (congrArg (fun q => q.redemptionQueue) hqueue)
  | cancelRedeem requestId h => exact cancelRedeem_movement hinv.ledger h
  | redeem shares paid receiver controller h =>
    obtain ⟨r, -, -, -, -, hclaim⟩ := redeem_claimed hinv.ledger h
    exact hclaim.movement hinv (.inl rfl)
  | withdraw assets burnt receiver controller h =>
    obtain ⟨r, -, -, -, -, hclaim⟩ := withdraw_claimed hinv.ledger h
    exact hclaim.movement hinv (.inr rfl)
  | pokeDecentral i _ hsettle => exact .lock (.inr ⟨i, rfl⟩) hsettle
  | pokeQueue _ hsettle => exact .lock (.inl rfl) hsettle
  | syncMaturities n _ hqueue => exact .rest id (congrArg (fun q => q.redemptionQueue) hqueue)
  | share c bil _ => exact .rest id rfl
  | configure g f p hc =>
    exact .rest hc.untouching rfl

theorem step_movement {a : Action} {ps : List Payout} (hinv : Invariant d s) (h : step d s a = .ok (t, ps)) :
    Movement d s t ps a := by
  cases a with
  | call sender env c => exact (call_course h).movement hinv
  | tick now =>
    cases h
    exact .rest id rfl
  | hollar sender c =>
    simp only [step, bind_ok_iff, pure_ok_iff, Prod.mk.injEq] at h
    obtain ⟨_, -, rfl, rfl⟩ := h
    exact .rest id rfl
  | hollarMint account amount =>
    simp only [step, bind_ok_iff, pure_ok_iff, Prod.mk.injEq] at h
    obtain ⟨_, -, rfl, rfl⟩ := h
    exact .rest id rfl
  | hollarBurn account amount =>
    simp only [step, bind_ok_iff, pure_ok_iff, Prod.mk.injEq] at h
    obtain ⟨_, -, rfl, rfl⟩ := h
    exact .rest id rfl

/-- A poke only adds to what a request has settled and is owed. -/
theorem LockedAt.grows {s₁ : State} {rate : Nat} (h : LockedAt s₁ s t rate) (i : Nat) :
    (t.redemptionQueue i).bilAmount = (s.redemptionQueue i).bilAmount ∧
      (s.redemptionQueue i).bilSettled ≤ (t.redemptionQueue i).bilSettled ∧
      (s.redemptionQueue i).hollarOwed ≤ (t.redemptionQueue i).hollarOwed := by
  refine ⟨h.locks.amount i, h.locks.settled i, ?_⟩
  rw [h.locks.owed i]
  exact Nat.le_add_right _ _

theorem Settlement.grows {c : Call} {ps : List Payout} (h : Settlement d s c ps t) (i : Nat) :
    (t.redemptionQueue i).bilAmount = (s.redemptionQueue i).bilAmount ∧
      (s.redemptionQueue i).bilSettled ≤ (t.redemptionQueue i).bilSettled ∧
      (s.redemptionQueue i).hollarOwed ≤ (t.redemptionQueue i).hollarOwed := by
  cases h with
  | none hqueue =>
    have hqueue : t.redemptionQueue = s.redemptionQueue := congrArg (fun q => q.redemptionQueue) hqueue
    rw [hqueue]
    exact ⟨rfl, le_refl _, le_refl _⟩
  | queue _ _ _ _ hlocked => exact hlocked.grows i
  | position _ _ _ _ _ _ _ hlocked => exact hlocked.grows i

/-- Booking a movement keeps the account of a request balanced. -/
theorem Movement.balances {a : Action} {ps : List Payout} {account : RequestAccount} {i : Nat}
    (hl : QueueLedger s.toRedemptions) (hm : Movement d s t ps a) (h : account.Balances (s.redemptionQueue i)) :
    (account.book s t i a).Balances (t.redemptionQueue i) := by
  cases hm with
  | escrow shares controller owner _ hqueue =>
    show RequestAccount.Balances
      (if i = s.queueTail then { account with escrowed := account.escrowed + shares } else account) _
    rw [hqueue]
    by_cases hi : i = s.queueTail
    · -- the slot of the next id is empty
      subst hi
      rw [hl.blank _ (.inr (le_refl _))] at h
      rw [if_pos rfl, Function.update_self]
      exact h.escrow
    · rw [if_neg hi, Function.update_of_ne hi]
      exact h
  | refund j _ _ hamount _ howed hrest =>
    show RequestAccount.Balances
      (if i = j then
        { account with
          refunded := account.refunded + ((s.redemptionQueue i).bilAmount - (s.redemptionQueue i).bilSettled) }
      else account) _
    by_cases hi : i = j
    · subst hi
      rw [if_pos rfl]
      exact h.refund (hl.settled_le_amount i) hamount howed
    · rw [if_neg hi, hrest i hi]
      exact h
  | claim amount receiver controller hc _ _ hqueue =>
    have hclaim := h.claim (hqueue.amount_le i) (hqueue.owed_le i)
    rcases hc with rfl | rfl
    · exact hclaim
    · exact hclaim
  | lock hc hsettle =>
    obtain ⟨hamount, -, howed⟩ := hsettle.grows i
    have hlock := h.lock hamount howed
    rcases hc with rfl | ⟨j, rfl⟩
    · exact hlock
    · exact hlock
  | rest htouch hqueue =>
    rw [hqueue]
    unfold RequestAccount.book
    split
    all_goals first | exact absurd trivial htouch | exact h

/-- What a step settles it settles in a poke, every request at the one rate after the sync of the poke and
its payouts. -/
theorem Movement.settled {a : Action} {ps : List Payout} (hm : Movement d s t ps a)
    (hmore : ∃ i, (s.redemptionQueue i).bilSettled < (t.redemptionQueue i).bilSettled ∨
      (s.redemptionQueue i).hollarOwed < (t.redemptionQueue i).hollarOwed) :
    (∃ m env, a = .call m env .pokeQueue ∨ ∃ j, a = .call m env (.pokeDecentral j)) ∧
      ∃ s₀ k s₁ rate, syncMaturities s maxMaturitySync = .ok (s₀, k) ∧ Works d s₀ ps s₁ ∧
        ((∃ m env, a = .call m env .pokeQueue) → s₁ = s₀) ∧ s₁.toRedemptions = s.toRedemptions ∧
        exchangeRate s₁ = .ok rate ∧ ∀ i, (s.redemptionQueue i).bilSettled ≤ (t.redemptionQueue i).bilSettled ∧
          (t.redemptionQueue i).hollarOwed = (s.redemptionQueue i).hollarOwed +
            ((t.redemptionQueue i).bilSettled - (s.redemptionQueue i).bilSettled) * rate / wad := by
  obtain ⟨i, hmore⟩ := hmore
  cases hm with
  | escrow shares controller owner _ hqueue =>
    rw [hqueue] at hmore
    by_cases hi : i = s.queueTail
    · subst hi
      rw [Function.update_self] at hmore
      rcases hmore with h | h
      · exact absurd h (Nat.not_lt_zero _)
      · exact absurd h (Nat.not_lt_zero _)
    · rw [Function.update_of_ne hi] at hmore
      rcases hmore with h | h
      · exact absurd h (lt_irrefl _)
      · exact absurd h (lt_irrefl _)
  | refund j _ _ _ hsettled howed hrest =>
    by_cases hi : i = j
    · subst hi
      omega
    · rw [hrest i hi] at hmore
      omega
  | claim amount receiver controller _ _ _ hqueue =>
    have := hqueue.settled_le i
    have := hqueue.owed_le i
    omega
  | @lock m env c ps hc hsettle =>
    cases hsettle with
    | none hqueue =>
      have hqueue : t.redemptionQueue = s.redemptionQueue := congrArg (fun q => q.redemptionQueue) hqueue
      rw [hqueue] at hmore
      omega
    | queue s₁ k rate hsync hlocked =>
      exact ⟨⟨m, env, .inl rfl⟩, s₁, k, s₁, rate, hsync, .refl s₁, fun _ => rfl, hlocked.queue, hlocked.priced,
        fun i => ⟨hlocked.locks.settled i, hlocked.locks.owed i⟩⟩
    | position j k s₀ s₁ rate hsync hworks hlocked =>
      refine ⟨⟨m, env, .inr ⟨j, rfl⟩⟩, s₀, k, s₁, rate, hsync, hworks, ?_, hlocked.queue, hlocked.priced,
        fun i => ⟨hlocked.locks.settled i, hlocked.locks.owed i⟩⟩
      rintro ⟨_, _, hqueue⟩
      cases hqueue
  | rest _ hqueue =>
    rw [hqueue] at hmore
    omega

/-- What a step takes from the settled part of a request it takes in a claim on its controller. -/
theorem Movement.drawn {a : Action} {ps : List Payout} (hm : Movement d s t ps a) (hl : QueueLedger s.toRedemptions)
    (i : Nat) (hless : (t.redemptionQueue i).bilSettled < (s.redemptionQueue i).bilSettled ∨
      (t.redemptionQueue i).hollarOwed < (s.redemptionQueue i).hollarOwed) :
    ∃ m env amount receiver, a = .call m env (.redeem amount receiver (s.redemptionQueue i).user) ∨
      a = .call m env (.withdraw amount receiver (s.redemptionQueue i).user) := by
  cases hm with
  | escrow shares controller owner _ hqueue =>
    rw [hqueue] at hless
    by_cases hi : i = s.queueTail
    · subst hi
      rw [Function.update_self, hl.blank _ (.inr (le_refl _))] at hless
      rcases hless with h | h
      · exact absurd h (lt_irrefl 0)
      · exact absurd h (lt_irrefl 0)
    · rw [Function.update_of_ne hi] at hless
      omega
  | refund j _ _ _ hsettled howed hrest =>
    by_cases hi : i = j
    · subst hi
      omega
    · rw [hrest i hi] at hless
      omega
  | @claim m env c amount receiver controller hc _ _ hqueue =>
    have huser : (s.redemptionQueue i).user = controller := by
      by_contra hne
      rw [hqueue.others i hne] at hless
      omega
    rw [huser]
    refine ⟨m, env, amount, receiver, ?_⟩
    rcases hc with rfl | rfl
    · exact .inl rfl
    · exact .inr rfl
  | lock _ hsettle =>
    obtain ⟨-, hsettled, howed⟩ := hsettle.grows i
    omega
  | rest _ hqueue =>
    rw [hqueue] at hless
    omega

end Movements

/-! ## Conservation -/

theorem Booked.reachable {d : Deployment} {p : State × (Nat → RequestAccount)} (h : (bookedVault d).Reach p) :
    Reachable d p.1 := by
  refine System.Reach.invariant (M := bookedVault d) (I := fun p => Reachable d p.1) ?_ ?_ h
  · rintro p ⟨hinit, -⟩
    exact .init hinit
  · rintro p a p' - ih ⟨hn, -⟩
    exact .step a ih hn

/-- Every run of the vault can be booked. -/
theorem Reachable.booked {d : Deployment} {s : State} (h : Reachable d s) :
    ∃ accounts, (bookedVault d).Reach (s, accounts) := by
  induction h with
  | init hs => exact ⟨_, .init ⟨hs, rfl⟩⟩
  | @step s t a _ hn ih =>
    obtain ⟨accounts, ih⟩ := ih
    exact ⟨fun i => (accounts i).book s t i a, .step a ih ⟨hn, rfl⟩⟩

/-- In every run and for every request, the shares escrowed are those refunded, those burned and those
it has, and the HOLLAR locked is what was paid and what it is owed, all of it paid when nothing is
settled. Every entry is a movement of the tokens; only a poke adds to the settled part of a request,
the HOLLAR its shares are worth at the rate after its own sync and payouts, and only a claim on its
controller takes from it. -/
theorem request_conservation {d : Deployment} {s : State} {accounts : Nat → RequestAccount}
    (h : (bookedVault d).Reach (s, accounts)) :
    (∀ i, (accounts i).escrowed = (accounts i).refunded + (accounts i).burned + (s.redemptionQueue i).bilAmount ∧
      (accounts i).locked = (accounts i).paid + (s.redemptionQueue i).hollarOwed ∧
      ((s.redemptionQueue i).bilSettled = 0 → (accounts i).paid = (accounts i).locked)) ∧
    ∀ a t ps, step d s a = .ok (t, ps) →
      Movement d s t ps a ∧
      ((∃ i, (s.redemptionQueue i).bilSettled < (t.redemptionQueue i).bilSettled ∨
          (s.redemptionQueue i).hollarOwed < (t.redemptionQueue i).hollarOwed) →
        (∃ m env, a = .call m env .pokeQueue ∨ ∃ j, a = .call m env (.pokeDecentral j)) ∧
          ∃ s₀ k s₁ rate, syncMaturities s maxMaturitySync = .ok (s₀, k) ∧ Works d s₀ ps s₁ ∧
            ((∃ m env, a = .call m env .pokeQueue) → s₁ = s₀) ∧ s₁.toRedemptions = s.toRedemptions ∧
            exchangeRate s₁ = .ok rate ∧ ∀ i, (s.redemptionQueue i).bilSettled ≤ (t.redemptionQueue i).bilSettled ∧
              (t.redemptionQueue i).hollarOwed = (s.redemptionQueue i).hollarOwed +
                ((t.redemptionQueue i).bilSettled - (s.redemptionQueue i).bilSettled) * rate / wad) ∧
      ∀ i, (t.redemptionQueue i).bilSettled < (s.redemptionQueue i).bilSettled ∨
          (t.redemptionQueue i).hollarOwed < (s.redemptionQueue i).hollarOwed →
        ∃ m env amount receiver, a = .call m env (.redeem amount receiver (s.redemptionQueue i).user) ∨
          a = .call m env (.withdraw amount receiver (s.redemptionQueue i).user) := by
  have hinv := (Booked.reachable h).inv
  have hbalanced : ∀ i, (accounts i).Balances (s.redemptionQueue i) := by
    refine h.invariant (I := fun p => ∀ i, (p.2 i).Balances (p.1.redemptionQueue i)) ?_ ?_
    · rintro p ⟨⟨env, setup, token, now, -, hinit⟩, hempty⟩ i
      obtain ⟨g, c, a, -, -, hs⟩ := initializeVault_ok hinit
      rw [hempty, hs]
      exact ⟨rfl, rfl⟩
    · rintro p a p' hr hi ⟨⟨-, ps, hs⟩, hbook⟩ i
      have hp := (Booked.reachable hr).inv
      rw [hbook]
      exact (step_movement hp hs).balances hp.ledger (hi i)
  refine ⟨fun i => ⟨(hbalanced i).shares, (hbalanced i).hollar, fun h0 => ?_⟩, fun a t ps hs => ?_⟩
  · -- a request with nothing settled is owed nothing
    have howed : (s.redemptionQueue i).hollarOwed = 0 := by
      by_cases huser : (s.redemptionQueue i).user = 0
      · rw [hinv.ledger.blank i (.inl huser)]
        rfl
      · exact (hinv.ledger.live i huser).unowed h0
    have := (hbalanced i).hollar
    omega
  · have hm := step_movement hinv hs
    exact ⟨hm, hm.settled, hm.drawn hinv.ledger⟩

/-- After that run alice claims 20 of the 30 shares of her second request, and takes back a third. -/
def accountRun : List Action :=
  demoRun ++
    [.call alice demoQuiet (.redeem (20 * 10 ^ 18) alice alice),
     .call alice demoQuiet (.requestRedeem (5 * 10 ^ 18) alice alice),
     .call alice demoQuiet (.cancelRedeem 2)]

/-- The accounts of the second and the third: what is left of the second is owed what is not paid out of it. -/
theorem request_conservation_demo : ∃ (s : State) (accounts : Nat → RequestAccount),
    accounts 1 = ⟨30 * 10 ^ 18, 0, 20 * 10 ^ 18, 30000095129375951280, 20000063419583967520⟩ ∧
    accounts 2 = ⟨5 * 10 ^ 18, 5 * 10 ^ 18, 0, 0, 0⟩ ∧ (s.redemptionQueue 1).bilAmount = 10 * 10 ^ 18 ∧
    (accounts 1).locked = (accounts 1).paid + (s.redemptionQueue 1).hollarOwed := by
  obtain ⟨⟨s, accounts⟩, hbooked, ht⟩ := observe_record demo
    (fun accounts s a t _ i => (accounts i : RequestAccount).book s t i a) (M := bookedVault demo)
    (fun s hs => ⟨hs, rfl⟩) (fun p a t ps hlegal hstep => ⟨⟨hlegal, ps, hstep⟩, rfl⟩) demoQuiet demoSetup accountRun
    (fun p => decide (
      p.2 1 = ⟨30 * 10 ^ 18, 0, 20 * 10 ^ 18, 30000095129375951280, 20000063419583967520⟩ ∧
      p.2 2 = ⟨5 * 10 ^ 18, 5 * 10 ^ 18, 0, 0, 0⟩ ∧ (p.1.redemptionQueue 1).bilAmount = 10 * 10 ^ 18))
    (by decide +kernel)
  obtain ⟨hsecond, hthird, hleft⟩ := of_decide_eq_true ht
  exact ⟨s, accounts, hsecond, hthird, hleft, ((request_conservation hbooked).1 1).2.1⟩

end MoneyMarket
