/-
What a poke is paid for in a reachable world. No request is approved in the transaction that makes it,
so a poke passes one approval at most: what it is paid answers a request that an earlier poke left and
that was approved since (`Pair.poke_yield`, `Pair.poke_principal`). With the agreement on the records,
a payment is the amount the vault expects but for the pool's delta (`payouts_answer`).
-/
import MoneyMarket.Pool.Agreement

namespace MoneyMarket

open Evm Transition

/-! ## Approvals -/

/-- The withdrawal of the yield that the position waits for is approved. -/
structure Pair.YieldReady (x : Pair) : Prop where
  state : x.pos.state = .yieldWithdrawalRequested
  approved : (x.side.pool.yieldWithdrawalRequests x.pos.tokenId).approved = true

/-- The withdrawal of the principal that the position waits for is approved, and its delay is over. -/
structure Pair.PrincipalReady (now : Nat) (x : Pair) : Prop where
  state : x.pos.state = .principalWithdrawalRequested
  approved : (x.side.pool.principalWithdrawalRequests x.pos.tokenId).approved = true
  available : (x.side.pool.principalWithdrawalRequests x.pos.tokenId).availableTimestamp ≤ now

section Stages

variable {v : Visit} {gas : Bool} {x : Pair} {n : Nat}

theorem Pair.requestYield_none (h : (x.requestYield v gas).2 = none) :
    (x.requestYield v gas).1 = x ∨ (x.requestYield v gas).1.pos.state = .yieldClaimed := by
  unfold Pair.requestYield at h ⊢
  split_ifs at h ⊢
  · exact .inr rfl
  · rcases x.ask_cases v gas .requestYieldWithdrawal { x.pos with state := .yieldWithdrawalRequested } with
      ⟨hask, -⟩ | ⟨s, m, -, -, hask⟩
    · exact .inl (congrArg Prod.fst hask)
    · rw [hask] at h
      cases h
  · exact .inl rfl

/-- A request just made is not approved. -/
theorem Pair.requestYield_fresh (h : (x.requestYield v gas).2 = some n) :
    (x.requestYield v gas).1.pos.state = .yieldWithdrawalRequested ∧ ¬ (x.requestYield v gas).1.YieldReady := by
  unfold Pair.requestYield at h ⊢
  split_ifs at h ⊢
  rcases x.ask_cases v gas .requestYieldWithdrawal { x.pos with state := .yieldWithdrawalRequested } with
    ⟨hask, -⟩ | ⟨s, m, -, hrun, hask⟩
  · rw [hask] at h
    cases h
  · rw [hask]
    refine ⟨rfl, fun hready => ?_⟩
    have happroved : (s.pool.yieldWithdrawalRequests x.pos.tokenId).approved = true := hready.approved
    simp only [PoolCall.run, bind_ok_iff, pure_ok_iff, Prod.mk.injEq] at hrun
    obtain ⟨q, hq, rfl, -⟩ := hrun
    obtain ⟨-, c, l, a, rfl⟩ := DecentralPool.requestYieldWithdrawal_ok hq
    simp only [Function.update_self, Bool.false_eq_true] at happroved

theorem Pair.executeYield_none (h : (x.executeYield v gas).2 = none) : (x.executeYield v gas).1 = x := by
  unfold Pair.executeYield at h ⊢
  split_ifs at h ⊢
  · rcases x.ask_cases v gas .executeYieldWithdrawal { x.pos with pendingYield := 0, state := .yieldClaimed } with
      ⟨hask, -⟩ | ⟨s, m, -, -, hask⟩
    · exact congrArg Prod.fst hask
    · rw [hask] at h
      cases h
  · rfl

theorem Pair.executeYield_some (h : (x.executeYield v gas).2 = some n) :
    x.YieldReady ∧ (x.executeYield v gas).1.pos.state = .yieldClaimed ∧
      DecentralPool.applyDelta (x.side.pool.yieldDeltaWei x.pos.tokenId)
        (x.side.pool.yieldWithdrawalRequests x.pos.tokenId).amount = .ok n ∧
      ∃ token, (x.side.token.transfer v.self v.sender n : Tx ERC20) = .ok token := by
  unfold Pair.executeYield at h ⊢
  split_ifs at h ⊢ with hstate
  rcases x.ask_cases v gas .executeYieldWithdrawal { x.pos with pendingYield := 0, state := .yieldClaimed } with
    ⟨hask, -⟩ | ⟨s, m, -, hrun, hask⟩
  · rw [hask] at h
    cases h
  · rw [hask] at h ⊢
    cases h
    have hpays := PoolCall.run_pays (c := .executeYieldWithdrawal _) trivial hrun
    simp only [PoolCall.run, bind_ok_iff, pure_ok_iff, Prod.exists, Prod.mk.injEq] at hrun
    obtain ⟨q, paid, hq, _, -, -, rfl⟩ := hrun
    obtain ⟨-, happroved, hpaid, -⟩ := DecentralPool.executeYieldWithdrawal_ok hq
    exact ⟨⟨hstate, happroved⟩, rfl, hpaid, _, hpays⟩

theorem Pair.requestPrincipal_none (h : (x.requestPrincipal v gas).2 = none) : (x.requestPrincipal v gas).1 = x := by
  unfold Pair.requestPrincipal at h ⊢
  split_ifs at h ⊢
  · rcases x.ask_cases v gas .requestPrincipalWithdrawal { x.pos with state := .principalWithdrawalRequested } with
      ⟨hask, -⟩ | ⟨s, m, -, -, hask⟩
    · exact congrArg Prod.fst hask
    · rw [hask] at h
      cases h
  · rfl

theorem Pair.requestPrincipal_fresh {now : Nat} (h : (x.requestPrincipal v gas).2 = some n) :
    ¬ (x.requestPrincipal v gas).1.PrincipalReady now := by
  unfold Pair.requestPrincipal at h ⊢
  split_ifs at h ⊢
  rcases x.ask_cases v gas .requestPrincipalWithdrawal { x.pos with state := .principalWithdrawalRequested } with
    ⟨hask, -⟩ | ⟨s, m, -, hrun, hask⟩
  · rw [hask] at h
    cases h
  · rw [hask]
    intro hready
    have happroved : (s.pool.principalWithdrawalRequests x.pos.tokenId).approved = true := hready.approved
    simp only [PoolCall.run, bind_ok_iff, pure_ok_iff, Prod.mk.injEq] at hrun
    obtain ⟨q, hq, rfl, -⟩ := hrun
    obtain ⟨-, c, l, a, rfl⟩ := DecentralPool.requestPrincipalWithdrawal_ok hq
    simp only [Function.update_self, Bool.false_eq_true] at happroved

theorem Pair.executePrincipal_some (h : (x.executePrincipal v gas).2 = some n) :
    x.PrincipalReady v.now ∧
      DecentralPool.applyDelta (x.side.pool.payoutDeltaWei x.pos.tokenId)
        (x.side.pool.principalWithdrawalRequests x.pos.tokenId).amount = .ok n ∧
      ∃ token, (x.side.token.transfer v.self v.sender n : Tx ERC20) = .ok token := by
  unfold Pair.executePrincipal at h
  split_ifs at h with hstate
  rcases x.ask_cases v gas .executePrincipalWithdrawal { x.pos with state := .redeemed } with
    ⟨hask, -⟩ | ⟨s, m, -, hrun, hask⟩
  · rw [hask] at h
    cases h
  · rw [hask] at h
    cases h
    have hpays := PoolCall.run_pays (c := .executePrincipalWithdrawal _) trivial hrun
    simp only [PoolCall.run, bind_ok_iff, pure_ok_iff, Prod.exists, Prod.mk.injEq] at hrun
    obtain ⟨q, nft, paid, hq, _, -, -, rfl⟩ := hrun
    obtain ⟨-, -, ⟨happroved, havailable⟩, hpaid, -⟩ := DecentralPool.executePrincipalWithdrawal_ok hq
    exact ⟨⟨hstate, happroved, havailable⟩, hpaid, _, hpays⟩

/-- The position a poke finds where the first two stages got nothing and left it past the yield. -/
theorem Pair.asked_eq (hasked : (x.requestYield v gas).2 = none)
    (hstate : (x.requestYield v gas).1.pos.state ≠ .yieldClaimed) :
    (x.requestYield v gas).1 = x :=
  (Pair.requestYield_none hasked).resolve_right hstate

end Stages

/-! ## One approval a poke -/

section Poke

variable {v : Visit} {gas : Gas} {x : Pair} {n : Nat}

/-- The yield is paid on a request that was approved before the poke. -/
theorem Pair.poke_yield (h : (x.poke v gas).2.executeYield = some n) :
    x.YieldReady ∧
      DecentralPool.applyDelta (x.side.pool.yieldDeltaWei x.pos.tokenId)
        (x.side.pool.yieldWithdrawalRequests x.pos.tokenId).amount = .ok n ∧
      ∃ token, (x.side.token.transfer v.self v.sender n : Tx ERC20) = .ok token := by
  obtain ⟨hready, -, hrest⟩ := Pair.executeYield_some h
  cases hasked : (x.requestYield v gas.requestYield).2 with
  | some m => exact absurd hready (Pair.requestYield_fresh hasked).2
  | none =>
    have hx := Pair.asked_eq hasked (by rw [hready.state]; decide)
    rw [hx] at hready hrest
    exact ⟨hready, hrest⟩

/-- And so is the principal, and then no yield. -/
theorem Pair.poke_principal (h : (x.poke v gas).2.executePrincipal = some n) :
    (x.PrincipalReady v.now ∧
      DecentralPool.applyDelta (x.side.pool.payoutDeltaWei x.pos.tokenId)
        (x.side.pool.principalWithdrawalRequests x.pos.tokenId).amount = .ok n ∧
      ∃ token, (x.side.token.transfer v.self v.sender n : Tx ERC20) = .ok token) ∧
      (x.poke v gas).2.executeYield = none := by
  obtain ⟨hready, hrest⟩ := Pair.executePrincipal_some h
  -- back through the stages, each of which got nothing
  cases hexiting : (((x.requestYield v gas.requestYield).1.executeYield v gas.executeYield).1.requestPrincipal v
      gas.requestPrincipal).2 with
  | some m => exact absurd hready (Pair.requestPrincipal_fresh hexiting)
  | none =>
    rw [Pair.requestPrincipal_none hexiting] at hready hrest
    cases hclaimed : ((x.requestYield v gas.requestYield).1.executeYield v gas.executeYield).2 with
    | some m =>
      have hstate := (Pair.executeYield_some hclaimed).2.1
      rw [hready.state] at hstate
      cases hstate
    | none =>
      rw [Pair.executeYield_none hclaimed] at hready hrest
      cases hasked : (x.requestYield v gas.requestYield).2 with
      | some m =>
        have hstate := (Pair.requestYield_fresh hasked).1
        rw [hready.state] at hstate
        cases hstate
      | none =>
        have hx := Pair.asked_eq hasked (by rw [hready.state]; decide)
        rw [hx] at hready hrest
        exact ⟨⟨hready, hrest⟩, hclaimed⟩

end Poke

/-! ## The payouts of a poke -/

section Payouts

variable {d : Deployment} {v : Visit} {gas : Gas} {x : Pair} {reply : PoolReply}

theorem payment_none (token : ERC20) (i : Nat) (ofPrincipal : Bool) (expected : Nat) :
    payment d token i ofPrincipal expected none = [] := rfl

/-- What a pool pays is what arrives. -/
theorem payment_of_transfer {token token' : ERC20} {pool : Address} {n : Nat} (hpool : pool ≠ d.self) (i : Nat)
    (ofPrincipal : Bool) (expected : Nat) (h : (token.transfer pool d.self n : Tx ERC20) = .ok token') :
    payment d token i ofPrincipal expected (poolPay d (some n) token pool) = [⟨i, ofPrincipal, expected, n⟩] := by
  rw [poolPay_of_transfer h]
  obtain ⟨-, -, -, rfl⟩ := ERC20.transfer_ok_iff.1 h
  simp only [payment, arrived, Option.map_some, Option.toList_some, token.move_target _ _ _ hpool.symm,
    Nat.add_sub_cancel_left]

/-- The payouts the vault records are the payments the stages got. -/
theorem Pair.poke_offers (hheard : (x.poke v gas).2.Heard reply) (hself : v.self ≠ d.self) (hsender : v.sender = d.self)
    (i : Nat) : positionOffers d reply x.side.token v.now v.self i x.pos =
      ((x.poke v gas).2.executeYield.map fun n => ⟨i, false, x.pos.pendingYield, n⟩).toList ++
        ((x.poke v gas).2.executePrincipal.map fun n => ⟨i, true, x.pos.principal, n⟩).toList := by
  unfold positionOffers
  rw [hheard.executeYield, hheard.executePrincipal]
  cases hyield : (x.poke v gas).2.executeYield with
  | some n =>
    obtain ⟨hready, -, token, htoken⟩ := Pair.poke_yield hyield
    rw [hsender] at htoken
    have hprincipal : (x.poke v gas).2.executePrincipal = none := by
      rw [Option.eq_none_iff_forall_not_mem]
      intro m hm
      have := (Pair.poke_principal hm).2
      rw [hyield] at this
      cases this
    have hpays : x.pos.paysYield reply v.now = true := by simp [NFTPosition.paysYield, hready.state]
    rw [hprincipal, if_pos hpays]
    simp only [poolPay_of_transfer htoken, Option.getD_some]
    rw [← poolPay_of_transfer htoken, payment_of_transfer hself i false _ htoken]
    show _ ++ payment d _ i true _ (if _ then none else none) = _
    rw [ite_self]
    rfl
  | none =>
    have hnone : (if x.pos.paysYield reply v.now = true then poolPay d none x.side.token v.self else none) = none :=
      ite_self _
    rw [hnone]
    cases hprincipal : (x.poke v gas).2.executePrincipal with
    | some n =>
      obtain ⟨⟨hready, -, token, htoken⟩, -⟩ := Pair.poke_principal hprincipal
      rw [hsender] at htoken
      have hpays : x.pos.paysPrincipal reply v.now (none : Option ERC20).isSome = true := by
        simp [NFTPosition.paysPrincipal, hready.state]
      simp only [Option.getD_none]
      rw [if_pos hpays, payment_none, payment_of_transfer hself i true _ htoken]
      rfl
    | none =>
      simp [poolPay, payment]

end Payouts

section Worlds

variable {d : Deployment} {w : World} {gas : Gas} {i : Nat} {x : Pair} {reply : PokeReply}

/-- What a poke starts from: the pool of the position, and the position after the sync. -/
theorem World.pokes_some (h : w.Agrees d) (hpokes : w.pokes d gas i = some (x, reply)) :
    ∃ s₁ k p old pos, syncMaturities w.vault maxMaturitySync = .ok (s₁, k) ∧
      w.pools (w.vault.positionPool i) = some p ∧ w.vault.positions[i]? = some old ∧
      s₁.positions[i]? = some pos ∧ pos.toTerms = old.toTerms ∧ Pair.Agrees d.self ⟨w.side p, pos⟩ ∧
      Pair.poke (w.visit d i) ⟨w.side p, pos⟩ gas = (x, reply) := by
  unfold World.pokes at hpokes
  split at hpokes
  · rename_i s₁ k p hsync hp
    obtain ⟨pos, hpos, heq⟩ := Option.map_eq_some_iff.1 hpokes
    obtain ⟨old, hold, hterms⟩ := (syncMaturities_keepsTerms hsync).get hpos
    obtain ⟨q, hq, hslot, -⟩ := h.holds i old hold
    obtain rfl := Option.some.inj (hq.symm.trans hp)
    rw [← hterms] at hslot
    exact ⟨s₁, k, q, old, pos, hsync, hp, hold, hpos, hterms, hslot, heq⟩
  · cases hpokes

/-- The payouts a poke of the world records. -/
theorem World.poke_payouts {s s₁ : State} {k : Nat} {p : DecentralPool} {pos : NFTPosition} {ps : List Payout}
    (hself : w.pools d.self = none) (hsync : syncMaturities w.vault maxMaturitySync = .ok (s₁, k))
    (hp : w.pools (w.vault.positionPool i) = some p) (hpos : s₁.positions[i]? = some pos)
    (heq : Pair.poke (w.visit d i) ⟨w.side p, pos⟩ gas = (x, reply))
    (hpoke : pokeDecentral d (w.replies (fun _ => ⟨none, none⟩) none reply) w.vault i = .ok (s, ps)) :
    ps = (reply.executeYield.map fun n => ⟨i, false, pos.pendingYield, n⟩).toList ++
      (reply.executePrincipal.map fun n => ⟨i, true, pos.principal, n⟩).toList := by
  have hoffers := pokeDecentral_payouts hpoke
  have haway : (w.visit d i).self ≠ d.self := by
    intro heq
    change w.vault.positionPool i = d.self at heq
    rw [heq, hself] at hp
    cases hp
  have hheard : (Pair.poke (w.visit d i) ⟨w.side p, pos⟩ gas).2.Heard
      ((w.replies (fun _ => ⟨none, none⟩) none reply).pool (w.vault.positionPool i)) := by
    simp only [World.replies, hp, heq]
    exact p.reply_heard none reply
  have hpools : s₁.positionPool i = w.vault.positionPool i := by rw [(syncMaturities_keepsTerms hsync).pools]
  obtain ⟨htoken, hnow⟩ : s₁.token = w.vault.token ∧ s₁.now = w.vault.now := by
    have := (syncMaturities_pokes (d := d) hsync).2
    rw [this]
    exact ⟨rfl, rfl⟩
  have hlist := Pair.poke_offers (d := d) hheard haway rfl i
  rw [heq] at hlist
  simp only [offers, hsync, hpos, hpools, htoken, hnow] at hoffers
  exact hoffers.trans hlist

end Worlds

/-- In every reachable world a poke is paid at most once. A payment of the principal answers a withdrawal
that the position had asked for before the poke and that is approved and past its delay, one of the yield
a withdrawal approved before; it is the amount recorded there off by the pool's delta, and that of the
principal is the one the vault expects. -/
theorem payouts_answer {d : Deployment} {w : World} {gas : Gas} {i : Nat} {x : Pair} {reply : PokeReply} {s : State}
    {ps : List Payout} (h : (world d).Reach w) (hpokes : w.pokes d gas i = some (x, reply))
    (hpoke : pokeDecentral d (w.replies (fun _ => ⟨none, none⟩) none reply) w.vault i = .ok (s, ps)) :
    ps.length ≤ 1 ∧ ∀ payout ∈ ps, payout.positionIndex = i ∧
      ∃ pos p, w.vault.positions[i]? = some pos ∧ w.pools (w.vault.positionPool i) = some p ∧
        (payout.ofPrincipal = true →
          pos.state = .principalWithdrawalRequested ∧
          (p.getPrincipalWithdrawalRequest pos.tokenId).approved = true ∧
          (p.getPrincipalWithdrawalRequest pos.tokenId).availableTimestamp ≤ w.vault.now ∧
          payout.expected = pos.principal ∧
          DecentralPool.applyDelta (p.payoutDeltaWei pos.tokenId) pos.principal = .ok payout.received) ∧
        (payout.ofPrincipal = false →
          pos.state = .yieldWithdrawalRequested ∧
          (p.getYieldWithdrawalRequest pos.tokenId).approved = true ∧
          DecentralPool.applyDelta (p.yieldDeltaWei pos.tokenId)
            (p.getYieldWithdrawalRequest pos.tokenId).amount = .ok payout.received) := by
  obtain ⟨s₁, k, p, old, pos, hsync, hp, hold, hpos, hterms, hagrees, heq⟩ :=
    World.pokes_some (World.agrees h) hpokes
  have hps := World.poke_payouts (World.vault_reachable h).2.1 hsync hp hpos heq hpoke
  obtain ⟨hid, hprincipal, -, -, hstate⟩ := Terms.mk.inj hterms
  cases hyield : reply.executeYield with
  | some n =>
    have hpaid : (Pair.poke (w.visit d i) ⟨w.side p, pos⟩ gas).2.executeYield = some n := by rw [heq, hyield]
    obtain ⟨hready, hamount, -⟩ := Pair.poke_yield hpaid
    have hnone : reply.executePrincipal = none := by
      rw [Option.eq_none_iff_forall_not_mem]
      intro m hm
      have := (Pair.poke_principal (x := ⟨w.side p, pos⟩) (v := w.visit d i) (n := m) (by rw [heq]; exact hm)).2
      rw [hpaid] at this
      cases this
    rw [hyield, hnone] at hps
    subst hps
    refine ⟨le_refl 1, fun payout hmem => ?_⟩
    obtain rfl := List.mem_singleton.1 hmem
    have happroved := hready.approved
    change (p.yieldWithdrawalRequests pos.tokenId).approved = true at happroved
    change DecentralPool.applyDelta (p.yieldDeltaWei pos.tokenId) (p.yieldWithdrawalRequests pos.tokenId).amount =
      .ok n at hamount
    rw [hid] at happroved hamount
    exact ⟨rfl, old, p, hold, hp, fun hfalse => absurd hfalse Bool.false_ne_true, fun _ =>
      ⟨hstate.symm.trans hready.state, happroved, hamount⟩⟩
  | none =>
    cases hexit : reply.executePrincipal with
    | some n =>
      have hpaid : (Pair.poke (w.visit d i) ⟨w.side p, pos⟩ gas).2.executePrincipal = some n := by rw [heq, hexit]
      obtain ⟨⟨hready, hamount, -⟩, -⟩ := Pair.poke_principal hpaid
      rw [hyield, hexit] at hps
      subst hps
      refine ⟨le_refl 1, fun payout hmem => ?_⟩
      obtain rfl := List.mem_singleton.1 hmem
      have happroved := hready.approved
      have havailable := hready.available
      -- the pool recorded the vault's principal when it was asked
      have hrecorded : (p.principalWithdrawalRequests pos.tokenId).amount = pos.principal := by
        have hexitAmount := congrArg Slot.exitAmount hagrees
        have hopen : pos.toTerms.state ≠ .redeemed := fun heq => by cases hready.state.symm.trans heq
        rw [Terms.slot, if_neg hopen] at hexitAmount
        exact hexitAmount.trans (if_pos hready.state)
      change (p.principalWithdrawalRequests pos.tokenId).approved = true at happroved
      change (p.principalWithdrawalRequests pos.tokenId).availableTimestamp ≤ w.vault.now at havailable
      change DecentralPool.applyDelta (p.payoutDeltaWei pos.tokenId) (p.principalWithdrawalRequests pos.tokenId).amount =
        .ok n at hamount
      rw [hrecorded, hprincipal] at hamount
      rw [hid] at happroved havailable hamount
      exact ⟨rfl, old, p, hold, hp, fun _ =>
        ⟨hstate.symm.trans hready.state, happroved, havailable, hprincipal, hamount⟩,
        fun hfalse => absurd hfalse.symm Bool.false_ne_true⟩
    | none =>
      rw [hyield, hexit] at hps
      subst hps
      exact ⟨Nat.zero_le 1, fun payout hmem => by cases hmem⟩

/-- Two days after the request the pool pays the 100 HOLLAR back. -/
theorem payouts_answer_demo : ∃ w x reply s ps pos, (world demo).Reach w ∧ w.pokes demo .ample 0 = some (x, reply) ∧
    pokeDecentral demo (w.replies (fun _ => ⟨none, none⟩) none reply) w.vault 0 = .ok (s, ps) ∧
    ps = [⟨0, true, 10 ^ 20, 10 ^ 20⟩] ∧ w.vault.positions[0]? = some pos ∧
    pos.state = .principalWithdrawalRequested := by
  obtain ⟨w, hw, ht⟩ := observe_world demoVisits
    (fun w => (w.pokes demo .ample 0).any fun r =>
      passes (pokeDecentral demo (w.replies (fun _ => ⟨none, none⟩) none r.2) w.vault 0)
        (fun r => decide (r.2 = [⟨0, true, 10 ^ 20, 10 ^ 20⟩]))) (by decide +kernel)
  obtain ⟨⟨x, reply⟩, hpokes, ht⟩ := (Option.any_eq_true _ _).1 ht
  obtain ⟨⟨s, ps⟩, hpoke, ht⟩ := passes_ok ht
  obtain rfl : ps = [⟨0, true, 10 ^ 20, 10 ^ 20⟩] := of_decide_eq_true ht
  obtain ⟨-, hall⟩ := payouts_answer hw hpokes hpoke
  obtain ⟨-, pos, p, hpos, -, hprincipal, -⟩ := hall _ (List.mem_singleton_self _)
  exact ⟨w, x, reply, s, _, pos, hw, hpokes, hpoke, rfl, hpos, (hprincipal rfl).1⟩

end MoneyMarket
