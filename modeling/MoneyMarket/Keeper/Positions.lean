/-
The keeper's pass over the positions. The vault catches every refusal of a pool, so a poke that comes
too early succeeds and does nothing; the keeper asks the pool first and sends a poke only where the next
step can go through. In a reachable world that check is exact: what it holds back would have done no
more than the sync, and of what it sends the pool refuses a withdrawal only for troubles of its own. It
throws where it would write a date past the last, and then no alert is sent either (`keeper_silent`).
-/
import MoneyMarket.Evm.Reverts
import MoneyMarket.Pool.Answers

namespace MoneyMarket

open Evm Transition

/-! ## The check -/

/-- Why the next step of a position cannot progress yet. -/
inductive Waiting where
  | yieldNotApproved
  | principalNotApproved
  | availableAt (time : Nat)
  deriving Repr, DecidableEq

/-- The last second that a `Date` reaches, a hundred million days from 1970. -/
def lastDate : Nat := 8640000000000

/-- `new Date(seconds * 1000).toISOString()`, which throws past the last date. -/
def toISOString (seconds : Nat) : Option Nat := if seconds ≤ lastDate then some seconds else none

/-- `none` where it throws. -/
def decentralWaiting (pool : Requests) (tokenId : Nat) (state : NFTState) (nowSeconds : Nat) :
    Option (Option Waiting) :=
  match state with
  | .yieldWithdrawalRequested =>
    let request := pool.getYieldWithdrawalRequest tokenId
    if request.pending = true ∧ request.approved = false then some (some .yieldNotApproved) else some none
  | .principalWithdrawalRequested =>
    let request := pool.getPrincipalWithdrawalRequest tokenId
    if request.pending = true ∧ request.approved = false then some (some .principalNotApproved)
    else if request.pending = true ∧ nowSeconds < request.availableTimestamp then
      (toISOString request.availableTimestamp).map fun time => some (.availableAt time)
    else some none
  | _ => some none

/-- The alert on a position long past its maturity. -/
structure StuckPosition where
  index : Nat
  tokenId : Nat
  state : NFTState
  principal : Nat
  hours : Nat
  deriving Repr, DecidableEq

def stuckPosition (staleThreshold index nowSeconds : Nat) (pos : NFTPosition) : Option StuckPosition :=
  if pos.maturityTime + staleThreshold < nowSeconds then
    some ⟨index, pos.tokenId, pos.state, pos.principal, (nowSeconds - pos.maturityTime) / 3600⟩
  else none

/-- What the keeper does about a position: whether it pokes it, and the alert it sends. -/
structure Handling where
  pokes : Bool
  alert : Option StuckPosition
  deriving Repr, DecidableEq

/-- `none` where a read fails or the check throws. -/
def processPositionIfNeeded (staleThreshold : Nat) (w : World) (nowSeconds index : Nat) : Option Handling := do
  let pos ← w.vault.positions[index]?
  if pos.state = .redeemed then return ⟨false, none⟩
  else if pos.state = .active ∧ pos.maturityTime ≤ nowSeconds then
    return ⟨true, stuckPosition staleThreshold index nowSeconds pos⟩
  else if pos.state = .yieldClaimed then
    -- the request for the principal waits for nothing, so the pool is not read
    return ⟨true, stuckPosition staleThreshold index nowSeconds pos⟩
  else if pos.state = .yieldWithdrawalRequested ∨ pos.state = .principalWithdrawalRequested then do
    let pool ← w.pools (w.vault.positionPool index)
    let waiting ← decentralWaiting pool.toRequests pos.tokenId pos.state nowSeconds
    return ⟨waiting.isNone, stuckPosition staleThreshold index nowSeconds pos⟩
  else return ⟨false, none⟩

/-- One round of `runCycle`, which logs what throws and goes on. -/
def handlePosition (staleThreshold : Nat) (w : World) (nowSeconds index : Nat) : Handling :=
  (processPositionIfNeeded staleThreshold w nowSeconds index).getD ⟨false, none⟩

/-- The check throws: the approved principal is due later than any date. -/
structure Undatable (pool : Requests) (tokenId : Nat) (state : NFTState) (nowSeconds : Nat) : Prop where
  state : state = .principalWithdrawalRequested
  pending : (pool.principalWithdrawalRequests tokenId).pending = true
  approved : (pool.principalWithdrawalRequests tokenId).approved = true
  early : nowSeconds < (pool.principalWithdrawalRequests tokenId).availableTimestamp
  beyond : lastDate < (pool.principalWithdrawalRequests tokenId).availableTimestamp

section Check

variable {pool : Requests} {tokenId nowSeconds : Nat} {state : NFTState}

theorem toISOString_none_iff {seconds : Nat} : toISOString seconds = none ↔ lastDate < seconds := by
  unfold toISOString
  split_ifs with hdate
  · exact iff_of_false id (not_lt.2 hdate)
  · exact iff_of_true rfl (not_le.1 hdate)

theorem decentralWaiting_none_iff :
    decentralWaiting pool tokenId state nowSeconds = none ↔ Undatable pool tokenId state nowSeconds := by
  constructor
  · intro h
    cases state with
    | principalWithdrawalRequested =>
      unfold decentralWaiting at h
      by_cases hasked : (pool.principalWithdrawalRequests tokenId).pending = true ∧
          (pool.principalWithdrawalRequests tokenId).approved = false
      · exact absurd ((if_pos hasked).symm.trans h) (Option.some_ne_none _)
      replace h := (if_neg hasked).symm.trans h
      by_cases hearly : (pool.principalWithdrawalRequests tokenId).pending = true ∧
          nowSeconds < (pool.principalWithdrawalRequests tokenId).availableTimestamp
      · replace h := Option.map_eq_none_iff.1 ((if_pos hearly).symm.trans h)
        refine ⟨rfl, hearly.1, ?_, hearly.2, toISOString_none_iff.1 h⟩
        exact eq_true_of_ne_false fun hnot => hasked ⟨hearly.1, hnot⟩
      · exact absurd ((if_neg hearly).symm.trans h) (Option.some_ne_none _)
    | yieldWithdrawalRequested =>
      simp only [decentralWaiting] at h
      split_ifs at h
    | _ => cases h
  · rintro ⟨rfl, hpending, happroved, hearly, hbeyond⟩
    simp only [decentralWaiting, Requests.getPrincipalWithdrawalRequest, hpending, happroved, hearly,
      toISOString_none_iff.2 hbeyond, Bool.true_eq_false, and_false, and_self, if_false, if_true, Option.map_none]

/-- Of a request that is there, the check asks for the approval. -/
theorem decentralWaiting_yield_iff (hpending : (pool.yieldWithdrawalRequests tokenId).pending = true) :
    decentralWaiting pool tokenId .yieldWithdrawalRequested nowSeconds = some none ↔
      (pool.yieldWithdrawalRequests tokenId).approved = true := by
  simp only [decentralWaiting, Requests.getYieldWithdrawalRequest, hpending, true_and]
  cases (pool.yieldWithdrawalRequests tokenId).approved <;> simp

/-- And of a principal that its delay is over. -/
theorem decentralWaiting_principal_iff (hpending : (pool.principalWithdrawalRequests tokenId).pending = true) :
    decentralWaiting pool tokenId .principalWithdrawalRequested nowSeconds = some none ↔
      (pool.principalWithdrawalRequests tokenId).approved = true ∧
        (pool.principalWithdrawalRequests tokenId).availableTimestamp ≤ nowSeconds := by
  simp only [decentralWaiting, Requests.getPrincipalWithdrawalRequest, hpending, true_and]
  cases (pool.principalWithdrawalRequests tokenId).approved <;> simp

end Check

/-! ## What is held back -/

section Idle

variable {d : Deployment} {v : Visit} {gas : Gas} {x : Pair}

/-- A refused call leaves the pair. -/
theorem Pair.ask_refused {gas : Bool} {c : Nat → PoolCall} {pos : NFTPosition}
    (h : ∀ r, (c x.pos.tokenId).run v x.side ≠ .ok r) : x.ask v gas c pos = (x, none) := by
  rcases x.ask_cases v gas c pos with ⟨hask, -⟩ | ⟨s, n, -, hrun, -⟩
  · exact hask
  · exact absurd hrun (h _)

/-- Nothing of a poke moves a position that no stage can move. -/
theorem Pair.poke_idle (hdue : x.pos.overdue v.now = false) (hclaimed : x.pos.state ≠ .yieldClaimed)
    (hyield : ¬ x.YieldReady) (hexit : ¬ x.PrincipalReady v.now) : x.poke v gas = (x, .none) := by
  have h₁ : x.requestYield v gas.requestYield = (x, none) := by
    unfold Pair.requestYield
    rw [if_neg (by rw [hdue]; decide)]
  have h₂ : x.executeYield v gas.executeYield = (x, none) := by
    unfold Pair.executeYield
    split_ifs with hstate
    · refine Pair.ask_refused fun r hrun => hyield ⟨hstate, ?_⟩
      simp only [PoolCall.run, bind_ok_iff, Prod.exists] at hrun
      obtain ⟨q, paid, hq, -⟩ := hrun
      exact (DecentralPool.executeYieldWithdrawal_ok hq).2.1
    · rfl
  have h₃ : x.requestPrincipal v gas.requestPrincipal = (x, none) := by
    unfold Pair.requestPrincipal
    rw [if_neg hclaimed]
  have h₄ : x.executePrincipal v gas.executePrincipal = (x, none) := by
    unfold Pair.executePrincipal
    split_ifs with hstate
    · refine Pair.ask_refused fun r hrun => hexit ?_
      simp only [PoolCall.run, bind_ok_iff, Prod.exists] at hrun
      obtain ⟨q, nft, paid, hq, -⟩ := hrun
      obtain ⟨-, -, ⟨happroved, havailable⟩, -⟩ := DecentralPool.executePrincipalWithdrawal_ok hq
      exact ⟨hstate, happroved, havailable⟩
    · rfl
  simp only [Pair.poke, h₁, h₂, h₃, h₄, PokeReply.none]

/-- A poke whose pool refuses everything it is asked does what the sync does. -/
theorem pokeDecentral_refused {env : Replies} {s s₁ t : State} {i k : Nat} {pos : NFTPosition} {ps : List Payout}
    (hsync : syncMaturities s maxMaturitySync = .ok (s₁, k)) (hi : s₁.positions[i]? = some pos)
    (hdue : pos.overdue s₁.now = false) (hheard : PokeReply.none.Heard (env.pool (s₁.positionPool i)))
    (h : pokeDecentral d env s i = .ok (t, ps)) : t = s₁ := by
  simp only [pokeDecentral, bind_ok_iff, Prod.exists, pure_ok_iff, Prod.mk.injEq] at h
  obtain ⟨_, -, _, -, _, -, s₁', k', hsync', f₁, h1, f₂, h2, f₃, h3, f₄, h4, rfl, -⟩ := h
  obtain ⟨rfl, -⟩ := Prod.mk.inj (Except.ok.inj (hsync.symm.trans hsync'))
  -- each branch passes the state on, or leaves with it
  have hfirst : f₁.state = s₁ := by
    rcases requestYieldBranch_spec hi h1 with ⟨rfl, -⟩ | ⟨rfl, -⟩ | ⟨-, hon, -⟩ | ⟨-, -, hon, -⟩
    · rfl
    · rfl
    · rw [hdue] at hon
      cases hon
    · rw [hdue] at hon
      cases hon
  have hnext : ∀ {a f : Flow} {next : State → Tx Flow}, a.state = s₁ → (∀ g, next s₁ = .ok g → g.state = s₁) →
      a.andThen next = .ok f → f.state = s₁ := by
    intro a f next ha hstep hf
    by_cases hleft : a.left = true
    · rw [Flow.andThen_left hleft hf, ha]
    · obtain ⟨g, hg, rfl⟩ := Flow.andThen_on (eq_false_of_ne_true hleft) hf
      rw [ha] at hg
      exact hstep g hg
  have hsecond : f₂.state = s₁ := by
    refine hnext hfirst (fun g hg => ?_) h2
    rcases executeYieldBranch_spec hi hg with ⟨-, rfl⟩ | ⟨-, ⟨-, rfl⟩ | ⟨token, hpay, -⟩⟩
    · rfl
    · rfl
    · rw [hheard.executeYield] at hpay
      cases hpay
  have hthird : f₃.state = s₁ := by
    refine hnext hsecond (fun g hg => ?_) h3
    simp only [requestPrincipalBranch, bind_ok_iff] at hg
    obtain ⟨_, -, hg⟩ := hg
    have hno : (env.pool (s₁.positionPool i)).requestPrincipalWithdrawal = false := hheard.requestPrincipal
    rw [hno, if_neg Bool.false_ne_true] at hg
    split_ifs at hg
    all_goals cases hg; rfl
  refine hnext hthird (fun g hg => ?_) h4
  simp only [executePrincipalBranch, bind_ok_iff] at hg
  obtain ⟨_, -, hg⟩ := hg
  have hno : (env.pool (s₁.positionPool i)).executePrincipalWithdrawal = none := hheard.executePrincipal
  rw [hno] at hg
  split_ifs at hg
  all_goals cases hg; rfl

end Idle

/-! ## What is sent -/

/-- What can stop a withdrawal that is approved and due: the pool's own troubles. -/
inductive Outage : Revert Empty → Prop
  | paused : Outage (.reason "Pool paused")
  | shutdown : Outage (.reason "Pool shutdown")
  | unregistered : Outage (.reason "MockPoolToken: caller is not a registered pool")
  | short : Outage (.reason "ERC20: transfer amount exceeds balance")
  | arithmetic : Outage (.panic .arithmetic)

/-- The call that the next step of a position waits for. -/
def NFTState.withdrawal : NFTState → Option (Nat → PoolCall)
  | .yieldWithdrawalRequested => some .executeYieldWithdrawal
  | .principalWithdrawalRequested => some .executePrincipalWithdrawal
  | _ => none

section Sent

variable {v : Visit} {x : Pair}

theorem DecentralPool.updateRewardAccrual_avoids (p : DecentralPool) (now : Nat) :
    Avoids (fun e => ¬ Outage e) (p.updateRewardAccrual now) := by
  have harith : ¬ ¬ Outage (.panic .arithmetic) := not_not_intro .arithmetic
  unfold DecentralPool.updateRewardAccrual
  split_ifs with hshares
  · simp
  · refine avoids_bind_iff.2 ⟨avoids_checkedSub harith, fun elapsed _ => ?_⟩
    split_ifs with helapsed
    · simp
    · refine avoids_bind_iff.2 ⟨avoids_checkedMul harith, fun rate _ => ?_⟩
      refine avoids_bind_iff.2 ⟨avoids_checkedMul harith, fun gross _ => ?_⟩
      dsimp only
      split_ifs with haccrued
      · refine avoids_bind_iff.2 ⟨avoids_checkedMul harith, fun scaled _ => ?_⟩
        refine avoids_bind_iff.2 ⟨avoids_checkedAdd harith, fun _ _ => ?_⟩
        simp
      · simp

theorem DecentralPool.applyDelta_avoids (delta : Int) (amount : Nat) :
    Avoids (fun e => ¬ Outage e) (DecentralPool.applyDelta delta amount) := by
  unfold DecentralPool.applyDelta
  split_ifs
  · simp
  · exact avoids_checkedAdd (not_not_intro .arithmetic)
  · simp
  · simp

theorem payment_avoids {token : ERC20} {src dst : Address} {amount : Nat} (hsrc : src ≠ 0) (hdst : dst ≠ 0) :
    Avoids (fun e => ¬ Outage e) (token.transfer src dst amount : PoolTx ERC20) := by
  simp only [ERC20.transfer, avoids_bind_iff, avoids_require_iff, avoids_pure, not_not]
  exact ⟨.inl hsrc, fun _ _ => ⟨.inl hdst, fun _ _ => ⟨.inr .short, fun _ _ => trivial⟩⟩⟩

theorem DecentralPool.onlyTokenOwner_avoids {nft : PoolToken} {sender : Address} {tokenId : Nat} (hzero : sender ≠ 0)
    (howner : nft.owner tokenId = sender) :
    Avoids (fun e => ¬ Outage e) (DecentralPool.onlyTokenOwner nft sender tokenId) := by
  rw [DecentralPool.onlyTokenOwner_ok_iff.2 ⟨by rw [howner]; exact hzero, howner⟩]
  exact avoids_ok ()

/-- An approved withdrawal of the yield fails for an outage alone. -/
theorem DecentralPool.executeYieldWithdrawal_avoids {p : DecentralPool} {nft : PoolToken} {self sender : Address}
    {now tokenId : Nat} (hzero : sender ≠ 0) (howner : nft.owner tokenId = sender)
    (hpending : (p.yieldWithdrawalRequests tokenId).pending = true)
    (happroved : (p.yieldWithdrawalRequests tokenId).approved = true) :
    Avoids (fun e => ¬ Outage e) (p.executeYieldWithdrawal nft self sender now tokenId) := by
  have harith : ¬ ¬ Outage (.panic .arithmetic) := not_not_intro .arithmetic
  unfold DecentralPool.executeYieldWithdrawal
  refine avoids_bind_iff.2 ⟨avoids_require_iff.2 (.inr (not_not_intro .paused)), fun _ _ => ?_⟩
  refine avoids_bind_iff.2 ⟨avoids_require_iff.2 (.inr (not_not_intro .shutdown)), fun _ _ => ?_⟩
  refine avoids_bind_iff.2 ⟨DecentralPool.onlyTokenOwner_avoids hzero howner, fun _ _ => ?_⟩
  refine avoids_bind_iff.2 ⟨avoids_require_iff.2 (.inl hpending), fun _ _ => ?_⟩
  refine avoids_bind_iff.2 ⟨avoids_require_iff.2 (.inl happroved), fun _ _ => ?_⟩
  refine avoids_bind_iff.2 ⟨p.updateRewardAccrual_avoids now, fun q _ => ?_⟩
  refine avoids_bind_iff.2 ⟨avoids_checkedMul harith, fun scaled _ => ?_⟩
  refine avoids_bind_iff.2 ⟨avoids_checkedAdd harith, fun rewardDebt _ => ?_⟩
  refine avoids_bind_iff.2 ⟨avoids_require_iff.2 (.inr (not_not_intro .unregistered)), fun _ _ => ?_⟩
  exact avoids_bind_iff.2 ⟨DecentralPool.applyDelta_avoids _ _, fun paid _ => avoids_pure _⟩

/-- And one of the principal, once its delay is over. -/
theorem DecentralPool.executePrincipalWithdrawal_avoids {p : DecentralPool} {nft : PoolToken} {self sender : Address}
    {now tokenId : Nat} (hzero : sender ≠ 0) (howner : nft.owner tokenId = sender)
    (hpending : (p.principalWithdrawalRequests tokenId).pending = true)
    (happroved : (p.principalWithdrawalRequests tokenId).approved = true)
    (havailable : (p.principalWithdrawalRequests tokenId).availableTimestamp ≤ now) :
    Avoids (fun e => ¬ Outage e) (p.executePrincipalWithdrawal nft self sender now tokenId) := by
  have harith : ¬ ¬ Outage (.panic .arithmetic) := not_not_intro .arithmetic
  unfold DecentralPool.executePrincipalWithdrawal
  refine avoids_bind_iff.2 ⟨avoids_require_iff.2 (.inr (not_not_intro .paused)), fun _ _ => ?_⟩
  refine avoids_bind_iff.2 ⟨DecentralPool.onlyTokenOwner_avoids hzero howner, fun _ _ => ?_⟩
  refine avoids_bind_iff.2 ⟨avoids_require_iff.2 (.inl hpending), fun _ _ => ?_⟩
  refine avoids_bind_iff.2 ⟨avoids_require_iff.2 (.inl happroved), fun _ _ => ?_⟩
  refine avoids_bind_iff.2 ⟨avoids_require_iff.2 (.inl havailable), fun _ _ => ?_⟩
  refine avoids_bind_iff.2 ⟨p.updateRewardAccrual_avoids now, fun q _ => ?_⟩
  refine avoids_bind_iff.2 ⟨avoids_checkedSub harith, fun _ _ => ?_⟩
  refine avoids_bind_iff.2 ⟨DecentralPool.applyDelta_avoids _ _, fun paid _ => ?_⟩
  refine avoids_bind_iff.2 ⟨?_, fun _ _ => avoids_pure _⟩
  -- the burn finds the owner the check found
  unfold PoolToken.burn PoolToken.ownerOf
  refine avoids_bind_iff.2 ⟨avoids_require_iff.2 (.inr (not_not_intro .unregistered)), fun _ _ => ?_⟩
  refine avoids_bind_iff.2 ⟨?_, fun _ _ => avoids_pure _⟩
  refine avoids_bind_iff.2 ⟨avoids_require_iff.2 (.inl ?_), fun _ _ => avoids_pure _⟩
  rw [howner]
  exact hzero

/-- Where the keeper's check finds nothing to wait for, the pool refuses only for an outage. -/
theorem Pair.withdrawal_avoids {c : Nat → PoolCall} {nowSeconds : Nat} (hself : v.self ≠ 0) (hsender : v.sender ≠ 0)
    (hagrees : x.Agrees v.sender) (hc : x.pos.state.withdrawal = some c) (hnow : nowSeconds ≤ v.now)
    (hready : decentralWaiting x.side.pool.toRequests x.pos.tokenId x.pos.state nowSeconds = some none) :
    Avoids (fun e => ¬ Outage e) ((c x.pos.tokenId).run v x.side) := by
  have hopen : x.pos.toTerms.state ≠ .redeemed := by
    intro heq
    rw [show x.pos.state = .redeemed from heq] at hc
    cases hc
  unfold Pair.Agrees at hagrees
  rw [Terms.slot, if_neg hopen] at hagrees
  obtain ⟨howner, -, -, hyield, hexit, -⟩ := Slot.mk.inj hagrees
  cases hstate : x.pos.state with
  | yieldWithdrawalRequested =>
    rw [hstate] at hc hready
    cases hc
    have hpending : (x.side.pool.yieldWithdrawalRequests x.pos.tokenId).pending = true := by
      rw [hyield]
      exact decide_eq_true hstate
    have happroved := (decentralWaiting_yield_iff hpending).1 hready
    refine avoids_bind_iff.2 ⟨DecentralPool.executeYieldWithdrawal_avoids hsender howner hpending happroved, ?_⟩
    intro r _
    exact avoids_bind_iff.2 ⟨payment_avoids hself hsender, fun _ _ => avoids_pure _⟩
  | principalWithdrawalRequested =>
    rw [hstate] at hc hready
    cases hc
    have hpending : (x.side.pool.principalWithdrawalRequests x.pos.tokenId).pending = true := by
      rw [hexit]
      exact decide_eq_true hstate
    obtain ⟨happroved, havailable⟩ := (decentralWaiting_principal_iff hpending).1 hready
    refine avoids_bind_iff.2
      ⟨DecentralPool.executePrincipalWithdrawal_avoids hsender howner hpending happroved
        (havailable.trans hnow), ?_⟩
    intro r _
    exact avoids_bind_iff.2 ⟨payment_avoids hself hsender, fun _ _ => avoids_pure _⟩
  | active => rw [hstate] at hc; cases hc
  | yieldClaimed => rw [hstate] at hc; cases hc
  | redeemed => rw [hstate] at hc; cases hc

/-- A stage that is served moves its position on. -/
theorem Pair.ask_rank_le {gas : Bool} {c : Nat → PoolCall} {pos : NFTPosition}
    (h : x.pos.state.rank ≤ pos.state.rank) : x.pos.state.rank ≤ (x.ask v gas c pos).1.pos.state.rank := by
  rcases x.ask_cases v gas c pos with ⟨hask, -⟩ | ⟨s, n, -, -, hask⟩
  · rw [hask]
  · rw [hask]
    exact h

theorem Pair.requestPrincipal_rank_le {gas : Bool} :
    x.pos.state.rank ≤ (x.requestPrincipal v gas).1.pos.state.rank := by
  unfold Pair.requestPrincipal
  split_ifs with hstate
  · refine Pair.ask_rank_le ?_
    rw [hstate]
    show NFTState.yieldClaimed.rank ≤ NFTState.principalWithdrawalRequested.rank
    decide
  · exact le_refl _

theorem Pair.executePrincipal_rank_le {gas : Bool} :
    x.pos.state.rank ≤ (x.executePrincipal v gas).1.pos.state.rank := by
  unfold Pair.executePrincipal
  split_ifs with hstate
  · refine Pair.ask_rank_le ?_
    rw [hstate]
    show NFTState.principalWithdrawalRequested.rank ≤ NFTState.redeemed.rank
    decide
  · exact le_refl _

/-- A withdrawal that the pool serves moves the position on. -/
theorem Pair.poke_rank_lt {c : Nat → PoolCall} {r : Side × Nat} (hc : x.pos.state.withdrawal = some c)
    (hrun : (c x.pos.tokenId).run v x.side = .ok r) : x.pos.state.rank < (x.poke v .ample).1.pos.state.rank := by
  have hserved : ∀ pos, x.ask v true c pos = (⟨r.1, pos⟩, some r.2) := by
    intro pos
    rcases x.ask_cases v true c pos with ⟨-, herror⟩ | ⟨s, n, -, hrun', hask⟩
    · obtain ⟨e, he⟩ := herror rfl
      rw [hrun] at he
      cases he
    · rw [hrun] at hrun'
      cases hrun'
      exact hask
  have hfirst : x.pos.state ≠ .active → (x.requestYield v true).1 = x := by
    intro hne
    unfold Pair.requestYield
    rw [if_neg fun hdue => hne (of_decide_eq_true hdue).1]
  cases hstate : x.pos.state with
  | yieldWithdrawalRequested =>
    have hx := hfirst (by rw [hstate]; decide)
    have hclaimed : ((x.requestYield v true).1.executeYield v true).1.pos.state = .yieldClaimed := by
      rw [hstate] at hc
      cases hc
      rw [hx, Pair.executeYield, if_pos hstate, hserved]
    calc NFTState.yieldWithdrawalRequested.rank < NFTState.yieldClaimed.rank := by decide
      _ = ((x.requestYield v true).1.executeYield v true).1.pos.state.rank := by rw [hclaimed]
      _ ≤ _ := Pair.requestPrincipal_rank_le
      _ ≤ _ := Pair.executePrincipal_rank_le
  | principalWithdrawalRequested =>
    have hx := hfirst (by rw [hstate]; decide)
    have hsecond : (x.executeYield v true).1 = x := by
      unfold Pair.executeYield
      rw [if_neg (by rw [hstate]; decide)]
    have hthird : (x.requestPrincipal v true).1 = x := by
      unfold Pair.requestPrincipal
      rw [if_neg (by rw [hstate]; decide)]
    have hdone : (x.poke v .ample).1.pos.state = .redeemed := by
      rw [hstate] at hc
      cases hc
      show ((((x.requestYield v true).1.executeYield v true).1.requestPrincipal v true).1.executePrincipal v
        true).1.pos.state = _
      rw [hx, hsecond, hthird, Pair.executePrincipal, if_pos hstate, hserved]
    rw [hdone]
    decide
  | active => rw [hstate] at hc; cases hc
  | yieldClaimed => rw [hstate] at hc; cases hc
  | redeemed => rw [hstate] at hc; cases hc

end Sent

/-! ## The pass -/

section Pass

variable {d : Deployment} {w : World}

/-- Putting back what is there changes the vault alone. -/
theorem World.put_side {a : Address} {p : DecentralPool} {s : State} (hp : w.pools a = some p) :
    w.put a (w.side p) s = { w with vault := s } := by
  have hpools : Function.update w.pools a (some p) = w.pools := by
    rw [← hp]
    exact Function.update_eq_self ..
  have hnfts : Function.update w.nfts p.poolToken (w.nfts p.poolToken) = w.nfts := Function.update_eq_self ..
  simp only [World.put, World.setPool, World.setNft, World.side, hpools, hnfts]

/-- Where no stage can move the position, a poke is a sync. -/
theorem World.poke_held {sender : Address} {gas : Gas} {i : Nat} {w' : World} {pos : NFTPosition} {p : DecentralPool}
    (hpos : w.vault.positions[i]? = some pos) (hp : w.pools (w.vault.positionPool i) = some p)
    (hidle : ∀ pos' : NFTPosition, pos'.toTerms = pos.toTerms → pos'.overdue w.vault.now = false ∧
      pos'.state ≠ .yieldClaimed ∧ ¬ Pair.YieldReady ⟨w.side p, pos'⟩ ∧
      ¬ Pair.PrincipalReady w.vault.now ⟨w.side p, pos'⟩)
    (h : w.step d (.poke sender gas i) = some w') :
    ∃ s k, syncMaturities w.vault maxMaturitySync = .ok (s, k) ∧ w' = { w with vault := s } := by
  obtain ⟨-, s, s₁, k, q, pos', ps, hsync, hpos', hq, hpoke, -, rfl⟩ := World.poke_some h
  obtain rfl := Option.some.inj (hp.symm.trans hq)
  have hsame := syncMaturities_keepsTerms hsync
  obtain ⟨old, hold, hterms⟩ := hsame.get hpos'
  obtain rfl := Option.some.inj (hpos.symm.trans hold)
  obtain ⟨hdue, hclaimed, hyield, hexit⟩ := hidle pos' hterms
  have hpair : Pair.poke (w.visit d i) ⟨w.side p, pos'⟩ gas = (⟨w.side p, pos'⟩, .none) :=
    Pair.poke_idle hdue hclaimed hyield hexit
  rw [hpair] at hpoke ⊢
  have hnow : s₁.now = w.vault.now := by
    have := (syncMaturities_pokes (d := d) hsync).2
    rw [this]
  have hheard : PokeReply.none.Heard ((w.replies (fun _ => ⟨none, none⟩) none .none).pool (s₁.positionPool i)) := by
    rw [hsame.pools]
    simp only [World.replies, hp]
    exact p.reply_heard none .none
  obtain rfl := pokeDecentral_refused hsync hpos' (by rw [hnow]; exact hdue) hheard hpoke
  exact ⟨s, k, hsync, World.put_side hp⟩

/-- Of a position that waits, the pool refuses for an outage, or serves it and it moves on. -/
theorem World.poke_sent {i : Nat} {pos : NFTPosition} {p : DecentralPool} {nowSeconds : Nat} {c : Nat → PoolCall}
    (h : (world d).Reach w) (hpos : w.vault.positions[i]? = some pos)
    (hp : w.pools (w.vault.positionPool i) = some p) (hnow : nowSeconds ≤ w.vault.now)
    (hready : decentralWaiting p.toRequests pos.tokenId pos.state nowSeconds = some none)
    (hc : pos.state.withdrawal = some c) :
    (∀ e, (c pos.tokenId).run (w.visit d i) (w.side p) = .error e → Outage e) ∧
      ∀ r sender w', (c pos.tokenId).run (w.visit d i) (w.side p) = .ok r →
        w.step d (.poke sender .ample i) = some w' →
        ∃ pos', w'.vault.positions[i]? = some pos' ∧ pos.state.rank < pos'.state.rank := by
  obtain ⟨q, hq, hslot, -⟩ := (World.agrees h).holds i pos hpos
  obtain rfl := Option.some.inj (hp.symm.trans hq)
  have hself : w.vault.positionPool i ≠ 0 := by
    intro hzero
    rw [hzero, (World.vault_reachable h).2.2] at hp
    cases hp
  refine ⟨fun e he => ?_, fun r sender w' hrun hstep => ?_⟩
  · have := Pair.withdrawal_avoids (x := ⟨w.side p, pos⟩) (v := w.visit d i) hself d.self_ne_zero hslot hc hnow hready e he
    exact not_not.1 this
  · obtain ⟨-, s, s₁, k, q, pos', ps, hsync, hpos', hq, hpoke, htracks, rfl⟩ := World.poke_some hstep
    obtain rfl := Option.some.inj (hp.symm.trans hq)
    obtain ⟨old, hold, hterms⟩ := (syncMaturities_keepsTerms hsync).get hpos'
    obtain rfl := Option.some.inj (hpos.symm.trans hold)
    obtain ⟨hid, -, -, -, hstate⟩ := Terms.mk.inj hterms
    rw [← hstate] at hc ⊢
    rw [← hid] at hrun
    exact ⟨_, htracks.get, Pair.poke_rank_lt (x := ⟨w.side p, pos'⟩) hc hrun⟩

/-- What the keeper holds back: a redeemed position, one not matured, one that waits for Decentral or makes the
check throw. -/
def HeldBack (p : DecentralPool) (pos : NFTPosition) (nowSeconds : Nat) : Prop :=
  pos.state = .redeemed ∨ (pos.state = .active ∧ nowSeconds < pos.maturityTime) ∨
    decentralWaiting p.toRequests pos.tokenId pos.state nowSeconds ≠ some none

/-- What it does about a position that is there. -/
theorem processPositionIfNeeded_spec (staleThreshold nowSeconds : Nat) {i : Nat} {pos : NFTPosition}
    {p : DecentralPool} (hpos : w.vault.positions[i]? = some pos) (hp : w.pools (w.vault.positionPool i) = some p) :
    (processPositionIfNeeded staleThreshold w nowSeconds i = none ↔
        Undatable p.toRequests pos.tokenId pos.state nowSeconds) ∧
      ((handlePosition staleThreshold w nowSeconds i).pokes = false ↔ HeldBack p pos nowSeconds) ∧
      ((handlePosition staleThreshold w nowSeconds i).alert.isSome = true ↔ pos.state ≠ .redeemed ∧
        pos.maturityTime + staleThreshold < nowSeconds ∧
        ¬ Undatable p.toRequests pos.tokenId pos.state nowSeconds) := by
  have halert : (stuckPosition staleThreshold i nowSeconds pos).isSome = true ↔
      pos.maturityTime + staleThreshold < nowSeconds := by
    unfold stuckPosition
    split_ifs with hlate <;> simp [hlate]
  unfold handlePosition processPositionIfNeeded HeldBack
  rw [hpos, hp, ← decentralWaiting_none_iff]
  simp only [Option.bind_eq_bind, Option.bind_some]
  cases hstate : pos.state with
  | active =>
    by_cases hmatured : pos.maturityTime ≤ nowSeconds
    · simp [decentralWaiting, hmatured, halert]
    · simp [decentralWaiting, hmatured, not_le.1 hmatured]
      omega
  | redeemed => simp [decentralWaiting]
  | yieldClaimed => simp [decentralWaiting, halert]
  | yieldWithdrawalRequested =>
    rcases hwaiting : decentralWaiting p.toRequests pos.tokenId .yieldWithdrawalRequested nowSeconds with _ | _ | _ <;>
      simp [halert]
  | principalWithdrawalRequested =>
    rcases hwaiting : decentralWaiting p.toRequests pos.tokenId .principalWithdrawalRequested nowSeconds with _ | _ | _ <;>
      simp [halert]

/-- No stage moves a position that is held back, on a clock not behind the block. -/
theorem HeldBack.idle {p : DecentralPool} {pos pos' : NFTPosition} {nowSeconds : Nat}
    (h : HeldBack p pos nowSeconds) (hnow : w.vault.now ≤ nowSeconds)
    (hslot : (w.side p).slot pos.toTerms.tokenId = pos.toTerms.slot d.self) (hterms : pos'.toTerms = pos.toTerms) :
    pos'.overdue w.vault.now = false ∧ pos'.state ≠ .yieldClaimed ∧ ¬ Pair.YieldReady ⟨w.side p, pos'⟩ ∧
      ¬ Pair.PrincipalReady w.vault.now ⟨w.side p, pos'⟩ := by
  obtain ⟨hid, -, -, hmaturity, hstate⟩ := Terms.mk.inj hterms
  rcases h with hredeemed | ⟨hactive, hearly⟩ | hwaiting
  · rw [hredeemed] at hstate
    refine ⟨decide_eq_false fun hdue => ?_, fun hc => ?_, fun hy => ?_, fun hx => ?_⟩
    · cases hstate.symm.trans hdue.1
    · cases hstate.symm.trans hc
    · cases hstate.symm.trans hy.state
    · cases hstate.symm.trans hx.state
  · rw [hactive] at hstate
    refine ⟨decide_eq_false fun hdue => ?_, fun hc => ?_, fun hy => ?_, fun hx => ?_⟩
    · have := hdue.2.1
      omega
    · cases hstate.symm.trans hc
    · cases hstate.symm.trans hy.state
    · cases hstate.symm.trans hx.state
  · -- a request is there, as the state says
    have hopen : pos.toTerms.state ≠ .redeemed := by
      intro hredeemed
      rw [show pos.state = .redeemed from hredeemed] at hwaiting
      exact hwaiting rfl
    rw [Terms.slot, if_neg hopen] at hslot
    obtain ⟨-, -, -, hyield, hexit, -⟩ := Slot.mk.inj hslot
    cases hpos : pos.state with
    | yieldWithdrawalRequested =>
      rw [hpos] at hwaiting hstate
      refine ⟨decide_eq_false fun hdue => ?_, fun hc => ?_, fun hy => hwaiting ?_, fun hx => ?_⟩
      · cases hstate.symm.trans hdue.1
      · cases hstate.symm.trans hc
      · refine (decentralWaiting_yield_iff (hyield.trans (decide_eq_true hpos))).2 ?_
        rw [show pos.toTerms.tokenId = pos'.tokenId from hid.symm]
        exact hy.approved
      · cases hstate.symm.trans hx.state
    | principalWithdrawalRequested =>
      rw [hpos] at hwaiting hstate
      refine ⟨decide_eq_false fun hdue => ?_, fun hc => ?_, fun hy => ?_, fun hx => hwaiting ?_⟩
      · cases hstate.symm.trans hdue.1
      · cases hstate.symm.trans hc
      · cases hstate.symm.trans hy.state
      · refine (decentralWaiting_principal_iff (hexit.trans (decide_eq_true hpos))).2 ?_
        rw [show pos.toTerms.tokenId = pos'.tokenId from hid.symm]
        exact ⟨hx.approved, hx.available.trans hnow⟩
    | active => rw [hpos] at hwaiting; exact absurd rfl hwaiting
    | yieldClaimed => rw [hpos] at hwaiting; exact absurd rfl hwaiting
    | redeemed => rw [hpos] at hwaiting; exact absurd rfl hwaiting

/-- In every reachable world the keeper's check is exact. It reads every position, and throws on one only where
it would name a date past the last. A poke that it holds back, or throws before, would leave what the sync
leaves, on a clock not behind the block. Where a withdrawal waits and it sends the poke, on a clock not ahead,
the pool refuses only for an outage, and a withdrawal it serves moves the position on. It alerts on exactly the
open positions past their maturity by the threshold that it does not throw on. -/
theorem keeper_pokes_what_moves (staleThreshold nowSeconds : Nat) {i : Nat} {pos : NFTPosition} (h : (world d).Reach w)
    (hpos : w.vault.positions[i]? = some pos) :
    ∃ p, w.pools (w.vault.positionPool i) = some p ∧
      (processPositionIfNeeded staleThreshold w nowSeconds i = none ↔
        Undatable p.toRequests pos.tokenId pos.state nowSeconds) ∧
      ((handlePosition staleThreshold w nowSeconds i).pokes = false → w.vault.now ≤ nowSeconds →
        ∀ sender gas w', w.step d (.poke sender gas i) = some w' →
        ∃ s k, syncMaturities w.vault maxMaturitySync = .ok (s, k) ∧ w' = { w with vault := s }) ∧
      ((handlePosition staleThreshold w nowSeconds i).pokes = true → nowSeconds ≤ w.vault.now →
        ∀ c, pos.state.withdrawal = some c →
        (∀ e, (c pos.tokenId).run (w.visit d i) (w.side p) = .error e → Outage e) ∧
        (∀ r sender w', (c pos.tokenId).run (w.visit d i) (w.side p) = .ok r →
          w.step d (.poke sender .ample i) = some w' →
          ∃ pos', w'.vault.positions[i]? = some pos' ∧ pos.state.rank < pos'.state.rank)) ∧
      ((handlePosition staleThreshold w nowSeconds i).alert.isSome = true ↔ pos.state ≠ .redeemed ∧
        pos.maturityTime + staleThreshold < nowSeconds ∧
        ¬ Undatable p.toRequests pos.tokenId pos.state nowSeconds) := by
  obtain ⟨p, hp, hslot, -⟩ := (World.agrees h).holds i pos hpos
  obtain ⟨hthrows, hheld, halert⟩ := processPositionIfNeeded_spec staleThreshold nowSeconds hpos hp
  refine ⟨p, hp, hthrows, fun hfalse hnow sender gas w' hstep => ?_, fun htrue hnow c hc => ?_, halert⟩
  · exact World.poke_held hpos hp (fun pos' hterms => (hheld.1 hfalse).idle hnow hslot hterms) hstep
  · refine World.poke_sent h hpos hp hnow ?_ hc
    by_contra hwaiting
    rw [hheld.2 (.inr (.inr hwaiting))] at htrue
    cases htrue

end Pass

/-- Ten days past its maturity the position, which could be redeemed since two, is alerted on. -/
theorem keeper_pokes_what_moves_demo : ∃ w pos, (world demo).Reach w ∧ w.vault.positions[0]? = some pos ∧
    pos.state = .principalWithdrawalRequested ∧
    (handlePosition (96 * 3600) w (70 * 24 * 60 * 60) 0).alert.isSome = true := by
  obtain ⟨w, hw, ht⟩ := observe_world demoVisits
    (fun w => (w.vault.positions[0]?.any fun pos : NFTPosition =>
      decide (pos.state = NFTState.principalWithdrawalRequested ∧ pos.maturityTime = 60 * 24 * 60 * 60)) &&
      (processPositionIfNeeded (96 * 3600) w (70 * 24 * 60 * 60) 0).isSome) (by decide +kernel)
  rw [Bool.and_eq_true] at ht
  obtain ⟨pos, hpos, hat⟩ := (Option.any_eq_true _ _).1 ht.1
  obtain ⟨hstate, hmaturity⟩ := of_decide_eq_true hat
  obtain ⟨p, -, hthrows, -, -, halert⟩ := keeper_pokes_what_moves (96 * 3600) (70 * 24 * 60 * 60) hw hpos
  refine ⟨w, pos, hw, hpos, hstate, halert.2 ⟨?_, ?_, fun hdate => ?_⟩⟩
  · rw [hstate]
    decide
  · rw [hmaturity]
    decide
  · rw [hthrows.2 hdate] at ht
    exact Bool.false_ne_true ht.2

/-- A delay of the principal past every date, set before the principal is requested, silences the keeper. -/
theorem keeper_silent : ∃ w, (world demo).Reach w ∧
    processPositionIfNeeded (96 * 3600) w (70 * 24 * 60 * 60) 0 = none := by
  obtain ⟨w, hw, ht⟩ := observe_world
    (demoVisits.take (demoFunding.length + 4) ++ .pool bob demoPool (.setPrincipalWithdrawalDelaySeconds lastDate) ::
      demoVisits.drop (demoFunding.length + 4))
    (fun w => (processPositionIfNeeded (96 * 3600) w (70 * 24 * 60 * 60) 0).isNone) (by decide +kernel)
  exact ⟨w, hw, Option.isNone_iff_eq_none.1 ht⟩

end MoneyMarket
