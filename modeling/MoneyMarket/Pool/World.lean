/-
The vault with the Decentral pools it invests in. What a pool answers to a call of the vault is what
its own functions do in its own state, so the two sides move together: a poke of a position is four
stages, each asking the pool and moving the position if the pool agrees (`Pair.poke`). The other
accounts call the pools as they like and trade tokens. The vault of such a run is a run of the vault
(`World.vault_reachable`), and a poke leaves on both sides what the stages leave (`pokeDecentral_tracks`).
-/
import MoneyMarket.Pool.Decentral
import MoneyMarket.Vault.Breaker
import MoneyMarket.Vault.Registry
import MoneyMarket.Vault.Replay
import MoneyMarket.Vault.Terms

namespace MoneyMarket

open Evm Transition

/-! ## A poke on both sides -/

/-- A position of the vault beside its pool. -/
structure Pair where
  side : Side
  pos : NFTPosition

/-- Which of the calls a poke tries have the gas they need. -/
structure Gas where
  requestYield : Bool
  executeYield : Bool
  requestPrincipal : Bool
  executePrincipal : Bool
  deriving Repr, DecidableEq

def Gas.ample : Gas := ⟨true, true, true, true⟩

/-- What a pool gave for each call of a poke, `none` where it refused or was not asked. -/
structure PokeReply where
  requestYield : Option Nat
  executeYield : Option Nat
  requestPrincipal : Option Nat
  executePrincipal : Option Nat
  deriving Repr, DecidableEq

def PokeReply.none : PokeReply := ⟨.none, .none, .none, .none⟩

namespace Pair

variable (v : Visit) (gas : Bool) (x : Pair)

/-- The pool is asked, and the position moves if it agrees. -/
def ask (c : Nat → PoolCall) (pos : NFTPosition) : Pair × Option Nat :=
  match x.side.attempt v gas (c x.pos.tokenId) with
  | (side, some given) => (⟨side, pos⟩, some given)
  | (side, none) => (⟨side, x.pos⟩, none)

/-- A position without yield to claim goes on without asking. -/
def requestYield : Pair × Option Nat :=
  if x.pos.overdue v.now = true then
    if x.pos.pendingYield = 0 then ({ x with pos.state := .yieldClaimed }, none)
    else x.ask v gas .requestYieldWithdrawal { x.pos with state := .yieldWithdrawalRequested }
  else (x, none)

def executeYield : Pair × Option Nat :=
  if x.pos.state = .yieldWithdrawalRequested then
    x.ask v gas .executeYieldWithdrawal { x.pos with pendingYield := 0, state := .yieldClaimed }
  else (x, none)

def requestPrincipal : Pair × Option Nat :=
  if x.pos.state = .yieldClaimed then
    x.ask v gas .requestPrincipalWithdrawal { x.pos with state := .principalWithdrawalRequested }
  else (x, none)

def executePrincipal : Pair × Option Nat :=
  if x.pos.state = .principalWithdrawalRequested then
    x.ask v gas .executePrincipalWithdrawal { x.pos with state := .redeemed }
  else (x, none)

/-- The four stages of a poke. -/
def poke (gas : Gas) : Pair × PokeReply :=
  let asked := x.requestYield v gas.requestYield
  let claimed := asked.1.executeYield v gas.executeYield
  let exiting := claimed.1.requestPrincipal v gas.requestPrincipal
  let done := exiting.1.executePrincipal v gas.executePrincipal
  (done.1, ⟨asked.2, claimed.2, exiting.2, done.2⟩)

end Pair

/-! ## The world -/

structure World where
  vault : State
  pools : Address → Option DecentralPool
  nfts : Address → PoolToken

/-- An account without code answers nothing. -/
def PoolReply.silent : PoolReply := ⟨none, none, none, none, none, false, none, false, none⟩

/-- What the vault hears from a pool. -/
def DecentralPool.reply (p : DecentralPool) (deposit : Option (Nat × Nat)) (poke : PokeReply) : PoolReply where
  stablecoin := some p.stablecoin
  poolToken := some p.poolToken
  fixedAPYWad := some p.fixedAPYWad
  minimumInvestmentPeriodSeconds := some p.minimumInvestmentPeriodSeconds
  deposit
  requestYieldWithdrawal := poke.requestYield.isSome
  executeYieldWithdrawal := poke.executeYield
  requestPrincipalWithdrawal := poke.requestPrincipal.isSome
  executePrincipalWithdrawal := poke.executePrincipal

namespace World

variable (d : Deployment) (w : World)

def side (p : DecentralPool) : Side := ⟨p, w.nfts p.poolToken, w.vault.token⟩

def setPool (a : Address) (p : DecentralPool) : World := { w with pools := Function.update w.pools a (some p) }
def setNft (a : Address) (nft : PoolToken) : World := { w with nfts := Function.update w.nfts a nft }

/-- The vault, the pool at `a` and its NFT after a call. -/
def put (a : Address) (s : Side) (vault : State) : World :=
  { (w.setPool a s.pool).setNft s.pool.poolToken s.nft with vault }

def replies (feed : Address → FeedReply) (deposit : Option (Nat × Nat)) (poke : PokeReply) : Replies where
  pool a := match w.pools a with
    | some p => p.reply deposit poke
    | none => .silent
  feed

/-- What the active pool and its NFT make of a deposit. -/
structure Accepted where
  pool : DecentralPool
  nft : PoolToken
  tokenId : Nat
  amount : Nat

/-- The active pool takes an amount of the vault, which accepts the token it mints. `none` offered is a
deposit that runs out of gas. -/
def accepts (offered : Option Nat) : Option Accepted :=
  match offered, w.pools w.vault.activeDepositPool with
  | some amount, some p =>
    match p.deposit (w.nfts p.poolToken) w.vault.activeDepositPool d.self w.vault.now amount,
      onERC721Received w.vault p.poolToken with
    | .ok (pool, nft, tokenId), .ok () => some ⟨pool, nft, tokenId, amount⟩
    | _, _ => none
  | _, _ => none

def visit (i : Nat) : Visit := ⟨w.vault.positionPool i, d.self, w.vault.now⟩

/-- A poke of position `i` after its sync, on both sides. -/
def pokes (gas : Gas) (i : Nat) : Option (Pair × PokeReply) :=
  match syncMaturities w.vault maxMaturitySync, w.pools (w.vault.positionPool i) with
  | .ok (s, _), some p => (s.positions[i]?).map fun pos => Pair.poke (w.visit d i) ⟨w.side p, pos⟩ gas
  | _, _ => none

end World

/-! ## Steps -/

inductive WorldAction where
  /-- Anything but a call of the vault. -/
  | outside (a : Action)
  /-- A call of the vault, what the feeds answer, and what the active pool is offered of it. -/
  | call (sender : Address) (feed : Address → FeedReply) (offered : Option Nat) (c : Call)
  | poke (sender : Address) (gas : Gas) (positionIndex : Nat)
  /-- A call of a pool by another account. -/
  | pool (sender pool : Address) (c : PoolCall)
  /-- The owner of a token gives it away. -/
  | transferToken (nft : Address) (tokenId : Nat) (owner dst : Address)
  | setPoolRole (nft pool : Address) (value : Bool)
  | deployPool (pool poolToken : Address) (apyWad : Nat)

/-- Who signs an action outside the vault. -/
def Action.signer : Action → Address
  | .call sender _ _ => sender
  | .hollar sender _ => sender
  | _ => 0

def Action.isCall : Action → Bool
  | .call _ _ _ => true
  | _ => false

def Call.isPoke : Call → Bool
  | .pokeDecentral _ => true
  | _ => false

/-- One step of the world; `none` is a transaction that reverts. Pools send only what their functions
send, and the vault gives no token away. -/
def World.step (d : Deployment) (w : World) : WorldAction → Option World
  | .outside a =>
    if a.isCall = false ∧ Legal d w.vault a ∧ (w.pools a.signer).isNone = true then
      match MoneyMarket.step d w.vault a with
      | .ok (s, _) => some { w with vault := s }
      | .error _ => none
    else none
  | .call sender feed offered c =>
    if sender ≠ d.self ∧ c.isPoke = false then
      let accepted := w.accepts d offered
      let env := w.replies feed (accepted.map fun x => (x.tokenId, x.amount)) .none
      match c.run d env w.vault sender with
      | .ok (s, _) =>
        match accepted, s.positions[w.vault.positions.length]? with
        -- the call opened no position, so the pool was not asked or refused
        | _, none => some { w with vault := s }
        | some x, some pos =>
          if pos.principal = x.amount then some (w.put w.vault.activeDepositPool ⟨x.pool, x.nft, s.token⟩ s) else none
        | none, some _ => none
      | .error _ => none
    else none
  | .poke sender gas i =>
    match w.pokes d gas i with
    | some (x, reply) =>
      match pokeDecentral d (w.replies (fun _ => ⟨none, none⟩) none reply) w.vault i with
      | .ok (s, _) => if sender ≠ d.self then some (w.put (w.vault.positionPool i) x.side s) else none
      | .error _ => none
    | none => none
  | .pool sender a c =>
    match w.pools a with
    | some p =>
      if sender ≠ d.self ∧ sender ≠ 0 then
        match c.run ⟨a, sender, w.vault.now⟩ (w.side p) with
        | .ok (s, _) => some (w.put a s { w.vault with token := s.token })
        | .error _ => none
      else none
    | none => none
  | .transferToken nft tokenId owner dst =>
    if (w.nfts nft).owner tokenId = owner ∧ owner ≠ 0 ∧ owner ≠ d.self ∧ dst ≠ 0 then
      some (w.setNft nft { w.nfts nft with owner := Function.update (w.nfts nft).owner tokenId dst })
    else none
  | .setPoolRole nft pool value =>
    some (w.setNft nft
      { w.nfts nft with registeredPools := Function.update (w.nfts nft).registeredPools pool value })
  | .deployPool pool poolToken apyWad =>
    if (w.pools pool).isNone = true ∧ pool ≠ d.self ∧ pool ≠ 0 then
      some (w.setPool pool (.construct w.vault.hollar poolToken apyWad w.vault.now))
    else none

/-- Ids are handed out in order: of an id still to come nothing is recorded. -/
structure World.Blank (w : World) : Prop where
  owner : ∀ nft t, (w.nfts nft).nextTokenId ≤ t → (w.nfts nft).owner t = 0
  slot : ∀ a p t, w.pools a = some p → (w.nfts p.poolToken).nextTokenId ≤ t → (w.side p).slot t = .empty

/-- No pool lives at the vault's address, or at none. -/
def World.PoolsApart (d : Deployment) (w : World) : Prop := w.pools d.self = none ∧ w.pools 0 = none

/-- The runs of the vault among pools that take HOLLAR, from any state of the pools. -/
def world (d : Deployment) : System World WorldAction where
  init w := (vault d).init w.vault ∧ w.PoolsApart d ∧ w.Blank ∧
    ∀ a p, w.pools a = some p → p.stablecoin = w.vault.hollar
  next w a w' := w.step d a = some w'

/-! ## A try of the vault -/

section Attempt

variable {d : Deployment} {v : Visit} {gas : Bool} {s : Side} {c : PoolCall}

/-- A try leaves everything, or what the call leaves. -/
theorem Side.attempt_cases (v : Visit) (gas : Bool) (s : Side) (c : PoolCall) :
    (s.attempt v gas c = (s, none) ∧ (gas = true → ∃ e, c.run v s = .error e)) ∨
      ∃ s' n, gas = true ∧ c.run v s = .ok (s', n) ∧ s.attempt v gas c = (s', some n) := by
  unfold Side.attempt
  cases gas with
  | false => exact .inl ⟨rfl, fun h => absurd h (by decide)⟩
  | true =>
    cases hrun : c.run v s with
    | ok r => exact .inr ⟨r.1, r.2, rfl, rfl, rfl⟩
    | error e => exact .inl ⟨rfl, fun _ => ⟨e, rfl⟩⟩

theorem Pair.ask_cases (v : Visit) (gas : Bool) (x : Pair) (c : Nat → PoolCall) (pos : NFTPosition) :
    (x.ask v gas c pos = (x, none) ∧ (gas = true → ∃ e, (c x.pos.tokenId).run v x.side = .error e)) ∨
      ∃ s n, gas = true ∧ (c x.pos.tokenId).run v x.side = .ok (s, n) ∧ x.ask v gas c pos = (⟨s, pos⟩, some n) := by
  unfold Pair.ask
  rcases x.side.attempt_cases v gas (c x.pos.tokenId) with ⟨hnone, herror⟩ | ⟨s, n, hgas, hrun, hsome⟩
  · rw [hnone]
    exact .inl ⟨rfl, herror⟩
  · rw [hsome]
    exact .inr ⟨s, n, hgas, hrun, rfl⟩

/-- The calls that pay their caller. -/
def PoolCall.Pays : PoolCall → Prop
  | .executeYieldWithdrawal _ | .executePrincipalWithdrawal _ => True
  | _ => False

/-- What a pool pays goes through the ledger. -/
theorem PoolCall.run_pays {s' : Side} {n : Nat} (hc : c.Pays) (h : c.run v s = .ok (s', n)) :
    (s.token.transfer v.self v.sender n : Tx ERC20) = .ok s'.token := by
  cases c with
  | executeYieldWithdrawal tokenId =>
    simp only [PoolCall.run, bind_ok_iff, pure_ok_iff, Prod.exists, Prod.mk.injEq] at h
    obtain ⟨_, _, -, token, htoken, rfl, rfl⟩ := h
    exact ERC20.transfer_ok_iff.2 (ERC20.transfer_ok_iff.1 htoken)
  | executePrincipalWithdrawal tokenId =>
    simp only [PoolCall.run, bind_ok_iff, pure_ok_iff, Prod.exists, Prod.mk.injEq] at h
    obtain ⟨_, _, _, -, token, htoken, rfl, rfl⟩ := h
    exact ERC20.transfer_ok_iff.2 (ERC20.transfer_ok_iff.1 htoken)
  | _ => exact hc.elim

/-- The calls that leave the ledger. -/
def PoolCall.Requests : PoolCall → Prop
  | .requestYieldWithdrawal _ | .requestPrincipalWithdrawal _ => True
  | _ => False

theorem PoolCall.run_requests {s' : Side} {n : Nat} (hc : c.Requests) (h : c.run v s = .ok (s', n)) :
    s'.token = s.token := by
  cases c with
  | requestYieldWithdrawal tokenId =>
    simp only [PoolCall.run, bind_ok_iff, pure_ok_iff, Prod.mk.injEq] at h
    obtain ⟨_, -, rfl, -⟩ := h
    rfl
  | requestPrincipalWithdrawal tokenId =>
    simp only [PoolCall.run, bind_ok_iff, pure_ok_iff, Prod.mk.injEq] at h
    obtain ⟨_, -, rfl, -⟩ := h
    rfl
  | _ => exact hc.elim

theorem poolPay_of_transfer {token token' : ERC20} {pool : Address} {n : Nat}
    (h : (token.transfer pool d.self n : Tx ERC20) = .ok token') : poolPay d (some n) token pool = some token' := by
  simp only [poolPay, h]

end Attempt

/-! ## The vault follows the stages -/

/-- Position `i` of `t` is the one of the pair, its ledger that of the pool's side. -/
structure Tracks (s : State) (i : Nat) (x : Pair) (t : State) : Prop where
  positions : t.positions = s.positions.set i x.pos
  inside : i < s.positions.length
  token : t.token = x.side.token
  now : t.now = s.now

section Tracks

variable {d : Deployment} {env : Replies} {s t : State} {i : Nat} {x : Pair} {f : Flow} {v : Visit} {gas : Bool}

theorem Tracks.get (h : Tracks s i x t) : t.positions[i]? = some x.pos := by
  rw [h.positions, List.getElem?_set_self h.inside]

theorem Tracks.setPosition {pos : NFTPosition} (h : Tracks s i x t) :
    Tracks s i ⟨x.side, pos⟩ (MoneyMarket.setPosition t i pos) := by
  refine ⟨?_, h.inside, h.token, h.now⟩
  show t.positions.set i pos = _
  rw [h.positions, List.set_set]

theorem requestYieldBranch_tracks (hv : v.now = s.now) (hx : Tracks s i x t)
    (hreply : (env.pool v.self).requestYieldWithdrawal = (x.requestYield v gas).2.isSome)
    (h : requestYieldBranch env v.self i t = .ok f) :
    Tracks s i (x.requestYield v gas).1 f.state ∧
      (f.left = true → (x.requestYield v gas).1.pos.state = .active) := by
  have hspec := requestYieldBranch_spec hx.get h
  unfold Pair.requestYield at hreply ⊢
  rw [hv, ← hx.now] at hreply ⊢
  rcases hspec with ⟨rfl, hactive, hyield, hnone⟩ | ⟨rfl, hdue⟩ | ⟨rfl, hdue, hzero⟩ | ⟨rfl, hyield, hdue, hpos⟩
  · by_cases hdue : x.pos.overdue t.now = true
    · rw [if_pos hdue] at hreply ⊢
      have hpos : x.pos.pendingYield ≠ 0 := by simpa [hdue] using hnone
      rw [if_neg hpos] at hreply ⊢
      -- due, and refused
      have hrefused : (env.pool v.self).requestYieldWithdrawal = false := by
        simpa [NFTPosition.paysYield, hdue, hpos, hactive] using hyield
      rcases x.ask_cases v gas .requestYieldWithdrawal { x.pos with state := .yieldWithdrawalRequested } with
        ⟨hask, -⟩ | ⟨s', n, -, -, hask⟩
      · rw [hask]
        exact ⟨hx, fun _ => hactive⟩
      · rw [hask, hrefused] at hreply
        exact absurd hreply Bool.false_ne_true
    · rw [if_neg hdue]
      exact ⟨hx, fun _ => hactive⟩
  · rw [if_neg (by rw [hdue]; decide)]
    exact ⟨hx, fun hleft => absurd hleft Bool.false_ne_true⟩
  · rw [if_pos hdue, if_pos hzero]
    exact ⟨hx.setPosition, fun hleft => absurd hleft Bool.false_ne_true⟩
  · rw [if_pos hdue, if_neg hpos] at hreply ⊢
    have hactive : x.pos.state = .active := (of_decide_eq_true hdue).1
    have hasked : (env.pool v.self).requestYieldWithdrawal = true := by
      simpa [NFTPosition.paysYield, hdue, hpos, hactive] using hyield
    rcases x.ask_cases v gas .requestYieldWithdrawal { x.pos with state := .yieldWithdrawalRequested } with
      ⟨hask, -⟩ | ⟨s', n, -, hrun, hask⟩
    · rw [hask, hasked] at hreply
      exact absurd hreply.symm Bool.false_ne_true
    · rw [hask]
      have htoken := PoolCall.run_requests (c := .requestYieldWithdrawal _) trivial hrun
      exact ⟨⟨hx.setPosition.positions, hx.inside, hx.token.trans htoken.symm, hx.now⟩,
        fun hleft => absurd hleft Bool.false_ne_true⟩

theorem executeYieldBranch_tracks (hsender : v.sender = d.self) (hx : Tracks s i x t)
    (hreply : (env.pool v.self).executeYieldWithdrawal = (x.executeYield v gas).2)
    (h : executeYieldBranch d env v.self i t = .ok f) :
    Tracks s i (x.executeYield v gas).1 f.state ∧
      (f.left = true → (x.executeYield v gas).1.pos.state = .yieldWithdrawalRequested) := by
  simp only [executeYieldBranch, bind_ok_iff, readAt_ok_iff] at h
  obtain ⟨_, hpos, h⟩ := h
  obtain rfl := Option.some.inj (hx.get.symm.trans hpos)
  unfold Pair.executeYield at hreply ⊢
  split_ifs at h hreply ⊢ with hstate
  · rcases x.ask_cases v gas .executeYieldWithdrawal { x.pos with pendingYield := 0, state := .yieldClaimed } with
      ⟨hask, -⟩ | ⟨s', n, -, hrun, hask⟩
    · rw [hask] at hreply ⊢
      rw [hreply] at h
      cases h
      exact ⟨hx, fun _ => hstate⟩
    · rw [hask] at hreply ⊢
      have hpays := PoolCall.run_pays (c := .executeYieldWithdrawal _) trivial hrun
      rw [hsender, ← hx.token] at hpays
      rw [hreply, poolPay_of_transfer hpays] at h
      simp only [bind_ok_iff, checkedSub_ok_iff, pure_ok_iff] at h
      obtain ⟨received, -, total, -, idle, -, _, -, rfl⟩ := h
      exact ⟨⟨hx.setPosition.positions, hx.inside, rfl, hx.now⟩, fun hleft => absurd hleft Bool.false_ne_true⟩
  · cases h
    exact ⟨hx, fun hleft => absurd hleft Bool.false_ne_true⟩

theorem requestPrincipalBranch_tracks (hx : Tracks s i x t)
    (hreply : (env.pool v.self).requestPrincipalWithdrawal = (x.requestPrincipal v gas).2.isSome)
    (h : requestPrincipalBranch env v.self i t = .ok f) :
    Tracks s i (x.requestPrincipal v gas).1 f.state ∧
      (f.left = true → (x.requestPrincipal v gas).1.pos.state = .yieldClaimed) := by
  simp only [requestPrincipalBranch, bind_ok_iff, readAt_ok_iff] at h
  obtain ⟨_, hpos, h⟩ := h
  obtain rfl := Option.some.inj (hx.get.symm.trans hpos)
  unfold Pair.requestPrincipal at hreply ⊢
  by_cases hstate : x.pos.state = .yieldClaimed
  · rw [if_pos hstate] at h hreply ⊢
    rcases x.ask_cases v gas .requestPrincipalWithdrawal { x.pos with state := .principalWithdrawalRequested } with
      ⟨hask, -⟩ | ⟨s', n, -, hrun, hask⟩
    · rw [hask] at hreply ⊢
      have hrefused : (env.pool v.self).requestPrincipalWithdrawal = false := hreply
      rw [if_neg (by rw [hrefused]; decide)] at h
      cases h
      exact ⟨hx, fun _ => hstate⟩
    · rw [hask] at hreply ⊢
      have hasked : (env.pool v.self).requestPrincipalWithdrawal = true := hreply
      rw [if_pos hasked] at h
      cases h
      have htoken := PoolCall.run_requests (c := .requestPrincipalWithdrawal _) trivial hrun
      exact ⟨⟨hx.setPosition.positions, hx.inside, hx.token.trans htoken.symm, hx.now⟩,
        fun hleft => absurd hleft Bool.false_ne_true⟩
  · rw [if_neg hstate] at h ⊢
    cases h
    exact ⟨hx, fun hleft => absurd hleft Bool.false_ne_true⟩

theorem executePrincipalBranch_tracks (hsender : v.sender = d.self) (hx : Tracks s i x t)
    (hreply : (env.pool v.self).executePrincipalWithdrawal = (x.executePrincipal v gas).2)
    (h : executePrincipalBranch d env v.self i t = .ok f) :
    Tracks s i (x.executePrincipal v gas).1 f.state ∧
      (f.left = true → (x.executePrincipal v gas).1.pos.state = .principalWithdrawalRequested) := by
  simp only [executePrincipalBranch, bind_ok_iff, readAt_ok_iff] at h
  obtain ⟨_, hpos, h⟩ := h
  obtain rfl := Option.some.inj (hx.get.symm.trans hpos)
  unfold Pair.executePrincipal at hreply ⊢
  split_ifs at h hreply ⊢ with hstate
  · rcases x.ask_cases v gas .executePrincipalWithdrawal { x.pos with state := .redeemed } with
      ⟨hask, -⟩ | ⟨s', n, -, hrun, hask⟩
    · rw [hask] at hreply ⊢
      rw [hreply] at h
      cases h
      exact ⟨hx, fun _ => hstate⟩
    · rw [hask] at hreply ⊢
      have hpays := PoolCall.run_pays (c := .executePrincipalWithdrawal _) trivial hrun
      rw [hsender, ← hx.token] at hpays
      rw [hreply, poolPay_of_transfer hpays] at h
      simp only [bind_ok_iff, checkedSub_ok_iff, pure_ok_iff] at h
      obtain ⟨received, -, _, -, total, -, idle, -, after, hdist, _, -, rfl⟩ := h
      -- the sweep and the distribution leave the positions and the HOLLAR
      obtain ⟨hbook, htoken, hnow⟩ := distribute_frame hdist
      have hpositions := congrArg Book.positions hbook
      exact ⟨⟨hpositions.trans hx.setPosition.positions, hx.inside, htoken, hnow.trans hx.now⟩,
        fun hleft => absurd hleft Bool.false_ne_true⟩
  · cases h
    exact ⟨hx, fun hleft => absurd hleft Bool.false_ne_true⟩

/-- A stage finds nothing to do at a position that is not that far. -/
theorem Pair.executeYield_idle (h : x.pos.state.rank ≤ 0) : (x.executeYield v gas).1 = x := by
  unfold Pair.executeYield
  rw [if_neg]
  intro hstate
  rw [hstate] at h
  exact absurd h (by decide)

theorem Pair.requestPrincipal_idle (h : x.pos.state.rank ≤ 1) : (x.requestPrincipal v gas).1 = x := by
  unfold Pair.requestPrincipal
  rw [if_neg]
  intro hstate
  rw [hstate] at h
  exact absurd h (by decide)

theorem Pair.executePrincipal_idle (h : x.pos.state.rank ≤ 2) : (x.executePrincipal v gas).1 = x := by
  unfold Pair.executePrincipal
  rw [if_neg]
  intro hstate
  rw [hstate] at h
  exact absurd h (by decide)

/-- The pool's answers are those the stages of a poke gave. -/
structure PokeReply.Heard (r : PokeReply) (reply : PoolReply) : Prop where
  requestYield : reply.requestYieldWithdrawal = r.requestYield.isSome
  executeYield : reply.executeYieldWithdrawal = r.executeYield
  requestPrincipal : reply.requestPrincipalWithdrawal = r.requestPrincipal.isSome
  executePrincipal : reply.executePrincipalWithdrawal = r.executePrincipal

theorem DecentralPool.reply_heard (p : DecentralPool) (deposit : Option (Nat × Nat)) (r : PokeReply) :
    r.Heard (p.reply deposit r) :=
  ⟨rfl, rfl, rfl, rfl⟩

/-- The next branch, unless the one before it returned, and then its position is too early for it. -/
theorem Flow.andThen_tracks {a f : Flow} {y : Pair × Option Nat} {next : State → Tx Flow} {k : Nat}
    (ha : Tracks s i x a.state ∧ (a.left = true → x.pos.state.rank ≤ k)) (hidle : x.pos.state.rank ≤ k → y.1 = x)
    (hnext : ∀ g, next a.state = .ok g → Tracks s i y.1 g.state ∧ (g.left = true → y.1.pos.state.rank ≤ k + 1))
    (h : a.andThen next = .ok f) : Tracks s i y.1 f.state ∧ (f.left = true → y.1.pos.state.rank ≤ k + 1) := by
  by_cases hleft : a.left = true
  · obtain rfl := Flow.andThen_left hleft h
    have hrank := ha.2 hleft
    rw [hidle hrank]
    exact ⟨ha.1, fun _ => Nat.le_succ_of_le hrank⟩
  · obtain ⟨g, hg, rfl⟩ := Flow.andThen_on (eq_false_of_ne_true hleft) h
    exact hnext g hg

end Tracks

/-- A poke leaves its position and the HOLLAR as the stages leave them, and the others as the sync left
them. -/
theorem pokeDecentral_tracks {d : Deployment} {env : Replies} {s t s₁ : State} {i k : Nat} {pos : NFTPosition}
    {ps : List Payout} {v : Visit} {gas : Gas} {side : Side} (hself : v.self = s.positionPool i)
    (hsender : v.sender = d.self) (hnow : v.now = s.now) (htoken : side.token = s.token)
    (hsync : syncMaturities s maxMaturitySync = .ok (s₁, k)) (hi : s₁.positions[i]? = some pos)
    (hreply : (Pair.poke v ⟨side, pos⟩ gas).2.Heard (env.pool v.self)) (h : pokeDecentral d env s i = .ok (t, ps)) :
    Tracks s₁ i (Pair.poke v ⟨side, pos⟩ gas).1 t := by
  simp only [pokeDecentral, bind_ok_iff, Prod.exists, pure_ok_iff, Prod.mk.injEq] at h
  obtain ⟨_, -, _, -, _, -, s₁', k', hsync', f₁, h1, f₂, h2, f₃, h3, f₄, h4, rfl, -⟩ := h
  obtain ⟨rfl, -⟩ := Prod.mk.inj (Except.ok.inj (hsync.symm.trans hsync'))
  have hpool : s₁.positionPool i = v.self := by rw [hself, (syncMaturities_keepsTerms hsync).pools]
  obtain ⟨htoken₁, hnow₁⟩ : s₁.token = s.token ∧ s₁.now = s.now := by
    have := (syncMaturities_pokes (d := d) hsync).2
    rw [this]
    exact ⟨rfl, rfl⟩
  rw [hpool] at h1 h2 h3 h4
  obtain ⟨hinside, rfl⟩ := List.getElem?_eq_some_iff.1 hi
  have hx : Tracks s₁ i ⟨side, s₁.positions[i]⟩ s₁ :=
    ⟨List.set_getElem_self hinside |>.symm, hinside, htoken₁.trans htoken.symm, rfl⟩
  obtain ⟨hx₁, hleft₁⟩ := requestYieldBranch_tracks (hnow.trans hnow₁.symm) hx hreply.requestYield h1
  -- each branch starts where the one before it left, unless that one returned
  have hx₂ := Flow.andThen_tracks (k := 0) ⟨hx₁, fun hl => (congrArg NFTState.rank (hleft₁ hl)).le⟩
    Pair.executeYield_idle (fun g hg => (executeYieldBranch_tracks hsender hx₁ hreply.executeYield hg).imp_right
      fun hleft hl => (congrArg NFTState.rank (hleft hl)).le) h2
  have hx₃ := Flow.andThen_tracks (k := 1) hx₂ Pair.requestPrincipal_idle
    (fun g hg => (requestPrincipalBranch_tracks hx₂.1 hreply.requestPrincipal hg).imp_right
      fun hleft hl => (congrArg NFTState.rank (hleft hl)).le) h3
  have hx₄ := Flow.andThen_tracks (k := 2) hx₃ Pair.executePrincipal_idle
    (fun g hg => (executePrincipalBranch_tracks hsender hx₃.1 hreply.executePrincipal hg).imp_right
      fun hleft hl => (congrArg NFTState.rank (hleft hl)).le) h4
  exact hx₄.1

/-! ## Every step -/

/-- What a step of the world does. -/
inductive WorldMove (d : Deployment) (w : World) : World → Prop
  /-- The vault moves without a pool, and no position with it. -/
  | calm {s : State} (a : Action) : (vault d).next w.vault a s → KeepsTerms w.vault s →
      WorldMove d w { w with vault := s }
  | opened {s : State} {p p' : DecentralPool} {nft : PoolToken} {env : Replies} {tokenId amount period : Nat}
      (a : Action) : (vault d).next w.vault a s → Opens env w.vault s tokenId amount period →
      w.pools w.vault.activeDepositPool = some p →
      p.deposit (w.nfts p.poolToken) w.vault.activeDepositPool d.self w.vault.now amount = .ok (p', nft, tokenId) →
      WorldMove d w (w.put w.vault.activeDepositPool ⟨p', nft, s.token⟩ s)
  | poked {s s₁ : State} {p : DecentralPool} {pos : NFTPosition} (a : Action) (gas : Gas) (i k : Nat) :
      (vault d).next w.vault a s → syncMaturities w.vault maxMaturitySync = .ok (s₁, k) →
      s₁.positions[i]? = some pos → w.pools (w.vault.positionPool i) = some p →
      Tracks s₁ i (Pair.poke (w.visit d i) ⟨w.side p, pos⟩ gas).1 s → s.positionPool = w.vault.positionPool →
      WorldMove d w (w.put (w.vault.positionPool i) (Pair.poke (w.visit d i) ⟨w.side p, pos⟩ gas).1.side s)
  | pooled {p : DecentralPool} {side : Side} {given : Nat} (sender a : Address) (c : PoolCall) : sender ≠ d.self →
      sender ≠ 0 → w.pools a = some p → c.run ⟨a, sender, w.vault.now⟩ (w.side p) = .ok (side, given) →
      WorldMove d w (w.put a side { w.vault with token := side.token })
  | token (nft dst : Address) (t : Nat) (owner : Nat → Address) (registeredPools : Address → Bool) :
      owner = (w.nfts nft).owner ∨ (w.nfts nft).owner t ≠ 0 ∧ (w.nfts nft).owner t ≠ d.self ∧
        owner = Function.update (w.nfts nft).owner t dst →
      WorldMove d w (w.setNft nft { w.nfts nft with owner, registeredPools })
  | deployed (pool poolToken : Address) (apyWad : Nat) : w.pools pool = none → pool ≠ d.self → pool ≠ 0 →
      WorldMove d w (w.setPool pool (.construct w.vault.hollar poolToken apyWad w.vault.now))

section Steps

variable {d : Deployment} {w w' : World}

/-- Outside the calls the book stays. -/
theorem step_sameTerms {s t : State} {a : Action} {ps : List Payout} (ha : a.isCall = false)
    (h : step d s a = .ok (t, ps)) : KeepsTerms s t := by
  cases a with
  | tick now =>
    cases h
    exact .of_book rfl
  | call sender env c => exact absurd ha (by simp [Action.isCall])
  | hollar sender c =>
    simp only [step, bind_ok_iff, pure_ok_iff, Prod.mk.injEq] at h
    obtain ⟨_, -, rfl, -⟩ := h
    exact .of_book rfl
  | hollarMint account amount =>
    simp only [step, bind_ok_iff, pure_ok_iff, Prod.mk.injEq] at h
    obtain ⟨_, -, rfl, -⟩ := h
    exact .of_book rfl
  | hollarBurn account amount =>
    simp only [step, bind_ok_iff, pure_ok_iff, Prod.mk.injEq] at h
    obtain ⟨_, -, rfl, -⟩ := h
    exact .of_book rfl

theorem World.accepts_some {offered : Option Nat} {x : Accepted} (h : w.accepts d offered = some x) :
    ∃ p, w.pools w.vault.activeDepositPool = some p ∧
      p.deposit (w.nfts p.poolToken) w.vault.activeDepositPool d.self w.vault.now x.amount =
        .ok (x.pool, x.nft, x.tokenId) := by
  unfold World.accepts at h
  split at h
  · rename_i p hp
    split at h
    · rename_i hdeposit _
      cases h
      exact ⟨p, hp, hdeposit⟩
    · cases h
  · cases h

theorem World.call_moves {sender : Address} {feed : Address → FeedReply} {offered : Option Nat} {c : Call}
    (h : w.step d (.call sender feed offered c) = some w') : WorldMove d w w' := by
  simp only [World.step] at h
  split at h
  · rename_i hguard
    obtain ⟨hsender, hpoke⟩ := hguard
    have hc : ∀ i, c ≠ .pokeDecentral i := by
      rintro i rfl
      exact absurd hpoke (by simp [Call.isPoke])
    split at h
    · rename_i s ps hrun
      have hnext : (MoneyMarket.vault d).next w.vault (.call sender _ c) s := ⟨hsender, ps, hrun⟩
      have hgrow := call_terms hc hrun
      split at h
      · rename_i hnone
        cases h
        rcases hgrow with hsame | ⟨tokenId, amount, period, hopen⟩
        · exact .calm _ hnext hsame
        · -- an opening leaves a position at that index
          have hlen := congrArg List.length hopen.terms
          simp only [Book.terms, List.length_map, List.length_append, List.length_singleton] at hlen
          rw [List.getElem?_eq_none_iff] at hnone
          omega
      · rename_i x pos haccepts hpos
        split at h
        · rename_i hamount
          cases h
          rcases hgrow with hsame | ⟨tokenId, amount, period, hopen⟩
          · rw [List.getElem?_eq_none (by rw [hsame.length_eq])] at hpos
            cases hpos
          · obtain ⟨p, hp, hdeposit⟩ := World.accepts_some haccepts
            rcases hopen.get hpos with ⟨old, hold, -⟩ | ⟨-, hterms, -⟩
            · rw [List.getElem?_eq_none (le_refl _)] at hold
              cases hold
            · obtain ⟨-, rfl, -⟩ := Terms.mk.inj hterms
              obtain ⟨pulled, hreply⟩ := hopen.reply
              have htoken : tokenId = x.tokenId := by
                simp only [World.replies, hp, DecentralPool.reply, haccepts, Option.map_some, Option.some.injEq,
                  Prod.mk.injEq] at hreply
                exact hreply.1.symm
              rw [htoken] at hopen
              rw [← hamount] at hdeposit
              exact .opened _ hnext hopen hp hdeposit
        · cases h
      · cases h
    · cases h
  · cases h

/-- A poke that goes through is the poke of its position, whose pool answered what the stages got. -/
theorem World.poke_some {sender : Address} {gas : Gas} {i : Nat} (h : w.step d (.poke sender gas i) = some w') :
    sender ≠ d.self ∧ ∃ s s₁ k p pos ps, syncMaturities w.vault maxMaturitySync = .ok (s₁, k) ∧
      s₁.positions[i]? = some pos ∧ w.pools (w.vault.positionPool i) = some p ∧
      pokeDecentral d (w.replies (fun _ => ⟨none, none⟩) none (Pair.poke (w.visit d i) ⟨w.side p, pos⟩ gas).2)
        w.vault i = .ok (s, ps) ∧
      Tracks s₁ i (Pair.poke (w.visit d i) ⟨w.side p, pos⟩ gas).1 s ∧
      w' = w.put (w.vault.positionPool i) (Pair.poke (w.visit d i) ⟨w.side p, pos⟩ gas).1.side s := by
  simp only [World.step] at h
  split at h
  · rename_i x reply hpokes
    split at h
    · rename_i s ps hpoke
      split at h
      · rename_i hsender
        cases h
        unfold World.pokes at hpokes
        split at hpokes
        · rename_i s₁ k p hsync hp
          obtain ⟨pos, hpos, heq⟩ := Option.map_eq_some_iff.1 hpokes
          obtain ⟨rfl, rfl⟩ := Prod.mk.inj heq
          have hreply : (Pair.poke (w.visit d i) ⟨w.side p, pos⟩ gas).2.Heard
              ((w.replies (fun _ => ⟨none, none⟩) none (Pair.poke (w.visit d i) ⟨w.side p, pos⟩ gas).2).pool
                (w.visit d i).self) := by
            show PokeReply.Heard _ (match w.pools (w.vault.positionPool i) with
              | some p => p.reply none _
              | none => .silent)
            rw [hp]
            exact p.reply_heard none _
          exact ⟨hsender, s, s₁, k, p, pos, ps, hsync, hpos, hp, hpoke,
            pokeDecentral_tracks rfl rfl rfl rfl hsync hpos hreply hpoke, rfl⟩
        · cases hpokes
      · cases h
    · cases h
  · cases h

theorem World.poke_moves {sender : Address} {gas : Gas} {i : Nat} (h : w.step d (.poke sender gas i) = some w') :
    WorldMove d w w' := by
  obtain ⟨hsender, s, s₁, k, p, pos, ps, hsync, hpos, hp, hpoke, htracks, rfl⟩ := World.poke_some h
  exact .poked (.call sender _ (.pokeDecentral i)) gas i k ⟨hsender, ps, hpoke⟩ hsync hpos hp htracks
    (pokeDecentral_still hpoke).pools

/-- Every step of the world is one of the moves. -/
theorem World.step_moves {a : WorldAction} (h : w.step d a = some w') : WorldMove d w w' := by
  cases a with
  | outside a =>
    simp only [World.step] at h
    split at h
    · rename_i hguard
      split at h
      · rename_i s ps hstep
        cases h
        exact .calm a ⟨hguard.2.1, ps, hstep⟩ (step_sameTerms hguard.1 hstep)
      · cases h
    · cases h
  | call sender feed offered c => exact World.call_moves h
  | poke sender gas i => exact World.poke_moves h
  | pool sender a c =>
    simp only [World.step] at h
    split at h
    · rename_i p hp
      split at h
      · rename_i hguard
        split at h
        · rename_i side given hrun
          cases h
          exact .pooled sender a c hguard.1 hguard.2 hp hrun
        · cases h
      · cases h
    · cases h
  | transferToken nft tokenId owner dst =>
    simp only [World.step] at h
    split at h
    · rename_i hguard
      obtain ⟨rfl, hzero, hself, -⟩ := hguard
      cases h
      exact .token nft dst tokenId _ _ (.inr ⟨hzero, hself, rfl⟩)
    · cases h
  | setPoolRole nft pool value =>
    cases h
    exact .token nft 0 0 _ _ (.inl rfl)
  | deployPool pool poolToken apyWad =>
    simp only [World.step] at h
    split at h
    · rename_i hguard
      cases h
      exact .deployed pool poolToken apyWad (Option.isNone_iff_eq_none.1 hguard.1) hguard.2.1 hguard.2.2
    · cases h

/-! ## The vault of a world -/

/-- A call of a pool leaves the ledger, or makes one transaction of the pool in it, and draws on nobody
but its caller. -/
theorem PoolCall.run_ledger {v : Visit} {s s' : Side} {c : PoolCall} {n : Nat} (h : c.run v s = .ok (s', n)) :
    s'.token = s.token ∨ ∃ tx, (∀ account, account ≠ v.sender → ¬ drawsOn account tx) ∧
      (s.token.call v.self tx : Tx ERC20) = .ok s'.token := by
  have hpull : ∀ {amount : Nat} {token : ERC20},
      (s.token.transferFrom v.self v.sender v.self amount : PoolTx ERC20) = .ok token →
      ∃ tx, (∀ account, account ≠ v.sender → ¬ drawsOn account tx) ∧
        (s.token.call v.self tx : Tx ERC20) = .ok token := fun htoken =>
    ⟨.transferFrom v.sender v.self _, fun _ hne hdraw => hne hdraw.symm, ERC20.transferFrom_ok_any htoken⟩
  have hpay : c.Pays → ∃ tx, (∀ account, account ≠ v.sender → ¬ drawsOn account tx) ∧
      (s.token.call v.self tx : Tx ERC20) = .ok s'.token := fun hc =>
    ⟨.transfer v.sender n, fun _ _ hdraw => hdraw, PoolCall.run_pays hc h⟩
  cases c with
  | deposit amount =>
    simp only [PoolCall.run, bind_ok_iff, pure_ok_iff, Prod.exists, Prod.mk.injEq] at h
    obtain ⟨_, _, _, -, token, htoken, rfl, -⟩ := h
    exact .inr (hpull htoken)
  | fundPool amount =>
    simp only [PoolCall.run, bind_ok_iff, pure_ok_iff, Prod.mk.injEq] at h
    obtain ⟨token, htoken, rfl, -⟩ := h
    exact .inr (hpull htoken)
  | executeYieldWithdrawal tokenId => exact .inr (hpay trivial)
  | executePrincipalWithdrawal tokenId => exact .inr (hpay trivial)
  | _ =>
    simp only [PoolCall.run, bind_ok_iff, pure_ok_iff, Prod.mk.injEq, Except.ok.injEq] at h
    first
      | obtain ⟨_, -, rfl, -⟩ := h; exact .inl rfl
      | obtain ⟨rfl, -⟩ := h; exact .inl rfl

theorem World.PoolsApart.update {a : Address} {p q : DecentralPool} (h : w.PoolsApart d) (hp : w.pools a = some p) :
    Function.update w.pools a (some q) d.self = none ∧ Function.update w.pools a (some q) 0 = none := by
  have haway : ∀ {b}, w.pools b = none → b ≠ a := by
    rintro b hb rfl
    rw [hb] at hp
    cases hp
  exact ⟨(Function.update_of_ne (haway h.1) _ _).trans h.1, (Function.update_of_ne (haway h.2) _ _).trans h.2⟩

/-- The vault of a reachable world is a state of the vault's own runs, and no pool. -/
theorem World.vault_reachable (h : (world d).Reach w) : Reachable d w.vault ∧ w.PoolsApart d := by
  refine h.invariant (I := fun w => Reachable d w.vault ∧ w.PoolsApart d) ?_ ?_
  · rintro w ⟨hinit, hself, -⟩
    exact ⟨.init hinit, hself⟩
  · rintro w a w' - ⟨hr, hapart⟩ hnext
    cases World.step_moves hnext with
    | calm a hs _ => exact ⟨.step a hr hs, hapart⟩
    | opened a hs _ hp _ => exact ⟨.step a hr hs, hapart.update hp⟩
    | poked a _ i _ hs _ _ hp _ _ => exact ⟨.step a hr hs, hapart.update hp⟩
    | pooled sender a c hsender _ hp hrun =>
      refine ⟨?_, hapart.update hp⟩
      -- a pool lives elsewhere
      have haway : a ≠ d.self := by
        rintro rfl
        rw [hapart.1] at hp
        cases hp
      rcases PoolCall.run_ledger hrun with htoken | ⟨tx, hdraws, htx⟩
      · show Reachable d { w.vault with token := _ }
        rw [htoken]
        exact hr
      · refine .step (.hollar a tx) hr ⟨⟨haway, hdraws _ hsender.symm⟩, [], ?_⟩
        simp only [MoneyMarket.step, bind_ok_iff, pure_ok_iff, Prod.mk.injEq]
        exact ⟨_, htx, rfl, trivial⟩
    | token nft dst t owner registeredPools _ => exact ⟨hr, hapart⟩
    | deployed pool poolToken apyWad _ hself hzero =>
      exact ⟨hr, (Function.update_of_ne hself.symm _ _).trans hapart.1,
        (Function.update_of_ne hzero.symm _ _).trans hapart.2⟩

end Steps

/-! ## A world to run -/

/-- One pool that pays 10%, with an NFT contract that knows it and has minted nothing. -/
def demoPools : Address → Option DecentralPool :=
  Function.update (fun _ => none) demoPool (some (.construct 0xA 0xB (10 ^ 17) 0))

def demoNft : PoolToken := ⟨fun _ => 0, 1, fun a => decide (a = demoPool)⟩

theorem demoPools_some {a : Address} {p : DecentralPool} (h : demoPools a = some p) :
    a = demoPool ∧ p = .construct 0xA 0xB (10 ^ 17) 0 := by
  unfold demoPools at h
  rw [Function.update_apply] at h
  split_ifs at h with ha
  · exact ⟨ha, (Option.some.inj h).symm⟩

theorem demo_hollar {s : State} (h : initializeVault demoQuiet demoSetup emptyLedger 0 = .ok s) : s.hollar = 0xA := by
  obtain ⟨s', hs', ht⟩ := @passes_ok _ (initializeVault demoQuiet demoSetup emptyLedger 0)
    (fun s => decide (s.hollar = 0xA)) (by decide +kernel)
  obtain rfl := Except.ok.inj (h.symm.trans hs')
  exact of_decide_eq_true ht

/-- A run of the world from the initializer over an empty HOLLAR ledger. -/
def replayWorld (as : List WorldAction) : Option World :=
  match initializeVault demoQuiet demoSetup emptyLedger 0 with
  | .ok vault => System.exec (World.step demo) ⟨vault, demoPools, fun _ => demoNft⟩ as
  | .error _ => none

/-- Alice deposits 100 HOLLAR, and the position is poked on the day it is due, when its yield is approved,
and two days later. -/
def demoVisits : List WorldAction :=
  demoFunding.map .outside ++
    [.call alice (fun _ => ⟨none, none⟩) (some (10 ^ 20)) (.deposit (10 ^ 20) alice),
     .outside (.tick (60 * 24 * 60 * 60)),
     .poke bob .ample 0,
     .pool bob demoPool (.approveYieldWithdrawal 1),
     .poke bob .ample 0,
     .pool bob demoPool (.approvePrincipalWithdrawal 1),
     .outside (.tick (62 * 24 * 60 * 60))]

/-- A replay whose last world passes a test reaches a world that does. -/
theorem observe_world (as : List WorldAction) (test : World → Bool) (h : (replayWorld as).any test = true) :
    ∃ w, (world demo).Reach w ∧ test w = true := by
  obtain ⟨w, hw, ht⟩ := (Option.any_eq_true _ _).1 h
  refine ⟨w, ?_, ht⟩
  unfold replayWorld at hw
  split at hw
  · rename_i vault hinit
    refine .exec (fun _ _ _ => id) (.init ⟨⟨demoQuiet, demoSetup, emptyLedger, 0, .empty, hinit⟩, ⟨rfl, rfl⟩, ?_, ?_⟩) hw
    · refine ⟨fun _ _ _ => rfl, fun a p t hp _ => ?_⟩
      obtain ⟨-, rfl⟩ := demoPools_some hp
      rfl
    · intro a p hp
      obtain ⟨-, rfl⟩ := demoPools_some hp
      exact (demo_hollar hinit).symm
  · cases hw

end MoneyMarket
