/-
The pool registry. The array of pools holds the registered ones once each, the active pool is one of
them, and so is the pool of every position that is not redeemed (`pool_registry`). The allow-list of
NFT contracts follows the registry as long as no pool is retired that shares its contract
(`nft_allow_list`).
-/
import MoneyMarket.Vault.Outlay
import MoneyMarket.Vault.Positions

namespace MoneyMarket

open Evm Relation Transition

/-! ## The array -/

section Array

variable {pools : List Address} {pool : Address}

/-- Dropping a pool takes out exactly that pool. -/
theorem dropPool_perm (h : pool ∈ pools) : (pool :: dropPool pools pool).Perm pools := by
  obtain ⟨i, hfind⟩ : ∃ i, pools.findIdx? (· = pool) = some i := by
    rw [← Option.isSome_iff_exists, List.findIdx?_isSome, List.any_eq_true]
    exact ⟨pool, h, decide_eq_true rfl⟩
  obtain ⟨hi, hpool, -⟩ := List.findIdx?_eq_some_iff_getElem.1 hfind
  have hpool : pools[i] = pool := of_decide_eq_true hpool
  obtain ⟨init, last, rfl⟩ : ∃ init last, pools = init ++ [last] := by
    rcases List.eq_nil_or_concat pools with rfl | ⟨init, last, h'⟩
    · cases h
    · exact ⟨init, last, by rw [h', List.concat_eq_append]⟩
  have hdrop : dropPool (init ++ [last]) pool = ((init ++ [last]).set i last).dropLast := by
    unfold dropPool
    rw [hfind, List.getLast?_concat]
  -- the last entry of the array is `last` before and after it is copied to `i`
  have hset : ((init ++ [last]).set i last).dropLast ++ [last] = (init ++ [last]).set i last := by
    apply List.dropLast_append_getLast?
    rw [Option.mem_def, List.getLast?_eq_getElem?, List.length_set, List.getElem?_set]
    split_ifs with hlast
    · rfl
    · rw [← List.getLast?_eq_getElem?, List.getLast?_concat]
  have hperm : (last :: ((init ++ [last]).set i last).dropLast).Perm (last :: (init ++ [last]).eraseIdx i) := by
    refine (List.perm_append_singleton last _).symm.trans ?_
    rw [hset]
    exact List.set_perm_cons_eraseIdx hi last
  rw [hdrop]
  refine (hperm.cons_inv.cons pool).trans ?_
  have := List.getElem_cons_eraseIdx_perm hi
  rwa [hpool] at this

theorem dropPool_nodup (hn : pools.Nodup) (h : pool ∈ pools) : (dropPool pools pool).Nodup :=
  (List.nodup_cons.1 ((dropPool_perm h).nodup_iff.2 hn)).2

theorem mem_dropPool (hn : pools.Nodup) (h : pool ∈ pools) {p : Address} :
    p ∈ dropPool pools pool ↔ p ∈ pools ∧ p ≠ pool := by
  have hp := dropPool_perm h
  have hout : pool ∉ dropPool pools pool := (List.nodup_cons.1 (hp.nodup_iff.2 hn)).1
  rw [← hp.mem_iff, List.mem_cons]
  constructor
  · intro hmem
    refine ⟨.inr hmem, ?_⟩
    rintro rfl
    exact hout hmem
  · rintro ⟨hmem, hne⟩
    exact hmem.resolve_left hne

end Array

/-! ## The registry -/

structure RegistrySound (s : State) : Prop where
  nodup : s.pools.Nodup
  members : ∀ pool, pool ∈ s.pools ↔ s.isPoolRegistered pool = true
  active : s.isPoolRegistered s.activeDepositPool = true
  positions : ∀ (i : Nat) (pos : NFTPosition), s.positions[i]? = some pos → pos.state ≠ .redeemed →
    s.isPoolRegistered (s.positionPool i) = true

namespace RegistrySound

variable {d : Deployment} {s t : State}

theorem init (h : (vault d).init s) : RegistrySound s := by
  obtain ⟨env, p, token, now, -, hinit⟩ := h
  simp only [initializeVault, registerPool, bind_ok_iff, pure_ok_iff] at hinit
  obtain ⟨_, -, _, -, _, -, _, -, _, ⟨_, -, _, -, _, -, _, -, _, -, _, -, _, -, rfl⟩, rfl⟩ := hinit
  refine ⟨List.nodup_singleton _, fun pool => ?_, Function.update_self .., fun i pos hi => ?_⟩
  · show pool ∈ [p.decentralPool] ↔ Function.update (fun _ => false) p.decentralPool true pool = true
    rw [List.mem_singleton, Function.update_apply]
    split_ifs with h
    · simp [h]
    · simp [h]
  · exact absurd hi (by simp [setRole, State.blank])

/-- The scan of a retirement starts at the head, and finds every open position. -/
theorem closed_of_scan (hl : Lifecycle s.now s.toBook) {pool : Address}
    (h : hasOpenPosition s.positions s.positionPool s.positionHead pool = false) {i : Nat} {pos : NFTPosition}
    (hi : s.positions[i]? = some pos) (hpool : s.positionPool i = pool) : pos.state = .redeemed := by
  -- what the scan skips below the head is redeemed
  rcases Nat.lt_or_ge i s.positionHead with hlt | hge
  · obtain ⟨pos', hi', hstate⟩ := hl.swept i hlt
    cases hi.symm.trans hi'
    exact hstate
  · by_contra hopen
    have hlen := (List.getElem?_eq_some_iff.1 hi).1
    have hscan := List.any_eq_false.1 h i (List.mem_range.2 hlen)
    simp [hi, hge, hpool, hopen] at hscan

/-- Positions that were open stay with a registered pool when the pools of the others are. -/
theorem positions_of_evolves (h : RegistrySound s) {now : Nat} (hev : Evolves now s.toBook t.toBook)
    (hreg : t.isPoolRegistered = s.isPoolRegistered)
    (hold : ∀ i < s.positions.length, t.positionPool i = s.positionPool i)
    (hnew : ∀ i, s.positions.length ≤ i → i < t.positions.length → t.positionPool i = s.activeDepositPool)
    (i : Nat) (pos : NFTPosition) (hi : t.positions[i]? = some pos) (hopen : pos.state ≠ .redeemed) :
    t.isPoolRegistered (t.positionPool i) = true := by
  rw [hreg]
  rcases Nat.lt_or_ge i s.positions.length with hlt | hge
  · obtain ⟨pos₀, hi₀⟩ : ∃ pos₀, s.positions[i]? = some pos₀ := ⟨_, List.getElem?_eq_getElem hlt⟩
    rw [hold i hlt]
    apply h.positions i pos₀ hi₀
    intro hredeemed
    -- no step takes a position back from the last state of its life
    have hrank := hev.rankAt_le i
    simp only [Book.rankAt, hi₀, hi, hredeemed, NFTState.rank] at hrank
    cases hstate : pos.state with
    | redeemed => exact hopen hstate
    | active => simp [hstate] at hrank
    | yieldWithdrawalRequested => simp [hstate] at hrank
    | yieldClaimed => simp [hstate] at hrank
    | principalWithdrawalRequested => simp [hstate] at hrank
  · rw [hnew i hge (List.getElem?_eq_some_iff.1 hi).1]
    exact h.active

theorem enrolled (h : RegistrySound s) (hl : Lifecycle s.now s.toBook) {env : Replies} {c : Call} {g : Registry}
    (he : Enrol env s c g) : RegistrySound { s with toRegistry := g } := by
  cases he with
  | register pool token _ hfresh _ _ =>
    have hout : pool ∉ s.pools := by
      intro hmem
      rw [(h.members pool).1 hmem] at hfresh
      cases hfresh
    refine ⟨?_, fun p => ?_, ?_, fun i pos hi hopen => ?_⟩
    · exact List.nodup_append.2 ⟨h.nodup, List.nodup_singleton _, fun a ha b hb hab => by
        rw [List.mem_singleton.1 hb] at hab
        exact hout (hab ▸ ha)⟩
    · show p ∈ s.pools ++ [pool] ↔ Function.update s.isPoolRegistered pool true p = true
      rw [List.mem_append, List.mem_singleton, Function.update_apply, h.members]
      split_ifs with hp
      · simp [hp]
      · simp [hp]
    · show Function.update s.isPoolRegistered pool true s.activeDepositPool = true
      rw [Function.update_apply, h.active, ite_self]
    · show Function.update s.isPoolRegistered pool true (s.positionPool i) = true
      rw [Function.update_apply, h.positions i pos hi hopen, ite_self]
  | activate pool hreg => exact ⟨h.nodup, h.members, hreg, h.positions⟩
  | retire pool token hreg hne hscan _ =>
    have hmem : pool ∈ s.pools := (h.members pool).2 hreg
    refine ⟨dropPool_nodup h.nodup hmem, fun p => ?_, ?_, fun i pos hi hopen => ?_⟩
    · show p ∈ dropPool s.pools pool ↔ Function.update s.isPoolRegistered pool false p = true
      rw [mem_dropPool h.nodup hmem, Function.update_apply, h.members]
      split_ifs with hp
      · simp [hp]
      · simp [hp]
    · show Function.update s.isPoolRegistered pool false s.activeDepositPool = true
      rw [Function.update_of_ne hne.symm]
      exact h.active
    · show Function.update s.isPoolRegistered pool false (s.positionPool i) = true
      rw [Function.update_of_ne fun hpool => hopen (closed_of_scan hl hscan hi hpool)]
      exact h.positions i pos hi hopen

/-- With the registry as it was, only the open positions are to be checked. -/
theorem of_registry (h : RegistrySound s) (hreg : t.toRegistry = s.toRegistry)
    (hpos : ∀ (i : Nat) (pos : NFTPosition), t.positions[i]? = some pos → pos.state ≠ .redeemed →
      t.isPoolRegistered (t.positionPool i) = true) : RegistrySound t := by
  refine ⟨?_, fun pool => ?_, ?_, hpos⟩
  · rw [hreg]; exact h.nodup
  · rw [hreg]; exact h.members pool
  · rw [hreg]; exact h.active

theorem step (h : RegistrySound s) (hinv : Invariant d s) {a : Action} {ps : List Payout} (hlegal : Legal d s a)
    (hs : MoneyMarket.step d s a = .ok (t, ps)) : RegistrySound t := by
  have hev := step_evolves hinv hlegal hs
  cases step_effect hs with
  | kept hk =>
    apply h.of_registry hk.registry
    refine h.positions_of_evolves hev (by rw [hk.registry]) (fun i _ => by rw [hk.pools]) fun i hge hlt => ?_
    rw [hk.count] at hlt
    exact absurd hlt (not_lt.2 hge)
  | @opened s₁ s₂ amount idle hk hopen _ =>
    cases hopen with
    | opened tokenId apyWad period pulled token _ _ _ =>
      have hreg : s₁.toRegistry = s.toRegistry := hk.registry
      apply h.of_registry
      · exact hreg
      apply h.positions_of_evolves hev
      · show s₁.isPoolRegistered = s.isPoolRegistered
        rw [hreg]
      · intro i hi
        show Function.update s₁.positionPool s₁.positions.length s₁.activeDepositPool i = _
        rw [hk.count, Function.update_of_ne hi.ne, hk.pools]
      · -- the new position is the last one, and goes to the active pool
        intro i hge hlt
        show Function.update s₁.positionPool s₁.positions.length s₁.activeDepositPool i = _
        have hlt : i < (s₁.positions ++ [_]).length := hlt
        rw [List.length_append, List.length_singleton, hk.count] at hlt
        rw [hk.count, show i = s.positions.length by omega, Function.update_self, hreg]
  | recapped newCap total _ _ => exact ⟨h.nodup, h.members, h.active, h.positions⟩
  | enrolled sender env c g _ he => exact h.enrolled hinv.lifecycle he

end RegistrySound

theorem Reachable.registry {d : Deployment} {s : State} (h : Reachable d s) : RegistrySound s :=
  h.invariant (fun _ hs => .init hs) fun _ _ _ hr hi ⟨hlegal, _, hs⟩ => hi.step (Reachable.inv hr) hlegal hs

/-- In every reachable state the pools are the registered ones, once each, the active pool is one of
them, and so is the pool of every position that is not redeemed; a pool that is retired has none. -/
theorem pool_registry {d : Deployment} {s : State} (h : Reachable d s) :
    s.pools.Nodup ∧ (∀ pool, pool ∈ s.pools ↔ s.isPoolRegistered pool = true) ∧
    s.isPoolRegistered s.activeDepositPool = true ∧
    (∀ (i : Nat) (pos : NFTPosition), s.positions[i]? = some pos → pos.state ≠ .redeemed →
      s.isPoolRegistered (s.positionPool i) = true) ∧
    ∀ env sender pool t, retirePool env s sender pool = .ok t →
      ∀ (i : Nat) (pos : NFTPosition), s.positions[i]? = some pos → s.positionPool i = pool →
        pos.state = .redeemed := by
  have hr := h.registry
  refine ⟨hr.nodup, hr.members, hr.active, hr.positions, fun env sender pool t hretire i pos hi hpool => ?_⟩
  simp only [retirePool, removePool, bind_ok_iff, require_ok_iff, pure_ok_iff] at hretire
  obtain ⟨_, -, _, -, _, -, _, ⟨_, hscan, -⟩, -⟩ := hretire
  exact RegistrySound.closed_of_scan h.inv.lifecycle hscan hi hpool

/-- After that run a second pool becomes the active one, and alice deposits into it. -/
def secondPoolRun : List Action :=
  demoRun ++
    [.call 0xad demoQuiet (.registerPool 0x2),
     .call 0xad demoQuiet (.setActiveDepositPool 0x2),
     .call alice (demoReplies 0 1000 (some (10 ^ 19)) none none) (.deposit (10 ^ 19) alice)]

/-- The first pool can be retired: its position is redeemed. The position of the second is open. -/
theorem pool_registry_demo : ∃ s t : State, s.pools = [demoPool, 0x2] ∧ s.positions.length = 2 ∧
    retirePool demoQuiet s 0xad demoPool = .ok t ∧ t.pools = [0x2] ∧
    (∀ pos, s.positions[0]? = some pos → pos.state = .redeemed) ∧
    (∀ pos, s.positions[1]? = some pos → pos.state ≠ .redeemed → s.isPoolRegistered (s.positionPool 1) = true) := by
  obtain ⟨s, hs, ht⟩ := observe_reach demo DeadSilent demoQuiet demoSetup secondPoolRun
    (fun s => decide (s.pools = [demoPool, 0x2] ∧ s.positions.length = 2 ∧ s.positionPool 0 = demoPool) &&
      passes (retirePool demoQuiet s 0xad demoPool) fun t => decide (t.pools = [0x2])) (by decide +kernel)
  rw [Bool.and_eq_true, decide_eq_true_iff] at ht
  obtain ⟨⟨hpools, hcount, hpool⟩, ht⟩ := ht
  obtain ⟨t, hretire, ht⟩ := passes_ok ht
  obtain ⟨-, -, -, hregistered, hretired⟩ := pool_registry hs.of_restrict
  exact ⟨s, t, hpools, hcount, hretire, of_decide_eq_true ht,
    fun pos hpos => hretired demoQuiet 0xad demoPool t hretire 0 pos hpos hpool, hregistered 1⟩

/-! ## The allow-list of NFT contracts -/

/-- `onERC721Received`, called by the contract of the NFT. -/
def onERC721Received (s : State) (sender : Address) : Tx Unit :=
  require (s.isRegisteredPoolToken sender = true) (.custom .onlyPoolNFTs)

/-- Every pool that answers names the NFT contract `tok` gives it. -/
def Steady (tok : Address → Address) (env : Replies) : Prop :=
  ∀ pool token, (env.pool pool).poolToken = some token → token = tok pool

/-- The runs over pools whose NFT contracts do not change. -/
def steadyVault (d : Deployment) (tok : Address → Address) : System State Action where
  init s := ∃ env p token now, Steady tok env ∧ PlainLedger token ∧ initializeVault env p token now = .ok s
  next s a t := (∀ sender env c, a = .call sender env c → Steady tok env) ∧ (vault d).next s a t

/-- A retired pool shares its NFT contract with no other registered pool. -/
def RetiresAlone (tok : Address → Address) (s : State) : Action → Prop
  | .call _ _ (.retirePool pool) => ∀ other, s.isPoolRegistered other = true → tok other = tok pool → other = pool
  | _ => True

def AllowsExactly (tok : Address → Address) (s : State) : Prop :=
  ∀ token, s.isRegisteredPoolToken token = true ↔ ∃ pool, s.isPoolRegistered pool = true ∧ tok pool = token

section AllowList

variable {d : Deployment} {tok : Address → Address} {s t : State}

theorem Reach.unsteady {C : State → Action → Prop} (h : ((steadyVault d tok).restrict C).Reach s) : Reachable d s := by
  refine h.of_restrict.invariant (I := Reachable d) ?_ ?_
  · rintro s ⟨env, p, token, now, -, hplain, hinit⟩
    exact .init ⟨env, p, token, now, hplain, hinit⟩
  · rintro s a t - ih ⟨-, hn⟩
    exact .step a ih hn

theorem AllowsExactly.congr (h : AllowsExactly tok s) (hreg : t.isPoolRegistered = s.isPoolRegistered)
    (htok : t.isRegisteredPoolToken = s.isRegisteredPoolToken) : AllowsExactly tok t := by
  unfold AllowsExactly
  rw [hreg, htok]
  exact h

theorem AllowsExactly.init (h : (steadyVault d tok).init s) : AllowsExactly tok s := by
  obtain ⟨env, p, token, now, hsteady, -, hinit⟩ := h
  simp only [initializeVault, registerPool, bind_ok_iff, returned_ok_iff, pure_ok_iff] at hinit
  obtain ⟨_, -, _, -, _, -, _, -, _, ⟨_, -, _, -, _, -, _, -, nft, hnft, _, -, _, -, rfl⟩, rfl⟩ := hinit
  have hnft := hsteady _ _ hnft
  intro t
  show Function.update (fun _ => false) nft true t = true ↔
    ∃ pool, Function.update (fun _ => false) p.decentralPool true pool = true ∧ tok pool = t
  simp only [Function.update_apply, Bool.if_false_right, Bool.and_true, decide_eq_true_iff, exists_eq_left]
  rw [← hnft, eq_comm]

/-- A registration allows the contract of the new pool. -/
theorem AllowsExactly.register (h : AllowsExactly tok s) (pool : Address) (token : Address) :
    Function.update s.isRegisteredPoolToken (tok pool) true token = true ↔
      ∃ p, Function.update s.isPoolRegistered pool true p = true ∧ tok p = token := by
  simp only [Function.update_apply]
  constructor
  · intro hflag
    split_ifs at hflag with htok
    · exact ⟨pool, if_pos rfl, htok.symm⟩
    · obtain ⟨p, hp, hpt⟩ := (h token).1 hflag
      exact ⟨p, by rw [hp, ite_self], hpt⟩
  · rintro ⟨p, hp, rfl⟩
    split_ifs at hp with hpool
    · rw [hpool, if_pos rfl]
    · rw [(h _).2 ⟨p, hp, rfl⟩, ite_self]

/-- A retirement forbids the contract of the pool, which is right exactly when it is the last one
with that contract. -/
theorem AllowsExactly.retire (h : AllowsExactly tok s) (pool : Address) :
    (∀ token, Function.update s.isRegisteredPoolToken (tok pool) false token = true ↔
      ∃ p, Function.update s.isPoolRegistered pool false p = true ∧ tok p = token) ↔
      ∀ other, s.isPoolRegistered other = true → tok other = tok pool → other = pool := by
  simp only [Function.update_apply]
  constructor
  · intro hexact other hreg htok
    by_contra hne
    -- another pool with the contract would still want it allowed
    have hflag := (hexact (tok pool)).2 ⟨other, by rw [if_neg hne]; exact hreg, htok⟩
    rw [if_pos rfl] at hflag
    cases hflag
  · intro halone token
    constructor
    · intro hflag
      split_ifs at hflag with htok
      obtain ⟨p, hp, hpt⟩ := (h token).1 hflag
      refine ⟨p, ?_, hpt⟩
      rw [if_neg]
      · exact hp
      · rintro rfl
        exact htok hpt.symm
    · rintro ⟨p, hp, rfl⟩
      split_ifs at hp with hpool
      rw [if_neg fun htok => hpool (halone p hp htok)]
      exact (h _).2 ⟨p, hp, rfl⟩

/-- A step keeps the allow-list exact if and only if the pool it retires, if any, is the last one
with its contract. -/
theorem AllowsExactly.step_iff (h : AllowsExactly tok s) {a : Action} (hn : (steadyVault d tok).next s a t) :
    AllowsExactly tok t ↔ RetiresAlone tok s a := by
  obtain ⟨hsteady, -, ps, hs⟩ := hn
  by_cases hretire : ∃ sender env pool, a = .call sender env (.retirePool pool)
  · obtain ⟨sender, env, pool, rfl⟩ := hretire
    simp only [MoneyMarket.step, Call.run, retirePool, bind_ok_iff, returned_ok_iff, pure_ok_iff, Prod.mk.injEq] at hs
    obtain ⟨_, ⟨_, -, _, -, _, -, pools, -, token, htoken, rfl⟩, rfl, -⟩ := hs
    rw [hsteady _ _ _ rfl _ _ htoken]
    exact h.retire pool
  · -- any other step leaves the registry, or adds a pool to it, or moves the active pool
    have halone : RetiresAlone tok s a := by
      unfold RetiresAlone
      split
      · exact absurd ⟨_, _, _, rfl⟩ hretire
      · trivial
    refine iff_of_true ?_ halone
    cases step_effect hs with
    | kept hk => exact h.congr (by rw [hk.registry]) (by rw [hk.registry])
    | @opened s₁ s₂ amount idle hk hopen _ =>
      cases hopen with
      | opened tokenId apyWad period pulled token _ _ _ =>
        have hreg : s₁.toRegistry = s.toRegistry := hk.registry
        exact h.congr (congrArg Registry.isPoolRegistered hreg) (congrArg Registry.isRegisteredPoolToken hreg)
    | recapped newCap total _ _ => exact h.congr rfl rfl
    | enrolled sender env c g ha he =>
      subst ha
      cases he with
      | register pool token _ _ htoken _ =>
        rw [hsteady _ _ _ rfl _ _ htoken]
        exact h.register pool
      | activate pool _ => exact h.congr rfl rfl
      | retire pool token _ _ _ _ => exact absurd ⟨_, _, _, rfl⟩ hretire

end AllowList

/-- Over pools whose contracts do not change, and in every run that retires no pool while another
registered one shares its contract, the vault accepts exactly the NFTs of the registered pools, the
active one's among them; and a step out of such a run keeps that only if it retires no such pool. -/
theorem nft_allow_list {d : Deployment} {tok : Address → Address} {s : State}
    (h : ((steadyVault d tok).restrict (RetiresAlone tok)).Reach s) :
    (∀ token, s.isRegisteredPoolToken token = true ↔ ∃ pool, s.isPoolRegistered pool = true ∧ tok pool = token) ∧
    (∀ sender, onERC721Received s sender = .ok () ↔ ∃ pool, s.isPoolRegistered pool = true ∧ tok pool = sender) ∧
    onERC721Received s (tok s.activeDepositPool) = .ok () ∧
    ∀ a t, (steadyVault d tok).next s a t → (AllowsExactly tok t ↔ RetiresAlone tok s a) := by
  have hexact : AllowsExactly tok s :=
    h.invariant (fun _ hs => .init (d := d) hs) fun _ _ _ _ hi ⟨halone, hn⟩ => (hi.step_iff hn).2 halone
  have hreceived : ∀ sender, onERC721Received s sender = .ok () ↔
      ∃ pool, s.isPoolRegistered pool = true ∧ tok pool = sender := fun sender => by
    rw [← hexact sender]
    exact require_ok_iff
  refine ⟨hexact, hreceived, ?_, fun a t hn => hexact.step_iff hn⟩
  exact (hreceived _).2 ⟨_, (Reach.unsteady h).registry.active, rfl⟩

/-- Pools that all mint from one contract. -/
def sharedToken (_ : Address) : Address := 0xB

theorem demoQuiet_steady : Steady sharedToken demoQuiet := fun _ _ h => (Option.some.inj h).symm

theorem demoSetup_steady {s : State} (h : initializeVault demoQuiet demoSetup emptyLedger 0 = .ok s) :
    (steadyVault demo sharedToken).init s :=
  ⟨demoQuiet, demoSetup, emptyLedger, 0, demoQuiet_steady, .empty, h⟩

theorem quiet_next {s t : State} {sender : Address} {c : Call} {ps : List Payout} (hsender : sender ≠ demo.self)
    (h : step demo s (.call sender demoQuiet c) = .ok (t, ps)) :
    (steadyVault demo sharedToken).next s (.call sender demoQuiet c) t :=
  ⟨fun _ _ _ ha => by cases ha; exact demoQuiet_steady, hsender, ps, h⟩

/-- A second pool with the contract of the first is registered. -/
theorem nft_allow_list_demo : ∃ s : State, s.isPoolRegistered 0x2 = true ∧
    onERC721Received s (sharedToken s.activeDepositPool) = .ok () := by
  obtain ⟨s₀, h₀, ht⟩ := @passes_ok _ (initializeVault demoQuiet demoSetup emptyLedger 0)
    (fun s₀ => passes (step demo s₀ (.call 0xad demoQuiet (.registerPool 0x2)))
      fun r => r.1.isPoolRegistered 0x2) (by decide +kernel)
  obtain ⟨⟨s₁, _⟩, h₁, ht⟩ := passes_ok ht
  have hs₁ : ((steadyVault demo sharedToken).restrict (RetiresAlone sharedToken)).Reach s₁ :=
    .step (.call 0xad demoQuiet (.registerPool 0x2)) (.init (demoSetup_steady h₀)) ⟨trivial, quiet_next (by decide) h₁⟩
  exact ⟨s₁, ht, (nft_allow_list hs₁).2.2.1⟩

/-- Retiring the second pool again makes the vault refuse the NFTs of the first, its active pool. -/
theorem nft_refused : ¬ ∀ (d : Deployment) (tok : Address → Address) (s : State), (steadyVault d tok).Reach s →
    AllowsExactly tok s ∧ onERC721Received s (tok s.activeDepositPool) = .ok () := by
  intro hall
  obtain ⟨s₀, h₀, ht⟩ := @passes_ok _ (initializeVault demoQuiet demoSetup emptyLedger 0)
    (fun s₀ => passes (step demo s₀ (.call 0xad demoQuiet (.registerPool 0x2)))
      fun r₁ => passes (step demo r₁.1 (.call 0xad demoQuiet (.retirePool 0x2)))
        fun r₂ => decide (r₂.1.isRegisteredPoolToken 0xB = false)) (by decide +kernel)
  obtain ⟨⟨s₁, _⟩, h₁, ht⟩ := passes_ok ht
  obtain ⟨⟨s₂, _⟩, h₂, ht⟩ := passes_ok ht
  have hs₂ : (steadyVault demo sharedToken).Reach s₂ :=
    .step _ (.step _ (.init (demoSetup_steady h₀)) (quiet_next (by decide) h₁)) (quiet_next (by decide) h₂)
  have hreceived := require_ok_iff.1 (hall _ _ _ hs₂).2
  have hflag : s₂.isRegisteredPoolToken 0xB = false := of_decide_eq_true ht
  rw [show sharedToken s₂.activeDepositPool = 0xB from rfl, hflag] at hreceived
  cases hreceived

end MoneyMarket
