/-
What the calls do with the pools and with HOLLAR. The keeper's work leaves the configuration and the
shares, opens nothing and moves HOLLAR only into the vault (`Still`); a deposit, a mint and a
reinvest open one position in the active pool, which pulls HOLLAR for it (`Opening`). Each of them
checks the cap in its own way, and the principal invested stays within it (`principal_capped`).
-/
import MoneyMarket.Book.Due
import MoneyMarket.Vault.Invariant
import MoneyMarket.Vault.Replay

namespace MoneyMarket

open Evm Relation

/-- HOLLAR moves into the vault only. -/
structure Inflow (d : Deployment) (token token' : ERC20) : Prop where
  others : ∀ x, x ≠ d.self → token'.balanceOf x ≤ token.balanceOf x
  own : token.balanceOf d.self ≤ token'.balanceOf d.self

/-- No pool, no position and no principal is added, the cap on principal stays, and so do the bounds
of the book. -/
structure Kept (s t : State) : Prop where
  registry : t.toRegistry = s.toRegistry
  cap : t.tvlCap = s.tvlCap
  pools : t.positionPool = s.positionPool
  count : t.positions.length = s.positions.length
  invested : t.totalInvestedPrincipal ≤ s.totalInvestedPrincipal
  sized : s.toBook.Sized → t.toBook.Sized

/-- What the keeper's work leaves, as long as it opens no position. -/
structure Still (d : Deployment) (s t : State) : Prop extends Kept s t where
  settings : t.toSettings = s.toSettings
  access : t.toAccess = s.toAccess
  bil : t.bil = s.bil
  inflow : Inflow d s.token t.token

/-- A position of `amount` opened in the active pool, which pulls HOLLAR from the vault. -/
inductive Opening (d : Deployment) (amount : Nat) : State → State → Prop
  | opened {s : State} (tokenId apyWad period pulled : Nat) (token : ERC20) : pulled ≤ s.token.balanceOf d.self →
      token.balanceOf = (s.token.move d.self s.activeDepositPool pulled).balanceOf →
      s.yieldRateSum + apyWad * amount < uintSize →
      Opening d amount s
        { s with token, toBook := s.toBook.opened s.activeDepositPool tokenId apyWad amount period s.now }

/-! ## Still states -/

section Still

variable {d : Deployment} {s t u : State}

theorem Inflow.refl (token : ERC20) : Inflow d token token := ⟨fun _ _ => le_refl _, le_refl _⟩

theorem Inflow.trans {a b c : ERC20} (h : Inflow d a b) (h' : Inflow d b c) : Inflow d a c :=
  ⟨fun x hx => le_trans (h'.others x hx) (h.others x hx), le_trans h.own h'.own⟩

/-- Allowances move nothing. -/
theorem Inflow.of_balances {a b : ERC20} (h : b.balanceOf = a.balanceOf) : Inflow d a b :=
  ⟨fun _ _ => by rw [h], by rw [h]⟩

theorem Kept.refl (s : State) : Kept s s := ⟨rfl, rfl, rfl, rfl, le_refl _, id⟩

theorem Still.refl (s : State) : Still d s s := ⟨.refl s, rfl, rfl, rfl, .refl _⟩

theorem Still.trans (h : Still d s t) (h' : Still d t u) : Still d s u where
  registry := h'.registry.trans h.registry
  cap := h'.cap.trans h.cap
  pools := h'.pools.trans h.pools
  count := h'.count.trans h.count
  invested := le_trans h'.invested h.invested
  sized := h'.sized ∘ h.sized
  settings := h'.settings.trans h.settings
  access := h'.access.trans h.access
  bil := h'.bil.trans h.bil
  inflow := h.inflow.trans h'.inflow

/-- Changes of the book that open nothing. -/
theorem still_of_book {b : Book} (hpools : b.positionPool = s.positionPool)
    (hcount : b.positions.length = s.positions.length) (hinv : b.totalInvestedPrincipal ≤ s.totalInvestedPrincipal)
    (hsized : s.toBook.Sized → b.Sized) : Still d s { s with toBook := b } :=
  ⟨⟨rfl, rfl, hpools, hcount, hinv, hsized⟩, rfl, rfl, rfl, .refl _⟩

/-- A position rewritten in its place. -/
theorem setPosition_still {i : Nat} {pos pos' : NFTPosition} (hpos : s.positions[i]? = some pos)
    (hle : pos'.pendingYield ≤ pos.pendingYield) : Still d s (setPosition s i pos') :=
  still_of_book rfl List.length_set (le_refl _) fun h => h.set hpos hle rfl rfl

/-- What a pool pays comes from its own balance. -/
theorem poolPay_inflow {pool : Address} {paid : Option Nat} {token token' : ERC20}
    (h : poolPay d paid token pool = some token') : Inflow d token token' := by
  refine ⟨fun x hx => ?_, (poolPay_some h).2⟩
  unfold poolPay at h
  split at h
  · cases h
  · split at h
    · rename_i ht
      cases h
      obtain ⟨-, -, -, rfl⟩ := ERC20.transfer_ok_iff.1 ht
      rw [ERC20.move_balanceOf, if_neg hx]
      split_ifs with hpool
      · rw [hpool]; exact Nat.sub_le _ _
      · exact le_refl _
    · cases h

end Still

/-! ## The keeper's work -/

section Keeper

variable {d : Deployment} {env : Replies} {s t : State}

theorem caps_frame {now : Nat} {b b' : Book} (h : ReflTransGen (Cap now) b b') :
    b'.positionPool = b.positionPool ∧ b'.positions.length = b.positions.length ∧
      b'.totalInvestedPrincipal = b.totalInvestedPrincipal := by
  induction h with
  | refl => exact ⟨rfl, rfl, rfl⟩
  | tail _ hc ih =>
    cases hc with
    | cap entry pos _ _ _ _ =>
      obtain ⟨hpools, hcount, hinv⟩ := ih
      exact ⟨hpools, List.length_set.trans hcount, hinv⟩

theorem syncMaturities_still {n k : Nat} (h : syncMaturities s n = .ok (t, k)) : Still d s t := by
  simp only [syncMaturities, bind_ok_iff, checkedAdd_ok_iff, pure_ok_iff, Prod.mk.injEq] at h
  obtain ⟨r, hr, _, ⟨-, rfl⟩, rfl, -⟩ := h
  obtain ⟨hpools, hcount, hinv⟩ := caps_frame (processMaturities_caps (b := s.toBook) hr)
  exact still_of_book hpools hcount hinv.le fun h => h.sync hr

theorem processQueueWithHollar_still {available rate used locked : Nat}
    (h : processQueueWithHollar s available rate = .ok (t, used, locked)) : Still d s t := by
  simp only [processQueueWithHollar, bind_ok_iff, pure_ok_iff, Prod.mk.injEq] at h
  obtain ⟨r, -, _, -, _, -, _, -, rfl, -, -⟩ := h
  exact ⟨⟨rfl, rfl, rfl, rfl, le_refl _, id⟩, rfl, rfl, rfl, .refl _⟩

theorem distribute_still (h : distribute s = .ok t) : Still d s t := by
  unfold distribute at h
  split at h
  · simp only [bind_ok_iff, pure_ok_iff, Prod.exists] at h
    obtain ⟨rate, -, t', used, locked, hq, rfl⟩ := h
    exact processQueueWithHollar_still hq
  · cases h; exact .refl s

theorem Flow.andThen_still {a f : Flow} {next : State → Tx Flow} (ha : Still d s a.state)
    (hnext : ∀ g, next a.state = .ok g → Still d a.state g.state) (h : a.andThen next = .ok f) : Still d s f.state := by
  unfold Flow.andThen at h
  split at h
  · cases h; exact ha
  · simp only [bind_ok_iff, pure_ok_iff] at h
    obtain ⟨g, hg, rfl⟩ := h
    exact ha.trans (hnext g hg)

variable {pool : Address} {i : Nat} {f : Flow}

theorem requestYieldBranch_still (h : requestYieldBranch env pool i s = .ok f) : Still d s f.state := by
  simp only [requestYieldBranch, bind_ok_iff, readAt_ok_iff] at h
  obtain ⟨pos, hpos, h⟩ := h
  split_ifs at h
  · cases h; exact .refl s
  · cases h; exact setPosition_still hpos (le_refl _)
  · cases h; exact setPosition_still hpos (le_refl _)
  · cases h; exact .refl s
  · cases h; exact .refl s

theorem executeYieldBranch_still (h : executeYieldBranch d env pool i s = .ok f) : Still d s f.state := by
  simp only [executeYieldBranch, bind_ok_iff, readAt_ok_iff] at h
  obtain ⟨pos, hpos, h⟩ := h
  split at h
  · split at h
    · cases h; exact .refl s
    · rename_i token hpay
      simp only [bind_ok_iff, pure_ok_iff] at h
      obtain ⟨_, -, _, -, _, -, _, -, rfl⟩ := h
      refine ⟨⟨rfl, rfl, rfl, List.length_set, le_refl _, fun h => ?_⟩, rfl, rfl, rfl, poolPay_inflow hpay⟩
      refine h.set hpos ?_ rfl rfl
      exact Nat.zero_le _
  · cases h; exact .refl s

theorem requestPrincipalBranch_still (h : requestPrincipalBranch env pool i s = .ok f) : Still d s f.state := by
  simp only [requestPrincipalBranch, bind_ok_iff, readAt_ok_iff] at h
  obtain ⟨pos, hpos, h⟩ := h
  split_ifs at h
  · cases h; exact setPosition_still hpos (le_refl _)
  · cases h; exact .refl s
  · cases h; exact .refl s

theorem executePrincipalBranch_still (h : executePrincipalBranch d env pool i s = .ok f) : Still d s f.state := by
  simp only [executePrincipalBranch, bind_ok_iff, readAt_ok_iff] at h
  obtain ⟨pos, hpos, h⟩ := h
  split at h
  · split at h
    · cases h; exact .refl s
    · rename_i token hpay
      simp only [bind_ok_iff, checkedSub_ok_iff, pure_ok_iff] at h
      obtain ⟨_, -, _, -, _, ⟨-, rfl⟩, _, -, after, hdist, _, -, rfl⟩ := h
      refine Still.trans ?_ (distribute_still hdist)
      refine ⟨⟨rfl, rfl, rfl, List.length_set, Nat.sub_le _ _, fun h => ?_⟩, rfl, rfl, rfl, poolPay_inflow hpay⟩
      refine h.set hpos ?_ rfl rfl
      exact le_refl _
  · cases h; exact .refl s

theorem pokeDecentral_still {ps : List Payout} (h : pokeDecentral d env s i = .ok (t, ps)) : Still d s t := by
  simp only [pokeDecentral, bind_ok_iff, Prod.exists, pure_ok_iff, Prod.mk.injEq] at h
  obtain ⟨_, -, _, -, _, -, s₁, k, hsync, f₁, h1, f₂, h2, f₃, h3, f₄, h4, rfl, -⟩ := h
  refine (syncMaturities_still hsync).trans ?_
  have hs := Flow.andThen_still (requestYieldBranch_still h1) (fun _ hg => executeYieldBranch_still hg) h2
  have hs := Flow.andThen_still hs (fun _ hg => requestPrincipalBranch_still hg) h3
  exact Flow.andThen_still hs (fun _ hg => executePrincipalBranch_still hg) h4

/-! ## Opening a position -/

/-- A refusal leaves approvals, which move nothing. -/
theorem depositIntoDecentral_outlay {amount : Nat} {ok : Bool}
    (h : depositIntoDecentral d env s amount = .ok (t, ok)) :
    (ok = false ∧ Still d s t) ∨ (ok = true ∧ Opening d amount s t) := by
  simp only [depositIntoDecentral, bind_ok_iff, returned_ok_iff, ERC20.safeApprove_ok_iff] at h
  obtain ⟨apyWad, -, _, ⟨-, -, -, rfl⟩, _, ⟨-, -, -, rfl⟩, h⟩ := h
  split at h
  · cases h
    exact .inl ⟨rfl, ⟨rfl, rfl, rfl, rfl, le_refl _, id⟩, rfl, rfl, rfl, .of_balances rfl⟩
  · rename_i tokenId token hdep
    simp only [bind_ok_iff, returned_ok_iff, pure_ok_iff, Prod.mk.injEq] at h
    obtain ⟨period, -, book, hbook, rfl, rfl⟩ := h
    obtain ⟨hfits, rfl⟩ := recordPosition_ok_iff.1 hbook
    unfold poolDeposit at hdep
    split at hdep
    · cases hdep
    · split at hdep
      · rename_i pulled _ _ _ hpull
        cases hdep
        obtain ⟨-, -, hle, hbal, -⟩ := ERC20.transferFrom_ok hpull
        refine .inr ⟨rfl, .opened tokenId apyWad period pulled token hle ?_ hfits.rate⟩
        rw [hbal]
        funext x
        rw [ERC20.move_balanceOf, ERC20.move_balanceOf]
        rfl
      · cases hdep

/-- What is over the cap stays idle. -/
theorem reinvestAmount_ok {amount : Nat} (hcap : s.totalInvestedPrincipal < s.tvlCap)
    (h : reinvestAmount s = .ok amount) : amount ≤ s.idleHollar ∧ s.totalInvestedPrincipal + amount ≤ s.tvlCap := by
  simp only [reinvestAmount, bind_ok_iff, checkedAdd_ok_iff] at h
  obtain ⟨_, ⟨-, rfl⟩, h⟩ := h
  split at h
  · rw [checkedSub_ok_iff] at h
    omega
  · cases h
    omega

/-- A poke of the queue opens nothing, or reinvests within the cap on principal. -/
theorem pokeQueue_outlay (h : pokeQueue d env s = .ok t) :
    Still d s t ∨ ∃ s₁ s₂ amount, Still d s s₁ ∧ Opening d amount s₁ s₂ ∧
      s₁.totalInvestedPrincipal + amount ≤ s₁.tvlCap ∧ t = { s₂ with idleHollar := s₂.idleHollar - amount } := by
  simp only [pokeQueue, syncBeforeRateSensitiveAction, bind_ok_iff, Prod.exists, pure_ok_iff] at h
  obtain ⟨_, -, s₁, ⟨s₁', k, hsync, _, -, rfl⟩, rate, -, s₂, used, locked, hq, h⟩ := h
  have hstill : Still d s (sweepPositionHead s₂) :=
    (syncMaturities_still hsync).trans ((processQueueWithHollar_still hq).trans
      (still_of_book (b := (sweepPositionHead s₂).toBook) rfl rfl (le_refl _) fun h => ⟨h.rate, h.pending⟩))
  split at h
  · unfold MoneyMarket.reinvest at h
    split at h
    · cases h; exact .inl hstill
    · rename_i hcap
      simp only [bind_ok_iff] at h
      obtain ⟨amount, hamount, h⟩ := h
      split at h
      · cases h; exact .inl hstill
      · simp only [bind_ok_iff, Prod.exists] at h
        obtain ⟨s₃, ok, hdep, h⟩ := h
        rcases depositIntoDecentral_outlay hdep with ⟨rfl, hs⟩ | ⟨rfl, hopen⟩
        · cases h; exact .inl (hstill.trans hs)
        · rw [if_pos rfl] at h
          simp only [bind_ok_iff, checkedSub_ok_iff, pure_ok_iff] at h
          obtain ⟨_, ⟨-, rfl⟩, rfl⟩ := h
          exact .inr ⟨_, s₃, amount, hstill, hopen, (reinvestAmount_ok (not_le.1 hcap) hamount).2, rfl⟩
  · cases h; exact .inl hstill

variable {sender receiver : Address} {assets shares : Nat}

/-- A deposit pulls the assets from the sender and opens a position of them. -/
theorem depositShares_outlay (h : depositShares d env s sender receiver assets shares = .ok t) :
    ∃ bil₀ bil token, bootstrap s.bil = .ok bil₀ ∧ (bil₀.mint receiver shares : Tx ERC20) = .ok bil ∧
      assets ≤ s.token.balanceOf sender ∧ token.balanceOf = (s.token.move sender d.self assets).balanceOf ∧
      Opening d assets { s with bil, token } t := by
  simp only [depositShares, bind_ok_iff, Prod.exists, require_ok_iff, pure_ok_iff] at h
  obtain ⟨bil₀, hboot, bil, hmint, token, hpull, s₁, ok, hdep, _, rfl, rfl⟩ := h
  obtain ⟨-, -, hle, hbal, -⟩ := ERC20.transferFrom_ok hpull
  rcases depositIntoDecentral_outlay hdep with ⟨hok, -⟩ | ⟨-, hopen⟩
  · exact absurd hok (by decide)
  · exact ⟨bil₀, bil, token, hboot, hmint, hle, hbal, hopen⟩

theorem validateDeposit_cap {u : Unit} (h : validateDeposit s assets = .ok u) :
    ∃ total, totalAssets s = .ok total ∧ total + assets ≤ s.tvlCap := by
  simp only [validateDeposit, bind_ok_iff, require_ok_iff, checkedAdd_ok_iff] at h
  obtain ⟨_, -, _, -, total, htotal, _, ⟨-, rfl⟩, hcap⟩ := h
  exact ⟨total, htotal, hcap⟩

/-- Both ways in check the cap before they open the position. -/
theorem deposit_outlay (h : deposit d env s sender assets receiver = .ok (t, shares)) :
    (∃ total, totalAssets s = .ok total ∧ total + assets ≤ s.tvlCap) ∧
      depositShares d env s sender receiver assets shares = .ok t := by
  simp only [deposit, bind_ok_iff, pure_ok_iff, Prod.mk.injEq] at h
  obtain ⟨_, -, _, -, _, hprev, _, -, _, hdep, rfl, rfl⟩ := h
  refine ⟨?_, hdep⟩
  simp only [validateAndPreviewShares, bind_ok_iff] at hprev
  obtain ⟨_, hvalid, -⟩ := hprev
  exact validateDeposit_cap hvalid

theorem mint_outlay (h : mint d env s sender shares receiver = .ok (t, assets)) :
    (∃ total, totalAssets s = .ok total ∧ total + assets ≤ s.tvlCap) ∧
      depositShares d env s sender receiver assets shares = .ok t := by
  simp only [mint, bind_ok_iff, pure_ok_iff, Prod.mk.injEq] at h
  obtain ⟨_, -, _, -, _, -, _, -, _, -, _, hvalid, _, hdep, rfl, rfl⟩ := h
  exact ⟨validateDeposit_cap hvalid, hdep⟩

end Keeper

/-! ## Every call -/

/-- What a call of an admin does to the pool registry. -/
inductive Enrol (env : Replies) (s : State) : Call → Registry → Prop
  | register (pool token : Address) : pool ≠ 0 → s.isPoolRegistered pool = false →
      (env.pool pool).poolToken = some token → token ≠ 0 →
      Enrol env s (.registerPool pool) { s.toRegistry with
        isPoolRegistered := Function.update s.isPoolRegistered pool true
        isRegisteredPoolToken := Function.update s.isRegisteredPoolToken token true
        pools := s.pools ++ [pool] }
  | activate (pool : Address) : s.isPoolRegistered pool = true →
      Enrol env s (.setActiveDepositPool pool) { s.toRegistry with activeDepositPool := pool }
  | retire (pool token : Address) : s.isPoolRegistered pool = true → pool ≠ s.activeDepositPool →
      hasOpenPosition s.positions s.positionPool s.positionHead pool = false →
      (env.pool pool).poolToken = some token →
      Enrol env s (.retirePool pool) { s.toRegistry with
        pools := dropPool s.pools pool
        isPoolRegistered := Function.update s.isPoolRegistered pool false
        isRegisteredPoolToken := Function.update s.isRegisteredPoolToken token false }

/-- What a step does to the pools, the positions and the cap. -/
inductive Effect (d : Deployment) (a : Action) (s : State) : State → Prop
  | kept {t : State} : Kept s t → Effect d a s t
  | opened {s₁ s₂ : State} (amount idleHollar : Nat) : Kept s s₁ → Opening d amount s₁ s₂ →
      s₁.totalInvestedPrincipal + amount ≤ s₁.tvlCap → Effect d a s { s₂ with idleHollar }
  | recapped (newCap total : Nat) : totalAssets s = .ok total → total ≤ newCap →
      Effect d a s { s with tvlCap := newCap }
  | enrolled (sender : Address) (env : Replies) (c : Call) (g : Registry) : a = .call sender env c →
      Enrol env s c g → Effect d a s { s with toRegistry := g }

section Effects

variable {d : Deployment} {env : Replies} {s t : State} {sender : Address}

theorem registerPool_enrol {pool stablecoin : Address} {g : Registry}
    (h : registerPool (env.pool pool) s.toRegistry pool stablecoin 0 = .ok g) : Enrol env s (.registerPool pool) g := by
  simp only [registerPool, bind_ok_iff, require_ok_iff, returned_ok_iff, pure_ok_iff] at h
  obtain ⟨_, hpool, _, hfresh, _, -, _, -, token, htoken, _, hne, _, -, rfl⟩ := h
  exact .register pool token hpool hfresh htoken hne

theorem invested_le_totalAssets {total : Nat} (h : totalAssets s = .ok total) : s.totalInvestedPrincipal ≤ total := by
  simp only [totalAssets, bind_ok_iff, checkedAdd_ok_iff] at h
  obtain ⟨accrued, -, _, ⟨-, rfl⟩, _, ⟨-, rfl⟩, _, ⟨-, rfl⟩, -, rfl⟩ := h
  omega

/-- A deposit or a mint opens its position within the cap. -/
theorem depositShares_effect {a : Action} {receiver : Address} {assets shares : Nat}
    (hcap : ∃ total, totalAssets s = .ok total ∧ total + assets ≤ s.tvlCap)
    (h : depositShares d env s sender receiver assets shares = .ok t) : Effect d a s t := by
  obtain ⟨total, htotal, hle⟩ := hcap
  obtain ⟨bil₀, bil, token, -, -, -, -, hopen⟩ := depositShares_outlay h
  have hinvested := invested_le_totalAssets htotal
  have hkept : Kept s { s with bil, token } := ⟨rfl, rfl, rfl, rfl, le_refl _, id⟩
  have hroom : s.totalInvestedPrincipal + assets ≤ s.tvlCap := by omega
  exact .opened assets t.idleHollar hkept hopen hroom

theorem kept_of_rest (hregistry : t.toRegistry = s.toRegistry) (hcap : t.tvlCap = s.tvlCap)
    (hbook : t.toBook = s.toBook) : Kept s t := by
  refine ⟨hregistry, hcap, ?_, ?_, ?_, ?_⟩
  · exact congrArg Book.positionPool hbook
  · exact congrArg (fun b => b.positions.length) hbook
  · exact (congrArg Book.totalInvestedPrincipal hbook).le
  · rw [hbook]
    exact id

theorem refundUnsettled_rest {i n : Nat} (h : refundUnsettled d s i n = .ok t) :
    t.toRegistry = s.toRegistry ∧ t.tvlCap = s.tvlCap ∧ t.toBook = s.toBook := by
  unfold refundUnsettled at h
  split at h
  · simp only [bind_ok_iff, pure_ok_iff] at h
    obtain ⟨_, -, _, -, rfl⟩ := h
    exact ⟨rfl, rfl, rfl⟩
  · cases h; exact ⟨rfl, rfl, rfl⟩

theorem payClaim_rest {store : QueueStore} {shares assets : Nat} {receiver : Address}
    (h : payClaim d s store shares assets receiver = .ok t) : Kept s t := by
  simp only [payClaim, bind_ok_iff, pure_ok_iff] at h
  obtain ⟨_, -, _, -, _, -, _, -, _, -, rfl⟩ := h
  exact kept_of_rest rfl rfl rfl

theorem call_effect {c : Call} {ps : List Payout} (h : c.run d env s sender = .ok (t, ps)) :
    Effect d (.call sender env c) s t := by
  cases c with
  | deposit assets receiver =>
    simp only [Call.run, bind_ok_iff, Prod.exists, pure_ok_iff, Prod.mk.injEq] at h
    obtain ⟨_, _, h, rfl, -⟩ := h
    exact depositShares_effect (deposit_outlay h).1 (deposit_outlay h).2
  | mint shares receiver =>
    simp only [Call.run, bind_ok_iff, Prod.exists, pure_ok_iff, Prod.mk.injEq] at h
    obtain ⟨_, _, h, rfl, -⟩ := h
    exact depositShares_effect (mint_outlay h).1 (mint_outlay h).2
  | requestRedeem shares controller owner =>
    simp only [Call.run, requestRedeem, bind_ok_iff, Prod.exists, pure_ok_iff, Prod.mk.injEq] at h
    obtain ⟨_, _, ⟨_, -, _, -, _, -, _, -, _, -, _, -, _, -, _, -, rfl, -⟩, rfl, -⟩ := h
    exact .kept (kept_of_rest rfl rfl rfl)
  | cancelRedeem requestId =>
    simp only [Call.run, cancelRedeem, bind_ok_iff, pure_ok_iff, Prod.mk.injEq] at h
    obtain ⟨_, ⟨_, -, _, -, _, -, _, -, s₁, hrefund, rfl⟩, rfl, -⟩ := h
    obtain ⟨hregistry, hcap, hbook⟩ := refundUnsettled_rest hrefund
    unfold deleteUnsettled
    split
    · exact .kept (kept_of_rest hregistry hcap hbook)
    · exact .kept (kept_of_rest hregistry hcap hbook)
  | redeem shares receiver controller =>
    simp only [Call.run, redeem, bind_ok_iff, Prod.exists, pure_ok_iff, Prod.mk.injEq] at h
    obtain ⟨_, _, ⟨_, -, _, -, _, -, _, -, _, _, -, _, hpay, rfl, -⟩, rfl, -⟩ := h
    exact .kept (payClaim_rest hpay)
  | withdraw assets receiver controller =>
    simp only [Call.run, withdraw, bind_ok_iff, Prod.exists, pure_ok_iff, Prod.mk.injEq] at h
    obtain ⟨_, _, ⟨_, -, _, -, _, -, _, -, _, _, _, -, _, hpay, rfl, -⟩, rfl, -⟩ := h
    exact .kept (payClaim_rest hpay)
  | pokeDecentral positionIndex => exact .kept (pokeDecentral_still h).toKept
  | pokeQueue =>
    simp only [Call.run, bind_ok_iff, pure_ok_iff, Prod.mk.injEq] at h
    obtain ⟨_, h, rfl, -⟩ := h
    rcases pokeQueue_outlay h with hs | ⟨s₁, s₂, amount, hs, hopen, hcap, rfl⟩
    · exact .kept hs.toKept
    · exact .opened amount _ hs.toKept hopen hcap
  | syncMaturities maxPositions =>
    simp only [Call.run, bind_ok_iff, Prod.exists, pure_ok_iff, Prod.mk.injEq] at h
    obtain ⟨_, _, h, rfl, -⟩ := h
    exact .kept (syncMaturities_still (d := d) h).toKept
  | setTvlCap newCap =>
    simp only [Call.run, setTvlCap, bind_ok_iff, require_ok_iff, pure_ok_iff, Prod.mk.injEq] at h
    obtain ⟨_, ⟨_, -, total, htotal, _, hle, rfl⟩, rfl, -⟩ := h
    exact .recapped newCap total htotal hle
  | registerPool newPool =>
    simp only [Call.run, registerPoolCall, bind_ok_iff, pure_ok_iff, Prod.mk.injEq] at h
    obtain ⟨_, ⟨_, -, g, hg, rfl⟩, rfl, -⟩ := h
    exact .enrolled sender env _ g rfl (registerPool_enrol hg)
  | setActiveDepositPool pool =>
    simp only [Call.run, setActiveDepositPool, bind_ok_iff, require_ok_iff, pure_ok_iff, Prod.mk.injEq] at h
    obtain ⟨_, ⟨_, -, _, hreg, rfl⟩, rfl, -⟩ := h
    exact .enrolled sender env _ _ rfl (.activate pool hreg)
  | retirePool pool =>
    simp only [Call.run, retirePool, removePool, bind_ok_iff, require_ok_iff, returned_ok_iff, pure_ok_iff,
      Prod.mk.injEq] at h
    obtain ⟨_, ⟨_, -, _, hreg, _, hne, _, ⟨_, hopen, rfl⟩, token, htoken, rfl⟩, rfl, -⟩ := h
    exact .enrolled sender env _ _ rfl (.retire pool token hreg hne hopen htoken)
  | share c =>
    simp only [Call.run, bind_ok_iff, pure_ok_iff, Prod.mk.injEq] at h
    obtain ⟨_, -, rfl, -⟩ := h
    exact .kept (kept_of_rest rfl rfl rfl)
  | _ =>
    -- the calls that set pools or the cap are above
    obtain ⟨⟨g, f, p, hpools, hcap, -, -⟩, -⟩ := Configured.of_run (by trivial) h
    exact .kept (kept_of_rest (hpools.resolve_left id) (hcap.resolve_left (by simp)) rfl)

/-- Only calls touch the pools, the positions and the cap. -/
theorem step_effect {a : Action} {ps : List Payout} (h : step d s a = .ok (t, ps)) : Effect d a s t := by
  cases a with
  | call sender env c => exact call_effect h
  | tick now =>
    cases h
    exact .kept (kept_of_rest rfl rfl rfl)
  | hollar sender c =>
    simp only [step, bind_ok_iff, pure_ok_iff, Prod.mk.injEq] at h
    obtain ⟨_, -, rfl, -⟩ := h
    exact .kept (kept_of_rest rfl rfl rfl)
  | hollarMint account amount =>
    simp only [step, bind_ok_iff, pure_ok_iff, Prod.mk.injEq] at h
    obtain ⟨_, -, rfl, -⟩ := h
    exact .kept (kept_of_rest rfl rfl rfl)
  | hollarBurn account amount =>
    simp only [step, bind_ok_iff, pure_ok_iff, Prod.mk.injEq] at h
    obtain ⟨_, -, rfl, -⟩ := h
    exact .kept (kept_of_rest rfl rfl rfl)

end Effects

/-! ## The cap on principal -/

/-- A step that starts within the cap ends within it. -/
theorem Effect.capped {d : Deployment} {s t : State} {a : Action} (h : Effect d a s t)
    (hcap : s.totalInvestedPrincipal ≤ s.tvlCap) : t.totalInvestedPrincipal ≤ t.tvlCap := by
  cases h with
  | kept hk =>
    rw [hk.cap]
    exact le_trans hk.invested hcap
  | opened amount idle hk hopen hfits =>
    cases hopen with
    | opened tokenId apyWad period pulled token _ _ _ => exact hfits
  | recapped newCap total htotal hle => exact le_trans (invested_le_totalAssets htotal) hle
  | enrolled sender env c g _ _ => exact hcap

/-- In every reachable state the principal invested is within the cap. -/
theorem principal_capped {d : Deployment} {s : State} (h : Reachable d s) :
    s.totalInvestedPrincipal ≤ s.tvlCap := by
  refine h.invariant (I := fun s => s.totalInvestedPrincipal ≤ s.tvlCap) ?_ ?_
  · rintro s ⟨env, p, token, now, -, hinit⟩
    obtain ⟨g, c, a, -, -, rfl⟩ := initializeVault_ok hinit
    exact Nat.zero_le _
  · rintro s a t - hcap ⟨-, ps, hs⟩
    exact (step_effect hs).capped hcap

/-- Before its position is redeemed, the demo run has invested alice's deposit. -/
theorem principal_capped_demo : ∃ s : State, s.totalInvestedPrincipal = 10 ^ 20 ∧
    s.totalInvestedPrincipal ≤ s.tvlCap := by
  obtain ⟨s, hs, ht⟩ := observe_reach demo DeadSilent demoQuiet demoSetup (demoRun.take 4)
    (fun s => decide (s.totalInvestedPrincipal = 10 ^ 20)) (by decide +kernel)
  exact ⟨s, of_decide_eq_true ht, principal_capped hs.of_restrict⟩

end MoneyMarket
