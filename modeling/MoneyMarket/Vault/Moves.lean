/-
What one call of the vault can do to the whole state. The keeper's calls (`pokeDecentral`,
`pokeQueue`, `syncMaturities`) are sequences of `Poke`s, every other action is one `Act`
(`step_moves`). An invariant of the vault is proved once per `Poke` and per `Act`.
-/
import MoneyMarket.Book.Moves
import MoneyMarket.Queue.Moves
import MoneyMarket.Vault.Configure

namespace MoneyMarket

open Evm Relation Transition

/-! ## The token -/

/-- The ledger stays plain, and the vault's balance drops by at most `amount`. -/
def Spends (d : Deployment) (token token' : ERC20) (amount : Nat) : Prop :=
  PlainLedger token → PlainLedger token' ∧ token.balanceOf d.self ≤ token'.balanceOf d.self + amount

/-- The ledger stays plain, and the vault's balance rises by exactly `amount`. -/
def Receives (d : Deployment) (token token' : ERC20) (amount : Nat) : Prop :=
  (PlainLedger token → PlainLedger token') ∧ token'.balanceOf d.self = token.balanceOf d.self + amount

/-- No root of the heap is due. -/
def NoneDue (s : State) : Prop := ∀ root, s.maturityHeap[0]? = some root → s.now < entryMaturity root

/-- Shares are minted at no better than the active rate, or one to one before there are any. -/
def Priced (s : State) (assets shares : Nat) : Prop :=
  (activeSupply s = 0 ∧ assets = shares + deadShares) ∨
    (0 < activeSupply s ∧ ∃ active, activeAssets s = .ok active ∧ shares * active ≤ assets * activeSupply s)

/-! ## Moves -/

/-- One move of a keeper's call, with the payouts it credits. -/
inductive Poke (d : Deployment) : State → List Payout → State → Prop
  | cap {s : State} {b : Book} : Cap s.now s.toBook b → Poke d s [] { s with toBook := b }
  | ask {s : State} (i : Nat) (pos : NFTPosition) (state : NFTState) : s.positions[i]? = some pos →
      Asks s.now pos state → Poke d s [] { s with toBook := s.toBook.setPosition i { pos with state } }
  | yieldPaid {s : State} (i : Nat) (pos : NFTPosition) (token : ERC20) (received : Nat) :
      s.positions[i]? = some pos → pos.state = .yieldWithdrawalRequested → Receives d s.token token received →
      Poke d s [⟨i, false, pos.pendingYield, received⟩]
        { s with token, toBook := s.toBook.yieldPaid i pos, idleHollar := s.idleHollar + received }
  | principalPaid {s : State} (i : Nat) (pos : NFTPosition) (token : ERC20) (received : Nat) :
      s.positions[i]? = some pos → pos.state = .principalWithdrawalRequested → Receives d s.token token received →
      Poke d s [⟨i, true, pos.principal, received⟩]
        { s with token, toBook := s.toBook.principalPaid i pos, idleHollar := s.idleHollar + received }
  | sweep {s : State} {b : Book} : Sweep s.toBook b → Poke d s [] { s with toBook := b }
  | settle {s : State} {q : Redemptions} (rate : Nat) : NoneDue s → exchangeRate s = .ok rate →
      ReflTransGen (Fill rate) s.toRedemptions q → q.totalReservedHollar ≤ s.totalReservedHollar + s.idleHollar →
      Poke d s []
        { s with toRedemptions := q, idleHollar := s.idleHollar - (q.totalReservedHollar - s.totalReservedHollar) }
  | reinvest {s : State} (pool : Address) (tokenId apyWad amount period : Nat) (token : ERC20) : NoneDue s →
      amount ≤ s.idleHollar → s.minReinvestAmount ≤ amount → s.now + period < 2 ^ 128 →
      s.positions.length < 2 ^ 128 → Spends d s.token token amount →
      Poke d s []
        { s with
          token, toBook := s.toBook.opened pool tokenId apyWad amount period s.now
          idleHollar := s.idleHollar - amount }
  | refused {s : State} (token : ERC20) : Spends d s.token token 0 → Poke d s [] { s with token }

/-- What any other action does. -/
inductive Act (d : Deployment) (a : Action) : State → State → Prop
  | tick {s : State} (now : Nat) : s.now ≤ now → Act d a s { s with now }
  | ledger {s : State} (token : ERC20) : Spends d s.token token 0 → Act d a s { s with token }
  | configure {s : State} (g : Registry) (c : Settings) (p : Access) :
      (0 < s.minRedeemAmount → 0 < c.minRedeemAmount) → (∀ o, o ≠ a.sender → p.isOperator o = s.isOperator o) →
      Act d a s { s with toRegistry := g, toSettings := c, toAccess := p }
  | share {s : State} (c : ERC20.Call) (bil : ERC20) : (s.bil.call a.sender c : Tx ERC20) = .ok bil →
      Act d a s { s with bil }
  | deposit {s : State} (receiver pool : Address) (assets shares tokenId apyWad period : Nat) (bil₀ bil token : ERC20) :
      NoneDue s → Priced s assets shares → bootstrap s.bil = .ok bil₀ →
        (bil₀.mint receiver shares : Tx ERC20) = .ok bil →
      s.now + period < 2 ^ 128 → s.positions.length < 2 ^ 128 → Spends d s.token token 0 →
      Act d a s { s with bil, token, toBook := s.toBook.opened pool tokenId apyWad assets period s.now }
  | request {s : State} (controller owner : Address) (shares : Nat) (bil : ERC20) : controller ≠ 0 →
      s.minRedeemAmount ≤ shares → (a.sender = owner ∨ s.isOperator owner a.sender = true) →
      (s.bil.transfer owner d.self shares : Tx ERC20) = .ok bil → s.totalQueuedBil + shares < uintSize →
      Act d a s { s with bil, toRedemptions := s.toRedemptions.push controller shares }
  | cancel {s : State} (i n : Nat) (bil : ERC20) : i < s.queueTail → (s.redemptionQueue i).user ≠ 0 →
      (s.redemptionQueue i).bilSettled ≤ (s.redemptionQueue i).bilAmount →
      (bil = s.bil ∧ (s.redemptionQueue i).bilSettled = (s.redemptionQueue i).bilAmount ∨
        (s.bil.transfer d.self (s.redemptionQueue i).user
          ((s.redemptionQueue i).bilAmount - (s.redemptionQueue i).bilSettled) : Tx ERC20) = .ok bil) →
      Act d a s
        { s with
          bil
          toRedemptions := { s.toRedemptions.cancelled i with
            queueHead := advanceQueueHead (s.toRedemptions.cancelled i).redemptionQueue s.queueTail n s.queueHead } }
  | claim {s : State} (u : ClaimUnit) (c receiver : Address) (amount : Nat) (r : ClaimRun) (bil token : ERC20) :
      claimWalk u s.toQueueStore c amount = .ok r →
      (u = .assets → ∃ env, a = .call a.sender env (.withdraw amount receiver c)) →
      r.shares ≤ s.totalQueuedBil → r.shares ≤ s.totalSettledBil → r.assets ≤ s.totalReservedHollar →
      (s.bil.burn d.self r.shares : Tx ERC20) = .ok bil →
        (s.token.transfer d.self receiver r.assets : Tx ERC20) = .ok token →
      Act d a s { s with bil, token, toRedemptions := r.onto s.toRedemptions c }

/-- A sequence of keeper's moves. -/
abbrev Pokes (d : Deployment) : State → List Payout → State → Prop := Moves (Poke d)

/-- A move that takes no entry off the maturity heap: any but a cap. -/
def Work (d : Deployment) (s : State) (ps : List Payout) (t : State) : Prop :=
  Poke d s ps t ∧ s.maturityHeap.length ≤ t.maturityHeap.length

/-- A sequence of moves without a cap: what a keeper's call does after its sync. -/
abbrev Works (d : Deployment) : State → List Payout → State → Prop := Moves (Work d)

theorem Works.pokes {d : Deployment} {s t : State} {ps : List Payout} (h : Works d s ps t) : Pokes d s ps t :=
  h.mono fun _ _ _ hw => hw.1

/-! ## The ledger -/

section Ledger

variable {d : Deployment} {token token' : ERC20}

/-- A change of allowances alone. -/
theorem Spends.of_allowance (hb : token'.balanceOf = token.balanceOf) (hs : token'.totalSupply = token.totalSupply) :
    Spends d token token' 0 :=
  fun h => ⟨⟨h.conserved.congr hb hs, by rw [hs]; exact h.supply⟩, by rw [hb]; exact Nat.le_add_right _ _⟩

theorem Spends.trans {t : ERC20} {m n : Nat} (h : Spends d token t m) (h' : Spends d t token' n) :
    Spends d token token' (m + n) := by
  intro hp
  obtain ⟨hp', h1⟩ := h hp
  obtain ⟨hp'', h2⟩ := h' hp'
  exact ⟨hp'', by omega⟩

/-- A pool draws no more than it was approved. -/
theorem Spends.of_pull {pool : Address} {amount pulled : Nat} (hall : token.allowance d.self pool = amount)
    (h : (token.transferFrom pool d.self pool pulled : Tx ERC20) = .ok token') : Spends d token token' amount := by
  intro hp
  obtain ⟨-, -, hle, hb, hs, -, hcov⟩ := ERC20.transferFrom_ok h
  have hsrc := ERC20.move_source token d.self pool hle
  have hbal := hp.conserved.balance_le d.self
  have hsup := hp.supply
  refine ⟨⟨(hp.conserved.move (b := pool) hle).congr hb hs, by rw [hs]; exact hp.supply⟩, ?_⟩
  rw [hb]
  rcases hcov with hmax | hcov <;> omega

/-- Another account's transaction does not lower the vault's balance. -/
theorem Spends.of_call {sender : Address} {c : ERC20.Call} (hsender : sender ≠ d.self) (hdraw : ¬ drawsOn d.self c)
    (h : (token.call sender c : Tx ERC20) = .ok token') : Spends d token token' 0 := by
  intro hp
  refine ⟨⟨hp.conserved.call h, by rw [ERC20.call_totalSupply h]; exact hp.supply⟩, ?_⟩
  cases c with
  | transfer dst amount =>
    obtain ⟨-, -, -, rfl⟩ := ERC20.transfer_ok_iff.1 h
    exact ERC20.le_move _ _ _ _ hsender.symm
  | approve spender amount =>
    obtain ⟨-, -, rfl⟩ := ERC20.approve_ok_iff.1 h
    exact le_refl _
  | transferFrom src dst amount =>
    obtain ⟨-, -, -, hb, -⟩ := ERC20.transferFrom_ok h
    rw [hb]
    exact ERC20.le_move _ _ _ _ (fun e => hdraw e.symm)
  | increaseAllowance spender addedValue =>
    simp only [ERC20.call, bind_ok_iff, ERC20.approve_ok_iff] at h
    obtain ⟨_, -, -, -, rfl⟩ := h
    exact le_refl _
  | decreaseAllowance spender subtractedValue =>
    simp only [ERC20.call, bind_ok_iff, ERC20.approve_ok_iff] at h
    obtain ⟨_, -, -, -, rfl⟩ := h
    exact le_refl _

/-- What a pool pays arrives. -/
theorem poolPay_some {pool : Address} {paid : Option Nat} (h : poolPay d paid token pool = some token') :
    (PlainLedger token → PlainLedger token') ∧ token.balanceOf d.self ≤ token'.balanceOf d.self := by
  unfold poolPay at h
  split at h
  · cases h
  · split at h
    · rename_i ht
      cases h
      obtain ⟨-, -, hle, rfl⟩ := ERC20.transfer_ok_iff.1 ht
      refine ⟨fun hp => ⟨hp.conserved.move hle, hp.supply⟩, ?_⟩
      rename_i amount _ _
      by_cases hpool : d.self = pool
      · rw [ERC20.move_balanceOf, if_pos rfl, if_pos hpool, ← hpool]
        rw [← hpool] at hle
        omega
      · exact ERC20.le_move _ _ _ _ hpool
    · cases h

end Ledger

/-! ## The keeper's calls -/

section Keeper

variable {d : Deployment} {env : Replies} {s t : State}

theorem noneDue_iff : hasMaturedBacklog s = false ↔ NoneDue s := by
  unfold hasMaturedBacklog NoneDue
  rw [List.head?_eq_getElem?]
  cases s.maturityHeap[0]? with
  | none => simp
  | some root => simp

/-- Changes of the book alone, each of them a move. -/
theorem moves_of_book {move : State → List Payout → State → Prop} {R : Book → Book → Prop}
    (hR : ∀ b b', R b b' → move { s with toBook := b } [] { s with toBook := b' }) {b : Book}
    (h : ReflTransGen R s.toBook b) :
    Moves move s [] { s with toBook := b } := by
  induction h with
  | refl => exact .refl s
  | tail _ hr ih => exact ih.trans (.single (hR _ _ hr))

theorem syncMaturities_pokes {n k : Nat} (h : syncMaturities s n = .ok (t, k)) :
    Pokes d s [] t ∧ t = { s with toBook := t.toBook } := by
  simp only [syncMaturities, bind_ok_iff, checkedAdd_ok_iff, pure_ok_iff, Prod.mk.injEq] at h
  obtain ⟨r, hr, _, ⟨-, rfl⟩, rfl, -⟩ := h
  exact ⟨moves_of_book (fun _ _ hc => .cap hc) (processMaturities_caps hr), rfl⟩

theorem sweepPositionHead_works : Works d s [] (sweepPositionHead s) :=
  moves_of_book (fun _ _ hs => by
    cases hs with
    | sweep pos hp hstate => exact ⟨.sweep (.sweep pos hp hstate), le_refl _⟩)
    (advancePositionHead_sweeps maxPositionHeadSweep s.toBook)

theorem processQueueWithHollar_work {rate used locked : Nat} (hdue : NoneDue s) (hrate : exchangeRate s = .ok rate)
    (h : processQueueWithHollar s s.idleHollar rate = .ok (t, used, locked)) :
    Work d s [] t ∧ t.toBook = s.toBook ∧ t.now = s.now := by
  simp only [processQueueWithHollar, bind_ok_iff, checkedSub_ok_iff, checkedAdd_ok_iff, pure_ok_iff, Prod.mk.injEq] at h
  obtain ⟨r, hr, _, ⟨hused, rfl⟩, _, ⟨-, rfl⟩, _, ⟨-, rfl⟩, rfl, -, -⟩ := h
  obtain ⟨hfills, -⟩ := processQueue_fills (q := s.toRedemptions) hr
  refine ⟨⟨?_, le_refl _⟩, rfl, rfl⟩
  have := Poke.settle (d := d) rate hdue hrate hfills (Nat.add_le_add_left hused _)
  rwa [show (r.onto s.toRedemptions).totalReservedHollar - s.totalReservedHollar = r.hollarUsed from
    Nat.add_sub_cancel_left ..] at this

theorem distribute_works (h : distribute s = .ok t) : Works d s [] t := by
  unfold distribute at h
  split at h
  · rename_i hguard
    simp only [bind_ok_iff, pure_ok_iff, Prod.exists] at h
    obtain ⟨rate, hrate, t', used, locked, hq, rfl⟩ := h
    exact .single (processQueueWithHollar_work (noneDue_iff.1 hguard.2.2) hrate hq).1
  · cases h; exact .refl s

theorem Flow.andThen_works {a f : Flow} {next : State → Tx Flow} (ha : Works d s a.payouts a.state)
    (hnext : ∀ g, next a.state = .ok g → Works d a.state g.payouts g.state) (h : a.andThen next = .ok f) :
    Works d s f.payouts f.state := by
  unfold Flow.andThen at h
  split at h
  · cases h; exact ha
  · simp only [bind_ok_iff, pure_ok_iff] at h
    obtain ⟨g, hg, rfl⟩ := h
    exact ha.trans (hnext g hg)

variable {pool : Address} {i : Nat} {f : Flow}

theorem requestYieldBranch_works (h : requestYieldBranch env pool i s = .ok f) : Works d s f.payouts f.state := by
  simp only [requestYieldBranch, bind_ok_iff, readAt_ok_iff] at h
  obtain ⟨pos, hpos, h⟩ := h
  split_ifs at h with hactive hcapped hzero hpool
  · cases h; exact .refl s
  · cases h
    exact .single ⟨.ask i pos _ hpos (.skipYield hactive.1 hactive.2 (by simpa using hcapped) hzero), le_refl _⟩
  · cases h
    exact .single ⟨.ask i pos _ hpos (.requestYield hactive.1 hactive.2 (by simpa using hcapped) hzero), le_refl _⟩
  · cases h; exact .refl s
  · cases h; exact .refl s

theorem executeYieldBranch_works (h : executeYieldBranch d env pool i s = .ok f) : Works d s f.payouts f.state := by
  simp only [executeYieldBranch, bind_ok_iff, readAt_ok_iff] at h
  obtain ⟨pos, hpos, h⟩ := h
  split at h
  · rename_i hstate
    split at h
    · cases h; exact .refl s
    · rename_i token hpay
      simp only [bind_ok_iff, checkedSub_ok_iff, checkedAdd_ok_iff, pure_ok_iff] at h
      obtain ⟨received, ⟨hbal, hrec⟩, _, ⟨-, rfl⟩, _, ⟨-, rfl⟩, _, -, rfl⟩ := h
      exact .single ⟨.yieldPaid i pos token received hpos hstate ⟨(poolPay_some hpay).1, by omega⟩, le_refl _⟩
  · cases h; exact .refl s

theorem requestPrincipalBranch_works (h : requestPrincipalBranch env pool i s = .ok f) :
    Works d s f.payouts f.state := by
  simp only [requestPrincipalBranch, bind_ok_iff, readAt_ok_iff] at h
  obtain ⟨pos, hpos, h⟩ := h
  split_ifs at h with hstate hpool
  · cases h; exact .single ⟨.ask i pos _ hpos (.requestPrincipal hstate), le_refl _⟩
  · cases h; exact .refl s
  · cases h; exact .refl s

/-- The last branch does nothing, or pays the principal and then distributes. -/
theorem executePrincipalBranch_ok (h : executePrincipalBranch d env pool i s = .ok f) :
    (f.state = s ∧ f.payouts = []) ∨
      ∃ u, Works d s f.payouts u ∧ u.toRedemptions = s.toRedemptions ∧ distribute u = .ok f.state := by
  simp only [executePrincipalBranch, bind_ok_iff, readAt_ok_iff] at h
  obtain ⟨pos, hpos, h⟩ := h
  split at h
  · rename_i hstate
    split at h
    · cases h; exact .inl ⟨rfl, rfl⟩
    · rename_i token hpay
      simp only [bind_ok_iff, checkedSub_ok_iff, checkedAdd_ok_iff, pure_ok_iff] at h
      obtain ⟨received, ⟨hbal, hrec⟩, _, -, _, ⟨-, rfl⟩, _, ⟨-, rfl⟩, after, hdist, _, -, rfl⟩ := h
      have hpaid : Work d s _ _ :=
        ⟨.principalPaid i pos token received hpos hstate ⟨(poolPay_some hpay).1, by omega⟩, le_refl _⟩
      exact .inr ⟨_, .step hpaid sweepPositionHead_works, rfl, hdist⟩
  · cases h; exact .inl ⟨rfl, rfl⟩

theorem executePrincipalBranch_works (h : executePrincipalBranch d env pool i s = .ok f) :
    Works d s f.payouts f.state := by
  rcases executePrincipalBranch_ok (d := d) h with ⟨hs, hps⟩ | ⟨u, hpaid, -, hdist⟩
  · rw [hs, hps]
    exact .refl s
  · have hall := hpaid.trans (distribute_works hdist)
    rwa [List.append_nil] at hall

/-- A poke of a position syncs, and then caps nothing more. -/
theorem pokeDecentral_works {ps : List Payout} (h : pokeDecentral d env s i = .ok (t, ps)) :
    ∃ s₁ k, syncMaturities s maxMaturitySync = .ok (s₁, k) ∧ Works d s₁ ps t := by
  simp only [pokeDecentral, bind_ok_iff, Prod.exists, pure_ok_iff, Prod.mk.injEq] at h
  obtain ⟨_, -, _, -, _, -, s₁, k, hsync, f₁, h1, f₂, h2, f₃, h3, f₄, h4, rfl, rfl⟩ := h
  -- each branch starts where the one before it left
  have hp := Flow.andThen_works (requestYieldBranch_works h1) (fun _ hg => executeYieldBranch_works hg) h2
  have hp := Flow.andThen_works hp (fun _ hg => requestPrincipalBranch_works hg) h3
  exact ⟨s₁, k, hsync, Flow.andThen_works hp (fun _ hg => executePrincipalBranch_works hg) h4⟩

/-- Forwarding HOLLAR opens a position, or leaves only approvals. -/
theorem depositIntoDecentral_ok {amount : Nat} {ok : Bool} (h : depositIntoDecentral d env s amount = .ok (t, ok)) :
    (ok = false ∧ ∃ token, t = { s with token } ∧ Spends d s.token token 0) ∨
      (ok = true ∧ ∃ tokenId apyWad period token,
        t = { s with token, toBook := s.toBook.opened s.activeDepositPool tokenId apyWad amount period s.now } ∧
          s.now + period < 2 ^ 128 ∧ s.positions.length < 2 ^ 128 ∧ Spends d s.token token amount) := by
  simp only [depositIntoDecentral, bind_ok_iff, returned_ok_iff, ERC20.safeApprove_ok_iff] at h
  obtain ⟨apyWad, -, _, ⟨-, -, -, rfl⟩, _, ⟨-, -, -, rfl⟩, h⟩ := h
  have happrove : Spends d s.token ((s.token.setAllowance d.self s.activeDepositPool 0).setAllowance d.self
    s.activeDepositPool amount) 0 := .of_allowance rfl rfl
  split at h
  · cases h
    exact .inl ⟨rfl, _, rfl, happrove⟩
  · rename_i tokenId token hdep
    simp only [bind_ok_iff, returned_ok_iff, pure_ok_iff, Prod.mk.injEq] at h
    obtain ⟨period, -, book, hbook, rfl, rfl⟩ := h
    obtain ⟨hfits, rfl⟩ := recordPosition_ok_iff.1 hbook
    refine .inr ⟨rfl, tokenId, apyWad, period, token, rfl, hfits.maturity, hfits.index, ?_⟩
    unfold poolDeposit at hdep
    split at hdep
    · cases hdep
    · split at hdep
      · rename_i hpull
        cases hdep
        have := happrove.trans (.of_pull (ERC20.setAllowance_self ..) hpull)
        rwa [Nat.zero_add] at this
      · cases hdep

theorem reinvest_works (hdue : NoneDue s) (h : MoneyMarket.reinvest d env s = .ok t) : Works d s [] t := by
  unfold MoneyMarket.reinvest at h
  split at h
  · cases h; exact .refl s
  · simp only [bind_ok_iff] at h
    obtain ⟨amount, -, h⟩ := h
    split at h
    · cases h; exact .refl s
    · rename_i hmin
      simp only [bind_ok_iff, Prod.exists] at h
      obtain ⟨s₁, ok, hdep, h⟩ := h
      rcases depositIntoDecentral_ok hdep with ⟨rfl, token, rfl, hspend⟩ | ⟨rfl, tokenId, apyWad, period, token, rfl,
        hm, hi, hspend⟩
      · rw [if_neg (by decide)] at h
        cases h; exact .single ⟨.refused token hspend, le_refl _⟩
      · rw [if_pos rfl] at h
        simp only [bind_ok_iff, checkedSub_ok_iff, pure_ok_iff] at h
        obtain ⟨_, ⟨hle, rfl⟩, rfl⟩ := h
        refine .single ⟨.reinvest _ tokenId apyWad amount period token hdue hle (not_lt.1 hmin) hm hi hspend, ?_⟩
        have := (Heap.push_perm s.maturityHeap (packEntry (s.now + period) s.positions.length)).length_eq
        rw [List.length_cons] at this
        show s.maturityHeap.length ≤ (Heap.push s.maturityHeap _).length
        omega

/-- A poke of the queue syncs, and then caps nothing more. -/
theorem pokeQueue_works (h : pokeQueue d env s = .ok t) :
    ∃ s₁ k, syncMaturities s maxMaturitySync = .ok (s₁, k) ∧ Works d s₁ [] t := by
  simp only [pokeQueue, syncBeforeRateSensitiveAction, requireNoMaturityBacklog, bind_ok_iff, Prod.exists, pure_ok_iff,
    require_ok_iff] at h
  obtain ⟨_, -, s₁, ⟨s₁', k, hsync, _, hdue, rfl⟩, rate, hrate, s₂, used, locked, hq, h⟩ := h
  have hdue := noneDue_iff.1 hdue
  obtain ⟨hsettle, hbook, hnow⟩ := processQueueWithHollar_work (d := d) hdue hrate hq
  have hp : Works d s₁' [] (sweepPositionHead s₂) := .step hsettle sweepPositionHead_works
  refine ⟨s₁', k, hsync, ?_⟩
  split at h
  · have hdue' : NoneDue (sweepPositionHead s₂) := by
      intro root hroot
      show s₂.now < _
      rw [hnow]
      exact hdue root (by rw [← hbook]; exact hroot)
    exact hp.trans (reinvest_works hdue' h)
  · cases h; exact hp

end Keeper

/-! ## The other actions -/

section Others

variable {d : Deployment} {env : Replies} {s t : State} {a : Action}

theorem activeSupply_zero (h : s.bil.totalSupply = 0) : activeSupply s = 0 := by
  unfold activeSupply; rw [if_neg (by omega)]

/-- Shares are priced at the active rate, rounded down. -/
theorem validateAndPreviewShares_priced {assets shares : Nat} (h : validateAndPreviewShares s assets = .ok shares) :
    Priced s assets shares := by
  simp only [validateAndPreviewShares, bind_ok_iff] at h
  obtain ⟨_, -, h⟩ := h
  split at h
  · rename_i hsupply
    simp only [bind_ok_iff, require_ok_iff, checkedSub_ok_iff] at h
    obtain ⟨_, hlt, -, rfl⟩ := h
    exact .inl ⟨activeSupply_zero hsupply, by omega⟩
  · simp only [bind_ok_iff, require_ok_iff, checkedMul_ok_iff, checkedDiv_ok_iff, pure_ok_iff] at h
    obtain ⟨active, hactive, _, ⟨-, hsupply⟩, _, ⟨-, rfl⟩, _, ⟨-, rfl⟩, _, -, rfl⟩ := h
    exact .inr ⟨Nat.pos_of_ne_zero hsupply, active, hactive, Nat.div_mul_le_self _ _⟩

/-- The assets of a mint are priced at the active rate, rounded up. -/
theorem previewMint_priced {assets shares : Nat} (h : previewMint s shares = .ok assets) : Priced s assets shares := by
  unfold previewMint at h
  split at h
  · rename_i hsupply
    rw [checkedAdd_ok_iff] at h
    exact .inl ⟨hsupply, h.2.symm⟩
  · rename_i hsupply
    simp only [bind_ok_iff, checkedMul_ok_iff, checkedAdd_ok_iff, checkedSub_ok_iff, checkedDiv_ok_iff] at h
    obtain ⟨active, hactive, _, ⟨-, rfl⟩, _, ⟨-, rfl⟩, _, ⟨-, rfl⟩, -, rfl⟩ := h
    have hpos := Nat.pos_of_ne_zero hsupply
    refine .inr ⟨hpos, active, hactive, ?_⟩
    have := Nat.lt_div_mul_add hpos (a := shares * active + activeSupply s - 1)
    omega

theorem depositShares_act {sender receiver : Address} {assets shares : Nat} (hsender : sender ≠ d.self)
    (hdue : NoneDue s) (hpriced : Priced s assets shares)
    (h : depositShares d env s sender receiver assets shares = .ok t) : Act d a s t := by
  simp only [depositShares, bind_ok_iff, Prod.exists, require_ok_iff, pure_ok_iff] at h
  obtain ⟨bil₀, hboot, bil, hmint, token, hpull, s₁, ok, hdep, _, rfl, rfl⟩ := h
  rcases depositIntoDecentral_ok hdep with ⟨hok, -⟩ | ⟨-, tokenId, apyWad, period, token', rfl, hm, hi, hspend⟩
  · exact absurd hok (by decide)
  · refine .deposit receiver _ assets shares tokenId apyWad period bil₀ bil token' hdue hpriced hboot hmint hm hi ?_
    -- what the depositor paid in is what the pool may draw
    intro hp
    obtain ⟨-, -, hle, hb, hs, -⟩ := ERC20.transferFrom_ok hpull
    have hplain : PlainLedger token := ⟨(hp.conserved.move (b := d.self) hle).congr hb hs, by rw [hs]; exact hp.supply⟩
    obtain ⟨hp', hbal⟩ := hspend hplain
    have hin : token.balanceOf d.self = s.token.balanceOf d.self + assets := by
      rw [hb]; exact ERC20.move_target _ _ _ _ hsender.symm
    have hbal : token.balanceOf d.self ≤ token'.balanceOf d.self + assets := hbal
    exact ⟨hp', by omega⟩

theorem deposit_act {sender receiver : Address} {assets shares : Nat} (hsender : sender ≠ d.self)
    (h : deposit d env s sender assets receiver = .ok (t, shares)) : Act d a s t := by
  simp only [deposit, requireNoMaturityBacklog, bind_ok_iff, require_ok_iff, pure_ok_iff, Prod.mk.injEq] at h
  obtain ⟨_, -, _, -, _, hprev, _, hdue, _, hdep, rfl, rfl⟩ := h
  exact depositShares_act hsender (noneDue_iff.1 hdue) (validateAndPreviewShares_priced hprev) hdep

theorem mint_act {sender receiver : Address} {assets shares : Nat} (hsender : sender ≠ d.self)
    (h : mint d env s sender shares receiver = .ok (t, assets)) : Act d a s t := by
  simp only [mint, requireNoMaturityBacklog, bind_ok_iff, require_ok_iff, pure_ok_iff, Prod.mk.injEq] at h
  obtain ⟨_, -, _, -, _, -, _, hdue, _, hprev, _, -, _, hdep, rfl, rfl⟩ := h
  exact depositShares_act hsender (noneDue_iff.1 hdue) (previewMint_priced hprev) hdep

theorem requestRedeem_act {controller owner : Address} {shares id : Nat}
    (h : requestRedeem d s a.sender shares controller owner = .ok (t, id)) : Act d a s t := by
  simp only [requestRedeem, bind_ok_iff, require_ok_iff, checkedAdd_ok_iff, pure_ok_iff, Prod.mk.injEq] at h
  obtain ⟨_, -, _, hmin, _, hcontroller, _, -, _, hauth, bil, hbil, _, ⟨-, rfl⟩, _, ⟨hq, rfl⟩, rfl, -⟩ := h
  exact .request controller owner shares bil hcontroller hmin hauth hbil hq

/-- A refund leaves the request with its settled shares, also when there is nothing to refund. -/
theorem refundUnsettled_ok {i : Nat} (hle : (s.redemptionQueue i).bilSettled ≤ (s.redemptionQueue i).bilAmount)
    (h : refundUnsettled d s i ((s.redemptionQueue i).bilAmount - (s.redemptionQueue i).bilSettled) = .ok t) :
    ∃ bil, (bil = s.bil ∧ (s.redemptionQueue i).bilSettled = (s.redemptionQueue i).bilAmount ∨
        (s.bil.transfer d.self (s.redemptionQueue i).user
          ((s.redemptionQueue i).bilAmount - (s.redemptionQueue i).bilSettled) : Tx ERC20) = .ok bil) ∧
      t = { s with
        bil
        totalQueuedBil := s.totalQueuedBil - ((s.redemptionQueue i).bilAmount - (s.redemptionQueue i).bilSettled)
        redemptionQueue := Function.update s.redemptionQueue i
          { s.redemptionQueue i with bilAmount := (s.redemptionQueue i).bilSettled } } := by
  unfold refundUnsettled at h
  split at h
  · simp only [bind_ok_iff, checkedSub_ok_iff, pure_ok_iff] at h
    obtain ⟨_, ⟨-, rfl⟩, bil, hbil, rfl⟩ := h
    exact ⟨bil, .inr hbil, rfl⟩
  · cases h
    have heq : (s.redemptionQueue i).bilSettled = (s.redemptionQueue i).bilAmount := by omega
    refine ⟨s.bil, .inl ⟨rfl, heq⟩, ?_⟩
    rw [heq, Nat.sub_self, Nat.sub_zero, Function.update_eq_self]

theorem cancelRedeem_act {sender : Address} {i : Nat} (h : cancelRedeem d s sender i = .ok t) : Act d a s t := by
  simp only [cancelRedeem, bind_ok_iff, require_ok_iff, checkedSub_ok_iff, pure_ok_iff] at h
  obtain ⟨_, hi, _, hu, _, -, _, ⟨hle, rfl⟩, s₁, hrefund, rfl⟩ := h
  obtain ⟨bil, hbil, rfl⟩ := refundUnsettled_ok hle hrefund
  unfold deleteUnsettled
  simp only [Function.update_self, Function.update_idem]
  by_cases h0 : (s.redemptionQueue i).bilSettled = 0
  · rw [if_pos h0]
    by_cases hih : i = s.queueHead
    · have := Act.cancel (a := a) i maxQueueIterations bil hi hu hle hbil
      simpa only [Redemptions.cancelled, if_pos h0, if_pos hih] using this
    · have := Act.cancel (a := a) i 0 bil hi hu hle hbil
      simpa only [Redemptions.cancelled, if_pos h0, if_neg hih, advanceQueueHead] using this
  · rw [if_neg h0]
    have := Act.cancel (a := a) i 0 bil hi hu hle hbil
    simpa only [Redemptions.cancelled, if_neg h0, advanceQueueHead] using this

/-- Both claims end in the payment of what their walk drew. -/
theorem payClaim_act {u : ClaimUnit} {c receiver : Address} {amount : Nat} {r : ClaimRun}
    (hwalk : claimWalk u s.toQueueStore c amount = .ok r)
    (hassets : u = .assets → ∃ env, a = .call a.sender env (.withdraw amount receiver c))
    (h : payClaim d s (r.store s.toQueueStore c) r.shares r.assets receiver = .ok t) : Act d a s t := by
  simp only [payClaim, bind_ok_iff, checkedSub_ok_iff, pure_ok_iff] at h
  obtain ⟨bil, hbil, _, ⟨hq, rfl⟩, _, ⟨hs, rfl⟩, _, ⟨hr, rfl⟩, token, htoken, rfl⟩ := h
  exact .claim u c receiver amount r bil token hwalk hassets hq hs hr hbil htoken

theorem redeem_act {receiver c : Address} {shares assets : Nat}
    (h : redeem d s a.sender shares receiver c = .ok (t, assets)) : Act d a s t := by
  simp only [redeem, claimByShares, bind_ok_iff, require_ok_iff, pure_ok_iff, Prod.exists, Prod.mk.injEq] at h
  obtain ⟨_, -, _, -, _, -, _, -, _, _, ⟨r, hwalk, rfl, rfl⟩, _, hpay, rfl, rfl⟩ := h
  have hclaimed : r.shares = shares := (claimWalk_draws hwalk).2
  rw [← hclaimed] at hpay
  exact payClaim_act hwalk (fun hu => absurd hu (by decide)) hpay

theorem withdraw_act {sender receiver c : Address} {assets shares : Nat}
    (h : withdraw d s sender assets receiver c = .ok (t, shares)) :
    Act d (.call sender env (.withdraw assets receiver c)) s t := by
  simp only [withdraw, claimByAssets, bind_ok_iff, require_ok_iff, pure_ok_iff, Prod.exists, Prod.mk.injEq] at h
  obtain ⟨_, -, _, -, _, -, _, -, _, _, _, ⟨r, hwalk, rfl, rfl, rfl⟩, _, hpay, rfl, rfl⟩ := h
  exact payClaim_act hwalk (fun _ => ⟨env, rfl⟩) hpay

/-- A change of the configuration alone. -/
theorem configured_act {c : Call} (h : Configured sender s c t) : Act d (.call sender env c) s t := by
  obtain ⟨g, f, p, -, -, hmin, hoperators⟩ := h
  exact .configure g f p hmin hoperators

end Others

/-! ## Every step -/

section Steps

variable {d : Deployment} {s t : State}

/-- How many positions a call syncs at most, for the calls that sync. -/
def Call.syncLimit : Call → Option Nat
  | .pokeDecentral _ => some maxMaturitySync
  | .pokeQueue => some maxMaturitySync
  | .syncMaturities maxPositions => some maxPositions
  | _ => none

/-- One call of the vault is a sync and a sequence of moves that cap nothing, or one act that
credits no payout. -/
theorem call_works {env : Replies} {sender : Address} {c : Call} {ps : List Payout} (hsender : sender ≠ d.self)
    (h : c.run d env s sender = .ok (t, ps)) :
    (Act d (.call sender env c) s t ∧ ps = []) ∨
      ∃ n s₁ k, c.syncLimit = some n ∧ syncMaturities s n = .ok (s₁, k) ∧ Works d s₁ ps t := by
  by_cases hc : c.Configures
  · obtain ⟨hconfigured, rfl⟩ := Configured.of_run hc h
    exact .inl ⟨configured_act hconfigured, rfl⟩
  cases c with
  | deposit assets receiver =>
    simp only [Call.run, bind_ok_iff, Prod.exists, pure_ok_iff, Prod.mk.injEq] at h
    obtain ⟨_, _, h, rfl, rfl⟩ := h
    exact .inl ⟨deposit_act hsender h, rfl⟩
  | mint shares receiver =>
    simp only [Call.run, bind_ok_iff, Prod.exists, pure_ok_iff, Prod.mk.injEq] at h
    obtain ⟨_, _, h, rfl, rfl⟩ := h
    exact .inl ⟨mint_act hsender h, rfl⟩
  | requestRedeem shares controller owner =>
    simp only [Call.run, bind_ok_iff, Prod.exists, pure_ok_iff, Prod.mk.injEq] at h
    obtain ⟨_, _, h, rfl, rfl⟩ := h
    exact .inl ⟨requestRedeem_act (a := .call sender env _) h, rfl⟩
  | cancelRedeem requestId =>
    simp only [Call.run, bind_ok_iff, pure_ok_iff, Prod.mk.injEq] at h
    obtain ⟨_, h, rfl, rfl⟩ := h
    exact .inl ⟨cancelRedeem_act h, rfl⟩
  | redeem shares receiver controller =>
    simp only [Call.run, bind_ok_iff, Prod.exists, pure_ok_iff, Prod.mk.injEq] at h
    obtain ⟨_, _, h, rfl, rfl⟩ := h
    exact .inl ⟨redeem_act (a := .call sender env _) h, rfl⟩
  | withdraw assets receiver controller =>
    simp only [Call.run, bind_ok_iff, Prod.exists, pure_ok_iff, Prod.mk.injEq] at h
    obtain ⟨_, _, h, rfl, rfl⟩ := h
    exact .inl ⟨withdraw_act h, rfl⟩
  | pokeDecentral positionIndex =>
    obtain ⟨s₁, k, hsync, hworks⟩ := pokeDecentral_works h
    exact .inr ⟨_, s₁, k, rfl, hsync, hworks⟩
  | pokeQueue =>
    simp only [Call.run, bind_ok_iff, pure_ok_iff, Prod.mk.injEq] at h
    obtain ⟨_, h, rfl, rfl⟩ := h
    obtain ⟨s₁, k, hsync, hworks⟩ := pokeQueue_works h
    exact .inr ⟨_, s₁, k, rfl, hsync, hworks⟩
  | syncMaturities maxPositions =>
    simp only [Call.run, bind_ok_iff, Prod.exists, pure_ok_iff, Prod.mk.injEq] at h
    obtain ⟨_, k, h, rfl, rfl⟩ := h
    exact .inr ⟨maxPositions, _, k, rfl, h, .refl _⟩
  | share c =>
    simp only [Call.run, bind_ok_iff, pure_ok_iff, Prod.mk.injEq] at h
    obtain ⟨bil, h, rfl, rfl⟩ := h
    exact .inl ⟨.share c bil h, rfl⟩
  | _ => exact absurd trivial hc

/-- The same of the actions that are calls. -/
def Action.syncLimit : Action → Option Nat
  | .call _ _ c => c.syncLimit
  | _ => none

/-- One step of a run is a sync and a sequence of moves that cap nothing, or one act that credits no
payout. -/
theorem step_works {a : Action} {ps : List Payout} (hlegal : Legal d s a) (h : step d s a = .ok (t, ps)) :
    (Act d a s t ∧ ps = []) ∨ ∃ n s₁ k, a.syncLimit = some n ∧ syncMaturities s n = .ok (s₁, k) ∧ Works d s₁ ps t := by
  cases a with
  | tick now =>
    cases h
    exact .inl ⟨.tick now hlegal, rfl⟩
  | call sender env c => exact call_works hlegal h
  | hollar sender c =>
    simp only [step, bind_ok_iff, pure_ok_iff, Prod.mk.injEq] at h
    obtain ⟨token, h, rfl, rfl⟩ := h
    exact .inl ⟨.ledger token (.of_call hlegal.1 hlegal.2 h), rfl⟩
  | hollarMint account amount =>
    simp only [step, bind_ok_iff, pure_ok_iff, Prod.mk.injEq] at h
    obtain ⟨token, h, rfl, rfl⟩ := h
    refine .inl ⟨.ledger token fun hp => ⟨⟨hp.conserved.mint h, ?_⟩, ?_⟩, rfl⟩
    · obtain ⟨-, hsup, rfl⟩ := ERC20.mint_ok_iff.1 h
      exact hsup
    · obtain ⟨-, -, rfl⟩ := ERC20.mint_ok_iff.1 h
      simp only [ERC20.setBalance_balanceOf, Function.update_apply]
      split_ifs with hself
      · rw [hself]; omega
      · exact Nat.le_add_right _ _
  | hollarBurn account amount =>
    simp only [step, bind_ok_iff, pure_ok_iff, Prod.mk.injEq] at h
    obtain ⟨token, h, rfl, rfl⟩ := h
    refine .inl ⟨.ledger token fun hp => ⟨⟨hp.conserved.burn h, ?_⟩, ?_⟩, rfl⟩
    · obtain ⟨-, -, rfl⟩ := ERC20.burn_ok_iff.1 h
      exact lt_of_le_of_lt (Nat.sub_le _ _) hp.supply
    · obtain ⟨-, -, rfl⟩ := ERC20.burn_ok_iff.1 h
      simp only [ERC20.setBalance_balanceOf, Function.update_of_ne hlegal.symm]
      exact Nat.le_add_right _ _

/-- One step of a run is a sequence of pokes, or one act that credits no payout. -/
theorem step_moves {a : Action} {ps : List Payout} (hlegal : Legal d s a) (h : step d s a = .ok (t, ps)) :
    (Act d a s t ∧ ps = []) ∨ Pokes d s ps t := by
  rcases step_works hlegal h with hact | ⟨n, s₁, k, -, hsync, hworks⟩
  · exact .inl hact
  · exact .inr ((syncMaturities_pokes hsync).1.trans hworks.pokes)

theorem Legal.sender_ne {a : Action} (h : Legal d s a) : a.sender ≠ d.self := by
  cases a with
  | call sender env c => exact h
  | tick _ => exact d.self_ne_zero.symm
  | hollar _ _ => exact d.self_ne_zero.symm
  | hollarMint _ _ => exact d.self_ne_zero.symm
  | hollarBurn _ _ => exact d.self_ne_zero.symm

end Steps

end MoneyMarket
