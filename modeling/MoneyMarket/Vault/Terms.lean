/-
What the calls do to the terms of a position: the token of its pool, the principal, its times and
the state of its lifecycle. A sync locks yields and leaves the terms; a deposit, a mint or a
reinvest adds one position, under the token its pool answered; only a poke of a position moves a
state (`call_terms`).
-/
import MoneyMarket.Vault.Outlay

namespace MoneyMarket

open Evm Relation

/-- What of a position no sync touches. -/
structure Terms where
  tokenId : Nat
  principal : Nat
  depositTime : Nat
  maturityTime : Nat
  state : NFTState
  deriving Repr, DecidableEq

def NFTPosition.toTerms (pos : NFTPosition) : Terms :=
  ⟨pos.tokenId, pos.principal, pos.depositTime, pos.maturityTime, pos.state⟩

def Book.terms (b : Book) : List Terms := b.positions.map NFTPosition.toTerms

/-- The terms and the pools of all positions stay. -/
structure KeepsTerms (s t : State) : Prop where
  terms : t.toBook.terms = s.toBook.terms
  pools : t.positionPool = s.positionPool

/-- One position of `amount` is added in the active pool, under the token that pool answered. -/
structure Opens (env : Replies) (s t : State) (tokenId amount period : Nat) : Prop where
  terms : t.toBook.terms = s.toBook.terms ++ [⟨tokenId, amount, s.now, s.now + period, .active⟩]
  pools : t.positionPool = Function.update s.positionPool s.positions.length s.activeDepositPool
  reply : ∃ pulled, (env.pool s.activeDepositPool).deposit = some (tokenId, pulled)

/-- A call that is not a poke keeps all terms, or opens one position. -/
def TermsGrow (env : Replies) (s t : State) : Prop :=
  KeepsTerms s t ∨ ∃ tokenId amount period, Opens env s t tokenId amount period

section Terms

variable {d : Deployment} {env : Replies} {s t u : State}

theorem KeepsTerms.refl (s : State) : KeepsTerms s s := ⟨rfl, rfl⟩

theorem KeepsTerms.of_book (h : t.toBook = s.toBook) : KeepsTerms s t := ⟨by rw [h], by rw [h]⟩

theorem KeepsTerms.trans (h : KeepsTerms s t) (h' : KeepsTerms t u) : KeepsTerms s u :=
  ⟨h'.terms.trans h.terms, h'.pools.trans h.pools⟩

theorem KeepsTerms.length_eq (h : KeepsTerms s t) : t.positions.length = s.positions.length := by
  simpa [Book.terms] using congrArg List.length h.terms

/-- The position of the same index has the same terms. -/
theorem KeepsTerms.get {i : Nat} {pos : NFTPosition} (h : KeepsTerms s t) (hi : t.positions[i]? = some pos) :
    ∃ old, s.positions[i]? = some old ∧ pos.toTerms = old.toTerms := by
  have hget : t.toBook.terms[i]? = some pos.toTerms := by
    rw [Book.terms, List.getElem?_map, hi]
    rfl
  rw [h.terms, Book.terms, List.getElem?_map] at hget
  obtain ⟨old, hold, heq⟩ := Option.map_eq_some_iff.1 hget
  exact ⟨old, hold, heq.symm⟩

/-- A position of the state after an opening is an old one, or the one opened. -/
theorem Opens.get {tokenId amount period i : Nat} {pos : NFTPosition} (h : Opens env s t tokenId amount period)
    (hi : t.positions[i]? = some pos) :
    (∃ old, s.positions[i]? = some old ∧ pos.toTerms = old.toTerms ∧ t.positionPool i = s.positionPool i) ∨
      (i = s.positions.length ∧ pos.toTerms = ⟨tokenId, amount, s.now, s.now + period, .active⟩ ∧
        t.positionPool i = s.activeDepositPool) := by
  have hget : t.toBook.terms[i]? = some pos.toTerms := by
    rw [Book.terms, List.getElem?_map, hi]
    rfl
  rw [h.terms] at hget
  have hlen : s.toBook.terms.length = s.positions.length := List.length_map ..
  rcases Nat.lt_or_ge i s.positions.length with hlt | hge
  · rw [List.getElem?_append_left (by rw [hlen]; exact hlt), Book.terms, List.getElem?_map] at hget
    obtain ⟨old, hold, heq⟩ := Option.map_eq_some_iff.1 hget
    exact .inl ⟨old, hold, heq.symm, by rw [h.pools, Function.update_of_ne hlt.ne]⟩
  · rw [List.getElem?_append_right (by rw [hlen]; exact hge), hlen, List.getElem?_singleton] at hget
    split_ifs at hget with hzero
    obtain rfl : i = s.positions.length := by omega
    exact .inr ⟨rfl, (Option.some.inj hget).symm, by rw [h.pools, Function.update_self]⟩

/-! ## The sync and the sweep -/

theorem caps_terms {now : Nat} {b b' : Book} (h : ReflTransGen (Cap now) b b') : b'.terms = b.terms := by
  induction h with
  | refl => rfl
  | tail _ hc ih =>
    cases hc with
    | cap entry pos _ _ hpos _ =>
      rw [← ih]
      obtain ⟨hlt, rfl⟩ := List.getElem?_eq_some_iff.1 hpos
      simp only [Book.terms, Book.capped, List.map_set]
      -- locking a yield writes back the terms that were there
      exact Eq.trans (by rw [List.getElem_map]; rfl) (List.set_getElem_self (by rwa [List.length_map]))

/-- A sync caps positions of the book. -/
theorem syncMaturities_caps {n k : Nat} (h : syncMaturities s n = .ok (t, k)) :
    ∃ b, t = { s with toBook := b } ∧ ReflTransGen (Cap s.now) s.toBook b := by
  simp only [syncMaturities, bind_ok_iff, checkedAdd_ok_iff, pure_ok_iff, Prod.mk.injEq] at h
  obtain ⟨r, hr, _, ⟨-, rfl⟩, rfl, -⟩ := h
  exact ⟨r.onto s.toBook, rfl, processMaturities_caps (b := s.toBook) hr⟩

theorem syncMaturities_keepsTerms {n k : Nat} (h : syncMaturities s n = .ok (t, k)) : KeepsTerms s t := by
  obtain ⟨b, rfl, hcaps⟩ := syncMaturities_caps h
  exact ⟨caps_terms hcaps, (caps_frame hcaps).1⟩

/-- Processing the queue leaves the book and the HOLLAR. -/
theorem processQueueWithHollar_frame {available rate used locked : Nat}
    (h : processQueueWithHollar s available rate = .ok (t, used, locked)) :
    t.toBook = s.toBook ∧ t.token = s.token ∧ t.now = s.now := by
  simp only [processQueueWithHollar, bind_ok_iff, pure_ok_iff, Prod.mk.injEq] at h
  obtain ⟨r, -, _, -, _, -, _, -, rfl, -, -⟩ := h
  exact ⟨rfl, rfl, rfl⟩

theorem distribute_frame (h : distribute s = .ok t) : t.toBook = s.toBook ∧ t.token = s.token ∧ t.now = s.now := by
  unfold distribute at h
  split at h
  · simp only [bind_ok_iff, pure_ok_iff, Prod.exists] at h
    obtain ⟨rate, -, t', used, locked, hq, rfl⟩ := h
    exact processQueueWithHollar_frame hq
  · cases h
    exact ⟨rfl, rfl, rfl⟩

/-! ## Opening -/

/-- Forwarding HOLLAR opens a position under the token the pool answered, or leaves the terms. -/
theorem depositIntoDecentral_terms {amount : Nat} {ok : Bool} (h : depositIntoDecentral d env s amount = .ok (t, ok)) :
    (ok = false ∧ KeepsTerms s t) ∨ (ok = true ∧ ∃ tokenId period, Opens env s t tokenId amount period) := by
  simp only [depositIntoDecentral, bind_ok_iff, returned_ok_iff] at h
  obtain ⟨apyWad, -, _, -, _, -, h⟩ := h
  split at h
  · cases h
    exact .inl ⟨rfl, .of_book rfl⟩
  · rename_i tokenId token hdep
    simp only [bind_ok_iff, returned_ok_iff, pure_ok_iff, Prod.mk.injEq] at h
    obtain ⟨period, -, book, hbook, rfl, rfl⟩ := h
    obtain ⟨-, rfl⟩ := recordPosition_ok_iff.1 hbook
    refine .inr ⟨rfl, tokenId, period, ?_, rfl, ?_⟩
    · simp [Book.terms, Book.opened, NFTPosition.toTerms]
    · unfold poolDeposit at hdep
      split at hdep
      · cases hdep
      · rename_i pulled hreply
        split at hdep
        · cases hdep
          exact ⟨_, hreply⟩
        · cases hdep

theorem depositShares_terms {sender receiver : Address} {assets shares : Nat}
    (h : depositShares d env s sender receiver assets shares = .ok t) : TermsGrow env s t := by
  simp only [depositShares, bind_ok_iff, Prod.exists, require_ok_iff, pure_ok_iff] at h
  obtain ⟨bil₀, -, bil, -, token, -, s₁, ok, hdep, _, rfl, rfl⟩ := h
  rcases depositIntoDecentral_terms hdep with ⟨hok, -⟩ | ⟨-, tokenId, period, hopen⟩
  · exact absurd hok (by decide)
  · exact .inr ⟨tokenId, assets, period, hopen.terms, hopen.pools, hopen.reply⟩

/-- Keeping the terms and then opening is opening, where the time and the active pool stay. -/
theorem Opens.after {tokenId amount period : Nat} (hs : KeepsTerms s t) (hnow : t.now = s.now)
    (hpool : t.activeDepositPool = s.activeDepositPool) (h : Opens env t u tokenId amount period) :
    Opens env s u tokenId amount period := by
  refine ⟨?_, ?_, ?_⟩
  · rw [h.terms, hs.terms, hnow]
  · rw [h.pools, hs.pools, hs.length_eq, hpool]
  · rw [← hpool]
    exact h.reply

theorem reinvest_terms (h : MoneyMarket.reinvest d env s = .ok t) : TermsGrow env s t := by
  unfold MoneyMarket.reinvest at h
  split at h
  · cases h
    exact .inl (.refl s)
  · simp only [bind_ok_iff] at h
    obtain ⟨amount, -, h⟩ := h
    split at h
    · cases h
      exact .inl (.refl s)
    · simp only [bind_ok_iff, Prod.exists] at h
      obtain ⟨s₁, ok, hdep, h⟩ := h
      rcases depositIntoDecentral_terms hdep with ⟨rfl, hs⟩ | ⟨rfl, tokenId, period, hopen⟩
      · cases h
        exact .inl hs
      · rw [if_pos rfl] at h
        simp only [bind_ok_iff, checkedSub_ok_iff, pure_ok_iff] at h
        obtain ⟨_, -, rfl⟩ := h
        exact .inr ⟨tokenId, amount, period, hopen.terms, hopen.pools, hopen.reply⟩

theorem pokeQueue_terms (h : pokeQueue d env s = .ok t) : TermsGrow env s t := by
  simp only [pokeQueue, syncBeforeRateSensitiveAction, bind_ok_iff, Prod.exists, pure_ok_iff] at h
  obtain ⟨_, -, s₁, ⟨s₁', k, hsync, _, -, rfl⟩, rate, -, s₂, used, locked, hq, h⟩ := h
  obtain ⟨hbook, -, hnow⟩ := processQueueWithHollar_frame hq
  have hstill := (syncMaturities_still (d := d) hsync).trans (processQueueWithHollar_still hq)
  have hsame : KeepsTerms s (sweepPositionHead s₂) :=
    (syncMaturities_keepsTerms hsync).trans ((KeepsTerms.of_book hbook).trans ⟨rfl, rfl⟩)
  split at h
  · rcases reinvest_terms h with hs | ⟨tokenId, amount, period, hopen⟩
    · exact .inl (hsame.trans hs)
    · refine .inr ⟨tokenId, amount, period, hopen.after hsame ?_ ?_⟩
      · exact hnow.trans (by rw [(syncMaturities_pokes (d := d) hsync).2])
      · exact congrArg Registry.activeDepositPool hstill.registry
  · cases h
    exact .inl hsame

/-! ## Every call -/

/-- Only a poke of a position touches the terms of what is there. -/
theorem call_terms {sender : Address} {c : Call} {ps : List Payout} (hc : ∀ i, c ≠ .pokeDecentral i)
    (h : c.run d env s sender = .ok (t, ps)) : TermsGrow env s t := by
  by_cases hconf : c.Configures
  · obtain ⟨⟨g, f, p, -, -, -, -⟩, -⟩ := Configured.of_run hconf h
    exact .inl (.of_book rfl)
  cases c with
  | deposit assets receiver =>
    simp only [Call.run, bind_ok_iff, Prod.exists, pure_ok_iff, Prod.mk.injEq] at h
    obtain ⟨_, _, h, rfl, -⟩ := h
    exact depositShares_terms (deposit_outlay h).2
  | mint shares receiver =>
    simp only [Call.run, bind_ok_iff, Prod.exists, pure_ok_iff, Prod.mk.injEq] at h
    obtain ⟨_, _, h, rfl, -⟩ := h
    exact depositShares_terms (mint_outlay h).2
  | pokeDecentral positionIndex => exact absurd rfl (hc positionIndex)
  | pokeQueue =>
    simp only [Call.run, bind_ok_iff, pure_ok_iff, Prod.mk.injEq] at h
    obtain ⟨_, h, rfl, -⟩ := h
    exact pokeQueue_terms h
  | syncMaturities maxPositions =>
    simp only [Call.run, bind_ok_iff, Prod.exists, pure_ok_iff, Prod.mk.injEq] at h
    obtain ⟨_, _, h, rfl, -⟩ := h
    exact .inl (syncMaturities_keepsTerms h)
  | requestRedeem shares controller owner =>
    simp only [Call.run, requestRedeem, bind_ok_iff, Prod.exists, pure_ok_iff, Prod.mk.injEq] at h
    obtain ⟨_, _, ⟨_, -, _, -, _, -, _, -, _, -, _, -, _, -, _, -, rfl, -⟩, rfl, -⟩ := h
    exact .inl (.of_book rfl)
  | cancelRedeem requestId =>
    simp only [Call.run, cancelRedeem, bind_ok_iff, pure_ok_iff, Prod.mk.injEq] at h
    obtain ⟨_, ⟨_, -, _, -, _, -, _, -, s₁, hrefund, rfl⟩, rfl, -⟩ := h
    refine .inl (.of_book (Eq.trans ?_ (refundUnsettled_rest hrefund).2.2))
    unfold deleteUnsettled
    split <;> rfl
  | redeem shares receiver controller =>
    simp only [Call.run, redeem, payClaim, bind_ok_iff, Prod.exists, pure_ok_iff, Prod.mk.injEq] at h
    obtain ⟨_, _, ⟨_, -, _, -, _, -, _, -, _, _, -, _, ⟨_, -, _, -, _, -, _, -, _, -, rfl⟩, rfl, -⟩, rfl, -⟩ := h
    exact .inl (.of_book rfl)
  | withdraw assets receiver controller =>
    simp only [Call.run, withdraw, payClaim, bind_ok_iff, Prod.exists, pure_ok_iff, Prod.mk.injEq] at h
    obtain ⟨_, _, ⟨_, -, _, -, _, -, _, -, _, _, _, -, _, ⟨_, -, _, -, _, -, _, -, _, -, rfl⟩, rfl, -⟩, rfl, -⟩ := h
    exact .inl (.of_book rfl)
  | share c =>
    simp only [Call.run, bind_ok_iff, pure_ok_iff, Prod.mk.injEq] at h
    obtain ⟨_, -, rfl, -⟩ := h
    exact .inl (.of_book rfl)
  | _ => exact absurd trivial hconf

end Terms

end MoneyMarket
