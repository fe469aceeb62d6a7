/-
The vault and its pools never disagree about a position. What a call of a pool writes of a token is
one function of the call (`PoolCall.run_slot`), so each stage of a poke keeps the token's record the
one that belongs to the position (`Pair.poke_slot`), and no other account can touch a token of the
vault. In every reachable world the pool of every position records exactly what the vault's state of
it says: an open position's token is the vault's, with its principal, and a request is pending there
exactly in the state that says so (`pools_agree`).
-/
import MoneyMarket.Pool.World

namespace MoneyMarket

open Evm Transition

/-! ## What a call writes -/

/-- What a call by `v` writes of token `t`, `next` being the first free id. -/
def PoolCall.writes (v : Visit) (next t : Nat) (x : Slot) : PoolCall → Slot
  | .deposit amount => if t = next then { x with owner := v.sender, principal := amount, depositTime := v.now } else x
  | .requestYieldWithdrawal tokenId => if t = tokenId then { x with yieldPending := true } else x
  | .executeYieldWithdrawal tokenId => if t = tokenId then { x with yieldPending := false } else x
  | .requestPrincipalWithdrawal tokenId =>
    if t = tokenId then { x with exitPending := true, exitAmount := x.principal } else x
  | .executePrincipalWithdrawal tokenId =>
    if t = tokenId then { Slot.empty with yieldPending := x.yieldPending } else x
  | _ => x

/-- The token whose owner alone can make the call. -/
def PoolCall.owned : PoolCall → Option Nat
  | .requestYieldWithdrawal tokenId | .executeYieldWithdrawal tokenId
  | .requestPrincipalWithdrawal tokenId | .executePrincipalWithdrawal tokenId => some tokenId
  | _ => none

def PoolCall.mints : PoolCall → Bool
  | .deposit _ => true
  | _ => false

namespace DecentralPool

variable {p q : DecentralPool} {nft nft' : PoolToken} {self sender : Address} {now tokenId amount paid : Nat}

/-- Accrual touches the reward accounting alone. -/
theorem updateRewardAccrual_ok (h : p.updateRewardAccrual now = .ok q) :
    ∃ cumulativeRewardPerShare lastUpdateTime, q = { p with cumulativeRewardPerShare, lastUpdateTime } := by
  unfold updateRewardAccrual at h
  split at h
  · cases h
    exact ⟨_, _, rfl⟩
  · simp only [bind_ok_iff] at h
    obtain ⟨elapsed, -, h⟩ := h
    split at h
    · cases h
      exact ⟨_, _, rfl⟩
    · simp only [bind_ok_iff] at h
      obtain ⟨rate, -, gross, -, h⟩ := h
      split at h
      · simp only [bind_ok_iff, pure_ok_iff] at h
        obtain ⟨_, -, _, -, rfl⟩ := h
        exact ⟨_, _, rfl⟩
      · cases h
        exact ⟨_, _, rfl⟩

theorem onlyTokenOwner_ok_iff : onlyTokenOwner nft sender tokenId = .ok () ↔
    nft.owner tokenId ≠ 0 ∧ nft.owner tokenId = sender := by
  simp only [onlyTokenOwner, PoolToken.ownerOf, bind_ok_iff, require_ok_iff, pure_ok_iff]
  constructor
  · rintro ⟨_, ⟨_, hne, rfl⟩, hsender⟩
    exact ⟨hne, hsender⟩
  · rintro ⟨hne, hsender⟩
    exact ⟨_, ⟨(), hne, rfl⟩, hsender⟩

theorem requestYieldWithdrawal_ok (h : p.requestYieldWithdrawal nft sender now tokenId = .ok q) :
    (nft.owner tokenId ≠ 0 ∧ nft.owner tokenId = sender) ∧
      ∃ cumulativeRewardPerShare lastUpdateTime amount, q = { p with
        cumulativeRewardPerShare, lastUpdateTime
        yieldWithdrawalRequests := Function.update p.yieldWithdrawalRequests tokenId ⟨amount, now, true, false⟩ } := by
  simp only [requestYieldWithdrawal, bind_ok_iff, pure_ok_iff] at h
  obtain ⟨_, -, _, -, _, -, _, howner, _, -, _, -, _, -, r, haccrual, _, -, _, -, _, -, rfl⟩ := h
  obtain ⟨c, l, rfl⟩ := updateRewardAccrual_ok haccrual
  exact ⟨onlyTokenOwner_ok_iff.1 howner, c, l, _, rfl⟩

theorem executeYieldWithdrawal_ok (h : p.executeYieldWithdrawal nft self sender now tokenId = .ok (q, paid)) :
    (nft.owner tokenId ≠ 0 ∧ nft.owner tokenId = sender) ∧ (p.yieldWithdrawalRequests tokenId).approved = true ∧
      applyDelta (p.yieldDeltaWei tokenId) (p.yieldWithdrawalRequests tokenId).amount = .ok paid ∧
      ∃ cumulativeRewardPerShare lastUpdateTime rewardDebt, q = { p with
        cumulativeRewardPerShare, lastUpdateTime
        mockPositions := Function.update p.mockPositions tokenId
          { p.mockPositions tokenId with rewardDebt, lastYieldPayoutTime := now }
        yieldWithdrawalRequests := Function.update p.yieldWithdrawalRequests tokenId .empty } := by
  simp only [executeYieldWithdrawal, bind_ok_iff, pure_ok_iff, require_ok_iff, Prod.mk.injEq] at h
  obtain ⟨_, -, _, -, _, howner, _, -, _, happroved, r, haccrual, _, -, _, -, _, -, _, hpaid, rfl, rfl⟩ := h
  obtain ⟨c, l, rfl⟩ := updateRewardAccrual_ok haccrual
  exact ⟨onlyTokenOwner_ok_iff.1 howner, happroved, hpaid, c, l, _, rfl⟩

theorem requestPrincipalWithdrawal_ok (h : p.requestPrincipalWithdrawal nft sender now tokenId = .ok q) :
    (nft.owner tokenId ≠ 0 ∧ nft.owner tokenId = sender) ∧
      ∃ cumulativeRewardPerShare lastUpdateTime availableTimestamp, q = { p with
        cumulativeRewardPerShare, lastUpdateTime
        principalWithdrawalRequests := Function.update p.principalWithdrawalRequests tokenId
          ⟨(p.mockPositions tokenId).principal, now, availableTimestamp, true, false⟩ } := by
  simp only [requestPrincipalWithdrawal, bind_ok_iff, pure_ok_iff] at h
  obtain ⟨_, -, _, -, _, -, _, howner, _, -, _, -, _, -, r, haccrual, _, -, rfl⟩ := h
  obtain ⟨c, l, rfl⟩ := updateRewardAccrual_ok haccrual
  exact ⟨onlyTokenOwner_ok_iff.1 howner, c, l, _, rfl⟩

theorem executePrincipalWithdrawal_ok
    (h : p.executePrincipalWithdrawal nft self sender now tokenId = .ok (q, nft', paid)) :
    (nft.owner tokenId ≠ 0 ∧ nft.owner tokenId = sender) ∧
      nft' = { nft with owner := Function.update nft.owner tokenId 0 } ∧
      ((p.principalWithdrawalRequests tokenId).approved = true ∧
        (p.principalWithdrawalRequests tokenId).availableTimestamp ≤ now) ∧
      applyDelta (p.payoutDeltaWei tokenId) (p.principalWithdrawalRequests tokenId).amount = .ok paid ∧
      ∃ cumulativeRewardPerShare lastUpdateTime totalPrincipalShares, q = { p with
        cumulativeRewardPerShare, lastUpdateTime, totalPrincipalShares
        principalWithdrawalRequests := Function.update p.principalWithdrawalRequests tokenId .empty
        mockPositions := Function.update p.mockPositions tokenId .empty } := by
  simp only [executePrincipalWithdrawal, PoolToken.burn, bind_ok_iff, pure_ok_iff, require_ok_iff, Prod.mk.injEq] at h
  obtain ⟨_, -, _, howner, _, -, _, happroved, _, havailable, r, haccrual, _, -, _, hpaid, _, ⟨_, -, _, -, rfl⟩,
    rfl, rfl, rfl⟩ := h
  obtain ⟨c, l, rfl⟩ := updateRewardAccrual_ok haccrual
  exact ⟨onlyTokenOwner_ok_iff.1 howner, rfl, ⟨happroved, havailable⟩, hpaid, c, l, _, rfl⟩

theorem deposit_ok (h : p.deposit nft self sender now amount = .ok (q, nft', tokenId)) :
    tokenId = nft.nextTokenId ∧ sender ≠ 0 ∧
      nft' = { nft with owner := Function.update nft.owner tokenId sender, nextTokenId := nft.nextTokenId + 1 } ∧
      ∃ cumulativeRewardPerShare lastUpdateTime totalPrincipalShares rewardDebt, q = { p with
        cumulativeRewardPerShare, lastUpdateTime, totalPrincipalShares
        mockPositions := Function.update p.mockPositions tokenId ⟨sender, amount, now, now, rewardDebt⟩ } := by
  simp only [deposit, PoolToken.mint, bind_ok_iff, require_ok_iff, checkedAdd_ok_iff, pure_ok_iff, Prod.exists,
    Prod.mk.injEq] at h
  obtain ⟨_, -, _, -, _, -, _, -, _, -, r, haccrual, _, -, _, -, _, _, ⟨_, -, _, ⟨-, rfl⟩, _, hsender, _, -, rfl, rfl⟩,
    rfl, rfl, rfl⟩ := h
  obtain ⟨c, l, rfl⟩ := updateRewardAccrual_ok haccrual
  exact ⟨rfl, hsender, rfl, c, l, _, _, rfl⟩

/-- Approvals leave what is asked for. -/
structure Approves (p q : DecentralPool) : Prop where
  positions : q.mockPositions = p.mockPositions
  yield : ∀ t, (q.yieldWithdrawalRequests t).pending = (p.yieldWithdrawalRequests t).pending
  exit : ∀ t, (q.principalWithdrawalRequests t).pending = (p.principalWithdrawalRequests t).pending
  amount : ∀ t, (q.principalWithdrawalRequests t).amount = (p.principalWithdrawalRequests t).amount
  token : q.poolToken = p.poolToken

theorem Approves.trans {r : DecentralPool} (h : Approves p q) (h' : Approves q r) : Approves p r where
  positions := h'.positions.trans h.positions
  yield t := (h'.yield t).trans (h.yield t)
  exit t := (h'.exit t).trans (h.exit t)
  amount t := (h'.amount t).trans (h.amount t)
  token := h'.token.trans h.token

/-- An entry rewritten with a field kept keeps the field everywhere. -/
theorem field_update {α β : Type} {f : Nat → α} {a : α} (field : α → β) (h : field a = field (f tokenId)) (t : Nat) :
    field (Function.update f tokenId a t) = field (f t) := by
  by_cases ht : t = tokenId
  · rw [ht, Function.update_self, h]
  · rw [Function.update_of_ne ht]

theorem Approves.of_yield : Approves p { p with
    yieldWithdrawalRequests := Function.update p.yieldWithdrawalRequests tokenId
      { p.yieldWithdrawalRequests tokenId with approved := true } } :=
  ⟨rfl, field_update YieldWithdrawalRequest.pending rfl, fun _ => rfl, fun _ => rfl, rfl⟩

theorem Approves.of_principal : Approves p { p with
    principalWithdrawalRequests := Function.update p.principalWithdrawalRequests tokenId
      { p.principalWithdrawalRequests tokenId with approved := true } } :=
  ⟨rfl, fun _ => rfl, field_update PrincipalWithdrawalRequest.pending rfl,
    field_update PrincipalWithdrawalRequest.amount rfl, rfl⟩

theorem batchApproveYieldWithdrawals_ok : ∀ {tokenIds : List Nat} {p q : DecentralPool},
    p.batchApproveYieldWithdrawals tokenIds = .ok q → Approves p q
  | [], p, q, h => by
    cases h
    exact ⟨rfl, fun _ => rfl, fun _ => rfl, fun _ => rfl, rfl⟩
  | tokenId :: tokenIds, p, q, h => by
    simp only [batchApproveYieldWithdrawals, bind_ok_iff, require_ok_iff] at h
    obtain ⟨_, -, h⟩ := h
    exact Approves.of_yield.trans (batchApproveYieldWithdrawals_ok h)

theorem batchApprovePrincipalWithdrawals_ok : ∀ {tokenIds : List Nat} {p q : DecentralPool},
    p.batchApprovePrincipalWithdrawals tokenIds = .ok q → Approves p q
  | [], p, q, h => by
    cases h
    exact ⟨rfl, fun _ => rfl, fun _ => rfl, fun _ => rfl, rfl⟩
  | tokenId :: tokenIds, p, q, h => by
    simp only [batchApprovePrincipalWithdrawals, bind_ok_iff, require_ok_iff] at h
    obtain ⟨_, -, h⟩ := h
    exact Approves.of_principal.trans (batchApprovePrincipalWithdrawals_ok h)

end DecentralPool

section Calls

variable {v : Visit} {s s' : Side} {c : PoolCall} {n : Nat}

theorem Side.slot_of_approves {q : DecentralPool} (h : DecentralPool.Approves s.pool q) (t : Nat) :
    Side.slot { s with pool := q } t = s.slot t := by
  simp only [Side.slot, h.positions, h.yield, h.exit, h.amount]

/-- What a call leaves of every token. -/
theorem PoolCall.run_slot (h : c.run v s = .ok (s', n)) (t : Nat) :
    s'.slot t = c.writes v s.nft.nextTokenId t (s.slot t) := by
  cases c with
  | deposit amount =>
    simp only [PoolCall.run, bind_ok_iff, pure_ok_iff, Prod.exists, Prod.mk.injEq] at h
    obtain ⟨q, nft, tokenId, hdeposit, token, -, rfl, -⟩ := h
    obtain ⟨rfl, -, rfl, c, l, p, r, rfl⟩ := DecentralPool.deposit_ok hdeposit
    by_cases ht : t = s.nft.nextTokenId <;> simp [Side.slot, PoolCall.writes, ht]
  | requestYieldWithdrawal tokenId =>
    simp only [PoolCall.run, bind_ok_iff, pure_ok_iff, Prod.mk.injEq] at h
    obtain ⟨q, hq, rfl, -⟩ := h
    obtain ⟨-, c, l, a, rfl⟩ := DecentralPool.requestYieldWithdrawal_ok hq
    by_cases ht : t = tokenId <;> simp [Side.slot, PoolCall.writes, ht]
  | executeYieldWithdrawal tokenId =>
    simp only [PoolCall.run, bind_ok_iff, pure_ok_iff, Prod.exists, Prod.mk.injEq] at h
    obtain ⟨q, paid, hq, token, -, rfl, -⟩ := h
    obtain ⟨-, -, -, c, l, r, rfl⟩ := DecentralPool.executeYieldWithdrawal_ok hq
    by_cases ht : t = tokenId <;> simp [Side.slot, PoolCall.writes, YieldWithdrawalRequest.empty, ht]
  | requestPrincipalWithdrawal tokenId =>
    simp only [PoolCall.run, bind_ok_iff, pure_ok_iff, Prod.mk.injEq] at h
    obtain ⟨q, hq, rfl, -⟩ := h
    obtain ⟨-, c, l, a, rfl⟩ := DecentralPool.requestPrincipalWithdrawal_ok hq
    by_cases ht : t = tokenId <;> simp [Side.slot, PoolCall.writes, ht]
  | executePrincipalWithdrawal tokenId =>
    simp only [PoolCall.run, bind_ok_iff, pure_ok_iff, Prod.exists, Prod.mk.injEq] at h
    obtain ⟨q, nft, paid, hq, token, -, rfl, -⟩ := h
    obtain ⟨-, rfl, -, -, c, l, p, rfl⟩ := DecentralPool.executePrincipalWithdrawal_ok hq
    by_cases ht : t = tokenId <;>
      simp [Side.slot, PoolCall.writes, PrincipalWithdrawalRequest.empty, MockPosition.empty, Slot.empty, ht]
  | approveYieldWithdrawal tokenId =>
    simp only [PoolCall.run, DecentralPool.approveYieldWithdrawal, bind_ok_iff, require_ok_iff, pure_ok_iff,
      Prod.mk.injEq] at h
    obtain ⟨q, ⟨_, -, _, -, rfl⟩, rfl, -⟩ := h
    exact Side.slot_of_approves .of_yield t
  | approvePrincipalWithdrawal tokenId =>
    simp only [PoolCall.run, DecentralPool.approvePrincipalWithdrawal, bind_ok_iff, require_ok_iff, pure_ok_iff,
      Prod.mk.injEq] at h
    obtain ⟨q, ⟨_, -, _, -, rfl⟩, rfl, -⟩ := h
    exact Side.slot_of_approves .of_principal t
  | batchApproveYieldWithdrawals tokenIds =>
    simp only [PoolCall.run, bind_ok_iff, pure_ok_iff, Prod.mk.injEq] at h
    obtain ⟨q, hq, rfl, -⟩ := h
    exact Side.slot_of_approves (DecentralPool.batchApproveYieldWithdrawals_ok hq) t
  | batchApprovePrincipalWithdrawals tokenIds =>
    simp only [PoolCall.run, bind_ok_iff, pure_ok_iff, Prod.mk.injEq] at h
    obtain ⟨q, hq, rfl, -⟩ := h
    exact Side.slot_of_approves (DecentralPool.batchApprovePrincipalWithdrawals_ok hq) t
  | fundPool amount =>
    simp only [PoolCall.run, bind_ok_iff, pure_ok_iff, Prod.mk.injEq] at h
    obtain ⟨token, -, rfl, -⟩ := h
    rfl
  | _ =>
    simp only [PoolCall.run, Except.ok.injEq, Prod.mk.injEq] at h
    obtain ⟨rfl, -⟩ := h
    rfl

/-- Only the owner of a token makes the calls about it. -/
theorem PoolCall.run_owned {t : Nat} (hc : c.owned = some t) (h : c.run v s = .ok (s', n)) :
    s.nft.owner t ≠ 0 ∧ s.nft.owner t = v.sender := by
  cases c with
  | requestYieldWithdrawal tokenId =>
    cases hc
    simp only [PoolCall.run, bind_ok_iff, pure_ok_iff, Prod.mk.injEq] at h
    obtain ⟨q, hq, -⟩ := h
    exact (DecentralPool.requestYieldWithdrawal_ok hq).1
  | executeYieldWithdrawal tokenId =>
    cases hc
    simp only [PoolCall.run, bind_ok_iff, pure_ok_iff, Prod.exists, Prod.mk.injEq] at h
    obtain ⟨q, paid, hq, -⟩ := h
    exact (DecentralPool.executeYieldWithdrawal_ok hq).1
  | requestPrincipalWithdrawal tokenId =>
    cases hc
    simp only [PoolCall.run, bind_ok_iff, pure_ok_iff, Prod.mk.injEq] at h
    obtain ⟨q, hq, -⟩ := h
    exact (DecentralPool.requestPrincipalWithdrawal_ok hq).1
  | executePrincipalWithdrawal tokenId =>
    cases hc
    simp only [PoolCall.run, bind_ok_iff, pure_ok_iff, Prod.exists, Prod.mk.injEq] at h
    obtain ⟨q, nft, paid, hq, -⟩ := h
    exact (DecentralPool.executePrincipalWithdrawal_ok hq).1
  | _ => cases hc

/-- The NFT contract of a pool is fixed, and only a deposit hands out an id. -/
theorem PoolCall.run_token (h : c.run v s = .ok (s', n)) : s'.pool.poolToken = s.pool.poolToken ∧
    s'.nft.nextTokenId = s.nft.nextTokenId + (if c.mints = true then 1 else 0) := by
  cases c with
  | deposit amount =>
    simp only [PoolCall.run, bind_ok_iff, pure_ok_iff, Prod.exists, Prod.mk.injEq] at h
    obtain ⟨q, nft, tokenId, hdeposit, token, -, rfl, -⟩ := h
    obtain ⟨-, -, rfl, c, l, p, r, rfl⟩ := DecentralPool.deposit_ok hdeposit
    exact ⟨rfl, rfl⟩
  | requestYieldWithdrawal tokenId =>
    simp only [PoolCall.run, bind_ok_iff, pure_ok_iff, Prod.mk.injEq] at h
    obtain ⟨q, hq, rfl, -⟩ := h
    obtain ⟨-, c, l, a, rfl⟩ := DecentralPool.requestYieldWithdrawal_ok hq
    exact ⟨rfl, rfl⟩
  | executeYieldWithdrawal tokenId =>
    simp only [PoolCall.run, bind_ok_iff, pure_ok_iff, Prod.exists, Prod.mk.injEq] at h
    obtain ⟨q, paid, hq, token, -, rfl, -⟩ := h
    obtain ⟨-, -, -, c, l, r, rfl⟩ := DecentralPool.executeYieldWithdrawal_ok hq
    exact ⟨rfl, rfl⟩
  | requestPrincipalWithdrawal tokenId =>
    simp only [PoolCall.run, bind_ok_iff, pure_ok_iff, Prod.mk.injEq] at h
    obtain ⟨q, hq, rfl, -⟩ := h
    obtain ⟨-, c, l, a, rfl⟩ := DecentralPool.requestPrincipalWithdrawal_ok hq
    exact ⟨rfl, rfl⟩
  | executePrincipalWithdrawal tokenId =>
    simp only [PoolCall.run, bind_ok_iff, pure_ok_iff, Prod.exists, Prod.mk.injEq] at h
    obtain ⟨q, nft, paid, hq, token, -, rfl, -⟩ := h
    obtain ⟨-, rfl, -, -, c, l, p, rfl⟩ := DecentralPool.executePrincipalWithdrawal_ok hq
    exact ⟨rfl, rfl⟩
  | approveYieldWithdrawal tokenId =>
    simp only [PoolCall.run, DecentralPool.approveYieldWithdrawal, bind_ok_iff, pure_ok_iff, Prod.mk.injEq] at h
    obtain ⟨q, ⟨_, -, _, -, rfl⟩, rfl, -⟩ := h
    exact ⟨rfl, rfl⟩
  | approvePrincipalWithdrawal tokenId =>
    simp only [PoolCall.run, DecentralPool.approvePrincipalWithdrawal, bind_ok_iff, pure_ok_iff, Prod.mk.injEq] at h
    obtain ⟨q, ⟨_, -, _, -, rfl⟩, rfl, -⟩ := h
    exact ⟨rfl, rfl⟩
  | batchApproveYieldWithdrawals tokenIds =>
    simp only [PoolCall.run, bind_ok_iff, pure_ok_iff, Prod.mk.injEq] at h
    obtain ⟨q, hq, rfl, -⟩ := h
    exact ⟨(DecentralPool.batchApproveYieldWithdrawals_ok hq).token, rfl⟩
  | batchApprovePrincipalWithdrawals tokenIds =>
    simp only [PoolCall.run, bind_ok_iff, pure_ok_iff, Prod.mk.injEq] at h
    obtain ⟨q, hq, rfl, -⟩ := h
    exact ⟨(DecentralPool.batchApprovePrincipalWithdrawals_ok hq).token, rfl⟩
  | fundPool amount =>
    simp only [PoolCall.run, bind_ok_iff, pure_ok_iff, Prod.mk.injEq] at h
    obtain ⟨token, -, rfl, -⟩ := h
    exact ⟨rfl, rfl⟩
  | _ =>
    simp only [PoolCall.run, Except.ok.injEq, Prod.mk.injEq] at h
    obtain ⟨rfl, -⟩ := h
    exact ⟨rfl, rfl⟩

/-- A call writes the token it is about and the one it mints, no other. -/
theorem PoolCall.writes_other {next t : Nat} {x : Slot} (hc : c.owned ≠ some t) (ht : c.mints = true → t ≠ next) :
    c.writes v next t x = x := by
  cases c with
  | deposit amount => exact if_neg (ht rfl)
  | requestYieldWithdrawal tokenId => exact if_neg fun h => hc (congrArg some h.symm)
  | executeYieldWithdrawal tokenId => exact if_neg fun h => hc (congrArg some h.symm)
  | requestPrincipalWithdrawal tokenId => exact if_neg fun h => hc (congrArg some h.symm)
  | executePrincipalWithdrawal tokenId => exact if_neg fun h => hc (congrArg some h.symm)
  | _ => rfl

/-- The record of a token minted before stays unless its owner calls. -/
theorem PoolCall.run_foreign {t : Nat} (ht : t < s.nft.nextTokenId) (howner : s.nft.owner t ≠ v.sender)
    (h : c.run v s = .ok (s', n)) : s'.slot t = s.slot t := by
  rw [PoolCall.run_slot h]
  exact PoolCall.writes_other (fun hc => howner (PoolCall.run_owned hc h).2) fun _ => ht.ne

/-- Of ids still to come nothing is recorded. -/
def Side.Blank (s : Side) : Prop := ∀ t, s.nft.nextTokenId ≤ t → s.slot t = .empty

theorem PoolCall.run_blank (hb : s.Blank) (h : c.run v s = .ok (s', n)) : s'.Blank := by
  intro t ht
  have hnext := (PoolCall.run_token h).2
  have hold := hb t (by omega)
  rw [PoolCall.run_slot h, ← hold]
  apply PoolCall.writes_other
  · -- nobody owns an id still to come
    intro hc
    exact (PoolCall.run_owned hc h).1 (congrArg Slot.owner hold)
  · intro hm
    rw [if_pos hm] at hnext
    omega

end Calls

/-! ## A poke keeps the agreement -/

/-- What the pool of a position records of its token. -/
def Terms.slot (vault : Address) (pos : Terms) : Slot :=
  if pos.state = .redeemed then .empty
  else
    { owner := vault
      principal := pos.principal
      depositTime := pos.depositTime
      yieldPending := decide (pos.state = .yieldWithdrawalRequested)
      exitPending := decide (pos.state = .principalWithdrawalRequested)
      exitAmount := if pos.state = .principalWithdrawalRequested then pos.principal else 0 }

/-- The token of a position is the vault's, or burned. -/
theorem Terms.slot_owner (vault : Address) (pos : Terms) :
    (pos.slot vault).owner = 0 ∨ (pos.slot vault).owner = vault := by
  unfold Terms.slot
  by_cases hstate : pos.state = .redeemed
  · rw [if_pos hstate]
    exact .inl rfl
  · rw [if_neg hstate]
    exact .inr rfl

/-- A withdrawal waits in the state that says so. -/
theorem Terms.slot_pending (vault : Address) (pos : Terms) :
    (pos.slot vault).yieldPending = decide (pos.state = .yieldWithdrawalRequested) ∧
      (pos.slot vault).exitPending = decide (pos.state = .principalWithdrawalRequested) := by
  unfold Terms.slot
  by_cases hstate : pos.state = .redeemed
  · rw [if_pos hstate, hstate]
    exact ⟨rfl, rfl⟩
  · rw [if_neg hstate]
    exact ⟨rfl, rfl⟩

/-- The pool records of the token what belongs to the position. -/
def Pair.Agrees (vault : Address) (x : Pair) : Prop := x.side.slot x.pos.tokenId = x.pos.toTerms.slot vault

/-- What a stage leaves: the token, its NFT contract, every other record, and the agreement. -/
structure Stage (vault : Address) (x y : Pair) : Prop where
  tokenId : y.pos.tokenId = x.pos.tokenId
  poolToken : y.side.pool.poolToken = x.side.pool.poolToken
  next : y.side.nft.nextTokenId = x.side.nft.nextTokenId
  others : ∀ t, t ≠ x.pos.tokenId → y.side.slot t = x.side.slot t
  blank : x.side.Blank → y.side.Blank
  agrees : x.Agrees vault → y.Agrees vault

section Stages

variable {vault : Address} {v : Visit} {gas : Bool} {x y z : Pair}

theorem Stage.refl (vault : Address) (x : Pair) : Stage vault x x := ⟨rfl, rfl, rfl, fun _ _ => rfl, id, id⟩

theorem Stage.trans (h : Stage vault x y) (h' : Stage vault y z) : Stage vault x z where
  tokenId := h'.tokenId.trans h.tokenId
  poolToken := h'.poolToken.trans h.poolToken
  next := h'.next.trans h.next
  others t ht := (h'.others t (by rw [h.tokenId]; exact ht)).trans (h.others t ht)
  blank := h'.blank ∘ h.blank
  agrees := h'.agrees ∘ h.agrees

/-- A stage that asks keeps the agreement if the call writes what the new state says. -/
theorem Pair.ask_stage {c : Nat → PoolCall} {pos : NFTPosition} (hc : (c x.pos.tokenId).owned = some x.pos.tokenId)
    (hmints : (c x.pos.tokenId).mints = false) (hid : pos.tokenId = x.pos.tokenId)
    (hwrites : ∀ next, (c x.pos.tokenId).writes v next x.pos.tokenId (x.pos.toTerms.slot vault) = pos.toTerms.slot vault) :
    Stage vault x (x.ask v gas c pos).1 := by
  rcases x.ask_cases v gas c pos with ⟨hnone, -⟩ | ⟨s, n, -, hrun, hsome⟩
  · rw [hnone]
    exact .refl vault x
  · rw [hsome]
    obtain ⟨htoken, hnext⟩ := PoolCall.run_token hrun
    rw [hmints, if_neg (by decide)] at hnext
    refine ⟨hid, htoken, hnext, fun t ht => ?_, fun hb => PoolCall.run_blank hb hrun, fun hagrees => ?_⟩
    · rw [PoolCall.run_slot hrun]
      refine PoolCall.writes_other ?_ fun hm => absurd hm (by rw [hmints]; decide)
      rw [hc]
      exact fun h => ht (Option.some.inj h).symm
    · show s.slot pos.tokenId = _
      rw [hid, PoolCall.run_slot hrun, hagrees]
      exact hwrites _

theorem Pair.requestYield_stage : Stage vault x (x.requestYield v gas).1 := by
  unfold Pair.requestYield
  split_ifs with hdue hzero
  · have hactive : x.pos.state = .active := (of_decide_eq_true hdue).1
    refine ⟨rfl, rfl, rfl, fun _ _ => rfl, id, fun hagrees => ?_⟩
    show x.side.slot x.pos.tokenId = _
    rw [hagrees]
    simp [Terms.slot, NFTPosition.toTerms, hactive]
  · have hactive : x.pos.state = .active := (of_decide_eq_true hdue).1
    refine x.ask_stage rfl rfl rfl fun next => ?_
    simp [PoolCall.writes, Terms.slot, NFTPosition.toTerms, hactive]
  · exact .refl vault x

theorem Pair.executeYield_stage : Stage vault x (x.executeYield v gas).1 := by
  unfold Pair.executeYield
  split_ifs with hstate
  · refine x.ask_stage rfl rfl rfl fun next => ?_
    simp [PoolCall.writes, Terms.slot, NFTPosition.toTerms, hstate]
  · exact .refl vault x

theorem Pair.requestPrincipal_stage : Stage vault x (x.requestPrincipal v gas).1 := by
  unfold Pair.requestPrincipal
  split_ifs with hstate
  · refine x.ask_stage rfl rfl rfl fun next => ?_
    simp [PoolCall.writes, Terms.slot, NFTPosition.toTerms, hstate]
  · exact .refl vault x

theorem Pair.executePrincipal_stage : Stage vault x (x.executePrincipal v gas).1 := by
  unfold Pair.executePrincipal
  split_ifs with hstate
  · refine x.ask_stage rfl rfl rfl fun next => ?_
    simp [PoolCall.writes, Terms.slot, NFTPosition.toTerms, Slot.empty, hstate]
  · exact .refl vault x

theorem Pair.poke_stage {gas : Gas} : Stage vault x (x.poke v gas).1 :=
  x.requestYield_stage.trans (Pair.executeYield_stage.trans
    (Pair.requestPrincipal_stage.trans Pair.executePrincipal_stage))

end Stages

/-! ## The world keeps the agreement -/

/-- The pool at `a` holds the token of a position, with the record that belongs to it. -/
def World.Holds (d : Deployment) (w : World) (a : Address) (pos : Terms) : Prop :=
  ∃ p, w.pools a = some p ∧ (w.side p).slot pos.tokenId = pos.slot d.self ∧
    pos.tokenId < (w.nfts p.poolToken).nextTokenId

structure World.Agrees (d : Deployment) (w : World) : Prop where
  owner : ∀ nft t, (w.nfts nft).nextTokenId ≤ t → (w.nfts nft).owner t = 0
  blank : ∀ a p, w.pools a = some p → (w.side p).Blank
  holds : ∀ i pos, w.vault.positions[i]? = some pos → w.Holds d (w.vault.positionPool i) pos.toTerms
  /-- No two positions have one token. -/
  apart : ∀ i j pos pos' p p', i ≠ j → w.vault.positions[i]? = some pos → w.vault.positions[j]? = some pos' →
    w.pools (w.vault.positionPool i) = some p → w.pools (w.vault.positionPool j) = some p' →
    p.poolToken = p'.poolToken → pos.tokenId ≠ pos'.tokenId

/-- How a position of `s` comes from the world before a call of the pool `p` at `a` that left `side`. -/
inductive Carried (d : Deployment) (w : World) (a : Address) (p : DecentralPool) (side : Side) (s : State) (j : Nat)
    (pos' : NFTPosition) : Prop
  | kept (pos : NFTPosition) : w.vault.positions[j]? = some pos → pos'.toTerms = pos.toTerms →
      s.positionPool j = w.vault.positionPool j →
      (∀ q, w.pools (w.vault.positionPool j) = some q → q.poolToken = p.poolToken →
        side.slot pos.tokenId = (w.side p).slot pos.tokenId) → Carried d w a p side s j pos'
  | moved (pos : NFTPosition) : w.vault.positions[j]? = some pos → pos'.tokenId = pos.tokenId →
      s.positionPool j = w.vault.positionPool j → w.vault.positionPool j = a →
      side.slot pos'.tokenId = pos'.toTerms.slot d.self → Carried d w a p side s j pos'
  | fresh : j = w.vault.positions.length → s.positionPool j = a →
      pos'.tokenId = (w.nfts p.poolToken).nextTokenId → pos'.tokenId < side.nft.nextTokenId →
      side.slot pos'.tokenId = pos'.toTerms.slot d.self → Carried d w a p side s j pos'

section Worlds

variable {d : Deployment} {w : World} {a : Address} {p q : DecentralPool} {side : Side} {s : State}

theorem World.put_pools (b : Address) :
    (w.put a side s).pools b = if b = a then some side.pool else w.pools b :=
  Function.update_apply ..

theorem World.put_nfts (nft : Address) :
    (w.put a side s).nfts nft = if nft = side.pool.poolToken then side.nft else w.nfts nft :=
  Function.update_apply ..

/-- The pool that was called is seen with the side the call left. -/
theorem World.put_slot_self (t : Nat) : ((w.put a side s).side side.pool).slot t = side.slot t := by
  simp only [World.side, World.put_nfts, if_true, Side.slot]

/-- Another pool sees the called one only through the owners of a shared NFT contract. -/
theorem World.put_slot_other (t : Nat) : ((w.put a side s).side q).slot t =
    if q.poolToken = side.pool.poolToken then { (w.side q).slot t with owner := (side.slot t).owner }
    else (w.side q).slot t := by
  simp only [World.side, World.put_nfts, Side.slot]
  split_ifs <;> rfl

theorem Side.Blank.owner (h : side.Blank) {t : Nat} (ht : side.nft.nextTokenId ≤ t) : side.nft.owner t = 0 :=
  congrArg Slot.owner (h t ht)

/-- The agreement survives a call of a pool that carries every position over. -/
theorem World.Agrees.put (h : w.Agrees d) (hp : w.pools a = some p) (htoken : side.pool.poolToken = p.poolToken)
    (hnext : (w.nfts p.poolToken).nextTokenId ≤ side.nft.nextTokenId) (hblank : side.Blank)
    (hcarried : ∀ j pos', s.positions[j]? = some pos' → Carried d w a p side s j pos') : (w.put a side s).Agrees d where
  owner nft t ht := by
    rw [World.put_nfts] at ht ⊢
    split_ifs at ht ⊢
    · exact hblank.owner ht
    · exact h.owner nft t ht
  blank b q hq t ht := by
    rw [World.put_pools] at hq
    split_ifs at hq with hb
    · cases hq
      rw [World.put_slot_self]
      refine hblank t ?_
      simpa only [World.side, World.put_nfts, if_true] using ht
    · rw [World.put_slot_other]
      simp only [World.side, World.put_nfts] at ht
      split_ifs at ht ⊢ with hshared
      · have hold := h.blank b q hq t (by
          show (w.nfts q.poolToken).nextTokenId ≤ t
          rw [hshared, htoken]
          omega)
        rw [hold, show (side.slot t).owner = 0 from hblank.owner ht]
        rfl
      · exact h.blank b q hq t ht
  holds j pos' hj := by
    cases hcarried j pos' hj with
    | kept pos hpos hterms hpool hslot =>
      obtain ⟨q, hq, hagrees, hlt⟩ := h.holds j pos hpos
      show (w.put a side s).Holds d (s.positionPool j) pos'.toTerms
      rw [hpool, hterms]
      have hid : pos.toTerms.tokenId = pos.tokenId := rfl
      by_cases hb : w.vault.positionPool j = a
      · obtain rfl : q = p := Option.some.inj (hq.symm.trans (by rw [hb]; exact hp))
        refine ⟨side.pool, by rw [World.put_pools, if_pos hb], ?_, ?_⟩
        · rw [World.put_slot_self, ← hagrees]
          exact hslot q hq rfl
        · rw [World.put_nfts, if_pos rfl]
          omega
      · refine ⟨q, by rw [World.put_pools, if_neg hb, hq], ?_, ?_⟩
        · rw [World.put_slot_other]
          split_ifs with hshared
          · -- the owner of its token is the one the other pool saw
            have howner := congrArg Slot.owner (hslot q hq (hshared.trans htoken))
            rw [← hagrees, hid, howner]
            simp only [Side.slot, World.side, hshared, htoken]
          · exact hagrees
        · rw [World.put_nfts]
          split_ifs with hshared
          · rw [hshared, htoken] at hlt
            omega
          · exact hlt
    | moved pos hpos hid hpool hself hslot =>
      obtain ⟨q, hq, -, hlt⟩ := h.holds j pos hpos
      obtain rfl : q = p := Option.some.inj (hq.symm.trans (by rw [hself]; exact hp))
      refine ⟨side.pool, ?_, ?_, ?_⟩
      · rw [World.put_pools]
        exact if_pos (hpool.trans hself)
      · rw [World.put_slot_self]
        exact hslot
      · rw [World.put_nfts, if_pos rfl]
        show pos'.tokenId < _
        have : pos.tokenId < (w.nfts q.poolToken).nextTokenId := hlt
        omega
    | fresh _ hpool _ hlt hslot =>
      refine ⟨side.pool, by rw [World.put_pools]; exact if_pos hpool, ?_, ?_⟩
      · rw [World.put_slot_self]
        exact hslot
      · rw [World.put_nfts, if_pos rfl]
        exact hlt
  apart := by
    -- the contract of a pool is the one it had
    have hcontract : ∀ {b q}, (w.put a side s).pools b = some q →
        ∃ q', w.pools b = some q' ∧ q'.poolToken = q.poolToken := by
      intro b q hq
      rw [World.put_pools] at hq
      split_ifs at hq with hb
      · cases hq
        exact ⟨p, by rw [hb]; exact hp, htoken.symm⟩
      · exact ⟨q, hq, rfl⟩
    -- a position that was there has its old token, below the free ids
    have hold : ∀ {j pos'}, s.positions[j]? = some pos' →
        (∃ pos, w.vault.positions[j]? = some pos ∧ pos'.tokenId = pos.tokenId ∧
          s.positionPool j = w.vault.positionPool j) ∨
        (j = w.vault.positions.length ∧ s.positionPool j = a ∧ pos'.tokenId = (w.nfts p.poolToken).nextTokenId) := by
      intro j pos' hj
      cases hcarried j pos' hj with
      | kept pos hpos hterms hpool _ => exact .inl ⟨pos, hpos, congrArg Terms.tokenId hterms, hpool⟩
      | moved pos hpos hid hpool _ _ => exact .inl ⟨pos, hpos, hid, hpool⟩
      | fresh hlen hpool hid _ _ => exact .inr ⟨hlen, hpool, hid⟩
    have hbelow : ∀ {j pos q}, w.vault.positions[j]? = some pos → w.pools (w.vault.positionPool j) = some q →
        q.poolToken = p.poolToken → pos.tokenId < (w.nfts p.poolToken).nextTokenId := by
      intro j pos q hpos hq heq
      obtain ⟨q', hq', -, hlt⟩ := h.holds j pos hpos
      obtain rfl := Option.some.inj (hq.symm.trans hq')
      rw [← heq]
      exact hlt
    intro i j pos pos' q q' hij hi hj hq hq' heq
    obtain ⟨r, hr, hrtoken⟩ := hcontract hq
    obtain ⟨r', hr', hrtoken'⟩ := hcontract hq'
    have hsame : r.poolToken = r'.poolToken := hrtoken.trans (heq.trans hrtoken'.symm)
    rcases hold hi with ⟨o, ho, hid, hpool⟩ | ⟨hlen, hpool, hid⟩ <;>
      rcases hold hj with ⟨o', ho', hid', hpool'⟩ | ⟨hlen', hpool', hid'⟩
    · rw [hid, hid']
      change w.pools (s.positionPool i) = some r at hr
      change w.pools (s.positionPool j) = some r' at hr'
      rw [hpool] at hr
      rw [hpool'] at hr'
      exact h.apart i j o o' r r' hij ho ho' hr hr' hsame
    · change w.pools (s.positionPool i) = some r at hr
      change w.pools (s.positionPool j) = some r' at hr'
      rw [hpool] at hr
      rw [hpool', hp] at hr'
      cases hr'
      have := hbelow ho hr hsame
      omega
    · change w.pools (s.positionPool i) = some r at hr
      change w.pools (s.positionPool j) = some r' at hr'
      rw [hpool'] at hr'
      rw [hpool, hp] at hr
      cases hr
      have := hbelow ho' hr' hsame.symm
      omega
    · exact absurd (hlen.trans hlen'.symm) hij

/-- A change of the vault that keeps every position's terms. -/
theorem World.Agrees.calm (h : w.Agrees d) (hs : KeepsTerms w.vault s) : World.Agrees d { w with vault := s } where
  owner := h.owner
  blank := h.blank
  holds j pos' hj := by
    obtain ⟨pos, hpos, hterms⟩ := hs.get hj
    show World.Holds d _ (s.positionPool j) pos'.toTerms
    rw [hs.pools, hterms]
    exact h.holds j pos hpos
  apart i j pos pos' p p' hij hi hj hp hp' heq := by
    obtain ⟨o, ho, hterms⟩ := hs.get hi
    obtain ⟨o', ho', hterms'⟩ := hs.get hj
    have hp : w.pools (w.vault.positionPool i) = some p := by rw [← hs.pools]; exact hp
    have hp' : w.pools (w.vault.positionPool j) = some p' := by rw [← hs.pools]; exact hp'
    have := h.apart i j o o' p p' hij ho ho' hp hp' heq
    rwa [show pos.tokenId = o.tokenId from congrArg Terms.tokenId hterms,
      show pos'.tokenId = o'.tokenId from congrArg Terms.tokenId hterms']

/-- No other account can touch a token of the vault, or one that is burned. -/
theorem World.Agrees.pooled {sender : Address} {c : PoolCall} {given : Nat} (h : w.Agrees d) (hsender : sender ≠ d.self)
    (hzero : sender ≠ 0) (hp : w.pools a = some p)
    (hrun : c.run ⟨a, sender, w.vault.now⟩ (w.side p) = .ok (side, given)) :
    (w.put a side { w.vault with token := side.token }).Agrees d := by
  obtain ⟨htoken, hnext⟩ := PoolCall.run_token hrun
  refine h.put hp htoken ?_ (PoolCall.run_blank (h.blank a p hp) hrun) fun j pos hj => ?_
  · rw [hnext]
    exact Nat.le_add_right _ _
  · refine .kept pos hj rfl rfl fun q hq heq => ?_
    obtain ⟨q', hq', hagrees, hlt⟩ := h.holds j pos hj
    obtain rfl := Option.some.inj (hq.symm.trans hq')
    rw [heq] at hlt
    refine PoolCall.run_foreign hlt ?_ hrun
    have howner : (w.nfts p.poolToken).owner pos.tokenId = (pos.toTerms.slot d.self).owner := by
      rw [← heq]
      exact congrArg Slot.owner hagrees
    show (w.nfts p.poolToken).owner pos.tokenId ≠ sender
    rw [howner]
    rcases pos.toTerms.slot_owner d.self with hburned | hvault
    · rw [hburned]
      exact hzero.symm
    · rw [hvault]
      exact hsender.symm

/-- A token given away or a role changed concerns no token of the vault. -/
theorem World.Agrees.token {nft dst : Address} {t : Nat} {owner : Nat → Address} {registeredPools : Address → Bool}
    (h : w.Agrees d)
    (howner : owner = (w.nfts nft).owner ∨ (w.nfts nft).owner t ≠ 0 ∧ (w.nfts nft).owner t ≠ d.self ∧
      owner = Function.update (w.nfts nft).owner t dst) :
    (w.setNft nft { w.nfts nft with owner, registeredPools }).Agrees d := by
  have hnext : ∀ n, ((w.setNft nft { w.nfts nft with owner, registeredPools }).nfts n).nextTokenId =
      (w.nfts n).nextTokenId := by
    intro n
    show (Function.update w.nfts nft _ n).nextTokenId = _
    by_cases hn : n = nft
    · rw [hn, Function.update_self]
    · rw [Function.update_of_ne hn]
  -- who owns nothing or is the vault stays
  have hkept : ∀ n t', ((w.nfts n).owner t' = 0 ∨ (w.nfts n).owner t' = d.self) →
      ((w.setNft nft { w.nfts nft with owner, registeredPools }).nfts n).owner t' = (w.nfts n).owner t' := by
    intro n t' ht'
    show (Function.update w.nfts nft _ n).owner t' = _
    by_cases hn : n = nft
    · subst hn
      rw [Function.update_self]
      rcases howner with rfl | ⟨hzero, hself, rfl⟩
      · rfl
      · refine Function.update_of_ne ?_ _ _
        rintro rfl
        exact ht'.elim hzero hself
    · rw [Function.update_of_ne hn]
  have hslot : ∀ q t', (((w.side q).slot t').owner = 0 ∨ ((w.side q).slot t').owner = d.self) →
      ((w.setNft nft { w.nfts nft with owner, registeredPools }).side q).slot t' = (w.side q).slot t' := by
    intro q t' ht'
    unfold Side.slot
    simp only [World.side]
    rw [hkept q.poolToken t' ht']
  refine ⟨fun n t' ht' => ?_, fun b q hq t' ht' => ?_, fun j pos hj => ?_, h.apart⟩
  · rw [hnext] at ht'
    have hold := h.owner n t' ht'
    rw [hkept n t' (.inl hold), hold]
  · have hold := h.blank b q hq t' ((hnext q.poolToken).symm.trans_le ht')
    rw [hslot q t' (.inl (congrArg Slot.owner hold)), hold]
  · obtain ⟨q, hq, hagrees, hlt⟩ := h.holds j pos hj
    refine ⟨q, hq, ?_, by rw [hnext]; exact hlt⟩
    rw [hslot q, hagrees]
    rw [hagrees]
    exact pos.toTerms.slot_owner d.self

/-- A new pool has recorded nothing. -/
theorem World.Agrees.deployed {poolToken : Address} {apyWad : Nat} (h : w.Agrees d) (hp : w.pools a = none) :
    (w.setPool a (.construct w.vault.hollar poolToken apyWad w.vault.now)).Agrees d := by
  have hother : ∀ {b q}, w.pools b = some q →
      (w.setPool a (.construct w.vault.hollar poolToken apyWad w.vault.now)).pools b = some q := by
    intro b q hq
    refine Eq.trans (Function.update_of_ne ?_ _ _) hq
    rintro rfl
    rw [hp] at hq
    cases hq
  refine ⟨h.owner, fun b q hq => ?_, fun j pos hj => ?_, fun i j pos pos' q q' hij hi hj hq hq' => ?_⟩
  · by_cases hb : b = a
    · subst hb
      have hnew := hq.symm.trans (Function.update_self ..)
      cases hnew
      intro t ht
      have howner := h.owner poolToken t ht
      simp only [World.side, World.setPool, Side.slot, DecentralPool.construct, YieldWithdrawalRequest.empty,
        PrincipalWithdrawalRequest.empty, MockPosition.empty, howner, Slot.empty]
    · exact h.blank b q ((Function.update_of_ne hb ..).symm.trans hq)
  · obtain ⟨q, hq, hrest⟩ := h.holds j pos hj
    exact ⟨q, hother hq, hrest⟩
  · obtain ⟨r, hr, -⟩ := h.holds i pos hi
    obtain ⟨r', hr', -⟩ := h.holds j pos' hj
    obtain rfl := Option.some.inj ((hother hr).symm.trans hq)
    obtain rfl := Option.some.inj ((hother hr').symm.trans hq')
    exact h.apart i j pos pos' r r' hij hi hj hr hr'

/-- A deposit of the vault writes the token it mints, whatever the ledger. -/
theorem DecentralPool.deposit_slot {p q : DecentralPool} {nft nft' : PoolToken} {self sender : Address}
    {now amount tokenId : Nat} (h : p.deposit nft self sender now amount = .ok (q, nft', tokenId))
    (token token' : ERC20) (t : Nat) : Side.slot ⟨q, nft', token⟩ t =
      if t = tokenId then
        { Side.slot ⟨p, nft, token'⟩ t with owner := sender, principal := amount, depositTime := now }
      else Side.slot ⟨p, nft, token'⟩ t := by
  obtain ⟨rfl, -, rfl, c, l, p, r, rfl⟩ := DecentralPool.deposit_ok h
  by_cases ht : t = nft.nextTokenId <;> simp [Side.slot, ht]

theorem World.Agrees.opened {q : DecentralPool} {nft : PoolToken} {env : Replies} {tokenId amount period : Nat}
    (h : w.Agrees d) (hopen : Opens env w.vault s tokenId amount period)
    (hp : w.pools w.vault.activeDepositPool = some p)
    (hdeposit : p.deposit (w.nfts p.poolToken) w.vault.activeDepositPool d.self w.vault.now amount =
      .ok (q, nft, tokenId)) :
    (w.put w.vault.activeDepositPool ⟨q, nft, s.token⟩ s).Agrees d := by
  have hslot := DecentralPool.deposit_slot hdeposit s.token w.vault.token
  obtain ⟨hid, -, hnft, c, l, u, r, hq⟩ := DecentralPool.deposit_ok hdeposit
  have hnext : nft.nextTokenId = (w.nfts p.poolToken).nextTokenId + 1 := by rw [hnft]
  have hblank := h.blank _ p hp
  refine h.put hp (by rw [hq]) ?_ (fun t ht => ?_) fun j pos' hj => ?_
  · show _ ≤ nft.nextTokenId
    omega
  · have ht : nft.nextTokenId ≤ t := ht
    rw [hslot, if_neg (by omega)]
    exact hblank t (by show (w.nfts p.poolToken).nextTokenId ≤ t; omega)
  · rcases hopen.get hj with ⟨pos, hpos, hterms, hpool⟩ | ⟨hlen, hterms, hpool⟩
    · refine .kept pos hpos hterms hpool fun r hr heq => ?_
      obtain ⟨r', hr', -, hlt⟩ := h.holds j pos hpos
      obtain rfl := Option.some.inj (hr.symm.trans hr')
      rw [heq] at hlt
      have hlt : pos.tokenId < _ := hlt
      rw [hslot, if_neg (by omega)]
      rfl
    · obtain rfl : pos'.tokenId = tokenId := congrArg Terms.tokenId hterms
      refine .fresh hlen hpool hid (by show _ < nft.nextTokenId; omega) ?_
      have hempty : Side.slot ⟨p, w.nfts p.poolToken, w.vault.token⟩ pos'.tokenId = .empty := hblank _ hid.ge
      rw [hslot, if_pos rfl, hempty, hterms]
      rfl

theorem World.Agrees.poked {s₁ : State} {pos : NFTPosition} {gas : Gas} {i k : Nat} (h : w.Agrees d)
    (hsync : syncMaturities w.vault maxMaturitySync = .ok (s₁, k)) (hi : s₁.positions[i]? = some pos)
    (hp : w.pools (w.vault.positionPool i) = some p)
    (htracks : Tracks s₁ i (Pair.poke (w.visit d i) ⟨w.side p, pos⟩ gas).1 s)
    (hpools : s.positionPool = w.vault.positionPool) :
    (w.put (w.vault.positionPool i) (Pair.poke (w.visit d i) ⟨w.side p, pos⟩ gas).1.side s).Agrees d := by
  have hstage : Stage d.self ⟨w.side p, pos⟩ (Pair.poke (w.visit d i) ⟨w.side p, pos⟩ gas).1 := Pair.poke_stage
  have hsame := syncMaturities_keepsTerms hsync
  obtain ⟨old, hold, hterms⟩ := hsame.get hi
  refine h.put hp hstage.poolToken hstage.next.ge (hstage.blank (h.blank _ p hp)) fun j pos' hj => ?_
  rw [htracks.positions] at hj
  by_cases hij : i = j
  · subst hij
    rw [List.getElem?_set_self htracks.inside] at hj
    cases hj
    refine .moved old hold (hstage.tokenId.trans (congrArg Terms.tokenId hterms)) (by rw [hpools]) rfl
      (hstage.agrees ?_)
    obtain ⟨q, hq, hagrees, -⟩ := h.holds i old hold
    obtain rfl := Option.some.inj (hq.symm.trans hp)
    rw [← hterms] at hagrees
    exact hagrees
  · rw [List.getElem?_set_ne hij] at hj
    obtain ⟨other, hother, hterms'⟩ := hsame.get hj
    refine .kept other hother hterms' (by rw [hpools]) fun q hq heq => hstage.others _ ?_
    rw [show (⟨w.side p, pos⟩ : Pair).pos.tokenId = old.tokenId from congrArg Terms.tokenId hterms]
    exact (h.apart i j old other p q hij hold hother hp hq heq.symm).symm

end Worlds

theorem World.agrees {d : Deployment} {w : World} (h : (world d).Reach w) : w.Agrees d := by
  refine h.invariant ?_ ?_
  · rintro w ⟨⟨env, p, token, now, -, hinit⟩, -, hblank, -⟩
    obtain ⟨g, c, a, -, -, hs⟩ := initializeVault_ok hinit
    have hnil : w.vault.positions = [] := by rw [hs]; rfl
    refine ⟨hblank.owner, fun a p hp t ht => hblank.slot a p t hp ht, fun i pos hi => ?_,
      fun i j pos pos' p p' _ hi => ?_⟩
    · rw [hnil] at hi
      cases hi
    · rw [hnil] at hi
      cases hi
  · intro w a w' _ hw hnext
    cases World.step_moves hnext with
    | calm a _ hs => exact hw.calm hs
    | opened a _ hopen hp hdeposit => exact hw.opened hopen hp hdeposit
    | poked a gas i k _ hsync hi hp htracks hpools => exact hw.poked hsync hi hp htracks hpools
    | pooled sender a c hsender hzero hp hrun => exact hw.pooled hsender hzero hp hrun
    | token nft dst t owner registeredPools howner => exact hw.token howner
    | deployed pool poolToken apyWad hp _ _ => exact hw.deployed hp

/-- In every reachable world the pool of each position is a pool there, no two positions have one token,
and the pool's records are what the state of the position says: the token of an open position is the
vault's and stands for its principal since its deposit, that of a redeemed one is burned, and the pool
waits for a withdrawal of the yield, or of the principal, in exactly the two states that requested it. -/
theorem pools_agree {d : Deployment} {w : World} (h : (world d).Reach w) :
    (∀ i pos, w.vault.positions[i]? = some pos → ∃ p, w.pools (w.vault.positionPool i) = some p ∧
      (pos.state ≠ .redeemed → (w.nfts p.poolToken).owner pos.tokenId = d.self ∧
        (p.mockPositions pos.tokenId).principal = pos.principal ∧
        (p.mockPositions pos.tokenId).depositTime = pos.depositTime) ∧
      (pos.state = .redeemed → (w.nfts p.poolToken).owner pos.tokenId = 0) ∧
      ((p.getYieldWithdrawalRequest pos.tokenId).pending = true ↔ pos.state = .yieldWithdrawalRequested) ∧
      ((p.getPrincipalWithdrawalRequest pos.tokenId).pending = true ↔ pos.state = .principalWithdrawalRequested) ∧
      (pos.state = .principalWithdrawalRequested →
        (p.getPrincipalWithdrawalRequest pos.tokenId).amount = pos.principal)) ∧
    ∀ i j pos pos' p p', i ≠ j → w.vault.positions[i]? = some pos → w.vault.positions[j]? = some pos' →
      w.pools (w.vault.positionPool i) = some p → w.pools (w.vault.positionPool j) = some p' →
      p.poolToken = p'.poolToken → pos.tokenId ≠ pos'.tokenId := by
  have hw := World.agrees h
  refine ⟨fun i pos hi => ?_, hw.apart⟩
  obtain ⟨p, hp, hslot, -⟩ := hw.holds i pos hi
  obtain ⟨hyield, hexit⟩ := pos.toTerms.slot_pending d.self
  refine ⟨p, hp, fun hopen => ?_, fun hredeemed => ?_, ?_, ?_, fun hs => ?_⟩
  · rw [show pos.toTerms.slot d.self = _ from if_neg hopen] at hslot
    exact ⟨congrArg Slot.owner hslot, congrArg Slot.principal hslot, congrArg Slot.depositTime hslot⟩
  · rw [show pos.toTerms.slot d.self = .empty from if_pos hredeemed] at hslot
    exact congrArg Slot.owner hslot
  · show (p.yieldWithdrawalRequests pos.tokenId).pending = true ↔ _
    rw [show (p.yieldWithdrawalRequests pos.tokenId).pending = _ from (congrArg Slot.yieldPending hslot).trans hyield]
    exact decide_eq_true_iff
  · show (p.principalWithdrawalRequests pos.tokenId).pending = true ↔ _
    rw [show (p.principalWithdrawalRequests pos.tokenId).pending = _ from (congrArg Slot.exitPending hslot).trans hexit]
    exact decide_eq_true_iff
  · rw [show pos.toTerms.slot d.self = _ from if_neg fun hredeemed => by cases hs.symm.trans hredeemed] at hslot
    exact (congrArg Slot.exitAmount hslot).trans (if_pos hs)

/-- After the visits alice deposits 50 HOLLAR more into the same pool. -/
def twoVisits : List WorldAction :=
  demoVisits ++ [.call alice (fun _ => ⟨none, none⟩) (some (5 * 10 ^ 19)) (.deposit (5 * 10 ^ 19) alice)]

/-- The first position waits for its principal, and the pool for its withdrawal; the second has another token. -/
theorem pools_agree_demo : ∃ w pos pos' p, (world demo).Reach w ∧ w.vault.positions = [pos, pos'] ∧
    pos.state = .principalWithdrawalRequested ∧ pos'.state = .active ∧ w.pools (w.vault.positionPool 0) = some p ∧
    (p.getPrincipalWithdrawalRequest pos.tokenId).pending = true ∧ pos.tokenId ≠ pos'.tokenId := by
  obtain ⟨w, hw, ht⟩ := observe_world twoVisits
    (fun w => decide (w.vault.positions.map NFTPosition.state = [.principalWithdrawalRequested, .active] ∧
      w.vault.positionPool 0 = w.vault.positionPool 1)) (by decide +kernel)
  obtain ⟨hstates, hsame⟩ := of_decide_eq_true ht
  obtain ⟨pos, rest, hpositions, hstate, hrest⟩ := List.map_eq_cons_iff.1 hstates
  obtain ⟨pos', rest', rfl, hstate', hnil⟩ := List.map_eq_cons_iff.1 hrest
  obtain rfl := List.map_eq_nil_iff.1 hnil
  have hfirst : w.vault.positions[0]? = some pos := by rw [hpositions]; rfl
  have hsecond : w.vault.positions[1]? = some pos' := by rw [hpositions]; rfl
  obtain ⟨hall, hapart⟩ := pools_agree hw
  obtain ⟨p, hp, -, -, -, hpending, -⟩ := hall 0 pos hfirst
  exact ⟨w, pos, pos', p, hw, hpositions, hstate, hstate', hp, hpending.2 hstate,
    hapart 0 1 pos pos' p p (by decide) hfirst hsecond hp (by rw [← hsame]; exact hp) rfl⟩

end MoneyMarket
