/-
What holds in every reachable state. The queue, its index and its boundary, the book of positions
and the two token ledgers are sound, the vault's HOLLAR backs what it holds idle and reserved,
and its own shares cover what is queued (`Invariant`).
-/
import MoneyMarket.Book.Lifecycle
import MoneyMarket.Queue.Fifo
import MoneyMarket.Queue.Index
import MoneyMarket.Vault.Moves

namespace MoneyMarket

open Evm Relation Transition

structure Invariant (d : Deployment) (s : State) : Prop where
  ledger : QueueLedger s.toRedemptions
  index : IndexSound s.toRedemptions
  fifo : Fifo s.toRedemptions
  yield : YieldBook s.now s.toBook
  lifecycle : Lifecycle s.now s.toBook
  token : PlainLedger s.token
  backed : s.idleHollar + s.totalReservedHollar ≤ s.token.balanceOf d.self
  bil : PlainLedger s.bil
  escrow : s.totalQueuedBil ≤ s.bil.balanceOf d.self
  /-- The vault has given nobody a say over its own shares. -/
  unapproved : ∀ spender, s.bil.allowance d.self spender = 0
  unoperated : ∀ operator, s.isOperator d.self operator = false
  minRedeem : 0 < s.minRedeemAmount

/-! ## The first state -/

theorem initializeVault_ok {env : Replies} {p : Setup} {token : ERC20} {now : Nat} {s : State}
    (h : initializeVault env p token now = .ok s) :
    ∃ g c a, (∀ o x, a.isOperator o x = false) ∧ 0 < c.minRedeemAmount ∧
      s = { State.blank token now with toRegistry := g, toSettings := c, toAccess := a } := by
  simp only [initializeVault, bind_ok_iff, pure_ok_iff] at h
  obtain ⟨_, -, _, -, _, -, _, -, g, -, rfl⟩ := h
  exact ⟨_, ⟨p.tvlCap, false, 10 * wad, wad, 0, 100, false⟩, _, fun _ _ => rfl, show 0 < wad by decide, rfl⟩

theorem Invariant.init {d : Deployment} {s : State} (h : (vault d).init s) : Invariant d s := by
  obtain ⟨env, p, token, now, hplain, hinit⟩ := h
  obtain ⟨g, c, a, hop, hmin, rfl⟩ := initializeVault_ok hinit
  refine ⟨⟨rfl, rfl, rfl, fun _ _ => rfl, fun _ h => absurd rfl h⟩,
    ⟨fun _ => List.nodup_nil, fun _ _ h => absurd h List.not_mem_nil⟩,
    ⟨le_refl _, fun _ h => absurd h (Nat.not_lt_zero _), fun _ _ _ h => absurd h (lt_irrefl _)⟩, ?_, ?_, hplain,
    Nat.zero_le _, ⟨Finset.sum_const_zero, show 0 < uintSize by decide⟩, le_refl _, fun _ => rfl,
    fun o => hop _ o, hmin⟩
  · exact ⟨rfl, rfl, .refl _, fun i _ _ _ h => absurd h (by simp [State.blank]),
      fun _ _ h => absurd h (by simp [State.blank]),
      fun _ h => absurd h List.not_mem_nil, fun _ h => absurd h List.not_mem_nil⟩
  · exact ⟨rfl, rfl, fun _ h => absurd h List.not_mem_nil, fun _ h => absurd h (Nat.not_lt_zero _)⟩

/-! ## The share token -/

theorem PlainLedger.mint {t t' : ERC20} {a : Address} {n : Nat} (h : PlainLedger t)
    (hm : (t.mint a n : Tx ERC20) = .ok t') : PlainLedger t' := by
  refine ⟨h.conserved.mint hm, ?_⟩
  obtain ⟨-, hlt, rfl⟩ := ERC20.mint_ok_iff.1 hm
  exact hlt

theorem PlainLedger.burn {t t' : ERC20} {a : Address} {n : Nat} (h : PlainLedger t)
    (hb : (t.burn a n : Tx ERC20) = .ok t') : PlainLedger t' := by
  refine ⟨h.conserved.burn hb, ?_⟩
  obtain ⟨-, -, rfl⟩ := ERC20.burn_ok_iff.1 hb
  exact lt_of_le_of_lt (Nat.sub_le _ _) h.supply

theorem PlainLedger.transfer {t t' : ERC20} {a b : Address} {n : Nat} (h : PlainLedger t)
    (ht : (t.transfer a b n : Tx ERC20) = .ok t') : PlainLedger t' := by
  obtain ⟨-, -, hle, rfl⟩ := ERC20.transfer_ok_iff.1 ht
  exact ⟨h.conserved.move hle, h.supply⟩

/-- A mint lowers no balance and gives no allowance. -/
theorem mint_grows {t t' : ERC20} {a : Address} {n : Nat} (hm : (t.mint a n : Tx ERC20) = .ok t') (x : Address) :
    t.balanceOf x ≤ t'.balanceOf x ∧ t'.allowance = t.allowance := by
  obtain ⟨-, -, rfl⟩ := ERC20.mint_ok_iff.1 hm
  refine ⟨?_, rfl⟩
  simp only [ERC20.setBalance_balanceOf, Function.update_apply]
  split_ifs with hx
  · rw [hx]; exact Nat.le_add_right _ _
  · exact le_refl _

theorem bootstrap_grows {t t' : ERC20} (h : bootstrap t = .ok t') (x : Address) :
    t.balanceOf x ≤ t'.balanceOf x ∧ t'.allowance = t.allowance ∧ (PlainLedger t → PlainLedger t') := by
  unfold bootstrap at h
  split at h
  · obtain ⟨hb, ha⟩ := mint_grows h x
    exact ⟨hb, ha, fun hp => hp.mint h⟩
  · cases h; exact ⟨le_refl _, rfl, id⟩

/-! ## The keeper's moves -/

section Moves

variable {d : Deployment} {s t : State}

theorem Poke.book {ps : List Payout} (h : Poke d s ps t) : t.toBook = s.toBook ∨ BookMove s.now s.toBook t.toBook := by
  cases h with
  | cap hc => exact .inr (.cap hc)
  | ask i pos state hi ha => exact .inr (.ask i pos state hi ha)
  | yieldPaid i pos token received hi hs _ => exact .inr (.yieldPaid i pos hi hs)
  | principalPaid i pos token received hi hs _ => exact .inr (.principalPaid i pos hi hs)
  | sweep hs => exact .inr (.sweep hs)
  | settle _ _ _ _ _ => exact .inl rfl
  | reinvest pool tokenId apyWad amount period token hdue _ _ hm hi _ =>
      exact .inr (.opened pool tokenId apyWad amount period hdue hm hi)
  | refused _ _ => exact .inl rfl

/-- A poke leaves the queue, or settles part of it. -/
theorem Poke.queue {ps : List Payout} (h : Poke d s ps t) : ReflTransGen QueueMove s.toRedemptions t.toRedemptions := by
  cases h with
  | settle rate _ _ hfills _ => exact fills_moves hfills
  | cap _ => exact .refl
  | ask _ _ _ _ _ => exact .refl
  | yieldPaid _ _ _ _ _ _ _ => exact .refl
  | principalPaid _ _ _ _ _ _ _ => exact .refl
  | sweep _ => exact .refl
  | reinvest _ _ _ _ _ _ _ _ _ _ _ _ => exact .refl
  | refused _ _ => exact .refl

theorem Poke.now_eq {ps : List Payout} (h : Poke d s ps t) : t.now = s.now := by
  cases h <;> rfl

variable {a : Action}

theorem Act.book (h : Act d a s t) : t.toBook = s.toBook ∨ BookMove s.now s.toBook t.toBook := by
  cases h with
  | deposit receiver pool assets shares tokenId apyWad period _ _ _ hdue _ _ _ hm hi _ =>
    exact .inr (.opened pool tokenId apyWad assets period hdue hm hi)
  | tick _ _ => exact .inl rfl
  | ledger _ _ => exact .inl rfl
  | configure _ _ _ _ _ => exact .inl rfl
  | share _ _ _ => exact .inl rfl
  | request _ _ _ _ _ _ _ _ _ => exact .inl rfl
  | cancel _ _ _ _ _ _ _ => exact .inl rfl
  | claim _ _ _ _ _ _ _ _ _ _ _ _ _ _ => exact .inl rfl

/-- An act is a change of the queue, or a cancel with the sweep of the head, or a claim. -/
theorem Act.queue (h : Act d a s t) (hmin : 0 < s.minRedeemAmount) :
    ReflTransGen QueueMove s.toRedemptions t.toRedemptions := by
  cases h with
  | request controller owner shares _ hc hle _ _ _ =>
      exact .single (.push controller shares hc (lt_of_lt_of_le hmin hle))
  | cancel i n _ hi hu hle _ =>
    exact .head (.cancel i hi hu hle) (fills_moves (advanceQueueHead_fills 0 n (s.toRedemptions.cancelled i)))
  | claim u c receiver amount r _ _ hwalk _ _ _ _ _ _ =>
    exact draws_moves (claimWalk_draws (q := s.toRedemptions) hwalk).1
  | tick _ _ => exact .refl
  | ledger _ _ => exact .refl
  | configure _ _ _ _ _ => exact .refl
  | share _ _ _ => exact .refl
  | deposit _ _ _ _ _ _ _ _ _ _ _ _ _ _ _ _ _ => exact .refl

end Moves

/-! ## Preservation -/

/-- The three parts of the invariant that the queue alone decides. -/
theorem queue_sound {q q' : Redemptions} (h : ReflTransGen QueueMove q q') (hl : QueueLedger q) (hi : IndexSound q)
    (hf : Fifo q) : QueueLedger q' ∧ IndexSound q' ∧ Fifo q' := by
  induction h with
  | refl => exact ⟨hl, hi, hf⟩
  | tail _ hm ih =>
    obtain ⟨hl', hi', hf'⟩ := ih
    exact ⟨hl'.move hm, hi'.move hl' hm, hf'.move hl' hm⟩

namespace Invariant

variable {d : Deployment} {s t : State}

theorem queued_lt (h : Invariant d s) : s.totalQueuedBil < uintSize :=
  lt_of_le_of_lt h.escrow (lt_of_le_of_lt (h.bil.conserved.balance_le d.self) h.bil.supply)

theorem reserved_lt (h : Invariant d s) : s.totalReservedHollar < uintSize :=
  lt_of_le_of_lt (le_trans (Nat.le_add_left _ _) h.backed)
    (lt_of_le_of_lt (h.token.conserved.balance_le d.self) h.token.supply)

theorem book_sound {b : Book} (h : Invariant d s) (hm : b = s.toBook ∨ BookMove s.now s.toBook b) :
    YieldBook s.now b ∧ Lifecycle s.now b := by
  rcases hm with rfl | hm
  · exact ⟨h.yield, h.lifecycle⟩
  · exact ⟨h.yield.move hm, h.lifecycle.move h.yield hm⟩

/-- Every move of the keeper keeps the invariant. -/
theorem poke {ps : List Payout} (h : Invariant d s) (hp : Poke d s ps t) : Invariant d t := by
  obtain ⟨hl, hi, hf⟩ := queue_sound hp.queue h.ledger h.index h.fifo
  obtain ⟨hy, hc⟩ := h.book_sound hp.book
  rw [← hp.now_eq] at hy hc
  cases hp with
  | cap _ => exact ⟨hl, hi, hf, hy, hc, h.token, h.backed, h.bil, h.escrow, h.unapproved, h.unoperated, h.minRedeem⟩
  | ask _ _ _ _ _ => exact ⟨hl, hi, hf, hy, hc, h.token, h.backed, h.bil, h.escrow, h.unapproved,
      h.unoperated, h.minRedeem⟩
  | yieldPaid i pos token received _ _ hrec =>
    refine ⟨hl, hi, hf, hy, hc, hrec.1 h.token, ?_, h.bil, h.escrow, h.unapproved, h.unoperated, h.minRedeem⟩
    have := h.backed
    show s.idleHollar + received + s.totalReservedHollar ≤ token.balanceOf d.self
    rw [hrec.2]; omega
  | principalPaid i pos token received _ _ hrec =>
    refine ⟨hl, hi, hf, hy, hc, hrec.1 h.token, ?_, h.bil, h.escrow, h.unapproved, h.unoperated, h.minRedeem⟩
    have := h.backed
    show s.idleHollar + received + s.totalReservedHollar ≤ token.balanceOf d.self
    rw [hrec.2]; omega
  | sweep _ => exact ⟨hl, hi, hf, hy, hc, h.token, h.backed, h.bil, h.escrow, h.unapproved, h.unoperated, h.minRedeem⟩
  | settle rate hdue hrate hfills hle =>
    rename_i q
    obtain ⟨hq, -, hr, -⟩ := fills_totals hfills
    refine ⟨hl, hi, hf, hy, hc, h.token, ?_, h.bil, ?_, h.unapproved, h.unoperated, h.minRedeem⟩
    · -- the reserve gains what the idle HOLLAR loses
      have := h.backed
      show s.idleHollar - (q.totalReservedHollar - s.totalReservedHollar) + q.totalReservedHollar ≤
        s.token.balanceOf d.self
      omega
    · show q.totalQueuedBil ≤ _
      rw [hq]; exact h.escrow
  | reinvest pool tokenId apyWad amount period token _ hamount _ _ _ hspend =>
    obtain ⟨hplain, hbal⟩ := hspend h.token
    refine ⟨hl, hi, hf, hy, hc, hplain, ?_, h.bil, h.escrow, h.unapproved, h.unoperated, h.minRedeem⟩
    have := h.backed
    show s.idleHollar - amount + s.totalReservedHollar ≤ token.balanceOf d.self
    omega
  | refused token hspend =>
    obtain ⟨hplain, hbal⟩ := hspend h.token
    exact ⟨hl, hi, hf, hy, hc, hplain, le_trans h.backed hbal, h.bil, h.escrow, h.unapproved, h.unoperated, h.minRedeem⟩

variable {a : Action}

/-- Every other action keeps it, when the vault itself does not act. -/
theorem act (h : Invariant d s) (hsender : a.sender ≠ d.self) (ha : Act d a s t) : Invariant d t := by
  obtain ⟨hl, hi, hf⟩ := queue_sound (ha.queue h.minRedeem) h.ledger h.index h.fifo
  obtain ⟨hy, hc⟩ := h.book_sound ha.book
  cases ha with
  | tick now hle =>
    exact ⟨hl, hi, hf, hy.tick hle, hc.tick hle, h.token, h.backed, h.bil, h.escrow, h.unapproved,
      h.unoperated, h.minRedeem⟩
  | ledger token hspend =>
    obtain ⟨hplain, hbal⟩ := hspend h.token
    exact ⟨hl, hi, hf, hy, hc, hplain, le_trans h.backed hbal, h.bil, h.escrow, h.unapproved, h.unoperated, h.minRedeem⟩
  | configure g c p hmin hop =>
    exact ⟨hl, hi, hf, hy, hc, h.token, h.backed, h.bil, h.escrow, h.unapproved,
      fun o => by show p.isOperator d.self o = false; rw [hop _ hsender.symm]; exact h.unoperated o, hmin h.minRedeem⟩
  | share c bil hcall =>
    have hplain : PlainLedger bil :=
      ⟨h.bil.conserved.call hcall, by rw [ERC20.call_totalSupply hcall]; exact h.bil.supply⟩
    exact ⟨hl, hi, hf, hy, hc, h.token, h.backed, hplain,
      le_trans h.escrow (ERC20.le_call hcall hsender.symm (h.unapproved _)),
      ERC20.call_allowance hcall hsender.symm h.unapproved, h.unoperated, h.minRedeem⟩
  | deposit receiver pool assets shares tokenId apyWad period bil₀ bil token _ _ hboot hmint _ _ hspend =>
    obtain ⟨hplain, hbal⟩ := hspend h.token
    obtain ⟨hb₀, ha₀, hp₀⟩ := bootstrap_grows hboot d.self
    obtain ⟨hb, ha⟩ := mint_grows hmint d.self
    exact ⟨hl, hi, hf, hy, hc, hplain, le_trans h.backed hbal, (hp₀ h.bil).mint hmint,
      le_trans h.escrow (le_trans hb₀ hb),
      fun x => by show bil.allowance d.self x = 0; rw [ha, ha₀]; exact h.unapproved x, h.unoperated, h.minRedeem⟩
  | request controller owner shares bil _ _ hauth hbil _ =>
    -- nobody may act for the vault, so the shares come from someone else
    have howner : d.self ≠ owner := by
      rintro rfl
      rcases hauth with hauth | hauth
      · exact hsender hauth
      · rw [h.unoperated] at hauth; exact absurd hauth (by decide)
    refine ⟨hl, hi, hf, hy, hc, h.token, h.backed, h.bil.transfer hbil, ?_, ?_, h.unoperated, h.minRedeem⟩
    · obtain ⟨-, -, -, rfl⟩ := ERC20.transfer_ok_iff.1 hbil
      show s.totalQueuedBil + shares ≤ _
      rw [ERC20.move_target _ _ _ _ howner]
      exact Nat.add_le_add_right h.escrow _
    · obtain ⟨-, -, -, rfl⟩ := ERC20.transfer_ok_iff.1 hbil
      exact h.unapproved
  | cancel i n bil hid hu hle hbil =>
    -- with nothing unsettled no shares move
    have hqueued := h.ledger.amount_le i
    have hescrow := h.escrow
    rcases hbil with ⟨rfl, heq⟩ | hbil
    · exact ⟨hl, hi, hf, hy, hc, h.token, h.backed, h.bil, le_trans (Nat.sub_le _ _) h.escrow,
        h.unapproved, h.unoperated, h.minRedeem⟩
    · refine ⟨hl, hi, hf, hy, hc, h.token, h.backed, h.bil.transfer hbil, ?_, ?_, h.unoperated, h.minRedeem⟩
      · obtain ⟨-, -, hcov, rfl⟩ := ERC20.transfer_ok_iff.1 hbil
        have := ERC20.move_source s.bil d.self (s.redemptionQueue i).user hcov
        show s.totalQueuedBil - ((s.redemptionQueue i).bilAmount - (s.redemptionQueue i).bilSettled) ≤
          (s.bil.move d.self (s.redemptionQueue i).user _).balanceOf d.self
        omega
      · obtain ⟨-, -, -, rfl⟩ := ERC20.transfer_ok_iff.1 hbil
        exact h.unapproved
  | claim u c receiver amount r bil token _ _ hq hs hr hburn htransfer =>
    have hescrow := h.escrow
    have hbacked := h.backed
    refine ⟨hl, hi, hf, hy, hc, h.token.transfer htransfer, ?_, h.bil.burn hburn, ?_, ?_, h.unoperated, h.minRedeem⟩
    · obtain ⟨-, -, hcov, rfl⟩ := ERC20.transfer_ok_iff.1 htransfer
      have := ERC20.move_source s.token d.self receiver hcov
      show s.idleHollar + (s.totalReservedHollar - r.assets) ≤ (s.token.move d.self receiver r.assets).balanceOf d.self
      omega
    · obtain ⟨-, -, rfl⟩ := ERC20.burn_ok_iff.1 hburn
      show s.totalQueuedBil - r.shares ≤ Function.update s.bil.balanceOf d.self
        (s.bil.balanceOf d.self - r.shares) d.self
      rw [Function.update_self]; omega
    · obtain ⟨-, -, rfl⟩ := ERC20.burn_ok_iff.1 hburn
      exact h.unapproved

/-- A sequence of pokes keeps it. -/
theorem pokes {ps : List Payout} (h : Invariant d s) (hp : Pokes d s ps t) : Invariant d t :=
  Moves.invariant (fun _ _ _ hi hm => hi.poke hm) hp h

theorem step {ps : List Payout} (h : Invariant d s) (hlegal : Legal d s a) (hs : MoneyMarket.step d s a = .ok (t, ps)) :
    Invariant d t := by
  rcases step_moves hlegal hs with ⟨ha, -⟩ | hp
  · exact h.act hlegal.sender_ne ha
  · exact h.pokes hp

end Invariant

theorem pokes_queue {d : Deployment} {s t : State} {ps : List Payout} (hp : Pokes d s ps t) :
    ReflTransGen QueueMove s.toRedemptions t.toRedemptions :=
  Moves.relation (I := fun _ => True) (R := fun s t => ReflTransGen QueueMove s.toRedemptions t.toRedemptions)
    (fun _ => .refl) (fun _ _ _ => .trans) (fun _ _ _ _ hm => ⟨trivial, hm.queue⟩) hp trivial

/-- What a step does to the queue is a sequence of its moves. -/
theorem step_queue {d : Deployment} {s t : State} {a : Action} {ps : List Payout} (h : Invariant d s)
    (hlegal : Legal d s a) (hs : step d s a = .ok (t, ps)) :
      ReflTransGen QueueMove s.toRedemptions t.toRedemptions := by
  rcases step_moves hlegal hs with ⟨ha, -⟩ | hp
  · exact ha.queue h.minRedeem
  · exact pokes_queue hp

theorem Act.now_le {d : Deployment} {s t : State} {a : Action} (h : Act d a s t) : s.now ≤ t.now := by
  cases h with
  | tick now hle => exact hle
  | _ => exact le_refl _

/-- The time does not go back. -/
theorem step_now_le {d : Deployment} {s t : State} {a : Action} {ps : List Payout} (hlegal : Legal d s a)
    (hs : step d s a = .ok (t, ps)) : s.now ≤ t.now := by
  rcases step_moves hlegal hs with ⟨ha, -⟩ | hp
  · exact ha.now_le
  · exact Moves.relation (I := fun _ => True) (R := fun s t => s.now ≤ t.now) (fun _ => le_refl _)
      (fun _ _ _ => le_trans) (fun _ _ _ _ hm => ⟨trivial, hm.now_eq.ge⟩) hp trivial

/-- The invariant holds in every reachable state. -/
theorem Reachable.inv {d : Deployment} {s : State} (h : Reachable d s) : Invariant d s :=
  h.invariant (fun _ hs => .init hs) fun _ _ _ _ hi ⟨hlegal, _, hs⟩ => hi.step hlegal hs

end MoneyMarket
