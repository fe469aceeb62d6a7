/-
The quotes of deposits and mints. A deposit mints what `previewDeposit` quotes and a mint pulls what
`previewMint` quotes. The two quotes are adjoint: where a mint of some shares is quoted at all, it is
quoted at the least HOLLAR whose deposit is quoted as many (`quotes_adjoint`).
-/
import MoneyMarket.Lib.Ratio
import MoneyMarket.Vault.Neutral
import MoneyMarket.Vault.Outlay

namespace MoneyMarket

open Evm

/-- `sender` brings `assets`, which open a position, and `receiver` is minted `shares` for them. -/
def Enters (d : Deployment) (s t : State) (sender receiver : Address) (assets shares : Nat) : Prop :=
  ∃ bil₀ bil token, bootstrap s.bil = .ok bil₀ ∧ (bil₀.mint receiver shares : Tx ERC20) = .ok bil ∧
    assets ≤ s.token.balanceOf sender ∧ token.balanceOf = (s.token.move sender d.self assets).balanceOf ∧
    Opening d assets { s with bil, token } t

/-- There are no shares yet, or the active ones are backed. -/
def Quoted (s : State) : Prop := s.bil.totalSupply = 0 ∨ ∃ active, activeAssets s = .ok active ∧ 0 < active

/-! ## The price -/

section Price

variable {d : Deployment} {s : State} {assets shares active : Nat}

/-- The dead shares stay active, so the two tests for an empty vault agree. -/
theorem silent_supply (h : (silentVault d).Reach s) : activeSupply s = 0 ↔ s.bil.totalSupply = 0 := by
  constructor
  · intro hzero
    by_contra hsupply
    have hactive := (Reachable.inv h.of_restrict).dead_active ((silent_deadShares h).held hsupply)
    have hdead : 0 < deadShares := by decide
    rw [activeSupply_eq] at hzero
    omega
  · exact activeSupply_zero

theorem previewMint_first (hsupply : activeSupply s = 0) :
    previewMint s shares = .ok assets ↔ shares + deadShares < uintSize ∧ shares + deadShares = assets := by
  unfold previewMint
  rw [if_pos hsupply]
  exact checkedAdd_ok_iff

theorem previewDeposit_first (hsupply : s.bil.totalSupply = 0) :
    previewDeposit s assets = .ok shares ↔ deadShares < assets ∧ assets - deadShares = shares := by
  unfold previewDeposit
  rw [if_pos hsupply]
  simp only [bind_ok_iff, require_ok_iff, checkedSub_ok_iff]
  constructor
  · rintro ⟨_, -, _, hdust, -, rfl⟩
    exact ⟨hdust, rfl⟩
  · rintro ⟨hdust, rfl⟩
    exact ⟨(), by omega, (), hdust, hdust.le, rfl⟩

/-- Rounded up. -/
theorem previewMint_active (hsupply : activeSupply s ≠ 0) (hactive : activeAssets s = .ok active) :
    previewMint s shares = .ok assets ↔
      shares * active + activeSupply s < uintSize ∧ (shares * active) ⌈/⌉ activeSupply s = assets := by
  unfold previewMint
  rw [if_neg hsupply, Nat.ceilDiv_eq_add_pred_div]
  simp only [bind_ok_iff, hactive, Except.ok.injEq, exists_eq_left', checkedMul_ok_iff, checkedAdd_ok_iff,
    checkedSub_ok_iff, checkedDiv_ok_iff]
  constructor
  · rintro ⟨_, ⟨-, rfl⟩, _, ⟨hfits, rfl⟩, _, ⟨-, rfl⟩, -, rfl⟩
    exact ⟨hfits, rfl⟩
  · rintro ⟨hfits, rfl⟩
    exact ⟨_, ⟨by omega, rfl⟩, _, ⟨hfits, rfl⟩, _, ⟨by omega, rfl⟩, hsupply, rfl⟩

/-- Rounded down. -/
theorem previewDeposit_active (hsupply : s.bil.totalSupply ≠ 0) (hshares : activeSupply s ≠ 0)
    (hactive : activeAssets s = .ok active) (hpos : 0 < active) :
    previewDeposit s assets = .ok shares ↔
      assets * activeSupply s < uintSize ∧ 0 < shares ∧ assets * activeSupply s / active = shares := by
  unfold previewDeposit
  rw [if_neg hsupply]
  simp only [bind_ok_iff, require_ok_iff, hactive, Except.ok.injEq, exists_eq_left', checkedMul_ok_iff,
    checkedDiv_ok_iff, pure_ok_iff]
  constructor
  · rintro ⟨_, -, _, -, _, ⟨hfits, rfl⟩, _, ⟨-, rfl⟩, _, hne, rfl⟩
    exact ⟨hfits, Nat.pos_of_ne_zero hne, rfl⟩
  · rintro ⟨hfits, hshares', rfl⟩
    refine ⟨(), ?_, (), ⟨hpos.ne', hshares⟩, _, ⟨hfits, rfl⟩, _, ⟨hpos.ne', rfl⟩, (), hshares'.ne', rfl⟩
    rintro rfl
    rw [Nat.zero_mul, Nat.zero_div] at hshares'
    exact lt_irrefl 0 hshares'

/-- What a mint is quoted at is quoted as a deposit. -/
theorem previewMint_deposits (h : (silentVault d).Reach s) (hq : Quoted s) (hshares : 1 ≤ shares)
    (hmint : previewMint s shares = .ok assets) : ∃ n, previewDeposit s assets = .ok n := by
  by_cases hsupply : s.bil.totalSupply = 0
  · obtain ⟨-, rfl⟩ := (previewMint_first ((silent_supply h).2 hsupply)).1 hmint
    exact ⟨_, (previewDeposit_first hsupply).2 ⟨by omega, rfl⟩⟩
  · have hsome : activeSupply s ≠ 0 := fun hzero => hsupply ((silent_supply h).1 hzero)
    obtain ⟨active, hactive, hpos⟩ := hq.resolve_left hsupply
    obtain ⟨hfits, rfl⟩ := (previewMint_active hsome hactive).1 hmint
    have hup := Ratio.ceilDiv_mul_lt (shares * active) (Nat.pos_of_ne_zero hsome)
    have hdown := (Ratio.price_gc hpos (Nat.pos_of_ne_zero hsome)).le_u (le_refl ((shares * active) ⌈/⌉ activeSupply s))
    exact ⟨_, (previewDeposit_active hsupply hsome hactive hpos).2 ⟨by omega, by omega, rfl⟩⟩

/-- The quotes are adjoint. -/
theorem previewMint_le_iff (h : (silentVault d).Reach s) (hq : Quoted s) {cost amount n : Nat}
    (hmint : previewMint s shares = .ok cost) (hdeposit : previewDeposit s amount = .ok n) :
    cost ≤ amount ↔ shares ≤ n := by
  by_cases hsupply : s.bil.totalSupply = 0
  · obtain ⟨-, rfl⟩ := (previewMint_first ((silent_supply h).2 hsupply)).1 hmint
    obtain ⟨hdust, rfl⟩ := (previewDeposit_first hsupply).1 hdeposit
    omega
  · have hsome : activeSupply s ≠ 0 := fun hzero => hsupply ((silent_supply h).1 hzero)
    obtain ⟨active, hactive, hpos⟩ := hq.resolve_left hsupply
    obtain ⟨-, rfl⟩ := (previewMint_active hsome hactive).1 hmint
    obtain ⟨-, -, rfl⟩ := (previewDeposit_active hsupply hsome hactive hpos).1 hdeposit
    exact Ratio.price_gc hpos (Nat.pos_of_ne_zero hsome) shares amount

/-- What a mint multiplies and adds up fits. -/
def MintFits (s : State) (shares : Nat) : Prop :=
  if s.bil.totalSupply = 0 then shares + deadShares < uintSize
  else ∀ active, activeAssets s = .ok active → shares * active + activeSupply s < uintSize

/-- A mint is quoted where its products fit. -/
theorem previewMint_defined_iff (h : (silentVault d).Reach s) (hq : Quoted s) :
    (∃ a, previewMint s shares = .ok a) ↔ MintFits s shares := by
  unfold MintFits
  split_ifs with hsupply
  · simp only [previewMint_first ((silent_supply h).2 hsupply)]
    exact ⟨fun ⟨_, hfits, _⟩ => hfits, fun hfits => ⟨_, hfits, rfl⟩⟩
  · have hsome : activeSupply s ≠ 0 := fun hzero => hsupply ((silent_supply h).1 hzero)
    obtain ⟨active, hactive, -⟩ := hq.resolve_left hsupply
    simp only [previewMint_active hsome hactive]
    constructor
    · rintro ⟨_, hfits, -⟩ active' hactive'
      cases hactive.symm.trans hactive'
      exact hfits
    · intro hfits
      exact ⟨_, hfits active hactive, rfl⟩

/-- A mint is quoted at the least that is quoted as many shares. -/
theorem previewMint_isLeast (h : (silentVault d).Reach s) (hq : Quoted s) (hshares : 1 ≤ shares)
    (hmint : previewMint s shares = .ok assets) :
    IsLeast {a | ∃ n, previewDeposit s a = .ok n ∧ shares ≤ n} assets := by
  constructor
  · obtain ⟨n, hn⟩ := previewMint_deposits h hq hshares hmint
    exact ⟨n, hn, (previewMint_le_iff h hq hmint hn).1 (le_refl _)⟩
  · rintro a ⟨n, hn, hle⟩
    exact (previewMint_le_iff h hq hmint hn).2 hle

end Price

/-! ## The calls -/

section Calls

variable {d : Deployment} {env : Replies} {s t : State} {sender receiver : Address} {assets shares : Nat}

/-- A deposit mints what is quoted. -/
theorem deposit_quoted (h : deposit d env s sender assets receiver = .ok (t, shares)) :
    previewDeposit s assets = .ok shares ∧ Enters d s t sender receiver assets shares := by
  refine ⟨?_, depositShares_outlay (deposit_outlay h).2⟩
  simp only [deposit, bind_ok_iff, pure_ok_iff, Prod.mk.injEq] at h
  obtain ⟨_, -, _, -, _, hprice, _, -, _, -, -, rfl⟩ := h
  exact (validateAndPreviewShares_ok_iff.1 hprice).2

/-- A mint pulls what is quoted. -/
theorem mint_quoted (h : mint d env s sender shares receiver = .ok (t, assets)) :
    previewMint s shares = .ok assets ∧ Enters d s t sender receiver assets shares := by
  refine ⟨?_, depositShares_outlay (mint_outlay h).2⟩
  simp only [mint, bind_ok_iff, pure_ok_iff, Prod.mk.injEq] at h
  obtain ⟨_, -, _, -, _, -, _, -, _, hprice, _, -, _, -, -, rfl⟩ := h
  exact hprice

/-- Where its limits let a deposit through, it is priced as it is quoted, reverts included. -/
theorem validateAndPreviewShares_eq (h : validateDeposit s assets = .ok ()) :
    validateAndPreviewShares s assets = previewDeposit s assets := by
  have hsome : assets ≠ 0 := by
    simp only [validateDeposit, bind_ok_iff, require_ok_iff] at h
    obtain ⟨_, -, _, hne, -⟩ := h
    exact hne
  unfold validateAndPreviewShares previewDeposit
  rw [h, require_ok_iff.2 hsome]

end Calls

/-- In every reachable state whose active shares are backed, or that has none yet, a deposit mints what
is quoted and a mint pulls what is quoted; where the limits let a deposit through, its price is its
quote, reverts included. A mint is quoted exactly where its products fit, and then at the least HOLLAR
whose deposit is quoted as many shares; so neither way in ever gives more for less. -/
theorem quotes_adjoint {d : Deployment} {s : State} (h : (silentVault d).Reach s) (hq : Quoted s) :
    (∀ env sender receiver assets t shares, deposit d env s sender assets receiver = .ok (t, shares) →
      previewDeposit s assets = .ok shares ∧ Enters d s t sender receiver assets shares) ∧
    (∀ env sender receiver shares t assets, mint d env s sender shares receiver = .ok (t, assets) →
      previewMint s shares = .ok assets ∧ Enters d s t sender receiver assets shares) ∧
    (∀ assets, validateDeposit s assets = .ok () → validateAndPreviewShares s assets = previewDeposit s assets) ∧
    (∀ shares, (∃ a, previewMint s shares = .ok a) ↔ MintFits s shares) ∧
    (∀ shares assets, 1 ≤ shares → previewMint s shares = .ok assets →
      IsLeast {a | ∃ n, previewDeposit s a = .ok n ∧ shares ≤ n} assets) ∧
    ∀ shares cost amount n, 1 ≤ shares → previewMint s shares = .ok cost → previewDeposit s amount = .ok n →
      (cost ≤ amount ↔ shares ≤ n) :=
  ⟨fun _ _ _ _ _ _ hd => deposit_quoted hd, fun _ _ _ _ _ _ hm => mint_quoted hm,
    fun _ hv => validateAndPreviewShares_eq hv, fun _ => previewMint_defined_iff h hq,
    fun _ _ hn hm => previewMint_isLeast h hq hn hm, fun _ _ _ _ _ hm hd => previewMint_le_iff h hq hm hd⟩

/-- At a rate above one the least HOLLAR for a share is what its mint is quoted at, the product rounded up. -/
theorem quotes_adjoint_demo : ∃ s : State, activeAssets s = .ok 150000325025367833587 ∧
    activeSupply s = 149999936580496473241 ∧ previewMint s (10 ^ 18) = .ok 1000002589633570625 ∧
    IsLeast {a | ∃ n, previewDeposit s a = .ok n ∧ 10 ^ 18 ≤ n} 1000002589633570625 := by
  obtain ⟨s, hs, htest⟩ := observe_reach demo DeadSilent demoQuiet demoSetup ratesRun
    (fun s => passes (activeAssets s) fun active => passes (previewMint s (10 ^ 18)) fun cost =>
      decide (active = 150000325025367833587 ∧ activeSupply s = 149999936580496473241 ∧
        cost = 1000002589633570625)) (by decide +kernel)
  obtain ⟨active, hactive, htest⟩ := passes_ok htest
  obtain ⟨cost, hcost, htest⟩ := passes_ok htest
  obtain ⟨rfl, hsupply, rfl⟩ := of_decide_eq_true htest
  obtain ⟨-, -, -, -, hleast, -⟩ := quotes_adjoint hs (.inr ⟨_, hactive, by decide⟩)
  exact ⟨s, hactive, hsupply, hcost, hleast _ _ (by decide) hcost⟩

/-- Alice deposits 100 HOLLAR. -/
def quotedRun : List Action :=
  demoFunding ++ [.call alice (demoReplies (10 ^ 17) 1000 (some (10 ^ 20)) none none) (.deposit (10 ^ 20) alice)]

theorem quotedRun_ends : ∃ s, (silentVault demo).Reach s ∧ activeAssets s = .ok (10 ^ 20) ∧
    activeSupply s = 10 ^ 20 ∧ s.bil.totalSupply = 10 ^ 20 := by
  obtain ⟨s, hs, htest⟩ := observe_reach demo DeadSilent demoQuiet demoSetup quotedRun
    (fun s => passes (activeAssets s) fun active => decide (active = 10 ^ 20 ∧ activeSupply s = 10 ^ 20 ∧
      s.bil.totalSupply = 10 ^ 20)) (by decide +kernel)
  obtain ⟨active, hactive, htest⟩ := passes_ok htest
  obtain ⟨rfl, hsupply, htotal⟩ := of_decide_eq_true htest
  exact ⟨s, hs, hactive, hsupply, htotal⟩

/-- At a rate of one, shares whose product fits are quoted at as much HOLLAR. -/
theorem atPar_isLeast {s : State} {shares : Nat} (hsupply : s.bil.totalSupply ≠ 0) (hsome : activeSupply s ≠ 0)
    (hactive : activeAssets s = .ok (activeSupply s)) (hpos : 0 < shares) (hfits : shares * activeSupply s < uintSize) :
    IsLeast {a | ∃ n, previewDeposit s a = .ok n ∧ shares ≤ n} shares := by
  have hpar : ∀ a, a * activeSupply s / activeSupply s = a := fun a => Nat.mul_div_cancel a (Nat.pos_of_ne_zero hsome)
  have hdeposit : ∀ a n, previewDeposit s a = .ok n ↔
      a * activeSupply s < uintSize ∧ 0 < n ∧ a * activeSupply s / activeSupply s = n :=
    fun a n => previewDeposit_active hsupply hsome hactive (Nat.pos_of_ne_zero hsome)
  constructor
  · exact ⟨shares, (hdeposit _ _).2 ⟨hfits, hpos, hpar _⟩, le_refl _⟩
  · rintro a ⟨n, hn, hle⟩
    obtain ⟨-, -, rfl⟩ := (hdeposit a n).1 hn
    rwa [hpar] at hle

/-- A revert of the checked arithmetic. -/
def panics {α : Type} : Tx α → Bool
  | .error (.panic .arithmetic) => true
  | _ => false

theorem panics_error {α : Type} {x : Tx α} (h : panics x = true) : x = .error (.panic .arithmetic) := by
  unfold panics at h
  split at h
  · rfl
  · cases h

/-- Every share is requested, the dead ones included, and settled. -/
def buriedRun : List Action :=
  demoFunding ++
    [.call 0xad demoQuiet (.setMinRedeemAmount 1),
     .call alice (demoReplies (10 ^ 17) 1000 (some (10 ^ 20)) none none) (.deposit (10 ^ 20) alice),
     .call alice demoQuiet (.requestRedeem (10 ^ 20 - 1000) alice alice),
     .call deadAddress demoQuiet (.requestRedeem 1000 deadAddress deadAddress),
     .tick 1000,
     .call bob (demoReplies 0 0 none (some 317097919837645) (some (10 ^ 20))) (.pokeDecentral 0)]

/-- The last wei of value are backed by no active share: a mint is quoted, and no deposit. -/
theorem buriedRun_ends : ∃ s active, Reachable demo s ∧ activeAssets s = .ok active ∧ 0 < active ∧
    previewMint s 1 = .ok 1001 ∧ ∀ n, previewDeposit s 1001 ≠ .ok n := by
  obtain ⟨s, hs, htest⟩ := observe_reach demo (fun _ _ => True) demoQuiet demoSetup buriedRun
    (fun s => passes (activeAssets s) fun active => decide (0 < active ∧ activeSupply s = 0 ∧ s.bil.totalSupply ≠ 0))
    (by decide +kernel)
  obtain ⟨active, hactive, htest⟩ := passes_ok htest
  obtain ⟨hpos, hsupply, hsome⟩ := of_decide_eq_true htest
  refine ⟨s, active, hs.of_restrict, hactive, hpos, (previewMint_first hsupply).2 ⟨by decide, rfl⟩, fun n hn => ?_⟩
  rw [previewDeposit, if_neg hsome] at hn
  simp only [bind_ok_iff, require_ok_iff] at hn
  obtain ⟨_, -, _, -, _, ⟨-, hne⟩, -⟩ := hn
  exact hne hsupply

/-- A pool with a rate beyond all words: the deposit is quoted, and reverts where its position is
recorded. For as many shares as just cost less than a word, the least HOLLAR is quoted as a deposit, but
not as a mint, which rounds up with one supply more. And once the dead shares are redeemed too, a mint is
quoted where no deposit is. -/
theorem quotes_partial :
    (¬ ∀ (d : Deployment) (env : Replies) (s : State) (sender receiver : Address) (assets : Nat),
      (silentVault d).Reach s → Quoted s → validateDeposit s assets = .ok () →
      deposit d env s sender assets receiver = .error (.panic .arithmetic) → ∃ e, previewDeposit s assets = .error e) ∧
    (¬ ∀ (d : Deployment) (s : State) (shares assets : Nat), (silentVault d).Reach s → Quoted s → 1 ≤ shares →
      IsLeast {a | ∃ n, previewDeposit s a = .ok n ∧ shares ≤ n} assets → previewMint s shares = .ok assets) ∧
    ¬ ∀ (d : Deployment) (s : State) (shares assets : Nat), Reachable d s → Quoted s → 1 ≤ shares →
      previewMint s shares = .ok assets → IsLeast {a | ∃ n, previewDeposit s a = .ok n ∧ shares ≤ n} assets := by
  refine ⟨?_, ?_, ?_⟩
  · intro hall
    obtain ⟨s, hs, htest⟩ := observe_reach demo DeadSilent demoQuiet demoSetup demoFunding
      (fun s => decide (s.bil.totalSupply = 0) && (passes (validateDeposit s 2000) fun _ =>
        panics (deposit demo (demoReplies (2 ^ 255) 1000 (some 2000) none none) s alice 2000 alice)))
      (by decide +kernel)
    rw [Bool.and_eq_true, decide_eq_true_iff] at htest
    obtain ⟨hsupply, htest⟩ := htest
    obtain ⟨_, hvalid, htest⟩ := passes_ok htest
    obtain ⟨e, he⟩ := hall demo _ s alice alice 2000 hs (.inl hsupply) hvalid (panics_error htest)
    rw [(previewDeposit_first hsupply).2 ⟨by decide, rfl⟩] at he
    cases he
  · intro hall
    obtain ⟨s, hs, hactive, hsupply, htotal⟩ := quotedRun_ends
    have hsome : activeSupply s ≠ 0 := by
      rw [hsupply]
      decide
    have hleast : IsLeast {a | ∃ n, previewDeposit s a = .ok n ∧ (uintSize - 1) / 10 ^ 20 ≤ n}
        ((uintSize - 1) / 10 ^ 20) :=
      atPar_isLeast (by rw [htotal]; decide) hsome (by rw [hsupply]; exact hactive) (by decide)
        (by rw [hsupply]; decide)
    have hmint := hall demo s _ _ hs (.inr ⟨_, hactive, by decide⟩) (by decide) hleast
    have hfits := ((previewMint_active hsome hactive).1 hmint).1
    rw [hsupply] at hfits
    exact absurd hfits (by decide)
  · intro hall
    obtain ⟨s, active, hs, hactive, hpos, hmint, hdeposit⟩ := buriedRun_ends
    obtain ⟨⟨n, hn, -⟩, -⟩ := hall demo s 1 1001 hs (.inr ⟨active, hactive, hpos⟩) (le_refl _) hmint
    exact hdeposit n hn

end MoneyMarket
