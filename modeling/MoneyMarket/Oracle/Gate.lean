/-
The check of a push, exactly: when the feed's answer becomes a check price, when a price passes the
gate, when the preview of the gate returns, and when a price is stored.
-/
import MoneyMarket.Oracle.Discounted

namespace MoneyMarket

open Evm Transition

namespace CheckedOracle

variable {o o' : CheckedOracle} {feeds : Address → CheckFeed} {price : Int256} {answer check : Nat}

@[simp] theorem checked_eq_false_iff : o.checked = false ↔ o.checkOracle = 0 := by
  simp [checked]

/-! ## The check price -/

/-- The answer of the feed that is set, where it is positive. -/
def positiveAnswer (o : CheckedOracle) (feeds : Address → CheckFeed) : Option Nat :=
  if o.checkOracle = 0 then none
  else
    match (feeds o.checkOracle).latestAnswer with
    | .value answer => if 0 < answer.1 then some answer.toUint else none
    | _ => none

/-- An answer in the decimals of the oracle, rounded down. -/
def rescaled (o : CheckedOracle) (answer : Nat) : Nat :=
  answer * 10 ^ ManagedOracle.decimals / 10 ^ o.checkDecimals.1

/-- An answer that can be rescaled: what is multiplied to gain decimals stays a word. -/
def ScaleFits (o : CheckedOracle) (answer : Nat) : Prop :=
  answer * 10 ^ (ManagedOracle.decimals - o.checkDecimals.1) < uintSize

instance (o : CheckedOracle) (answer : Nat) : Decidable (o.ScaleFits answer) := inferInstanceAs (Decidable (_ < _))

theorem scale_ok_iff (ha : answer < uintSize) : o.scale answer = .ok check ↔
    o.ScaleFits answer ∧ check = o.rescaled answer := by
  unfold scale ScaleFits rescaled
  simp only
  split_ifs with heq hlt
  · rw [heq, Nat.sub_self, Nat.mul_div_cancel _ (by positivity)]
    simp [ha, eq_comm]
  · have hscale : answer * 10 ^ ManagedOracle.decimals / 10 ^ o.checkDecimals.1 =
        answer * 10 ^ (ManagedOracle.decimals - o.checkDecimals.1) := by
      conv_lhs => rw [← Nat.sub_add_cancel hlt.le, pow_add, ← Nat.mul_assoc]
      exact Nat.mul_div_cancel _ (by positivity)
    rw [hscale, checkedMul_ok_iff]
    exact and_congr_right fun _ => eq_comm
  · have hle : ManagedOracle.decimals ≤ o.checkDecimals.1 := not_lt.1 hlt
    have hscale : answer * 10 ^ ManagedOracle.decimals / 10 ^ o.checkDecimals.1 =
        answer / 10 ^ (o.checkDecimals.1 - ManagedOracle.decimals) := by
      conv_lhs => rw [← Nat.sub_add_cancel hle, pow_add]
      exact Nat.mul_div_mul_right _ _ (by positivity)
    rw [hscale, Nat.sub_eq_zero_of_le hle]
    simp [ha, eq_comm]

theorem positiveAnswer_some (h : o.positiveAnswer feeds = some answer) :
    ∃ x : Int256, o.checkOracle ≠ 0 ∧ (feeds o.checkOracle).latestAnswer = .value x ∧ 0 < x.1 ∧ answer = x.toUint := by
  unfold positiveAnswer at h
  split_ifs at h with hzero
  split at h
  · rename_i x hanswer
    split_ifs at h with hpos
    cases h
    exact ⟨x, hzero, hanswer, hpos, rfl⟩
  · cases h

theorem positiveAnswer_lt (h : o.positiveAnswer feeds = some answer) : answer < uintSize := by
  obtain ⟨x, -, -, -, rfl⟩ := positiveAnswer_some h
  exact Int256.toUint_lt x

/-- The feed that is set answers or reverts: what it returns decodes. -/
def Decodes (o : CheckedOracle) (feeds : Address → CheckFeed) : Prop :=
  o.checkOracle ≠ 0 → (feeds o.checkOracle).latestAnswer ≠ .undecodable

/-- The check price is the positive answer rescaled; without one there is none. -/
theorem checkPrice_eq (hfeed : o.Decodes feeds) : o.checkPrice feeds =
    match o.positiveAnswer feeds with
    | none => .ok none
    | some answer => do return some (← o.scale answer) := by
  unfold checkPrice positiveAnswer
  by_cases hzero : o.checkOracle = 0
  · rw [if_pos hzero, if_pos hzero]
    rfl
  · rw [if_neg hzero, if_neg hzero]
    have hdecodes := hfeed hzero
    cases hanswer : (feeds o.checkOracle).latestAnswer with
    | value x =>
      by_cases hpos : 0 < x.1
      · simp only [if_pos hpos, tryCall]
        exact if_neg (not_le.2 hpos)
      · simp only [if_neg hpos, tryCall]
        exact if_pos (not_lt.1 hpos)
    | reverted => rfl
    | undecodable => exact absurd hanswer hdecodes

theorem checkPrice_none_iff (hfeed : o.Decodes feeds) :
    o.checkPrice feeds = .ok none ↔ o.positiveAnswer feeds = none := by
  rw [checkPrice_eq hfeed]
  cases o.positiveAnswer feeds with
  | none => simp
  | some answer => simp

theorem checkPrice_some_iff : o.checkPrice feeds = .ok (some check) ↔
    ∃ answer, o.positiveAnswer feeds = some answer ∧ o.ScaleFits answer ∧ check = o.rescaled answer := by
  by_cases hfeed : o.Decodes feeds
  · rw [checkPrice_eq hfeed]
    cases hanswer : o.positiveAnswer feeds with
    | none => simp
    | some answer => simp [scale_ok_iff (positiveAnswer_lt hanswer)]
  · -- neither side gets a value out of what does not decode
    obtain ⟨hzero, hbad⟩ := Classical.not_imp.1 hfeed
    have hbad := not_not.1 hbad
    simp [checkPrice, positiveAnswer, hzero, hbad, tryCall]

/-- Reading the check price fails on an answer that cannot be rescaled, and on nothing else. -/
theorem checkPrice_returns_iff (hfeed : o.Decodes feeds) :
    (∃ check, o.checkPrice feeds = .ok check) ↔
      ∀ answer, o.positiveAnswer feeds = some answer → o.ScaleFits answer := by
  constructor
  · rintro ⟨check, hcheck⟩ answer hanswer
    cases check with
    | none =>
      rw [(checkPrice_none_iff hfeed).1 hcheck] at hanswer
      cases hanswer
    | some check =>
      obtain ⟨answer', hanswer', hfits, -⟩ := checkPrice_some_iff.1 hcheck
      cases hanswer.symm.trans hanswer'
      exact hfits
  · intro hfits
    cases hanswer : o.positiveAnswer feeds with
    | none => exact ⟨none, (checkPrice_none_iff hfeed).2 hanswer⟩
    | some answer => exact ⟨_, checkPrice_some_iff.2 ⟨answer, hanswer, hfits answer hanswer, rfl⟩⟩

/-! ## The gate -/

/-- `p` is within the band around `c`. -/
def Within (o : CheckedOracle) (p c : Nat) : Prop := priceDiff p c * maxBps ≤ o.maxDiffBps.1 * c

/-- The products of the comparison are words. -/
def BandFits (o : CheckedOracle) (p c : Nat) : Prop :=
  priceDiff p c * maxBps < uintSize ∧ o.maxDiffBps.1 * c < uintSize

instance (o : CheckedOracle) (p c : Nat) : Decidable (o.Within p c) := inferInstanceAs (Decidable (_ ≤ _))
instance (o : CheckedOracle) (p c : Nat) : Decidable (o.BandFits p c) := inferInstanceAs (Decidable (_ ∧ _))

theorem withinBand_ok_iff {p c : Nat} {within : Bool} :
    o.withinBand p c = .ok within ↔ o.BandFits p c ∧ within = decide (o.Within p c) := by
  simp only [withinBand, bind_ok_iff, checkedMul_ok_iff, pure_ok_iff]
  constructor
  · rintro ⟨_, ⟨hdiff, rfl⟩, _, ⟨hallowed, rfl⟩, rfl⟩
    exact ⟨⟨hdiff, hallowed⟩, rfl⟩
  · rintro ⟨⟨hdiff, hallowed⟩, rfl⟩
    exact ⟨_, ⟨hdiff, rfl⟩, _, ⟨hallowed, rfl⟩, rfl⟩

/-- A price passes the gate when the feed's positive answer can be rescaled and the price is within
the band around it, none of it overflowing. -/
theorem requireInBand_ok_iff {u : Unit} : o.requireInBand feeds price = .ok u ↔
    ∃ answer, o.positiveAnswer feeds = some answer ∧ o.ScaleFits answer ∧
      o.BandFits price.toUint (o.rescaled answer) ∧ o.Within price.toUint (o.rescaled answer) := by
  unfold requireInBand
  simp only [bind_ok_iff]
  constructor
  · rintro ⟨x, hx, h⟩
    cases x with
    | none => cases h
    | some check =>
      obtain ⟨answer, hanswer, hfits, rfl⟩ := checkPrice_some_iff.1 hx
      obtain ⟨within, hwithin, h⟩ := bind_ok_iff.1 h
      obtain ⟨hband, rfl⟩ := withinBand_ok_iff.1 hwithin
      refine ⟨answer, hanswer, hfits, hband, ?_⟩
      by_contra hout
      rw [if_neg (by simpa using hout)] at h
      obtain ⟨_, -, h⟩ := bind_ok_iff.1 h
      cases h
  · rintro ⟨answer, hanswer, hfits, hband, hwithin⟩
    refine ⟨_, checkPrice_some_iff.2 ⟨answer, hanswer, hfits, rfl⟩, ?_⟩
    refine bind_ok_iff.2 ⟨_, withinBand_ok_iff.2 ⟨hband, rfl⟩, ?_⟩
    rw [if_pos (decide_eq_true hwithin)]
    rfl

/-- Without an answer the preview is `false`; with one it is whether the price is within the band, and
returns when nothing overflows and the check price is not zero. -/
theorem previewInBand_ok_iff {ok : Bool} {deviation : Nat} (hfeed : o.Decodes feeds) :
    o.previewInBand feeds price = .ok (ok, deviation) ↔
      (o.positiveAnswer feeds = none ∧ ok = false ∧ deviation = 0) ∨
      ∃ answer, o.positiveAnswer feeds = some answer ∧ o.ScaleFits answer ∧
        o.BandFits price.toUint (o.rescaled answer) ∧ o.rescaled answer ≠ 0 ∧
        ok = decide (o.Within price.toUint (o.rescaled answer)) ∧
        deviation = priceDiff price.toUint (o.rescaled answer) * maxBps / o.rescaled answer := by
  unfold previewInBand
  simp only [bind_ok_iff]
  constructor
  · rintro ⟨x, hx, h⟩
    cases x with
    | none =>
      cases h
      exact .inl ⟨(checkPrice_none_iff hfeed).1 hx, rfl, rfl⟩
    | some check =>
      obtain ⟨answer, hanswer, hfits, rfl⟩ := checkPrice_some_iff.1 hx
      simp only [deviationBps, bind_ok_iff, withinBand_ok_iff, checkedMul_ok_iff, checkedDiv_ok_iff, pure_ok_iff,
        Prod.mk.injEq] at h
      obtain ⟨_, ⟨hband, rfl⟩, _, ⟨_, ⟨-, rfl⟩, hne, rfl⟩, rfl, rfl⟩ := h
      exact .inr ⟨answer, hanswer, hfits, hband, hne, rfl, rfl⟩
  · rintro (⟨hnone, rfl, rfl⟩ | ⟨answer, hanswer, hfits, hband, hne, rfl, rfl⟩)
    · exact ⟨none, (checkPrice_none_iff hfeed).2 hnone, rfl⟩
    · refine ⟨_, checkPrice_some_iff.2 ⟨answer, hanswer, hfits, rfl⟩, ?_⟩
      simp only [deviationBps, bind_ok_iff, withinBand_ok_iff, checkedMul_ok_iff, checkedDiv_ok_iff, pure_ok_iff]
      exact ⟨_, ⟨hband, rfl⟩, _, ⟨_, ⟨hband.1, rfl⟩, hne, rfl⟩, rfl⟩

/-! ## Pushing -/

/-- There is a next round. -/
def RoundFits (o : CheckedOracle) : Prop := o.currentRound.roundId + 1 < 2 ^ 80

instance (o : CheckedOracle) : Decidable o.RoundFits := inferInstanceAs (Decidable (_ < _))

/-- The oracle with `price` as its next round. -/
def stored (o : CheckedOracle) (now : Nat) (price : Int256) : CheckedOracle :=
  { o with currentRound := ⟨o.currentRound.roundId + 1, price, now, now, o.currentRound.roundId + 1⟩ }

/-- `price` passes the gate where there is one. -/
def Passes (o : CheckedOracle) (feeds : Address → CheckFeed) (price : Int256) : Prop :=
  o.checkOracle ≠ 0 → o.requireInBand feeds price = .ok ()

theorem storePrice_ok_iff {now : Nat} :
    o.storePrice now price = .ok o' ↔ o.RoundFits ∧ o' = o.stored now price := by
  simp only [storePrice, ManagedOracle.setPrice, bind_ok_iff, require_ok_iff, pure_ok_iff]
  constructor
  · rintro ⟨_, ⟨_, hfits, rfl⟩, rfl⟩
    exact ⟨hfits, rfl⟩
  · rintro ⟨hfits, rfl⟩
    exact ⟨_, ⟨(), hfits, rfl⟩, rfl⟩

theorem setPrice_ok_iff {sender : Address} {now : Nat} : o.setPrice feeds sender now price = .ok o' ↔
    (sender = o.pusher ∨ sender = o.owner) ∧ 0 < price.1 ∧ o.Passes feeds price ∧ o.RoundFits ∧
      o' = o.stored now price := by
  simp only [setPrice, onlyPriceSetter, Passes, bind_ok_iff, require_ok_iff]
  constructor
  · rintro ⟨_, hsetter, _, hpos, h⟩
    split_ifs at h with hzero
    · exact ⟨hsetter, hpos, fun hne => absurd hzero hne, storePrice_ok_iff.1 h⟩
    · obtain ⟨_, hband, h⟩ := bind_ok_iff.1 h
      exact ⟨hsetter, hpos, fun _ => hband, storePrice_ok_iff.1 h⟩
  · rintro ⟨hsetter, hpos, hband, hstore⟩
    have hstore : o.storePrice now price = .ok o' := storePrice_ok_iff.2 hstore
    refine ⟨(), hsetter, (), hpos, ?_⟩
    split_ifs with hzero
    · exact hstore
    · exact bind_ok_iff.2 ⟨(), hband hzero, hstore⟩

end CheckedOracle

namespace DiscountedCheckedOracle

open CheckedOracle

variable {o o' : DiscountedCheckedOracle} {feeds : Address → CheckFeed} {raw : Int256}

theorem setPrice_ok_iff {sender : Address} {now : Nat} : o.setPrice feeds sender now raw = .ok o' ↔
    (sender = o.pusher ∨ sender = o.owner) ∧ 0 < raw.1 ∧ ∃ adjusted, o.discount raw = .ok adjusted ∧ 0 < adjusted.1 ∧
      o.Passes feeds adjusted ∧ o.RoundFits ∧ o' = { o with toCheckedOracle := o.stored now adjusted } := by
  simp only [setPrice, setDiscountedPrice, onlyPriceSetter, Passes, bind_ok_iff, require_ok_iff]
  constructor
  · rintro ⟨_, hsetter, _, hpos, adjusted, hdiscount, _, hadjusted, h⟩
    refine ⟨hsetter, hpos, adjusted, hdiscount, hadjusted, ?_⟩
    split_ifs at h with hgate
    · simp only [bind_ok_iff, pure_ok_iff] at h
      obtain ⟨_, hband, _, hstore, rfl⟩ := h
      obtain ⟨hround, rfl⟩ := storePrice_ok_iff.1 hstore
      exact ⟨fun _ => hband, hround, rfl⟩
    · simp only [bind_ok_iff, pure_ok_iff] at h
      obtain ⟨_, hstore, rfl⟩ := h
      obtain ⟨hround, rfl⟩ := storePrice_ok_iff.1 hstore
      exact ⟨fun hne => absurd ⟨trivial, hne⟩ hgate, hround, rfl⟩
  · rintro ⟨hsetter, hpos, adjusted, hdiscount, hadjusted, hband, hround, rfl⟩
    have hstore : o.storePrice now adjusted = .ok (o.stored now adjusted) := storePrice_ok_iff.2 ⟨hround, rfl⟩
    refine ⟨(), hsetter, (), hpos, adjusted, hdiscount, (), hadjusted, ?_⟩
    split_ifs with hgate
    · exact bind_ok_iff.2 ⟨(), hband hgate.2, bind_ok_iff.2 ⟨_, hstore, rfl⟩⟩
    · exact bind_ok_iff.2 ⟨_, hstore, rfl⟩

end DiscountedCheckedOracle

namespace PriceOracle

variable {o : PriceOracle} {feeds : Address → CheckFeed} {raw : Int256} {sender : Address} {now : Nat}

/-- A push succeeds when the price and what is published of it are positive, what is published passes
the gate, and there is a next round. -/
theorem push_succeeds_iff (hsetter : sender = o.base.pusher ∨ sender = o.base.owner) :
    (∃ o', o.run ⟨sender, now, feeds, .checked (.setPrice raw)⟩ = .ok o') ↔
      0 < raw.1 ∧ ∃ adjusted, o.published raw = .ok adjusted ∧ 0 < adjusted.1 ∧ o.base.Passes feeds adjusted ∧
        o.base.RoundFits := by
  cases o with
  | checked o =>
    simp only [run, CheckedOracle.call, published, bind_ok_iff, pure_ok_iff, Except.ok.injEq,
      CheckedOracle.setPrice_ok_iff]
    constructor
    · rintro ⟨_, t, ⟨-, hpos, hpasses, hround, -⟩, -⟩
      exact ⟨hpos, raw, rfl, hpos, hpasses, hround⟩
    · rintro ⟨hpos, _, rfl, -, hpasses, hround⟩
      exact ⟨_, _, ⟨hsetter, hpos, hpasses, hround, rfl⟩, rfl⟩
  | discounted o =>
    simp only [run, published, bind_ok_iff, pure_ok_iff, DiscountedCheckedOracle.setPrice_ok_iff]
    constructor
    · rintro ⟨_, t, ⟨-, hpos, adjusted, hdiscount, hadjusted, hpasses, hround, -⟩, -⟩
      exact ⟨hpos, adjusted, hdiscount, hadjusted, hpasses, hround⟩
    · rintro ⟨hpos, adjusted, hdiscount, hadjusted, hpasses, hround⟩
      exact ⟨_, _, ⟨hsetter, hpos, adjusted, hdiscount, hadjusted, hpasses, hround, rfl⟩, rfl⟩

end PriceOracle

end MoneyMarket
