/-
The preview of a push against the push itself. Both read the same feed and compute the same band, but
the preview divides by the check price, and neither is safe from overflow: the preview returns, and says
what the push does, exactly when nothing on its way overflows and the answer does not rescale to zero
(`preview_agrees_iff`).
-/
import MoneyMarket.Oracle.Band

namespace MoneyMarket

open Evm Transition

/-! ## The discount -/

namespace DiscountedCheckedOracle

variable {o : DiscountedCheckedOracle} {raw adjusted : Int256}

/-- A positive price is marked down by the coefficient, rounded down, where the product is a word. -/
theorem discount_ok_iff (hpos : 0 < raw.1) : o.discount raw = .ok adjusted ↔
    raw.toUint * o.coefficient.1 < uintSize ∧ adjusted.1 = (raw.toUint * o.coefficient.1 / one : Nat) := by
  have hraw := raw.2
  have hnat := Int256.toUint_of_nonneg hpos.le
  have hsmall : raw.toUint * o.coefficient.1 / one < 2 ^ 255 := by
    refine lt_of_le_of_lt (Nat.div_le_of_le_mul ?_) (show raw.toUint < 2 ^ 255 by omega)
    rw [Nat.mul_comm one]
    exact Nat.mul_le_mul_left _ o.coefficient.2.2
  have hval := Int256.ofUint_val hsmall
  simp only [discount, bind_ok_iff, checkedMul_ok_iff, pure_ok_iff]
  constructor
  · rintro ⟨_, ⟨hfits, rfl⟩, rfl⟩
    exact ⟨hfits, hval⟩
  · rintro ⟨hfits, hadjusted⟩
    exact ⟨_, ⟨hfits, rfl⟩, Subtype.ext (hval.trans hadjusted.symm)⟩

end DiscountedCheckedOracle

namespace PriceOracle

open CheckedOracle

variable {o : PriceOracle} {feeds : Address → CheckFeed} {raw : Int256} {sender : Address} {now : Nat}

/-! ## The preview -/

/-- The preview asks of what is published what a push asks of it. -/
theorem previewSetPrice_eq (hpos : 0 < raw.1) : o.previewSetPrice feeds raw = (do
    let adjusted ← o.published raw
    if adjusted.1 ≤ 0 then return (false, 0)
    else if o.base.checkOracle = 0 then return (true, 0)
    else o.base.previewInBand feeds adjusted) := by
  cases o with
  | checked o =>
    simp only [previewSetPrice, CheckedOracle.previewSetPrice, published, base]
    rw [if_neg (not_le.2 hpos)]
    show _ = if raw.1 ≤ 0 then _ else _
    rw [if_neg (not_le.2 hpos)]
    by_cases hset : o.checkOracle = 0
    · simp [hset, pure, Except.pure]
    · simp [hset]
  | discounted o =>
    simp only [previewSetPrice, DiscountedCheckedOracle.previewSetPrice, published, base]
    rw [if_neg (not_le.2 hpos)]
    by_cases hset : o.checkOracle = 0
    · simp [hset]
    · simp [hset]

/-- What a preview of `raw` needs: the discounted price is a word, and where a feed answers it the
answer rescales to a positive word and the band is compared in words. There has to be a next round,
which the preview does not look at, where the price would be accepted. -/
def Previewable (o : PriceOracle) (feeds : Address → CheckFeed) (raw : Int256) : Prop :=
  0 < raw.1 → ∃ adjusted, o.published raw = .ok adjusted ∧ (0 < adjusted.1 →
    (o.base.checkOracle = 0 → o.base.RoundFits) ∧
    ∀ answer, o.base.positiveAnswer feeds = some answer →
      o.base.ScaleFits answer ∧ o.base.BandFits adjusted.toUint (o.base.rescaled answer) ∧
      o.base.rescaled answer ≠ 0 ∧ (o.base.Within adjusted.toUint (o.base.rescaled answer) → o.base.RoundFits))

/-- The preview of `raw` returns, and is positive exactly when the push by `sender` succeeds. -/
def PreviewAgrees (o : PriceOracle) (feeds : Address → CheckFeed) (raw : Int256) (sender : Address) (now : Nat) :
    Prop :=
  ∃ ok deviation, o.previewSetPrice feeds raw = .ok (ok, deviation) ∧
    (ok = true ↔ ∃ o', o.run ⟨sender, now, feeds, .checked (.setPrice raw)⟩ = .ok o')

/-- With a feed set, the preview of a published price agrees with the gate when it returns. -/
theorem previewInBand_agrees {o : CheckedOracle} {adjusted : Int256} (hfeed : o.Decodes feeds)
    (hset : o.checkOracle ≠ 0) :
    (∃ ok deviation, o.previewInBand feeds adjusted = .ok (ok, deviation) ∧
      (ok = true ↔ o.Passes feeds adjusted ∧ o.RoundFits)) ↔
    ∀ answer, o.positiveAnswer feeds = some answer →
      o.ScaleFits answer ∧ o.BandFits adjusted.toUint (o.rescaled answer) ∧ o.rescaled answer ≠ 0 ∧
        (o.Within adjusted.toUint (o.rescaled answer) → o.RoundFits) := by
  have hpasses : o.Passes feeds adjusted ↔ o.requireInBand feeds adjusted = .ok () :=
    ⟨fun h => h hset, fun h _ => h⟩
  simp only [previewInBand_ok_iff hfeed, hpasses, requireInBand_ok_iff]
  cases hanswer : o.positiveAnswer feeds with
  | none =>
    refine ⟨fun _ _ h => absurd h (by simp), fun _ => ⟨false, 0, .inl ⟨rfl, rfl, rfl⟩, ?_⟩⟩
    simp
  | some answer =>
    simp only [Option.some.injEq, forall_eq', exists_eq_left']
    constructor
    · rintro ⟨ok, deviation, ⟨hnone, -⟩ | ⟨hscale, hband, hne, rfl, -⟩, hagree⟩
      · cases hnone
      · refine ⟨hscale, hband, hne, fun hwithin => ?_⟩
        exact (hagree.1 (decide_eq_true hwithin)).2
    · rintro ⟨hscale, hband, hne, hround⟩
      refine ⟨_, _, .inr ⟨hscale, hband, hne, rfl, rfl⟩, ?_⟩
      rw [decide_eq_true_iff]
      exact ⟨fun hwithin => ⟨⟨hscale, hband, hwithin⟩, hround hwithin⟩, fun h => h.1.2.2⟩

end PriceOracle

open PriceOracle CheckedOracle in
/-- In any configuration, and whatever the feed answers or if it reverts: the preview returns and says
whether a push by the pusher or the owner succeeds, if and only if nothing on its way overflows or
rescales to zero. -/
theorem preview_agrees_iff {o : PriceOracle} {feeds : Address → CheckFeed} {raw : Int256} {sender : Address} {now : Nat}
    (hfeed : o.base.Decodes feeds) (hsetter : sender = o.base.pusher ∨ sender = o.base.owner) :
    o.PreviewAgrees feeds raw sender now ↔ o.Previewable feeds raw := by
  unfold PreviewAgrees Previewable
  simp only [push_succeeds_iff hsetter]
  by_cases hpos : 0 < raw.1
  · simp only [hpos, true_and, forall_const, previewSetPrice_eq hpos]
    cases hpublished : o.published raw with
    | error e => simp
    | ok adjusted =>
      simp only [Except.ok.injEq, exists_eq_left']
      by_cases hadjusted : 0 < adjusted.1
      · simp only [hadjusted, true_and, forall_const, bind, Except.bind, if_neg (not_le.2 hadjusted)]
        by_cases hset : o.base.checkOracle = 0
        · have hpasses : o.base.Passes feeds adjusted := fun hne => absurd hset hne
          simp [hset, hpasses, positiveAnswer, pure, Except.pure]
        · rw [← previewInBand_agrees hfeed hset]
          simp [hset]
      · simp [hadjusted, bind, Except.bind, pure, Except.pure, not_lt.1 hadjusted]
  · have hrefused : o.previewSetPrice feeds raw = .ok (false, 0) := by
      cases o with
      | checked o => exact if_pos (not_lt.1 hpos)
      | discounted o => exact if_pos (not_lt.1 hpos)
    simp [hrefused, hpos]

open PriceOracle CheckedOracle in
/-- The preview of a dollar, which is stored as 95 cents. -/
theorem preview_agrees_iff_demo :
    (PriceOracle.discounted demoDiscounted).PreviewAgrees (demoFeeds 8 dollar) dollar 0xb0b 8 := by
  refine (preview_agrees_iff (fun _ h => by cases h) (.inl rfl)).2 fun _ => ?_
  refine ⟨⟨95 * 10 ^ 6, by decide⟩, by decide, fun _ => ⟨fun h => absurd h (by decide), fun answer hanswer => ?_⟩⟩
  obtain rfl : 10 ^ 8 = answer := Option.some.inj (hanswer.symm.trans (by decide)) |>.symm
  exact ⟨by decide, by decide, by decide, fun _ => by decide⟩

open PriceOracle in
/-- A feed of 18 decimals answers its last one, which rescales to zero: the preview divides by it. -/
theorem preview_reverts : ¬ ∀ (o : PriceOracle), machine.Reach o → ∀ (feeds : Address → CheckFeed) (raw : Int256)
    (sender : Address) (now : Nat), o.base.Decodes feeds → sender = o.base.pusher ∨ sender = o.base.owner →
      o.PreviewAgrees feeds raw sender now := by
  intro hall
  obtain ⟨ok, deviation, hpreview, -⟩ := hall (.checked demoStrict) (.init (.checked demoStrict_constructed))
    (demoFeeds 18 ⟨1, by decide⟩) ⟨1, by decide⟩ 0xb0b 8 (fun _ h => by cases h) (.inl rfl)
  have hpanic : (PriceOracle.checked demoStrict).previewSetPrice (demoFeeds 18 ⟨1, by decide⟩) ⟨1, by decide⟩ =
      .error (.panic .divisionByZero) := by
    decide
  rw [hpanic] at hpreview
  cases hpreview

end MoneyMarket
