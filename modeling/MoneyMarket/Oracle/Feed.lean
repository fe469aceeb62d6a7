/-
What a check feed can stop. An answer too large to rescale stops the owner's unchecked push, which
reads it for its event only (`hatch_open_iff`). A feed is taken for its raw answer, but the band is
around the rescaled one: `enabling_iff` says which feeds leave the pusher a price that is accepted.
-/
import MoneyMarket.Oracle.Preview

namespace MoneyMarket

open Evm Transition

/-! ## The escape hatch -/

namespace PriceOracle

open CheckedOracle

variable {o o' : PriceOracle} {feeds : Address → CheckFeed} {sender : Address} {now : Nat} {price : Int256}

/-- The owner's unchecked push stores the price as it is. -/
theorem setPriceUnchecked_run (h : o.run ⟨sender, now, feeds, .checked (.setPriceUnchecked price)⟩ = .ok o') :
    o'.price = price := by
  have hbase := run_base (by simp) rfl h
  simp only [call, setPriceUnchecked, bind_ok_iff] at hbase
  obtain ⟨_, -, _, -, hstore⟩ := hbase
  obtain ⟨-, hstored⟩ := storePrice_ok_iff.1 hstore
  rw [PriceOracle.price, hstored]
  rfl

/-- It succeeds when the check price can be read and there is a next round. -/
theorem setPriceUnchecked_succeeds (hround : o.base.RoundFits) {check : Option Nat}
    (hcheck : o.base.checkPrice feeds = .ok check) :
    ∃ o', o.run ⟨o.base.owner, now, feeds, .checked (.setPriceUnchecked price)⟩ = .ok o' := by
  have hcall : o.base.call feeds o.base.owner now (.setPriceUnchecked price) = .ok (o.base.stored now price) := by
    simp only [call, setPriceUnchecked, ManagedOracle.onlyOwner, bind_ok_iff, require_ok_iff]
    exact ⟨(), trivial, check, hcheck, storePrice_ok_iff.2 ⟨hround, rfl⟩⟩
  have hrun : ∃ o', o.run ⟨o.base.owner, now, feeds, .checked (.setPriceUnchecked price)⟩ = .ok o' ∧
      o'.base = o.base.stored now price := run_of_base (by simp) rfl hcall
  exact hrun.imp fun _ h => h.1

end PriceOracle

open PriceOracle in
/-- In any state with a next round, and whatever the feed answers or if it reverts: the check price can
be read and the owner's unchecked push of any price succeeds and stores it, if and only if a positive
answer of the feed can be rescaled. -/
theorem hatch_open_iff {o : PriceOracle} {feeds : Address → CheckFeed} (hfeed : o.base.Decodes feeds)
    (hround : o.base.RoundFits) :
    ((∃ check, o.base.checkPrice feeds = .ok check) ∧ ∀ (price : Int256) (now : Nat), ∃ o',
      o.run ⟨o.base.owner, now, feeds, .checked (.setPriceUnchecked price)⟩ = .ok o' ∧ o'.price = price) ↔
    ∀ answer, o.base.positiveAnswer feeds = some answer → o.base.ScaleFits answer := by
  rw [← CheckedOracle.checkPrice_returns_iff hfeed]
  constructor
  · rintro ⟨hcheck, -⟩
    exact hcheck
  · rintro ⟨check, hcheck⟩
    refine ⟨⟨check, hcheck⟩, fun price now => ?_⟩
    have hrun : ∃ o', o.run ⟨o.base.owner, now, feeds, .checked (.setPriceUnchecked price)⟩ = .ok o' :=
      setPriceUnchecked_succeeds hround hcheck
    obtain ⟨o', hrun⟩ := hrun
    exact ⟨o', hrun, setPriceUnchecked_run hrun⟩

/-- An oracle that allows for 5% too, checked against a feed of 6 decimals. -/
def demoCoarse : CheckedOracle where
  owner := 0xad
  currentRound := ⟨1, dollar, 7, 7, 1⟩
  checkOracle := 0xfeed
  checkDecimals := ⟨6, by decide⟩
  maxDiffBps := demoDiscounted.maxDiffBps
  pusher := 0xb0b

theorem demoCoarse_constructed :
    CheckedOracle.construct 0xde (demoFeeds 6 dollar) 7 0xad dollar 0xfeed 500 0xb0b = .ok demoCoarse := by
  decide

/-- Its owner pushes unchecked while the feed answers a hundred dollars. -/
theorem hatch_open_iff_demo : ∃ o' : PriceOracle,
    (PriceOracle.checked demoCoarse).run ⟨0xad, 8, demoFeeds 6 dollar, .checked (.setPriceUnchecked dollar)⟩ = .ok o' ∧
      o'.price = dollar := by
  have hdecodes : (PriceOracle.checked demoCoarse).base.Decodes (demoFeeds 6 dollar) := fun _ h => by cases h
  have hopen := (hatch_open_iff hdecodes (by decide)).2 fun answer hanswer => by
      obtain rfl : 10 ^ 8 = answer := Option.some.inj (hanswer.symm.trans (by decide)) |>.symm
      decide
  exact hopen.2 dollar 8

/-- The largest answer there is. -/
def hugeAnswer : Int256 := ⟨2 ^ 255 - 1, by decide⟩

open PriceOracle in
/-- An answer that does not fit when it gains two decimals, and the hatch is closed. -/
theorem hatch_blocked : ¬ ∀ (o : PriceOracle), machine.Reach o → ∀ feeds : Address → CheckFeed, o.base.Decodes feeds →
    o.base.RoundFits → (∃ check, o.base.checkPrice feeds = .ok check) ∧ ∀ (price : Int256) (now : Nat), ∃ o',
      o.run ⟨o.base.owner, now, feeds, .checked (.setPriceUnchecked price)⟩ = .ok o' ∧ o'.price = price := by
  intro hall
  obtain ⟨-, hopen⟩ := hall (.checked demoCoarse) (.init (.checked demoCoarse_constructed)) (demoFeeds 6 hugeAnswer)
    (fun _ h => by cases h) (by decide)
  obtain ⟨o', hrun, -⟩ := hopen dollar 8
  have hpanic : (PriceOracle.checked demoCoarse).run
      ⟨0xad, 8, demoFeeds 6 hugeAnswer, .checked (.setPriceUnchecked dollar)⟩ = .error (.panic .arithmetic) := by
    have hcall : demoCoarse.setPriceUnchecked (demoFeeds 6 hugeAnswer) 0xad 8 dollar = .error (.panic .arithmetic) := by
      decide
    simp only [run, CheckedOracle.call, hcall]
    rfl
  exact absurd (hrun.symm.trans hpanic) (by simp)

/-! ## Enabling a check -/

namespace CheckFeed

/-- The decimals a feed is set with: those it answers, or the oracle's own. -/
def setDecimals (feed : CheckFeed) : Nat :=
  match feed.decimals with
  | .value d => d
  | _ => ManagedOracle.decimals

end CheckFeed

namespace CheckedOracle

variable {o o' : CheckedOracle} {feeds : Address → CheckFeed} {feed : Address}

/-- A feed is set when it gives a positive answer. -/
theorem setCheckOracle_ok (hne : feed ≠ 0) (h : o.setCheckOracle feeds feed = .ok o') :
    (∃ answer : Int256, (feeds feed).latestAnswer = .value answer ∧ 0 < answer.1) ∧
      ∃ d, d.1 = (feeds feed).setDecimals ∧ o' = { o with checkOracle := feed, checkDecimals := d } := by
  simp only [setCheckOracle, if_neg hne, bind_ok_iff, require_ok_iff, pure_ok_iff] at h
  obtain ⟨d, hd, _, hanswers, _, rfl, rfl⟩ := h
  constructor
  · unfold feedAnswers at hanswers
    obtain ⟨x, hx, hanswers⟩ := bind_ok_iff.1 hanswers
    cases x with
    | none => cases hanswers
    | some answer => exact ⟨answer, tryCall_some_iff.1 hx, of_decide_eq_true (Except.ok.inj hanswers)⟩
  · refine ⟨d, ?_, rfl⟩
    unfold feedDecimals at hd
    obtain ⟨x, hx, hd⟩ := bind_ok_iff.1 hd
    cases x with
    | none =>
      rw [tryCall_none_iff] at hx
      cases hd
      simp only [CheckFeed.setDecimals, hx]
    | some n =>
      rw [tryCall_some_iff] at hx
      dsimp only at hd
      split_ifs at hd with hle
      cases hd
      simp only [CheckFeed.setDecimals, hx]

end CheckedOracle

namespace DiscountedCheckedOracle

/-- A raw price whose product with the coefficient is a word is a positive `int256`, and is
discounted. -/
theorem discount_reaches {o : DiscountedCheckedOracle} {r : Nat} (hrpos : 0 < r)
    (hle : r * o.coefficient.1 ≤ uintSize - 1) :
    ∃ raw adjusted : Int256, 0 < raw.1 ∧ o.discount raw = .ok adjusted ∧
      adjusted.1 = (r * o.coefficient.1 / one : Nat) := by
  have hk := o.coefficient.2
  -- the coefficient is at least two, so the product overflows before the raw price does
  have hrlt : r < 2 ^ 255 := by
    have hmin : r * minCoefficient ≤ uintSize - 1 := le_trans (Nat.mul_le_mul_left _ hk.1) hle
    have : (2 : Nat) ^ 255 * minCoefficient > uintSize - 1 := by decide
    exact Nat.lt_of_mul_lt_mul_right (lt_of_le_of_lt hmin this)
  have hsmall : r * o.coefficient.1 / one < 2 ^ 255 := by
    refine lt_of_le_of_lt (Nat.div_le_of_le_mul ?_) hrlt
    rw [Nat.mul_comm one]
    exact Nat.mul_le_mul_left _ hk.2
  let raw : Int256 := ⟨r, by omega, by omega⟩
  have hraw : 0 < raw.1 := by show (0 : Int) < r; omega
  have hnat : raw.toUint = r := by
    have : (raw.toUint : Int) = r := Int256.toUint_of_nonneg hraw.le
    omega
  have hnonneg := Int.natCast_nonneg (r * o.coefficient.1 / one)
  refine ⟨raw, ⟨(r * o.coefficient.1 / one : Nat), by omega, by omega⟩, hraw, (discount_ok_iff hraw).2 ?_, rfl⟩
  rw [hnat]
  exact ⟨lt_of_le_of_lt hle (by decide), rfl⟩

end DiscountedCheckedOracle

namespace PriceOracle

open CheckedOracle DiscountedCheckedOracle

/-- The largest price that a push can store. -/
def largest : PriceOracle → Nat
  | .checked _ => 2 ^ 255 - 1
  | .discounted o => (uintSize - 1) / o.coefficient.1 * o.coefficient.1 / one

/-- Every price up to the largest is stored by some push, the discount being no deeper than to skip
none. -/
theorem published_iff {o : PriceOracle} {p : Nat} (hp : 0 < p) :
    (∃ raw adjusted : Int256, 0 < raw.1 ∧ o.published raw = .ok adjusted ∧ adjusted.1 = p) ↔ p ≤ o.largest := by
  cases o with
  | checked o =>
    simp only [published, largest, Except.ok.injEq]
    constructor
    · rintro ⟨raw, _, -, rfl, hraw⟩
      have := raw.2
      omega
    · intro hle
      exact ⟨⟨p, by omega⟩, _, by show (0 : Int) < p; omega, rfl, rfl⟩
  | discounted o =>
    have hk := o.coefficient.2
    have hkpos : 0 < o.coefficient.1 := lt_of_lt_of_le (by decide) hk.1
    have hmark : (∃ r, r * o.coefficient.1 ≤ uintSize - 1 ∧ r * o.coefficient.1 / one = p) ↔
        p ≤ (uintSize - 1) / o.coefficient.1 * o.coefficient.1 / one := Ratio.markdown_iff hkpos hk.2
    simp only [published, largest]
    rw [← hmark]
    constructor
    · rintro ⟨raw, adjusted, hraw, hdiscount, hadjusted⟩
      obtain ⟨hfits, hval⟩ := (discount_ok_iff hraw).1 hdiscount
      exact ⟨raw.toUint, by omega, by omega⟩
    · rintro ⟨r, hle, rfl⟩
      have hrpos : 0 < r := by
        by_contra hzero
        rw [Nat.le_zero.1 (not_lt.1 hzero), Nat.zero_mul, Nat.zero_div] at hp
        exact absurd hp (lt_irrefl 0)
      exact discount_reaches hrpos hle

/-- Some price of at most `top` is in the band around `c`, without overflow, exactly when the nearest
such price is. -/
theorem band_reaches_iff {o : CheckedOracle} {top c : Nat} (htop : 0 < top) :
    (∃ p, 0 < p ∧ p ≤ top ∧ o.BandFits p c ∧ o.Within p c) ↔
      0 < c ∧ o.maxDiffBps.1 * c < uintSize ∧ (c - top) * maxBps ≤ o.maxDiffBps.1 * c := by
  constructor
  · rintro ⟨p, hp, hle, ⟨-, hfits⟩, hwithin⟩
    refine ⟨?_, hfits, le_trans (Nat.mul_le_mul_right _ ?_) hwithin⟩
    · by_contra hzero
      obtain rfl : c = 0 := by omega
      have hpos : 0 < priceDiff p 0 * maxBps := Nat.mul_pos (by unfold priceDiff; split_ifs; omega) (by decide)
      unfold Within at hwithin
      omega
    · unfold priceDiff
      split_ifs <;> omega
  · rintro ⟨hc, hfits, hnear⟩
    have hdiff : priceDiff (min c top) c = c - top := by
      unfold priceDiff
      split_ifs <;> omega
    refine ⟨min c top, lt_min hc htop, min_le_right _ _, ⟨?_, hfits⟩, ?_⟩
    · rw [hdiff]
      exact lt_of_le_of_lt hnear hfits
    · unfold Within
      rw [hdiff]
      exact hnear

/-- The feed at `feed` leaves a price to push: its answer rescales, in the decimals it is set with, to
a positive word that is compared in words and no further above the largest price that can be stored
than the band is wide. -/
def Pushable (o : PriceOracle) (feed : CheckFeed) : Prop :=
  ∃ answer : Int256, feed.latestAnswer = .value answer ∧
    answer.toUint * 10 ^ (ManagedOracle.decimals - feed.setDecimals) < uintSize ∧
    0 < answer.toUint * 10 ^ ManagedOracle.decimals / 10 ^ feed.setDecimals ∧
    o.base.maxDiffBps.1 * (answer.toUint * 10 ^ ManagedOracle.decimals / 10 ^ feed.setDecimals) < uintSize ∧
    (answer.toUint * 10 ^ ManagedOracle.decimals / 10 ^ feed.setDecimals - o.largest) * maxBps ≤
      o.base.maxDiffBps.1 * (answer.toUint * 10 ^ ManagedOracle.decimals / 10 ^ feed.setDecimals)

theorem largest_pos (o : PriceOracle) : 0 < o.largest := by
  cases o with
  | checked o => show 0 < 2 ^ 255 - 1; decide
  | discounted o =>
    have hk := o.coefficient.2
    refine Nat.div_pos ?_ (by decide)
    have hdiv : 1 ≤ (uintSize - 1) / o.coefficient.1 := by
      refine (Nat.le_div_iff_mul_le (lt_of_lt_of_le (by decide) hk.1)).2 ?_
      rw [Nat.one_mul]
      exact le_trans hk.2 (by decide)
    have hlast := Nat.lt_div_mul_add (lt_of_lt_of_le (by decide) hk.1) (a := uintSize - 1) (b := o.coefficient.1)
    have hsmall : o.coefficient.1 + one ≤ uintSize - 1 := le_trans (Nat.add_le_add_right hk.2 one) (by decide)
    omega

/-- Setting a feed changes the feed and the decimals, and not what can be stored. -/
theorem setCheckOracle_run {o o₁ : PriceOracle} {feeds : Address → CheckFeed} {feed sender : Address} {now : Nat}
    (hne : feed ≠ 0) (h : o.run ⟨sender, now, feeds, .checked (.setCheckOracle feed)⟩ = .ok o₁) :
    (∃ answer : Int256, (feeds feed).latestAnswer = .value answer ∧ 0 < answer.1) ∧ o₁.largest = o.largest ∧
      ∃ d, d.1 = (feeds feed).setDecimals ∧ o₁.base = { o.base with checkOracle := feed, checkDecimals := d } := by
  have hbase := run_base (by simp) rfl h
  simp only [call, bind_ok_iff] at hbase
  obtain ⟨_, -, hset⟩ := hbase
  obtain ⟨hanswer, hstate⟩ := setCheckOracle_ok hne hset
  refine ⟨hanswer, ?_, hstate⟩
  cases o with
  | checked o =>
    simp only [run, bind_ok_iff, pure_ok_iff] at h
    obtain ⟨_, -, rfl⟩ := h
    rfl
  | discounted o =>
    simp only [run, bind_ok_iff, pure_ok_iff] at h
    obtain ⟨_, -, rfl⟩ := h
    rfl

/-- A checked push of some price is accepted exactly when a price that can be stored is in the band
around the rescaled answer. -/
theorem push_exists_iff {o : PriceOracle} {feeds : Address → CheckFeed} {answer : Nat} (hset : o.base.checkOracle ≠ 0)
    (hanswer : o.base.positiveAnswer feeds = some answer) :
    (∃ price : Int256, 0 < price.1 ∧ ∃ now o',
      o.run ⟨o.base.pusher, now, feeds, .checked (.setPrice price)⟩ = .ok o') ↔
    (o.base.ScaleFits answer ∧ ∃ p, 0 < p ∧ p ≤ o.largest ∧ o.base.BandFits p (o.base.rescaled answer) ∧
      o.base.Within p (o.base.rescaled answer)) ∧ o.base.RoundFits := by
  simp only [push_succeeds_iff (.inl rfl)]
  constructor
  · rintro ⟨price, -, -, hpos, adjusted, hpublished, hadjusted, hpasses, hround⟩
    obtain ⟨answer', hanswer', hscale, hband, hwithin⟩ := requireInBand_ok_iff.1 (hpasses hset)
    cases hanswer.symm.trans hanswer'
    have hnat : adjusted.1 = adjusted.toUint := (Int256.toUint_of_nonneg hadjusted.le).symm
    have hp : 0 < adjusted.toUint := by omega
    exact ⟨⟨hscale, _, hp, (published_iff hp).1 ⟨price, adjusted, hpos, hpublished, hnat⟩, hband, hwithin⟩, hround⟩
  · rintro ⟨⟨hscale, p, hp, hle, hband, hwithin⟩, hround⟩
    obtain ⟨price, adjusted, hpos, hpublished, hval⟩ := (published_iff hp).2 hle
    have hadjusted : 0 < adjusted.1 := by omega
    have hnat : adjusted.toUint = p := by
      have := Int256.toUint_of_nonneg hadjusted.le
      omega
    refine ⟨price, hpos, 0, hpos, adjusted, hpublished, hadjusted, fun _ => requireInBand_ok_iff.2 ?_, hround⟩
    rw [hnat]
    exact ⟨answer, hanswer, hscale, hband, hwithin⟩

end PriceOracle

open PriceOracle CheckedOracle in
/-- When a feed is set: while it answers as it does then, some positive price that the pusher pushes is
accepted, if and only if the feed leaves one to push and there is a next round. -/
theorem enabling_iff {o o₁ : PriceOracle} {feeds : Address → CheckFeed} {feed sender : Address} {now : Nat}
    (hne : feed ≠ 0) (h : o.run ⟨sender, now, feeds, .checked (.setCheckOracle feed)⟩ = .ok o₁) :
    (∃ price : Int256, 0 < price.1 ∧ ∃ now o₂,
      o₁.run ⟨o₁.base.pusher, now, feeds, .checked (.setPrice price)⟩ = .ok o₂) ↔
    o.Pushable (feeds feed) ∧ o.base.RoundFits := by
  obtain ⟨⟨x, hx, hxpos⟩, hlargest, d, hd, hbase⟩ := setCheckOracle_run hne h
  have hset : o₁.base.checkOracle ≠ 0 := by rw [hbase]; exact hne
  have hanswer : o₁.base.positiveAnswer feeds = some x.toUint := by
    rw [positiveAnswer, if_neg hset, hbase]
    simp only [hx, if_pos hxpos]
  rw [push_exists_iff hset hanswer, band_reaches_iff o₁.largest_pos, hlargest]
  simp only [Pushable, hx, Outcome.value.injEq, exists_eq_left', ScaleFits, rescaled, RoundFits, hbase, hd]

/-- The feed of a dollar leaves the strict oracle a price to push. -/
theorem enabling_iff_demo : ∃ (o₁ : PriceOracle) (price : Int256), 0 < price.1 ∧ ∃ now o₂,
    o₁.run ⟨o₁.base.pusher, now, demoFeeds 8 dollar, .checked (.setPrice price)⟩ = .ok o₂ := by
  have hset : demoStrict.call (demoFeeds 8 dollar) 0xad 8 (.setCheckOracle 0xfeed) =
      .ok { demoStrict with checkDecimals := ⟨8, by decide⟩ } := by
    decide
  have hrun : (PriceOracle.checked demoStrict).run ⟨0xad, 8, demoFeeds 8 dollar, .checked (.setCheckOracle 0xfeed)⟩ =
      .ok (.checked { demoStrict with checkDecimals := ⟨8, by decide⟩ }) :=
    bind_ok_iff.2 ⟨_, hset, rfl⟩
  exact ⟨_, (enabling_iff (by decide) hrun).2 ⟨⟨dollar, rfl, by decide, by decide, by decide,
    by decide⟩, by decide⟩⟩

open PriceOracle in
/-- The feed of 18 decimals answers one of them when it is set, and nothing is accepted any more. -/
theorem enabling_rejects : ¬ ∀ (o o₁ : PriceOracle) (feeds : Address → CheckFeed) (feed sender : Address) (now : Nat),
    machine.Reach o → feed ≠ 0 → o.run ⟨sender, now, feeds, .checked (.setCheckOracle feed)⟩ = .ok o₁ →
      ∃ price : Int256, 0 < price.1 ∧ ∃ now o₂,
        o₁.run ⟨o₁.base.pusher, now, feeds, .checked (.setPrice price)⟩ = .ok o₂ := by
  intro hall
  have hset : demoStrict.call (demoFeeds 18 ⟨1, by decide⟩) 0xad 8 (.setCheckOracle 0xfeed) = .ok demoStrict := by
    decide
  have hrun : (PriceOracle.checked demoStrict).run
      ⟨0xad, 8, demoFeeds 18 ⟨1, by decide⟩, .checked (.setCheckOracle 0xfeed)⟩ = .ok (.checked demoStrict) :=
    bind_ok_iff.2 ⟨_, hset, rfl⟩
  obtain ⟨price, hpos, now, o₂, hpush⟩ :=
    hall _ _ _ _ _ _ (.init (.checked demoStrict_constructed)) (by decide) hrun
  -- around zero the band holds no positive price
  obtain ⟨-, adjusted, hpublished, hadjusted, hpasses, -⟩ := (push_succeeds_iff (.inl rfl)).1 ⟨o₂, hpush⟩
  obtain ⟨answer, hanswer, -, -, hwithin⟩ := CheckedOracle.requireInBand_ok_iff.1 (hpasses (by decide))
  obtain rfl : 1 = answer := Option.some.inj (hanswer.symm.trans (by decide)) |>.symm
  have hnat := Int256.toUint_of_nonneg hadjusted.le
  have hzero : (PriceOracle.checked demoStrict).base.rescaled 1 = 0 := by decide
  rw [hzero] at hwithin
  unfold CheckedOracle.Within CheckedOracle.priceDiff CheckedOracle.maxBps at hwithin
  split_ifs at hwithin <;> omega

end MoneyMarket
