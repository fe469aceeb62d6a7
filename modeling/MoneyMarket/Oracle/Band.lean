/-
The band over whole runs. What a push stores while a feed is set is within the band around the
feed's answer as rescaled to the oracle's decimals, and every other price is the owner's or pushed
while no feed is set (`price_band`). Rescaling truncates the answers of feeds with more than eight
decimals, and the band's lower edge with them (`raw_band_missed`).
-/
import MoneyMarket.Lib.Ratio
import MoneyMarket.Oracle.Gate

namespace MoneyMarket

open Evm Transition

/-! ## The gate -/

namespace CheckedOracle

variable {o o' : CheckedOracle} {feeds : Address → CheckFeed} {price : Int256}

/-- What passes the gate is within the band around a positive answer of the feed. -/
theorem requireInBand_ok {u : Unit} (h : o.requireInBand feeds price = .ok u) :
    ∃ answer : Int256, (feeds o.checkOracle).latestAnswer = .value answer ∧ 0 < answer.1 ∧
      priceDiff price.toUint (answer.toUint * 10 ^ ManagedOracle.decimals / 10 ^ o.checkDecimals.1) * maxBps ≤
        o.maxDiffBps.1 * (answer.toUint * 10 ^ ManagedOracle.decimals / 10 ^ o.checkDecimals.1) := by
  obtain ⟨_, hanswer, -, -, hwithin⟩ := requireInBand_ok_iff.1 h
  obtain ⟨x, -, hx, hpos, rfl⟩ := positiveAnswer_some hanswer
  exact ⟨x, hx, hpos, hwithin⟩

theorem priceDiff_eq (p c : Nat) : (priceDiff p c : Int) = |(p : Int) - c| := by
  unfold priceDiff
  split_ifs with h
  · rw [abs_of_nonneg (by omega)]; omega
  · rw [abs_of_nonpos (by omega)]; omega

end CheckedOracle

/-! ## The band -/

open CheckedOracle in
/-- A price of the oracle's decimals against the raw answer of a feed with `d` decimals. -/
structure InBand (d maxDiffBps answer price : Nat) : Prop where
  /-- The band is exact around the rescaled answer. -/
  rescaled : priceDiff price (answer * 10 ^ 8 / 10 ^ d) * maxBps ≤ maxDiffBps * (answer * 10 ^ 8 / 10 ^ d)
  /-- The upper edge is exact. -/
  upper : price * 10 ^ d * maxBps ≤ (maxBps + maxDiffBps) * (answer * 10 ^ 8)
  /-- One unit more of the price is above the lower edge. -/
  lower : (maxBps - maxDiffBps) * (answer * 10 ^ 8) < (price + 1) * 10 ^ d * maxBps
  /-- Both edges are exact for an answer that rescales without a remainder, as those of a feed with
  no more decimals than the oracle do. -/
  exact : d ≤ 8 ∨ 10 ^ d ∣ answer * 10 ^ 8 →
    |(price : Int) * 10 ^ d - (answer : Int) * 10 ^ 8| * (maxBps : Int) ≤ (maxDiffBps : Int) * (answer * 10 ^ 8)

open CheckedOracle in
theorem InBand.of_rescaled {d m a p : Nat}
    (h : priceDiff p (a * 10 ^ 8 / 10 ^ d) * maxBps ≤ m * (a * 10 ^ 8 / 10 ^ d)) : InBand d m a p := by
  have hk : 0 < 10 ^ d := by positivity
  have hup : p - a * 10 ^ 8 / 10 ^ d ≤ priceDiff p (a * 10 ^ 8 / 10 ^ d) := by unfold priceDiff; split_ifs <;> omega
  have hlow : a * 10 ^ 8 / 10 ^ d - p ≤ priceDiff p (a * 10 ^ 8 / 10 ^ d) := by unfold priceDiff; split_ifs <;> omega
  refine ⟨h, ?_, ?_, fun hdvd => ?_⟩
  · exact Ratio.band_upper (10 ^ d) (le_trans (Nat.mul_le_mul_right _ hup) h)
  · exact Ratio.band_lower (by decide) hk (le_trans (Nat.mul_le_mul_right _ hlow) h)
  · have hdvd : 10 ^ d ∣ a * 10 ^ 8 := hdvd.elim (fun hd => Dvd.dvd.mul_left (Nat.pow_dvd_pow 10 hd) a) id
    have hband := Ratio.band_exact (p := p) (m := m) (B := maxBps) hdvd hk (by rw [← priceDiff_eq]; exact_mod_cast h)
    push_cast at hband
    exact hband

/-! ## What changes the price -/

namespace PriceOracle

/-- The price it reports. -/
def price (o : PriceOracle) : Int256 := o.base.currentRound.answer

/-- Within the band around a positive answer the feed gives in the transaction. -/
def Banded (o : PriceOracle) (feeds : Address → CheckFeed) (price : Int256) : Prop :=
  ∃ answer : Int256, (feeds o.base.checkOracle).latestAnswer = .value answer ∧ 0 < answer.1 ∧
    InBand o.base.checkDecimals.1 o.base.maxDiffBps.1 answer.toUint price.toUint

/-- A transaction that writes a price: the owner's unchecked one, or a push, which is within the
band where a feed is set. -/
inductive Repricing (o : PriceOracle) (tx : Transaction) (o' : PriceOracle) : Prop
  | unchecked : tx.call = .checked (.setPriceUnchecked o'.price) → tx.sender = o.base.owner → Repricing o tx o'
  | pushed (raw : Int256) : tx.call = .checked (.setPrice raw) →
      (tx.sender = o.base.pusher ∨ tx.sender = o.base.owner) → o.published raw = .ok o'.price → 0 < o'.price.1 →
      (o.base.checkOracle ≠ 0 → o.Banded tx.feeds o'.price) → Repricing o tx o'

end PriceOracle

section Steps

variable {o o' : CheckedOracle} {feeds : Address → CheckFeed} {sender : Address} {now : Nat}

theorem ManagedOracle.onlyOwner_ok {o : ManagedOracle} {u : Unit} (h : o.onlyOwner sender = .ok u) : sender = o.owner :=
  (require_ok_iff.1 h).symm

theorem CheckedOracle.storePrice_ok {price : Int256} (h : o.storePrice now price = .ok o') :
    o'.currentRound.answer = price := by
  obtain ⟨-, rfl⟩ := storePrice_ok_iff.1 h
  rfl

theorem CheckedOracle.setPrice_ok {price : Int256} (h : o.setPrice feeds sender now price = .ok o') :
    (sender = o.pusher ∨ sender = o.owner) ∧ price = o'.currentRound.answer ∧ 0 < o'.currentRound.answer.1 ∧
      o.Passes feeds o'.currentRound.answer := by
  obtain ⟨hsetter, hpos, hpasses, -, rfl⟩ := setPrice_ok_iff.1 h
  exact ⟨hsetter, rfl, hpos, hpasses⟩

/-- Besides a push only the unchecked call writes the round. -/
theorem CheckedOracle.call_ok {c : CheckedOracle.Call} (hpush : ∀ price, c ≠ .setPrice price)
    (h : o.call feeds sender now c = .ok o') :
    o'.currentRound = o.currentRound ∨ (c = .setPriceUnchecked o'.currentRound.answer ∧ sender = o.owner) := by
  cases c with
  | setPrice price => exact absurd rfl (hpush price)
  | setPriceUnchecked price =>
    simp only [call, setPriceUnchecked, bind_ok_iff] at h
    obtain ⟨_, howner, _, -, h⟩ := h
    obtain rfl := storePrice_ok h
    exact .inr ⟨rfl, ManagedOracle.onlyOwner_ok howner⟩
  | setCheckOracle checkOracle =>
    simp only [call, bind_ok_iff] at h
    obtain ⟨_, -, h⟩ := h
    left
    unfold setCheckOracle at h
    split_ifs at h
    · cases h; rfl
    · simp only [bind_ok_iff, pure_ok_iff] at h
      obtain ⟨_, -, _, -, _, -, rfl⟩ := h
      rfl
  | setMaxDiffBps maxDiffBps =>
    simp only [call, bind_ok_iff] at h
    obtain ⟨_, -, h⟩ := h
    left
    unfold setMaxDiffBps at h
    split_ifs at h
    cases h; rfl
  | setPusher pusher =>
    simp only [call, bind_ok_iff, pure_ok_iff] at h
    obtain ⟨_, -, rfl⟩ := h
    exact .inl rfl
  | transferOwnership newOwner =>
    simp only [call, ManagedOracle.transferOwnership, bind_ok_iff, pure_ok_iff] at h
    obtain ⟨_, ⟨_, -, _, -, rfl⟩, rfl⟩ := h
    exact .inl rfl
  | renounceOwnership =>
    simp only [call, ManagedOracle.renounceOwnership, bind_ok_iff, pure_ok_iff] at h
    obtain ⟨_, ⟨_, -, rfl⟩, rfl⟩ := h
    exact .inl rfl

theorem DiscountedCheckedOracle.setPrice_ok {o o' : DiscountedCheckedOracle} {raw : Int256}
    (h : o.setPrice feeds sender now raw = .ok o') :
    (sender = o.pusher ∨ sender = o.owner) ∧ o.discount raw = .ok o'.currentRound.answer ∧
      0 < o'.currentRound.answer.1 ∧ o.Passes feeds o'.currentRound.answer := by
  obtain ⟨hsetter, -, adjusted, hdiscount, hpos, hpasses, -, rfl⟩ := setPrice_ok_iff.1 h
  exact ⟨hsetter, hdiscount, hpos, hpasses⟩

end Steps

namespace PriceOracle

variable {o o' : PriceOracle} {tx : Transaction}

theorem banded_of_gate {price : Int256} {u : Unit} (h : o.base.requireInBand tx.feeds price = .ok u) :
    o.Banded tx.feeds price := by
  obtain ⟨answer, hanswer, hpos, hband⟩ := CheckedOracle.requireInBand_ok h
  exact ⟨answer, hanswer, hpos, .of_rescaled hband⟩

/-- A push stores what it publishes, within the band where a feed is set. -/
theorem push_ok {raw : Int256} (hcall : tx.call = .checked (.setPrice raw)) (h : o.run tx = .ok o') :
    (tx.sender = o.base.pusher ∨ tx.sender = o.base.owner) ∧ o.published raw = .ok o'.price ∧ 0 < o'.price.1 ∧
      (o.base.checkOracle ≠ 0 → o.Banded tx.feeds o'.price) := by
  cases o with
  | checked o =>
    simp only [run, hcall, CheckedOracle.call, bind_ok_iff, pure_ok_iff] at h
    obtain ⟨t, ht, rfl⟩ := h
    obtain ⟨hsetter, rfl, hpos, hband⟩ := CheckedOracle.setPrice_ok ht
    exact ⟨hsetter, rfl, hpos, fun hne => banded_of_gate (hband hne)⟩
  | discounted o =>
    simp only [run, hcall, bind_ok_iff, pure_ok_iff] at h
    obtain ⟨t, ht, rfl⟩ := h
    obtain ⟨hsetter, hdiscount, hpos, hband⟩ := DiscountedCheckedOracle.setPrice_ok ht
    exact ⟨hsetter, hdiscount, hpos, fun hne => banded_of_gate (o := .discounted o) (hband hne)⟩

/-- Everything else that the base contract has, both contracts run as the base contract does. -/
theorem run_base {c : CheckedOracle.Call} (hpush : ∀ raw, c ≠ .setPrice raw) (hcall : tx.call = .checked c)
    (h : o.run tx = .ok o') : o.base.call tx.feeds tx.sender tx.now c = .ok o'.base := by
  cases o with
  | checked o =>
    simp only [run, hcall, bind_ok_iff, pure_ok_iff] at h
    obtain ⟨t, ht, rfl⟩ := h
    exact ht
  | discounted o =>
    have hbase : ∃ t, o.call tx.feeds tx.sender tx.now c = .ok t ∧
        PriceOracle.discounted { o with toCheckedOracle := t } = o' := by
      cases c with
      | setPrice raw => exact absurd rfl (hpush raw)
      | _ => simpa only [run, hcall, bind_ok_iff, pure_ok_iff] using h
    obtain ⟨t, ht, rfl⟩ := hbase
    exact ht

theorem run_of_base {c : CheckedOracle.Call} (hpush : ∀ raw, c ≠ .setPrice raw) (hcall : tx.call = .checked c)
    {t : CheckedOracle} (h : o.base.call tx.feeds tx.sender tx.now c = .ok t) :
    ∃ o', o.run tx = .ok o' ∧ o'.base = t := by
  cases o with
  | checked o => exact ⟨.checked t, by simpa only [run, hcall, bind_ok_iff, pure_ok_iff] using ⟨t, h, rfl⟩, rfl⟩
  | discounted o =>
    refine ⟨.discounted { o with toCheckedOracle := t }, ?_, rfl⟩
    cases c with
    | setPrice raw => exact absurd rfl (hpush raw)
    | _ => simpa only [run, hcall, bind_ok_iff, pure_ok_iff] using ⟨t, h, rfl⟩

/-- A transaction of either contract keeps the round or writes a price. -/
theorem run_ok (h : o.run tx = .ok o') : o'.base.currentRound = o.base.currentRound ∨ Repricing o tx o' := by
  cases hcall : tx.call with
  | setCoefficient coefficient =>
    cases o with
    | checked o => simp [run, hcall] at h
    | discounted o =>
      simp only [run, hcall, bind_ok_iff, pure_ok_iff] at h
      obtain ⟨_, -, _, -, rfl⟩ := h
      exact .inl rfl
  | checked c =>
    by_cases hpush : ∃ raw, c = .setPrice raw
    · obtain ⟨raw, rfl⟩ := hpush
      obtain ⟨hsetter, hpublished, hpos, hband⟩ := push_ok hcall h
      exact .inr (.pushed raw hcall hsetter hpublished hpos hband)
    · have hne : ∀ raw, c ≠ .setPrice raw := fun raw heq => hpush ⟨raw, heq⟩
      rcases CheckedOracle.call_ok hne (run_base hne hcall h) with hkept | ⟨rfl, howner⟩
      · exact .inl hkept
      · exact .inr (.unchecked hcall howner)

/-- The reported price is the constructor's, or some earlier transaction wrote it. -/
def Sourced (o : PriceOracle) : Prop :=
  (∃ o₀, Constructed o₀ ∧ o.price = o₀.price) ∨
    ∃ o₀ tx o₁, machine.Reach o₀ ∧ o₀.run tx = .ok o₁ ∧ Repricing o₀ tx o₁ ∧ machine.Leads o₁ o ∧ o.price = o₁.price

theorem Sourced.of_reach (h : machine.Reach o) : o.Sourced := by
  induction h with
  | init hinit => exact .inl ⟨_, hinit, rfl⟩
  | @step s t tx hreach hrun ih =>
    rcases run_ok hrun with hkept | hnew
    · have hprice : t.price = s.price := congrArg ManagedOracle.RoundData.answer hkept
      rcases ih with ⟨o₀, hinit, heq⟩ | ⟨o₀, tx₀, o₁, hreach₀, hrun₀, hnew, hleads, heq⟩
      · exact .inl ⟨o₀, hinit, hprice.trans heq⟩
      · exact .inr ⟨o₀, tx₀, o₁, hreach₀, hrun₀, hnew, hleads.tail ⟨tx, hrun⟩, hprice.trans heq⟩
    · exact .inr ⟨s, tx, t, hreach, hrun, hnew, .refl, rfl⟩

end PriceOracle

open PriceOracle in
/-- In every run of either contract: what `setPrice` stores while a feed is set is within the band
around a positive answer that the feed gives in that call; no other call writes a price but the
owner's `setPriceUnchecked`; and the price reported in a reachable state is the constructor's or
one so written on the way to it. -/
theorem price_band {o : PriceOracle} (h : machine.Reach o) :
    (∀ tx raw o', tx.call = .checked (.setPrice raw) → o.run tx = .ok o' → o.base.checkOracle ≠ 0 →
      o.published raw = .ok o'.price ∧ 0 < o'.price.1 ∧ o.Banded tx.feeds o'.price) ∧
    (∀ tx o', o.run tx = .ok o' → o'.base.currentRound ≠ o.base.currentRound → Repricing o tx o') ∧
    o.Sourced := by
  refine ⟨fun tx raw o' hcall hrun hfeed => ?_, fun tx o' hrun hne => ?_, .of_reach h⟩
  · obtain ⟨-, hpublished, hpos, hband⟩ := push_ok hcall hrun
    exact ⟨hpublished, hpos, hband hfeed⟩
  · rcases run_ok hrun with hkept | hnew
    · exact absurd hkept hne
    · exact hnew

/-! ## Two oracles -/

/-- A feed that answers `answer` with `d` decimals, at every address. -/
def demoFeeds (d : Fin 256) (answer : Int256) (_ : Address) : CheckFeed := ⟨.value answer, .value d⟩

def dollar : Int256 := ⟨10 ^ 8, by decide⟩

/-- An oracle that marks down by 5% and allows for 5%, checked against a feed of one dollar. -/
def demoDiscounted : DiscountedCheckedOracle where
  owner := 0xad
  currentRound := ⟨2, ⟨95 * 10 ^ 6, by decide⟩, 7, 7, 2⟩
  checkOracle := 0xfeed
  checkDecimals := ⟨8, by decide⟩
  maxDiffBps := ⟨500, by decide⟩
  pusher := 0xb0b
  coefficient := ⟨95 * 10 ^ 6, by decide⟩

theorem demoDiscounted_constructed :
    DiscountedCheckedOracle.construct 0xde (demoFeeds 8 dollar) 7 0xad dollar 0xfeed 500 0xb0b (95 * 10 ^ 6) =
      .ok demoDiscounted := by
  decide +kernel

open PriceOracle in
/-- A dollar pushed to it is stored as 95 cents, on the edge of the band. -/
theorem price_band_demo : ∃ o o' : PriceOracle, machine.Reach o ∧ o'.price.1 = 95 * 10 ^ 6 ∧
    o.Banded (demoFeeds 8 dollar) o'.price := by
  have hreach : machine.Reach (.discounted demoDiscounted) := .init (.discounted demoDiscounted_constructed)
  let tx : Transaction := ⟨0xb0b, 8, demoFeeds 8 dollar, .checked (.setPrice dollar)⟩
  have hpush : demoDiscounted.setPrice (demoFeeds 8 dollar) 0xb0b 8 dollar =
      .ok { demoDiscounted with currentRound := ⟨3, ⟨95 * 10 ^ 6, by decide⟩, 8, 8, 3⟩ } := by
    decide
  have hrun : (PriceOracle.discounted demoDiscounted).run tx =
      .ok (.discounted { demoDiscounted with currentRound := ⟨3, ⟨95 * 10 ^ 6, by decide⟩, 8, 8, 3⟩ }) :=
    bind_ok_iff.2 ⟨_, hpush, rfl⟩
  exact ⟨_, _, hreach, rfl, ((price_band hreach).1 tx dollar _ rfl hrun (by decide)).2.2⟩

/-- An oracle that allows for nothing, checked against a feed of 18 decimals. -/
def demoStrict : CheckedOracle where
  owner := 0xad
  currentRound := ⟨1, ⟨1, by decide⟩, 7, 7, 1⟩
  checkOracle := 0xfeed
  checkDecimals := ⟨18, by decide⟩
  maxDiffBps := ⟨0, Nat.zero_le _⟩
  pusher := 0xb0b

/-- One and a half units of the oracle's last decimal, in 18 decimals. -/
def unitAndHalf : Int256 := ⟨15 * 10 ^ 9, by decide⟩

theorem demoStrict_constructed :
    CheckedOracle.construct 0xde (demoFeeds 18 unitAndHalf) 7 0xad ⟨1, by decide⟩ 0xfeed 0 0xb0b = .ok demoStrict := by
  decide

open PriceOracle in
/-- The feed answers one and a half units of the oracle's last decimal, and one unit is stored. -/
theorem raw_band_missed : ¬ ∀ (o : PriceOracle), machine.Reach o → ∀ tx raw o', tx.call = .checked (.setPrice raw) →
    o.run tx = .ok o' → o.base.checkOracle ≠ 0 → ∀ answer : Int256,
      (tx.feeds o.base.checkOracle).latestAnswer = .value answer →
        |o'.price.1 * 10 ^ o.base.checkDecimals.1 - answer.1 * 10 ^ 8| * 10000 ≤
          o.base.maxDiffBps.1 * answer.1 * 10 ^ 8 := by
  intro hall
  let tx : Transaction := ⟨0xb0b, 8, demoFeeds 18 unitAndHalf, .checked (.setPrice ⟨1, by decide⟩)⟩
  have hpush : demoStrict.setPrice (demoFeeds 18 unitAndHalf) 0xb0b 8 ⟨1, by decide⟩ =
      .ok { demoStrict with currentRound := ⟨2, ⟨1, by decide⟩, 8, 8, 2⟩ } := by
    decide
  have hrun : (PriceOracle.checked demoStrict).run tx =
      .ok (.checked { demoStrict with currentRound := ⟨2, ⟨1, by decide⟩, 8, 8, 2⟩ }) :=
    bind_ok_iff.2 ⟨_, hpush, rfl⟩
  exact absurd (hall _ (.init (.checked demoStrict_constructed)) tx _ _ rfl hrun (by decide) unitAndHalf rfl)
    (by decide)

end MoneyMarket
