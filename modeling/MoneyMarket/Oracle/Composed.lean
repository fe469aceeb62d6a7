/-
The adapters that compose a price of two others. All three cast the signed answers to words,
multiply with an overflow check, divide, and cast back, without looking at a sign. A negative answer
is a word of at least half the range, so most of them overflow the product and revert;
`composed_exact_iff` says which do not.
-/
import MoneyMarket.Oracle.Checked

namespace MoneyMarket

open Evm

/-! ## The adapters -/

/-- What the account of a source feed answers, `none` where the call reverts. -/
structure SourceReply where
  latestAnswer : Option Int256
  latestRoundData : Option ManagedOracle.RoundData

/-- `int256((uint256(a) * uint256(b)) / uint256(10) ** decimals)`. -/
def composeProduct (decimals : Nat) (a b : Int256) : OracleTx Int256 := do
  let product ← checkedMul a.toUint b.toUint
  let scaled ← checkedDiv product (10 ^ decimals)
  return .ofUint scaled

/-- `int256(((uint256(a) * uint256(10) ** decimals)) / uint256(b))`. -/
def composeQuotient (decimals : Nat) (a b : Int256) : OracleTx Int256 := do
  let scaled ← checkedMul a.toUint (10 ^ decimals)
  let quotient ← checkedDiv scaled b.toUint
  return .ofUint quotient

structure USDOracleAdapter where
  assetToXOracle : Address
  xToUsdOracle : Address

namespace USDOracleAdapter

def decimals : Nat := 8

/-- `getAnswer` forwards to it. -/
def latestAnswer (o : USDOracleAdapter) (sources : Address → SourceReply) : OracleTx Int256 := do
  let assetToX ← returned (sources o.assetToXOracle).latestAnswer
  let xToUsd ← returned (sources o.xToUsdOracle).latestAnswer
  composeProduct decimals assetToX xToUsd

end USDOracleAdapter

structure HybridOracleAggregator where
  srcAssetToXOracle : Address
  destAssetToXOracle : Address

namespace HybridOracleAggregator

def decimals : Nat := 8

/-- The round of the source with the composed price, but for its id: the id of the source goes into a
local variable that nothing reads, and the result of that name is never assigned. `getRoundData`
forwards to it. -/
def latestRoundData (o : HybridOracleAggregator) (sources : Address → SourceReply) :
    OracleTx ManagedOracle.RoundData := do
  let src ← returned (sources o.srcAssetToXOracle).latestRoundData
  let xToDest ← returned (sources o.destAssetToXOracle).latestAnswer
  let answer ← composeProduct decimals src.answer xToDest
  return ⟨0, answer, src.startedAt, src.updatedAt, src.answeredInRound⟩

/-- `getAnswer` forwards to it. -/
def latestAnswer (o : HybridOracleAggregator) (sources : Address → SourceReply) : OracleTx Int256 := do
  let round ← o.latestRoundData sources
  return round.answer

end HybridOracleAggregator

structure OraclesAggregator where
  srcAssetToXOracle : Address
  destAssetToXOracle : Address

namespace OraclesAggregator

def decimals : Nat := 8

/-- As in the hybrid aggregator, the id of the round is not the one of the source but zero. -/
def latestRoundData (o : OraclesAggregator) (sources : Address → SourceReply) :
    OracleTx ManagedOracle.RoundData := do
  let src ← returned (sources o.srcAssetToXOracle).latestRoundData
  let dest ← returned (sources o.destAssetToXOracle).latestRoundData
  let answer ← composeQuotient decimals src.answer dest.answer
  return ⟨0, answer, src.startedAt, src.updatedAt, src.answeredInRound⟩

/-- `getAnswer` forwards to it. -/
def latestAnswer (o : OraclesAggregator) (sources : Address → SourceReply) : OracleTx Int256 := do
  let round ← o.latestRoundData sources
  return round.answer

end OraclesAggregator

/-! ## Words of signed answers -/

section Compose

variable {decimals : Nat} {a b price : Int256}

theorem composeProduct_ok_iff : composeProduct decimals a b = .ok price ↔
    a.toUint * b.toUint < uintSize ∧ .ofUint (a.toUint * b.toUint / 10 ^ decimals) = price := by
  have hunit : 10 ^ decimals ≠ 0 := (Nat.pow_pos (by decide)).ne'
  simp only [composeProduct, bind_ok_iff, checkedMul_ok_iff, checkedDiv_ok_iff, pure_ok_iff]
  constructor
  · rintro ⟨_, ⟨hfits, rfl⟩, _, ⟨-, rfl⟩, rfl⟩
    exact ⟨hfits, rfl⟩
  · rintro ⟨hfits, rfl⟩
    exact ⟨_, ⟨hfits, rfl⟩, _, ⟨hunit, rfl⟩, rfl⟩

theorem composeQuotient_ok_iff : composeQuotient decimals a b = .ok price ↔
    a.toUint * 10 ^ decimals < uintSize ∧ b.toUint ≠ 0 ∧
      .ofUint (a.toUint * 10 ^ decimals / b.toUint) = price := by
  simp only [composeQuotient, bind_ok_iff, checkedMul_ok_iff, checkedDiv_ok_iff, pure_ok_iff]
  constructor
  · rintro ⟨_, ⟨hfits, rfl⟩, _, ⟨hne, rfl⟩, rfl⟩
    exact ⟨hfits, hne, rfl⟩
  · rintro ⟨hfits, hne, rfl⟩
    exact ⟨_, ⟨hfits, rfl⟩, _, ⟨hne, rfl⟩, rfl⟩

theorem composeProduct_comm (decimals : Nat) (a b : Int256) :
    composeProduct decimals a b = composeProduct decimals b a := by
  have hcomm : (checkedMul a.toUint b.toUint : OracleTx Nat) = checkedMul b.toUint a.toUint := by
    unfold checkedMul
    rw [Nat.mul_comm]
  unfold composeProduct
  rw [hcomm]

/-- A negative component is a word of at least half the range, and doubling that overflows. -/
theorem product_overflows (ha : a.1 < 0) (hb : b.1 < 0 ∨ 2 ≤ b.1) : uintSize ≤ a.toUint * b.toUint := by
  have hhalf : 2 ^ 255 ≤ a.toUint := by
    have := a.2
    have := Int256.toUint_of_neg ha
    omega
  have htwo : 2 ≤ b.toUint := by
    rcases hb with hneg | hpos
    · have := b.2
      have := Int256.toUint_of_neg hneg
      omega
    · have := Int256.toUint_of_nonneg (x := b) (by omega)
      omega
  calc uintSize = 2 ^ 255 * 2 := by decide
    _ ≤ a.toUint * b.toUint := Nat.mul_le_mul hhalf htwo

/-- Times zero or one it is composed to something. -/
theorem product_escapes (decimals : Nat) (hb0 : 0 ≤ b.1) (hb1 : b.1 ≤ 1) :
    ∃ price, composeProduct decimals a b = .ok price := by
  have hle : b.toUint ≤ 1 := by
    have := Int256.toUint_of_nonneg hb0
    omega
  refine ⟨_, composeProduct_ok_iff.2 ⟨?_, rfl⟩⟩
  exact lt_of_le_of_lt (Nat.mul_le_mul_left _ hle) (by rw [Nat.mul_one]; exact Int256.toUint_lt a)

/-- What a composed price of `a` and `b` is to be: `value`, of two components that are not negative,
and never positive for a negative one. -/
structure PriceExact (read : OracleTx Int256) (a b : Int256) (value : Int) : Prop where
  exact : ∀ price, read = .ok price → 0 ≤ a.1 ∧ 0 ≤ b.1 ∧ price.1 = value ∧ value < 2 ^ 255
  signSafe : ∀ price, read = .ok price → 0 < price.1 → 0 ≤ a.1 ∧ 0 ≤ b.1

/-- A negative component times zero or one fits a word. -/
def ProductEscapes (a b : Int256) : Prop := a.1 < 0 ∧ 0 ≤ b.1 ∧ b.1 ≤ 1 ∨ b.1 < 0 ∧ 0 ≤ a.1 ∧ a.1 ≤ 1

/-- A dividend that fits a word is divided by the word of a negative number, or by one and is too
large for a signed number. -/
def QuotientEscapes (a b : Int256) : Prop :=
  0 ≤ a.1 ∧ a.1 * 10 ^ 8 < 2 ^ 256 ∧ (b.1 < 0 ∨ b.1 = 1 ∧ 2 ^ 255 ≤ a.1 * 10 ^ 8)

theorem ProductEscapes.symm (h : ProductEscapes a b) : ProductEscapes b a := Or.symm h

/-- The product of two components that are not negative is exact where it is a word. -/
theorem product_exact (ha : 0 ≤ a.1) (hb : 0 ≤ b.1) (h : composeProduct 8 a b = .ok price) :
    price.1 = a.1 * b.1 / 10 ^ 8 ∧ a.1 * b.1 / 10 ^ 8 < 2 ^ 255 := by
  obtain ⟨hfits, rfl⟩ := composeProduct_ok_iff.1 h
  have hsmall : a.toUint * b.toUint / 10 ^ 8 < 2 ^ 255 := by
    refine (Nat.div_lt_iff_lt_mul (by decide)).2 (lt_trans hfits (by decide))
  have hvalue : ((a.toUint * b.toUint / 10 ^ 8 : Nat) : Int) = a.1 * b.1 / 10 ^ 8 := by
    rw [Int.natCast_div, Int.natCast_mul, Int256.toUint_of_nonneg ha, Int256.toUint_of_nonneg hb]
    rfl
  rw [Int256.ofUint_val hsmall, ← hvalue]
  exact ⟨rfl, by omega⟩

theorem composeProduct_exact_iff :
    PriceExact (composeProduct 8 a b) a b (a.1 * b.1 / 10 ^ 8) ↔ ¬ ProductEscapes a b := by
  constructor
  · rintro h (⟨ha, hb0, hb1⟩ | ⟨hb, ha0, ha1⟩)
    · obtain ⟨price, hprice⟩ := product_escapes 8 (a := a) hb0 hb1
      exact absurd (h.exact price hprice).1 (not_le.2 ha)
    · obtain ⟨price, hprice⟩ := product_escapes 8 (a := b) ha0 ha1
      rw [composeProduct_comm] at hprice
      exact absurd (h.exact price hprice).2.1 (not_le.2 hb)
  · intro hout
    -- what is composed at all is composed of components that are not negative
    have hnonneg : ∀ price, composeProduct 8 a b = .ok price → 0 ≤ a.1 ∧ 0 ≤ b.1 := by
      intro price hprice
      have hfits := (composeProduct_ok_iff.1 hprice).1
      refine ⟨not_lt.1 fun ha => ?_, not_lt.1 fun hb => ?_⟩
      · have hb : ¬ (0 ≤ b.1 ∧ b.1 ≤ 1) := fun hb => hout (.inl ⟨ha, hb⟩)
        exact absurd hfits (not_lt.2 (product_overflows ha (by omega)))
      · have ha : ¬ (0 ≤ a.1 ∧ a.1 ≤ 1) := fun ha => hout (.inr ⟨hb, ha⟩)
        rw [Nat.mul_comm] at hfits
        exact absurd hfits (not_lt.2 (product_overflows hb (by omega)))
    refine ⟨fun price hprice => ?_, fun price hprice _ => hnonneg price hprice⟩
    obtain ⟨ha, hb⟩ := hnonneg price hprice
    exact ⟨ha, hb, product_exact ha hb hprice⟩

/-- A dividend that fits a word is not negative. -/
theorem quotient_dividend (hfits : a.toUint * 10 ^ 8 < uintSize) :
    0 ≤ a.1 ∧ (a.toUint * 10 ^ 8 : Int) = a.1 * 10 ^ 8 := by
  have ha : 0 ≤ a.1 := by
    by_contra ha
    have := a.2
    have := Int256.toUint_of_neg (not_le.1 ha)
    unfold uintSize at hfits
    omega
  exact ⟨ha, by rw [Int256.toUint_of_nonneg ha]⟩

/-- The quotient of positive words is exact where the signed number holds it. -/
theorem quotient_exact (ha : 0 ≤ a.1) (hb : 0 < b.1) (hout : ¬ QuotientEscapes a b)
    (h : composeQuotient 8 a b = .ok price) :
    price.1 = a.1 * 10 ^ 8 / b.1 ∧ a.1 * 10 ^ 8 / b.1 < 2 ^ 255 := by
  obtain ⟨hfits, hne, rfl⟩ := composeQuotient_ok_iff.1 h
  have hdividend := (quotient_dividend hfits).2
  have hdivisor := Int256.toUint_of_nonneg hb.le
  have hword : a.toUint * 10 ^ 8 < 2 ^ 256 := hfits
  have hsmall : a.toUint * 10 ^ 8 / b.toUint < 2 ^ 255 := by
    rw [Nat.div_lt_iff_lt_mul (Nat.pos_of_ne_zero hne)]
    by_cases hone : b.1 = 1
    · have : ¬ 2 ^ 255 ≤ a.1 * 10 ^ 8 := fun hlarge => hout ⟨ha, by omega, .inr ⟨hone, hlarge⟩⟩
      have : b.toUint = 1 := by omega
      omega
    · have htwo : 2 ≤ b.toUint := by omega
      calc a.toUint * 10 ^ 8 < 2 ^ 255 * 2 := by omega
        _ ≤ 2 ^ 255 * b.toUint := Nat.mul_le_mul_left _ htwo
  have hvalue : ((a.toUint * 10 ^ 8 / b.toUint : Nat) : Int) = a.1 * 10 ^ 8 / b.1 := by
    rw [Int.natCast_div, hdivisor, ← hdividend]
    rfl
  rw [Int256.ofUint_val hsmall, ← hvalue]
  exact ⟨rfl, by omega⟩

theorem composeQuotient_exact_iff :
    PriceExact (composeQuotient 8 a b) a b (a.1 * 10 ^ 8 / b.1) ↔ ¬ QuotientEscapes a b := by
  constructor
  · rintro h ⟨ha, hfits, hb⟩
    have hdividend : (a.toUint * 10 ^ 8 : Int) = a.1 * 10 ^ 8 := by rw [Int256.toUint_of_nonneg ha]
    have hword : a.toUint * 10 ^ 8 < uintSize := by unfold uintSize; omega
    have hne : b.toUint ≠ 0 := by
      have := b.2
      rcases hb with hb | ⟨hb, -⟩
      · have := Int256.toUint_of_neg hb
        omega
      · have := Int256.toUint_of_nonneg (x := b) (by omega)
        omega
    obtain ⟨-, hnonneg, -, hlt⟩ := h.exact _ (composeQuotient_ok_iff.2 ⟨hword, hne, rfl⟩)
    rcases hb with hb | ⟨hb, hlarge⟩
    · omega
    · rw [hb, Int.ediv_one] at hlt
      omega
  · intro hout
    have hnonneg : ∀ price, composeQuotient 8 a b = .ok price → 0 ≤ a.1 ∧ 0 < b.1 := by
      intro price hprice
      obtain ⟨hfits, hne, -⟩ := composeQuotient_ok_iff.1 hprice
      obtain ⟨ha, hdividend⟩ := quotient_dividend hfits
      have hword : a.toUint * 10 ^ 8 < 2 ^ 256 := hfits
      refine ⟨ha, lt_of_le_of_ne (not_lt.1 fun hb => hout ⟨ha, by omega, .inl hb⟩) fun hzero => hne ?_⟩
      have := Int256.toUint_of_nonneg (x := b) (by omega)
      omega
    refine ⟨fun price hprice => ?_, fun price hprice _ => ⟨(hnonneg price hprice).1, (hnonneg price hprice).2.le⟩⟩
    obtain ⟨ha, hb⟩ := hnonneg price hprice
    exact ⟨ha, hb.le, quotient_exact ha hb hout hprice⟩

end Compose

/-! ## What the adapters read -/

section Adapters

variable {sources : Address → SourceReply}

/-- Reading the answer of the round a composed price is put in reads the price. -/
theorem answer_of_round (answer : OracleTx Int256) (src : ManagedOracle.RoundData) :
    ((answer >>= fun answer => pure ⟨0, answer, src.startedAt, src.updatedAt, src.answeredInRound⟩) >>=
      fun round : ManagedOracle.RoundData => pure round.answer) = answer := by
  cases answer <;> rfl

theorem USDOracleAdapter.latestAnswer_eq {o : USDOracleAdapter} {a b : Int256}
    (ha : (sources o.assetToXOracle).latestAnswer = some a) (hb : (sources o.xToUsdOracle).latestAnswer = some b) :
    o.latestAnswer sources = composeProduct decimals a b := by
  unfold latestAnswer
  rw [ha, hb]
  rfl

theorem HybridOracleAggregator.latestAnswer_eq {o : HybridOracleAggregator} {src : ManagedOracle.RoundData} {b : Int256}
    (hsrc : (sources o.srcAssetToXOracle).latestRoundData = some src)
    (hb : (sources o.destAssetToXOracle).latestAnswer = some b) :
    o.latestAnswer sources = composeProduct decimals src.answer b := by
  rw [latestAnswer, latestRoundData, hsrc, hb]
  simp only [returned_bind]
  exact answer_of_round _ src

theorem OraclesAggregator.latestAnswer_eq {o : OraclesAggregator} {src dest : ManagedOracle.RoundData}
    (hsrc : (sources o.srcAssetToXOracle).latestRoundData = some src)
    (hdest : (sources o.destAssetToXOracle).latestRoundData = some dest) :
    o.latestAnswer sources = composeQuotient decimals src.answer dest.answer := by
  rw [latestAnswer, latestRoundData, hsrc, hdest]
  simp only [returned_bind]
  exact answer_of_round _ src

/-- A composed price is exact and of components that are not negative, but for the components whose
words escape the overflow check. -/
theorem composed_exact_iff (sources : Address → SourceReply) :
    (∀ (o : USDOracleAdapter) (a b : Int256), (sources o.assetToXOracle).latestAnswer = some a →
      (sources o.xToUsdOracle).latestAnswer = some b →
      (PriceExact (o.latestAnswer sources) a b (a.1 * b.1 / 10 ^ 8) ↔ ¬ ProductEscapes a b)) ∧
    (∀ (o : HybridOracleAggregator) (src : ManagedOracle.RoundData) (b : Int256),
      (sources o.srcAssetToXOracle).latestRoundData = some src →
      (sources o.destAssetToXOracle).latestAnswer = some b →
      (PriceExact (o.latestAnswer sources) src.answer b (src.answer.1 * b.1 / 10 ^ 8) ↔
        ¬ ProductEscapes src.answer b)) ∧
    ∀ (o : OraclesAggregator) (src dest : ManagedOracle.RoundData),
      (sources o.srcAssetToXOracle).latestRoundData = some src →
      (sources o.destAssetToXOracle).latestRoundData = some dest →
      (PriceExact (o.latestAnswer sources) src.answer dest.answer (src.answer.1 * 10 ^ 8 / dest.answer.1) ↔
        ¬ QuotientEscapes src.answer dest.answer) := by
  refine ⟨fun o a b ha hb => ?_, fun o src b hsrc hb => ?_, fun o src dest hsrc hdest => ?_⟩
  · rw [USDOracleAdapter.latestAnswer_eq ha hb]
    exact composeProduct_exact_iff
  · rw [HybridOracleAggregator.latestAnswer_eq hsrc hb]
    exact composeProduct_exact_iff
  · have height : OraclesAggregator.decimals = 8 := rfl
    rw [OraclesAggregator.latestAnswer_eq hsrc hdest, height]
    exact composeQuotient_exact_iff

/-- Sources that all answer `a` but the one at address 2, which answers `b`. -/
def demoSources (a b : Int256) (account : Address) : SourceReply :=
  let answer := if account = 2 then b else a
  ⟨some answer, some ⟨7, answer, 1000, 1000, 7⟩⟩

def demoAdapter : USDOracleAdapter := ⟨1, 2⟩

/-- A price of 2 in units worth 3 is one of 6. -/
theorem composed_exact_iff_demo :
    PriceExact (demoAdapter.latestAnswer (demoSources ⟨2 * 10 ^ 8, by decide⟩ ⟨3 * 10 ^ 8, by decide⟩))
      ⟨2 * 10 ^ 8, by decide⟩ ⟨3 * 10 ^ 8, by decide⟩ (2 * 10 ^ 8 * (3 * 10 ^ 8) / 10 ^ 8) := by
  refine ((composed_exact_iff _).1 demoAdapter _ _ rfl rfl).2 ?_
  rintro (⟨ha, -⟩ | ⟨hb, -⟩)
  · exact absurd ha (by decide)
  · exact absurd hb (by decide)

/-- The word of minus one, times one, is a positive price. -/
theorem composed_of_negative : ¬ ∀ (sources : Address → SourceReply) (o : USDOracleAdapter) (a b : Int256),
    (sources o.assetToXOracle).latestAnswer = some a → (sources o.xToUsdOracle).latestAnswer = some b →
    ∀ price, o.latestAnswer sources = .ok price → 0 < price.1 → 0 ≤ a.1 ∧ 0 ≤ b.1 := by
  intro hall
  have hread : demoAdapter.latestAnswer (demoSources ⟨-1, by decide⟩ ⟨1, by decide⟩) =
      .ok (.ofUint ((2 ^ 256 - 1) / 10 ^ 8)) := by decide
  have hnonneg := (hall _ demoAdapter ⟨-1, by decide⟩ ⟨1, by decide⟩ rfl rfl _ hread (by decide)).1
  exact absurd hnonneg (by decide)

end Adapters

end MoneyMarket
