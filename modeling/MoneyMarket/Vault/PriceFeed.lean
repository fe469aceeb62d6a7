/-
The price feed of the vault. `setOracle` looks at a feed when it is installed, `getOraclePrice` when
it is read, and the second look is at more of the round: `installed_readable_iff` says which of the
feeds that can be installed can be read. The aggregators that compose their rounds report the round
id zero, so they are never read; the vault's own oracle is.
-/
import MoneyMarket.Oracle.Composed
import MoneyMarket.Vault.Replay
import MoneyMarket.Vault.Views

namespace MoneyMarket

open Evm Transition

/-! ## The repository's own feeds -/

/-- What the vault gets of an aggregator that reads other contracts. -/
def feedReply (round : OracleTx ManagedOracle.RoundData) (decimals : Nat) : FeedReply where
  latestRoundData := round.toOption.map fun r => ⟨r.roundId, r.answer.1, r.startedAt, r.updatedAt, r.answeredInRound⟩
  decimals := some decimals

namespace BILOracle

def decimals : Nat := 8

/-- `_scaledAnswer`: the vault's rate, from 18 decimals to 8. -/
def scaledAnswer (s : State) : Tx Int256 := do
  let rate ← exchangeRate s
  let scaled := rate / 10 ^ 10
  require (0 < scaled) (.reason "BILOracle: rate truncates to zero")
  return .ofUint scaled

/-- The block is the round. -/
def latestRoundData (s : State) (blockNumber : Nat) : Tx RoundData := do
  let answer ← scaledAnswer s
  return ⟨blockNumber % 2 ^ 80, answer.1, s.now, s.now, blockNumber % 2 ^ 80⟩

/-- What the vault gets of it. -/
def reply (s : State) (blockNumber : Nat) : FeedReply := ⟨(latestRoundData s blockNumber).toOption, some decimals⟩

end BILOracle

/-! ## Installing and reading -/

section Feed

variable {env : Replies} {s s' : State} {sender oracle : Address} {round : RoundData} {decimals : Nat}

/-- A feed that is installed reports a positive answer, of a round that is complete, in 6 to 18
decimals. -/
theorem setOracle_ok_iff : setOracle env s sender oracle = .ok s' ↔
    s.hasRole .admin sender = true ∧ oracle ≠ 0 ∧
      (∃ round decimals, (env.feed oracle).latestRoundData = some round ∧ 0 < round.answer ∧ round.updatedAt ≠ 0 ∧
        (env.feed oracle).decimals = some decimals ∧ 6 ≤ decimals ∧ decimals ≤ 18) ∧
      s' = { s with oracle } := by
  simp only [setOracle, onlyRole, validateOracle, bind_ok_iff, require_ok_iff, returned_ok_iff, pure_ok_iff]
  constructor
  · rintro ⟨_, hrole, _, hne, _, ⟨round, hround, _, hanswer, _, hupdated, decimals, hdecimals, hrange⟩, rfl⟩
    exact ⟨hrole, hne, ⟨round, decimals, hround, hanswer, hupdated, hdecimals, hrange⟩, rfl⟩
  · rintro ⟨hrole, hne, ⟨round, decimals, hround, hanswer, hupdated, hdecimals, hrange⟩, rfl⟩
    exact ⟨(), hrole, (), hne, (), ⟨round, hround, (), hanswer, (), hupdated, decimals, hdecimals, hrange⟩, rfl⟩

/-- What a price is read of. -/
theorem getOraclePrice_ok_iff {price : Nat} (hround : (env.feed s.oracle).latestRoundData = some round)
    (hdecimals : (env.feed s.oracle).decimals = some decimals) : getOraclePrice env s = .ok price ↔
      s.oracle ≠ 0 ∧ 0 < round.answer ∧ (round.roundId ≠ 0 ∧ round.updatedAt ≠ 0) ∧
        round.roundId ≤ round.answeredInRound ∧ round.answer.toNat * 10 ^ 18 < uintSize ∧ 10 ^ decimals < uintSize ∧
        round.answer.toNat * 10 ^ 18 / 10 ^ decimals = price := by
  have hunit : 10 ^ decimals ≠ 0 := (Nat.pow_pos (by decide)).ne'
  simp only [getOraclePrice, oraclePrice, bind_ok_iff, require_ok_iff, returned_ok_iff, checkedMul_ok_iff,
    checkedPow_ok_iff, checkedDiv_ok_iff, hround, hdecimals, Option.some.injEq]
  constructor
  · rintro ⟨_, hne, _, rfl, _, hanswer, _, hids, _, hfresh, _, ⟨hfits, rfl⟩, _, rfl, _, ⟨hpow, rfl⟩, -, hprice⟩
    exact ⟨hne, hanswer, hids, hfresh, hfits, hpow, hprice⟩
  · rintro ⟨hne, hanswer, hids, hfresh, hfits, hpow, hprice⟩
    exact ⟨(), hne, round, rfl, (), hanswer, (), hids, (), hfresh, _, ⟨hfits, rfl⟩, decimals, rfl, _, ⟨hpow, rfl⟩,
      hunit, hprice⟩

/-- The feed of the vault is read: the price is positive, and its answer in 18 decimals. -/
def Readable (env : Replies) (s : State) (round : RoundData) (decimals : Nat) : Prop :=
  ∃ price, getOraclePrice env s = .ok price ∧ 0 < price ∧ price = round.answer.toNat * 10 ^ 18 / 10 ^ decimals

/-- The round is one that a read accepts on top of what an installation looks at: it has an id, its
answer is not of an earlier round, and the answer is a word in 18 more decimals. -/
def RoundData.Current (round : RoundData) : Prop :=
  round.roundId ≠ 0 ∧ round.roundId ≤ round.answeredInRound ∧ round.answer.toNat * 10 ^ 18 < uintSize

theorem readable_iff (hset : setOracle env s sender oracle = .ok s')
    (hround : (env.feed oracle).latestRoundData = some round) (hdecimals : (env.feed oracle).decimals = some decimals) :
    Readable env s' round decimals ↔ round.Current := by
  obtain ⟨-, hne, ⟨round', decimals', hround', hanswer, hupdated, hdecimals', -, hle⟩, rfl⟩ := setOracle_ok_iff.1 hset
  cases hround.symm.trans hround'
  cases hdecimals.symm.trans hdecimals'
  have hread := @getOraclePrice_ok_iff env { s with oracle } round decimals
  constructor
  · rintro ⟨price, hprice, -, -⟩
    obtain ⟨-, -, ⟨hid, -⟩, hfresh, hfits, -⟩ := (hread hround hdecimals).1 hprice
    exact ⟨hid, hfresh, hfits⟩
  · rintro ⟨hid, hfresh, hfits⟩
    have hpow : 10 ^ decimals ≤ 10 ^ 18 := Nat.pow_le_pow_right (by decide) hle
    have hword : 10 ^ decimals < uintSize := lt_of_le_of_lt hpow (by decide)
    refine ⟨_, (hread hround hdecimals).2 ⟨hne, hanswer, ⟨hid, hupdated⟩, hfresh, hfits, hword, rfl⟩, ?_, rfl⟩
    refine Nat.div_pos ?_ (Nat.pow_pos (by decide))
    calc 10 ^ decimals ≤ 1 * 10 ^ 18 := by rw [Nat.one_mul]; exact hpow
      _ ≤ round.answer.toNat * 10 ^ 18 := Nat.mul_le_mul_right _ (by omega)

/-- A round without an id is installed, and then refused by each read. -/
theorem idless_unreadable (hset : setOracle env s sender oracle = .ok s')
    (hidless : ∀ round, (env.feed oracle).latestRoundData = some round → round.roundId = 0) :
    getOraclePrice env s' = .error (.custom .oracleRoundIncomplete) := by
  obtain ⟨-, hne, ⟨round, -, hround, hanswer, -⟩, rfl⟩ := setOracle_ok_iff.1 hset
  have hzero := hidless round hround
  unfold getOraclePrice oraclePrice
  rw [require_bind hne, hround, returned_bind, require_bind hanswer, require_bind_error fun h => h.1 hzero]

end Feed

/-! ## The feeds of the repository -/

theorem feedReply_round {read : OracleTx ManagedOracle.RoundData} {decimals : Nat} {round : RoundData}
    (h : (feedReply read decimals).latestRoundData = some round) :
    ∃ r, read = .ok r ∧ round = ⟨r.roundId, r.answer.1, r.startedAt, r.updatedAt, r.answeredInRound⟩ := by
  cases read with
  | error e => cases h
  | ok r => exact ⟨r, rfl, (Option.some.inj h).symm⟩

section Composing

variable {env : Replies} {s s' : State} {sender oracle : Address} {sources : Address → SourceReply}

theorem idless_reply_unreadable {read : OracleTx ManagedOracle.RoundData} {decimals : Nat}
    (hidless : ∀ r, read = .ok r → r.roundId = 0) (hfeed : env.feed oracle = feedReply read decimals)
    (hset : setOracle env s sender oracle = .ok s') :
    getOraclePrice env s' = .error (.custom .oracleRoundIncomplete) := by
  apply idless_unreadable hset
  intro round hround
  rw [hfeed] at hround
  obtain ⟨r, hr, rfl⟩ := feedReply_round hround
  exact hidless r hr

theorem HybridOracleAggregator.unreadable {o : HybridOracleAggregator}
    (hfeed : env.feed oracle = feedReply (o.latestRoundData sources) decimals)
    (hset : setOracle env s sender oracle = .ok s') :
    getOraclePrice env s' = .error (.custom .oracleRoundIncomplete) := by
  refine idless_reply_unreadable (fun r hr => ?_) hfeed hset
  simp only [latestRoundData, bind_ok_iff, pure_ok_iff] at hr
  obtain ⟨_, -, _, -, _, -, rfl⟩ := hr
  rfl

theorem OraclesAggregator.unreadable {o : OraclesAggregator}
    (hfeed : env.feed oracle = feedReply (o.latestRoundData sources) decimals)
    (hset : setOracle env s sender oracle = .ok s') :
    getOraclePrice env s' = .error (.custom .oracleRoundIncomplete) := by
  refine idless_reply_unreadable (fun r hr => ?_) hfeed hset
  simp only [latestRoundData, bind_ok_iff, pure_ok_iff] at hr
  obtain ⟨_, -, _, -, _, -, rfl⟩ := hr
  rfl

end Composing

theorem exchangeRate_lt {s : State} {rate : Nat} (h : exchangeRate s = .ok rate) : rate < uintSize := by
  unfold exchangeRate at h
  split at h
  · cases h
    decide
  · simp only [bind_ok_iff, checkedMul_ok_iff, checkedDiv_ok_iff] at h
    obtain ⟨_, -, _, ⟨hlt, rfl⟩, -, rfl⟩ := h
    exact lt_of_le_of_lt (Nat.div_le_self _ _) hlt

/-- The vault's oracle reports its rate without the last ten decimals. -/
theorem BILOracle.latestRoundData_ok_iff {s : State} {blockNumber rate : Nat} {round : RoundData}
    (hrate : exchangeRate s = .ok rate) : latestRoundData s blockNumber = .ok round ↔
      0 < rate / 10 ^ 10 ∧
      round = ⟨blockNumber % 2 ^ 80, (rate / 10 ^ 10 : Nat), s.now, s.now, blockNumber % 2 ^ 80⟩ := by
  have hsmall : rate / 10 ^ 10 < 2 ^ 255 := by
    have := exchangeRate_lt hrate
    exact (Nat.div_lt_iff_lt_mul (by decide)).2 (lt_trans this (by decide))
  have hval := Int256.ofUint_val hsmall
  simp only [latestRoundData, scaledAnswer, bind_ok_iff, require_ok_iff, pure_ok_iff, hrate, Except.ok.injEq]
  constructor
  · rintro ⟨_, ⟨_, rfl, _, hpos, rfl⟩, rfl⟩
    exact ⟨hpos, by rw [hval]⟩
  · rintro ⟨hpos, rfl⟩
    exact ⟨_, ⟨rate, rfl, (), hpos, rfl⟩, by rw [hval]⟩

theorem BILOracle.reply_round {s : State} {blockNumber : Nat} {round : RoundData}
    (h : (reply s blockNumber).latestRoundData = some round) : latestRoundData s blockNumber = .ok round := by
  unfold reply at h
  cases hread : latestRoundData s blockNumber with
  | error e =>
    rw [hread] at h
    cases h
  | ok r =>
    rw [hread] at h
    exact congrArg Except.ok (Option.some.inj h)

/-- The vault's oracle is read at its rate without the last ten decimals, in a block whose number the
round id does not lose. -/
theorem BILOracle.readable_iff {env : Replies} {s s' : State} {sender oracle : Address} {blockNumber rate : Nat}
    (hfeed : env.feed oracle = reply s blockNumber) (hrate : exchangeRate s = .ok rate)
    (hset : setOracle env s sender oracle = .ok s') :
    (∃ price, getOraclePrice env s' = .ok price ∧ 0 < price ∧ price = rate / 10 ^ 10 * 10 ^ 10) ↔
      blockNumber % 2 ^ 80 ≠ 0 ∧ rate / 10 ^ 10 * 10 ^ 18 < uintSize := by
  obtain ⟨round, hround⟩ : ∃ round, (env.feed oracle).latestRoundData = some round := by
    obtain ⟨-, -, ⟨round, -, hround, -⟩, -⟩ := setOracle_ok_iff.1 hset
    exact ⟨round, hround⟩
  have hdecimals : (env.feed oracle).decimals = some 8 := by rw [hfeed]; rfl
  have hread := MoneyMarket.readable_iff hset hround hdecimals
  obtain ⟨-, rfl⟩ := (latestRoundData_ok_iff hrate).1 (reply_round (by rw [← hfeed]; exact hround))
  have hscale : rate / 10 ^ 10 * 10 ^ 18 / 10 ^ 8 = rate / 10 ^ 10 * 10 ^ 10 := by
    rw [show (10 : Nat) ^ 18 = 10 ^ 10 * 10 ^ 8 by decide, ← Nat.mul_assoc]
    exact Nat.mul_div_cancel _ (by decide)
  simp only [Readable, RoundData.Current, Int.toNat_natCast, hscale, le_refl, true_and] at hread
  exact hread

/-- An installed feed is read, at its answer in 18 decimals, when its round is current. The two
composing aggregators never report such a round; the vault's own oracle does. -/
theorem installed_readable_iff {env : Replies} {s s' : State} {sender oracle : Address}
    (hset : setOracle env s sender oracle = .ok s') :
    (∀ (round : RoundData) (decimals : Nat), (env.feed oracle).latestRoundData = some round →
      (env.feed oracle).decimals = some decimals → (Readable env s' round decimals ↔ round.Current)) ∧
    (∀ (o : HybridOracleAggregator) (sources : Address → SourceReply),
      env.feed oracle = feedReply (o.latestRoundData sources) HybridOracleAggregator.decimals →
      getOraclePrice env s' = .error (.custom .oracleRoundIncomplete)) ∧
    (∀ (o : OraclesAggregator) (sources : Address → SourceReply),
      env.feed oracle = feedReply (o.latestRoundData sources) OraclesAggregator.decimals →
      getOraclePrice env s' = .error (.custom .oracleRoundIncomplete)) ∧
    ∀ blockNumber rate : Nat, env.feed oracle = BILOracle.reply s blockNumber → exchangeRate s = .ok rate →
      ((∃ price, getOraclePrice env s' = .ok price ∧ 0 < price ∧ price = rate / 10 ^ 10 * 10 ^ 10) ↔
        blockNumber % 2 ^ 80 ≠ 0 ∧ rate / 10 ^ 10 * 10 ^ 18 < uintSize) := by
  refine ⟨fun round decimals hround hdecimals => ?_, fun o sources hfeed => ?_, fun o sources hfeed => ?_,
    fun blockNumber rate hfeed hrate => ?_⟩
  · exact readable_iff hset hround hdecimals
  · exact HybridOracleAggregator.unreadable hfeed hset
  · exact OraclesAggregator.unreadable hfeed hset
  · exact BILOracle.readable_iff hfeed hrate hset

/-- Every account of a feed answers the same. -/
def feedReplies (reply : FeedReply) : Replies := { demoQuiet with feed := fun _ => reply }

/-- A feed that reports 2 in its seventh round. -/
def demoFeed : FeedReply := ⟨some ⟨7, 2 * 10 ^ 8, 1000, 1000, 7⟩, some 8⟩

theorem installed_readable_iff_demo : ∃ s s', Reachable demo s ∧
    setOracle (feedReplies demoFeed) s 0xad 0x77 = .ok s' ∧
    Readable (feedReplies demoFeed) s' ⟨7, 2 * 10 ^ 8, 1000, 1000, 7⟩ 8 := by
  obtain ⟨s, hs, ht⟩ := observe_reach demo DeadSilent demoQuiet demoSetup []
    (fun s => passes (setOracle (feedReplies demoFeed) s 0xad 0x77) fun _ => true) (by decide +kernel)
  obtain ⟨s', hset, -⟩ := passes_ok ht
  refine ⟨s, s', hs.of_restrict, hset, ((installed_readable_iff hset).1 _ _ rfl rfl).2 ?_⟩
  exact ⟨by decide, by decide, by decide⟩

/-- The hybrid aggregator over a source that reports 2 in its seventh round and one that reports 3. -/
def hybridReplies : Replies :=
  feedReplies (feedReply
    (HybridOracleAggregator.latestRoundData ⟨1, 2⟩ (demoSources ⟨2 * 10 ^ 8, by decide⟩ ⟨3 * 10 ^ 8, by decide⟩))
    HybridOracleAggregator.decimals)

/-- It can be installed, and reports a round without an id. -/
theorem installed_unreadable : ¬ ∀ (d : Deployment) (env : Replies) (s s' : State) (sender oracle : Address)
    (round : RoundData) (decimals : Nat), Reachable d s → setOracle env s sender oracle = .ok s' →
    (env.feed oracle).latestRoundData = some round → (env.feed oracle).decimals = some decimals →
    Readable env s' round decimals := by
  intro hall
  obtain ⟨s, hs, ht⟩ := observe_reach demo DeadSilent demoQuiet demoSetup []
    (fun s => passes (setOracle hybridReplies s 0xad 0x77) fun _ => true) (by decide +kernel)
  obtain ⟨s', hset, -⟩ := passes_ok ht
  obtain ⟨-, -, ⟨round, decimals, hround, -, -, hdecimals, -⟩, -⟩ := setOracle_ok_iff.1 hset
  obtain ⟨price, hprice, -⟩ :=
    hall demo hybridReplies s s' 0xad 0x77 round decimals hs.of_restrict hset hround hdecimals
  rw [HybridOracleAggregator.unreadable rfl hset] at hprice
  cases hprice

end MoneyMarket
