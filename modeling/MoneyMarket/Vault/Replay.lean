/-
Running the vault on a list of actions. A replay checks that every action is legal and meets the
run's side condition, so what it reaches is reachable (`replay_reach`, `observe_reach`).
-/
import MoneyMarket.Vault.Machine

namespace MoneyMarket

open Evm Transition

instance (a : Address) (c : ERC20.Call) : Decidable (drawsOn a c) :=
  match c with
  | .transferFrom src _ _ => inferInstanceAs (Decidable (src = a))
  | .transfer _ _ => inferInstanceAs (Decidable False)
  | .approve _ _ => inferInstanceAs (Decidable False)
  | .increaseAllowance _ _ => inferInstanceAs (Decidable False)
  | .decreaseAllowance _ _ => inferInstanceAs (Decidable False)

instance (d : Deployment) (s : State) (a : Action) : Decidable (Legal d s a) :=
  match a with
  | .tick now => inferInstanceAs (Decidable (s.now ≤ now))
  | .call sender _ _ => inferInstanceAs (Decidable (sender ≠ d.self))
  | .hollar sender c => inferInstanceAs (Decidable (sender ≠ d.self ∧ ¬ drawsOn d.self c))
  | .hollarMint _ _ => inferInstanceAs (Decidable True)
  | .hollarBurn account _ => inferInstanceAs (Decidable (account ≠ d.self))

instance (s : State) (a : Action) : Decidable (DeadSilent s a) := inferInstanceAs (Decidable (a.sender ≠ deadAddress))

/-- The ledger of a token nobody holds. -/
def emptyLedger : ERC20 := ⟨fun _ => 0, fun _ _ => 0, 0⟩

theorem PlainLedger.empty : PlainLedger emptyLedger := ⟨Finset.sum_const_zero, show 0 < uintSize by decide⟩

/-- A call that succeeds with a value that passes a test. -/
def passes {α : Type} (x : Tx α) (test : α → Bool) : Bool :=
  match x with
  | .ok a => test a
  | .error _ => false

theorem passes_ok {α : Type} {x : Tx α} {test : α → Bool} (h : passes x test = true) :
    ∃ a, x = .ok a ∧ test a = true := by
  unfold passes at h
  split at h
  · exact ⟨_, rfl, h⟩
  · cases h

section Replay

variable (d : Deployment) (C : State → Action → Prop) [∀ s a, Decidable (C s a)]

/-- One action of a run whose steps meet `C`. -/
def replayStep (s : State) (a : Action) : Option State :=
  if C s a ∧ Legal d s a then
    match step d s a with
    | .ok (t, _) => some t
    | .error _ => none
  else none

/-- A run from the initializer over an empty HOLLAR ledger. -/
def replay (env : Replies) (p : Setup) (as : List Action) : Option State :=
  match initializeVault env p emptyLedger 0 with
  | .ok s => System.exec (replayStep d C) s as
  | .error _ => none

variable {d C}

/-- What an action of a replay leads to, a step of the restricted system leads to. -/
theorem replayStep_sound {s t : State} {a : Action} (h : replayStep d C s a = some t) :
    ((vault d).restrict C).next s a t := by
  unfold replayStep at h
  split at h
  · rename_i hguard
    split at h
    · rename_i hok
      cases h
      exact ⟨hguard.1, hguard.2, _, hok⟩
    · cases h
  · cases h

theorem replay_reach {env : Replies} {p : Setup} {as : List Action} {s : State} (h : replay d C env p as = some s) :
    ((vault d).restrict C).Reach s := by
  unfold replay at h
  split at h
  · rename_i s₀ hinit
    exact .exec (fun _ _ _ => replayStep_sound) (.init ⟨env, p, emptyLedger, 0, .empty, hinit⟩) h
  · cases h

variable (d C)

/-- A replay whose last state passes a test reaches a state that does. -/
theorem observe_reach (env : Replies) (p : Setup) (as : List Action) (test : State → Bool)
    (h : (replay d C env p as).any test = true) : ∃ s, ((vault d).restrict C).Reach s ∧ test s = true := by
  obtain ⟨s, hs, ht⟩ := (Option.any_eq_true _ _).1 h
  exact ⟨s, replay_reach hs, ht⟩

/-- A replay, and one more action whose two states and payouts pass a test. -/
theorem observe_step (env : Replies) (p : Setup) (as : List Action) (a : Action)
    (test : State → State → List Payout → Bool)
    (h : (replay d C env p as).any
      (fun s => decide (Legal d s a) && passes (step d s a) fun r => test s r.1 r.2) = true) :
    ∃ s t ps, ((vault d).restrict C).Reach s ∧ Legal d s a ∧ step d s a = .ok (t, ps) ∧ test s t ps = true := by
  obtain ⟨s, hs, ht⟩ := observe_reach d C env p as _ h
  rw [Bool.and_eq_true, decide_eq_true_iff] at ht
  obtain ⟨hlegal, ht⟩ := ht
  obtain ⟨⟨t, ps⟩, hstep, ht⟩ := passes_ok ht
  exact ⟨s, t, ps, hs, hlegal, hstep, ht⟩

end Replay

/-! ## Replays with a record -/

section Record

variable (d : Deployment) {β : Type} (book : β → State → Action → State → List Payout → β)

/-- One action, with what is kept beside the state brought up to date by `book`. -/
def recordStep (p : State × β) (a : Action) : Option (State × β) :=
  if Legal d p.1 a then
    match step d p.1 a with
    | .ok (t, ps) => some (t, book p.2 p.1 a t ps)
    | .error _ => none
  else none

/-- A run from the initializer, with a record that starts with `b`. -/
def record (b : β) (env : Replies) (p : Setup) (as : List Action) : Option (State × β) :=
  match initializeVault env p emptyLedger 0 with
  | .ok s => System.exec (recordStep d book) (s, b) as
  | .error _ => none

/-- A record of a system that books every step of the vault in the same way. -/
theorem observe_record {M : System (State × β) Action} {b : β} (hinit : ∀ s, (vault d).init s → M.init (s, b))
    (hnext : ∀ p a t ps, Legal d p.1 a → step d p.1 a = .ok (t, ps) → M.next p a (t, book p.2 p.1 a t ps))
    (env : Replies) (setup : Setup) (as : List Action) (test : State × β → Bool)
    (h : (record d book b env setup as).any test = true) : ∃ p, M.Reach p ∧ test p = true := by
  obtain ⟨p, hp, ht⟩ := (Option.any_eq_true _ _).1 h
  refine ⟨p, ?_, ht⟩
  unfold record at hp
  split at hp
  · rename_i s₀ hstart
    refine .exec (fun p a p' hs => ?_) (.init (hinit s₀ ⟨env, setup, emptyLedger, 0, .empty, hstart⟩)) hp
    unfold recordStep at hs
    split_ifs at hs with hlegal
    split at hs
    · rename_i hok
      cases hs
      exact hnext p a _ _ hlegal hok
    · cases hs
  · cases hp

end Record

/-! ## A deployment to replay on -/

def demo : Deployment := ⟨0x5e1f, by decide, by decide⟩

def demoPool : Address := 0x1
def alice : Address := 0xa11ce
def bob : Address := 0xb0b

def demoSetup : Setup := ⟨demoPool, 0xB, 0xA, 10 ^ 30, 0xad⟩

/-- A pool of the given terms that pulls and pays the given amounts. -/
def demoReplies (apyWad period : Nat) (deposit yield principal : Option Nat) : Replies where
  pool _ :=
    { stablecoin := some 0xA, poolToken := some 0xB, fixedAPYWad := some apyWad,
      minimumInvestmentPeriodSeconds := some period, deposit := deposit.map fun amount => (0, amount),
      requestYieldWithdrawal := true, executeYieldWithdrawal := yield, requestPrincipalWithdrawal := true,
      executePrincipalWithdrawal := principal }
  feed _ := ⟨none, none⟩

/-- A call that no pool answers. -/
def demoQuiet : Replies := demoReplies 0 0 none none none

/-- HOLLAR for alice, who approves the vault, and for the pool. -/
def demoFunding : List Action :=
  [.hollarMint alice (10 ^ 24), .hollarMint demoPool (10 ^ 24), .hollar alice (.approve demo.self (10 ^ 24))]

/-- Alice deposits 100 HOLLAR for 1000 seconds at 10%, requests 2 and 30 shares, and the position is
redeemed in full, which settles both requests. -/
def demoRun : List Action :=
  demoFunding ++
    [.call alice (demoReplies (10 ^ 17) 1000 (some (10 ^ 20)) none none) (.deposit (10 ^ 20) alice),
     .call alice demoQuiet (.requestRedeem (2 * 10 ^ 18) alice alice),
     .call alice demoQuiet (.requestRedeem (30 * 10 ^ 18) alice alice),
     .tick 1000,
     .call bob (demoReplies 0 0 none (some 317097919837645) (some (10 ^ 20))) (.pokeDecentral 0)]

/-- After that run both requests are settled and indexed. -/
theorem demoRun_settled : ∃ s, ((vault demo).restrict DeadSilent).Reach s ∧ s.settledByController alice = [0, 1] ∧
    s.totalSettledBil = 32 * 10 ^ 18 ∧ s.totalReservedHollar = 32000101471334348032 ∧ s.paused = false := by
  obtain ⟨s, hs, ht⟩ := observe_reach demo DeadSilent demoQuiet demoSetup demoRun
    (fun s => decide (s.settledByController alice = [0, 1] ∧ s.totalSettledBil = 32 * 10 ^ 18 ∧
      s.totalReservedHollar = 32000101471334348032 ∧ s.paused = false)) (by decide +kernel)
  exact ⟨s, hs, of_decide_eq_true ht⟩

/-- Alice deposits 100 HOLLAR for 1000 seconds at 10%, and 400 seconds later 50 more for 500 seconds at 5%. At the
end the second position is overdue. -/
def ratesRun : List Action :=
  demoFunding ++
    [.call alice (demoReplies (10 ^ 17) 1000 (some (10 ^ 20)) none none) (.deposit (10 ^ 20) alice),
     .tick 400,
     .call alice (demoReplies (5 * 10 ^ 16) 500 (some (5 * 10 ^ 19)) none none) (.deposit (5 * 10 ^ 19) alice),
     .tick 950]

end MoneyMarket
