/-
`while` loops with `break`, as fuelled recursion over one pass of the body. A pass either leaves
the loop (its guard failed, or it broke out) or asks for another pass. The rules: an invariant of
one pass holds at the exit (`loop_invariant`), and a loop whose passes decrease a measure below
its fuel leaves by a pass and not for want of fuel (`loop_exits`). Two loops whose passes stay related
come to related ends (`loop_both`).
-/
import MoneyMarket.Lib.Relational

namespace Evm

open Relational

/-- What one pass of a loop body does with the loop's variables. -/
inductive Pass (σ : Type) where
  | stop (s : σ)
  | again (s : σ)

variable {σ τ ε : Type}

/-- Run `pass` until it stops, at most `fuel` times. -/
def loop (pass : σ → Except ε (Pass σ)) : Nat → σ → Except ε σ
  | 0, s => .ok s
  | fuel + 1, s =>
    match pass s with
    | .error e => .error e
    | .ok (.stop s') => .ok s'
    | .ok (.again s') => loop pass fuel s'

/-- The loop from `s` leaves at `s'` by its `n`th pass, whatever the fuel. -/
inductive Exits (pass : σ → Except ε (Pass σ)) : Nat → σ → σ → Prop
  | stop {s s' : σ} : pass s = .ok (.stop s') → Exits pass 1 s s'
  | again {n : Nat} {s t s' : σ} : pass s = .ok (.again t) → Exits pass n t s' → Exits pass (n + 1) s s'

/-- A loop that leaves does so with any fuel for its passes. -/
theorem Exits.loop {pass : σ → Except ε (Pass σ)} {n fuel : Nat} {s s' : σ} (h : Exits pass n s s') (hfuel : n ≤ fuel) :
    loop pass fuel s = .ok s' := by
  induction h generalizing fuel with
  | stop hp =>
    obtain ⟨fuel, rfl⟩ : ∃ k, fuel = k + 1 := ⟨fuel - 1, by omega⟩
    simp only [Evm.loop, hp]
  | again hp _ ih =>
    obtain ⟨fuel, rfl⟩ : ∃ k, fuel = k + 1 := ⟨fuel - 1, by omega⟩
    simp only [Evm.loop, hp]
    exact ih (Nat.le_of_succ_le_succ hfuel)

/-- An invariant that every pass keeps holds when the loop is left. -/
theorem loop_invariant {pass : σ → Except ε (Pass σ)} {I : σ → Prop}
    (hstop : ∀ s s', I s → pass s = .ok (.stop s') → I s')
    (hagain : ∀ s s', I s → pass s = .ok (.again s') → I s') :
    ∀ {fuel : Nat} {s s' : σ}, I s → loop pass fuel s = .ok s' → I s'
  | 0, s, s', hi, h => by cases h; exact hi
  | fuel + 1, s, s', hi, h => by
    unfold loop at h
    split at h
    · cases h
    · rename_i hp; cases h; exact hstop s _ hi hp
    · rename_i hp; exact loop_invariant hstop hagain (hagain s _ hi hp) h

/-- A loop whose passes decrease `μ` leaves through a stopping pass when its fuel exceeds `μ`;
an invariant of the passes that ask for another holds before that pass. -/
theorem loop_exits {pass : σ → Except ε (Pass σ)} {I : σ → Prop} (μ : σ → Nat)
    (hagain : ∀ s s', I s → pass s = .ok (.again s') → I s' ∧ μ s' < μ s) :
    ∀ {fuel : Nat} {s s' : σ}, I s → μ s < fuel → loop pass fuel s = .ok s' →
      ∃ t, I t ∧ pass t = .ok (.stop s')
  | 0, _, _, _, hf, _ => by omega
  | fuel + 1, s, s', hi, hf, h => by
    unfold loop at h
    split at h
    · cases h
    · rename_i hp; cases h; exact ⟨s, hi, hp⟩
    · rename_i hp
      obtain ⟨hi', hlt⟩ := hagain s _ hi hp
      exact loop_exits μ hagain hi' (by omega) h

/-- A loop whose passes all succeed, and decrease `μ` below the fuel, succeeds. -/
theorem loop_total {pass : σ → Except ε (Pass σ)} {I : σ → Prop} (hok : ∀ s, I s → ∃ p, pass s = .ok p)
    (hagain : ∀ s s', I s → pass s = .ok (.again s') → I s') :
    ∀ (fuel : Nat) (s : σ), I s → ∃ s', loop pass fuel s = .ok s'
  | 0, s, _ => ⟨s, rfl⟩
  | fuel + 1, s, hi => by
    obtain ⟨p, hp⟩ := hok s hi
    unfold loop; rw [hp]
    cases p with
    | stop s' => exact ⟨s', rfl⟩
    | again s' => exact loop_total hok hagain fuel s' (hagain s s' hi hp)

section Both

variable {R : σ → τ → Prop}

/-- Two passes that both stop, or both ask for another, in related states. -/
inductive SamePass (R : σ → τ → Prop) : Pass σ → Pass τ → Prop
  | stop {s : σ} {t : τ} : R s t → SamePass R (.stop s) (.stop t)
  | again {s : σ} {t : τ} : R s t → SamePass R (.again s) (.again t)

/-- Loops whose passes stay related do. -/
theorem loop_both {pass : σ → Except ε (Pass σ)} {pass' : τ → Except ε (Pass τ)}
    (hpass : ∀ s t, R s t → Both (SamePass R) (pass s) (pass' t)) :
    ∀ (fuel : Nat) (s : σ) (t : τ), R s t → Both R (loop pass fuel s) (loop pass' fuel t)
  | 0, _, _, h => .ok h
  | fuel + 1, s, t, h => by
    unfold loop
    rcases (hpass s t h).sides with ⟨e, hs, ht⟩ | ⟨_, _, hs, ht, hsame⟩
    · rw [hs, ht]
      exact .error e
    · rw [hs, ht]
      cases hsame with
      | stop h => exact .ok h
      | again h => exact loop_both hpass fuel _ _ h

end Both

end Evm
