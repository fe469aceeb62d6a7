/-
Labelled transition systems: the states a run reaches, the invariant rule, runs whose steps all
meet a side condition, and steps made of smaller moves that each report what they did.
-/
import Mathlib.Logic.Relation
import Mathlib.Tactic

namespace Transition

variable {σ α β : Type}

/-- Initial states and labelled steps. -/
structure System (σ α : Type) where
  init : σ → Prop
  next : σ → α → σ → Prop

namespace System

variable (M : System σ α)

/-- The states of the runs of `M`. -/
inductive Reach : σ → Prop
  | init {s : σ} : M.init s → Reach s
  | step {s t : σ} (a : α) : Reach s → M.next s a t → Reach t

/-- `t` comes after `s` in some run. -/
def Leads : σ → σ → Prop := Relation.ReflTransGen fun s t => ∃ a, M.next s a t

/-- The runs whose steps all meet `C`, a condition on the state before the step and its label. -/
def restrict (C : σ → α → Prop) : System σ α := ⟨M.init, fun s a t => C s a ∧ M.next s a t⟩

variable {M}

/-- What holds initially and is kept by every step from a reachable state holds when reached. -/
theorem Reach.invariant {I : σ → Prop} (hinit : ∀ s, M.init s → I s)
    (hnext : ∀ s a t, M.Reach s → I s → M.next s a t → I t) {s : σ} (h : M.Reach s) : I s := by
  induction h with
  | init hs => exact hinit _ hs
  | step a hr hn ih => exact hnext _ a _ hr ih hn

theorem Reach.leads {s t : σ} (h : M.Reach s) (hl : M.Leads s t) : M.Reach t := by
  induction hl with
  | refl => exact h
  | tail _ hn ih =>
    obtain ⟨a, hn⟩ := hn
    exact .step a ih hn

/-- What every step from a reachable state keeps is kept along a run. -/
theorem Leads.invariant {I : σ → Prop} {s t : σ} (h : M.Reach s)
    (hnext : ∀ s a t, M.Reach s → I s → M.next s a t → I t) (hl : M.Leads s t) (hi : I s) : I t := by
  induction hl with
  | refl => exact hi
  | tail hl hn ih =>
    obtain ⟨a, hn⟩ := hn
    exact hnext _ a _ (h.leads hl) ih hn

/-- A restricted run is a run. -/
theorem Reach.of_restrict {C : σ → α → Prop} {s : σ} (h : (M.restrict C).Reach s) : M.Reach s :=
  h.invariant (fun _ hs => .init hs) fun _ a _ _ ih hn => .step a ih hn.2

/-- Run a list of labels through an executable step. -/
def exec (next : σ → α → Option σ) : σ → List α → Option σ
  | s, [] => some s
  | s, a :: as => (next s a).bind fun t => exec next t as

/-- An executable step that is sound for `M` leads where a run of `M` does. -/
theorem Leads.exec {next : σ → α → Option σ} (hnext : ∀ s a t, next s a = some t → M.next s a t) :
    ∀ {as : List α} {s t : σ}, System.exec next s as = some t → M.Leads s t
  | [], s, t, h => by
    cases h; exact .refl
  | a :: as, s, t, h => by
    obtain ⟨u, hu, h⟩ := Option.bind_eq_some_iff.1 h
    exact .head ⟨a, hnext s a u hu⟩ (Leads.exec hnext h)

/-- Where an executable step that is sound for `M` leads is reached. -/
theorem Reach.exec {next : σ → α → Option σ} (hnext : ∀ s a t, next s a = some t → M.next s a t) :
    ∀ {as : List α} {s t : σ}, M.Reach s → System.exec next s as = some t → M.Reach t
  | [], s, t, hs, h => by
    cases h; exact hs
  | a :: as, s, t, hs, h => by
    obtain ⟨u, hu, h⟩ := Option.bind_eq_some_iff.1 h
    exact Reach.exec hnext (.step a hs (hnext s a u hu)) h

end System

/-- A sequence of moves, with the reports of all of them. -/
inductive Moves (move : σ → List β → σ → Prop) : σ → List β → σ → Prop
  | refl (s : σ) : Moves move s [] s
  | step {s t u : σ} {bs cs : List β} : move s bs t → Moves move t cs u → Moves move s (bs ++ cs) u

namespace Moves

variable {move : σ → List β → σ → Prop} {s t u : σ} {bs cs : List β}

theorem single (h : move s bs t) : Moves move s bs t := by
  simpa using Moves.step h (.refl t)

theorem trans (h₁ : Moves move s bs t) (h₂ : Moves move t cs u) : Moves move s (bs ++ cs) u := by
  induction h₁ with
  | refl => exact h₂
  | step hm _ ih => rw [List.append_assoc]; exact .step hm (ih h₂)

theorem mono {move' : σ → List β → σ → Prop} (hmono : ∀ s bs t, move s bs t → move' s bs t) (h : Moves move s bs t) :
    Moves move' s bs t := by
  induction h with
  | refl => exact .refl _
  | step hm _ ih => exact .step (hmono _ _ _ hm) ih

/-- What every move keeps is kept by a sequence of moves. -/
theorem invariant {I : σ → Prop} (hmove : ∀ s bs t, I s → move s bs t → I t) (h : Moves move s bs t) (hi : I s) :
    I t := by
  induction h with
  | refl => exact hi
  | step hm _ ih => exact ih (hmove _ _ _ hi hm)

/-- A relation with reports that composes, and that every move satisfies given an invariant of the
moves, relates the ends of a sequence with all its reports. -/
theorem reports {I : σ → Prop} {R : σ → List β → σ → Prop} (hrefl : ∀ s, R s [] s)
    (htrans : ∀ s bs t cs u, R s bs t → R t cs u → R s (bs ++ cs) u)
    (hmove : ∀ s bs t, I s → move s bs t → I t ∧ R s bs t) (h : Moves move s bs t) (hi : I s) : R s bs t := by
  induction h with
  | refl => exact hrefl _
  | step hm _ ih =>
    obtain ⟨hi', hr⟩ := hmove _ _ _ hi hm
    exact htrans _ _ _ _ _ hr (ih hi')

/-- The same for a relation that does not mention the reports. -/
theorem relation {I : σ → Prop} {R : σ → σ → Prop} (hrefl : ∀ s, R s s) (htrans : ∀ s t u, R s t → R t u → R s u)
    (hmove : ∀ s bs t, I s → move s bs t → I t ∧ R s t) (h : Moves move s bs t) (hi : I s) : R s t :=
  h.reports (R := fun s _ t => R s t) hrefl (fun s _ t _ u => htrans s t u) hmove hi

end Moves

end Transition
