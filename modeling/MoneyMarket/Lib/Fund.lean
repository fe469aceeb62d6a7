/-
A fund with a line for those who leave. Its active shares own a value together; a member who leaves
waits in line, has shares locked for cash at the price of the day, and draws that cash later. The fund
is a machine of events, and every sequence of them accounts for all cash (`Runs.cash`).
-/
import MoneyMarket.Lib.Sums
import MoneyMarket.Lib.Transition

/-- What the active shares own and how many they are; of each member the shares in line, the shares locked
and the cash they are locked for. -/
@[ext] structure Fund (α : Type) where
  value : Nat
  active : Nat
  pending : α → Nat
  locked : α → Nat
  owed : α → Nat

namespace Fund

/-- Before anybody has bought. -/
def empty (α : Type) : Fund α := ⟨0, 0, fun _ => 0, fun _ => 0, fun _ => 0⟩

inductive Event (α : Type) where
  | earn (amount : Nat)
  | lose (amount : Nat)
  | buy (cash shares : Nat)
  | ask (member : α) (shares : Nat)
  | retract (member : α) (shares : Nat)
  | settle (locks : List (α × Nat))
  | pay (member : α) (shares cash : Nat)

namespace Event

variable {α : Type}

def gain : Event α → Nat
  | .earn amount => amount
  | _ => 0

def loss : Event α → Nat
  | .lose amount => amount
  | _ => 0

def paidIn : Event α → Nat
  | .buy cash _ => cash
  | _ => 0

def paidOut : Event α → Nat
  | .pay _ _ cash => cash
  | _ => 0

/-- An event that no member takes part in. -/
def Internal : Event α → Prop
  | .earn _ | .lose _ | .settle _ => True
  | _ => False

end Event

section Flows

variable {α : Type}

/-- A flow over a sequence of events. -/
def total (flow : Event α → Nat) (es : List (Event α)) : Nat := (es.map flow).sum

theorem total_append (flow : Event α → Nat) (es es' : List (Event α)) :
    total flow (es ++ es') = total flow es + total flow es' := by
  unfold total
  rw [List.map_append, List.sum_append]

/-- The value goes from `v` to `v'`. -/
def revalue (v v' : Nat) : List (Event α) := if v ≤ v' then [.earn (v' - v)] else [.lose (v - v')]

theorem revalue_internal (v v' : Nat) : ∀ e ∈ (revalue v v' : List (Event α)), e.Internal := by
  unfold revalue
  intro e he
  split_ifs at he
  · rw [List.mem_singleton.1 he]
    trivial
  · rw [List.mem_singleton.1 he]
    trivial

theorem revalue_loss (v v' : Nat) : total Event.loss (revalue v v' : List (Event α)) = v - v' := by
  unfold revalue
  split_ifs with hle
  · exact (Nat.sub_eq_zero_of_le hle).symm
  · exact Nat.add_zero _

end Flows

section Machine

variable {α : Type} [DecidableEq α] (unit : Nat)

/-- What `unit` shares are worth, rounded down; before there are any they are worth `unit`. -/
def price (f : Fund α) : Nat := if f.active = 0 then unit else f.value * unit / f.active

/-- Shares of a member leave the active ones, for their cash at `rate`. -/
def lock (rate : Nat) (f : Fund α) (member : α) (shares : Nat) : Fund α where
  value := f.value - shares * rate / unit
  active := f.active - shares
  pending := Function.update f.pending member (f.pending member - shares)
  locked := Function.update f.locked member (f.locked member + shares)
  owed := Function.update f.owed member (f.owed member + shares * rate / unit)

/-- A settlement at one rate, of shares in line that the value covers. -/
inductive Locks (rate : Nat) : Fund α → List (α × Nat) → Fund α → Prop
  | nil (f : Fund α) : Locks rate f [] f
  | cons {f g : Fund α} {rest : List (α × Nat)} (member : α) (shares : Nat) : shares ≤ f.pending member →
      shares ≤ f.active → shares * rate / unit ≤ f.value → Locks rate (f.lock unit rate member shares) rest g →
      Locks rate f ((member, shares) :: rest) g

/-- What an event does, where it can happen. Shares are bought for no less than the active ones are worth, or
one to one at most before there are any, and locked at the price; whoever draws on all locked shares is paid
all that is owed. -/
inductive Step : Fund α → Event α → Fund α → Prop
  | earn {f : Fund α} (amount : Nat) : Step f (.earn amount) { f with value := f.value + amount }
  | lose {f : Fund α} (amount : Nat) : amount ≤ f.value → Step f (.lose amount) { f with value := f.value - amount }
  | buy {f : Fund α} (cash shares : Nat) : (f.active = 0 → shares ≤ cash) →
      (0 < f.active → shares * f.value ≤ cash * f.active) →
      Step f (.buy cash shares) { f with value := f.value + cash, active := f.active + shares }
  | ask {f : Fund α} (member : α) (shares : Nat) :
      Step f (.ask member shares) { f with pending := Function.update f.pending member (f.pending member + shares) }
  | retract {f : Fund α} (member : α) (shares : Nat) : shares ≤ f.pending member →
      Step f (.retract member shares)
        { f with pending := Function.update f.pending member (f.pending member - shares) }
  | settle {f g : Fund α} (locks : List (α × Nat)) : Locks unit (f.price unit) f locks g → Step f (.settle locks) g
  | pay {f : Fund α} (member : α) (shares cash : Nat) : shares ≤ f.locked member → cash ≤ f.owed member →
      (shares = f.locked member → cash = f.owed member) →
      Step f (.pay member shares cash)
        { f with
          locked := Function.update f.locked member (f.locked member - shares)
          owed := Function.update f.owed member (f.owed member - cash) }

/-- One event, as a report. -/
def Happens (f : Fund α) (es : List (Event α)) (g : Fund α) : Prop := ∃ e, es = [e] ∧ Step unit f e g

/-- A run of the fund through a sequence of events. -/
abbrev Runs : Fund α → List (Event α) → Fund α → Prop := Transition.Moves (Happens unit)

theorem Step.runs {unit : Nat} {f g : Fund α} {e : Event α} (h : Step unit f e g) : Runs unit f [e] g :=
  .single ⟨e, rfl, h⟩

theorem revalue_runs {unit : Nat} (f : Fund α) (v : Nat) : Runs unit f (revalue f.value v) { f with value := v } := by
  unfold revalue
  split_ifs with hle
  · have h : Step unit f (.earn (v - f.value)) _ := .earn _
    rw [Nat.add_sub_cancel' hle] at h
    exact h.runs
  · have h : Step unit f (.lose (f.value - v)) _ := .lose _ (Nat.sub_le _ _)
    rw [Nat.sub_sub_self (not_le.1 hle).le] at h
    exact h.runs

/-! ## Cash -/

variable {unit : Nat} [Fintype α] {f g : Fund α}

/-- A settlement only sets cash aside. -/
theorem Locks.cash {rate : Nat} {locks : List (α × Nat)} (h : Locks unit rate f locks g) :
    g.value + ∑ member, g.owed member = f.value + ∑ member, f.owed member := by
  induction h with
  | nil => rfl
  | @cons f g rest member shares _ _ hvalue _ ih =>
    rw [ih]
    have hsum := Sums.sum_update f.owed member (f.owed member + shares * rate / unit)
    show f.value - shares * rate / unit + ∑ x, Function.update f.owed member _ x = f.value + ∑ x, f.owed x
    omega

theorem Step.cash {e : Event α} (h : Step unit f e g) :
    g.value + ∑ member, g.owed member + e.loss + e.paidOut = f.value + ∑ member, f.owed member + e.gain + e.paidIn := by
  cases h with
  | earn amount =>
    show f.value + amount + ∑ x, f.owed x + 0 + 0 = f.value + ∑ x, f.owed x + amount + 0
    omega
  | lose amount hle =>
    show f.value - amount + ∑ x, f.owed x + amount + 0 = f.value + ∑ x, f.owed x + 0 + 0
    omega
  | buy cash shares _ _ =>
    show f.value + cash + ∑ x, f.owed x + 0 + 0 = f.value + ∑ x, f.owed x + 0 + cash
    omega
  | ask member shares => rfl
  | retract member shares _ => rfl
  | settle locks hlocks => exact hlocks.cash
  | pay member shares cash _ hcash _ =>
    have hsum := Sums.sum_update f.owed member (f.owed member - cash)
    show f.value + ∑ x, Function.update f.owed member _ x + 0 + cash = f.value + ∑ x, f.owed x + 0 + 0
    omega

/-- Over any run: what is there, with all that was lost and paid out, is what was there with all that was gained
and paid in. -/
theorem Runs.cash {es : List (Event α)} (h : Runs unit f es g) :
    g.value + ∑ member, g.owed member + total Event.loss es + total Event.paidOut es =
      f.value + ∑ member, f.owed member + total Event.gain es + total Event.paidIn es := by
  induction h with
  | refl => rfl
  | step hhappens _ ih =>
    obtain ⟨e, rfl, hstep⟩ := hhappens
    have hcash := hstep.cash
    have hone : ∀ flow : Event α → Nat, total flow [e] = flow e := fun flow => Nat.add_zero _
    simp only [total_append, hone]
    omega

end Machine

end Fund
