/-
The keeper's pass over settled redemptions: what `autoClaimSettled` reads from the vault and adds
up per controller before it claims.
-/
import MoneyMarket.Lib.OrderedMap
import MoneyMarket.Vault.Claiming

namespace MoneyMarket

open Evm

/-! ## The views it reads -/

def getRedemptionQueueLength (s : State) : Nat := s.queueTail

/-- The user, the shares queued and settled, the HOLLAR owed, and whether the slot is in use. -/
def getRedemptionRequest (s : State) (requestId : Nat) : Address × Nat × Nat × Nat × Bool :=
  let r := s.redemptionQueue requestId
  (r.user, r.bilAmount, r.bilSettled, r.hollarOwed, decide (r.user ≠ 0))

/-! ## The sum per controller -/

/-- The settled shares of all live requests, by controller. -/
def autoClaimable (s : State) : List (Address × Nat) :=
  (List.range (getRedemptionQueueLength s)).foldl
    (fun claimable i =>
      let (user, _, bilSettled, _, active) := getRedemptionRequest s i
      if active = false ∨ bilSettled = 0 then claimable
      else OrderedMap.set claimable user ((OrderedMap.get claimable user).getD 0 + bilSettled)) []

/-- The keeper's sum for a controller, zero where its map has no entry. -/
def autoClaimSum (s : State) (c : Address) : Nat := (OrderedMap.get (autoClaimable s) c).getD 0

/-- It is all the settled shares of the controller. -/
theorem autoClaimSum_settled {s : State} (hl : QueueLedger s.toRedemptions) (c : Address) :
    autoClaimSum s c = settledOf s.toRedemptions c := by
  have hsum := OrderedMap.get_foldl_add
    (fun i => decide ((s.redemptionQueue i).user ≠ 0) = false ∨ (s.redemptionQueue i).bilSettled = 0)
    (fun i => (s.redemptionQueue i).user) (fun i => (s.redemptionQueue i).bilSettled) c s.queueTail
  refine Eq.trans hsum (Finset.sum_congr rfl fun i _ => ?_)
  by_cases hu : (s.redemptionQueue i).user = 0
  · rw [hl.blank i (.inl hu)]
    exact (ite_self _).trans (ite_self _).symm
  · by_cases h0 : (s.redemptionQueue i).bilSettled = 0
    · simp [h0]
    · simp [hu, h0]

end MoneyMarket
