/-
Comparing prices by cross multiplication. A pot of `A` backs `S` shares; a later pot is no cheaper
when `A * S' ≤ A' * S`. Such comparisons compose while the shares shrink, and buying in or out at
the price, rounded against the trader, keeps them.
-/
import Mathlib.Algebra.Order.Floor.Div
import Mathlib.Tactic

namespace Ratio

variable {A B C S T U j k a b h : Nat}

/-- Comparisons that give up `j` and `k` compose, the shares not growing. -/
theorem trans_le (h₁ : A * T ≤ (B + j) * S) (h₂ : B * U ≤ (C + k) * T) (hU : U ≤ T) : A * U ≤ (C + (j + k)) * S := by
  rcases Nat.eq_zero_or_pos T with rfl | hT
  · rw [Nat.le_zero.1 hU, Nat.mul_zero]; exact Nat.zero_le _
  · refine Nat.le_of_mul_le_mul_right ?_ hT
    calc A * U * T = A * T * U := by ring
      _ ≤ (B + j) * S * U := Nat.mul_le_mul_right _ h₁
      _ = (B * U) * S + j * S * U := by ring
      _ ≤ ((C + k) * T) * S + j * S * T := Nat.add_le_add (Nat.mul_le_mul_right _ h₂) (Nat.mul_le_mul_left _ hU)
      _ = (C + (j + k)) * S * T := by ring

/-- Paying `h` for `b` at a rate of no more than the price costs no more than the price. -/
theorem pay_at_rate {rate unit : Nat} (hunit : 0 < unit) (hpay : h * unit ≤ b * rate) (hrate : rate * S ≤ A * unit) :
    h * S ≤ b * A := by
  refine Nat.le_of_mul_le_mul_right ?_ hunit
  calc h * S * unit = h * unit * S := by ring
    _ ≤ b * rate * S := Nat.mul_le_mul_right _ hpay
    _ = b * (rate * S) := by ring
    _ ≤ b * (A * unit) := Nat.mul_le_mul_left _ hrate
    _ = b * A * unit := by ring

/-- Buying `b` shares for no less than the price. -/
theorem buy (hprice : b * A ≤ a * S) : A * (S + b) ≤ (A + a) * S := by
  calc A * (S + b) = A * S + b * A := by ring
    _ ≤ A * S + a * S := Nat.add_le_add_left hprice _
    _ = (A + a) * S := by ring

/-- Selling `b` of `S + b` shares for no more than the price. -/
theorem sell (hprice : h * (S + b) ≤ b * (A + h)) : (A + h) * S ≤ A * (S + b) := by
  have h₁ : (A + h) * S + b * (A + h) = (A + h) * (S + b) := by ring
  have h₂ : A * (S + b) + h * (S + b) = (A + h) * (S + b) := by ring
  omega

/-- Selling from a pot that covers its shares one to one leaves one that does. -/
theorem sell_covered (hcover : S + b ≤ A + h) (hprice : h * (S + b) ≤ b * (A + h)) : S ≤ A := by
  by_contra hlt
  have hgap : b < h := by omega
  -- with `A < S` the price is below `h / b`, but the pot pays `h` for `b`
  have h₁ : b * (A + h) < b * (S + h) ∨ b = 0 := by
    rcases Nat.eq_zero_or_pos b with rfl | hb
    · exact .inr rfl
    · exact .inl (Nat.mul_lt_mul_of_pos_left (by omega) hb)
  rcases h₁ with h₁ | rfl
  · have h₂ : b * S ≤ h * S := Nat.mul_le_mul_right _ hgap.le
    have h₃ : h * (S + b) < b * (S + h) := lt_of_le_of_lt hprice h₁
    nlinarith
  · have h₀ : h * S = 0 := by simpa using hprice
    rcases Nat.mul_eq_zero.1 h₀ with rfl | rfl <;> omega

/-- A price that is no cheaper has no smaller quotient. -/
theorem floor_le {unit : Nat} (hprice : A * T ≤ B * S) (hS : 0 < S) (hT : 0 < T) : A * unit / S ≤ B * unit / T := by
  refine (Nat.le_div_iff_mul_le hT).2 (Nat.le_of_mul_le_mul_right ?_ hS)
  calc A * unit / S * T * S = A * unit / S * S * T := by ring
    _ ≤ A * unit * T := Nat.mul_le_mul_right _ (Nat.div_mul_le_self _ _)
    _ = A * T * unit := by ring
    _ ≤ B * S * unit := Nat.mul_le_mul_right _ hprice
    _ = B * unit * S := by ring

/-- A pot that covers its shares one to one has a quotient of at least the unit. -/
theorem unit_le_floor {unit : Nat} (hcover : S ≤ A) (hS : 0 < S) : unit ≤ A * unit / S :=
  (Nat.le_div_iff_mul_le hS).2 (by rw [Nat.mul_comm]; exact Nat.mul_le_mul_right _ hcover)

/-! ## Rounded quotients -/

section Rounding

variable {k B p limit : Nat}

/-- The rounded-up quotient is less than one unit above the exact one. -/
theorem ceilDiv_mul_lt (n : Nat) (hk : 0 < k) : n ⌈/⌉ k * k < n + k := by
  rw [Nat.ceilDiv_eq_add_pred_div]
  have := Nat.div_mul_le_self (n + k - 1) k
  omega

/-- Selling `n` at `A / S`, rounded up, and buying for `a` at the same price, rounded down, are adjoint. -/
theorem price_gc (hA : 0 < A) (hS : 0 < S) : GaloisConnection (fun n => (n * A) ⌈/⌉ S) fun a => a * S / A := by
  intro n a
  show (n * A) ⌈/⌉ S ≤ a ↔ n ≤ a * S / A
  rw [ceilDiv_le_iff_le_mul hS, Nat.le_div_iff_mul_le hA, Nat.mul_comm S]

/-- Marking down by `k / B`, rounded down, skips no number: the least that is marked down to `p`. -/
theorem markdown_ceilDiv (hk : 0 < k) (hkB : k ≤ B) : (p * B) ⌈/⌉ k * k / B = p := by
  have hle : p * B ≤ k * ((p * B) ⌈/⌉ k) := (ceilDiv_le_iff_le_mul hk).1 (le_refl _)
  have hlt := ceilDiv_mul_lt (p * B) hk
  apply Nat.div_eq_of_lt_le (by rw [Nat.mul_comm _ k]; exact hle)
  calc (p * B) ⌈/⌉ k * k < p * B + k := hlt
    _ ≤ p * B + B := Nat.add_le_add_left hkB _
    _ = (p + 1) * B := by ring

/-- What is marked down from a product of at most `limit` is anything up to the markdown of the
largest. -/
theorem markdown_iff (hk : 0 < k) (hkB : k ≤ B) :
    (∃ r, r * k ≤ limit ∧ r * k / B = p) ↔ p ≤ limit / k * k / B := by
  constructor
  · rintro ⟨r, hle, rfl⟩
    exact Nat.div_le_div_right (Nat.mul_le_mul_right _ ((Nat.le_div_iff_mul_le hk).2 hle))
  · intro hp
    refine ⟨(p * B) ⌈/⌉ k, ?_, markdown_ceilDiv hk hkB⟩
    have hleast : (p * B) ⌈/⌉ k ≤ limit / k := by
      refine (ceilDiv_le_iff_le_mul hk).2 ?_
      rw [Nat.mul_comm k]
      exact (Nat.le_div_iff_mul_le (lt_of_lt_of_le hk hkB)).1 hp
    exact (Nat.le_div_iff_mul_le hk).1 hleast

end Rounding

/-! ## Bands around a quotient

A value `p` within `m` parts in `B` of the floor of `n / k`, compared with `n / k` itself. -/

section Band

variable {n m p : Nat}

/-- Rounding down moves the upper edge inwards. -/
theorem band_upper {B : Nat} (k : Nat) (h : (p - n / k) * B ≤ m * (n / k)) : p * k * B ≤ (B + m) * n := by
  have hp : p ≤ (p - n / k) + n / k := by omega
  calc p * k * B = p * B * k := by ring
    _ ≤ ((p - n / k) + n / k) * B * k := Nat.mul_le_mul_right _ (Nat.mul_le_mul_right _ hp)
    _ = ((p - n / k) * B + n / k * B) * k := by ring
    _ ≤ (m * (n / k) + n / k * B) * k := Nat.mul_le_mul_right _ (Nat.add_le_add_right h _)
    _ = (B + m) * (n / k * k) := by ring
    _ ≤ (B + m) * n := Nat.mul_le_mul_left _ (Nat.div_mul_le_self n k)

/-- It moves the lower edge outwards, by less than one. -/
theorem band_lower {B k : Nat} (hB : 0 < B) (hk : 0 < k) (h : (n / k - p) * B ≤ m * (n / k)) :
    (B - m) * n < (p + 1) * k * B := by
  have hn : n + 1 ≤ n / k * k + k := by
    have hdiv := Nat.div_add_mod n k
    have hmod := Nat.mod_lt n hk
    rw [Nat.mul_comm k] at hdiv
    omega
  have hp : (B - m) * (n / k) ≤ p * B := by
    have hsplit : n / k * B ≤ (n / k - p) * B + p * B := by
      rw [← Nat.add_mul]
      exact Nat.mul_le_mul_right _ (by omega)
    rw [Nat.sub_mul, Nat.mul_comm B]
    omega
  rcases Nat.eq_zero_or_pos (B - m) with h0 | hpos
  · rw [h0, Nat.zero_mul]
    exact Nat.mul_pos (Nat.mul_pos (Nat.succ_pos p) hk) hB
  · calc (B - m) * n < (B - m) * (n + 1) := Nat.mul_lt_mul_of_pos_left (Nat.lt_succ_self n) hpos
      _ ≤ (B - m) * (n / k * k + k) := Nat.mul_le_mul_left _ hn
      _ = (B - m) * (n / k) * k + (B - m) * k := by ring
      _ ≤ p * B * k + B * k := Nat.add_le_add (Nat.mul_le_mul_right _ hp) (Nat.mul_le_mul_right _ (Nat.sub_le B m))
      _ = (p + 1) * k * B := by ring

/-- Where nothing is rounded the band is exact. -/
theorem band_exact {B k : Nat} (hdvd : k ∣ n) (hk : 0 < k) (h : |(p : Int) - (n / k : Nat)| * B ≤ m * (n / k : Nat)) :
    |(p : Int) * k - n| * B ≤ m * n := by
  obtain ⟨q, rfl⟩ := hdvd
  rw [Nat.mul_div_cancel_left q hk] at h
  have habs : |(p : Int) * k - (k * q : Nat)| = k * |(p : Int) - q| := by
    rw [Nat.cast_mul, show (p : Int) * k - k * q = k * (p - q) by ring, abs_mul, Nat.abs_cast]
  calc |(p : Int) * k - (k * q : Nat)| * B = k * (|(p : Int) - q| * B) := by rw [habs]; ring
    _ ≤ k * (m * q) := Int.mul_le_mul_of_nonneg_left h (Int.natCast_nonneg k)
    _ = m * (k * q : Nat) := by push_cast; ring

end Band

end Ratio
