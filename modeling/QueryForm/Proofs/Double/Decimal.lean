/-
Decimals that are the same number have the same nearest double: one with
zeros more at the end of its coefficient (`toDouble_finer`), and one that is
stripped of such zeros (`toDouble_strip`). The sign has no part in the
magnitude (`toDouble_signed`). A decimal that is settled by its size alone
is settled as its quotient would be (`toDouble_eq`).
-/
import QueryForm.Double.Decimal
import QueryForm.Proofs.Double.Rounding
import QueryForm.Proofs.Text.Digits

namespace QueryForm.Decimal

/-- The same number, with a number of zeros more at the end of its coefficient. -/
def finer (d : Decimal) (zeros : Nat) : Decimal :=
  ⟨d.negative, d.coefficient * Nat.pow 10 zeros, d.exponent - zeros⟩

theorem top_finer {d : Decimal} (h : d.coefficient ≠ 0) (zeros : Nat) :
    (d.finer zeros).top = d.top := by
  simp only [top, finer, digitCount_mul_pow h]
  omega

/-- A decimal within the range of doubles is rounded as the quotient that it is. -/
theorem toDouble_of_inRange {d : Decimal} (h : d.coefficient ≠ 0) (hhigh : ¬ 309 < d.top)
    (hlow : ¬ d.top < -323) :
    d.toDouble = .ofRatio d.negative (d.coefficient * Nat.pow 10 d.exponent.toNat)
      (Nat.pow 10 (-d.exponent).toNat) := by
  rw [toDouble, if_neg h, if_neg hhigh, if_neg hlow]

theorem toDouble_finer (d : Decimal) (zeros : Nat) : (d.finer zeros).toDouble = d.toDouble := by
  have hpow : ∀ k, 0 < Nat.pow 10 k := fun k => Nat.pow_pos (by decide)
  by_cases h : d.coefficient = 0
  · have hfiner : (d.finer zeros).coefficient = 0 := by rw [finer, h, Nat.zero_mul]
    rw [toDouble, if_pos hfiner, toDouble, if_pos h]
    rfl
  have hfiner : (d.finer zeros).coefficient ≠ 0 := Nat.mul_ne_zero h (Nat.ne_of_gt (hpow zeros))
  have htop := top_finer h zeros
  by_cases hhigh : 309 < d.top
  · rw [toDouble, if_neg hfiner, htop, if_pos hhigh, toDouble, if_neg h, if_pos hhigh]
    rfl
  by_cases hlow : d.top < -323
  · rw [toDouble, if_neg hfiner, htop, if_neg hhigh, if_pos hlow, toDouble, if_neg h,
      if_neg hhigh, if_pos hlow]
    rfl
  rw [toDouble_of_inRange hfiner (by rwa [htop]) (by rwa [htop]),
    toDouble_of_inRange h hhigh hlow]
  refine Double.ofRatio_congr d.negative (hpow _) (hpow _) ?_
  -- The zeros are taken back by the exponent, on either side of the quotient.
  have hexp : zeros + (d.exponent - zeros).toNat + (-d.exponent).toNat =
      d.exponent.toNat + (-(d.exponent - zeros)).toNat := by omega
  have hsides : Nat.pow 10 zeros * Nat.pow 10 (d.exponent - zeros).toNat *
      Nat.pow 10 (-d.exponent).toNat =
      Nat.pow 10 d.exponent.toNat * Nat.pow 10 (-(d.exponent - zeros)).toNat := by
    simp only [Nat.pow_eq, ← Nat.pow_add, hexp]
  simp only [finer, Nat.mul_assoc] at hsides ⊢
  rw [hsides]

theorem toDouble_strip (d : Decimal) : d.strip.toDouble = d.toDouble := by
  fun_induction strip d with
  | case1 d h ih =>
    have hten : d.coefficient / 10 * 10 = d.coefficient := by omega
    have hd : finer ⟨d.negative, d.coefficient / 10, d.exponent + 1⟩ 1 = d := by
      obtain ⟨negative, coefficient, exponent⟩ := d
      simp only [finer, Nat.pow_eq, Nat.pow_one, mk.injEq, true_and]
      exact ⟨hten, by omega⟩
    rw [ih, ← toDouble_finer _ 1, hd]
  | case2 d h => rfl

theorem toDouble_signed {d : Decimal} {s : Bool} {m : Magnitude}
    (h : d.toDouble = .finite s m) (negative : Bool) :
    { d with negative }.toDouble = .finite negative m := by
  simp only [toDouble] at h ⊢
  have htop : top { d with negative } = d.top := rfl
  rw [htop]
  split at h
  · next h0 =>
    cases h
    rw [if_pos h0]
    rfl
  next h0 =>
  split at h
  · cases h
  next hhigh =>
  split at h
  · next hlow =>
    cases h
    rw [if_neg h0, if_neg hhigh, if_pos hlow]
    rfl
  next hlow =>
  rw [if_neg h0, if_neg hhigh, if_neg hlow]
  exact Double.ofUnits_eq negative (Double.ofUnits_eq_finite h).2.symm

/-! ## Sizes -/

theorem toDouble_of_zero {d : Decimal} (h : d.coefficient = 0) :
    d.toDouble = .ofRatio d.negative (d.coefficient * Nat.pow 10 d.exponent.toNat)
      (Nat.pow 10 (-d.exponent).toNat) := by
  have hzero : d.coefficient * Nat.pow 10 d.exponent.toNat * Double.one = 0 := by
    rw [h, Nat.zero_mul, Nat.zero_mul]
  have hrounded : Double.rounded 0 (Nat.pow 10 (-d.exponent).toNat) = 0 :=
    Double.rounded_of_eq (Nat.dvd_zero _) (Nat.pow_pos (by decide)) (Nat.zero_mul _).symm
  rw [toDouble, if_pos h, Double.ofRatio, hzero]
  exact (Double.ofUnits_eq (m := Double.zeroMagnitude) d.negative hrounded).symm

/-- A decimal that is refused for its size alone is beyond all doubles. -/
theorem limit_le_of_top {d : Decimal} (h : d.coefficient ≠ 0) (hhigh : 309 < d.top) :
    Double.limit * Nat.pow 10 (-d.exponent).toNat ≤
      d.coefficient * Nat.pow 10 d.exponent.toNat * Double.one := by
  have hlimit : Double.limit ≤ Nat.pow 10 309 * Double.one := by decide +kernel
  have hexp : 309 + (-d.exponent).toNat ≤ digitCount d.coefficient - 1 + d.exponent.toNat := by
    have := digitCount_pos d.coefficient
    rw [top] at hhigh
    omega
  generalize 309 = size at hlimit hexp
  have hpow : Nat.pow 10 size * Nat.pow 10 (-d.exponent).toNat ≤
      Nat.pow 10 (digitCount d.coefficient - 1) * Nat.pow 10 d.exponent.toNat := by
    simp only [Nat.pow_eq, ← Nat.pow_add]
    exact Nat.pow_le_pow_right (by decide) hexp
  have hcoefficient := Nat.mul_le_mul_right (Nat.pow 10 d.exponent.toNat) (pow_digitCount_le h)
  calc Double.limit * Nat.pow 10 (-d.exponent).toNat
      ≤ Nat.pow 10 size * Double.one * Nat.pow 10 (-d.exponent).toNat :=
        Nat.mul_le_mul_right _ hlimit
    _ = Nat.pow 10 size * Nat.pow 10 (-d.exponent).toNat * Double.one := Nat.mul_right_comm _ _ _
    _ ≤ d.coefficient * Nat.pow 10 d.exponent.toNat * Double.one :=
        Nat.mul_le_mul_right _ (Nat.le_trans hpow hcoefficient)

/-- A decimal that is dropped for its size alone is below half of the least double. -/
theorem small_of_top {d : Decimal} (hlow : d.top < -323) :
    2 * (d.coefficient * Nat.pow 10 d.exponent.toNat * Double.one) <
      Nat.pow 10 (-d.exponent).toNat := by
  have hone : 2 * Double.one ≤ Nat.pow 10 324 := by decide +kernel
  have hexp : digitCount d.coefficient + d.exponent.toNat + 324 ≤ (-d.exponent).toNat := by
    rw [top] at hlow
    omega
  generalize 324 = size at hone hexp
  have hcoefficient := Nat.mul_lt_mul_of_pos_right (lt_pow_digitCount d.coefficient)
    (Nat.pow_pos (by decide : 0 < 10) : 0 < Nat.pow 10 d.exponent.toNat)
  calc 2 * (d.coefficient * Nat.pow 10 d.exponent.toNat * Double.one)
      = d.coefficient * Nat.pow 10 d.exponent.toNat * (2 * Double.one) := by
        rw [Nat.mul_left_comm]
    _ ≤ d.coefficient * Nat.pow 10 d.exponent.toNat * Nat.pow 10 size :=
        Nat.mul_le_mul_left _ hone
    _ < Nat.pow 10 (digitCount d.coefficient) * Nat.pow 10 d.exponent.toNat * Nat.pow 10 size :=
        Nat.mul_lt_mul_of_pos_right hcoefficient (Nat.pow_pos (by decide))
    _ ≤ Nat.pow 10 (-d.exponent).toNat := by
        simp only [Nat.pow_eq, ← Nat.pow_add]
        exact Nat.pow_le_pow_right (by decide) hexp

/-- **Sizes settle nothing wrongly.** Every decimal is rounded as the quotient that it is, those
too that are settled by their size alone. -/
theorem toDouble_eq (d : Decimal) :
    d.toDouble = .ofRatio d.negative (d.coefficient * Nat.pow 10 d.exponent.toNat)
      (Nat.pow 10 (-d.exponent).toNat) := by
  by_cases h : d.coefficient = 0
  · exact toDouble_of_zero h
  by_cases hhigh : 309 < d.top
  · have hgrid : Double.spacing Double.limit ∣ Double.limit := by decide +kernel
    have hden : 0 < Nat.pow 10 (-d.exponent).toNat := Nat.pow_pos (by decide)
    have hbeyond := Double.le_rounded hgrid hden (limit_le_of_top h hhigh)
    rw [toDouble, if_neg h, if_pos hhigh, Double.ofRatio, Double.ofUnits_infinite _ hbeyond]
  by_cases hlow : d.top < -323
  · have hzero := Double.rounded_of_small (small_of_top hlow)
    rw [toDouble, if_neg h, if_neg hhigh, if_pos hlow, Double.ofRatio]
    exact (Double.ofUnits_eq (m := Double.zeroMagnitude) d.negative hzero).symm
  exact toDouble_of_inRange h hhigh hlow

end QueryForm.Decimal
