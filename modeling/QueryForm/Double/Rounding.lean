/-
Rounding to the nearest double: a quotient of natural numbers goes to the
closest number of units on the grid, a tie to the one whose last of 53 bits
is even, and beyond the grid to infinity.
-/
import QueryForm.Double.Basic

namespace QueryForm.Double

/-- The whole number nearest to `num / den`, the even one of two. -/
def nearest (num den : Nat) : Nat :=
  let q := num / den
  let r := num % den
  if den < 2 * r ∨ (den = 2 * r ∧ q % 2 = 1) then q + 1 else q

theorem nearest_le (num den : Nat) : nearest num den ≤ num / den + 1 := by
  simp only [nearest]; split <;> omega

/-- How many steps of the grid's spacing there are in `num / den` units, to the nearest. -/
def steps (num den : Nat) : Nat :=
  nearest num (den * spacing (num / den))

theorem steps_le (num den : Nat) : steps num den ≤ Nat.pow 2 53 := by
  have hlt : num / den / spacing (num / den) < Nat.pow 2 53 := by
    rw [Nat.div_lt_iff_lt_mul (spacing_pos _)]
    exact Nat.lt_of_lt_of_le Nat.lt_log2_self (Nat.le_trans
      (Nat.pow_le_pow_right (by decide) (by omega : _ ≤ 53 + ((num / den).log2 - 52)))
      (Nat.le_of_eq (Nat.pow_add 2 53 _)))
  have := nearest_le num (den * spacing (num / den))
  rw [← Nat.div_div_eq_div_mul] at this
  exact Nat.le_trans this hlt

/-- The double nearest to `num / den` units of `2^-1074`. -/
def ofUnits (negative : Bool) (num den : Nat) : Double :=
  ofGrid negative (steps num den * spacing (num / den))
    (spacing_dvd_mul_pow (steps_le num den) _)

/-- The double nearest to `num / den`. -/
def ofRatio (negative : Bool) (num den : Nat) : Double :=
  ofUnits negative (num * one) den

/-- The double nearest to a natural number with a sign. -/
def ofNat (negative : Bool) (n : Nat) : Double :=
  ofRatio negative n 1

/-- Sixteen times a number and a digit more, rounded once. -/
def appendHex : Double → Fin 16 → Double
  | .finite _ m, d => ofUnits false (16 * m.units + d.val * one) 1
  | x, _ => x

/-- The number that digits in base sixteen reach when each is taken in turn, with a rounding of its
own. -/
def ofHexDigits (ds : List (Fin 16)) : Double :=
  ds.foldl appendHex (zero false)

end QueryForm.Double
