/-
Decimal numbers, `± coefficient · 10 ^ exponent` with any whole exponent,
and the double nearest to one.

A decimal far outside the range of doubles is settled by its size alone, so
that an exponent of any length costs nothing: from `10 ^ 309` on it is
infinity, and below `10 ^ -324` it is zero.
-/
import QueryForm.Double.Rounding
import QueryForm.Text.Digits

namespace QueryForm

/-- An exact decimal number. -/
structure Decimal where
  negative : Bool
  coefficient : Nat
  exponent : Int
deriving DecidableEq, Repr

namespace Decimal

/-- The power of ten just above a decimal that is not zero. -/
def top (d : Decimal) : Int :=
  digitCount d.coefficient + d.exponent

/-- The double nearest to a decimal. -/
def toDouble (d : Decimal) : Double :=
  if d.coefficient = 0 then .zero d.negative
  else if 309 < d.top then .infinite d.negative
  else if d.top < -323 then .zero d.negative
  else
    .ofRatio d.negative (d.coefficient * Nat.pow 10 d.exponent.toNat)
      (Nat.pow 10 (-d.exponent).toNat)

/-- The same number with no zero at the end of its coefficient. -/
def strip (d : Decimal) : Decimal :=
  if h : d.coefficient ≠ 0 ∧ d.coefficient % 10 = 0 then
    strip ⟨d.negative, d.coefficient / 10, d.exponent + 1⟩
  else d
termination_by d.coefficient
decreasing_by omega

end Decimal

end QueryForm
