/-
The shortest decimal of a double: the fewest digits that read back as the
double, and of the decimals with that many digits the one nearest to it, an
even last digit deciding a tie.

With a given number of digits only the two neighbours of the double on that
decimal grid need a look. Seventeen digits are always enough; the exact
expansion stands behind them.
-/
import QueryForm.Double.Decimal

namespace QueryForm

namespace Magnitude

/-- The exponent of the leading decimal digit of a magnitude that is not zero. -/
def leading (m : Magnitude) : Int :=
  (digitCount (m.units * Nat.pow 10 324 / Double.one) : Int) - 325

/-- The magnitude as a quotient in steps of `10 ^ exponent`. -/
def inSteps (m : Magnitude) (exponent : Int) : Nat × Nat :=
  (m.units * Nat.pow 10 (-exponent).toNat, Double.one * Nat.pow 10 exponent.toNat)

/-- A decimal is read as the magnitude. -/
def readsBack (m : Magnitude) (d : Decimal) : Bool :=
  d.toDouble == .finite false m

/-- The nearest decimal with a last digit at an exponent that reads back, if there is one. -/
def upTo? (m : Magnitude) (exponent : Int) : Option Decimal :=
  let (num, den) := m.inSteps exponent
  let low : Decimal := ⟨false, num / den, exponent⟩
  let high : Decimal := ⟨false, num / den + 1, exponent⟩
  match m.readsBack low, m.readsBack high with
  | true, true => some (if Double.nearest num den = num / den then low else high)
  | true, false => some low
  | false, true => some high
  | false, false => none

/-- The decimal that is the magnitude exactly. -/
def exact (m : Magnitude) : Decimal :=
  ⟨false, m.units * Nat.pow 5 1074, -1074⟩

/-- The shortest decimal that reads back as the magnitude. -/
def shortest (m : Magnitude) : Decimal :=
  let leading := m.leading
  let found := (List.range 17).findSome? fun (more : Nat) => m.upTo? (leading - more)
  (found.getD m.exact).strip

end Magnitude

end QueryForm
