/-
Numbers as JSON text writes them.

A numeral is kept in its parts: a sign, a whole part without leading zeros,
and a fraction and an exponent that may be missing. Every numeral has one
text and every text of a JSON number is read as one numeral, the exponent's
letter and plus sign apart, which have one spelling: `1E5` is read as
`1e+5`. So two numerals are equal exactly when their texts are. The sign of
a zero is kept: `-0` is a numeral of its own until it is made canonical.

`Numeral.ofDouble` and `Numeral.shortest` give the numeral of a canonical
number: an integer up to `2 ^ 53`, else the shortest decimal that reads
back, in positional notation for leading digits from `10 ^ -5` to
`10 ^ 15`.
-/
import QueryForm.Double.Shortest

namespace QueryForm

/-- A JSON number in its parts. -/
structure Numeral where
  negative : Bool
  whole : Nat
  fraction : Option DigitRun
  exponent : Option (Bool × DigitRun)
deriving DecidableEq, Repr

namespace Numeral

/-- The numeral of a whole number. -/
def ofInteger (negative : Bool) (whole : Nat) : Numeral :=
  ⟨negative, whole, none, none⟩

/-! ## Writing -/

/-- The text of a fraction. -/
def fractionText : Option DigitRun → List Char
  | none => []
  | some run => '.' :: run.text

/-- The text of an exponent, whose sign is always written. -/
def exponentText : Option (Bool × DigitRun) → List Char
  | none => []
  | some (negative, run) => 'e' :: (if negative then '-' else '+') :: run.text

/-- The text of a numeral. -/
def text (n : Numeral) : List Char :=
  (if n.negative then ['-'] else []) ++
    ((DigitRun.ofNat n.whole).text ++ (fractionText n.fraction ++ exponentText n.exponent))

/-! ## Reading -/

/-- Reads a whole part, which has no leading zero. -/
def scanWhole? (cs : List Char) : Option (Nat × List Char) :=
  match DigitRun.scan? cs with
  | some (run, rest) => if run.first = 0 ∧ run.rest ≠ [] then none else some (run.value, rest)
  | none => none

/-- Reads a fraction where there is a point. -/
def scanFraction? : List Char → Option (Option DigitRun × List Char)
  | '.' :: cs => (DigitRun.scan? cs).map fun (run, rest) => (some run, rest)
  | cs => some (none, cs)

/-- Reads the sign of an exponent; without one it is positive. -/
def scanSign : List Char → Bool × List Char
  | '-' :: cs => (true, cs)
  | '+' :: cs => (false, cs)
  | cs => (false, cs)

/-- Reads the sign and the digits of an exponent. -/
def scanPower? (cs : List Char) : Option (Option (Bool × DigitRun) × List Char) :=
  let (negative, cs) := scanSign cs
  (DigitRun.scan? cs).map fun (run, rest) => (some (negative, run), rest)

/-- Reads an exponent where there is its letter. -/
def scanExponent? : List Char → Option (Option (Bool × DigitRun) × List Char)
  | 'e' :: cs => scanPower? cs
  | 'E' :: cs => scanPower? cs
  | cs => some (none, cs)

/-- Reads a minus sign where there is one. -/
def scanMinus : List Char → Bool × List Char
  | '-' :: cs => (true, cs)
  | cs => (false, cs)

/-- Reads a numeral at the start of a text. -/
def scan? (cs : List Char) : Option (Numeral × List Char) := do
  let (negative, cs) := scanMinus cs
  let (whole, cs) ← scanWhole? cs
  let (fraction, cs) ← scanFraction? cs
  let (exponent, cs) ← scanExponent? cs
  pure (⟨negative, whole, fraction, exponent⟩, cs)

/-- The numeral that a whole text is. -/
def ofText? (cs : List Char) : Option Numeral :=
  match scan? cs with
  | some (n, []) => some n
  | _ => none

/-! ## Reading what is written -/

theorem noneNext_of_head {c : Char} {cs : List Char} (h : Digit.ofChar? c = none) :
    Digit.NoneNext (c :: cs) := by
  simpa [Digit.NoneNext] using h

/-- Nothing comes next that would make a numeral longer. -/
def Stops (cs : List Char) : Prop :=
  Digit.NoneNext cs ∧ ∀ c ∈ cs.head?, c ≠ '.' ∧ c ≠ 'e' ∧ c ≠ 'E'

theorem scanMinus_digit (d : Digit) (cs : List Char) :
    scanMinus (d.char :: cs) = (false, d.char :: cs) := by
  have : d.char ≠ '-' := by revert d; decide
  unfold scanMinus
  split
  · simp_all
  · rfl

theorem scanFraction?_text (f : Option DigitRun) {rest : List Char} (h : Digit.NoneNext rest)
    (hp : ∀ c ∈ rest.head?, c ≠ '.') :
    scanFraction? (fractionText f ++ rest) = some (f, rest) := by
  match f with
  | none =>
    rw [fractionText, List.nil_append]
    unfold scanFraction?
    split
    · exact absurd rfl (hp _ rfl)
    · rfl
  | some run => simp [fractionText, scanFraction?, DigitRun.scan?_text run h]

/-! ## Value -/

/-- The exact decimal that a numeral denotes. -/
def toDecimal (n : Numeral) : Decimal :=
  let fraction := (n.fraction.map DigitRun.digits).getD []
  let power : Int := match n.exponent with
    | none => 0
    | some (negative, run) => if negative then -run.value else run.value
  ⟨n.negative, fraction.foldl (fun v d => 10 * v + d.val) n.whole, power - fraction.length⟩

/-- The double nearest to a numeral. -/
def toDouble (n : Numeral) : Double :=
  n.toDecimal.toDouble

/-- A numeral with neither fraction nor exponent. -/
def isInteger (n : Numeral) : Bool :=
  n.fraction.isNone && n.exponent.isNone

/-! ## Canonical spelling -/

/-- Positional notation, with a fraction even where it is zero. -/
def positional (d : Decimal) : Numeral :=
  match d.exponent with
  | .ofNat up => ⟨d.negative, d.coefficient * Nat.pow 10 up, some ⟨0, []⟩, none⟩
  | .negSucc below =>
    ⟨d.negative, d.coefficient / Nat.pow 10 (below + 1),
      some (DigitRun.lowest d.coefficient below []), none⟩

/-- One digit before the point and an exponent. -/
def scientific (d : Decimal) : Numeral :=
  let power := d.top - 1
  let exponent := some (decide (power < 0), DigitRun.ofNat power.natAbs)
  match digitCount d.coefficient with
  | 0 | 1 => ⟨d.negative, d.coefficient, none, exponent⟩
  | more + 2 =>
    ⟨d.negative, d.coefficient / Nat.pow 10 (more + 1),
      some (DigitRun.lowest d.coefficient more []), exponent⟩

/-- A decimal without trailing zeros, positional when its leading digit is near the point. -/
def ofDecimal (d : Decimal) : Numeral :=
  if -5 < d.top ∧ d.top ≤ 16 then positional d else scientific d

/-- The shortest decimal of a magnitude, with a sign. -/
def shortest (negative : Bool) (m : Magnitude) : Numeral :=
  ofDecimal { m.shortest with negative }

/-- The canonical numeral of a finite double: an integer, which has no negative zero, or the
shortest decimal. -/
def ofDouble (negative : Bool) (m : Magnitude) : Numeral :=
  if m.isWhole && m.isSmall then
    .ofInteger (negative && m.units != 0) (m.units / Double.one)
  else
    .shortest negative m

/-- The canonical numeral of a numeral, none where the nearest double is not finite. An integer
whose nearest double is at most `2 ^ 53` keeps its digits. -/
def canonical? (n : Numeral) : Option Numeral :=
  match n.toDouble with
  | .finite negative m =>
    if n.isInteger && m.isSmall then some (.ofInteger (n.negative && n.whole != 0) n.whole)
    else some (.ofDouble negative m)
  | _ => none

end Numeral

end QueryForm
