/-
Numbers typed into a form. A number is read from the start of a text, after
blanks and with an optional sign, and whatever follows it is ignored. A text
that starts with no number reads as NaN.
-/
import QueryForm.Double.Decimal
import QueryForm.Text.Blank

namespace QueryForm.TypedNumber

/-- The text after the blanks before a number. -/
def skip (cs : List Char) : List Char :=
  cs.dropWhile Text.isPadding

/-- Reads an optional sign: whether it is a minus, and the text after it. -/
def sign : List Char → Bool × List Char
  | '-' :: cs => (true, cs)
  | '+' :: cs => (false, cs)
  | cs => (false, cs)

/-- A number with a sign in front of it. -/
def signed (negative : Bool) (x : Double) : Double :=
  if negative then x.neg else x

/-! ## Integers -/

/-- The size of an integer: digits in base sixteen after `0x`, else decimal digits. -/
def magnitude? : List Char → Option Double
  | '0' :: 'x' :: cs => hex? (scanHex cs)
  | '0' :: 'X' :: cs => hex? (scanHex cs)
  | cs =>
    match (Digit.scan cs).1 with
    | [] => none
    | ds => some (Decimal.toDouble ⟨false, Digit.value ds, 0⟩)
where
  /-- The number that digits in base sixteen reach; there has to be one. -/
  hex? : List (Fin 16) → Option Double
    | [] => none
    | ds => some (Double.ofHexDigits ds)

/-- The integer at the start of a text. -/
def integer (cs : List Char) : Double :=
  let (negative, cs) := sign (skip cs)
  match magnitude? cs with
  | some x => signed negative x
  | none => .nan

/-! ## Decimals -/

/-- The word for an infinite number. -/
def infinityWord : List Char := ['I', 'n', 'f', 'i', 'n', 'i', 't', 'y']

/-- The digits after a point, if there is one. They count only when there is a digit on one side of
the point. -/
def fraction (whole : List Digit) : List Char → List Digit × List Char
  | '.' :: cs =>
    let (ds, rest) := Digit.scan cs
    if whole = [] ∧ ds = [] then ([], '.' :: cs) else (ds, rest)
  | cs => ([], cs)

/-- The power of ten after the letter of an exponent; without a digit there is none. -/
def power (cs : List Char) : Int :=
  let (negative, cs) := sign cs
  let n := Digit.value (Digit.scan cs).1
  if negative then -(n : Int) else n

/-- The power of ten of an exponent, zero where there is none. -/
def exponent : List Char → Int
  | 'e' :: cs => power cs
  | 'E' :: cs => power cs
  | _ => 0

/-- The decimal at the start of a text without a sign. -/
def decimal? (negative : Bool) (cs : List Char) : Option Decimal :=
  let (whole, cs) := Digit.scan cs
  let (part, cs) := fraction whole cs
  if whole = [] ∧ part = [] then none
  else some ⟨negative, Digit.value (whole ++ part), exponent cs - part.length⟩

/-- The number at the start of a text. -/
def float (cs : List Char) : Double :=
  let (negative, cs) := sign (skip cs)
  if infinityWord.isPrefixOf cs then .infinite negative
  else
    match decimal? negative cs with
    | some d => d.toDouble
    | none => .nan

end QueryForm.TypedNumber
