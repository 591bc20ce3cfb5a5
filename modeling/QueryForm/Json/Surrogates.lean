/-
Escapes of halves of characters in a text.

Only a high half with a low one right after it is a character.
`Surrogates.repair` replaces the escape of every other half by the escape of
the replacement character U+FFFD, which is as long, and copies the rest. A
backslash before any other character takes that character along, so what
follows an escaped backslash is no escape.
-/
import QueryForm.Text.Units

namespace QueryForm.Surrogates

/-- The escape of the replacement character. -/
def replacement : List Char := ['\\', 'u', 'f', 'f', 'f', 'd']

/-- A text begins with the escape of a low half. -/
def startsLow : List Char → Bool
  | '\\' :: 'u' :: a :: b :: c :: d :: _ => (Units.ofHex? a b c d).any Units.isLow
  | _ => false

/-- Replaces the escapes of halves that stand alone. `paired` says that the text follows a high
half and begins with the low half that belongs to it. -/
def repairFrom (paired : Bool) : List Char → List Char
  | '\\' :: 'u' :: a :: b :: c :: d :: rest =>
    match Units.ofHex? a b c d with
    | some unit =>
      let pairs := Units.isHigh unit && startsLow rest
      if pairs || (Units.isLow unit && paired) || !(Units.isHigh unit || Units.isLow unit) then
        '\\' :: 'u' :: a :: b :: c :: d :: repairFrom pairs rest
      else replacement ++ repairFrom false rest
    | none => '\\' :: 'u' :: repairFrom false (a :: b :: c :: d :: rest)
  | '\\' :: c :: rest => '\\' :: c :: repairFrom false rest
  | c :: rest => c :: repairFrom false rest
  | [] => []

/-- A text has a backslash and a `u` next to each other. -/
def mentionsUnit : List Char → Bool
  | '\\' :: 'u' :: _ => true
  | _ :: rest => mentionsUnit rest
  | [] => false

/-- Replaces the escapes of halves that stand alone; a text that can have none is left as it is. -/
def repair (cs : List Char) : List Char :=
  if mentionsUnit cs then repairFrom false cs else cs

end QueryForm.Surrogates
