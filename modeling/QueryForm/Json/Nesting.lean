/-
The depth of brackets in a text, well-formed JSON or not.

One pass counts brackets and braces outside quotes, whatever their kind: an
opening one goes one level further in, a closing one comes one level out,
and never below none. A quote begins or ends a string, in which a backslash
takes the character after it along.
-/
namespace QueryForm.Nesting

/-- Where a pass over a text stands. -/
structure Scan where
  current : Nat
  deepest : Nat
  quoted : Bool
  escaped : Bool
deriving DecidableEq

/-- The start of a pass. -/
def Scan.start : Scan := ⟨0, 0, false, false⟩

/-- The pass after one more character. -/
def Scan.step (s : Scan) (c : Char) : Scan :=
  if s.quoted then
    if s.escaped then { s with escaped := false }
    else if c = '\\' then { s with escaped := true }
    else if c = '\x22' then { s with quoted := false }
    else s
  else if c = '\x22' then { s with quoted := true }
  else if c = '[' ∨ c = '\x7b' then
    { s with current := s.current + 1, deepest := max s.deepest (s.current + 1) }
  else if c = ']' ∨ c = '\x7d' then { s with current := s.current - 1 }
  else s

/-- The most brackets that are open at once outside quotes. -/
def depth (cs : List Char) : Nat :=
  (cs.foldl Scan.step Scan.start).deepest

end QueryForm.Nesting
