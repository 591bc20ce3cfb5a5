/-
JSON literals typed into a form.

They are read as generously as a browser reads JSON: a half of a character
that stands alone becomes the replacement character, and containers may nest
`Literal.depthLimit` deep. The depth is taken from the brackets alone before
the text is read, so that no text takes the reader any deeper.
-/
import QueryForm.Json.Nesting
import QueryForm.Json.Reader
import QueryForm.Json.Surrogates

namespace QueryForm.Literal

/-- How deep the containers of a literal may nest. -/
def depthLimit : Nat := 512

/-- The tree of a literal. -/
def tree? (cs : List Char) : Option Tree :=
  let cs := Surrogates.repair cs
  if Nesting.depth cs ≤ depthLimit then Tree.ofText? cs else none

/-- The value of a literal. -/
def value? (text : String) : Option Json :=
  tree? text.toList >>= Tree.value?

/-- The items of an array literal; the empty text stands for the empty array, and so does any text
that is no array. -/
def items (text : String) : List Json :=
  match value? (if text = "" then "[]" else text) with
  | some (.array items) => items
  | _ => []

/-- The members of an object literal; any text that is no object stands for the empty object. -/
def members (text : String) : List (String × Json) :=
  match value? text with
  | some (.object members) => members
  | _ => []

end QueryForm.Literal
