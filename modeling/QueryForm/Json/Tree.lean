/-
The tree of a JSON text: what the text says before any of it is
interpreted. Strings are still in pieces, and an object lists its members as
often as the text does.

`Tree.value?` interprets a tree. Halves of characters must come in pairs, a
repeated key keeps its first place and takes its last value, and an object
that begins with the key `numberKey` stands for a number: it must have that
one member, whose string is the text of a number.
-/
import QueryForm.Json.Basic
import QueryForm.Json.Quoted

namespace QueryForm

open Quoted (Piece)

/-- A JSON text, parsed. -/
inductive Tree where
  | null
  | bool (b : Bool)
  | number (n : Numeral)
  | string (pieces : List Piece)
  | array (items : List Tree)
  | object (members : List (List Piece × Tree))
deriving Inhabited

namespace Tree

mutual

/-- The most containers that are open at once in a tree. -/
def depth : Tree → Nat
  | array items => itemsDepth items + 1
  | object members => membersDepth members + 1
  | _ => 0

/-- The greatest depth among items. -/
def itemsDepth : List Tree → Nat
  | [] => 0
  | item :: items => max (depth item) (itemsDepth items)

/-- The greatest depth among members. -/
def membersDepth : List (List Piece × Tree) → Nat
  | [] => 0
  | (_, value) :: members => max (depth value) (membersDepth members)

end

/-- The key whose object stands for a number. -/
def numberKey : String := "$serde_json::private::Number"

/-- The string that pieces make. -/
def string? (pieces : List Piece) : Option String :=
  (Quoted.characters? pieces).map String.ofList

/-- An object is written to stand for a number: its first key is `numberKey`. -/
def isNumberObject : List (List Piece × Tree) → Bool
  | [] => false
  | (key, _) :: _ => string? key == some numberKey

/-- The number that an object beginning with `numberKey` stands for. -/
def numberObject? : List (List Piece × Tree) → Option Numeral
  | [(_, .string pieces)] => Quoted.characters? pieces >>= Numeral.ofText?
  | _ => none

mutual

/-- The value of a tree, none where part of it has no value. -/
def value? : Tree → Option Json
  | null => some .null
  | bool b => some (.bool b)
  | number n => some (.number n)
  | string pieces => (string? pieces).map .string
  | array items => (items? items).map .array
  | object members =>
    if isNumberObject members then (numberObject? members).map .number
    else (members? members).map fun pairs => .object (Fields.ofPairs pairs)

/-- The values of items. -/
def items? : List Tree → Option (List Json)
  | [] => some []
  | item :: items => do
    let v ← value? item
    let vs ← items? items
    pure (v :: vs)

/-- The keys and values of members, as often as they are written. -/
def members? : List (List Piece × Tree) → Option (List (String × Json))
  | [] => some []
  | (key, item) :: members => do
    let k ← string? key
    let v ← value? item
    let rest ← members? members
    pure ((k, v) :: rest)

end

end Tree

end QueryForm
