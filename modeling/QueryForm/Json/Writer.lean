/-
The compact text of a JSON value: no blanks, members in order, numbers as
they were written.
-/
import QueryForm.Json.Basic
import QueryForm.Json.Quoted

namespace QueryForm.Json

/-- The word for nothing. -/
def nullWord : List Char := ['n', 'u', 'l', 'l']

/-- The word for a truth value. -/
def boolWord : Bool → List Char
  | true => ['t', 'r', 'u', 'e']
  | false => ['f', 'a', 'l', 's', 'e']

mutual

/-- The compact text of a value. -/
def chars : Json → List Char
  | null => nullWord
  | bool b => boolWord b
  | number n => n.text
  | string s => Quoted.quote s.toList
  | array items => '[' :: itemsChars items
  | object members => '\x7b' :: membersChars members

/-- The text of items and the bracket that closes them. -/
def itemsChars : List Json → List Char
  | [] => [']']
  | item :: items => chars item ++ nextItems items

/-- The text of the items after one, each behind a comma, and the closing bracket. -/
def nextItems : List Json → List Char
  | [] => [']']
  | item :: items => ',' :: (chars item ++ nextItems items)

/-- The text of members and the brace that closes them. -/
def membersChars : List (String × Json) → List Char
  | [] => ['\x7d']
  | (k, v) :: members => Quoted.quote k.toList ++ ':' :: (chars v ++ nextMembers members)

/-- The text of the members after one, each behind a comma, and the closing brace. -/
def nextMembers : List (String × Json) → List Char
  | [] => ['\x7d']
  | (k, v) :: members => ',' :: (Quoted.quote k.toList ++ ':' :: (chars v ++ nextMembers members))

end

/-- The compact text of a value. -/
def text (value : Json) : String :=
  String.ofList value.chars

end QueryForm.Json
