/-
The canonical form of a document: strict JSON, as a query is sent.

- A number that is not finite becomes `null`. A whole number of at most
  `2 ^ 53` in magnitude is written as an integer, another by the shortest
  decimal that reads back. Numbers inside containers are respelled alike.
- A value under a comparison becomes an object of one member, and under
  equality stays as it is. Documents joined under a key become an array.
- An entry that stands for nothing is left out, and nothing under a
  comparison other than equality leaves its object empty.
-/
import QueryForm.Document
import QueryForm.Json.Writer

namespace QueryForm

namespace Json

mutual

/-- A value with its numbers in canonical spelling. -/
def canonical : Json → Json
  | number n =>
    match n.canonical? with
    | some m => number m
    | none => null
  | array items => array (canonicalItems items)
  | object members => object (canonicalMembers members)
  | null => null
  | bool b => bool b
  | string s => string s

/-- The canonical forms of items. -/
def canonicalItems : List Json → List Json
  | [] => []
  | item :: items => canonical item :: canonicalItems items

/-- The canonical forms of members, under their keys. -/
def canonicalMembers : List (String × Json) → List (String × Json)
  | [] => []
  | (k, v) :: members => (k, canonical v) :: canonicalMembers members

end

/-- The JSON form of a double. -/
def ofDouble : Double → Json
  | .finite negative m => number (.ofDouble negative m)
  | _ => null

end Json

/-- The canonical form of a value. -/
def Value.canonical : Value → Json
  | text s => .string s
  | number x => .ofDouble x
  | array items => .array (Json.canonicalItems items)
  | object members => .object (Json.canonicalMembers members)

namespace Node

mutual

/-- The canonical form of a node, none where it stands for nothing. -/
def canonical? : Node → Option Json
  | value v => some v.canonical
  | tagged comparison operand =>
    match comparison.key? with
    | some key =>
      match canonical? operand with
      | some v => some (.object [(key, v)])
      | none => some (.object [])
    | none => canonical? operand
  | joined parts => some (.array (canonicalParts parts))
  | absent => none

/-- The canonical forms of joined documents. -/
def canonicalParts : List (List (String × Node)) → List Json
  | [] => []
  | part :: parts => .object (canonicalEntries part) :: canonicalParts parts

/-- The canonical forms of entries, without those that stand for nothing. -/
def canonicalEntries : List (String × Node) → List (String × Json)
  | [] => []
  | (k, node) :: entries =>
    match canonical? node with
    | some v => (k, v) :: canonicalEntries entries
    | none => canonicalEntries entries

end

end Node

/-- A query in canonical form: the members of one JSON object. -/
abbrev Query := Fields Json

namespace Document

/-- The canonical form of a document. -/
def canonical (doc : Document) : Query := Node.canonicalEntries doc

end Document

namespace Query

/-- Two queries are equal, whatever the order of their members. -/
def same (a b : Query) : Bool := (Json.object a).same (.object b)

/-- The compact text of a query. -/
def text (q : Query) : String := Json.text (.object q)

end Query

end QueryForm
