/-
Query documents: named nodes in order. A node is a value, a value tagged
with a comparison, a list of documents joined under one key, or nothing.
Nodes nest freely; rules use only a part of that freedom.

`Document.same` compares entry by entry in order. As a NaN equals nothing, a
document that holds one does not equal itself.
-/
import QueryForm.Fields
import QueryForm.Value.Basic

namespace QueryForm

/-- What stands under a key of a document. -/
inductive Node where
  | value (v : Value)
  | tagged (comparison : Comparison) (operand : Node)
  | joined (parts : List (List (String × Node)))
  | absent

/-- Named nodes, in order. -/
abbrev Document := Fields Node

namespace Node

/-- A value under a comparison; equality leaves it bare. -/
def wrap (v : Value) (comparison : Comparison) : Node :=
  if comparison.isEquality then value v else tagged comparison (value v)

/-- The node is nothing. -/
def isAbsent : Node → Bool
  | absent => true
  | _ => false

/-- The bare value of a node. -/
def value? : Node → Option Value
  | value v => some v
  | _ => none

mutual

/-- Two nodes are equal. -/
def same : Node → Node → Bool
  | value a, value b => a.same b
  | tagged c a, tagged d b => c == d && same a b
  | joined as, joined bs => sameParts as bs
  | absent, absent => true
  | _, _ => false

/-- Two lists of documents are equal, one by one. -/
def sameParts : List (List (String × Node)) → List (List (String × Node)) → Bool
  | [], [] => true
  | a :: as, b :: bs => sameEntries a b && sameParts as bs
  | _, _ => false

/-- Two documents have the same keys in the same order, over equal nodes. -/
def sameEntries : List (String × Node) → List (String × Node) → Bool
  | [], [] => true
  | (k, a) :: as, (l, b) :: bs => k == l && same a b && sameEntries as bs
  | _, _ => false

end

end Node

namespace Document

/-- The document without entries. -/
def empty : Document := []

/-- The document of one entry. -/
def single (key : String) (node : Node) : Document := [(key, node)]

/-- Two documents are equal. -/
def same (a b : Document) : Bool := Node.sameEntries a b

end Document

end QueryForm
