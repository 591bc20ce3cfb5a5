/-
Rules: what one row of a form says about a document. A rule names a key,
the type its value is read as, the value as typed, and how a document's
value compares with it. It may carry a second condition on the same key,
joined to the first by OR or AND.
-/
namespace QueryForm

/-- The type that a typed value is read as. -/
inductive ValueType where
  | text
  | integer
  | array
  | float
  | object
deriving DecidableEq, Repr

/-- How a document's value compares with a rule's. -/
inductive Comparison where
  | eq
  | lt
  | lte
  | gt
  | gte
  | ne
deriving DecidableEq, Repr

/-- How a second condition is joined to the first, if it counts at all. -/
inductive Connective where
  | none
  | or
  | and
deriving DecidableEq, Repr

/-- The second condition of a rule. -/
structure Condition where
  connective : Connective := .none
  raw : String := ""
  comparison : Comparison := .eq
deriving DecidableEq, Repr

/-- One rule of a form. -/
structure Rule where
  name : String := ""
  type : ValueType := .text
  raw : String := ""
  comparison : Comparison := .eq
  second : Option Condition := none
deriving DecidableEq, Repr

namespace ValueType

/-- The types, in the order a form offers them. -/
def all : List ValueType := [.text, .integer, .array, .float, .object]

/-- The token of a type. -/
def token : ValueType → String
  | text => "TEXT"
  | integer => "INTEGER"
  | array => "ARRAY"
  | float => "FLOAT"
  | object => "OBJECT"

/-- The name of a type on a form. -/
def label : ValueType → String
  | text => "Text"
  | integer => "Integer"
  | array => "Array"
  | float => "Float"
  | object => "Object"

/-- Values of the type are numbers. -/
def isNumeric : ValueType → Bool
  | integer => true
  | float => true
  | _ => false

end ValueType

namespace Comparison

/-- The comparisons, in the order a form offers them. -/
def all : List Comparison := [.eq, .lte, .lt, .gt, .gte, .ne]

/-- The token of a comparison in a stored rule. -/
def token : Comparison → String
  | eq => "EQ"
  | lt => "LT"
  | lte => "LTE"
  | gt => "GT"
  | gte => "GTE"
  | ne => "NE"

/-- The short name of a comparison. -/
def name : Comparison → String
  | eq => "eq"
  | lt => "lt"
  | lte => "lte"
  | gt => "gt"
  | gte => "gte"
  | ne => "ne"

/-- The key that tags a value in a query; equality has none, as its value is written bare. -/
def key? : Comparison → Option String
  | eq => none
  | lt => some "$lt"
  | lte => some "$lte"
  | gt => some "$gt"
  | gte => some "$gte"
  | ne => some "$ne"

/-- The mathematical sign of a comparison. -/
def symbol : Comparison → String
  | eq => "="
  | lt => "<"
  | lte => "<="
  | gt => ">"
  | gte => ">="
  | ne => "!="

/-- The comparison is equality. -/
def isEquality : Comparison → Bool
  | eq => true
  | _ => false

end Comparison

namespace Connective

/-- The connectives, in the order a form offers them. -/
def all : List Connective := [.none, .or, .and]

/-- The token of a connective. -/
def token : Connective → String
  | none => "NONE"
  | or => "OR"
  | and => "AND"

/-- The key under which a query joins two conditions. -/
def key? : Connective → Option String
  | none => Option.none
  | or => some "$or"
  | and => some "$and"

/-- A second condition joined so counts. -/
def isActive : Connective → Bool
  | none => false
  | _ => true

end Connective

namespace Rule

/-- The second condition, if it counts. -/
def activeSecond (r : Rule) : Option Condition :=
  r.second.filter (·.connective.isActive)

end Rule

end QueryForm
