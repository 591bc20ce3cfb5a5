/-
Values: what the text typed into a row is read as. Every text has a value of
every type, for a text that is no number reads as NaN and a text that is no
container of the type reads as the empty one.
-/
import QueryForm.Json.Literal
import QueryForm.Rule.Basic
import QueryForm.Value.Number

namespace QueryForm

/-- A typed value. -/
inductive Value where
  | text (s : String)
  | number (x : Double)
  | array (items : List Json)
  | object (members : List (String × Json))

namespace Value

/-- The value of a text as a type. -/
def convert : ValueType → String → Value
  | .text, raw => text raw
  | .integer, raw => number (TypedNumber.integer raw.toList)
  | .float, raw => number (TypedNumber.float raw.toList)
  | .array, raw => array (Literal.items raw)
  | .object, raw => object (Literal.members raw)

/-- The name of a value's kind. -/
def kind : Value → String
  | text _ => "text"
  | number _ => "number"
  | array _ => "array"
  | object _ => "object"

/-- Two values are equal: numbers as numbers, containers as JSON. -/
def same : Value → Value → Bool
  | text a, text b => a == b
  | number a, number b => a.same b
  | array as, array bs => Json.sameItems as bs
  | object as, object bs => (Json.object as).same (.object bs)
  | _, _ => false

end Value

end QueryForm
