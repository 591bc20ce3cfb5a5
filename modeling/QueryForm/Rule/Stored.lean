/-
Rules as JSON text. A rule is a record of five fields, its second condition
a record of three; a rule without a second condition leaves that field out,
or has `null` there. `toJson` writes the fields that `ofTree?` reads, in
order.
-/
import QueryForm.Json.Record
import QueryForm.Rule.Basic

namespace QueryForm

open Record

/-- The type that a tree stores. -/
def ValueType.ofTree? : Tree → Option ValueType :=
  choice? token all

/-- The comparison that a tree stores. -/
def Comparison.ofTree? : Tree → Option Comparison :=
  choice? token all

/-- The connective that a tree stores. -/
def Connective.ofTree? : Tree → Option Connective :=
  choice? token all

namespace Condition

/-- The names of a condition's fields. -/
def fieldNames : List String := ["logical_operator", "raw_value", "comparison_operator"]

/-- The condition that a tree stores. -/
def ofTree? (tree : Tree) : Option Condition :=
  match fields? fieldNames tree with
  | some [connective, raw, comparison] => do
    let connective ← orDefault .none Connective.ofTree? connective
    let raw ← orDefault "" string? raw
    let comparison ← orDefault .eq Comparison.ofTree? comparison
    pure { connective, raw, comparison }
  | _ => none

/-- A condition as JSON. -/
def toJson (c : Condition) : Json :=
  .object [("logical_operator", .string c.connective.token), ("raw_value", .string c.raw),
    ("comparison_operator", .string c.comparison.token)]

end Condition

namespace Rule

/-- The names of a rule's fields. -/
def fieldNames : List String := ["name", "type", "raw_value", "comparison_operator", "secondary"]

/-- The rule that a tree stores. -/
def ofTree? (tree : Tree) : Option Rule :=
  match fields? fieldNames tree with
  | some [name, type, raw, comparison, second] => do
    let name ← orDefault "" string? name
    let type ← orDefault .text ValueType.ofTree? type
    let raw ← orDefault "" string? raw
    let comparison ← orDefault .eq Comparison.ofTree? comparison
    let second ← orDefault none (nullable? Condition.ofTree?) second
    pure { name, type, raw, comparison, second }
  | _ => none

/-- The rules that a tree stores, an array of them. -/
def listOfTree? : Tree → Option (List Rule)
  | .array items => items.mapM ofTree?
  | _ => none

/-- A rule as JSON. A second condition is written only where there is one. -/
def toJson (r : Rule) : Json :=
  .object ([("name", .string r.name), ("type", .string r.type.token), ("raw_value", .string r.raw),
    ("comparison_operator", .string r.comparison.token)] ++
    match r.second with
    | some second => [("secondary", second.toJson)]
    | none => [])

end Rule

end QueryForm
