/-
Edits as JSON text: an object with the control under `field` and its new
setting under `value`, or an array of the two. Both are needed, members
beyond them are skipped, and neither may be given twice.

In an array the control is its token as a string. In an object it is a
choice like any other, so it may also be an object with the token as key.

A setting that comes before its control is kept until the control says how
to read it. A choice kept so may have an empty object for its `null`.
-/
import QueryForm.Edit.Basic
import QueryForm.Rule.Stored

namespace QueryForm

open Record

namespace Edit

/-- A stored choice that was kept until its control was known: an empty object in it is `null`. -/
def settle : Tree → Tree
  | .object [(key, .object [])] => .object [(key, .null)]
  | tree => tree

/-- The edit of a control whose setting a tree stores. -/
def ofSetting? (control : Control) (setting : Tree) : Option Edit :=
  match control with
  | .type => (ValueType.ofTree? setting).map .type
  | .name => (string? setting).map .name
  | .value => (string? setting).map .value
  | .comparison => (Comparison.ofTree? setting).map .comparison
  | .connective => (Connective.ofTree? setting).map .connective
  | .secondValue => (string? setting).map .secondValue
  | .secondComparison => (Comparison.ofTree? setting).map .secondComparison

/-- The control that an object stores: any spelling of a choice. -/
def control? : Tree → Option Control :=
  choice? Control.token Control.all

/-- The control that an array stores: a string with its token. -/
def plainControl? (tree : Tree) : Option Control := do
  let token ← string? tree
  Control.all.find? fun control => control.token == token

/-- The setting comes before its control. -/
def settingFirst (members : List (String × Tree)) : Bool :=
  ((members.map (·.1)).find? fun key => key == "field" || key == "value") == some "value"

/-- The edit that a tree stores. -/
def ofTree? : Tree → Option Edit
  | .object members => do
    let members ← keyed? members
    let control ← field? "field" members
    let setting ← field? "value" members
    let control ← control >>= control?
    let setting ← setting
    ofSetting? control (if settingFirst members then settle setting else setting)
  | .array [control, setting] => do
    let control ← plainControl? control
    ofSetting? control setting
  | _ => none

/-- The setting that an edit makes, as JSON. -/
def setting : Edit → Json
  | type t => .string t.token
  | name s => .string s
  | value s => .string s
  | comparison c => .string c.token
  | connective c => .string c.token
  | secondValue s => .string s
  | secondComparison c => .string c.token

/-- An edit as JSON. -/
def toJson (e : Edit) : Json :=
  .object [("field", .string e.control.token), ("value", e.setting)]

end Edit

end QueryForm
