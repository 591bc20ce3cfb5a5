/-
Form sessions: the rows of one form, edited one action at a time.

Every row has an identity, a number that is given out once. A form never
runs out of rows: the last one is not removed, and clearing leaves an empty
row. Conditions beyond plain equality may be disabled, and then the edits
that touch them are refused.

`Session.step` is one action. When it takes effect, every observer is told
the query that the rows then compile to, in the order of registration; when
it is refused or does nothing, nobody is told anything.
-/
import QueryForm.Draft
import QueryForm.Edit.Basic

namespace QueryForm

/-- A row: a rule with an identity. -/
structure Row where
  id : Nat
  rule : Rule
deriving DecidableEq, Repr

/-- The state of a form. -/
structure Session where
  label : String
  allowsLogical : Bool
  rows : List Row
  nextId : Nat
  observers : Nat

/-- Why an action was refused. -/
inductive Refusal where
  | rowOutOfRange (index rows : Nat)
  | unknownRow (id : Nat)
  | logicalDisabled (label : String)
deriving DecidableEq, Repr

/-- What is said of a refusal. -/
def Refusal.message : Refusal → String
  | rowOutOfRange index rows =>
    "row " ++ toString index ++ " out of range (form has " ++ toString rows ++ " rows)"
  | unknownRow id => "no row with id " ++ toString id
  | logicalDisabled label => "logical conditions are disabled for form '" ++ label ++ "'"

/-- What can be done to a form. -/
inductive Action where
  | observe
  | add
  | removeLast
  | clear
  | edit (index : Nat) (e : Edit)
  | editRow (id : Nat) (e : Edit)

/-- What an action answers. -/
inductive Answer where
  | nothing
  | added (id : Nat)
  | removed (row : Row)
  | edited (query : Query)
  | refused (reason : Refusal)

/-- What one observer is told. -/
structure Notice where
  observer : Nat
  query : Query

/-- The outcome of an action. -/
structure Step where
  session : Session
  answer : Answer
  notices : List Notice

namespace Session

/-- The label of a form that is given none. -/
def defaultLabel : String := "Data"

/-- The form with one more row at its end. -/
def append (s : Session) (r : Rule) : Session :=
  { s with rows := s.rows ++ [⟨s.nextId, r⟩], nextId := s.nextId + 1 }

/-- A form with one empty row, its logical conditions disabled. -/
def new : Session :=
  append ⟨defaultLabel, false, [], 0, 0⟩ {}

/-- A form with a row for each rule, or one empty row where there is none. The identity of the row
that a new form begins with is not given out again. -/
def ofRules (rules : List Rule) : Session :=
  let s := rules.foldl append { new with rows := [] }
  if s.rows.isEmpty then s.append {} else s

/-- The form under another label. -/
def withLabel (s : Session) (label : String) : Session :=
  { s with label }

/-- The form with its logical conditions allowed or disabled. -/
def allowLogical (s : Session) (allow : Bool) : Session :=
  { s with allowsLogical := allow }

/-- The rules of the rows, in order. -/
def rules (s : Session) : List Rule :=
  s.rows.map (·.rule)

/-- The query that the rows compile to. -/
def query (s : Session) : Query :=
  .ofRules s.rules

/-- The last row can go. -/
def canRemove (s : Session) : Bool :=
  1 < s.rows.length

/-- The outcome of an action that takes effect. -/
def announce (s : Session) (answer : Answer) : Step :=
  ⟨s, answer, (List.range s.observers).map fun observer => ⟨observer, s.query⟩⟩

/-- The outcome of an action that nobody is told of. -/
def quietly (s : Session) (answer : Answer) : Step :=
  ⟨s, answer, []⟩

/-- The form with the rule of one row edited. -/
def setRule (s : Session) (index : Nat) (row : Row) (e : Edit) : Session :=
  { s with rows := s.rows.set index { row with rule := e.apply row.rule } }

/-- Edits the row at an index. Permission is asked for before the row. -/
def edit (s : Session) (index : Nat) (e : Edit) : Step :=
  if e.isLogical && !s.allowsLogical then s.quietly (.refused (.logicalDisabled s.label))
  else
    match s.rows[index]? with
    | none => s.quietly (.refused (.rowOutOfRange index s.rows.length))
    | some row =>
      let s := s.setRule index row e
      s.announce (.edited s.query)

/-- Edits the row with an identity. -/
def editRow (s : Session) (id : Nat) (e : Edit) : Step :=
  match s.rows.findIdx? (·.id == id) with
  | none => s.quietly (.refused (.unknownRow id))
  | some index => s.edit index e

/-- Adds an empty row at the end. -/
def add (s : Session) : Step :=
  (s.append {}).announce (.added s.nextId)

/-- Removes the last row, if it is not the only one. -/
def removeLast (s : Session) : Step :=
  match s.rows.getLast? with
  | some row =>
    if s.canRemove then announce { s with rows := s.rows.dropLast } (.removed row)
    else s.quietly .nothing
  | none => s.quietly .nothing

/-- Replaces all rows by an empty one. -/
def clear (s : Session) : Step :=
  (append { s with rows := [] } {}).announce .nothing

/-- Registers an observer. -/
def observe (s : Session) : Step :=
  quietly { s with observers := s.observers + 1 } .nothing

/-- The outcome of an action. -/
def step (s : Session) : Action → Step
  | .observe => s.observe
  | .add => s.add
  | .removeLast => s.removeLast
  | .clear => s.clear
  | .edit index e => s.edit index e
  | .editRow id e => s.editRow id e

end Session

end QueryForm
