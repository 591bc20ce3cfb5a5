/-
Edits: what changing one control of a row does to the row's rule.

Choosing a connective begins a new second condition: its value is empty and
its comparison is the one the rule has at that moment. A change to the
second condition of a rule that has none does nothing.
-/
import QueryForm.Rule.Basic

namespace QueryForm

/-- A control of a row. -/
inductive Control where
  | type
  | name
  | value
  | comparison
  | connective
  | secondValue
  | secondComparison
deriving DecidableEq, Repr

namespace Control

/-- Every control. -/
def all : List Control :=
  [.type, .name, .value, .comparison, .connective, .secondValue, .secondComparison]

/-- The token of a control. -/
def token : Control → String
  | type => "type"
  | name => "name"
  | value => "value"
  | comparison => "operator"
  | connective => "logical"
  | secondValue => "secondary_value"
  | secondComparison => "secondary_operator"

/-- The control belongs to conditions beyond plain equality. -/
def isLogical : Control → Bool
  | type => false
  | name => false
  | value => false
  | _ => true

end Control

/-- A new setting of one control. -/
inductive Edit where
  | type (t : ValueType)
  | name (s : String)
  | value (s : String)
  | comparison (c : Comparison)
  | connective (c : Connective)
  | secondValue (s : String)
  | secondComparison (c : Comparison)
deriving DecidableEq, Repr

namespace Edit

/-- The control that an edit sets. -/
def control : Edit → Control
  | type _ => .type
  | name _ => .name
  | value _ => .value
  | comparison _ => .comparison
  | connective _ => .connective
  | secondValue _ => .secondValue
  | secondComparison _ => .secondComparison

/-- The edit touches conditions beyond plain equality. -/
def isLogical (e : Edit) : Bool :=
  e.control.isLogical

/-- The rule after an edit. -/
def apply (e : Edit) (r : Rule) : Rule :=
  match e with
  | type t => { r with type := t }
  | name s => { r with name := s }
  | value s => { r with raw := s }
  | comparison c => { r with comparison := c }
  | connective c => { r with second := some ⟨c, "", r.comparison⟩ }
  | secondValue s => { r with second := r.second.map fun second => { second with raw := s } }
  | secondComparison c =>
    { r with second := r.second.map fun second => { second with comparison := c } }

/-- The edit makes a difference to the rule. -/
def changes (e : Edit) (r : Rule) : Bool :=
  e.apply r != r

end Edit

end QueryForm
