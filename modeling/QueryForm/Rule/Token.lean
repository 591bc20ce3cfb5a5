/-
Reading the tokens of types, comparisons and connectives as a person writes
them: in either case and with blanks around them. A token that is none of
the names is reported as it was written.
-/
import QueryForm.Rule.Basic
import QueryForm.Text.Blank

namespace QueryForm

/-- A token that names nothing. -/
inductive TokenError where
  | valueType (token : String)
  | comparison (token : String)
  | connective (token : String)
deriving DecidableEq, Repr

/-- What is said of a token that names nothing. -/
def TokenError.message : TokenError → String
  | valueType token => "unknown field type '" ++ token ++ "'"
  | comparison token => "unknown comparison operator '" ++ token ++ "'"
  | connective token => "unknown logical operator '" ++ token ++ "'"

/-- The first of the choices with a name equal to the token, case and outer blanks apart. -/
def chooseToken? {α : Type} (name : α → String) (choices : List α) (token : String) :
    Option α :=
  choices.find? fun a => Text.sameIgnoringCase (name a).toList (Text.trim token.toList)

/-- The type that a token names. -/
def ValueType.ofToken (token : String) : Except TokenError ValueType :=
  ((chooseToken? ValueType.token all token).map .ok).getD (.error (.valueType token))

/-- The comparison that a token names. -/
def Comparison.ofToken (token : String) : Except TokenError Comparison :=
  ((chooseToken? Comparison.name all token).map .ok).getD (.error (.comparison token))

/-- The connective that a token names. -/
def Connective.ofToken (token : String) : Except TokenError Connective :=
  ((chooseToken? Connective.token all token).map .ok).getD (.error (.connective token))

end QueryForm
