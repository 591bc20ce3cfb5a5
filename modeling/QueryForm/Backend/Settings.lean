/-
The settings of a client: where the backend is and how long to wait for it.

They come from named variables, from stored JSON or from the program, each
over the defaults. They are valid when there is more to the address than
slashes and blanks, and the wait is not zero.
-/
import QueryForm.Json.Record
import QueryForm.Text.Blank

namespace QueryForm

namespace Backend

/-- Where the backend is, and the wait in seconds. -/
structure Settings where
  baseUri : String := "http://localhost:8080/mongo-api"
  timeout : Nat := 30
deriving DecidableEq, Repr

/-- What can be wrong with settings. -/
inductive SettingsError where
  | emptyBaseUri
  | zeroTimeout
  | badTimeout (raw : String)
deriving DecidableEq, Repr

namespace Settings

/-- The variable that holds the address. -/
def baseUriVariable : String := "MONGOFORM_BASE_URI"

/-- The variable that holds the wait. -/
def timeoutVariable : String := "MONGOFORM_TIMEOUT_SECS"

/-- One more than the longest wait. -/
def timeoutLimit : Nat := Nat.pow 2 64

/-- The address without the slashes at its end. -/
def root (s : Settings) : List Char :=
  (s.baseUri.toList.reverse.dropWhile (· == '/')).reverse

/-- What is wrong with the settings, the address being looked at first. -/
def fault? (s : Settings) : Option SettingsError :=
  if (Text.trim s.root).isEmpty then some .emptyBaseUri
  else if s.timeout = 0 then some .zeroTimeout
  else none

/-- A wait as a person writes it: digits with an optional plus sign, blanks around them. -/
def timeoutOf? (raw : String) : Option Nat :=
  let cs := Text.trim raw.toList
  let digits := match cs with
    | '+' :: rest => rest
    | _ => cs
  match DigitRun.scan? digits with
  | some (run, []) => if run.value < timeoutLimit then some run.value else none
  | _ => none

/-- The settings that named variables give, which have to be valid. -/
def ofVariables (lookup : String → Option String) : Except SettingsError Settings := do
  let defaults : Settings := {}
  let baseUri := (lookup baseUriVariable).getD defaults.baseUri
  let timeout ← match lookup timeoutVariable with
    | none => .ok defaults.timeout
    | some raw => ((timeoutOf? raw).map .ok).getD (.error (.badTimeout raw))
  let settings : Settings := { baseUri, timeout }
  match settings.fault? with
  | some fault => .error fault
  | none => .ok settings

/-! ## Stored settings -/

open Record

/-- The names of the fields. -/
def fieldNames : List String := ["base_uri", "timeout_secs"]

/-- A stored wait: an integer, which has no sign. -/
def timeoutOfTree? : Tree → Option Nat
  | .number n => if n.isInteger && !n.negative && n.whole < timeoutLimit then some n.whole else none
  | _ => none

/-- The settings that a tree stores. -/
def ofTree? (tree : Tree) : Option Settings :=
  let defaults : Settings := {}
  match fields? fieldNames tree with
  | some [baseUri, timeout] => do
    let baseUri ← orDefault defaults.baseUri string? baseUri
    let timeout ← orDefault defaults.timeout timeoutOfTree? timeout
    pure { baseUri, timeout }
  | _ => none

/-- Settings as JSON. -/
def toJson (s : Settings) : Json :=
  .object [("base_uri", .string s.baseUri), ("timeout_secs", .number (.ofInteger false s.timeout))]

end Settings

end Backend

end QueryForm
