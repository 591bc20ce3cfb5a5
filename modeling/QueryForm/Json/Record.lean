/-
Records as JSON text.

A record is an object with a member for each field, or an array of its
fields in order. In an object the order of members is free, members beyond
the fields are skipped, a missing field has its default, and a field given
twice is refused. In an array, fields may be missing at the end only. A
choice is stored as its token, or as an object whose one member has the
token as key and `null` as value.

Reading works on the tree of the text, so what a skipped member says need
only be well-formed.
-/
import QueryForm.Json.Reader

namespace QueryForm.Record

/-- The field of a record under a key, from its members with their keys read: given at most once. -/
def field? (key : String) (members : List (String × Tree)) : Option (Option Tree) :=
  match members.filter (·.1 == key) with
  | [] => some none
  | [(_, tree)] => some (some tree)
  | _ :: _ :: _ => none

/-- The members of an object, with their keys read. -/
def keyed? : List (List Quoted.Piece × Tree) → Option (List (String × Tree))
  | [] => some []
  | (key, tree) :: members => do
    let k ← Tree.string? key
    let rest ← keyed? members
    pure ((k, tree) :: rest)

/-- The fields of a stored record by their names in order, each none where it is left out. -/
def fields? (names : List String) : Tree → Option (List (Option Tree))
  | .object members => do
    let members ← keyed? members
    names.mapM fun name => field? name members
  | .array items =>
    if items.length ≤ names.length then
      some (items.map some ++ List.replicate (names.length - items.length) none)
    else none
  | _ => none

/-- A field read by a reader, or its default where it is left out. -/
def orDefault {α : Type} (default : α) (read : Tree → Option α) : Option Tree → Option α
  | none => some default
  | some tree => read tree

/-- A stored string. -/
def string? : Tree → Option String
  | .string pieces => Tree.string? pieces
  | _ => none

/-- The token of a stored choice. -/
def token? : Tree → Option String
  | .string pieces => Tree.string? pieces
  | .object [(key, .null)] => Tree.string? key
  | _ => none

/-- The choice with a token. -/
def choice? {α : Type} (token : α → String) (choices : List α) (tree : Tree) : Option α := do
  let t ← token? tree
  choices.find? fun a => token a == t

/-- A record, or `null` where there is none. -/
def nullable? {α : Type} (read : Tree → Option α) : Tree → Option (Option α)
  | .null => some none
  | tree => (read tree).map some

end QueryForm.Record
