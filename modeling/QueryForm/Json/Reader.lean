/-
Reading JSON text.

The reader descends from a value into its items and members. How many
containers it may have open at once is a parameter, and the recursion is on
that number: a value is read with a reader for the values one level further
in, which is missing when no container may be opened any more. Two causes
end a reading, text that is no JSON and a container beyond the limit.
-/
import QueryForm.Json.Tree

namespace QueryForm

open Quoted (Piece)

namespace Tree

/-- Why a text was not read. -/
inductive Fault where
  | malformed
  | tooDeep
deriving DecidableEq

/-- A blank of JSON text: space, tab, line feed or carriage return. -/
def isSpace (c : Char) : Bool :=
  c == ' ' || c == '\t' || c == '\n' || c == '\x0d'

/-- The text after its leading blanks. -/
def skip (cs : List Char) : List Char :=
  cs.dropWhile isSpace

/-- What a reader gives: a result and the text after it. -/
abbrev Reading (α : Type) := Except Fault (α × List Char)

/-- A reading that fails for no reason but the text's form. -/
def ofOption {α : Type} : Option (α × List Char) → Reading α
  | some r => .ok r
  | none => .error .malformed

/-- Reads the rest of a word. -/
def word (tree : Tree) : List Char → List Char → Reading Tree
  | [], cs => .ok (tree, cs)
  | w :: ws, c :: cs => if c = w then word tree ws cs else .error .malformed
  | _ :: _, [] => .error .malformed

/-- Reads one element or more, with commas between them, up to a closing character. The first
list only bounds, by its length, how many there are. -/
def elements {α : Type} (element : List Char → Reading α) (close : Char) :
    List Char → List Char → Reading (List α)
  | [], _ => .error .malformed
  | _ :: bound, cs =>
    match element cs with
    | .error fault => .error fault
    | .ok (a, rest) =>
      match skip rest with
      | [] => .error .malformed
      | c :: rest =>
        if c = ',' then (elements element close bound rest).map fun (as, rest) => (a :: as, rest)
        else if c = close then .ok ([a], rest)
        else .error .malformed

/-- Reads the elements of a container and its closing character; there may be none. -/
def contents {α : Type} (element : List Char → Reading α) (close : Char) (cs : List Char) :
    Reading (List α) :=
  match skip cs with
  | [] => .error .malformed
  | c :: rest => if c = close then .ok ([], rest) else elements element close cs cs

/-- Reads a member: a quoted key, a colon and a value. -/
def member (value : List Char → Reading Tree) (cs : List Char) : Reading (List Piece × Tree) :=
  match skip cs with
  | '\x22' :: rest =>
    match Quoted.scan? rest with
    | none => .error .malformed
    | some (key, rest) =>
      match skip rest with
      | ':' :: rest => (value rest).map fun (tree, rest) => ((key, tree), rest)
      | _ => .error .malformed
  | _ => .error .malformed

/-- Reads the items of an array, its bracket being read. -/
def array? (inner : Option (List Char → Reading Tree)) (cs : List Char) : Reading Tree :=
  match inner with
  | none => .error .tooDeep
  | some value => (contents value ']' cs).map fun (items, rest) => (.array items, rest)

/-- Reads the members of an object, its brace being read. -/
def object? (inner : Option (List Char → Reading Tree)) (cs : List Char) : Reading Tree :=
  match inner with
  | none => .error .tooDeep
  | some value =>
    (contents (member value) '\x7d' cs).map fun (members, rest) => (.object members, rest)

/-- Reads a value, given a reader for the values inside its container. -/
def valueWith (inner : Option (List Char → Reading Tree)) (cs : List Char) : Reading Tree :=
  match skip cs with
  | [] => .error .malformed
  | 'n' :: rest => word .null ['u', 'l', 'l'] rest
  | 't' :: rest => word (.bool true) ['r', 'u', 'e'] rest
  | 'f' :: rest => word (.bool false) ['a', 'l', 's', 'e'] rest
  | '\x22' :: rest =>
    (ofOption (Quoted.scan? rest)).map fun (pieces, rest) => (.string pieces, rest)
  | '[' :: rest => array? inner rest
  | '\x7b' :: rest => object? inner rest
  | c :: rest => (ofOption (Numeral.scan? (c :: rest))).map fun (n, rest) => (.number n, rest)

/-- Reads a value with at most a number of containers open at once. -/
def value : (limit : Nat) → List Char → Reading Tree
  | 0 => valueWith none
  | limit + 1 => valueWith (some (value limit))

/-- Reads a text that is one value, blanks around it apart. -/
def read (limit : Nat) (cs : List Char) : Except Fault Tree :=
  match value limit cs with
  | .error fault => .error fault
  | .ok (tree, rest) => if skip rest = [] then .ok tree else .error .malformed

/-- The tree of a text, however deep. A container opens with a character of its own, so the
length of the text is limit enough. -/
def ofText? (cs : List Char) : Option Tree :=
  (read cs.length cs).toOption

end Tree

namespace Json

/-- The most containers that may be open at once in a text that is read as a value. -/
def depthLimit : Nat := 127

/-- The value of a text, within a limit on its depth. -/
def ofText? (limit : Nat) (text : String) : Option Json :=
  (Tree.read limit text.toList).toOption >>= Tree.value?

end Json

end QueryForm
