/-
Quoted strings of JSON text.

Inside the quotes a character stands for itself, or a backslash begins an
escape. An escape `\uXXXX` gives one unit of UTF-16, which may be only half
of a character; so reading has two steps. `scan?` splits the text between
the quotes into pieces, whole characters and surrogate halves, and
`characters?` joins each high half with the low half right after it,
refusing a half that stands alone.

`quote` writes a string: it escapes the quote, the backslash and the control
characters below U+0020, and nothing else.
-/
import QueryForm.Text.Units

namespace QueryForm.Quoted

/-- A piece of a quoted string: a character, or half of one. -/
inductive Piece where
  | char (c : Char)
  | high (bits : Fin 1024)
  | low (bits : Fin 1024)
deriving DecidableEq

/-- The characters of pieces; none where a half stands alone. -/
def characters? : List Piece → Option (List Char)
  | [] => some []
  | .char c :: rest => (characters? rest).map (c :: ·)
  | .high h :: .low l :: rest => (characters? rest).map (Units.join h l :: ·)
  | .high _ :: _ => none
  | .low _ :: _ => none

/-! ## Reading -/

/-- The piece for a unit of UTF-16. -/
def Piece.ofUnit (unit : Nat) : Piece :=
  if Units.isHigh unit then .high (Fin.ofNat 1024 (unit - 0xD800))
  else if Units.isLow unit then .low (Fin.ofNat 1024 (unit - 0xDC00))
  else .char (Char.ofNat unit)

/-- The character for the letter of a short escape. -/
def shortEscape? : Char → Option Char
  | '\x22' => some '\x22'
  | '\\' => some '\\'
  | '/' => some '/'
  | 'b' => some '\x08'
  | 'f' => some '\x0c'
  | 'n' => some '\n'
  | 'r' => some '\x0d'
  | 't' => some '\t'
  | _ => none

/-- What is read after one piece more in front. -/
def after (piece : Piece) (read : Option (List Piece × List Char)) :
    Option (List Piece × List Char) :=
  read.map fun (pieces, rest) => (piece :: pieces, rest)

/-- Reads the pieces up to the closing quote, the opening one being read, and gives what follows
it. Control characters and unknown escapes are refused. -/
def scan? : List Char → Option (List Piece × List Char)
  | [] => none
  | '\x22' :: rest => some ([], rest)
  | '\\' :: 'u' :: a :: b :: c :: d :: rest =>
    match Units.ofHex? a b c d with
    | some unit => after (.ofUnit unit) (scan? rest)
    | none => none
  | '\\' :: e :: rest =>
    match shortEscape? e with
    | some c => after (.char c) (scan? rest)
    | none => none
  | c :: rest => if c.toNat < 0x20 ∨ c = '\\' then none else after (.char c) (scan? rest)

/-! ## Writing -/

/-- What stands for one character between the quotes. -/
def escape (c : Char) : List Char :=
  if c = '\x22' then ['\\', '\x22']
  else if c = '\\' then ['\\', '\\']
  else if c = '\x08' then ['\\', 'b']
  else if c = '\t' then ['\\', 't']
  else if c = '\n' then ['\\', 'n']
  else if c = '\x0c' then ['\\', 'f']
  else if c = '\x0d' then ['\\', 'r']
  else if c.toNat < 0x20 then
    ['\\', 'u', '0', '0', Nat.digitChar (c.toNat / 16), Nat.digitChar (c.toNat % 16)]
  else [c]

/-- The quoted form of a string. -/
def quote (cs : List Char) : List Char :=
  '\x22' :: (cs.flatMap escape ++ ['\x22'])

/-! ## Laws -/

theorem ofHex?_control : ∀ n < 32,
    Units.ofHex? '0' '0' (Nat.digitChar (n / 16)) (Nat.digitChar (n % 16)) = some n := by
  decide

theorem ofUnit_control {n : Nat} (h : n < 32) : Piece.ofUnit n = .char (Char.ofNat n) := by
  have high : Units.isHigh n = false := by simp only [Units.isHigh]; grind
  have low : Units.isLow n = false := by simp only [Units.isLow]; grind
  rw [Piece.ofUnit, high, low]; rfl

/-- A character that is not escaped stands for itself. -/
theorem scan?_cons {c : Char} (hq : c ≠ '\x22') (hb : c ≠ '\\') (hc : ¬ c.toNat < 0x20)
    (rest : List Char) : scan? (c :: rest) = after (.char c) (scan? rest) := by
  rw [scan?]
  · rw [if_neg (fun h => h.elim hc hb)]
  · exact hq
  · intro a b c' d rest' h _; exact hb h
  · intro e rest' h _; exact hb h

theorem scan?_short {e c : Char} (hu : e ≠ 'u') (h : shortEscape? e = some c) (rest : List Char) :
    scan? ('\\' :: e :: rest) = after (.char c) (scan? rest) := by
  rw [scan?]
  · rw [h]
  · intro a b c' d rest' h' _; exact hu h'

theorem scan?_unit {a b c d : Char} {unit : Nat} (h : Units.ofHex? a b c d = some unit)
    (rest : List Char) :
    scan? ('\\' :: 'u' :: a :: b :: c :: d :: rest) = after (.ofUnit unit) (scan? rest) := by
  rw [scan?, h]

/-- What stands for a character is read as that character. -/
theorem scan?_escape (c : Char) (rest : List Char) :
    scan? (escape c ++ rest) = after (.char c) (scan? rest) := by
  unfold escape
  split
  · subst_vars; exact scan?_short (by decide) rfl rest
  split
  · subst_vars; exact scan?_short (by decide) rfl rest
  split
  · subst_vars; exact scan?_short (by decide) rfl rest
  split
  · subst_vars; exact scan?_short (by decide) rfl rest
  split
  · subst_vars; exact scan?_short (by decide) rfl rest
  split
  · subst_vars; exact scan?_short (by decide) rfl rest
  split
  · subst_vars; exact scan?_short (by decide) rfl rest
  split
  · rename_i h
    have := scan?_unit (ofHex?_control c.toNat h) rest
    rwa [ofUnit_control h, Char.ofNat_toNat] at this
  · exact scan?_cons ‹_› ‹_› ‹_› rest

/-- What is quoted is read as it was. -/
theorem scan?_quoted (cs rest : List Char) :
    scan? (cs.flatMap escape ++ '\x22' :: rest) = some (cs.map .char, rest) := by
  induction cs with
  | nil => rw [List.flatMap_nil, List.nil_append, scan?]; rfl
  | cons c cs ih => rw [List.flatMap_cons, List.append_assoc, scan?_escape, ih]; rfl

@[simp] theorem characters?_char (cs : List Char) : characters? (cs.map .char) = some cs := by
  induction cs with
  | nil => rfl
  | cons c cs ih => simp [characters?, ih]

end QueryForm.Quoted
