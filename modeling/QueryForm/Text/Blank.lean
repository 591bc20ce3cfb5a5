/-
Blank characters: the twenty-five code points of the Unicode property
`White_Space`. Tokens and settings are trimmed of them, and a number may be
preceded by them.
-/
namespace QueryForm.Text

/-- A character with the Unicode property `White_Space`. -/
def isBlank (c : Char) : Bool :=
  let n := c.toNat
  (9 ≤ n && n ≤ 13) || n == 0x20 || n == 0x85 || n == 0xA0 || n == 0x1680 ||
    (0x2000 ≤ n && n ≤ 0x200A) || n == 0x2028 || n == 0x2029 || n == 0x202F || n == 0x205F ||
    n == 0x3000

/-- The text without the blanks at its two ends. -/
def trim (cs : List Char) : List Char :=
  ((cs.dropWhile isBlank).reverse.dropWhile isBlank).reverse

/-- What may stand before a number: blanks and the byte order mark. -/
def isPadding (c : Char) : Bool :=
  isBlank c || c == '\uFEFF'

/-- Equality up to the case of the letters `A` to `Z`. -/
def sameIgnoringCase (a b : List Char) : Bool :=
  a.map Char.toLower == b.map Char.toLower

end QueryForm.Text
