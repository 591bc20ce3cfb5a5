/-
Units of UTF-16, as an escape `\uXXXX` writes them. A unit from U+D800 to
U+DFFF is half of a character beyond U+FFFF: a high half, then a low one.
-/
import QueryForm.Text.Digits

namespace QueryForm.Units

/-- The unit that four hexadecimal digits write. -/
def ofHex? (a b c d : Char) : Option Nat := do
  let a ← hexDigit? a
  let b ← hexDigit? b
  let c ← hexDigit? c
  let d ← hexDigit? d
  pure (4096 * a.val + 256 * b.val + 16 * c.val + d.val)

/-- A unit that is the first half of a character. -/
def isHigh (unit : Nat) : Bool :=
  0xD800 ≤ unit && unit < 0xDC00

/-- A unit that is the second half of a character. -/
def isLow (unit : Nat) : Bool :=
  0xDC00 ≤ unit && unit < 0xE000

/-- The character that two halves make, each less its base. -/
def join (high low : Fin 1024) : Char :=
  Char.ofNat (0x10000 + 1024 * high.val + low.val)

end QueryForm.Units
