/-
Percent encoding of an address, by the rules browsers apply to a whole URI:
letters, digits, the marks `-_.!~*'()` and the reserved characters
`;,/?:@&=+$#` stand for themselves, and every other character becomes
`%XX` for each byte of its UTF-8 form, in upper-case hexadecimal.
-/
namespace QueryForm.Text

/-- A character that an encoded address shows as it is. -/
def isUriChar (c : Char) : Bool :=
  c.isAlphanum || "-_.!~*\x27();,/?:@&=+$#".toList.contains c

/-- A hexadecimal digit in upper case. -/
def upperHex (d : Fin 16) : Char :=
  (Nat.digitChar d.val).toUpper

/-- The three characters that stand for a byte. -/
def percentByte (b : UInt8) : List Char :=
  ['%', upperHex ⟨b.toNat / 16, by have := b.toNat_lt; omega⟩,
    upperHex ⟨b.toNat % 16, Nat.mod_lt _ (by decide)⟩]

/-- What stands for one character in an encoded address. -/
def percentChar (c : Char) : List Char :=
  if isUriChar c then [c] else (String.utf8EncodeChar c).flatMap percentByte

/-- The encoded form of an address. -/
def percentEncode (s : String) : String :=
  String.ofList (s.toList.flatMap percentChar)

end QueryForm.Text
