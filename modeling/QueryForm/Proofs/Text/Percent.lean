/-
Percent encoding loses nothing: an encoded address decodes to the UTF-8 form
of the address it was made from (`percentDecode_percentEncode`), so two
addresses that are encoded alike are the same.

What an encoded address looks like is said apart (`Encoded`): characters of
`uriChars` and bytes in upper-case hexadecimal behind a percent sign. A
character that does not stand for itself becomes longer, so the addresses
that encoding leaves as they are can be told by their length
(`length_flatMap_percentChar`). `percentEncode_laws` has all of this
together.
-/
import QueryForm.Text.Digits
import QueryForm.Text.Percent

namespace QueryForm.Text

/-- The bytes that an encoded address stands for: `%XX` is one byte, another character its UTF-8
form. -/
def percentDecode : List Char → List UInt8
  | [] => []
  | '%' :: a :: b :: cs =>
    match hexDigit? a, hexDigit? b with
    | some high, some low => UInt8.ofNat (16 * high.val + low.val) :: percentDecode cs
    | _, _ => String.utf8EncodeChar '%' ++ percentDecode (a :: b :: cs)
  | c :: cs => String.utf8EncodeChar c ++ percentDecode cs

theorem hexDigit?_upperHex (d : Fin 16) : hexDigit? (upperHex d) = some d := by
  revert d
  decide

theorem percentDecode_byte (b : UInt8) (cs : List Char) :
    percentDecode (percentByte b ++ cs) = b :: percentDecode cs := by
  have hb : 16 * (b.toNat / 16) + b.toNat % 16 = b.toNat := Nat.div_add_mod _ _
  simp only [percentByte, List.cons_append, List.nil_append, percentDecode, hexDigit?_upperHex, hb,
    UInt8.ofNat_toNat]

theorem percentDecode_bytes (bs : List UInt8) (cs : List Char) :
    percentDecode (bs.flatMap percentByte ++ cs) = bs ++ percentDecode cs := by
  induction bs with
  | nil => rfl
  | cons b bs ih => rw [List.flatMap_cons, List.append_assoc, percentDecode_byte, ih]; rfl

theorem percentDecode_cons {c : Char} (h : c ≠ '%') (cs : List Char) :
    percentDecode (c :: cs) = String.utf8EncodeChar c ++ percentDecode cs := by
  rw [percentDecode]
  exact fun _ _ _ e => absurd e h

theorem percentDecode_char (c : Char) (cs : List Char) :
    percentDecode (percentChar c ++ cs) = String.utf8EncodeChar c ++ percentDecode cs := by
  unfold percentChar
  split
  · next h =>
    have hne : c ≠ '%' := by
      intro hc
      subst hc
      revert h
      decide
    exact percentDecode_cons hne cs
  · exact percentDecode_bytes _ cs

/-- **Decoding.** What is encoded decodes to its UTF-8 form. -/
theorem percentDecode_percentEncode (s : String) :
    percentDecode (percentEncode s).toList = s.toList.flatMap String.utf8EncodeChar := by
  have key : ∀ cs : List Char,
      percentDecode (cs.flatMap percentChar) = cs.flatMap String.utf8EncodeChar := by
    intro cs
    induction cs with
    | nil => rfl
    | cons c cs ih => rw [List.flatMap_cons, percentDecode_char, ih, List.flatMap_cons]
  rw [percentEncode, String.toList_ofList, key]

theorem percentEncode_injective {s t : String} (h : percentEncode s = percentEncode t) : s = t := by
  have hbytes := percentDecode_percentEncode s
  rw [h, percentDecode_percentEncode t] at hbytes
  have hutf : s.toList.utf8Encode = t.toList.utf8Encode := by
    rw [List.utf8Encode, List.utf8Encode, hbytes]
  rw [String.utf8Encode_toList, String.utf8Encode_toList] at hutf
  exact String.toByteArray_inj.1 hutf

/-! ## What an encoded address looks like -/

/-- The characters that stand for themselves in an encoded address. -/
def uriChars : List Char :=
  "ABCDEFGHIJKLMNOPQRSTUVWXYZabcdefghijklmnopqrstuvwxyz0123456789-_.!~*\x27();,/?:@&=+$#".toList

/-- The digits of base sixteen in upper case. -/
def upperHexDigits : List Char :=
  "0123456789ABCDEF".toList

/-- A text of characters that stand for themselves and of bytes, each a percent sign and two
digits. -/
inductive Encoded : List Char → Prop
  | nil : Encoded []
  | char {c cs} : c ∈ uriChars → Encoded cs → Encoded (c :: cs)
  | byte {a b cs} : a ∈ upperHexDigits → b ∈ upperHexDigits → Encoded cs →
      Encoded ('%' :: a :: b :: cs)

theorem toNat_lt_of_isUriChar {c : Char} (h : isUriChar c = true) : c.toNat < 128 := by
  simp only [isUriChar, Bool.or_eq_true, List.contains_iff_mem] at h
  rcases h with h | h
  · have hranges : c.isAlphanum =
        (decide ('A'.val ≤ c.val ∧ c.val ≤ 'Z'.val) ||
          (decide ('a'.val ≤ c.val) && decide (c.val ≤ 'z'.val)) ||
          (decide ('0'.val ≤ c.val) && decide (c.val ≤ '9'.val))) := rfl
    simp only [hranges, Bool.or_eq_true, Bool.and_eq_true, decide_eq_true_eq,
      UInt32.le_iff_toNat_le] at h
    have hZ : 'Z'.val.toNat = 90 := rfl
    have hz : 'z'.val.toNat = 122 := rfl
    have h9 : '9'.val.toNat = 57 := rfl
    simp only [Char.toNat]
    omega
  · have hmarks : "-_.!~*\x27();,/?:@&=+$#".toList.all (·.toNat < 128) = true := by decide
    simpa using List.all_eq_true.1 hmarks c h

theorem isUriChar_iff {c : Char} : isUriChar c = true ↔ c ∈ uriChars := by
  have hascii : ∀ n < 128, isUriChar (Char.ofNat n) = true → Char.ofNat n ∈ uriChars := by
    decide +kernel
  have hlisted : uriChars.all isUriChar = true := by decide
  refine ⟨fun h => ?_, List.all_eq_true.1 hlisted c⟩
  have := hascii c.toNat (toNat_lt_of_isUriChar h)
  rw [Char.ofNat_toNat] at this
  exact this h

theorem upperHex_mem (d : Fin 16) : upperHex d ∈ upperHexDigits := by
  revert d
  decide

theorem Encoded.append {cs ds : List Char} (hc : Encoded cs) (hd : Encoded ds) :
    Encoded (cs ++ ds) := by
  induction hc with
  | nil => exact hd
  | char h _ ih => exact .char h ih
  | byte ha hb _ ih => exact .byte ha hb ih

theorem encoded_bytes (bs : List UInt8) : Encoded (bs.flatMap percentByte) := by
  induction bs with
  | nil => exact .nil
  | cons b bs ih =>
    rw [List.flatMap_cons]
    exact .byte (upperHex_mem _) (upperHex_mem _) ih

theorem encoded_char (c : Char) : Encoded (percentChar c) := by
  unfold percentChar
  split
  · next h => exact .char (isUriChar_iff.1 h) .nil
  · exact encoded_bytes _

/-- **Form.** An encoded address has nothing in it but characters that stand for themselves and
bytes. -/
theorem encoded_percentEncode (s : String) : Encoded (percentEncode s).toList := by
  rw [percentEncode, String.toList_ofList]
  induction s.toList with
  | nil => exact .nil
  | cons c cs ih =>
    rw [List.flatMap_cons]
    exact (encoded_char c).append ih

theorem percentEncode_append (s t : String) :
    percentEncode (s ++ t) = percentEncode s ++ percentEncode t := by
  rw [percentEncode, String.toList_append, List.flatMap_append, String.ofList_append]
  rfl

/-! ## Addresses that are left as they are -/

theorem length_percentByte (b : UInt8) : (percentByte b).length = 3 :=
  rfl

theorem length_percentChar (c : Char) :
    (percentChar c).length = if isUriChar c then 1 else 3 * c.utf8Size := by
  unfold percentChar
  split
  · rfl
  · simp only [List.length_flatMap, length_percentByte, List.map_const', List.sum_replicate_nat,
      String.length_utf8EncodeChar, Nat.mul_comm]

/-- **Length.** An address becomes no longer exactly where all its characters stand for
themselves. -/
theorem length_flatMap_percentChar (cs : List Char) :
    cs.length ≤ (cs.flatMap percentChar).length ∧
      ((cs.flatMap percentChar).length = cs.length ↔ ∀ c ∈ cs, isUriChar c = true) := by
  induction cs with
  | nil => simp
  | cons c cs ih =>
    obtain ⟨hle, hiff⟩ := ih
    have hpos := c.utf8Size_pos
    rw [List.flatMap_cons, List.length_append, List.length_cons, List.forall_mem_cons, ← hiff,
      length_percentChar]
    by_cases h : isUriChar c = true
    · rw [if_pos h]
      exact ⟨by omega, fun hlen => ⟨h, by omega⟩, fun hlen => by omega⟩
    · rw [if_neg h]
      exact ⟨by omega, fun hlen => by omega, fun hall => absurd hall.1 h⟩

theorem percentEncode_eq_self_iff {s : String} :
    percentEncode s = s ↔ s.toList ⊆ uriChars := by
  constructor
  · intro h
    have hlength := congrArg (·.toList.length) h
    simp only [percentEncode, String.toList_ofList] at hlength
    exact fun c hc => isUriChar_iff.1 ((length_flatMap_percentChar s.toList).2.1 hlength c hc)
  · intro h
    have hself : ∀ cs : List Char, cs ⊆ uriChars → cs.flatMap percentChar = cs := by
      intro cs hcs
      induction cs with
      | nil => rfl
      | cons c cs ih =>
        rw [List.cons_subset] at hcs
        rw [List.flatMap_cons, percentChar, if_pos (isUriChar_iff.2 hcs.1), ih hcs.2,
          List.singleton_append]
    rw [percentEncode, hself _ h, String.ofList_toList]

/-- **Percent encoding.** An encoded address decodes to the UTF-8 bytes of the address, so no two
addresses are encoded alike. It has nothing in it but characters that stand for themselves and
percent signs with two digits in upper case; addresses put one behind the other are encoded one
behind the other; and an address is left as it is exactly where all its characters stand for
themselves. -/
theorem percentEncode_laws (s t : String) :
    percentDecode (percentEncode s).toList = s.toUTF8.data.toList ∧
      (percentEncode s = percentEncode t ↔ s = t) ∧
      Encoded (percentEncode s).toList ∧
      percentEncode (s ++ t) = percentEncode s ++ percentEncode t ∧
      (percentEncode s = s ↔ s.toList ⊆ uriChars) := by
  have hbytes : s.toUTF8.data.toList = s.toList.flatMap String.utf8EncodeChar := by
    rw [String.toUTF8, ← String.utf8Encode_toList]
    simp [List.utf8Encode]
  refine ⟨?_, ⟨percentEncode_injective, congrArg percentEncode⟩, encoded_percentEncode s,
    percentEncode_append s t, percentEncode_eq_self_iff⟩
  rw [hbytes, percentDecode_percentEncode]

end QueryForm.Text
