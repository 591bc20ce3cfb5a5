/-
Numbers typed into a form against numerals of JSON: the text of a numeral,
in any of its spellings, is that of a decimal, so it is read in full, and as
the double nearest to the numeral (`float_spells`).
-/
import QueryForm.Proofs.Value.Prefix

namespace QueryForm.TypedNumber

open Numeral (Spells fractionText)

/-- The digits before and after the point write the coefficient of a numeral. -/
theorem value_digits (whole : Nat) (part : List Digit) :
    Digit.value ((DigitRun.ofNat whole).digits ++ part) =
      part.foldl (fun v d => 10 * v + d.val) whole := by
  have := DigitRun.value_ofNat whole
  rw [DigitRun.value, Digit.value] at this
  rw [Digit.value, List.foldl_append, this]

theorem digits_numeral (whole : Nat) (fraction : Option DigitRun) :
    DigitsSpell (DigitRun.ofNat whole).digits ((fraction.map DigitRun.digits).getD [])
      ((DigitRun.ofNat whole).text ++ fractionText fraction) := by
  have hdigits : (DigitRun.ofNat whole).digits ≠ [] := List.cons_ne_nil _ _
  cases fraction with
  | none =>
    rw [fractionText, List.append_nil]
    exact .whole hdigits
  | some run => exact .point (.inl hdigits)

/-- A numeral is spelled as the decimal that it is. -/
theorem decimalSpells_of_spells {n : Numeral} {cs : List Char} (h : Spells n cs) :
    DecimalSpells n.toDecimal cs := by
  obtain ⟨negative, whole, fraction, exponent⟩ := n
  obtain ⟨power, hpower, rfl⟩ := h
  have hsign : Numeral.SignSpells negative (if negative then ['-'] else []) := by
    cases negative with
    | true => exact .minus
    | false => exact .none
  have := DecimalSpells.mk hsign (digits_numeral whole fraction) hpower
  rw [value_digits, List.append_assoc] at this
  exact this

/-- **Typed numerals.** A text that spells a numeral is read as the double nearest to it. -/
theorem float_spells {n : Numeral} {cs : List Char} (h : Spells n cs) : float cs = n.toDouble :=
  float_of_spells (decimalSpells_of_spells h)

end QueryForm.TypedNumber
