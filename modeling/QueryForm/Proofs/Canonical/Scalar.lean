/-
Doubles in a query.

A finite double is written as an integer exactly where it is a whole number
of at most `2 ^ 53`, and otherwise as a decimal with a fraction or an
exponent that has the double as its nearest (`Numeral.ofDouble_cases`). As
both are read back as the double, but for the sign of zero, doubles have the
same text where they are the same number (`Numeral.ofDouble_eq_iff`). Where
the number stands in the document makes no difference
(`Document.canonical_scalar`).
-/
import QueryForm.Proofs.Canonical.Place
import QueryForm.Proofs.Canonical.Spelling
import QueryForm.Proofs.Double.Nearest

namespace QueryForm

namespace Numeral

open Double (one)

/-- **Integer or decimal.** A whole number of at most `2 ^ 53` is written as the integer that it is,
and any other double as a decimal that is read as that double. -/
theorem ofDouble_cases (s : Bool) (m : Magnitude) :
    (∃ whole, whole ≤ Nat.pow 2 53 ∧ m.units = whole * one ∧
        ofDouble s m = ofInteger (s && whole != 0) whole) ∨
      (¬ ∃ whole, whole ≤ Nat.pow 2 53 ∧ m.units = whole * one) ∧
        (ofDouble s m).isInteger = false ∧ (ofDouble s m).toDouble = .finite s m := by
  by_cases hc : (m.isWhole && m.isSmall) = true
  · obtain ⟨hwhole, hsmall⟩ := Bool.and_eq_true_iff.1 hc
    obtain ⟨whole, hunits, hw⟩ := whole_of_isSmall hwhole hsmall
    exact .inl ⟨whole, hw, hunits, ofDouble_whole hunits hw s⟩
  · have hother : ¬ ∃ whole, whole ≤ Nat.pow 2 53 ∧ m.units = whole * one := by
      rintro ⟨whole, hw, hunits⟩
      apply hc
      rw [isSmall_whole hunits hw, Bool.and_true, Magnitude.isWhole, hunits, Nat.mul_mod_left]
      rfl
    refine .inr ⟨hother, ?_, ?_⟩
    · rw [ofDouble, if_neg hc]
      exact isInteger_ofDecimal _
    · rw [ofDouble, if_neg hc, toDouble_shortest]

/-- A numeral with a fraction or an exponent is not the text of an integer. -/
theorem not_spells_ofInteger {n : Numeral} (h : n.isInteger = false) (negative : Bool)
    (whole : Nat) : ¬ Spells (ofInteger negative whole) n.text := by
  intro hspells
  rw [(spells_text n).unique hspells] at h
  cases h

/-- **Equal numbers** have one spelling, and others have others. -/
theorem ofDouble_eq_iff (s t : Bool) (m k : Magnitude) :
    ofDouble s m = ofDouble t k ↔ (Double.finite s m).same (.finite t k) = true := by
  simp only [Double.same, Bool.and_eq_true, Bool.or_eq_true, beq_iff_eq]
  constructor
  · intro h
    have hread := congrArg toDouble h
    rw [toDouble_ofDouble, toDouble_ofDouble, Double.finite.injEq] at hread
    obtain ⟨hsign, rfl⟩ := hread
    refine ⟨rfl, ?_⟩
    by_cases hzero : m.units = 0
    · exact .inr hzero
    · rw [bne_iff_ne.2 hzero, Bool.and_true, Bool.and_true] at hsign
      exact .inl hsign
  · intro h
    obtain ⟨hunits, rfl | hzero⟩ := h
    · rw [Double.eq_of_units hunits]
    · have hone : m.units = 0 * one := by rw [hzero, Nat.zero_mul]
      rw [← Double.eq_of_units hunits, ofDouble_whole hone (Nat.zero_le _),
        ofDouble_whole hone (Nat.zero_le _), bne_self_eq_false, Bool.and_false, Bool.and_false]

end Numeral

/-- **Numbers in a query.** Wherever a document holds a finite double, the query holds an integer in
its place, the double itself without the sign of zero, if it is a whole number of at most `2 ^ 53`,
and otherwise a text that is no integer's and has that double as its nearest. Two doubles give the
same text where they are the same number, and what is not finite gives null. -/
theorem Document.canonical_scalar (place : Document.Place) :
    (∀ s m, ∃ n : Numeral,
      (place.fill (.value (.number (.finite s m)))).canonical = place.around (.number n) ∧
        ((∃ whole, whole ≤ Nat.pow 2 53 ∧ m.units = whole * Double.one ∧
            n = .ofInteger (s && whole != 0) whole) ∨
          (¬ ∃ whole, whole ≤ Nat.pow 2 53 ∧ m.units = whole * Double.one) ∧
            (∀ negative whole, ¬ Numeral.Spells (.ofInteger negative whole) n.text) ∧
            (Double.finite s m).NearestTo n.toDecimal)) ∧
      (∀ s m t k,
        Query.text (place.fill (.value (.number (.finite s m)))).canonical =
            Query.text (place.fill (.value (.number (.finite t k)))).canonical ↔
          (Double.finite s m).same (.finite t k) = true) ∧
      (place.fill (.value (.number .nan))).canonical = place.around .null ∧
      ∀ negative,
        (place.fill (.value (.number (.infinite negative)))).canonical = place.around .null := by
  have hplace : ∀ x, (place.fill (.value (.number x))).canonical = place.around (.ofDouble x) :=
    fun x => place.canonical_fill rfl
  refine ⟨fun s m => ⟨.ofDouble s m, hplace _, ?_⟩, fun s m t k => ?_, hplace _, fun _ => hplace _⟩
  · obtain hinteger | ⟨hother, hi, hread⟩ := Numeral.ofDouble_cases s m
    · exact .inl hinteger
    · refine .inr ⟨hother, Numeral.not_spells_ofInteger hi, Double.nearestTo_iff.2 ?_⟩
      rw [← hread, Numeral.toDouble]
  · rw [hplace, hplace, Document.Place.text_around_iff, Json.ofDouble, Json.ofDouble,
      Json.number.injEq]
    exact Numeral.ofDouble_eq_iff s t m k

end QueryForm
