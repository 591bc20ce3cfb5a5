/-
A number inside a container against the same number typed by itself.

Both are spelled after the nearest double, but for whole numbers, which keep
their digits inside a container when that double is at most `2 ^ 53`. The
double of `2 ^ 53 + 1` is `2 ^ 53`, so there is one whole number, and its
negative, that keeps digits it should not (`canonical_number_iff`). Every
other numeral has one canonical form however it got into a form
(`ofRules_number`).
-/
import QueryForm.Canonical
import QueryForm.Proofs.Double.Rounding
import QueryForm.Proofs.Draft
import QueryForm.Proofs.Json.Literal
import QueryForm.Proofs.Json.Writer
import QueryForm.Proofs.Value.Number

namespace QueryForm

/-! ## Whole numbers -/

namespace Numeral

open Double (one rounded)

theorem eq_ofInteger {n : Numeral} (h : n.isInteger = true) :
    n = .ofInteger n.negative n.whole := by
  obtain ⟨negative, whole, fraction, exponent⟩ := n
  simp only [isInteger, Bool.and_eq_true, Option.isNone_iff_eq_none] at h
  obtain ⟨rfl, rfl⟩ := h
  rfl

theorem toDecimal_ofInteger (negative : Bool) (whole : Nat) :
    (ofInteger negative whole).toDecimal = ⟨negative, whole, 0⟩ :=
  rfl

/-- The double of a whole number that is not zero is rounded, or infinite. -/
theorem toDouble_ofInteger {whole : Nat} (h : whole ≠ 0) (negative : Bool) :
    (ofInteger negative whole).toDouble = if 309 < digitCount whole then .infinite negative
      else .ofUnits negative (whole * one) 1 := by
  have htop : (Decimal.mk negative whole 0).top = digitCount whole := Int.add_zero _
  have hpos := digitCount_pos whole
  rw [toDouble, toDecimal_ofInteger, Decimal.toDouble, if_neg h, htop]
  split
  · next hc => rw [if_pos (by omega)]
  · next hc =>
    rw [if_neg (by omega), if_neg (by omega), Double.ofRatio]
    simp

theorem units_ofInteger {negative s : Bool} {whole : Nat} {m : Magnitude}
    (h : (ofInteger negative whole).toDouble = .finite s m) :
    s = negative ∧ m.units = rounded (whole * one) 1 := by
  by_cases hw : whole = 0
  · subst hw
    rw [toDouble, toDecimal_ofInteger, Decimal.toDouble, if_pos rfl] at h
    cases h
    exact ⟨rfl, by rw [Double.rounded_whole (Nat.zero_le _), Nat.zero_mul]; rfl⟩
  · rw [toDouble_ofInteger hw] at h
    split at h
    · cases h
    · exact Double.ofUnits_eq_finite h

/-- The first whole number that is no double goes to the one below it. -/
theorem toDouble_tie (negative : Bool) : ∃ m,
    (ofInteger negative (Nat.pow 2 53 + 1)).toDouble = .finite negative m ∧
      m.units = Nat.pow 2 53 * one := by
  have hcount : digitCount (Nat.pow 2 53 + 1) ≤ 15 + 1 := digitCount_le (by decide)
  have hlimit : rounded ((Nat.pow 2 53 + 1) * one) 1 < Double.limit := by
    rw [Double.rounded_tie]
    decide +kernel
  have hne : Nat.pow 2 53 + 1 ≠ 0 := by decide
  have hdouble := toDouble_ofInteger hne negative
  rw [if_neg (by omega)] at hdouble
  obtain ⟨m, hm⟩ := Double.ofUnits_finite negative hlimit
  rw [hm] at hdouble
  exact ⟨m, hdouble, by rw [(units_ofInteger hdouble).2, Double.rounded_tie]⟩

theorem isSmall_whole {m : Magnitude} {whole : Nat} (h : m.units = whole * one)
    (hw : whole ≤ Nat.pow 2 53) : m.isSmall = true := by
  rw [Magnitude.isSmall, h, decide_eq_true_eq]
  exact Nat.mul_le_mul_right _ hw

theorem bne_zero_whole (whole : Nat) : (whole * one != 0) = (whole != 0) := by
  rw [Bool.eq_iff_iff, bne_iff_ne, bne_iff_ne, Nat.mul_ne_zero_iff]
  exact and_iff_left (Nat.ne_of_gt Double.one_pos)

/-- A whole double up to `2 ^ 53` is spelled as the integer that it is. -/
theorem ofDouble_whole {m : Magnitude} {whole : Nat} (h : m.units = whole * one)
    (hw : whole ≤ Nat.pow 2 53) (s : Bool) : ofDouble s m = .ofInteger (s && whole != 0) whole := by
  have hwhole : m.isWhole = true := by simp [Magnitude.isWhole, h]
  have hdiv : whole * one / one = whole := Nat.mul_div_cancel _ Double.one_pos
  rw [ofDouble, hwhole, isSmall_whole h hw, h, hdiv, bne_zero_whole]
  rfl

end Numeral

namespace Json

/-- The first whole number that is no double keeps its digits, and its double has others. -/
theorem canonical_tie (negative : Bool) :
    (number (.ofInteger negative (Nat.pow 2 53 + 1))).canonical =
        number (.ofInteger negative (Nat.pow 2 53 + 1)) ∧
      ofDouble (Numeral.ofInteger negative (Nat.pow 2 53 + 1)).toDouble =
        number (.ofInteger negative (Nat.pow 2 53)) := by
  obtain ⟨m, hm, hunits⟩ := Numeral.toDouble_tie negative
  have hsmall := Numeral.isSmall_whole hunits (Nat.le_refl _)
  constructor
  · simp only [canonical, Numeral.canonical?, hm, hsmall]
    cases negative <;> rfl
  · rw [hm, ofDouble, Numeral.ofDouble_whole hunits (Nat.le_refl _)]
    cases negative <;> rfl

/-- A whole number keeps its digits only where they are those of its double. -/
theorem canonical_number {n : Numeral}
    (h : ¬ (n.isInteger = true ∧ n.whole = Nat.pow 2 53 + 1)) :
    (number n).canonical = .ofDouble n.toDouble := by
  cases hd : n.toDouble with
  | nan | infinite => simp only [canonical, Numeral.canonical?, hd, ofDouble]
  | finite s m =>
    cases hc : n.isInteger && m.isSmall with
    | false =>
      simp only [canonical, Numeral.canonical?, hd, ofDouble, hc, Bool.false_eq_true, if_false]
    | true =>
      simp only [Bool.and_eq_true] at hc
      obtain ⟨hi, hsmall⟩ := hc
      have hd' := hd
      rw [n.eq_ofInteger hi] at hd'
      obtain ⟨rfl, hunits⟩ := Numeral.units_ofInteger hd'
      rw [Magnitude.isSmall, hunits, decide_eq_true_eq, Double.rounded_le_iff] at hsmall
      have hw : n.whole ≤ Nat.pow 2 53 := by
        have hne : n.whole ≠ Nat.pow 2 53 + 1 := fun e => h ⟨hi, e⟩
        omega
      rw [Double.rounded_whole hw] at hunits
      have hm := Numeral.isSmall_whole hunits hw
      simp only [canonical, Numeral.canonical?, hd, ofDouble, hi, hm, Bool.and_self, if_true,
        Numeral.ofDouble_whole hunits hw]

/-- **Two spellings.** The canonical form of a numeral is that of its nearest double, but for the
first whole number that is no double. -/
theorem canonical_number_iff (n : Numeral) : (number n).canonical = .ofDouble n.toDouble ↔
    ¬ (n.isInteger = true ∧ n.whole = Nat.pow 2 53 + 1) := by
  constructor
  · intro hsame htie
    obtain ⟨hi, hw⟩ := htie
    have hn := n.eq_ofInteger hi
    rw [hw] at hn
    obtain ⟨hkept, hdouble⟩ := canonical_tie n.negative
    rw [hn, hkept, hdouble] at hsame
    simp [Numeral.ofInteger] at hsame
  · exact canonical_number

theorem canonical_number_eq_null (n : Numeral) :
    (number n).canonical = null ↔ n.toDouble.isFinite = false := by
  simp only [canonical, Numeral.canonical?]
  cases n.toDouble with
  | nan | infinite => simp [Double.isFinite]
  | finite s m =>
    simp only [Double.isFinite]
    split <;> simp_all
    split at * <;> simp_all

theorem ofDouble_eq_null (x : Double) : ofDouble x = null ↔ x.isFinite = false := by
  cases x <;> simp [ofDouble, Double.isFinite]

end Json

namespace Numeral

/-- A decimal is spelled with a fraction or an exponent. -/
theorem isInteger_ofDecimal (d : Decimal) : (ofDecimal d).isInteger = false := by
  unfold ofDecimal
  split
  · unfold positional
    split <;> rfl
  · unfold scientific
    dsimp only
    split <;> simp [isInteger]

theorem whole_le_of_isInteger {s : Bool} {m : Magnitude} (h : (ofDouble s m).isInteger = true) :
    (ofDouble s m).whole ≤ Nat.pow 2 53 := by
  unfold ofDouble at h ⊢
  split
  · next hc =>
    simp only [Bool.and_eq_true, Magnitude.isSmall, decide_eq_true_eq] at hc
    exact Nat.div_le_of_le_mul (by rw [Nat.mul_comm]; exact hc.2)
  · next hc =>
    rw [if_neg hc, shortest, isInteger_ofDecimal] at h
    cases h

theorem spells_ofInteger {negative : Bool} {whole : Nat} {cs : List Char}
    (h : Spells (ofInteger negative whole) cs) : cs = (ofInteger negative whole).text := by
  obtain ⟨power, hpower, rfl⟩ := h
  cases hpower
  rfl

theorem text_tie (negative : Bool) : (ofInteger negative (Nat.pow 2 53 + 1)).text =
    (if negative then ['-'] else []) ++ "9007199254740993".toList := by
  have hvalue : Nat.pow 2 53 + 1 =
      (⟨9, [0, 0, 7, 1, 9, 9, 2, 5, 4, 7, 4, 0, 9, 9, 3]⟩ : DigitRun).value := by decide
  rw [hvalue, text, ofInteger, DigitRun.ofNat_value (by decide)]
  rfl

/-- The first whole number that is no double has one spelling. -/
theorem spells_tie_iff {n : Numeral} {t : String} (h : Spells n t.toList) :
    n.isInteger = true ∧ n.whole = Nat.pow 2 53 + 1 ↔
      t = "9007199254740993" ∨ t = "-9007199254740993" := by
  constructor
  · intro htie
    obtain ⟨hi, hw⟩ := htie
    have hn := n.eq_ofInteger hi
    rw [hw] at hn
    rw [hn] at h
    have htext := spells_ofInteger h
    rw [text_tie] at htext
    cases hneg : n.negative with
    | true =>
      rw [hneg] at htext
      exact .inr (String.toList_inj.1 htext)
    | false =>
      rw [hneg] at htext
      exact .inl (String.toList_inj.1 htext)
  · have whole : ∀ negative, t.toList = (ofInteger negative (Nat.pow 2 53 + 1)).text →
        n.isInteger = true ∧ n.whole = Nat.pow 2 53 + 1 := by
      intro negative ht
      rw [ht] at h
      rw [h.unique (spells_text _)]
      exact ⟨rfl, rfl⟩
    intro ht
    rcases ht with rfl | rfl
    · exact whole false (text_tie false).symm
    · exact whole true (text_tie true).symm

end Numeral

/-! ## Rules -/

/-- A numeral in brackets is an array of that numeral. -/
theorem items_number {t : String} {n : Numeral} (h : Numeral.Spells n t.toList) :
    Literal.items ("[" ++ t ++ "]") = [.number n] := by
  have htext : ("[" ++ t ++ "]").toList = '[' :: (t.toList ++ [']']) := by
    simp [String.toList_append]
  have hspelled : Tree.SpelledBy (.array [.number n]) ("[" ++ t ++ "]").toList := by
    rw [htext]
    exact (Tree.Spells.array (.some (.single (.number h)))).spelledBy
  have hplain : ∀ tree, Tree.SpelledBy tree ("[" ++ t ++ "]").toList → tree.Plain := by
    intro tree htree
    rw [htree.unique hspelled]
    simp [Tree.Plain, Tree.PlainItems]
  have hne : "[" ++ t ++ "]" ≠ "" := by
    intro e
    have := congrArg String.toList e
    rw [htext] at this
    cases this
  have hsays : Literal.Says (if "[" ++ t ++ "]" = "" then "[]" else "[" ++ t ++ "]")
      (.array [.number n]) := by
    rw [if_neg hne]
    exact ⟨hspelled, by simp [Tree.depth, Tree.itemsDepth, Literal.depthLimit]⟩
  rw [Literal.items_of_says hplain hsays]
  rfl

theorem Query.ofRules_plain (name : String) (type : ValueType) (raw : String) :
    Query.ofRules [⟨name, type, raw, .eq, none⟩] =
      [(name, (Value.convert type raw).canonical)] := by
  rw [Query.ofRules_eq]
  rfl

/-- **Numbers in containers.** A numeral in an array and the same numeral as a decimal of its own
compile to the same JSON, unless it is `9007199254740993` or its negative: the nearest double of
these is `2 ^ 53`, and the array keeps the digits. By itself a numeral compiles to the canonical
form of its nearest double, which is an integer up to `2 ^ 53` only; and where that double is not
finite, both compile to `null`. -/
theorem Query.ofRules_number {name t : String} {n : Numeral} (h : Numeral.Spells n t.toList) :
    ∃ element scalar : Json,
      Query.ofRules [⟨name, .array, "[" ++ t ++ "]", .eq, none⟩] = [(name, .array [element])] ∧
      Query.ofRules [⟨name, .float, t, .eq, none⟩] = [(name, scalar)] ∧
      scalar = .ofDouble n.toDouble ∧
      (element = scalar ↔ t ≠ "9007199254740993" ∧ t ≠ "-9007199254740993") ∧
      (∀ m, scalar = .number m → m.isInteger = true → m.whole ≤ Nat.pow 2 53) ∧
      (element = .null ↔ n.toDouble.isFinite = false) ∧
      (scalar = .null ↔ n.toDouble.isFinite = false) := by
  refine ⟨(Json.number n).canonical, .ofDouble n.toDouble, ?_, ?_, rfl, ?_, ?_,
    Json.canonical_number_eq_null n, Json.ofDouble_eq_null _⟩
  · rw [Query.ofRules_plain, Value.convert, items_number h]
    rfl
  · rw [Query.ofRules_plain, Value.convert, TypedNumber.float_spells h]
    rfl
  · rw [Json.canonical_number_iff, Numeral.spells_tie_iff h, not_or]
  · intro m hm hi
    cases hd : n.toDouble with
    | nan | infinite =>
      rw [hd] at hm
      cases hm
    | finite s mag =>
      rw [hd] at hm
      cases hm
      exact Numeral.whole_le_of_isInteger hi

theorem Query.ofRules_number_hundred : ∃ v : Json,
    Query.ofRules [⟨"a", .array, "[" ++ "1E2" ++ "]", .eq, none⟩] = [("a", .array [v])] ∧
      Query.ofRules [⟨"a", .float, "1E2", .eq, none⟩] = [("a", v)] := by
  have h : Numeral.Spells ⟨false, 1, none, some (false, ⟨2, []⟩)⟩ "1E2".toList :=
    Numeral.spells_of_ofText? rfl
  obtain ⟨element, scalar, harray, hfloat, -, hsame, -⟩ := Query.ofRules_number h
  obtain rfl := hsame.2 (by decide)
  exact ⟨element, harray, hfloat⟩

theorem Query.ofRules_number_tie :
    Query.ofRules [⟨"a", .array, "[" ++ "9007199254740993" ++ "]", .eq, none⟩] =
        [("a", .array [.number (.ofInteger false 9007199254740993)])] ∧
      Query.ofRules [⟨"a", .float, "9007199254740993", .eq, none⟩] =
        [("a", .number (.ofInteger false 9007199254740992))] := by
  have h : Numeral.Spells (.ofInteger false (Nat.pow 2 53 + 1)) "9007199254740993".toList := by
    rw [← List.nil_append "9007199254740993".toList]
    exact Numeral.text_tie false ▸ Numeral.spells_text _
  obtain ⟨helement, hscalar⟩ := Json.canonical_tie false
  constructor
  · rw [Query.ofRules_plain, Value.convert, items_number h, Value.canonical, Json.canonicalItems,
      helement]
    rfl
  · rw [Query.ofRules_plain, Value.convert, TypedNumber.float_spells h, Value.canonical, hscalar]

end QueryForm
