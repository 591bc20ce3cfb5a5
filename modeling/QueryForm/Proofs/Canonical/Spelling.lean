/-
Canonical numerals are read as the doubles that they spell, and are their own
canonical spelling.

A decimal has the same double in either notation: scientific notation is the
decimal itself, and positional notation has at most zeros more
(`toDouble_ofDecimal`). So the canonical numeral of a double is read as that
double, but for the sign of zero (`toDouble_ofDouble`), and a second spelling
finds what the first one wrote (`canonical?_canonical`).
-/
import QueryForm.Proofs.Canonical
import QueryForm.Proofs.Double.Shortest

namespace QueryForm.Numeral

open Double (one)

/-! ## Decimals -/

theorem toDecimal_positional (d : Decimal) :
    ∃ zeros, (positional d).toDecimal = d.finer zeros := by
  obtain ⟨negative, coefficient, exponent⟩ := d
  cases exponent with
  | ofNat up =>
    -- The fraction is one more zero.
    refine ⟨up + 1, ?_⟩
    have hpow : Nat.pow 10 (up + 1) = Nat.pow 10 up * 10 := rfl
    have hexp : (0 : Int) - (1 : Nat) = (up : Int) - (up + 1 : Nat) := by omega
    have hcoef : 10 * (coefficient * Nat.pow 10 up) + 0 = coefficient * Nat.pow 10 (up + 1) := by
      rw [hpow, Nat.add_zero, Nat.mul_comm, Nat.mul_assoc]
    simp only [positional, toDecimal, DigitRun.digits, Option.map_some, Option.getD_some,
      List.foldl_cons, List.foldl_nil, List.length_singleton, Decimal.finer, Decimal.mk.injEq,
      true_and]
    exact ⟨hcoef, hexp⟩
  | negSucc below =>
    refine ⟨0, ?_⟩
    have hcoef := DigitRun.foldl_lowest coefficient below
    have hlength : (DigitRun.lowest coefficient below []).digits.length = below + 1 :=
      DigitRun.length_lowest coefficient below []
    simp only [positional, toDecimal, Option.map_some, Option.getD_some, hcoef, hlength,
      Decimal.finer, Decimal.mk.injEq, true_and]
    exact ⟨(Nat.mul_one _).symm, by omega⟩

theorem toDecimal_scientific (d : Decimal) : (scientific d).toDecimal = d := by
  obtain ⟨negative, coefficient, exponent⟩ := d
  have hpos := digitCount_pos coefficient
  have htop : (Decimal.mk negative coefficient exponent).top =
      digitCount coefficient + exponent := rfl
  have hsigned : ∀ power : Int,
      (if decide (power < 0) then -(power.natAbs : Int) else power.natAbs) = power := by
    intro power
    simp only [decide_eq_true_eq]
    split <;> omega
  unfold scientific
  dsimp only
  split
  · omega
  · next hcount =>
    simp only [toDecimal, DigitRun.value_ofNat, hsigned, htop, hcount, Option.map_none,
      Option.getD_none, List.foldl_nil, List.length_nil, Decimal.mk.injEq, true_and]
    omega
  · next more hcount =>
    have hcoef := DigitRun.foldl_lowest coefficient more
    have hlength : (DigitRun.lowest coefficient more []).digits.length = more + 1 :=
      DigitRun.length_lowest coefficient more []
    simp only [toDecimal, DigitRun.value_ofNat, hsigned, htop, hcount, Option.map_some,
      Option.getD_some, hcoef, hlength, Decimal.mk.injEq, true_and]
    omega

/-- A decimal is read as the double nearest to it, in either notation. -/
theorem toDouble_ofDecimal (d : Decimal) : (ofDecimal d).toDouble = d.toDouble := by
  rw [toDouble, ofDecimal]
  split
  · obtain ⟨zeros, hzeros⟩ := toDecimal_positional d
    rw [hzeros, Decimal.toDouble_finer]
  · rw [toDecimal_scientific]

/-! ## Doubles -/

theorem toDouble_shortest (s : Bool) (m : Magnitude) : (shortest s m).toDouble = .finite s m := by
  rw [shortest, toDouble_ofDecimal]
  exact Decimal.toDouble_signed m.toDouble_shortest s

/-- A whole number of at most `2 ^ 53` is a double. -/
theorem toDouble_whole {m : Magnitude} {whole : Nat} (h : m.units = whole * one)
    (hw : whole ≤ Nat.pow 2 53) (s : Bool) :
    (ofInteger s whole).toDouble = .finite s m := by
  by_cases h0 : whole = 0
  · subst h0
    rw [Nat.zero_mul] at h
    rw [Double.eq_of_units (m := m) (k := Double.zeroMagnitude) h]
    rfl
  · have hsize : Nat.pow 2 53 < Nat.pow 10 (15 + 1) := by decide
    have hcount := digitCount_le (Nat.lt_of_le_of_lt hw hsize)
    rw [toDouble_ofInteger h0, if_neg (by omega)]
    exact Double.ofUnits_eq s ((Double.rounded_whole hw).trans h.symm)

/-- The whole number that a double is, and that it is spelled as. -/
theorem whole_of_isSmall {m : Magnitude} (hwhole : m.isWhole = true) (hsmall : m.isSmall = true) :
    ∃ whole, m.units = whole * one ∧ whole ≤ Nat.pow 2 53 := by
  simp only [Magnitude.isWhole, beq_iff_eq] at hwhole
  simp only [Magnitude.isSmall, decide_eq_true_eq] at hsmall
  obtain ⟨whole, hunits⟩ := Nat.dvd_of_mod_eq_zero hwhole
  rw [Nat.mul_comm] at hunits
  rw [hunits, Nat.mul_le_mul_right_iff Double.one_pos] at hsmall
  exact ⟨whole, hunits, hsmall⟩

/-- **Reading back.** The canonical numeral of a double is read as that double; zero has no sign. -/
theorem toDouble_ofDouble (s : Bool) (m : Magnitude) :
    (ofDouble s m).toDouble = .finite (s && m.units != 0) m := by
  by_cases hc : (m.isWhole && m.isSmall) = true
  · obtain ⟨hwhole, hsmall⟩ := Bool.and_eq_true_iff.1 hc
    obtain ⟨whole, hunits, hw⟩ := whole_of_isSmall hwhole hsmall
    rw [ofDouble_whole hunits hw, toDouble_whole hunits hw, hunits, bne_zero_whole]
  · have hne : m.units ≠ 0 := by
      intro h0
      apply hc
      simp [Magnitude.isWhole, Magnitude.isSmall, h0]
    rw [ofDouble, if_neg hc, toDouble_shortest, bne_iff_ne.2 hne, Bool.and_true]

theorem canonical?_ofInteger {negative s : Bool} {whole : Nat} {m : Magnitude}
    (h : (ofInteger negative whole).toDouble = .finite s m) (hsmall : m.isSmall = true) :
    (ofInteger negative whole).canonical? = some (ofInteger (negative && whole != 0) whole) := by
  simp only [canonical?, h, hsmall]
  rfl

/-- The canonical numeral of a double is its own canonical spelling. -/
theorem canonical?_ofDouble (s : Bool) (m : Magnitude) :
    (ofDouble s m).canonical? = some (ofDouble s m) := by
  by_cases hc : (m.isWhole && m.isSmall) = true
  · obtain ⟨hwhole, hsmall⟩ := Bool.and_eq_true_iff.1 hc
    obtain ⟨whole, hunits, hw⟩ := whole_of_isSmall hwhole hsmall
    rw [ofDouble_whole hunits hw, canonical?_ofInteger (toDouble_whole hunits hw _) hsmall,
      Bool.and_assoc, Bool.and_self]
  · have hspelled : ofDouble s m = shortest s m := if_neg hc
    have hfraction : (shortest s m).isInteger = false := isInteger_ofDecimal _
    simp only [hspelled, canonical?, toDouble_shortest, hfraction, Bool.false_and,
      Bool.false_eq_true, if_false]

/-! ## Numerals -/

/-- An integer is spelled without its leading minus where it is zero, all else after its double. -/
theorem eq_of_canonical? {n p : Numeral} (h : n.canonical? = some p) :
    ∃ s m, n.toDouble = .finite s m ∧
      ((∃ negative whole, n = ofInteger negative whole ∧ m.isSmall = true ∧
        p = ofInteger (negative && whole != 0) whole) ∨ p = ofDouble s m) := by
  unfold canonical? at h
  split at h
  · next s m hd =>
    refine ⟨s, m, hd, ?_⟩
    split at h
    · next hc =>
      obtain ⟨hi, hsmall⟩ := Bool.and_eq_true_iff.1 hc
      exact .inl ⟨n.negative, n.whole, eq_ofInteger hi, hsmall, (Option.some.inj h).symm⟩
    · exact .inr (Option.some.inj h).symm
  · cases h

theorem toDouble_signed {negative s : Bool} {whole : Nat} {m : Magnitude}
    (h : (ofInteger negative whole).toDouble = .finite s m) (t : Bool) :
    (ofInteger t whole).toDouble = .finite t m :=
  Decimal.toDouble_signed (d := (ofInteger negative whole).toDecimal) h t

theorem same_finite {a b : Bool} {m : Magnitude} (h : m.units ≠ 0 → a = b) :
    Double.same (.finite a m) (.finite b m) = true := by
  by_cases h0 : m.units = 0
  · simp [Double.same, h0]
  · simp [Double.same, h h0]

/-- A numeral is respelled as one that is read as the same number. -/
theorem same_of_canonical? {n p : Numeral} (h : n.canonical? = some p) :
    n.toDouble.same p.toDouble = true := by
  obtain ⟨s, m, hd, ⟨negative, whole, rfl, -, rfl⟩ | rfl⟩ := eq_of_canonical? h
  · obtain ⟨rfl, hunits⟩ := units_ofInteger hd
    rw [hd, toDouble_signed hd]
    refine same_finite fun hne => ?_
    have h0 : whole ≠ 0 := by
      intro e
      rw [hunits, e, Double.rounded_whole (Nat.zero_le _), Nat.zero_mul] at hne
      exact hne rfl
    rw [bne_iff_ne.2 h0, Bool.and_true]
  · rw [hd, toDouble_ofDouble]
    refine same_finite fun hne => ?_
    rw [bne_iff_ne.2 hne, Bool.and_true]

/-- **Spelled once.** A canonical spelling is its own canonical spelling. -/
theorem canonical?_canonical {n p : Numeral} (h : n.canonical? = some p) :
    p.canonical? = some p := by
  obtain ⟨s, m, hd, ⟨negative, whole, rfl, hsmall, rfl⟩ | rfl⟩ := eq_of_canonical? h
  · rw [canonical?_ofInteger (toDouble_signed hd _) hsmall, Bool.and_assoc, Bool.and_self]
  · exact canonical?_ofDouble s m

end QueryForm.Numeral
