/-
Integers typed in base ten.

After padding and a sign, all the digits that follow are read, and nothing
else counts: not the zeros in front of them, nor the text after them
(`integer_longest`). They are rounded once, so an integer of at most `2 ^ 53`
in magnitude, in any of the ways to write it (`Writes`), compiles to itself.
-/
import QueryForm.Proofs.Canonical.Place
import QueryForm.Proofs.Canonical.Spelling
import QueryForm.Proofs.Value.Integer

namespace QueryForm

open Double (one)

/-! ## Whole numbers as doubles -/

/-- A whole number of at most `2 ^ 53` is a double, and is written as the integer that it is. -/
theorem Json.ofDouble_ofNat {n : Nat} (h : n ≤ Nat.pow 2 53) (negative : Bool) :
    Json.ofDouble (.ofNat negative n) = .number (.ofInteger (negative && n != 0) n) := by
  have hrounded := Double.rounded_whole h
  have hlimit : Nat.pow 2 53 * one < Double.limit := by decide +kernel
  have hlt : Double.rounded (n * one) 1 < Double.limit := by
    rw [hrounded]
    exact Nat.lt_of_le_of_lt (Nat.mul_le_mul_right one h) hlimit
  obtain ⟨m, hm⟩ := Double.ofUnits_finite negative hlt
  have hunits := (Double.ofUnits_eq_finite hm).2.trans hrounded
  rw [Double.ofNat, Double.ofRatio, hm, ofDouble, Numeral.ofDouble_whole hunits h]

namespace TypedNumber

open Numeral (SignSpells)

theorem ofNat_ne_nan (negative : Bool) (n : Nat) : Double.ofNat negative n ≠ .nan := by
  intro h
  rw [← toDouble_whole, ← Double.nearestTo_iff.trans eq_comm] at h
  exact not_nearestTo_nan _ h

/-- A text begins with an integer: padding, its sign, where a plus may be left out, any number of
zeros, and its digits. No digit follows, and no letter that would make a prefix of the zero. -/
inductive Writes : Int → List Char → Prop
  | mk {padding signs rest : List Char} {n : Int} {zeros : Nat} :
      (∀ c ∈ padding, Text.isPadding c = true) → SignSpells (decide (n < 0)) signs →
      Digit.NoneNext rest →
      ¬ HexPrefix (List.replicate zeros '0' ++ (DigitRun.ofNat n.natAbs).text ++ rest) →
      Writes n
        (padding ++ (signs ++ (List.replicate zeros '0' ++ (DigitRun.ofNat n.natAbs).text ++ rest)))

/-- The digits that a text goes on with are what it is read as. -/
theorem Opens.integer_digits {negative : Bool} {ds : List Digit} {rest raw : List Char}
    (h : Opens negative (ds.map Digit.char ++ rest) raw) (hend : Digit.NoneNext rest)
    (hten : ¬ HexPrefix (ds.map Digit.char ++ rest)) :
    integer raw = if ds = [] then .nan else Double.ofNat negative (Digit.value ds) := by
  rw [h.integer_eq, magnitude?_digits hend hten]
  split
  · rfl
  · rw [Option.map_some, Option.getD_some, signed_ofNat]

theorem value_zeros (zeros : Nat) (ds : List Digit) :
    Digit.value (List.replicate zeros 0 ++ ds) = Digit.value ds := by
  induction zeros with
  | zero => rfl
  | succ zeros ih =>
    rw [List.replicate_succ, List.cons_append, Digit.value_cons, ih, Fin.val_zero, Nat.mul_zero,
      Nat.zero_add]

/-- An integer that a text begins with is what it is read as. -/
theorem Writes.integer_eq {n : Int} {raw : List Char} (h : Writes n raw) :
    integer raw = Double.ofNat (decide (n < 0)) n.natAbs := by
  obtain ⟨hpadding, hsigns, hend, hten⟩ := h
  next padding signs rest zeros =>
  -- The zeros and the digits after them are one run.
  have hdigits : List.replicate zeros '0' ++ (DigitRun.ofNat n.natAbs).text =
      (List.replicate zeros 0 ++ (DigitRun.ofNat n.natAbs).digits).map Digit.char := by
    rw [List.map_append, List.map_replicate]
    rfl
  rw [hdigits] at hten ⊢
  have hne : List.replicate zeros (0 : Digit) ++ (DigitRun.ofNat n.natAbs).digits ≠ [] :=
    List.append_ne_nil_of_right_ne_nil _ (List.cons_ne_nil _ _)
  have hhead : ∃ d : Digit, ((List.replicate zeros 0 ++ (DigitRun.ofNat n.natAbs).digits).map
      Digit.char ++ rest).head? = some d.char := by
    obtain ⟨d, ds, hds⟩ := List.exists_cons_of_ne_nil hne
    exact ⟨d, by rw [hds]; rfl⟩
  have hopens := Opens.of_digit hpadding hsigns hhead
  have hvalue : Digit.value (DigitRun.ofNat n.natAbs).digits = n.natAbs := DigitRun.value_ofNat _
  rw [hopens.integer_digits hend hten, if_neg hne, value_zeros, hvalue]

/-- **Integers in base ten.** A text without the prefix of base sixteen is read by the longest run
of digits after its padding and its sign: as NaN where there is none, and otherwise as the double
nearest to the number they write, whatever zeros begin it and whatever follows. So an integer of at
most `2 ^ 53` in magnitude compiles to itself, in either condition of a rule and under any
comparison. -/
theorem integer_longest (raw : String) :
    (∀ negative cs, Opens negative cs raw.toList → ¬ HexPrefix cs →
      ∃ x ds rest, Value.convert .integer raw = .number x ∧
        cs = ds.map Digit.char ++ rest ∧ Digit.NoneNext rest ∧
        (x = .nan ↔ ds = []) ∧ (ds ≠ [] → x.Nearest negative (Digit.value ds) 1) ∧
        ∀ (other : String) (ds' : List Digit) (rest' : List Char),
          Opens negative (ds'.map Digit.char ++ rest') other.toList →
          ¬ HexPrefix (ds'.map Digit.char ++ rest') → Digit.NoneNext rest' →
          (ds' = [] ↔ ds = []) → Digit.value ds' = Digit.value ds →
          Value.convert .integer other = .number x) ∧
      ∀ n : Int, n.natAbs ≤ Nat.pow 2 53 → Writes n raw.toList →
        Value.compiled .integer raw = .number (.ofInteger (decide (n < 0)) n.natAbs) ∧
          ∀ (rules : List Rule) (r : Rule), r.DecidesIn rules → r.type = .integer →
            Fields.get? r.key (Query.ofRules rules) =
              some (r.contentWith (Value.compiled .integer)) := by
  refine ⟨fun negative cs hopens hten => ?_, fun n hn hwrites => ⟨?_, ?_⟩⟩
  · have htext := Digit.scan_text cs
    have hend := Digit.scan_noneNext cs
    generalize (Digit.scan cs).1 = ds at htext
    generalize (Digit.scan cs).2 = rest at htext hend
    subst htext
    refine ⟨_, ds, rest, rfl, rfl, hend, ?_, fun hne => ?_, ?_⟩
    · rw [hopens.integer_digits hend hten]
      by_cases hds : ds = []
      · simp [hds]
      · simp [hds, ofNat_ne_nan]
    · rw [hopens.integer_digits hend hten, if_neg hne]
      exact (Double.nearest_iff Nat.one_pos).2 rfl
    · intro other ds' rest' hother hten' hend' hnone hvalue
      rw [Value.convert, hother.integer_digits hend' hten', hopens.integer_digits hend hten,
        hvalue]
      simp only [hnone]
  · -- Zero has no sign to lose, so the sign is that of the integer.
    have hsign : (decide (n < 0) && n.natAbs != 0) = decide (n < 0) := by
      by_cases h : n < 0
      · have : n.natAbs ≠ 0 := by omega
        simp [h, this]
      · simp [h]
    rw [Value.compiled, Value.convert, Value.canonical, hwrites.integer_eq, Json.ofDouble_ofNat hn,
      hsign]
  · intro rules r hlast htype
    rw [hlast.get?_ofRules, htype]

/-- Zeros, a letter that is no part of a prefix and a digit after it make no difference. -/
theorem integer_longest_zeros :
    Opens true "0012x7".toList "\uFEFF -0012x7".toList ∧
      (∃ x, Value.convert .integer "\uFEFF -0012x7" = .number x ∧ x.Nearest true 12 1) ∧
      Writes (-12) "\uFEFF -0012x7".toList ∧
      Fields.get? "a" (Query.ofRules [⟨"a", .integer, "\uFEFF -0012x7", .lt, none⟩]) =
        some (.object [("$lt", .number (.ofInteger true 12))]) := by
  have hpadding : ∀ c ∈ ['\uFEFF', ' '], Text.isPadding c = true := List.all_eq_true.1 rfl
  have hopens : Opens true "0012x7".toList "\uFEFF -0012x7".toList :=
    .mk hpadding .minus fun h => absurd h (by decide)
  have hten : ¬ HexPrefix "0012x7".toList := by
    rintro ⟨letter, rest, hletter, heq⟩
    cases heq
    exact absurd hletter (by decide)
  have hrun : DigitRun.ofNat (Int.natAbs (-12)) = ⟨1, [2]⟩ :=
    @DigitRun.ofNat_value ⟨1, [2]⟩ (by decide)
  have hwrites : Writes (-12) "\uFEFF -0012x7".toList := by
    have hsign : SignSpells (decide ((-12 : Int) < 0)) ['-'] := by
      rw [decide_eq_true (by decide)]
      exact .minus
    have hmk := @Writes.mk ['\uFEFF', ' '] ['-'] "x7".toList (-12) 2 hpadding hsign
      (Numeral.noneNext_of_head rfl)
    rw [hrun] at hmk
    exact hmk hten
  obtain ⟨hread, hwhole⟩ := integer_longest "\uFEFF -0012x7"
  obtain ⟨x, ds, rest, hx, htext, hend, -, hnear, -⟩ := hread true _ hopens hten
  obtain ⟨hcompiled, hrules⟩ := hwhole (-12) (by decide) hwrites
  have hscan := Digit.scan_append ds hend
  rw [← htext] at hscan
  have hds : ds = [0, 0, 1, 2] := (congrArg Prod.fst hscan).symm
  subst hds
  refine ⟨hopens, ⟨x, hx, hnear (by decide)⟩, hwrites, ?_⟩
  have hget := hrules _ _ (Rule.decidesIn_singleton ⟨"a", .integer, "\uFEFF -0012x7", .lt, none⟩) rfl
  simp only [Rule.contentWith, hcompiled] at hget
  exact hget

end TypedNumber

end QueryForm
