/-
Integers typed in base sixteen, against the same integers in base ten.

What a text is read as is decided by its sign and by what the text goes on
with after it (`Opens.integer_eq`). Decimal digits are rounded once
(`integer_text`), digits in base sixteen at every one (`integer_hex`). The two
part only at ties: where the first digits are halfway between two doubles and
the even one is below them, the later ones are lost.
-/
import Mathlib.Data.List.TakeWhile
import QueryForm.Proofs.Double.Hexadecimal
import QueryForm.Proofs.Value.Prefix

namespace QueryForm

/-- Digits in base sixteen are written in either case. -/
def HexSpells (ds : List (Fin 16)) (cs : List Char) : Prop :=
  cs.map hexDigit? = ds.map some

instance (ds : List (Fin 16)) (cs : List Char) : Decidable (HexSpells ds cs) :=
  inferInstanceAs (Decidable (_ = _))

theorem scanHex_append {ds : List (Fin 16)} {cs rest : List Char} (h : HexSpells ds cs)
    (hrest : ∀ c ∈ rest.head?, hexDigit? c = none) : scanHex (cs ++ rest) = ds := by
  induction cs generalizing ds with
  | nil =>
    have hds : ds = [] := List.map_eq_nil_iff.1 h.symm
    subst hds
    cases rest with
    | nil => rfl
    | cons c cs => simp [scanHex, hrest c rfl]
  | cons c cs ih =>
    cases ds with
    | nil => cases h
    | cons d ds =>
      obtain ⟨hc, hcs⟩ := List.cons.inj h
      simp only [List.cons_append, scanHex, hc, ih hcs]

namespace TypedNumber

open Numeral (SignSpells)
open Double (TieDown)

/-- A text begins with an integer in base sixteen, its padding apart. -/
inductive StartsHex : Bool → List (Fin 16) → List Char → Prop
  | mk {padding signs digits rest : List Char} {negative letter ds} :
      (∀ c ∈ padding, Text.isPadding c = true) → SignSpells negative signs →
      letter = 'x' ∨ letter = 'X' → ds ≠ [] → HexSpells ds digits →
      (∀ c ∈ rest.head?, hexDigit? c = none) →
      StartsHex negative ds (padding ++ (signs ++ '0' :: letter :: (digits ++ rest)))

/-! ## Sizes -/

theorem hex?_some {ds : List (Fin 16)} (h : ds ≠ []) :
    magnitude?.hex? ds = some (Double.ofHexDigits ds) := by
  cases ds with
  | nil => exact absurd rfl h
  | cons d ds => rfl

theorem magnitude?_hex {letter : Char} (h : letter = 'x' ∨ letter = 'X') (cs : List Char) :
    magnitude? ('0' :: letter :: cs) = magnitude?.hex? (scanHex cs) := by
  obtain rfl | rfl := h <;> rw [magnitude?]

/-- A text without a sign begins with the prefix of base sixteen. -/
def HexPrefix (cs : List Char) : Prop :=
  ∃ letter rest, (letter = 'x' ∨ letter = 'X') ∧ cs = '0' :: letter :: rest

theorem toDouble_whole (negative : Bool) (n : Nat) :
    Decimal.toDouble ⟨negative, n, 0⟩ = Double.ofNat negative n := by
  rw [Decimal.toDouble_eq]
  exact congrArg (Double.ofRatio negative · 1) (Nat.mul_one n)

/-- Decimal digits are rounded once, all that there are. -/
theorem magnitude?_digits {ds : List Digit} {rest : List Char} (h : Digit.NoneNext rest)
    (hten : ¬ HexPrefix (ds.map Digit.char ++ rest)) :
    magnitude? (ds.map Digit.char ++ rest) =
      if ds = [] then none else some (Double.ofNat false (Digit.value ds)) := by
  have hscan := Digit.scan_append ds h
  unfold magnitude?
  split
  · next heq => exact absurd ⟨'x', _, .inl rfl, heq⟩ hten
  · next heq => exact absurd ⟨'X', _, .inr rfl, heq⟩ hten
  · rw [hscan]
    cases ds with
    | nil => rfl
    | cons d ds => rw [if_neg (List.cons_ne_nil d ds), ← toDouble_whole]

theorem magnitude?_text (run : DigitRun) :
    magnitude? run.text = some (Double.ofNat false run.value) := by
  have hletter : ∀ d : Digit, d.char ≠ 'x' ∧ d.char ≠ 'X' := by decide
  have hten : ¬ HexPrefix (run.digits.map Digit.char ++ []) := by
    rintro ⟨letter, rest, hx, heq⟩
    have hmem : letter ∈ run.digits.map Digit.char ++ [] := by simp [heq]
    obtain ⟨d, -, rfl⟩ := List.mem_map.1 (by simpa using hmem)
    exact hx.elim (hletter d).1 (hletter d).2
  have hsome : run.digits ≠ [] := List.cons_ne_nil _ _
  have hread := magnitude?_digits (by simp [Digit.NoneNext]) hten
  rwa [List.append_nil, if_neg hsome] at hread

/-! ## Texts -/

theorem neg_ofGrid {n : Nat} (h : Double.spacing n ∣ n) :
    (Double.ofGrid false n h).neg = Double.ofGrid true n h := by
  rcases Nat.lt_or_ge n Double.limit with hlt | hge
  · rw [Double.ofGrid_of_lt _ h hlt, Double.ofGrid_of_lt _ h hlt]
    rfl
  · rw [Double.ofGrid_of_le _ h hge, Double.ofGrid_of_le _ h hge]
    rfl

theorem signed_ofNat (negative : Bool) (n : Nat) :
    signed negative (Double.ofNat false n) = Double.ofNat negative n := by
  cases negative with
  | false => rw [signed, if_neg Bool.false_ne_true]
  | true =>
    rw [signed, if_pos rfl, Double.ofNat, Double.ofNat, Double.ofRatio, Double.ofRatio]
    exact neg_ofGrid _

/-- After its padding, as far as that goes, and a sign where there is one, a text goes on with
`cs`. -/
inductive Opens : Bool → List Char → List Char → Prop
  | mk {padding signs cs : List Char} {negative} :
      (∀ c ∈ padding, Text.isPadding c = true) → SignSpells negative signs →
      (signs = [] → ∀ c ∈ cs.head?, Text.isPadding c = false ∧ c ≠ '-' ∧ c ≠ '+') →
      Opens negative cs (padding ++ (signs ++ cs))

theorem Opens.sign_skip {negative : Bool} {cs raw : List Char} (h : Opens negative cs raw) :
    sign (skip raw) = (negative, cs) := by
  obtain ⟨hpadding, hsigns, hcs⟩ := h
  cases hsigns with
  | minus | plus => rw [skip_append hpadding] <;> simp [sign, Text.isPadding, Text.isBlank]
  | none =>
    have hhead := hcs rfl
    rw [List.nil_append, skip_append hpadding fun c hc => (hhead c hc).1]
    exact sign_spells .none fun c hc => (hhead c hc).2

theorem no_sign_of_sign_eq {cs : List Char} (h : (sign cs).2 = cs) :
    ∀ c ∈ cs.head?, c ≠ '-' ∧ c ≠ '+' := by
  unfold sign at h
  split at h
  · exact absurd h.symm (List.cons_ne_self _ _)
  · exact absurd h.symm (List.cons_ne_self _ _)
  · next hminus hplus =>
    cases cs with
    | nil => simp
    | cons c cs =>
      rintro _ ⟨⟩
      exact ⟨fun e => hminus cs (by rw [e]), fun e => hplus cs (by rw [e])⟩

/-- Every text goes on with what is left of it after its padding and its sign. -/
theorem opens (raw : List Char) : Opens (sign (skip raw)).1 (sign (skip raw)).2 raw := by
  have hraw : raw.takeWhile Text.isPadding ++ skip raw = raw := List.takeWhile_append_dropWhile
  have hhead : ∀ c ∈ (skip raw).head?, Text.isPadding c = false := by
    intro c hc
    have hnot := List.head?_dropWhile_not Text.isPadding raw
    rw [skip] at hc
    rw [hc] at hnot
    exact hnot
  obtain ⟨signs, hsigns, hcs⟩ := sign_sound (skip raw)
  have hopens : Opens (sign (skip raw)).1 (sign (skip raw)).2
      (raw.takeWhile Text.isPadding ++ (signs ++ (sign (skip raw)).2)) := by
    refine .mk (fun c hc => List.mem_takeWhile_imp hc) hsigns fun hnone => ?_
    rw [hnone, List.nil_append] at hcs
    rw [← hcs]
    exact fun c hc => ⟨hhead c hc, no_sign_of_sign_eq hcs.symm c hc⟩
  rwa [← hcs, hraw] at hopens

/-- What a text is read as, by what it goes on with. -/
theorem Opens.integer_eq {negative : Bool} {cs raw : List Char} (h : Opens negative cs raw) :
    integer raw = ((magnitude? cs).map (signed negative)).getD .nan := by
  simp only [integer, h.sign_skip]
  cases magnitude? cs <;> rfl

/-- Before a digit any padding ends, and the sign may be left out. -/
theorem Opens.of_digit {padding signs cs : List Char} {negative : Bool}
    (hpadding : ∀ c ∈ padding, Text.isPadding c = true) (hsigns : SignSpells negative signs)
    (hhead : ∃ d : Digit, cs.head? = some d.char) :
    Opens negative cs (padding ++ (signs ++ cs)) := by
  have hdigit : ∀ d : Digit, Text.isPadding d.char = false ∧ d.char ≠ '-' ∧ d.char ≠ '+' := by
    decide
  obtain ⟨d, hd⟩ := hhead
  exact .mk hpadding hsigns fun _ => by simpa [hd] using hdigit d

theorem integer_of_magnitude? {padding signs cs : List Char} {negative : Bool} {x : Double}
    (hpadding : ∀ c ∈ padding, Text.isPadding c = true) (hsigns : SignSpells negative signs)
    (hhead : ∃ d : Digit, cs.head? = some d.char) (h : magnitude? cs = some x) :
    integer (padding ++ (signs ++ cs)) = signed negative x := by
  rw [(Opens.of_digit hpadding hsigns hhead).integer_eq, h]
  rfl

/-- An integer in base ten is read as the double nearest to it. -/
theorem integer_text (negative : Bool) (n : Nat) :
    integer (Numeral.ofInteger negative n).text = Double.ofNat negative n := by
  obtain ⟨signs, hsigns, htext⟩ : ∃ signs, SignSpells negative signs ∧
      (Numeral.ofInteger negative n).text = [] ++ (signs ++ (DigitRun.ofNat n).text) := by
    rw [Numeral.ofInteger, Numeral.text, Numeral.fractionText, Numeral.exponentText,
      List.append_nil, List.append_nil]
    cases negative with
    | true => exact ⟨['-'], .minus, rfl⟩
    | false => exact ⟨[], .none, rfl⟩
  rw [htext, integer_of_magnitude? (by simp) hsigns ⟨_, rfl⟩ (magnitude?_text _), signed_ofNat,
    DigitRun.value_ofNat]

/-- An integer in base sixteen is read as its digits are rounded in. -/
theorem integer_hex {negative : Bool} {ds : List (Fin 16)} {cs : List Char}
    (h : StartsHex negative ds cs) : integer cs = signed negative (Double.ofHexDigits ds) := by
  obtain ⟨hpadding, hsigns, hletter, hds, hdigits, hrest⟩ := h
  refine integer_of_magnitude? hpadding hsigns ⟨0, rfl⟩ ?_
  rw [magnitude?_hex hletter, scanHex_append hdigits hrest, hex?_some hds]

/-- **Base sixteen and base ten.** An integer in base ten is read as the double nearest to it. In
base sixteen only the digits up to the one that takes the number to `2 ^ 53` count, so the result is
the nearest double, and that of base ten, but where the digits kept are halfway between two doubles
with the even one below, a digit that is dropped is not zero, and the result is not infinite. -/
theorem integer_hex_nearest_iff {raw : String} {negative : Bool} {ds : List (Fin 16)}
    (h : StartsHex negative ds raw.toList) :
    ∃ x y, Value.convert .integer raw = .number x ∧
      Value.convert .integer (String.ofList (Numeral.ofInteger negative (hexValue ds)).text) =
        .number y ∧
      y.Nearest negative (hexValue ds) 1 ∧
      ∃ kept dropped, ds = kept ++ dropped ∧ Kept kept dropped ∧
        x.Nearest negative (hexValue kept * Nat.pow 16 dropped.length) 1 ∧
        (x.Nearest negative (hexValue ds) 1 ↔
          (TieDown (hexValue kept) ∧ hexValue dropped ≠ 0 → x = .infinite negative)) ∧
        (x = y ↔
          (TieDown (hexValue kept) ∧ hexValue dropped ≠ 0 → x = .infinite negative)) := by
  obtain ⟨kept, dropped, hds, hkept⟩ := exists_kept ds
  have hx : integer raw.toList =
      .ofNat negative (hexValue kept * Nat.pow 16 dropped.length) := by
    rw [integer_hex h, hds, Double.ofHexDigits_kept hkept, signed_ofNat]
  have hiff := Double.ofNat_kept_iff hkept negative
  rw [← hds] at hiff
  refine ⟨_, _, rfl, rfl, ?_, kept, dropped, hds, hkept, ?_, ?_, ?_⟩
  · rw [String.toList_ofList, integer_text]
    exact (Double.nearest_iff Nat.one_pos).2 rfl
  · rw [hx]
    exact (Double.nearest_iff Nat.one_pos).2 rfl
  · rw [hx]
    exact (Double.nearest_iff Nat.one_pos).trans hiff
  · rw [hx, String.toList_ofList, integer_text]
    exact hiff

/-- A tie that goes up: the last digit is dropped, and is not missed. -/
theorem integer_hex_nearest_iff_up :
    StartsHex true [2, 0, 0, 0, 0, 0, 0, 0, 0, 0, 0, 0, 0, 3, 1] "\t-0X200000000000031kg".toList ∧
      ∃ x, Value.convert .integer "\t-0X200000000000031kg" = .number x ∧
        x.Nearest true 144115188075855921 1 := by
  have hpadding : ∀ c ∈ ['\t'], Text.isPadding c = true := List.all_eq_true.1 rfl
  have hdigits : HexSpells [2, 0, 0, 0, 0, 0, 0, 0, 0, 0, 0, 0, 0, 3, 1]
      "200000000000031".toList := by decide
  have hrest : ∀ c ∈ "kg".toList.head?, hexDigit? c = none := by
    rintro _ ⟨⟩
    rfl
  have hstarts : StartsHex true [2, 0, 0, 0, 0, 0, 0, 0, 0, 0, 0, 0, 0, 3, 1]
      "\t-0X200000000000031kg".toList :=
    .mk hpadding .minus (.inr rfl) (by decide) hdigits hrest
  obtain ⟨x, y, hx, -, -, kept, dropped, hds, hkept, -, hiff, -⟩ :=
    integer_hex_nearest_iff hstarts
  have hup : Kept [2, 0, 0, 0, 0, 0, 0, 0, 0, 0, 0, 0, 0, 3] [1] := ⟨by decide, fun _ => by decide⟩
  obtain ⟨rfl, rfl⟩ := hkept.unique hup hds.symm
  exact ⟨hstarts, x, hx, hiff.2 fun h => absurd h.1 (by decide)⟩

/-- A tie that goes down: the last digit is dropped, and is missed. -/
theorem integer_hex_tie :
    ∃ x y, Value.convert .integer "0x200000000000011" = .number x ∧
      Value.convert .integer "144115188075855889" = .number y ∧
      hexValue [2, 0, 0, 0, 0, 0, 0, 0, 0, 0, 0, 0, 0, 1, 1] = 144115188075855889 ∧
      y.Nearest false 144115188075855889 1 ∧ ¬ x.Nearest false 144115188075855889 1 ∧ x ≠ y := by
  refine ⟨_, _, rfl, rfl, by decide, ?_, ?_, ?_⟩
  · rw [Double.nearest_iff Nat.one_pos]
    decide +kernel
  · rw [Double.nearest_iff Nat.one_pos]
    decide +kernel
  · decide +kernel

end TypedNumber
end QueryForm
