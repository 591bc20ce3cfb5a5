/-
The decimal at the start of a typed text is the longest one there.

A decimal is typed with a sign or without, in digits with a point after,
before or between some of them, and with an exponent or without
(`DecimalSpells`). What is left of a text when it has been read
(`afterDecimal`) is what the reader stopped at: the part before it spells
the decimal that was read (`decimal?_sound`), and no spelling leaves less
(`decimal?_continued`).
-/
import QueryForm.Proofs.Double.Nearest
import QueryForm.Proofs.Json.Numeral
import QueryForm.Value.Basic

namespace QueryForm.TypedNumber

open Numeral (SignSpells ExponentSpells)

/-! ## Spellings -/

/-- Digits before and after a point, one at least; without a point none are after it. -/
inductive DigitsSpell : List Digit → List Digit → List Char → Prop
  | whole {ds} : ds ≠ [] → DigitsSpell ds [] (ds.map Digit.char)
  | point {ds part} : ds ≠ [] ∨ part ≠ [] →
      DigitsSpell ds part (ds.map Digit.char ++ '.' :: part.map Digit.char)

/-- The power of ten that an exponent names; without one it is zero. -/
def powerOf : Option (Bool × DigitRun) → Int
  | none => 0
  | some (negative, run) => if negative then -(run.value : Int) else run.value

/-- A text spells a decimal. -/
inductive DecimalSpells : Decimal → List Char → Prop
  | mk {negative signs whole part digits exp power} : SignSpells negative signs →
      DigitsSpell whole part digits → ExponentSpells exp power →
      DecimalSpells ⟨negative, Digit.value (whole ++ part), powerOf exp - part.length⟩
        (signs ++ (digits ++ power))

/-- A prefix of a text spells a decimal, and no longer prefix spells any. -/
structure LongestDecimal (p : List Char) (d : Decimal) (cs : List Char) : Prop where
  isPrefix : p <+: cs
  spells : DecimalSpells d p
  longest : ∀ q e, q <+: cs → DecimalSpells e q → q.length ≤ p.length

/-- A text begins with the word for infinity, a sign in front of it apart. -/
def StartsInfinite (negative : Bool) (cs : List Char) : Prop :=
  ∃ signs rest, SignSpells negative signs ∧ cs = signs ++ (infinityWord ++ rest)

/-! ## What a reader leaves -/

/-- The text after the sign and the digits of an exponent, or all of it where there are none. -/
def afterPower (letter : Char) (cs : List Char) : List Char :=
  match Digit.scan (sign cs).2 with
  | ([], _) => letter :: cs
  | (_ :: _, rest) => rest

/-- The text after an exponent, if there is one. -/
def afterExponent : List Char → List Char
  | 'e' :: cs => afterPower 'e' cs
  | 'E' :: cs => afterPower 'E' cs
  | cs => cs

/-- The text after a decimal without a sign. -/
def afterDecimal (cs : List Char) : List Char :=
  afterExponent (fraction (Digit.scan cs).1 (Digit.scan cs).2).2

/-! ## Signs -/

/-- What a decimal begins with after its sign is neither padding nor a sign nor the word for
infinity. -/
theorem digits_head {whole part : List Digit} {digits : List Char}
    (h : DigitsSpell whole part digits) : ∃ c cs, digits = c :: cs ∧
      Text.isPadding c = false ∧ c ≠ '-' ∧ c ≠ '+' ∧ c ≠ 'I' := by
  have digit : ∀ d : Digit, Text.isPadding d.char = false ∧ d.char ≠ '-' ∧ d.char ≠ '+' ∧
      d.char ≠ 'I' := by decide
  cases h with
  | whole hds =>
    obtain ⟨d, ds, rfl⟩ := List.exists_cons_of_ne_nil hds
    exact ⟨_, _, rfl, digit d⟩
  | point =>
    cases whole with
    | nil => exact ⟨_, _, rfl, by decide⟩
    | cons d ds => exact ⟨_, _, rfl, digit d⟩

theorem sign_sound (cs : List Char) :
    ∃ signs, SignSpells (sign cs).1 signs ∧ cs = signs ++ (sign cs).2 := by
  unfold sign
  split
  · exact ⟨['-'], .minus, rfl⟩
  · exact ⟨['+'], .plus, rfl⟩
  · exact ⟨[], .none, rfl⟩

theorem sign_spells {negative : Bool} {signs cs : List Char} (h : SignSpells negative signs)
    (hcs : ∀ c ∈ cs.head?, c ≠ '-' ∧ c ≠ '+') : sign (signs ++ cs) = (negative, cs) := by
  cases h with
  | minus | plus => rfl
  | none =>
    rw [List.nil_append]
    unfold sign
    split
    · exact absurd rfl (hcs _ rfl).1
    · exact absurd rfl (hcs _ rfl).2
    · rfl

theorem no_sign {whole part : List Digit} {digits : List Char}
    (h : DigitsSpell whole part digits) (cs : List Char) :
    ∀ c ∈ (digits ++ cs).head?, c ≠ '-' ∧ c ≠ '+' := by
  obtain ⟨c, rest, rfl, -, hminus, hplus, -⟩ := digits_head h
  simpa using And.intro hminus hplus

/-- Padding does not begin with a sign, so a sign in front of what is no padding is none either. -/
theorem sign_head {negative : Bool} {signs cs : List Char} (h : SignSpells negative signs)
    (hcs : ∀ c ∈ cs.head?, Text.isPadding c = false) :
    ∀ c ∈ (signs ++ cs).head?, Text.isPadding c = false := by
  cases h with
  | minus | plus =>
    simp only [List.cons_append, List.head?_cons, Option.mem_some_iff, forall_eq']
    rfl
  | none => exact hcs

/-! ## Exponents -/

theorem scan_length_le (cs : List Char) : (Digit.scan cs).2.length ≤ cs.length := by
  have := congrArg List.length (Digit.scan_text cs)
  simp only [List.length_append] at this
  omega

theorem afterPower_length_le (letter : Char) (cs : List Char) :
    (afterPower letter cs).length ≤ cs.length + 1 := by
  obtain ⟨signs, -, hcs⟩ := sign_sound cs
  have hsign := congrArg List.length hcs
  have hscan := scan_length_le (sign cs).2
  rw [List.length_append] at hsign
  unfold afterPower
  split
  · simp
  · next h =>
    rw [h] at hscan
    simp only at hscan
    omega

theorem afterExponent_length_le (cs : List Char) : (afterExponent cs).length ≤ cs.length := by
  unfold afterExponent
  split
  · exact afterPower_length_le _ _
  · exact afterPower_length_le _ _
  · exact Nat.le_refl _

theorem power_sound (letter : Char) (cs : List Char) :
    (afterPower letter cs = letter :: cs ∧ power cs = 0) ∨
      ∃ negative signs run, SignSpells negative signs ∧
        cs = signs ++ (run.text ++ afterPower letter cs) ∧
        power cs = powerOf (some (negative, run)) := by
  obtain ⟨signs, hsigns, hcs⟩ := sign_sound cs
  have htext := Digit.scan_text (sign cs).2
  unfold afterPower
  split
  · next h =>
    refine .inl ⟨rfl, ?_⟩
    simp [power, h, Digit.value]
  · next d ds rest h =>
    refine .inr ⟨_, signs, ⟨d, ds⟩, hsigns, ?_, ?_⟩
    · rw [h] at htext
      rw [DigitRun.text, DigitRun.digits, htext]
      exact hcs
    · simp only [power, h, powerOf]
      rfl

theorem exponent_sound (cs : List Char) :
    ∃ exp used, ExponentSpells exp used ∧ cs = used ++ afterExponent cs ∧
      exponent cs = powerOf exp := by
  fun_cases afterExponent cs with
  | case1 cs =>
    obtain ⟨hleft, hpower⟩ | ⟨negative, signs, run, hsigns, hcs, hpower⟩ := power_sound 'e' cs
    · exact ⟨none, [], .none, by rw [hleft]; rfl, hpower⟩
    · refine ⟨some (negative, run), _, .lower hsigns, ?_, hpower⟩
      rw [List.cons_append, List.append_assoc, ← hcs]
  | case2 cs =>
    obtain ⟨hleft, hpower⟩ | ⟨negative, signs, run, hsigns, hcs, hpower⟩ := power_sound 'E' cs
    · exact ⟨none, [], .none, by rw [hleft]; rfl, hpower⟩
    · refine ⟨some (negative, run), _, .upper hsigns, ?_, hpower⟩
      rw [List.cons_append, List.append_assoc, ← hcs]
  | case3 _ hlower hupper =>
    refine ⟨none, [], .none, rfl, ?_⟩
    rw [exponent]
    · rfl
    · exact hlower
    · exact hupper

/-- Digits are read as far as they go, whatever digits come before. -/
theorem scan_more (ds : List Digit) (cs : List Char) :
    Digit.scan (ds.map Digit.char ++ cs) = (ds ++ (Digit.scan cs).1, (Digit.scan cs).2) := by
  induction ds with
  | nil => rfl
  | cons d ds ih => simp [Digit.scan, ih]

theorem afterPower_spells {letter : Char} {negative : Bool} {signs : List Char}
    (h : SignSpells negative signs) (run : DigitRun) (cs : List Char) :
    (afterPower letter (signs ++ (run.text ++ cs))).length ≤ cs.length := by
  have hhead : ∀ c ∈ (run.text ++ cs).head?, c ≠ '-' ∧ c ≠ '+' :=
    no_sign (.whole (List.cons_ne_nil _ _)) cs
  have hscan := scan_more run.digits cs
  rw [afterPower, sign_spells h hhead, DigitRun.text, hscan]
  exact scan_length_le cs

/-- No spelling of an exponent goes beyond what is read of it. -/
theorem afterExponent_spells {exp : Option (Bool × DigitRun)} {used : List Char}
    (h : ExponentSpells exp used) (cs : List Char) :
    (afterExponent (used ++ cs)).length ≤ cs.length := by
  cases h with
  | none => exact afterExponent_length_le cs
  | @lower negative signs run hs =>
    rw [List.cons_append, List.append_assoc]
    exact afterPower_spells hs run cs
  | @upper negative signs run hs =>
    rw [List.cons_append, List.append_assoc]
    exact afterPower_spells hs run cs

/-! ## Digits -/

theorem fraction_sound (whole : List Digit) (cs : List Char) :
    (fraction whole cs = ([], cs)) ∨
      ∃ part rest, fraction whole cs = (part, rest) ∧ (whole ≠ [] ∨ part ≠ []) ∧
        cs = '.' :: (part.map Digit.char ++ rest) := by
  fun_cases fraction whole cs with
  | case1 cs ds rest hscan hempty =>
    exact .inl rfl
  | case2 cs ds rest hscan hsome =>
    refine .inr ⟨ds, rest, rfl, Classical.not_and_iff_not_or_not.1 hsome, ?_⟩
    have := Digit.scan_text cs
    rw [hscan] at this
    rw [this]
  | case3 => exact .inl rfl

/-- What is read as a decimal is spelled by the text before what is left. -/
theorem decimal?_sound {negative : Bool} {cs : List Char} {d : Decimal}
    (h : decimal? negative cs = some d) :
    ∃ whole part digits exp power, DigitsSpell whole part digits ∧ ExponentSpells exp power ∧
      cs = digits ++ (power ++ afterDecimal cs) ∧
      d = ⟨negative, Digit.value (whole ++ part), powerOf exp - part.length⟩ := by
  have htext := Digit.scan_text cs
  simp only [decimal?] at h
  split at h
  · cases h
  next hsome =>
  cases h
  obtain hnone | ⟨part, rest, hpart, hone, hpoint⟩ :=
    fraction_sound (Digit.scan cs).1 (Digit.scan cs).2
  · rw [hnone] at hsome ⊢
    obtain ⟨exp, power, hexp, hpower, hvalue⟩ := exponent_sound (Digit.scan cs).2
    refine ⟨(Digit.scan cs).1, [], _, exp, power, .whole (fun e => hsome ⟨e, rfl⟩), hexp, ?_, ?_⟩
    · rw [afterDecimal, hnone, ← hpower, htext]
    · rw [hvalue]
  · rw [hpart]
    obtain ⟨exp, power, hexp, hpower, hvalue⟩ := exponent_sound rest
    refine ⟨(Digit.scan cs).1, part, _, exp, power, .point hone, hexp, ?_, ?_⟩
    · rw [afterDecimal, hpart, ← hpower, List.append_assoc, List.cons_append, ← hpoint, htext]
    · rw [hvalue]

/-- Digits that nothing makes longer are read as they are spelled. -/
theorem decimal?_digits {whole part : List Digit} {digits cs : List Char}
    (h : DigitsSpell whole part digits) (hdigit : Digit.NoneNext cs)
    (hpoint : ∀ c ∈ cs.head?, c ≠ '.') (negative : Bool) :
    decimal? negative (digits ++ cs) =
        some ⟨negative, Digit.value (whole ++ part), exponent cs - part.length⟩ ∧
      afterDecimal (digits ++ cs) = afterExponent cs := by
  have hscan : ∀ ds : List Digit, Digit.scan (ds.map Digit.char ++ cs) = (ds, cs) :=
    fun ds => Digit.scan_append ds hdigit
  cases h with
  | whole hds =>
    have hfraction : fraction whole cs = ([], cs) := by
      rw [fraction]
      intro rest hrest
      exact hpoint '.' (by rw [hrest]; rfl) rfl
    simp [decimal?, afterDecimal, hscan, hfraction, hds]
  | point hone =>
    have hwhole : Digit.scan (whole.map Digit.char ++ '.' :: (part.map Digit.char ++ cs)) =
        (whole, '.' :: (part.map Digit.char ++ cs)) :=
      Digit.scan_append whole (Numeral.noneNext_of_head rfl)
    have hempty : ¬ (whole = [] ∧ part = []) := Classical.not_and_iff_not_or_not.2 hone
    have hfraction : fraction whole ('.' :: (part.map Digit.char ++ cs)) = (part, cs) := by
      simp only [fraction, hscan, if_neg hempty]
    simp only [decimal?, afterDecimal, List.append_assoc, List.cons_append, hwhole, hfraction,
      if_neg hempty, and_self]

/-- No spelling of digits goes beyond what is read of them. -/
theorem decimal?_prefix {whole part : List Digit} {digits : List Char}
    (h : DigitsSpell whole part digits) (cs : List Char) (negative : Bool) :
    (decimal? negative (digits ++ cs)).isSome ∧
      (afterDecimal (digits ++ cs)).length ≤ cs.length := by
  have hle := scan_length_le cs
  cases h with
  | whole hds =>
    have hwhole := scan_more whole cs
    have hmore : whole ++ (Digit.scan cs).1 ≠ [] := by simp [hds]
    obtain hnone | ⟨part, rest, hpart, -, hpoint⟩ :=
      fraction_sound (whole ++ (Digit.scan cs).1) (Digit.scan cs).2
    · refine ⟨by simp [decimal?, hwhole, hmore], ?_⟩
      rw [afterDecimal, hwhole, hnone]
      exact Nat.le_trans (afterExponent_length_le _) hle
    · refine ⟨by simp [decimal?, hwhole, hmore], ?_⟩
      rw [afterDecimal, hwhole, hpart]
      have hlength := congrArg List.length hpoint
      simp only [List.length_cons, List.length_append] at hlength
      have := afterExponent_length_le rest
      simp only
      omega
  | point hone =>
    have hwhole : Digit.scan (whole.map Digit.char ++ '.' :: (part.map Digit.char ++ cs)) =
        (whole, '.' :: (part.map Digit.char ++ cs)) :=
      Digit.scan_append whole (Numeral.noneNext_of_head rfl)
    have hempty : ¬ (whole = [] ∧ part ++ (Digit.scan cs).1 = []) := by
      simp only [List.append_eq_nil_iff]
      tauto
    have hfraction : fraction whole ('.' :: (part.map Digit.char ++ cs)) =
        (part ++ (Digit.scan cs).1, (Digit.scan cs).2) := by
      simp only [fraction, scan_more, if_neg hempty]
    simp only [decimal?, afterDecimal, List.append_assoc, List.cons_append, hwhole, hfraction,
      if_neg hempty]
    exact ⟨rfl, Nat.le_trans (afterExponent_length_le _) hle⟩

theorem decimal?_continued {whole part : List Digit} {exp : Option (Bool × DigitRun)}
    {digits power : List Char} (hd : DigitsSpell whole part digits) (hp : ExponentSpells exp power)
    (cs : List Char) (negative : Bool) :
    (decimal? negative (digits ++ (power ++ cs))).isSome ∧
      (afterDecimal (digits ++ (power ++ cs))).length ≤ cs.length := by
  have hused := afterExponent_spells hp cs
  have letter : ∀ {c : Char} {rest : List Char}, Digit.ofChar? c = none → c ≠ '.' →
      power = c :: rest → (decimal? negative (digits ++ (power ++ cs))).isSome ∧
        (afterDecimal (digits ++ (power ++ cs))).length ≤ cs.length := by
    intro c rest hc hpoint hpower
    have hdigit : Digit.NoneNext (power ++ cs) := by
      rw [hpower]
      exact Numeral.noneNext_of_head hc
    have hhead : ∀ c ∈ (power ++ cs).head?, c ≠ '.' := by
      rw [hpower]
      simpa using hpoint
    obtain ⟨hread, hafter⟩ := decimal?_digits hd hdigit hhead negative
    rw [hread, hafter]
    exact ⟨rfl, hused⟩
  cases hp with
  | none => exact decimal?_prefix hd cs negative
  | lower => exact letter rfl (by decide) rfl
  | upper => exact letter rfl (by decide) rfl

/-! ## Decimals -/

theorem DecimalSpells.sign_eq {d : Decimal} {p : List Char} (h : DecimalSpells d p)
    (rest : List Char) : ∃ whole part digits exp power,
      sign (p ++ rest) = (d.negative, digits ++ (power ++ rest)) ∧
      DigitsSpell whole part digits ∧ ExponentSpells exp power ∧
      d = ⟨d.negative, Digit.value (whole ++ part), powerOf exp - part.length⟩ := by
  cases h with
  | @mk negative signs whole part digits exp power hsigns hdigits hexp =>
    refine ⟨whole, part, digits, exp, power, ?_, hdigits, hexp, rfl⟩
    rw [List.append_assoc, List.append_assoc]
    exact sign_spells hsigns (no_sign hdigits _)

/-- **The longest decimal is read.** Where a decimal is read, a prefix spells it and no longer one
spells any; where none is, no prefix does. -/
theorem decimal?_longest (cs : List Char) :
    (∃ p d, decimal? (sign cs).1 (sign cs).2 = some d ∧ LongestDecimal p d cs) ∨
      decimal? (sign cs).1 (sign cs).2 = none ∧ ∀ q e, q <+: cs → ¬ DecimalSpells e q := by
  obtain ⟨signs, hsigns, hcs⟩ := sign_sound cs
  -- A prefix that spells a decimal has the sign that is read, and its digits are read at least.
  have hleading : ∀ q e, q <+: cs → DecimalSpells e q →
      (decimal? (sign cs).1 (sign cs).2).isSome ∧
        (afterDecimal (sign cs).2).length + q.length ≤ cs.length := by
    intro q e hq he
    obtain ⟨rest, rfl⟩ := hq
    obtain ⟨whole, part, digits, exp, power, hsign, hdigits, hexp, -⟩ := he.sign_eq rest
    obtain ⟨hsome, hle⟩ := decimal?_continued hdigits hexp rest (sign (q ++ rest)).1
    rw [hsign] at hsome ⊢
    rw [List.length_append]
    exact ⟨hsome, by simp only; omega⟩
  cases hread : decimal? (sign cs).1 (sign cs).2 with
  | none =>
    refine .inr ⟨rfl, fun q e hq he => ?_⟩
    have := (hleading q e hq he).1
    rw [hread] at this
    cases this
  | some d =>
    obtain ⟨whole, part, digits, exp, power, hdigits, hexp, htext, rfl⟩ := decimal?_sound hread
    rw [htext, ← List.append_assoc digits, ← List.append_assoc signs] at hcs
    refine .inl ⟨_, _, rfl, ⟨_, hcs.symm⟩, .mk hsigns hdigits hexp, fun q e hq he => ?_⟩
    have hle := (hleading q e hq he).2
    have hlength := congrArg List.length hcs
    rw [List.length_append] at hlength
    omega

theorem exponent_spelled {exp : Option (Bool × DigitRun)} {power : List Char}
    (h : ExponentSpells exp power) : exponent power = powerOf exp := by
  obtain ⟨other, used, hused, htext, hvalue⟩ := exponent_sound power
  have hleft : afterExponent power = [] := by
    have := afterExponent_spells h []
    rw [List.append_nil] at this
    exact List.eq_nil_of_length_eq_zero (Nat.le_zero.1 this)
  rw [hleft, List.append_nil] at htext
  subst htext
  have hread := Numeral.scanExponent?_spells h Numeral.Stops.nil
  rw [Numeral.scanExponent?_spells hused Numeral.Stops.nil] at hread
  cases hread
  exact hvalue

/-- A spelling is read on its own as the decimal that it spells. -/
theorem DecimalSpells.decimal?_eq {d : Decimal} {p : List Char} (h : DecimalSpells d p) :
    decimal? (sign p).1 (sign p).2 = some d := by
  obtain ⟨whole, part, digits, exp, power, hsign, hdigits, hexp, hd⟩ := h.sign_eq []
  obtain ⟨hnext, hpoint⟩ := Numeral.noneNext_exponent hexp Numeral.Stops.nil
  rw [List.append_nil] at hnext hpoint
  rw [List.append_nil, List.append_nil] at hsign
  rw [hsign, (decimal?_digits hdigits hnext hpoint d.negative).1, exponent_spelled hexp, ← hd]

/-- There is one longest decimal at the start of a text. -/
theorem LongestDecimal.unique {p q cs : List Char} {d e : Decimal} (hp : LongestDecimal p d cs)
    (hq : LongestDecimal q e cs) : d = e := by
  have hlength : p.length = q.length :=
    Nat.le_antisymm (hq.longest p d hp.isPrefix hp.spells) (hp.longest q e hq.isPrefix hq.spells)
  have hpq : p = q := (List.prefix_of_prefix_length_le hp.isPrefix hq.isPrefix
    (Nat.le_of_eq hlength)).eq_of_length hlength
  subst hpq
  exact Option.some.inj (hp.spells.decimal?_eq.symm.trans hq.spells.decimal?_eq)

/-! ## Texts -/

theorem skip_append {padding cs : List Char} (hpadding : ∀ c ∈ padding, Text.isPadding c = true)
    (hcs : ∀ c ∈ cs.head?, Text.isPadding c = false) : skip (padding ++ cs) = cs := by
  rw [skip, List.dropWhile_append_of_pos hpadding]
  cases cs with
  | nil => rfl
  | cons c cs => exact List.dropWhile_cons_of_neg (by simp [hcs c rfl])

theorem isPrefixOf_infinityWord {cs : List Char} :
    infinityWord.isPrefixOf (sign cs).2 = true ↔ StartsInfinite (sign cs).1 cs := by
  obtain ⟨signs, hsigns, hcs⟩ := sign_sound cs
  rw [List.isPrefixOf_iff_prefix]
  constructor
  · intro h
    obtain ⟨rest, hrest⟩ := h
    exact ⟨signs, rest, hsigns, by rw [hrest]; exact hcs⟩
  · intro h
    obtain ⟨others, rest, hothers, hcs⟩ := h
    have hword : ∀ c ∈ (infinityWord ++ rest).head?, c ≠ '-' ∧ c ≠ '+' := by simp [infinityWord]
    have hsign := sign_spells hothers hword
    rw [← hcs] at hsign
    exact ⟨rest, by rw [hsign]⟩

theorem StartsInfinite.negative_eq {negative : Bool} {cs : List Char}
    (h : StartsInfinite negative cs) : (sign cs).1 = negative := by
  obtain ⟨signs, rest, hsigns, rfl⟩ := h
  rw [sign_spells hsigns (by simp [infinityWord])]

theorem not_nearestTo_nan (d : Decimal) : ¬ Double.nan.NearestTo d := by
  intro h
  obtain ⟨g, hg, hx⟩ := h
  rw [Double.ofGrid] at hx
  split at hx <;> cases hx

/-- What a text without the word for infinity is read as. -/
theorem float_of_finite {padding cs : List Char}
    (hpadding : ∀ c ∈ padding, Text.isPadding c = true)
    (hcs : ∀ c ∈ cs.head?, Text.isPadding c = false)
    (hfinite : ∀ negative, ¬ StartsInfinite negative cs) :
    float (padding ++ cs) = ((decimal? (sign cs).1 (sign cs).2).map Decimal.toDouble).getD .nan := by
  have hword := mt isPrefixOf_infinityWord.1 (hfinite _)
  simp only [float, skip_append hpadding hcs, if_neg hword]
  cases decimal? (sign cs).1 (sign cs).2 <;> rfl

theorem float_of_infinite {padding cs : List Char}
    (hpadding : ∀ c ∈ padding, Text.isPadding c = true)
    (hcs : ∀ c ∈ cs.head?, Text.isPadding c = false) {negative : Bool}
    (h : StartsInfinite negative cs) : float (padding ++ cs) = .infinite negative := by
  have hsign := h.negative_eq
  have hword := isPrefixOf_infinityWord.2 (hsign ▸ h)
  simp only [float, skip_append hpadding hcs, if_pos hword, hsign]

/-- A decimal on its own is read as the double nearest to it. -/
theorem float_of_spells {d : Decimal} {p : List Char} (h : DecimalSpells d p) :
    float p = d.toDouble := by
  have hread := h.decimal?_eq
  cases h with
  | @mk negative signs whole part digits exp power hsigns hdigits hexp =>
    obtain ⟨c, rest, hc, hpadding, -, -, hword⟩ := digits_head hdigits
    have hfirst : ∀ c ∈ (signs ++ (digits ++ power)).head?, Text.isPadding c = false :=
      sign_head hsigns (by simpa [hc] using hpadding)
    have hfinite : ∀ negative, ¬ StartsInfinite negative (signs ++ (digits ++ power)) := by
      intro other h
      have hleading := isPrefixOf_infinityWord.2 (h.negative_eq ▸ h)
      rw [sign_spells hsigns (no_sign hdigits power), hc] at hleading
      simp [infinityWord, List.isPrefixOf, hword.symm] at hleading
    have hfloat := float_of_finite (List.forall_mem_nil _) hfirst hfinite
    rw [List.nil_append, hread] at hfloat
    exact hfloat

/-- **Typed numbers.** A number that may be infinite is read from the start of a text, its padding
apart: infinity where the word for it stands there, and otherwise the double nearest to the longest
decimal, as if that stood alone. It is NaN exactly where no prefix is a decimal. -/
theorem float_longest {raw : String} {padding cs : List Char} (hraw : raw.toList = padding ++ cs)
    (hpadding : ∀ c ∈ padding, Text.isPadding c = true)
    (hcs : ∀ c ∈ cs.head?, Text.isPadding c = false) :
    ∃ x, Value.convert .float raw = .number x ∧
      (∀ negative, StartsInfinite negative cs → x = .infinite negative) ∧
      ((∀ negative, ¬ StartsInfinite negative cs) →
        (x = .nan ↔ ∀ p d, p <+: cs → ¬ DecimalSpells d p) ∧
        (x ≠ .nan → ∃ p d, LongestDecimal p d cs) ∧
        ∀ p d, LongestDecimal p d cs →
          x.NearestTo d ∧ Value.convert .float (String.ofList p) = .number x) := by
  refine ⟨float (padding ++ cs), by rw [Value.convert, hraw], fun negative h => ?_, fun h => ?_⟩
  · exact float_of_infinite hpadding hcs h
  rw [float_of_finite hpadding hcs h]
  obtain ⟨p, d, hread, hlongest⟩ | ⟨hread, hnone⟩ := decimal?_longest cs
  · have hnear : d.toDouble.NearestTo d := Double.nearestTo_iff.2 rfl
    have hnan : d.toDouble ≠ .nan := fun e => not_nearestTo_nan d (e ▸ hnear)
    rw [hread]
    refine ⟨iff_of_false hnan fun hnone => ?_, fun _ => ⟨p, d, hlongest⟩, fun q e hq => ?_⟩
    · exact hnone p d hlongest.isPrefix hlongest.spells
    · rw [← hlongest.unique hq]
      refine ⟨hnear, ?_⟩
      rw [Value.convert, String.toList_ofList, float_of_spells hq.spells, hlongest.unique hq]
      rfl
  · rw [hread]
    refine ⟨iff_of_true rfl fun q e hq he => hnone q e hq he, fun h => absurd rfl h, ?_⟩
    intro q e hq
    exact absurd hq.spells (hnone q e hq.isPrefix)

/-- The exponent that is read is the first one, and padding and letters do not matter. -/
theorem float_longest_twice :
    "\uFEFF -2.5e3e4kg".toList = ['\uFEFF', ' '] ++ "-2.5e3e4kg".toList ∧
      ∃ x, Value.convert .float "\uFEFF -2.5e3e4kg" = .number x ∧ x.NearestTo ⟨true, 25, 2⟩ := by
  have hraw : "\uFEFF -2.5e3e4kg".toList = ['\uFEFF', ' '] ++ "-2.5e3e4kg".toList := by decide
  have hfinite : ∀ negative, ¬ StartsInfinite negative "-2.5e3e4kg".toList := by
    intro negative h
    have hword := isPrefixOf_infinityWord.2 (h.negative_eq ▸ h)
    exact absurd hword (by decide)
  have hpadding : ∀ c ∈ ['\uFEFF', ' '], Text.isPadding c = true := List.all_eq_true.1 rfl
  have hsign : ∀ c ∈ "-2.5e3e4kg".toList.head?, Text.isPadding c = false := by
    rintro _ ⟨⟩
    rfl
  obtain ⟨x, hx, -, hdecimal⟩ := float_longest hraw hpadding hsign
  refine ⟨hraw, x, hx, ?_⟩
  obtain ⟨p, d, hread, hlongest⟩ | ⟨hread, -⟩ := decimal?_longest "-2.5e3e4kg".toList
  · have hd : d = ⟨true, 25, 2⟩ := (Option.some.inj hread).symm
    rw [← hd]
    exact ((hdecimal hfinite).2.2 p d hlongest).1
  · cases hread

end QueryForm.TypedNumber
