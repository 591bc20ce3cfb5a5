/-
Reading numerals: the reader takes from the start of a text what spells a
numeral, and nothing else.

`scan?_spells` needs that nothing follows which would make the numeral
longer (`Stops`); `spells_of_scan?` needs nothing. A numeral's own text is
one of its spellings (`spells_text`).
-/
import QueryForm.Proofs.Json.Grammar
import QueryForm.Proofs.Text.Digits

namespace QueryForm.Numeral

/-! ## What ends a numeral -/

theorem Stops.nil : Stops [] :=
  ⟨by simp [Digit.NoneNext], by simp⟩

/-- A blank, a comma or a closing bracket ends a numeral. -/
theorem Stops.cons {c : Char}
    (h : Tree.isSpace c = true ∨ c = ',' ∨ c = ']' ∨ c = '\x7d') (cs : List Char) :
    Stops (c :: cs) := by
  have hc : Digit.ofChar? c = none ∧ c ≠ '.' ∧ c ≠ 'e' ∧ c ≠ 'E' := by
    simp only [Tree.isSpace, Bool.or_eq_true, beq_iff_eq] at h
    rcases h with (((rfl | rfl) | rfl) | rfl) | rfl | rfl | rfl <;> decide
  exact ⟨noneNext_of_head hc.1, by simpa using hc.2⟩

/-! ## Everything spelled is read -/

theorem scanSign_spells {negative : Bool} {sign : List Char} (h : SignSpells negative sign)
    (run : DigitRun) (rest : List Char) :
    scanSign (sign ++ (run.text ++ rest)) = (negative, run.text ++ rest) := by
  cases h with
  | minus => rfl
  | plus => rfl
  | none =>
    obtain ⟨c, ds, hcs, hc⟩ := run.ofChar?_text rest
    rw [List.nil_append, hcs]
    unfold scanSign
    split
    · simp_all [Digit.ofChar?]
    · simp_all [Digit.ofChar?]
    · rfl

theorem scanPower?_spells {negative : Bool} {sign : List Char} (h : SignSpells negative sign)
    (run : DigitRun) {rest : List Char} (hr : Digit.NoneNext rest) :
    scanPower? (sign ++ (run.text ++ rest)) = some (some (negative, run), rest) := by
  simp only [scanPower?, scanSign_spells h, DigitRun.scan?_text run hr, Option.map_some]

theorem scanExponent?_spells {e : Option (Bool × DigitRun)} {cs rest : List Char}
    (h : ExponentSpells e cs) (hr : Stops rest) : scanExponent? (cs ++ rest) = some (e, rest) := by
  cases h with
  | none =>
    rw [List.nil_append]
    unfold scanExponent?
    split
    · exact absurd rfl (hr.2 _ rfl).2.1
    · exact absurd rfl (hr.2 _ rfl).2.2
    · rfl
  | @lower negative sign run hs =>
    rw [List.cons_append, List.append_assoc]
    exact scanPower?_spells hs run hr.1
  | @upper negative sign run hs =>
    rw [List.cons_append, List.append_assoc]
    exact scanPower?_spells hs run hr.1

/-- Before an exponent, as before what ends a numeral, there is neither a digit nor a point. -/
theorem noneNext_exponent {e : Option (Bool × DigitRun)} {cs rest : List Char}
    (h : ExponentSpells e cs) (hr : Stops rest) :
    Digit.NoneNext (cs ++ rest) ∧ ∀ c ∈ (cs ++ rest).head?, c ≠ '.' := by
  cases h with
  | none => exact ⟨hr.1, fun c hc => (hr.2 c hc).1⟩
  | lower => exact ⟨noneNext_of_head rfl, by simp⟩
  | upper => exact ⟨noneNext_of_head rfl, by simp⟩

theorem scanWhole?_ofNat (whole : Nat) {rest : List Char} (h : Digit.NoneNext rest) :
    scanWhole? ((DigitRun.ofNat whole).text ++ rest) = some (whole, rest) := by
  have hz : ¬ ((DigitRun.ofNat whole).first = 0 ∧ (DigitRun.ofNat whole).rest ≠ []) :=
    fun hz => hz.2 (DigitRun.rest_ofNat hz.1)
  simp [scanWhole?, DigitRun.scan?_text _ h, hz]

/-- **A spelling is read.** Where nothing makes it longer, a spelling of a numeral is read as that
numeral, and what follows is left. -/
theorem scan?_spells {n : Numeral} {cs rest : List Char} (h : Spells n cs) (hr : Stops rest) :
    scan? (cs ++ rest) = some (n, rest) := by
  obtain ⟨negative, whole, fraction, exponent⟩ := n
  obtain ⟨power, hpower, rfl⟩ := h
  have exponentNext := noneNext_exponent hpower hr
  have fractionNext : Digit.NoneNext (fractionText fraction ++ (power ++ rest)) := by
    cases fraction with
    | none => exact exponentNext.1
    | some run => exact noneNext_of_head rfl
  have body : ∀ cs, scanMinus cs = (negative, (DigitRun.ofNat whole).text ++
      (fractionText fraction ++ (power ++ rest))) →
      scan? cs = some (⟨negative, whole, fraction, exponent⟩, rest) := by
    intro cs hcs
    simp [scan?, hcs, scanWhole?_ofNat whole fractionNext,
      scanFraction?_text fraction exponentNext.1 exponentNext.2, scanExponent?_spells hpower hr]
  apply body
  cases negative with
  | true => simp [scanMinus]
  | false =>
    simp only [Bool.false_eq_true, if_false, List.nil_append, List.append_assoc]
    exact scanMinus_digit _ _

/-- A numeral's own text spells it. -/
theorem spells_text (n : Numeral) : Spells n n.text := by
  refine ⟨exponentText n.exponent, ?_, rfl⟩
  match n.exponent with
  | none => exact .none
  | some (true, run) => exact .lower .minus
  | some (false, run) => exact .lower .plus

/-! ## Everything read is spelled -/

theorem scanSign_sound (cs : List Char) :
    ∃ sign, SignSpells (scanSign cs).1 sign ∧ cs = sign ++ (scanSign cs).2 := by
  unfold scanSign
  split
  · exact ⟨['-'], .minus, rfl⟩
  · exact ⟨['+'], .plus, rfl⟩
  · exact ⟨[], .none, rfl⟩

theorem scanPower?_sound {cs rest : List Char} {e : Option (Bool × DigitRun)}
    (h : scanPower? cs = some (e, rest)) :
    ∃ negative sign run, SignSpells negative sign ∧ e = some (negative, run) ∧
      cs = sign ++ (run.text ++ rest) := by
  obtain ⟨sign, hsign, hcs⟩ := scanSign_sound cs
  simp only [scanPower?, Option.map_eq_some_iff, Prod.mk.injEq] at h
  obtain ⟨⟨run, rest'⟩, hrun, rfl, rfl⟩ := h
  obtain ⟨htext, -⟩ := DigitRun.text_of_scan? hrun
  exact ⟨_, sign, run, hsign, rfl, by rw [htext]; exact hcs⟩

theorem scanExponent?_sound {cs rest : List Char} {e : Option (Bool × DigitRun)}
    (h : scanExponent? cs = some (e, rest)) :
    ∃ power, ExponentSpells e power ∧ cs = power ++ rest := by
  unfold scanExponent? at h
  split at h
  · obtain ⟨negative, sign, run, hsign, rfl, rfl⟩ := scanPower?_sound h
    exact ⟨_, .lower hsign, by simp⟩
  · obtain ⟨negative, sign, run, hsign, rfl, rfl⟩ := scanPower?_sound h
    exact ⟨_, .upper hsign, by simp⟩
  · cases h
    exact ⟨[], .none, rfl⟩

theorem scanFraction?_sound {cs rest : List Char} {f : Option DigitRun}
    (h : scanFraction? cs = some (f, rest)) : cs = fractionText f ++ rest := by
  unfold scanFraction? at h
  split at h
  · simp only [Option.map_eq_some_iff, Prod.mk.injEq] at h
    obtain ⟨⟨run, rest'⟩, hrun, rfl, rfl⟩ := h
    obtain ⟨htext, -⟩ := DigitRun.text_of_scan? hrun
    rw [fractionText, List.cons_append, htext]
  · cases h
    rfl

theorem scanWhole?_sound {cs rest : List Char} {whole : Nat}
    (h : scanWhole? cs = some (whole, rest)) : cs = (DigitRun.ofNat whole).text ++ rest := by
  unfold scanWhole? at h
  split at h
  · rename_i run rest' hrun
    split at h
    · cases h
    · rename_i hz
      cases h
      have hrest : run.first = 0 → run.rest = [] := fun h0 => by
        by_contra hne
        exact hz ⟨h0, hne⟩
      rw [DigitRun.ofNat_value hrest]
      exact (DigitRun.text_of_scan? hrun).1.symm
  · cases h

theorem scanMinus_sound (cs : List Char) :
    cs = (if (scanMinus cs).1 then ['-'] else []) ++ (scanMinus cs).2 := by
  unfold scanMinus
  split <;> rfl

/-- **What is read was spelled.** -/
theorem spells_of_scan? {cs rest : List Char} {n : Numeral} (h : scan? cs = some (n, rest)) :
    ∃ used, Spells n used ∧ cs = used ++ rest := by
  simp only [scan?, Option.bind_eq_bind, Option.bind_eq_some_iff, Option.pure_def,
    Option.some.injEq, Prod.mk.injEq] at h
  obtain ⟨⟨whole, r₁⟩, hwhole, ⟨fraction, r₂⟩, hfraction, ⟨exponent, r₃⟩, hexponent, rfl, rfl⟩ := h
  obtain ⟨power, hpower, h₃⟩ := scanExponent?_sound hexponent
  have h₀ := scanMinus_sound cs
  have h₁ := scanWhole?_sound hwhole
  have h₂ := scanFraction?_sound hfraction
  refine ⟨_, ⟨power, hpower, rfl⟩, ?_⟩
  dsimp only at h₂ h₃ ⊢
  conv_lhs => rw [h₀, h₁, h₂, h₃]
  simp only [List.append_assoc]

theorem spells_of_ofText? {cs : List Char} {n : Numeral} (h : ofText? cs = some n) :
    Spells n cs := by
  unfold ofText? at h
  split at h
  · next hscan =>
    cases h
    obtain ⟨used, hs, rfl⟩ := spells_of_scan? hscan
    rwa [List.append_nil]
  · cases h

/-- No text spells two numerals. -/
theorem Spells.unique {m n : Numeral} {cs : List Char} (hm : Spells m cs) (hn : Spells n cs) :
    m = n := by
  have hm' := scan?_spells hm Stops.nil
  rw [scan?_spells hn Stops.nil] at hm'
  cases hm'
  rfl

/-- A numeral begins with a digit or a minus sign. -/
theorem Spells.head {n : Numeral} {cs : List Char} (h : Spells n cs) :
    ∃ c ds, cs = c :: ds ∧ (c = '-' ∨ ∃ d : Digit, c = d.char) := by
  obtain ⟨power, -, rfl⟩ := h
  cases n.negative with
  | true => exact ⟨'-', _, rfl, .inl rfl⟩
  | false => exact ⟨_, _, rfl, .inr ⟨_, rfl⟩⟩

end QueryForm.Numeral
