/-
Reading a text after its lone halves of characters have been replaced.

`Quoted.mend` and `Tree.mend` replace lone halves in what was read instead of
in the text. Every reader then does on a repaired text what it does on the
text itself, with its result mended and what it leaves repaired: that is
`Mended`, shown of one reader after the other, from strings (where escapes
are looked at, `scan?_repair`) up to values (`value_mended`). So a repair
neither makes a text well-formed nor keeps it from being so, and
`ofText?_repair` says what tree it has.
-/
import QueryForm.Json.Surrogates
import QueryForm.Proofs.Json.Nesting

namespace QueryForm

/-! ## Repair of a text -/

namespace Surrogates

theorem mentionsUnit_tail {c : Char} {cs : List Char} (h : mentionsUnit (c :: cs) = false) :
    mentionsUnit cs = false := by
  unfold mentionsUnit at h
  split at h
  · cases h
  · rename_i heq
    cases heq
    exact h
  · rename_i heq
    cases heq

theorem repairFrom_eq_self {paired : Bool} {cs : List Char} (h : mentionsUnit cs = false) :
    repairFrom paired cs = cs := by
  fun_induction repairFrom paired cs with
  | case1 | case2 | case3 => simp [mentionsUnit] at h
  | case4 _ c rest _ ih => rw [ih (mentionsUnit_tail (mentionsUnit_tail h))]
  | case5 _ c rest _ _ ih => rw [ih (mentionsUnit_tail h)]
  | case6 => rfl

theorem repair_eq (cs : List Char) : repair cs = repairFrom false cs := by
  unfold repair
  split
  · rfl
  · next h => exact (repairFrom_eq_self (by simpa using h)).symm

theorem ofHex?_replacement : Units.ofHex? 'f' 'f' 'f' 'd' = some 0xFFFD :=
  rfl

theorem repair_cons {c : Char} (h : c ≠ '\\') (cs : List Char) :
    repair (c :: cs) = c :: repair cs := by
  rw [repair_eq, repair_eq, repairFrom]
  · exact fun _ _ _ _ _ e => absurd e h
  · exact fun _ _ e => absurd e h

theorem length_repair (cs : List Char) : (repair cs).length = cs.length := by
  rw [repair_eq]
  fun_induction repairFrom false cs <;> simp_all [replacement]

/-- What is read of a repaired text: the result, mended, and the rest, repaired. -/
def mended {α : Type} (mend : α → α) (read : α × List Char) : α × List Char :=
  (mend read.1, repair read.2)

/-- No four hexadecimal digits come next. -/
def NoUnit (cs : List Char) : Prop :=
  ∀ a b c d rest, cs = a :: b :: c :: d :: rest → Units.ofHex? a b c d = none

theorem repair_noUnit {cs : List Char} (h : NoUnit cs) :
    repair ('\\' :: 'u' :: cs) = '\\' :: 'u' :: repair cs := by
  rw [repair_eq, repair_eq]
  match cs, h with
  | a :: b :: c :: d :: rest, h => rw [repairFrom, h a b c d rest rfl]
  | [], _ => rfl
  | [_], _ => rw [repairFrom]; simp
  | [_, _], _ => rw [repairFrom]; simp
  | [_, _, _], _ => rw [repairFrom]; simp

theorem repair_short {e : Char} (h : e ≠ 'u') (cs : List Char) :
    repair ('\\' :: e :: cs) = '\\' :: e :: repair cs := by
  rw [repair_eq, repair_eq, repairFrom]
  exact fun _ _ _ _ _ e _ => absurd e h

theorem repair_backslash (cs : List Char) : ∃ ds, repair ('\\' :: cs) = '\\' :: ds := by
  rw [repair_eq]
  generalize hcs : '\\' :: cs = text
  fun_cases repairFrom false text with
  | case1 | case2 | case3 | case4 => exact ⟨_, rfl⟩
  | case5 c rest hunit hpair =>
    cases hcs
    exact ⟨_, rfl⟩
  | case6 => cases hcs

/-- What a text and its repair have in front. -/
theorem repair_head (cs : List Char) :
    cs = [] ∨ (∃ c ds, c ≠ '\\' ∧ cs = c :: ds ∧ repair cs = c :: repair ds) ∨
      ∃ ds es, cs = '\\' :: ds ∧ repair cs = '\\' :: es := by
  match cs with
  | [] => exact .inl rfl
  | c :: ds =>
    by_cases hc : c = '\\'
    · subst hc
      obtain ⟨es, h⟩ := repair_backslash ds
      exact .inr (.inr ⟨ds, es, rfl, h⟩)
    · exact .inr (.inl ⟨c, ds, hc, rfl, repair_cons hc ds⟩)

/-- What comes out of a repair without a backslash came in. -/
theorem of_repair_eq_cons {c : Char} {cs ds : List Char} (h : repair cs = c :: ds) (hc : c ≠ '\\') :
    ∃ es, cs = c :: es ∧ repair es = ds := by
  rcases repair_head cs with rfl | ⟨c', es, -, rfl, hr⟩ | ⟨es, fs, -, hr⟩
  · cases h
  · rw [hr] at h
    cases h
    exact ⟨es, rfl, rfl⟩
  · rw [hr] at h
    cases h
    exact absurd rfl hc

theorem NoUnit.repair {cs : List Char} (h : NoUnit cs) : NoUnit (repair cs) := by
  intro a b c d rest h₀
  by_contra hne
  obtain ⟨unit, hu⟩ := Option.ne_none_iff_exists'.1 hne
  have hdigits := Quoted.ofHex?_chars hu
  simp only [List.forall_mem_cons] at hdigits
  obtain ⟨⟨-, ha⟩, ⟨-, hb⟩, ⟨-, hc⟩, ⟨-, hd⟩, -⟩ := hdigits
  obtain ⟨_, rfl, h₁⟩ := of_repair_eq_cons h₀ ha
  obtain ⟨_, rfl, h₂⟩ := of_repair_eq_cons h₁ hb
  obtain ⟨_, rfl, h₃⟩ := of_repair_eq_cons h₂ hc
  obtain ⟨_, rfl, h₄⟩ := of_repair_eq_cons h₃ hd
  exact hne (h a b c d _ rfl)

theorem isHigh_of_isLow {unit : Nat} (h : Units.isLow unit = true) : Units.isHigh unit = false := by
  simp only [Units.isHigh, Units.isLow] at h ⊢
  grind

theorem startsLow_eq_true {cs : List Char} (h : startsLow cs = true) :
    ∃ a b c d rest unit, cs = '\\' :: 'u' :: a :: b :: c :: d :: rest ∧
      Units.ofHex? a b c d = some unit ∧ Units.isLow unit = true := by
  unfold startsLow at h
  split at h
  · next a b c d rest =>
    cases hu : Units.ofHex? a b c d with
    | none => simp [hu] at h
    | some unit => exact ⟨a, b, c, d, rest, unit, rfl, hu, by simpa [hu] using h⟩
  · cases h

section

variable {a b c d : Char} {unit : Nat} (hu : Units.ofHex? a b c d = some unit) (rest : List Char)

include hu

/-- An escape is copied with its pair or where it is no half, and replaced otherwise. -/
theorem repairFrom_unit (paired : Bool) :
    repairFrom paired ('\\' :: 'u' :: a :: b :: c :: d :: rest) =
      if Units.isHigh unit && startsLow rest || Units.isLow unit && paired ||
          !(Units.isHigh unit || Units.isLow unit) then
        '\\' :: 'u' :: a :: b :: c :: d :: repairFrom (Units.isHigh unit && startsLow rest) rest
      else replacement ++ repairFrom false rest := by
  rw [repairFrom, hu]

theorem repair_whole (hh : Units.isHigh unit = false) (hl : Units.isLow unit = false) :
    repair ('\\' :: 'u' :: a :: b :: c :: d :: rest) =
      '\\' :: 'u' :: a :: b :: c :: d :: repair rest := by
  rw [repair_eq, repair_eq, repairFrom_unit hu]
  simp [hh, hl]

theorem repair_loneLow (hh : Units.isHigh unit = false) (hl : Units.isLow unit = true) :
    repair ('\\' :: 'u' :: a :: b :: c :: d :: rest) = replacement ++ repair rest := by
  rw [repair_eq, repair_eq, repairFrom_unit hu]
  simp [hh, hl]

theorem repair_loneHigh (hh : Units.isHigh unit = true) (hs : startsLow rest = false) :
    repair ('\\' :: 'u' :: a :: b :: c :: d :: rest) = replacement ++ repair rest := by
  rw [repair_eq, repair_eq, repairFrom_unit hu]
  simp [hh, hs]

theorem repair_pair (hh : Units.isHigh unit = true) {a' b' c' d' : Char} {low : Nat}
    (hu' : Units.ofHex? a' b' c' d' = some low) (hl : Units.isLow low = true) :
    repair ('\\' :: 'u' :: a :: b :: c :: d :: '\\' :: 'u' :: a' :: b' :: c' :: d' :: rest) =
      '\\' :: 'u' :: a :: b :: c :: d :: '\\' :: 'u' :: a' :: b' :: c' :: d' :: repair rest := by
  have hnot := isHigh_of_isLow hl
  rw [repair_eq, repair_eq, repairFrom_unit hu]
  simp only [hh, startsLow, hu', Option.any_some, hl, Bool.and_self, Bool.true_or, if_true]
  rw [repairFrom_unit hu']
  simp [hl, hnot]

end

/-- **Induction over texts** by what a repair reads at once: a character, a backslash with one more
character, the escape of a unit, and a high half with the low half behind it. -/
theorem repair_induction {P : List Char → Prop} (nil : P [])
    (plain : ∀ {c cs}, c ≠ '\\' → P cs → P (c :: cs)) (last : P ['\\'])
    (escape : ∀ {e cs}, (e = 'u' → NoUnit cs) → P cs → P ('\\' :: e :: cs))
    (whole : ∀ {a b c d unit rest}, Units.ofHex? a b c d = some unit →
      Units.isHigh unit = false → Units.isLow unit = false → P rest →
      P ('\\' :: 'u' :: a :: b :: c :: d :: rest))
    (loneLow : ∀ {a b c d unit rest}, Units.ofHex? a b c d = some unit →
      Units.isHigh unit = false → Units.isLow unit = true → P rest →
      P ('\\' :: 'u' :: a :: b :: c :: d :: rest))
    (loneHigh : ∀ {a b c d unit rest}, Units.ofHex? a b c d = some unit →
      Units.isHigh unit = true → startsLow rest = false → P rest →
      P ('\\' :: 'u' :: a :: b :: c :: d :: rest))
    (pair : ∀ {a b c d unit a' b' c' d' low rest}, Units.ofHex? a b c d = some unit →
      Units.isHigh unit = true → Units.ofHex? a' b' c' d' = some low → Units.isLow low = true →
      P rest → P ('\\' :: 'u' :: a :: b :: c :: d :: '\\' :: 'u' :: a' :: b' :: c' :: d' :: rest))
    (cs : List Char) : P cs := by
  -- A high half takes the low half after it along, so the induction is on the length.
  induction h : cs.length using Nat.strongRecOn generalizing cs with
  | _ n ih =>
  subst h
  have shorter : ∀ ds : List Char, ds.length < cs.length → P ds := fun ds hd =>
    ih ds.length hd ds rfl
  match cs with
  | [] => exact nil
  | c :: cs =>
    by_cases hb : c = '\\'
    · subst hb
      match cs with
      | [] => exact last
      | e :: cs =>
        by_cases hno : e = 'u' → NoUnit cs
        · exact escape hno (shorter cs (by simp only [List.length_cons]; omega))
        · simp only [NoUnit, not_forall] at hno
          obtain ⟨rfl, a, b, c, d, rest, rfl, hne⟩ := hno
          obtain ⟨unit, hu⟩ := Option.ne_none_iff_exists'.1 hne
          have hrest := shorter rest (by simp only [List.length_cons]; omega)
          cases hh : Units.isHigh unit with
          | false =>
            cases hl : Units.isLow unit with
            | false => exact whole hu hh hl hrest
            | true => exact loneLow hu hh hl hrest
          | true =>
            cases hs : startsLow rest with
            | false => exact loneHigh hu hh hs hrest
            | true =>
              obtain ⟨a', b', c', d', tail, low, rfl, hu', hl⟩ := startsLow_eq_true hs
              exact pair hu hh hu' hl (shorter tail (by simp only [List.length_cons]; omega))
    · exact plain hb (shorter cs (by simp))

end Surrogates

/-! ## Repair of strings -/

namespace Quoted

open Surrogates

/-- Pieces with the replacement character for each half that stands alone. -/
def mend : List Piece → List Piece
  | [] => []
  | .char c :: ps => .char c :: mend ps
  | .high h :: .low l :: ps => .high h :: .low l :: mend ps
  | .high _ :: ps => .char '\uFFFD' :: mend ps
  | .low _ :: ps => .char '\uFFFD' :: mend ps

theorem mend_high {ps : List Piece} (h : ∀ l qs, ps ≠ .low l :: qs) (bits : Fin 1024) :
    mend (.high bits :: ps) = .char '\uFFFD' :: mend ps := by
  rw [mend]
  exact fun l qs e => absurd e (h l qs)

theorem scan?_replacement (cs : List Char) :
    scan? (replacement ++ cs) = after (.char '\uFFFD') (scan? cs) :=
  scan?_unit ofHex?_replacement cs

theorem scan?_noUnit {cs : List Char} (h : NoUnit cs) : scan? ('\\' :: 'u' :: cs) = none := by
  match cs, h with
  | a :: b :: c :: d :: rest, h => rw [scan?, h a b c d rest rfl]
  | [], _ => rfl
  | [_], _ => rfl
  | [_, _], _ => rfl
  | [_, _, _], _ => rfl

theorem scan?_unknown {e : Char} (hu : e ≠ 'u') (h : shortEscape? e = none) (cs : List Char) :
    scan? ('\\' :: e :: cs) = none := by
  rw [scan?, h]
  exact fun _ _ _ _ _ e _ => absurd e hu

theorem scan?_control {c : Char} (h : c.toNat < 0x20) (cs : List Char) :
    scan? (c :: cs) = none := by
  have hne : c ≠ '\x22' ∧ c ≠ '\\' := by
    constructor
    all_goals
      intro hc
      subst hc
      revert h
      decide
  obtain ⟨hq, hb⟩ := hne
  rw [scan?]
  · simp [h]
  · exact hq
  · exact fun _ _ _ _ _ e _ => absurd e hb
  · exact fun _ _ e _ => absurd e hb

theorem ofUnit_high {unit : Nat} (h : Units.isHigh unit = true) :
    Piece.ofUnit unit = .high (Fin.ofNat 1024 (unit - 0xD800)) := by
  rw [Piece.ofUnit, if_pos h]

theorem ofUnit_low {unit : Nat} (hh : Units.isHigh unit = false) (hl : Units.isLow unit = true) :
    Piece.ofUnit unit = .low (Fin.ofNat 1024 (unit - 0xDC00)) := by
  rw [Piece.ofUnit, hh, if_neg Bool.false_ne_true, if_pos hl]

theorem ofUnit_whole {unit : Nat} (hh : Units.isHigh unit = false)
    (hl : Units.isLow unit = false) : Piece.ofUnit unit = .char (Char.ofNat unit) := by
  rw [Piece.ofUnit, hh, hl]
  rfl

theorem ofUnit_eq_low {unit : Nat} {l : Fin 1024} (h : Piece.ofUnit unit = .low l) :
    Units.isLow unit = true := by
  unfold Piece.ofUnit at h
  split at h
  · cases h
  split at h
  · next hl => exact hl
  · cases h

/-- A string whose pieces begin with a low half begins with its escape. -/
theorem startsLow_of_scan? {cs rest : List Char} {l : Fin 1024} {ps : List Piece}
    (h : scan? cs = some (.low l :: ps, rest)) : startsLow cs = true := by
  obtain ⟨used, hs, rfl⟩ := spells_of_scan? h
  cases hs with
  | cons hp _ =>
    generalize hl : Piece.low l = p at hp
    cases hp with
    | plain => cases hl
    | short => cases hl
    | unit hu => simp [startsLow, hu, ofUnit_eq_low hl.symm]

theorem after_map_mended (c : Char) (read : Option (List Piece × List Char)) :
    (after (.char c) read).map (mended mend) = after (.char c) (read.map (mended mend)) := by
  cases read <;> rfl

/-- **Strings.** A repaired string is read as the string is, with its pieces mended. -/
theorem scan?_repair (cs : List Char) : scan? (repair cs) = (scan? cs).map (mended mend) := by
  induction cs using repair_induction with
  | nil => rfl
  | last => rfl
  | @plain c cs hb ih =>
    rw [repair_cons hb]
    by_cases hq : c = '\x22'
    · subst hq
      rfl
    by_cases hc : c.toNat < 0x20
    · rw [scan?_control hc, scan?_control hc]
      rfl
    · rw [scan?_cons hq hb hc, scan?_cons hq hb hc, after_map_mended, ih]
  | @escape e cs hno ih =>
    by_cases hu : e = 'u'
    · subst hu
      have hno := hno rfl
      rw [repair_noUnit hno, scan?_noUnit hno, scan?_noUnit hno.repair]
      rfl
    · rw [repair_short hu]
      cases he : shortEscape? e with
      | none =>
        rw [scan?_unknown hu he, scan?_unknown hu he]
        rfl
      | some c => rw [scan?_short hu he, scan?_short hu he, after_map_mended, ih]
  | @whole a b c d unit rest hu hh hl ih =>
    rw [repair_whole hu rest hh hl, scan?_unit hu, scan?_unit hu, ih, ofUnit_whole hh hl,
      after_map_mended]
  | @loneLow a b c d unit rest hu hh hl ih =>
    rw [repair_loneLow hu rest hh hl, scan?_replacement, scan?_unit hu, ih, ofUnit_low hh hl]
    cases scan? rest <;> rfl
  | @loneHigh a b c d unit rest hu hh hs ih =>
    rw [repair_loneHigh hu rest hh hs, scan?_replacement, scan?_unit hu, ih, ofUnit_high hh]
    cases hread : scan? rest with
    | none => rfl
    | some read =>
      obtain ⟨ps, tail⟩ := read
      have hps : ∀ l qs, ps ≠ .low l :: qs := by
        intro l qs hlow
        rw [hlow] at hread
        rw [startsLow_of_scan? hread] at hs
        cases hs
      simp only [after, Option.map_some, mended, mend_high hps]
  | @pair a b c d unit a' b' c' d' low rest hu hh hu' hl ih =>
    rw [repair_pair hu rest hh hu' hl, scan?_unit hu, scan?_unit hu', scan?_unit hu, scan?_unit hu',
      ih, ofUnit_high hh, ofUnit_low (isHigh_of_isLow hl) hl]
    cases scan? rest <;> rfl

end Quoted

/-! ## Repair of numerals -/

section

open Surrogates

theorem Digit.scan_repair (cs : List Char) : scan (repair cs) = mended id (scan cs) := by
  induction cs with
  | nil => rfl
  | cons c cs ih =>
    by_cases hc : c = '\\'
    · subst hc
      obtain ⟨ds, h⟩ := repair_backslash cs
      have hnone : ofChar? '\\' = none := rfl
      simp only [h, scan, hnone, mended, id_eq]
    · rw [repair_cons hc]
      simp only [scan, ih]
      split
      · rfl
      · simp [mended, repair_cons hc]

theorem DigitRun.scan?_repair (cs : List Char) :
    scan? (repair cs) = (scan? cs).map (mended id) := by
  simp only [scan?, Digit.scan_repair]
  obtain ⟨ds, rest⟩ := Digit.scan cs
  cases ds <;> rfl

namespace Numeral

theorem scanWhole?_repair (cs : List Char) :
    scanWhole? (repair cs) = (scanWhole? cs).map (mended id) := by
  simp only [scanWhole?, DigitRun.scan?_repair]
  cases DigitRun.scan? cs with
  | none => rfl
  | some read =>
    simp only [Option.map_some, mended, id_eq]
    split <;> rfl

theorem scanFraction?_repair (cs : List Char) :
    scanFraction? (repair cs) = (scanFraction? cs).map (mended id) := by
  rcases repair_head cs with rfl | ⟨c, ds, -, rfl, h⟩ | ⟨ds, es, rfl, h⟩
  · rfl
  · by_cases hp : c = '.'
    · subst hp
      rw [h, scanFraction?, scanFraction?, DigitRun.scan?_repair]
      cases DigitRun.scan? ds <;> rfl
    · rw [h, scanFraction?, scanFraction?]
      · simp [mended, h]
      all_goals exact fun _ e => hp (List.cons.inj e).1
  · rw [h]
    simp [scanFraction?, mended, h]

theorem scanSign_repair (cs : List Char) : scanSign (repair cs) = mended id (scanSign cs) := by
  rcases repair_head cs with rfl | ⟨c, ds, -, rfl, h⟩ | ⟨ds, es, rfl, h⟩
  · rfl
  · rw [h]
    unfold scanSign
    split <;> simp_all [mended]
  · rw [h]
    simp [scanSign, mended, h]

theorem scanMinus_repair (cs : List Char) : scanMinus (repair cs) = mended id (scanMinus cs) := by
  rcases repair_head cs with rfl | ⟨c, ds, -, rfl, h⟩ | ⟨ds, es, rfl, h⟩
  · rfl
  · rw [h]
    unfold scanMinus
    split <;> simp_all [mended]
  · rw [h]
    simp [scanMinus, mended, h]

theorem scanPower?_repair (cs : List Char) :
    scanPower? (repair cs) = (scanPower? cs).map (mended id) := by
  simp only [scanPower?, scanSign_repair, mended, DigitRun.scan?_repair]
  cases DigitRun.scan? (scanSign cs).2 <;> rfl

theorem scanExponent?_repair (cs : List Char) :
    scanExponent? (repair cs) = (scanExponent? cs).map (mended id) := by
  rcases repair_head cs with rfl | ⟨c, ds, -, rfl, h⟩ | ⟨ds, es, rfl, h⟩
  · rfl
  · rw [h]
    unfold scanExponent?
    split
    next heq =>
      obtain ⟨rfl, rfl⟩ := List.cons.inj heq
      exact scanPower?_repair ds
    next heq =>
      obtain ⟨rfl, rfl⟩ := List.cons.inj heq
      exact scanPower?_repair ds
    next => simp_all [mended]
  · rw [h]
    simp [scanExponent?, mended, h]

/-- **Numerals.** There is nothing to mend in a numeral. -/
theorem scan?_repair (cs : List Char) : scan? (repair cs) = (scan? cs).map (mended id) := by
  simp only [scan?, scanMinus_repair, mended, scanWhole?_repair]
  cases scanWhole? (scanMinus cs).2 with
  | none => rfl
  | some whole =>
    simp only [Option.map_some, Option.bind_eq_bind, Option.bind_some, mended, scanFraction?_repair]
    cases scanFraction? whole.2 with
    | none => rfl
    | some fraction =>
      simp only [Option.map_some, Option.bind_some, mended, scanExponent?_repair]
      cases scanExponent? fraction.2 <;> rfl

end Numeral

end

/-! ## Repair of values -/

namespace Tree

open Surrogates
open Quoted (Piece)

variable {α : Type}

mutual

/-- A tree with the replacement character for each half of a character that stands alone. -/
def mend : Tree → Tree
  | string pieces => string (Quoted.mend pieces)
  | array items => array (mendItems items)
  | object members => object (mendMembers members)
  | tree => tree

/-- Items mended. -/
def mendItems : List Tree → List Tree
  | [] => []
  | item :: items => mend item :: mendItems items

/-- Members mended, keys and values. -/
def mendMembers : List (List Piece × Tree) → List (List Piece × Tree)
  | [] => []
  | (key, value) :: members => (Quoted.mend key, mend value) :: mendMembers members

end

/-- A member mended. -/
def mendMember (m : List Piece × Tree) : List Piece × Tree :=
  (Quoted.mend m.1, mend m.2)

theorem mendItems_eq (items : List Tree) : mendItems items = items.map mend := by
  induction items with
  | nil => rfl
  | cons item items ih => rw [mendItems, ih, List.map_cons]

theorem mendMembers_eq (members : List (List Piece × Tree)) :
    mendMembers members = members.map mendMember := by
  induction members with
  | nil => rfl
  | cons m members ih => rw [mendMembers, ih, List.map_cons, mendMember]

/-- A reader does on a repaired text what it does on the text itself, its result mended. -/
def Mended (mend : α → α) (read : List Char → Reading α) : Prop :=
  ∀ cs, read (repair cs) = (read cs).map (mended mend)

theorem skip_repair (cs : List Char) : skip (repair cs) = repair (skip cs) := by
  induction cs with
  | nil => rfl
  | cons c cs ih =>
    by_cases hc : c = '\\'
    · subst hc
      obtain ⟨ds, h⟩ := repair_backslash cs
      have hspace : isSpace '\\' = false := rfl
      rw [h, skip_cons hspace, skip_cons hspace, h]
    · rw [repair_cons hc]
      cases hs : isSpace c with
      | true =>
        rw [skip, skip, List.dropWhile_cons_of_pos hs, List.dropWhile_cons_of_pos hs]
        exact ih
      | false => rw [skip_cons hs, skip_cons hs, repair_cons hc]

theorem word_mended {tree : Tree} (h : tree.mend = tree) {ws : List Char} (hw : '\\' ∉ ws) :
    Mended mend (word tree ws) := by
  intro cs
  induction ws generalizing cs with
  | nil => simp only [word, Except.map, mended, h]
  | cons w ws ih =>
    simp only [List.mem_cons, not_or] at hw
    obtain ⟨hne, hw⟩ := hw
    rcases repair_head cs with rfl | ⟨c, ds, -, rfl, hr⟩ | ⟨ds, es, rfl, hr⟩
    · rfl
    · rw [hr, word, word]
      split
      · exact ih hw ds
      · rfl
    · rw [hr, word, word, if_neg hne, if_neg hne]
      rfl

theorem elements_mended {element : List Char → Reading α} {f : α → α} (h : Mended f element)
    {close : Char} (hclose : close ≠ '\\') {bound bound' : List Char}
    (hb : bound'.length = bound.length) (cs : List Char) :
    elements element close bound' (repair cs) =
      (elements element close bound cs).map (mended (List.map f)) := by
  induction bound generalizing bound' cs with
  | nil =>
    rw [List.length_eq_zero_iff.1 hb]
    rfl
  | cons b bound ih =>
    obtain ⟨b', bound', rfl⟩ := List.exists_cons_of_length_pos (by rw [hb]; simp)
    have hb' : bound'.length = bound.length := by simpa using hb
    simp only [elements, h cs]
    cases element cs with
    | error fault => rfl
    | ok read =>
      obtain ⟨a, rest⟩ := read
      simp only [Except.map, mended, skip_repair]
      rcases repair_head (skip rest) with hnil | ⟨c, ds, -, hskip, hr⟩ | ⟨ds, es, hskip, hr⟩
      · rw [hnil]
        rfl
      · rw [hr, hskip]
        dsimp only
        split
        · rw [ih hb' ds]
          cases elements element close bound ds <;> rfl
        split <;> rfl
      · have hcomma : ('\\' : Char) ≠ ',' := by decide
        rw [hr, hskip]
        simp only [if_neg hcomma, if_neg hclose.symm]

theorem contents_mended {element : List Char → Reading α} {f : α → α} (h : Mended f element)
    {close : Char} (hclose : close ≠ '\\') :
    Mended (List.map f) (contents element close) := by
  intro cs
  have helements := elements_mended h hclose (length_repair cs) cs
  simp only [contents, skip_repair]
  rcases repair_head (skip cs) with hnil | ⟨c, ds, -, hskip, hr⟩ | ⟨ds, es, hskip, hr⟩
  · rw [hnil]
    rfl
  · rw [hr, hskip]
    dsimp only
    split
    · rfl
    · exact helements
  · rw [hr, hskip]
    simp only [if_neg hclose.symm]
    exact helements

theorem member_mended {read : List Char → Reading Tree} (h : Mended mend read) :
    Mended mendMember (member read) := by
  intro cs
  simp only [member, skip_repair]
  rcases repair_head (skip cs) with hnil | ⟨c, ds, -, hskip, hr⟩ | ⟨ds, es, hskip, hr⟩
  · rw [hnil]
    rfl
  · rw [hr, hskip]
    by_cases hq : c = '\x22'
    · subst hq
      simp only [Quoted.scan?_repair]
      cases Quoted.scan? ds with
      | none => rfl
      | some key =>
        simp only [Option.map_some, mended, skip_repair]
        rcases repair_head (skip key.2) with hnil | ⟨c, es, -, hskip, hr⟩ | ⟨es, fs, hskip, hr⟩
        · rw [hnil]
          rfl
        · rw [hr, hskip]
          by_cases hc : c = ':'
          · subst hc
            simp only [h es]
            cases read es <;> rfl
          · split <;> simp_all [Except.map]
        · rw [hr, hskip]
          rfl
    · split <;> simp_all [Except.map]
  · rw [hr, hskip]
    rfl

theorem array?_mended {inner : Option (List Char → Reading Tree)}
    (h : ∀ read, inner = some read → Mended mend read) : Mended mend (array? inner) := by
  intro cs
  cases inner with
  | none => rfl
  | some read =>
    simp only [array?, contents_mended (h read rfl) (by decide : ']' ≠ '\\') cs]
    cases contents read ']' cs with
    | error fault => rfl
    | ok items => simp only [Except.map, mended, mend, mendItems_eq]

theorem object?_mended {inner : Option (List Char → Reading Tree)}
    (h : ∀ read, inner = some read → Mended mend read) : Mended mend (object? inner) := by
  intro cs
  cases inner with
  | none => rfl
  | some read =>
    have hbrace : '\x7d' ≠ '\\' := by decide
    simp only [object?, contents_mended (member_mended (h read rfl)) hbrace cs]
    cases contents (member read) '\x7d' cs with
    | error fault => rfl
    | ok members => simp only [Except.map, mended, mend, mendMembers_eq]

theorem valueWith_mended {inner : Option (List Char → Reading Tree)}
    (h : ∀ read, inner = some read → Mended mend read) : Mended mend (valueWith inner) := by
  intro cs
  simp only [valueWith, skip_repair]
  rcases repair_head (skip cs) with hnil | ⟨c, ds, -, hskip, hr⟩ | ⟨ds, es, hskip, hr⟩
  · rw [hnil]
    rfl
  · rw [hr, hskip]
    rw [hskip] at hr
    split
    next heq => cases heq
    next heq =>
      obtain ⟨rfl, rfl⟩ := List.cons.inj heq
      exact word_mended rfl (by decide) ds
    next heq =>
      obtain ⟨rfl, rfl⟩ := List.cons.inj heq
      exact word_mended rfl (by decide) ds
    next heq =>
      obtain ⟨rfl, rfl⟩ := List.cons.inj heq
      exact word_mended rfl (by decide) ds
    next heq =>
      obtain ⟨rfl, rfl⟩ := List.cons.inj heq
      simp only [Quoted.scan?_repair]
      cases Quoted.scan? ds <;> rfl
    next heq =>
      obtain ⟨rfl, rfl⟩ := List.cons.inj heq
      exact array?_mended h ds
    next heq =>
      obtain ⟨rfl, rfl⟩ := List.cons.inj heq
      exact object?_mended h ds
    next c' rest hn ht hf hq ha ho heq =>
      obtain ⟨rfl, rfl⟩ := List.cons.inj heq
      rw [← hr, Numeral.scan?_repair]
      cases hscan : Numeral.scan? (c :: ds) <;> split <;>
        simp_all [ofOption, Except.map, mended, mend]
  · -- No value begins with a backslash.
    rw [hr, hskip]
    rfl

/-- **Values.** A value of a repaired text is read as that of the text is, and mended. -/
theorem value_mended (limit : Nat) : Mended mend (value limit) := by
  induction limit with
  | zero => exact valueWith_mended fun read h => nomatch h
  | succ limit ih => exact valueWith_mended fun read h => by cases h; exact ih

/-- The tree of a repaired text is the tree of the text, mended. -/
theorem ofText?_repair (cs : List Char) : ofText? (repair cs) = (ofText? cs).map mend := by
  simp only [ofText?, read, length_repair, value_mended cs.length cs]
  cases value cs.length cs with
  | error fault => rfl
  | ok read =>
    obtain ⟨tree, rest⟩ := read
    have hnil : repair (skip rest) = [] ↔ skip rest = [] := by
      rw [← List.length_eq_zero_iff, length_repair, List.length_eq_zero_iff]
    simp only [Except.map, mended, skip_repair, hnil]
    split <;> rfl

end Tree

end QueryForm
