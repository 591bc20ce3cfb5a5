/-
The conversions as programs over byte offsets.

A number is found by its bytes: the offsets where its sign, its digits, its
fraction and its exponent end are counted up byte by byte, and then it is
cut off. All of these bytes are characters of their own, so the offsets stay
between characters, and the part that is cut off is the longest number, which
is then read on its own (`integer_eq`, `float_eq`). With the loop that
repairs a literal (`repair_eq`), no conversion has a fault or goes on for ever
(`convert_faultless`).
-/
import QueryForm.Proofs.Json.Bytewise
import QueryForm.Proofs.Value.Integer

namespace QueryForm.Bytewise

open Surrogates (bytes)
open Text (size cut? find? ofByte Ascii Run upTo onward byteAt minus)
open TypedNumber (skip sign signed fraction decimal? infinityWord afterPower afterExponent
  afterDecimal DecimalSpells HexPrefix)

/-! ## Reading integers -/

/-- The double that a whole text writes as a decimal. -/
def parsed? (cs : List Char) : Option Double :=
  let (negative, cs) := sign cs
  if afterDecimal cs = [] then (decimal? negative cs).map Decimal.toDouble else none

/-- A character is a digit, in base sixteen or in base ten. -/
def isDigit (hex : Bool) (c : Char) : Bool :=
  if hex then (hexDigit? c).isSome else (Digit.ofChar? c).isSome

/-- The integer at the start of a text. -/
def integer (cs : List Char) : Run Double := do
  let (negative, cs) := sign (skip cs)
  let hex := (cut? 2 cs).any fun (start, _) => start = ['0', 'x'] ∨ start = ['0', 'X']
  let cs ← if hex then onward 2 cs else pure cs
  let digits ← upTo ((find? (fun c => !isDigit hex c) cs).getD (size cs)) cs
  let magnitude :=
    if digits = [] then none
    else if hex then some (Double.ofHexDigits (digits.filterMap hexDigit?))
    else parsed? digits
  return (magnitude.map (signed negative)).getD .nan

/-! ## Reading decimals -/

/-- A byte of a class comes next; past the end none does. -/
def nextIs (p : Char → Bool) (i : Nat) (bs : List UInt8) : Run Bool := do
  if i < bs.length then return p (ofByte (← byteAt i bs)) else return false

/-- The offset behind the digits, which is the end of the text at the latest. -/
def digitsEnd (i : Nat) (bs : List UInt8) : Run Nat := do
  if _h : i < bs.length then
    if (Digit.ofChar? (ofByte (← byteAt i bs))).isSome then digitsEnd (i + 1) bs else return i
  else return i
termination_by bs.length - i

/-- The offset behind a sign. -/
def signEnd (i : Nat) (bs : List UInt8) : Run Nat := do
  if ← nextIs (fun c => c = '+' ∨ c = '-') i bs then return i + 1 else return i

/-- The offset behind a point and the digits after it, and how many digits there are up to there; a
point without a digit on either side is left. -/
def fractionEnd (i count : Nat) (bs : List UInt8) : Run (Nat × Nat) := do
  if ← nextIs (· = '.') i bs then
    let stop ← digitsEnd (i + 1) bs
    let more ← minus (← minus stop i) 1
    if 0 < count + more then return (stop, count + more) else return (i, count)
  else return (i, count)

/-- The offset behind an exponent; a letter without digits is left. -/
def exponentEnd (i : Nat) (bs : List UInt8) : Run Nat := do
  if ← nextIs (fun c => c = 'e' ∨ c = 'E') i bs then
    let start ← signEnd (i + 1) bs
    let stop ← digitsEnd start bs
    if start < stop then return stop else return i
  else return i

/-- The offset behind a decimal, if there is a digit in it. -/
def decimalEnd (start : Nat) (bs : List UInt8) : Run (Option Nat) := do
  let whole ← digitsEnd start bs
  let (stop, count) ← fractionEnd whole (← minus whole start) bs
  if count = 0 then return none else return some (← exponentEnd stop bs)

/-- The number at the start of a text. -/
def float (cs : List Char) : Run Double := do
  let cs := skip cs
  let (negative, rest) := sign cs
  if infinityWord.isPrefixOf rest then return .infinite negative
  else
    match ← decimalEnd (← minus (size cs) (size rest)) (bytes cs) with
    | some stop => return (parsed? (← upTo stop cs)).getD .nan
    | none => return .nan

/-! ## Digits -/

theorem ascii_digit : Ascii fun c => (Digit.ofChar? c).isSome := by
  intro c hc
  obtain ⟨d, hd⟩ := Option.isSome_iff_exists.1 hc
  unfold Digit.ofChar? at hd
  split at hd
  · omega
  · cases hd

/-- The digits at the start of a text are its longest prefix of such characters. -/
theorem takeWhile_digit (cs : List Char) :
    cs.takeWhile (isDigit false) = (Digit.scan cs).1.map Digit.char := by
  induction cs with
  | nil => rfl
  | cons c cs ih =>
    cases hc : Digit.ofChar? c with
    | none => simp [isDigit, Digit.scan, hc]
    | some d =>
      have hdigit : isDigit false c = true := by simp [isDigit, hc]
      rw [List.takeWhile_cons_of_pos hdigit, ih]
      simp [Digit.scan, hc, Digit.char_of_ofChar? hc]

theorem filterMap_takeWhile_hex (cs : List Char) :
    (cs.takeWhile (isDigit true)).filterMap hexDigit? = scanHex cs := by
  induction cs with
  | nil => rfl
  | cons c cs ih =>
    cases hc : hexDigit? c with
    | none => simp [isDigit, scanHex, hc]
    | some d =>
      have hdigit : isDigit true c = true := by simp [isDigit, hc]
      rw [List.takeWhile_cons_of_pos hdigit, List.filterMap_cons_some hc, ih]
      simp [scanHex, hc]

theorem size_digits (ds : List Digit) : size (ds.map Digit.char) = ds.length := by
  have hdigits : ∀ c ∈ ds.map Digit.char, (Digit.ofChar? c).isSome = true := by simp
  rw [Text.size_of_ascii ascii_digit hdigits, List.length_map]

theorem parsed?_spells {d : Decimal} {cs : List Char} (h : DecimalSpells d cs) :
    parsed? cs = some d.toDouble := by
  obtain ⟨whole, part, digits, exp, power, hsign, hdigits, hexp, -⟩ := h.sign_eq []
  obtain ⟨-, hle⟩ := TypedNumber.decimal?_continued hdigits hexp [] d.negative
  have hafter : afterDecimal (sign cs).2 = [] := by
    rw [List.append_nil] at hsign
    rw [hsign]
    exact List.eq_nil_of_length_eq_zero (Nat.le_zero.1 hle)
  simp [parsed?, hafter, h.decimal?_eq]

/-! ## Integers -/

/-- The digits are cut off behind the last of them. -/
theorem upTo_digits (p : Char → Bool) (cs : List Char) :
    upTo ((find? (fun c => !p c) cs).getD (size cs)) cs = pure (cs.takeWhile p) := by
  have := Text.upTo_append (cs.takeWhile p) (cs.dropWhile p)
  rwa [List.takeWhile_append_dropWhile, ← Text.find?_getD] at this

/-- The prefix of base sixteen is found by its two bytes. -/
theorem hexPrefix_iff (cs : List Char) :
    ((cut? 2 cs).any fun (start, _) => start = ['0', 'x'] ∨ start = ['0', 'X']) = true ↔
      HexPrefix cs := by
  rw [Option.any_eq_true]
  constructor
  · rintro ⟨⟨start, after⟩, hcut, hstart⟩
    obtain ⟨rfl, -⟩ := Text.cut?_sound hcut
    rcases of_decide_eq_true hstart with rfl | rfl
    · exact ⟨'x', after, .inl rfl, rfl⟩
    · exact ⟨'X', after, .inr rfl, rfl⟩
  · rintro ⟨letter, rest, rfl | rfl, rfl⟩
    · exact ⟨_, Text.cut?_append ['0', 'x'] rest, rfl⟩
    · exact ⟨_, Text.cut?_append ['0', 'X'] rest, rfl⟩

theorem takeWhile_hex_eq_nil_iff (cs : List Char) :
    cs.takeWhile (isDigit true) = [] ↔ scanHex cs = [] := by
  cases cs with
  | nil => simp [scanHex]
  | cons c cs => cases hc : hexDigit? c <;> simp [isDigit, scanHex, hc]

theorem parsed?_digits {ds : List Digit} (h : ds ≠ []) :
    parsed? (ds.map Digit.char) = some (Double.ofNat false (Digit.value ds)) := by
  have hspells : DecimalSpells _ ([] ++ (ds.map Digit.char ++ [])) := .mk .none (.whole h) .none
  rw [List.nil_append, List.append_nil, List.append_nil] at hspells
  rw [parsed?_spells hspells, ← TypedNumber.toDouble_whole]
  rfl

/-- **Integers.** The offsets come to the integer at the start of a text. -/
theorem integer_eq (cs : List Char) : integer cs = pure (TypedNumber.integer cs) := by
  rw [(TypedNumber.opens cs).integer_eq]
  rcases hsign : sign (skip cs) with ⟨negative, rest⟩
  by_cases hten : HexPrefix rest
  · have hhex := (hexPrefix_iff rest).2 hten
    obtain ⟨letter, after, hletter, rfl⟩ := hten
    have honward : onward 2 ('0' :: letter :: after) = pure after := by
      obtain rfl | rfl := hletter
      · exact Text.onward_append ['0', 'x'] after
      · exact Text.onward_append ['0', 'X'] after
    simp only [integer, hsign, hhex, if_true, honward, pure_bind, upTo_digits,
      takeWhile_hex_eq_nil_iff, filterMap_takeWhile_hex, TypedNumber.magnitude?_hex hletter]
    by_cases hds : scanHex after = []
    · rw [hds]
      rfl
    · rw [TypedNumber.hex?_some hds, if_neg hds]
  · have hhex := Bool.eq_false_iff.2 (mt (hexPrefix_iff rest).1 hten)
    have hmagnitude := TypedNumber.magnitude?_digits (Digit.scan_noneNext rest)
      (by rwa [Digit.scan_text])
    rw [Digit.scan_text] at hmagnitude
    simp only [integer, hsign, hhex, Bool.false_eq_true, if_false, pure_bind, upTo_digits,
      takeWhile_digit, List.map_eq_nil_iff, hmagnitude]
    by_cases hds : (Digit.scan rest).1 = []
    · simp [hds]
    · simp [hds, parsed?_digits hds]

/-! ## Decimals -/

section

variable (before : List Char)

theorem nextIs_eq {p : Char → Bool} (hp : Ascii p) (cs : List Char) :
    nextIs p (size before) (bytes (before ++ cs)) = pure (cs.head?.any p) := by
  cases cs with
  | nil => simp [nextIs, Text.length_bytes]
  | cons c cs =>
    obtain ⟨b, bs, hbytes, hb⟩ := Text.first_byte hp c
    have htext : bytes (before ++ c :: cs) = bytes before ++ b :: (bs ++ bytes cs) := by
      rw [Text.bytes_append, Text.bytes_cons, hbytes, List.cons_append]
    have hlt : size before < (bytes (before ++ c :: cs)).length := by
      rw [htext, List.length_append, Text.length_bytes, List.length_cons]
      omega
    have hget : (bytes (before ++ c :: cs))[size before]? = some b := by
      rw [htext, size, List.getElem?_append_right (Nat.le_refl _), Nat.sub_self,
        List.getElem?_cons_zero]
    rw [nextIs, if_pos hlt, Text.byteAt_of_getElem? hget, pure_bind, hb]
    rfl

/-- The digits go on as long as one comes next. -/
theorem digitsEnd_step (i : Nat) (bs : List UInt8) : digitsEnd i bs = (do
    if ← nextIs (fun c => (Digit.ofChar? c).isSome) i bs then digitsEnd (i + 1) bs
    else return i) := by
  rw [digitsEnd, nextIs]
  split <;> simp

theorem digitsEnd_eq (cs : List Char) :
    digitsEnd (size before) (bytes (before ++ cs)) =
      pure (size (before ++ (Digit.scan cs).1.map Digit.char)) := by
  induction cs generalizing before with
  | nil =>
    rw [digitsEnd_step, nextIs_eq before ascii_digit]
    simp [Digit.scan]
  | cons c cs ih =>
    rw [digitsEnd_step, nextIs_eq before ascii_digit]
    cases hc : Digit.ofChar? c with
    | none => simp [Digit.scan, hc]
    | some d =>
      have hchar : d.char = c := Digit.char_of_ofChar? hc
      have hdigits : ∀ e ∈ [c], (Digit.ofChar? e).isSome = true := by simp [hc]
      have hsize : size [c] = 1 := Text.size_of_ascii ascii_digit hdigits
      have hnext := ih (before ++ [c])
      rw [Text.size_append, hsize, List.append_assoc] at hnext
      simpa [Digit.scan, hc, hchar] using hnext

/-- The digits that are passed over are counted by the offsets. -/
theorem size_append_digits (ds : List Digit) :
    size (before ++ ds.map Digit.char) = size before + ds.length := by
  rw [Text.size_append, size_digits]

theorem signEnd_eq (cs : List Char) : ∃ signs, cs = signs ++ (sign cs).2 ∧
    signEnd (size before) (bytes (before ++ cs)) = pure (size (before ++ signs)) := by
  have hone : size ['-'] = 1 ∧ size ['+'] = 1 := ⟨rfl, rfl⟩
  rw [signEnd, nextIs_eq before (Text.ascii_or (by decide) (by decide))]
  unfold sign
  split
  · exact ⟨['-'], rfl, by simp only [Text.size_append, hone]; rfl⟩
  · exact ⟨['+'], rfl, by simp only [Text.size_append, hone]; rfl⟩
  · next hminus hplus =>
    refine ⟨[], rfl, ?_⟩
    cases cs with
    | nil => simp
    | cons c cs =>
      have hc : c ≠ '+' ∧ c ≠ '-' := ⟨fun e => hplus cs (by rw [e]), fun e => hminus cs (by rw [e])⟩
      simp [hc]

/-- Behind a point the digits count, unless there is none on either side. -/
theorem fractionEnd_point (count : Nat) (cs : List Char) :
    fractionEnd (size before) count (bytes (before ++ '.' :: cs)) =
      if 0 < count + (Digit.scan cs).1.length then
        pure (size (before ++ '.' :: (Digit.scan cs).1.map Digit.char),
          count + (Digit.scan cs).1.length)
      else pure (size before, count) := by
  have hone : '.'.utf8Size = 1 := rfl
  have hstop : digitsEnd (size before + 1) (bytes (before ++ '.' :: cs)) =
      pure (size before + 1 + (Digit.scan cs).1.length) := by
    have := digitsEnd_eq (before ++ ['.']) cs
    rw [size_append_digits] at this
    simpa [hone] using this
  have hlength : size before + 1 + (Digit.scan cs).1.length - size before - 1 =
      (Digit.scan cs).1.length := by omega
  rw [fractionEnd, nextIs_eq before (Text.ascii_eq (by decide))]
  simp only [List.head?_cons, Option.any_some, decide_true, pure_bind, if_true, hstop]
  rw [Text.minus_of_le (by omega), pure_bind, Text.minus_of_le (by omega), pure_bind, hlength]
  simp [size_digits, hone, Nat.add_assoc]

theorem fractionEnd_eq (whole : List Digit) (cs : List Char) :
    ∃ used, cs = used ++ (fraction whole cs).2 ∧
      fractionEnd (size before) whole.length (bytes (before ++ cs)) =
        pure (size (before ++ used), whole.length + (fraction whole cs).1.length) := by
  fun_cases fraction whole cs with
  | case1 cs ds rest hscan hempty =>
    refine ⟨[], rfl, ?_⟩
    rw [fractionEnd_point, hscan]
    simp [hempty]
  | case2 cs ds rest hscan hsome =>
    refine ⟨'.' :: ds.map Digit.char, ?_, ?_⟩
    · have := Digit.scan_text cs
      rw [hscan] at this
      simp [this]
    · have hcount : 0 < whole.length + ds.length := by
        by_contra h
        refine hsome ⟨List.eq_nil_of_length_eq_zero ?_, List.eq_nil_of_length_eq_zero ?_⟩ <;> omega
      rw [fractionEnd_point, hscan]
      simp [hcount]
  | case3 _ hpoint =>
    refine ⟨[], rfl, ?_⟩
    rw [fractionEnd, nextIs_eq before (Text.ascii_eq (by decide))]
    cases cs with
    | nil => simp
    | cons c cs =>
      have hc : c ≠ '.' := fun e => hpoint cs (by rw [e])
      simp [hc]

/-- Behind the letter of an exponent the sign and the digits count, unless there is no digit. -/
theorem exponentEnd_letter {letter : Char} (h : letter = 'e' ∨ letter = 'E') (cs : List Char) :
    ∃ used, letter :: cs = used ++ afterPower letter cs ∧
      exponentEnd (size before) (bytes (before ++ letter :: cs)) = pure (size (before ++ used)) := by
  have hone : size [letter] = 1 := by rcases h with rfl | rfl <;> rfl
  have htext : before ++ letter :: cs = before ++ [letter] ++ cs := by simp
  obtain ⟨signs, hcs, hsign⟩ := signEnd_eq (before ++ [letter]) cs
  have hstop := digitsEnd_eq (before ++ [letter] ++ signs) (sign cs).2
  rw [List.append_assoc _ signs, ← hcs, size_append_digits] at hstop
  have hread : exponentEnd (size before) (bytes (before ++ letter :: cs)) =
      if 0 < (Digit.scan (sign cs).2).1.length then
        pure (size (before ++ [letter] ++ signs) + (Digit.scan (sign cs).2).1.length)
      else pure (size before) := by
    rw [Text.size_append, hone] at hsign
    rw [exponentEnd, nextIs_eq before (Text.ascii_or (by decide) (by decide))]
    simp only [List.head?_cons, Option.any_some, h, decide_true, pure_bind, if_true, htext, hsign,
      hstop, Nat.lt_add_right_iff_pos]
  have hafter := Digit.scan_text (sign cs).2
  rw [hread]
  rcases hscan : Digit.scan (sign cs).2 with ⟨ds, rest⟩
  rw [hscan] at hafter
  cases ds with
  | nil => exact ⟨[], by simp [afterPower, hscan], by simp⟩
  | cons d ds =>
    refine ⟨letter :: (signs ++ (d :: ds).map Digit.char), ?_, ?_⟩
    · simp only [afterPower, hscan, List.cons_append, List.append_assoc, hafter, ← hcs]
    · have hsize := size_append_digits (before ++ [letter] ++ signs) (d :: ds)
      rw [← hsize]
      simp

theorem exponentEnd_eq (cs : List Char) : ∃ used, cs = used ++ afterExponent cs ∧
    exponentEnd (size before) (bytes (before ++ cs)) = pure (size (before ++ used)) := by
  fun_cases afterExponent cs with
  | case1 cs => exact exponentEnd_letter before (.inl rfl) cs
  | case2 cs => exact exponentEnd_letter before (.inr rfl) cs
  | case3 _ hlower hupper =>
    refine ⟨[], rfl, ?_⟩
    rw [exponentEnd, nextIs_eq before (Text.ascii_or (by decide) (by decide))]
    cases cs with
    | nil => simp
    | cons c cs =>
      have hc : c ≠ 'e' ∧ c ≠ 'E' := ⟨fun e => hlower cs (by rw [e]), fun e => hupper cs (by rw [e])⟩
      simp [hc]

/-- Where no digit is counted there is no decimal. -/
theorem decimal?_eq_none_iff (negative : Bool) (cs : List Char) : decimal? negative cs = none ↔
    (Digit.scan cs).1.length + (fraction (Digit.scan cs).1 (Digit.scan cs).2).1.length = 0 := by
  simp [decimal?]

theorem decimalEnd_eq (negative : Bool) (cs : List Char) :
    ∃ used, cs = used ++ afterDecimal cs ∧
      decimalEnd (size before) (bytes (before ++ cs)) =
        pure ((decimal? negative cs).map fun _ => size (before ++ used)) := by
  obtain ⟨part, hpart, hfraction⟩ :=
    fractionEnd_eq (before ++ (Digit.scan cs).1.map Digit.char) (Digit.scan cs).1 (Digit.scan cs).2
  obtain ⟨power, hpower, hexponent⟩ :=
    exponentEnd_eq (before ++ (Digit.scan cs).1.map Digit.char ++ part)
      (fraction (Digit.scan cs).1 (Digit.scan cs).2).2
  rw [List.append_assoc _ part, ← hpart] at hexponent
  rw [List.append_assoc _ _ (Digit.scan cs).2, Digit.scan_text] at hfraction hexponent
  have hcount : minus (size before + (Digit.scan cs).1.length) (size before) =
      pure (Digit.scan cs).1.length := by
    rw [Text.minus_of_le (Nat.le_add_right _ _), Nat.add_sub_cancel_left]
  refine ⟨(Digit.scan cs).1.map Digit.char ++ (part ++ power), ?_, ?_⟩
  · rw [afterDecimal, List.append_assoc, List.append_assoc, ← hpower, ← hpart, Digit.scan_text]
  · rw [size_append_digits] at hfraction
    simp only [decimalEnd, digitsEnd_eq, size_append_digits, pure_bind, hcount, hfraction]
    split
    · next hzero =>
      rw [(decimal?_eq_none_iff negative cs).2 hzero]
      rfl
    · next hsome =>
      obtain ⟨d, hd⟩ := Option.ne_none_iff_exists'.1 (mt (decimal?_eq_none_iff negative cs).1 hsome)
      rw [hexponent, hd, pure_bind, Option.map_some]
      simp only [List.append_assoc]

end

/-- **Decimals.** The offsets come to the number at the start of a text. -/
theorem float_eq (cs : List Char) : float cs = pure (TypedNumber.float cs) := by
  obtain ⟨signs, hsigns, htext⟩ := TypedNumber.sign_sound (skip cs)
  rcases hsign : sign (skip cs) with ⟨negative, rest⟩
  simp only [hsign] at hsigns htext
  obtain ⟨used, hused, hend⟩ := decimalEnd_eq signs negative rest
  have hstart : minus (size (skip cs)) (size rest) = pure (size signs) := by
    rw [htext, Text.size_append, Text.minus_of_le (Nat.le_add_left _ _), Nat.add_sub_cancel]
  rw [← htext] at hend
  simp only [float, TypedNumber.float, hsign, hstart, hend, pure_bind]
  split
  · rfl
  cases hread : decimal? negative rest with
  | none => rfl
  | some d =>
    obtain ⟨whole, part, digits, exp, power, hdigits, hexp, hspelled, rfl⟩ :=
      TypedNumber.decimal?_sound hread
    have hsame : used ++ afterDecimal rest = digits ++ power ++ afterDecimal rest := by
      rw [← hused, List.append_assoc, ← hspelled]
    obtain rfl := List.append_cancel_right hsame
    have hcut := Text.upTo_append (signs ++ (digits ++ power)) (afterDecimal rest)
    rw [List.append_assoc, ← hused, ← htext] at hcut
    simp only [Option.map_some, hcut, pure_bind, parsed?_spells (.mk hsigns hdigits hexp),
      Option.getD_some]

/-! ## Values -/

/-- The value of a literal. -/
def literal (text : String) : Run (Option Json) := do
  let cs ← repair text.toList
  let tree? := if Nesting.depth cs ≤ Literal.depthLimit then Tree.ofText? cs else none
  return tree? >>= Tree.value?

/-- The value of a text as a type. -/
def convert : ValueType → String → Run Value
  | .text, raw => return .text raw
  | .integer, raw => return .number (← integer raw.toList)
  | .float, raw => return .number (← float raw.toList)
  | .array, raw => do
    match ← literal (if raw = "" then "[]" else raw) with
    | some (.array items) => return .array items
    | _ => return .array []
  | .object, raw => do
    match ← literal raw with
    | some (.object members) => return .object members
    | _ => return .object []

theorem literal_eq (text : String) : literal text = pure (Literal.value? text) := by
  rw [literal, repair_eq]
  rfl

theorem convert_eq (type : ValueType) (raw : String) :
    convert type raw = pure (Value.convert type raw) := by
  cases type with
  | text => rfl
  | integer => simp only [convert, integer_eq, pure_bind, Value.convert]
  | float => simp only [convert, float_eq, pure_bind, Value.convert]
  | array =>
    simp only [convert, literal_eq, pure_bind, Value.convert, Literal.items]
    cases Literal.value? (if raw = "" then "[]" else raw) with
    | none => rfl
    | some value => cases value <;> rfl
  | object =>
    simp only [convert, literal_eq, pure_bind, Value.convert, Literal.members]
    cases Literal.value? raw with
    | none => rfl
    | some value => cases value <;> rfl

/-- **No fault and an end.** A cut comes to a text at exactly the offsets where a character begins
or the text ends, and is a fault at any other. Still every conversion of every text comes to the
value that it has, so none meets a fault and none goes on for ever. In the loop that repairs a
literal, each turn comes to a value whatever text is left: either no backslash is left and it is the
last, or it leaves an end of the text with fewer bytes. -/
theorem convert_faultless (type : ValueType) (raw : String) :
    convert type raw = .ok (Value.convert type raw) ∧
    (∀ n cs, ((∃ before, upTo n cs = .ok before) ↔
        String.Pos.Raw.IsValid (String.ofList cs) ⟨n⟩) ∧
      ((∃ after, onward n cs = .ok after) ↔ String.Pos.Raw.IsValid (String.ofList cs) ⟨n⟩)) ∧
    (∀ out rest, repairAll out rest = .ok (out ++ Surrogates.repair rest)) ∧
    ∀ rest, (turn rest = .ok none ∧ '\\' ∉ rest) ∨
      ∃ written left, turn rest = .ok (some (written, left)) ∧ left <:+ rest ∧
        (String.ofList left).utf8ByteSize < (String.ofList rest).utf8ByteSize := by
  refine ⟨convert_eq type raw, fun n cs => ⟨Text.upTo_iff, Text.onward_iff⟩, repairAll_eq,
    fun rest => ?_⟩
  obtain hlast | ⟨written, left, hturn, htakes⟩ := turn_takes rest
  · exact .inl hlast
  · obtain ⟨used, -, heq⟩ := htakes.shorter
    refine .inr ⟨written, left, hturn, ⟨used, heq.symm⟩, ?_⟩
    rw [Surrogates.utf8ByteSize_ofList, Surrogates.utf8ByteSize_ofList]
    exact htakes.size_lt

end QueryForm.Bytewise
