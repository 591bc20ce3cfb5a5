/-
What a repair changes in a text, and that it changes nothing else.

A text is read from left to right as tokens (`Surrogates.tokens`): an escape
`\uXXXX`, a backslash with one more character, a character by itself. A half
of a character that belongs to no pair of a high half and a low one right
behind it is lone (`LoneAt`), and `replaced` puts the escape of the
replacement character in its place. `tokens_repair` says that a repaired
text is read as the tokens of the text, mended; so what a repair leaves is
known token by token.

The two escapes are as long as each other and mean nothing to a count of
brackets, inside quotes and outside (`foldl_repair`).
-/
import QueryForm.Proofs.Json.Surrogates

namespace QueryForm

namespace Surrogates

/-! ## Tokens -/

/-- What is read of a text at once. -/
inductive Token where
  | plain (c : Char)
  | escape (c : Char)
  | unit (a b c d : Char)
deriving DecidableEq

namespace Token

/-- The text of a token. -/
def text : Token → List Char
  | plain c => [c]
  | escape c => ['\\', c]
  | unit a b c d => ['\\', 'u', a, b, c, d]

/-- The unit of UTF-16 that a token writes. -/
def unit? : Token → Option Nat
  | unit a b c d => Units.ofHex? a b c d
  | _ => none

/-- A token is a high half. -/
def isHigh (t : Token) : Bool :=
  t.unit?.any Units.isHigh

/-- A token is a low half. -/
def isLow (t : Token) : Bool :=
  t.unit?.any Units.isLow

/-- The escape of the replacement character. -/
def replacement : Token :=
  unit 'f' 'f' 'f' 'd'

end Token

/-- The tokens of a text, from left to right. -/
def tokens : List Char → List Token
  | '\\' :: 'u' :: a :: b :: c :: d :: rest =>
    if (Units.ofHex? a b c d).isSome then .unit a b c d :: tokens rest
    else .escape 'u' :: tokens (a :: b :: c :: d :: rest)
  | '\\' :: c :: rest => .escape c :: tokens rest
  | c :: rest => .plain c :: tokens rest
  | [] => []

theorem tokens_plain {c : Char} (h : c ≠ '\\') (cs : List Char) :
    tokens (c :: cs) = .plain c :: tokens cs := by
  rw [tokens]
  · exact fun _ _ _ _ _ e => absurd e h
  · exact fun _ _ e => absurd e h

theorem tokens_escape {e : Char} {cs : List Char} (h : e = 'u' → NoUnit cs) :
    tokens ('\\' :: e :: cs) = .escape e :: tokens cs := by
  by_cases hu : e = 'u'
  · subst hu
    have hno := h rfl
    match cs, hno with
    | a :: b :: c :: d :: rest, hno =>
      rw [tokens, hno a b c d rest rfl]
      rfl
    | [], _ | [_], _ | [_, _], _ | [_, _, _], _ => rw [tokens]; simp
  · rw [tokens]
    exact fun _ _ _ _ _ e => absurd e hu

theorem tokens_unit {a b c d : Char} {unit : Nat} (h : Units.ofHex? a b c d = some unit)
    (rest : List Char) :
    tokens ('\\' :: 'u' :: a :: b :: c :: d :: rest) = .unit a b c d :: tokens rest := by
  rw [tokens, h]
  rfl

theorem tokens_replacement (cs : List Char) :
    tokens (replacement ++ cs) = .replacement :: tokens cs :=
  tokens_unit ofHex?_replacement cs

/-- The texts of the tokens of a text make up the text. -/
theorem flatMap_text_tokens (cs : List Char) : (tokens cs).flatMap Token.text = cs := by
  induction cs using repair_induction with
  | nil | last => rfl
  | plain hb ih => rw [tokens_plain hb, List.flatMap_cons, ih]; rfl
  | escape hno ih => rw [tokens_escape hno, List.flatMap_cons, ih]; rfl
  | whole hu _ _ ih | loneLow hu _ _ ih | loneHigh hu _ _ ih =>
    rw [tokens_unit hu, List.flatMap_cons, ih]
    rfl
  | pair hu _ hu' _ ih =>
    rw [tokens_unit hu, tokens_unit hu', List.flatMap_cons, List.flatMap_cons, ih]
    rfl

theorem startsLow_eq (cs : List Char) : startsLow cs = (tokens cs)[0]?.any Token.isLow := by
  have plainly : ∀ {t : Token} {ts : List Token}, t.unit? = none →
      (t :: ts)[0]?.any Token.isLow = false := by
    intro t ts ht
    simp [Token.isLow, ht]
  induction cs using repair_induction with
  | nil | last => rfl
  | @plain c cs hb =>
    rw [tokens_plain hb, plainly rfl, startsLow]
    exact fun _ _ _ _ _ e => hb (List.cons.inj e).1
  | @escape e cs hno =>
    rw [tokens_escape hno, plainly rfl]
    cases hs : startsLow ('\\' :: e :: cs) with
    | false => rfl
    | true =>
      obtain ⟨a, b, c, d, rest, unit, heq, hu, -⟩ := startsLow_eq_true hs
      simp only [List.cons.injEq, true_and] at heq
      obtain ⟨rfl, rfl⟩ := heq
      rw [hno rfl a b c d rest rfl] at hu
      cases hu
  | whole hu | loneLow hu | loneHigh hu | pair hu =>
    rw [tokens_unit hu]
    simp [startsLow, Token.isLow, Token.unit?, hu]

/-! ## Lone halves -/

/-- A high half with a low one right behind it. -/
def PairAt (ts : List Token) (i : Nat) : Prop :=
  ts[i]?.any Token.isHigh = true ∧ ts[i + 1]?.any Token.isLow = true

instance (ts : List Token) (i : Nat) : Decidable (PairAt ts i) :=
  inferInstanceAs (Decidable (_ ∧ _))

/-- A half of a character that belongs to no pair, neither as its first nor as its second. -/
def LoneAt (ts : List Token) (i : Nat) : Prop :=
  ts[i]?.any (fun t => t.isHigh || t.isLow) = true ∧ ¬ PairAt ts i ∧ ¬ (0 < i ∧ PairAt ts (i - 1))

instance (ts : List Token) (i : Nat) : Decidable (LoneAt ts i) :=
  inferInstanceAs (Decidable (_ ∧ _))

/-- Tokens with the escape of the replacement character for each lone half. -/
def replaced (ts : List Token) : List Token :=
  ts.mapIdx fun i t => if LoneAt ts i then .replacement else t

theorem pairAt_succ (t : Token) (ts : List Token) (i : Nat) :
    PairAt (t :: ts) (i + 1) ↔ PairAt ts i :=
  Iff.rfl

/-- A token in front changes nothing behind it, unless it makes a pair. -/
theorem loneAt_succ {t : Token} {ts : List Token} (h : ¬ PairAt (t :: ts) 0) (i : Nat) :
    LoneAt (t :: ts) (i + 1) ↔ LoneAt ts i := by
  have hbefore : ¬ (0 < i + 1 ∧ PairAt (t :: ts) i) ↔ ¬ (0 < i ∧ PairAt ts (i - 1)) := by
    cases i with
    | zero => simp [h]
    | succ i => simp [pairAt_succ]
  simp only [LoneAt, pairAt_succ, Nat.add_sub_cancel, hbefore, List.getElem?_cons_succ]

theorem replaced_cons {t : Token} {ts : List Token} (h : ¬ PairAt (t :: ts) 0) :
    replaced (t :: ts) =
      (if t.isHigh || t.isLow then .replacement else t) :: replaced ts := by
  have hzero : LoneAt (t :: ts) 0 ↔ (t.isHigh || t.isLow) = true := by
    simp [LoneAt, h]
  simp only [replaced, List.mapIdx_cons, hzero, loneAt_succ h]

theorem replaced_pair {t u : Token} {ts : List Token} (ht : t.isHigh = true)
    (hu : u.isLow = true) (hnot : u.isHigh = false) :
    replaced (t :: u :: ts) = t :: u :: replaced ts := by
  have hpair : PairAt (t :: u :: ts) 0 := ⟨by simpa using ht, by simpa using hu⟩
  have hnext : ¬ PairAt (u :: ts) 0 := fun h => by simp [PairAt, hnot] at h
  have hzero : ¬ LoneAt (t :: u :: ts) 0 := fun h => h.2.1 hpair
  have hone : ¬ LoneAt (t :: u :: ts) 1 := fun h => h.2.2 ⟨Nat.one_pos, hpair⟩
  have hrest : ∀ i, LoneAt (t :: u :: ts) (i + 1 + 1) ↔ LoneAt ts i := by
    intro i
    rw [← loneAt_succ hnext i]
    simp only [LoneAt, pairAt_succ, Nat.add_sub_cancel, List.getElem?_cons_succ, Nat.succ_pos,
      true_and]
  simp only [replaced, List.mapIdx_cons, hzero, hone, hrest, if_false, Nat.zero_add]

theorem Token.half_unit {a b c d : Char} {unit : Nat} (h : Units.ofHex? a b c d = some unit) :
    (Token.unit a b c d).isHigh = Units.isHigh unit ∧
      (Token.unit a b c d).isLow = Units.isLow unit := by
  simp [Token.isHigh, Token.isLow, Token.unit?, h]

/-- Where a token is no high half, it makes no pair with the one behind it. -/
theorem not_pairAt_of_not_high {t : Token} (h : t.isHigh = false) (ts : List Token) :
    ¬ PairAt (t :: ts) 0 := fun hp => by
  simp [PairAt, h] at hp

theorem repair_escape {e : Char} {cs : List Char} (h : e = 'u' → NoUnit cs) :
    repair ('\\' :: e :: cs) = '\\' :: e :: repair cs := by
  by_cases hu : e = 'u'
  · subst hu
    exact repair_noUnit (h rfl)
  · exact repair_short hu cs

theorem repair_replacement (cs : List Char) :
    repair (replacement ++ cs) = replacement ++ repair cs :=
  repair_whole ofHex?_replacement cs rfl rfl

/-- **What a repair changes.** A repaired text is read as the tokens of the text, with the escape
of the replacement character for each lone half. -/
theorem tokens_repair (cs : List Char) : tokens (repair cs) = replaced (tokens cs) := by
  induction cs using repair_induction with
  | nil | last => rfl
  | plain hb ih =>
    rw [repair_cons hb, tokens_plain hb, tokens_plain hb, ih,
      replaced_cons (not_pairAt_of_not_high rfl _)]
    rfl
  | escape hno ih =>
    rw [repair_escape hno, tokens_escape hno, tokens_escape fun hu => (hno hu).repair, ih,
      replaced_cons (not_pairAt_of_not_high rfl _)]
    rfl
  | whole hu hh hl ih =>
    obtain ⟨hhigh, hlow⟩ := Token.half_unit hu
    rw [repair_whole hu _ hh hl, tokens_unit hu, tokens_unit hu, ih,
      replaced_cons (not_pairAt_of_not_high (hhigh.trans hh) _), hhigh, hlow, hh, hl]
    rfl
  | loneLow hu hh hl ih =>
    obtain ⟨hhigh, hlow⟩ := Token.half_unit hu
    rw [repair_loneLow hu _ hh hl, tokens_replacement, tokens_unit hu, ih,
      replaced_cons (not_pairAt_of_not_high (hhigh.trans hh) _), hlow, hl, Bool.or_true]
    rfl
  | @loneHigh a b c d unit rest hu hh hs ih =>
    obtain ⟨hhigh, hlow⟩ := Token.half_unit hu
    have hpair : ¬ PairAt (.unit a b c d :: tokens rest) 0 := by
      intro hp
      have hnext : (tokens rest)[0]?.any Token.isLow = true := hp.2
      rw [← startsLow_eq, hs] at hnext
      cases hnext
    rw [repair_loneHigh hu _ hh hs, tokens_replacement, tokens_unit hu, ih, replaced_cons hpair,
      hhigh, hh, Bool.true_or]
    rfl
  | pair hu hh hu' hl ih =>
    obtain ⟨hhigh, -⟩ := Token.half_unit hu
    obtain ⟨hhigh', hlow'⟩ := Token.half_unit hu'
    rw [repair_pair hu _ hh hu' hl, tokens_unit hu, tokens_unit hu', tokens_unit hu,
      tokens_unit hu', ih, replaced_pair (hhigh.trans hh) (hlow'.trans hl)
        (hhigh'.trans (isHigh_of_isLow hl))]

/-- A text is left as it is exactly where it has no lone half. -/
theorem repair_eq_self_iff {cs : List Char} :
    repair cs = cs ↔ ∀ i, ¬ LoneAt (tokens cs) i := by
  constructor
  · intro h i hlone
    have htokens := tokens_repair cs
    rw [h] at htokens
    have hget := congrArg (·[i]?) htokens
    obtain ⟨t, ht, hhalf⟩ := Option.any_eq_true _ _ |>.1 hlone.1
    simp only [replaced, List.getElem?_mapIdx, ht, Option.map_some, if_pos hlone,
      Option.some.injEq] at hget
    subst hget
    revert hhalf
    decide
  · intro h
    have hsame : replaced (tokens cs) = tokens cs := by
      refine List.ext_getElem? fun i => ?_
      simp only [replaced, List.getElem?_mapIdx, if_neg (h i), Option.map_id_fun', id_eq]
    rw [← flatMap_text_tokens (repair cs), tokens_repair, hsame, flatMap_text_tokens]

/-- A repaired text has no lone half. -/
theorem repair_repair (cs : List Char) : repair (repair cs) = repair cs := by
  induction cs using repair_induction with
  | nil | last => rfl
  | plain hb ih => rw [repair_cons hb, repair_cons hb, ih]
  | escape hno ih => rw [repair_escape hno, repair_escape fun hu => (hno hu).repair, ih]
  | whole hu hh hl ih => rw [repair_whole hu _ hh hl, repair_whole hu _ hh hl, ih]
  | loneLow hu hh hl ih => rw [repair_loneLow hu _ hh hl, repair_replacement, ih]
  | loneHigh hu hh hs ih => rw [repair_loneHigh hu _ hh hs, repair_replacement, ih]
  | pair hu hh hu' hl ih => rw [repair_pair hu _ hh hu' hl, repair_pair hu _ hh hu' hl, ih]

/-! ## Length and early return -/

/-- The bytes of a text in UTF-8. -/
def bytes (cs : List Char) : List UInt8 :=
  cs.flatMap String.utf8EncodeChar

theorem length_bytes_cons (c : Char) (cs : List Char) :
    (bytes (c :: cs)).length = c.utf8Size + (bytes cs).length := by
  rw [bytes, List.flatMap_cons, List.length_append, String.length_utf8EncodeChar, bytes]

theorem length_bytes_append (cs ds : List Char) :
    (bytes (cs ++ ds)).length = (bytes cs).length + (bytes ds).length := by
  simp only [bytes, List.flatMap_append, List.length_append]

theorem utf8ByteSize_ofList (cs : List Char) :
    (String.ofList cs).utf8ByteSize = (bytes cs).length := by
  rw [String.utf8ByteSize, String.toByteArray_ofList, List.utf8Encode, List.size_toByteArray, bytes]

theorem utf8Size_hexDigit {c : Char} {n : Fin 16} (h : hexDigit? c = some n) : c.utf8Size = 1 := by
  have hc : c.toNat < 128 := by
    unfold hexDigit? at h
    split at h
    · omega
    split at h
    · omega
    split at h
    · omega
    · cases h
  rw [Char.utf8Size_eq_one_iff, UInt32.le_iff_toNat_le]
  exact Nat.le_of_lt_succ hc

/-- An escape is as long as that of the replacement character. -/
theorem length_bytes_unit {a b c d : Char} {unit : Nat} (h : Units.ofHex? a b c d = some unit)
    (rest : List Char) :
    (bytes ('\\' :: 'u' :: a :: b :: c :: d :: rest)).length =
      (bytes (replacement ++ rest)).length := by
  have hdigits : ∀ e ∈ [a, b, c, d], e.utf8Size = 1 := fun e he =>
    utf8Size_hexDigit (Quoted.ofHex?_digits h e he).choose_spec
  simp only [List.forall_mem_cons] at hdigits
  obtain ⟨ha, hb, hc, hd, -⟩ := hdigits
  have hf : 'f'.utf8Size = 1 := rfl
  have hd' : 'd'.utf8Size = 1 := rfl
  simp only [replacement, List.cons_append, List.nil_append, length_bytes_cons, ha, hb, hc, hd, hf,
    hd']

/-- **Length.** A repaired text has as many bytes. -/
theorem utf8ByteSize_repair (cs : List Char) :
    (String.ofList (repair cs)).utf8ByteSize = (String.ofList cs).utf8ByteSize := by
  rw [utf8ByteSize_ofList, utf8ByteSize_ofList]
  induction cs using repair_induction with
  | nil | last => rfl
  | plain hb ih => rw [repair_cons hb, length_bytes_cons, length_bytes_cons, ih]
  | escape hno ih =>
    rw [repair_escape hno]
    simp only [length_bytes_cons, ih]
  | whole hu hh hl ih =>
    rw [repair_whole hu _ hh hl]
    simp only [length_bytes_cons, ih]
  | loneLow hu hh hl ih =>
    rw [repair_loneLow hu _ hh hl, length_bytes_unit hu, length_bytes_append, length_bytes_append,
      ih]
  | loneHigh hu hh hs ih =>
    rw [repair_loneHigh hu _ hh hs, length_bytes_unit hu, length_bytes_append, length_bytes_append,
      ih]
  | pair hu hh hu' hl ih =>
    rw [repair_pair hu _ hh hu' hl]
    simp only [length_bytes_cons, ih]

theorem mentionsUnit_iff (cs : List Char) : mentionsUnit cs = true ↔ ['\\', 'u'] <:+: cs := by
  fun_induction mentionsUnit cs with
  | case1 rest => simpa using (List.prefix_append ['\\', 'u'] rest).isInfix
  | case2 c rest hnot ih =>
    rw [ih, List.infix_cons_iff]
    refine (or_iff_right ?_).symm
    rintro ⟨tail, htail⟩
    obtain ⟨rfl, rfl⟩ := List.cons.inj htail
    exact hnot tail rfl rfl
  | case3 => simp

end Surrogates

/-! ## The count of brackets -/

namespace Nesting

open Surrogates (repair repair_induction)

theorem quiet_hexDigit {c : Char} {n : Fin 16} (h : hexDigit? c = some n) : Quiet c := by
  intro hc
  simp only [List.mem_cons, List.not_mem_nil, or_false] at hc
  rcases hc with rfl | rfl | rfl | rfl | rfl | rfl | rfl <;> cases h

theorem Scan.step_quiet {s : Scan} {c : Char} (hs : s.escaped = false) (hc : Quiet c) :
    s.step c = s := by
  simp only [Quiet, List.mem_cons, List.not_mem_nil, or_false, not_or] at hc
  simp [Scan.step, hs, hc]

/-- A backslash takes the character after it along inside quotes, and nothing outside. -/
theorem Scan.escaped_pair {s : Scan} (hs : s.escaped = false) (e : Char) :
    ((s.step '\\').step e).escaped = false := by
  obtain ⟨current, deepest, quoted, escaped⟩ := s
  cases hs
  cases quoted with
  | true => rfl
  | false =>
    have hstep : (⟨current, deepest, false, false⟩ : Scan).step '\\' =
        ⟨current, deepest, false, false⟩ := rfl
    rw [hstep]
    simp only [Scan.step]
    split_ifs <;> rfl

/-- The escape of a unit is passed over, inside quotes and outside. -/
theorem foldl_unit {a b c d : Char} {unit : Nat} (hu : Units.ofHex? a b c d = some unit) {s : Scan}
    (hs : s.escaped = false) (rest : List Char) :
    ('\\' :: 'u' :: a :: b :: c :: d :: rest).foldl Scan.step s = rest.foldl Scan.step s := by
  have hletter : (s.step '\\').step 'u' = s := by
    obtain ⟨current, deepest, quoted, escaped⟩ := s
    cases hs
    cases quoted <;> rfl
  have hdigits : ∀ e ∈ [a, b, c, d], s.step e = s := fun e he =>
    Scan.step_quiet hs (quiet_hexDigit (Quoted.ofHex?_digits hu e he).choose_spec)
  simp only [List.forall_mem_cons] at hdigits
  obtain ⟨ha, hb, hc, hd, -⟩ := hdigits
  simp only [List.foldl_cons, hletter, ha, hb, hc, hd]

/-- A pass over a repaired text ends where one over the text does. -/
theorem foldl_repair (cs : List Char) :
    ∀ {s : Scan}, s.escaped = false → (repair cs).foldl Scan.step s = cs.foldl Scan.step s := by
  induction cs using repair_induction with
  | nil | last => exact fun _ => rfl
  | plain hb ih =>
    intro s hs
    rw [Surrogates.repair_cons hb]
    exact ih (Scan.step_side hs hb).1
  | @escape e cs hno ih =>
    intro s hs
    rw [Surrogates.repair_escape hno]
    exact ih (Scan.escaped_pair hs e)
  | whole hu hh hl ih =>
    intro s hs
    rw [Surrogates.repair_whole hu _ hh hl, foldl_unit hu hs, foldl_unit hu hs, ih hs]
  | loneLow hu hh hl ih =>
    intro s hs
    rw [Surrogates.repair_loneLow hu _ hh hl, foldl_unit hu hs, ← ih hs]
    exact foldl_unit Surrogates.ofHex?_replacement hs _
  | loneHigh hu hh hlow ih =>
    intro s hs
    rw [Surrogates.repair_loneHigh hu _ hh hlow, foldl_unit hu hs, ← ih hs]
    exact foldl_unit Surrogates.ofHex?_replacement hs _
  | pair hu hh hu' hl ih =>
    intro s hs
    rw [Surrogates.repair_pair hu _ hh hu' hl, foldl_unit hu hs, foldl_unit hu' hs,
      foldl_unit hu hs, foldl_unit hu' hs, ih hs]

/-- **Depth.** A repair changes nothing about the brackets of a text. -/
theorem depth_repair (cs : List Char) : depth (repair cs) = depth cs := by
  rw [depth, depth, foldl_repair cs rfl]

end Nesting

namespace Surrogates

/-- **Repair.** A text is read from left to right as tokens, whose texts make it up. A repair puts
the escape of the replacement character in the place of every half that belongs to no pair, copies
all other tokens, and the text that is left is read as these tokens. It has as many bytes and the
same depth of brackets, and a second repair changes nothing; the text is left as it is exactly where
it has no lone half. What is left at once, a text without a backslash before a `u`, is what the pass
would leave too. -/
theorem repair_reading (cs : List Char) :
    ((tokens cs).flatMap Token.text = cs ∧
      repair cs = (replaced (tokens cs)).flatMap Token.text ∧
      tokens (repair cs) = replaced (tokens cs)) ∧
    (String.ofList (repair cs)).utf8ByteSize = (String.ofList cs).utf8ByteSize ∧
    Nesting.depth (repair cs) = Nesting.depth cs ∧
    repair (repair cs) = repair cs ∧
    (repair cs = cs ↔ ∀ i, ¬ LoneAt (tokens cs) i) ∧
    (mentionsUnit cs = true ↔ ['\\', 'u'] <:+: cs) ∧ repair cs = repairFrom false cs := by
  refine ⟨⟨flatMap_text_tokens cs, ?_, tokens_repair cs⟩, utf8ByteSize_repair cs,
    Nesting.depth_repair cs, repair_repair cs, repair_eq_self_iff, mentionsUnit_iff cs,
    repair_eq cs⟩
  rw [← tokens_repair, flatMap_text_tokens]

/-- Of two high halves the second makes the pair. -/
example : repair "\\ud83d\\ud83d\\ude00".toList = "\\ufffd\\ud83d\\ude00".toList := by
  decide

end Surrogates

end QueryForm
