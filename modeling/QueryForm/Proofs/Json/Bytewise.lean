/-
The repair of a text as a loop over byte offsets.

Each turn looks for a backslash, copies the text before it and cuts the
escape off, at an offset that depends on what it is: six bytes for a unit,
twelve for a pair, and two or more for a backslash with the character after
it. The tests that come before a cut make it one between two characters. So
a turn comes to a value, and leaves a text that is shorter (`turn_takes`),
and the loop comes to the repair of the text (`repairAll_eq`).
-/
import Mathlib.Data.List.Basic
import QueryForm.Proofs.Text.Cut

namespace QueryForm.Bytewise

open Surrogates (bytes replacement mentionsUnit repair_induction NoUnit startsLow)
open Text (size cut? find? ofByte Run upTo onward)

/-! ## The loop -/

/-- The text after the two characters in front of a unit. -/
def afterMark? : List Char → Option (List Char)
  | '\\' :: 'u' :: cs => some cs
  | _ => none

/-- The unit whose escape a text begins with: the four bytes after the mark, if they are cut off
between two characters, are digits. -/
def unit? (cs : List Char) : Option Nat := do
  let cs ← afterMark? cs
  let (digits, _) ← cut? 4 cs
  if (bytes digits).all fun b => (hexDigit? (ofByte b)).isSome then
    digits.foldlM (fun n c => (hexDigit? c).map fun d => 16 * n + d.val) 0
  else none

/-- What is written for the escape that a text begins with, and the text after it. -/
def escape (cs : List Char) : Run (List Char × List Char) :=
  match unit? cs with
  | some unit =>
    if Units.isHigh unit then
      if ((cut? 6 cs).bind fun (_, after) => unit? after).any Units.isLow then
        return (← upTo 12 cs, ← onward 12 cs)
      else return (replacement, ← onward 6 cs)
    else if Units.isLow unit then return (replacement, ← onward 6 cs)
    else return (← upTo 6 cs, ← onward 6 cs)
  | none => do
    let after ← onward 1 cs
    let length := 1 + after.head?.elim 0 Char.utf8Size
    return (← upTo length cs, ← onward length cs)

/-- One turn of the loop: what is written and the text that is left, or none where no backslash is
left. -/
def turn (rest : List Char) : Run (Option (List Char × List Char)) :=
  match find? (· == '\\') rest with
  | some n => do
    let before ← upTo n rest
    let (written, left) ← escape (← onward n rest)
    return some (before ++ written, left)
  | none => return none

/-! ## Units -/

theorem afterMark?_eq_some {cs ds : List Char} (h : afterMark? cs = some ds) :
    cs = '\\' :: 'u' :: ds := by
  unfold afterMark? at h
  split at h
  · cases h
    rfl
  · cases h

theorem foldlM_digits (a b c d : Char) :
    [a, b, c, d].foldlM (fun n c => (hexDigit? c).map fun d => 16 * n + d.val) 0 =
      Units.ofHex? a b c d := by
  cases ha : hexDigit? a with
  | none => simp [Units.ofHex?, ha]
  | some a =>
    cases hb : hexDigit? b with
    | none => simp [Units.ofHex?, ha, hb]
    | some b =>
      cases hc : hexDigit? c with
      | none => simp [Units.ofHex?, ha, hb, hc]
      | some c =>
        cases hd : hexDigit? d with
        | none => simp [Units.ofHex?, ha, hb, hc, hd]
        | some d =>
          simp [Units.ofHex?, ha, hb, hc, hd]
          omega

theorem digit_of_ofHex? {a b c d : Char} {unit : Nat} (h : Units.ofHex? a b c d = some unit) :
    ∀ e ∈ [a, b, c, d], (hexDigit? e).isSome = true := fun e he =>
  Option.isSome_iff_exists.2 (Quoted.ofHex?_digits h e he)

/-- A unit is found where it is written: the bytes looked at are its four digits. -/
theorem unit?_eq_some_iff {cs : List Char} {unit : Nat} : unit? cs = some unit ↔
    ∃ a b c d rest, cs = '\\' :: 'u' :: a :: b :: c :: d :: rest ∧
      Units.ofHex? a b c d = some unit := by
  constructor
  · intro h
    simp only [unit?, Option.bind_eq_bind, Option.bind_eq_some_iff] at h
    obtain ⟨ds, hmark, ⟨digits, rest⟩, hcut, h⟩ := h
    obtain ⟨rfl, hsize⟩ := Text.cut?_sound hcut
    split at h
    · next hall =>
      rw [Text.all_bytes Text.ascii_hexDigit, List.all_eq_true] at hall
      rw [Text.size_of_ascii Text.ascii_hexDigit hall] at hsize
      obtain ⟨a, b, c, d, rfl⟩ := List.length_eq_four.1 hsize.symm
      rw [foldlM_digits] at h
      exact ⟨a, b, c, d, rest, afterMark?_eq_some hmark, h⟩
    · cases h
  · rintro ⟨a, b, c, d, rest, rfl, hu⟩
    have hdigits := digit_of_ofHex? hu
    have hcut := Text.cut?_append [a, b, c, d] rest
    rw [Text.size_of_ascii Text.ascii_hexDigit hdigits] at hcut
    have hall : (bytes [a, b, c, d]).all (fun b => (hexDigit? (ofByte b)).isSome) = true := by
      rw [Text.all_bytes Text.ascii_hexDigit, List.all_eq_true]
      exact hdigits
    simp only [unit?, afterMark?, Option.bind_eq_bind, Option.bind_some]
    simp only [List.cons_append, List.nil_append, List.length_cons, List.length_nil] at hcut
    rw [hcut, Option.bind_some, if_pos hall, foldlM_digits, hu]

theorem any_unit? (cs : List Char) : (unit? cs).any Units.isLow = startsLow cs := by
  rw [Bool.eq_iff_iff, Option.any_eq_true]
  constructor
  · rintro ⟨unit, hunit, hl⟩
    obtain ⟨a, b, c, d, rest, rfl, hu⟩ := unit?_eq_some_iff.1 hunit
    simpa [startsLow, hu] using hl
  · intro h
    obtain ⟨a, b, c, d, rest, unit, rfl, hu, hl⟩ := Surrogates.startsLow_eq_true h
    exact ⟨unit, unit?_eq_some_iff.2 ⟨a, b, c, d, rest, rfl, hu⟩, hl⟩

theorem unit?_escape {e : Char} {cs : List Char} (h : e = 'u' → NoUnit cs) :
    unit? ('\\' :: e :: cs) = none := by
  by_contra hne
  obtain ⟨unit, hunit⟩ := Option.ne_none_iff_exists'.1 hne
  obtain ⟨a, b, c, d, rest, heq, hu⟩ := unit?_eq_some_iff.1 hunit
  simp only [List.cons.injEq, true_and] at heq
  obtain ⟨rfl, rfl⟩ := heq
  rw [h rfl a b c d rest rfl] at hu
  cases hu

/-! ## Cuts -/

section

variable {a b c d : Char} {unit : Nat} (hu : Units.ofHex? a b c d = some unit) (rest : List Char)

include hu

theorem unit?_unit : unit? ('\\' :: 'u' :: a :: b :: c :: d :: rest) = some unit :=
  unit?_eq_some_iff.2 ⟨a, b, c, d, rest, rfl, hu⟩

theorem size_unit : size ['\\', 'u', a, b, c, d] = 6 := by
  have hdigits := Text.size_of_ascii Text.ascii_hexDigit (digit_of_ofHex? hu)
  have hmark : size ['\\', 'u'] = 2 := rfl
  have := Text.size_append ['\\', 'u'] [a, b, c, d]
  simp only [List.cons_append, List.nil_append, List.length_cons, List.length_nil] at this hdigits
  omega

/-- A unit ends six bytes on. -/
theorem cut?_unit : cut? 6 ('\\' :: 'u' :: a :: b :: c :: d :: rest) =
    some (['\\', 'u', a, b, c, d], rest) := by
  have := Text.cut?_append ['\\', 'u', a, b, c, d] rest
  rwa [size_unit hu] at this

/-- A pair ends twelve bytes on. -/
theorem cut?_pair {a' b' c' d' : Char} {low : Nat} (hu' : Units.ofHex? a' b' c' d' = some low) :
    cut? 12 ('\\' :: 'u' :: a :: b :: c :: d :: '\\' :: 'u' :: a' :: b' :: c' :: d' :: rest) =
      some (['\\', 'u', a, b, c, d, '\\', 'u', a', b', c', d'], rest) := by
  have hsize := Text.size_append ['\\', 'u', a, b, c, d] ['\\', 'u', a', b', c', d']
  have := Text.cut?_append ['\\', 'u', a, b, c, d, '\\', 'u', a', b', c', d'] rest
  rw [size_unit hu, size_unit hu'] at hsize
  simp only [List.cons_append, List.nil_append] at hsize
  rwa [hsize] at this

end

/-- A backslash takes the character after it along, however many bytes that has. -/
theorem cut?_escape (e : Char) (cs : List Char) :
    cut? (1 + e.utf8Size) ('\\' :: e :: cs) = some (['\\', e], cs) := by
  have hone : '\\'.utf8Size = 1 := rfl
  have := Text.cut?_append ['\\', e] cs
  simpa [hone] using this

/-! ## Turns -/

/-- A text gives up some of its front, and its repair begins with what is written for that. -/
structure Takes (cs written left : List Char) : Prop where
  shorter : ∃ used, used ≠ [] ∧ cs = used ++ left
  repaired : Surrogates.repair cs = written ++ Surrogates.repair left

theorem Takes.size_lt {cs written left : List Char} (h : Takes cs written left) :
    size left < size cs := by
  obtain ⟨used, hne, rfl⟩ := h.shorter
  have := Text.size_pos hne
  rw [Text.size_append]
  omega

/-- An escape comes to a value. -/
theorem escape_takes (cs : List Char) :
    ∃ written left, escape ('\\' :: cs) = pure (written, left) ∧
      Takes ('\\' :: cs) written left := by
  generalize htext : '\\' :: cs = text
  cases text using repair_induction with
  | nil => cases htext
  | plain hb => exact absurd (List.cons.inj htext).1.symm hb
  | last => exact ⟨['\\'], [], rfl, ⟨['\\'], by simp, rfl⟩, rfl⟩
  | @escape e rest hno =>
    refine ⟨['\\', e], rest, ?_, ⟨['\\', e], by simp, rfl⟩, Surrogates.repair_escape hno⟩
    have hafter : onward 1 ('\\' :: e :: rest) = pure (e :: rest) :=
      Text.onward_append ['\\'] (e :: rest)
    have hcut := cut?_escape e rest
    simp [escape, unit?_escape hno, hafter, Text.upTo_of_cut? hcut, Text.onward_of_cut? hcut]
  | @whole a b c d unit rest hu hh hl =>
    refine ⟨['\\', 'u', a, b, c, d], rest, ?_, ⟨['\\', 'u', a, b, c, d], by simp, rfl⟩,
      Surrogates.repair_whole hu rest hh hl⟩
    have hcut := cut?_unit hu rest
    simp [escape, unit?_unit hu, hh, hl, Text.upTo_of_cut? hcut, Text.onward_of_cut? hcut]
  | @loneLow a b c d unit rest hu hh hl =>
    refine ⟨replacement, rest, ?_, ⟨['\\', 'u', a, b, c, d], by simp, rfl⟩,
      Surrogates.repair_loneLow hu rest hh hl⟩
    simp [escape, unit?_unit hu, hh, hl, Text.onward_of_cut? (cut?_unit hu rest)]
  | @loneHigh a b c d unit rest hu hh hs =>
    refine ⟨replacement, rest, ?_, ⟨['\\', 'u', a, b, c, d], by simp, rfl⟩,
      Surrogates.repair_loneHigh hu rest hh hs⟩
    have hcut := cut?_unit hu rest
    simp [escape, unit?_unit hu, hh, hcut, any_unit?, hs, Text.onward_of_cut? hcut]
  | @pair a b c d unit a' b' c' d' low rest hu hh hu' hl =>
    refine ⟨['\\', 'u', a, b, c, d, '\\', 'u', a', b', c', d'], rest, ?_,
      ⟨['\\', 'u', a, b, c, d, '\\', 'u', a', b', c', d'], by simp, rfl⟩,
      Surrogates.repair_pair hu rest hh hu' hl⟩
    have hcut := cut?_pair hu rest hu'
    have hlow : startsLow ('\\' :: 'u' :: a' :: b' :: c' :: d' :: rest) = true := by
      simp [startsLow, hu', hl]
    simp [escape, unit?_unit hu, hh, cut?_unit hu, any_unit?, hlow, Text.upTo_of_cut? hcut,
      Text.onward_of_cut? hcut]

theorem repair_append {before : List Char} (h : ∀ c ∈ before, c ≠ '\\') (cs : List Char) :
    Surrogates.repair (before ++ cs) = before ++ Surrogates.repair cs := by
  induction before with
  | nil => rfl
  | cons c before ih =>
    rw [List.forall_mem_cons] at h
    rw [List.cons_append, Surrogates.repair_cons h.1, ih h.2, List.cons_append]

theorem repair_of_not_mem {cs : List Char} (h : '\\' ∉ cs) : Surrogates.repair cs = cs := by
  have hrepair := repair_append (fun c hc e => h (e ▸ hc)) []
  have hnil : Surrogates.repair [] = [] := rfl
  rwa [hnil, List.append_nil] at hrepair

/-- **One turn.** A turn comes to a value: it is the last one where no backslash is left, and else
it leaves a shorter text. -/
theorem turn_takes (rest : List Char) :
    (turn rest = pure none ∧ '\\' ∉ rest) ∨
      ∃ written left, turn rest = pure (some (written, left)) ∧ Takes rest written left := by
  cases hfind : find? (· == '\\') rest with
  | none =>
    refine .inl ⟨by rw [turn, hfind], fun hmem => ?_⟩
    have := Text.find?_eq_none hfind _ hmem
    simp at this
  | some n =>
    obtain ⟨before, e, cs, rfl, rfl, he, hbefore⟩ := Text.find?_sound hfind
    obtain rfl : e = '\\' := by simpa using he
    obtain ⟨written, left, hescape, htakes⟩ := escape_takes cs
    obtain ⟨used, hne, hused⟩ := htakes.shorter
    refine .inr ⟨before ++ written, left, ?_, ⟨before ++ used, by simp [hne], ?_⟩, ?_⟩
    · simp [turn, hfind, Text.upTo_append, Text.onward_append, hescape]
    · rw [hused, List.append_assoc]
    · rw [repair_append (by simpa using hbefore), htakes.repaired, List.append_assoc]

/-- The character after a high half has two bytes, and is not cut into. -/
example : turn ['é', '\\', 'u', 'd', '8', '3', 'd', 'é', '\\'] =
    pure (some ('é' :: replacement, ['é', '\\'])) :=
  rfl

/-- A turn that is not the last leaves a shorter text. -/
theorem size_lt_of_turn {rest written left : List Char}
    (h : turn rest = .ok (some (written, left))) : size left < size rest := by
  obtain ⟨hturn, -⟩ | ⟨_, _, hturn, htakes⟩ := turn_takes rest
  · cases h.symm.trans hturn
  · cases h.symm.trans hturn
    exact htakes.size_lt

/-- Takes turns until no backslash is left, with what has been written before. There is an end to
them because every turn leaves a shorter text. -/
def repairAll (out rest : List Char) : Run (List Char) :=
  match _h : turn rest with
  | .ok (some (written, left)) => repairAll (out ++ written) left
  | .ok none => .ok (out ++ rest)
  | .error fault => .error fault
termination_by size rest
decreasing_by exact size_lt_of_turn ‹_›

/-- The repair of a text; one that can have no lone half is left as it is. -/
def repair (cs : List Char) : Run (List Char) :=
  if mentionsUnit cs then repairAll [] cs else .ok cs

theorem repairAll_last {rest : List Char} (h : turn rest = .ok none) (out : List Char) :
    repairAll out rest = .ok (out ++ rest) := by
  rw [repairAll]
  split
  · next hturn => cases h.symm.trans hturn
  · rfl
  · next hturn => cases h.symm.trans hturn

theorem repairAll_turn {rest written left : List Char}
    (h : turn rest = .ok (some (written, left))) (out : List Char) :
    repairAll out rest = repairAll (out ++ written) left := by
  rw [repairAll]
  split
  · next hturn =>
    cases h.symm.trans hturn
    rfl
  · next hturn => cases h.symm.trans hturn
  · next hturn => cases h.symm.trans hturn

/-- **The loop.** What the turns have written in the end is the repair. -/
theorem repairAll_eq (out rest : List Char) :
    repairAll out rest = .ok (out ++ Surrogates.repair rest) := by
  induction h : size rest using Nat.strongRecOn generalizing out rest with
  | _ n ih =>
  subst h
  obtain ⟨hturn, hnone⟩ | ⟨written, left, hturn, htakes⟩ := turn_takes rest
  · rw [repairAll_last hturn, repair_of_not_mem hnone]
  · rw [repairAll_turn hturn, ih _ htakes.size_lt _ _ rfl, htakes.repaired, List.append_assoc]

theorem repair_eq (cs : List Char) : repair cs = .ok (Surrogates.repair cs) := by
  unfold repair
  split
  · exact repairAll_eq [] cs
  · next h => rw [Surrogates.repair, if_neg h]

end QueryForm.Bytewise
