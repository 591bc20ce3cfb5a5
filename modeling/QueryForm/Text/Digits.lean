/-
Decimal digits and runs of them.

A `DigitRun` is what a grammar writes where it asks for one digit or more.
Being a first digit and a rest, it is never empty, so every run is the text
of a run and reads back as it was. `DigitRun.ofNat` is the spelling of a
natural number without leading zeros, `DigitRun.lowest` its last digits,
with zeros in front where it has too few.
-/
namespace QueryForm

/-- A decimal digit. -/
abbrev Digit := Fin 10

namespace Digit

/-- The character that writes a digit. -/
def char (d : Digit) : Char :=
  Nat.digitChar d

/-- The digit that a character writes. -/
def ofChar? (c : Char) : Option Digit :=
  if h : 48 ≤ c.toNat ∧ c.toNat < 58 then some ⟨c.toNat - 48, by omega⟩ else none

/-- The longest run of digits, which may be empty, and what follows it. -/
def scan : List Char → List Digit × List Char
  | [] => ([], [])
  | c :: cs =>
    match ofChar? c with
    | some d => let (ds, rest) := scan cs; (d :: ds, rest)
    | none => ([], c :: cs)

/-- The number that digits write, the leading one first. -/
def value (ds : List Digit) : Nat :=
  ds.foldl (fun n d => 10 * n + d.val) 0

@[simp] theorem ofChar?_char (d : Digit) : ofChar? d.char = some d := by
  revert d; decide

theorem char_of_ofChar? {c : Char} {d : Digit} (h : ofChar? c = some d) : d.char = c := by
  unfold ofChar? at h
  split at h
  · rename_i hc
    cases h
    rw [char, ← Char.toNat_inj, Nat.toNat_digitChar_of_lt_ten (by simp; omega)]
    simp; omega
  · cases h

/-- No digit comes next. -/
def NoneNext (cs : List Char) : Prop :=
  ∀ c ∈ cs.head?, ofChar? c = none

/-- A run of digits is read up to the first character that is none. -/
theorem scan_append (ds : List Digit) {rest : List Char} (h : NoneNext rest) :
    scan (ds.map char ++ rest) = (ds, rest) := by
  induction ds with
  | nil =>
    cases rest with
    | nil => rfl
    | cons c cs => simp [scan, h c rfl]
  | cons d ds ih => simp [scan, ih]

/-- Nothing is lost by reading digits. -/
theorem scan_text (cs : List Char) : (scan cs).1.map char ++ (scan cs).2 = cs := by
  induction cs with
  | nil => rfl
  | cons c cs ih =>
    simp only [scan]
    split
    · rename_i d hd; simp [char_of_ofChar? hd, ih]
    · rfl

/-- Digits are read as far as they go. -/
theorem scan_noneNext (cs : List Char) : NoneNext (scan cs).2 := by
  induction cs with
  | nil => simp [scan, NoneNext]
  | cons c cs ih =>
    simp only [scan]
    split
    · exact ih
    · rename_i hc; simp [NoneNext, hc]

theorem foldl_eq (ds : List Digit) (n : Nat) :
    ds.foldl (fun n d => 10 * n + d.val) n = Nat.pow 10 ds.length * n + value ds := by
  induction ds generalizing n with
  | nil => simp [value]
  | cons d ds ih =>
    have step : Nat.pow 10 (d :: ds).length = Nat.pow 10 ds.length * 10 := rfl
    rw [value, List.foldl_cons, List.foldl_cons, ih, ih (10 * 0 + d.val), step, Nat.mul_zero,
      Nat.zero_add, Nat.mul_add, Nat.mul_assoc, Nat.add_assoc]

theorem value_cons (d : Digit) (ds : List Digit) :
    value (d :: ds) = Nat.pow 10 ds.length * d.val + value ds := by
  rw [value, List.foldl_cons, foldl_eq, Nat.mul_zero, Nat.zero_add]

theorem value_append (ds es : List Digit) :
    value (ds ++ es) = Nat.pow 10 es.length * value ds + value es := by
  rw [value, List.foldl_append, foldl_eq]; rfl

end Digit

/-- One digit or more. -/
structure DigitRun where
  first : Digit
  rest : List Digit
deriving DecidableEq, Repr

namespace DigitRun

/-- The digits of a run. -/
def digits (run : DigitRun) : List Digit :=
  run.first :: run.rest

/-- The number a run writes. -/
def value (run : DigitRun) : Nat :=
  Digit.value run.digits

/-- How many digits a run has. -/
def length (run : DigitRun) : Nat :=
  run.rest.length + 1

/-- The text of a run. -/
def text (run : DigitRun) : List Char :=
  run.digits.map Digit.char

/-- The longest run at the start of a text, and what follows it. -/
def scan? (cs : List Char) : Option (DigitRun × List Char) :=
  match Digit.scan cs with
  | (d :: ds, rest) => some (⟨d, ds⟩, rest)
  | ([], _) => none

/-- The spelling of a number, with digits already written to its right. -/
def spell (n : Nat) (right : List Digit) : DigitRun :=
  if h : n < 10 then ⟨⟨n, h⟩, right⟩
  else spell (n / 10) (⟨n % 10, Nat.mod_lt _ (by decide)⟩ :: right)
termination_by n

/-- The spelling of a number without leading zeros. -/
def ofNat (n : Nat) : DigitRun :=
  spell n []

/-- The last `more + 1` digits of a number, with digits already written to its right. -/
def lowest (n : Nat) : (more : Nat) → (right : List Digit) → DigitRun
  | 0, right => ⟨⟨n % 10, Nat.mod_lt _ (by decide)⟩, right⟩
  | more + 1, right => lowest (n / 10) more (⟨n % 10, Nat.mod_lt _ (by decide)⟩ :: right)

/-! ## Laws -/

theorem scan?_text (run : DigitRun) {rest : List Char} (h : Digit.NoneNext rest) :
    scan? (run.text ++ rest) = some (run, rest) := by
  rw [scan?, text, Digit.scan_append run.digits h]; rfl

theorem text_of_scan? {cs rest : List Char} {run : DigitRun} (h : scan? cs = some (run, rest)) :
    run.text ++ rest = cs ∧ Digit.NoneNext rest := by
  have text_eq := Digit.scan_text cs
  have next := Digit.scan_noneNext cs
  unfold scan? at h
  split at h
  · rename_i hs; cases h; rw [hs] at text_eq next; exact ⟨text_eq, next⟩
  · cases h

theorem value_spell (n : Nat) (right : List Digit) :
    (spell n right).value = Nat.pow 10 right.length * n + Digit.value right := by
  induction n using Nat.strongRecOn generalizing right with
  | _ n ih =>
    unfold spell
    split
    · exact Digit.value_cons _ _
    · have step (d : Digit) : Nat.pow 10 (d :: right).length = Nat.pow 10 right.length * 10 := rfl
      rw [ih (n / 10) (by omega), Digit.value_cons, step, Nat.mul_assoc, ← Nat.add_assoc,
        ← Nat.mul_add, Nat.div_add_mod]

/-- The spelling of a number writes that number. -/
@[simp] theorem value_ofNat (n : Nat) : (ofNat n).value = n :=
  (value_spell n []).trans (Nat.one_mul n)

theorem first_spell {n : Nat} (h : n ≠ 0) (right : List Digit) : (spell n right).first ≠ 0 := by
  induction n using Nat.strongRecOn generalizing right with
  | _ n ih =>
    unfold spell
    split
    · exact fun e => h (congrArg Fin.val e)
    · exact ih (n / 10) (by omega) (by omega) _

/-- The spelling of a number has a zero in front only where it is all there is. -/
theorem rest_ofNat {n : Nat} (h : (ofNat n).first = 0) : (ofNat n).rest = [] := by
  by_cases hn : n = 0
  · subst hn; rw [ofNat, spell, dif_pos (by decide)]
  · exact absurd h (first_spell hn [])

/-- The last digits of a number write its remainder. -/
theorem value_lowest (n more : Nat) (right : List Digit) :
    (lowest n more right).value =
      Nat.pow 10 right.length * (n % Nat.pow 10 (more + 1)) + Digit.value right := by
  induction more generalizing n right with
  | zero => exact Digit.value_cons _ _
  | succ more ih =>
    have step (d : Digit) : Nat.pow 10 (d :: right).length = Nat.pow 10 right.length * 10 := rfl
    have split : n % Nat.pow 10 (more + 1 + 1) =
        n % 10 + 10 * (n / 10 % Nat.pow 10 (more + 1)) := by
      rw [← Nat.mod_mul, Nat.mul_comm]; rfl
    rw [lowest, ih, Digit.value_cons, step, split, Nat.mul_add, Nat.mul_assoc, ← Nat.add_assoc,
      Nat.add_comm (Nat.pow 10 right.length * (n % 10))]

end DigitRun

/-- How many digits a number has; zero has one. -/
def digitCount (n : Nat) : Nat :=
  (DigitRun.ofNat n).length

/-- The digit that a character writes in base sixteen, in either case. -/
def hexDigit? (c : Char) : Option (Fin 16) :=
  if h : 48 ≤ c.toNat ∧ c.toNat < 58 then some ⟨c.toNat - 48, by omega⟩
  else if h : 65 ≤ c.toNat ∧ c.toNat < 71 then some ⟨c.toNat - 55, by omega⟩
  else if h : 97 ≤ c.toNat ∧ c.toNat < 103 then some ⟨c.toNat - 87, by omega⟩
  else none

/-- The longest run of digits in base sixteen, which may be empty. -/
def scanHex : List Char → List (Fin 16)
  | [] => []
  | c :: cs =>
    match hexDigit? c with
    | some d => d :: scanHex cs
    | none => []

end QueryForm
