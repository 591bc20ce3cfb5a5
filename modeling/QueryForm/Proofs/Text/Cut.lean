/-
Cuts of a text at byte offsets.

An offset into a text counts bytes, and a text can be cut only where a
character begins or the text ends. `cut?` looks for the two parts and finds
them at exactly the valid offsets (`isSome_cut?_iff`). `upTo` and `onward`
cut without a look, and an offset that is not valid is a fault, where a
program over offsets stops (`upTo_iff`, `onward_iff`). The bytes of a class of
ASCII are found only where its characters are (`first_byte`), so a program
that goes by them stays at valid offsets.
-/
import QueryForm.Proofs.Json.Escapes

namespace QueryForm.Text

open Surrogates (bytes)

/-! ## Offsets -/

/-- How many bytes a text has. -/
def size (cs : List Char) : Nat :=
  (bytes cs).length

@[simp] theorem size_nil : size [] = 0 :=
  rfl

@[simp] theorem size_cons (c : Char) (cs : List Char) : size (c :: cs) = c.utf8Size + size cs :=
  Surrogates.length_bytes_cons c cs

@[simp] theorem size_append (cs ds : List Char) : size (cs ++ ds) = size cs + size ds :=
  Surrogates.length_bytes_append cs ds

theorem length_bytes (cs : List Char) : (bytes cs).length = size cs :=
  rfl

theorem size_pos {cs : List Char} (h : cs ≠ []) : 0 < size cs := by
  cases cs with
  | nil => exact absurd rfl h
  | cons c cs =>
    have := c.utf8Size_pos
    simp
    omega

/-- The text before an offset and the text from it on. -/
def cut? (n : Nat) : List Char → Option (List Char × List Char)
  | [] => if n = 0 then some ([], []) else none
  | c :: cs =>
    if n = 0 then some ([], c :: cs)
    else if c.utf8Size ≤ n then (cut? (n - c.utf8Size) cs).map fun (a, b) => (c :: a, b)
    else none

/-- The offset of the first character of a class. -/
def find? (p : Char → Bool) : List Char → Option Nat
  | [] => none
  | c :: cs => if p c then some 0 else (find? p cs).map (c.utf8Size + ·)

theorem cut?_append (before after : List Char) :
    cut? (size before) (before ++ after) = some (before, after) := by
  induction before with
  | nil => cases after <;> rfl
  | cons c cs ih =>
    have hne : c.utf8Size ≠ 0 := Nat.ne_of_gt c.utf8Size_pos
    simp [cut?, hne, ih]

theorem cut?_sound {n : Nat} {cs before after : List Char} (h : cut? n cs = some (before, after)) :
    cs = before ++ after ∧ n = size before := by
  induction cs generalizing n before with
  | nil =>
    simp only [cut?] at h
    split at h
    · next hn => cases h; exact ⟨rfl, hn⟩
    · cases h
  | cons c cs ih =>
    simp only [cut?] at h
    split at h
    · next hn => cases h; exact ⟨rfl, hn⟩
    split at h
    · next hle =>
      obtain ⟨⟨a, b⟩, hcut, heq⟩ := Option.map_eq_some_iff.1 h
      cases heq
      obtain ⟨rfl, hn⟩ := ih hcut
      refine ⟨rfl, ?_⟩
      simp
      omega
    · cases h

/-- **Cuts.** A text is cut at exactly the offsets where a character begins or the text ends. -/
theorem isSome_cut?_iff {n : Nat} {cs : List Char} :
    (cut? n cs).isSome = true ↔ String.Pos.Raw.IsValid (String.ofList cs) ⟨n⟩ := by
  rw [String.Pos.Raw.isValid_ofList]
  constructor
  · intro h
    obtain ⟨⟨before, after⟩, hcut⟩ := Option.isSome_iff_exists.1 h
    obtain ⟨rfl, rfl⟩ := cut?_sound hcut
    refine ⟨before.length, ?_⟩
    simp [Surrogates.utf8ByteSize_ofList, length_bytes]
  · rintro ⟨i, hi⟩
    rw [Surrogates.utf8ByteSize_ofList, length_bytes] at hi
    have := cut?_append (cs.take i) (cs.drop i)
    rw [List.take_append_drop, ← hi] at this
    simp [this]

theorem find?_eq_none {p : Char → Bool} {cs : List Char} (h : find? p cs = none) :
    ∀ c ∈ cs, p c = false := by
  induction cs with
  | nil => simp
  | cons c cs ih =>
    simp only [find?] at h
    split at h
    · cases h
    · next hc =>
      rw [Option.map_eq_none_iff] at h
      simpa [hc] using ih h

theorem find?_sound {p : Char → Bool} {n : Nat} {cs : List Char} (h : find? p cs = some n) :
    ∃ before c after, cs = before ++ c :: after ∧ n = size before ∧ p c = true ∧
      ∀ d ∈ before, p d = false := by
  induction cs generalizing n with
  | nil => cases h
  | cons c cs ih =>
    simp only [find?] at h
    split at h
    · next hc => cases h; exact ⟨[], c, cs, rfl, rfl, hc, by simp⟩
    · next hc =>
      obtain ⟨m, hm, rfl⟩ := Option.map_eq_some_iff.1 h
      obtain ⟨before, d, after, rfl, rfl, hd, hbefore⟩ := ih hm
      exact ⟨c :: before, d, after, rfl, by simp, hd, by simpa [hc] using hbefore⟩

/-- The longest prefix in a class ends at the first character outside, or else with the text. -/
theorem find?_getD (p : Char → Bool) (cs : List Char) :
    (find? (fun c => !p c) cs).getD (size cs) = size (cs.takeWhile p) := by
  induction cs with
  | nil => rfl
  | cons c cs ih =>
    cases hc : p c with
    | false => simp [find?, hc]
    | true =>
      rw [List.takeWhile_cons_of_pos hc, size_cons c (cs.takeWhile p), ← ih]
      simp only [find?, hc, Bool.not_true, Bool.false_eq_true, if_false, size_cons]
      cases find? (fun c => !p c) cs <;> rfl

/-! ## Bytes -/

/-- The character that a byte is on its own. -/
def ofByte (b : UInt8) : Char :=
  Char.ofNat b.toNat

/-- A class of characters of one byte each. -/
def Ascii (p : Char → Bool) : Prop :=
  ∀ c, p c = true → c.toNat < 128

theorem ascii_eq {a : Char} (ha : a.toNat < 128) : Ascii (· = a) := by
  intro c hc
  obtain rfl := of_decide_eq_true hc
  exact ha

theorem ascii_or {a b : Char} (ha : a.toNat < 128) (hb : b.toNat < 128) :
    Ascii fun c => c = a ∨ c = b := by
  intro c hc
  rcases of_decide_eq_true hc with rfl | rfl
  · exact ha
  · exact hb

theorem utf8EncodeChar_of_lt {c : Char} (h : c.toNat < 128) :
    String.utf8EncodeChar c = [UInt8.ofNat c.toNat] :=
  if_pos (Nat.le_of_lt_succ h)

/-- No byte of a longer character is a character of ASCII. -/
theorem le_byte {c : Char} (h : 128 ≤ c.toNat) {b : UInt8} (hb : b ∈ String.utf8EncodeChar c) :
    128 ≤ b.toNat := by
  have hle : ¬ c.val.toNat ≤ 0x7f := Nat.not_le.2 h
  simp only [String.utf8EncodeChar, hle, if_false] at hb
  split_ifs at hb
  all_goals
    simp only [List.mem_cons, List.not_mem_nil, or_false] at hb
  · rcases hb with rfl | rfl <;> simp <;> omega
  · rcases hb with rfl | rfl | rfl <;> simp <;> omega
  · rcases hb with rfl | rfl | rfl | rfl <;> simp <;> omega

theorem toNat_ofByte (b : UInt8) : (ofByte b).toNat = b.toNat := by
  have := b.toNat_lt
  have hvalid : b.toNat.isValidChar := .inl (by omega)
  rw [ofByte, Char.ofNat, dif_pos hvalid]
  rfl

/-- The first byte of a character is in a class of ASCII exactly where the character is. -/
theorem first_byte {p : Char → Bool} (hp : Ascii p) (c : Char) :
    ∃ b bs, String.utf8EncodeChar c = b :: bs ∧ p (ofByte b) = p c := by
  by_cases hc : c.toNat < 128
  · refine ⟨_, [], utf8EncodeChar_of_lt hc, ?_⟩
    rw [ofByte, UInt8.toNat_ofNat_of_lt' (Nat.lt_trans hc (by decide)), Char.ofNat_toNat]
  · obtain ⟨b, bs, hbytes⟩ := List.exists_cons_of_ne_nil (@String.utf8EncodeChar_ne_nil c)
    have hb := le_byte (Nat.not_lt.1 hc) (b := b) (by simp [hbytes])
    refine ⟨b, bs, hbytes, ?_⟩
    have hfalse : ∀ d : Char, 128 ≤ d.toNat → p d = false := fun d hd => by
      by_contra h
      have := hp d (by simpa using h)
      omega
    rw [hfalse c (Nat.not_lt.1 hc), hfalse _ (by rwa [toNat_ofByte])]

theorem bytes_cons (c : Char) (cs : List Char) :
    bytes (c :: cs) = String.utf8EncodeChar c ++ bytes cs :=
  List.flatMap_cons

theorem bytes_append (cs ds : List Char) : bytes (cs ++ ds) = bytes cs ++ bytes ds :=
  List.flatMap_append

/-- All bytes of a text are in a class of ASCII exactly where all its characters are. -/
theorem all_bytes {p : Char → Bool} (hp : Ascii p) (cs : List Char) :
    (bytes cs).all (fun b => p (ofByte b)) = cs.all p := by
  induction cs with
  | nil => rfl
  | cons c cs ih =>
    obtain ⟨b, bs, hbytes, hb⟩ := first_byte hp c
    rw [bytes_cons, List.all_append, ih, List.all_cons, hbytes, List.all_cons, hb]
    cases hc : p c with
    | false => rfl
    | true =>
      rw [utf8EncodeChar_of_lt (hp c hc)] at hbytes
      obtain ⟨-, rfl⟩ := List.cons.inj hbytes
      rfl

theorem ascii_hexDigit : Ascii fun c => (hexDigit? c).isSome := by
  intro c hc
  obtain ⟨n, hn⟩ := Option.isSome_iff_exists.1 hc
  have hone := Char.utf8Size_eq_one_iff.1 (Surrogates.utf8Size_hexDigit hn)
  exact Nat.lt_succ_of_le (UInt32.le_iff_toNat_le.1 hone)

/-- A text in ASCII has as many bytes as characters. -/
theorem size_of_ascii {p : Char → Bool} (hp : Ascii p) {cs : List Char} (h : ∀ c ∈ cs, p c = true) :
    size cs = cs.length := by
  induction cs with
  | nil => rfl
  | cons c cs ih =>
    rw [List.forall_mem_cons] at h
    have hone : c.utf8Size = 1 :=
      Char.utf8Size_eq_one_iff.2 (UInt32.le_iff_toNat_le.2 (Nat.le_of_lt_succ (hp c h.1)))
    simp [hone, ih h.2]
    omega

/-! ## Programs -/

/-- What stops a program over offsets. -/
inductive Fault where
  /-- A cut past the end of a text or inside a character. -/
  | cut (offset : Nat) (cs : List Char)
  /-- A byte past the end of a text. -/
  | byte (offset : Nat)
  /-- A difference of offsets below zero. -/
  | below (a b : Nat)
deriving DecidableEq

/-- What a program over offsets comes to. -/
abbrev Run := Except Fault

/-- The text before an offset. -/
def upTo (n : Nat) (cs : List Char) : Run (List Char) :=
  match cut? n cs with
  | some (before, _) => pure before
  | none => throw (.cut n cs)

/-- The text from an offset on. -/
def onward (n : Nat) (cs : List Char) : Run (List Char) :=
  match cut? n cs with
  | some (_, after) => pure after
  | none => throw (.cut n cs)

/-- The byte at an offset. -/
def byteAt (i : Nat) (bs : List UInt8) : Run UInt8 :=
  match bs[i]? with
  | some b => pure b
  | none => throw (.byte i)

/-- A difference of offsets. -/
def minus (a b : Nat) : Run Nat :=
  if b ≤ a then pure (a - b) else throw (.below a b)

theorem upTo_of_cut? {n : Nat} {cs before after : List Char}
    (h : cut? n cs = some (before, after)) : upTo n cs = pure before := by
  rw [upTo, h]

theorem onward_of_cut? {n : Nat} {cs before after : List Char}
    (h : cut? n cs = some (before, after)) : onward n cs = pure after := by
  rw [onward, h]

/-- A cut without a look comes to a text at exactly the valid offsets. -/
theorem upTo_iff {n : Nat} {cs : List Char} : (∃ before, upTo n cs = .ok before) ↔
    String.Pos.Raw.IsValid (String.ofList cs) ⟨n⟩ := by
  rw [← isSome_cut?_iff, upTo]
  cases cut? n cs with
  | none => simp [throw, throwThe, MonadExceptOf.throw]
  | some parts => simp [pure, Except.pure]

theorem onward_iff {n : Nat} {cs : List Char} : (∃ after, onward n cs = .ok after) ↔
    String.Pos.Raw.IsValid (String.ofList cs) ⟨n⟩ := by
  rw [← isSome_cut?_iff, onward]
  cases cut? n cs with
  | none => simp [throw, throwThe, MonadExceptOf.throw]
  | some parts => simp [pure, Except.pure]

theorem upTo_append (before after : List Char) :
    upTo (size before) (before ++ after) = pure before :=
  upTo_of_cut? (cut?_append before after)

theorem onward_append (before after : List Char) :
    onward (size before) (before ++ after) = pure after :=
  onward_of_cut? (cut?_append before after)

theorem byteAt_of_getElem? {i : Nat} {bs : List UInt8} {b : UInt8} (h : bs[i]? = some b) :
    byteAt i bs = pure b := by
  rw [byteAt, h]

theorem minus_of_le {a b : Nat} (h : b ≤ a) : minus a b = pure (a - b) :=
  if_pos h

/-- A cut inside a character is a fault. -/
example : upTo 2 ['a', 'é'] = throw (.cut 2 ['a', 'é']) :=
  rfl

end QueryForm.Text
