/-
The count of brackets on well-formed text, and where its pass stands inside
quotes.

A pass over well-formed text meets no backslash and no slash outside quotes;
`Passes` is a pass with that property. Over a value it comes back outside
quotes, having gone as deep as the value's containers are nested
(`crosses_of_spells`), so that `depth_of_spelledBy`: on well-formed text the
count is the depth of the tree.

Two passes over one text that stand on different sides of a quote stay on
different sides (`Passes.opposite`): with no backslash met outside, every
quote toggles both.
-/
import QueryForm.Json.Nesting
import QueryForm.Proofs.Json.Reader

namespace QueryForm.Nesting

open QueryForm.Tree (Spells SpelledBy Separated Contents Member Blanks itemsDepth isSpace)
open Quoted (Piece PieceSpells)

/-! ## Passes -/

theorem Scan.step_side {s : Scan} {c : Char} (hs : s.escaped = false) (hc : c ≠ '\\') :
    (s.step c).escaped = false ∧
      (s.step c).quoted = if c = '\x22' then !s.quoted else s.quoted := by
  obtain ⟨current, deepest, quoted, escaped⟩ := s
  cases hs
  by_cases hq : c = '\x22'
  · subst hq
    cases quoted <;> exact ⟨rfl, rfl⟩
  · cases quoted
    · simp only [Scan.step, if_neg hq, Bool.false_eq_true, if_false]
      split
      · exact ⟨rfl, rfl⟩
      split <;> exact ⟨rfl, rfl⟩
    · simp [Scan.step, hq, hc]

/-- A pass over a text, from one stand to another, that meets neither a backslash nor a slash
outside quotes. -/
inductive Passes : Scan → List Char → Scan → Prop
  | nil {s} : Passes s [] s
  | cons {s t c cs} : (s.quoted = false → c ≠ '\\' ∧ c ≠ '/') → Passes (s.step c) cs t →
      Passes s (c :: cs) t

namespace Passes

variable {s t u s' t' : Scan} {cs ds : List Char}

theorem foldl_eq (h : Passes s cs t) : cs.foldl Scan.step s = t := by
  induction h with
  | nil => rfl
  | cons _ _ ih => exact ih

theorem append (h : Passes s cs t) (h' : Passes t ds u) : Passes s (cs ++ ds) u := by
  induction h with
  | nil => exact h'
  | cons hc _ ih => exact .cons hc (ih h')

theorem split (h : Passes s (cs ++ ds) u) : ∃ t, Passes s cs t ∧ Passes t ds u := by
  induction cs generalizing s with
  | nil => exact ⟨s, .nil, h⟩
  | cons c cs ih =>
    cases h with
    | cons hc h =>
      obtain ⟨t, h₁, h₂⟩ := ih h
      exact ⟨t, .cons hc h₁, h₂⟩

/-- **Opposite sides.** Two passes over one text, one inside quotes and one outside, end on
opposite sides. -/
theorem opposite (hs : Passes s cs s') (ht : Passes t cs t') (hse : s.escaped = false)
    (hte : t.escaped = false) (h : s.quoted = !t.quoted) : s'.quoted = !t'.quoted := by
  induction hs generalizing t with
  | nil =>
    cases ht
    exact h
  | @cons s s' c cs hc _ ih =>
    cases ht with
    | cons hc' ht =>
      -- One of the two stands outside, so the character is no backslash.
      have hb : c ≠ '\\' := by
        cases hq : t.quoted with
        | true => exact (hc (by rw [h, hq]; rfl)).1
        | false => exact (hc' hq).1
      obtain ⟨hse', hsq⟩ := Scan.step_side hse hb
      obtain ⟨hte', htq⟩ := Scan.step_side hte hb
      refine ih ht hse' hte' ?_
      rw [hsq, htq, h]
      split <;> rfl

end Passes

/-! ## Passes over strings -/

/-- Inside quotes at a depth. -/
def Scan.inside (current deepest : Nat) : Scan :=
  ⟨current, deepest, true, false⟩

theorem passes_inside {k d : Nat} {c : Char} (h : c ≠ '\x22' ∧ c ≠ '\\') {cs : List Char}
    {t : Scan} (ht : Passes (.inside k d) cs t) : Passes (.inside k d) (c :: cs) t := by
  refine .cons (fun h => nomatch h) ?_
  simpa [Scan.step, Scan.inside, h] using ht

theorem passes_piece {p : Piece} {cs : List Char} (h : PieceSpells p cs) (k d : Nat) :
    Passes (.inside k d) cs (.inside k d) := by
  have pair : ∀ (e : Char) {cs}, Passes (.inside k d) cs (.inside k d) →
      Passes (.inside k d) ('\\' :: e :: cs) (.inside k d) := fun e cs hcs =>
    .cons (fun h => nomatch h) (.cons (fun h => nomatch h) hcs)
  cases h with
  | plain hq hb => exact passes_inside ⟨hq, hb⟩ .nil
  | short => exact pair _ .nil
  | unit hu =>
    have hdigits := Quoted.ofHex?_chars hu
    simp only [List.forall_mem_cons] at hdigits
    obtain ⟨ha, hb, hc, hd, -⟩ := hdigits
    exact pair _ (passes_inside ha (passes_inside hb (passes_inside hc (passes_inside hd .nil))))

theorem passes_pieces {ps : List Piece} {cs : List Char} (h : Quoted.Spells ps cs) (k d : Nat) :
    Passes (.inside k d) cs (.inside k d) := by
  induction h with
  | nil => exact .nil
  | cons hp _ ih => exact (passes_piece hp k d).append ih

/-! ## Passes over values -/

/-- Outside quotes at a depth. -/
def Scan.outside (current deepest : Nat) : Scan :=
  ⟨current, deepest, false, false⟩

/-- A pass over a text comes back to where it started, having gone `n` levels further in. -/
def Crosses (cs : List Char) (n : Nat) : Prop :=
  ∀ k d, k ≤ d → Passes (.outside k d) cs (.outside k (max d (k + n)))

theorem Crosses.append {cs ds : List Char} {m n : Nat} (h : Crosses cs m) (h' : Crosses ds n) :
    Crosses (cs ++ ds) (max m n) := by
  intro k d hd
  have := (h k d hd).append (h' k _ (by omega))
  rwa [show max (max d (k + m)) (k + n) = max d (k + max m n) by omega] at this

/-- What a pass takes no note of outside quotes. -/
def Quiet (c : Char) : Prop :=
  c ∉ ['\\', '/', '\x22', '[', '\x7b', ']', '\x7d']

instance (c : Char) : Decidable (Quiet c) :=
  inferInstanceAs (Decidable (c ∉ _))

theorem crosses_quiet {cs : List Char} (h : ∀ c ∈ cs, Quiet c) : Crosses cs 0 := by
  intro k d hd
  rw [show max d (k + 0) = d by omega]
  induction cs with
  | nil => exact .nil
  | cons c cs ih =>
    have hc := h c (by simp)
    simp only [Quiet, List.mem_cons, List.not_mem_nil, or_false, not_or] at hc
    refine .cons (fun _ => ⟨hc.1, hc.2.1⟩) ?_
    have hstep : (Scan.outside k d).step c = .outside k d := by simp [Scan.step, Scan.outside, hc]
    rw [hstep]
    exact ih fun c hm => h c (List.mem_cons_of_mem _ hm)

theorem crosses_blanks {cs : List Char} (h : Blanks cs) : Crosses cs 0 := by
  refine crosses_quiet fun c hc => ?_
  have := h c hc
  simp only [isSpace, Bool.or_eq_true, beq_iff_eq] at this
  rcases this with ((rfl | rfl) | rfl) | rfl <;> decide

theorem quiet_run (run : DigitRun) : ∀ c ∈ run.text, Quiet c := by
  intro c hc
  obtain ⟨d, -, rfl⟩ := List.mem_map.1 hc
  clear hc
  revert d
  decide

theorem quiet_exponent {e : Option (Bool × DigitRun)} {cs : List Char}
    (h : Numeral.ExponentSpells e cs) : ∀ c ∈ cs, Quiet c := by
  have hsign : ∀ {negative sign}, Numeral.SignSpells negative sign → ∀ c ∈ sign, Quiet c := by
    intro negative sign h
    cases h <;> simp [Quiet]
  cases h with
  | none => simp
  | lower hs | upper hs =>
    refine List.forall_mem_cons.2 ⟨by decide, ?_⟩
    exact List.forall_mem_append.2 ⟨hsign hs, quiet_run _⟩

theorem quiet_numeral {n : Numeral} {cs : List Char} (h : Numeral.Spells n cs) :
    ∀ c ∈ cs, Quiet c := by
  obtain ⟨power, hpower, rfl⟩ := h
  have hfraction : ∀ f, ∀ c ∈ Numeral.fractionText f, Quiet c := by
    intro f
    cases f with
    | none => simp [Numeral.fractionText]
    | some run => exact List.forall_mem_cons.2 ⟨by decide, quiet_run run⟩
  refine List.forall_mem_append.2 ⟨?_, List.forall_mem_append.2 ⟨quiet_run _,
    List.forall_mem_append.2 ⟨hfraction _, quiet_exponent hpower⟩⟩⟩
  cases n.negative <;> simp [Quiet]

theorem crosses_quoted {ps : List Piece} {cs : List Char} (h : Quoted.Spells ps cs) :
    Crosses ('\x22' :: (cs ++ ['\x22'])) 0 := by
  intro k d hd
  rw [show max d (k + 0) = d by omega]
  refine .cons (by simp) ((passes_pieces h k d).append ?_)
  exact .cons (fun h => nomatch h) .nil

/-- Elements are crossed as deep as the deepest of them. -/
theorem crosses_separated {α : Type} {f : α → Tree} {as : List α} {cs : List Char}
    (h : Separated (fun a cs => Crosses cs (f a).depth) as cs) :
    Crosses cs (itemsDepth (as.map f)) := by
  induction h with
  | one before_blank ha after_blank =>
    have := (crosses_blanks before_blank).append (ha.append (crosses_blanks after_blank))
    simpa [itemsDepth] using this
  | cons before_blank ha after_blank _ ih =>
    have hcomma : Crosses [','] 0 := crosses_quiet (by simp [Quiet])
    have := (crosses_blanks before_blank).append
      (ha.append ((crosses_blanks after_blank).append (hcomma.append ih)))
    simpa [itemsDepth] using this

theorem crosses_contents {α : Type} {f : α → Tree} {as : List α} {cs : List Char}
    (h : Contents (fun a cs => Crosses cs (f a).depth) as cs) :
    Crosses cs (itemsDepth (as.map f)) := by
  cases h with
  | none hb => exact crosses_blanks hb
  | some h => exact crosses_separated h

/-- A container is crossed one level deeper than what is in it. -/
theorem crosses_container {cs : List Char} {n : Nat} (h : Crosses cs n) {opening close : Char}
    (hb : opening = '[' ∧ close = ']' ∨ opening = '\x7b' ∧ close = '\x7d') :
    Crosses (opening :: (cs ++ [close])) (n + 1) := by
  intro k d hd
  have hopen : (Scan.outside k d).step opening = .outside (k + 1) (max d (k + 1)) := by
    rcases hb with ⟨rfl, -⟩ | ⟨rfl, -⟩ <;> rfl
  have hclose : (Scan.outside (k + 1) (max d (k + (n + 1)))).step close =
      .outside k (max d (k + (n + 1))) := by
    rcases hb with ⟨-, rfl⟩ | ⟨-, rfl⟩ <;> rfl
  have hquiet : ∀ c, c = opening ∨ c = close → c ≠ '\\' ∧ c ≠ '/' := by
    rcases hb with ⟨rfl, rfl⟩ | ⟨rfl, rfl⟩ <;> rintro c (rfl | rfl) <;> decide
  refine .cons (fun _ => hquiet _ (.inl rfl)) ?_
  rw [hopen]
  have hinner := h (k + 1) (max d (k + 1)) (Nat.le_max_right _ _)
  rw [show max (max d (k + 1)) (k + 1 + n) = max d (k + (n + 1)) by omega] at hinner
  refine hinner.append (.cons (fun _ => hquiet _ (.inr rfl)) ?_)
  rw [hclose]
  exact .nil

/-- A quoted key and its colon are crossed without going further in. -/
theorem crosses_key {key : List Piece} {ks before : List Char} (hkey : Quoted.Spells key ks)
    (hb : Blanks before) : Crosses ('\x22' :: (ks ++ '\x22' :: (before ++ [':']))) 0 := by
  have hcolon : Crosses [':'] 0 := crosses_quiet (by simp [Quiet])
  have := (crosses_quoted hkey).append ((crosses_blanks hb).append hcolon)
  simpa using this

/-- A member is crossed as deep as its value. -/
theorem crosses_member {m : List Piece × Tree} {cs : List Char}
    (h : Member (fun t cs => Crosses cs t.depth) m cs) : Crosses cs m.2.depth := by
  cases h with
  | mk hkey hb ha hv =>
    have := (crosses_key hkey hb).append ((crosses_blanks ha).append hv)
    simpa using this

/-- **A value is crossed as deep as it is nested.** -/
theorem crosses_of_spells {tree : Tree} {cs : List Char} (h : Spells tree cs) :
    Crosses cs tree.depth := by
  refine Spells.induction (P := fun tree cs => Crosses cs tree.depth) ?null ?true ?false ?number
    ?string ?array ?object h
  case null | true | false => exact crosses_quiet (by simp [Quiet])
  case number => exact fun n cs hn => crosses_quiet (quiet_numeral hn)
  case string => exact fun ps cs hs => crosses_quoted hs
  case array =>
    intro items cs hc
    have := crosses_contents (f := id) (hc.imp fun _ _ _ hs => hs.2)
    rw [List.map_id] at this
    exact crosses_container this (.inl ⟨rfl, rfl⟩)
  case object =>
    intro members cs hc
    refine crosses_container ?_ (.inr ⟨rfl, rfl⟩)
    rw [Tree.membersDepth_eq]
    exact crosses_contents (f := (·.2)) (hc.imp fun m _ cs hm =>
      crosses_member (hm.imp fun _ hv => hv.2))

/-! ## Whole texts -/

theorem crosses_of_spelledBy {tree : Tree} {cs : List Char} (h : SpelledBy tree cs) :
    Crosses cs tree.depth := by
  obtain ⟨before, used, after, hb, hs, ha, rfl⟩ := h
  have := (crosses_blanks hb).append ((crosses_of_spells hs).append (crosses_blanks ha))
  simpa using this

/-- **The count of brackets.** On well-formed text the count is the depth of the tree. -/
theorem depth_of_spelledBy {tree : Tree} {cs : List Char} (h : SpelledBy tree cs) :
    depth cs = tree.depth := by
  have := (crosses_of_spelledBy h 0 0 (Nat.le_refl _)).foldl_eq
  rw [depth, show Scan.start = .outside 0 0 from rfl, this]
  simp [Scan.outside]

theorem Scan.step_deepest (s : Scan) (c : Char) :
    (s.step c).deepest ≤ max s.deepest (s.current + 1) ∧
      (s.step c).current ≤ s.current + 1 := by
  obtain ⟨current, deepest, quoted, escaped⟩ := s
  simp only [Scan.step]
  split_ifs <;> dsimp only <;> omega

/-- A text opens no more brackets than it has characters. -/
theorem depth_le_length (cs : List Char) : depth cs ≤ cs.length := by
  have key : ∀ (cs : List Char) (s : Scan) n, s.current ≤ n → s.deepest ≤ n →
      (cs.foldl Scan.step s).deepest ≤ n + cs.length := by
    intro cs
    induction cs with
    | nil => exact fun s n _ hd => hd
    | cons c cs ih =>
      intro s n hc hd
      have hstep := s.step_deepest c
      have := ih (s.step c) (n + 1) (by omega) (by omega)
      simp only [List.foldl_cons, List.length_cons]
      omega
  have := key cs .start 0 (Nat.le_refl _) (Nat.le_refl _)
  rwa [Nat.zero_add] at this

end QueryForm.Nesting

namespace QueryForm.Tree

/-- **Trees of texts.** A text has a tree exactly when it spells it. -/
theorem ofText?_eq_some_iff {cs : List Char} {tree : Tree} :
    ofText? cs = some tree ↔ SpelledBy tree cs := by
  have toOption : ofText? cs = some tree ↔ read cs.length cs = .ok tree := by
    rw [ofText?]
    cases read cs.length cs <;> simp [Except.toOption]
  rw [toOption, read_eq_ok_iff]
  refine and_iff_left_of_imp fun h => ?_
  rw [← Nesting.depth_of_spelledBy h]
  exact Nesting.depth_le_length cs

end QueryForm.Tree
