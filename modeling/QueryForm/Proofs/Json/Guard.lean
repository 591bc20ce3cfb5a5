/-
The count of brackets against what the reader has open, on any text.

Up to a value inside a container that is still open there are only finished
elements, over which the count comes back to where it was, and so on every
text the count goes at least as deep as the reader (`Opened.le_depth`). A
limit from the count on is never met and the reader does what it does
without one (`value_eq_unlimited`); on well-formed text the count is the
number of containers that come to be open. So the count may stand in front
of a reader without a limit, as it does for literals
(`opened_within_depth`).
-/
import QueryForm.Proofs.Json.Escapes
import QueryForm.Proofs.Json.Limit
import QueryForm.Proofs.Json.Literal

namespace QueryForm

/-! ## Counting up to an open container -/

namespace Nesting

open QueryForm.Tree (Passed Keyed Enters Opened)

theorem Scan.deepest_le_step (s : Scan) (c : Char) : s.deepest ≤ (s.step c).deepest := by
  obtain ⟨current, deepest, quoted, escaped⟩ := s
  simp only [Scan.step]
  split_ifs <;> dsimp only <;> omega

theorem deepest_le_foldl (cs : List Char) (s : Scan) :
    s.deepest ≤ (cs.foldl Scan.step s).deepest := by
  induction cs generalizing s with
  | nil => exact Nat.le_refl _
  | cons c cs ih => exact Nat.le_trans (s.deepest_le_step c) (ih (s.step c))

theorem Crosses.foldl_eq {cs : List Char} {n k d : Nat} (h : Crosses cs n) (hd : k ≤ d) :
    cs.foldl Scan.step (.outside k d) = .outside k (max d (k + n)) :=
  (h k d hd).foldl_eq

/-- Elements that are passed are crossed, as each of them is. -/
theorem crosses_passed {α : Type} {E : α → List Char → Prop} {cs : List Char} (h : Passed E cs)
    (step : ∀ a cs, E a cs → ∃ n, Crosses cs n) : ∃ n, Crosses cs n := by
  induction h with
  | nil => exact ⟨0, crosses_quiet (by simp)⟩
  | cons before ha after _ ih =>
    obtain ⟨m, hm⟩ := step _ _ ha
    obtain ⟨n, hn⟩ := ih
    have hcomma : Crosses [','] 0 := crosses_quiet (by simp [Quiet])
    exact ⟨_, (crosses_blanks before).append
      (hm.append ((crosses_blanks after).append (hcomma.append hn)))⟩

theorem crosses_keyed {ks : List Char} (h : Keyed ks) : Crosses ks 0 := by
  cases h with
  | mk hb hks hbefore =>
    have := (crosses_blanks hb).append (crosses_key hks hbefore)
    simpa using this

/-- On the way to a value inside a container the count goes one level further in. -/
theorem foldl_enters {cs : List Char} (h : Enters cs) (k d : Nat) :
    ∃ d', k + 1 ≤ d' ∧ cs.foldl Scan.step (.outside k d) = .outside (k + 1) d' := by
  have hinner : ∀ {c : Char} {ds n}, c = '[' ∨ c = '\x7b' → Crosses ds n →
      (c :: ds).foldl Scan.step (.outside k d) =
        .outside (k + 1) (max (max d (k + 1)) (k + 1 + n)) := by
    intro c ds n hc hds
    have hstep : (Scan.outside k d).step c = .outside (k + 1) (max d (k + 1)) := by
      rcases hc with rfl | rfl <;> rfl
    rw [List.foldl_cons, hstep]
    exact hds.foldl_eq (Nat.le_max_right _ _)
  cases h with
  | array hp =>
    obtain ⟨n, hn⟩ := crosses_passed hp fun t _ hs => ⟨t.depth, crosses_of_spells hs⟩
    exact ⟨_, by omega, hinner (.inl rfl) hn⟩
  | object hp hks =>
    obtain ⟨n, hn⟩ := crosses_passed hp fun m _ hm =>
      ⟨m.2.depth, crosses_member (hm.imp fun _ hs => crosses_of_spells hs)⟩
    exact ⟨_, by omega, hinner (.inr rfl) (hn.append (crosses_keyed hks))⟩

theorem deepest_of_opened {n : Nat} {cs : List Char} (h : Opened n cs) :
    ∀ {k d}, k ≤ d → k + n ≤ (cs.foldl Scan.step (.outside k d)).deepest := by
  induction h with
  | none =>
    intro k d hd
    exact Nat.le_trans hd (deepest_le_foldl _ (.outside k d))
  | @bracket before c rest hb hc =>
    intro k d hd
    have hstep : (Scan.outside k (max d (k + 0))).step c =
        .outside (k + 1) (max (max d (k + 0)) (k + 1)) := by
      rcases hc with rfl | rfl <;> rfl
    rw [List.foldl_append, (crosses_blanks hb).foldl_eq hd, List.foldl_cons, hstep]
    exact Nat.le_trans (Nat.le_max_right _ _) (deepest_le_foldl rest (.outside (k + 1) _))
  | @inside before cs n rest hb he _ ih =>
    intro k d hd
    obtain ⟨d', hd', heq⟩ := foldl_enters he k (max d (k + 0))
    rw [List.foldl_append, List.foldl_append, (crosses_blanks hb).foldl_eq hd, heq]
    have := ih hd'
    omega

end Nesting

/-! ## The reader without a limit -/

namespace Tree

open Surrogates (repair)

/-- **Any text.** A reader never has more containers open at once than the count of brackets. -/
theorem Opened.le_depth {n : Nat} {cs : List Char} (h : Opened n cs) : n ≤ Nesting.depth cs := by
  have := Nesting.deepest_of_opened h (Nat.le_refl 0)
  rwa [Nat.zero_add] at this

theorem value_ne_tooDeep {limit : Nat} {cs : List Char} (h : Nesting.depth cs ≤ limit) :
    value limit cs ≠ .error .tooDeep := by
  intro hdeep
  have := (opened_of_tooDeep hdeep).le_depth
  omega

/-- Reads a value, however deep. A container opens with a character of its own, so the length of
the text is limit enough. -/
def unlimited (cs : List Char) : Reading Tree :=
  value cs.length cs

/-- A limit from the count of brackets on changes nothing. -/
theorem value_eq_unlimited {limit : Nat} {cs : List Char} (h : Nesting.depth cs ≤ limit) :
    value limit cs = unlimited cs := by
  have hlength := Nesting.depth_le_length cs
  have hlimit := (value_lowers (Nat.le_max_left limit cs.length) cs).resolve_left
    (value_ne_tooDeep h)
  have hunlimited := (value_lowers (Nat.le_max_right limit cs.length) cs).resolve_left
    (value_ne_tooDeep hlength)
  rw [unlimited, hlimit, hunlimited]

/-- The reader without a limit reads the values inside a container with itself. -/
theorem unlimited_eq (cs : List Char) : unlimited cs = valueWith (some unlimited) cs := by
  have hlength := Nesting.depth_le_length cs
  have hlowers : Lowers (value cs.length) unlimited := by
    intro ds
    have hds := Nesting.depth_le_length ds
    rw [← value_eq_unlimited (Nat.le_trans hds (Nat.le_max_right cs.length ds.length))]
    exact value_lowers (Nat.le_max_left _ _) ds
  have hstep : value (cs.length + 1) cs = valueWith (some unlimited) cs := by
    refine (valueWith_lowers (fun read hread => ⟨unlimited, rfl, ?_⟩) cs).resolve_left
      (@value_ne_tooDeep (cs.length + 1) cs (by omega))
    cases hread
    exact hlowers
  rw [← hstep, value_eq_unlimited (by omega)]

theorem read_eq_of_value_eq {limit limit' : Nat} {cs : List Char}
    (h : value limit cs = value limit' cs) : read limit cs = read limit' cs := by
  simp only [read, h]

/-- On well-formed text the count of brackets is the most containers that come to be open. -/
theorem opened_iff_of_spelledBy {tree : Tree} {cs : List Char} (h : SpelledBy tree cs) {n : Nat} :
    Opened n cs ↔ n ≤ Nesting.depth cs := by
  refine ⟨Opened.le_depth, fun hn => ?_⟩
  cases n with
  | zero => exact .none
  | succ n =>
    rw [Nesting.depth_of_spelledBy h] at hn
    have hread : read tree.depth cs = .ok tree := read_eq_ok_iff.2 ⟨h, Nat.le_refl _⟩
    rcases read_lowers (Nat.le_of_succ_le hn) cs with hdeep | hsame
    · exact opened_of_tooDeep (read_tooDeep_iff.1 hdeep)
    · rw [hread] at hsame
      have := (read_eq_ok_iff.1 hsame).2
      omega

/-! ## Literals -/

/-- The count in front of the reader without a limit does what a reader with that limit does. -/
theorem tree?_eq_read (cs : List Char) :
    Literal.tree? cs = (read Literal.depthLimit (repair cs)).toOption := by
  simp only [Literal.tree?, ofText?]
  split
  · next h =>
    have hlength := Nesting.depth_le_length (repair cs)
    rw [read_eq_of_value_eq ((value_eq_unlimited hlength).trans (value_eq_unlimited h).symm)]
  · next h =>
    cases hread : read Literal.depthLimit (repair cs) with
    | error fault => rfl
    | ok tree =>
      obtain ⟨hs, hd⟩ := read_eq_ok_iff.1 hread
      rw [Nesting.depth_of_spelledBy hs] at h
      exact absurd hd h

theorem isSome_tree?_iff {tree : Tree} {cs : List Char} (h : SpelledBy tree cs) :
    (Literal.tree? cs).isSome = true ↔ tree.depth ≤ Literal.depthLimit := by
  have hrepair := Tree.ofText?_repair cs
  rw [ofText?_eq_some_iff.2 h, Option.map_some] at hrepair
  have htext : (ofText? (repair cs)).isSome = true := by
    rw [hrepair]
    rfl
  simp only [Literal.tree?, Nesting.depth_repair, Nesting.depth_of_spelledBy h]
  split
  · next hdepth => exact iff_of_true htext hdepth
  · next hdepth => exact iff_of_false Bool.false_ne_true hdepth

/-- **The count of brackets.** A reader of values that reads what is inside a container with itself,
without any limit, and one with a limit meets it exactly where it would come to have one container
more open. On any text, well-formed or not, no more containers come to be open at once than the
count of brackets, so a limit from the count on changes neither a value nor a failure; on well-formed
text as many come to be open as are counted. A literal is read as with a limit of `depthLimit`: the
reader without a limit is only let at texts on which it opens no more, and no well-formed text that
nests no deeper is kept from it. -/
theorem opened_within_depth (cs : List Char) :
    (unlimited cs = valueWith (some unlimited) cs ∧
      ∀ limit, value limit cs = .error .tooDeep ↔ Opened (limit + 1) cs) ∧
    (∀ n, Opened n cs → n ≤ Nesting.depth cs) ∧
    (∀ limit, Nesting.depth cs ≤ limit →
      value limit cs = unlimited cs ∧ read limit cs = read cs.length cs) ∧
    (∀ tree, SpelledBy tree cs → tree.depth = Nesting.depth cs ∧
      ∀ n, Opened n cs ↔ n ≤ Nesting.depth cs) ∧
    Literal.tree? cs = (read Literal.depthLimit (repair cs)).toOption ∧
    (Nesting.depth (repair cs) ≤ Literal.depthLimit →
      ∀ n, Opened n (repair cs) → n ≤ Literal.depthLimit) ∧
    ∀ tree, SpelledBy tree cs →
      ((Literal.tree? cs).isSome = true ↔ tree.depth ≤ Literal.depthLimit) := by
  refine ⟨⟨unlimited_eq cs, fun limit => value_tooDeep_iff⟩, fun n h => h.le_depth,
    fun limit h => ⟨value_eq_unlimited h, read_eq_of_value_eq (value_eq_unlimited h)⟩,
    fun tree h => ⟨(Nesting.depth_of_spelledBy h).symm, fun n => opened_iff_of_spelledBy h⟩,
    tree?_eq_read cs, fun h n hn => Nat.le_trans hn.le_depth h, fun tree h => isSome_tree?_iff h⟩

/-- The bracket in the string is not counted, and two containers are open at once. -/
theorem opened_within_depth_quoted :
    let cs := ['[', '\x22', '[', '\x22', ',', '\x7b', '\x7d', ']']
    (Opened 2 cs ∧ 2 ≤ Nesting.depth cs ∧ ¬ Opened 3 cs) ∧ value 2 cs = unlimited cs ∧
      (∀ n, Opened n (repair cs) → n ≤ Literal.depthLimit) ∧
      (Literal.tree? cs).isSome = true := by
  intro cs
  have hspelled : SpelledBy (.array [.string [.char '['], .object []]) cs :=
    ofText?_eq_some_iff.1 rfl
  obtain ⟨-, hle, hlimit, hopened, -, hguard, hliteral⟩ := opened_within_depth cs
  obtain ⟨-, hcount⟩ := hopened _ hspelled
  have htwo : Opened 2 cs := (hcount 2).2 (by decide)
  exact ⟨⟨htwo, hle 2 htwo, fun h => absurd ((hcount 3).1 h) (by decide)⟩,
    (hlimit 2 (by decide)).1, hguard (by decide), (hliteral _ hspelled).2 (by decide)⟩

end Tree

end QueryForm
