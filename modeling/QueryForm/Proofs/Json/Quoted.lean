/-
Reading quoted strings: the pieces that are read up to the closing quote are
those that the text before it spells, and every spelling is read.
-/
import QueryForm.Proofs.Json.Grammar

namespace QueryForm.Quoted

/-- The characters of a unit are digits of base sixteen. -/
theorem ofHex?_digits {a b c d : Char} {unit : Nat} (h : Units.ofHex? a b c d = some unit) :
    ∀ e ∈ [a, b, c, d], ∃ n, hexDigit? e = some n := by
  simp only [Units.ofHex?, Option.bind_eq_bind, Option.bind_eq_some_iff] at h
  obtain ⟨_, ha, _, hb, _, hc, _, hd, -⟩ := h
  simp [ha, hb, hc, hd]

/-- The digits of a unit are neither quotes nor backslashes. -/
theorem ofHex?_chars {a b c d : Char} {unit : Nat} (h : Units.ofHex? a b c d = some unit) :
    ∀ e ∈ [a, b, c, d], e ≠ '\x22' ∧ e ≠ '\\' := by
  intro e he
  obtain ⟨n, hn⟩ := ofHex?_digits h e he
  constructor <;> rintro rfl <;> cases hn

theorem after_eq_some {p : Piece} {read : Option (List Piece × List Char)} {ps : List Piece}
    {rest : List Char} :
    after p read = some (ps, rest) ↔ ∃ qs, read = some (qs, rest) ∧ ps = p :: qs := by
  simp only [after, Option.map_eq_some_iff, Prod.mk.injEq, Prod.exists]
  constructor
  · intro h
    obtain ⟨qs, r, h, rfl, rfl⟩ := h
    exact ⟨qs, h, rfl⟩
  · intro h
    obtain ⟨qs, h, rfl⟩ := h
    exact ⟨qs, rest, h, rfl, rfl⟩

theorem scan?_piece {p : Piece} {cs : List Char} (h : PieceSpells p cs) (rest : List Char) :
    scan? (cs ++ rest) = after p (scan? rest) := by
  cases h with
  | plain hq hb hc => exact scan?_cons hq hb hc rest
  | @short e c he =>
    have hu : e ≠ 'u' := by
      intro h
      subst h
      cases he
    exact scan?_short hu he rest
  | unit hu => exact scan?_unit hu rest

/-- Every spelling is read, up to the quote after it. -/
theorem scan?_spells {ps : List Piece} {cs : List Char} (h : Spells ps cs) (rest : List Char) :
    scan? (cs ++ '\x22' :: rest) = some (ps, rest) := by
  induction h with
  | nil => rw [List.nil_append, scan?]
  | cons hp _ ih => rw [List.append_assoc, scan?_piece hp, ih]; rfl

/-- What is read was spelled, and a quote came after it. -/
theorem spells_of_scan? {cs rest : List Char} {ps : List Piece} (h : scan? cs = some (ps, rest)) :
    ∃ used, Spells ps used ∧ cs = used ++ '\x22' :: rest := by
  fun_induction scan? cs generalizing ps with
  | case1 => cases h
  | case2 => cases h; exact ⟨[], .nil, rfl⟩
  | case3 a b c d cs unit hu ih =>
    obtain ⟨qs, hqs, rfl⟩ := after_eq_some.1 h
    obtain ⟨used, hs, rfl⟩ := ih hqs
    exact ⟨_, .cons (.unit hu) hs, rfl⟩
  | case4 => cases h
  | case5 e cs _ c he ih =>
    obtain ⟨qs, hqs, rfl⟩ := after_eq_some.1 h
    obtain ⟨used, hs, rfl⟩ := ih hqs
    exact ⟨_, .cons (.short he) hs, rfl⟩
  | case6 => cases h
  | case7 => cases h
  | case8 c cs hq _ _ hc ih =>
    obtain ⟨hcontrol, hb⟩ := not_or.1 hc
    obtain ⟨qs, hqs, rfl⟩ := after_eq_some.1 h
    obtain ⟨used, hs, rfl⟩ := ih hqs
    exact ⟨_, .cons (.plain (fun e => hq e) hb hcontrol) hs, rfl⟩

end QueryForm.Quoted
