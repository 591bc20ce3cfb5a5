/-
What a run of edits leaves of a rule.

Edits set parts of a rule, and a part is what the last edit of it says
(`Rule.part_edited`). Only the second condition has a history: the choice of
a connective begins it anew, with the comparison that the rule has at that
moment, so what counts are the edits after the last such choice
(`Rule.second_edited`), and before the first one an edit of it does
something only where there was one to begin with
(`Rule.second_edited_of_none`).
-/
import Mathlib.Data.List.Induction
import QueryForm.Edit.Basic

namespace QueryForm

namespace Edit

/-! ## What an edit sets -/

/-- The type that an edit sets. -/
def type? : Edit → Option ValueType
  | type t => some t
  | _ => none

/-- The name that an edit sets. -/
def name? : Edit → Option String
  | name s => some s
  | _ => none

/-- The value that an edit sets. -/
def value? : Edit → Option String
  | value s => some s
  | _ => none

/-- The comparison that an edit sets. -/
def comparison? : Edit → Option Comparison
  | comparison c => some c
  | _ => none

/-- The connective that an edit sets. -/
def connective? : Edit → Option Connective
  | connective c => some c
  | _ => none

/-- The value of the second condition that an edit sets. -/
def secondValue? : Edit → Option String
  | secondValue s => some s
  | _ => none

/-- The comparison of the second condition that an edit sets. -/
def secondComparison? : Edit → Option Comparison
  | secondComparison c => some c
  | _ => none

variable {α : Type}

/-- What the last of some edits that sets a part sets it to, and what the part was if none does. -/
def lastSet (set? : Edit → Option α) (edits : List Edit) (before : α) : α :=
  (edits.filterMap set?).getLast?.getD before

theorem lastSet_append (set? : Edit → Option α) (xs ys : List Edit) (before : α) :
    lastSet set? (xs ++ ys) before = lastSet set? ys (lastSet set? xs before) := by
  rw [lastSet, lastSet, lastSet, List.filterMap_append, List.getLast?_append, Option.getD_or]

end Edit

open Edit (lastSet lastSet_append type? name? value? comparison? connective? secondValue?
  secondComparison?)

/-- The condition with its value and comparison as the last edits of them set these. -/
def Condition.edited (second : Condition) (edits : List Edit) : Condition :=
  { second with
    raw := lastSet secondValue? edits second.raw
    comparison := lastSet secondComparison? edits second.comparison }

theorem Condition.edited_append (second : Condition) (xs ys : List Edit) :
    second.edited (xs ++ ys) = (second.edited xs).edited ys := by
  simp only [edited, lastSet_append]

/-- An edit other than a choice of connective keeps the second condition, if there is one, edited. -/
theorem Edit.second_apply {e : Edit} (h : e.connective? = none) (r : Rule) :
    (e.apply r).second = r.second.map fun second => second.edited [e] := by
  cases e with
  | connective => cases h
  | secondValue | secondComparison => rfl
  | type | name | value | comparison => exact Option.map_id'.symm

/-- A list of edits with a choice of connective has a last one. -/
theorem Edit.exists_last_connective {edits : List Edit} (h : edits.filterMap connective? ≠ []) :
    ∃ before c since, edits = before ++ .connective c :: since ∧
      since.filterMap connective? = [] := by
  induction edits with
  | nil => exact absurd rfl h
  | cons e edits ih =>
    by_cases hrest : edits.filterMap connective? = []
    · cases e with
      | connective c => exact ⟨[], c, edits, rfl, hrest⟩
      | type | name | value | comparison | secondValue | secondComparison => exact absurd hrest h
    · obtain ⟨before, c, since, rfl, hsince⟩ := ih hrest
      exact ⟨e :: before, c, since, rfl, hsince⟩

namespace Rule

/-- The rule after edits, one after the other. -/
def edited (r : Rule) (edits : List Edit) : Rule :=
  edits.foldl (fun r e => e.apply r) r

theorem edited_append (r : Rule) (before since : List Edit) :
    r.edited (before ++ since) = (r.edited before).edited since :=
  List.foldl_append

theorem edited_concat (r : Rule) (edits : List Edit) (e : Edit) :
    r.edited (edits ++ [e]) = e.apply (r.edited edits) :=
  r.edited_append edits [e]

/-- A part that each edit sets or leaves is what the last edit that sets it says. -/
theorem part_edited {α : Type} (part : Rule → α) {set? : Edit → Option α}
    (step : ∀ e r, part (Edit.apply e r) = lastSet set? [e] (part r)) (r : Rule) (edits : List Edit) :
    part (r.edited edits) = lastSet set? edits (part r) := by
  induction edits using List.reverseRecOn with
  | nil => rfl
  | append_singleton edits e ih => rw [edited_concat, step, ih, lastSet_append]

/-- Without a choice of connective the second condition is the one there was, if any, edited. -/
theorem second_edited_of_none {edits : List Edit} (h : edits.filterMap connective? = [])
    (r : Rule) : (r.edited edits).second = r.second.map fun second => second.edited edits := by
  induction edits using List.reverseRecOn with
  | nil => exact Option.map_id'.symm
  | append_singleton edits e ih =>
    rw [List.filterMap_append, List.append_eq_nil_iff] at h
    have he : e.connective? = none := by simpa using h.2
    rw [edited_concat, Edit.second_apply he, ih h.1, Option.map_map]
    refine congrArg (fun f => r.second.map f) (funext fun second => ?_)
    rw [Function.comp_apply, Condition.edited_append]

/-- After a choice of connective the second condition is what the edits since make of a new one. -/
theorem second_edited {since : List Edit} (h : since.filterMap connective? = []) (r : Rule)
    (before : List Edit) (c : Connective) :
    (r.edited (before ++ .connective c :: since)).second =
      some (Condition.edited ⟨c, "", (r.edited before).comparison⟩ since) := by
  rw [List.append_cons, edited_append, edited_concat, second_edited_of_none h]
  rfl

/-- **The last edits decide.** After any edits the name, the type, the value and the comparison of a
rule are what the last edits of them set, or what they were. If no edit chose a connective, there is
a second condition if there was one, with its connective, and its value and its comparison are what
the last edits of them set, or what they were. Otherwise there is one, with the connective that was
chosen last; the last edits since then set its value, which is else empty, and its comparison, which
is else the one that the rule had at that moment. An edit on the way changes something exactly if
the rule is another after it. -/
theorem last_edits_decide (r : Rule) (edits : List Edit) :
    (r.edited edits).name = lastSet name? edits r.name ∧
      (r.edited edits).type = lastSet type? edits r.type ∧
      (r.edited edits).raw = lastSet value? edits r.raw ∧
      (r.edited edits).comparison = lastSet comparison? edits r.comparison ∧
      (edits.filterMap connective? = [] →
        (r.edited edits).second = r.second.map fun second =>
          ⟨second.connective, lastSet secondValue? edits second.raw,
            lastSet secondComparison? edits second.comparison⟩) ∧
      (∀ before c since, edits = before ++ .connective c :: since →
        since.filterMap connective? = [] →
        (r.edited edits).second =
          some ⟨c, lastSet secondValue? since "",
            lastSet secondComparison? since (r.edited before).comparison⟩) ∧
      (edits.filterMap connective? = [] ∨ ∃ before c since,
        edits = before ++ .connective c :: since ∧ since.filterMap connective? = []) ∧
      ∀ before e since, edits = before ++ e :: since →
        (e.changes (r.edited before) = true ↔ r.edited (before ++ [e]) ≠ r.edited before) := by
  refine ⟨part_edited Rule.name (fun e _ => by cases e <;> rfl) r edits,
    part_edited Rule.type (fun e _ => by cases e <;> rfl) r edits,
    part_edited Rule.raw (fun e _ => by cases e <;> rfl) r edits,
    part_edited Rule.comparison (fun e _ => by cases e <;> rfl) r edits,
    fun hnone => second_edited_of_none hnone r, ?_, ?_, fun before e _ _ => ?_⟩
  · rintro before c since rfl hsince
    exact second_edited hsince r before c
  · exact or_iff_not_imp_left.2 Edit.exists_last_connective
  · rw [Edit.changes, bne_iff_ne, edited_concat]

/-- Of the second condition that the rule begins with, and of the one that the first choice of a
connective begins, nothing is left; the comparison is the one before the last choice. -/
theorem last_edits_decide_twice :
    let r : Rule := { second := some ⟨.and, "a", .ne⟩ }
    let first : List Edit := [.secondValue "b", .comparison .gt, .connective .and, .secondValue "c",
      .secondComparison .lt]
    let since : List Edit := [.comparison .lte, .secondComparison .ne, .name "n"]
    (r.edited (first.take 2)).second = some ⟨.and, "b", .ne⟩ ∧
      (r.edited (first ++ .connective .or :: since.take 1)).second = some ⟨.or, "", .gt⟩ ∧
      (r.edited (first ++ .connective .or :: since)).second = some ⟨.or, "", .ne⟩ ∧
      (Edit.secondValue "b").changes (r.edited (first.take 1)) = false := by
  intro r first since
  refine ⟨(last_edits_decide r (first.take 2)).2.2.2.2.1 rfl,
    (last_edits_decide r _).2.2.2.2.2.1 first .or (since.take 1) rfl rfl,
    (last_edits_decide r _).2.2.2.2.2.1 first .or since rfl rfl, ?_⟩
  refine Bool.eq_false_iff.2 fun h => ?_
  exact ((last_edits_decide r (first.take 1 ++ [.secondValue "b"])).2.2.2.2.2.2.2
    (first.take 1) (.secondValue "b") [] rfl).1 h rfl

end Rule

end QueryForm
