/-
Forms whose logical conditions are disabled.

No edit that such a form permits touches a comparison or a second condition
(`Edit.sameConditions_apply`), so these stay with a row for as long as it
lives, and a row that an action creates has none to begin with
(`rows_step_of_disabled`). Once a form has been cleared, all of its rows are
plain, and its query has the value of each name's last row and nothing else.
-/
import QueryForm.Proofs.Draft
import QueryForm.Proofs.Session.Identity

namespace QueryForm

namespace Rule

/-- Two rules have the same comparison and the same second condition. -/
def SameConditions (r q : Rule) : Prop :=
  r.comparison = q.comparison ∧ r.second = q.second

theorem SameConditions.trans {r q p : Rule} (h : r.SameConditions q) (h' : q.SameConditions p) :
    r.SameConditions p :=
  ⟨h.1.trans h'.1, h.2.trans h'.2⟩

/-- A rule is plain: equality, and no second condition. -/
def Plain (r : Rule) : Prop :=
  r.SameConditions {}

/-- A plain rule writes its name, with its value bare. -/
theorem Plain.written {r : Rule} (h : r.Plain) :
    r.key = r.name ∧ r.content = (Value.convert r.type r.raw).canonical := by
  obtain ⟨name, type, raw, comparison, second⟩ := r
  obtain ⟨rfl, rfl⟩ := h
  exact ⟨rfl, rfl⟩

end Rule

/-- An edit that is not logical leaves the conditions of a rule as they are. -/
theorem Edit.sameConditions_apply {e : Edit} (h : e.isLogical = false) (r : Rule) :
    (e.apply r).SameConditions r := by
  cases e with
  | type | name | value => exact ⟨rfl, rfl⟩
  | comparison | connective | secondValue | secondComparison => cases h

/-- What rules compile to that write their names and bare values: under each name the value of the
last rule that has it. -/
theorem Query.ofRules_of_bare {rules : List Rule}
    (h : ∀ r ∈ rules, r.key = r.name ∧ r.content = (Value.convert r.type r.raw).canonical) :
    Fields.keys (ofRules rules) = (rules.map (·.name)).eraseDups ∧
      ∀ key, Fields.get? key (ofRules rules) = (rules.filter (·.name == key)).getLast?.map fun r =>
        (Value.convert r.type r.raw).canonical := by
  have hwritten : Rule.written rules =
      rules.map fun r => (r.name, (Value.convert r.type r.raw).canonical) := by
    refine List.map_congr_left fun r hr => ?_
    rw [(h r hr).1, (h r hr).2]
  rw [ofRules_eq, hwritten]
  refine ⟨?_, fun key => ?_⟩
  · rw [Fields.keys_ofPairs]
    simp [Fields.keys, Function.comp_def]
  · rw [Fields.get?_ofPairs]
    simp [Fields.last?, List.filter_map, Function.comp_def]

/-- What plain rules compile to: under each name the value of the last rule that has it. -/
theorem Query.ofRules_of_plain {rules : List Rule} (h : ∀ r ∈ rules, r.Plain) :
    Fields.keys (ofRules rules) = (rules.map (·.name)).eraseDups ∧
      ∀ key, Fields.get? key (ofRules rules) = (rules.filter (·.name == key)).getLast?.map fun r =>
        (Value.convert r.type r.raw).canonical :=
  ofRules_of_bare fun r hr => (h r hr).written

namespace Session

/-! ## Edits -/

theorem not_isLogical_of_permits {s : Session} (hs : s.allowsLogical = false) {e : Edit}
    (h : s.Permits e) : e.isLogical = false := by
  rw [Permits, hs] at h
  simpa using h

/-- A logical edit of the row at an index is denied, whether or not there is such a row. -/
theorem step_edit_of_disabled {s : Session} (hs : s.allowsLogical = false) {e : Edit}
    (h : e.isLogical = true) (index : Nat) :
    s.step (.edit index e) = s.quietly (.refused (.logicalDisabled s.label)) := by
  refine edit_of_denied fun hp => ?_
  rw [not_isLogical_of_permits hs hp] at h
  cases h

/-- The edits of a run leave the conditions of a row as they are. -/
theorem sameConditions_rowAfter {s : Session} (hs : s.allowsLogical = false) (index : Nat)
    (row : Row) (actions : List Action) :
    (s.rowAfter index row actions).rule.SameConditions row.rule := by
  have hfold : ∀ (edits : List Edit) (r : Rule), (∀ e ∈ edits, e.isLogical = false) →
      (edits.foldl (fun r e => e.apply r) r).SameConditions r := by
    intro edits
    induction edits with
    | nil => exact fun r _ => ⟨rfl, rfl⟩
    | cons e edits ih =>
      intro r hedits
      obtain ⟨he, hrest⟩ := List.forall_mem_cons.1 hedits
      exact (ih (e.apply r) hrest).trans (Edit.sameConditions_apply he r)
  refine hfold _ _ fun e he => not_isLogical_of_permits hs ?_
  simpa using (List.mem_filter.1 he).2

/-! ## Rows -/

/-- What an action that takes effect makes of the rows. Each has the conditions of the row with its
identity, or is new and empty. -/
theorem Effect.sameConditions {s t : Session} {a : Action} {answer : Answer}
    (he : s.Effect a t answer) (hs : s.allowsLogical = false) {row : Row} (h : row ∈ t.rows) :
    (∃ old ∈ s.rows, old.id = row.id ∧ row.rule.SameConditions old.rule) ∨
      row = ⟨s.nextId, {}⟩ := by
  have stays : row ∈ s.rows →
      ∃ old ∈ s.rows, old.id = row.id ∧ row.rule.SameConditions old.rule :=
    fun hrow => ⟨row, hrow, rfl, rfl, rfl⟩
  cases he with
  | add => exact (List.mem_append.1 h).imp stays List.mem_singleton.1
  | removeLast rows =>
    refine .inl (stays ?_)
    rw [rows]
    exact List.mem_append_left _ h
  | clear => exact .inr (List.mem_singleton.1 h)
  | @edit _ _ e old target permitted found =>
    rcases List.mem_or_eq_of_mem_set h with hrow | rfl
    · exact .inl (stays hrow)
    · exact .inl ⟨old, List.mem_of_getElem? found, rfl,
        Edit.sameConditions_apply (not_isLogical_of_permits hs permitted) old.rule⟩

theorem rows_step_of_disabled {s : Session} (hs : s.allowsLogical = false) {a : Action} {row : Row}
    (h : row ∈ (s.step a).session.rows) :
    (∃ old ∈ s.rows, old.id = row.id ∧ row.rule.SameConditions old.rule) ∨
      row = ⟨s.nextId, {}⟩ := by
  obtain ⟨-, hstep⟩ | ⟨t, answer, he, hstep⟩ | ⟨answer, -, hstep⟩ := s.step_cases a
  · rw [hstep] at h
    exact .inl ⟨row, h, rfl, rfl, rfl⟩
  · rw [hstep] at h
    exact he.sameConditions hs h
  · rw [hstep] at h
    exact .inl ⟨row, h, rfl, rfl, rfl⟩

/-- A row has at the end of a run the conditions that it has at the beginning, if it is still
there. -/
theorem sameConditions_after {s : Session} (h : s.Numbered) (hs : s.allowsLogical = false)
    {row later : Row} (hrow : row ∈ s.rows) {actions : List Action}
    (hlater : later ∈ (s.after actions).rows) (hid : later.id = row.id) :
    later.rule.SameConditions row.rule := by
  obtain ⟨index, hindex⟩ := List.getElem?_of_mem hrow
  have hlaterId : row.id ∈ (s.after actions).ids := hid ▸ List.mem_map_of_mem hlater
  by_cases hkeep : s.Keeps row.id actions
  · have hstill := rows_after h hindex hkeep
    have hunique : (s.after actions).ids.Nodup :=
      (numbered_after h actions).pairwise.imp Nat.ne_of_lt
    have hsame : later = s.rowAfter index row actions :=
      List.inj_on_of_nodup_map hunique hlater (List.mem_of_getElem? hstill) hid
    rw [hsame]
    exact sameConditions_rowAfter hs index row actions
  · exact absurd hlaterId (gone_of_not_keeps h (mem_ids hindex) hkeep).2

/-- Every row is plain, and stays so. -/
def AllPlain (s : Session) : Prop :=
  s.allowsLogical = false ∧ ∀ row ∈ s.rows, row.rule.Plain

theorem AllPlain.step (s : Session) (a : Action) (h : s.AllPlain) : (s.step a).session.AllPlain := by
  obtain ⟨hs, hrows⟩ := h
  refine ⟨?_, fun row hrow => ?_⟩
  · have := (settings_after s [a]).2
    rwa [after_cons, after_nil, hs] at this
  · obtain ⟨old, hold, -, hsame⟩ | rfl := rows_step_of_disabled hs hrow
    · exact hsame.trans (hrows old hold)
    · exact ⟨rfl, rfl⟩

/-- A form that is cleared has plain rows from then on. -/
theorem allPlain_after_clear {s : Session} (hs : s.allowsLogical = false) (actions : List Action) :
    (s.after (.clear :: actions)).AllPlain := by
  have hcleared : (s.step .clear).session.AllPlain := by
    refine ⟨hs, fun row hrow => ?_⟩
    obtain rfl := List.mem_singleton.1 hrow
    exact ⟨rfl, rfl⟩
  exact after_induction AllPlain.step hcleared actions

/-! ## The start -/

theorem rules_foldl_append (rules : List Rule) (s : Session) :
    (rules.foldl append s).rules = s.rules ++ rules := by
  induction rules generalizing s with
  | nil => simp
  | cons r rules ih =>
    rw [List.foldl_cons, ih]
    simp [Session.rules, append]

/-- A form begins with a row for each of its rules, or with an empty one where there is none. -/
theorem rules_start (rules? : Option (List Rule)) (label : String) (allow : Bool) :
    (start rules? label allow).rules =
      if rules?.getD [] = [] then [{}] else rules?.getD [] := by
  match rules? with
  | none => rfl
  | some [] => rfl
  | some (r :: rules) =>
    have hrules := rules_foldl_append (r :: rules) { new with rows := [] }
    have hrows : ((r :: rules).foldl append { new with rows := [] }).rows.isEmpty = false := by
      rw [List.isEmpty_eq_false_iff]
      intro hnil
      rw [Session.rules, hnil] at hrules
      cases hrules
    rw [Option.getD_some, if_neg (List.cons_ne_nil r rules)]
    simp only [start, Option.map_some, Option.getD_some, ofRules, hrows, Bool.false_eq_true,
      if_false]
    exact hrules

/-- **Disabled conditions.** A form whose logical conditions are disabled begins with the rules that
it is given, or with an empty one; a row that an action creates is empty; and from any point of a
run on, a row keeps its comparison and its second condition for as long as its identity is there. An
edit of either, addressed by any index, is refused. After the form was cleared, its query has the
names of its rows, and under each the bare value of the last row that has it. -/
theorem disabled_conditions_kept (rules? : Option (List Rule)) (label : String)
    (actions : List Action) :
    let s := (start rules? label false).after actions
    (start rules? label false).rules = (if rules?.getD [] = [] then [{}] else rules?.getD []) ∧
    (∀ a, ∀ row ∈ (s.step a).session.rows, row.id ∉ s.ids → row.rule = {}) ∧
    (∀ row ∈ s.rows, ∀ more, ∀ later ∈ (s.after more).rows, later.id = row.id →
      later.rule.comparison = row.rule.comparison ∧ later.rule.second = row.rule.second) ∧
    (∀ e : Edit, e.control ∈ [.comparison, .connective, .secondValue, .secondComparison] →
      ∀ index, s.step (.edit index e) = s.quietly (.refused (.logicalDisabled label))) ∧
    ∀ before since, actions = before ++ .clear :: since →
      Fields.keys s.query = (s.rules.map (·.name)).eraseDups ∧
      ∀ key, Fields.get? key s.query = (s.rules.filter (·.name == key)).getLast?.map fun r =>
        (Value.convert r.type r.raw).canonical := by
  intro s
  obtain ⟨hlabel, hs⟩ := settings_after (start rules? label false) actions
  change s.label = label at hlabel
  change s.allowsLogical = false at hs
  have hnumbered : s.Numbered := numbered_after (numbered_start rules? label false) actions
  refine ⟨rules_start rules? label false, fun a row hrow hnew => ?_, ?_, fun e he index => ?_, ?_⟩
  · obtain ⟨old, hold, hid, -⟩ | rfl := rows_step_of_disabled hs hrow
    · exact absurd (hid ▸ List.mem_map_of_mem hold) hnew
    · rfl
  · intro row hrow more later hlater hid
    exact sameConditions_after hnumbered hs hrow hlater hid
  · have hlogical : e.isLogical = true := by
      cases e <;> first | rfl | simp [Edit.control] at he
    rw [step_edit_of_disabled hs hlogical, hlabel]
  · rintro before since rfl
    have hplain : s.AllPlain := by
      have := allPlain_after_clear (s := (start rules? label false).after before)
        (settings_after _ before).2 since
      rwa [← after_append] at this
    refine Query.ofRules_of_plain fun r hr => ?_
    obtain ⟨row, hrow, rfl⟩ := List.mem_map.1 hr
    exact hplain.2 row hrow

/-- A given rule keeps its second condition, and no row of a cleared form gets one. -/
theorem disabled_conditions_kept_cleared :
    (∀ later ∈ ((start (some [{ name := "a", second := some ⟨.or, "b", .gt⟩ }]) "Data" false).after
        [.edit 0 (.name "$or")]).rows, later.id = 1 → later.rule.second = some ⟨.or, "b", .gt⟩) ∧
      (start none "Data" false).step (.edit 7 (.comparison .gt)) =
        (start none "Data" false).quietly (.refused (.logicalDisabled "Data")) ∧
      Fields.get? "$or" ((start none "Data" false).after
        [.clear, .edit 0 (.name "$or"), .edit 0 (.connective .or)]).query = some (.string "") := by
  refine ⟨fun later hlater hid => ?_, ?_, ?_⟩
  · exact ((disabled_conditions_kept (some [{ name := "a", second := some ⟨.or, "b", .gt⟩ }]) "Data"
      []).2.2.1 ⟨1, { name := "a", second := some ⟨.or, "b", .gt⟩ }⟩ (by decide) _ later hlater
      hid).2
  · exact (disabled_conditions_kept none "Data" []).2.2.2.1 (.comparison .gt) (by decide) 7
  · exact ((disabled_conditions_kept none "Data"
      [.clear, .edit 0 (.name "$or"), .edit 0 (.connective .or)]).2.2.2.2 [] _ rfl).2 "$or"

end Session

end QueryForm
