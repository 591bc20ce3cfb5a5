/-
Forms whose logical conditions are disabled from the start, and what their
rows were given.

A row either has the conditions of the row that the form began with under
its identity, or it was created later and is plain (`inherits_after`). So a
form has equalities only, whatever is done to it, exactly where it was given
equalities only. What it was given is not looked at: a comparison or a
second condition that counts stays, and the observers are told of it. It is
the same where the conditions are disabled later: the rows of that state are
not looked at either.
-/
import QueryForm.Proofs.Session.Disabled
import QueryForm.Proofs.Session.Notices

namespace QueryForm

namespace Rule

/-- A rule is an equality: no other comparison, and no second condition that counts. -/
def IsEquality (r : Rule) : Prop :=
  r.comparison = .eq ∧ r.activeSecond = none

instance (r : Rule) : Decidable r.IsEquality :=
  inferInstanceAs (Decidable (_ ∧ _))

theorem Plain.isEquality {r : Rule} (h : r.Plain) : r.IsEquality := by
  refine ⟨h.1, ?_⟩
  rw [activeSecond, h.2]
  rfl

theorem SameConditions.isEquality_iff {r q : Rule} (h : r.SameConditions q) :
    r.IsEquality ↔ q.IsEquality := by
  rw [IsEquality, IsEquality, activeSecond, activeSecond, h.1, h.2]

/-- An equality writes its name, with its value bare. -/
theorem IsEquality.written {r : Rule} (h : r.IsEquality) :
    r.key = r.name ∧ r.content = (Value.convert r.type r.raw).canonical := by
  obtain ⟨name, type, raw, comparison, second⟩ := r
  obtain ⟨rfl, hsecond⟩ := h
  match second with
  | none => exact ⟨rfl, rfl⟩
  | some ⟨.none, _, _⟩ => exact ⟨rfl, rfl⟩
  | some ⟨.and, _, _⟩ => cases hsecond
  | some ⟨.or, _, _⟩ => cases hsecond

/-- A rule's value stands bare in its document exactly where the rule is an equality. -/
theorem isEquality_iff_value (r : Rule) : r.IsEquality ↔ ∃ v, r.entry.2 = .value v := by
  obtain ⟨name, type, raw, comparison, second⟩ := r
  have hnode : comparison = .eq ↔ ∃ v, Node.wrap (.convert type raw) comparison = .value v := by
    cases comparison <;> simp [Node.wrap, Comparison.isEquality]
  match second with
  | none => exact (and_iff_left rfl).trans hnode
  | some ⟨.none, _, _⟩ => exact (and_iff_left rfl).trans hnode
  | some ⟨.and, _, _⟩ => exact iff_of_false (fun h => nomatch h.2) fun ⟨_, hv⟩ => nomatch hv
  | some ⟨.or, _, _⟩ => exact iff_of_false (fun h => nomatch h.2) fun ⟨_, hv⟩ => nomatch hv

end Rule

/-- A query holds bare values: under the name of each rule the value of the last rule that has it,
neither under a comparison nor joined with another. -/
def Query.Bare (rules : List Rule) (q : Query) : Prop :=
  Fields.keys q = (rules.map (·.name)).eraseDups ∧
    ∀ key, Fields.get? key q = (rules.filter (·.name == key)).getLast?.map fun r =>
      (Value.convert r.type r.raw).canonical

theorem Query.bare_ofRules {rules : List Rule} (h : ∀ r ∈ rules, r.IsEquality) :
    Query.Bare rules (.ofRules rules) :=
  ofRules_of_bare fun r hr => (h r hr).written

/-- The document of equalities holds bare values alone. -/
theorem Document.value_of_isEquality {rules : List Rule} (h : ∀ r ∈ rules, r.IsEquality) :
    ∀ entry ∈ ofRules rules, ∃ v, entry.2 = .value v := by
  rw [ofRules_eq]
  refine Fields.forall_ofPairs (P := fun node : Node => ∃ v, node = Node.value v) fun entry hentry => ?_
  obtain ⟨r, hr, rfl⟩ := List.mem_map.1 hentry
  exact r.isEquality_iff_value.1 (h r hr)

namespace Session

/-- The row has the conditions of one of some rows under the same identity, or is plain. -/
def Inherits (seeds : List Row) (row : Row) : Prop :=
  (∃ seed ∈ seeds, seed.id = row.id ∧ row.rule.SameConditions seed.rule) ∨ row.rule.Plain

theorem Inherits.step {seeds : List Row} {s : Session} (hs : s.allowsLogical = false)
    (h : ∀ row ∈ s.rows, Inherits seeds row) (a : Action) :
    ∀ row ∈ (s.step a).session.rows, Inherits seeds row := by
  intro row hrow
  obtain ⟨old, hold, hid, hsame⟩ | rfl := rows_step_of_disabled hs hrow
  · obtain ⟨seed, hseed, hseedId, hinherited⟩ | hplain := h old hold
    · exact .inl ⟨seed, hseed, hseedId.trans hid, hsame.trans hinherited⟩
    · exact .inr (hsame.trans hplain)
  · exact .inr ⟨rfl, rfl⟩

/-- Every row stems from the beginning of a run, or was created plain. -/
theorem inherits_after {s : Session} (hs : s.allowsLogical = false) (actions : List Action) :
    ∀ row ∈ (s.after actions).rows, Inherits s.rows row := by
  have hinvariant : (s.after actions).allowsLogical = false ∧
      ∀ row ∈ (s.after actions).rows, Inherits s.rows row := by
    refine after_induction (P := fun t => t.allowsLogical = false ∧
      ∀ row ∈ t.rows, Inherits s.rows row) (fun t a h => ⟨?_, Inherits.step h.1 h.2 a⟩) ⟨hs, ?_⟩
      actions
    · exact (settings_after t [a]).2.trans h.1
    · exact fun row hrow => .inl ⟨row, hrow, rfl, rfl, rfl⟩
  exact hinvariant.2

/-- A row is an equality if the form began with none of its identity but equalities. -/
theorem isEquality_iff {s : Session} (h : s.Numbered) (hs : s.allowsLogical = false)
    {actions : List Action} {row : Row} (hrow : row ∈ (s.after actions).rows) :
    row.rule.IsEquality ↔ ∀ seed ∈ s.rows, seed.id = row.id → seed.rule.IsEquality := by
  constructor
  · intro hequality seed hseed hid
    exact (sameConditions_after h hs hseed hrow hid.symm).isEquality_iff.1 hequality
  · intro hseeds
    obtain ⟨seed, hseed, hid, hsame⟩ | hplain := inherits_after hs actions row hrow
    · exact hsame.isEquality_iff.2 (hseeds seed hseed hid)
    · exact hplain.isEquality

/-- All rows are equalities from a state on, whatever is done, if and only if they are in it. -/
theorem forall_isEquality_iff {s : Session} (h : s.Numbered) (hs : s.allowsLogical = false) :
    (∀ actions, ∀ row ∈ (s.after actions).rows, row.rule.IsEquality) ↔
      ∀ row ∈ s.rows, row.rule.IsEquality := by
  constructor
  · exact fun hall => hall []
  · exact fun hseeds actions row hrow =>
      (isEquality_iff h hs hrow).2 fun seed hseed _ => hseeds seed hseed

/-- The rules of rows that are equalities compile to bare values. -/
theorem bare_of_isEquality {s : Session} (h : ∀ row ∈ s.rows, row.rule.IsEquality) :
    (∀ entry ∈ Document.ofRules s.rules, ∃ v, entry.2 = .value v) ∧ s.query.Bare s.rules := by
  have hrules : ∀ r ∈ s.rules, r.IsEquality := by
    intro r hr
    obtain ⟨row, hmem, rfl⟩ := List.mem_map.1 hr
    exact h row hmem
  exact ⟨Document.value_of_isEquality hrules, Query.bare_ofRules hrules⟩

/-- A form that is given equalities begins with equalities, and with no others. -/
theorem isEquality_start {rules? : Option (List Rule)} {label : String} {allow : Bool} :
    (∀ row ∈ (start rules? label allow).rows, row.rule.IsEquality) ↔
      ∀ r ∈ rules?.getD [], r.IsEquality := by
  have hrules := rules_start rules? label allow
  have hrows : (∀ row ∈ (start rules? label allow).rows, row.rule.IsEquality) ↔
      ∀ r ∈ (start rules? label allow).rules, r.IsEquality := by
    simp [Session.rules]
  rw [hrows, hrules]
  split
  · next hnone =>
    rw [hnone]
    simp [Rule.IsEquality, Rule.activeSecond]
  · rfl

/-- Observers are told the query that the rows then compile to. -/
theorem query_of_notice {s : Session} {a : Action} {notice : Notice}
    (h : notice ∈ (s.step a).notices) : notice.query = (s.step a).session.query := by
  obtain ⟨-, hstep⟩ | ⟨t, answer, -, hstep⟩ | ⟨answer, -, hstep⟩ := s.step_cases a
  · rw [hstep] at h
    cases h
  · rw [hstep] at h ⊢
    obtain ⟨observer, -, rfl⟩ := List.mem_map.1 h
    rfl
  · rw [hstep] at h
    cases h

/-- **Equalities are kept, and so is what else is given.** In a form whose logical conditions are
disabled from the start, a row is an equality exactly where the form began with none but an equality
under the row's identity. All rows are, whatever is done to the form, if and only if all the rules
that it was given are. As long as all are, the document has no operator in it, and the query holds
each row's value bare under its name; and the query at that point is what the observers of an action
are told. Where logical conditions are disabled later, in any state of a form, the rows of that state
stand for the ones that it was given. -/
theorem equalities_kept (rules? : Option (List Rule)) (label : String) (actions : List Action) :
    let begun := start rules? label false
    let s := begun.after actions
    (∀ row ∈ s.rows,
      (row.rule.IsEquality ↔ ∀ seed ∈ begun.rows, seed.id = row.id → seed.rule.IsEquality)) ∧
    ((∀ more, ∀ row ∈ (begun.after more).rows, row.rule.IsEquality) ↔
      ∀ r ∈ rules?.getD [], r.IsEquality) ∧
    ((∀ row ∈ s.rows, row.rule.IsEquality) →
      (∀ entry ∈ Document.ofRules s.rules, ∃ v, entry.2 = .value v) ∧ s.query.Bare s.rules) ∧
    (∀ a, ∀ notice ∈ (s.step a).notices, notice.query = (begun.after (actions ++ [a])).query) ∧
    ∀ t : Session, t.Reachable →
      let disabled := t.allowLogical false
      (∀ more, ∀ row ∈ (disabled.after more).rows,
        (row.rule.IsEquality ↔ ∀ seed ∈ t.rows, seed.id = row.id → seed.rule.IsEquality)) ∧
      ((∀ more, ∀ row ∈ (disabled.after more).rows, row.rule.IsEquality) ↔
        ∀ row ∈ t.rows, row.rule.IsEquality) ∧
      ∀ more, (∀ row ∈ (disabled.after more).rows, row.rule.IsEquality) →
        (∀ entry ∈ Document.ofRules (disabled.after more).rules, ∃ v, entry.2 = .value v) ∧
          (disabled.after more).query.Bare (disabled.after more).rules := by
  intro begun s
  have hnumbered : begun.Numbered := numbered_start rules? label false
  refine ⟨fun row hrow => isEquality_iff hnumbered rfl hrow,
    (forall_isEquality_iff hnumbered rfl).trans isEquality_start, bare_of_isEquality,
    fun a notice hnotice => ?_, fun t ht => ?_⟩
  · rw [query_of_notice hnotice, after_append]
    rfl
  · have hdisabled : (t.allowLogical false).Numbered := (ht.allowLogical false).numbered
    exact ⟨fun more row hrow => isEquality_iff hdisabled rfl hrow,
      forall_isEquality_iff hdisabled rfl, fun more => bare_of_isEquality⟩

/-- A new form has equalities, and nobody is told of anything else. A comparison that was made while
it was allowed outlasts that. -/
theorem equalities_kept_new :
    (∀ row ∈ ((start none "Data" false).after [.add, .edit 1 (.connective .or)]).rows,
        row.rule.IsEquality) ∧
      Query.Bare [{}, {}] ((start none "Data" false).after [.add, .edit 1 (.connective .or)]).query ∧
      let t := (start none "Data" true).after [.edit 0 (.comparison .gt)]
      ¬ ∀ more, ∀ row ∈ ((t.allowLogical false).after more).rows, row.rule.IsEquality := by
  have h := equalities_kept none "Data" [.add, .edit 1 (.connective .or)]
  have hall := h.2.1.2 (List.forall_mem_nil _) [.add, .edit 1 (.connective .or)]
  have hdisabled := h.2.2.2.2 _ (.step (.edit 0 (.comparison .gt)) (.start none "Data" true))
  exact ⟨hall, (h.2.2.1 hall).2, fun hkept => absurd (hdisabled.2.1.1 hkept) (by decide)⟩

/-- A form that is given a comparison tells its observers of it. -/
theorem equalities_kept_given :
    let s := (start (some [{ name := "a", raw := "x", comparison := .gt }]) "Data" false).after
      [.observe]
    (∃ row ∈ (s.step .add).session.rows, ¬ row.rule.IsEquality) ∧
      ∃ notice ∈ (s.step .add).notices,
        Fields.get? "a" notice.query = some (.object [("$gt", .string "x")]) := by
  refine ⟨⟨⟨1, { name := "a", raw := "x", comparison := .gt }⟩, by decide, by decide⟩, ?_⟩
  exact ⟨_, List.mem_singleton.2 rfl, rfl⟩

end Session
end QueryForm
