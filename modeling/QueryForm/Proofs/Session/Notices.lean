/-
What the observers of a form are told over a run.

`Session.observers_told`: an action that takes effect tells every observer
registered so far, once and in order, of the query that the rows then
compile to; a refused one tells nobody and changes nothing; and so an
observer for whom anything has taken effect was last told the query that
the form has now.

Whether an action takes effect is read off what a caller sees, its answer
and the number of rows, and not off the way the form carries it out.
-/
import Mathlib.Data.List.Induction
import Mathlib.Data.List.Nodup
import QueryForm.Proofs.Session.Step

namespace QueryForm

/-- The action registers an observer. -/
def Action.registers : Action → Bool
  | .observe => true
  | _ => false

/-- The number of observers that actions register. -/
def registrations (actions : List Action) : Nat :=
  actions.countP Action.registers

/-- The queries that one observer is told, in order. -/
def told (observer : Nat) (outcomes : List Step) : List Query :=
  outcomes.flatMap fun o => (o.notices.filter (·.observer == observer)).map (·.query)

/-- A number of observers are told, each once and in the order of registration, of the query that
the rows compile to; so is the caller of an edit. -/
def Step.Announces (o : Step) (observers : Nat) : Prop :=
  o.notices = (List.range observers).map (fun observer => ⟨observer, o.session.query⟩) ∧
    o.session.query = Query.ofRules (o.session.rows.map (·.rule)) ∧
    ∀ query, o.answer = .edited query → query = o.session.query

namespace Session

/-- The action takes effect, as its caller sees it: it adds or clears, it removes one row of
several, or it answers with a query. -/
def TakesEffect (s : Session) : Action → Prop
  | .observe => False
  | .add => True
  | .removeLast => 1 < s.rows.length
  | .clear => True
  | .edit index e => ∃ query, (s.step (.edit index e)).answer = .edited query
  | .editRow id e => ∃ query, (s.step (.editRow id e)).answer = .edited query

/-- The action is refused, as its caller sees it: it is to remove the only row, or it answers with
a reason. -/
def Refused (s : Session) : Action → Prop
  | .observe => False
  | .add => False
  | .removeLast => s.rows.length = 1
  | .clear => False
  | .edit index e => ∃ reason, (s.step (.edit index e)).answer = .refused reason
  | .editRow id e => ∃ reason, (s.step (.editRow id e)).answer = .refused reason

/-- Some action of a run takes effect. -/
def TakesEffectIn (s : Session) (actions : List Action) : Prop :=
  ∃ before a rest, actions = before ++ a :: rest ∧ (s.after before).TakesEffect a

/-- The outcomes of actions, one after the other. -/
def outcomes (s : Session) : List Action → List Step
  | [] => []
  | a :: actions => s.step a :: (s.step a).session.outcomes actions

/-! ## Callers see what an action does -/

theorem Effect.takesEffect {s t : Session} {a : Action} {answer : Answer}
    (h : s.Effect a t answer) (hs : s.step a = t.announce answer) : s.TakesEffect a := by
  cases h with
  | add => trivial
  | @removeLast front last rows others =>
    have : 0 < front.length := List.length_pos_iff.mpr others
    simp only [TakesEffect, rows, List.length_append, List.length_singleton]
    omega
  | clear => trivial
  | edit target => cases target <;> exact ⟨_, by rw [hs]; rfl⟩

theorem Refuses.not_takesEffect {s : Session} {a : Action} {answer : Answer}
    (h : s.Refuses a answer) (hs : s.step a = s.quietly answer) : ¬ s.TakesEffect a := by
  cases h with
  | onlyRow rows => exact Nat.not_lt.mpr rows
  | disabled target => cases target <;> simp [TakesEffect, hs]
  | outOfRange target => cases target <;> simp [TakesEffect, hs]
  | unknownRow => simp [TakesEffect, hs]

theorem Refuses.refused {s : Session} {a : Action} {answer : Answer} (h : s.Refuses a answer)
    (hs : s.step a = s.quietly answer) (hrows : s.rows ≠ []) : s.Refused a := by
  cases h with
  | onlyRow rows => exact Nat.le_antisymm rows (List.length_pos_iff.mpr hrows)
  | disabled target => cases target <;> exact ⟨_, by rw [hs]; rfl⟩
  | outOfRange target => cases target <;> exact ⟨_, by rw [hs]; rfl⟩
  | unknownRow => exact ⟨_, by rw [hs]; rfl⟩

theorem Effect.not_refused {s t : Session} {a : Action} {answer : Answer}
    (h : s.Effect a t answer) (hs : s.step a = t.announce answer) : ¬ s.Refused a := by
  cases h with
  | add => exact id
  | @removeLast front last rows others =>
    have : 0 < front.length := List.length_pos_iff.mpr others
    simp only [Refused, rows, List.length_append, List.length_singleton]
    omega
  | clear => exact id
  | edit target => cases target <;> simp [Refused, hs]

/-- An action that takes effect is announced. -/
theorem step_of_takesEffect {s : Session} {a : Action} (h : s.TakesEffect a) :
    ∃ t answer, s.Effect a t answer ∧ s.step a = t.announce answer := by
  obtain ⟨rfl, -⟩ | he | ⟨answer, hr, hs⟩ := s.step_cases a
  · exact h.elim
  · exact he
  · exact absurd h (hr.not_takesEffect hs)

/-- A refused action is told to nobody, and leaves the form as it is. -/
theorem step_of_refused {s : Session} {a : Action} (h : s.Refused a) :
    (s.step a).session = s ∧ (s.step a).notices = [] := by
  obtain ⟨rfl, -⟩ | ⟨t, answer, he, hs⟩ | ⟨answer, -, hs⟩ := s.step_cases a
  · exact h.elim
  · exact absurd h (he.not_refused hs)
  · rw [hs]; exact ⟨rfl, rfl⟩

theorem takesEffect_or_refused {s : Session} (hrows : s.rows ≠ []) (a : Action) :
    a = .observe ∨ s.TakesEffect a ∨ s.Refused a := by
  obtain ⟨ha, -⟩ | ⟨t, answer, he, hs⟩ | ⟨answer, hr, hs⟩ := s.step_cases a
  · exact .inl ha
  · exact .inr (.inl (he.takesEffect hs))
  · exact .inr (.inr (hr.refused hs hrows))

theorem announces_of_takesEffect {s : Session} {a : Action} (h : s.TakesEffect a) :
    (s.step a).Announces s.observers := by
  obtain ⟨t, answer, he, hs⟩ := step_of_takesEffect h
  rw [hs]
  refine ⟨by rw [← he.settings.2.2]; rfl, rfl, fun query hquery => ?_⟩
  rw [answer_announce] at hquery
  cases he with
  | edit => exact (Answer.edited.inj hquery).symm
  | _ => cases hquery

/-! ## Observers over a run -/

theorem observers_step (s : Session) (a : Action) :
    (s.step a).session.observers = s.observers + registrations [a] := by
  obtain ⟨rfl, hs⟩ | ⟨t, answer, he, hs⟩ | ⟨answer, hr, hs⟩ := s.step_cases a
  · rw [hs]; rfl
  · rw [hs]; cases he with
    | edit target => cases target <;> rfl
    | _ => rfl
  · rw [hs]; cases hr with
    | disabled target => cases target <;> rfl
    | outOfRange target => cases target <;> rfl
    | _ => rfl

/-- A form has the observers that were registered. -/
theorem observers_after (s : Session) (actions : List Action) :
    (s.after actions).observers = s.observers + registrations actions := by
  induction actions generalizing s with
  | nil => rfl
  | cons a actions ih =>
    rw [after_cons, ih, observers_step]
    simp only [registrations, List.countP_cons, List.countP_nil]
    omega

theorem observers_foldl_append (rules : List Rule) (s : Session) :
    (rules.foldl append s).observers = s.observers := by
  induction rules generalizing s with
  | nil => rfl
  | cons r rules ih => exact ih (s.append r)

theorem observers_start (rules? : Option (List Rule)) (label : String) (allow : Bool) :
    (start rules? label allow).observers = 0 := by
  cases rules? with
  | none => rfl
  | some rules =>
    have hfold := observers_foldl_append rules { new with rows := [] }
    simp only [start, Option.map_some, Option.getD_some, allowLogical, withLabel, ofRules]
    split <;> exact hfold

theorem outcomes_append (s : Session) (xs ys : List Action) :
    s.outcomes (xs ++ ys) = s.outcomes xs ++ (s.after xs).outcomes ys := by
  induction xs generalizing s with
  | nil => rfl
  | cons a xs ih => simp only [List.cons_append, outcomes, ih, after_cons]

theorem told_append (observer : Nat) (xs ys : List Step) :
    told observer (xs ++ ys) = told observer xs ++ told observer ys :=
  List.flatMap_append

theorem told_announce {observer : Nat} {s : Session} (h : observer < s.observers)
    (answer : Answer) : told observer [s.announce answer] = [s.query] := by
  have hcount : (List.range s.observers).count observer = 1 :=
    List.count_eq_one_of_mem List.nodup_range (List.mem_range.mpr h)
  simp [told, announce, List.filter_map, Function.comp_def, List.filter_beq, hcount]

theorem told_quietly (observer : Nat) (s : Session) (answer : Answer) :
    told observer [s.quietly answer] = [] := rfl

theorem not_takesEffectIn_nil (s : Session) : ¬ s.TakesEffectIn [] := by
  rintro ⟨before, a, rest, h, -⟩
  simp at h

/-- If something takes effect in a run, it is the last action or one before it. -/
theorem TakesEffectIn.concat {s : Session} {actions : List Action} {a : Action}
    (h : s.TakesEffectIn (actions ++ [a])) :
    (s.after actions).TakesEffect a ∨ s.TakesEffectIn actions := by
  obtain ⟨before, b, rest, heq, hb⟩ := h
  rcases List.eq_nil_or_concat rest with rfl | ⟨front, last, rfl⟩
  · obtain ⟨rfl, hab⟩ := List.append_inj' heq rfl
    cases hab
    exact .inl hb
  · refine .inr ⟨before, b, front, ?_, hb⟩
    have : actions ++ [a] = (before ++ b :: front) ++ [last] := by simpa using heq
    exact (List.append_inj' this rfl).1

/-- An observer for whom something took effect was last told the query that the form has now. By
induction from the last action backwards: it is announced, or it leaves the rows as they are. -/
theorem getLast?_told {s : Session} {observer : Nat} (hobserver : observer < s.observers)
    {actions : List Action} (h : s.TakesEffectIn actions) :
    (told observer (s.outcomes actions)).getLast? = some (s.after actions).query := by
  induction actions using List.reverseRecOn with
  | nil => exact absurd h s.not_takesEffectIn_nil
  | append_singleton actions a ih =>
    rw [outcomes_append, told_append, after_append]
    change (told observer (s.outcomes actions) ++
      told observer [(s.after actions).step a]).getLast? =
        some ((s.after actions).step a).session.query
    have hcount : observer < (s.after actions).observers := by
      rw [observers_after]; omega
    obtain ⟨rfl, hs⟩ | ⟨t, answer, he, hs⟩ | ⟨answer, hr, hs⟩ := (s.after actions).step_cases a
    · rw [hs, told_quietly, List.append_nil]
      exact ih (h.concat.resolve_left id)
    · rw [hs, told_announce (by rw [he.settings.2.2]; exact hcount)]
      exact List.getLast?_concat
    · rw [hs, told_quietly, List.append_nil]
      exact ih (h.concat.resolve_left (hr.not_takesEffect hs))

/-- **Observers are told.** A form at any point of any run has a row; its observers are those
registered so far, its label and its permission those of its start. An action on it registers an
observer, or takes effect and is announced to those observers, or is refused and then leaves all of
the form as it is and is told to nobody. And an observer for whom something took effect was last
told the query that the form has now. -/
theorem observers_told (rules? : Option (List Rule)) (label : String) (allow : Bool)
    (actions : List Action) :
    let s := (start rules? label allow).after actions
    (s.rows ≠ [] ∧ s.observers = registrations actions ∧ s.label = label ∧
      s.allowsLogical = allow) ∧
    (∀ a, a = .observe ∨ s.TakesEffect a ∨ s.Refused a) ∧
    (∀ a, s.TakesEffect a → (s.step a).Announces (registrations actions)) ∧
    (∀ a, s.Refused a → (s.step a).session = s ∧ (s.step a).notices = []) ∧
    ∀ before since, actions = before ++ .observe :: since →
      ((start rules? label allow).after (before ++ [.observe])).TakesEffectIn since →
      (told (registrations before) ((start rules? label allow).outcomes actions)).getLast? =
        some s.query := by
  intro s
  have hrows : s.rows ≠ [] := rows_after_ne_nil (rows_start_ne_nil rules? label allow) actions
  have hcount : s.observers = registrations actions := by
    rw [observers_after, observers_start, Nat.zero_add]
  obtain ⟨hlabel, hallow⟩ := settings_after (start rules? label allow) actions
  refine ⟨⟨hrows, hcount, hlabel, hallow⟩, takesEffect_or_refused hrows, fun a ha => ?_,
    fun a => step_of_refused, fun before since hactions hsince => ?_⟩
  · rw [← hcount]
    exact announces_of_takesEffect ha
  · have hsplit : actions = (before ++ [.observe]) ++ since := by simpa using hactions
    have hnew : registrations before <
        ((start rules? label allow).after (before ++ [.observe])).observers := by
      rw [observers_after, observers_start]
      simp [registrations, Action.registers]
    have hlast := getLast?_told hnew hsince
    rw [hsplit, outcomes_append, told_append, List.getLast?_append, hlast, Option.some_or,
      ← after_append, ← hsplit]

/-- An observer of a form that grows and shrinks again: it was last told of one row. -/
theorem observers_told_grown :
    (told 0 ((start none "Data" false).outcomes [.observe, .add, .removeLast])).getLast? =
      some ((start none "Data" false).after [.observe, .add, .removeLast]).query ∧
    ((start none "Data" false).step .removeLast).notices = [] :=
  ⟨(observers_told none "Data" false [.observe, .add, .removeLast]).2.2.2.2 [] [.add, .removeLast]
      rfl ⟨[], .add, [.removeLast], rfl, trivial⟩,
    ((observers_told none "Data" false []).2.2.2.1 .removeLast rfl).2⟩

end Session

end QueryForm
