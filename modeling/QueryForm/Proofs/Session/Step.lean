/-
What one action does to a form, and what a run of them keeps.

`Session.step_cases` says all of it once: an action registers an observer,
or it takes effect (`Effect`), or it is refused (`Refuses`). Everything else
here reads it off case by case and never opens an action again. An invariant
is shown for each way to take effect (`Session.step_induction`), and
`Session.after_induction` carries it through a run.
-/
import QueryForm.Session

namespace QueryForm.Session

/-! ## Ways to take effect, and to be refused -/

/-- The form lets an edit through. -/
def Permits (s : Session) (e : Edit) : Prop :=
  e.isLogical = true → s.allowsLogical = true

instance (s : Session) (e : Edit) : Decidable (s.Permits e) :=
  inferInstanceAs (Decidable (_ → _))

/-- The index and the edit that an action comes to. A row is edited through its identity at the
index of the first row that has it. -/
inductive Targets (s : Session) : Action → Nat → Edit → Prop
  | index {index : Nat} {e : Edit} : Targets s (.edit index e) index e
  | row {id index : Nat} {e : Edit} (found : s.rows.findIdx? (·.id == id) = some index) :
    Targets s (.editRow id e) index e

/-- What an action that takes effect makes of a form, and what it answers. -/
inductive Effect (s : Session) : Action → Session → Answer → Prop
  | add : Effect s .add (s.append {}) (.added s.nextId)
  | removeLast {front : List Row} {last : Row} (rows : s.rows = front ++ [last])
      (others : front ≠ []) :
    Effect s .removeLast { s with rows := front } (.removed last)
  | clear : Effect s .clear (append { s with rows := [] } {}) .nothing
  | edit {a : Action} {index : Nat} {e : Edit} {row : Row} (target : s.Targets a index e)
      (permitted : s.Permits e) (found : s.rows[index]? = some row) :
    Effect s a (s.setRule index row e) (.edited (s.setRule index row e).query)

/-- What a refused action answers. -/
inductive Refuses (s : Session) : Action → Answer → Prop
  | onlyRow (rows : s.rows.length ≤ 1) : Refuses s .removeLast .nothing
  | disabled {a : Action} {index : Nat} {e : Edit} (target : s.Targets a index e)
      (denied : ¬ s.Permits e) :
    Refuses s a (.refused (.logicalDisabled s.label))
  | outOfRange {a : Action} {index : Nat} {e : Edit} (target : s.Targets a index e)
      (permitted : s.Permits e) (beyond : s.rows[index]? = none) :
    Refuses s a (.refused (.rowOutOfRange index s.rows.length))
  | unknownRow {id : Nat} {e : Edit} (unknown : s.rows.findIdx? (·.id == id) = none) :
    Refuses s (.editRow id e) (.refused (.unknownRow id))

/-! ## One action -/

theorem edit_of_denied {s : Session} {index : Nat} {e : Edit} (h : ¬ s.Permits e) :
    s.edit index e = s.quietly (.refused (.logicalDisabled s.label)) := by
  rw [Permits, Classical.not_imp, Bool.not_eq_true] at h
  rw [Session.edit, h.1, h.2]
  rfl

theorem edit_of_permitted {s : Session} {index : Nat} {e : Edit} (h : s.Permits e) :
    s.edit index e =
      match s.rows[index]? with
      | none => s.quietly (.refused (.rowOutOfRange index s.rows.length))
      | some row => (s.setRule index row e).announce (.edited (s.setRule index row e).query) := by
  have : (e.isLogical && !s.allowsLogical) = false := by
    rw [Permits] at h
    cases hl : e.isLogical with
    | false => rfl
    | true => rw [h hl]; rfl
  rw [Session.edit, this]
  rfl

theorem editRow_of_found {s : Session} {id index : Nat} {e : Edit}
    (h : s.rows.findIdx? (·.id == id) = some index) : s.editRow id e = s.edit index e := by
  rw [editRow, h]

theorem editRow_of_unknown {s : Session} {id : Nat} {e : Edit}
    (h : s.rows.findIdx? (·.id == id) = none) :
    s.editRow id e = s.quietly (.refused (.unknownRow id)) := by
  rw [editRow, h]

/-- An action with a target is the edit there. -/
theorem Targets.step_eq {s : Session} {a : Action} {index : Nat} {e : Edit}
    (h : s.Targets a index e) : s.step a = s.edit index e := by
  cases h with
  | index => rfl
  | row found => exact editRow_of_found found

theorem Targets.step_cases {s : Session} {a : Action} {index : Nat} {e : Edit}
    (h : s.Targets a index e) :
    (∃ t answer, s.Effect a t answer ∧ s.step a = t.announce answer) ∨
      ∃ answer, s.Refuses a answer ∧ s.step a = s.quietly answer := by
  rw [h.step_eq]
  by_cases hp : s.Permits e
  · rw [edit_of_permitted hp]
    cases hrow : s.rows[index]? with
    | none => exact .inr ⟨_, .outOfRange h hp hrow, rfl⟩
    | some row => exact .inl ⟨_, _, .edit h hp hrow, rfl⟩
  · exact .inr ⟨_, .disabled h hp, edit_of_denied hp⟩

theorem removeLast_cases (s : Session) :
    (∃ t answer, s.Effect .removeLast t answer ∧ s.step .removeLast = t.announce answer) ∨
      ∃ answer, s.Refuses .removeLast answer ∧ s.step .removeLast = s.quietly answer := by
  rcases List.eq_nil_or_concat s.rows with hrows | ⟨front, last, hrows⟩
  · exact .inr ⟨_, .onlyRow (by simp [hrows]), by simp only [step, removeLast, hrows]; rfl⟩
  · by_cases hfront : front = []
    · refine .inr ⟨_, .onlyRow (by simp [hrows, hfront]), ?_⟩
      simp [step, removeLast, canRemove, hrows, hfront]
    · refine .inl ⟨_, _, .removeLast (by simpa using hrows) hfront, ?_⟩
      have : 0 < front.length := List.length_pos_iff.mpr hfront
      simp [step, removeLast, canRemove, hrows, this]

/-- An action registers an observer, or takes effect and every observer is told, or is refused and
leaves the form as it is. -/
theorem step_cases (s : Session) (a : Action) :
    (a = .observe ∧ s.step a = quietly { s with observers := s.observers + 1 } .nothing) ∨
      (∃ t answer, s.Effect a t answer ∧ s.step a = t.announce answer) ∨
      ∃ answer, s.Refuses a answer ∧ s.step a = s.quietly answer := by
  cases a with
  | observe => exact .inl ⟨rfl, rfl⟩
  | add => exact .inr (.inl ⟨_, _, .add, rfl⟩)
  | removeLast => exact .inr s.removeLast_cases
  | clear => exact .inr (.inl ⟨_, _, .clear, rfl⟩)
  | edit index e => exact .inr Targets.index.step_cases
  | editRow id e =>
    cases h : s.rows.findIdx? (·.id == id) with
    | none => exact .inr (.inr ⟨_, .unknownRow h, editRow_of_unknown h⟩)
    | some index => exact .inr (Targets.row h).step_cases

@[simp] theorem session_announce (s : Session) (answer : Answer) :
    (s.announce answer).session = s := rfl

@[simp] theorem answer_announce (s : Session) (answer : Answer) :
    (s.announce answer).answer = answer := rfl

@[simp] theorem session_quietly (s : Session) (answer : Answer) :
    (s.quietly answer).session = s := rfl

@[simp] theorem answer_quietly (s : Session) (answer : Answer) :
    (s.quietly answer).answer = answer := rfl

/-- What every way to take effect keeps, and the count of observers does not bear on, every action
keeps. -/
theorem step_induction {P : Session → Prop}
    (observe : ∀ s, P s → P { s with observers := s.observers + 1 })
    (effect : ∀ {s a t answer}, s.Effect a t answer → P s → P t) (s : Session) (a : Action)
    (h : P s) : P (s.step a).session := by
  obtain ⟨-, hs⟩ | ⟨t, answer, he, hs⟩ | ⟨answer, -, hs⟩ := s.step_cases a
  · rw [hs]; exact observe s h
  · rw [hs]; exact effect he h
  · rw [hs]; exact h

/-! ## Runs -/

/-- The form after actions, one after the other. -/
def after (s : Session) (actions : List Action) : Session :=
  actions.foldl (fun s a => (s.step a).session) s

@[simp] theorem after_nil (s : Session) : s.after [] = s := rfl

@[simp] theorem after_cons (s : Session) (a : Action) (actions : List Action) :
    s.after (a :: actions) = (s.step a).session.after actions := rfl

@[simp] theorem after_append (s : Session) (xs ys : List Action) :
    s.after (xs ++ ys) = (s.after xs).after ys := by
  simp [after]

/-- What every action keeps, a run keeps. -/
theorem after_induction {P : Session → Prop} (step : ∀ s a, P s → P (s.step a).session)
    {s : Session} (h : P s) (actions : List Action) : P (s.after actions) := by
  induction actions generalizing s with
  | nil => exact h
  | cons a actions ih => exact ih (step s a h)

/-- A form at its start: with one empty row or with rows for given rules, under a label, its
logical conditions allowed or disabled. -/
def start (rules? : Option (List Rule)) (label : String) (allow : Bool) : Session :=
  (((rules?.map ofRules).getD new).withLabel label).allowLogical allow

/-! ## What no action changes -/

theorem Effect.settings {s t : Session} {a : Action} {answer : Answer} (h : s.Effect a t answer) :
    t.label = s.label ∧ t.allowsLogical = s.allowsLogical ∧ t.observers = s.observers := by
  cases h <;> exact ⟨rfl, rfl, rfl⟩

/-- The label and the permission stay what they are at the start. -/
theorem settings_after (s : Session) (actions : List Action) :
    (s.after actions).label = s.label ∧ (s.after actions).allowsLogical = s.allowsLogical := by
  refine after_induction (P := fun t => t.label = s.label ∧ t.allowsLogical = s.allowsLogical)
    (step_induction (fun _ h => h) fun he h => ?_) ⟨rfl, rfl⟩ actions
  exact ⟨he.settings.1.trans h.1, he.settings.2.1.trans h.2⟩

/-- A form never runs out of rows. -/
theorem Effect.rows_ne_nil {s t : Session} {a : Action} {answer : Answer}
    (h : s.Effect a t answer) (hs : s.rows ≠ []) : t.rows ≠ [] := by
  cases h with
  | add => simp [append]
  | removeLast _ others => exact others
  | clear => simp [append]
  | edit => simpa [setRule] using hs

theorem rows_start_ne_nil (rules? : Option (List Rule)) (label : String) (allow : Bool) :
    (start rules? label allow).rows ≠ [] := by
  cases rules? with
  | none => simp [start, new, append, withLabel, allowLogical]
  | some rules =>
    simp only [start, Option.map_some, Option.getD_some, allowLogical, withLabel, ofRules]
    split
    · simp [append]
    · rename_i h
      simpa using h

theorem rows_after_ne_nil {s : Session} (h : s.rows ≠ []) (actions : List Action) :
    (s.after actions).rows ≠ [] :=
  after_induction (step_induction (fun _ h => h) Effect.rows_ne_nil) h actions

end QueryForm.Session
