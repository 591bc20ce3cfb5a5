/-
The identities of rows over a run.

A form counts: the identities it gives out are 0, 1, 2 and so on, so none is
given out twice, and those of its rows are some of them, in order
(`Numbered`). `Session.identities_kept` draws the consequences. From when it
is given out until its row is removed, an identity names one row at one
index, whatever happens to the others, and an edit through it is the edit at
that index; afterwards it names none.

The life of a row is told without the form: the edits addressed to it that
the form permits, one after the other (`rowAfter`).
-/
import Mathlib.Data.List.Nodup
import QueryForm.Proofs.Session.Step

namespace QueryForm

/-- The edit that an action makes to the row at an index, addressed by the index or by the row's
identity. -/
def Action.edit? (index id : Nat) : Action → Option Edit
  | .edit i e => if i = index then some e else none
  | .editRow k e => if k = id then some e else none
  | _ => none

namespace Session

/-- The identities of the rows, in order. -/
def ids (s : Session) : List Nat :=
  s.rows.map (·.id)

/-- The identities that an action gives out. -/
def issues (s : Session) : Action → List Nat
  | .add =>
    match (s.step .add).answer with
    | .added id => [id]
    | _ => []
  | .clear => (s.step .clear).session.ids
  | _ => []

/-- The identities that actions give out, in order. -/
def issuedIn (s : Session) : List Action → List Nat
  | [] => []
  | a :: actions => s.issues a ++ (s.step a).session.issuedIn actions

/-- The identities given out at the start. A form for given rules begins as a new form, whose row
is dropped. -/
def issuedAt : Option (List Rule) → List Nat
  | none => new.ids
  | some rules => new.ids ++ (ofRules rules).ids

/-- An action removes the row with an identity. -/
def Removes (s : Session) (id : Nat) : Action → Prop
  | .removeLast => ∃ row, (s.step .removeLast).answer = .removed row ∧ row.id = id
  | .clear => True
  | _ => False

/-- No action of a run removes the row with an identity. -/
def Keeps (s : Session) (id : Nat) : List Action → Prop
  | [] => True
  | a :: actions => ¬ s.Removes id a ∧ (s.step a).session.Keeps id actions

/-- What the edits of a run make of the row at an index, the form permitting them. -/
def rowAfter (s : Session) (index : Nat) (row : Row) (actions : List Action) : Row :=
  { row with
    rule := ((actions.filterMap (Action.edit? index row.id)).filter fun e => s.Permits e).foldl
      (fun r e => e.apply r) row.rule }

/-! ## Identities are counted -/

/-- The identities of the rows are some of those below the next one, in order. -/
def Numbered (s : Session) : Prop :=
  s.ids.Sublist (List.range s.nextId)

theorem Numbered.pairwise {s : Session} (h : s.Numbered) : s.ids.Pairwise (· < ·) :=
  List.Pairwise.sublist h List.pairwise_lt_range

theorem Numbered.lt {s : Session} (h : s.Numbered) {id : Nat} (hid : id ∈ s.ids) :
    id < s.nextId :=
  List.mem_range.mp (h.subset hid)

@[simp] theorem ids_append (s : Session) (r : Rule) : (s.append r).ids = s.ids ++ [s.nextId] := by
  simp [ids, append]

@[simp] theorem nextId_append (s : Session) (r : Rule) : (s.append r).nextId = s.nextId + 1 := rfl

theorem ids_setRule {s : Session} {index : Nat} {row : Row} (h : s.rows[index]? = some row)
    (e : Edit) : (s.setRule index row e).ids = s.ids := by
  have hid : (s.rows.map (·.id))[index]? = some row.id := by
    rw [List.getElem?_map, h]
    rfl
  obtain ⟨hlt, heq⟩ := List.getElem?_eq_some_iff.mp hid
  rw [ids, setRule, List.map_set]
  change (s.rows.map (·.id)).set index row.id = s.rows.map (·.id)
  rw [← heq, List.set_getElem_self]

theorem Numbered.append {s : Session} (h : s.Numbered) (r : Rule) : (s.append r).Numbered := by
  rw [Numbered, ids_append, nextId_append, List.range_succ]
  exact List.Sublist.append h (List.Sublist.refl _)

theorem Numbered.effect {s t : Session} {a : Action} {answer : Answer}
    (he : s.Effect a t answer) (h : s.Numbered) : t.Numbered := by
  cases he with
  | add => exact h.append {}
  | @removeLast front last rows others =>
    have hfront : (front.map (·.id)).Sublist s.ids := by
      rw [ids, rows, List.map_append]
      exact List.sublist_append_left _ _
    exact hfront.trans h
  | clear => exact Numbered.append (s := { s with rows := [] }) (List.nil_sublist _) {}
  | edit target permitted found =>
    rw [Numbered, ids_setRule found]
    exact h

theorem Numbered.step (s : Session) (a : Action) (h : s.Numbered) : (s.step a).session.Numbered :=
  step_induction (fun _ h => h) Numbered.effect s a h

/-- Appending rows gives out the next identities. -/
theorem ids_foldl_append (rules : List Rule) (s : Session) :
    (rules.foldl append s).ids = s.ids ++ List.range' s.nextId rules.length ∧
      (rules.foldl append s).nextId = s.nextId + rules.length := by
  induction rules generalizing s with
  | nil => simp
  | cons r rules ih =>
    rw [List.foldl_cons]
    obtain ⟨hids, hnext⟩ := ih (s.append r)
    rw [hids, hnext, ids_append, nextId_append, List.append_assoc, List.length_cons,
      List.range'_succ]
    exact ⟨rfl, by omega⟩

/-- A form for given rules has the identities from 1 on. -/
theorem ids_ofRules (rules : List Rule) :
    (ofRules rules).ids = List.range' 1 (ofRules rules).rows.length ∧
      (ofRules rules).nextId = 1 + (ofRules rules).rows.length := by
  obtain ⟨hids, hnext⟩ := ids_foldl_append rules { new with rows := [] }
  have hlength : (rules.foldl append { new with rows := [] }).rows.length = rules.length := by
    simpa [ids] using congrArg List.length hids
  rw [ofRules]
  split
  · rename_i hempty
    have : rules.length = 0 := by
      rw [← hlength]
      exact List.length_eq_zero_iff.mpr (List.isEmpty_iff.mp hempty)
    obtain rfl := List.length_eq_zero_iff.mp this
    exact ⟨rfl, rfl⟩
  · rw [hlength]
    exact ⟨hids, hnext⟩

theorem issuedAt_eq (rules? : Option (List Rule)) (label : String) (allow : Bool) :
    issuedAt rules? = List.range (start rules? label allow).nextId := by
  cases rules? with
  | none => rfl
  | some rules =>
    change new.ids ++ (ofRules rules).ids = List.range (ofRules rules).nextId
    rw [(ids_ofRules rules).1, (ids_ofRules rules).2, List.range_eq_range', ← List.range'_append]
    rfl

theorem numbered_start (rules? : Option (List Rule)) (label : String) (allow : Bool) :
    (start rules? label allow).Numbered := by
  rw [Numbered, ← issuedAt_eq rules? label allow]
  cases rules? with
  | none => exact List.Sublist.refl _
  | some rules => exact List.sublist_append_right _ _

theorem numbered_after {s : Session} (h : s.Numbered) (actions : List Action) :
    (s.after actions).Numbered :=
  after_induction Numbered.step h actions

/-- A form that comes of a start by actions, its label and its permission changed on the way. -/
inductive Reachable : Session → Prop
  | start (rules? : Option (List Rule)) (label : String) (allow : Bool) :
    Reachable (start rules? label allow)
  | step {s : Session} (a : Action) : Reachable s → Reachable (s.step a).session
  | withLabel {s : Session} (label : String) : Reachable s → Reachable (s.withLabel label)
  | allowLogical {s : Session} (allow : Bool) : Reachable s → Reachable (s.allowLogical allow)

theorem Reachable.numbered {s : Session} (h : s.Reachable) : s.Numbered := by
  induction h with
  | start rules? label allow => exact numbered_start rules? label allow
  | step a _ ih => exact Numbered.step _ a ih
  | withLabel _ _ ih => exact ih
  | allowLogical _ _ ih => exact ih

/-- What an action gives out is counted. -/
theorem range_issues (s : Session) (a : Action) :
    List.range s.nextId ++ s.issues a = List.range (s.step a).session.nextId := by
  have keeps : ∀ n, n = s.nextId → List.range s.nextId ++ [] = List.range n := by
    rintro n rfl
    exact List.append_nil _
  obtain ⟨rfl, hs⟩ | ⟨t, answer, he, hs⟩ | ⟨answer, hr, hs⟩ := s.step_cases a
  · exact keeps _ (by rw [hs]; rfl)
  · rw [hs, session_announce]
    cases he with
    | add => exact List.range_succ.symm
    | removeLast => exact keeps _ rfl
    | clear => exact List.range_succ.symm
    | edit target => cases target <;> exact keeps _ rfl
  · rw [hs, session_quietly]
    cases hr with
    | onlyRow => exact keeps _ rfl
    | disabled target => cases target <;> exact keeps _ rfl
    | outOfRange target => cases target <;> exact keeps _ rfl
    | unknownRow => exact keeps _ rfl

theorem range_issuedIn (s : Session) (actions : List Action) :
    List.range s.nextId ++ s.issuedIn actions = List.range (s.after actions).nextId := by
  induction actions generalizing s with
  | nil => exact List.append_nil _
  | cons a actions ih => rw [issuedIn, ← List.append_assoc, range_issues, ih, after_cons]

/-- What an action gives out names rows of the form that it leaves. -/
theorem issues_subset (s : Session) (a : Action) : s.issues a ⊆ (s.step a).session.ids := by
  cases a with
  | add =>
    change [s.nextId] ⊆ (s.append {}).ids
    rw [ids_append]
    exact List.subset_append_right _ _
  | clear => exact List.Subset.refl _
  | _ => exact List.nil_subset _

/-! ## A row in its place -/

theorem mem_ids {s : Session} {index : Nat} {row : Row} (h : s.rows[index]? = some row) :
    row.id ∈ s.ids :=
  List.mem_map_of_mem (List.mem_of_getElem? h)

theorem findIdx?_of_not_mem {s : Session} {id : Nat} (h : id ∉ s.ids) :
    s.rows.findIdx? (·.id == id) = none := by
  rw [List.findIdx?_eq_none_iff]
  intro row hrow
  rw [beq_eq_false_iff_ne]
  rintro rfl
  exact h (List.mem_map_of_mem hrow)

/-- An identity is found where its row is, and there only. -/
theorem Numbered.findIdx?_eq_iff {s : Session} (h : s.Numbered) {index : Nat} {row : Row}
    (hrow : s.rows[index]? = some row) {id : Nat} :
    s.rows.findIdx? (·.id == id) = some index ↔ id = row.id := by
  obtain ⟨hlt, rfl⟩ := List.getElem?_eq_some_iff.mp hrow
  rw [List.findIdx?_eq_some_iff_getElem]
  constructor
  · rintro ⟨_, heq, _⟩
    exact (beq_iff_eq.mp heq).symm
  · rintro rfl
    refine ⟨hlt, beq_self_eq_true _, fun j hj heq => ?_⟩
    -- An earlier row has a smaller identity, so the search does not stop at it.
    have hpair := List.pairwise_iff_getElem.mp h.pairwise j index (by simp [ids]; omega)
      (by simpa [ids] using hlt) hj
    simp only [ids, List.getElem_map] at hpair
    exact absurd (beq_iff_eq.mp heq) (Nat.ne_of_lt hpair)

/-- An action with a target edits the row there and no other. -/
theorem Targets.edit?_eq {s : Session} {a : Action} {j : Nat} {e : Edit} (target : s.Targets a j e)
    (h : s.Numbered) {index : Nat} {row : Row} (hrow : s.rows[index]? = some row) :
    a.edit? index row.id = if j = index then some e else none := by
  cases target with
  | index => rfl
  | @row id _ _ found =>
    have hiff : id = row.id ↔ j = index := by
      rw [← h.findIdx?_eq_iff hrow, found, Option.some_inj]
    simp only [Action.edit?, hiff]

theorem rowAfter_none {s : Session} {index : Nat} {row : Row} {a : Action}
    (h : a.edit? index row.id = none) : s.rowAfter index row [a] = row := by
  simp [rowAfter, h]

theorem rowAfter_some {s : Session} {index : Nat} {row : Row} {a : Action} {e : Edit}
    (h : a.edit? index row.id = some e) :
    s.rowAfter index row [a] = if s.Permits e then ⟨row.id, e.apply row.rule⟩ else row := by
  by_cases hp : s.Permits e <;> simp [rowAfter, h, hp]

theorem rowAfter_cons (s : Session) (index : Nat) (row : Row) (a : Action)
    (actions : List Action) :
    s.rowAfter index row (a :: actions) =
      (s.step a).session.rowAfter index (s.rowAfter index row [a]) actions := by
  have hpermits : ∀ e, (s.step a).session.Permits e ↔ s.Permits e := fun e => by
    rw [Permits, Permits, ← after_nil (s.step a).session, ← after_cons, (settings_after s [a]).2]
  cases h : a.edit? index row.id with
  | none => simp [rowAfter, h, hpermits]
  | some e => by_cases hp : s.Permits e <;> simp [rowAfter, h, hpermits, hp]

/-- An action that takes effect leaves a row that it does not remove in its place, edited where the
action is an edit of it. -/
theorem Effect.row {s t : Session} {a : Action} {answer : Answer} (he : s.Effect a t answer)
    (hs : s.step a = t.announce answer) (h : s.Numbered) {index : Nat} {row : Row}
    (hrow : s.rows[index]? = some row) (hkeep : ¬ s.Removes row.id a) :
    t.rows[index]? = some (s.rowAfter index row [a]) := by
  have hlt := (List.getElem?_eq_some_iff.mp hrow).1
  cases he with
  | add =>
    rw [rowAfter_none rfl, Session.append, List.getElem?_append_left hlt]
    exact hrow
  | @removeLast front last rows others =>
    -- The row is in front of the last one, or is the last one, which the answer names.
    rw [rowAfter_none rfl]
    rw [rows, List.getElem?_append] at hrow
    split at hrow
    · exact hrow
    · refine absurd ⟨last, by rw [hs]; rfl, ?_⟩ hkeep
      rw [List.getElem?_singleton] at hrow
      split at hrow
      · exact congrArg Row.id (Option.some.inj hrow)
      · cases hrow
  | clear => exact absurd trivial hkeep
  | @edit _ j e row' target permitted found =>
    have hedit := target.edit?_eq h hrow
    by_cases hj : j = index
    · subst hj
      rw [if_pos rfl] at hedit
      obtain rfl : row' = row := Option.some.inj (found.symm.trans hrow)
      rw [rowAfter_some hedit, if_pos permitted, setRule, List.getElem?_set_self hlt]
    · rw [if_neg hj] at hedit
      rw [rowAfter_none hedit, setRule, List.getElem?_set_ne hj]
      exact hrow

/-- A refused action is no edit that the form permits of any row. -/
theorem Refuses.row {s : Session} {a : Action} {answer : Answer} (hr : s.Refuses a answer)
    (h : s.Numbered) {index : Nat} {row : Row} (hrow : s.rows[index]? = some row) :
    s.rowAfter index row [a] = row := by
  cases hr with
  | onlyRow => exact rowAfter_none rfl
  | @disabled _ j e target denied =>
    have hedit := target.edit?_eq h hrow
    split at hedit
    · rw [rowAfter_some hedit, if_neg denied]
    · exact rowAfter_none hedit
  | @outOfRange _ j e target permitted beyond =>
    have hj : j ≠ index := by
      rintro rfl
      rw [hrow] at beyond
      cases beyond
    exact rowAfter_none (by rw [target.edit?_eq h hrow, if_neg hj])
  | @unknownRow id e unknown =>
    have hid : id ≠ row.id := by
      rintro rfl
      rw [(h.findIdx?_eq_iff hrow).mpr rfl] at unknown
      cases unknown
    exact rowAfter_none (if_neg hid)

/-- A row that an action does not remove stays in its place, edited where the action is an edit of
it. -/
theorem rows_step {s : Session} (h : s.Numbered) {index : Nat} {row : Row}
    (hrow : s.rows[index]? = some row) {a : Action} (hkeep : ¬ s.Removes row.id a) :
    (s.step a).session.rows[index]? = some (s.rowAfter index row [a]) := by
  obtain ⟨rfl, hs⟩ | ⟨t, answer, he, hs⟩ | ⟨answer, hr, hs⟩ := s.step_cases a
  · rw [hs, rowAfter_none rfl]
    exact hrow
  · rw [hs]
    exact he.row hs h hrow hkeep
  · rw [hs, hr.row h hrow]
    exact hrow

/-- A row that a run does not remove stays in its place. -/
theorem rows_after {s : Session} (h : s.Numbered) {index : Nat} {row : Row}
    (hrow : s.rows[index]? = some row) {actions : List Action} (hkeep : s.Keeps row.id actions) :
    (s.after actions).rows[index]? = some (s.rowAfter index row actions) := by
  induction actions generalizing s row with
  | nil => exact hrow
  | cons a actions ih =>
    rw [after_cons, rowAfter_cons]
    exact ih (h.step s a) (rows_step h hrow hkeep.1) hkeep.2

/-- An edit of one row leaves every other row alone. -/
theorem rows_edit_of_ne (s : Session) {index j : Nat} (hj : j ≠ index) (e : Edit) :
    (s.step (.edit index e)).session.rows[j]? = s.rows[j]? := by
  obtain ⟨t, answer, he, hs⟩ | ⟨answer, -, hs⟩ :=
    Targets.step_cases (s := s) (a := .edit index e) .index
  · rw [hs]
    cases he with
    | edit target => cases target; exact List.getElem?_set_ne hj.symm
  · rw [hs]
    rfl

/-! ## A row that is gone -/

/-- An identity was given out and names no row. -/
def Gone (id : Nat) (s : Session) : Prop :=
  id < s.nextId ∧ id ∉ s.ids

theorem Gone.effect {id : Nat} {s t : Session} {a : Action} {answer : Answer}
    (he : s.Effect a t answer) (h : Gone id s) : Gone id t := by
  obtain ⟨hlt, hmem⟩ := h
  cases he with
  | add =>
    refine ⟨Nat.lt_succ_of_lt hlt, ?_⟩
    rw [ids_append, List.mem_append, List.mem_singleton]
    exact not_or_intro hmem (Nat.ne_of_lt hlt)
  | @removeLast front last rows others =>
    refine ⟨hlt, fun hfront => hmem ?_⟩
    rw [ids, rows, List.map_append]
    exact List.mem_append_left _ hfront
  | clear =>
    refine ⟨Nat.lt_succ_of_lt hlt, ?_⟩
    rw [ids_append]
    exact fun hnew => Nat.ne_of_lt hlt (List.mem_singleton.mp hnew)
  | edit target permitted found =>
    rw [Gone, ids_setRule found]
    exact ⟨hlt, hmem⟩

theorem Gone.after {id : Nat} {s : Session} (h : Gone id s) (actions : List Action) :
    Gone id (s.after actions) :=
  after_induction (step_induction (fun _ h => h) Gone.effect) h actions

/-- The row that an action removes is gone. -/
theorem Removes.gone {s : Session} {id : Nat} {a : Action} (hremove : s.Removes id a)
    (h : s.Numbered) (hid : id ∈ s.ids) : Gone id (s.step a).session := by
  have hlt := h.lt hid
  cases a with
  | removeLast =>
    obtain ⟨row, hanswer, rfl⟩ := hremove
    obtain ⟨t, answer, he, hs⟩ | ⟨answer, hr, hs⟩ := s.removeLast_cases
    · cases he with
      | @removeLast front last rows others =>
        rw [hs] at hanswer ⊢
        obtain rfl : last = row := by simpa using hanswer
        -- The rows in front do not have the identity of the last one.
        refine ⟨hlt, fun hfront => ?_⟩
        have hnodup : s.ids.Nodup := h.pairwise.imp Nat.ne_of_lt
        rw [ids, rows, List.map_append] at hnodup
        exact List.disjoint_of_nodup_append hnodup hfront List.mem_cons_self
      | edit target => cases target
    · rw [hs] at hanswer
      cases hr with
      | onlyRow => cases hanswer
      | disabled target => cases target
      | outOfRange target => cases target
  | clear =>
    refine ⟨Nat.lt_succ_of_lt hlt, fun hnew => ?_⟩
    exact Nat.ne_of_lt hlt (List.mem_singleton.mp hnew)
  | _ => exact hremove.elim

/-- A row that some action of a run removes is gone at its end. -/
theorem gone_of_not_keeps {s : Session} (h : s.Numbered) {id : Nat} (hid : id ∈ s.ids)
    {actions : List Action} (hkeep : ¬ s.Keeps id actions) : Gone id (s.after actions) := by
  induction actions generalizing s with
  | nil => exact absurd trivial hkeep
  | cons a actions ih =>
    by_cases hremove : s.Removes id a
    · exact (hremove.gone h hid).after actions
    · obtain ⟨row, hmem, rfl⟩ := List.mem_map.mp hid
      obtain ⟨index, hrow⟩ := List.getElem?_of_mem hmem
      have hstill := mem_ids (rows_step h hrow hremove)
      exact ih (h.step s a) hstill fun hkeeps => hkeep ⟨hremove, hkeeps⟩

theorem Gone.editRow {id : Nat} {s : Session} (h : Gone id s) (e : Edit) :
    s.step (.editRow id e) = s.quietly (.refused (.unknownRow id)) :=
  editRow_of_unknown (findIdx?_of_not_mem h.2)

/-- **Identities are kept.** At any point of any run the identities of the rows increase and are
below the next one; those given out so far are 0, 1, 2 and so on, none twice, and one that an action
gives out names a row at once. As long as a row is not removed it stays at its index under its
identity, as the edits addressed to it left it; an edit through the identity is the edit at the
index, in all its outcome, and leaves every other row alone. An identity whose row is removed, or
that names none, is unknown to every later edit, permitted or not. -/
theorem identities_kept (rules? : Option (List Rule)) (label : String) (allow : Bool)
    (actions : List Action) :
    let s := (start rules? label allow).after actions
    let issued := issuedAt rules? ++ (start rules? label allow).issuedIn actions
    (s.ids.Pairwise (· < ·) ∧ ∀ id ∈ s.ids, id < s.nextId) ∧
    (issued = List.range s.nextId ∧ issued.Nodup ∧ s.ids.Sublist issued) ∧
    (∀ a, s.issues a ⊆ (s.step a).session.ids) ∧
    (∀ index row, s.rows[index]? = some row → ∀ more, s.Keeps row.id more →
      let t := s.after more
      t.rows[index]? = some (s.rowAfter index row more) ∧
      ∀ e, t.step (.editRow row.id e) = t.step (.edit index e) ∧
        ∀ j, j ≠ index → (t.step (.editRow row.id e)).session.rows[j]? = t.rows[j]?) ∧
    ∀ id ∈ issued, ∀ more, id ∉ s.ids ∨ ¬ s.Keeps id more →
      ∀ e, (s.after more).step (.editRow id e) =
        (s.after more).quietly (.refused (.unknownRow id)) := by
  intro s issued
  have hs : s.Numbered := numbered_after (numbered_start rules? label allow) actions
  have hissued : issued = List.range s.nextId := by
    change issuedAt rules? ++ _ = _
    rw [issuedAt_eq rules? label allow, range_issuedIn]
  refine ⟨⟨hs.pairwise, fun id => hs.lt⟩, ⟨hissued, ?_, ?_⟩, s.issues_subset, ?_, ?_⟩
  · rw [hissued]
    exact List.nodup_range
  · rw [hissued]
    exact hs
  · intro index row hrow more hkeep t
    have ht : t.rows[index]? = some (s.rowAfter index row more) := rows_after hs hrow hkeep
    have hfound : t.rows.findIdx? (·.id == row.id) = some index :=
      ((numbered_after hs more).findIdx?_eq_iff ht).mpr rfl
    refine ⟨ht, fun e => ?_⟩
    have hsame : t.step (.editRow row.id e) = t.step (.edit index e) := editRow_of_found hfound
    rw [hsame]
    exact ⟨rfl, fun j hj => t.rows_edit_of_ne hj e⟩
  · intro id hid more hgone e
    have hlt : id < s.nextId := List.mem_range.mp (hissued ▸ hid)
    refine Gone.editRow ?_ e
    by_cases hmem : id ∈ s.ids
    · exact gone_of_not_keeps hs hmem (hgone.resolve_left (not_not_intro hmem))
    · exact Gone.after ⟨hlt, hmem⟩ more

/-- A second row is edited through its identity 1, is removed, and is unknown although a third row
has taken its place. -/
theorem identities_kept_second :
    ((start none "Data" false).after [.add, .edit 0 (.name "a"), .editRow 1 (.name "b")]).rows[1]? =
      some ⟨1, { name := "b" }⟩ ∧
    ((start none "Data" false).after [.add, .removeLast, .add]).step
        (.editRow 1 (.comparison .gt)) =
      ((start none "Data" false).after [.add, .removeLast, .add]).quietly
        (.refused (.unknownRow 1)) :=
  have h := identities_kept none "Data" false [.add]
  ⟨(h.2.2.2.1 1 ⟨1, {}⟩ rfl [.edit 0 (.name "a"), .editRow 1 (.name "b")] ⟨id, id, trivial⟩).1,
    h.2.2.2.2 1 (by decide) [.removeLast, .add]
      (.inr fun keeps => keeps.1 ⟨⟨1, {}⟩, rfl, rfl⟩) (.comparison .gt)⟩

end Session

end QueryForm
