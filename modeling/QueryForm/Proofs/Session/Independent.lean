/-
Edits of different rows are independent.

Whether an edit is let through, and which row it edits, depends on things
that no edit changes: the permission, the identities of the rows and how many
there are (`Frame`). And a row comes to what the edits addressed to it make
of it, one after the other (`rows_after`). So edits may be rearranged as long
as those of one row stay in order: the form is the same in the end, and each
edit is answered alike (`edits_independent`).
-/
import Mathlib.Data.List.Sort
import QueryForm.Proofs.Session.Identity

namespace QueryForm

/-! ## Rearranged lists -/

/-- The second list has the items of the first in other places; related items stay in order. -/
structure Rearranged {α : Type} (R : α → α → Prop) (xs ys : List α)
    (place : Fin xs.length ≃ Fin ys.length) : Prop where
  same : ∀ i, ys.get (place i) = xs.get i
  ordered : ∀ i j, i < j → R (xs.get i) (xs.get j) → place i < place j

section

variable {α β : Type}

/-- The places of the items that a function takes, in order. -/
def placesOf (f : α → Option β) (xs : List α) : List (Fin xs.length) :=
  (List.finRange xs.length).filter fun i => (f (xs.get i)).isSome

theorem mem_placesOf {f : α → Option β} {xs : List α} {i : Fin xs.length} :
    i ∈ placesOf f xs ↔ (f (xs.get i)).isSome = true := by
  rw [placesOf, List.mem_filter, and_iff_right (List.mem_finRange i)]

theorem pairwise_placesOf (f : α → Option β) (xs : List α) : (placesOf f xs).Pairwise (· < ·) :=
  (List.sortedLT_finRange _).pairwise.filter _

theorem filterMap_placesOf (f : α → Option β) (xs : List α) :
    (placesOf f xs).filterMap (fun i => f (xs.get i)) = xs.filterMap f := by
  have htaken : ∀ i : Fin xs.length,
      (if (f (xs.get i)).isSome = true then f (xs.get i) else none) = f (xs.get i) := by
    intro i
    cases f (xs.get i) <;> rfl
  rw [placesOf, List.filterMap_filter]
  simp only [htaken]
  conv_rhs => rw [← List.map_get_finRange xs, List.filterMap_map]
  rfl

variable {R : α → α → Prop} {xs ys : List α} {place : Fin xs.length ≃ Fin ys.length}

theorem Rearranged.get_eq (h : Rearranged R xs ys place) (j : Fin ys.length) :
    ys.get j = xs.get (place.symm j) := by
  rw [← h.same, Equiv.apply_symm_apply]

/-- What a function takes of a list is the same after the items were rearranged, if any two items
that it takes are related. -/
theorem Rearranged.filterMap_eq (h : Rearranged R xs ys place) {f : α → Option β}
    (related : ∀ a b, (f a).isSome = true → (f b).isSome = true → R a b) :
    xs.filterMap f = ys.filterMap f := by
  -- The places that count in the second list are those of the first, moved; both are in order.
  have hmoved : ((placesOf f xs).map place).Pairwise (· < ·) := by
    refine List.pairwise_map.2 ((pairwise_placesOf f xs).imp_of_mem fun hi hj hlt => ?_)
    exact h.ordered _ _ hlt (related _ _ (mem_placesOf.1 hi) (mem_placesOf.1 hj))
  have hplaces : (placesOf f xs).map place = placesOf f ys := by
    refine hmoved.eq_of_mem_iff (pairwise_placesOf f ys) fun j => ?_
    rw [List.mem_map, mem_placesOf, h.get_eq]
    constructor
    · rintro ⟨i, hi, rfl⟩
      rw [Equiv.symm_apply_apply]
      exact mem_placesOf.1 hi
    · intro hj
      exact ⟨place.symm j, mem_placesOf.2 hj, Equiv.apply_symm_apply place j⟩
  rw [← filterMap_placesOf f ys, ← hplaces, List.filterMap_map, ← filterMap_placesOf f xs]
  refine List.filterMap_congr fun i _ => ?_
  rw [Function.comp_apply, h.same]

end

/-! ## Edits -/

/-- An action edits a row, addressed by its index or its identity. -/
inductive Action.IsEdit : Action → Prop
  | edit {index : Nat} {e : Edit} : IsEdit (.edit index e)
  | editRow {id : Nat} {e : Edit} : IsEdit (.editRow id e)

/-- Two edits take effect, or are refused for the same reason. -/
inductive Answer.Agrees : Answer → Answer → Prop
  | edited {q q' : Query} : Agrees (.edited q) (.edited q')
  | refused {reason : Refusal} : Agrees (.refused reason) (.refused reason)

namespace Session

/-- Two actions edit the same row of a form. -/
def SameRow (s : Session) (a b : Action) : Prop :=
  ∃ index row, s.rows[index]? = some row ∧
    (a.edit? index row.id).isSome = true ∧ (b.edit? index row.id).isSome = true

/-- Two forms differ in the rules of their rows only. -/
def Frame (s t : Session) : Prop :=
  t = { s with rows := t.rows } ∧ t.ids = s.ids

theorem Frame.refl (s : Session) : s.Frame s :=
  ⟨rfl, rfl⟩

theorem Frame.trans {s t u : Session} (h : s.Frame t) (h' : t.Frame u) : s.Frame u := by
  refine ⟨?_, h'.2.trans h.2⟩
  rw [h'.1, h.1]

theorem Frame.symm {s t : Session} (h : s.Frame t) : t.Frame s := by
  refine ⟨?_, h.2.symm⟩
  rw [h.1]

/-- An edit changes no more than the rule of a row. -/
theorem frame_step (s : Session) {a : Action} (ha : a.IsEdit) : s.Frame (s.step a).session := by
  obtain ⟨rfl, -⟩ | ⟨t, answer, he, hs⟩ | ⟨answer, -, hs⟩ := s.step_cases a
  · cases ha
  · rw [hs]
    cases he with
    | add | removeLast | clear => cases ha
    | edit target permitted found => exact ⟨rfl, ids_setRule found _⟩
  · rw [hs]
    exact Frame.refl s

theorem frame_after (s : Session) {actions : List Action} (h : ∀ a ∈ actions, a.IsEdit) :
    s.Frame (s.after actions) := by
  induction actions generalizing s with
  | nil => exact Frame.refl s
  | cons a actions ih =>
    obtain ⟨ha, hrest⟩ := List.forall_mem_cons.1 h
    exact (s.frame_step ha).trans (ih _ hrest)

theorem Frame.label_eq {s t : Session} (h : s.Frame t) : t.label = s.label := by
  rw [h.1]

theorem Frame.permits_iff {s t : Session} (h : s.Frame t) (e : Edit) :
    t.Permits e ↔ s.Permits e := by
  rw [h.1]
  rfl

theorem Frame.length_eq {s t : Session} (h : s.Frame t) : t.rows.length = s.rows.length := by
  simpa [ids] using congrArg List.length h.2

theorem Frame.getElem?_eq_none_iff {s t : Session} (h : s.Frame t) (index : Nat) :
    t.rows[index]? = none ↔ s.rows[index]? = none := by
  rw [List.getElem?_eq_none_iff, List.getElem?_eq_none_iff, h.length_eq]

theorem Frame.findIdx?_eq {s t : Session} (h : s.Frame t) (id : Nat) :
    t.rows.findIdx? (·.id == id) = s.rows.findIdx? (·.id == id) := by
  have hids : ∀ u : Session, u.rows.findIdx? (·.id == id) = u.ids.findIdx? (· == id) := by
    intro u
    rw [ids, List.findIdx?_map]
    rfl
  rw [hids, hids, h.2]

theorem Frame.edit_agrees {s t : Session} (h : s.Frame t) (index : Nat) (e : Edit) :
    (s.edit index e).answer.Agrees (t.edit index e).answer := by
  by_cases hp : s.Permits e
  · rw [edit_of_permitted hp, edit_of_permitted ((h.permits_iff e).2 hp)]
    cases hs : s.rows[index]? with
    | none =>
      rw [(h.getElem?_eq_none_iff index).2 hs, h.length_eq]
      exact .refused
    | some row =>
      cases ht : t.rows[index]? with
      | none =>
        rw [(h.getElem?_eq_none_iff index).1 ht] at hs
        cases hs
      | some row' => exact .edited
  · rw [edit_of_denied hp, edit_of_denied (mt (h.permits_iff e).1 hp), h.label_eq]
    exact .refused

/-- Forms that differ in rules only answer an edit alike. -/
theorem Frame.agrees {s t : Session} (h : s.Frame t) {a : Action} (ha : a.IsEdit) :
    (s.step a).answer.Agrees (t.step a).answer := by
  cases ha with
  | edit => exact h.edit_agrees _ _
  | @editRow id e =>
    cases hs : s.rows.findIdx? (·.id == id) with
    | none =>
      have ht : t.rows.findIdx? (·.id == id) = none := by rw [h.findIdx?_eq, hs]
      simp only [step, editRow_of_unknown hs, editRow_of_unknown ht]
      exact .refused
    | some index =>
      have ht : t.rows.findIdx? (·.id == id) = some index := by rw [h.findIdx?_eq, hs]
      simp only [step, editRow_of_found hs, editRow_of_found ht]
      exact h.edit_agrees index e

/-! ## Runs of edits -/

theorem keeps_of_edits (s : Session) (id : Nat) {actions : List Action}
    (h : ∀ a ∈ actions, a.IsEdit) : s.Keeps id actions := by
  induction actions generalizing s with
  | nil => trivial
  | cons a actions ih =>
    obtain ⟨ha, hrest⟩ := List.forall_mem_cons.1 h
    refine ⟨fun hremove => ?_, ih _ hrest⟩
    cases ha <;> exact hremove

/-- Edits leave the same form if those of each row are the same, in the same order. -/
theorem after_eq_of_edits {s : Session} (h : s.Numbered) {xs ys : List Action}
    (hxs : ∀ a ∈ xs, a.IsEdit) (hys : ∀ a ∈ ys, a.IsEdit)
    (hedits : ∀ index row, s.rows[index]? = some row →
      xs.filterMap (Action.edit? index row.id) = ys.filterMap (Action.edit? index row.id)) :
    s.after xs = s.after ys := by
  have hx := s.frame_after hxs
  have hy := s.frame_after hys
  have hrows : (s.after xs).rows = (s.after ys).rows := by
    refine List.ext_getElem? fun index => ?_
    cases hrow : s.rows[index]? with
    | none => rw [(hx.getElem?_eq_none_iff index).2 hrow, (hy.getElem?_eq_none_iff index).2 hrow]
    | some row =>
      rw [rows_after h hrow (s.keeps_of_edits row.id hxs),
        rows_after h hrow (s.keeps_of_edits row.id hys), rowAfter, rowAfter, hedits index row hrow]
  rw [hx.1, hy.1, hrows]

/-- **Edits of different rows are independent.** In any state of a form, edits, each addressed by an
index or an identity that may name no row, may be rearranged as long as those of one row stay in
order. The form is the same after them, with its rows and their identities, the next identity and
so its query, and each edit takes effect in both orders, or is refused for the same reason. -/
theorem edits_independent {s : Session} (hs : s.Reachable) {xs ys : List Action}
    (hxs : ∀ a ∈ xs, a.IsEdit) {place : Fin xs.length ≃ Fin ys.length}
    (h : Rearranged s.SameRow xs ys place) :
    s.after xs = s.after ys ∧ (s.after xs).query = (s.after ys).query ∧
      ∀ i : Fin xs.length, ((s.after (xs.take i)).step (xs.get i)).answer.Agrees
        ((s.after (ys.take (place i))).step (ys.get (place i))).answer := by
  have hys : ∀ a ∈ ys, a.IsEdit := by
    intro a ha
    obtain ⟨j, rfl⟩ := List.mem_iff_get.1 ha
    rw [h.get_eq]
    exact hxs _ (List.get_mem _ _)
  have hsame : s.after xs = s.after ys :=
    after_eq_of_edits hs.numbered hxs hys fun index row hrow =>
      h.filterMap_eq fun a b ha hb => ⟨index, row, hrow, ha, hb⟩
  refine ⟨hsame, by rw [hsame], fun i => ?_⟩
  -- The forms that the edit meets in the two orders are both the first one but for rules.
  rw [h.same]
  have hx : s.Frame (s.after (xs.take i)) :=
    s.frame_after fun a ha => hxs a (List.mem_of_mem_take ha)
  have hy : s.Frame (s.after (ys.take (place i))) :=
    s.frame_after fun a ha => hys a (List.mem_of_mem_take ha)
  exact (hx.symm.trans hy).agrees (hxs _ (List.get_mem _ _))

/-- The edits of the second row, by its index and by its identity, stay in order while those of the
first row and of no row change places. -/
theorem edits_independent_swapped :
    let s := (start none "Data" true).after [.add]
    let xs : List Action :=
      [.edit 0 (.name "a"), .editRow 1 (.name "b"), .edit 1 (.name "c"), .editRow 7 (.name "d")]
    let ys : List Action :=
      [.editRow 7 (.name "d"), .editRow 1 (.name "b"), .edit 1 (.name "c"), .edit 0 (.name "a")]
    let place : Fin xs.length ≃ Fin ys.length := Equiv.swap (0 : Fin 4) 3
    s.Reachable ∧ (∀ a ∈ xs, a.IsEdit) ∧ Rearranged s.SameRow xs ys place ∧
      s.after xs = s.after ys ∧ (s.after xs).query = (s.after ys).query ∧
      ∀ i : Fin xs.length, ((s.after (xs.take i)).step (xs.get i)).answer.Agrees
        ((s.after (ys.take (place i))).step (ys.get (place i))).answer := by
  intro s xs ys place
  have hs : s.Reachable := .step .add (.start none "Data" true)
  have hxs : ∀ a ∈ xs, a.IsEdit := by
    intro a ha
    simp only [xs, List.mem_cons, List.not_mem_nil, or_false] at ha
    obtain rfl | rfl | rfl | rfl := ha <;> constructor
  -- Neither row has two edits that change their order.
  have hrows : ∀ index < 2, ∀ i j : Fin 4, i < j →
      ((xs.get i).edit? index index).isSome = true → ((xs.get j).edit? index index).isSome = true →
      Equiv.swap (0 : Fin 4) 3 i < Equiv.swap (0 : Fin 4) 3 j := by
    decide
  have h : Rearranged s.SameRow xs ys place := by
    refine ⟨fun i => ?_, fun i j hlt hrow => ?_⟩
    · match i with
      | ⟨0, _⟩ | ⟨1, _⟩ | ⟨2, _⟩ | ⟨3, _⟩ => rfl
    · obtain ⟨index, row, hrow, hi, hj⟩ := hrow
      match index, hrow with
      | 0, hrow => cases hrow; exact hrows 0 (by decide) i j hlt hi hj
      | 1, hrow => cases hrow; exact hrows 1 (by decide) i j hlt hi hj
      | index + 2, hrow => cases hrow
  exact ⟨hs, hxs, h, edits_independent hs hxs h⟩

end Session

end QueryForm
