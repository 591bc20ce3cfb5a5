/-
Edits as they are stored, and what of rules and edits outlasts being stored.

How the setting of an edit is read depends on its control, which may come
later in the text. The reading is free of the order all the same, but for
one way to write a choice: an object with the token over an empty object is
read as the token where it comes before the control, and refused after it
(`ReadsEdit`).
-/
import QueryForm.Edit.Stored
import QueryForm.Proofs.Rule.Stored

namespace QueryForm

open Quoted (Piece)
open Record

theorem Control.token_injective : ∀ a b : Control, a.token = b.token → a = b := by
  intro a b
  cases a <;> cases b <;> decide

theorem Control.mem_all (c : Control) : c ∈ Control.all := by
  cases c <;> decide

namespace Edit

/-- A tree is the setting of an edit. -/
def Sets : Edit → Tree → Prop
  | type t, tree => Names tree t.token
  | name s, tree => Says tree s
  | value s, tree => Says tree s
  | comparison c, tree => Names tree c.token
  | connective c, tree => Names tree c.token
  | secondValue s, tree => Says tree s
  | secondComparison c, tree => Names tree c.token

/-- A tree has the token of a choice over an empty object, and is the setting of an edit with `null`
in its place. -/
def SetsOpen (e : Edit) (tree : Tree) : Prop :=
  ∃ pieces, tree = .object [(pieces, .object [])] ∧ e.Sets (.object [(pieces, .null)])

/-- The setting comes before the control. -/
def SettingFirst (members : List (List Piece × Tree)) : Prop :=
  ∃ front m rest, members = front ++ m :: rest ∧ Tree.string? m.1 = some "value" ∧
    named "field" front = []

/-- Members give an edit its control and its setting, each once. -/
inductive StoredBy (members : List (List Piece × Tree)) (e : Edit) : Prop
  | mk {control setting} : named "field" members = [control] → Names control e.control.token →
      named "value" members = [setting] →
      e.Sets setting ∨ SettingFirst members ∧ e.SetsOpen setting → StoredBy members e

/-- Items are the control of an edit, as a string, and its setting. -/
inductive ListedBy : List Tree → Edit → Prop
  | mk {control setting e} : Says control e.control.token → e.Sets setting →
      ListedBy [control, setting] e

/-- A tree stores an edit: an object by the names of its two fields, or an array by their places. -/
def Stored : Tree → Edit → Prop :=
  Stores StoredBy ListedBy

/-! ## Settings -/

theorem control?_eq_some_iff {tree : Tree} {c : Control} :
    control? tree = some c ↔ Names tree c.token :=
  choice?_eq_some_iff Control.mem_all Control.token_injective

theorem plainControl?_eq_some_iff {tree : Tree} {c : Control} :
    plainControl? tree = some c ↔ Says tree c.token := by
  simp only [plainControl?, Option.bind_eq_bind, Option.bind_eq_some_iff, string?_eq_some_iff,
    find?_token_eq_some_iff Control.mem_all Control.token_injective, exists_eq_right']

theorem ofSetting?_eq_some_iff {control : Control} {tree : Tree} {e : Edit} :
    ofSetting? control tree = some e ↔ e.control = control ∧ e.Sets tree := by
  cases control <;> cases e <;>
    simp [ofSetting?, Edit.control, Sets, ValueType.ofTree?_eq_some_iff, string?_eq_some_iff,
      Comparison.ofTree?_eq_some_iff, Connective.ofTree?_eq_some_iff]

/-- No edit is set by an object over an empty object. -/
theorem not_sets_open (e : Edit) (pieces : List Piece) :
    ¬ e.Sets (.object [(pieces, .object [])]) := by
  cases e <;> (intro h; cases h)

theorem sets_settle {e : Edit} {tree : Tree} :
    e.Sets (settle tree) ↔ e.Sets tree ∨ e.SetsOpen tree := by
  unfold settle
  split
  · next pieces =>
    constructor
    · exact fun h => .inr ⟨pieces, rfl, h⟩
    · rintro (h | ⟨other, hother, h⟩)
      · exact absurd h (e.not_sets_open pieces)
      · cases hother
        exact h
  · next hclosed =>
    refine (or_iff_left ?_).symm
    rintro ⟨pieces, rfl, -⟩
    exact hclosed pieces rfl

/-! ## Which comes first -/

theorem settingFirst_value {pieces : List Piece} (h : Tree.string? pieces = some "value")
    (tree : Tree) (members : List (List Piece × Tree)) :
    SettingFirst ((pieces, tree) :: members) :=
  ⟨[], _, members, rfl, h, rfl⟩

theorem not_settingFirst_field {pieces : List Piece} (h : Tree.string? pieces = some "field")
    (tree : Tree) (members : List (List Piece × Tree)) :
    ¬ SettingFirst ((pieces, tree) :: members) := by
  rintro ⟨front, m, rest, hmembers, hm, hfront⟩
  cases front with
  | nil =>
    obtain ⟨rfl, rfl⟩ := List.cons.inj hmembers
    rw [h] at hm
    simp at hm
  | cons x front =>
    obtain ⟨rfl, rfl⟩ := List.cons.inj hmembers
    rw [named_cons_self h] at hfront
    cases hfront

theorem settingFirst_cons {pieces : List Piece} (hfield : Tree.string? pieces ≠ some "field")
    (hvalue : Tree.string? pieces ≠ some "value") (tree : Tree)
    (members : List (List Piece × Tree)) :
    SettingFirst ((pieces, tree) :: members) ↔ SettingFirst members := by
  constructor
  · rintro ⟨front, m, rest, hmembers, hm, hfront⟩
    cases front with
    | nil =>
      obtain ⟨rfl, rfl⟩ := List.cons.inj hmembers
      exact absurd hm hvalue
    | cons x front =>
      obtain ⟨rfl, rfl⟩ := List.cons.inj hmembers
      rw [named_cons_of_ne hfield] at hfront
      exact ⟨front, m, rest, rfl, hm, hfront⟩
  · rintro ⟨front, m, rest, rfl, hm, hfront⟩
    exact ⟨(pieces, tree) :: front, m, rest, rfl, hm, by rw [named_cons_of_ne hfield, hfront]⟩

theorem settingFirst_iff {members : List (List Piece × Tree)} {pairs : List (String × Tree)}
    (h : keyed? members = some pairs) : settingFirst pairs = true ↔ SettingFirst members := by
  induction members generalizing pairs with
  | nil =>
    cases h
    refine iff_of_false (by simp [settingFirst]) ?_
    rintro ⟨front, m, rest, hmembers, -⟩
    simp at hmembers
  | cons m members ih =>
    obtain ⟨pieces, tree⟩ := m
    simp only [keyed?, Option.bind_eq_bind, Option.bind_eq_some_iff, Option.pure_def,
      Option.some.injEq] at h
    obtain ⟨key, hkey, rest, hrest, rfl⟩ := h
    by_cases hvalue : key = "value"
    · subst hvalue
      exact iff_of_true (by simp [settingFirst]) (settingFirst_value hkey tree members)
    by_cases hfield : key = "field"
    · subst hfield
      exact iff_of_false (by simp [settingFirst]) (not_settingFirst_field hkey tree members)
    · rw [settingFirst_cons (by simpa [hkey] using hfield) (by simpa [hkey] using hvalue),
        ← ih hrest]
      simp [settingFirst, hfield, hvalue]

theorem sets_settled {members : List (List Piece × Tree)} {pairs : List (String × Tree)}
    (h : keyed? members = some pairs) {e : Edit} {setting : Tree} :
    e.Sets (if settingFirst pairs then settle setting else setting) ↔
      e.Sets setting ∨ SettingFirst members ∧ e.SetsOpen setting := by
  rw [← settingFirst_iff h]
  cases settingFirst pairs with
  | true => simp [sets_settle]
  | false => simp

/-- **Stored edits.** An edit is read from the members that give it its control and its setting,
with any others as long as their keys can be read. -/
theorem ofTree?_object {members : List (List Piece × Tree)} {e : Edit} :
    ofTree? (.object members) = some e ↔ KeysRead members ∧ e.StoredBy members := by
  simp only [ofTree?, Option.bind_eq_bind, Option.bind_eq_some_iff]
  constructor
  · rintro ⟨pairs, hpairs, found, hfound, kept, hkept, control, ⟨tree, rfl, hcontrol⟩, setting, rfl,
      hset⟩
    obtain ⟨rfl, hsets⟩ := ofSetting?_eq_some_iff.1 hset
    exact ⟨keyed?_isSome.1 ⟨pairs, hpairs⟩, (field?_eq_some_iff hpairs).1 hfound,
      control?_eq_some_iff.1 hcontrol, (field?_eq_some_iff hpairs).1 hkept,
      (sets_settled hpairs).1 hsets⟩
  · rintro ⟨hkeys, hfield, hcontrol, hvalue, hsets⟩
    obtain ⟨pairs, hpairs⟩ := keyed?_isSome.2 hkeys
    exact ⟨pairs, hpairs, some _, (field?_eq_some_iff hpairs).2 hfield, some _,
      (field?_eq_some_iff hpairs).2 hvalue, e.control, ⟨_, rfl, control?_eq_some_iff.2 hcontrol⟩, _,
      rfl, ofSetting?_eq_some_iff.2 ⟨rfl, (sets_settled hpairs).2 hsets⟩⟩

theorem ofTree?_array {items : List Tree} {e : Edit} :
    ofTree? (.array items) = some e ↔ ListedBy items e := by
  constructor
  · intro h
    match items with
    | [control, setting] =>
      simp only [ofTree?, Option.bind_eq_bind, Option.bind_eq_some_iff] at h
      obtain ⟨c, hcontrol, hset⟩ := h
      obtain ⟨rfl, hsets⟩ := ofSetting?_eq_some_iff.1 hset
      exact .mk (plainControl?_eq_some_iff.1 hcontrol) hsets
    | [] | [_] | _ :: _ :: _ :: _ => cases h
  · intro h
    cases h with
    | mk hcontrol hsets =>
      simp only [ofTree?, Option.bind_eq_bind, Option.bind_eq_some_iff]
      exact ⟨e.control, plainControl?_eq_some_iff.2 hcontrol,
        ofSetting?_eq_some_iff.2 ⟨rfl, hsets⟩⟩

theorem ofTree?_iff_stored {tree : Tree} {e : Edit} : ofTree? tree = some e ↔ Stored tree e :=
  stores_iff ofTree?_object ofTree?_array rfl (fun _ => rfl) (fun _ => rfl) fun _ => rfl

end Edit

end QueryForm
