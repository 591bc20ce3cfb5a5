/-
What a record is read from, whichever way its members are written.

The reading of an object depends on what it holds for each of its fields
(`Field.At`) and on nothing else. A reader of which that can be said
(`ReadsFields.of_iff`) is free of the order of members, of members that are
no fields and of members that hold a default, and it refuses what is no
value of a field and what is given twice. In an array a field has its place
(`Field.From`), and no other tree is a record (`stores_iff`).
-/
import Mathlib.Data.List.Forall2
import Mathlib.Data.List.Nodup
import QueryForm.Json.Record
import QueryForm.Proofs.Json.Nesting
import QueryForm.Proofs.Json.RoundTrip

namespace QueryForm.Record

open Quoted (Piece)

/-! ## Strings and choices -/

/-- A tree says a string. -/
inductive Says : Tree → String → Prop
  | mk {pieces s} : Tree.string? pieces = some s → Says (.string pieces) s

/-- A tree names a choice: by its token, or as an object whose one key is the token. -/
inductive Names : Tree → String → Prop
  | token {pieces s} : Tree.string? pieces = some s → Names (.string pieces) s
  | key {pieces s} : Tree.string? pieces = some s → Names (.object [(pieces, .null)]) s

theorem Says.unique {tree : Tree} {s t : String} (h : Says tree s) (h' : Says tree t) : s = t := by
  cases h with
  | mk h =>
    cases h' with
    | mk h' => exact Option.some.inj (h.symm.trans h')

theorem Names.unique {tree : Tree} {s t : String} (h : Names tree s) (h' : Names tree t) :
    s = t := by
  cases h with
  | token h =>
    cases h' with
    | token h' => exact Option.some.inj (h.symm.trans h')
  | key h =>
    cases h' with
    | key h' => exact Option.some.inj (h.symm.trans h')

theorem string?_eq_some_iff {tree : Tree} {s : String} : string? tree = some s ↔ Says tree s := by
  constructor
  · intro h
    cases tree with
    | string pieces => exact .mk h
    | _ => cases h
  · intro h
    cases h with
    | mk h => exact h

theorem token?_eq_some_iff {tree : Tree} {s : String} : token? tree = some s ↔ Names tree s := by
  constructor
  · intro h
    unfold token? at h
    split at h
    · exact .token h
    · exact .key h
    · cases h
  · intro h
    cases h with
    | token h => exact h
    | key h => exact h

/-- A choice is found by its token. -/
theorem find?_token_eq_some_iff {α : Type} {token : α → String} {choices : List α}
    (hall : ∀ a, a ∈ choices) (hinj : ∀ a b, token a = token b → a = b) {t : String} {a : α} :
    (choices.find? fun b => token b == t) = some a ↔ token a = t := by
  constructor
  · intro hfound
    exact eq_of_beq (List.find?_some (p := fun b => token b == t) hfound)
  · rintro rfl
    cases hfound : choices.find? fun b => token b == token a with
    | none =>
      have := List.find?_eq_none.1 hfound a (hall a)
      simp at this
    | some b =>
      have hsame := List.find?_some (p := fun b => token b == token a) hfound
      rw [hinj b a (eq_of_beq hsame)]

/-- A choice is read where it is named. -/
theorem choice?_eq_some_iff {α : Type} {token : α → String} {choices : List α}
    (hall : ∀ a, a ∈ choices) (hinj : ∀ a b, token a = token b → a = b) {tree : Tree} {a : α} :
    choice? token choices tree = some a ↔ Names tree (token a) := by
  simp only [choice?, Option.bind_eq_bind, Option.bind_eq_some_iff, token?_eq_some_iff,
    find?_token_eq_some_iff hall hinj, exists_eq_right']

/-! ## Members -/

/-- The keys of all members can be read. -/
def KeysRead (members : List (List Piece × Tree)) : Prop :=
  ∀ m ∈ members, (Tree.string? m.1).isSome

/-- What stands in an object under a key, as often as it is given. -/
def named (key : String) (members : List (List Piece × Tree)) : List Tree :=
  (members.filter fun m => Tree.string? m.1 == some key).map (·.2)

theorem named_cons_self {key : String} {pieces : List Piece} (h : Tree.string? pieces = some key)
    (tree : Tree) (members : List (List Piece × Tree)) :
    named key ((pieces, tree) :: members) = tree :: named key members := by
  simp [named, h]

theorem named_cons_of_ne {key : String} {pieces : List Piece} (h : Tree.string? pieces ≠ some key)
    (tree : Tree) (members : List (List Piece × Tree)) :
    named key ((pieces, tree) :: members) = named key members := by
  simp [named, h]

theorem keyed?_isSome {members : List (List Piece × Tree)} :
    (∃ pairs, keyed? members = some pairs) ↔ KeysRead members := by
  induction members with
  | nil => simp [keyed?, KeysRead]
  | cons m members ih =>
    obtain ⟨pieces, tree⟩ := m
    have hcons : KeysRead ((pieces, tree) :: members) ↔
        (∃ k, Tree.string? pieces = some k) ∧ KeysRead members := by
      simp [KeysRead, Option.isSome_iff_exists]
    rw [hcons, ← ih]
    simp only [keyed?, Option.bind_eq_bind, Option.bind_eq_some_iff, Option.pure_def,
      Option.some.injEq]
    constructor
    · rintro ⟨-, k, hk, pairs, hpairs, -⟩
      exact ⟨⟨k, hk⟩, pairs, hpairs⟩
    · rintro ⟨⟨k, hk⟩, pairs, hpairs⟩
      exact ⟨_, k, hk, pairs, hpairs, rfl⟩

/-- Reading the keys keeps what stands under each. -/
theorem named_keyed? {members : List (List Piece × Tree)} {pairs : List (String × Tree)}
    (h : keyed? members = some pairs) (key : String) :
    (pairs.filter (·.1 == key)).map (·.2) = named key members := by
  induction members generalizing pairs with
  | nil => cases h; rfl
  | cons m members ih =>
    obtain ⟨pieces, tree⟩ := m
    simp only [keyed?, Option.bind_eq_bind, Option.bind_eq_some_iff, Option.pure_def,
      Option.some.injEq] at h
    obtain ⟨k, hk, rest, hrest, rfl⟩ := h
    by_cases hkey : k = key
    · subst hkey
      rw [named_cons_self hk, ← ih hrest]
      simp
    · rw [named_cons_of_ne (by simpa [hk] using hkey), ← ih hrest]
      simp [hkey]

/-- A field is found where it is given once, or not at all. -/
theorem field?_eq_some_iff {members : List (List Piece × Tree)} {pairs : List (String × Tree)}
    (h : keyed? members = some pairs) {key : String} {found : Option Tree} :
    field? key pairs = some found ↔ named key members = found.toList := by
  rw [← named_keyed? h, field?]
  split
  · next hnone => rw [hnone]; cases found <;> simp
  · next hone => rw [hone]; cases found <;> simp
  · next hmore => rw [hmore]; cases found <;> simp

/-- The fields of a record are found where each is. -/
theorem fields?_object {names : List String} {members : List (List Piece × Tree)}
    {found : List (Option Tree)} : fields? names (.object members) = some found ↔
      ∃ pairs, keyed? members = some pairs ∧
        List.Forall₂ (fun name f => field? name pairs = some f) names found := by
  have hmapM : ∀ pairs, names.mapM (fun name => field? name pairs) = some found ↔
      List.Forall₂ (fun name f => field? name pairs = some f) names found := by
    intro pairs
    induction names generalizing found with
    | nil => simp [eq_comm]
    | cons name names ih =>
      simp only [List.mapM_cons, Option.bind_eq_bind, Option.bind_eq_some_iff, Option.pure_def,
        Option.some.injEq, ih, List.forall₂_cons_left_iff]
      constructor
      · rintro ⟨f, hf, rest, hrest, rfl⟩
        exact ⟨f, rest, hf, hrest, rfl⟩
      · rintro ⟨f, rest, hf, hrest, rfl⟩
        exact ⟨f, hf, rest, hrest, rfl⟩
  simp only [fields?, Option.bind_eq_bind, Option.bind_eq_some_iff, hmapM]

/-- The fields of a record that is an array are its items in order, and no more than there are
fields. -/
theorem fields?_array {names : List String} {items : List Tree} {found : List (Option Tree)} :
    fields? names (.array items) = some found ↔
      items.length ≤ names.length ∧ found = (List.range names.length).map fun i => items[i]? := by
  have hfields : ∀ n, items.length ≤ n →
      items.map some ++ List.replicate (n - items.length) none =
        (List.range n).map fun i => items[i]? := by
    intro n hle
    refine List.ext_getElem (by simp; omega) fun i hi hi' => ?_
    rw [List.getElem_map, List.getElem_range, List.getElem_append]
    split
    · next hlt => simp at hlt; simp [hlt]
    · next hge => simp at hge; simp [hge]
  simp only [fields?, Option.ite_none_right_eq_some, Option.some.injEq]
  exact and_congr_right fun hle => by rw [hfields _ hle, eq_comm]

/-! ## Fields -/

/-- A field of a record: its name, the trees that hold each of its values, and its default. -/
structure Field where
  name : String
  Value : Type
  Holds : Tree → Value → Prop
  default : Value
  unique : ∀ {tree v w}, Holds tree v → Holds tree w → v = w

/-- A field with a string, by default the empty one. -/
def Field.string (name : String) : Field :=
  ⟨name, String, Says, "", Says.unique⟩

/-- A field with a choice, which has a token of its own. -/
def Field.choice {α : Type} (name : String) (token : α → String) (default : α)
    (hinj : ∀ a b, token a = token b → a = b) : Field :=
  ⟨name, α, fun tree a => Names tree (token a), default, fun h h' => hinj _ _ (h.unique h')⟩

/-- A field has a value from the tree in its place, or its default where the place is left out. -/
inductive Field.From (f : Field) : Option Tree → f.Value → Prop
  | left : From f none f.default
  | given {tree v} : f.Holds tree v → From f (some tree) v

theorem Field.from_iff (f : Field) {read : Tree → Option f.Value}
    (hread : ∀ tree v, read tree = some v ↔ f.Holds tree v) {found : Option Tree} {v : f.Value} :
    orDefault f.default read found = some v ↔ f.From found v := by
  constructor
  · intro h
    cases found with
    | none =>
      cases h
      exact .left
    | some tree => exact .given ((hread tree v).1 h)
  · intro h
    cases h with
    | left => rfl
    | given hholds => exact (hread _ v).2 hholds

/-- Members give a value to a field: once, or by leaving it out. -/
inductive Field.At (f : Field) (members : List (List Piece × Tree)) : f.Value → Prop
  | left : named f.name members = [] → At f members f.default
  | given {tree v} : named f.name members = [tree] → f.Holds tree v → At f members v

theorem Field.at_iff (f : Field) {members : List (List Piece × Tree)}
    {pairs : List (String × Tree)} (h : keyed? members = some pairs) {v : f.Value} :
    (∃ found, field? f.name pairs = some found ∧ f.From found v) ↔ f.At members v := by
  simp only [field?_eq_some_iff h]
  constructor
  · rintro ⟨found, hnamed, hv⟩
    cases hv with
    | left => exact .left hnamed
    | given hholds => exact .given hnamed hholds
  · intro hv
    cases hv with
    | left hnamed => exact ⟨none, hnamed, .left⟩
    | given hnamed hholds => exact ⟨some _, hnamed, .given hholds⟩

/-- A tree stores a record: an object by what its members give, an array by what its items give, and
nothing else does. -/
inductive Stores {α : Type} (Named : List (List Piece × Tree) → α → Prop)
    (Listed : List Tree → α → Prop) : Tree → α → Prop
  | object {members a} : KeysRead members → Named members a → Stores Named Listed (.object members) a
  | array {items a} : Listed items a → Stores Named Listed (.array items) a

theorem stores_iff {α : Type} {read : Tree → Option α}
    {Named : List (List Piece × Tree) → α → Prop} {Listed : List Tree → α → Prop}
    (hobject : ∀ {members a}, read (.object members) = some a ↔ KeysRead members ∧ Named members a)
    (harray : ∀ {items a}, read (.array items) = some a ↔ Listed items a)
    (hnull : read .null = none) (hbool : ∀ b, read (.bool b) = none)
    (hnumber : ∀ n, read (.number n) = none) (hstring : ∀ s, read (.string s) = none)
    {tree : Tree} {a : α} : read tree = some a ↔ Stores Named Listed tree a := by
  constructor
  · intro h
    cases tree with
    | null => cases hnull.symm.trans h
    | bool b => cases (hbool b).symm.trans h
    | number n => cases (hnumber n).symm.trans h
    | string s => cases (hstring s).symm.trans h
    | array => exact .array (harray.1 h)
    | object =>
      obtain ⟨hkeys, hnamed⟩ := hobject.1 h
      exact .object hkeys hnamed
  · intro h
    cases h with
    | object hkeys hnamed => exact hobject.2 ⟨hkeys, hnamed⟩
    | array hlisted => exact harray.2 hlisted

section

variable {α : Type} {fields : List Field} {read : Tree → Option α}
  {Stores : List (List Piece × Tree) → α → Prop}

end

/-! ## Texts -/

/-- What a text stores. -/
def ofText? {α : Type} (read : Tree → Option α) (text : String) : Option α :=
  Tree.ofText? text.toList >>= read

theorem ofText?_of_spelledBy {α : Type} {read : Tree → Option α} {tree : Tree} {text : String}
    (h : Tree.SpelledBy tree text.toList) : ofText? read text = read tree := by
  rw [ofText?, Tree.ofText?_eq_some_iff.2 h]
  rfl

/-- What is written is read from its tree. -/
theorem ofText?_text {α : Type} (read : Tree → Option α) (value : Json) :
    ofText? read value.text = read (.ofJson value) := by
  refine ofText?_of_spelledBy ?_
  rw [Json.text, String.toList_ofList]
  exact Json.spelledBy_chars value

end QueryForm.Record
