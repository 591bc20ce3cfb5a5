/-
Values that survive being written and read.

The compact text of a value is read back as that value exactly when the
value is no deeper than the reader's limit, repeats no key in an object, and
has no object that begins with the key of a number (`ofText?_text_iff`). The
middle condition is one that every value keeps which was itself read from a
text (`distinct_of_value?`): a repeated key is written once.

Both conditions on keys ask the same of every object in a value, so they
are instances of one predicate, `EachObject`.
-/
import QueryForm.Proofs.Fields
import QueryForm.Proofs.Json.Writer

namespace QueryForm

namespace Json

mutual

/-- The keys of every object in a value have a property. -/
def EachObject (P : List String → Prop) : Json → Prop
  | array items => EachItem P items
  | object members => P (Fields.keys members) ∧ EachMember P members
  | _ => True

/-- The keys of every object in items have a property. -/
def EachItem (P : List String → Prop) : List Json → Prop
  | [] => True
  | item :: items => EachObject P item ∧ EachItem P items

/-- The keys of every object in the values of members have a property. -/
def EachMember (P : List String → Prop) : List (String × Json) → Prop
  | [] => True
  | (_, value) :: members => EachObject P value ∧ EachMember P members

end

/-- No object in a value repeats a key. -/
def Distinct (value : Json) : Prop :=
  value.EachObject List.Nodup

/-- No object in a value begins with the key of a number. -/
def Plain (value : Json) : Prop :=
  value.EachObject fun keys => keys.head? ≠ some Tree.numberKey

theorem eachItem_iff {P : List String → Prop} {items : List Json} :
    EachItem P items ↔ ∀ item ∈ items, item.EachObject P := by
  induction items with
  | nil => simp [EachItem]
  | cons item items ih => simp [EachItem, ih]

theorem eachMember_iff {P : List String → Prop} {members : List (String × Json)} :
    EachMember P members ↔ ∀ m ∈ members, m.2.EachObject P := by
  induction members with
  | nil => simp [EachMember]
  | cons m members ih => obtain ⟨key, value⟩ := m; simp [EachMember, ih]

end Json

/-! ## From a value to its tree and back -/

namespace Tree

open Json (EachObject EachItem EachMember)

theorem string?_piecesOf (s : String) : string? (piecesOf s) = some s := by
  simp [string?, piecesOf]

/-- What an object needs to be read back: keys that are not repeated, the first not that of a
number. -/
def ReadsBack (keys : List String) : Prop :=
  keys.Nodup ∧ keys.head? ≠ some numberKey

theorem isNumberObject_ofMembers (members : List (String × Json)) :
    isNumberObject (ofMembers members) = true ↔
      (Fields.keys members).head? = some numberKey := by
  cases members with
  | nil => simp [ofMembers, isNumberObject, Fields.keys]
  | cons m members =>
    simp [ofMembers, isNumberObject, Fields.keys, string?_piecesOf]

theorem keys_of_members? {members : List (String × Json)} {pairs : List (String × Json)}
    (h : members? (ofMembers members) = some pairs) : Fields.keys pairs = Fields.keys members := by
  induction members generalizing pairs with
  | nil => cases h; rfl
  | cons m members ih =>
    obtain ⟨key, value⟩ := m
    simp only [ofMembers, members?, string?_piecesOf, Option.bind_eq_bind, Option.bind_some,
      Option.bind_eq_some_iff, Option.pure_def, Option.some.injEq] at h
    obtain ⟨v, -, rest, hrest, rfl⟩ := h
    have := ih hrest
    simp only [Fields.keys, List.map_cons] at this ⊢
    rw [this]

mutual

/-- **Values as trees.** The tree that says what a value is has that value exactly when every
object in the value can be read back. -/
theorem value?_ofJson : ∀ value : Json,
    value? (ofJson value) = some value ↔ value.EachObject ReadsBack
  | .null | .bool _ | .number _ => by simp [ofJson, value?, EachObject]
  | .string s => by simp [ofJson, value?, EachObject, string?_piecesOf]
  | .array items => by
    simp only [ofJson, value?, EachObject, Option.map_eq_some_iff, Json.array.injEq,
      exists_eq_right]
    exact items?_ofItems items
  | .object members => by
    rw [ofJson, value?, EachObject, ReadsBack, ← members?_ofMembers members]
    by_cases hn : (Fields.keys members).head? = some numberKey
    · -- It is read as a number, or not at all.
      rw [if_pos ((isNumberObject_ofMembers members).2 hn)]
      simp [hn]
    · rw [if_neg (mt (isNumberObject_ofMembers members).1 hn)]
      simp only [Option.map_eq_some_iff, Json.object.injEq]
      constructor
      · intro h
        obtain ⟨pairs, hpairs, hwritten⟩ := h
        have hdistinct : Fields.Distinct members := hwritten ▸ Fields.distinct_ofPairs pairs
        have hkept : Fields.Distinct pairs := by
          rwa [Fields.Distinct, keys_of_members? hpairs]
        rw [Fields.ofPairs_of_distinct hkept] at hwritten
        exact ⟨⟨hdistinct, hn⟩, by rw [hpairs, hwritten]⟩
      · intro h
        obtain ⟨⟨hdistinct, -⟩, hmembers⟩ := h
        exact ⟨members, hmembers, Fields.ofPairs_of_distinct hdistinct⟩

theorem items?_ofItems : ∀ items : List Json,
    items? (ofItems items) = some items ↔ EachItem ReadsBack items
  | [] => by simp [ofItems, items?, EachItem]
  | item :: items => by
    simp only [ofItems, items?, EachItem, Option.bind_eq_bind, Option.bind_eq_some_iff,
      Option.pure_def, Option.some.injEq, List.cons.injEq, ← value?_ofJson item,
      ← items?_ofItems items]
    constructor
    · intro h
      obtain ⟨v, hv, vs, hvs, rfl, rfl⟩ := h
      exact ⟨hv, hvs⟩
    · intro h
      exact ⟨item, h.1, items, h.2, rfl, rfl⟩

theorem members?_ofMembers : ∀ members : List (String × Json),
    members? (ofMembers members) = some members ↔ EachMember ReadsBack members
  | [] => by simp [ofMembers, members?, EachMember]
  | (key, value) :: members => by
    simp only [ofMembers, members?, EachMember, string?_piecesOf, Option.bind_eq_bind,
      Option.bind_some, Option.bind_eq_some_iff, Option.pure_def, Option.some.injEq,
      List.cons.injEq, Prod.mk.injEq, true_and, ← value?_ofJson value,
      ← members?_ofMembers members]
    constructor
    · intro h
      obtain ⟨v, hv, rest, hrest, rfl, rfl⟩ := h
      exact ⟨hv, hrest⟩
    · intro h
      exact ⟨value, h.1, members, h.2, rfl, rfl⟩

end

mutual

theorem depth_ofJson : ∀ value : Json, (ofJson value).depth = value.depth
  | .null | .bool _ | .number _ | .string _ => rfl
  | .array items => by rw [ofJson, depth, Json.depth, itemsDepth_ofItems items]
  | .object members => by rw [ofJson, depth, Json.depth, membersDepth_ofMembers members]

theorem itemsDepth_ofItems : ∀ items : List Json, itemsDepth (ofItems items) = Json.itemsDepth items
  | [] => rfl
  | item :: items => by
    rw [ofItems, itemsDepth, Json.itemsDepth, depth_ofJson item, itemsDepth_ofItems items]

theorem membersDepth_ofMembers : ∀ members : List (String × Json),
    membersDepth (ofMembers members) = Json.membersDepth members
  | [] => rfl
  | (key, value) :: members => by
    rw [ofMembers, membersDepth, Json.membersDepth, depth_ofJson value,
      membersDepth_ofMembers members]

end

/-! ## What is read repeats no key -/

mutual

theorem distinct_of_value? : ∀ {tree : Tree} {value : Json}, value? tree = some value →
    value.Distinct
  | .null, _, h | .bool _, _, h | .number _, _, h => by cases h; trivial
  | .string _, _, h => by
    obtain ⟨s, -, rfl⟩ := Option.map_eq_some_iff.1 h
    trivial
  | .array items, _, h => by
    obtain ⟨values, hvalues, rfl⟩ := Option.map_eq_some_iff.1 h
    exact Json.eachItem_iff.2 (distinct_of_items? hvalues)
  | .object members, _, h => by
    rw [value?] at h
    split at h
    · obtain ⟨n, -, rfl⟩ := Option.map_eq_some_iff.1 h
      trivial
    · obtain ⟨pairs, hpairs, rfl⟩ := Option.map_eq_some_iff.1 h
      exact ⟨Fields.distinct_ofPairs pairs,
        Json.eachMember_iff.2 (Fields.forall_ofPairs (distinct_of_members? hpairs))⟩

theorem distinct_of_items? : ∀ {items : List Tree} {values : List Json},
    items? items = some values → ∀ value ∈ values, value.Distinct
  | [], _, h => by cases h; simp
  | item :: items, _, h => by
    simp only [items?, Option.bind_eq_bind, Option.bind_eq_some_iff, Option.pure_def,
      Option.some.injEq] at h
    obtain ⟨v, hv, vs, hvs, rfl⟩ := h
    exact List.forall_mem_cons.2 ⟨distinct_of_value? hv, distinct_of_items? hvs⟩

theorem distinct_of_members? : ∀ {members : List (List Quoted.Piece × Tree)}
    {pairs : List (String × Json)}, members? members = some pairs → ∀ p ∈ pairs, p.2.Distinct
  | [], _, h => by cases h; simp
  | (key, item) :: members, _, h => by
    simp only [members?, Option.bind_eq_bind, Option.bind_eq_some_iff, Option.pure_def,
      Option.some.injEq] at h
    obtain ⟨k, -, v, hv, rest, hrest, rfl⟩ := h
    exact List.forall_mem_cons.2 ⟨distinct_of_value? hv, distinct_of_members? hrest⟩

end

end Tree

/-! ## Texts -/

namespace Json

mutual

theorem eachObject_and {P Q : List String → Prop} : ∀ value : Json,
    value.EachObject (fun keys => P keys ∧ Q keys) ↔ value.EachObject P ∧ value.EachObject Q
  | null | bool _ | number _ | string _ => by simp [EachObject]
  | array items => eachItem_and items
  | object members => by
    simp only [EachObject, eachMember_and members]
    exact and_and_and_comm

theorem eachItem_and {P Q : List String → Prop} : ∀ items : List Json,
    EachItem (fun keys => P keys ∧ Q keys) items ↔ EachItem P items ∧ EachItem Q items
  | [] => by simp [EachItem]
  | item :: items => by
    simp only [EachItem, eachObject_and item, eachItem_and items]
    exact and_and_and_comm

theorem eachMember_and {P Q : List String → Prop} : ∀ members : List (String × Json),
    EachMember (fun keys => P keys ∧ Q keys) members ↔ EachMember P members ∧ EachMember Q members
  | [] => by simp [EachMember]
  | (key, value) :: members => by
    simp only [EachMember, eachObject_and value, eachMember_and members]
    exact and_and_and_comm

end

/-- A text says a value: it is JSON of a tree within a limit on depth, and that is the tree's
value. -/
def SaidBy (limit : Nat) (value : Json) (text : String) : Prop :=
  ∃ tree, Tree.SpelledBy tree text.toList ∧ tree.depth ≤ limit ∧ tree.value? = some value

theorem ofText?_eq_some_iff {limit : Nat} {text : String} {value : Json} :
    ofText? limit text = some value ↔ SaidBy limit value text := by
  simp only [SaidBy, ← and_assoc, ← Tree.read_eq_ok_iff, ofText?]
  cases Tree.read limit text.toList <;> simp [Except.toOption]

theorem ofText?_text (limit : Nat) (value : Json) : ofText? limit value.text =
    if value.depth ≤ limit then (Tree.ofJson value).value? else none := by
  have hspelled := spelledBy_chars value
  have hdepth := Tree.depth_ofJson value
  rw [ofText?, text, String.toList_ofList]
  split
  · next hd =>
    rw [Tree.read_eq_ok_iff.2 ⟨hspelled, by omega⟩]
    rfl
  · next hd =>
    cases hread : Tree.read limit value.chars with
    | error fault => rfl
    | ok tree =>
      obtain ⟨htree, hle⟩ := Tree.read_eq_ok_iff.1 hread
      rw [htree.unique hspelled] at hle
      omega

/-- **Reading what is written.** The text of a value is read back as the value exactly when the
value is within the limit on depth, no object in it repeats a key and none begins with the key of a
number. -/
theorem ofText?_text_iff {limit : Nat} {value : Json} :
    ofText? limit value.text = some value ↔
      value.depth ≤ limit ∧ value.Distinct ∧ value.Plain := by
  rw [ofText?_text, Option.ite_none_right_eq_some, Tree.value?_ofJson]
  exact and_congr_right fun _ => eachObject_and value

end Json

end QueryForm
