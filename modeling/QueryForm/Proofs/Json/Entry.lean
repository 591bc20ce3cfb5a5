/-
Objects of one entry, alone and among the items of an array.

An array of well-formed texts is read item by item, so a further item that is
not too deep goes in where it stands and leaves the others as they are
(`value?_bracketed_insert`). And the entry of an object is read as its key and
what its value is read as, whatever its key, unless that is
`Tree.numberKey`: then the object is read as a number or refused, and an
array refused with it (`value?_entry_numberKey`). `Literal.entry_kept_iff`
puts the two together.
-/
import Mathlib.Data.List.Forall2
import QueryForm.Proofs.Json.Literal
import QueryForm.Proofs.Json.Writer

namespace QueryForm

theorem Quoted.lossy_char (cs : List Char) : lossy (cs.map .char) = cs := by
  induction cs with
  | nil => rfl
  | cons c cs ih => rw [List.map_cons, lossy, ih]

/-! ## Trees that are read as what they mean -/

namespace Tree

open Quoted (Piece)

mutual

/-- No object in a tree repeats a key. -/
def Distinct : Tree → Prop
  | array items => DistinctItems items
  | object members => Fields.Distinct (lossyMembers members) ∧ DistinctMembers members
  | _ => True

/-- No object in items repeats a key. -/
def DistinctItems : List Tree → Prop
  | [] => True
  | item :: items => Distinct item ∧ DistinctItems items

/-- No object in members repeats a key. -/
def DistinctMembers : List (List Piece × Tree) → Prop
  | [] => True
  | (_, value) :: members => Distinct value ∧ DistinctMembers members

end

/-- An object that begins with the key of a number is read as no more than a number. -/
theorem value?_numberObject {members : List (List Piece × Tree)}
    (h : isNumberObject members = true) :
    value? (.object members) = (numberObject? members).map .number := by
  rw [value?, if_pos h]

theorem isNumberObject_mend_iff {key : List Piece} {value : Tree}
    {members : List (List Piece × Tree)} :
    isNumberObject ((Quoted.mend key, value) :: members) = true ↔ lossyString key = numberKey := by
  rw [isNumberObject, string?_mend, beq_iff_eq, Option.some_inj]

/-- The number that an object stands for is spelled by the string of its one member. -/
theorem numberObject?_mend_iff {key : List Piece} {value : Tree} {n : Numeral} :
    numberObject? [(key, value.mend)] = some n ↔
      ∃ s, value? value.mend = some (.string s) ∧ Numeral.ofText? s.toList = some n := by
  cases value with
  | string pieces =>
    simp [mend, numberObject?, value?, string?_mend, Quoted.characters?_mend, lossyString]
  | object members =>
    rw [mend, value?]
    split <;> simp [numberObject?]
  | null | bool | number | array => simp [mend, numberObject?, value?]

theorem keys_of_members?_mend {members : List (List Piece × Tree)} {pairs : Fields Json}
    (h : members? (mendMembers members) = some pairs) :
    Fields.keys pairs = Fields.keys (lossyMembers members) := by
  induction members generalizing pairs with
  | nil => cases h; rfl
  | cons m members ih =>
    obtain ⟨key, value⟩ := m
    simp only [mendMembers, members?, string?_mend, Option.bind_eq_bind, Option.bind_some,
      Option.bind_eq_some_iff, Option.pure_def, Option.some.injEq] at h
    obtain ⟨v, -, rest, hrest, rfl⟩ := h
    have hkeys := ih hrest
    simp only [Fields.keys, lossyMembers, List.map_cons] at hkeys ⊢
    rw [hkeys]

mutual

/-- Where no key is repeated, a tree that is read as what it means is plain. -/
theorem plain_of_value?_mend : ∀ {tree : Tree}, tree.Distinct →
    value? tree.mend = some tree.lossy → tree.Plain
  | null, _, _ | bool _, _, _ | number _, _, _ | string _, _, _ => trivial
  | array items, hd, h => by
    rw [mend, value?, lossy, Option.map_eq_some_iff] at h
    obtain ⟨values, hvalues, heq⟩ := h
    cases heq
    exact plain_of_items?_mend hd hvalues
  | object members, hd, h => by
    rw [mend] at h
    cases hnumber : isNumberObject (mendMembers members) with
    | true =>
      rw [value?_numberObject hnumber, lossy, Option.map_eq_some_iff] at h
      obtain ⟨n, -, heq⟩ := h
      cases heq
    | false =>
      rw [value?, hnumber, if_neg Bool.false_ne_true, lossy, Option.map_eq_some_iff] at h
      obtain ⟨pairs, hpairs, heq⟩ := h
      -- No key is repeated, so the members are the pairs that were read.
      have hkeys := keys_of_members?_mend hpairs
      have hdistinct : Fields.Distinct pairs := by
        rw [Fields.Distinct, hkeys]
        exact hd.1
      rw [Json.object.injEq, ← Fields.ofPairs_eq_resolved, Fields.ofPairs_of_distinct hd.1,
        Fields.ofPairs_of_distinct hdistinct] at heq
      rw [heq] at hpairs
      refine ⟨fun m hm hkey => ?_, plain_of_members?_mend hd.2 hpairs⟩
      cases members with
      | nil => cases hm
      | cons first members =>
        cases hm
        rw [mendMembers, isNumberObject_mend_iff.2 hkey] at hnumber
        cases hnumber

theorem plain_of_items?_mend : ∀ {items : List Tree}, DistinctItems items →
    items? (mendItems items) = some (lossyItems items) → PlainItems items
  | [], _, _ => trivial
  | item :: items, hd, h => by
    simp only [mendItems, items?, lossyItems, Option.bind_eq_bind, Option.bind_eq_some_iff,
      Option.pure_def, Option.some.injEq, List.cons.injEq] at h
    obtain ⟨v, hv, vs, hvs, rfl, rfl⟩ := h
    exact ⟨plain_of_value?_mend hd.1 hv, plain_of_items?_mend hd.2 hvs⟩

theorem plain_of_members?_mend : ∀ {members : List (List Piece × Tree)}, DistinctMembers members →
    members? (mendMembers members) = some (lossyMembers members) → PlainMembers members
  | [], _, _ => trivial
  | (key, value) :: members, hd, h => by
    simp only [mendMembers, members?, string?_mend, lossyMembers, Option.bind_eq_bind,
      Option.bind_some, Option.bind_eq_some_iff, Option.pure_def, Option.some.injEq,
      List.cons.injEq, Prod.mk.injEq, true_and] at h
    obtain ⟨v, hv, rest, hrest, rfl, rfl⟩ := h
    exact ⟨plain_of_value?_mend hd.1 hv, plain_of_members?_mend hd.2 hrest⟩

end

theorem depth_single (key : List Piece) (value : Tree) :
    (object [(key, value)]).depth = value.depth + 1 := by
  simp [depth, membersDepth]

/-! ## Items -/

/-- A further item is read for itself. -/
theorem items?_insert (before after : List Tree) (item : Tree) :
    items? (before ++ item :: after) = (value? item).bind fun v =>
      (items? (before ++ after)).map fun vs => vs.insertIdx before.length v := by
  induction before with
  | nil =>
    rw [List.nil_append, List.nil_append, items?]
    cases value? item <;> cases items? after <;> rfl
  | cons first before ih =>
    rw [List.cons_append, List.cons_append, items?, items?, ih]
    cases value? first <;> cases value? item <;> cases items? (before ++ after) <;> rfl

theorem itemsDepth_insert (before after : List Tree) (item : Tree) :
    itemsDepth (before ++ item :: after) = max item.depth (itemsDepth (before ++ after)) := by
  induction before with
  | nil => rfl
  | cons first before ih =>
    rw [List.cons_append, List.cons_append, itemsDepth, itemsDepth, ih, Nat.max_left_comm]

end Tree

namespace Literal

open QueryForm.Tree (SpelledBy)
open Quoted (Piece)

/-! ## Texts of arrays and of objects of one entry -/

/-- The text of an array. -/
def bracketed (texts : List String) : String :=
  "[" ++ ",".intercalate texts ++ "]"

/-- The text of an object of one entry. -/
def entry (key value : String) : String :=
  "\x7b" ++ key ++ ":" ++ value ++ "\x7d"

/-- A text is one value, accepted or not. -/
def WellFormed (text : String) : Prop :=
  ∃ tree, SpelledBy tree text.toList

/-- A quoted text spells a key, in any of its spellings. -/
def SpellsKey (k key : String) : Prop :=
  ∃ pieces, Tree.Spells (.string pieces) key.toList ∧ Tree.lossyString pieces = k

theorem spellsKey_quote (k : String) : SpellsKey k (String.ofList (Quoted.quote k.toList)) := by
  refine ⟨Tree.piecesOf k, ?_, ?_⟩
  · rw [String.toList_ofList]
    exact .string (Tree.spells_quoted k.toList)
  · rw [Tree.lossyString, Tree.piecesOf, Quoted.lossy_char, String.ofList_toList]

theorem separated_intercalate {texts : List String} {trees : List Tree}
    (h : List.Forall₂ (fun text tree => SpelledBy tree text.toList) texts trees)
    (hne : texts ≠ []) :
    Tree.Separated Tree.Spells trees ([','].intercalate (texts.map String.toList)) := by
  induction h with
  | nil => exact absurd rfl hne
  | @cons text tree texts trees htext hrest ih =>
    obtain ⟨before, used, after, hb, hu, ha, heq⟩ := htext
    cases hrest with
    | nil =>
      rw [List.map_cons, List.map_nil, List.intercalate_singleton, heq]
      exact .one hb hu ha
    | cons =>
      rw [List.map_cons, List.map_cons, List.intercalate_cons_cons, heq]
      have := Tree.Separated.cons hb hu ha (ih (List.cons_ne_nil _ _))
      simpa using this

/-- An array of well-formed texts is well-formed. -/
theorem spelledBy_bracketed {texts : List String} {trees : List Tree}
    (h : List.Forall₂ (fun text tree => SpelledBy tree text.toList) texts trees) :
    SpelledBy (.array trees) (bracketed texts).toList := by
  have hcontents : Tree.Contents Tree.Spells trees
      ([','].intercalate (texts.map String.toList)) := by
    cases h with
    | nil => exact .none Tree.blanks_nil
    | cons htext hrest =>
      exact .some (separated_intercalate (.cons htext hrest) (List.cons_ne_nil _ _))
  have := (Tree.Spells.array hcontents).spelledBy
  simpa [bracketed, String.toList_intercalate] using this

/-- An object of one entry is well-formed. -/
theorem spelledBy_entry {pieces : List Piece} {tree : Tree} {key value : String}
    (hk : Tree.Spells (.string pieces) key.toList) (hv : SpelledBy tree value.toList) :
    SpelledBy (.object [(pieces, tree)]) (entry key value).toList := by
  obtain ⟨before, used, after, hb, hu, ha, heq⟩ := hv
  generalize hkey : key.toList = ks at hk
  cases hk with
  | string hks =>
    have hmember := Tree.Member.mk hks Tree.blanks_nil hb hu
    have := (Tree.Spells.object (.some (.one Tree.blanks_nil hmember ha))).spelledBy
    simpa [entry, hkey, heq] using this

theorem forall₂_trees {texts : List String} (h : ∀ text ∈ texts, WellFormed text) :
    ∃ trees, List.Forall₂ (fun text tree => SpelledBy tree text.toList) texts trees := by
  induction texts with
  | nil => exact ⟨[], .nil⟩
  | cons text texts ih =>
    obtain ⟨⟨tree, htree⟩, hrest⟩ := List.forall_mem_cons.1 h
    obtain ⟨trees, htrees⟩ := ih hrest
    exact ⟨tree :: trees, .cons htree htrees⟩

/-! ## What is read -/

/-- What the value of a well-formed text is. -/
theorem value?_of_spelledBy {text : String} {tree : Tree} (h : SpelledBy tree text.toList) :
    value? text = if tree.depth ≤ depthLimit then tree.mend.value? else none := by
  rw [value?]
  split
  · next hd => rw [tree?_eq_some_iff.2 ⟨tree, ⟨h, hd⟩, rfl⟩]; rfl
  · next hd =>
    have hnone : tree? text.toList = none := by
      refine Option.eq_none_iff_forall_ne_some.2 fun t ht => ?_
      obtain ⟨t', ⟨ht', hd'⟩, -⟩ := tree?_eq_some_iff.1 ht
      rw [ht'.unique h] at hd'
      exact hd hd'
    rw [hnone]; rfl

theorem array_of_value?_bracketed {texts : List String} (h : ∀ text ∈ texts, WellFormed text)
    {w : Json} (hw : value? (bracketed texts) = some w) : ∃ items, w = .array items := by
  obtain ⟨trees, htrees⟩ := forall₂_trees h
  rw [value?_of_spelledBy (spelledBy_bracketed htrees), Option.ite_none_right_eq_some, Tree.mend,
    Tree.value?, Option.map_eq_some_iff] at hw
  obtain ⟨-, items, -, rfl⟩ := hw
  exact ⟨items, rfl⟩

/-- **An array is read item by item.** A further item, well-formed and not too deep, is read for
itself, and the items around it as without it. -/
theorem value?_bracketed_insert {text : String} {tree : Tree} (h : SpelledBy tree text.toList)
    (hd : tree.depth < depthLimit) {before after : List String}
    (hothers : ∀ other ∈ before ++ after, WellFormed other) {w : Json} :
    value? (bracketed (before ++ text :: after)) = some w ↔ ∃ v items, value? text = some v ∧
      value? (bracketed (before ++ after)) = some (.array items) ∧
      w = .array (items.insertIdx before.length v) := by
  obtain ⟨hbefore, hafter⟩ := List.forall_mem_append.1 hothers
  obtain ⟨as, has⟩ := forall₂_trees hbefore
  obtain ⟨bs, hbs⟩ := forall₂_trees hafter
  have hitems : Tree.items? (Tree.mendItems (as ++ tree :: bs)) =
      (Tree.value? tree.mend).bind fun v =>
        (Tree.items? (Tree.mendItems (as ++ bs))).map fun vs => vs.insertIdx before.length v := by
    simp only [Tree.mendItems_eq, List.map_append, List.map_cons, Tree.items?_insert,
      List.length_map, has.length_eq]
  rw [value?_of_spelledBy h, if_pos (Nat.le_of_lt hd),
    value?_of_spelledBy (spelledBy_bracketed (List.rel_append has (.cons h hbs))),
    value?_of_spelledBy (spelledBy_bracketed (List.rel_append has hbs))]
  simp only [Tree.depth, Tree.itemsDepth_insert, Tree.mend, Tree.value?, hitems]
  by_cases hdepth : Tree.itemsDepth (as ++ bs) + 1 ≤ depthLimit
  · rw [if_pos (by omega), if_pos hdepth]
    cases Tree.value? tree.mend <;> cases Tree.items? (Tree.mendItems (as ++ bs)) <;>
      simp [eq_comm]
  · rw [if_neg (by omega), if_neg hdepth]
    simp

theorem bracketed_ne_empty (texts : List String) : bracketed texts ≠ "" := by
  intro hempty
  simpa [bracketed] using congrArg String.toList hempty

theorem items_bracketed {texts : List String} {items : List Json}
    (h : value? (bracketed texts) = some (.array items)) :
    Literal.items (bracketed texts) = items := by
  rw [Literal.items, if_neg (bracketed_ne_empty texts), h]

theorem members_eq_iff {text : String} {members : List (String × Json)} (hne : members ≠ []) :
    Literal.members text = members ↔ value? text = some (.object members) := by
  rw [Literal.members]
  split
  · next hvalue => rw [hvalue, Option.some_inj, Json.object.injEq]
  · next hvalue => exact ⟨fun h => absurd h.symm hne, fun h => absurd h (hvalue members)⟩

section

variable {k key text : String} {tree : Tree}

theorem value?_entry_eq {pieces : List Piece} (hk : Tree.Spells (.string pieces) key.toList)
    (hv : SpelledBy tree text.toList) (hd : tree.depth < depthLimit) :
    value? (entry key text) = Tree.value? (.object [(Quoted.mend pieces, tree.mend)]) := by
  rw [value?_of_spelledBy (spelledBy_entry hk hv), Tree.depth_single, if_pos (Nat.succ_le_of_lt hd)]
  rfl

theorem value?_bracketed_entry (hk : SpellsKey k key) (hv : SpelledBy tree text.toList)
    (hd : tree.depth + 1 < depthLimit) {before after : List String}
    (hothers : ∀ other ∈ before ++ after, WellFormed other) {w : Json} :
    value? (bracketed (before ++ entry key text :: after)) = some w ↔
      ∃ v items, value? (entry key text) = some v ∧
        value? (bracketed (before ++ after)) = some (.array items) ∧
        w = .array (items.insertIdx before.length v) := by
  obtain ⟨pieces, hs, -⟩ := hk
  exact value?_bracketed_insert (spelledBy_entry hs hv) (by rwa [Tree.depth_single]) hothers

/-- The entry of an object is its key and what its value is read as. -/
theorem value?_entry (hk : SpellsKey k key) (hv : SpelledBy tree text.toList)
    (hd : tree.depth < depthLimit) (hne : k ≠ Tree.numberKey) :
    value? (entry key text) = (value? text).map fun v => .object [(k, v)] := by
  obtain ⟨pieces, hs, rfl⟩ := hk
  rw [value?_entry_eq hs hv hd, value?_of_spelledBy hv, if_pos (Nat.le_of_lt hd), Tree.value?,
    if_neg (mt Tree.isNumberObject_mend_iff.1 hne)]
  simp only [Tree.members?, Tree.string?_mend]
  cases Tree.value? tree.mend <;> rfl

/-- An object of one entry whose key is that of a number is read as the number that its value
spells, and refused where that is no string or spells none. -/
theorem value?_entry_numberKey (hk : SpellsKey Tree.numberKey key)
    (hv : SpelledBy tree text.toList) (hd : tree.depth < depthLimit) {w : Json} :
    value? (entry key text) = some w ↔ ∃ s n, value? text = some (.string s) ∧
      Numeral.ofText? s.toList = some n ∧ w = .number n := by
  obtain ⟨pieces, hs, hkey⟩ := hk
  rw [value?_entry_eq hs hv hd, value?_of_spelledBy hv, if_pos (Nat.le_of_lt hd),
    Tree.value?_numberObject (Tree.isNumberObject_mend_iff.2 hkey), Option.map_eq_some_iff]
  simp only [Tree.numberObject?_mend_iff]
  constructor
  · rintro ⟨n, ⟨s, hs, hn⟩, rfl⟩
    exact ⟨s, n, hs, hn, rfl⟩
  · rintro ⟨s, n, hs, hn, rfl⟩
    exact ⟨n, ⟨s, hs, hn⟩, rfl⟩

/-- Nothing of the object is left. -/
theorem convert_entry_numberKey (hk : SpellsKey Tree.numberKey key)
    (hv : SpelledBy tree text.toList) (hd : tree.depth < depthLimit) :
    Value.convert .object (entry key text) = .object [] := by
  rw [Value.convert, Literal.members]
  split
  · next hobject =>
    obtain ⟨s, n, -, -, heq⟩ := (value?_entry_numberKey hk hv hd).1 hobject
    cases heq
  · rfl

end

/-! ## An entry that is kept -/

/-- An object of one entry is read as the entry of a key and a value, by itself and among the items
of an array, whose other items are accepted as without it. -/
structure Kept (k key text : String) (v : Json) : Prop where
  alone : Value.convert .object (entry key text) = .object [(k, v)]
  stays : ∀ before after items, (∀ other ∈ before ++ after, WellFormed other) →
    value? (bracketed (before ++ after)) = some (.array items) →
    Value.convert .array (bracketed (before ++ entry key text :: after)) =
      .array (items.insertIdx before.length (.object [(k, v)]))
  others : ∀ before after, (∀ other ∈ before ++ after, WellFormed other) →
    (value? (bracketed (before ++ entry key text :: after)) = none ↔
      value? (bracketed (before ++ after)) = none)

section

variable {k key text : String} {tree : Tree} {v : Json}

/-- What is kept has a key that is not special, and a value that is read. -/
theorem Kept.read (h : Kept k key text v) (hk : SpellsKey k key)
    (hv : SpelledBy tree text.toList) (hd : tree.depth < depthLimit) :
    k ≠ Tree.numberKey ∧ value? text = some v := by
  have halone : value? (entry key text) = some (.object [(k, v)]) := by
    have hobject := h.alone
    rw [Value.convert, Value.object.injEq] at hobject
    exact (members_eq_iff (List.cons_ne_nil _ _)).1 hobject
  have hne : k ≠ Tree.numberKey := by
    rintro rfl
    obtain ⟨s, n, -, -, heq⟩ := (value?_entry_numberKey hk hv hd).1 halone
    cases heq
  rw [value?_entry hk hv hd hne, Option.map_eq_some_iff] at halone
  obtain ⟨w, hw, heq⟩ := halone
  cases heq
  exact ⟨hne, hw⟩

/-- With any other key, an entry whose value is read is kept. -/
theorem kept_of_read (hk : SpellsKey k key) (hv : SpelledBy tree text.toList)
    (hd : tree.depth + 1 < depthLimit) (hne : k ≠ Tree.numberKey) (hvalue : value? text = some v) :
    Kept k key text v := by
  have halone : value? (entry key text) = some (.object [(k, v)]) := by
    rw [value?_entry hk hv (by omega) hne, hvalue, Option.map_some]
  have hinsert := @value?_bracketed_entry k key text tree hk hv hd
  refine ⟨?_, fun before after items hothers hitems => ?_, fun before after hothers => ?_⟩
  · rw [Value.convert, (members_eq_iff (List.cons_ne_nil _ _)).2 halone]
  · rw [Value.convert, items_bracketed ((hinsert hothers).2 ⟨_, items, halone, hitems, rfl⟩)]
  · -- Neither array is accepted without the other.
    constructor
    · intro hnone
      refine Option.eq_none_iff_forall_ne_some.2 fun w hw => ?_
      obtain ⟨items, rfl⟩ := array_of_value?_bracketed hothers hw
      rw [(hinsert hothers).2 ⟨_, items, halone, hw, rfl⟩] at hnone
      cases hnone
    · intro hnone
      refine Option.eq_none_iff_forall_ne_some.2 fun w hw => ?_
      obtain ⟨-, items, -, hitems, -⟩ := (hinsert hothers).1 hw
      rw [hitems] at hnone
      cases hnone

end

/-- **An entry is kept unless its key is that of a number.** For every key, in any spelling, and
every well-formed value that is not too deep, an object of that one entry is read as the entry, by
itself and in an array, exactly where the key is not `numberKey` and the value is read as what it
means. The value is where no object in it has `numberKey` for its first key; and only there, if no
object in it repeats a key. An object whose one key is `numberKey` is never read as an object: in an
array it stands for the number that its value spells, or all items are refused. -/
theorem entry_kept_iff {k key text : String} {tree : Tree} (hk : SpellsKey k key)
    (hv : SpelledBy tree text.toList) (hd : tree.depth ≤ 510) :
    (Kept k key text tree.lossy ↔ k ≠ Tree.numberKey ∧ value? text = some tree.lossy) ∧
    (tree.Plain → value? text = some tree.lossy) ∧
    (tree.Distinct → value? text = some tree.lossy → tree.Plain) ∧
    (k = Tree.numberKey → Value.convert .object (entry key text) = .object [] ∧
      ∀ before after, (∀ other ∈ before ++ after, WellFormed other) → ∀ w,
        value? (bracketed (before ++ entry key text :: after)) = some w ↔
          ∃ s n items, value? text = some (.string s) ∧ Numeral.ofText? s.toList = some n ∧
            value? (bracketed (before ++ after)) = some (.array items) ∧
            w = .array (items.insertIdx before.length (.number n))) := by
  have hdepth : tree.depth + 1 < depthLimit := by
    rw [depthLimit]
    omega
  have hvalue : value? text = tree.mend.value? := by
    rw [value?_of_spelledBy hv, if_pos (by omega)]
  refine ⟨⟨fun h => h.read hk hv (by omega), fun h => kept_of_read hk hv hdepth h.1 h.2⟩,
    fun hplain => ?_, fun hdistinct hread => ?_, ?_⟩
  · rw [hvalue, Tree.value?_mend tree hplain]
  · exact Tree.plain_of_value?_mend hdistinct (hvalue ▸ hread)
  · rintro rfl
    have hnumber := @value?_entry_numberKey key text tree hk hv (by omega)
    refine ⟨convert_entry_numberKey hk hv (by omega), fun before after hothers w => ?_⟩
    rw [value?_bracketed_entry hk hv hdepth hothers]
    simp only [hnumber]
    constructor
    · rintro ⟨v, items, ⟨s, n, hs, hn, rfl⟩, hitems, rfl⟩
      exact ⟨s, n, items, hs, hn, hitems, rfl⟩
    · rintro ⟨s, n, items, hs, hn, hitems, rfl⟩
      exact ⟨_, items, ⟨s, n, hs, hn, rfl⟩, hitems, rfl⟩

/-- The key is written with an escape. -/
theorem entry_kept_iff_escaped :
    Kept "a" "\"\\u0061\"" "[null]" (.array [.null]) := by
  have hk : SpellsKey "a" "\"\\u0061\"" :=
    ⟨_, .string (.cons (@Quoted.PieceSpells.unit '0' '0' '6' '1' 0x61 rfl) .nil), rfl⟩
  have hv : SpelledBy (.array [.null]) "[null]".toList := Tree.ofText?_eq_some_iff.1 rfl
  have h := entry_kept_iff hk hv (by decide)
  exact h.1.2 ⟨by decide, h.2.1 ⟨trivial, trivial⟩⟩

/-- The object is lost for its key, and its neighbour with it. -/
theorem entry_numberKey_lost :
    let object := entry (String.ofList (Quoted.quote Tree.numberKey.toList)) "1"
    Value.convert .object object = .object [] ∧
    Value.convert .array (bracketed [object, "true"]) = .array [] ∧
    Value.convert .array (bracketed ["true"]) = .array [.bool true] := by
  have hv : SpelledBy (.number (.ofInteger false 1)) "1".toList := Tree.ofText?_eq_some_iff.1 rfl
  have hk := spellsKey_quote Tree.numberKey
  have hothers : ∀ other ∈ [] ++ ["true"], WellFormed other := by
    intro other hmem
    rw [List.nil_append, List.mem_singleton] at hmem
    rw [hmem]
    exact ⟨_, (Tree.spells_chars (.bool true)).spelledBy⟩
  refine ⟨convert_entry_numberKey hk hv (by decide), ?_, rfl⟩
  rw [Value.convert, Literal.items, if_neg (bracketed_ne_empty _)]
  split
  · next hitems =>
    obtain ⟨v, items, hobject, -⟩ := (value?_bracketed_entry hk hv (by decide) hothers).1 hitems
    obtain ⟨s, n, hstring, -⟩ := (value?_entry_numberKey hk hv (by decide)).1 hobject
    cases hstring
  · rfl

end Literal

end QueryForm
