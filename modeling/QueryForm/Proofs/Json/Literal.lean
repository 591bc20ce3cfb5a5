/-
What a literal means, and that conversion finds it.

The meaning of a well-formed text is read off its tree (`Tree.lossy`):
strings and keys are decoded from their escapes, with the replacement
character for every half of a character that stands alone, numbers are what
they are, and a repeated key stays where it was first and takes its last
value. `Literal.convert_reads` says that conversion gives the contents of a
literal exactly where there is one of its kind, no deeper than the limit.

The way from the text to its meaning is the other one: the text is repaired
first and read strictly (`value?_mend`).
-/
import QueryForm.Json.Writer
import QueryForm.Proofs.Fields
import QueryForm.Proofs.Json.Surrogates
import QueryForm.Value.Basic

namespace QueryForm

/-! ## Meaning -/

namespace Quoted

/-- The characters of pieces. A high half makes a character with a low half right after it; every
other half is the replacement character. -/
def lossy : List Piece → List Char
  | [] => []
  | .char c :: ps => c :: lossy ps
  | .high h :: .low l :: ps => Units.join h l :: lossy ps
  | .high _ :: ps => '\uFFFD' :: lossy ps
  | .low _ :: ps => '\uFFFD' :: lossy ps

theorem characters?_mend (ps : List Piece) : characters? (mend ps) = some (lossy ps) := by
  fun_induction lossy ps with
  | case1 => rfl
  | case2 c ps ih => rw [mend, characters?, ih, Option.map_some]
  | case3 h l ps ih => rw [mend, characters?, ih, Option.map_some]
  | case4 h ps hps ih => rw [mend_high hps, characters?, ih, Option.map_some]
  | case5 l ps ih => rw [mend, characters?, ih, Option.map_some]

end Quoted

namespace Tree

open Quoted (Piece)

/-- The string of pieces. -/
def lossyString (pieces : List Piece) : String :=
  String.ofList (Quoted.lossy pieces)

mutual

/-- The value that a tree means. -/
def lossy : Tree → Json
  | null => .null
  | bool b => .bool b
  | number n => .number n
  | string pieces => .string (lossyString pieces)
  | array items => .array (lossyItems items)
  | object members => .object (Fields.resolved (lossyMembers members))

/-- The values that items mean. -/
def lossyItems : List Tree → List Json
  | [] => []
  | item :: items => lossy item :: lossyItems items

/-- The keys and values that members mean, as often as they are written. -/
def lossyMembers : List (List Piece × Tree) → List (String × Json)
  | [] => []
  | (key, value) :: members => (lossyString key, lossy value) :: lossyMembers members

end

mutual

/-- No object in a tree has `numberKey` for its first key. -/
def Plain : Tree → Prop
  | array items => PlainItems items
  | object members =>
    (∀ m ∈ members.head?, lossyString m.1 ≠ numberKey) ∧ PlainMembers members
  | _ => True

/-- No object in items has `numberKey` for its first key. -/
def PlainItems : List Tree → Prop
  | [] => True
  | item :: items => Plain item ∧ PlainItems items

/-- No object in members has `numberKey` for its first key. -/
def PlainMembers : List (List Piece × Tree) → Prop
  | [] => True
  | (_, value) :: members => Plain value ∧ PlainMembers members

end

/-! ## Mended trees -/

theorem string?_mend (pieces : List Piece) :
    string? (Quoted.mend pieces) = some (lossyString pieces) := by
  rw [string?, Quoted.characters?_mend, Option.map_some, lossyString]

theorem isNumberObject_mend {members : List (List Piece × Tree)}
    (h : ∀ m ∈ members.head?, lossyString m.1 ≠ numberKey) :
    isNumberObject (mendMembers members) = false := by
  cases members with
  | nil => rfl
  | cons m members =>
    have hkey := h m rfl
    rw [mendMembers_eq, List.map_cons, mendMember, isNumberObject, string?_mend]
    simpa using hkey

mutual

/-- The value of a mended tree is what the tree means. -/
theorem value?_mend : ∀ tree : Tree, tree.Plain → value? tree.mend = some tree.lossy
  | null, _ => rfl
  | bool _, _ => rfl
  | number _, _ => rfl
  | string pieces, _ => by
    rw [mend, value?, string?_mend, Option.map_some, lossy]
  | array items, h => by
    rw [Plain] at h
    rw [mend, value?, items?_mend items h, Option.map_some, lossy]
  | object members, h => by
    rw [Plain] at h
    rw [mend, value?, isNumberObject_mend h.1, members?_mend members h.2, lossy,
      ← Fields.ofPairs_eq_resolved]
    rfl

theorem items?_mend : ∀ items : List Tree, PlainItems items →
    items? (mendItems items) = some (lossyItems items)
  | [], _ => rfl
  | item :: items, h => by
    rw [PlainItems] at h
    rw [mendItems, items?, value?_mend item h.1, items?_mend items h.2, lossyItems]
    rfl

theorem members?_mend : ∀ members : List (List Piece × Tree), PlainMembers members →
    members? (mendMembers members) = some (lossyMembers members)
  | [], _ => rfl
  | (key, value) :: members, h => by
    rw [PlainMembers] at h
    rw [mendMembers, members?, string?_mend, value?_mend value h.1, members?_mend members h.2,
      lossyMembers]
    rfl

end

mutual

/-- A mended tree is as deep as the tree. -/
theorem depth_mend : ∀ tree : Tree, tree.mend.depth = tree.depth
  | null | bool _ | number _ | string _ => rfl
  | array items => by rw [mend, depth, depth, itemsDepth_mend items]
  | object members => by rw [mend, depth, depth, membersDepth_mend members]

theorem itemsDepth_mend : ∀ items : List Tree, itemsDepth (mendItems items) = itemsDepth items
  | [] => rfl
  | item :: items => by
    rw [mendItems, itemsDepth, itemsDepth, depth_mend item, itemsDepth_mend items]

theorem membersDepth_mend : ∀ members : List (List Piece × Tree),
    membersDepth (mendMembers members) = membersDepth members
  | [] => rfl
  | (key, value) :: members => by
    rw [mendMembers, membersDepth, membersDepth, depth_mend value, membersDepth_mend members]

end

end Tree

/-! ## Literals -/

namespace Literal

open QueryForm.Tree (SpelledBy lossyItems lossyMembers)

/-- A text is one value with a tree, and the tree is no deeper than literals may be. -/
def Says (text : String) (tree : Tree) : Prop :=
  SpelledBy tree text.toList ∧ tree.depth ≤ depthLimit

theorem tree?_eq_some_iff {text : String} {tree : Tree} :
    tree? text.toList = some tree ↔ ∃ t, Says text t ∧ tree = t.mend := by
  have hrepair := Tree.ofText?_repair text.toList
  cases hread : Tree.ofText? text.toList with
  | none =>
    rw [hread, Option.map_none] at hrepair
    have hnone : tree? text.toList = none := by
      simp only [tree?, hrepair, ite_self]
    constructor
    · intro h
      rw [hnone] at h
      cases h
    · intro h
      obtain ⟨t, ht, -⟩ := h
      rw [Tree.ofText?_eq_some_iff.2 ht.1] at hread
      cases hread
  | some t =>
    rw [hread, Option.map_some] at hrepair
    have hdepth := Nesting.depth_of_spelledBy (Tree.ofText?_eq_some_iff.1 hrepair)
    have hspelled := Tree.ofText?_eq_some_iff.1 hread
    simp only [tree?, hrepair, hdepth, Tree.depth_mend, Option.ite_none_right_eq_some,
      Option.some.injEq]
    constructor
    · intro h
      obtain ⟨hd, rfl⟩ := h
      exact ⟨t, ⟨hspelled, hd⟩, rfl⟩
    · intro h
      obtain ⟨t', ⟨ht', hd'⟩, rfl⟩ := h
      cases hspelled.unique ht'
      exact ⟨hd', rfl⟩

/-- The value of a literal without objects that stand for numbers is what its tree means. -/
theorem value?_eq_some_iff {text : String} (h : ∀ t, SpelledBy t text.toList → t.Plain)
    {value : Json} : value? text = some value ↔ ∃ t, Says text t ∧ value = t.lossy := by
  rw [value?, Option.bind_eq_bind, Option.bind_eq_some_iff]
  constructor
  · intro hvalue
    obtain ⟨tree, htree, hv⟩ := hvalue
    obtain ⟨t, ht, rfl⟩ := tree?_eq_some_iff.1 htree
    rw [Tree.value?_mend t (h t ht.1)] at hv
    exact ⟨t, ht, (Option.some.inj hv).symm⟩
  · intro hsays
    obtain ⟨t, ht, rfl⟩ := hsays
    exact ⟨t.mend, tree?_eq_some_iff.2 ⟨t, ht, rfl⟩, Tree.value?_mend t (h t ht.1)⟩

theorem spelledBy_brackets : SpelledBy (.array []) "[]".toList :=
  Tree.ofText?_eq_some_iff.1 rfl

/-- The empty text stands for an array that is plain. -/
theorem plain_brackets {text : String} (h : ∀ t, SpelledBy t text.toList → t.Plain) :
    ∀ t, SpelledBy t (if text = "" then "[]" else text).toList → t.Plain := by
  intro t ht
  split at ht
  · rw [ht.unique spelledBy_brackets]
    trivial
  · exact h t ht

theorem items_of_says {text : String} (h : ∀ t, SpelledBy t text.toList → t.Plain)
    {items : List Tree} (hs : Says (if text = "" then "[]" else text) (.array items)) :
    Literal.items text = lossyItems items := by
  have hv := (value?_eq_some_iff (plain_brackets h)).2 ⟨_, hs, rfl⟩
  simp only [Literal.items, hv, Tree.lossy]

theorem items_of_not_says {text : String} (h : ∀ t, SpelledBy t text.toList → t.Plain)
    (hn : ∀ items, ¬ Says (if text = "" then "[]" else text) (.array items)) :
    Literal.items text = [] := by
  simp only [Literal.items]
  split
  · next hv =>
    obtain ⟨t, ht, hlossy⟩ := (value?_eq_some_iff (plain_brackets h)).1 hv
    cases t with
    | array items => exact absurd ht (hn items)
    | null | bool | number | string | object => simp [Tree.lossy] at hlossy
  · rfl

theorem members_of_says {text : String} (h : ∀ t, SpelledBy t text.toList → t.Plain)
    {members : List (List Quoted.Piece × Tree)} (hs : Says text (.object members)) :
    Literal.members text = Fields.resolved (lossyMembers members) := by
  have hv := (value?_eq_some_iff h).2 ⟨_, hs, rfl⟩
  simp only [Literal.members, hv, Tree.lossy]

theorem members_of_not_says {text : String} (h : ∀ t, SpelledBy t text.toList → t.Plain)
    (hn : ∀ members, ¬ Says text (.object members)) : Literal.members text = [] := by
  simp only [Literal.members]
  split
  · next hv =>
    obtain ⟨t, ht, hlossy⟩ := (value?_eq_some_iff h).1 hv
    cases t with
    | object members => exact absurd ht (hn members)
    | null | bool | number | string | array => simp [Tree.lossy] at hlossy
  · rfl

/-- **Conversion.** Where no object of a text has `numberKey` for its first key, conversion to an
array gives what the items of the text mean when the text is an array, the empty text standing for
one without items, and no items otherwise; and conversion to an object gives what its members mean,
each key once, when the text is an object, and no members otherwise. A number means itself, and its
own text is its spelling but for the exponent. -/
theorem convert_reads {text : String} (h : ∀ t, SpelledBy t text.toList → t.Plain) :
    (∀ items, Says (if text = "" then "[]" else text) (.array items) →
      Value.convert .array text = .array (lossyItems items)) ∧
    ((∀ items, ¬ Says (if text = "" then "[]" else text) (.array items)) →
      Value.convert .array text = .array []) ∧
    (∀ members, Says text (.object members) →
      Value.convert .object text = .object (Fields.resolved (lossyMembers members))) ∧
    ((∀ members, ¬ Says text (.object members)) → Value.convert .object text = .object []) ∧
    (∀ n cs, Tree.Spells (.number n) cs → ∃ head power, cs = head ++ power ∧
      Numeral.ExponentSpells n.exponent power ∧
      (Tree.number n).lossy.chars = head ++ Numeral.exponentText n.exponent) := by
  refine ⟨fun items hs => ?_, fun hn => ?_, fun members hs => ?_, fun hn => ?_, ?_⟩
  · rw [Value.convert, items_of_says h hs]
  · rw [Value.convert, items_of_not_says h hn]
  · rw [Value.convert, members_of_says h hs]
  · rw [Value.convert, members_of_not_says h hn]
  · intro n cs hs
    cases hs with
    | number hs =>
      obtain ⟨power, hpower, rfl⟩ := hs
      refine ⟨(if n.negative then ['-'] else []) ++
        ((DigitRun.ofNat n.whole).text ++ Numeral.fractionText n.fraction), power, ?_, hpower, ?_⟩
      · simp only [List.append_assoc]
      · simp only [Tree.lossy, Json.chars, Numeral.text, List.append_assoc]

/-- The sign of a zero is kept, and so are zeros at the end. -/
example : (items "[-0,1.50,1E05]").map Json.text = ["-0", "1.50", "1e+05"] := by
  decide +kernel

theorem says_of_ofText? {cs : List Char} {tree : Tree} (h : Tree.ofText? cs = some tree)
    (hd : tree.depth ≤ depthLimit) : Says (String.ofList cs) tree := by
  rw [Says, String.toList_ofList]
  exact ⟨Tree.ofText?_eq_some_iff.1 h, hd⟩

theorem plain_of_ofText? {cs : List Char} {tree : Tree} (h : Tree.ofText? cs = some tree)
    (hp : tree.Plain) : ∀ t, SpelledBy t (String.ofList cs).toList → t.Plain := by
  intro t ht
  rw [String.toList_ofList] at ht
  rwa [ht.unique (Tree.ofText?_eq_some_iff.1 h)]

/-- The second `a`, which is escaped, takes the place of the first, and its lone half is
replaced. -/
theorem convert_reads_repeated :
    Value.convert .object (String.ofList ['\x7b', '\x22', 'a', '\x22', ':', '1', ',', '\x22', '\\',
      'u', '0', '0', '6', '1', '\x22', ':', '\x22', '\\', 'u', 'd', '8', '0', '0', '\x22', '\x7d']) =
    .object [("a", .string "\uFFFD")] := by
  refine (convert_reads ?_).2.2.1
    [([.char 'a'], .number (.ofInteger false 1)), ([.char 'a'], .string [.high 0])] ?_
  · refine plain_of_ofText? rfl ?_
    simp [Tree.Plain, Tree.PlainMembers, Tree.lossyString, Quoted.lossy, Tree.numberKey]
  · exact says_of_ofText? rfl (by decide)

end Literal

end QueryForm
