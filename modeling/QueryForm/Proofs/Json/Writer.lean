/-
The compact text of a value is well-formed: it spells the tree that says the
same (`Tree.ofJson`), with every string character by character. As no text
spells two trees, values with the same text are the same
(`text_injective`).
-/
import QueryForm.Json.Writer
import QueryForm.Proofs.Json.Reader

namespace QueryForm

open Quoted (Piece)

namespace Tree

/-- The pieces of a string that is written out. -/
def piecesOf (s : String) : List Piece :=
  s.toList.map .char

mutual

/-- The tree that says what a value is. -/
def ofJson : Json → Tree
  | .null => null
  | .bool b => bool b
  | .number n => number n
  | .string s => string (piecesOf s)
  | .array items => array (ofItems items)
  | .object members => object (ofMembers members)

/-- The trees of items. -/
def ofItems : List Json → List Tree
  | [] => []
  | item :: items => ofJson item :: ofItems items

/-- The members of an object, keys and trees. -/
def ofMembers : List (String × Json) → List (List Piece × Tree)
  | [] => []
  | (k, v) :: members => (piecesOf k, ofJson v) :: ofMembers members

end

theorem piecesOf_injective {s t : String} (h : piecesOf s = piecesOf t) : s = t := by
  have hchars := congrArg Quoted.characters? h
  simp only [piecesOf, Quoted.characters?_char, Option.some.injEq] at hchars
  exact String.toList_inj.1 hchars

mutual

theorem ofJson_injective : ∀ a b : Json, ofJson a = ofJson b → a = b
  | .null, b, h => by cases b <;> simp [ofJson] at h ⊢
  | .bool a, b, h => by cases b <;> simp [ofJson] at h ⊢; exact h
  | .number a, b, h => by cases b <;> simp [ofJson] at h ⊢; exact h
  | .string a, b, h => by
    cases b <;> simp [ofJson] at h ⊢
    exact piecesOf_injective h
  | .array as, b, h => by
    cases b <;> simp [ofJson] at h ⊢
    exact ofItems_injective as _ h
  | .object as, b, h => by
    cases b <;> simp [ofJson] at h ⊢
    exact ofMembers_injective as _ h

theorem ofItems_injective : ∀ as bs : List Json, ofItems as = ofItems bs → as = bs
  | [], [], _ => rfl
  | [], _ :: _, h => nomatch h
  | _ :: _, [], h => nomatch h
  | a :: as, b :: bs, h => by
    simp only [ofItems, List.cons.injEq] at h
    rw [ofJson_injective a b h.1, ofItems_injective as bs h.2]

theorem ofMembers_injective : ∀ as bs : List (String × Json), ofMembers as = ofMembers bs → as = bs
  | [], [], _ => rfl
  | [], _ :: _, h => nomatch h
  | _ :: _, [], h => nomatch h
  | (k, a) :: as, (l, b) :: bs, h => by
    simp only [ofMembers, List.cons.injEq, Prod.mk.injEq] at h
    rw [piecesOf_injective h.1.1, ofJson_injective a b h.1.2, ofMembers_injective as bs h.2]

end

/-! ## What is written is well-formed -/

theorem spells_quoted (cs : List Char) :
    Quoted.Spells (cs.map .char) (cs.flatMap Quoted.escape) := by
  obtain ⟨used, hs, hcs⟩ := Quoted.spells_of_scan? (Quoted.scan?_quoted cs [])
  rwa [List.append_cancel_right hcs]

theorem blanks_nil : Blanks [] := by
  simp [Blanks]

section

variable {α : Type} {E : α → List Char → Prop} {a : α} {as : List α} {cs ds : List Char}

/-- Elements are written without blanks. -/
theorem Separated.single (h : E a cs) : Separated E [a] cs := by
  have := Separated.one blanks_nil h blanks_nil
  simpa using this

theorem Separated.next (h : E a cs) (hs : Separated E as ds) :
    Separated E (a :: as) (cs ++ ',' :: ds) := by
  have := Separated.cons blanks_nil h blanks_nil hs
  simpa using this

end

theorem member_written {E : Tree → List Char → Prop} {tree : Tree} {vs : List Char} (k : String)
    (h : E tree vs) : Member E (piecesOf k, tree) (Quoted.quote k.toList ++ ':' :: vs) := by
  have := Member.mk (spells_quoted k.toList) blanks_nil blanks_nil h
  simpa [Quoted.quote, piecesOf] using this

mutual

/-- **What is written is well-formed.** -/
theorem spells_chars : ∀ value : Json, Spells (ofJson value) value.chars
  | .null => .null
  | .bool true => .true
  | .bool false => .false
  | .number n => .number n.spells_text
  | .string s => .string (spells_quoted s.toList)
  | .array [] => .array (.none blanks_nil)
  | .array (item :: items) => by
    obtain ⟨cs, hs, hcs⟩ := separated_items (item :: items) (List.cons_ne_nil _ _)
    rw [Json.chars, hcs]
    exact .array (.some hs)
  | .object [] => .object (.none blanks_nil)
  | .object (m :: members) => by
    obtain ⟨cs, hs, hcs⟩ := separated_members (m :: members) (List.cons_ne_nil _ _)
    rw [Json.chars, hcs]
    exact .object (.some hs)

theorem separated_items : ∀ items : List Json, items ≠ [] → ∃ cs,
    Separated Spells (ofItems items) cs ∧ Json.itemsChars items = cs ++ [']']
  | [], h => absurd rfl h
  | [item], _ => ⟨_, .single (spells_chars item), rfl⟩
  | item :: next :: items, _ => by
    obtain ⟨cs, hs, hcs⟩ := separated_items (next :: items) (List.cons_ne_nil _ _)
    refine ⟨_, .next (spells_chars item) hs, ?_⟩
    rw [Json.itemsChars] at hcs ⊢
    rw [Json.nextItems, hcs]
    simp

theorem separated_members : ∀ members : List (String × Json), members ≠ [] → ∃ cs,
    Separated (Member Spells) (ofMembers members) cs ∧
      Json.membersChars members = cs ++ ['\x7d']
  | [], h => absurd rfl h
  | [(k, v)], _ =>
    ⟨_, .single (member_written k (spells_chars v)), by simp [Json.membersChars, Json.nextMembers]⟩
  | (k, v) :: (l, w) :: members, _ => by
    obtain ⟨cs, hs, hcs⟩ := separated_members ((l, w) :: members) (List.cons_ne_nil _ _)
    refine ⟨_, .next (member_written k (spells_chars v)) hs, ?_⟩
    rw [Json.membersChars] at hcs ⊢
    rw [Json.nextMembers, hcs]
    simp

end

theorem Spells.spelledBy {tree : Tree} {cs : List Char} (h : Spells tree cs) : SpelledBy tree cs :=
  ⟨[], cs, [], blanks_nil, h, blanks_nil, by simp⟩

end Tree

namespace Json

theorem spelledBy_chars (value : Json) : Tree.SpelledBy (.ofJson value) value.chars :=
  (Tree.spells_chars value).spelledBy

/-- **Values are known by their texts.** -/
theorem chars_injective {a b : Json} (h : a.chars = b.chars) : a = b := by
  have ha := spelledBy_chars a
  rw [h] at ha
  exact Tree.ofJson_injective a b (ha.unique (spelledBy_chars b))

end Json

end QueryForm
