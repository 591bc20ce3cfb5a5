/-
The grammar of JSON text: which texts spell which trees.

It says nothing of how a text is read. Numerals and pieces of strings are
spelled as JSON lets them be, with every liberty it gives (the letter
and the sign of an exponent, the escapes of a character), and a tree keeps
what a text says up to those liberties. A container holds elements with
commas between them and blanks around each; `Separated` and `Contents` say
so for elements of any kind, so that arrays and objects share their laws.
-/
import QueryForm.Json.Reader

namespace QueryForm

/-! ## Numerals -/

namespace Numeral

/-- The sign of an exponent; a plus sign may be left out. -/
inductive SignSpells : Bool → List Char → Prop
  | minus : SignSpells true ['-']
  | plus : SignSpells false ['+']
  | none : SignSpells false []

/-- An exponent, which may be missing; its letter is of either case. -/
inductive ExponentSpells : Option (Bool × DigitRun) → List Char → Prop
  | none : ExponentSpells none []
  | lower {negative sign run} : SignSpells negative sign →
      ExponentSpells (some (negative, run)) ('e' :: (sign ++ run.text))
  | upper {negative sign run} : SignSpells negative sign →
      ExponentSpells (some (negative, run)) ('E' :: (sign ++ run.text))

/-- A text spells a numeral: a minus sign if it has one, the whole part without leading zeros, the
fraction digit by digit, and the exponent in any spelling. -/
def Spells (n : Numeral) (cs : List Char) : Prop :=
  ∃ power, ExponentSpells n.exponent power ∧
    cs = (if n.negative then ['-'] else []) ++
      ((DigitRun.ofNat n.whole).text ++ (fractionText n.fraction ++ power))

end Numeral

/-! ## Strings -/

namespace Quoted

/-- A text spells one piece of a string: a character that is no quote, backslash or control
character by itself, or an escape. -/
inductive PieceSpells : Piece → List Char → Prop
  | plain {c} : c ≠ '\x22' → c ≠ '\\' → ¬ c.toNat < 0x20 → PieceSpells (.char c) [c]
  | short {e c} : shortEscape? e = some c → PieceSpells (.char c) ['\\', e]
  | unit {a b c d unit} : Units.ofHex? a b c d = some unit →
      PieceSpells (.ofUnit unit) ['\\', 'u', a, b, c, d]

/-- A text between quotes spells pieces. -/
inductive Spells : List Piece → List Char → Prop
  | nil : Spells [] []
  | cons {p ps cs ds} : PieceSpells p cs → Spells ps ds → Spells (p :: ps) (cs ++ ds)

end Quoted

namespace Tree

open Quoted (Piece)

/-! ## Containers -/

/-- A text of blanks. -/
def Blanks (cs : List Char) : Prop :=
  ∀ c ∈ cs, isSpace c = true

/-- Elements with commas between them and blanks around each; there is at least one. -/
inductive Separated {α : Type} (Element : α → List Char → Prop) : List α → List Char → Prop
  | one {a before cs after} : Blanks before → Element a cs → Blanks after →
      Separated Element [a] (before ++ (cs ++ after))
  | cons {a before cs after as ds} : Blanks before → Element a cs → Blanks after →
      Separated Element as ds →
      Separated Element (a :: as) (before ++ (cs ++ (after ++ ',' :: ds)))

/-- What stands between the brackets of a container. -/
inductive Contents {α : Type} (Element : α → List Char → Prop) : List α → List Char → Prop
  | none {cs} : Blanks cs → Contents Element [] cs
  | some {as cs} : Separated Element as cs → Contents Element as cs

/-- A quoted key, a colon and a value, blanks between them. -/
inductive Member (Value : Tree → List Char → Prop) : List Piece × Tree → List Char → Prop
  | mk {key tree ks before after vs} : Quoted.Spells key ks → Blanks before → Blanks after →
      Value tree vs →
      Member Value (key, tree) ('\x22' :: (ks ++ '\x22' :: (before ++ ':' :: (after ++ vs))))

/-! ## Values -/

/-- A text spells a value, with no blanks around it. -/
inductive Spells : Tree → List Char → Prop
  | null : Spells .null ['n', 'u', 'l', 'l']
  | true : Spells (.bool true) ['t', 'r', 'u', 'e']
  | false : Spells (.bool false) ['f', 'a', 'l', 's', 'e']
  | number {n cs} : Numeral.Spells n cs → Spells (.number n) cs
  | string {ps cs} : Quoted.Spells ps cs → Spells (.string ps) ('\x22' :: (cs ++ ['\x22']))
  | array {items cs} : Contents Spells items cs → Spells (.array items) ('[' :: (cs ++ [']']))
  | object {members cs} : Contents (Member Spells) members cs →
      Spells (.object members) ('\x7b' :: (cs ++ ['\x7d']))

/-- A text is one value, blanks around it apart. -/
def SpelledBy (tree : Tree) (cs : List Char) : Prop :=
  ∃ before used after, Blanks before ∧ Spells tree used ∧ Blanks after ∧
    cs = before ++ (used ++ after)

/-! ## Laws of containers -/

section

variable {α : Type} {E F : α → List Char → Prop} {as : List α} {cs : List Char}

/-- Commas alone make a text longer than the list of its elements, but for one character. -/
theorem Separated.length_le (h : Separated E as cs) : as.length ≤ cs.length + 1 := by
  induction h with
  | one => simp
  | cons => simp; omega

theorem Separated.imp (h : Separated E as cs) (step : ∀ a ∈ as, ∀ cs, E a cs → F a cs) :
    Separated F as cs := by
  induction h with
  | one before ha after => exact .one before (step _ (by simp) _ ha) after
  | cons before ha after _ ih =>
    exact .cons before (step _ (by simp) _ ha) after
      (ih fun a hm => step a (List.mem_cons_of_mem _ hm))

theorem Contents.imp (h : Contents E as cs) (step : ∀ a ∈ as, ∀ cs, E a cs → F a cs) :
    Contents F as cs := by
  cases h with
  | none hb => exact .none hb
  | some h => exact .some (h.imp step)

theorem Separated.forall (h : Separated E as cs) {P : α → Prop}
    (step : ∀ a cs, E a cs → P a) : ∀ a ∈ as, P a := by
  induction h with
  | one _ ha _ =>
    intro a hm
    rw [List.mem_singleton.1 hm]
    exact step _ _ ha
  | cons _ ha _ _ ih =>
    intro a hm
    rcases List.mem_cons.1 hm with rfl | hm
    · exact step _ _ ha
    · exact ih a hm

theorem Contents.forall (h : Contents E as cs) {P : α → Prop}
    (step : ∀ a cs, E a cs → P a) : ∀ a ∈ as, P a := by
  cases h with
  | none => simp
  | some h => exact h.forall step

end

/-! ## Depth -/

theorem depth_le_itemsDepth {t : Tree} {items : List Tree} (h : t ∈ items) :
    t.depth ≤ itemsDepth items := by
  induction items with
  | nil => simp at h
  | cons item items ih =>
    simp only [itemsDepth]
    rcases List.mem_cons.1 h with rfl | h
    · exact Nat.le_max_left _ _
    · exact Nat.le_trans (ih h) (Nat.le_max_right _ _)

theorem itemsDepth_le {n : Nat} {items : List Tree} (h : ∀ t ∈ items, t.depth ≤ n) :
    itemsDepth items ≤ n := by
  induction items with
  | nil => exact Nat.zero_le n
  | cons item items ih =>
    simp only [itemsDepth]
    exact Nat.max_le.2 ⟨h _ (by simp), ih fun t ht => h t (List.mem_cons_of_mem _ ht)⟩

/-- The depth of members is that of their values. -/
theorem membersDepth_eq (members : List (List Piece × Tree)) :
    membersDepth members = itemsDepth (members.map (·.2)) := by
  induction members with
  | nil => rfl
  | cons m members ih =>
    obtain ⟨key, value⟩ := m
    simp only [membersDepth, List.map_cons, itemsDepth, ih]

theorem depth_le_membersDepth {m : List Piece × Tree} {members : List (List Piece × Tree)}
    (h : m ∈ members) : m.2.depth ≤ membersDepth members := by
  rw [membersDepth_eq]
  exact depth_le_itemsDepth (List.mem_map_of_mem h)

/-! ## Induction -/

theorem Member.imp {E F : Tree → List Char → Prop} {m : List Piece × Tree} {cs : List Char}
    (h : Member E m cs) (step : ∀ cs, E m.2 cs → F m.2 cs) : Member F m cs := by
  cases h with
  | mk hk before after hv => exact .mk hk before after (step _ hv)

/-- **Induction over values and their texts.** What holds of a container's text may be shown from
its holding of what is in the container. -/
theorem Spells.induction {P : Tree → List Char → Prop} (null : P .null ['n', 'u', 'l', 'l'])
    (true : P (.bool .true) ['t', 'r', 'u', 'e'])
    (false : P (.bool .false) ['f', 'a', 'l', 's', 'e'])
    (number : ∀ n cs, Numeral.Spells n cs → P (.number n) cs)
    (string : ∀ ps cs, Quoted.Spells ps cs → P (.string ps) ('\x22' :: (cs ++ ['\x22'])))
    (array : ∀ items cs, Contents (fun t cs => Spells t cs ∧ P t cs) items cs →
      P (.array items) ('[' :: (cs ++ [']'])))
    (object : ∀ members cs, Contents (Member fun t cs => Spells t cs ∧ P t cs) members cs →
      P (.object members) ('\x7b' :: (cs ++ ['\x7d'])))
    {tree : Tree} {cs : List Char} (h : Spells tree cs) : P tree cs := by
  -- The containers inside a container are less deep.
  suffices ∀ n tree cs, tree.depth < n → Spells tree cs → P tree cs from
    this (tree.depth + 1) tree cs (Nat.lt_succ_self _) h
  intro n
  induction n with
  | zero => exact fun tree cs hn => absurd hn (Nat.not_lt_zero _)
  | succ n ih =>
    intro tree cs hn h
    cases h with
    | null => exact null
    | true => exact true
    | false => exact false
    | number h => exact number _ _ h
    | string h => exact string _ _ h
    | array h =>
      simp only [depth] at hn
      refine array _ _ (h.imp fun t ht cs hs => ⟨hs, ih t cs ?_ hs⟩)
      have := depth_le_itemsDepth ht
      omega
    | object h =>
      simp only [depth] at hn
      refine object _ _ (h.imp fun m hm cs hs => hs.imp fun cs hs => ⟨hs, ih m.2 cs ?_ hs⟩)
      have := depth_le_membersDepth hm
      omega

end Tree

end QueryForm
