/-
The reader against the grammar: a text is read as a tree exactly when it
spells that tree, the tree being no deeper than the reader's limit.

The reader passes blanks before a value and leaves those after it, so what
it is said to read (`Reads`) is a spelling with blanks in front, and what it
has read (`Has`) is told back in the same shape. Arrays and objects share
one loop over elements; its two laws (`elements_reads`, `elements_has`) ask
of the elements what is being shown of values, and an induction closes each
direction: over the grammar for `value_reads`, over the limit for
`value_has`. `read_eq_ok_iff` puts them together for whole texts.
-/
import Mathlib.Data.List.TakeWhile
import QueryForm.Proofs.Json.Numeral
import QueryForm.Proofs.Json.Quoted

namespace QueryForm.Tree

open Quoted (Piece)
open Numeral (Stops)

variable {α : Type}

/-! ## Blanks -/

theorem skip_blanks {before : List Char} (h : Blanks before) (cs : List Char) :
    skip (before ++ cs) = skip cs :=
  List.dropWhile_append_of_pos h

theorem skip_cons {c : Char} (h : isSpace c = false) (cs : List Char) : skip (c :: cs) = c :: cs :=
  List.dropWhile_cons_of_neg (by simp [h])

theorem skip_append {before : List Char} (hb : Blanks before) {c : Char} (h : isSpace c = false)
    (cs : List Char) : skip (before ++ c :: cs) = c :: cs := by
  rw [skip_blanks hb, skip_cons h]

/-- A text is some blanks and what is left when they are passed. -/
theorem blanks_skip (cs : List Char) : ∃ before, Blanks before ∧ cs = before ++ skip cs := by
  refine ⟨cs.takeWhile isSpace, fun c hc => ?_, List.takeWhile_append_dropWhile.symm⟩
  exact List.mem_takeWhile_imp hc

theorem skip_eq_nil {cs : List Char} : skip cs = [] ↔ Blanks cs :=
  List.dropWhile_eq_nil_iff

theorem stops_blanks {after : List Char} (h : Blanks after) {c : Char}
    (hc : c = ',' ∨ c = ']' ∨ c = '\x7d') (cs : List Char) : Stops (after ++ c :: cs) := by
  cases after with
  | nil => exact .cons (.inr hc) cs
  | cons b after => exact .cons (.inl (h b (by simp))) _

theorem Blanks.stops {after : List Char} (h : Blanks after) : Stops after := by
  cases after with
  | nil => exact .nil
  | cons b after => exact .cons (.inl (h b (by simp))) _

/-! ## Everything spelled is read -/

/-- A reader reads a text as `a`, passing blanks in front, wherever what follows makes no number
longer. -/
def Reads (read : List Char → Reading α) (a : α) (cs : List Char) : Prop :=
  ∀ before rest, Blanks before → Stops rest → read (before ++ (cs ++ rest)) = .ok (a, rest)

/-- A text begins like an element: with no blank, and not with a bracket that closes. -/
def Opens (cs : List Char) : Prop :=
  ∃ c ds, cs = c :: ds ∧ isSpace c = false ∧ c ≠ ']' ∧ c ≠ '\x7d'

section

variable {read : List Char → Reading α} {close : Char} {as : List α} {cs : List Char}

theorem elements_reads (hclose : close = ']' ∨ close = '\x7d') (h : Separated (Reads read) as cs)
    (bound : List Char) (hb : as.length ≤ bound.length) (rest : List Char) :
    elements read close bound (cs ++ close :: rest) = .ok (as, rest) := by
  have hcomma : close ≠ ',' := by rcases hclose with rfl | rfl <;> decide
  have hspace : isSpace close = false := by rcases hclose with rfl | rfl <;> rfl
  induction h generalizing bound with
  | @one a before cs after before_blank ha after_blank =>
    obtain ⟨b, bound, rfl⟩ := List.exists_cons_of_length_pos hb
    have hread := ha before (after ++ close :: rest) before_blank
      (stops_blanks after_blank (.inr hclose) rest)
    simp only [List.append_assoc, elements, hread, skip_append after_blank hspace, if_neg hcomma,
      if_true]
  | @cons a before cs after as ds before_blank ha after_blank _ ih =>
    obtain ⟨b, bound, rfl⟩ := List.exists_cons_of_length_pos (Nat.lt_of_lt_of_le (by simp) hb)
    have hread := ha before (after ++ ',' :: (ds ++ close :: rest)) before_blank
      (stops_blanks after_blank (.inl rfl) _)
    have hrest := ih bound (by simpa using hb)
    have hspace : isSpace ',' = false := rfl
    simp only [List.append_assoc, List.cons_append, elements, hread,
      skip_append after_blank hspace, if_true, hrest, Except.map]

theorem Separated.opens {E : α → List Char → Prop} (h : Separated E as cs)
    (hopens : ∀ a cs, E a cs → Opens cs) (rest : List Char) :
    ∃ c ds, skip (cs ++ rest) = c :: ds ∧ c ≠ ']' ∧ c ≠ '\x7d' := by
  have key : ∀ {a before cs} (tail : List Char), Blanks before → E a cs →
      ∃ c ds, skip (before ++ (cs ++ tail)) = c :: ds ∧ c ≠ ']' ∧ c ≠ '\x7d' := by
    intro a before cs tail hb ha
    obtain ⟨c, ds, rfl, hc, hn⟩ := hopens a cs ha
    exact ⟨c, ds ++ tail, by rw [List.cons_append, skip_append hb hc], hn⟩
  cases h with
  | one hb ha _ =>
    simp only [List.append_assoc]
    exact key _ hb ha
  | cons hb ha _ _ =>
    simp only [List.append_assoc]
    exact key _ hb ha

/-- The contents of a container are read up to the bracket that closes it. -/
theorem contents_reads (hclose : close = ']' ∨ close = '\x7d')
    (h : Contents (fun a cs => Reads read a cs ∧ Opens cs) as cs) (rest : List Char) :
    contents read close (cs ++ close :: rest) = .ok (as, rest) := by
  cases h with
  | none hb =>
    have hspace : isSpace close = false := by rcases hclose with rfl | rfl <;> rfl
    rw [contents, skip_append hb hspace]
    exact if_pos rfl
  | some h =>
    obtain ⟨c, ds, hskip, hc⟩ := h.opens (fun _ _ ha => ha.2) (close :: rest)
    have hne : c ≠ close := by rcases hclose with rfl | rfl; exacts [hc.1, hc.2]
    have hlen := h.length_le
    have helements := elements_reads hclose (h.imp fun _ _ _ ha => ha.1) (cs ++ close :: rest)
      (by simp; omega) rest
    simp only [contents, hskip, if_neg hne, helements]

end

theorem Member.opens {Value : Tree → List Char → Prop} {m : List Piece × Tree} {cs : List Char}
    (h : Member Value m cs) : Opens cs := by
  cases h with
  | mk => exact ⟨'\x22', _, rfl, rfl, by decide, by decide⟩

theorem member_reads {read : List Char → Reading Tree} {m : List Piece × Tree} {cs : List Char}
    (h : Member (Reads read) m cs) : Reads (member read) m cs := by
  cases h with
  | @mk key tree ks before after vs hkey before_blank after_blank hv =>
    intro blanks rest hb hr
    have hquote : isSpace '\x22' = false := rfl
    have hcolon : isSpace ':' = false := rfl
    have hscan := Quoted.scan?_spells hkey (before ++ ':' :: (after ++ (vs ++ rest)))
    have hread := hv after rest after_blank hr
    simp only [List.cons_append, List.append_assoc, member, skip_append hb hquote, hscan,
      skip_append before_blank hcolon, hread, Except.map]

theorem word_reads (tree : Tree) (ws rest : List Char) :
    word tree ws (ws ++ rest) = .ok (tree, rest) := by
  induction ws with
  | nil => rfl
  | cons w ws ih => simp only [List.cons_append, word, if_true, ih]

theorem valueWith_blanks (inner : Option (List Char → Reading Tree)) {before : List Char}
    (h : Blanks before) (cs : List Char) :
    valueWith inner (before ++ cs) = valueWith inner cs := by
  simp only [valueWith, skip_blanks h]

/-- What can come first in a numeral comes first in no other value. -/
theorem numeral_head {c : Char} (h : c = '-' ∨ ∃ d : Digit, c = d.char) :
    isSpace c = false ∧ c ≠ ']' ∧ c ≠ '\x7d' ∧ c ≠ 'n' ∧ c ≠ 't' ∧ c ≠ 'f' ∧ c ≠ '\x22' ∧
      c ≠ '[' ∧ c ≠ '\x7b' := by
  rcases h with rfl | ⟨d, rfl⟩
  · decide
  · revert d
    decide

theorem valueWith_number (inner : Option (List Char → Reading Tree)) {c : Char}
    (h : c = '-' ∨ ∃ d : Digit, c = d.char) (cs : List Char) :
    valueWith inner (c :: cs) =
      (ofOption (Numeral.scan? (c :: cs))).map fun (n, rest) => (.number n, rest) := by
  obtain ⟨hspace, -, -, hn, ht, hf, hq, ha, ho⟩ := numeral_head h
  rw [valueWith, skip_cons hspace]
  split <;> simp_all

theorem Spells.opens {tree : Tree} {cs : List Char} (h : Spells tree cs) : Opens cs := by
  cases h with
  | null | true | false | string | array | object =>
    exact ⟨_, _, rfl, rfl, by decide, by decide⟩
  | number h =>
    obtain ⟨c, ds, rfl, hc⟩ := h.head
    obtain ⟨hspace, hb, hB, -⟩ := numeral_head hc
    exact ⟨c, ds, rfl, hspace, hb, hB⟩

/-- The reader for the values inside a container, if one may be opened. -/
def inside : (limit : Nat) → Option (List Char → Reading Tree)
  | 0 => none
  | limit + 1 => some (value limit)

theorem value_eq (limit : Nat) : value limit = valueWith (inside limit) := by
  cases limit <;> rfl

/-- A value is read where it is spelled when it is read at the start of a text. -/
theorem value_reads_of {limit : Nat} {tree : Tree} {cs : List Char}
    (h : ∀ rest, Stops rest → valueWith (inside limit) (cs ++ rest) = .ok (tree, rest)) :
    Reads (value limit) tree cs := by
  intro before rest hb hr
  rw [value_eq, valueWith_blanks _ hb]
  exact h rest hr

/-- **A spelling is read.** A value is read wherever it is spelled, by a reader that may open as
many containers as the value is deep. -/
theorem value_reads {tree : Tree} {cs : List Char} (h : Spells tree cs) :
    ∀ {limit}, tree.depth ≤ limit → Reads (value limit) tree cs := by
  refine Spells.induction (P := fun tree cs => ∀ {limit}, tree.depth ≤ limit →
    Reads (value limit) tree cs) ?null ?true ?false ?number ?string ?array ?object h
  case null => exact fun _ => value_reads_of fun rest _ => word_reads _ ['u', 'l', 'l'] rest
  case true => exact fun _ => value_reads_of fun rest _ => word_reads _ ['r', 'u', 'e'] rest
  case false => exact fun _ => value_reads_of fun rest _ => word_reads _ ['a', 'l', 's', 'e'] rest
  case number =>
    intro n cs hn limit _
    refine value_reads_of fun rest hr => ?_
    obtain ⟨c, ds, rfl, hc⟩ := hn.head
    have hscan := Numeral.scan?_spells hn hr
    rw [List.cons_append] at hscan ⊢
    rw [valueWith_number _ hc, hscan]
    rfl
  case string =>
    intro ps cs hs limit _
    refine value_reads_of fun rest _ => ?_
    have hquote : isSpace '\x22' = false := rfl
    simp only [List.cons_append, List.append_assoc, List.nil_append, valueWith, skip_cons hquote,
      Quoted.scan?_spells hs rest, ofOption, Except.map]
  case array =>
    intro items cs hc limit hl
    simp only [depth] at hl
    obtain ⟨limit, rfl⟩ : ∃ l, limit = l + 1 := ⟨limit - 1, by omega⟩
    refine value_reads_of fun rest _ => ?_
    have hitems : Contents (fun t cs => Reads (value limit) t cs ∧ Opens cs) items cs :=
      hc.imp fun t ht cs hs => by
        have := depth_le_itemsDepth ht
        exact ⟨hs.2 (by omega), hs.1.opens⟩
    have hbracket : isSpace '[' = false := rfl
    simp only [List.cons_append, List.append_assoc, List.nil_append, valueWith, inside,
      skip_cons hbracket, array?, contents_reads (.inl rfl) hitems rest, Except.map]
  case object =>
    intro members cs hc limit hl
    simp only [depth] at hl
    obtain ⟨limit, rfl⟩ : ∃ l, limit = l + 1 := ⟨limit - 1, by omega⟩
    refine value_reads_of fun rest _ => ?_
    have hmembers :
        Contents (fun m cs => Reads (member (value limit)) m cs ∧ Opens cs) members cs :=
      hc.imp fun m hm cs hs => by
        have := depth_le_membersDepth hm
        exact ⟨member_reads (hs.imp fun cs hv => hv.2 (by omega)), hs.opens⟩
    have hbrace : isSpace '\x7b' = false := rfl
    simp only [List.cons_append, List.append_assoc, List.nil_append, valueWith, inside,
      skip_cons hbrace, object?, contents_reads (.inr rfl) hmembers rest, Except.map]

/-! ## Everything read is spelled -/

/-- What a reader has read: some blanks, then a spelling of the result, then what it left. -/
def Has (E : α → List Char → Prop) (cs : List Char) (a : α) (rest : List Char) : Prop :=
  ∃ before used, Blanks before ∧ E a used ∧ cs = before ++ (used ++ rest)

theorem map_eq_ok {β ε : Type} {x : Except ε α} {f : α → β} {b : β} :
    x.map f = .ok b ↔ ∃ a, x = .ok a ∧ f a = b := by
  cases x <;> simp [Except.map]

theorem ofOption_eq_ok {x : Option (α × List Char)} {r : α × List Char} :
    ofOption x = .ok r ↔ x = some r := by
  cases x <;> simp [ofOption]

section

variable {read : List Char → Reading α} {E : α → List Char → Prop} {close : Char}

theorem elements_has (hread : ∀ {cs a rest}, read cs = .ok (a, rest) → Has E cs a rest)
    {bound cs rest : List Char} {as : List α}
    (h : elements read close bound cs = .ok (as, rest)) :
    ∃ inner, Separated E as inner ∧ cs = inner ++ close :: rest := by
  induction bound generalizing cs as rest with
  | nil => cases h
  | cons b bound ih =>
    simp only [elements] at h
    split at h
    · cases h
    next a tail ha =>
    obtain ⟨before, used, hb, hE, rfl⟩ := hread ha
    obtain ⟨after, hafter, htail⟩ := blanks_skip tail
    split at h
    · cases h
    next c tail' hskip =>
    rw [hskip] at htail
    subst htail
    split at h
    · -- A comma: the elements after it are read in turn.
      next hcomma =>
      subst hcomma
      obtain ⟨⟨as', rest'⟩, hrest, heq⟩ := map_eq_ok.1 h
      cases heq
      obtain ⟨inner, hs, rfl⟩ := ih hrest
      exact ⟨_, .cons hb hE hafter hs, by simp⟩
    split at h
    · next hclose =>
      subst hclose
      cases h
      exact ⟨_, .one hb hE hafter, by simp⟩
    · cases h

theorem contents_has (hread : ∀ {cs a rest}, read cs = .ok (a, rest) → Has E cs a rest)
    {cs rest : List Char} {as : List α} (h : contents read close cs = .ok (as, rest)) :
    ∃ inner, Contents E as inner ∧ cs = inner ++ close :: rest := by
  obtain ⟨before, hb, hcs⟩ := blanks_skip cs
  simp only [contents] at h
  split at h
  · cases h
  next c tail hskip =>
  split at h
  · next hclose =>
    subst hclose
    cases h
    rw [hskip] at hcs
    exact ⟨before, .none hb, hcs⟩
  · obtain ⟨inner, hs, hinner⟩ := elements_has hread h
    exact ⟨inner, .some hs, hinner⟩

end

theorem member_has {read : List Char → Reading Tree} {E : Tree → List Char → Prop}
    (hread : ∀ {cs t rest}, read cs = .ok (t, rest) → Has E cs t rest) {cs rest : List Char}
    {m : List Piece × Tree} (h : member read cs = .ok (m, rest)) : Has (Member E) cs m rest := by
  obtain ⟨blanks, hblanks, hcs⟩ := blanks_skip cs
  simp only [member] at h
  split at h
  next tail hskip =>
    split at h
    · cases h
    next key tail₁ hkey =>
    obtain ⟨ks, hks, rfl⟩ := Quoted.spells_of_scan? hkey
    obtain ⟨before, hbefore, htail⟩ := blanks_skip tail₁
    split at h
    next tail₂ hcolon =>
      obtain ⟨⟨tree, rest'⟩, hvalue, heq⟩ := map_eq_ok.1 h
      cases heq
      obtain ⟨after, vs, hafter, hE, rfl⟩ := hread hvalue
      refine ⟨blanks, _, hblanks, .mk hks hbefore hafter hE, ?_⟩
      rw [hcs, hskip, htail, hcolon]
      simp
    next => cases h
  next => cases h

theorem word_has {tree t : Tree} {ws cs rest : List Char} (h : word tree ws cs = .ok (t, rest)) :
    t = tree ∧ cs = ws ++ rest := by
  induction ws generalizing cs with
  | nil => cases h; exact ⟨rfl, rfl⟩
  | cons w ws ih =>
    cases cs with
    | nil => cases h
    | cons c cs =>
      simp only [word] at h
      split at h
      · next hc =>
        subst hc
        obtain ⟨rfl, rfl⟩ := ih h
        exact ⟨rfl, rfl⟩
      · cases h

/-- A value that is no deeper than a limit, where it is spelled. -/
def SpellsWithin (limit : Nat) (tree : Tree) (cs : List Char) : Prop :=
  Spells tree cs ∧ tree.depth ≤ limit

theorem itemsDepth_le_of_contents {limit : Nat} {items : List Tree} {cs : List Char}
    (h : Contents (SpellsWithin limit) items cs) : itemsDepth items ≤ limit :=
  itemsDepth_le (h.forall fun _ _ hs => hs.2)

theorem membersDepth_le_of_contents {limit : Nat} {members : List (List Piece × Tree)}
    {cs : List Char} (h : Contents (Member (SpellsWithin limit)) members cs) :
    membersDepth members ≤ limit := by
  rw [membersDepth_eq]
  refine itemsDepth_le fun t ht => ?_
  obtain ⟨m, hm, rfl⟩ := List.mem_map.1 ht
  refine h.forall (P := fun m => m.2.depth ≤ limit) (fun m cs hs => ?_) m hm
  cases hs with
  | mk _ _ _ hv => exact hv.2

/-- What is read with a reader for the values inside was spelled, when what those read was. -/
theorem valueWith_has {inner : Option (List Char → Reading Tree)} {limit : Nat}
    (ih : ∀ read, inner = some read → ∃ l, limit = l + 1 ∧ ∀ {cs t rest},
      read cs = .ok (t, rest) → Has (SpellsWithin l) cs t rest)
    {cs rest : List Char} {tree : Tree} (h : valueWith inner cs = .ok (tree, rest)) :
    Has (SpellsWithin limit) cs tree rest := by
  obtain ⟨before, hb, hcs⟩ := blanks_skip cs
  have done : ∀ {used}, Spells tree used → tree.depth ≤ limit → skip cs = used ++ rest →
      Has (SpellsWithin limit) cs tree rest := fun hs hd hskip =>
    ⟨before, _, hb, ⟨hs, hd⟩, by rw [← hskip]; exact hcs⟩
  simp only [valueWith] at h
  split at h
  next => cases h
  next tail hskip =>
    obtain ⟨rfl, rfl⟩ := word_has h
    exact done .null (Nat.zero_le _) hskip
  next tail hskip =>
    obtain ⟨rfl, rfl⟩ := word_has h
    exact done .true (Nat.zero_le _) hskip
  next tail hskip =>
    obtain ⟨rfl, rfl⟩ := word_has h
    exact done .false (Nat.zero_le _) hskip
  next tail hskip =>
    obtain ⟨⟨pieces, rest'⟩, hscan, heq⟩ := map_eq_ok.1 h
    cases heq
    obtain ⟨used, hs, rfl⟩ := Quoted.spells_of_scan? (ofOption_eq_ok.1 hscan)
    exact done (.string hs) (Nat.zero_le _) (by rw [hskip]; simp)
  next tail hskip =>
    cases inner with
    | none => cases h
    | some read =>
      obtain ⟨l, rfl, hread⟩ := ih read rfl
      obtain ⟨⟨items, rest'⟩, hitems, heq⟩ := map_eq_ok.1 h
      cases heq
      obtain ⟨text, hc, rfl⟩ := contents_has hread hitems
      refine done (.array (hc.imp fun _ _ _ hs => hs.1)) ?_ (by rw [hskip]; simp)
      exact Nat.succ_le_succ (itemsDepth_le_of_contents hc)
  next tail hskip =>
    cases inner with
    | none => cases h
    | some read =>
      obtain ⟨l, rfl, hread⟩ := ih read rfl
      obtain ⟨⟨members, rest'⟩, hmembers, heq⟩ := map_eq_ok.1 h
      cases heq
      obtain ⟨text, hc, rfl⟩ := contents_has (member_has hread) hmembers
      refine done (.object (hc.imp fun _ _ _ hs => hs.imp fun _ hv => hv.1)) ?_
        (by rw [hskip]; simp)
      exact Nat.succ_le_succ (membersDepth_le_of_contents hc)
  next c tail _ _ _ _ _ _ hskip =>
    obtain ⟨⟨n, rest'⟩, hscan, heq⟩ := map_eq_ok.1 h
    cases heq
    obtain ⟨used, hs, hused⟩ := Numeral.spells_of_scan? (ofOption_eq_ok.1 hscan)
    exact done (.number hs) (Nat.zero_le _) (by rw [hskip, hused])

/-- **What is read was spelled**, and is no deeper than the reader's limit. -/
theorem value_has {limit : Nat} {cs rest : List Char} {tree : Tree}
    (h : value limit cs = .ok (tree, rest)) : Has (SpellsWithin limit) cs tree rest := by
  induction limit generalizing cs rest tree with
  | zero => exact valueWith_has (fun read h => by cases h) h
  | succ limit ih => exact valueWith_has (fun read h => by cases h; exact ⟨limit, rfl, ih⟩) h

/-! ## Whole texts -/

/-- **Reading a text.** A text is read as a tree exactly when it is one value with that tree, no
deeper than the limit. -/
theorem read_eq_ok_iff {limit : Nat} {cs : List Char} {tree : Tree} :
    read limit cs = .ok tree ↔ SpelledBy tree cs ∧ tree.depth ≤ limit := by
  constructor
  · intro h
    simp only [read] at h
    split at h
    · cases h
    next t rest hvalue =>
    split at h
    · next hskip =>
      cases h
      obtain ⟨before, used, hb, ⟨hs, hd⟩, hcs⟩ := value_has hvalue
      exact ⟨⟨before, used, rest, hb, hs, skip_eq_nil.1 hskip, hcs⟩, hd⟩
    · cases h
  · intro h
    obtain ⟨⟨before, used, after, hb, hs, ha, rfl⟩, hd⟩ := h
    have hvalue := value_reads hs hd before after hb ha.stops
    simp only [read, hvalue, skip_eq_nil.2 ha, if_true]

/-- No text is one value in two ways. -/
theorem SpelledBy.unique {a b : Tree} {cs : List Char} (ha : SpelledBy a cs)
    (hb : SpelledBy b cs) : a = b := by
  have hra := read_eq_ok_iff.2 ⟨ha, Nat.le_max_left a.depth b.depth⟩
  have hrb := read_eq_ok_iff.2 ⟨hb, Nat.le_max_right a.depth b.depth⟩
  rw [hra] at hrb
  exact Except.ok.inj hrb

end QueryForm.Tree
