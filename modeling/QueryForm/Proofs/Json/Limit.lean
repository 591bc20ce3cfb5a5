/-
What the limit of the reader changes, and what the reader has open.

A reader with a lower limit either meets its limit or does what a reader
with a higher one does (`value_lowers`). It meets its limit exactly where it
would open one container more: `Opened n` describes, in the words of the
grammar, the texts on which a reader of a value comes to have `n` containers
open at once, whether the text is well-formed or not. Before each bracket
that is still open there are only finished elements (`Passed`), and in an
object a key and its colon (`Keyed`). `value_tooDeep_iff` ties this to the
reader.
-/
import QueryForm.Proofs.Json.Reader

namespace QueryForm.Tree

open Quoted (Piece)
open Numeral (Stops)

variable {α : Type}

/-! ## A lower limit -/

/-- A reader meets its limit or does what another does. -/
def Lowers (read read' : List Char → Reading α) : Prop :=
  ∀ cs, read cs = .error .tooDeep ∨ read cs = read' cs

section

variable {read read' : List Char → Reading α} {close : Char}

theorem elements_lowers (h : Lowers read read') (bound cs : List Char) :
    elements read close bound cs = .error .tooDeep ∨
      elements read close bound cs = elements read' close bound cs := by
  induction bound generalizing cs with
  | nil => exact .inr rfl
  | cons b bound ih =>
    simp only [elements]
    rcases h cs with hdeep | hsame
    · rw [hdeep]
      exact .inl rfl
    · rw [← hsame]
      split
      · exact .inr rfl
      split
      · exact .inr rfl
      next c rest _ =>
      split
      · rcases ih rest with hdeep | hsame
        · rw [hdeep]
          exact .inl rfl
        · rw [hsame]
          exact .inr rfl
      · exact .inr rfl

theorem contents_lowers (h : Lowers read read') :
    Lowers (contents read close) (contents read' close) := by
  intro cs
  simp only [contents]
  split
  · exact .inr rfl
  split
  · exact .inr rfl
  · exact elements_lowers h cs cs

end

theorem member_lowers {read read' : List Char → Reading Tree} (h : Lowers read read') :
    Lowers (member read) (member read') := by
  intro cs
  simp only [member]
  split
  next =>
    split
    · exact .inr rfl
    split
    next rest _ =>
      rcases h rest with hdeep | hsame
      · rw [hdeep]
        exact .inl rfl
      · rw [hsame]
        exact .inr rfl
    next => exact .inr rfl
  next => exact .inr rfl

/-- A reader of values lowers another where the readers inside do, if it has one. -/
theorem valueWith_lowers {inner inner' : Option (List Char → Reading Tree)}
    (h : ∀ read, inner = some read → ∃ read', inner' = some read' ∧ Lowers read read') :
    Lowers (valueWith inner) (valueWith inner') := by
  have hmap : ∀ {β : Type} {read read' : Reading β} {f : β × List Char → Tree × List Char},
      read = .error .tooDeep ∨ read = read' →
        read.map f = .error .tooDeep ∨ read.map f = read'.map f := by
    intro β read read' f h
    rcases h with hdeep | hsame
    · rw [hdeep]
      exact .inl rfl
    · rw [hsame]
      exact .inr rfl
  intro cs
  simp only [valueWith]
  split
  case h_6 =>
    cases inner with
    | none => exact .inl rfl
    | some read =>
      obtain ⟨read', rfl, hread⟩ := h read rfl
      exact hmap (contents_lowers hread _)
  case h_7 =>
    cases inner with
    | none => exact .inl rfl
    | some read =>
      obtain ⟨read', rfl, hread⟩ := h read rfl
      exact hmap (contents_lowers (member_lowers hread) _)
  all_goals exact .inr rfl

/-- **A lower limit** is met, or it changes nothing. -/
theorem value_lowers {limit limit' : Nat} (h : limit ≤ limit') :
    Lowers (value limit) (value limit') := by
  induction limit generalizing limit' with
  | zero =>
    rw [value_eq limit']
    exact valueWith_lowers fun read hread => nomatch hread
  | succ limit ih =>
    obtain ⟨limit', rfl⟩ : ∃ l, limit' = l + 1 := ⟨limit' - 1, by omega⟩
    refine valueWith_lowers fun read hread => ⟨_, rfl, ?_⟩
    cases hread
    exact ih (by omega)

theorem read_lowers {limit limit' : Nat} (h : limit ≤ limit') (cs : List Char) :
    read limit cs = .error .tooDeep ∨ read limit cs = read limit' cs := by
  simp only [read]
  rcases value_lowers h cs with hdeep | hsame
  · rw [hdeep]
    exact .inl rfl
  · rw [hsame]
    exact .inr rfl

theorem read_tooDeep_iff {limit : Nat} {cs : List Char} :
    read limit cs = .error .tooDeep ↔ value limit cs = .error .tooDeep := by
  simp only [read]
  constructor
  · intro h
    split at h
    · next hvalue =>
      cases h
      exact hvalue
    split at h <;> cases h
  · intro h
    rw [h]

/-! ## Open containers -/

/-- Elements before one that is still to come, each with its comma. -/
inductive Passed (Element : α → List Char → Prop) : List Char → Prop
  | nil : Passed Element []
  | cons {a before cs after ds} : Blanks before → Element a cs → Blanks after →
      Passed Element ds → Passed Element (before ++ (cs ++ (after ++ ',' :: ds)))

theorem Passed.imp {E F : α → List Char → Prop} {cs : List Char} (h : Passed E cs)
    (step : ∀ a cs, E a cs → F a cs) : Passed F cs := by
  induction h with
  | nil => exact .nil
  | cons before ha after _ ih => exact .cons before (step _ _ ha) after ih

/-- A quoted key and a colon, blanks before each. -/
inductive Keyed : List Char → Prop
  | mk {blanks key ks before} : Blanks blanks → Quoted.Spells key ks → Blanks before →
      Keyed (blanks ++ '\x22' :: (ks ++ '\x22' :: (before ++ [':'])))

/-- What stands between the beginning of a container and a value in it, with the bracket that opens
the container. -/
inductive Enters : List Char → Prop
  | array {cs} : Passed Spells cs → Enters ('[' :: cs)
  | object {cs ks} : Passed (Member Spells) cs → Keyed ks → Enters ('\x7b' :: (cs ++ ks))

/-- A reader of a value at the beginning of a text comes to have a number of containers open at
once. -/
inductive Opened : Nat → List Char → Prop
  | none {cs} : Opened 0 cs
  | bracket {before c rest} : Blanks before → c = '[' ∨ c = '\x7b' →
      Opened 1 (before ++ c :: rest)
  | inside {before cs n rest} : Blanks before → Enters cs → Opened n rest →
      Opened (n + 1) (before ++ (cs ++ rest))

/-! ## Where a reader meets its limit -/

section

variable {read : List Char → Reading α} {E : α → List Char → Prop} {close : Char}

/-- Elements meet the limit where one of them does, the elements before it being read. -/
theorem elements_tooDeep (hread : ∀ {cs a rest}, read cs = .ok (a, rest) → Has E cs a rest)
    {bound cs : List Char} (h : elements read close bound cs = .error .tooDeep) :
    ∃ passed rest, Passed E passed ∧ cs = passed ++ rest ∧ read rest = .error .tooDeep := by
  induction bound generalizing cs with
  | nil => cases h
  | cons b bound ih =>
    simp only [elements] at h
    split at h
    · next fault hfault =>
      cases h
      exact ⟨[], cs, .nil, rfl, hfault⟩
    next a tail ha =>
    obtain ⟨before, used, hb, hE, rfl⟩ := hread ha
    obtain ⟨after, hafter, htail⟩ := blanks_skip tail
    split at h
    · cases h
    next c tail' hskip =>
    rw [hskip] at htail
    subst htail
    split at h
    · next hcomma =>
      subst hcomma
      cases hrest : elements read close bound tail' with
      | ok r =>
        rw [hrest] at h
        cases h
      | error fault =>
        rw [hrest] at h
        cases h
        obtain ⟨passed, rest, hpassed, rfl, hdeep⟩ := ih hrest
        exact ⟨_, rest, .cons hb hE hafter hpassed, by simp, hdeep⟩
    split at h <;> cases h

theorem contents_tooDeep (hread : ∀ {cs a rest}, read cs = .ok (a, rest) → Has E cs a rest)
    {cs : List Char} (h : contents read close cs = .error .tooDeep) :
    ∃ passed rest, Passed E passed ∧ cs = passed ++ rest ∧ read rest = .error .tooDeep := by
  simp only [contents] at h
  split at h
  · cases h
  split at h
  · cases h
  · exact elements_tooDeep hread h

end

theorem map_eq_tooDeep {β : Type} {x : Reading α} {f : α × List Char → β} :
    x.map f = .error .tooDeep ↔ x = .error .tooDeep := by
  cases x <;> simp [Except.map]

/-- A member meets the limit where its value does. -/
theorem member_tooDeep {read : List Char → Reading Tree} {cs : List Char}
    (h : member read cs = .error .tooDeep) :
    ∃ ks rest, Keyed ks ∧ cs = ks ++ rest ∧ read rest = .error .tooDeep := by
  obtain ⟨blanks, hblanks, hcs⟩ := blanks_skip cs
  simp only [member] at h
  split at h
  next tail hskip =>
    split at h
    · cases h
    next key tail₁ hkey =>
    obtain ⟨ks, hks, rfl⟩ := Quoted.spells_of_scan? hkey
    obtain ⟨before, hbefore, htail⟩ := blanks_skip tail₁
    split at h
    next rest hcolon =>
      refine ⟨_, rest, .mk hblanks hks hbefore, ?_, map_eq_tooDeep.1 h⟩
      rw [hcs, hskip, htail, hcolon]
      simp
    next => cases h
  next => cases h

theorem word_ne_tooDeep (tree : Tree) (ws cs : List Char) :
    word tree ws cs ≠ .error .tooDeep := by
  intro h
  induction ws generalizing cs with
  | nil => cases h
  | cons w ws ih =>
    cases cs with
    | nil => cases h
    | cons c cs =>
      simp only [word] at h
      split at h
      · exact ih cs h
      · cases h

theorem ofOption_ne_tooDeep (x : Option (α × List Char)) : ofOption x ≠ .error .tooDeep := by
  cases x <;> simp [ofOption]

theorem value_spells {limit : Nat} {cs rest : List Char} {tree : Tree}
    (h : value limit cs = .ok (tree, rest)) : Has Spells cs tree rest := by
  obtain ⟨before, used, hb, hs, hcs⟩ := value_has h
  exact ⟨before, used, hb, hs.1, hcs⟩

/-- What meets the limit of a reader is a container that may not be opened, or a value inside one
that may. -/
theorem valueWith_tooDeep {inner : Option (List Char → Reading Tree)}
    (hread : ∀ read, inner = some read →
      ∀ {cs t rest}, read cs = .ok (t, rest) → Has Spells cs t rest)
    {cs : List Char} (h : valueWith inner cs = .error .tooDeep) :
    (inner = none ∧ Opened 1 cs) ∨ ∃ read before passed rest, inner = some read ∧ Blanks before ∧
      Enters passed ∧ cs = before ++ (passed ++ rest) ∧ read rest = .error .tooDeep := by
  obtain ⟨before, hb, hcs⟩ := blanks_skip cs
  simp only [valueWith] at h
  split at h
  case h_6 tail hskip =>
    rw [hskip] at hcs
    subst hcs
    cases inner with
    | none => exact .inl ⟨rfl, .bracket hb (.inl rfl)⟩
    | some read =>
      obtain ⟨passed, rest, hpassed, rfl, hdeep⟩ :=
        contents_tooDeep (hread read rfl) (map_eq_tooDeep.1 h)
      exact .inr ⟨read, before, _, rest, rfl, hb, .array hpassed, rfl, hdeep⟩
  case h_7 tail hskip =>
    rw [hskip] at hcs
    subst hcs
    cases inner with
    | none => exact .inl ⟨rfl, .bracket hb (.inr rfl)⟩
    | some read =>
      obtain ⟨passed, rest, hpassed, rfl, hdeep⟩ :=
        contents_tooDeep (member_has (hread read rfl)) (map_eq_tooDeep.1 h)
      obtain ⟨ks, tail, hks, rfl, hvalue⟩ := member_tooDeep hdeep
      exact .inr ⟨read, before, _, tail, rfl, hb, .object hpassed hks, by simp, hvalue⟩
  case h_1 => cases h
  case h_2 | h_3 | h_4 => exact absurd h (word_ne_tooDeep _ _ _)
  all_goals exact absurd (map_eq_tooDeep.1 h) (ofOption_ne_tooDeep _)

/-- A reader that meets its limit would have one container more open. -/
theorem opened_of_tooDeep {limit : Nat} {cs : List Char}
    (h : value limit cs = .error .tooDeep) : Opened (limit + 1) cs := by
  induction limit generalizing cs with
  | zero =>
    rcases valueWith_tooDeep (fun read h => by cases h) h with
      ⟨-, hopened⟩ | ⟨_, _, _, _, hnone, -⟩
    · exact hopened
    · cases hnone
  | succ limit ih =>
    rcases valueWith_tooDeep (fun read h => by cases h; exact value_spells) h with
      ⟨hnone, -⟩ | ⟨_, before, passed, rest, hsome, hb, hp, rfl, hdeep⟩
    · cases hnone
    · cases hsome
      exact .inside hb hp (ih hdeep)

/-! ## Open containers meet the limit -/

/-- A reader reads a text as `a` where it does not meet its limit. -/
def ReadsOrMeets (read : List Char → Reading α) (a : α) (cs : List Char) : Prop :=
  ∀ before rest, Blanks before → Stops rest →
    read (before ++ (cs ++ rest)) = .error .tooDeep ∨
      read (before ++ (cs ++ rest)) = .ok (a, rest)

theorem Lowers.readsOrMeets {read read' : List Char → Reading α} {a : α} {cs : List Char}
    (h : Lowers read read') (ha : Reads read' a cs) : ReadsOrMeets read a cs := by
  intro before rest hb hr
  rw [← ha before rest hb hr]
  exact h _

theorem value_readsOrMeets (limit : Nat) {tree : Tree} {cs : List Char} (h : Spells tree cs) :
    ReadsOrMeets (value limit) tree cs :=
  (value_lowers (Nat.le_max_left limit tree.depth)).readsOrMeets
    (value_reads h (Nat.le_max_right limit tree.depth))

theorem member_readsOrMeets (limit : Nat) {m : List Piece × Tree} {cs : List Char}
    (h : Member Spells m cs) : ReadsOrMeets (member (value limit)) m cs :=
  (member_lowers (value_lowers (Nat.le_max_left limit m.2.depth))).readsOrMeets
    (member_reads (h.imp fun _ hs => value_reads hs (Nat.le_max_right limit m.2.depth)))

/-- A text goes on, after blanks, with no bracket that closes. -/
def GoesOn (cs : List Char) : Prop :=
  ∃ c ds, skip cs = c :: ds ∧ c ≠ ']' ∧ c ≠ '\x7d'

theorem GoesOn.ne_nil {cs : List Char} (h : GoesOn cs) : cs ≠ [] := by
  rintro rfl
  obtain ⟨c, ds, hskip, -⟩ := h
  cases hskip

theorem Opens.goesOn {before cs : List Char} (h : Opens cs) (hb : Blanks before)
    (rest : List Char) : GoesOn (before ++ (cs ++ rest)) := by
  obtain ⟨c, ds, rfl, hspace, hc⟩ := h
  exact ⟨c, ds ++ rest, by rw [List.cons_append, skip_append hb hspace], hc⟩

theorem Keyed.goesOn {ks : List Char} (h : Keyed ks) (rest : List Char) : GoesOn (ks ++ rest) := by
  cases h with
  | mk hb _ _ =>
    have hquote : isSpace '\x22' = false := rfl
    rw [List.append_assoc]
    exact ⟨'\x22', _, skip_append hb hquote _, by decide, by decide⟩

theorem Keyed.member_tooDeep {ks : List Char} (h : Keyed ks) {read : List Char → Reading Tree}
    {rest : List Char} (hrest : read rest = .error .tooDeep) :
    member read (ks ++ rest) = .error .tooDeep := by
  cases h with
  | @mk blanks key ks before hb hks hbefore =>
    have hquote : isSpace '\x22' = false := rfl
    have hcolon : isSpace ':' = false := rfl
    have hscan := Quoted.scan?_spells hks (before ++ ':' :: rest)
    simp only [List.append_assoc, List.cons_append, List.nil_append, member, skip_append hb hquote,
      hscan, skip_append hbefore hcolon, hrest, Except.map]

theorem Enters.head {cs : List Char} (h : Enters cs) :
    ∃ c ds, cs = c :: ds ∧ (c = '[' ∨ c = '\x7b') := by
  cases h with
  | array => exact ⟨_, _, rfl, .inl rfl⟩
  | object => exact ⟨_, _, rfl, .inr rfl⟩

theorem Opened.goesOn {n : Nat} {cs : List Char} (h : Opened (n + 1) cs) : GoesOn cs := by
  have hbracket : ∀ {c : Char}, c = '[' ∨ c = '\x7b' →
      isSpace c = false ∧ c ≠ ']' ∧ c ≠ '\x7d' := by
    rintro c (rfl | rfl) <;> decide
  cases h with
  | @bracket before c rest hb hc =>
    obtain ⟨hspace, hnot⟩ := hbracket hc
    exact ⟨c, rest, skip_append hb hspace rest, hnot⟩
  | @inside before cs n rest hb he _ =>
    obtain ⟨c, ds, rfl, hc⟩ := he.head
    obtain ⟨hspace, hnot⟩ := hbracket hc
    exact ⟨c, ds ++ rest, skip_append hb hspace _, hnot⟩

section

variable {read : List Char → Reading α} {passed rest : List Char}

theorem Passed.goesOn {E : α → List Char → Prop} (h : Passed E passed)
    (hopens : ∀ a cs, E a cs → Opens cs) (hrest : GoesOn rest) : GoesOn (passed ++ rest) := by
  cases h with
  | nil => exact hrest
  | cons hb ha _ _ =>
    simp only [List.append_assoc]
    exact (hopens _ _ ha).goesOn hb _

/-- Where the element after those that are passed meets the limit, all of them do. -/
theorem elements_passed {close : Char} (h : Passed (ReadsOrMeets read) passed)
    (hrest : read rest = .error .tooDeep) (bound : List Char) (hb : passed.length < bound.length) :
    elements read close bound (passed ++ rest) = .error .tooDeep := by
  induction h generalizing bound with
  | nil =>
    obtain ⟨b, bound, rfl⟩ := List.exists_cons_of_length_pos hb
    rw [List.nil_append, elements, hrest]
  | @cons a before cs after ds before_blank ha after_blank _ ih =>
    obtain ⟨b, bound, rfl⟩ := List.exists_cons_of_length_pos (Nat.lt_of_le_of_lt (Nat.zero_le _) hb)
    have hcomma : isSpace ',' = false := rfl
    have hbound : ds.length < bound.length := by
      simp only [List.length_append, List.length_cons] at hb
      omega
    simp only [List.append_assoc, List.cons_append, elements]
    rcases ha before (after ++ ',' :: (ds ++ rest)) before_blank
      (stops_blanks after_blank (.inl rfl) _) with hdeep | hread
    · rw [hdeep]
    · simp only [hread, skip_append after_blank hcomma, if_true, ih bound hbound, Except.map]

theorem contents_passed {close : Char} (hclose : close = ']' ∨ close = '\x7d')
    (h : Passed (fun a cs => ReadsOrMeets read a cs ∧ Opens cs) passed)
    (hrest : read rest = .error .tooDeep) (hgoes : GoesOn rest) :
    contents read close (passed ++ rest) = .error .tooDeep := by
  obtain ⟨c, ds, hskip, hc⟩ := h.goesOn (fun _ _ ha => ha.2) hgoes
  have hnot : c ≠ close := by rcases hclose with rfl | rfl; exacts [hc.1, hc.2]
  have hlength : 0 < rest.length := List.length_pos_iff.2 hgoes.ne_nil
  simp only [contents, hskip, if_neg hnot]
  exact elements_passed (h.imp fun _ _ ha => ha.1) hrest _ (by rw [List.length_append]; omega)

end

theorem valueWith_bracket {before : List Char} (hb : Blanks before) {c : Char}
    (hc : c = '[' ∨ c = '\x7b') (rest : List Char) :
    valueWith none (before ++ c :: rest) = .error .tooDeep := by
  rw [valueWith_blanks none hb]
  rcases hc with rfl | rfl <;> rfl

/-- A reader that would have one container more open meets its limit. -/
theorem tooDeep_of_opened {limit : Nat} {cs : List Char} (h : Opened (limit + 1) cs) :
    value limit cs = .error .tooDeep := by
  generalize hn : limit + 1 = n at h
  induction h generalizing limit with
  | none => cases hn
  | bracket hb hc =>
    cases hn
    exact valueWith_bracket hb hc _
  | @inside before cs n rest hb he hopened ih =>
    obtain rfl : limit = n := Nat.succ.inj hn
    cases limit with
    | zero =>
      obtain ⟨c, ds, rfl, hc⟩ := he.head
      exact valueWith_bracket hb hc _
    | succ limit =>
      have hrest := ih rfl
      have hgoes := hopened.goesOn
      rw [value_eq, valueWith_blanks _ hb]
      cases he with
      | array hp =>
        have hitems : Passed (fun t cs => ReadsOrMeets (value limit) t cs ∧ Opens cs) _ :=
          hp.imp fun t cs hs => ⟨value_readsOrMeets limit hs, hs.opens⟩
        have hbracket : isSpace '[' = false := rfl
        simp only [List.cons_append, valueWith, inside, skip_cons hbracket, array?,
          contents_passed (.inl rfl) hitems hrest hgoes, Except.map]
      | @object cs ks hp hks =>
        have hmembers :
            Passed (fun m cs => ReadsOrMeets (member (value limit)) m cs ∧ Opens cs) cs :=
          hp.imp fun m cs hs => ⟨member_readsOrMeets limit hs, hs.opens⟩
        have hbrace : isSpace '\x7b' = false := rfl
        simp only [List.cons_append, List.append_assoc, valueWith, inside, skip_cons hbrace,
          object?, contents_passed (.inr rfl) hmembers (hks.member_tooDeep hrest)
            (hks.goesOn rest), Except.map]

/-- **Open containers.** A reader meets its limit exactly where it would come to have one container
more open. -/
theorem value_tooDeep_iff {limit : Nat} {cs : List Char} :
    value limit cs = .error .tooDeep ↔ Opened (limit + 1) cs :=
  ⟨opened_of_tooDeep, tooDeep_of_opened⟩

end QueryForm.Tree
