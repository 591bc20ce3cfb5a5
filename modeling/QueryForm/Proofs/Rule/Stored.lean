/-
Rules and their second conditions as they are stored: what their fields
hold, which trees store them (`Rule.Stored`, `Condition.Stored`), and that a
rule is read back from its own text.

The second condition of a rule is a record inside a record. It may be an
object or an array of its fields like any other, or `null` where there is
none (`Rule.HoldsSecond`).
-/
import QueryForm.Proofs.Json.Record
import QueryForm.Rule.Stored

namespace QueryForm

open Quoted (Piece)
open Record

/-! ## Choices -/

theorem ValueType.token_injective : ∀ a b : ValueType, a.token = b.token → a = b := by
  intro a b
  cases a <;> cases b <;> decide

theorem Comparison.token_injective : ∀ a b : Comparison, a.token = b.token → a = b := by
  intro a b
  cases a <;> cases b <;> decide

theorem Connective.token_injective : ∀ a b : Connective, a.token = b.token → a = b := by
  intro a b
  cases a <;> cases b <;> decide

theorem ValueType.ofTree?_eq_some_iff {tree : Tree} {a : ValueType} :
    ofTree? tree = some a ↔ Names tree a.token :=
  choice?_eq_some_iff (fun a => by cases a <;> decide) token_injective

theorem Comparison.ofTree?_eq_some_iff {tree : Tree} {a : Comparison} :
    ofTree? tree = some a ↔ Names tree a.token :=
  choice?_eq_some_iff (fun a => by cases a <;> decide) token_injective

theorem Connective.ofTree?_eq_some_iff {tree : Tree} {a : Connective} :
    ofTree? tree = some a ↔ Names tree a.token :=
  choice?_eq_some_iff (fun a => by cases a <;> decide) token_injective

/-! ## Conditions -/

namespace Condition

def connectiveField : Field :=
  .choice "logical_operator" Connective.token .none Connective.token_injective

def rawField : Field :=
  .string "raw_value"

def comparisonField : Field :=
  .choice "comparison_operator" Comparison.token .eq Comparison.token_injective

/-- The fields of a condition. -/
def fields : List Field := [connectiveField, rawField, comparisonField]

/-- Members give a condition its fields. -/
structure StoredBy (members : List (List Piece × Tree)) (c : Condition) : Prop where
  connective : connectiveField.At members c.connective
  raw : rawField.At members c.raw
  comparison : comparisonField.At members c.comparison

/-- Items give a condition its fields, each in its place, the last of them left out or not. -/
structure ListedBy (items : List Tree) (c : Condition) : Prop where
  length : items.length ≤ 3
  connective : connectiveField.From items[0]? c.connective
  raw : rawField.From items[1]? c.raw
  comparison : comparisonField.From items[2]? c.comparison

/-- A tree stores a condition: an object by the names of its fields, or an array by their places. -/
def Stored : Tree → Condition → Prop :=
  Stores StoredBy ListedBy

theorem ofTree?_eq_some_iff {tree : Tree} {c : Condition} : ofTree? tree = some c ↔
    ∃ connective raw comparison,
      fields? fieldNames tree = some [connective, raw, comparison] ∧
      connectiveField.From connective c.connective ∧ rawField.From raw c.raw ∧
      comparisonField.From comparison c.comparison := by
  constructor
  · intro h
    unfold ofTree? at h
    split at h
    · next connective raw comparison hfields =>
      simp only [Option.bind_eq_bind, Option.bind_eq_some_iff, Option.pure_def,
        Option.some.injEq] at h
      obtain ⟨_, hconnective, _, hraw, _, hcomparison, rfl⟩ := h
      exact ⟨_, _, _, hfields,
        (connectiveField.from_iff fun _ _ => Connective.ofTree?_eq_some_iff).1 hconnective,
        (rawField.from_iff fun _ _ => string?_eq_some_iff).1 hraw,
        (comparisonField.from_iff fun _ _ => Comparison.ofTree?_eq_some_iff).1 hcomparison⟩
    · cases h
  · rintro ⟨connective, raw, comparison, hfields, hconnective, hraw, hcomparison⟩
    have hconnective' : orDefault .none Connective.ofTree? connective = some c.connective :=
      (connectiveField.from_iff fun _ _ => Connective.ofTree?_eq_some_iff).2 hconnective
    have hraw' : orDefault "" string? raw = some c.raw :=
      (rawField.from_iff fun _ _ => string?_eq_some_iff).2 hraw
    have hcomparison' : orDefault .eq Comparison.ofTree? comparison = some c.comparison :=
      (comparisonField.from_iff fun _ _ => Comparison.ofTree?_eq_some_iff).2 hcomparison
    rw [ofTree?, hfields]
    dsimp only
    rw [hconnective', hraw', hcomparison']
    rfl

/-- **Stored conditions.** A condition is read from the members that give it its fields, with any
others as long as their keys can be read. -/
theorem ofTree?_object {members : List (List Piece × Tree)} {c : Condition} :
    ofTree? (.object members) = some c ↔ KeysRead members ∧ StoredBy members c := by
  simp only [ofTree?_eq_some_iff, fields?_object, fieldNames, List.forall₂_cons]
  constructor
  · rintro ⟨f, g, k, ⟨pairs, hpairs, hf, hg, hk, -⟩, hconnective, hraw, hcomparison⟩
    exact ⟨keyed?_isSome.1 ⟨pairs, hpairs⟩,
      (connectiveField.at_iff hpairs).1 ⟨f, hf, hconnective⟩,
      (rawField.at_iff hpairs).1 ⟨g, hg, hraw⟩,
      (comparisonField.at_iff hpairs).1 ⟨k, hk, hcomparison⟩⟩
  · rintro ⟨hkeys, hstored⟩
    obtain ⟨pairs, hpairs⟩ := keyed?_isSome.2 hkeys
    obtain ⟨f, hf, hconnective⟩ := (connectiveField.at_iff hpairs).2 hstored.connective
    obtain ⟨g, hg, hraw⟩ := (rawField.at_iff hpairs).2 hstored.raw
    obtain ⟨k, hk, hcomparison⟩ := (comparisonField.at_iff hpairs).2 hstored.comparison
    exact ⟨f, g, k, ⟨pairs, hpairs, hf, hg, hk, .nil⟩, hconnective, hraw, hcomparison⟩

theorem ofTree?_array {items : List Tree} {c : Condition} :
    ofTree? (.array items) = some c ↔ ListedBy items c := by
  simp only [ofTree?_eq_some_iff, fields?_array]
  constructor
  · rintro ⟨f, g, k, ⟨hlength, hfound⟩, hconnective, hraw, hcomparison⟩
    change [f, g, k] = [items[0]?, items[1]?, items[2]?] at hfound
    cases hfound
    exact ⟨hlength, hconnective, hraw, hcomparison⟩
  · rintro ⟨hlength, hconnective, hraw, hcomparison⟩
    exact ⟨_, _, _, ⟨hlength, rfl⟩, hconnective, hraw, hcomparison⟩

/-- A condition is read from the trees that store it, and from no others. -/
theorem ofTree?_iff_stored {tree : Tree} {c : Condition} : ofTree? tree = some c ↔ Stored tree c :=
  stores_iff ofTree?_object ofTree?_array rfl (fun _ => rfl) (fun _ => rfl) fun _ => rfl

end Condition

/-! ## Rules -/

namespace Rule

/-- A tree holds the second condition of a rule: `null` is none, and any other stores it. -/
inductive HoldsSecond : Tree → Option Condition → Prop
  | none : HoldsSecond .null none
  | some {tree c} : Condition.Stored tree c → HoldsSecond tree (some c)

theorem nullable?_eq_some_iff {tree : Tree} {second : Option Condition} :
    nullable? Condition.ofTree? tree = some second ↔ HoldsSecond tree second := by
  constructor
  · intro h
    unfold nullable? at h
    split at h
    · cases h
      exact .none
    · obtain ⟨c, hc, rfl⟩ := Option.map_eq_some_iff.1 h
      exact .some (Condition.ofTree?_iff_stored.1 hc)
  · intro h
    cases h with
    | none => rfl
    | some hstored =>
      have hread := Condition.ofTree?_iff_stored.2 hstored
      cases hstored <;> exact congrArg (Option.map some) hread

theorem HoldsSecond.unique {tree : Tree} {a b : Option Condition} (h : HoldsSecond tree a)
    (h' : HoldsSecond tree b) : a = b :=
  Option.some.inj ((nullable?_eq_some_iff.2 h).symm.trans (nullable?_eq_some_iff.2 h'))

def nameField : Field :=
  .string "name"

def typeField : Field :=
  .choice "type" ValueType.token .text ValueType.token_injective

def rawField : Field :=
  .string "raw_value"

def comparisonField : Field :=
  .choice "comparison_operator" Comparison.token .eq Comparison.token_injective

def secondField : Field :=
  ⟨"secondary", Option Condition, HoldsSecond, none, HoldsSecond.unique⟩

/-- The fields of a rule. -/
def fields : List Field := [nameField, typeField, rawField, comparisonField, secondField]

/-- Members give a rule its fields. -/
structure StoredBy (members : List (List Piece × Tree)) (r : Rule) : Prop where
  name : nameField.At members r.name
  type : typeField.At members r.type
  raw : rawField.At members r.raw
  comparison : comparisonField.At members r.comparison
  second : secondField.At members r.second

/-- Items give a rule its fields, each in its place, the last of them left out or not. -/
structure ListedBy (items : List Tree) (r : Rule) : Prop where
  length : items.length ≤ 5
  name : nameField.From items[0]? r.name
  type : typeField.From items[1]? r.type
  raw : rawField.From items[2]? r.raw
  comparison : comparisonField.From items[3]? r.comparison
  second : secondField.From items[4]? r.second

/-- A tree stores a rule: an object by the names of its fields, or an array by their places. -/
def Stored : Tree → Rule → Prop :=
  Stores StoredBy ListedBy

theorem ofTree?_eq_some_iff {tree : Tree} {r : Rule} : ofTree? tree = some r ↔
    ∃ name type raw comparison second,
      fields? fieldNames tree = some [name, type, raw, comparison, second] ∧
      nameField.From name r.name ∧ typeField.From type r.type ∧ rawField.From raw r.raw ∧
      comparisonField.From comparison r.comparison ∧ secondField.From second r.second := by
  constructor
  · intro h
    unfold ofTree? at h
    split at h
    · next name type raw comparison second hfields =>
      simp only [Option.bind_eq_bind, Option.bind_eq_some_iff, Option.pure_def,
        Option.some.injEq] at h
      obtain ⟨_, hname, _, htype, _, hraw, _, hcomparison, _, hsecond, rfl⟩ := h
      exact ⟨_, _, _, _, _, hfields, (nameField.from_iff fun _ _ => string?_eq_some_iff).1 hname,
        (typeField.from_iff fun _ _ => ValueType.ofTree?_eq_some_iff).1 htype,
        (rawField.from_iff fun _ _ => string?_eq_some_iff).1 hraw,
        (comparisonField.from_iff fun _ _ => Comparison.ofTree?_eq_some_iff).1 hcomparison,
        (secondField.from_iff fun _ _ => nullable?_eq_some_iff).1 hsecond⟩
    · cases h
  · rintro ⟨name, type, raw, comparison, second, hfields, hname, htype, hraw, hcomparison, hsecond⟩
    have hname' : orDefault "" string? name = some r.name :=
      (nameField.from_iff fun _ _ => string?_eq_some_iff).2 hname
    have htype' : orDefault .text ValueType.ofTree? type = some r.type :=
      (typeField.from_iff fun _ _ => ValueType.ofTree?_eq_some_iff).2 htype
    have hraw' : orDefault "" string? raw = some r.raw :=
      (rawField.from_iff fun _ _ => string?_eq_some_iff).2 hraw
    have hcomparison' : orDefault .eq Comparison.ofTree? comparison = some r.comparison :=
      (comparisonField.from_iff fun _ _ => Comparison.ofTree?_eq_some_iff).2 hcomparison
    have hsecond' : orDefault none (nullable? Condition.ofTree?) second = some r.second :=
      (secondField.from_iff fun _ _ => nullable?_eq_some_iff).2 hsecond
    rw [ofTree?, hfields]
    dsimp only
    rw [hname', htype', hraw', hcomparison', hsecond']
    rfl

/-- **Stored rules.** A rule is read from the members that give it its fields, with any others as
long as their keys can be read. -/
theorem ofTree?_object {members : List (List Piece × Tree)} {r : Rule} :
    ofTree? (.object members) = some r ↔ KeysRead members ∧ StoredBy members r := by
  simp only [ofTree?_eq_some_iff, fields?_object, fieldNames, List.forall₂_cons]
  constructor
  · rintro ⟨f, g, k, l, m, ⟨pairs, hpairs, hf, hg, hk, hl, hm, -⟩, hname, htype, hraw, hcomparison,
      hsecond⟩
    exact ⟨keyed?_isSome.1 ⟨pairs, hpairs⟩, (nameField.at_iff hpairs).1 ⟨f, hf, hname⟩,
      (typeField.at_iff hpairs).1 ⟨g, hg, htype⟩, (rawField.at_iff hpairs).1 ⟨k, hk, hraw⟩,
      (comparisonField.at_iff hpairs).1 ⟨l, hl, hcomparison⟩,
      (secondField.at_iff hpairs).1 ⟨m, hm, hsecond⟩⟩
  · rintro ⟨hkeys, hstored⟩
    obtain ⟨pairs, hpairs⟩ := keyed?_isSome.2 hkeys
    obtain ⟨f, hf, hname⟩ := (nameField.at_iff hpairs).2 hstored.name
    obtain ⟨g, hg, htype⟩ := (typeField.at_iff hpairs).2 hstored.type
    obtain ⟨k, hk, hraw⟩ := (rawField.at_iff hpairs).2 hstored.raw
    obtain ⟨l, hl, hcomparison⟩ := (comparisonField.at_iff hpairs).2 hstored.comparison
    obtain ⟨m, hm, hsecond⟩ := (secondField.at_iff hpairs).2 hstored.second
    exact ⟨f, g, k, l, m, ⟨pairs, hpairs, hf, hg, hk, hl, hm, .nil⟩, hname, htype, hraw, hcomparison,
      hsecond⟩

theorem ofTree?_array {items : List Tree} {r : Rule} :
    ofTree? (.array items) = some r ↔ ListedBy items r := by
  simp only [ofTree?_eq_some_iff, fields?_array]
  constructor
  · rintro ⟨f, g, k, l, m, ⟨hlength, hfound⟩, hname, htype, hraw, hcomparison, hsecond⟩
    change [f, g, k, l, m] = [items[0]?, items[1]?, items[2]?, items[3]?, items[4]?] at hfound
    cases hfound
    exact ⟨hlength, hname, htype, hraw, hcomparison, hsecond⟩
  · rintro ⟨hlength, hname, htype, hraw, hcomparison, hsecond⟩
    exact ⟨_, _, _, _, _, ⟨hlength, rfl⟩, hname, htype, hraw, hcomparison, hsecond⟩

/-- A rule is read from the trees that store it, and from no others. -/
theorem ofTree?_iff_stored {tree : Tree} {r : Rule} : ofTree? tree = some r ↔ Stored tree r :=
  stores_iff ofTree?_object ofTree?_array rfl (fun _ => rfl) (fun _ => rfl) fun _ => rfl

end Rule

end QueryForm
