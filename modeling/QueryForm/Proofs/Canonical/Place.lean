/-
Where a value stands in a query.

A node stands in a document under a key, below any number of comparisons and
of keys that join documents. Its canonical form stands in the query in the
same place: what is around it depends on the rest of the document alone
(`Document.Place.canonical_fill`), and does not hide it (`around_injective`).

A rule writes the value of each of its texts to a place that depends on its
comparisons and its connective only (`Rule.contentWith`), so a fact about
the values of a type is a fact about every rule of that type.
-/
import QueryForm.Proofs.Draft
import QueryForm.Proofs.Json.Writer

namespace QueryForm

/-- A value under the key of a comparison; equality leaves it bare. -/
def Comparison.tag (comparison : Comparison) (v : Json) : Json :=
  match comparison.key? with
  | none => v
  | some key => .object [(key, v)]

theorem Comparison.tag_injective {comparison : Comparison} {v w : Json}
    (h : comparison.tag v = comparison.tag w) : v = w := by
  cases comparison <;> simpa [tag, key?] using h

/-! ## Nodes -/

namespace Node

theorem canonicalParts_eq_map (parts : List Document) :
    canonicalParts parts = parts.map fun part => Json.object part.canonical := by
  induction parts with
  | nil => rfl
  | cons part parts ih =>
    rw [canonicalParts, ih]
    rfl

theorem canonicalEntries_append (first last : Document) :
    canonicalEntries (first ++ last) = canonicalEntries first ++ canonicalEntries last := by
  induction first with
  | nil => rfl
  | cons entry first ih =>
    obtain ⟨key, node⟩ := entry
    rw [List.cons_append, canonicalEntries, canonicalEntries]
    split
    · rw [ih, List.cons_append]
    · exact ih

/-- One step on the way from a node to the one that it stands in. -/
inductive Frame where
  | under (comparison : Comparison)
  | within (before : List Document) (first : Document) (key : String) (last : Document)
      (after : List Document)

namespace Frame

/-- The node that another stands in. -/
def fill : Frame → Node → Node
  | under comparison, node => .tagged comparison node
  | within before first key last after, node =>
    .joined (before ++ (first ++ (key, node) :: last) :: after)

/-- The value that another stands in. -/
def around : Frame → Json → Json
  | under comparison, v => comparison.tag v
  | within before first key last after, v =>
    .array (before.map (fun part => .object part.canonical) ++
      .object (first.canonical ++ (key, v) :: last.canonical) ::
        after.map fun part => .object part.canonical)

theorem canonical?_fill (frame : Frame) {node : Node} {v : Json}
    (h : node.canonical? = some v) : (frame.fill node).canonical? = some (frame.around v) := by
  cases frame with
  | under comparison =>
    rw [fill, canonical?, around, Comparison.tag, h]
    cases comparison.key? <;> rfl
  | within before first key last after =>
    rw [fill, canonical?, canonicalParts_eq_map, List.map_append, List.map_cons,
      Document.canonical, canonicalEntries_append, canonicalEntries, h]
    rfl

theorem around_injective {frame : Frame} {v w : Json} (h : frame.around v = frame.around w) :
    v = w := by
  cases frame with
  | under comparison => exact Comparison.tag_injective h
  | within before first key last after => simpa [around] using h

end Frame

end Node

/-! ## Documents -/

/-- A place for a node in a document: the entries before and after its own, the key of its entry, and
the way from the entry to the place, outermost first. -/
structure Document.Place where
  first : Document
  key : String
  frames : List Node.Frame
  last : Document

namespace Document.Place

/-- The document with a node in a place. -/
def fill (place : Place) (node : Node) : Document :=
  place.first ++ (place.key, place.frames.foldr Node.Frame.fill node) :: place.last

/-- The query with a value in a place. -/
def around (place : Place) (v : Json) : Query :=
  place.first.canonical ++ (place.key, place.frames.foldr Node.Frame.around v) ::
    place.last.canonical

theorem canonical?_frames (frames : List Node.Frame) {node : Node} {v : Json}
    (h : node.canonical? = some v) :
    (frames.foldr Node.Frame.fill node).canonical? = some (frames.foldr Node.Frame.around v) := by
  induction frames with
  | nil => exact h
  | cons frame frames ih => exact frame.canonical?_fill ih

theorem frames_injective {frames : List Node.Frame} {v w : Json}
    (h : frames.foldr Node.Frame.around v = frames.foldr Node.Frame.around w) : v = w := by
  induction frames with
  | nil => exact h
  | cons frame frames ih => exact ih (Node.Frame.around_injective h)

/-- **Places are kept.** The canonical form of a node stands in the query where the node stands in
the document. -/
theorem canonical_fill (place : Place) {node : Node} {v : Json} (h : node.canonical? = some v) :
    (place.fill node).canonical = place.around v := by
  rw [fill, Document.canonical, Node.canonicalEntries_append, Node.canonicalEntries,
    canonical?_frames place.frames h]
  rfl

theorem around_injective {place : Place} {v w : Json} (h : place.around v = place.around w) :
    v = w := by
  have hentry := (List.cons.inj (List.append_cancel_left h)).1
  exact frames_injective (congrArg Prod.snd hentry)

/-- Queries that differ in one place only have the same text where the values there are the same. -/
theorem text_around_iff {place : Place} {v w : Json} :
    Query.text (place.around v) = Query.text (place.around w) ↔ v = w := by
  refine ⟨fun h => ?_, fun h => by rw [h]⟩
  have hobject := Json.chars_injective (String.ofList_injective h)
  exact around_injective (Json.object.inj hobject)

end Document.Place

/-! ## Rules -/

/-- What a text compiles to as a type. -/
def Value.compiled (type : ValueType) (raw : String) : Json :=
  (Value.convert type raw).canonical

namespace Rule

/-- What a rule says under its key, when a function gives the values of its texts. -/
def contentWith (value : String → Json) (r : Rule) : Json :=
  let first := r.comparison.tag (value r.raw)
  match r.activeSecond with
  | some second =>
    .array [.object [(r.name, first)],
      .object [(r.name, second.comparison.tag (value second.raw))]]
  | none => first

/-- No later rule of a list writes the key of the rule, so what is under its key is its own. -/
def DecidesIn (r : Rule) (rules : List Rule) : Prop :=
  (rules.filter (·.key == r.key)).getLast? = some r

theorem decidesIn_singleton (r : Rule) : r.DecidesIn [r] := by
  simp [DecidesIn]

theorem content_eq (r : Rule) : r.content = r.contentWith (Value.compiled r.type) := by
  have hcondition : ∀ raw comparison,
      r.condition raw comparison = comparison.tag (Value.compiled r.type raw) := by
    intro raw comparison
    rfl
  obtain ⟨name, type, raw, comparison, second⟩ := r
  match second with
  | none => exact hcondition _ _
  | some ⟨.none, _, _⟩ => exact hcondition _ _
  | some ⟨.and, _, _⟩ => rfl
  | some ⟨.or, _, _⟩ => rfl

/-- **Rules and values.** Under the key of the last rule that writes it are the values of that rule's
texts, each in the place of its condition. -/
theorem DecidesIn.get?_ofRules {r : Rule} {rules : List Rule} (h : r.DecidesIn rules) :
    Fields.get? r.key (Query.ofRules rules) = some (r.contentWith (Value.compiled r.type)) := by
  rw [Query.ofRules_eq, Fields.get?_ofPairs, last?_written, h, ← content_eq]
  rfl

end Rule

end QueryForm
