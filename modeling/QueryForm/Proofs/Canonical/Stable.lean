/-
Canonical form is reached in one pass.

What a document's canonical form is made of, values and the objects and
arrays around them, is its own canonical form: every number in it is a
canonical spelling, and of these there is nothing to change
(`Numeral.canonical?_canonical`). So canonical form put into a document and
taken again is what it was.

Of a value that was read from a text, canonical form keeps all but the
spelling of its numbers (`Json.Respelled`).
-/
import QueryForm.Proofs.Canonical.Spelling

namespace QueryForm

/-! ## Values -/

namespace Json

mutual

/-- A value is another but for the spelling of its numbers: each is a number that is read the same,
or null where it is beyond the doubles. -/
inductive Respelled : Json → Json → Prop
  | null : Respelled .null .null
  | bool {b} : Respelled (.bool b) (.bool b)
  | string {s} : Respelled (.string s) (.string s)
  | number {n p} : n.toDouble.isFinite = true → n.toDouble.same p.toDouble = true →
    Respelled (.number n) (.number p)
  | beyond {n} : n.toDouble.isFinite = false → Respelled (.number n) .null
  | array {items out} : RespelledItems items out → Respelled (.array items) (.array out)
  | object {members out} : RespelledMembers members out → Respelled (.object members) (.object out)

/-- As many items, each respelled. -/
inductive RespelledItems : List Json → List Json → Prop
  | nil : RespelledItems [] []
  | cons {item out items outs} : Respelled item out → RespelledItems items outs →
    RespelledItems (item :: items) (out :: outs)

/-- The same keys in the same order, over values each respelled. -/
inductive RespelledMembers : List (String × Json) → List (String × Json) → Prop
  | nil : RespelledMembers [] []
  | cons {key value out members outs} : Respelled value out → RespelledMembers members outs →
    RespelledMembers ((key, value) :: members) ((key, out) :: outs)

end

theorem canonical_some {n p : Numeral} (h : n.canonical? = some p) :
    (number n).canonical = number p := by
  rw [canonical, h]

theorem canonical_none {n : Numeral} (h : n.canonical? = none) : (number n).canonical = null := by
  rw [canonical, h]

theorem respelled_number (n : Numeral) : Respelled (number n) (number n).canonical := by
  cases h : n.canonical? with
  | some p =>
    obtain ⟨s, m, hd, -⟩ := Numeral.eq_of_canonical? h
    rw [canonical_some h]
    exact .number (by rw [hd]; rfl) (Numeral.same_of_canonical? h)
  | none =>
    rw [canonical_none h]
    exact .beyond ((canonical_number_eq_null n).1 (canonical_none h))

mutual

/-- **Structure kept.** Canonical form respells numbers and changes nothing else. -/
theorem respelled_canonical : ∀ value : Json, value.Respelled value.canonical
  | .null => .null
  | .bool _ => .bool
  | .string _ => .string
  | .number n => respelled_number n
  | .array items => .array (respelled_items items)
  | .object members => .object (respelled_members members)

theorem respelled_items : ∀ items : List Json, RespelledItems items (canonicalItems items)
  | [] => .nil
  | item :: items => .cons (respelled_canonical item) (respelled_items items)

theorem respelled_members : ∀ members : List (String × Json),
    RespelledMembers members (canonicalMembers members)
  | [] => .nil
  | (_, value) :: members => .cons (respelled_canonical value) (respelled_members members)

end

theorem canonical_null : null.canonical = null := by
  rw [canonical]

mutual

theorem canonical_canonical : ∀ value : Json, value.canonical.canonical = value.canonical
  | .null | .bool _ | .string _ => by simp only [canonical]
  | .number n => by
    cases h : n.canonical? with
    | some p => rw [canonical_some h, canonical_some (Numeral.canonical?_canonical h)]
    | none => rw [canonical_none h, canonical_null]
  | .array items => by rw [canonical, canonical, items_canonical items]
  | .object members => by rw [canonical, canonical, members_canonical members]

theorem items_canonical : ∀ items : List Json,
    canonicalItems (canonicalItems items) = canonicalItems items
  | [] => rfl
  | item :: items => by
    rw [canonicalItems, canonicalItems, canonical_canonical item, items_canonical items]

theorem members_canonical : ∀ members : List (String × Json),
    canonicalMembers (canonicalMembers members) = canonicalMembers members
  | [] => rfl
  | (_, value) :: members => by
    rw [canonicalMembers, canonicalMembers, canonical_canonical value, members_canonical members]

end

theorem canonical_ofDouble (x : Double) : (ofDouble x).canonical = ofDouble x := by
  cases x with
  | nan | infinite => exact canonical_null
  | finite s m => exact canonical_some (Numeral.canonical?_ofDouble s m)

end Json

theorem Value.canonical_canonical (v : Value) : v.canonical.canonical = v.canonical := by
  cases v with
  | text s => rw [canonical, Json.canonical]
  | number x => exact Json.canonical_ofDouble x
  | array items => exact Json.canonical_canonical (.array items)
  | object members => exact Json.canonical_canonical (.object members)

/-! ## Documents -/

namespace Node

mutual

/-- What a node comes to is its own canonical form. -/
theorem canonical_of_canonical? : ∀ (node : Node) {v : Json}, node.canonical? = some v →
    v.canonical = v
  | value w, v, h => by
    cases h
    exact w.canonical_canonical
  | tagged comparison operand, v, h => by
    rw [canonical?] at h
    split at h
    · split at h
      · next w hw =>
        cases h
        rw [Json.canonical, Json.canonicalMembers, canonical_of_canonical? operand hw,
          Json.canonicalMembers]
      · cases h
        rfl
    · exact canonical_of_canonical? operand h
  | joined parts, v, h => by
    cases h
    rw [Json.canonical, canonical_parts parts]
  | absent, v, h => by cases h

theorem canonical_parts : ∀ parts : List (List (String × Node)),
    Json.canonicalItems (canonicalParts parts) = canonicalParts parts
  | [] => rfl
  | part :: parts => by
    rw [canonicalParts, Json.canonicalItems, Json.canonical, canonical_entries part,
      canonical_parts parts]

theorem canonical_entries : ∀ doc : List (String × Node),
    Json.canonicalMembers (canonicalEntries doc) = canonicalEntries doc
  | [] => rfl
  | (key, node) :: doc => by
    rw [canonicalEntries]
    split
    · next v hv =>
      rw [Json.canonicalMembers, canonical_of_canonical? node hv, canonical_entries doc]
    · exact canonical_entries doc

end

end Node

theorem Document.canonical_single (key : String) (v : Value) :
    Document.canonical (Document.single key (.value v)) = [(key, v.canonical)] :=
  rfl

/-- **One pass.** The canonical form of a document, put under a key as a value, is its own canonical
form. An array and an object that were read from a text come out as they were, but for the spelling
of their numbers. -/
theorem Document.canonical_once (doc : Document) (key : String) :
    Document.canonical (Document.single key (.value (.object doc.canonical))) =
        [(key, .object doc.canonical)] ∧
      (∀ items : List Json, ∃ out : List Json,
        Document.canonical (Document.single key (.value (.array items))) = [(key, .array out)] ∧
          Json.RespelledItems items out) ∧
      ∀ members : List (String × Json), ∃ out : List (String × Json),
        Document.canonical (Document.single key (.value (.object members))) =
            [(key, .object out)] ∧
          Json.RespelledMembers members out := by
  refine ⟨?_, fun items => ?_, fun members => ?_⟩
  · rw [canonical_single, Value.canonical, Document.canonical, Node.canonical_entries doc]
  · exact ⟨_, canonical_single key (.array items), Json.respelled_items items⟩
  · exact ⟨_, canonical_single key (.object members), Json.respelled_members members⟩

end QueryForm
