/-
Documents that are put together by hand, and the queries that they stand
for.

A document is written one key at a time, so it repeats none
(`Document.Assembled`); the documents that rules build are among these
(`assembled_ofRules`). Canonical form leaves entries out but adds no key, so
no object of a query repeats a key, at any depth. With that, the text of a
query says all there is to say about it (`Query.read_text_iff`).
-/
import QueryForm.Proofs.Draft
import QueryForm.Proofs.Json.RoundTrip

namespace QueryForm

/-! ## Values -/

/-- The containers of a value repeat no key. -/
def Value.Distinct : Value → Prop
  | .array items => (Json.array items).Distinct
  | .object members => (Json.object members).Distinct
  | _ => True

namespace Literal

theorem distinct_of_value? {text : String} {value : Json} (h : value? text = some value) :
    value.Distinct := by
  rw [value?, Option.bind_eq_bind, Option.bind_eq_some_iff] at h
  obtain ⟨tree, -, hvalue⟩ := h
  exact Tree.distinct_of_value? hvalue

theorem distinct_items (text : String) : (Json.array (items text)).Distinct := by
  rw [items]
  split
  · next h => exact distinct_of_value? h
  · trivial

theorem distinct_members (text : String) : (Json.object (members text)).Distinct := by
  rw [members]
  split
  · next h => exact distinct_of_value? h
  · exact ⟨List.nodup_nil, trivial⟩

end Literal

/-- A value that is read from a text repeats no key. -/
theorem Value.distinct_convert (type : ValueType) (raw : String) : (convert type raw).Distinct := by
  cases type with
  | text | integer | float => trivial
  | array => exact Literal.distinct_items raw
  | object => exact Literal.distinct_members raw

/-! ## Documents -/

mutual

/-- A node that is put together from values, nodes and documents. -/
inductive Node.Assembled : Node → Prop
  | value {v} : v.Distinct → Node.Assembled (.value v)
  | tagged {comparison operand} : Node.Assembled operand →
      Node.Assembled (.tagged comparison operand)
  | joined {parts} : (∀ part ∈ parts, Document.Assembled part) → Node.Assembled (.joined parts)
  | absent : Node.Assembled .absent

/-- A document that is written one key at a time. -/
inductive Document.Assembled : Document → Prop
  | empty : Document.Assembled .empty
  | insert {doc key node} : Document.Assembled doc → Node.Assembled node →
      Document.Assembled (Fields.insert key node doc)

end

theorem Document.Assembled.single {node : Node} (h : node.Assembled) (key : String) :
    (Document.single key node).Assembled :=
  .insert .empty h

theorem Document.Assembled.merge {doc pairs : Document} (h : doc.Assembled)
    (hp : ∀ p ∈ pairs, p.2.Assembled) : Document.Assembled (Fields.merge doc pairs) := by
  induction pairs generalizing doc with
  | nil => exact h
  | cons p pairs ih =>
    obtain ⟨hfirst, hpairs⟩ := List.forall_mem_cons.1 hp
    exact ih (.insert h hfirst) hpairs

namespace Rule

theorem assembled_node (r : Rule) (raw : String) (comparison : Comparison) :
    (r.node raw comparison).Assembled := by
  have hvalue := Node.Assembled.value (Value.distinct_convert r.type raw)
  rw [node, Node.wrap]
  split
  · exact hvalue
  · exact .tagged hvalue

theorem assembled_entry (r : Rule) : r.entry.2.Assembled := by
  have hfirst := r.assembled_node r.raw r.comparison
  unfold entry
  split
  · next second _ =>
    split
    · refine .joined fun part hpart => ?_
      rcases List.mem_pair.1 hpart with rfl | rfl
      · exact .single hfirst _
      · exact .single (r.assembled_node second.raw second.comparison) _
    · exact hfirst
  · exact hfirst

end Rule

/-- What rules build is put together by hand. -/
theorem Document.assembled_ofRules (rules : List Rule) : (Document.ofRules rules).Assembled := by
  rw [Document.ofRules_eq]
  refine Document.Assembled.merge .empty fun p hp => ?_
  obtain ⟨r, -, rfl⟩ := List.mem_map.1 hp
  exact r.assembled_entry

/-! ## Canonical forms -/

namespace Json

theorem keys_canonicalMembers (members : List (String × Json)) :
    Fields.keys (canonicalMembers members) = Fields.keys members := by
  induction members with
  | nil => rfl
  | cons m members ih =>
    simp only [canonicalMembers, Fields.keys, List.map_cons] at ih ⊢
    rw [ih]

mutual

/-- Canonical form leaves the keys of objects as they are. -/
theorem eachObject_canonical {P : List String → Prop} : ∀ value : Json, value.EachObject P →
    value.canonical.EachObject P
  | null, _ | bool _, _ | string _, _ => trivial
  | number n, _ => by
    rw [canonical]
    split <;> trivial
  | array items, h => eachItem_canonical items h
  | object members, h => by
    have hkeys := keys_canonicalMembers members
    rw [canonical, EachObject, hkeys]
    exact ⟨h.1, eachMember_canonical members h.2⟩

theorem eachItem_canonical {P : List String → Prop} : ∀ items : List Json, EachItem P items →
    EachItem P (canonicalItems items)
  | [], _ => trivial
  | item :: items, h => ⟨eachObject_canonical item h.1, eachItem_canonical items h.2⟩

theorem eachMember_canonical {P : List String → Prop} : ∀ members : List (String × Json),
    EachMember P members → EachMember P (canonicalMembers members)
  | [], _ => trivial
  | (_, value) :: members, h => ⟨eachObject_canonical value h.1, eachMember_canonical members h.2⟩

end

end Json

theorem Value.Distinct.canonical {v : Value} (h : v.Distinct) : v.canonical.Distinct := by
  cases v with
  | text => trivial
  | number x => cases x <;> trivial
  | array items => exact Json.eachItem_canonical items h
  | object members => exact Json.eachObject_canonical (.object members) h

theorem Node.mem_canonicalEntries {key : String} {value : Json} {doc : List (String × Node)}
    (h : (key, value) ∈ canonicalEntries doc) :
    ∃ node, (key, node) ∈ doc ∧ node.canonical? = some value := by
  induction doc with
  | nil => cases h
  | cons entry doc ih =>
    obtain ⟨k, node⟩ := entry
    rw [canonicalEntries] at h
    split at h
    · next v hv =>
      rcases List.mem_cons.1 h with heq | h
      · cases heq
        exact ⟨node, List.mem_cons_self, hv⟩
      · obtain ⟨n, hn, hvalue⟩ := ih h
        exact ⟨n, List.mem_cons_of_mem _ hn, hvalue⟩
    · obtain ⟨n, hn, hvalue⟩ := ih h
      exact ⟨n, List.mem_cons_of_mem _ hn, hvalue⟩

/-- Canonical form leaves entries out and keeps the others in order. -/
theorem Node.keys_canonicalEntries (doc : List (String × Node)) :
    (Fields.keys (canonicalEntries doc)).Sublist (Fields.keys doc) := by
  induction doc with
  | nil => exact .slnil
  | cons entry doc ih =>
    obtain ⟨k, node⟩ := entry
    rw [canonicalEntries]
    split
    · exact ih.cons_cons k
    · exact ih.cons k

theorem Node.mem_canonicalParts {value : Json} {parts : List (List (String × Node))}
    (h : value ∈ canonicalParts parts) :
    ∃ part ∈ parts, value = .object (canonicalEntries part) := by
  induction parts with
  | nil => cases h
  | cons part parts ih =>
    rcases List.mem_cons.1 h with rfl | h
    · exact ⟨part, List.mem_cons_self, rfl⟩
    · obtain ⟨p, hp, hvalue⟩ := ih h
      exact ⟨p, List.mem_cons_of_mem _ hp, hvalue⟩

/-- An object repeats no key when the entries it comes from do not, and none of its values does. -/
theorem Document.distinct_canonical {doc : Document} (hkeys : Fields.Distinct doc)
    (hvalues : ∀ p ∈ doc, ∀ value, p.2.canonical? = some value → value.Distinct) :
    (Json.object doc.canonical).Distinct := by
  refine ⟨hkeys.sublist (Node.keys_canonicalEntries doc), Json.eachMember_iff.2 fun m hm => ?_⟩
  obtain ⟨node, hnode, hvalue⟩ := Node.mem_canonicalEntries hm
  exact hvalues _ hnode _ hvalue

mutual

theorem Node.Assembled.distinct : ∀ {node : Node}, node.Assembled → ∀ value,
    node.canonical? = some value → value.Distinct
  | _, .value hv, value, h => by
    cases h
    exact hv.canonical
  | .tagged comparison operand, .tagged ho, value, h => by
    rw [Node.canonical?] at h
    split at h
    · split at h
      · next v hv =>
        cases h
        exact ⟨by simp [Fields.keys], ho.distinct v hv, trivial⟩
      · cases h
        exact ⟨List.nodup_nil, trivial⟩
    · exact ho.distinct value h
  | .joined parts, .joined hparts, value, h => by
    cases h
    refine Json.eachItem_iff.2 fun item hitem => ?_
    obtain ⟨part, hpart, rfl⟩ := Node.mem_canonicalParts hitem
    obtain ⟨hkeys, hvalues⟩ := (hparts part hpart).distinct
    exact Document.distinct_canonical hkeys hvalues
  | _, .absent, _, h => nomatch h

theorem Document.Assembled.distinct : ∀ {doc : Document}, doc.Assembled →
    Fields.Distinct doc ∧ ∀ p ∈ doc, ∀ value, p.2.canonical? = some value → value.Distinct
  | _, .empty => ⟨List.nodup_nil, by simp [Document.empty]⟩
  | _, .insert hdoc hnode => by
    obtain ⟨hkeys, hvalues⟩ := hdoc.distinct
    refine ⟨Fields.distinct_insert _ _ hkeys, fun p hp => ?_⟩
    rcases Fields.mem_insert hp with rfl | hp
    · exact hnode.distinct
    · exact hvalues p hp

end

/-! ## Queries -/

/-- **Queries repeat no key**, at any depth. -/
theorem Document.Assembled.distinct_query {doc : Document} (h : doc.Assembled) :
    (Json.object doc.canonical).Distinct :=
  Document.distinct_canonical h.distinct.1 h.distinct.2

/-- **Queries as text.** The compact text of a query, compiled from rules or the canonical form of a
document that is put together by hand, is read back as the same query exactly when its containers
nest no deeper than the reader goes and no object in it begins with the key of a number. -/
theorem Query.read_text_iff {q : Query}
    (h : (∃ rules, q = Query.ofRules rules) ∨ ∃ doc : Document, doc.Assembled ∧ q = doc.canonical) :
    Json.ofText? Json.depthLimit q.text = some (.object q) ↔
      (Json.object q).depth ≤ Json.depthLimit ∧ (Json.object q).Plain := by
  have hdistinct : (Json.object q).Distinct := by
    rcases h with ⟨rules, rfl⟩ | ⟨doc, hdoc, rfl⟩
    · exact (Document.assembled_ofRules rules).distinct_query
    · exact hdoc.distinct_query
  rw [Query.text, Json.ofText?_text_iff]
  simp [hdistinct]

theorem Query.read_text_iff_control :
    Json.ofText? Json.depthLimit
        (Query.ofRules [⟨"\n", .text, "\x00é", .gt, some ⟨.or, "\\", .eq⟩⟩]).text =
      some (.object (Query.ofRules [⟨"\n", .text, "\x00é", .gt, some ⟨.or, "\\", .eq⟩⟩])) := by
  refine (Query.read_text_iff (.inl ⟨_, rfl⟩)).2 ⟨by decide, ?_⟩
  have : Query.ofRules [⟨"\n", .text, "\x00é", .gt, some ⟨.or, "\\", .eq⟩⟩] =
      [("$or", .array [.object [("\n", .object [("$gt", .string "\x00é")])],
        .object [("\n", .string "\\")]])] := rfl
  rw [this]
  simp [Json.Plain, Json.EachObject, Json.EachItem, Json.EachMember, Fields.keys, Tree.numberKey]

end QueryForm
