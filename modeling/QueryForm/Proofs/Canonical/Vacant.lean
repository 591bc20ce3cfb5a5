/-
What a query leaves out.

A node is vacant where it is nothing, or equal to a vacant node: these and
only these have no canonical form (`Node.canonical?_eq_none_iff`). Any other
comparison stops that, as its object is there even when it is empty, and so
do documents joined under a key, each of which keeps its place.

`Document.strip` takes the vacant entries out of a document, and the
equalities, at any depth. The query stays the same
(`Document.canonical_strip`).
-/
import QueryForm.Proofs.Canonical.Place
import QueryForm.Proofs.Document

namespace QueryForm

namespace Node

/-- A node that stands for nothing. -/
def vacant : Node → Bool
  | absent => true
  | tagged comparison operand => comparison.isEquality && vacant operand
  | value _ => false
  | joined _ => false

mutual

/-- The node with the operands of equalities in their place, and without vacant entries. -/
def strip : Node → Node
  | value v => value v
  | tagged comparison operand =>
    if comparison.isEquality then strip operand else tagged comparison (strip operand)
  | joined parts => joined (stripParts parts)
  | absent => absent

/-- The stripped documents, one by one. -/
def stripParts : List (List (String × Node)) → List (List (String × Node))
  | [] => []
  | part :: parts => stripEntries part :: stripParts parts

/-- The entries that are not vacant, stripped. -/
def stripEntries : List (String × Node) → List (String × Node)
  | [] => []
  | (key, node) :: entries =>
    if vacant node then stripEntries entries else (key, strip node) :: stripEntries entries

end

mutual

/-- No comparison in the node is equality, and no entry is vacant. -/
def Stripped : Node → Prop
  | value _ => True
  | tagged comparison operand => comparison.isEquality = false ∧ Stripped operand
  | joined parts => StrippedParts parts
  | absent => True

/-- The documents are stripped, one by one. -/
def StrippedParts : List (List (String × Node)) → Prop
  | [] => True
  | part :: parts => StrippedEntries part ∧ StrippedParts parts

/-- No entry is vacant, and all are stripped. -/
def StrippedEntries : List (String × Node) → Prop
  | [] => True
  | (_, node) :: entries => vacant node = false ∧ Stripped node ∧ StrippedEntries entries

end

/-! ## Comparisons -/

theorem canonical?_equality {comparison : Comparison} (h : comparison.isEquality = true)
    (operand : Node) : (tagged comparison operand).canonical? = operand.canonical? := by
  cases comparison <;> first | rfl | cases h

/-- A comparison other than equality has an object, with what the operand comes to or empty. -/
theorem canonical?_comparison {comparison : Comparison} (h : comparison.isEquality = false) :
    ∃ key, ∀ operand : Node, (tagged comparison operand).canonical? =
      some (.object (operand.canonical?.toList.map fun v => (key, v))) := by
  obtain ⟨key, hkey⟩ : ∃ key, comparison.key? = some key := by
    cases comparison <;> first | exact ⟨_, rfl⟩ | cases h
  refine ⟨key, fun operand => ?_⟩
  rw [canonical?, hkey]
  cases operand.canonical? <;> rfl

/-- **Vacant nodes** are those without a canonical form. -/
theorem canonical?_eq_none_iff : ∀ node : Node, node.canonical? = none ↔ node.vacant = true
  | value _ => by simp [canonical?, vacant]
  | tagged comparison operand => by
    rw [vacant]
    cases heq : comparison.isEquality with
    | true =>
      rw [canonical?_equality heq, Bool.true_and]
      exact canonical?_eq_none_iff operand
    | false =>
      obtain ⟨key, hkey⟩ := canonical?_comparison heq
      simp [hkey]
  | joined _ => by simp [canonical?, vacant]
  | absent => by simp [canonical?, vacant]

/-! ## Stripping -/

mutual

theorem canonical?_strip : ∀ node : Node, node.strip.canonical? = node.canonical?
  | value _ => by rw [strip]
  | tagged comparison operand => by
    have ih := canonical?_strip operand
    rw [strip]
    cases heq : comparison.isEquality with
    | true => rw [if_pos rfl, canonical?_equality heq, ih]
    | false =>
      obtain ⟨key, hkey⟩ := canonical?_comparison heq
      rw [if_neg Bool.false_ne_true, hkey, hkey, ih]
  | joined parts => by rw [strip, canonical?, canonical?, canonicalParts_strip parts]
  | absent => by rw [strip]

theorem canonicalParts_strip : ∀ parts : List (List (String × Node)),
    canonicalParts (stripParts parts) = canonicalParts parts
  | [] => by rw [stripParts]
  | part :: parts => by
    rw [stripParts, canonicalParts, canonicalParts, canonicalEntries_strip part,
      canonicalParts_strip parts]

theorem canonicalEntries_strip : ∀ entries : List (String × Node),
    canonicalEntries (stripEntries entries) = canonicalEntries entries
  | [] => by rw [stripEntries]
  | (key, node) :: entries => by
    have ih := canonicalEntries_strip entries
    rw [stripEntries]
    split
    · next h =>
      rw [ih, canonicalEntries, (canonical?_eq_none_iff node).2 h]
    · rw [canonicalEntries, canonicalEntries, canonical?_strip node, ih]

end

theorem vacant_strip (node : Node) : node.strip.vacant = node.vacant := by
  rw [Bool.eq_iff_iff, ← canonical?_eq_none_iff, ← canonical?_eq_none_iff, canonical?_strip]

mutual

theorem stripped_strip : ∀ node : Node, node.strip.Stripped
  | value _ => by
    rw [strip]
    trivial
  | tagged comparison operand => by
    have ih := stripped_strip operand
    rw [strip]
    split
    · exact ih
    · next h => exact ⟨Bool.eq_false_iff.2 h, ih⟩
  | joined parts => by
    rw [strip]
    exact stripped_stripParts parts
  | absent => by
    rw [strip]
    trivial

theorem stripped_stripParts : ∀ parts : List (List (String × Node)),
    StrippedParts (stripParts parts)
  | [] => by
    rw [stripParts]
    trivial
  | part :: parts => by
    rw [stripParts]
    exact ⟨stripped_stripEntries part, stripped_stripParts parts⟩

theorem stripped_stripEntries : ∀ entries : List (String × Node),
    StrippedEntries (stripEntries entries)
  | [] => by
    rw [stripEntries]
    trivial
  | (key, node) :: entries => by
    have ih := stripped_stripEntries entries
    rw [stripEntries]
    split
    · exact ih
    · next h =>
      -- Stripping may bare a node that was under an equality, but makes none vacant.
      refine ⟨?_, stripped_strip node, ih⟩
      rw [vacant_strip]
      exact Bool.eq_false_iff.2 h

end

/-! ## Keys -/

/-- The keys of a query are those of the entries that are not vacant. -/
theorem keys_canonical (doc : List (String × Node)) :
    Fields.keys (canonicalEntries doc) = Fields.keys (doc.filter fun p => !p.2.vacant) := by
  induction doc with
  | nil => rfl
  | cons entry doc ih =>
    obtain ⟨key, node⟩ := entry
    simp only [Fields.keys] at ih ⊢
    rw [canonicalEntries]
    split
    · next v hv =>
      have hkept : node.vacant = false := by
        rw [Bool.eq_false_iff, ne_eq, ← canonical?_eq_none_iff, hv]
        exact Option.some_ne_none v
      rw [List.filter_cons_of_pos (by simp [hkept]), List.map_cons, List.map_cons, ih]
    · next hnone =>
      have hvacant := (canonical?_eq_none_iff node).1 hnone
      rw [List.filter_cons_of_neg (by simp [hvacant]), ih]

/-- A query is empty where every entry is vacant. -/
theorem canonicalEntries_eq_nil_iff (doc : List (String × Node)) :
    canonicalEntries doc = [] ↔ ∀ p ∈ doc, p.2.vacant = true := by
  have hkeys := keys_canonical doc
  rw [Fields.keys, Fields.keys] at hkeys
  rw [← List.map_eq_nil_iff, hkeys, List.map_eq_nil_iff, List.filter_eq_nil_iff]
  simp

/-! ## Documents that are put together by hand -/

theorem stripEntries_eq (entries : List (String × Node)) :
    stripEntries entries =
      (entries.filter fun p => !p.2.vacant).map fun p => (p.1, p.2.strip) := by
  induction entries with
  | nil => rw [stripEntries]; rfl
  | cons entry entries ih =>
    obtain ⟨key, node⟩ := entry
    rw [stripEntries]
    split
    · next h => rw [List.filter_cons_of_neg (by simp [h]), ih]
    · next h => rw [List.filter_cons_of_pos (by simp [h]), List.map_cons, ih]

/-- Stripping leaves entries out and keeps the others in order. -/
theorem keys_stripEntries (entries : List (String × Node)) :
    (Fields.keys (stripEntries entries)).Sublist (Fields.keys entries) := by
  rw [stripEntries_eq, Fields.keys, Fields.keys, List.map_map]
  exact (List.filter_sublist (p := fun p : String × Node => !p.2.vacant)).map _

end Node

theorem Document.Assembled.entries : ∀ {doc : Document}, doc.Assembled → ∀ p ∈ doc, p.2.Assembled
  | _, .empty, _, hp => nomatch hp
  | _, .insert hdoc hnode, p, hp => by
    rcases Fields.mem_insert hp with rfl | hp
    · exact hnode
    · exact hdoc.entries p hp

/-- Entries that repeat no key can be written one at a time. -/
theorem Document.Assembled.of_distinct {doc : Document} (hkeys : Fields.Distinct doc)
    (h : ∀ p ∈ doc, p.2.Assembled) : doc.Assembled := by
  have hwritten := Document.Assembled.merge .empty h
  have hsame : Fields.merge Document.empty doc = doc := Fields.ofPairs_of_distinct hkeys
  rwa [hsame] at hwritten

mutual

theorem Node.assembled_strip : ∀ node : Node, node.Assembled → node.strip.Assembled
  | .value _, h => by rwa [Node.strip]
  | .tagged comparison operand, .tagged h => by
    have ih := Node.assembled_strip operand h
    rw [Node.strip]
    split
    · exact ih
    · exact .tagged ih
  | .joined parts, .joined h => by
    rw [Node.strip]
    exact .joined (Node.assembled_stripParts parts h)
  | .absent, h => by rwa [Node.strip]

theorem Node.assembled_stripParts : ∀ parts : List Document,
    (∀ part ∈ parts, Document.Assembled part) →
      ∀ part ∈ Node.stripParts parts, Document.Assembled part
  | [], _ => by simp [Node.stripParts]
  | part :: parts, h => by
    obtain ⟨hpart, hparts⟩ := List.forall_mem_cons.1 h
    rw [Node.stripParts]
    exact List.forall_mem_cons.2
      ⟨.of_distinct (hpart.distinct.1.sublist (Node.keys_stripEntries part))
        (Node.assembled_stripEntries part hpart.entries),
      Node.assembled_stripParts parts hparts⟩

theorem Node.assembled_stripEntries : ∀ entries : List (String × Node),
    (∀ p ∈ entries, p.2.Assembled) → ∀ p ∈ Node.stripEntries entries, p.2.Assembled
  | [], _ => by simp [Node.stripEntries]
  | (key, node) :: entries, h => by
    obtain ⟨hnode, hentries⟩ := List.forall_mem_cons.1 h
    have ih := Node.assembled_stripEntries entries hentries
    rw [Node.stripEntries]
    split
    · exact ih
    · exact List.forall_mem_cons.2 ⟨Node.assembled_strip node hnode, ih⟩

end

/-- A document without its vacant entries and without equalities. -/
def Document.strip (doc : Document) : Document :=
  Node.stripEntries doc

/-- What is put together by hand stays so when it is stripped. -/
theorem Document.Assembled.strip {doc : Document} (h : doc.Assembled) : doc.strip.Assembled :=
  .of_distinct (h.distinct.1.sublist (Node.keys_stripEntries doc))
    (Node.assembled_stripEntries doc h.entries)

/-- **What a query leaves out.** A document and what is left of it without its vacant entries and
without equalities have the same query. In every document, joined ones too, the keys of the query
are those of the entries that are not vacant, in order. Joined documents stay joined, all of them
and in order, and those without other entries are empty objects. Under a comparison other than
equality a vacant node leaves an empty object. -/
theorem Document.canonical_strip (doc : Document) :
    doc.strip.canonical = doc.canonical ∧ Node.StrippedEntries doc.strip ∧
      (doc.Assembled → doc.strip.Assembled) ∧
      Fields.keys doc.canonical = Fields.keys (doc.filter fun p => !p.2.vacant) ∧
      (∀ (place : Document.Place) (parts : List Document),
        (place.fill (.joined parts)).canonical =
            place.around (.array (parts.map fun part => .object part.canonical)) ∧
          ∀ part ∈ parts,
            Fields.keys part.canonical = Fields.keys (part.filter fun p => !p.2.vacant) ∧
              (part.canonical = [] ↔ ∀ p ∈ part, p.2.vacant = true)) ∧
      ∀ (place : Document.Place) (comparison : Comparison) (operand : Node),
        comparison.isEquality = false → operand.vacant = true →
          (place.fill (.tagged comparison operand)).canonical = place.around (.object []) := by
  refine ⟨Node.canonicalEntries_strip doc, Node.stripped_stripEntries doc, fun h => h.strip,
    Node.keys_canonical doc, fun place parts => ⟨?_, fun part _ => ?_⟩,
    fun place comparison operand heq hvacant => ?_⟩
  · rw [← Node.canonicalParts_eq_map]
    exact place.canonical_fill rfl
  · exact ⟨Node.keys_canonical part, Node.canonicalEntries_eq_nil_iff part⟩
  · obtain ⟨key, hkey⟩ := Node.canonical?_comparison heq
    refine place.canonical_fill ?_
    rw [hkey, (Node.canonical?_eq_none_iff operand).2 hvacant]
    rfl

/-- An entry that is equal to nothing goes, and one that is greater than that is an empty object. -/
theorem Document.canonical_strip_empty :
    let doc : Document :=
      [("gone", .tagged .eq .absent), ("op", .tagged .gt (.tagged .eq .absent)),
        ("$or", .joined [[("a", .absent)]])]
    doc.Assembled ∧ doc.strip.Assembled ∧
      Comparison.gt.isEquality = false ∧ (Node.tagged .eq .absent).vacant = true ∧
      doc.canonical = [("op", .object []), ("$or", .array [.object []])] := by
  intro doc
  have hpart : Document.Assembled [("a", .absent)] := .single .absent "a"
  have hor : (Node.joined [[("a", .absent)]]).Assembled := .joined (by simpa using hpart)
  have hdoc : doc.Assembled := by
    refine .of_distinct (by decide : ["gone", "op", "$or"].Nodup) ?_
    simp only [doc, List.forall_mem_cons]
    exact ⟨.tagged .absent, .tagged (.tagged .absent), hor, List.forall_mem_nil _⟩
  obtain ⟨-, -, hstrip, -, -, hempty⟩ := Document.canonical_strip doc
  exact ⟨hdoc, hstrip hdoc, rfl, rfl, hempty ⟨[("gone", .tagged .eq .absent)], "op", [],
    [("$or", .joined [[("a", .absent)]])]⟩ .gt (.tagged .eq .absent) rfl rfl⟩

end QueryForm
