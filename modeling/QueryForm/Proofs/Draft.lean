/-
What rules compile to, read off the rules without building a document.

A rule writes one key (`Rule.key`) and one value (`Rule.content`), both told
here in terms of JSON alone. `Query.ofRules_reading`: the compiled query has
the written keys, each once and where its first writer put it, and under
each key what its last writer says.

The proof carries one relation through the fold: the document so far and
the query so far have the same keys, and every node of the document has the
canonical form that the query has in its place (`Canonical`). No node that a
rule writes stands for nothing, so canonical form drops no entry.
-/
import QueryForm.Draft
import QueryForm.Proofs.Fields

namespace QueryForm

/-! ## What one rule says -/

namespace Rule

/-- The key that a rule writes: that of its connective where it has a second condition that
counts, else its name. -/
def key (r : Rule) : String :=
  match r.second with
  | some ⟨.and, _, _⟩ => "$and"
  | some ⟨.or, _, _⟩ => "$or"
  | _ => r.name

/-- What one condition of a rule says: the canonical value of a text, bare or under the key of the
comparison. -/
def condition (r : Rule) (raw : String) (comparison : Comparison) : Json :=
  match comparison.key? with
  | none => (Value.convert r.type raw).canonical
  | some key => .object [(key, (Value.convert r.type raw).canonical)]

/-- Two conditions of a rule, each an object whose one key is the rule's name. -/
def pair (r : Rule) (raw : String) (comparison : Comparison) : Json :=
  .array [.object [(r.name, r.condition r.raw r.comparison)],
    .object [(r.name, r.condition raw comparison)]]

/-- What a rule says under its key. -/
def content (r : Rule) : Json :=
  match r.second with
  | some ⟨.and, raw, comparison⟩ => r.pair raw comparison
  | some ⟨.or, raw, comparison⟩ => r.pair raw comparison
  | _ => r.condition r.raw r.comparison

/-- A condition never stands for nothing. -/
theorem canonical?_node (r : Rule) (raw : String) (comparison : Comparison) :
    (r.node raw comparison).canonical? = some (r.condition raw comparison) := by
  cases comparison <;> rfl

theorem canonical?_joined (r : Rule) (raw : String) (comparison : Comparison) :
    (Node.joined [Document.single r.name (r.node r.raw r.comparison),
      Document.single r.name (r.node raw comparison)]).canonical? =
      some (r.pair raw comparison) := by
  simp only [Document.single, Node.canonical?, Node.canonicalParts, Node.canonicalEntries,
    canonical?_node, pair]

/-- A rule writes its key, over a node whose canonical form is what the rule says. -/
theorem entry_spec (r : Rule) :
    r.entry.1 = r.key ∧ r.entry.2.canonical? = some r.content := by
  obtain ⟨name, type, raw, comparison, second⟩ := r
  match second with
  | none => exact ⟨rfl, canonical?_node _ _ _⟩
  | some ⟨.none, _, _⟩ => exact ⟨rfl, canonical?_node _ _ _⟩
  | some ⟨.and, _, _⟩ => exact ⟨rfl, canonical?_joined _ _ _⟩
  | some ⟨.or, _, _⟩ => exact ⟨rfl, canonical?_joined _ _ _⟩

/-- The key and the content of each rule. -/
def written (rules : List Rule) : Fields Json :=
  rules.map fun r => (r.key, r.content)

@[simp] theorem keys_written (rules : List Rule) :
    Fields.keys (written rules) = rules.map key := by
  simp [written, Fields.keys, Function.comp_def]

theorem last?_written (k : String) (rules : List Rule) :
    Fields.last? k (written rules) = (rules.filter (·.key == k)).getLast?.map content := by
  simp [written, Fields.last?, List.filter_map, Function.comp_def]

end Rule

/-! ## Documents and their canonical form -/

/-- A query holds the canonical form of every node of a document, in place. -/
abbrev Canonical (doc : Document) (q : Query) : Prop :=
  Fields.Related (fun node value => node.canonical? = some value) doc q

/-- Where every node has a canonical form, no entry is left out. -/
theorem Canonical.eq {doc : Document} {q : Query} (h : Canonical doc q) : doc.canonical = q := by
  induction h with
  | nil => rfl
  | @cons p v doc q hpv _ ih =>
    obtain ⟨k, node⟩ := p
    obtain ⟨l, value⟩ := v
    obtain ⟨rfl, hv⟩ := hpv
    simp only [Document.canonical] at ih
    simp only [Document.canonical, Node.canonicalEntries, hv, ih]

/-! ## Folding rules -/

theorem Draft.document_extend (d : Draft) (rules : List Rule) :
    (d.extend rules).document = Fields.merge d.document (rules.map Rule.entry) := by
  induction rules generalizing d with
  | nil => rfl
  | cons r rules ih => exact ih (d.push r)

/-- The document of rules is their entries, written one after the other. -/
theorem Document.ofRules_eq (rules : List Rule) :
    Document.ofRules rules = Fields.ofPairs (rules.map Rule.entry) :=
  Draft.document_extend {} rules

theorem canonical_entries (rules : List Rule) :
    Canonical (rules.map Rule.entry) (Rule.written rules) := by
  induction rules with
  | nil => exact .nil
  | cons r rules ih => exact .cons r.entry_spec ih

theorem canonical_ofRules (rules : List Rule) :
    Canonical (Document.ofRules rules) (Fields.ofPairs (Rule.written rules)) := by
  rw [Document.ofRules_eq]
  exact (canonical_entries rules).ofPairs

theorem Query.ofRules_eq (rules : List Rule) :
    Query.ofRules rules = Fields.ofPairs (Rule.written rules) :=
  (canonical_ofRules rules).eq

/-- **The reading of rules.** The query that rules compile to is what their keys and contents come
to: its keys are the written keys, none twice, in the order of their first writers; they are the
keys of the document, so canonical form drops none; and under a key is the content of the last
rule that writes it. -/
theorem Query.ofRules_reading (rules : List Rule) :
    Query.ofRules rules = Fields.resolved (Rule.written rules) ∧
      Fields.keys (Query.ofRules rules) = (rules.map Rule.key).eraseDups ∧
      Fields.Distinct (Query.ofRules rules) ∧
      Fields.keys (Query.ofRules rules) = Fields.keys (Document.ofRules rules) ∧
      ∀ key, Fields.get? key (Query.ofRules rules) =
        (rules.filter (·.key == key)).getLast?.map Rule.content := by
  rw [Query.ofRules_eq]
  refine ⟨Fields.ofPairs_eq_resolved _, ?_, Fields.distinct_ofPairs _, ?_, fun key => ?_⟩
  · rw [Fields.keys_ofPairs, Rule.keys_written]
  · exact (canonical_ofRules rules).keys_eq.symm
  · rw [Fields.get?_ofPairs, Rule.last?_written]

end QueryForm
