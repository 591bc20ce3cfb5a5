/-
Drafts: rules folded one after the other into a document.

Each rule writes one key. A rule with an active second condition writes the
key of its connective, with two documents of the one key that it names, one
for each condition; any other rule writes its own name. A later rule that
writes the same key replaces what an earlier one wrote.
-/
import QueryForm.Canonical
import QueryForm.Rule.Basic

namespace QueryForm

namespace Rule

/-- The node of one of a rule's conditions; both are read as the rule's type. -/
def node (r : Rule) (raw : String) (comparison : Comparison) : Node :=
  .wrap (.convert r.type raw) comparison

/-- The key that a rule writes, and what it writes there. -/
def entry (r : Rule) : String × Node :=
  let first := r.node r.raw r.comparison
  match r.activeSecond with
  | some second =>
    match second.connective.key? with
    | some key =>
      (key, .joined [Document.single r.name first,
        Document.single r.name (r.node second.raw second.comparison)])
    | none => (r.name, first)
  | none => (r.name, first)

end Rule

/-- A document under construction, and how many rules have gone into it. -/
structure Draft where
  document : Document := .empty
  folded : Nat := 0

namespace Draft

/-- The draft after one more rule. -/
def push (d : Draft) (r : Rule) : Draft :=
  ⟨Fields.insert r.entry.1 r.entry.2 d.document, d.folded + 1⟩

/-- The draft after more rules, in order. -/
def extend (d : Draft) (rules : List Rule) : Draft :=
  rules.foldl push d

/-- The query that a draft stands for. -/
def query (d : Draft) : Query :=
  d.document.canonical

end Draft

/-- The document that rules build. -/
def Document.ofRules (rules : List Rule) : Document :=
  (Draft.extend {} rules).document

/-- The query that rules compile to. -/
def Query.ofRules (rules : List Rule) : Query :=
  (Document.ofRules rules).canonical

end QueryForm
