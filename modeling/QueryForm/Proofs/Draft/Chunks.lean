/-
Rules handed to a draft in chunks.

Documents without repeated keys are merged by writing the entries of one
into the other, which is associative, with the empty document as unit; and
the document of two lists of rules, one behind the other, is the document of
the first merged with that of the second (`Document.ofRules_append`). So it
does not matter how a list of rules is cut up on its way into a draft
(`Draft.chunks_merged`).
-/
import QueryForm.Proofs.Draft

namespace QueryForm

/-- What is handed to a draft at once: one rule, or rules in order. -/
inductive Chunk where
  | push (r : Rule)
  | extend (rules : List Rule)

/-- The rules of a chunk, in order. -/
def Chunk.rules : Chunk → List Rule
  | push r => [r]
  | extend rules => rules

namespace Draft

/-- The draft after a chunk. -/
def feed (d : Draft) : Chunk → Draft
  | .push r => d.push r
  | .extend rules => d.extend rules

/-- A draft is the same however the rules that it is handed are cut up. -/
theorem foldl_feed (d : Draft) (chunks : List Chunk) :
    chunks.foldl feed d = d.extend (chunks.flatMap Chunk.rules) := by
  induction chunks generalizing d with
  | nil => rfl
  | cons chunk chunks ih =>
    have hfeed : d.feed chunk = d.extend chunk.rules := by cases chunk <;> rfl
    have hextend : (d.extend chunk.rules).extend (chunks.flatMap Chunk.rules) =
        d.extend (chunk.rules ++ chunks.flatMap Chunk.rules) := List.foldl_append.symm
    rw [List.foldl_cons, ih, hfeed, hextend, List.flatMap_cons]

theorem folded_extend (d : Draft) (rules : List Rule) :
    (d.extend rules).folded = d.folded + rules.length := by
  induction rules generalizing d with
  | nil => rfl
  | cons r rules ih =>
    have hstep : (d.extend (r :: rules)).folded = (d.push r).folded + rules.length := ih (d.push r)
    have hpush : (d.push r).folded = d.folded + 1 := rfl
    rw [hstep, hpush, List.length_cons]
    omega

end Draft

namespace Document

theorem keys_entries (rules : List Rule) :
    Fields.keys (rules.map Rule.entry) = rules.map Rule.key := by
  simp only [Fields.keys, List.map_map]
  exact List.map_congr_left fun r _ => r.entry_spec.1

theorem distinct_ofRules (rules : List Rule) : Fields.Distinct (ofRules rules) := by
  rw [ofRules_eq]
  exact Fields.distinct_ofPairs _

/-- A document has an entry for each key that some rule writes. -/
theorem length_ofRules (rules : List Rule) :
    (ofRules rules).length = (rules.map Rule.key).toFinset.card := by
  rw [ofRules_eq, Fields.length_ofPairs, keys_entries]

/-- **Rules in two lists.** What rules build is merged as the rules are put one behind the other. -/
theorem ofRules_append (xs ys : List Rule) :
    ofRules (xs ++ ys) = Fields.merge (ofRules xs) (ofRules ys) := by
  rw [ofRules_eq, ofRules_eq, ofRules_eq, List.map_append, Fields.merge_ofPairs, Fields.ofPairs,
    Fields.merge_append]
  rfl

end Document

/-- **Chunks.** Documents that repeat no key form a monoid under merging, with the empty document as
unit, and lists of rules are merged in it as they are put one behind the other. Rules that are
handed to a draft in chunks leave the document, the query and the count that they leave when they
are handed over at once; the document has as many entries as there are keys that they write, and no
more than there are rules. -/
theorem Draft.chunks_merged {a b c : Document} (ha : Fields.Distinct a) (hb : Fields.Distinct b)
    (xs ys : List Rule) (chunks : List Chunk) :
    (Fields.Distinct (Fields.merge a b) ∧
      Fields.merge (Fields.merge a b) c = Fields.merge a (Fields.merge b c) ∧
      Fields.merge a Document.empty = a ∧ Fields.merge Document.empty b = b) ∧
    (Document.ofRules [] = .empty ∧
      Document.ofRules (xs ++ ys) = Fields.merge (Document.ofRules xs) (Document.ofRules ys)) ∧
    let fed := chunks.flatMap Chunk.rules
    let d := chunks.foldl feed {}
    d.document = Document.ofRules fed ∧ d.query = Query.ofRules fed ∧ d.folded = fed.length ∧
      d.document.length = (fed.map Rule.key).toFinset.card ∧ d.document.length ≤ d.folded := by
  refine ⟨⟨Fields.distinct_merge b ha, Fields.merge_merge hb a c, rfl,
    Fields.ofPairs_of_distinct hb⟩, ⟨rfl, Document.ofRules_append xs ys⟩, ?_⟩
  intro fed d
  have hd : d = extend {} fed := foldl_feed {} chunks
  have hdocument : d.document = Document.ofRules fed := congrArg document hd
  have hfolded : d.folded = fed.length := by rw [hd, folded_extend, Nat.zero_add]
  have hlength : d.document.length = (fed.map Rule.key).toFinset.card := by
    rw [hdocument, Document.length_ofRules]
  refine ⟨hdocument, congrArg query hd, hfolded, hlength, ?_⟩
  rw [hlength, hfolded, ← List.length_map Rule.key]
  exact List.toFinset_card_le _

/-- A key of the first document is written again, in its place; a connective is a key like any
other. -/
theorem Draft.chunks_merged_overwritten :
    Fields.Distinct (Fields.merge (Document.single "$or" .absent)
        (Document.ofRules [{ name := "a" }, { name := "a", second := some ⟨.or, "", .eq⟩ }])) ∧
      ([.push { name := "a" }, .extend [{ name := "b" }, { name := "a" }]].foldl feed {}).folded =
        3 := by
  have h := Draft.chunks_merged (a := Document.single "$or" .absent)
    (b := Document.ofRules [{ name := "a" }, { name := "a", second := some ⟨.or, "", .eq⟩ }])
    (c := .empty) (List.nodup_singleton _) (Document.distinct_ofRules _) [] []
    [.push { name := "a" }, .extend [{ name := "b" }, { name := "a" }]]
  exact ⟨h.1.1, h.2.2.2.2.1⟩

end QueryForm
