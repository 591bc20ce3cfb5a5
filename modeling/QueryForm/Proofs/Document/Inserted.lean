/-
A document after any inserts.

A run of inserts (`Fields.replaceAll`) leaves what merging the same pairs
leaves, and gives back for each of them what was under its key just before
(`getElem?_replaced`). So what is known of written pairs (their keys at the
place of the first, the value of the last) is known of a document that was
collected from pairs and inserted into afterwards, and
`Document.inserts_kept` says it together with what a single insert leaves
alone.
-/
import QueryForm.Document
import QueryForm.Proofs.Fields

namespace QueryForm

namespace Fields

variable {α : Type}

/-- Writes pairs one after the other, and gives what each of them replaced with the fields that are
left in the end. -/
def replaceAll (fields : Fields α) : Fields α → List (Option α) × Fields α
  | [] => ([], fields)
  | (k, v) :: pairs =>
    let (old, fields) := replace k v fields
    let (olds, fields) := replaceAll fields pairs
    (old :: olds, fields)

theorem replaceAll_cons (fields : Fields α) (k : String) (v : α) (pairs : Fields α) :
    replaceAll fields ((k, v) :: pairs) =
      (get? k fields :: (replaceAll (insert k v fields) pairs).1,
        (replaceAll (insert k v fields) pairs).2) := by
  rw [replaceAll, replace_eq]

/-- A run of inserts leaves what is left by merging. -/
theorem replaceAll_left (fields pairs : Fields α) : (replaceAll fields pairs).2 = merge fields pairs := by
  induction pairs generalizing fields with
  | nil => rfl
  | cons p pairs ih =>
    obtain ⟨k, v⟩ := p
    rw [replaceAll_cons]
    exact ih (insert k v fields)

/-- **What an insert gives back** is what was under its key after the inserts before it. -/
theorem getElem?_replaced (fields pairs : Fields α) (i : Nat) :
    (replaceAll fields pairs).1[i]? =
      pairs[i]?.map fun p => get? p.1 (merge fields (pairs.take i)) := by
  induction pairs generalizing fields i with
  | nil => rfl
  | cons p pairs ih =>
    obtain ⟨k, v⟩ := p
    rw [replaceAll_cons]
    cases i with
    | zero => rfl
    | succ i => exact ih (insert k v fields) i

theorem merge_concat (fields pairs : Fields α) (p : String × α) :
    merge fields (pairs ++ [p]) = insert p.1 p.2 (merge fields pairs) :=
  merge_append fields pairs [p]

/-- A key that is present stays where it is. -/
theorem keys_prefix_insert (key : String) (v : α) (fields : Fields α) :
    keys fields <+: keys (insert key v fields) := by
  rw [keys_insert]
  split
  · exact List.prefix_rfl
  · exact List.prefix_append _ _

/-- What is under the keys after one more insert. -/
theorem get?_insert (key other : String) (v : α) (fields : Fields α) :
    get? other (insert key v fields) = if other = key then some v else get? other fields := by
  split
  · next h => rw [h, get?_insert_self]
  · next h => exact get?_insert_of_ne h v fields

/-- **Order.** The keys of written pairs stand in the order in which they were first written. -/
theorem pairwise_keys_ofPairs (pairs : Fields α) :
    (keys (ofPairs pairs)).Pairwise fun k l => (keys pairs).idxOf k < (keys pairs).idxOf l := by
  induction pairs using List.reverseRecOn with
  | nil => exact .nil
  | append_singleton pairs p ih =>
    obtain ⟨k, v⟩ := p
    have hkeys : keys (pairs ++ [(k, v)]) = keys pairs ++ [k] := List.map_append
    have hplace : ∀ l ∈ keys (ofPairs pairs),
        (keys pairs ++ [k]).idxOf l = (keys pairs).idxOf l := fun l hl =>
      List.idxOf_append_of_mem (mem_keys_ofPairs.1 hl)
    have hkept : (keys (ofPairs pairs)).Pairwise fun l m =>
        (keys pairs ++ [k]).idxOf l < (keys pairs ++ [k]).idxOf m := by
      refine ih.imp_of_mem fun {l m} hl hm h => ?_
      rwa [hplace l hl, hplace m hm]
    rw [hkeys, ofPairs, merge_concat, keys_insert]
    split
    · exact hkept
    · next hnew =>
      -- A key that is new is first written now, behind all the others.
      refine List.pairwise_append.2 ⟨hkept, List.pairwise_singleton _ _, fun l hl m hm => ?_⟩
      have hnot : k ∉ keys pairs := fun h => hnew (mem_keys_ofPairs.2 h)
      rw [List.mem_singleton.1 hm, hplace l hl, List.idxOf_append_of_notMem hnot,
        List.idxOf_cons_self, Nat.add_zero]
      exact List.idxOf_lt_length_of_mem (mem_keys_ofPairs.1 hl)

end Fields

namespace Document

open Fields (keys get? last? ofPairs replaceAll)

/-- **Inserts.** A document that is collected from pairs and then inserted into has each key once, in
the order of their first insertion; under a key it has the node that was inserted last, and none
where the key was never inserted, and these are its entries. Every insert gives back what was under
its key, sets that, and leaves what is under every other key and the places of all keys. There are
as many entries as there are keys that were inserted, and to collect them again gives the document
itself. -/
theorem inserts_kept (pairs inserts : Fields Node) :
    let written := pairs ++ inserts
    let after : Nat → Document := fun i => (replaceAll (ofPairs pairs) (inserts.take i)).2
    let doc : Document := (replaceAll (ofPairs pairs) inserts).2
    (Fields.Distinct doc ∧
      (keys doc).Pairwise (fun k l => (keys written).idxOf k < (keys written).idxOf l) ∧
      ∀ key, key ∈ keys doc ↔ key ∈ keys written) ∧
    (∀ key, get? key doc = last? key written ∧ (get? key doc = none ↔ key ∉ keys written) ∧
      ∀ node, (key, node) ∈ doc ↔ get? key doc = some node) ∧
    (∀ i : Fin inserts.length,
      (replaceAll (ofPairs pairs) inserts).1[i.val]? = some (get? inserts[i].1 (after i)) ∧
      (∀ key, get? key (after (i + 1)) =
        if key = inserts[i].1 then some inserts[i].2 else get? key (after i)) ∧
      keys (after i) <+: keys (after (i + 1))) ∧
    doc.length = (keys written).toFinset.card ∧ ofPairs doc = doc := by
  intro written after doc
  have hmerged : ∀ i, after i = Fields.merge (ofPairs pairs) (inserts.take i) := fun i =>
    Fields.replaceAll_left _ _
  have hdoc : doc = ofPairs written :=
    (Fields.replaceAll_left _ _).trans (Fields.merge_append [] pairs inserts).symm
  have hdistinct : Fields.Distinct doc := by
    rw [hdoc]
    exact Fields.distinct_ofPairs written
  refine ⟨⟨hdistinct, ?order, fun key => ?_⟩, fun key => ⟨?last, ?none, fun node => ?_⟩,
    fun i => ?insert, ?length, Fields.ofPairs_of_distinct hdistinct⟩
  case order =>
    rw [hdoc]
    exact Fields.pairwise_keys_ofPairs written
  · rw [hdoc]
    exact Fields.mem_keys_ofPairs
  case last => rw [hdoc, Fields.get?_ofPairs]
  case none => rw [hdoc, Fields.get?_eq_none_iff, Fields.mem_keys_ofPairs]
  · exact (Fields.get?_eq_some_iff hdistinct).symm
  case insert =>
    have hstep : after (i + 1) = Fields.insert inserts[i].1 inserts[i].2 (after i) := by
      rw [hmerged, hmerged, List.take_add_one, List.getElem?_eq_getElem i.isLt]
      exact Fields.merge_concat _ _ _
    refine ⟨?_, fun key => ?_, ?_⟩
    · rw [Fields.getElem?_replaced, List.getElem?_eq_getElem i.isLt, hmerged]
      rfl
    · rw [hstep, Fields.get?_insert]
    · rw [hstep]
      exact Fields.keys_prefix_insert _ _ _
  case length =>
    rw [hdoc]
    exact Fields.length_ofPairs written

end Document

end QueryForm
