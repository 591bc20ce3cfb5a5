/-
Addresses say what was asked for: two requests have the same address only if
they ask the same of the same collection (`Client.sent_eq_iff`).

Slashes separate the parts of an address, and are neither escaped nor
forbidden inside them. What separates the documents all the same is that in
the text of a value every slash is inside quotes: were the text of one value
to end, behind a slash, with the text of another, the second would be read
from inside quotes and from outside at once, and the two readings could not
end on the same side (`slash_chars_unique`).
-/
import Mathlib.Data.List.Induction
import QueryForm.Backend.Client
import QueryForm.Proofs.Json.Nesting
import QueryForm.Proofs.Json.Writer
import QueryForm.Proofs.Text.Percent

namespace QueryForm.Backend

open Nesting (Scan Passes)

/-! ## Where a document begins -/

theorem passes_chars (value : Json) :
    ∃ n, Passes (.outside 0 0) value.chars (.outside 0 n) :=
  ⟨_, Nesting.crosses_of_spelledBy (Json.spelledBy_chars value) 0 0 (Nat.le_refl 0)⟩

/-- The text of no value ends, behind a slash, with the text of a value. -/
theorem chars_ne_slash (a b : Json) (before : List Char) : b.chars ≠ before ++ '/' :: a.chars := by
  intro h
  obtain ⟨m, ha⟩ := passes_chars a
  obtain ⟨n, hb⟩ := passes_chars b
  rw [h] at hb
  obtain ⟨s, -, hs⟩ := hb.split
  cases hs with
  | cons hslash hs =>
    have hquoted : s.quoted = true := by
      cases hq : s.quoted with
      | true => rfl
      | false => exact absurd rfl (hslash hq).2
    -- Behind the slash the pass is still inside quotes, and escapes nothing.
    have hstep : (s.step '/').quoted = true ∧ (s.step '/').escaped = false := by
      obtain ⟨current, deepest, quoted, escaped⟩ := s
      cases hquoted
      cases escaped <;> exact ⟨rfl, rfl⟩
    have := hs.opposite ha hstep.2 rfl (by rw [hstep.1]; rfl)
    simp [Scan.outside] at this

/-- A text with the text of a value behind its last separating slash is so in one way only. -/
theorem slash_chars_unique {a b : Json} {x y : List Char}
    (h : x ++ '/' :: a.chars = y ++ '/' :: b.chars) : x = y ∧ a = b := by
  have side : ∀ {a b : Json} {x y zs : List Char}, y = x ++ zs →
      '/' :: a.chars = zs ++ '/' :: b.chars → x = y ∧ a = b := by
    intro a b x y zs hy hzs
    cases zs with
    | nil =>
      obtain ⟨-, hchars⟩ := List.cons.inj hzs
      exact ⟨by rw [hy, List.append_nil], Json.chars_injective hchars⟩
    | cons z zs =>
      obtain ⟨-, hchars⟩ := List.cons.inj hzs
      exact absurd hchars (chars_ne_slash b a zs)
  rcases List.append_eq_append_iff.1 h with ⟨zs, hy, hzs⟩ | ⟨zs, hx, hzs⟩
  · exact side hy hzs
  · obtain ⟨hxy, hab⟩ := side hx hzs
    exact ⟨hxy.symm, hab.symm⟩

/-- Documents as they stand in an address, each behind a slash. -/
def segments (documents : List Json) : List Char :=
  documents.flatMap fun d => '/' :: d.chars

theorem segments_unique {ds es : List Json} (hlen : ds.length = es.length) {x y : List Char}
    (h : x ++ segments ds = y ++ segments es) : x = y ∧ ds = es := by
  induction ds using List.reverseRecOn generalizing es with
  | nil =>
    cases List.length_eq_zero_iff.1 hlen.symm
    simpa [segments] using h
  | append_singleton ds d ih =>
    rcases List.eq_nil_or_concat es with rfl | ⟨es, e, rfl⟩
    · simp at hlen
    · have hsnoc : ∀ (cs : List Json) (c : Json),
          segments (cs ++ [c]) = segments cs ++ '/' :: c.chars := by
        intro cs c
        simp [segments]
      rw [List.concat_eq_append, hsnoc, hsnoc, ← List.append_assoc, ← List.append_assoc] at h
      obtain ⟨hrest, rfl⟩ := slash_chars_unique h
      obtain ⟨hxy, rfl⟩ := ih (by simpa using hlen) hrest
      exact ⟨hxy, by rw [List.concat_eq_append]⟩

/-! ## What a request says -/

namespace Request

/-- A request with the documents it leaves out where leaving them out says the same: a search or
a deletion without a filter matches everything. -/
def normal : Request → Request
  | find none => find (some [])
  | delete none => delete (some [])
  | r => r

theorem operation_normal (r : Request) : r.normal.operation = r.operation := by
  fun_cases normal r <;> rfl

theorem documents_normal (r : Request) : r.normal.documents = r.documents := by
  fun_cases normal r <;> rfl

end Request

theorem documentOrNull_injective {p q : Option Query} (h : documentOrNull p = documentOrNull q) :
    p = q := by
  cases p <;> cases q <;> simp [documentOrNull] at h ⊢
  exact h

theorem filterOrEmpty_eq {p q : Option Query} (h : filterOrEmpty p = filterOrEmpty q) :
    p.getD [] = q.getD [] := by
  cases p <;> cases q <;> simp [filterOrEmpty] at h ⊢ <;> exact h

theorem setDocument_injective {p q : Option Query} (h : setDocument p = setDocument q) : p = q := by
  simp only [setDocument, Json.object.injEq, List.cons.injEq, Prod.mk.injEq] at h
  exact documentOrNull_injective h.1.2

namespace Request

theorem normal_find (p : Option Query) : (find p).normal = find (some (p.getD [])) := by
  cases p <;> rfl

theorem normal_delete (p : Option Query) : (delete p).normal = delete (some (p.getD [])) := by
  cases p <;> rfl

/-- A request is its operation and its documents, but for documents that may be left out. -/
theorem normal_eq_of_documents {q r : Request} (ho : q.operation = r.operation)
    (hd : q.documents = r.documents) : q.normal = r.normal := by
  cases q <;> cases r <;> cases ho
  case insert.insert p q => rw [documentOrNull_injective (List.cons.inj hd).1]
  case find.find p q => rw [normal_find, normal_find, filterOrEmpty_eq (List.cons.inj hd).1]
  case update.update p d q e =>
    obtain ⟨hp, hd⟩ := List.cons.inj hd
    rw [documentOrNull_injective hp, setDocument_injective (List.cons.inj hd).1]
  case delete.delete p q => rw [normal_delete, normal_delete, filterOrEmpty_eq (List.cons.inj hd).1]
  case empty.empty | drop.drop => rfl

theorem length_documents {q r : Request} (h : q.operation = r.operation) :
    q.documents.length = r.documents.length := by
  cases q <;> cases r <;> simp_all [operation, documents]

end Request

theorem operation_unique {o p : Operation} {x y : List Char}
    (h : o.name.toList ++ '/' :: x = p.name.toList ++ '/' :: y) : o = p ∧ x = y := by
  cases o <;> cases p <;> simp [Operation.name] at h ⊢ <;> exact h

theorem plainAddress_eq (s : Settings) (o : Operation) (collection : String) (ds : List Json) :
    plainAddress s o collection (ds.map Json.text) = String.ofList
      (s.root ++ '/' :: (o.name.toList ++ '/' :: (collection.toList ++ segments ds))) := by
  simp [plainAddress, segments, Json.text, List.flatMap_map]

/-- The address of a request determines the collection, the operation and the documents. -/
theorem plainAddress_unique {s : Settings} {a b : String} {q r : Request}
    (h : plainAddress s q.operation a (q.documents.map Json.text) =
      plainAddress s r.operation b (r.documents.map Json.text)) :
    a = b ∧ q.operation = r.operation ∧ q.documents = r.documents := by
  rw [plainAddress_eq, plainAddress_eq] at h
  have hpath := (List.cons.inj (List.append_cancel_left (String.ofList_inj.1 h))).2
  obtain ⟨ho, hrest⟩ := operation_unique hpath
  obtain ⟨hcollection, hd⟩ := segments_unique (Request.length_documents ho) hrest
  exact ⟨String.toList_inj.1 hcollection, ho, hd⟩

namespace Client

/-- The address that a request is recorded under. -/
theorem sent_send (c : Client) {collection : String} (h : collection ≠ "") (r : Request) :
    (c.send collection r).1.sent = c.sent ++ [Text.percentEncode
      (plainAddress c.settings r.operation collection (r.documents.map Json.text))] := by
  simp only [send, Request.address, Backend.address, if_neg h, get]
  split <;> rfl

/-- **Addresses.** Two requests of a client are recorded under the same address exactly when they
name the same collection and are the same, but for a filter left out and the empty filter in
searches and deletions. -/
theorem sent_eq_iff {c d : Client} (hs : c.settings = d.settings) {a b : String} (ha : a ≠ "")
    (hb : b ≠ "") {q r : Request} :
    (c.send a q).1.sent.getLast? = (d.send b r).1.sent.getLast? ↔
      a = b ∧ q.normal = r.normal := by
  rw [sent_send c ha, sent_send d hb, List.getLast?_concat, List.getLast?_concat,
    Option.some.injEq, hs]
  constructor
  · intro h
    obtain ⟨hab, ho, hd⟩ := plainAddress_unique (Text.percentEncode_injective h)
    exact ⟨hab, Request.normal_eq_of_documents ho hd⟩
  · intro h
    obtain ⟨rfl, hn⟩ := h
    rw [← q.operation_normal, ← q.documents_normal, hn, r.operation_normal, r.documents_normal]

/-- A collection may be named like the beginning of a document. -/
theorem sent_eq_iff_slash :
    ((⟨{}, [], []⟩ : Client).send "a/\x7b" (.find none)).1.sent.getLast? =
        ((⟨{}, [], []⟩ : Client).send "a/\x7b" (.find (some []))).1.sent.getLast? ∧
      ((⟨{}, [], []⟩ : Client).send "a/null" .empty).1.sent.getLast? ≠
        ((⟨{}, [], []⟩ : Client).send "a" (.insert none)).1.sent.getLast? := by
  refine ⟨(sent_eq_iff rfl (by decide) (by decide)).2 ⟨rfl, rfl⟩, fun h => ?_⟩
  have := (sent_eq_iff rfl (by decide) (by decide)).1 h
  exact absurd this.1 (by decide)

end Client

end QueryForm.Backend
