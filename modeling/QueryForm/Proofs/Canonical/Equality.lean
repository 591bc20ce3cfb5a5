/-
Equality of documents.

Documents are equal entry by entry, and numbers in them as numbers: zero is
zero with either sign, and a NaN equals nothing. So a document equals itself
unless a NaN stands somewhere in it (`Node.same_self_iff`). Canonical form
does not tell equal documents apart, and has no NaN left
(`Document.canonical_same`).

What is needed of containers is that they repeat no key, as those of a
document that is put together by hand.
-/
import QueryForm.Proofs.Canonical.Scalar
import QueryForm.Proofs.Canonical.Vacant
import QueryForm.Proofs.Json.Equality

namespace QueryForm

/-! ## Numbers and values -/

namespace Double

theorem same_self_iff (x : Double) : x.same x = true ↔ x ≠ .nan := by
  cases x <;> simp [same]

theorem same_symm {x y : Double} (h : x.same y = true) : y.same x = true := by
  cases x <;> cases y <;> simp_all [same]
  grind

theorem same_trans {x y z : Double} (h : x.same y = true) (h' : y.same z = true) :
    x.same z = true := by
  cases x <;> cases y <;> cases z <;> simp_all [same]
  grind

end Double

namespace Json

theorem isContainer_ofDouble (x : Double) : (ofDouble x).isContainer = false := by
  cases x <;> rfl

/-- Equal numbers have one canonical form. -/
theorem ofDouble_same {x y : Double} (h : x.same y = true) : ofDouble x = ofDouble y := by
  cases x with
  | nan => cases h
  | infinite s =>
    cases y with
    | infinite t => rfl
    | nan | finite => cases h
  | finite s m =>
    cases y with
    | finite t k => exact congrArg number ((Numeral.ofDouble_eq_iff s t m k).2 h)
    | nan | infinite => cases h

theorem canonicalItems_eq_map (items : List Json) : canonicalItems items = items.map canonical := by
  induction items with
  | nil => rfl
  | cons item items ih => rw [canonicalItems, ih, List.map_cons]

theorem length_canonicalMembers (members : Fields Json) :
    (canonicalMembers members).length = members.length := by
  have := congrArg List.length (keys_canonicalMembers members)
  simpa [Fields.keys] using this

theorem get?_canonicalMembers (key : String) (members : Fields Json) :
    Fields.get? key (canonicalMembers members) = (Fields.get? key members).map canonical := by
  induction members with
  | nil => rfl
  | cons m members ih =>
    rw [canonicalMembers, Fields.get?, Fields.get?, ih]
    split <;> rfl

theorem mem_canonicalMembers {m : String × Json} {members : Fields Json}
    (h : m ∈ canonicalMembers members) : ∃ v, (m.1, v) ∈ members ∧ m.2 = v.canonical := by
  induction members with
  | nil => cases h
  | cons m' members ih =>
    rcases List.mem_cons.1 h with rfl | h
    · exact ⟨m'.2, List.mem_cons_self, rfl⟩
    · obtain ⟨v, hv, hm⟩ := ih h
      exact ⟨v, List.mem_cons_of_mem _ hv, hm⟩

/-- Canonical form respects equality. -/
theorem same_canonical {a b : Json} (h : a.same b = true) :
    a.canonical.same b.canonical = true := by
  induction a using Json.induction generalizing b with
  | scalar a hscalar =>
    obtain rfl := (scalar_same_iff hscalar).1 h
    refine same_self _ (eachObject_canonical b ?_)
    cases b <;> trivial
  | array as ih =>
    obtain ⟨bs, rfl, hab⟩ := array_same_iff.1 h
    rw [canonical, canonical, array_same_iff, canonicalItems_eq_map, canonicalItems_eq_map]
    refine ⟨_, rfl, List.forall₂_map_left_iff.2 (List.forall₂_map_right_iff.2 ?_)⟩
    exact forall₂_imp (fun a ha b _ => ih a ha) hab
  | object as ih =>
    obtain ⟨bs, rfl, hlength, hab⟩ := object_same_iff.1 h
    rw [canonical, canonical, object_same_iff]
    refine ⟨_, rfl, ?_, fun p hp => ?_⟩
    · rw [length_canonicalMembers, length_canonicalMembers, hlength]
    · obtain ⟨a, ha, hp⟩ := mem_canonicalMembers hp
      obtain ⟨b, hget, hsame⟩ := hab _ ha
      refine ⟨b.canonical, ?_, ?_⟩
      · rw [get?_canonicalMembers, hget, Option.map_some]
      · rw [hp]
        exact ih _ ha hsame

/-- Objects are equal that have equal values under the same keys in the same order. -/
theorem same_of_related {as bs : Fields Json}
    (h : Fields.Related (fun a b => a.same b = true) as bs) (hd : Fields.Distinct bs) :
    (object as).same (.object bs) = true := by
  refine object_same_iff.2 ⟨bs, rfl, h.length_eq, fun p hp => ?_⟩
  obtain ⟨b, hb, hsame⟩ := h.exists_of_mem hp
  exact ⟨b, (Fields.get?_eq_some_iff hd).2 hb, hsame⟩

end Json

namespace Value

theorem text_same_iff {s : String} {w : Value} : (text s).same w = true ↔ w = text s := by
  cases w with
  | text t => simpa [same] using eq_comm
  | number | array | object => simp [same]

theorem number_same_iff {x : Double} {w : Value} :
    (number x).same w = true ↔ ∃ y, w = number y ∧ x.same y = true := by
  cases w <;> simp [same]

theorem array_same_iff {as : List Json} {w : Value} :
    (array as).same w = true ↔ ∃ bs, w = array bs ∧ (Json.array as).same (.array bs) = true := by
  cases w <;> simp [same, Json.same]

theorem object_same_iff {as : Fields Json} {w : Value} :
    (object as).same w = true ↔ ∃ bs, w = object bs ∧ (Json.object as).same (.object bs) = true := by
  cases w <;> simp [same]

theorem same_self_iff {v : Value} (h : v.Distinct) : v.same v = true ↔ v ≠ .number .nan := by
  cases v with
  | text s => simp [same]
  | number x => simp [same, Double.same_self_iff]
  | array items => simpa [array_same_iff] using Json.same_self (.array items) h
  | object members => simpa [object_same_iff] using Json.same_self (.object members) h

theorem same_symm {v w : Value} (hv : v.Distinct) (hw : w.Distinct) (h : v.same w = true) :
    w.same v = true := by
  cases v with
  | text s =>
    obtain rfl := text_same_iff.1 h
    exact h
  | number x =>
    obtain ⟨y, rfl, hxy⟩ := number_same_iff.1 h
    exact number_same_iff.2 ⟨x, rfl, Double.same_symm hxy⟩
  | array as =>
    obtain ⟨bs, rfl, hab⟩ := array_same_iff.1 h
    exact array_same_iff.2 ⟨as, rfl, Json.same_symm hv hw hab⟩
  | object as =>
    obtain ⟨bs, rfl, hab⟩ := object_same_iff.1 h
    exact object_same_iff.2 ⟨as, rfl, Json.same_symm hv hw hab⟩

theorem same_trans {v w u : Value} (h : v.same w = true) (h' : w.same u = true) :
    v.same u = true := by
  cases v with
  | text s =>
    obtain rfl := text_same_iff.1 h
    exact h'
  | number x =>
    obtain ⟨y, rfl, hxy⟩ := number_same_iff.1 h
    obtain ⟨z, rfl, hyz⟩ := number_same_iff.1 h'
    exact number_same_iff.2 ⟨z, rfl, Double.same_trans hxy hyz⟩
  | array as =>
    obtain ⟨bs, rfl, hab⟩ := array_same_iff.1 h
    obtain ⟨cs, rfl, hbc⟩ := array_same_iff.1 h'
    exact array_same_iff.2 ⟨cs, rfl, Json.same_trans hab hbc⟩
  | object as =>
    obtain ⟨bs, rfl, hab⟩ := object_same_iff.1 h
    obtain ⟨cs, rfl, hbc⟩ := object_same_iff.1 h'
    exact object_same_iff.2 ⟨cs, rfl, Json.same_trans hab hbc⟩

/-- Canonical form respects equality. -/
theorem same_canonical {v w : Value} (h : v.same w = true) :
    v.canonical.same w.canonical = true := by
  cases v with
  | text s =>
    obtain rfl := text_same_iff.1 h
    exact (Json.scalar_same_iff rfl).2 rfl
  | number x =>
    obtain ⟨y, rfl, hxy⟩ := number_same_iff.1 h
    exact (Json.scalar_same_iff (Json.isContainer_ofDouble x)).2 (Json.ofDouble_same hxy).symm
  | array as =>
    obtain ⟨bs, rfl, hab⟩ := array_same_iff.1 h
    exact Json.same_canonical hab
  | object as =>
    obtain ⟨bs, rfl, hab⟩ := object_same_iff.1 h
    exact Json.same_canonical hab

end Value

/-! ## Nodes -/

namespace Node

/-- **Induction over nodes.** What holds of joined documents may be shown from its holding of all
nodes in them. -/
theorem induction {P : Node → Prop} (value : ∀ v, P (.value v))
    (tagged : ∀ comparison operand, P operand → P (.tagged comparison operand))
    (joined : ∀ parts : List Document, (∀ part ∈ parts, ∀ p ∈ part, P p.2) → P (.joined parts))
    (absent : P .absent) (node : Node) : P node := by
  cases node with
  | value v => exact value v
  | tagged comparison operand =>
    exact tagged comparison operand (induction value tagged joined absent operand)
  | joined parts => exact joined parts fun _ _ p _ => induction value tagged joined absent p.2
  | absent => exact absent
termination_by node
decreasing_by
  · simp only [Node.tagged.sizeOf_spec]
    omega
  · rename_i part hpart hp
    have := List.sizeOf_lt_of_mem hpart
    have := List.sizeOf_lt_of_mem hp
    obtain ⟨k, node⟩ := p
    simp only [Node.joined.sizeOf_spec, Prod.mk.sizeOf_spec] at *
    omega

/-- The same keys in the same order, over equal nodes. -/
abbrev Alike : Document → Document → Prop :=
  Fields.Related fun a b => a.same b = true

theorem sameEntries_iff {as bs : Document} : sameEntries as bs = true ↔ Alike as bs := by
  induction as generalizing bs with
  | nil => cases bs <;> simp [sameEntries, Fields.Related]
  | cons p as ih =>
    cases bs with
    | nil => simp [sameEntries, Fields.Related]
    | cons q bs => simp [sameEntries, Fields.Related, ih]

theorem sameParts_iff {as bs : List Document} :
    sameParts as bs = true ↔ List.Forall₂ Alike as bs := by
  induction as generalizing bs with
  | nil => cases bs <;> simp [sameParts]
  | cons part as ih => cases bs <;> simp [sameParts, sameEntries_iff, ih]

theorem value_same_iff {v : Value} {b : Node} :
    (value v).same b = true ↔ ∃ w, b = value w ∧ v.same w = true := by
  cases b <;> simp [same]

theorem tagged_same_iff {comparison : Comparison} {operand b : Node} :
    (tagged comparison operand).same b = true ↔
      ∃ other, b = tagged comparison other ∧ operand.same other = true := by
  cases b <;> simp [same]
  grind

theorem joined_same_iff {parts : List Document} {b : Node} :
    (joined parts).same b = true ↔ ∃ others, b = joined others ∧ List.Forall₂ Alike parts others := by
  cases b <;> simp [same, sameParts_iff]

theorem absent_same_iff {b : Node} : absent.same b = true ↔ b = absent := by
  cases b <;> simp [same]

theorem same_symm {a b : Node} (ha : a.Assembled) (hb : b.Assembled) (h : a.same b = true) :
    b.same a = true := by
  induction a using Node.induction generalizing b with
  | value v =>
    obtain ⟨w, rfl, hvw⟩ := value_same_iff.1 h
    cases ha with
    | value hv =>
      cases hb with
      | value hw => exact value_same_iff.2 ⟨v, rfl, Value.same_symm hv hw hvw⟩
  | tagged comparison operand ih =>
    obtain ⟨other, rfl, hoperand⟩ := tagged_same_iff.1 h
    cases ha with
    | tagged ha =>
      cases hb with
      | tagged hb => exact tagged_same_iff.2 ⟨operand, rfl, ih ha hb hoperand⟩
  | joined parts ih =>
    obtain ⟨others, rfl, hparts⟩ := joined_same_iff.1 h
    cases ha with
    | joined ha =>
      cases hb with
      | joined hb =>
        refine joined_same_iff.2 ⟨parts, rfl, forall₂_symm (fun as has bs hbs => ?_) hparts⟩
        exact forall₂_symm fun p hp q hq hpq => ⟨hpq.1.symm, ih as has p hp
          ((ha as has).entries p hp) ((hb bs hbs).entries q hq) hpq.2⟩
  | absent =>
    obtain rfl := absent_same_iff.1 h
    exact h

theorem same_trans {a b c : Node} (h : a.same b = true) (h' : b.same c = true) :
    a.same c = true := by
  induction a using Node.induction generalizing b c with
  | value v =>
    obtain ⟨w, rfl, hvw⟩ := value_same_iff.1 h
    obtain ⟨u, rfl, hwu⟩ := value_same_iff.1 h'
    exact value_same_iff.2 ⟨u, rfl, Value.same_trans hvw hwu⟩
  | tagged comparison operand ih =>
    obtain ⟨other, rfl, hab⟩ := tagged_same_iff.1 h
    obtain ⟨third, rfl, hbc⟩ := tagged_same_iff.1 h'
    exact tagged_same_iff.2 ⟨third, rfl, ih hab hbc⟩
  | joined parts ih =>
    obtain ⟨others, rfl, hab⟩ := joined_same_iff.1 h
    obtain ⟨thirds, rfl, hbc⟩ := joined_same_iff.1 h'
    refine joined_same_iff.2 ⟨thirds, rfl, forall₂_trans (fun as has _ _ => ?_) hab hbc⟩
    exact forall₂_trans fun p hp _ _ hpq hqr => ⟨hpq.1.trans hqr.1, ih as has p hp hpq.2 hqr.2⟩
  | absent =>
    obtain rfl := absent_same_iff.1 h
    exact h'

/-- A node has a NaN in it, below comparisons and in joined documents or by itself. -/
def HoldsNan (node : Node) : Prop :=
  ∃ frames : List Frame, node = frames.foldr Frame.fill (.value (.number .nan))

theorem Frame.same_of_fill {frame : Frame} {node : Node}
    (h : (frame.fill node).same (frame.fill node) = true) : node.same node = true := by
  cases frame with
  | under comparison =>
    obtain ⟨other, hother, hsame⟩ := tagged_same_iff.1 h
    cases hother
    exact hsame
  | within before first key last after =>
    obtain ⟨others, hothers, hparts⟩ := joined_same_iff.1 h
    cases hothers
    have hpart := List.forall₂_same.1 hparts (first ++ (key, node) :: last) (by simp)
    exact (List.forall₂_same.1 hpart (key, node) (by simp)).2

theorem HoldsNan.not_same {node : Node} (h : node.HoldsNan) : node.same node ≠ true := by
  obtain ⟨frames, rfl⟩ := h
  intro hself
  induction frames with
  | nil => cases hself
  | cons frame frames ih => exact ih (Frame.same_of_fill hself)

/-- **A node equals itself** unless there is a NaN in it. -/
theorem same_self_iff {node : Node} (h : node.Assembled) :
    node.same node = true ↔ ¬ node.HoldsNan := by
  refine ⟨fun hself hnan => hnan.not_same hself, fun hnan => ?_⟩
  induction node using Node.induction with
  | value v =>
    cases h with
    | value hv =>
      refine value_same_iff.2 ⟨v, rfl, (Value.same_self_iff hv).2 ?_⟩
      rintro rfl
      exact hnan ⟨[], rfl⟩
  | tagged comparison operand ih =>
    cases h with
    | tagged h =>
      refine tagged_same_iff.2 ⟨operand, rfl, ih h ?_⟩
      rintro ⟨frames, rfl⟩
      exact hnan ⟨.under comparison :: frames, rfl⟩
  | joined parts ih =>
    cases h with
    | joined h =>
      refine joined_same_iff.2 ⟨parts, rfl, List.forall₂_same.2 fun part hpart =>
        List.forall₂_same.2 fun p hp => ⟨rfl, ih part hpart p hp ((h part hpart).entries p hp) ?_⟩⟩
      rintro ⟨frames, hframes⟩
      obtain ⟨before, after, rfl⟩ := List.append_of_mem hpart
      obtain ⟨first, last, rfl⟩ := List.append_of_mem hp
      refine hnan ⟨.within before first p.1 last after :: frames, ?_⟩
      rw [List.foldr_cons, ← hframes]
      rfl
  | absent => rfl

/-! ## Canonical forms -/

/-- Both nodes stand for nothing, or both for something, and then for equal values. -/
def CanonicalAlike (a b : Node) : Prop :=
  Option.Rel (fun v w => v.same w = true) a.canonical? b.canonical?

theorem related_toList {v w : Option Json} (key : String)
    (h : Option.Rel (fun v w => v.same w = true) v w) :
    Fields.Related (fun v w => v.same w = true) (v.toList.map fun v => (key, v))
      (w.toList.map fun w => (key, w)) := by
  cases h with
  | none => exact .nil
  | some hsame => exact .cons ⟨rfl, hsame⟩ .nil

theorem canonicalEntries_cons (key : String) (node : Node) (entries : Document) :
    canonicalEntries ((key, node) :: entries) =
      (node.canonical?.toList.map fun v => (key, v)) ++ canonicalEntries entries := by
  rw [canonicalEntries]
  cases node.canonical? <;> rfl

theorem related_canonicalEntries {as bs : Document} (h : Fields.Related CanonicalAlike as bs) :
    Fields.Related (fun v w => v.same w = true) (canonicalEntries as) (canonicalEntries bs) := by
  induction h with
  | nil => exact .nil
  | @cons p q as bs hpq _ ih =>
    obtain ⟨k, a⟩ := p
    obtain ⟨l, b⟩ := q
    obtain ⟨rfl, hab⟩ := hpq
    rw [canonicalEntries_cons, canonicalEntries_cons]
    exact List.rel_append (related_toList k hab) ih

/-- Queries of alike entries are equal. -/
theorem same_canonicalEntries {as bs : Document} (h : Fields.Related CanonicalAlike as bs)
    (hd : Fields.Distinct bs) :
    (Json.object (canonicalEntries as)).same (.object (canonicalEntries bs)) = true :=
  Json.same_of_related (related_canonicalEntries h) (hd.sublist (keys_canonicalEntries bs))

/-- Canonical form respects equality. -/
theorem canonicalAlike_of_same {a b : Node} (hb : b.Assembled) (h : a.same b = true) :
    a.CanonicalAlike b := by
  induction a using Node.induction generalizing b with
  | value v =>
    obtain ⟨w, rfl, hvw⟩ := value_same_iff.1 h
    exact .some (Value.same_canonical hvw)
  | tagged comparison operand ih =>
    obtain ⟨other, rfl, hoperand⟩ := tagged_same_iff.1 h
    cases hb with
    | tagged hb =>
      have hoperands := ih hb hoperand
      cases heq : comparison.isEquality with
      | true => rwa [CanonicalAlike, canonical?_equality heq, canonical?_equality heq]
      | false =>
        obtain ⟨key, hkey⟩ := canonical?_comparison heq
        rw [CanonicalAlike, hkey, hkey]
        refine .some (Json.same_of_related (related_toList key hoperands) ?_)
        cases other.canonical? <;> simp [Fields.Distinct, Fields.keys]
  | joined parts ih =>
    obtain ⟨others, rfl, hparts⟩ := joined_same_iff.1 h
    cases hb with
    | joined hb =>
      rw [CanonicalAlike, canonical?, canonical?, canonicalParts_eq_map, canonicalParts_eq_map]
      refine .some (Json.array_same_iff.2 ⟨_, rfl, ?_⟩)
      refine List.forall₂_map_left_iff.2 (List.forall₂_map_right_iff.2 ?_)
      refine forall₂_imp (fun as has bs hbs hsame => ?_) hparts
      refine same_canonicalEntries (forall₂_imp (fun p hp q hq hpq => ?_) hsame) (hb bs hbs).distinct.1
      exact ⟨hpq.1, ih as has p hp ((hb bs hbs).entries q hq) hpq.2⟩
  | absent =>
    obtain rfl := absent_same_iff.1 h
    exact .none

end Node

/-! ## Documents -/

namespace Document

theorem same_iff {a b : Document} : a.same b = true ↔ Node.Alike a b :=
  Node.sameEntries_iff

theorem exists_place_iff {doc : Document} {node : Node} :
    (∃ place : Place, doc = place.fill node) ↔
      ∃ p ∈ doc, ∃ frames : List Node.Frame, p.2 = frames.foldr Node.Frame.fill node := by
  constructor
  · rintro ⟨place, rfl⟩
    exact ⟨_, List.mem_append_right _ List.mem_cons_self, place.frames, rfl⟩
  · rintro ⟨p, hp, frames, hframes⟩
    obtain ⟨first, last, rfl⟩ := List.append_of_mem hp
    refine ⟨⟨first, p.1, frames, last⟩, ?_⟩
    rw [Place.fill, ← hframes]

/-- A document equals itself where all nodes in its entries do. -/
theorem same_self_iff {doc : Document} (h : doc.Assembled) :
    doc.same doc = true ↔ ¬ ∃ place : Place, doc = place.fill (.value (.number .nan)) := by
  rw [same_iff, Node.Alike, Fields.Related, List.forall₂_same, exists_place_iff]
  constructor
  · rintro hself ⟨p, hp, hnan⟩
    exact Node.HoldsNan.not_same hnan (hself p hp).2
  · intro hnan p hp
    exact ⟨rfl, (Node.same_self_iff (h.entries p hp)).2 fun hp' => hnan ⟨p, hp, hp'⟩⟩

/-- **Equal documents** have equal queries. Equality of documents goes both ways and is passed on. A
document equals itself unless a NaN stands somewhere in it; its query always equals itself. -/
theorem equality_respected {a b c : Document} (ha : a.Assembled) (hb : b.Assembled) :
    (a.same b = true → a.canonical.same b.canonical = true) ∧
      (a.same b = true → b.same a = true) ∧
      (a.same b = true → b.same c = true → a.same c = true) ∧
      (a.same a = true ↔ ¬ ∃ place : Place, a = place.fill (.value (.number .nan))) ∧
      a.canonical.same a.canonical = true := by
  refine ⟨fun h => ?_, fun h => ?_, fun h h' => ?_, same_self_iff ha,
    Json.same_self _ ha.distinct_query⟩
  · refine Node.same_canonicalEntries (forall₂_imp (fun p _ q hq hpq => ?_) (same_iff.1 h))
      hb.distinct.1
    exact ⟨hpq.1, Node.canonicalAlike_of_same (hb.entries q hq) hpq.2⟩
  · refine same_iff.2 (forall₂_symm (fun p hp q hq hpq => ?_) (same_iff.1 h))
    exact ⟨hpq.1.symm, Node.same_symm (ha.entries p hp) (hb.entries q hq) hpq.2⟩
  · refine same_iff.2 (forall₂_trans (fun p _ q r hpq hqr => ?_) (same_iff.1 h) (same_iff.1 h'))
    exact ⟨hpq.1.trans hqr.1, Node.same_trans hpq.2 hqr.2⟩

/-- A zero of either sign under a comparison, and members in another order, leave documents and
their queries equal; a NaN in a joined document leaves the document unequal to itself. -/
theorem equality_respected_zero :
    let a : Document := [("n", .tagged .gt (.value (.number (.zero true)))),
      ("o", .value (.object [("k", .null), ("l", .bool true)]))]
    let b : Document := [("n", .tagged .gt (.value (.number (.zero false)))),
      ("o", .value (.object [("l", .bool true), ("k", .null)]))]
    let nan : Document := [("$or", .joined [[("n", .tagged .ne (.value (.number .nan)))]])]
    a.Assembled ∧ b.Assembled ∧ a.same b = true ∧ a.canonical.same b.canonical = true ∧
      b.same a = true ∧ nan.Assembled ∧ nan.same nan ≠ true := by
  intro a b nan
  have number : ∀ x, (Node.value (.number x)).Assembled := fun _ => .value trivial
  have ha : a.Assembled := by
    refine .of_distinct (by decide : ["n", "o"].Nodup) ?_
    simp only [a, List.forall_mem_cons]
    exact ⟨.tagged (number _), .value ⟨by decide, trivial, trivial, trivial⟩, List.forall_mem_nil _⟩
  have hb : b.Assembled := by
    refine .of_distinct (by decide : ["n", "o"].Nodup) ?_
    simp only [b, List.forall_mem_cons]
    exact ⟨.tagged (number _), .value ⟨by decide, trivial, trivial, trivial⟩, List.forall_mem_nil _⟩
  have hpart : Document.Assembled [("n", .tagged .ne (.value (.number .nan)))] :=
    .single (.tagged (number _)) "n"
  have hnan : nan.Assembled := .single (.joined (by simpa using hpart)) "$or"
  have hsame : a.same b = true := rfl
  obtain ⟨hquery, hback, -⟩ := equality_respected (c := b) ha hb
  refine ⟨ha, hb, hsame, hquery hsame, hback hsame, hnan, fun hself => ?_⟩
  obtain ⟨-, -, -, hiff, -⟩ := equality_respected (c := nan) hnan hnan
  exact hiff.1 hself ⟨⟨[], "$or", [.within [] [] "n" [] [], .under .ne], []⟩, rfl⟩

end Document

end QueryForm
