/-
Equality of values.

Values are equal whatever the order of the members of their objects: an
object equals one with as many members, if each of its members is in the
other. That looks at one side only. Where neither repeats a key it is enough,
for then the two have the same keys (`MembersIn.keys_perm`). So the equality
is reflexive and symmetric on values that repeat no key (`same_self`,
`same_symm`), and it is transitive on all values (`same_trans`).
-/
import Mathlib.Data.List.Forall2
import Mathlib.Data.List.Perm.Basic
import QueryForm.Proofs.Json.RoundTrip

namespace QueryForm

/-! ## Lists, item by item -/

section Pointwise

variable {α : Type} {R S : α → α → Prop} {as bs cs : List α}

theorem forall₂_imp (step : ∀ a ∈ as, ∀ b ∈ bs, R a b → S a b) (h : List.Forall₂ R as bs) :
    List.Forall₂ S as bs := by
  induction h with
  | nil => exact .nil
  | cons hab _ ih =>
    exact .cons (step _ List.mem_cons_self _ List.mem_cons_self hab)
      (ih fun a ha b hb => step a (List.mem_cons_of_mem _ ha) b (List.mem_cons_of_mem _ hb))

theorem forall₂_symm (step : ∀ a ∈ as, ∀ b ∈ bs, R a b → R b a) (h : List.Forall₂ R as bs) :
    List.Forall₂ R bs as :=
  (forall₂_imp (S := flip R) step h).flip

theorem forall₂_trans (step : ∀ a ∈ as, ∀ b c, R a b → R b c → R a c)
    (h : List.Forall₂ R as bs) (h' : List.Forall₂ R bs cs) : List.Forall₂ R as cs := by
  induction h generalizing cs with
  | nil => exact h'
  | cons hab _ ih =>
    cases h' with
    | cons hbc hrest =>
      exact .cons (step _ List.mem_cons_self _ _ hab hbc)
        (ih (fun a ha => step a (List.mem_cons_of_mem _ ha)) hrest)

end Pointwise

namespace Json

/-! ## Values and what is in them -/

/-- An array or an object. -/
def isContainer : Json → Bool
  | array _ => true
  | object _ => true
  | _ => false

/-- **Induction over values.** What holds of a container may be shown from its holding of all that
is in the container. -/
theorem induction {P : Json → Prop} (scalar : ∀ v : Json, v.isContainer = false → P v)
    (array : ∀ items, (∀ item ∈ items, P item) → P (.array items))
    (object : ∀ members : Fields Json, (∀ m ∈ members, P m.2) → P (.object members))
    (value : Json) : P value := by
  cases value with
  | null | bool | number | string => exact scalar _ rfl
  | array items => exact array items fun item _ => induction scalar array object item
  | object members => exact object members fun m _ => induction scalar array object m.2
termination_by value
decreasing_by
  · rename_i h
    have := List.sizeOf_lt_of_mem h
    simp only [Json.array.sizeOf_spec]
    omega
  · rename_i h
    have := List.sizeOf_lt_of_mem h
    obtain ⟨k, v⟩ := m
    simp only [Json.object.sizeOf_spec, Prod.mk.sizeOf_spec] at this ⊢
    omega

theorem Distinct.items {items : List Json} (h : (array items).Distinct) :
    ∀ item ∈ items, item.Distinct :=
  eachItem_iff.1 h

theorem Distinct.members {members : Fields Json} (h : (object members).Distinct) :
    Fields.Distinct members ∧ ∀ m ∈ members, m.2.Distinct :=
  ⟨h.1, eachMember_iff.1 h.2⟩

/-! ## What a value equals -/

theorem sameItems_iff {as bs : List Json} :
    sameItems as bs = true ↔ List.Forall₂ (fun a b => a.same b = true) as bs := by
  induction as generalizing bs with
  | nil => cases bs <;> simp [sameItems]
  | cons a as ih => cases bs <;> simp [sameItems, ih]

/-- The members of the first list are in the second, over equal values. -/
def MembersIn (as bs : Fields Json) : Prop :=
  ∀ p ∈ as, ∃ b, Fields.get? p.1 bs = some b ∧ p.2.same b = true

theorem sameMembers_iff {as bs : Fields Json} : sameMembers as bs = true ↔ MembersIn as bs := by
  induction as with
  | nil => simp [sameMembers, MembersIn]
  | cons p as ih =>
    obtain ⟨k, a⟩ := p
    rw [sameMembers, Bool.and_eq_true, ih, MembersIn, MembersIn, List.forall_mem_cons]
    cases Fields.get? k bs <;> simp

theorem scalar_same_iff {a b : Json} (h : a.isContainer = false) : a.same b = true ↔ b = a := by
  rw [@eq_comm _ b]
  cases a with
  | null | bool | number | string => cases b <;> simp [same]
  | array | object => cases h

theorem array_same_iff {as : List Json} {b : Json} : (array as).same b = true ↔
    ∃ bs, b = array bs ∧ List.Forall₂ (fun a b => a.same b = true) as bs := by
  cases b <;> simp [same, sameItems_iff]

theorem object_same_iff {as : Fields Json} {b : Json} : (object as).same b = true ↔
    ∃ bs : Fields Json, b = object bs ∧ as.length = bs.length ∧ MembersIn as bs := by
  cases b <;> simp [same, sameMembers_iff]

/-- Objects of as many members have the same keys, if the members of the first are in the second and
it repeats no key. -/
theorem MembersIn.keys_perm {as bs : Fields Json} (h : MembersIn as bs) (hd : Fields.Distinct as)
    (hlength : as.length = bs.length) : (Fields.keys as).Perm (Fields.keys bs) := by
  have hsubset : Fields.keys as ⊆ Fields.keys bs := by
    intro key hkey
    obtain ⟨p, hp, rfl⟩ := List.mem_map.1 hkey
    obtain ⟨b, hb, -⟩ := h p hp
    exact List.mem_map.2 ⟨_, Fields.mem_of_get? hb, rfl⟩
  refine (List.subperm_of_subset hd hsubset).perm_of_length_le ?_
  simp [Fields.keys, hlength]

/-! ## Laws -/

/-- A value that repeats no key equals itself. -/
theorem same_self (value : Json) (h : value.Distinct) : value.same value = true := by
  induction value using Json.induction with
  | scalar v hv => exact (scalar_same_iff hv).2 rfl
  | array items ih =>
    refine array_same_iff.2 ⟨items, rfl, List.forall₂_same.2 fun item hitem => ?_⟩
    exact ih item hitem (h.items item hitem)
  | object members ih =>
    obtain ⟨hkeys, hvalues⟩ := h.members
    refine object_same_iff.2 ⟨members, rfl, rfl, fun m hm => ⟨m.2, ?_, ih m hm (hvalues m hm)⟩⟩
    exact (Fields.get?_eq_some_iff hkeys).2 hm

/-- Equality of values that repeat no key goes both ways. -/
theorem same_symm {a b : Json} (ha : a.Distinct) (hb : b.Distinct) (h : a.same b = true) :
    b.same a = true := by
  induction a using Json.induction generalizing b with
  | scalar a hscalar =>
    obtain rfl := (scalar_same_iff hscalar).1 h
    exact h
  | array as ih =>
    obtain ⟨bs, rfl, hitems⟩ := array_same_iff.1 h
    refine array_same_iff.2 ⟨as, rfl, forall₂_symm (fun a hma b hmb hab => ?_) hitems⟩
    exact ih a hma (ha.items a hma) (hb.items b hmb) hab
  | object as ih =>
    obtain ⟨bs, rfl, hlength, hmembers⟩ := object_same_iff.1 h
    obtain ⟨hkeysA, hvaluesA⟩ := ha.members
    obtain ⟨hkeysB, hvaluesB⟩ := hb.members
    refine object_same_iff.2 ⟨as, rfl, hlength.symm, fun q hq => ?_⟩
    -- The first object has the key of `q`, with a member that is in the second, where the key has
    -- `q` only.
    have hkey : q.1 ∈ Fields.keys as :=
      (hmembers.keys_perm hkeysA hlength).mem_iff.2 (List.mem_map_of_mem hq)
    obtain ⟨p, hp, hpq⟩ := List.mem_map.1 hkey
    obtain ⟨b, hget, hab⟩ := hmembers p hp
    rw [hpq, (Fields.get?_eq_some_iff hkeysB).2 hq] at hget
    cases hget
    refine ⟨p.2, ?_, ih p hp (hvaluesA p hp) (hvaluesB q hq) hab⟩
    rw [← hpq]
    exact (Fields.get?_eq_some_iff hkeysA).2 hp

theorem same_trans {a b c : Json} (h : a.same b = true) (h' : b.same c = true) :
    a.same c = true := by
  induction a using Json.induction generalizing b c with
  | scalar a hscalar =>
    obtain rfl := (scalar_same_iff hscalar).1 h
    exact h'
  | array as ih =>
    obtain ⟨bs, rfl, hab⟩ := array_same_iff.1 h
    obtain ⟨cs, rfl, hbc⟩ := array_same_iff.1 h'
    exact array_same_iff.2 ⟨cs, rfl, forall₂_trans (fun a ha _ _ => ih a ha) hab hbc⟩
  | object as ih =>
    obtain ⟨bs, rfl, hlength, hab⟩ := object_same_iff.1 h
    obtain ⟨cs, rfl, hlength', hbc⟩ := object_same_iff.1 h'
    refine object_same_iff.2 ⟨cs, rfl, hlength.trans hlength', fun p hp => ?_⟩
    obtain ⟨b, hgetB, hsame⟩ := hab p hp
    obtain ⟨c, hgetC, hsame'⟩ := hbc _ (Fields.mem_of_get? hgetB)
    exact ⟨c, hgetC, ih p hp hsame hsame'⟩

end Json

end QueryForm
