/-
What a list of pairs comes to when it is written one pair after the other
(`Fields.ofPairs`): every key once, at the place of its first pair, with the
value of its last.

* `keys_ofPairs`, `get?_ofPairs`: the places and the values.
* `ofPairs_eq_resolved`: both together, as an equality with `resolved`,
  which says the same without writing anything.
* `merge_merge`: fields without repeated keys are merged in any grouping.
* `Related.ofPairs`: pairs with related values leave fields with related
  values.

Fields without a repeated key are known by their keys and by what is under
each (`eq_filterMap_get?`), which is how the equality is proved.
-/
import Mathlib.Data.Finset.Card
import Mathlib.Data.List.Basic
import QueryForm.Fields

namespace QueryForm.Fields

variable {α β : Type}

/-- The last value that a list of pairs gives a key. -/
def last? (key : String) (pairs : Fields α) : Option α :=
  (pairs.filter (·.1 == key)).getLast?.map (·.2)

/-- Each key of a list of pairs once, in the order of their first pairs, with the value of its last
pair. -/
def resolved (pairs : Fields α) : Fields α :=
  (keys pairs).eraseDups.filterMap fun k => (last? k pairs).map fun v => (k, v)

/-! ## Fields without a repeated key -/

/-- Distinct fields are their keys, in order, with what is under each. -/
theorem eq_filterMap_get? {fields : Fields α} (h : Distinct fields) :
    (keys fields).filterMap (fun k => (get? k fields).map fun v => (k, v)) = fields := by
  induction fields with
  | nil => rfl
  | cons p rest ih =>
    obtain ⟨k, v⟩ := p
    obtain ⟨hk, hrest⟩ := List.nodup_cons.1 h
    have step : ∀ l ∈ keys rest, (get? l ((k, v) :: rest)).map (fun w => (l, w)) =
        (get? l rest).map fun w => (l, w) := by
      intro l hl
      have hne : k ≠ l := fun e => hk (e ▸ hl)
      simp [get?, hne]
    have head : (get? k ((k, v) :: rest)).map (fun w => (k, w)) = some (k, v) := by simp [get?]
    rw [show keys ((k, v) :: rest) = k :: keys rest from rfl, List.filterMap_cons, head,
      List.filterMap_congr step, ih hrest]

theorem mem_of_get? {key : String} {v : α} {fields : Fields α} (h : get? key fields = some v) :
    (key, v) ∈ fields := by
  induction fields with
  | nil => cases h
  | cons p rest ih =>
    obtain ⟨k, w⟩ := p
    rw [get?] at h
    split at h
    · next hk =>
      cases h
      exact hk ▸ List.mem_cons_self
    · exact List.mem_cons_of_mem _ (ih h)

theorem get?_eq_none_iff {key : String} {fields : Fields α} :
    get? key fields = none ↔ key ∉ keys fields := by
  induction fields with
  | nil => simp [get?, keys]
  | cons p rest ih =>
    obtain ⟨k, v⟩ := p
    by_cases hk : k = key
    · simp [get?, keys, hk]
    · simp only [keys] at ih
      simp [get?, keys, hk, ih, Ne.symm hk]

/-- Distinct fields have every value under its key. -/
theorem get?_eq_some_iff {fields : Fields α} (h : Distinct fields) {key : String} {v : α} :
    get? key fields = some v ↔ (key, v) ∈ fields := by
  refine ⟨mem_of_get?, fun hmem => ?_⟩
  induction fields with
  | nil => cases hmem
  | cons p rest ih =>
    obtain ⟨k, w⟩ := p
    obtain ⟨hk, hrest⟩ := List.nodup_cons.1 h
    rw [get?]
    rcases List.mem_cons.1 hmem with heq | hmem
    · cases heq
      exact if_pos rfl
    · have hne : k ≠ key := by
        rintro rfl
        exact hk (List.mem_map.2 ⟨_, hmem, rfl⟩)
      rw [if_neg hne]
      exact ih hrest hmem

/-! ## Writing pairs -/

theorem distinct_insert {fields : Fields α} (key : String) (v : α) (h : Distinct fields) :
    Distinct (insert key v fields) := by
  rw [Distinct, keys_insert]
  split
  · exact h
  · rename_i hk
    exact List.nodup_append.2 ⟨h, by simp, fun a ha b hb e => hk (by simp_all)⟩

theorem distinct_merge {fields : Fields α} (pairs : Fields α) (h : Distinct fields) :
    Distinct (merge fields pairs) := by
  induction pairs generalizing fields with
  | nil => exact h
  | cons p pairs ih => exact ih (distinct_insert p.1 p.2 h)

theorem distinct_ofPairs (pairs : Fields α) : Distinct (ofPairs pairs) :=
  distinct_merge pairs List.nodup_nil

/-- Writing pairs adds the new keys at the end, each once. -/
theorem keys_merge (fields pairs : Fields α) :
    keys (merge fields pairs) = keys fields ++ ((keys pairs).removeAll (keys fields)).eraseDups := by
  induction pairs generalizing fields with
  | nil => simp [merge, keys, List.removeAll]
  | cons p pairs ih =>
    obtain ⟨k, v⟩ := p
    have step : keys (merge fields ((k, v) :: pairs)) =
        keys (insert k v fields) ++
          ((keys pairs).removeAll (keys (insert k v fields))).eraseDups := ih _
    rw [step, keys_insert, show keys ((k, v) :: pairs) = k :: keys pairs from rfl,
      List.cons_removeAll]
    by_cases hk : k ∈ keys fields
    · simp [hk]
    · have split : (keys pairs).removeAll (keys fields ++ [k]) =
          ((keys pairs).removeAll (keys fields)).filter fun l => !l == k := by
        simp only [List.removeAll, List.filter_filter]
        refine List.filter_congr fun l _ => ?_
        by_cases hl : l = k <;> simp [hl]
      simp [hk, split, List.eraseDups_cons]

/-- **First place.** The keys of written pairs are the keys of the pairs, each where it is first
written. -/
theorem keys_ofPairs (pairs : Fields α) : keys (ofPairs pairs) = (keys pairs).eraseDups := by
  have all : (keys pairs).removeAll [] = keys pairs := List.filter_eq_self.2 (by simp)
  rw [ofPairs, keys_merge, show keys ([] : Fields α) = [] from rfl, all, List.nil_append]

theorem mem_keys_ofPairs {key : String} {pairs : Fields α} :
    key ∈ keys (ofPairs pairs) ↔ key ∈ keys pairs := by
  rw [keys_ofPairs, List.mem_eraseDups]

/-- There are as many fields left as there are keys that are written. -/
theorem length_ofPairs (pairs : Fields α) :
    (ofPairs pairs).length = (keys pairs).toFinset.card := by
  have hset : (keys (ofPairs pairs)).toFinset = (keys pairs).toFinset := by
    ext key
    rw [List.mem_toFinset, List.mem_toFinset, mem_keys_ofPairs]
  rw [← hset, List.toFinset_card_of_nodup (distinct_ofPairs pairs), keys, List.length_map]

theorem last?_cons (key : String) (p : String × α) (pairs : Fields α) :
    last? key (p :: pairs) =
      (last? key pairs).or (if p.1 = key then some p.2 else none) := by
  by_cases hp : p.1 = key
  · have keep : (p :: pairs).filter (·.1 == key) = p :: pairs.filter (·.1 == key) := by simp [hp]
    rw [last?, last?, keep, List.getLast?_cons, if_pos hp]
    cases (pairs.filter (·.1 == key)).getLast? <;> rfl
  · simp [last?, hp]

theorem get?_merge (key : String) (fields pairs : Fields α) :
    get? key (merge fields pairs) = (last? key pairs).or (get? key fields) := by
  induction pairs generalizing fields with
  | nil => simp [merge, last?]
  | cons p pairs ih =>
    obtain ⟨k, v⟩ := p
    have step : get? key (merge fields ((k, v) :: pairs)) =
        (last? key pairs).or (get? key (insert k v fields)) := ih _
    rw [step, last?_cons]
    by_cases hk : k = key
    · subst hk
      rw [get?_insert_self]
      cases last? k pairs <;> simp
    · rw [get?_insert_of_ne (Ne.symm hk)]
      simp [hk]

/-- **Last value.** Under a key of written pairs is the value written last. -/
theorem get?_ofPairs (key : String) (pairs : Fields α) :
    get? key (ofPairs pairs) = last? key pairs := by
  rw [ofPairs, get?_merge]
  simp [get?]

/-- Writing pairs leaves what they come to. -/
theorem ofPairs_eq_resolved (pairs : Fields α) : ofPairs pairs = resolved pairs := by
  rw [← eq_filterMap_get? (distinct_ofPairs pairs), keys_ofPairs]
  simp only [get?_ofPairs, resolved]

theorem insert_of_not_mem {key : String} {fields : Fields α} (h : key ∉ keys fields) (v : α) :
    insert key v fields = fields ++ [(key, v)] := by
  induction fields with
  | nil => rfl
  | cons p rest ih =>
    obtain ⟨k, w⟩ := p
    simp only [keys, List.map_cons, List.mem_cons, not_or] at h
    rw [insert, if_neg (Ne.symm h.1), ih h.2, List.cons_append]

theorem merge_of_distinct {fields pairs : Fields α} (h : Distinct (fields ++ pairs)) :
    merge fields pairs = fields ++ pairs := by
  induction pairs generalizing fields with
  | nil => rw [List.append_nil]; rfl
  | cons p pairs ih =>
    obtain ⟨k, v⟩ := p
    have hk : k ∉ keys fields := by
      simp only [Distinct, keys, List.map_append, List.nodup_append] at h
      exact fun hm => h.2.2 k hm k (by simp) rfl
    have step : merge fields ((k, v) :: pairs) = merge (insert k v fields) pairs := rfl
    rw [step, insert_of_not_mem hk, ih (by simpa using h), List.append_assoc, List.singleton_append]

/-- Writing pairs that repeat no key leaves the pairs. -/
theorem ofPairs_of_distinct {pairs : Fields α} (h : Distinct pairs) : ofPairs pairs = pairs :=
  @merge_of_distinct _ [] pairs h

theorem mem_insert {key : String} {v : α} {fields : Fields α} {p : String × α}
    (h : p ∈ insert key v fields) : p = (key, v) ∨ p ∈ fields := by
  induction fields with
  | nil => exact .inl (List.mem_singleton.1 h)
  | cons q rest ih =>
    obtain ⟨k, w⟩ := q
    rw [insert] at h
    split at h
    · next hk =>
      subst hk
      exact (List.mem_cons.1 h).imp_right (List.mem_cons_of_mem _)
    · rcases List.mem_cons.1 h with rfl | h
      · exact .inr List.mem_cons_self
      · exact (ih h).imp_right (List.mem_cons_of_mem _)

theorem forall_merge {P : α → Prop} {fields pairs : Fields α} (hf : ∀ p ∈ fields, P p.2)
    (hp : ∀ p ∈ pairs, P p.2) : ∀ p ∈ merge fields pairs, P p.2 := by
  induction pairs generalizing fields with
  | nil => exact hf
  | cons q pairs ih =>
    obtain ⟨hq, hpairs⟩ := List.forall_mem_cons.1 hp
    refine @ih (insert q.1 q.2 fields) (fun p hm => ?_) hpairs
    rcases mem_insert hm with rfl | hm
    · exact hq
    · exact hf p hm

/-- What is true of every value that is written is true of every value that is left. -/
theorem forall_ofPairs {P : α → Prop} {pairs : Fields α} (h : ∀ p ∈ pairs, P p.2) :
    ∀ p ∈ ofPairs pairs, P p.2 :=
  forall_merge (by simp) h

/-! ## Merging -/

theorem insert_insert_self (key : String) (v w : α) (fields : Fields α) :
    insert key v (insert key w fields) = insert key v fields := by
  induction fields with
  | nil => simp [insert]
  | cons p rest ih =>
    obtain ⟨k, u⟩ := p
    by_cases hk : k = key <;> simp [insert, hk, ih]

/-- A key that is present already may be written before or after another. -/
theorem insert_comm {key other : String} (hne : key ≠ other) {fields : Fields α}
    (h : key ∈ keys fields) (v w : α) :
    insert key v (insert other w fields) = insert other w (insert key v fields) := by
  induction fields with
  | nil => cases h
  | cons p rest ih =>
    obtain ⟨k, u⟩ := p
    by_cases hk : k = key
    · subst hk
      simp [insert, hne]
    · have hrest : key ∈ keys rest := by simpa [keys, Ne.symm hk] using h
      by_cases ho : k = other
      · subst ho
        simp [insert, hk]
      · simp [insert, hk, ho, ih hrest]

/-- A key that is present already may be written before or after pairs that do not write it. -/
theorem insert_merge {key : String} {fields pairs : Fields α} (h : key ∈ keys fields)
    (hp : key ∉ keys pairs) (v : α) :
    insert key v (merge fields pairs) = merge (insert key v fields) pairs := by
  induction pairs generalizing fields with
  | nil => rfl
  | cons p pairs ih =>
    obtain ⟨k, w⟩ := p
    have hp' : key ≠ k ∧ key ∉ keys pairs := by simpa [keys] using hp
    have hk : key ∈ keys (insert k w fields) := by
      rw [keys_insert]
      split
      · exact h
      · exact List.mem_append_left _ h
    calc insert key v (merge (insert k w fields) pairs)
        = merge (insert key v (insert k w fields)) pairs := ih hk hp'.2
      _ = merge (insert k w (insert key v fields)) pairs := by rw [insert_comm hp'.1 h]

/-- To write a key into fields and these into others is to write it last. -/
theorem merge_insert {pairs : Fields α} (h : Distinct pairs) (fields : Fields α) (key : String)
    (v : α) : merge fields (insert key v pairs) = insert key v (merge fields pairs) := by
  induction pairs generalizing fields with
  | nil => rfl
  | cons p pairs ih =>
    obtain ⟨k, w⟩ := p
    obtain ⟨hk, hpairs⟩ := List.nodup_cons.1 h
    by_cases hkey : k = key
    · subst hkey
      have hmem : k ∈ keys (insert k w fields) := by
        rw [keys_insert]
        split
        · assumption
        · exact List.mem_append_right _ (List.mem_singleton_self k)
      calc merge fields (insert k v ((k, w) :: pairs))
          = merge (insert k v fields) pairs := by rw [insert, if_pos rfl]; rfl
        _ = merge (insert k v (insert k w fields)) pairs := by rw [insert_insert_self]
        _ = insert k v (merge fields ((k, w) :: pairs)) := (insert_merge hmem hk v).symm
    · rw [insert, if_neg hkey]
      exact ih hpairs (insert k w fields)

/-- **Merging is associative** where the fields in the middle repeat no key. -/
theorem merge_merge {b : Fields α} (hb : Distinct b) (a c : Fields α) :
    merge (merge a b) c = merge a (merge b c) := by
  induction c generalizing b with
  | nil => rfl
  | cons p c ih =>
    obtain ⟨k, v⟩ := p
    calc merge (insert k v (merge a b)) c
        = merge (merge a (insert k v b)) c := by rw [merge_insert hb]
      _ = merge a (merge (insert k v b) c) := ih (distinct_insert k v hb)

theorem merge_append (fields pairs others : Fields α) :
    merge fields (pairs ++ others) = merge (merge fields pairs) others :=
  List.foldl_append

/-- Pairs and what they come to are merged alike. -/
theorem merge_ofPairs (fields pairs : Fields α) : merge fields (ofPairs pairs) = merge fields pairs :=
  (merge_merge (b := []) List.nodup_nil fields pairs).symm

/-! ## Related values -/

/-- The same keys in the same order, over related values. -/
def Related (R : α → β → Prop) : Fields α → Fields β → Prop :=
  List.Forall₂ fun p q => p.1 = q.1 ∧ R p.2 q.2

theorem Related.insert {R : α → β → Prop} {fields : Fields α} {others : Fields β} (key : String)
    {v : α} {w : β} (h : Related R fields others) (hv : R v w) :
    Related R (insert key v fields) (insert key w others) := by
  induction h with
  | nil => exact .cons ⟨rfl, hv⟩ .nil
  | @cons p q rest others hpq hrest ih =>
    obtain ⟨k, a⟩ := p
    obtain ⟨l, b⟩ := q
    obtain ⟨rfl, hab⟩ := hpq
    by_cases hk : k = key
    · simp only [Fields.insert, hk, if_true]
      exact .cons ⟨rfl, hv⟩ hrest
    · simp only [Fields.insert, hk, if_false]
      exact .cons ⟨rfl, hab⟩ ih

theorem Related.merge {R : α → β → Prop} {fields : Fields α} {others : Fields β}
    {pairs : Fields α} {pairs' : Fields β} (h : Related R fields others)
    (hp : Related R pairs pairs') : Related R (merge fields pairs) (merge others pairs') := by
  induction hp generalizing fields others with
  | nil => exact h
  | @cons p q pairs pairs' hpq hrest ih =>
    obtain ⟨k, a⟩ := p
    obtain ⟨l, b⟩ := q
    obtain ⟨rfl, hab⟩ := hpq
    exact ih (h.insert k hab)

/-- Writing related pairs leaves related fields. -/
theorem Related.ofPairs {R : α → β → Prop} {pairs : Fields α} {pairs' : Fields β}
    (h : Related R pairs pairs') : Related R (ofPairs pairs) (ofPairs pairs') :=
  Related.merge .nil h

theorem Related.exists_of_mem {R : α → β → Prop} {fields : Fields α} {others : Fields β}
    (h : Related R fields others) {p : String × α} (hp : p ∈ fields) :
    ∃ w, (p.1, w) ∈ others ∧ R p.2 w := by
  induction h with
  | nil => cases hp
  | @cons q r rest others hqr _ ih =>
    rcases List.mem_cons.1 hp with rfl | hp
    · exact ⟨r.2, List.mem_cons.2 (.inl (Prod.ext hqr.1 rfl)), hqr.2⟩
    · obtain ⟨w, hw, hpw⟩ := ih hp
      exact ⟨w, List.mem_cons_of_mem _ hw, hpw⟩

theorem Related.keys_eq {R : α → β → Prop} {fields : Fields α} {others : Fields β}
    (h : Related R fields others) : keys fields = keys others := by
  induction h with
  | nil => rfl
  | cons hpq _ ih =>
    simp only [keys, List.map_cons, hpq.1] at ih ⊢
    rw [ih]

end QueryForm.Fields
