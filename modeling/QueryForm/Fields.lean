/-
Ordered fields: an association list whose order is the order in which its
keys were first written. The members of a JSON object and the entries of a
query document are both such lists.

`insert` writes one key: a key already present keeps its place and takes
the new value, a new key goes to the end. `ofPairs` writes a list of pairs
one after the other.
-/
namespace QueryForm

/-- A list of named values, in order. -/
abbrev Fields (α : Type) := List (String × α)

namespace Fields

variable {α : Type}

/-- The value under a key. -/
def get? (key : String) : Fields α → Option α
  | [] => none
  | (k, v) :: rest => if k = key then some v else get? key rest

/-- Writes a key: in place when it is present, at the end when it is not. -/
def insert (key : String) (value : α) : Fields α → Fields α
  | [] => [(key, value)]
  | (k, v) :: rest => if k = key then (k, value) :: rest else (k, v) :: insert key value rest

/-- Writes a key, and gives the value that it replaced with the fields that are left. -/
def replace (key : String) (value : α) : Fields α → Option α × Fields α
  | [] => (none, [(key, value)])
  | (k, v) :: rest =>
    if k = key then (some v, (k, value) :: rest)
    else
      let (old, rest) := replace key value rest
      (old, (k, v) :: rest)

/-- The keys, in order. -/
def keys (fields : Fields α) : List String :=
  fields.map (·.1)

/-- Writes every pair of the second list, in order, into the first. -/
def merge (fields pairs : Fields α) : Fields α :=
  pairs.foldl (fun done (k, v) => insert k v done) fields

/-- The fields that a list of pairs leaves when written one after the other. -/
def ofPairs (pairs : Fields α) : Fields α :=
  merge [] pairs

/-- No key is repeated. -/
def Distinct (fields : Fields α) : Prop :=
  (keys fields).Nodup

@[simp] theorem get?_insert_self (key : String) (value : α) (fields : Fields α) :
    get? key (insert key value fields) = some value := by
  induction fields with
  | nil => simp [insert, get?]
  | cons p rest ih =>
    obtain ⟨k, v⟩ := p
    by_cases h : k = key <;> simp [insert, get?, h, ih]

theorem get?_insert_of_ne {key other : String} (h : other ≠ key) (value : α)
    (fields : Fields α) : get? other (insert key value fields) = get? other fields := by
  induction fields with
  | nil => simp [insert, get?, h.symm]
  | cons p rest ih =>
    obtain ⟨k, v⟩ := p
    by_cases hk : k = key
    · subst hk; simp [insert, get?, h.symm]
    · by_cases ho : k = other
      · simp [insert, get?, h, ho]
      · simp [insert, get?, hk, ho, ih]

/-- What is replaced is what was under the key. -/
theorem replace_eq (key : String) (value : α) (fields : Fields α) :
    replace key value fields = (get? key fields, insert key value fields) := by
  induction fields with
  | nil => rfl
  | cons p rest ih =>
    obtain ⟨k, v⟩ := p
    by_cases h : k = key <;> simp [replace, get?, insert, h, ih]

theorem keys_insert (key : String) (value : α) (fields : Fields α) :
    keys (insert key value fields) =
      if key ∈ keys fields then keys fields else keys fields ++ [key] := by
  induction fields with
  | nil => simp [insert, keys]
  | cons p rest ih =>
    obtain ⟨k, v⟩ := p
    by_cases hk : k = key
    · simp [insert, keys, hk]
    · have hk' : ¬ key = k := fun h => hk h.symm
      simp only [keys] at ih
      by_cases hm : key ∈ rest.map (·.1) <;> simp_all [insert, keys]

end Fields

end QueryForm
