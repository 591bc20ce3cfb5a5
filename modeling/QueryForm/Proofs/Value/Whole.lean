/-
What integers compile to.

Whatever is typed as an integer, in base ten or in base sixteen, its digits
come to a whole number or to infinity, so what it compiles to is an integer
of at most `2 ^ 53`, a decimal that is a greater whole number, or null
(`IntegerValue`). It is null only where there are no digits to read
(`Offers`), or where their number is one that rounding takes to infinity
(`Query.ofRules_integer`).
-/
import QueryForm.Proofs.Canonical.Scalar
import QueryForm.Proofs.Double.Overflow
import QueryForm.Proofs.Value.Decimal

namespace QueryForm

open Double (Accumulated)

/-- Null, an integer of at most `2 ^ 53` in magnitude, or a numeral with a fraction or an exponent
that is read as a whole number beyond `2 ^ 53`. -/
inductive IntegerValue : Json → Prop
  | null : IntegerValue .null
  | integer {negative : Bool} {n : Nat} : n ≤ Nat.pow 2 53 →
      IntegerValue (.number (.ofInteger negative n))
  | float {p : Numeral} {negative : Bool} {m : Magnitude} {n : Nat} : p.isInteger = false →
      p.toDouble = .finite negative m → m.units = n * Double.one → Nat.pow 2 53 < n →
      IntegerValue (.number p)

theorem scanHex_sound (cs : List Char) : ∃ digits rest, cs = digits ++ rest ∧
    HexSpells (scanHex cs) digits ∧ ∀ c ∈ rest.head?, hexDigit? c = none := by
  induction cs with
  | nil => exact ⟨[], [], rfl, rfl, by simp⟩
  | cons c cs ih =>
    rw [scanHex]
    split
    · next d hd =>
      obtain ⟨digits, rest, rfl, hdigits, hrest⟩ := ih
      exact ⟨c :: digits, rest, rfl, congrArg₂ List.cons hd hdigits, hrest⟩
    · next hnone => exact ⟨[], c :: cs, rfl, rfl, by simpa using hnone⟩

namespace TypedNumber

/-- After its padding and its sign a text has digits that write a number: all the digits there are in
base ten, or all there are in base sixteen after its prefix. -/
inductive Offers (raw : List Char) : Nat → Prop
  | decimal {negative : Bool} {ds : List Digit} {rest : List Char} :
      Opens negative (ds.map Digit.char ++ rest) raw → ¬ HexPrefix (ds.map Digit.char ++ rest) →
      Digit.NoneNext rest → ds ≠ [] → Offers raw (Digit.value ds)
  | hex {negative : Bool} {letter : Char} {ds : List (Fin 16)} {digits rest : List Char} :
      Opens negative ('0' :: letter :: (digits ++ rest)) raw → letter = 'x' ∨ letter = 'X' →
      HexSpells ds digits → (∀ c ∈ rest.head?, hexDigit? c = none) → ds ≠ [] →
      Offers raw (hexValue ds)

/-- The digits that a text offers come to a whole number, or to infinity where rounding their number
does. -/
theorem Offers.integer_eq {raw : List Char} {n : Nat} (h : Offers raw n) :
    ∃ negative x, integer raw = signed negative x ∧ Accumulated x ∧
      (x = .infinite false ↔ Double.overflow ≤ n) := by
  cases h with
  | @decimal negative ds rest hopens hten hend hne =>
    refine ⟨negative, _, ?_, Double.accumulated_ofNat (Digit.value ds),
      Double.ofNat_infinite_iff_le⟩
    rw [hopens.integer_digits hend hten, if_neg hne, signed_ofNat]
  | @hex negative letter ds digits rest hopens hletter hdigits hrest hne =>
    refine ⟨negative, _, ?_, Double.accumulated_ofHexDigits ds, Double.ofHexDigits_infinite_iff ds⟩
    rw [hopens.integer_eq, magnitude?_hex hletter, scanHex_append hdigits hrest, hex?_some hne]
    rfl

/-- A text without digits to read is NaN. -/
theorem offers_or_nan (raw : List Char) : (∃ n, Offers raw n) ∨ integer raw = .nan := by
  have hopens := opens raw
  generalize (sign (skip raw)).1 = negative at hopens
  generalize (sign (skip raw)).2 = cs at hopens
  by_cases hten : HexPrefix cs
  · obtain ⟨letter, cs, hletter, rfl⟩ := hten
    obtain ⟨digits, rest, hcs, hdigits, hrest⟩ := scanHex_sound cs
    by_cases hne : scanHex cs = []
    · refine .inr ?_
      rw [hopens.integer_eq, magnitude?_hex hletter, hne]
      rfl
    · rw [hcs] at hopens
      exact .inl ⟨_, .hex hopens hletter hdigits hrest hne⟩
  · have htext := Digit.scan_text cs
    have hend := Digit.scan_noneNext cs
    rw [← htext] at hopens hten
    by_cases hne : (Digit.scan cs).1 = []
    · exact .inr (by rw [hopens.integer_digits hend hten, if_pos hne])
    · exact .inl ⟨_, .decimal hopens hten hend hne⟩

/-- No digits come to a fraction or to NaN. -/
theorem accumulated_magnitude? {cs : List Char} {x : Double} (h : magnitude? cs = some x) :
    Accumulated x := by
  by_cases hten : HexPrefix cs
  · obtain ⟨letter, cs, hletter, rfl⟩ := hten
    rw [magnitude?_hex hletter] at h
    cases hds : scanHex cs with
    | nil =>
      rw [hds] at h
      cases h
    | cons d ds =>
      rw [hds, hex?_some (List.cons_ne_nil d ds)] at h
      cases h
      exact Double.accumulated_ofHexDigits (d :: ds)
  · rw [← Digit.scan_text cs] at h hten
    rw [magnitude?_digits (Digit.scan_noneNext cs) hten] at h
    split at h
    · cases h
    · rw [← Option.some.inj h]
      exact Double.accumulated_ofNat _

/-! ## Values -/

theorem signed_finite (negative : Bool) (m : Magnitude) :
    signed negative (.finite false m) = .finite negative m := by
  cases negative <;> rfl

/-- Only infinity leaves null of what digits have come to. -/
theorem ofDouble_signed_eq_null {x : Double} (h : Accumulated x) (negative : Bool) :
    Json.ofDouble (signed negative x) = .null ↔ x = .infinite false := by
  rw [Json.ofDouble_eq_null]
  cases h with
  | infinite => cases negative <;> simp [signed, Double.neg, Double.isFinite]
  | whole => simp [signed_finite, Double.isFinite]

/-- What digits have come to is written as a whole number. -/
theorem integerValue_signed {x : Double} (h : Accumulated x) (negative : Bool) :
    IntegerValue (Json.ofDouble (signed negative x)) := by
  cases h with
  | infinite =>
    rw [(ofDouble_signed_eq_null .infinite negative).2 rfl]
    exact .null
  | @whole m n hunits =>
    rw [signed_finite, Json.ofDouble]
    obtain ⟨whole, hw, -, hspelled⟩ | ⟨hother, hi, hread⟩ := Numeral.ofDouble_cases negative m
    · rw [hspelled]
      exact .integer hw
    · -- What is not spelled as an integer is whole all the same, so it is beyond `2 ^ 53`.
      exact .float hi hread hunits (Nat.not_le.1 fun hle => hother ⟨n, hle, hunits⟩)

theorem integerValue_compiled (raw : String) : IntegerValue (Value.compiled .integer raw) := by
  rw [Value.compiled, Value.convert, Value.canonical]
  obtain ⟨n, hn⟩ | hnan := offers_or_nan raw.toList
  · obtain ⟨negative, x, hx, hwhole, -⟩ := hn.integer_eq
    rw [hx]
    exact integerValue_signed hwhole negative
  · rw [hnan]
    exact .null

/-- **Null.** An integer compiles to null where there are no digits to read, or where rounding takes
the number they write to infinity. -/
theorem compiled_eq_null_iff (raw : String) : Value.compiled .integer raw = .null ↔
    (∀ n, ¬ Offers raw.toList n) ∨ ∃ n, Offers raw.toList n ∧ Double.overflow ≤ n := by
  rw [Value.compiled, Value.convert, Value.canonical]
  have hoffered : ∀ n, Offers raw.toList n →
      (Json.ofDouble (integer raw.toList) = .null ↔ Double.overflow ≤ n) := by
    intro n hn
    obtain ⟨negative, x, hx, hwhole, hinfinite⟩ := hn.integer_eq
    rw [hx, ofDouble_signed_eq_null hwhole, hinfinite]
  constructor
  · intro hnull
    by_cases hsome : ∃ n, Offers raw.toList n
    · obtain ⟨n, hn⟩ := hsome
      exact .inr ⟨n, hn, (hoffered n hn).1 hnull⟩
    · exact .inl (not_exists.1 hsome)
  · rintro (hnone | ⟨n, hn, hle⟩)
    · obtain ⟨n, hn⟩ | hnan := offers_or_nan raw.toList
      · exact absurd hn (hnone n)
      · rw [hnan]
        rfl
    · exact (hoffered n hn).2 hle

end TypedNumber

/-- **Integers in a query.** Every text of an integer rule that decides its key, that of a second
condition too and under any comparison, compiles to null, to an integer of at most `2 ^ 53` in
magnitude, or to a decimal that is a greater whole number. It is null where the text has no digits
to read, and where the number they write is at least `2 ^ 1024 - 2 ^ 970`, in either base. At every
digit what has been read is a whole number that is not negative, or infinity. -/
theorem Query.ofRules_integer {rules : List Rule} {r : Rule} (hlast : r.DecidesIn rules)
    (htype : r.type = .integer) :
    Fields.get? r.key (Query.ofRules rules) = some (r.contentWith (Value.compiled .integer)) ∧
      (∀ raw, IntegerValue (Value.compiled .integer raw) ∧
        (Value.compiled .integer raw = .null ↔
          (∀ n, ¬ TypedNumber.Offers raw.toList n) ∨
            ∃ n, TypedNumber.Offers raw.toList n ∧ Nat.pow 2 1024 - Nat.pow 2 970 ≤ n)) ∧
      (∀ cs x, TypedNumber.magnitude? cs = some x → Accumulated x) ∧
      ∀ ds, Accumulated (Double.ofHexDigits ds) := by
  refine ⟨?_, fun raw => ⟨TypedNumber.integerValue_compiled raw, ?_⟩,
    fun cs x h => TypedNumber.accumulated_magnitude? h, Double.accumulated_ofHexDigits⟩
  · rw [hlast.get?_ofRules, htype]
  · have hnull := TypedNumber.compiled_eq_null_iff raw
    unfold Double.overflow at hnull
    exact hnull

/-- A first condition in base sixteen, and a second one without digits. -/
theorem Query.ofRules_integer_pair :
    Rule.DecidesIn ⟨"n", .integer, "0X1fpx", .gt, some ⟨.or, "kg", .eq⟩⟩
        [⟨"n", .integer, "0X1fpx", .gt, some ⟨.or, "kg", .eq⟩⟩] ∧
      (∀ n, ¬ TypedNumber.Offers "kg".toList n) ∧
      Fields.get? "$or"
          (Query.ofRules [⟨"n", .integer, "0X1fpx", .gt, some ⟨.or, "kg", .eq⟩⟩]) =
        some (.array [.object [("n", .object [("$gt", .number (.ofInteger false 31))])],
          .object [("n", .null)]]) := by
  have hlast := Rule.decidesIn_singleton ⟨"n", .integer, "0X1fpx", .gt, some ⟨.or, "kg", .eq⟩⟩
  obtain ⟨hget, hvalues, -⟩ := Query.ofRules_integer hlast rfl
  have hnone : ∀ n, ¬ TypedNumber.Offers "kg".toList n := by
    intro n h
    obtain ⟨negative, x, hx, hwhole, -⟩ := h.integer_eq
    have hnan : TypedNumber.integer "kg".toList = .nan := rfl
    rw [hnan] at hx
    cases hwhole <;> cases negative <;> cases hx
  have hhex : TypedNumber.StartsHex false [1, 15] "0X1fpx".toList := by
    have hend : ∀ c ∈ "px".toList.head?, hexDigit? c = none := by
      rintro _ ⟨⟩
      rfl
    exact .mk (List.forall_mem_nil _) .none (.inr rfl) (by decide)
      (by decide : HexSpells [1, 15] ['1', 'f']) hend
  have hfirst : Value.compiled .integer "0X1fpx" = .number (.ofInteger false 31) := by
    have hbelow : hexValue [1, 15].dropLast < Nat.pow 2 53 := by decide
    have hsmall : hexValue [1, 15] ≤ Nat.pow 2 53 := by decide
    rw [Value.compiled, Value.convert, Value.canonical, TypedNumber.integer_hex hhex,
      Double.ofHexDigits_below hbelow, TypedNumber.signed_ofNat, Json.ofDouble_ofNat hsmall]
    rfl
  have hsecond := (hvalues "kg").2.2 (.inl hnone)
  refine ⟨hlast, hnone, ?_⟩
  have hsome : Rule.activeSecond ⟨"n", .integer, "0X1fpx", .gt, some ⟨.or, "kg", .eq⟩⟩ =
      some ⟨.or, "kg", .eq⟩ := rfl
  simp only [Rule.contentWith, hsome, hfirst, hsecond] at hget
  exact hget

end QueryForm
