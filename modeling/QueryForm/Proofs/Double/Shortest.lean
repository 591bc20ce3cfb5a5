/-
The shortest decimal of a double reads back as the double.

The search looks at candidates and takes one only if it reads back. Where it
finds none, the exact expansion stands in, and that reads back as it is the
double itself: a unit is `5 ^ 1074 / 10 ^ 1074`.
-/
import QueryForm.Double.Shortest
import QueryForm.Proofs.Double.Decimal

namespace QueryForm.Magnitude

open Double (one)

theorem exact_eq (m : Magnitude) :
    m.exact = ⟨false, m.units * Nat.pow 5 1074, -(1074 : Nat)⟩ :=
  rfl

/-- The exact expansion of a double is within the range of doubles. -/
theorem top_exact {m : Magnitude} (h : m.units ≠ 0) :
    ¬ 309 < m.exact.top ∧ ¬ m.exact.top < -323 := by
  have hlarge : Double.limit * Nat.pow 5 1074 ≤ Nat.pow 10 (1382 + 1) := by decide +kernel
  have hsmall : Nat.pow 10 750 ≤ Nat.pow 5 1074 := by decide +kernel
  have htop : m.exact.top = digitCount (m.units * Nat.pow 5 1074) + -1074 := rfl
  have hfive : 0 < Nat.pow 5 1074 := by decide +kernel
  -- Only these bounds of the powers matter, and the powers are long.
  generalize Nat.pow 5 1074 = five at hlarge hsmall htop hfive
  generalize hlow : 750 = low at hsmall
  have hle : digitCount (m.units * five) ≤ 1382 + 1 :=
    digitCount_le
      (Nat.lt_of_lt_of_le (Nat.mul_lt_mul_of_pos_right m.representable.2 hfive) hlarge)
  have hgt : low < digitCount (m.units * five) :=
    lt_digitCount (Nat.le_trans hsmall (Nat.le_mul_of_pos_left _ (Nat.pos_of_ne_zero h)))
  omega

theorem toDouble_exact (m : Magnitude) : m.exact.toDouble = .finite false m := by
  by_cases h : m.units = 0
  · have hzero : m.exact.coefficient = 0 := Nat.mul_eq_zero.2 (.inl h)
    rw [Decimal.toDouble, if_pos hzero, Double.zero,
      Double.eq_of_units (m := Double.zeroMagnitude) (k := m) h.symm]
    rfl
  obtain ⟨hhigh, hlow⟩ := top_exact h
  have hone : Nat.pow 5 1074 * one = Nat.pow 10 1074 := by decide +kernel
  rw [exact_eq] at hhigh hlow ⊢
  -- That a unit is a decimal is all that is asked of the exponent.
  generalize 1074 = e at hone hhigh hlow ⊢
  have hne : m.units * Nat.pow 5 e ≠ 0 :=
    Nat.mul_ne_zero h (Nat.ne_of_gt (Nat.pow_pos (by decide)))
  have hup : Nat.pow 10 (-(e : Int)).toNat = 1 := by
    rw [Int.toNat_of_nonpos (by omega)]
  have hdown : (-(-(e : Int))).toNat = e := by omega
  have hnum : m.units * Nat.pow 5 e * 1 * one = m.units * Nat.pow 10 e := by
    rw [Nat.mul_one, Nat.mul_assoc, hone]
  have hrounded := Double.rounded_of_eq m.representable.1 (Nat.pow_pos (by decide)) hnum
  rw [Decimal.toDouble_of_inRange hne hhigh hlow, hup, hdown]
  exact Double.ofUnits_eq false hrounded

theorem toDouble_of_readsBack {m : Magnitude} {d : Decimal} (h : m.readsBack d = true) :
    d.toDouble = .finite false m :=
  beq_iff_eq.1 h

theorem toDouble_of_upTo? {m : Magnitude} {exponent : Int} {d : Decimal}
    (h : m.upTo? exponent = some d) : d.toDouble = .finite false m := by
  simp only [upTo?] at h
  split at h
  · next hlow hhigh =>
    cases h
    split
    · exact toDouble_of_readsBack hlow
    · exact toDouble_of_readsBack hhigh
  · next hlow _ =>
    cases h
    exact toDouble_of_readsBack hlow
  · next _ hhigh =>
    cases h
    exact toDouble_of_readsBack hhigh
  · cases h

/-- **Reading back.** The shortest decimal of a double has that double as its nearest. -/
theorem toDouble_shortest (m : Magnitude) : m.shortest.toDouble = .finite false m := by
  rw [shortest, Decimal.toDouble_strip]
  cases hfound : (List.range 17).findSome? fun (more : Nat) => m.upTo? (m.leading - more) with
  | none => exact m.toDouble_exact
  | some d =>
    obtain ⟨more, -, hmore⟩ := List.exists_of_findSome?_eq_some hfound
    exact toDouble_of_upTo? hmore

end QueryForm.Magnitude
