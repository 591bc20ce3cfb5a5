/-
Where whole numbers go to infinity, and that they stay whole.

The greatest finite double and the first number beyond the grid,
`2 ^ 1024`, are equally near to `2 ^ 1024 - 2 ^ 970`, and of the two the
second is the even one: from there on a quotient is rounded to infinity
(`limit_le_rounded_iff`). Digits in base sixteen are rounded one by one, and
yet reach infinity from the same number on (`ofHexDigits_infinite_iff`): the
digits that are dropped are worth less than one in the last place of those
kept, and the bound has no digits in those places.

What the digits reach is at every one of them a whole number or infinity,
and not negative (`Accumulated`).
-/
import QueryForm.Proofs.Double.Hexadecimal

namespace QueryForm.Double

/-! ## The end of the grid -/

/-- The units of the greatest finite double. -/
def greatest : Nat := limit - Nat.pow 2 2045

theorem spacing_dvd_limit : spacing limit ∣ limit := by decide +kernel

theorem spacing_dvd_greatest : spacing greatest ∣ greatest := by decide +kernel

theorem not_two_dvd_greatest : ¬ 2 ∣ greatest / spacing greatest := by decide +kernel

/-- The least whole number that is rounded to infinity. -/
def overflow : Nat := Nat.pow 2 1024 - Nat.pow 2 970

/-- It is halfway between the greatest double and what is beyond the grid. -/
theorem two_mul_overflow : 2 * (overflow * one) = greatest + limit := by decide +kernel

theorem greatest_lt_limit : greatest < limit := by decide +kernel

/-- Nothing on the grid lies between the greatest double and the end of the grid. -/
theorem le_greatest {g : Nat} (hg : spacing g ∣ g) (h : g < limit) : g ≤ greatest := by
  have hnext : greatest + spacing greatest = limit := by decide +kernel
  by_contra hlt
  have := next_le spacing_dvd_greatest hg (Nat.not_le.1 hlt)
  omega

/-- **Overflow.** A quotient is rounded to the end of the grid or beyond from halfway between the
end and the greatest double on. -/
theorem limit_le_rounded_iff {num den : Nat} (hd : 0 < den) :
    limit ≤ rounded num den ↔ overflow * one * den ≤ num := by
  have hclosest := closest_rounded num hd
  have hhalf : 2 * (overflow * one * den) = greatest * den + limit * den := by
    rw [← Nat.mul_assoc, two_mul_overflow, Nat.add_mul]
  have hends : greatest * den < limit * den := Nat.mul_lt_mul_of_pos_right greatest_lt_limit hd
  constructor
  · intro hbeyond
    have hleast := hclosest.least greatest spacing_dvd_greatest
    have hfar : limit * den ≤ rounded num den * den := Nat.mul_le_mul_right den hbeyond
    simp only [Nat.dist] at hleast
    omega
  · intro hnum
    -- Within the grid only the tie is left, which an odd last bit may not win.
    by_contra hwithin
    have hbelow := le_greatest hclosest.grid (Nat.not_le.1 hwithin)
    have hnear : rounded num den * den ≤ greatest * den := Nat.mul_le_mul_right den hbelow
    have hleast := hclosest.least limit spacing_dvd_limit
    have htie : Nat.dist num (rounded num den * den) = Nat.dist num (limit * den) := by
      simp only [Nat.dist] at hleast ⊢
      omega
    have hgreatest : rounded num den * den = greatest * den := by
      simp only [Nat.dist] at htie
      omega
    have heven := hclosest.even limit spacing_dvd_limit (by omega) htie
    rw [Nat.eq_of_mul_eq_mul_right hd hgreatest] at heven
    exact not_two_dvd_greatest heven

/-- A whole number is rounded to infinity from halfway beyond the greatest double on. -/
theorem ofNat_infinite_iff_le {negative : Bool} {n : Nat} :
    ofNat negative n = .infinite negative ↔ overflow ≤ n := by
  rw [ofNat_infinite_iff, ← rounded_ones, limit_le_rounded_iff Nat.one_pos, Nat.mul_one]
  exact Nat.mul_le_mul_right_iff one_pos

/-! ## Digits in base sixteen -/

/-- A power of sixteen divides the bound, or takes numbers of 53 bits beyond it. -/
theorem pow_dvd_overflow (k : Nat) :
    Nat.pow 16 k ∣ overflow ∨ overflow ≤ Nat.pow 2 53 * Nat.pow 16 k := by
  rcases Nat.lt_or_ge k 243 with hlt | hge
  · have hlast : Nat.pow 16 242 ∣ overflow := by decide +kernel
    exact .inl (Nat.dvd_trans (Nat.pow_dvd_pow 16 (Nat.le_of_lt_succ hlt)) hlast)
  · have hfirst : overflow ≤ Nat.pow 2 53 * Nat.pow 16 243 := by decide +kernel
    exact .inr (Nat.le_trans hfirst
      (Nat.mul_le_mul_left _ (Nat.pow_le_pow_right (by decide) hge)))

/-- What is less than one in the last place of a number does not take the number to the bound. -/
theorem overflow_le_append {p t k : Nat} (hp : Nat.pow 2 53 ≤ p) (ht : t < Nat.pow 16 k) :
    overflow ≤ p * Nat.pow 16 k ↔ overflow ≤ p * Nat.pow 16 k + t := by
  refine ⟨fun h => Nat.le_trans h (Nat.le_add_right _ _), fun h => ?_⟩
  obtain ⟨places, hplaces⟩ | hbeyond := pow_dvd_overflow k
  · rw [hplaces, Nat.mul_comm] at h ⊢
    have hlt : places * Nat.pow 16 k < (p + 1) * Nat.pow 16 k := by
      rw [Nat.succ_mul]
      exact Nat.lt_of_le_of_lt h (Nat.add_lt_add_left ht _)
    exact Nat.mul_le_mul_right _ (Nat.le_of_lt_succ (Nat.lt_of_mul_lt_mul_right hlt))
  · exact Nat.le_trans hbeyond (Nat.mul_le_mul_right _ hp)

/-- **Overflow in base sixteen** is overflow: digits reach infinity exactly where rounding all of
them at once does. -/
theorem ofHexDigits_infinite_iff (ds : List (Fin 16)) :
    ofHexDigits ds = .infinite false ↔ overflow ≤ hexValue ds := by
  obtain ⟨kept, dropped, rfl, hkept⟩ := exists_kept ds
  rw [ofHexDigits_kept hkept, ofNat_infinite_iff_le, hexValue_append]
  by_cases hdropped : dropped = []
  · subst hdropped
    rfl
  · exact overflow_le_append (hkept.reached hdropped) (hexValue_lt dropped)

/-! ## Whole numbers -/

/-- A whole number that is not negative, or infinity: what digits have come to. -/
inductive Accumulated : Double → Prop
  | infinite : Accumulated (.infinite false)
  | whole {m : Magnitude} {n : Nat} : m.units = n * one → Accumulated (.finite false m)

/-- A whole number is rounded to a whole number or to infinity. -/
theorem accumulated_ofNat (n : Nat) : Accumulated (ofNat false n) := by
  rcases Nat.lt_or_ge (rounded (n * one) 1) limit with hlt | hge
  · obtain ⟨m, hm⟩ := ofUnits_finite false hlt
    have hunits := (ofUnits_eq_finite hm).2
    rw [rounded_ones] at hunits
    rw [ofNat, ofRatio, hm]
    exact .whole hunits
  · rw [ofNat, ofRatio, ofUnits_infinite false hge]
    exact .infinite

/-- A digit that is appended leaves what has come together so far whole. -/
theorem Accumulated.appendHex {x : Double} (h : Accumulated x) (d : Fin 16) :
    Accumulated (x.appendHex d) := by
  cases h with
  | infinite => exact .infinite
  | @whole m n hunits =>
    have hnext : 16 * m.units + d.val * one = (16 * n + d.val) * one := by
      rw [hunits, Nat.add_mul, Nat.mul_assoc]
    have hrounded := accumulated_ofNat (16 * n + d.val)
    rw [ofNat, ofRatio, ← hnext] at hrounded
    exact hrounded

/-- **Digits stay whole.** However many have been appended, they have come to a whole number that is
not negative, or to infinity. -/
theorem accumulated_ofHexDigits (ds : List (Fin 16)) : Accumulated (ofHexDigits ds) := by
  induction ds using List.reverseRecOn with
  | nil =>
    rw [ofHexDigits, List.foldl_nil, ← ofNat_zero]
    exact accumulated_ofNat 0
  | append_singleton ds d ih =>
    rw [ofHexDigits_concat]
    exact ih.appendHex d

end QueryForm.Double
