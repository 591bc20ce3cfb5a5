/-
Rounding keeps order, and keeps what is on the grid.

`rounded` is the number of units that a quotient is rounded to. A number on
the grid is never passed: it bounds the rounded quotient from below when it
bounds the quotient from below (`le_rounded`), and from above likewise
(`rounded_le`). A quotient that is on the grid is therefore left as it is.
Equal quotients are rounded alike (`ofRatio_congr`).
-/
import QueryForm.Double.Rounding

namespace QueryForm.Double

/-- A quotient in units, rounded to the grid; infinity is not told apart. -/
def rounded (num den : Nat) : Nat :=
  steps num den * spacing (num / den)

theorem spacing_dvd_spacing {m n : Nat} (h : m.log2 ≤ n.log2) : spacing m ∣ spacing n :=
  Nat.pow_dvd_pow 2 (by omega)

/-- The distance of neighbours divides the power of two at the start of their stretch. -/
theorem spacing_dvd_log2 (n : Nat) : spacing n ∣ Nat.pow 2 n.log2 :=
  Nat.pow_dvd_pow 2 (by omega)

/-- Nothing on the grid lies between the two multiples of the spacing around a number. -/
theorem grid_sides {h : Nat} (hh : spacing h ∣ h) (q : Nat) :
    h ≤ q / spacing q * spacing q ∨ (q / spacing q + 1) * spacing q ≤ h := by
  rcases Nat.lt_or_ge h.log2 q.log2 with hlog | hlog
  · have hq : q ≠ 0 := by
      rintro rfl
      simp at hlog
    have hlt : h < Nat.pow 2 q.log2 := by
      rcases Nat.eq_zero_or_pos h with rfl | hpos
      · exact Nat.two_pow_pos _
      · exact (Nat.log2_lt (by omega)).1 hlog
    obtain ⟨k, hk⟩ := spacing_dvd_log2 q
    have hle : k ≤ q / spacing q := by
      rw [Nat.le_div_iff_mul_le (spacing_pos q), Nat.mul_comm, ← hk]
      exact Nat.log2_self_le hq
    refine .inl (Nat.le_trans (Nat.le_of_lt hlt) ?_)
    rw [hk, Nat.mul_comm]
    exact Nat.mul_le_mul_right _ hle
  · obtain ⟨k, hk⟩ := Nat.dvd_trans (spacing_dvd_spacing hlog) hh
    rw [hk, Nat.mul_comm]
    rcases Nat.lt_or_ge (q / spacing q) k with hlt | hge
    · exact .inr (Nat.mul_le_mul_right _ hlt)
    · exact .inl (Nat.mul_le_mul_right _ hge)

theorem le_nearest {k num den : Nat} (hd : 0 < den) (h : k * den ≤ num) : k ≤ nearest num den := by
  have hq : k ≤ num / den := (Nat.le_div_iff_mul_le hd).2 h
  simp only [nearest]
  split <;> omega

theorem nearest_le_of_le {k num den : Nat} (hd : 0 < den) (h : num ≤ k * den) :
    nearest num den ≤ k := by
  have hq : num / den ≤ k := Nat.div_le_of_le_mul (by rwa [Nat.mul_comm] at h)
  rcases Nat.lt_or_eq_of_le hq with hlt | rfl
  · have := nearest_le num den
    omega
  · -- The quotient is whole, so there is nothing to round.
    have hdiv := Nat.div_add_mod num den
    rw [Nat.mul_comm] at hdiv
    have hr : num % den = 0 := by omega
    simp only [nearest, hr]
    split <;> omega

/-- A number on the grid that is at most a quotient is at most the rounded quotient. -/
theorem le_rounded {g num den : Nat} (hg : spacing g ∣ g) (hd : 0 < den) (h : g * den ≤ num) :
    g ≤ rounded num den := by
  have hle : g ≤ num / den := (Nat.le_div_iff_mul_le hd).2 h
  have hs := spacing_pos (num / den)
  rcases grid_sides hg (num / den) with hbelow | habove
  · refine Nat.le_trans hbelow (Nat.mul_le_mul_right _ (le_nearest (Nat.mul_pos hd hs) ?_))
    have := (Nat.le_div_iff_mul_le hd).1 (Nat.div_mul_le_self (num / den) (spacing (num / den)))
    rwa [Nat.mul_assoc, Nat.mul_comm (spacing _)] at this
  · have hlt := (Nat.div_lt_iff_lt_mul hs).1 (Nat.lt_succ_self (num / den / spacing (num / den)))
    exact absurd (Nat.le_trans habove hle) (Nat.not_le.2 hlt)

/-- A number on the grid that is at least a quotient is at least the rounded quotient. -/
theorem rounded_le {g num den : Nat} (hg : spacing g ∣ g) (hd : 0 < den) (h : num ≤ g * den) :
    rounded num den ≤ g := by
  have hle : num / den ≤ g := Nat.div_le_of_le_mul (by rwa [Nat.mul_comm] at h)
  have hlog : (num / den).log2 ≤ g.log2 := by
    by_cases h0 : num / den = 0
    · rw [h0]
      exact Nat.zero_le _
    · have hg0 : g ≠ 0 := fun e => h0 (Nat.le_zero.1 (e ▸ hle))
      exact (Nat.le_log2 hg0).2 (Nat.le_trans (Nat.log2_self_le h0) hle)
  obtain ⟨k, hk⟩ := Nat.dvd_trans (spacing_dvd_spacing hlog) hg
  rw [Nat.mul_comm] at hk
  have hsteps : steps num den ≤ k := by
    refine nearest_le_of_le (Nat.mul_pos hd (spacing_pos _)) ?_
    rw [hk] at h
    rwa [Nat.mul_assoc, Nat.mul_comm (spacing _)] at h
  rw [rounded, hk]
  exact Nat.mul_le_mul_right _ hsteps

/-- A quotient that is a number on the grid is rounded to that number. -/
theorem rounded_of_eq {g num den : Nat} (hg : spacing g ∣ g) (hd : 0 < den)
    (h : num = g * den) : rounded num den = g :=
  Nat.le_antisymm (rounded_le hg hd (Nat.le_of_eq h)) (le_rounded hg hd (Nat.le_of_eq h.symm))

/-- A number on the grid is rounded to itself. -/
theorem rounded_of_dvd {g : Nat} (hg : spacing g ∣ g) : rounded g 1 = g :=
  rounded_of_eq hg Nat.one_pos (Nat.mul_one g).symm

theorem ofUnits_eq_finite {negative s : Bool} {num den : Nat} {m : Magnitude}
    (h : ofUnits negative num den = .finite s m) : s = negative ∧ m.units = rounded num den := by
  simp only [ofUnits, ofGrid] at h
  split at h
  · cases h
    exact ⟨rfl, rfl⟩
  · cases h

theorem ofGrid_of_lt (negative : Bool) {n : Nat} (hs : spacing n ∣ n) (h : n < limit) :
    ofGrid negative n hs = .finite negative ⟨n, hs, h⟩ := by
  rw [ofGrid, dif_pos h]

theorem ofGrid_of_le (negative : Bool) {n : Nat} (hs : spacing n ∣ n) (h : limit ≤ n) :
    ofGrid negative n hs = .infinite negative := by
  rw [ofGrid, dif_neg (Nat.not_lt.2 h)]

theorem ofUnits_finite (negative : Bool) {num den : Nat} (h : rounded num den < limit) :
    ∃ m, ofUnits negative num den = .finite negative m := by
  rw [ofUnits]
  exact ⟨_, ofGrid_of_lt negative _ h⟩

theorem eq_of_units {m k : Magnitude} (h : m.units = k.units) : m = k := by
  cases m
  cases k
  cases h
  rfl

/-- A quotient that is rounded to the units of a double is rounded to that double. -/
theorem ofUnits_eq (negative : Bool) {num den : Nat} {m : Magnitude}
    (h : rounded num den = m.units) : ofUnits negative num den = .finite negative m := by
  obtain ⟨k, hk⟩ := ofUnits_finite negative (h ▸ m.representable.2)
  have hunits := (ofUnits_eq_finite hk).2
  rw [hk, eq_of_units (hunits.trans h)]

/-- A quotient at or beyond the end of the grid is rounded to infinity. -/
theorem ofUnits_infinite (negative : Bool) {num den : Nat} (h : limit ≤ rounded num den) :
    ofUnits negative num den = .infinite negative := by
  rw [ofUnits]
  exact ofGrid_of_le negative _ h

/-- A quotient below half a unit is rounded to zero. -/
theorem rounded_of_small {num den : Nat} (h : 2 * num < den) : rounded num den = 0 := by
  have hdiv : num / den = 0 := Nat.div_eq_of_lt (by omega)
  have hmod : num % den = num := Nat.mod_eq_of_lt (by omega)
  have hspacing : den * spacing (num / den) = den := by
    rw [hdiv]
    exact Nat.mul_one den
  have hnearest : nearest num den = 0 := by
    simp only [nearest, hdiv, hmod]
    rw [if_neg (by omega)]
  rw [rounded, steps, hspacing, hnearest, Nat.zero_mul]

/-! ## Equal quotients -/

theorem nearest_scale {k : Nat} (hk : 0 < k) (num den : Nat) :
    nearest (num * k) (den * k) = nearest num den := by
  have hdouble : 2 * (num % den * k) = 2 * (num % den) * k := (Nat.mul_assoc _ _ _).symm
  have hlt : den * k < 2 * (num % den) * k ↔ den < 2 * (num % den) := Nat.mul_lt_mul_right hk
  have heq : den * k = 2 * (num % den) * k ↔ den = 2 * (num % den) :=
    Nat.mul_right_cancel_iff hk
  simp only [nearest, Nat.mul_div_mul_right _ _ hk, Nat.mul_mod_mul_right, hdouble, hlt, heq]

theorem ofGrid_congr (negative : Bool) {m n : Nat} (hm : spacing m ∣ m) (hn : spacing n ∣ n)
    (h : m = n) : ofGrid negative m hm = ofGrid negative n hn := by
  subst h
  rfl

theorem ofUnits_scale (negative : Bool) {k : Nat} (hk : 0 < k) (num den : Nat) :
    ofUnits negative (num * k) (den * k) = ofUnits negative num den := by
  refine ofGrid_congr negative _ _ ?_
  have hdiv : num * k / (den * k) = num / den := Nat.mul_div_mul_right _ _ hk
  rw [steps, steps, hdiv, Nat.mul_right_comm den k, nearest_scale hk]

/-- **Rounding depends on the quotient alone.** -/
theorem ofRatio_congr (negative : Bool) {a b c d : Nat} (hb : 0 < b) (hd : 0 < d)
    (h : a * d = c * b) : ofRatio negative a b = ofRatio negative c d := by
  have hnum : a * one * d = c * one * b := by
    rw [Nat.mul_right_comm, h, Nat.mul_right_comm]
  rw [ofRatio, ofRatio, ← ofUnits_scale negative hd (a * one) b,
    ← ofUnits_scale negative hb (c * one) d, hnum, Nat.mul_comm d b]

/-! ## Whole numbers -/

theorem one_pos : 0 < one := by decide +kernel

/-- One is a power of two, whose exponent is of no concern. -/
theorem one_eq_pow : ∃ k, one = Nat.pow 2 k := by
  have h : ∀ e, ∃ k, Nat.pow 2 e = Nat.pow 2 k := fun e => ⟨e, rfl⟩
  unfold one
  apply h

theorem spacing_dvd_whole {n : Nat} (h : n ≤ Nat.pow 2 53) : spacing (n * one) ∣ n * one := by
  obtain ⟨k, hk⟩ := one_eq_pow
  rw [hk]
  exact spacing_dvd_mul_pow h k

/-- Twice a number of 53 bits is a double too. -/
theorem spacing_dvd_twice {n : Nat} (h : n ≤ Nat.pow 2 53) :
    spacing (n * 2 * one) ∣ n * 2 * one := by
  obtain ⟨k, hk⟩ := one_eq_pow
  have hpow : n * 2 * Nat.pow 2 k = n * Nat.pow 2 (k + 1) := by
    rw [Nat.mul_assoc, Nat.mul_comm 2]
    rfl
  rw [hk, hpow]
  exact spacing_dvd_mul_pow h (k + 1)

/-- Up to `2 ^ 53` every whole number is a double. -/
theorem rounded_whole {n : Nat} (h : n ≤ Nat.pow 2 53) : rounded (n * one) 1 = n * one :=
  rounded_of_dvd (spacing_dvd_whole h)

/-- The first whole number that is no double is a tie, and goes to its even neighbour. -/
theorem rounded_tie : rounded ((Nat.pow 2 53 + 1) * one) 1 = Nat.pow 2 53 * one := by
  decide +kernel

/-- The whole numbers that are rounded to at most `2 ^ 53` are those up to one more. -/
theorem rounded_le_iff {n : Nat} :
    rounded (n * one) 1 ≤ Nat.pow 2 53 * one ↔ n ≤ Nat.pow 2 53 + 1 := by
  rcases Nat.lt_or_ge (Nat.pow 2 53 + 1) n with hn | hn
  · have hgrid : spacing ((Nat.pow 2 53 + 2) * one) ∣ (Nat.pow 2 53 + 2) * one := by
      have h2 : Nat.pow 2 53 + 2 = (Nat.pow 2 52 + 1) * 2 := by decide
      rw [h2]
      exact spacing_dvd_twice (by decide)
    have hn' : (Nat.pow 2 53 + 2) * one * 1 ≤ n * one := by
      rw [Nat.mul_one]
      exact Nat.mul_le_mul_right _ hn
    have hle := le_rounded hgrid Nat.one_pos hn'
    have hlt : Nat.pow 2 53 * one < (Nat.pow 2 53 + 2) * one :=
      Nat.mul_lt_mul_of_pos_right (by omega) one_pos
    omega
  · refine iff_of_true ?_ hn
    rcases Nat.lt_or_eq_of_le hn with hlt | rfl
    · rw [rounded_whole (by omega)]
      exact Nat.mul_le_mul_right _ (by omega)
    · exact Nat.le_of_eq rounded_tie

end QueryForm.Double
