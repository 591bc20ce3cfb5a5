/-
Rounding is to the nearest.

`Closest` says it of distances alone: on the grid of doubles, continued
beyond its end, no number is nearer to a quotient, and where another is as
near, the last of the 53 bits is zero. `closest_rounded` shows that of the
number that a quotient is rounded to, and `Closest.unique` that of no other.
`Double.Nearest` adds the sign, and infinity beyond the end of the grid.
-/
import Mathlib.Data.Nat.Dist
import QueryForm.Proofs.Double.Decimal

namespace QueryForm.Double

/-- On the grid no number of units is nearer to `num / den` than `g`, and where another is as near,
the last bit of `g` is zero. Distances are taken in parts of a unit, of which `den` make one. -/
structure Closest (num den g : Nat) : Prop where
  grid : spacing g ∣ g
  least : ∀ h, spacing h ∣ h → Nat.dist num (g * den) ≤ Nat.dist num (h * den)
  even : ∀ h, spacing h ∣ h → h ≠ g → Nat.dist num (g * den) = Nat.dist num (h * den) →
    2 ∣ g / spacing g

/-- A double is the one nearest to `num / den` with a sign; beyond the grid it is infinity. -/
def Nearest (x : Double) (negative : Bool) (num den : Nat) : Prop :=
  ∃ g, ∃ h : Closest (num * one) den g, x = ofGrid negative g h.grid

/-! ## The spacing of longer numbers -/

theorem log2_append {n t k : Nat} (hn : n ≠ 0) (ht : t < Nat.pow 2 k) :
    (n * Nat.pow 2 k + t).log2 = n.log2 + k := by
  have hpow : 0 < Nat.pow 2 k := Nat.two_pow_pos k
  have hne : n * Nat.pow 2 k + t ≠ 0 := by
    have := Nat.mul_pos (Nat.pos_of_ne_zero hn) hpow
    omega
  have hlow : Nat.pow 2 n.log2 * Nat.pow 2 k ≤ n * Nat.pow 2 k :=
    Nat.mul_le_mul_right _ (Nat.log2_self_le hn)
  have hhigh : (n + 1) * Nat.pow 2 k ≤ Nat.pow 2 (n.log2 + 1) * Nat.pow 2 k :=
    Nat.mul_le_mul_right _ Nat.lt_log2_self
  rw [Nat.succ_mul] at hhigh
  refine (Nat.log2_eq_iff hne).2 ⟨?_, ?_⟩
  · rw [Nat.pow_add]
    exact Nat.le_trans hlow (Nat.le_add_right _ _)
  · rw [Nat.add_right_comm, Nat.pow_add]
    exact Nat.lt_of_lt_of_le (Nat.add_lt_add_left ht _) hhigh

/-- Among numbers of at least 53 bits, the spacing doubles with every bit more. -/
theorem spacing_append {n t k : Nat} (h : Nat.pow 2 52 ≤ n) (ht : t < Nat.pow 2 k) :
    spacing (n * Nat.pow 2 k + t) = spacing n * Nat.pow 2 k := by
  have hn : n ≠ 0 := by
    rintro rfl
    exact absurd h (by decide)
  have hlog : 52 ≤ n.log2 := (Nat.le_log2 hn).2 h
  rw [spacing, spacing, log2_append hn ht, show n.log2 + k - 52 = n.log2 - 52 + k by omega]
  exact Nat.pow_add 2 _ _

/-- An even number of at most 53 bits is even on the grid, whatever power of two it is scaled by. -/
theorem two_dvd_div_spacing {n : Nat} (hn : n ≤ Nat.pow 2 53) (h2 : 2 ∣ n) (k : Nat) :
    2 ∣ n * Nat.pow 2 k / spacing (n * Nat.pow 2 k) := by
  rcases Nat.eq_zero_or_pos n with rfl | hpos
  · simp
  rcases Nat.lt_or_eq_of_le hn with hlt | rfl
  · have hlog : n.log2 < 53 := (Nat.log2_lt (by omega)).2 hlt
    have hdvd : spacing (n * Nat.pow 2 k) ∣ Nat.pow 2 k := by
      refine spacing_dvd_pow ?_
      have := log2_append (t := 0) (k := k) (Nat.ne_of_gt hpos) (Nat.two_pow_pos k)
      rw [Nat.add_zero] at this
      omega
    rw [Nat.mul_div_assoc _ hdvd]
    exact Nat.dvd_mul_right_of_dvd h2 _
  · have hs := spacing_append (n := Nat.pow 2 53) (t := 0) (k := k) (by decide) (Nat.two_pow_pos k)
    rw [Nat.add_zero] at hs
    have htwo : spacing (Nat.pow 2 53) = 2 := by decide
    have hmul : Nat.pow 2 53 * Nat.pow 2 k = Nat.pow 2 52 * (2 * Nat.pow 2 k) := by
      rw [← Nat.mul_assoc]
    have hpos : 0 < 2 * Nat.pow 2 k := Nat.mul_pos (by decide) (Nat.two_pow_pos k)
    rw [hs, htwo, hmul, Nat.mul_div_cancel _ hpos]
    decide

/-! ## The rounded quotient -/

/-- Rounding goes down from less than half a step, up from more, and from a half to the even
side. -/
theorem nearest_cases (num den : Nat) :
    (nearest num den = num / den ∧
        (2 * (num % den) < den ∨ 2 * (num % den) = den ∧ 2 ∣ num / den)) ∨
      (nearest num den = num / den + 1 ∧
        (den < 2 * (num % den) ∨ 2 * (num % den) = den ∧ 2 ∣ num / den + 1)) := by
  simp only [nearest]
  split
  · exact .inr ⟨rfl, by omega⟩
  · exact .inl ⟨rfl, by omega⟩

/-- Of numbers outside the step that a quotient is in, none is nearer than the end of the step that
it is rounded to, and one is as near only if that end is even. -/
theorem nearest_least {num den y : Nat} (hd : 0 < den)
    (hy : y ≤ num / den * den ∨ (num / den + 1) * den ≤ y) :
    Nat.dist num (nearest num den * den) ≤ Nat.dist num y ∧
      (y ≠ nearest num den * den → Nat.dist num (nearest num den * den) = Nat.dist num y →
        2 ∣ nearest num den) := by
  have hmod := Nat.div_add_mod num den
  have hlt := Nat.mod_lt num hd
  rw [Nat.mul_comm] at hmod
  simp only [Nat.dist]
  obtain ⟨hk, hr⟩ | ⟨hk, hr⟩ := nearest_cases num den
  · rw [hk]
    rw [Nat.succ_mul] at hy
    omega
  · rw [hk]
    rw [Nat.succ_mul] at hy ⊢
    omega

/-- **Rounding is to the nearest.** -/
theorem closest_rounded (num : Nat) {den : Nat} (hd : 0 < den) :
    Closest num den (rounded num den) := by
  have hscale : ∀ k, k * spacing (num / den) * den = k * (den * spacing (num / den)) := by
    intro k
    rw [Nat.mul_assoc, Nat.mul_comm (spacing _)]
  have hrounded : rounded num den * den = steps num den * (den * spacing (num / den)) := hscale _
  have hpos : 0 < den * spacing (num / den) := Nat.mul_pos hd (spacing_pos _)
  have hleast := fun h (hh : spacing h ∣ h) => nearest_least (y := h * den) hpos (by
    rw [← Nat.div_div_eq_div_mul, ← hscale, ← hscale]
    exact (grid_sides hh (num / den)).imp (Nat.mul_le_mul_right den) (Nat.mul_le_mul_right den))
  refine ⟨spacing_dvd_mul_pow (steps_le num den) _, fun h hh => ?_, fun h hh hne htie => ?_⟩
  · rw [hrounded]
    exact (hleast h hh).1
  · have hother : h * den ≠ rounded num den * den :=
      fun e => hne (Nat.eq_of_mul_eq_mul_right hd e)
    rw [hrounded] at htie hother
    exact two_dvd_div_spacing (steps_le num den) ((hleast h hh).2 hother htie) _

/-! ## No other number is -/

/-- After an even number on the grid the spacing goes on. -/
theorem spacing_next {g : Nat} (hg : spacing g ∣ g) (h2 : 2 ∣ g / spacing g) :
    spacing (g + spacing g) = spacing g := by
  obtain ⟨m, hm⟩ := hg
  have hs := spacing_pos g
  have hdiv : g / spacing g = m := Nat.div_eq_of_eq_mul_right hs hm
  rw [hdiv] at h2
  have hnext : g + spacing g = (m + 1) * spacing g := by
    rw [Nat.succ_mul, Nat.mul_comm m, ← hm]
  rcases Nat.lt_or_ge g (Nat.pow 2 53) with hlt | hge
  · have hone := spacing_of_lt hlt
    have hodd : g + 1 < Nat.pow 2 53 := by
      have : 2 ∣ Nat.pow 2 53 := by decide
      rw [hone] at hm
      omega
    rw [hone, spacing_of_lt hodd]
  · have hne : g ≠ 0 := by
      rintro rfl
      exact absurd hge (by decide)
    have hlog : 53 ≤ g.log2 := (Nat.le_log2 hne).2 hge
    have htop : Nat.pow 2 (g.log2 + 1) = Nat.pow 2 53 * spacing g := by
      rw [spacing, show g.log2 + 1 = 53 + (g.log2 - 52) by omega]
      exact Nat.pow_add 2 _ _
    have hmlt : m < Nat.pow 2 53 := by
      rw [← hdiv, Nat.div_lt_iff_lt_mul hs, ← htop]
      exact Nat.lt_log2_self
    have hodd : m + 1 < Nat.pow 2 53 := by
      have : 2 ∣ Nat.pow 2 53 := by decide
      omega
    have hlt : g + spacing g < Nat.pow 2 (g.log2 + 1) := by
      rw [hnext, htop]
      exact Nat.mul_lt_mul_of_pos_right hodd hs
    have hlog' : (g + spacing g).log2 = g.log2 :=
      (Nat.log2_eq_iff (by omega)).2
        ⟨Nat.le_trans (Nat.log2_self_le hne) (Nat.le_add_right _ _), hlt⟩
    rw [spacing, hlog']
    rfl

/-- Nothing on the grid lies between a number on it and the next one. -/
theorem next_le {g h : Nat} (hg : spacing g ∣ g) (hh : spacing h ∣ h) (hlt : g < h) :
    g + spacing g ≤ h := by
  have hlow : g / spacing g * spacing g = g := Nat.div_mul_cancel hg
  have := grid_sides hh g
  rw [Nat.succ_mul, hlow] at this
  omega

theorem Closest.not_lt {num den g h : Nat} (hd : 0 < den) (hg : Closest num den g)
    (hh : Closest num den h) : ¬ g < h := by
  intro hlt
  have htie := Nat.le_antisymm (hg.least h hh.grid) (hh.least g hg.grid)
  have hgEven := hg.even h hh.grid (Nat.ne_of_gt hlt) htie
  have hhEven := hh.even g hg.grid (Nat.ne_of_lt hlt) htie.symm
  have hspacing := spacing_next hg.grid hgEven
  have hs := spacing_pos g
  have hnextGrid : spacing (g + spacing g) ∣ g + spacing g := by
    rw [hspacing]
    exact Nat.dvd_add hg.grid (Nat.dvd_refl _)
  rcases Nat.lt_or_eq_of_le (next_le hg.grid hh.grid hlt) with hbetween | hnext
  · -- The quotient is halfway between the two, so what is between them is nearer.
    have hleast := hg.least _ hnextGrid
    have hlow : g * den < (g + spacing g) * den := Nat.mul_lt_mul_of_pos_right (by omega) hd
    have hhigh : (g + spacing g) * den < h * den := Nat.mul_lt_mul_of_pos_right hbetween hd
    simp only [Nat.dist] at htie hleast
    omega
  · rw [← hnext, hspacing, Nat.add_div_right _ hs] at hhEven
    omega

theorem Closest.unique {num den g h : Nat} (hd : 0 < den) (hg : Closest num den g)
    (hh : Closest num den h) : g = h :=
  Nat.le_antisymm (Nat.not_lt.1 (hh.not_lt hd hg)) (Nat.not_lt.1 (hg.not_lt hd hh))

/-! ## Doubles -/

theorem ofUnits_iff {x : Double} {negative : Bool} {num den : Nat} (hd : 0 < den) :
    (∃ g, ∃ h : Closest num den g, x = ofGrid negative g h.grid) ↔
      x = ofUnits negative num den := by
  rw [ofUnits]
  constructor
  · intro h
    obtain ⟨g, hg, hx⟩ := h
    rw [hx]
    exact ofGrid_congr negative _ _ (hg.unique hd (closest_rounded num hd))
  · intro hx
    exact ⟨rounded num den, closest_rounded num hd, hx⟩

/-- **One double is nearest**, and rounding finds it. -/
theorem nearest_iff {x : Double} {negative : Bool} {num den : Nat} (hd : 0 < den) :
    x.Nearest negative num den ↔ x = ofRatio negative num den := by
  rw [Nearest, ofRatio]
  exact ofUnits_iff hd

/-- A double is the one nearest to a decimal. -/
def NearestTo (x : Double) (d : Decimal) : Prop :=
  x.Nearest d.negative (d.coefficient * Nat.pow 10 d.exponent.toNat)
    (Nat.pow 10 (-d.exponent).toNat)

theorem nearestTo_iff {x : Double} {d : Decimal} : x.NearestTo d ↔ x = d.toDouble := by
  have hden : 0 < Nat.pow 10 (-d.exponent).toNat := Nat.pow_pos (by decide)
  rw [NearestTo, nearest_iff hden, d.toDouble_eq]

end QueryForm.Double
