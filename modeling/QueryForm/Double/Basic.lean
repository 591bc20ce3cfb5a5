/-
Double-precision numbers, as values rather than as words.

Every finite double is a whole number of units of `2^-1074`, so its
magnitude is kept as that natural number: `2^1074` is one, `1` the smallest
positive double. Which numbers of units are doubles is `Representable`:
below `2^1024` (that is `2^2098` units) and a multiple of the spacing that
53 significant bits leave at that size. Comparing doubles, and testing that
one is an integer, is then arithmetic on natural numbers.
-/
namespace QueryForm

namespace Double

/-- The number of units of `2^-1074` in one. -/
def one : Nat := Nat.pow 2 1074

/-- The least number of units beyond all finite doubles. -/
def limit : Nat := Nat.pow 2 2098

/-- The distance between neighbouring doubles at a size of `n` units. -/
def spacing (n : Nat) : Nat := Nat.pow 2 (n.log2 - 52)

/-- The numbers of units that are magnitudes of finite doubles. -/
def Representable (n : Nat) : Prop := spacing n ∣ n ∧ n < limit

theorem limit_pos : 0 < limit := by decide +kernel

theorem spacing_pos (n : Nat) : 0 < spacing n := Nat.two_pow_pos _

theorem spacing_of_lt {n : Nat} (h : n < Nat.pow 2 53) : spacing n = 1 := by
  by_cases hn : n = 0
  · subst hn; rfl
  · have : n.log2 < 53 := (Nat.log2_lt hn).2 h
    rw [spacing, show n.log2 - 52 = 0 by omega]

theorem spacing_dvd_pow {n k : Nat} (h : n.log2 ≤ 52 + k) : spacing n ∣ Nat.pow 2 k :=
  Nat.pow_dvd_pow 2 (by omega)

/-- A number of at most 53 bits, scaled by a power of two, is on the grid of doubles. -/
theorem spacing_dvd_mul_pow {q : Nat} (hq : q ≤ Nat.pow 2 53) (k : Nat) :
    spacing (q * Nat.pow 2 k) ∣ q * Nat.pow 2 k := by
  by_cases h0 : q = 0
  · rw [h0, Nat.zero_mul]; exact Nat.dvd_zero _
  have hn : q * Nat.pow 2 k ≠ 0 := Nat.mul_ne_zero h0 (Nat.ne_of_gt (Nat.two_pow_pos k))
  rcases Nat.lt_or_eq_of_le hq with hlt | heq
  · have : q * Nat.pow 2 k < Nat.pow 2 (53 + k) :=
      Nat.lt_of_lt_of_eq (Nat.mul_lt_mul_of_pos_right hlt (Nat.two_pow_pos k))
        (Nat.pow_add 2 53 k).symm
    have := (Nat.log2_lt hn).2 this
    exact Nat.dvd_trans (spacing_dvd_pow (by omega)) (Nat.dvd_mul_left _ _)
  · have e : q * Nat.pow 2 k = Nat.pow 2 (53 + k) := heq ▸ (Nat.pow_add 2 53 k).symm
    have : (Nat.pow 2 (53 + k)).log2 = 53 + k := Nat.log2_two_pow
    rw [e, spacing, this]
    exact Nat.pow_dvd_pow 2 (by omega)

end Double

/-- The magnitude of a finite double, in units of `2^-1074`. -/
structure Magnitude where
  units : Nat
  representable : Double.Representable units

instance : DecidableEq Magnitude := fun a b =>
  if h : a.units = b.units then isTrue (by cases a; cases b; cases h; rfl)
  else isFalse (fun e => h (e ▸ rfl))

namespace Magnitude

/-- A double of at most `2 ^ 53` in magnitude, where every integer is a double. -/
def isSmall (m : Magnitude) : Bool :=
  m.units ≤ Nat.pow 2 53 * Double.one

/-- A double that is a whole number. -/
def isWhole (m : Magnitude) : Bool :=
  m.units % Double.one == 0

end Magnitude

/-- A double-precision number. -/
inductive Double where
  | nan
  | infinite (negative : Bool)
  | finite (negative : Bool) (magnitude : Magnitude)
deriving DecidableEq

namespace Double

/-- The magnitude zero. -/
def zeroMagnitude : Magnitude := ⟨0, Nat.dvd_zero _, limit_pos⟩

/-- Zero with a sign. -/
def zero (negative : Bool) : Double := .finite negative zeroMagnitude

/-- The double with a number of units on the grid, or infinity beyond its end. -/
def ofGrid (negative : Bool) (n : Nat) (h : spacing n ∣ n) : Double :=
  if lt : n < limit then .finite negative ⟨n, h, lt⟩ else .infinite negative

/-- A finite number. -/
def isFinite : Double → Bool
  | .finite .. => true
  | _ => false

/-- The number with the opposite sign. -/
def neg : Double → Double
  | .nan => .nan
  | .infinite negative => .infinite !negative
  | .finite negative m => .finite (!negative) m

/-- Equality of numbers: the two zeros are equal, and a NaN equals nothing. -/
def same : Double → Double → Bool
  | .infinite a, .infinite b => a == b
  | .finite a m, .finite b n => m.units == n.units && (a == b || m.units == 0)
  | _, _ => false

/-- The sixty-four bits of the interchange format; a NaN has no bits of its own. -/
def bits? : Double → Option Nat
  | .nan => none
  | .infinite negative => some ((if negative then Nat.pow 2 63 else 0) + 2047 * Nat.pow 2 52)
  | .finite negative m =>
    let e := m.units.log2 - 52
    some ((if negative then Nat.pow 2 63 else 0) + (e * Nat.pow 2 52 + m.units / Nat.pow 2 e))

theorem fraction_lt (bits : Nat) : bits % Nat.pow 2 52 < Nat.pow 2 52 :=
  Nat.mod_lt _ (Nat.two_pow_pos 52)

theorem significand_le (bits : Nat) : Nat.pow 2 52 + bits % Nat.pow 2 52 ≤ Nat.pow 2 53 := by
  have := fraction_lt bits
  have : Nat.pow 2 53 = Nat.pow 2 52 + Nat.pow 2 52 := by decide
  omega

/-- The number that sixty-four bits of the interchange format stand for. -/
def ofBits (bits : Nat) : Double :=
  let negative := bits.testBit 63
  let e := bits / Nat.pow 2 52 % 2048
  let fraction := bits % Nat.pow 2 52
  if e = 2047 then
    if fraction = 0 then .infinite negative else .nan
  else if e = 0 then
    ofGrid negative (fraction * Nat.pow 2 0)
      (spacing_dvd_mul_pow (Nat.le_trans (Nat.le_add_left _ _) (significand_le bits)) 0)
  else
    ofGrid negative ((Nat.pow 2 52 + fraction) * Nat.pow 2 (e - 1))
      (spacing_dvd_mul_pow (significand_le bits) _)

end Double

end QueryForm
