/-
How numbers are spelled in digits: a run without a zero in front is the
spelling of the number it writes, and a number below a power of ten has no
more digits than that power has zeros. Leading and last digits together
write the number that they are digits of (`foldl_lowest`).
-/
import Mathlib.Data.List.Induction
import QueryForm.Text.Digits

namespace QueryForm

namespace DigitRun

theorem ofChar?_text (run : DigitRun) (cs : List Char) :
    ∃ c ds, run.text ++ cs = c :: ds ∧ Digit.ofChar? c = some run.first :=
  ⟨run.first.char, run.rest.map Digit.char ++ cs, rfl, Digit.ofChar?_char _⟩

/-- The digits that a number is spelled with, from the number that they write. -/
theorem spell_value {d : Digit} (h : d ≠ 0) (ds right : List Digit) :
    spell (Digit.value (d :: ds)) right = ⟨d, ds ++ right⟩ := by
  induction ds using List.reverseRecOn generalizing right with
  | nil =>
    have hd : Digit.value [d] = d.val := by simp [Digit.value]
    rw [hd, spell, dif_pos d.isLt]
    rfl
  | append_singleton ds e ih =>
    have hv : Digit.value (d :: (ds ++ [e])) = 10 * Digit.value (d :: ds) + e.val := by
      rw [← List.cons_append, Digit.value_append]
      simp [Digit.value]
    have hpos : 0 < Digit.value (d :: ds) := by
      have hd : 0 < d.val := Nat.pos_of_ne_zero fun e => h (Fin.ext e)
      rw [Digit.value_cons]
      exact Nat.add_pos_left (Nat.mul_pos (Nat.pow_pos (by decide : 0 < 10)) hd) _
    have he := e.isLt
    have hdiv : (10 * Digit.value (d :: ds) + e.val) / 10 = Digit.value (d :: ds) := by omega
    have hmod : (10 * Digit.value (d :: ds) + e.val) % 10 = e.val := by omega
    rw [hv, spell, dif_neg (by omega)]
    simp only [hdiv, hmod, ih, List.append_assoc, List.singleton_append]

/-- **One spelling.** A run with a zero in front only where it is all there is is the spelling of the
number that it writes. -/
theorem ofNat_value {run : DigitRun} (h : run.first = 0 → run.rest = []) :
    ofNat run.value = run := by
  obtain ⟨d, ds⟩ := run
  by_cases hd : d = 0
  · subst hd
    have hds : ds = [] := h rfl
    subst hds
    rw [ofNat, show (value ⟨0, []⟩) = 0 from rfl, spell, dif_pos (by decide)]
    rfl
  · exact (spell_value hd ds []).trans (by rw [List.append_nil])

theorem length_spell_le {n k : Nat} (h : n < Nat.pow 10 (k + 1)) (right : List Digit) :
    (spell n right).length ≤ k + 1 + right.length := by
  induction k generalizing n right with
  | zero =>
    rw [spell, dif_pos h]
    simp only [length]
    omega
  | succ k ih =>
    rw [spell]
    split
    · simp only [length]
      omega
    · have hlt : n / 10 < Nat.pow 10 (k + 1) := (Nat.div_lt_iff_lt_mul (by decide)).2 h
      have := ih hlt (⟨n % 10, Nat.mod_lt _ (by decide)⟩ :: right)
      simp only [List.length_cons] at this
      omega

/-! ## The last digits -/

theorem length_lowest (n more : Nat) (right : List Digit) :
    (lowest n more right).digits.length = more + 1 + right.length := by
  induction more generalizing n right with
  | zero => exact Nat.add_comm _ _
  | succ more ih =>
    rw [lowest, ih, List.length_cons]
    omega

/-- A number is written by its leading digits and its last ones. -/
theorem foldl_lowest (n more : Nat) :
    (lowest n more []).digits.foldl (fun v d => 10 * v + d.val) (n / Nat.pow 10 (more + 1)) =
      n := by
  have hvalue : Digit.value (lowest n more []).digits = 1 * (n % Nat.pow 10 (more + 1)) + 0 :=
    value_lowest n more []
  rw [Digit.foldl_eq, length_lowest, hvalue, Nat.one_mul]
  exact Nat.div_add_mod _ _

end DigitRun

theorem digitCount_le {n k : Nat} (h : n < Nat.pow 10 (k + 1)) : digitCount n ≤ k + 1 :=
  DigitRun.length_spell_le h []

theorem digitCount_pos (n : Nat) : 0 < digitCount n :=
  Nat.succ_pos _

/-! ## Sizes -/

theorem Digit.value_lt (ds : List Digit) : Digit.value ds < Nat.pow 10 ds.length := by
  induction ds with
  | nil => exact Nat.one_pos
  | cons d ds ih =>
    have hstep : Nat.pow 10 (d :: ds).length = Nat.pow 10 ds.length * 10 := rfl
    have hd : Nat.pow 10 ds.length * d.val ≤ Nat.pow 10 ds.length * 9 :=
      Nat.mul_le_mul_left _ (by omega)
    rw [Digit.value_cons, hstep]
    omega

theorem lt_pow_digitCount (n : Nat) : n < Nat.pow 10 (digitCount n) := by
  have := Digit.value_lt (DigitRun.ofNat n).digits
  have hvalue : Digit.value (DigitRun.ofNat n).digits = n := DigitRun.value_ofNat n
  rwa [hvalue] at this

theorem pow_digitCount_le {n : Nat} (h : n ≠ 0) : Nat.pow 10 (digitCount n - 1) ≤ n := by
  have hfirst : 0 < (DigitRun.ofNat n).first.val :=
    Nat.pos_of_ne_zero fun e => DigitRun.first_spell h [] (Fin.ext e)
  have hvalue : Digit.value (DigitRun.ofNat n).digits = n := DigitRun.value_ofNat n
  rw [DigitRun.digits, Digit.value_cons] at hvalue
  calc Nat.pow 10 (digitCount n - 1)
      ≤ Nat.pow 10 (DigitRun.ofNat n).rest.length * (DigitRun.ofNat n).first.val :=
        Nat.le_mul_of_pos_right _ hfirst
    _ ≤ n := by omega

theorem lt_digitCount {n k : Nat} (h : Nat.pow 10 k ≤ n) : k < digitCount n :=
  (Nat.pow_lt_pow_iff_right (by decide)).1 (Nat.lt_of_le_of_lt h (lt_pow_digitCount n))

/-- Zeros at the end of a number count as digits. -/
theorem digitCount_mul_pow {n : Nat} (h : n ≠ 0) (k : Nat) :
    digitCount (n * Nat.pow 10 k) = digitCount n + k := by
  obtain ⟨j, hj⟩ : ∃ j, digitCount n = j + 1 := ⟨_, rfl⟩
  have hpow : ∀ i, Nat.pow 10 i * Nat.pow 10 k = Nat.pow 10 (i + k) :=
    fun i => (Nat.pow_add 10 i k).symm
  have hlt : n * Nat.pow 10 k < Nat.pow 10 (j + k + 1) := by
    have := Nat.mul_lt_mul_of_pos_right (lt_pow_digitCount n) (Nat.pow_pos (by decide : 0 < 10))
      (k := Nat.pow 10 k)
    rwa [hpow, hj, Nat.add_right_comm] at this
  have hge : Nat.pow 10 (j + k) ≤ n * Nat.pow 10 k := by
    have := Nat.mul_le_mul_right (Nat.pow 10 k) (pow_digitCount_le h)
    rwa [hpow, hj] at this
  have hle := digitCount_le hlt
  have hlt := lt_digitCount hge
  omega

end QueryForm
