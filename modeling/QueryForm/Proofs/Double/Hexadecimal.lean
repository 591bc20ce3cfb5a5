/-
Digits in base sixteen, each rounded in as it is appended.

Up to `2 ^ 53` nothing is rounded. The digit that takes the number there is
the last one that counts: what is appended to a double of that size is below
half a step, and is lost (`appendHex_large`). The digits then reach the
number that is kept, rounded, and scaled by sixteen for every digit dropped
(`ofHexDigits_kept`). That is the double nearest to all the digits but where
the kept number is halfway between two doubles and goes down, while a digit
that is dropped would have taken it up (`ofNat_kept_iff`).
-/
import Mathlib.Data.List.Induction
import QueryForm.Proofs.Double.Nearest

namespace QueryForm

/-- The number that digits in base sixteen write, the leading one first. -/
def hexValue (ds : List (Fin 16)) : Nat :=
  ds.foldl (fun n d => 16 * n + d.val) 0

theorem hexValue_concat (ds : List (Fin 16)) (d : Fin 16) :
    hexValue (ds ++ [d]) = 16 * hexValue ds + d.val := by
  rw [hexValue, List.foldl_append]
  rfl

theorem hexValue_append (ds es : List (Fin 16)) :
    hexValue (ds ++ es) = hexValue ds * Nat.pow 16 es.length + hexValue es := by
  induction es using List.reverseRecOn with
  | nil => simp [hexValue]
  | append_singleton es e ih =>
    have hstep : Nat.pow 16 (es.length + 1) = Nat.pow 16 es.length * 16 := rfl
    rw [← List.append_assoc, hexValue_concat, hexValue_concat, ih, List.length_append,
      List.length_singleton, hstep, ← Nat.mul_assoc]
    omega

theorem hexValue_lt (ds : List (Fin 16)) : hexValue ds < Nat.pow 16 ds.length := by
  induction ds using List.reverseRecOn with
  | nil => exact Nat.one_pos
  | append_singleton ds d ih =>
    have hstep : Nat.pow 16 (ds.length + 1) = Nat.pow 16 ds.length * 16 := rfl
    rw [hexValue_concat, List.length_append, List.length_singleton, hstep]
    omega

theorem hexValue_dropLast_le (ds : List (Fin 16)) : hexValue ds.dropLast ≤ hexValue ds := by
  induction ds using List.reverseRecOn with
  | nil => exact Nat.le_refl _
  | append_singleton ds d =>
    rw [List.dropLast_concat, hexValue_concat]
    omega

/-- Digits end at the one that takes their number to `2 ^ 53`, or before; those after it are
dropped. -/
structure Kept (kept dropped : List (Fin 16)) : Prop where
  below : hexValue kept.dropLast < Nat.pow 2 53
  reached : dropped ≠ [] → Nat.pow 2 53 ≤ hexValue kept

theorem exists_kept (ds : List (Fin 16)) : ∃ kept dropped, ds = kept ++ dropped ∧
    Kept kept dropped := by
  induction ds using List.reverseRecOn with
  | nil => exact ⟨[], [], rfl, by decide, fun h => absurd rfl h⟩
  | append_singleton ds d ih =>
    obtain ⟨kept, dropped, rfl, h⟩ := ih
    rcases Nat.lt_or_ge (hexValue kept) (Nat.pow 2 53) with hlt | hge
    · have hdropped : dropped = [] := by
        by_contra hne
        exact absurd (h.reached hne) (Nat.not_le.2 hlt)
      subst hdropped
      refine ⟨kept ++ [d], [], by simp, ?_, fun h => absurd rfl h⟩
      rwa [List.dropLast_concat]
    · exact ⟨kept, dropped ++ [d], List.append_assoc _ _ _, h.below, fun _ => hge⟩

theorem Kept.of_longer {kept more dropped dropped' : List (Fin 16)} (h : Kept kept (more ++ dropped))
    (h' : Kept (kept ++ more) dropped') : more = [] := by
  by_contra hne
  have hreached := h.reached (List.append_ne_nil_of_left_ne_nil hne dropped)
  have hbelow := h'.below
  rw [List.dropLast_append_of_ne_nil hne, hexValue_append] at hbelow
  have hle : hexValue kept ≤ hexValue kept * Nat.pow 16 more.dropLast.length :=
    Nat.le_mul_of_pos_right _ (Nat.pow_pos (by decide))
  omega

/-- There is one way to keep digits. -/
theorem Kept.unique {kept kept' dropped dropped' : List (Fin 16)} (h : Kept kept dropped)
    (h' : Kept kept' dropped') (heq : kept ++ dropped = kept' ++ dropped') :
    kept = kept' ∧ dropped = dropped' := by
  obtain ⟨more, rfl, rfl⟩ | ⟨more, rfl, rfl⟩ := List.append_eq_append_iff.1 heq
  · have hmore := h.of_longer h'
    subst hmore
    exact ⟨(List.append_nil _).symm, rfl⟩
  · have hmore := h'.of_longer h
    subst hmore
    exact ⟨List.append_nil _, rfl⟩

namespace Double

/-! ## Rounding what digits are appended to -/

/-- Rounding a whole number goes to its 53 leading bits. -/
theorem rounded_nat (n : Nat) : rounded n 1 = nearest n (spacing n) * spacing n := by
  rw [rounded, steps, Nat.div_one, Nat.one_mul]

/-- A number is halfway between two doubles, and the one below is the even one. -/
def TieDown (p : Nat) : Prop :=
  2 * (p % spacing p) = spacing p ∧ 2 ∣ p / spacing p

instance (p : Nat) : Decidable (TieDown p) :=
  inferInstanceAs (Decidable (_ ∧ _))

theorem two_dvd_spacing {p : Nat} (hp : Nat.pow 2 53 ≤ p) : 2 ∣ spacing p := by
  have hne : p ≠ 0 := by
    rintro rfl
    exact absurd hp (by decide)
  have hlog : 53 ≤ p.log2 := (Nat.le_log2 hne).2 hp
  exact Nat.pow_dvd_pow 2 (by omega : 1 ≤ p.log2 - 52)

/-- Bits appended to a number and to none of what it is divided by go to the remainder. -/
theorem append_div_mod {p s t pow : Nat} (hs : 0 < s) (ht : t < pow) :
    (p * pow + t) / (s * pow) = p / s ∧ (p * pow + t) % (s * pow) = p % s * pow + t := by
  have hlt : p % s * pow + t < s * pow := by
    have := Nat.mul_le_mul_right pow (Nat.mod_lt p hs)
    rw [Nat.succ_mul] at this
    omega
  have hnum : p * pow + t = s * pow * (p / s) + (p % s * pow + t) := by
    have := Nat.div_add_mod p s
    rw [← Nat.add_assoc, Nat.mul_right_comm, ← Nat.add_mul, this]
  constructor
  · rw [hnum, Nat.mul_add_div (by omega), Nat.div_eq_of_lt hlt, Nat.add_zero]
  · conv => lhs; rw [hnum]
    rw [Nat.mul_add_mod, Nat.mod_eq_of_lt hlt]

/-- What is appended to a number that is halfway takes it up. Otherwise it changes nothing. -/
theorem nearest_append {p s t pow : Nat} (hs : 0 < s) (h2 : 2 ∣ s) (ht : t < pow) :
    (((2 * (p % s) = s ∧ 2 ∣ p / s) ∧ t ≠ 0) ∧
        nearest (p * pow + t) (s * pow) = nearest p s + 1) ∨
      ¬ ((2 * (p % s) = s ∧ 2 ∣ p / s) ∧ t ≠ 0) ∧
        nearest (p * pow + t) (s * pow) = nearest p s := by
  obtain ⟨half, rfl⟩ := h2
  obtain ⟨hdiv, hmod⟩ := append_div_mod (p := p) hs ht
  simp only [nearest, hdiv, hmod]
  rw [Nat.mul_assoc 2 half pow]
  generalize p / (2 * half) = q
  generalize p % (2 * half) = r
  rcases Nat.lt_trichotomy r half with hlt | rfl | hgt
  · have hdown := Nat.mul_le_mul_right pow (Nat.succ_le_of_lt hlt)
    rw [Nat.succ_mul] at hdown
    rw [if_neg (by omega), if_neg (by omega)]
    exact .inr ⟨by omega, rfl⟩
  · -- Half a step: what is appended decides, and the parity where nothing is.
    split <;> split <;> omega
  · have hup := Nat.mul_le_mul_right pow (Nat.succ_le_of_lt hgt)
    rw [Nat.succ_mul] at hup
    rw [if_pos (by omega), if_pos (by omega)]
    exact .inr ⟨by omega, rfl⟩

/-- **Bits appended to a number of 53 bits.** They count only where the number is halfway and goes
down without them. -/
theorem rounded_append {p t j : Nat} (hp : Nat.pow 2 53 ≤ p) (ht : t < Nat.pow 2 j) :
    rounded (p * Nat.pow 2 j + t) 1 =
      (rounded p 1 + if TieDown p ∧ t ≠ 0 then spacing p else 0) * Nat.pow 2 j := by
  have hbits : Nat.pow 2 52 ≤ p := Nat.le_trans (by decide) hp
  rw [rounded_nat, rounded_nat, spacing_append hbits ht, ← Nat.mul_assoc]
  obtain ⟨htie, hnearest⟩ | ⟨htie, hnearest⟩ :=
    nearest_append (p := p) (spacing_pos p) (two_dvd_spacing hp) ht
  · have htie : TieDown p ∧ t ≠ 0 := htie
    rw [hnearest, if_pos htie, Nat.succ_mul]
  · have htie : ¬ (TieDown p ∧ t ≠ 0) := htie
    rw [hnearest, if_neg htie, Nat.add_zero]

theorem rounded_scale {p : Nat} (hp : Nat.pow 2 53 ≤ p) (j : Nat) :
    rounded (p * Nat.pow 2 j) 1 = rounded p 1 * Nat.pow 2 j := by
  have := rounded_append (t := 0) hp (Nat.two_pow_pos j)
  rwa [if_neg (fun h => h.2 rfl)] at this

/-- A number of at most 53 bits is not rounded. -/
theorem rounded_small {n : Nat} (h : n ≤ Nat.pow 2 53) : rounded n 1 = n := by
  have := spacing_dvd_mul_pow h 0
  rw [Nat.pow_eq, Nat.pow_zero, Nat.mul_one] at this
  exact rounded_of_dvd this

/-- Rounding a number is the same whether it counts units or ones. -/
theorem rounded_ones (n : Nat) : rounded (n * one) 1 = rounded n 1 * one := by
  rcases Nat.le_total n (Nat.pow 2 53) with hle | hge
  · rw [rounded_whole hle, rounded_small hle]
  · obtain ⟨k, hk⟩ := one_eq_pow
    rw [hk]
    exact rounded_scale hge k

theorem ofUnits_congr {a b c d : Nat} (h : rounded a b = rounded c d) (negative : Bool) :
    ofUnits negative a b = ofUnits negative c d :=
  ofGrid_congr negative _ _ h

theorem ofNat_congr {m n : Nat} (h : rounded m 1 = rounded n 1) (negative : Bool) :
    ofNat negative m = ofNat negative n := by
  have hunits : rounded (m * one) 1 = rounded (n * one) 1 := by
    rw [rounded_ones, rounded_ones, h]
  rw [ofNat, ofNat, ofRatio, ofRatio]
  exact ofUnits_congr hunits negative

/-! ## Appending digits -/

/-- A digit is appended to the rounded number. -/
theorem appendHex_ofNat (n : Nat) (d : Fin 16) :
    appendHex (ofNat false n) d = ofNat false (16 * rounded n 1 + d.val) := by
  have hunits := rounded_ones n
  have hnext : (16 * rounded n 1 + d.val) * one = 16 * (rounded n 1 * one) + d.val * one := by
    rw [Nat.add_mul, Nat.mul_assoc]
  rcases Nat.lt_or_ge (rounded (n * one) 1) limit with hlt | hge
  · obtain ⟨m, hm⟩ := ofUnits_finite false hlt
    have hmunits := (ofUnits_eq_finite hm).2
    rw [ofNat, ofRatio, hm, appendHex, hmunits, hunits, ← hnext]
    rfl
  · have hgrid : spacing limit ∣ limit := by decide +kernel
    have hbeyond : limit ≤ rounded ((16 * rounded n 1 + d.val) * one) 1 := by
      refine le_rounded hgrid Nat.one_pos ?_
      rw [Nat.mul_one, hnext]
      omega
    have hinfinite := ofUnits_infinite false hge
    have hinfinite' := ofUnits_infinite false hbeyond
    rw [ofNat, ofRatio, hinfinite, ofNat, ofRatio, hinfinite']
    rfl

/-- Up to `2 ^ 53` digits are appended as they are. -/
theorem appendHex_small {n : Nat} (h : n ≤ Nat.pow 2 53) (d : Fin 16) :
    appendHex (ofNat false n) d = ofNat false (16 * n + d.val) := by
  rw [appendHex_ofNat, rounded_small h]

/-- From `2 ^ 53` on digits are dropped. -/
theorem appendHex_large {n : Nat} (h : Nat.pow 2 53 ≤ n) (d : Fin 16) :
    appendHex (ofNat false n) d = ofNat false (n * 16) := by
  have hgrid : spacing (rounded n 1) ∣ rounded n 1 := (closest_rounded n Nat.one_pos).grid
  have hlarge : Nat.pow 2 53 ≤ rounded n 1 :=
    le_rounded (by decide) Nat.one_pos (by rwa [Nat.mul_one])
  -- A double is halfway between no others.
  have htie : ¬ TieDown (rounded n 1) := by
    intro h
    have hmod := h.1
    have hpos := spacing_pos (rounded n 1)
    rw [Nat.mod_eq_zero_of_dvd hgrid] at hmod
    omega
  have hd : d.val < Nat.pow 2 4 := d.isLt
  have hkept := rounded_append hlarge hd
  rw [if_neg (fun h => htie h.1), Nat.add_zero, rounded_of_dvd hgrid] at hkept
  rw [appendHex_ofNat, Nat.mul_comm 16]
  exact ofNat_congr (hkept.trans (rounded_scale h 4).symm) false

theorem ofNat_zero : ofNat false 0 = zero false := by
  have hzero : rounded (0 * one) 1 = 0 := by rw [rounded_ones, rounded_small (by decide),
    Nat.zero_mul]
  rw [ofNat, ofRatio]
  exact ofUnits_eq (m := zeroMagnitude) false hzero

theorem ofHexDigits_concat (ds : List (Fin 16)) (d : Fin 16) :
    ofHexDigits (ds ++ [d]) = appendHex (ofHexDigits ds) d := by
  rw [ofHexDigits, List.foldl_append]
  rfl

theorem ofHexDigits_below {ds : List (Fin 16)} (h : hexValue ds.dropLast < Nat.pow 2 53) :
    ofHexDigits ds = ofNat false (hexValue ds) := by
  induction ds using List.reverseRecOn with
  | nil => exact ofNat_zero.symm
  | append_singleton ds d ih =>
    rw [List.dropLast_concat] at h
    have hshorter := ih (Nat.lt_of_le_of_lt (hexValue_dropLast_le ds) h)
    rw [ofHexDigits_concat, hshorter, appendHex_small (Nat.le_of_lt h), hexValue_concat]

/-- **Digits in base sixteen.** They reach the number that is kept, rounded, and scaled for every
digit dropped. -/
theorem ofHexDigits_kept {kept dropped : List (Fin 16)} (h : Kept kept dropped) :
    ofHexDigits (kept ++ dropped) =
      ofNat false (hexValue kept * Nat.pow 16 dropped.length) := by
  have hreached := h.reached
  induction dropped using List.reverseRecOn with
  | nil =>
    rw [List.append_nil, ofHexDigits_below h.below, List.length_nil, Nat.pow_eq, Nat.pow_zero,
      Nat.mul_one]
  | append_singleton ds d ih =>
    have hlarge : Nat.pow 2 53 ≤ hexValue kept := hreached (by simp)
    have hscaled : Nat.pow 2 53 ≤ hexValue kept * Nat.pow 16 ds.length :=
      Nat.le_trans hlarge (Nat.le_mul_of_pos_right _ (Nat.pow_pos (by decide)))
    rw [← List.append_assoc, ofHexDigits_concat, ih ⟨h.below, fun _ => hlarge⟩ fun _ => hlarge,
      appendHex_large hscaled, List.length_append, List.length_singleton, Nat.mul_assoc]
    rfl

/-! ## What the dropped digits were worth -/

theorem ofNat_infinite_iff {negative : Bool} {n : Nat} :
    ofNat negative n = .infinite negative ↔ limit ≤ rounded n 1 * one := by
  rw [ofNat, ofRatio, ← rounded_ones]
  constructor
  · intro h
    by_contra hlt
    obtain ⟨m, hm⟩ := ofUnits_finite negative (Nat.not_le.1 hlt)
    rw [hm] at h
    cases h
  · exact ofUnits_infinite negative

theorem ofNat_inj {negative : Bool} {m n : Nat} (hfinite : ofNat negative m ≠ .infinite negative)
    (h : ofNat negative m = ofNat negative n) : rounded m 1 = rounded n 1 := by
  have hlt := Nat.not_le.1 (mt ofNat_infinite_iff.2 hfinite)
  rw [← rounded_ones] at hlt
  obtain ⟨x, hx⟩ := ofUnits_finite negative hlt
  rw [ofNat, ofNat, ofRatio, ofRatio, hx] at h
  have hunits := (ofUnits_eq_finite hx).2.symm.trans (ofUnits_eq_finite h.symm).2
  rw [rounded_ones, rounded_ones] at hunits
  exact Nat.eq_of_mul_eq_mul_right one_pos hunits

/-- What is dropped takes the number up where it makes the difference to half a step. -/
theorem rounded_kept {kept dropped : List (Fin 16)} (h : Kept kept dropped) :
    (TieDown (hexValue kept) ∧ hexValue dropped ≠ 0 →
        rounded (hexValue kept * Nat.pow 16 dropped.length) 1 <
          rounded (hexValue (kept ++ dropped)) 1) ∧
      (¬ (TieDown (hexValue kept) ∧ hexValue dropped ≠ 0) →
        rounded (hexValue kept * Nat.pow 16 dropped.length) 1 =
          rounded (hexValue (kept ++ dropped)) 1) := by
  rw [hexValue_append]
  by_cases hdropped : dropped = []
  · subst hdropped
    exact ⟨fun hlost => absurd rfl hlost.2, fun _ => rfl⟩
  have hlarge := h.reached hdropped
  have hpow : Nat.pow 16 dropped.length = Nat.pow 2 (4 * dropped.length) :=
    (Nat.pow_mul 2 4 _).symm
  have hlt := hexValue_lt dropped
  rw [hpow] at hlt ⊢
  rw [rounded_scale hlarge, rounded_append hlarge hlt]
  constructor
  · intro hlost
    rw [if_pos hlost]
    exact Nat.mul_lt_mul_of_pos_right (Nat.lt_add_of_pos_right (spacing_pos _))
      (Nat.two_pow_pos _)
  · intro hkept
    rw [if_neg hkept, Nat.add_zero]

/-- **Dropped digits.** Rounding the kept number rounds all of the digits, but where the kept number
goes down from halfway, what is dropped is not zero, and the result is not infinite anyway. -/
theorem ofNat_kept_iff {kept dropped : List (Fin 16)} (h : Kept kept dropped) (negative : Bool) :
    ofNat negative (hexValue kept * Nat.pow 16 dropped.length) =
        ofNat negative (hexValue (kept ++ dropped)) ↔
      (TieDown (hexValue kept) ∧ hexValue dropped ≠ 0 →
        ofNat negative (hexValue kept * Nat.pow 16 dropped.length) = .infinite negative) := by
  by_cases hlost : TieDown (hexValue kept) ∧ hexValue dropped ≠ 0
  · have hless := (rounded_kept h).1 hlost
    constructor
    · intro heq _
      by_contra hfinite
      exact absurd (ofNat_inj hfinite heq) (Nat.ne_of_lt hless)
    · intro hinfinite
      have hbeyond := ofNat_infinite_iff.1 (hinfinite hlost)
      rw [hinfinite hlost]
      refine (ofNat_infinite_iff.2 (Nat.le_trans hbeyond ?_)).symm
      exact Nat.mul_le_mul_right _ (Nat.le_of_lt hless)
  · exact iff_of_true (ofNat_congr ((rounded_kept h).2 hlost) negative) fun h => absurd h hlost

end Double
end QueryForm
