import Mathlib
import PacketFec.Number.Binary64

/-!
# Rounding keeps to the numbers of the format

Rounding to the nearest number of double precision never goes past a number of the format: what is at most such a
number is rounded to at most that number, and the same holds from below. Below a bound of the format either the
exponent of the result is no greater than that of the bound, and then the bound is a whole number of its units; or it
is greater, and then the result has a mantissa of full length, which is beyond the bound. So counts below 2^53 are
rounded to themselves, and a share is rounded to at most one hundred percent.

* `Dyadic.val`: the number as a rational.
* `Dyadic.logFloor_le`: the power of two at or below a fraction.
* `Dyadic.nearest_le`, `Dyadic.le_nearest`: **rounding does not go past a number of the format.**
* `Dyadic.percentage_le`: **a share is at most one hundred percent.**
-/

namespace PacketFec

variable {num den k : ℕ} {e : ℤ}

/-! ### Powers of two -/

theorem twoTo_pos (e : ℤ) : 0 < twoTo e := Nat.pow_pos (by decide)

/-- A power of two, over its denominator. -/
theorem twoTo_eq (e : ℤ) : (twoTo e : ℚ) = 2 ^ e * twoTo (-e) := by
  obtain ⟨n, rfl | rfl⟩ := e.eq_nat_or_neg
  · simp [twoTo]
  · simp [twoTo]

/-- Fractions are compared without denominators. -/
theorem scaled_le_iff {a b : ℕ} : a * twoTo e ≤ b * twoTo (-e) ↔ (a : ℚ) * 2 ^ e ≤ b := by
  have hpos : (0 : ℚ) < twoTo (-e) := by exact_mod_cast twoTo_pos (-e)
  rw [← Nat.cast_le (α := ℚ), Nat.cast_mul, Nat.cast_mul, twoTo_eq e, ← mul_assoc]
  exact mul_le_mul_iff_of_pos_right hpos

theorem le_scaled_iff {a b : ℕ} : b * twoTo (-e) ≤ a * twoTo e ↔ (b : ℚ) ≤ a * 2 ^ e := by
  have hpos : (0 : ℚ) < twoTo (-e) := by exact_mod_cast twoTo_pos (-e)
  rw [← Nat.cast_le (α := ℚ), Nat.cast_mul, Nat.cast_mul, twoTo_eq e, ← mul_assoc]
  exact mul_le_mul_iff_of_pos_right hpos

/-! ### Whole numbers -/

/-- Rounding does not go below a whole number. -/
theorem le_roundNearest {tie : Tie} (hden : 0 < den) (h : k * den ≤ num) : k ≤ roundNearest tie num den := by
  have hle : k ≤ num / den := (Nat.le_div_iff_mul_le hden).2 h
  unfold roundNearest
  simp only
  split <;> omega

/-- Rounding does not go above a whole number. -/
theorem roundNearest_le {tie : Tie} (hden : 0 < den) (h : num ≤ k * den) : roundNearest tie num den ≤ k := by
  unfold roundNearest
  simp only
  rcases h.lt_or_eq with hlt | rfl
  · have hdiv : num / den < k := (Nat.div_lt_iff_lt_mul hden).2 hlt
    split <;> omega
  · rw [Nat.mul_mod_left, Nat.mul_div_cancel _ hden, if_neg (by omega)]

namespace Dyadic

/-! ### The numbers of the format -/

/-- The number as a rational. -/
def val (d : Dyadic) : ℚ := d.mantissa * 2 ^ d.exponent

/-- Whether the number has a mantissa and an exponent of the format, or an exponent above them. -/
def Fits (d : Dyadic) : Prop := d.mantissa < mantissaLimit ∧ minExponent ≤ d.exponent

theorem val_nonneg (d : Dyadic) : 0 ≤ d.val := by
  unfold val
  positivity

theorem den_pos (d : Dyadic) : 0 < d.den := twoTo_pos _

theorem num_eq (d : Dyadic) : (d.num : ℚ) = d.val * d.den := by
  rw [num, den, val, Nat.cast_mul, twoTo_eq, mul_assoc]

/-- The power of two at or below a fraction. -/
theorem logFloor_le (hnum : num ≠ 0) : (den : ℚ) * 2 ^ logFloor num den ≤ num := by
  set l : ℤ := (num.log2 : ℤ) - den.log2 with hl
  unfold logFloor
  simp only [← hl]
  split
  · rename_i hle
    exact scaled_le_iff.1 hle
  · -- the leading bits alone tell that one power less is enough
    have hlow : (2 : ℚ) ^ (num.log2 : ℤ) ≤ num := by
      rw [zpow_natCast]
      exact_mod_cast Nat.log2_self_le hnum
    have hhigh : (den : ℚ) ≤ 2 ^ ((den.log2 : ℤ) + 1) := by
      have hlt : den < 2 ^ (den.log2 + 1) := Nat.lt_log2_self
      have hcast : ((den.log2 : ℤ) + 1) = ((den.log2 + 1 : ℕ) : ℤ) := by push_cast; rfl
      rw [hcast, zpow_natCast]
      exact_mod_cast hlt.le
    calc (den : ℚ) * 2 ^ (l - 1) ≤ 2 ^ ((den.log2 : ℤ) + 1) * 2 ^ (l - 1) := by gcongr
      _ = 2 ^ (num.log2 : ℤ) := by
        rw [← zpow_add₀ (by norm_num), hl]
        congr 1
        ring
      _ ≤ num := hlow

/-! ### The nearest number -/

/-- The exponent to which a fraction is rounded. -/
def scale (num den : ℕ) : ℤ := max minExponent (logFloor num den - 52)

/-- The nearest number is a whole number of units of its scale. -/
theorem val_nearest (hnum : num ≠ 0) : (nearest num den).val =
    roundNearest .even (num * twoTo (-scale num den)) (den * twoTo (scale num den)) * 2 ^ scale num den := by
  have hscale : max minExponent (logFloor num den - 52) = scale num den := rfl
  unfold nearest
  rw [if_neg hnum]
  simp only [hscale]
  split
  · rename_i hlimit
    rw [hlimit, val, zpow_add_one₀ (by norm_num)]
    norm_num [mantissaLimit]
    ring
  · rfl

/-- A whole number of units of the scale bounds the nearest number where it bounds the fraction. -/
theorem val_nearest_le_of_units (hnum : num ≠ 0) (hden : 0 < den) (h : (num : ℚ) ≤ k * 2 ^ scale num den * den) :
    (nearest num den).val ≤ k * 2 ^ scale num den := by
  have hbound : num * twoTo (-scale num den) ≤ k * den * twoTo (scale num den) := by
    rw [le_scaled_iff]
    push_cast
    linarith
  rw [mul_assoc] at hbound
  rw [val_nearest hnum]
  have hround : roundNearest .even (num * twoTo (-scale num den)) (den * twoTo (scale num den)) ≤ k :=
    roundNearest_le (Nat.mul_pos hden (twoTo_pos _)) hbound
  gcongr

theorem units_le_val_nearest (hnum : num ≠ 0) (hden : 0 < den) (h : (k : ℚ) * 2 ^ scale num den * den ≤ num) :
    k * 2 ^ scale num den ≤ (nearest num den).val := by
  have hbound : k * den * twoTo (scale num den) ≤ num * twoTo (-scale num den) := by
    rw [scaled_le_iff]
    push_cast
    linarith
  rw [mul_assoc] at hbound
  rw [val_nearest hnum]
  have hround : k ≤ roundNearest .even (num * twoTo (-scale num den)) (den * twoTo (scale num den)) :=
    le_roundNearest (Nat.mul_pos hden (twoTo_pos _)) hbound
  gcongr

/-- **Where a number of the format stands against the scale.** It is a whole number of units of the scale, or it is
less than a mantissa of full length, which the fraction exceeds. -/
theorem units_or_short {b : Dyadic} (hb : b.Fits) (hnum : num ≠ 0) (den : ℕ) :
    (∃ k : ℕ, b.val = k * 2 ^ scale num den) ∨
      b.val < 2 ^ 52 * 2 ^ scale num den ∧ (2 : ℚ) ^ 52 * 2 ^ scale num den * den ≤ num := by
  obtain ⟨hmantissa, hexponent⟩ := hb
  rcases le_or_gt (scale num den) b.exponent with hle | hlt
  · left
    obtain ⟨n, hn⟩ := Int.eq_ofNat_of_zero_le (sub_nonneg.2 hle)
    refine ⟨b.mantissa * 2 ^ n, ?_⟩
    have hsum : b.exponent = n + scale num den := by omega
    rw [val, hsum, zpow_add₀ (by norm_num), zpow_natCast]
    push_cast
    ring
  · right
    -- the scale is not the least one, so the mantissa has its full length
    have hscale : scale num den = logFloor num den - 52 := by
      unfold scale at hlt ⊢
      omega
    have hpow : (2 : ℚ) ^ 52 * 2 ^ scale num den = 2 ^ logFloor num den := by
      rw [hscale, zpow_sub₀ (by norm_num)]
      norm_num
      ring
    refine ⟨?_, ?_⟩
    · have hlong : (b.mantissa : ℚ) < 2 ^ 53 := by exact_mod_cast hmantissa
      have hexp : (2 : ℚ) ^ b.exponent ≤ 2 ^ (scale num den - 1) := zpow_le_zpow_right₀ (by norm_num) (by omega)
      have hpos : (0 : ℚ) < 2 ^ (scale num den - 1) := by positivity
      calc b.val ≤ b.mantissa * 2 ^ (scale num den - 1) := by rw [val]; gcongr
        _ < 2 ^ 53 * 2 ^ (scale num den - 1) := by gcongr
        _ = 2 ^ 52 * 2 ^ scale num den := by
          rw [zpow_sub_one₀ (by norm_num)]
          ring
    · rw [hpow, mul_comm]
      exact logFloor_le hnum

/-- **Rounding does not go above a number of the format.** -/
theorem nearest_le {b : Dyadic} (hb : b.Fits) (hden : 0 < den) (h : (num : ℚ) ≤ b.val * den) :
    (nearest num den).val ≤ b.val := by
  have hdenQ : (0 : ℚ) < den := by exact_mod_cast hden
  by_cases hnum : num = 0
  · subst hnum
    have hzero : (nearest 0 den).val = 0 := by simp [nearest, val, zero]
    rw [hzero]
    exact b.val_nonneg
  rcases units_or_short hb hnum den with ⟨k, hk⟩ | ⟨hshort, hlong⟩
  · rw [hk] at h ⊢
    exact val_nearest_le_of_units hnum hden h
  · -- the fraction would be beyond the number
    have hlt : b.val * den < 2 ^ 52 * 2 ^ scale num den * den := by gcongr
    linarith

/-- **Rounding does not go below a number of the format.** -/
theorem le_nearest {b : Dyadic} (hb : b.Fits) (hden : 0 < den) (h : b.val * den ≤ num) (hnum : num ≠ 0) :
    b.val ≤ (nearest num den).val := by
  rcases units_or_short hb hnum den with ⟨k, hk⟩ | ⟨hshort, hlong⟩
  · rw [hk] at h ⊢
    exact units_le_val_nearest hnum hden h
  · have hunits := units_le_val_nearest (k := 2 ^ 52) hnum hden (by exact_mod_cast hlong)
    push_cast at hunits
    exact hshort.le.trans hunits

/-- A quotient does not go above a number of the format that the exact one does not exceed. -/
theorem div_le {a b c : Dyadic} (hc : c.Fits) (hb : 0 < b.val) (h : a.val ≤ c.val * b.val) : (div a b).val ≤ c.val := by
  have hbnum : 0 < b.num := by
    have hden : (0 : ℚ) < b.den := by exact_mod_cast b.den_pos
    have hnum : (0 : ℚ) < b.num := by
      rw [num_eq]
      exact mul_pos hb hden
    exact_mod_cast hnum
  refine nearest_le hc (Nat.mul_pos a.den_pos hbnum) ?_
  push_cast [num_eq]
  calc a.val * a.den * b.den = a.val * (a.den * b.den) := mul_assoc _ _ _
    _ ≤ c.val * b.val * (a.den * b.den) := by gcongr
    _ = c.val * (a.den * (b.val * b.den)) := by ring

/-- Neither does a product. -/
theorem mul_le {a b c : Dyadic} (hc : c.Fits) (h : a.val * b.val ≤ c.val) : (mul a b).val ≤ c.val := by
  refine nearest_le hc (Nat.mul_pos a.den_pos b.den_pos) ?_
  push_cast [num_eq]
  calc a.val * a.den * (b.val * b.den) = a.val * b.val * (a.den * b.den) := by ring
    _ ≤ c.val * (a.den * b.den) := by gcongr

/-! ### Counts and shares -/

/-- A count that a mantissa can hold, as a number of the format. -/
def count (n : ℕ) : Dyadic := ⟨n, 0⟩

theorem fits_count {n : ℕ} (hn : n < mantissaLimit) : (count n).Fits := by
  refine ⟨hn, ?_⟩
  show minExponent ≤ 0
  decide

theorem val_count (n : ℕ) : (count n).val = n := by simp [count, val]

/-- A count is rounded to at most a count that a mantissa can hold. -/
theorem ofNat_le {n m : ℕ} (hm : m < mantissaLimit) (hle : n ≤ m) : (ofNat n).val ≤ m := by
  have hleQ : (n : ℚ) ≤ m := by exact_mod_cast hle
  have h : (ofNat n).val ≤ (count m).val := by
    refine nearest_le (fits_count hm) Nat.one_pos ?_
    rwa [val_count, Nat.cast_one, mul_one]
  rwa [val_count] at h

/-- **Counts that a mantissa can hold are rounded to themselves.** -/
theorem val_ofNat {n : ℕ} (hn : n < mantissaLimit) : (ofNat n).val = n := by
  refine le_antisymm (ofNat_le hn le_rfl) ?_
  by_cases hzero : n = 0
  · subst hzero
    exact_mod_cast val_nonneg _
  · have h : (count n).val ≤ (ofNat n).val := by
      refine le_nearest (fits_count hn) Nat.one_pos ?_ hzero
      rw [val_count, Nat.cast_one, mul_one]
    rwa [val_count] at h

/-- **A share is at most one hundred percent**, through all of its roundings. -/
theorem percentage_le {part whole : ℕ} (hle : part ≤ whole) (hpos : 0 < whole) (hlt : whole < mantissaLimit) :
    (percentage part whole).val ≤ 100 := by
  have hhundred : (ofNat 100).val = 100 := val_ofNat (by decide)
  have hwhole := val_ofNat hlt
  have hquotient : (div (ofNat part) (ofNat whole)).val ≤ (count 1).val := by
    refine div_le (fits_count (by decide)) ?_ ?_
    · rw [hwhole]
      exact_mod_cast hpos
    · rw [val_count, Nat.cast_one, one_mul, hwhole]
      exact ofNat_le hlt hle
  rw [val_count, Nat.cast_one] at hquotient
  have hproduct : (percentage part whole).val ≤ (count 100).val := by
    refine mul_le (fits_count (by decide)) ?_
    rw [val_count, hhundred, Nat.cast_ofNat]
    linarith
  rwa [val_count, Nat.cast_ofNat] at hproduct

end Dyadic

end PacketFec
