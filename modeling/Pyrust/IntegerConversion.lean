import Pyrust.KeyNumbers

/-!
# Integers as doubles

The conversion of an integer keeps its fifty-three leading bits and rounds the rest to the
nearest, ties to even. It is exact for the integers that have no more bits, and no other
integer is the value of a double.
-/

set_option autoImplicit false

namespace Pyrust.IntegerConversion

open Binary64 KeyNumbers

/-- The quotient rounded to the nearest, ties to even. -/
def divHalfEven (m d : ℕ) : ℕ :=
  if d < 2*(m%d) ∨ (d = 2*(m%d) ∧ m/d%2 = 1) then m/d+1 else m/d

/-- Fifty-three bits of a number, or `2^53` when it is rounded up to that. -/
def roundedSignificand (m : ℕ) : ℕ :=
  if m.log2 ≤ 52 then m*2^(52-m.log2) else divHalfEven m (2^(m.log2-52))

/-- The pattern of the double nearest to an integer below `2^1023`. A significand rounded up
carries into the exponent. -/
def asF64 (n : ℤ) : UInt64 :=
  if n = 0 then 0
  else ((if n < 0 then 2^63 else 0)+(n.natAbs.log2+1023)*2^52+
    (roundedSignificand n.natAbs-2^52)).toUInt64

/-- No more than fifty-three significant bits. -/
def IsExact (n : ℤ) : Prop := n.natAbs%2^(n.natAbs.log2-52) = 0

instance (n : ℤ) : Decidable (IsExact n) := inferInstanceAs (Decidable (_ = _))

example : asF64 (2^53+1) = asF64 (2^53) := by decide

example : asF64 (-3) = 0xC008000000000000 := by decide

theorem divHalfEven_of_dvd {m d : ℕ} (hd : 0 < d) (h : m%d = 0) : divHalfEven m d = m/d := by
  rw [divHalfEven, h, if_neg (by omega)]

section exact
variable {n : ℤ}

/-- The significand of an exact conversion. -/
theorem significand_exact {m : ℕ} (hm : m ≠ 0) (h : m%2^(m.log2-52) = 0) :
    2^52 ≤ roundedSignificand m ∧ roundedSignificand m < 2^53 ∧
      roundedSignificand m*2^(m.log2+1022) = m*2^1074 := by
  have hlo : 2^m.log2 ≤ m := Nat.log2_self_le hm
  have hhi : m < 2^(m.log2+1) := Nat.lt_log2_self
  rw [roundedSignificand]
  generalize m.log2 = e at *
  by_cases he : e ≤ 52
  · rw [if_pos he]
    have hpow : 2^e*2^(52-e) = 2^52 := by rw [← pow_add, Nat.add_sub_cancel' he]
    have hpow' : 2^(e+1)*2^(52-e) = 2^53 := by
      rw [← pow_add]
      congr 1
      omega
    refine ⟨?_, ?_, ?_⟩
    · rw [← hpow]
      exact Nat.mul_le_mul_right _ hlo
    · rw [← hpow']
      exact Nat.mul_lt_mul_of_pos_right hhi (Nat.two_pow_pos _)
    · have hexp : 52-e+(e+1022) = 1074 := by omega
      rw [mul_assoc, ← pow_add, hexp]
  · have hpos := Nat.two_pow_pos (e-52)
    rw [if_neg he, divHalfEven_of_dvd hpos h]
    have hmul : m/2^(e-52)*2^(e-52) = m := Nat.div_mul_cancel (Nat.dvd_of_mod_eq_zero h)
    refine ⟨?_, ?_, ?_⟩
    · rw [Nat.le_div_iff_mul_le hpos, ← pow_add]
      exact (Nat.pow_le_pow_right (by decide) (by omega)).trans hlo
    · rw [Nat.div_lt_iff_lt_mul hpos, ← pow_add]
      exact hhi.trans_le (Nat.pow_le_pow_right (by decide) (by omega))
    · have hexp : e+1022 = e-52+1074 := by omega
      rw [hexp, pow_add, ← mul_assoc, hmul]

theorem scaled_of_magnitude {bits : UInt64} (hsign : negative bits = decide (n < 0))
    (h : magnitude bits = n.natAbs*2^1074) : scaled bits = n*one := by
  have hone : ((2^1074 : ℕ) : ℤ) = one := one_natAbs.symm
  have hcast : (magnitude bits : ℤ) = (n.natAbs : ℤ)*one := by
    rw [h, Nat.cast_mul, hone]
  rw [scaled, hsign, hcast]
  by_cases hneg : n < 0
  · rw [decide_eq_true hneg, if_pos rfl, Int.ofNat_natAbs_of_nonpos hneg.le, Int.neg_mul,
      Int.neg_neg]
  · rw [decide_eq_false hneg, if_neg Bool.false_ne_true, Int.natAbs_of_nonneg (by omega)]

/-- An exact conversion keeps the value. -/
theorem part_asF64 (hn : n.natAbs ≤ 2^63) (h : IsExact n) : part (asF64 n) = .finite (n*one) := by
  by_cases hzero : n = 0
  · rw [asF64, if_pos hzero, hzero, zero_mul, ← isZero_iff]
    decide
  · have hzero' : n.natAbs ≠ 0 := Int.natAbs_ne_zero.mpr hzero
    obtain ⟨hlo, hhi, hvalue⟩ := significand_exact hzero' h
    have hlog : n.natAbs.log2 ≤ 63 := by
      by_contra hgt
      have hpow : 2^64 ≤ 2^n.natAbs.log2 := Nat.pow_le_pow_right (by decide) (by omega)
      have := Nat.log2_self_le hzero'
      omega
    have hnat : (asF64 n).toNat =
        (if n < 0 then 2^63 else 0)+(n.natAbs.log2+1023)*2^52+
          (roundedSignificand n.natAbs-2^52) := by
      rw [asF64, if_neg hzero, UInt64.toNat_ofNat']
      split <;> omega
    have hexponent : biasedExponent (asF64 n) = n.natAbs.log2+1023 := by
      rw [biasedExponent, hnat]
      split <;> omega
    have hfraction : fraction (asF64 n) = roundedSignificand n.natAbs-2^52 := by
      rw [fraction, hnat]
      split <;> omega
    have hsign : negative (asF64 n) = decide (n < 0) := by
      rw [negative, hnat, decide_eq_decide]
      split <;> omega
    have hmagnitude : magnitude (asF64 n) = n.natAbs*2^1074 := by
      have hunit : n.natAbs.log2+1023-1 = n.natAbs.log2+1022 := rfl
      have hsig := Nat.sub_add_cancel hlo
      rw [magnitude, significand, unitExponent, hexponent, if_neg (by omega), hfraction, hsig,
        hunit, hvalue]
    refine (part_eq_finite_iff _ _).mpr ⟨?_, scaled_of_magnitude hsign hmagnitude⟩
    rw [isFinite, hexponent, bne_iff_ne]
    omega

/-- A double that is an integer is one with few bits. -/
theorem isExact_of_part {bits : UInt64} (h : part bits = .finite (n*one)) : IsExact n := by
  have hmagnitude := magnitude_integral bits n ((part_eq_finite_iff _ _).mp h).2
  rw [IsExact]
  by_cases hzero : n.natAbs = 0
  · rw [hzero, Nat.zero_mod]
  · have hlo := Nat.log2_self_le hzero
    have hsig := significand_lt bits
    generalize n.natAbs.log2 = e at *
    by_cases he : e ≤ 52
    · rw [Nat.sub_eq_zero_of_le he, pow_zero, Nat.mod_one]
    · rw [magnitude] at hmagnitude
      have hunit : e-52+1074 ≤ unitExponent bits := by
        by_contra hlt
        have hbound : significand bits*2^unitExponent bits < 2^53*2^(e-53+1074) :=
          Nat.mul_lt_mul_of_lt_of_le hsig (Nat.pow_le_pow_right (by decide) (by omega))
            (Nat.two_pow_pos _)
        have hexp : 53+(e-53+1074) = e+1074 := by omega
        rw [hmagnitude, ← pow_add, hexp, pow_add] at hbound
        exact absurd (Nat.lt_of_mul_lt_mul_right hbound) (by omega)
      have hdvd : 2^(e-52)*2^1074 ∣ n.natAbs*2^1074 := by
        rw [← hmagnitude, ← pow_add]
        exact Dvd.dvd.mul_left (pow_dvd_pow 2 hunit) _
      exact Nat.mod_eq_zero_of_dvd (Nat.dvd_of_mul_dvd_mul_right (pow_pos two_pos _) hdvd)

end exact

end Pyrust.IntegerConversion
