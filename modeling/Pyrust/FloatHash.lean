import Mathlib.Data.ZMod.Basic
import Pyrust.FixedWidth
import Pyrust.KeyNumbers

/-!
# Hashes of numbers

The hash of a float is made from its significand and its exponent, the hash of an integer
is its remainder. Both are the residue of the number modulo a Mersenne prime, and no
operation on the way leaves its type.
-/

set_option autoImplicit false

namespace Pyrust.FloatHash

open Binary64 FixedWidth KeyNumbers

/-! ## The functions -/

/-- `PY_HASH_MODULUS` -/
def hashModulus : ℕ := 2^61-1

/-- The hash `-1` is the mark of an error. -/
def avoidMark (raw : ℤ) : ℤ := if raw = -1 then -2 else raw

def pyHashInt (v : ℤ) : ℤ := avoidMark (v.tmod hashModulus)

def toI64 (n : ℤ) : Option ℤ := if Fits 64 n then some n else none

def pyHashBigint (n : ℤ) : ℤ :=
  let reduced := n.tmod hashModulus
  avoidMark ((toI64 reduced).getD 0)

/-- An operation of `u128` that is not checked. -/
def unsigned128 (v : ℕ) : Except Stop ℕ := if v < 2^128 then .ok v else .error .overflow

def sign (bits : UInt64) : ℤ := if negative bits then -1 else 1

/-- The binary exponent of the significand. -/
def exponent (bits : UInt64) : ℤ :=
  if biasedExponent bits = 0 then -1074 else biasedExponent bits-1023-52

def pyHashFloat (bits : UInt64) : Except Stop ℤ :=
  if isInfinite bits then pure (if negative bits then -314159 else 314159)
  else if isNan bits then pure (Keys.pyHashNan bits).toInt
  else if isZero bits then pure 0
  else do
    let m := significand bits
    let e := exponent bits
    let h ← (if 0 ≤ e then do
        let shift := e.toNat % 61
        let product ← unsigned128 (m*2^shift)
        pure (product % hashModulus)
      else do
        let negE ← native 64 (-e)
        let negEMod := negE.toNat % 61
        let invShift := if negEMod = 0 then 0 else 61-negEMod
        let product ← unsigned128 (m*2^invShift)
        pure (product % hashModulus))
    let signed ← native 64 (h*sign bits)
    pure (avoidMark signed)

/-! ## Residues -/

section residues

/-- The residue of `m*2^e`, where a negative power is one of the inverse of two. -/
def residue (m : ℕ) (e : ℤ) : ℕ :=
  ((m : ZMod hashModulus)*(if 0 ≤ e then 2^e.toNat else (2 : ZMod hashModulus)⁻¹^(-e).toNat)).val

theorem val_pow (m k : ℕ) : ((m : ZMod hashModulus)*2^k).val = m*2^k % hashModulus := by
  rw [← ZMod.val_natCast]
  push_cast
  rfl

theorem two_inv_pow (k : ℕ) :
    (2 : ZMod hashModulus)⁻¹^k = 2^(if k % 61 = 0 then 0 else 61-k % 61) := by
  have hinv : (2 : ZMod hashModulus)*2⁻¹ = 1 := ZMod.coe_mul_inv_eq_one 2 (by decide)
  have hone : (2 : ZMod hashModulus)^k*2^(if k % 61 = 0 then 0 else 61-k % 61) = 1 := by
    have h := (ZMod.natCast_eq_natCast_iff _ _ _).mpr (inverse_modEq 1 k)
    push_cast at h
    rwa [one_mul] at h
  calc (2 : ZMod hashModulus)⁻¹^k
      = 2⁻¹^k*(2^k*2^(if k % 61 = 0 then 0 else 61-k % 61)) := by rw [hone, mul_one]
    _ = (2*2⁻¹)^k*2^(if k % 61 = 0 then 0 else 61-k % 61) := by
      rw [← mul_assoc, ← mul_pow, mul_comm 2⁻¹]
    _ = 2^(if k % 61 = 0 then 0 else 61-k % 61) := by rw [hinv, one_pow, one_mul]

theorem residue_of_nonneg (m : ℕ) {e : ℤ} (he : 0 ≤ e) :
    residue m e = m*2^(e.toNat % 61) % hashModulus := by
  rw [residue, if_pos he, val_pow]
  exact (two_pow_modEq _).mul_left _

theorem residue_of_neg (m : ℕ) {e : ℤ} (he : ¬0 ≤ e) :
    residue m e =
      m*2^(if (-e).toNat % 61 = 0 then 0 else 61-(-e).toNat % 61) % hashModulus := by
  rw [residue, if_neg he, two_inv_pow, val_pow]

end residues

/-! ## The hash of a float -/

section float
variable {bits : UInt64}

theorem exponent_eq (bits : UInt64) : exponent bits = unitExponent bits-1074 := by
  simp only [exponent, unitExponent]
  split <;> omega

theorem unitExponent_lt (bits : UInt64) : unitExponent bits < 2047 := by
  have : biasedExponent bits < 2^11 := Nat.mod_lt _ (by decide)
  simp only [unitExponent]
  omega

/-- The value in units of the smallest subnormal. -/
theorem scaled_eq (bits : UInt64) :
    scaled bits = sign bits*(significand bits*2^(exponent bits+1074).toNat) := by
  have hexp : (exponent bits+1074).toNat = unitExponent bits := by
    rw [exponent_eq]
    omega
  rw [scaled, sign, magnitude, hexp]
  push_cast
  split <;> omega

theorem product_lt {m k : ℕ} (hm : m < 2^53) (hk : k ≤ 61) : m*2^k < 2^128 := by
  calc m*2^k ≤ 2^53*2^61 := Nat.mul_le_mul hm.le (Nat.pow_le_pow_right (by decide) hk)
    _ < 2^128 := by decide

theorem signed_fits {h : ℕ} (hh : h < hashModulus) : Fits 64 (h*sign bits) := by
  rw [fits_64]
  simp only [hashModulus] at hh
  simp only [sign]
  split <;> omega

theorem pyHashFloat_eq (hfin : isFinite bits = true) (hz : isZero bits = false) :
    pyHashFloat bits =
      .ok (avoidMark (sign bits*residue (significand bits) (exponent bits))) := by
  have hinf : isInfinite bits = false ∧ isNan bits = false := by
    rcases kinds bits with hk | hk | hk <;> simp [hk] at hfin ⊢
  have hsig := significand_lt bits
  have hlt : ∀ v, v % hashModulus < hashModulus := fun v => Nat.mod_lt _ (by decide)
  simp only [pyHashFloat, hinf, hz, Bool.false_eq_true, if_false]
  by_cases he : 0 ≤ exponent bits
  · have hmod : (exponent bits).toNat % 61 ≤ 61 := (Nat.mod_lt _ (by decide)).le
    rw [if_pos he, unsigned128, if_pos (product_lt hsig hmod), residue_of_nonneg _ he]
    simp only [ok_bind, pure, Except.pure, native_ok (signed_fits (hlt _)), mul_comm (sign bits)]
  · have hneg : Fits 64 (-exponent bits) := by
      have := unitExponent_lt bits
      rw [fits_64, exponent_eq]
      omega
    have hmod : (if (-exponent bits).toNat % 61 = 0 then 0
        else 61-(-exponent bits).toNat % 61) ≤ 61 := by split <;> omega
    rw [if_neg he, native_ok hneg, ok_bind, unsigned128, if_pos (product_lt hsig hmod),
      residue_of_neg _ he]
    simp only [ok_bind, pure, Except.pure, native_ok (signed_fits (hlt _)), mul_comm (sign bits)]

/-- A float that is an integer has the residue of its magnitude. -/
theorem residue_integral {n : ℤ} (h : scaled bits = n*one) :
    residue (significand bits) (exponent bits) = n.natAbs % hashModulus := by
  have hreduced := reduced_magnitude bits n.natAbs (magnitude_integral bits n h)
  have hmodulus : Keys.pyHashModulus = hashModulus := rfl
  rw [hmodulus] at hreduced
  rw [← hreduced]
  by_cases hle : 1074 ≤ unitExponent bits
  · have he : 0 ≤ exponent bits := by rw [exponent_eq]; omega
    have hexp : (exponent bits).toNat = unitExponent bits-1074 := by rw [exponent_eq]; omega
    rw [residue_of_nonneg _ he, if_pos hle, hexp]
  · have he : ¬0 ≤ exponent bits := by rw [exponent_eq]; omega
    have hexp : (-exponent bits).toNat = 1074-unitExponent bits := by rw [exponent_eq]; omega
    rw [residue_of_neg _ he, if_neg hle, hexp]

end float

/-! ## The hash of an integer -/

section integers
variable {n : ℤ}

theorem tmod_fits (n : ℤ) : Fits 64 (n.tmod hashModulus) := by
  have hlo := Int.lt_tmod_of_pos n (b := hashModulus) (by decide)
  have hhi := Int.tmod_lt_of_pos n (b := hashModulus) (by decide)
  simp only [hashModulus] at hlo hhi ⊢
  rw [fits_64]
  omega

theorem pyHashBigint_eq (n : ℤ) : pyHashBigint n = pyHashInt n := by
  rw [pyHashBigint, toI64, if_pos (tmod_fits n)]
  rfl

theorem tmod_natAbs (n : ℤ) :
    n.tmod hashModulus = (if n < 0 then -1 else 1)*(n.natAbs % hashModulus : ℕ) := by
  by_cases h : n < 0
  · have hn : n = -(n.natAbs : ℤ) := by omega
    rw [if_pos h]
    conv_lhs => rw [hn, Int.neg_tmod, ← Int.ofNat_tmod]
    omega
  · have hn : n = (n.natAbs : ℤ) := by omega
    rw [if_neg h]
    conv_lhs => rw [hn, ← Int.ofNat_tmod]
    omega

theorem sign_integral {bits : UInt64} (hz : isZero bits = false) (hfin : isFinite bits = true)
    (h : scaled bits = n*one) : sign bits = if n < 0 then -1 else 1 := by
  have hone := one_pos
  have hne : scaled bits ≠ 0 := by
    intro h0
    rw [isZero, hfin, h0] at hz
    cases hz
  rw [sign]
  simp only [scaled] at h hne
  by_cases hneg : negative bits = true
  · rw [if_pos hneg] at h hne ⊢
    have hlt : n < 0 := by
      by_contra hge
      have := mul_nonneg (not_lt.mp hge) hone.le
      omega
    rw [if_pos hlt]
  · rw [if_neg hneg] at h ⊢
    have hge : ¬n < 0 := by
      intro hlt
      have := mul_neg_of_neg_of_pos hlt hone
      omega
    rw [if_neg hge]

end integers

/-- The hash of a float is the residue of its value with the sign of the float. It is the hash of
the integer where the float is one, and the two hashes of integers agree. -/
theorem number_hashes_agree :
    (∀ bits, isFinite bits = true → isZero bits = false →
      scaled bits = sign bits*(significand bits*2^(exponent bits+1074).toNat) ∧
      pyHashFloat bits =
        .ok (avoidMark (sign bits*residue (significand bits) (exponent bits))) ∧
      ∀ n : ℤ, scaled bits = n*one →
        pyHashFloat bits = .ok (pyHashBigint n) ∧ pyHashFloat bits = .ok (pyHashInt n)) ∧
    ∀ v : ℤ, pyHashInt v = pyHashBigint v := by
  refine ⟨fun bits hfin hz => ⟨scaled_eq bits, pyHashFloat_eq hfin hz, fun n h => ?_⟩,
    fun v => (pyHashBigint_eq v).symm⟩
  have hint : pyHashFloat bits = .ok (pyHashInt n) := by
    rw [pyHashFloat_eq hfin hz, residue_integral h, sign_integral hz hfin h, ← tmod_natAbs]
    rfl
  exact ⟨by rw [hint, pyHashBigint_eq], hint⟩

theorem number_hashes_agree_subnormal :
    pyHashFloat 1 = .ok (avoidMark (sign 1*residue (significand 1) (exponent 1))) :=
  (number_hashes_agree.1 1 (by decide) (by decide)).2.1

end Pyrust.FloatHash
