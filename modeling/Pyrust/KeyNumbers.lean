import Mathlib.Data.Nat.ModEq
import Pyrust.Keys

/-!
# Numeric keys by value

An integer, a boolean, a big integer, a float and a real-valued complex
number are the same key exactly when they are the same number. Both hashes
are functions of that number: the Mersenne-prime reduction of a float counts
powers of two modulo 61, and an integral float is reduced like its integer.
-/

set_option autoImplicit false

namespace Pyrust.KeyNumbers
open Pyrust.Binary64 Pyrust.Keys

theorem fitsI64_iff (n : ℤ) : fitsI64 n = true ↔ -2^63 ≤ n ∧ n < 2^63 := by
  simp [fitsI64]

theorem toInt_fits (v : Int64) : fitsI64 v.toInt = true := by
  rw [fitsI64_iff]
  exact ⟨v.le_toInt, v.toInt_lt⟩

theorem ofInt_fits (n : ℤ) (h : fitsI64 n = true) : (Int64.ofInt n).toInt = n := by
  rw [fitsI64_iff] at h
  exact Int64.toInt_ofInt_of_le h.1 h.2

theorem cancel_one (n m : ℤ) : n*one = m*one ↔ n = m :=
  Int.mul_eq_mul_right_iff (ne_of_gt one_pos)

/-- A float in range is the integer it equals. -/
theorem exactI64_some_iff (bits : UInt64) (i : Int64) :
    floatBitsAsExactI64 bits = some i ↔ part bits = .finite (i.toInt*one) := by
  have hone := one_pos
  constructor
  · intro h
    simp only [floatBitsAsExactI64] at h
    split at h
    · simp at h
    · rename_i hint
      simp only [Bool.or_eq_true, Bool.not_eq_true', not_or, Bool.not_eq_false] at hint
      obtain ⟨n, hn⟩ := (isIntegral_iff bits).mp hint.2
      split at h
      · rename_i hrange
        rw [((part_eq_finite_iff bits _).mp hn).2] at hrange
        have hlow := le_of_mul_le_mul_right hrange.1 hone
        have hhigh := lt_of_mul_lt_mul_right hrange.2 hone.le
        have hi : Int64.ofInt n = i := by simpa [trunc_eq bits n hn] using h
        rw [← hi, Int64.toInt_ofInt_of_le hlow hhigh]
        exact hn
      · simp at h
  · intro h
    have hfin := (part_eq_finite_iff bits _).mp h
    have hint : isIntegral bits = true := (isIntegral_iff bits).mpr ⟨_, h⟩
    have hlow : -2^63*one ≤ i.toInt*one := mul_le_mul_of_nonneg_right i.le_toInt hone.le
    have hhigh : i.toInt*one < 2^63*one := mul_lt_mul_of_pos_right i.toInt_lt hone
    rw [floatBitsAsExactI64, if_neg (by simp [hfin.1, hint]), hfin.2, if_pos ⟨hlow, hhigh⟩,
      trunc_eq bits _ h, Int64.ofInt_toInt]

theorem exactI64_none (bits : UInt64) (n : ℤ) (h : part bits = .finite (n*one)) :
    floatBitsAsExactI64 bits = .none ↔ fitsI64 n = false := by
  rw [Option.eq_none_iff_forall_ne_some]
  constructor
  · intro hne
    by_contra hfit
    rw [Bool.not_eq_false] at hfit
    apply hne (Int64.ofInt n)
    rw [exactI64_some_iff, ofInt_fits n hfit]
    exact h
  · intro hfit i hi
    rw [exactI64_some_iff, h, Part.finite.injEq, cancel_one] at hi
    rw [hi, toInt_fits] at hfit
    simp at hfit

theorem bigintFloatEq_iff (n : ℤ) (bits : UInt64) :
    bigintFloatEq n bits = true ↔ part bits = .finite (n*one) := by
  simp only [bigintFloatEq, Bool.and_eq_true, beq_iff_eq]
  constructor
  · rintro ⟨⟨-, hint⟩, ht⟩
    obtain ⟨m, hm⟩ := (isIntegral_iff bits).mp hint
    rw [trunc_eq bits m hm] at ht
    rw [hm, ht]
  · intro h
    exact ⟨⟨((part_eq_finite_iff bits _).mp h).1, (isIntegral_iff bits).mpr ⟨n, h⟩⟩,
      trunc_eq bits n h⟩

/-- What an integer feeds to the hasher, whatever its representation. -/
def intWords (n : ℤ) : List Word :=
  if fitsI64 n then [.u8 0, .i64 (Int64.ofInt n)] else [.u8 1, .i64 (pykeyHashBigint n)]

theorem intWords_toInt (v : Int64) : intWords v.toInt = [.u8 0, .i64 v] := by
  simp [intWords, toInt_fits]

attribute [local simp] Keys.hashFloatBits in
theorem hashFloatBits_integral (bits : UInt64) (n : ℤ) (h : part bits = .finite (n*one)) :
    hashFloatBits bits = intWords n := by
  have hfin := ((part_eq_finite_iff bits _).mp h).1
  have hint : isIntegral bits = true := (isIntegral_iff bits).mpr ⟨n, h⟩
  by_cases hfit : fitsI64 n = true
  · have hi : floatBitsAsExactI64 bits = some (Int64.ofInt n) := by
      rw [exactI64_some_iff, ofInt_fits n hfit]
      exact h
    simp [hashFloatBits, hi, intWords, hfit]
  · rw [Bool.not_eq_true] at hfit
    have hnone := (exactI64_none bits n h).mpr hfit
    simp [hashFloatBits, hnone, hfin, hint, intWords, hfit, trunc_eq bits n h]

theorem hashFloatBits_congr (a b : UInt64) (h : part a = part b) :
    hashFloatBits a = hashFloatBits b := by
  rcases eq_of_part a b h with rfl | ⟨ha, hb⟩
  · rfl
  · rw [hashFloatBits_integral a 0 (by rw [ha, zero_mul]),
      hashFloatBits_integral b 0 (by rw [hb, zero_mul])]

section mersenne

theorem two_pow_modEq (e : ℕ) : 2^e ≡ 2^(e%61) [MOD pyHashModulus] := by
  have h61 : 2^61 ≡ 1 [MOD pyHashModulus] := by decide
  calc 2^e = (2^61)^(e/61)*2^(e%61) := by rw [← pow_mul, ← pow_add, Nat.div_add_mod]
    _ ≡ 1^(e/61)*2^(e%61) [MOD pyHashModulus] := (h61.pow _).mul_right _
    _ = 2^(e%61) := by rw [one_pow, one_mul]

/-- A negative exponent is undone by the power that completes it to 61. -/
theorem inverse_modEq (n e : ℕ) :
    n*2^e*2^(if e%61 = 0 then 0 else 61-e%61) ≡ n [MOD pyHashModulus] := by
  have hlt : e%61 < 61 := Nat.mod_lt _ (by decide)
  have hone : 2^(e+(if e%61 = 0 then 0 else 61-e%61)) ≡ 2^0 [MOD pyHashModulus] := by
    have hmod : (e+(if e%61 = 0 then 0 else 61-e%61))%61 = 0 := by
      split <;> omega
    have h := two_pow_modEq (e+(if e%61 = 0 then 0 else 61-e%61))
    rwa [hmod] at h
  calc n*2^e*2^(if e%61 = 0 then 0 else 61-e%61) =
        n*2^(e+(if e%61 = 0 then 0 else 61-e%61)) := by rw [mul_assoc, ← pow_add]
    _ ≡ n*2^0 [MOD pyHashModulus] := hone.mul_left n
    _ = n := by rw [pow_zero, mul_one]

theorem pykeyHashBigint_natAbs (n : ℤ) :
    pykeyHashBigint n =
      avoidMinusOne (Int64.ofNat (n.natAbs%pyHashModulus)*(if n < 0 then -1 else 1)) := by
  rw [pykeyHashBigint]
  by_cases hn : n < 0
  · have htmod : n.tmod pyHashModulus = -((n.natAbs%pyHashModulus : ℕ) : ℤ) := by
      have hneg : n = -(n.natAbs : ℤ) := by omega
      conv_lhs => rw [hneg, Int.neg_tmod, ← Int.ofNat_tmod]
    rw [htmod, if_pos hn, Int64.ofInt_neg, Int64.ofInt_eq_ofNat, Int64.mul_neg, Int64.mul_one]
  · have htmod : n.tmod pyHashModulus = ((n.natAbs%pyHashModulus : ℕ) : ℤ) := by
      have hpos : n = (n.natAbs : ℤ) := by omega
      conv_lhs => rw [hpos, ← Int.ofNat_tmod]
    rw [htmod, if_neg hn, Int64.ofInt_eq_ofNat, Int64.mul_one]

theorem one_natAbs : one = ((2^1074 : ℕ) : ℤ) := by
  rw [one]
  exact (Nat.cast_pow 2 1074).symm

/-- The exponent of the reduction counts from the unit, not from one. -/
theorem reduceFinite_eq (bits : UInt64) :
    reduceFinite bits = avoidMinusOne (Int64.ofNat
      (if 1074 ≤ unitExponent bits then
        significand bits*2^((unitExponent bits-1074)%61)%pyHashModulus
      else significand bits*2^(if (1074-unitExponent bits)%61 = 0 then 0
        else 61-(1074-unitExponent bits)%61)%pyHashModulus)*(if negative bits then -1 else 1)) := by
  have he : (if biasedExponent bits = 0 then (-1074 : ℤ) else biasedExponent bits-1023-52) =
      unitExponent bits-1074 := by
    simp only [unitExponent]
    split <;> omega
  simp only [reduceFinite, he]
  by_cases hle : 1074 ≤ unitExponent bits
  · have h1 : (0 : ℤ) ≤ unitExponent bits-1074 := by omega
    have h2 : ((unitExponent bits : ℤ)-1074).toNat = unitExponent bits-1074 := by omega
    rw [if_pos h1, if_pos hle, h2]
  · have h1 : ¬ (0 : ℤ) ≤ unitExponent bits-1074 := by omega
    have h2 : (-((unitExponent bits : ℤ)-1074)).toNat = 1074-unitExponent bits := by omega
    rw [if_neg h1, if_neg hle, h2]

theorem magnitude_integral (bits : UInt64) (n : ℤ) (h : scaled bits = n*one) :
    magnitude bits = n.natAbs*2^1074 := by
  have habs : (scaled bits).natAbs = magnitude bits := by
    simp only [scaled]
    split <;> omega
  rw [← habs, h, Int.natAbs_mul, one_natAbs, Int.natAbs_natCast]

theorem reduced_magnitude (bits : UInt64) (n : ℕ) (h : magnitude bits = n*2^1074) :
    (if 1074 ≤ unitExponent bits then
      significand bits*2^((unitExponent bits-1074)%61)%pyHashModulus
    else significand bits*2^(if (1074-unitExponent bits)%61 = 0 then 0
      else 61-(1074-unitExponent bits)%61)%pyHashModulus) = n%pyHashModulus := by
  rw [magnitude] at h
  by_cases hle : 1074 ≤ unitExponent bits
  · have hn : n = significand bits*2^(unitExponent bits-1074) := by
      apply Nat.eq_of_mul_eq_mul_right (Nat.two_pow_pos 1074)
      calc n*2^1074 = significand bits*2^(unitExponent bits-1074+1074) := by
            rw [← h, Nat.sub_add_cancel hle]
        _ = significand bits*2^(unitExponent bits-1074)*2^1074 := by rw [pow_add, mul_assoc]
    rw [if_pos hle, hn]
    exact ((two_pow_modEq _).mul_left _).symm
  · have hn : significand bits = n*2^(1074-unitExponent bits) := by
      apply Nat.eq_of_mul_eq_mul_right (Nat.two_pow_pos (unitExponent bits))
      rw [h, mul_assoc, ← pow_add, Nat.sub_add_cancel (by omega)]
    rw [if_neg hle, hn]
    exact inverse_modEq n (1074-unitExponent bits)

theorem reduceFinite_integral (bits : UInt64) (n : ℤ) (h : scaled bits = n*one) (h0 : n ≠ 0) :
    reduceFinite bits = pykeyHashBigint n := by
  have hmag := magnitude_integral bits n h
  have hsign : negative bits = true ↔ n < 0 := by
    have hn : 0 < magnitude bits := by
      rw [hmag]
      apply Nat.mul_pos (Int.natAbs_pos.mpr h0)
      exact pow_pos two_pos _
    have hlt : n < 0 ↔ scaled bits < 0 := by
      rw [h]
      constructor
      · intro hneg
        exact mul_neg_of_neg_of_pos hneg one_pos
      · intro hneg
        by_contra hge
        exact absurd hneg (not_lt.mpr (mul_nonneg (by omega) one_pos.le))
    rw [hlt, scaled]
    cases negative bits with
    | true => simpa using hn
    | false => simp
  rw [reduceFinite_eq, reduced_magnitude bits n.natAbs hmag, pykeyHashBigint_natAbs]
  simp only [hsign]

theorem hashInt_eq (v : Int64) : hashInt v = pykeyHashBigint v.toInt := by
  have hp : (Int64.ofNat pyHashModulus).toInt = pyHashModulus := by decide
  rw [hashInt, pykeyHashBigint, ← hp, ← Int64.toInt_mod, Int64.ofInt_toInt]

end mersenne

theorem part_finite_kinds (bits : UInt64) (s : ℤ) (h : part bits = .finite s) :
    isNan bits = false ∧ isInfinite bits = false := by
  rcases kinds bits with hk | hk | hk <;> simp [part, hk] at h ⊢

theorem pyHashFloat_integral (bits : UInt64) (n : ℤ) (h : part bits = .finite (n*one)) :
    pyHashFloat bits = pykeyHashBigint n := by
  obtain ⟨hnan, hinf⟩ := part_finite_kinds bits _ h
  have hscaled := ((part_eq_finite_iff bits _).mp h).2
  by_cases h0 : n = 0
  · have hz : isZero bits = true := by
      rw [isZero_iff, h, h0, zero_mul]
    have hzero : pykeyHashBigint 0 = 0 := by decide
    simp [pyHashFloat, hnan, hinf, hz, h0, hzero]
  · have hz : isZero bits = false := by
      rw [Bool.eq_false_iff, ne_eq, isZero_iff, h, Part.finite.injEq]
      intro hzero
      rcases mul_eq_zero.mp hzero with hz | hz
      · exact h0 hz
      · exact absurd hz (ne_of_gt one_pos)
    simp only [pyHashFloat, hnan, hinf, hz]
    cases hi : floatBitsAsExactI64 bits with
    | none => exact reduceFinite_integral bits n hscaled h0
    | some i =>
      rw [exactI64_some_iff, h, Part.finite.injEq, cancel_one] at hi
      rw [hi]
      exact hashInt_eq i

theorem pyHashFloat_congr (a b : UInt64) (h : part a = part b) : pyHashFloat a = pyHashFloat b := by
  rcases eq_of_part a b h with rfl | ⟨ha, hb⟩
  · rfl
  · rw [pyHashFloat_integral a 0 (by rw [ha, zero_mul]),
      pyHashFloat_integral b 0 (by rw [hb, zero_mul])]

theorem hashFloatAsU64_congr (a b : UInt64) (h : part a = part b) :
    hashFloatAsU64 a = hashFloatAsU64 b := by
  rcases eq_of_part a b h with rfl | ⟨ha, hb⟩
  · rfl
  · have hza := (isZero_iff a).mpr ha
    have hzb := (isZero_iff b).mpr hb
    simp [hashFloatAsU64, part_finite_kinds a _ ha, part_finite_kinds b _ hb, hza, hzb]

theorem nan_congr (a b : UInt64) (h : part a = part b) : isNan a = isNan b := by
  rcases kinds a with ha | ha | ha <;> rcases kinds b with hb | hb | hb <;>
    simp [part, ha, hb] at h ⊢

theorem isZero_congr (a b : UInt64) (h : part a = part b) : isZero a = isZero b := by
  rw [Bool.eq_iff_iff, isZero_iff, isZero_iff, h]

inductive Number where
  | real (value : Part)
  | complex (re im : Part)
  deriving DecidableEq

def integer : PyKey → Option ℤ
  | .int v => some v.toInt
  | .bool b => some (if b then 1 else 0)
  | .bigInt n => some n
  | _ => .none

/-- The number a key stands for. A complex NaN is no real number. -/
def number : PyKey → Option Number
  | .float bits => some (.real (part bits))
  | .complex re im =>
    if isZero im && !isNan re then some (.real (part re)) else some (.complex (part re) (part im))
  | key => (integer key).map (fun n => .real (.finite (n*one)))

section equality
variable (sentinels : Sentinels) (hasher : List Word → UInt64)

theorem boolAsI64_toInt (b : Bool) : (boolAsI64 b).toInt = if b then 1 else 0 := by
  cases b <;> rfl

theorem bool_fits (b : Bool) : fitsI64 (if b then 1 else 0) = true := by
  cases b <;> rfl

theorem int_eq_iff (a b : Int64) : (a == b) = true ↔ a.toInt = b.toInt := by
  rw [beq_iff_eq, Int64.toInt_inj]

-- the equations of the comparison are made once, ahead of the proofs that share them
attribute [local simp] PyKey.eq PyKey.Wf in
theorem eq_integer_iff (a b : PyKey) (n m : ℤ) (wa : a.Wf sentinels hasher)
    (wb : b.Wf sentinels hasher) (ha : integer a = some n) (hb : integer b = some m) :
    a.eq sentinels hasher b = true ↔ n = m := by
  cases a <;> simp only [integer, Option.some.injEq, reduceCtorEq] at ha <;>
    cases b <;> simp only [integer, Option.some.injEq, reduceCtorEq] at hb <;>
    subst ha hb <;> simp only [PyKey.eq]
  case int.int v w => exact int_eq_iff v w
  case int.bool v b => rw [int_eq_iff, boolAsI64_toInt]
  case bool.int b v => rw [int_eq_iff, boolAsI64_toInt, eq_comm]
  case int.bigInt v n => rw [beq_iff_eq, eq_comm]
  case bigInt.int n v => rw [beq_iff_eq]
  case bigInt.bigInt n m => rw [beq_iff_eq]
  case bool.bool b c => cases b <;> cases c <;> simp
  case bigInt.bool n b =>
    simp only [PyKey.Wf] at wa
    simp only [Bool.false_eq_true, false_iff]
    rintro rfl
    simp [bool_fits] at wa
  case bool.bigInt b n =>
    simp only [PyKey.Wf] at wb
    simp only [Bool.false_eq_true, false_iff]
    rintro rfl
    simp [bool_fits] at wb

theorem eq_float_integer (bits : UInt64) (b : PyKey) (m : ℤ) (hb : integer b = some m) :
    (PyKey.eq sentinels hasher (.float bits) b = true ↔ part bits = .finite (m*one)) ∧
    (b.eq sentinels hasher (.float bits) = true ↔ part bits = .finite (m*one)) := by
  cases b <;> simp only [integer, Option.some.injEq, reduceCtorEq] at hb <;> subst hb <;>
    simp only [PyKey.eq]
  case int v => rw [beq_iff_eq, exactI64_some_iff]; exact ⟨Iff.rfl, Iff.rfl⟩
  case bool b => rw [beq_iff_eq, exactI64_some_iff, boolAsI64_toInt]; exact ⟨Iff.rfl, Iff.rfl⟩
  case bigInt n => rw [bigintFloatEq_iff]; exact ⟨Iff.rfl, Iff.rfl⟩

theorem eq_complex_integer (re im : UInt64) (b : PyKey) (m : ℤ) (hb : integer b = some m) :
    (PyKey.eq sentinels hasher (.complex re im) b = true ↔
      isZero im = true ∧ part re = .finite (m*one)) ∧
    (b.eq sentinels hasher (.complex re im) = true ↔
      isZero im = true ∧ part re = .finite (m*one)) := by
  cases b <;> simp only [integer, Option.some.injEq, reduceCtorEq] at hb <;> subst hb <;>
    simp only [PyKey.eq, realValuedComplexEq, Bool.and_eq_true]
  case int v => rw [beq_iff_eq, exactI64_some_iff]; exact ⟨Iff.rfl, Iff.rfl⟩
  case bool b => rw [beq_iff_eq, exactI64_some_iff, boolAsI64_toInt]; exact ⟨Iff.rfl, Iff.rfl⟩
  case bigInt n => rw [bigintFloatEq_iff]; exact ⟨Iff.rfl, Iff.rfl⟩

theorem eq_complex_float (re im bits : UInt64) :
    (PyKey.eq sentinels hasher (.complex re im) (.float bits) = true ↔
      isZero im = true ∧ isNan re = false ∧ part re = part bits) ∧
    (PyKey.eq sentinels hasher (.float bits) (.complex re im) = true ↔
      isZero im = true ∧ isNan re = false ∧ part re = part bits) := by
  simp [PyKey.eq, realValuedComplexEq, feq_iff]

theorem eq_complex_complex (re im re' im' : UInt64) :
    PyKey.eq sentinels hasher (.complex re im) (.complex re' im') = true ↔
      part re = part re' ∧ part im = part im' := by
  rw [PyKey.eq, Bool.and_eq_true, Bool.or_comm, same_iff, Bool.or_comm, same_iff]

/-- The view of a numeric key that its comparisons use. -/
theorem number_cases (a : PyKey) (x : Number) (h : number a = some x) :
    (∃ n, integer a = some n ∧ x = .real (.finite (n*one))) ∨
    (∃ bits, a = .float bits ∧ x = .real (part bits)) ∨
    (∃ re im, a = .complex re im ∧ isZero im = true ∧ isNan re = false ∧ x = .real (part re)) ∨
    (∃ re im, a = .complex re im ∧ (isZero im = false ∨ isNan re = true) ∧
      x = .complex (part re) (part im)) := by
  cases a with
  | float bits => exact Or.inr (Or.inl ⟨bits, rfl, by simpa [number, eq_comm] using h⟩)
  | complex re im =>
    right
    right
    simp only [number] at h
    by_cases hr : (isZero im && !isNan re) = true
    · rw [if_pos hr] at h
      simp only [Bool.and_eq_true, Bool.not_eq_true'] at hr
      exact Or.inl ⟨re, im, rfl, hr.1, hr.2, (Option.some.inj h).symm⟩
    · rw [if_neg hr] at h
      refine Or.inr ⟨re, im, rfl, ?_, (Option.some.inj h).symm⟩
      cases hz : isZero im
      · exact Or.inl rfl
      · exact Or.inr (by simpa [hz] using hr)
  | int v => exact Or.inl ⟨_, rfl, (Option.some.inj h).symm⟩
  | bool b => exact Or.inl ⟨_, rfl, (Option.some.inj h).symm⟩
  | bigInt n => exact Or.inl ⟨_, rfl, (Option.some.inj h).symm⟩
  | _ => simp [number, integer] at h

theorem finite_not_nan (bits : UInt64) (s : ℤ) (h : part bits = .finite s) : isNan bits = false :=
  (part_finite_kinds bits s h).1

/-- Numeric keys are equal exactly when they are the same number. -/
theorem eq_number_iff (a b : PyKey) (x y : Number) (wa : a.Wf sentinels hasher)
    (wb : b.Wf sentinels hasher) (ha : number a = some x) (hb : number b = some y) :
    a.eq sentinels hasher b = true ↔ x = y := by
  rcases number_cases a x ha with ⟨n, hn, rfl⟩ | ⟨bits, rfl, rfl⟩ | ⟨re, im, rfl, hz, hr, rfl⟩ |
    ⟨re, im, rfl, hc, rfl⟩ <;>
  rcases number_cases b y hb with ⟨m, hm, rfl⟩ | ⟨bits', rfl, rfl⟩ | ⟨re', im', rfl, hz', hr', rfl⟩ |
    ⟨re', im', rfl, hc', rfl⟩ <;> simp only [Number.real.injEq, Number.complex.injEq, reduceCtorEq]
  · rw [eq_integer_iff sentinels hasher a b n m wa wb hn hm, Part.finite.injEq, cancel_one]
  · rw [(eq_float_integer sentinels hasher bits' a n hn).2, eq_comm]
  · rw [(eq_complex_integer sentinels hasher re' im' a n hn).2, eq_comm (a := Part.finite _)]
    simp [hz']
  · rw [(eq_complex_integer sentinels hasher re' im' a n hn).2, iff_false]
    rintro ⟨h1, h2⟩
    rcases hc' with h | h
    · simp [h] at h1
    · simp [finite_not_nan re' _ h2] at h
  · exact (eq_float_integer sentinels hasher bits b m hm).1
  · rw [PyKey.eq, same_iff]
  · rw [(eq_complex_float sentinels hasher re' im' bits).2, eq_comm (a := part bits)]
    simp [hz', hr']
  · rw [(eq_complex_float sentinels hasher re' im' bits).2, iff_false]
    rintro ⟨h1, h2, -⟩
    rcases hc' with h | h <;> simp [h] at h1 h2
  · rw [(eq_complex_integer sentinels hasher re im b m hm).1]
    simp [hz]
  · rw [(eq_complex_float sentinels hasher re im bits').1]
    simp [hz, hr]
  · rw [eq_complex_complex, (isZero_iff im).mp hz, (isZero_iff im').mp hz']
    simp
  · rw [eq_complex_complex, iff_false]
    rintro ⟨h1, h2⟩
    rcases hc' with h | h
    · rw [← isZero_congr im im' h2, hz] at h
      simp at h
    · rw [← nan_congr re re' h1, hr] at h
      simp at h
  · rw [(eq_complex_integer sentinels hasher re im b m hm).1, iff_false]
    rintro ⟨h1, h2⟩
    rcases hc with h | h
    · simp [h] at h1
    · simp [finite_not_nan re _ h2] at h
  · rw [(eq_complex_float sentinels hasher re im bits').1, iff_false]
    rintro ⟨h1, h2, -⟩
    rcases hc with h | h <;> simp [h] at h1 h2
  · rw [eq_complex_complex, iff_false]
    rintro ⟨h1, h2⟩
    rcases hc with h | h
    · rw [isZero_congr im im' h2, hz'] at h
      simp at h
    · rw [nan_congr re re' h1, hr'] at h
      simp at h
  · exact eq_complex_complex sentinels hasher re im re' im'

end equality

end Pyrust.KeyNumbers
