import Mathlib.Algebra.Order.Ring.Int
import Mathlib.Tactic.Ring

/-!
# Binary64 bit patterns

A double is its bit pattern. The value of a finite one is an integer number
of the smallest subnormal, so comparisons, truncation and the test for an
integral value are integer arithmetic. Two patterns have the same value only
if they are the same pattern or both zero.
-/

set_option autoImplicit false

namespace Pyrust.Binary64

def negative (bits : UInt64) : Bool := 2^63 ≤ bits.toNat

def biasedExponent (bits : UInt64) : ℕ := bits.toNat/2^52%2^11

def fraction (bits : UInt64) : ℕ := bits.toNat%2^52

def isFinite (bits : UInt64) : Bool := biasedExponent bits != 2047

def isNan (bits : UInt64) : Bool := biasedExponent bits == 2047 && fraction bits != 0

def isInfinite (bits : UInt64) : Bool := biasedExponent bits == 2047 && fraction bits == 0

def significand (bits : UInt64) : ℕ :=
  if biasedExponent bits = 0 then fraction bits else fraction bits+2^52

/-- Binary exponent over the smallest subnormal; zero for both lowest ranges. -/
def unitExponent (bits : UInt64) : ℕ := biasedExponent bits-1

def magnitude (bits : UInt64) : ℕ := significand bits*2^unitExponent bits

/-- The value of a finite pattern in units of the smallest subnormal. -/
def scaled (bits : UInt64) : ℤ :=
  if negative bits then -(magnitude bits : ℤ) else magnitude bits

/-- The number of units in one. -/
@[irreducible] def one : ℤ := 2^1074

/-- The IEEE comparison `==`. -/
def feq (a b : UInt64) : Bool :=
  !isNan a && !isNan b &&
    (if isFinite a && isFinite b then scaled a == scaled b else a == b)

def isZero (bits : UInt64) : Bool := isFinite bits && scaled bits == 0

/-- No fractional part. -/
def isIntegral (bits : UInt64) : Bool := isFinite bits && scaled bits%one == 0

def trunc (bits : UInt64) : ℤ := (scaled bits).tdiv one

inductive Part where
  | nan (bits : UInt64)
  | infinite (negative : Bool)
  | finite (scaled : ℤ)
  deriving DecidableEq

def part (bits : UInt64) : Part :=
  if isNan bits then .nan bits
  else if isInfinite bits then .infinite (negative bits)
  else .finite (scaled bits)

theorem one_pos : 0 < one := by
  rw [one]
  exact Int.pow_pos (by decide)

theorem toNat_fields (bits : UInt64) :
    bits.toNat = (if negative bits then 2^63 else 0)+biasedExponent bits*2^52+fraction bits := by
  have hlt := bits.toNat_lt
  simp only [negative, biasedExponent, fraction, decide_eq_true_eq]
  split <;> omega

theorem eq_of_fields (a b : UInt64) (hn : negative a = negative b)
    (he : biasedExponent a = biasedExponent b) (hf : fraction a = fraction b) : a = b := by
  apply UInt64.toNat_inj.mp
  rw [toNat_fields a, toNat_fields b, hn, he, hf]

theorem fraction_lt (bits : UInt64) : fraction bits < 2^52 := Nat.mod_lt _ (by decide)

theorem significand_lt (bits : UInt64) : significand bits < 2^53 := by
  have := fraction_lt bits
  simp only [significand]
  split <;> omega

theorem significand_normal (bits : UInt64) (h : unitExponent bits ≠ 0) :
    2^52 ≤ significand bits := by
  simp only [unitExponent, significand] at *
  split <;> omega

/-- A larger exponent would need a larger significand than there is. -/
theorem unitExponent_le (a b : UInt64) (h : magnitude a = magnitude b) :
    unitExponent b ≤ unitExponent a := by
  by_contra hlt
  have hb := significand_normal b (by omega)
  have ha := significand_lt a
  obtain ⟨d, hd⟩ : ∃ d, unitExponent b = unitExponent a+(d+1) :=
    ⟨unitExponent b-unitExponent a-1, by omega⟩
  have hpos : 0 < 2^unitExponent a := Nat.two_pow_pos _
  have hmul : significand a*2^unitExponent a = significand b*2^(d+1)*2^unitExponent a := by
    rw [magnitude, magnitude, hd, Nat.pow_add] at h
    rw [h]
    ring
  have hsig := Nat.eq_of_mul_eq_mul_right hpos hmul
  have htwo : 2 ≤ 2^(d+1) := by
    rw [Nat.pow_succ]
    have := Nat.two_pow_pos d
    omega
  have := Nat.mul_le_mul hb htwo
  omega

theorem fields_of_magnitude (a b : UInt64) (h : magnitude a = magnitude b) :
    biasedExponent a = biasedExponent b ∧ fraction a = fraction b := by
  have hexp : unitExponent a = unitExponent b :=
    Nat.le_antisymm (unitExponent_le b a h.symm) (unitExponent_le a b h)
  have hsig : significand a = significand b := by
    rw [magnitude, magnitude, hexp] at h
    exact Nat.eq_of_mul_eq_mul_right (Nat.two_pow_pos _) h
  have ha := fraction_lt a
  have hb := fraction_lt b
  simp only [significand, unitExponent] at hsig hexp
  by_cases h1 : biasedExponent a = 0 <;> by_cases h2 : biasedExponent b = 0 <;>
    simp only [h1, h2, if_true, if_false] at hsig <;> omega

/-- Apart from the two zeros a value has one pattern. -/
theorem scaled_injective (a b : UInt64) (h : scaled a = scaled b) (h0 : scaled a ≠ 0) : a = b := by
  have hmag : magnitude a = magnitude b ∧ negative a = negative b := by
    simp only [scaled] at h h0
    cases ha : negative a <;> cases hb : negative b <;> simp [ha, hb] at h h0 ⊢ <;> omega
  obtain ⟨he, hf⟩ := fields_of_magnitude a b hmag.1
  exact eq_of_fields a b hmag.2 he hf

theorem kinds (bits : UInt64) :
    (isNan bits = true ∧ isInfinite bits = false ∧ isFinite bits = false) ∨
    (isNan bits = false ∧ isInfinite bits = true ∧ isFinite bits = false) ∨
    (isNan bits = false ∧ isInfinite bits = false ∧ isFinite bits = true) := by
  simp only [isNan, isInfinite, isFinite]
  by_cases he : biasedExponent bits = 2047 <;> by_cases hf : fraction bits = 0 <;> simp [he, hf]

theorem part_eq_finite_iff (bits : UInt64) (s : ℤ) :
    part bits = .finite s ↔ isFinite bits = true ∧ scaled bits = s := by
  rcases kinds bits with hk | hk | hk <;> simp [part, hk]

theorem infinite_injective (a b : UInt64) (ha : isInfinite a = true) (hb : isInfinite b = true)
    (hn : negative a = negative b) : a = b := by
  simp only [isInfinite, Bool.and_eq_true, beq_iff_eq] at ha hb
  apply eq_of_fields a b hn
  · rw [ha.1, hb.1]
  · rw [ha.2, hb.2]

/-- Same part: the same pattern, or two zeros. -/
theorem eq_of_part (a b : UInt64) (h : part a = part b) :
    a = b ∨ (part a = .finite 0 ∧ part b = .finite 0) := by
  rcases kinds a with ha | ha | ha <;> rcases kinds b with hb | hb | hb <;>
    simp [part, ha, hb] at h ⊢
  · exact h
  · exact infinite_injective a b ha.2.1 hb.2.1 h
  · by_cases h0 : scaled a = 0
    · exact Or.inr ⟨h0, h ▸ h0⟩
    · exact Or.inl (scaled_injective a b h h0)

theorem feq_iff (a b : UInt64) : feq a b = true ↔ isNan a = false ∧ part a = part b := by
  rcases kinds a with ha | ha | ha <;> rcases kinds b with hb | hb | hb <;>
    simp [feq, part, ha, hb]
  · constructor
    · rintro rfl
      rfl
    · exact infinite_injective a b ha.2.1 hb.2.1
  · rintro rfl
    simp [ha] at hb
  · rintro rfl
    simp [ha] at hb

/-- Equal as values or the same pattern: the comparison with its NaN clause. -/
theorem same_iff (a b : UInt64) : (a == b || feq a b) = true ↔ part a = part b := by
  rw [Bool.or_eq_true, beq_iff_eq, feq_iff]
  constructor
  · rintro (rfl | h)
    · rfl
    · exact h.2
  · intro h
    rcases eq_of_part a b h with rfl | ⟨ha, -⟩
    · exact Or.inl rfl
    · refine Or.inr ⟨?_, h⟩
      rcases kinds a with hk | hk | hk <;> simp [part, hk] at ha ⊢

theorem isZero_iff (bits : UInt64) : isZero bits = true ↔ part bits = .finite 0 := by
  rw [part_eq_finite_iff, isZero, Bool.and_eq_true, beq_iff_eq]

theorem isIntegral_iff (bits : UInt64) :
    isIntegral bits = true ↔ ∃ n, part bits = .finite (n*one) := by
  rw [isIntegral, Bool.and_eq_true, beq_iff_eq]
  constructor
  · rintro ⟨hf, hm⟩
    refine ⟨scaled bits/one, ?_⟩
    rw [part_eq_finite_iff]
    exact ⟨hf, (Int.ediv_mul_cancel (Int.dvd_of_emod_eq_zero hm)).symm⟩
  · rintro ⟨n, hn⟩
    rw [part_eq_finite_iff] at hn
    exact ⟨hn.1, by rw [hn.2]; exact Int.mul_emod_left _ _⟩

theorem trunc_eq (bits : UInt64) (n : ℤ) (h : part bits = .finite (n*one)) : trunc bits = n := by
  rw [part_eq_finite_iff] at h
  rw [trunc, h.2]
  exact Int.mul_tdiv_cancel n (ne_of_gt one_pos)

end Pyrust.Binary64
