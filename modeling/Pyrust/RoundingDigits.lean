import Mathlib.Algebra.Order.Ring.Abs
import Mathlib.Algebra.Ring.Int.Parity
import Mathlib.Tactic.Linarith
import Mathlib.Tactic.Ring
import Pyrust.FixedWidth

/-!
# Rounding of integers to a power of ten

An integer is rounded to the nearest multiple of a power of ten, a tie to the multiple
with the even quotient. Before the power is computed, its exponent is compared with the
number of decimal digits, which is held in 32 bits.
-/

set_option autoImplicit false

namespace Pyrust.RoundingDigits

open FixedWidth

/-! ## The nearest multiple -/

/-- The multiple of `f` nearest to `x`; of two the one with the even quotient. -/
def Nearest (f x y : ℤ) : Prop :=
  ∃ k, y = k*f ∧ ∀ j, j ≠ k → |x - k*f| < |x - j*f| ∨ |x - k*f| = |x - j*f| ∧ Even k

section nearest
variable {f x y q r : ℤ}

theorem nearest_iff (hf : 0 < f) :
    Nearest f x y ↔ ∃ k, y = k*f ∧ (2*|x - k*f| < f ∨ 2*|x - k*f| = f ∧ Even k) := by
  refine exists_congr fun k => and_congr_right fun _ => ⟨fun h => ?_, fun h j hj => ?_⟩
  · -- the neighbour on the side of `x` bounds the distance
    rcases le_total 0 (x - k*f) with hside | hside
    · have hnext := h (k+1) (by omega)
      rw [add_mul, one_mul, abs_of_nonneg hside] at hnext
      rw [abs_of_nonneg hside]
      rcases le_total 0 (x - (k*f + f)) with hnear | hnear
      · rw [abs_of_nonneg hnear] at hnext
        omega
      · rw [abs_of_nonpos hnear] at hnext
        rcases hnext with hlt | ⟨heq, heven⟩
        · exact .inl (by linarith)
        · exact .inr ⟨by linarith, heven⟩
    · have hnext := h (k-1) (by omega)
      rw [sub_mul, one_mul, abs_of_nonpos hside] at hnext
      rw [abs_of_nonpos hside]
      rcases le_total 0 (x - (k*f - f)) with hnear | hnear
      · rw [abs_of_nonneg hnear] at hnext
        rcases hnext with hlt | ⟨heq, heven⟩
        · exact .inl (by linarith)
        · exact .inr ⟨by linarith, heven⟩
      · rw [abs_of_nonpos hnear] at hnext
        omega
  · have hother : f ≤ |k*f - j*f| := by
      rw [← sub_mul, abs_mul, abs_of_pos hf]
      exact le_mul_of_one_le_left hf.le (Int.one_le_abs (by omega))
    have htriangle : |k*f - j*f| ≤ |x - k*f| + |x - j*f| := by
      rw [abs_sub_comm x (k*f)]
      exact (abs_sub_le (k*f) x (j*f))
    rcases h with hlt | ⟨heq, heven⟩
    · exact .inl (by linarith)
    · rcases lt_or_eq_of_le (show |x - k*f| ≤ |x - j*f| by linarith) with hlt | hsame
      · exact .inl hlt
      · exact .inr ⟨hsame, heven⟩

/-- The multiple that the quotient and the remainder decide on. -/
theorem nearest_of_divmod (hf : 0 < f) {half : ℤ} (hhalf : f = 2*half) (hx : x = q*f + r)
    (hr : 0 ≤ r) (hrf : r < f) :
    Nearest f x (if r < half then q*f else if half < r then q*f + f
      else if Even q then q*f else q*f + f) := by
  rw [nearest_iff hf]
  have hlow : x - q*f = r := by rw [hx]; ring
  have hhigh : x - (q+1)*f = r - f := by rw [hx]; ring
  have hnext : q*f + f = (q+1)*f := by ring
  by_cases hless : r < half
  · rw [if_pos hless]
    exact ⟨q, rfl, .inl (by rw [hlow, abs_of_nonneg hr]; omega)⟩
  · rw [if_neg hless]
    by_cases hmore : half < r
    · rw [if_pos hmore]
      exact ⟨q+1, hnext, .inl (by rw [hhigh, abs_of_neg (by omega)]; omega)⟩
    · rw [if_neg hmore]
      by_cases heven : Even q
      · rw [if_pos heven]
        exact ⟨q, rfl, .inr ⟨by rw [hlow, abs_of_nonneg hr]; omega, heven⟩⟩
      · rw [if_neg heven]
        refine ⟨q+1, hnext, .inr ⟨by rw [hhigh, abs_of_neg (by omega)]; omega, ?_⟩⟩
        exact Int.even_add_one.mpr heven

theorem nearest_zero (hf : 0 < f) : Nearest f x 0 ↔ 2*|x| ≤ f := by
  rw [nearest_iff hf]
  constructor
  · rintro ⟨k, hk, h⟩
    obtain rfl : k = 0 := by
      rcases mul_eq_zero.mp hk.symm with h0 | h0
      · exact h0
      · omega
    rw [zero_mul, sub_zero] at h
    omega
  · intro h
    refine ⟨0, (zero_mul f).symm, ?_⟩
    rw [zero_mul, sub_zero]
    rcases lt_or_eq_of_le h with hlt | heq
    · exact .inl hlt
    · exact .inr ⟨heq, Even.zero⟩

end nearest

/-! ## The function -/

/-- An integer of the interpreter, in the machine type or beyond it. -/
inductive Value where
  | int (v : ℤ)
  | bigint (n : ℤ)
  deriving DecidableEq, Repr

def Value.number : Value → ℤ
  | .int v => v
  | .bigint n => n

/-- The quotient and the remainder that rounds to minus infinity, made from those that round to
zero. -/
def bigintDivmodFloor (a b : ℤ) : ℤ × ℤ :=
  let q := a.tdiv b
  let r := a.tmod b
  if r ≠ 0 ∧ r.sign ≠ b.sign then (q-1, r+b) else (q, r)

/-- The length of the decimal text of the magnitude, `as u32`. -/
def decimalDigits (x : ℤ) : ℕ := (Nat.toDigits 10 x.natAbs).length % 2^32

def roundBigintNegNdigits (x : ℤ) (negN : ℕ) : Value :=
  if decimalDigits x < negN then .int 0
  else
    let factor : ℤ := 10^negN
    let half := factor.tdiv 2
    let (q, r) := bigintDivmodFloor x factor
    let base := q*factor
    let rounded :=
      if r < half then base
      else if half < r then base + factor
      else if q.tmod 2 = 0 then base
      else base + factor
    if Fits 64 rounded then .int rounded else .bigint rounded

section rounding
variable {x : ℤ} {n : ℕ}

theorem bigintDivmodFloor_spec (a : ℤ) {b : ℤ} (hb : 0 < b) :
    bigintDivmodFloor a b = (a / b, a % b) := by
  have hsign : b.sign = 1 := Int.sign_eq_one_of_pos hb
  rw [bigintDivmodFloor, hsign]
  by_cases h : 0 ≤ a ∨ b ∣ a
  · have hmod : a.tmod b = a % b := by rw [Int.tmod_eq_emod, if_pos h, Nat.cast_zero, sub_zero]
    have hdiv : a.tdiv b = a / b := by rw [Int.tdiv_eq_ediv, if_pos h, add_zero]
    have hkeep : ¬(a.tmod b ≠ 0 ∧ (a.tmod b).sign ≠ 1) := by
      rw [hmod]
      rintro ⟨h0, hne⟩
      exact hne (Int.sign_eq_one_of_pos (lt_of_le_of_ne (Int.emod_nonneg a hb.ne') (Ne.symm h0)))
    rw [if_neg hkeep, hmod, hdiv]
  · have hlt := Int.emod_lt_of_pos a hb
    have hmod : a.tmod b = a % b - b := by
      rw [Int.tmod_eq_emod, if_neg h, Int.natAbs_of_nonneg hb.le]
    have hdiv : a.tdiv b = a / b + 1 := by rw [Int.tdiv_eq_ediv, if_neg h, hsign]
    have hneg : a % b - b < 0 := by omega
    have hadjust : a.tmod b ≠ 0 ∧ (a.tmod b).sign ≠ 1 := by
      rw [hmod]
      exact ⟨hneg.ne, by rw [Int.sign_eq_neg_one_of_neg hneg]; decide⟩
    rw [if_pos hadjust, hmod, hdiv, add_sub_cancel_right, sub_add_cancel]

theorem ten_pow_even (hn : 0 < n) : (10 : ℤ)^n = 2*((10 : ℤ)^n).tdiv 2 := by
  obtain ⟨k, rfl⟩ := Nat.exists_eq_succ_of_ne_zero hn.ne'
  rw [pow_succ, show (10 : ℤ)^k*10 = 10^k*5*2 by ring, Int.mul_tdiv_cancel _ two_ne_zero]
  ring

/-- Past the early exit the result is the nearest multiple. -/
theorem round_nearest (hn : 0 < n) (h : n ≤ decimalDigits x) :
    Nearest (10^n) x (roundBigintNegNdigits x n).number := by
  have hf : (0 : ℤ) < 10^n := by positivity
  have heven : ∀ q : ℤ, q.tmod 2 = 0 ↔ Even q := fun q => by
    rw [← Int.dvd_iff_tmod_eq_zero, even_iff_two_dvd]
  have hnumber : ∀ v : ℤ, (if Fits 64 v then Value.int v else Value.bigint v).number = v := by
    intro v
    split <;> rfl
  have hx : x = x / 10^n*10^n + x % 10^n := (Int.ediv_mul_add_emod x (10^n)).symm
  have hspec := nearest_of_divmod hf (ten_pow_even hn) hx (Int.emod_nonneg x hf.ne')
    (Int.emod_lt_of_pos x hf)
  simp only [roundBigintNegNdigits, if_neg (not_lt.mpr h), bigintDivmodFloor_spec x hf, hnumber,
    heven]
  exact hspec

/-- The decimal digits bound the magnitude where their number fits in 32 bits. -/
theorem abs_lt_of_digits (h : (Nat.toDigits 10 x.natAbs).length ≤ n) (hn : 0 < n) :
    |x| < 10^n := by
  have hlt := (Nat.length_toDigits_le_iff (by decide) hn).mp h
  rw [Int.abs_eq_natAbs]
  exact_mod_cast hlt

/-- At the early exit zero has to be the nearest multiple. -/
theorem exit_nearest_iff (h : decimalDigits x < n) :
    Nearest (10^n) x (roundBigintNegNdigits x n).number ↔ 2*|x| ≤ 10^n := by
  have hexit : roundBigintNegNdigits x n = .int 0 := if_pos h
  rw [hexit, Value.number, nearest_zero (by positivity)]

/-- A number whose digits are counted in full is rounded exactly. -/
theorem round_nearest_of_digits (hn : 0 < n) (h : (Nat.toDigits 10 x.natAbs).length < 2^32) :
    Nearest (10^n) x (roundBigintNegNdigits x n).number := by
  have hdigits : decimalDigits x = (Nat.toDigits 10 x.natAbs).length := Nat.mod_eq_of_lt h
  by_cases hle : n ≤ decimalDigits x
  · exact round_nearest hn hle
  rw [exit_nearest_iff (not_le.mp hle)]
  rw [hdigits] at hle
  obtain ⟨k, rfl⟩ := Nat.exists_eq_succ_of_ne_zero hn.ne'
  have hpos : 0 < (Nat.toDigits 10 x.natAbs).length := Nat.length_toDigits_pos
  have habs : |x| < 10^k := abs_lt_of_digits (by omega) (by omega)
  rw [pow_succ]
  linarith [abs_nonneg x]

theorem digits_ten_pow (k : ℕ) : (Nat.toDigits 10 (10^k)).length = k+1 := by
  have hle : (Nat.toDigits 10 (10^k)).length ≤ k+1 :=
    (Nat.length_toDigits_le_iff (by decide) (Nat.succ_pos k)).mpr
      (Nat.pow_lt_pow_right (by decide) (Nat.lt_succ_self k))
  have hpos : 0 < (Nat.toDigits 10 (10^k)).length := Nat.length_toDigits_pos
  by_contra hne
  have hk : 0 < k := by omega
  have hlt := (Nat.length_toDigits_le_iff (b := 10) (n := 10^k) (by decide) hk).mp (by omega)
  exact lt_irrefl _ hlt

/-- A power of ten whose digits are counted as one is rounded to zero. -/
theorem round_ten_pow {k : ℕ} (hk : (k+1) % 2^32 = 1) (hle : 2 ≤ k) :
    ¬Nearest (10^2) (10^k) (roundBigintNegNdigits (10^k) 2).number := by
  have hcast : ((10 : ℤ)^k).natAbs = 10^k := by
    rw [Int.natAbs_pow]
    rfl
  have hpow : (10 : ℤ)^2 ≤ 10^k := pow_le_pow_right₀ (by decide) hle
  have hdigits : decimalDigits (10^k) = 1 := by rw [decimalDigits, hcast, digits_ten_pow, hk]
  rw [exit_nearest_iff (by rw [hdigits]; decide), abs_of_nonneg (by positivity)]
  norm_num at hpow ⊢
  omega

/-- The result is the nearest multiple exactly when the exponent is within the digits, as far as
they are counted, or zero is that multiple. -/
theorem round_nearest_iff (x : ℤ) {n : ℕ} (hn : 0 < n) :
    Nearest (10^n) x (roundBigintNegNdigits x n).number ↔
      n ≤ decimalDigits x ∨ 2*|x| ≤ 10^n := by
  by_cases h : n ≤ decimalDigits x
  · exact iff_of_true (round_nearest hn h) (.inl h)
  · rw [exit_nearest_iff (not_le.mp h)]
    exact ⟨.inr, fun hor => hor.resolve_left h⟩

theorem round_nearest_tie : Nearest (10^2) (-250) (roundBigintNegNdigits (-250) 2).number :=
  (round_nearest_iff (-250) (by decide)).mpr (.inl (by decide))

/-- `round(10**4294967296, -2)` is zero. -/
theorem round_loses_number :
    ¬Nearest (10^2) (10^(2^32)) (roundBigintNegNdigits (10^(2^32)) 2).number :=
  round_ten_pow (by decide) (by decide)

end rounding

end Pyrust.RoundingDigits
