import Mathlib.Algebra.Order.Ring.Abs
import Mathlib.Algebra.Order.Ring.Int
import Mathlib.Data.Int.ModEq
import Mathlib.Tactic.Linarith
import Mathlib.Tactic.Ring

/-!
# The extended Euclidean algorithm with one coefficient

Two remainders and their coefficients are kept. The signs of the coefficients alternate,
so the sum of the two cross products of sizes is the modulus in every round. That bounds
every number that a round computes by the modulus.
-/

set_option autoImplicit false

namespace Pyrust.ExtendedEuclid

structure Row where
  oldR : ℤ
  r : ℤ
  oldS : ℤ
  s : ℤ

/-- The row before the first round. -/
def Row.start (v m : ℤ) : Row := ⟨v, m, 1, 0⟩

def Row.next (x : Row) : Row :=
  ⟨x.r, x.oldR - x.oldR/x.r*x.r, x.s, x.oldS - x.oldR/x.r*x.s⟩

structure Invariant (v m : ℤ) (x : Row) : Prop where
  oldR_nonneg : 0 ≤ x.oldR
  r_nonneg : 0 ≤ x.r
  oldR_le : x.oldR ≤ m
  r_le : x.r ≤ m
  gcd_eq : Int.gcd x.oldR x.r = Int.gcd v m
  oldS_modEq : x.oldS*v ≡ x.oldR [ZMOD m]
  s_modEq : x.s*v ≡ x.r [ZMOD m]
  oldS_le : |x.oldS| ≤ m
  s_le : |x.s| ≤ m
  signs : x.oldS*x.s ≤ 0
  cross : |x.s| * x.oldR + |x.oldS| * x.r = m

variable {v m : ℤ} {x : Row}

theorem start_invariant (hv : 0 ≤ v) (hlt : v < m) : Invariant v m (Row.start v m) where
  oldR_nonneg := hv
  r_nonneg := by simp only [Row.start]; omega
  oldR_le := le_of_lt hlt
  r_le := le_refl m
  gcd_eq := rfl
  oldS_modEq := by simp [Row.start]
  s_modEq := by simp [Row.start, Int.ModEq]
  oldS_le := by simp only [Row.start, abs_one]; omega
  s_le := by simp only [Row.start, abs_zero]; omega
  signs := by simp [Row.start]
  cross := by simp [Row.start]

theorem next_r (x : Row) : x.next.r = x.oldR % x.r := by
  rw [Row.next, mul_comm, ← Int.emod_def]

theorem next_s (x : Row) : x.next.s = x.oldS - x.oldR/x.r*x.s := rfl

/-- Coefficients of opposite signs add up their sizes. -/
theorem abs_next_s (hsigns : x.oldS*x.s ≤ 0) (hq : 0 ≤ x.oldR/x.r) :
    |x.next.s| = |x.oldS| + x.oldR/x.r*|x.s| := by
  have hmul : x.oldR/x.r*|x.s| = |x.oldR/x.r*x.s| := by rw [abs_mul, abs_of_nonneg hq]
  have hopposite : x.oldS*(x.oldR/x.r*x.s) ≤ 0 := by nlinarith
  rw [hmul, next_s]
  rcases le_total 0 x.oldS with h | h
  · rcases eq_or_lt_of_le h with h0 | hpos
    · simp [← h0]
    · have hle : x.oldR/x.r*x.s ≤ 0 := by nlinarith
      rw [abs_of_nonneg h, abs_of_nonpos hle, abs_of_nonneg (by linarith)]
      ring
  · rcases eq_or_lt_of_le h with h0 | hneg
    · simp [h0]
    · have hge : 0 ≤ x.oldR/x.r*x.s := by nlinarith
      rw [abs_of_nonpos h, abs_of_nonneg hge, abs_of_nonpos (by linarith)]
      ring

theorem Invariant.quotient_nonneg (h : Invariant v m x) : 0 ≤ x.oldR/x.r :=
  Int.ediv_nonneg h.oldR_nonneg h.r_nonneg

theorem Invariant.r_pos (h : Invariant v m x) (hr : x.r ≠ 0) : 0 < x.r :=
  lt_of_le_of_ne h.r_nonneg hr.symm

theorem Invariant.cross_next (h : Invariant v m x) :
    |x.next.s| * x.next.oldR + |x.next.oldS| * x.next.r = m := by
  have hcross := h.cross
  rw [abs_next_s h.signs h.quotient_nonneg]
  simp only [Row.next]
  linarith [mul_comm (x.oldR/x.r*|x.s|) x.r]

/-- The new coefficient is bounded, since the remainder before it is not zero. -/
theorem Invariant.abs_next_s_le (h : Invariant v m x) (hr : x.r ≠ 0) : |x.next.s| ≤ m := by
  have hcross := h.cross_next
  have hnext : 0 ≤ x.next.r := by
    rw [next_r]
    exact Int.emod_nonneg _ hr
  have hrest : 0 ≤ |x.next.oldS| * x.next.r := mul_nonneg (abs_nonneg _) hnext
  have hone : |x.next.s| * 1 ≤ |x.next.s| * x.next.oldR :=
    mul_le_mul_of_nonneg_left (h.r_pos hr) (abs_nonneg _)
  linarith

theorem Invariant.next (h : Invariant v m x) (hr : x.r ≠ 0) : Invariant v m x.next where
  oldR_nonneg := h.r_nonneg
  r_nonneg := by
    rw [next_r]
    exact Int.emod_nonneg _ hr
  oldR_le := h.r_le
  r_le := by
    have hlt := Int.emod_lt_of_pos x.oldR (lt_of_le_of_ne h.r_nonneg hr.symm)
    rw [next_r]
    exact le_trans hlt.le h.r_le
  gcd_eq := by
    rw [← h.gcd_eq, next_r, Row.next, Int.gcd_comm x.r, Int.gcd_emod]
  oldS_modEq := h.s_modEq
  s_modEq := by
    have hsub := h.oldS_modEq.sub (h.s_modEq.mul_left (x.oldR/x.r))
    have hdist : x.next.s*v = x.oldS*v - x.oldR/x.r*(x.s*v) := by
      rw [Row.next]
      ring
    rw [hdist]
    exact hsub
  signs := by
    have hs := h.signs
    have hq := h.quotient_nonneg
    have hsquare : 0 ≤ x.oldR/x.r*(x.s*x.s) := mul_nonneg hq (mul_self_nonneg _)
    calc x.next.oldS*x.next.s = x.oldS*x.s - x.oldR/x.r*(x.s*x.s) := by
          rw [Row.next]
          ring
      _ ≤ 0 := by linarith
  oldS_le := h.s_le
  s_le := h.abs_next_s_le hr
  cross := h.cross_next

/-- A round that goes on makes the remainder smaller. -/
theorem next_r_lt (hr : x.r ≠ 0) : (x.next.r).natAbs < x.r.natAbs := by
  rw [next_r]
  have h := Int.emod_nonneg x.oldR hr
  have hlt := Int.emod_lt x.oldR hr
  omega

section sizes

theorem Invariant.product_mem (h : Invariant v m x) (hr : x.r ≠ 0) :
    0 ≤ x.oldR/x.r*x.r ∧ x.oldR/x.r*x.r ≤ m := by
  refine ⟨mul_nonneg h.quotient_nonneg h.r_nonneg, ?_⟩
  exact le_trans (Int.ediv_mul_le _ hr) h.oldR_le

theorem Invariant.abs_product_le (h : Invariant v m x) (hr : x.r ≠ 0) :
    |x.oldR/x.r*x.s| ≤ m := by
  have hle := h.abs_next_s_le hr
  rw [abs_next_s h.signs h.quotient_nonneg] at hle
  rw [abs_mul, abs_of_nonneg h.quotient_nonneg]
  linarith [abs_nonneg x.oldS]

end sizes

/-- At the end the remainder is the greatest common divisor, and its coefficient an inverse
when that is one. -/
theorem Invariant.finish (h : Invariant v m x) (hr : x.r = 0) :
    x.oldR = Int.gcd v m ∧ x.oldS*v ≡ Int.gcd v m [ZMOD m] := by
  have hgcd : (Int.gcd v m : ℤ) = x.oldR := by
    rw [← h.gcd_eq, hr, Int.gcd_zero_right]
    exact Int.natAbs_of_nonneg h.oldR_nonneg
  refine ⟨hgcd.symm, ?_⟩
  rw [hgcd]
  exact h.oldS_modEq

end Pyrust.ExtendedEuclid
