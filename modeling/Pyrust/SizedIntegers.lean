import Mathlib.Algebra.Order.Ring.Abs
import Mathlib.Algebra.Order.Ring.Int
import Mathlib.Tactic.Linarith
import Pyrust.FixedWidth

/-!
# Integers with and without a size

One computation can be done on the integers of a signed type, where a result outside the
type stops it, and on integers of any size. Numbers up to a bound stay in the type, and
there the two do the same.
-/

set_option autoImplicit false

namespace Pyrust.SizedIntegers

open FixedWidth

section operations
variable (width : Option ℕ)

/-- An operation in the signed type of the width; integers of any size have none. -/
def arith (v : ℤ) : Except Stop ℤ :=
  match width with
  | some w => native w v
  | none => .ok v

/-- A quotient rounds to zero, and a divisor of zero is a panic. -/
def quotient (a b : ℤ) : Except Stop ℤ :=
  if b = 0 then .error .overflow else arith width (a.tdiv b)

/-- A remainder panics where its quotient does. -/
def remainder (a b : ℤ) : Except Stop ℤ := do
  let _ ← quotient width a b
  pure (a.tmod b)

end operations

/-- Numbers of at most this size are in the type. -/
def Holds (width : Option ℕ) (bound : ℤ) : Prop := ∀ v, |v| ≤ bound → arith width v = .ok v

section bounds
variable {width : Option ℕ} {bound : ℤ}

theorem arith_eq {v y : ℤ} (h : arith width v = .ok y) : y = v := by
  cases width with
  | none => exact (Except.ok.inj h).symm
  | some w =>
    rw [arith, native] at h
    by_cases hf : Fits w v
    · rw [if_pos hf] at h
      exact (Except.ok.inj h).symm
    · rw [if_neg hf] at h
      cases h

theorem holds_none (bound : ℤ) : Holds none bound := fun _ _ => rfl

theorem holds_128 : Holds (some 128) (2^126) := by
  intro v hv
  obtain ⟨hlo, hhi⟩ := abs_le.mp hv
  exact native_ok ⟨by norm_num at hlo ⊢; linarith, by norm_num at hhi ⊢; linarith⟩

theorem Holds.mono {a b : ℤ} (h : Holds width b) (hab : a ≤ b) : Holds width a :=
  fun v hv => h v (le_trans hv hab)

theorem abs_tdiv_le (a b : ℤ) : |a.tdiv b| ≤ |a| := by
  rw [Int.abs_eq_natAbs, Int.abs_eq_natAbs, Int.natAbs_tdiv]
  exact_mod_cast Nat.div_le_self _ _

theorem quotient_eq (h : Holds width bound) {a b : ℤ} (hb : b ≠ 0) (ha : |a| ≤ bound) :
    quotient width a b = .ok (a.tdiv b) := by
  rw [quotient, if_neg hb]
  exact h _ ((abs_tdiv_le a b).trans ha)

theorem remainder_eq (h : Holds width bound) {a b : ℤ} (hb : b ≠ 0) (ha : |a| ≤ bound) :
    remainder width a b = .ok (a.tmod b) := by
  rw [remainder, quotient_eq h hb ha]
  rfl

end bounds

end Pyrust.SizedIntegers
