import Pyrust.IntegerLayout

/-!
# The decimal digit limit

An integer whose text would be longer than the limit is refused. A bound on the
digits by the bits spares most conversions: `30103/100000` lies just above the
logarithm of two, so the bound is never below the digits.
-/

set_option autoImplicit false

namespace Pyrust.DigitLimits

/-! ## Bits and digits -/

/-- Powers compare as their exponents do when one base is below a rational power of the
other. -/
theorem pow_le_pow_of_ratio {a b p q m n : ℕ} (hq : q ≠ 0) (hb : 0 < b) (hbase : a^q ≤ b^p)
    (hexp : p*m ≤ q*n) : a^m ≤ b^n := by
  rw [← Nat.pow_le_pow_iff_left hq]
  calc (a^m)^q = (a^q)^m := by rw [← pow_mul, ← pow_mul, Nat.mul_comm]
    _ ≤ (b^p)^m := Nat.pow_le_pow_left hbase m
    _ = b^(p*m) := (pow_mul b p m).symm
    _ ≤ b^(q*n) := Nat.pow_le_pow_right hb hexp
    _ = (b^n)^q := by rw [Nat.mul_comm, pow_mul]

/-- `4004/13301` is a convergent of the logarithm of two, between it and `30103/100000`. -/
theorem two_pow_convergent : 2^13301 ≤ 10^4004 := by decide +kernel

/-- The bound on the digits of a magnitude of that many bits. -/
def digitBound (bits : ℕ) : ℕ := min (bits*30103) (2^64-1)/100000+1

theorem digitBound_of_fits {bits : ℕ} (h : bits*30103 < 2^64) :
    digitBound bits = bits*30103/100000+1 := by
  rw [digitBound, Nat.min_eq_left (Nat.le_sub_one_of_lt h)]

theorem two_pow_le_digitBound {bits : ℕ} (h : bits*30103 < 2^64) :
    2^bits ≤ 10^digitBound bits := by
  refine pow_le_pow_of_ratio (by decide) (by decide) two_pow_convergent ?_
  rw [digitBound_of_fits h]
  omega

/-- The text of a magnitude is no longer than the bound. -/
theorem length_toDigits_le_digitBound {n : ℕ} (h : n.size*30103 < 2^64) :
    (Nat.toDigits 10 n).length ≤ digitBound n.size := by
  have hpos : 0 < digitBound n.size := Nat.succ_pos _
  rw [Nat.length_toDigits_le_iff (by decide) hpos]
  exact n.lt_size_self.trans_le (two_pow_le_digitBound h)

/-! ## One integer -/

/-- `BigInt::to_string`. -/
def bigintText (b : ℤ) : List Char :=
  if b < 0 then '-'::Nat.toDigits 10 b.natAbs else Nat.toDigits 10 b.natAbs

/-- `strip_prefix('-').unwrap_or`. -/
def stripMinus : List Char → List Char
  | '-'::s => s
  | s => s

def bigintExceedsDigitLimit (b : ℤ) (limit : ℕ) : Bool :=
  let upper := digitBound b.natAbs.size
  if upper ≤ limit then false
  else decide (limit < (stripMinus (bigintText b)).length)

theorem stripMinus_digits (n : ℕ) : stripMinus (Nat.toDigits 10 n) = Nat.toDigits 10 n := by
  unfold stripMinus
  split
  · next s heq =>
    have hdigit : '-'.isDigit :=
      Nat.isDigit_of_mem_toDigits (b := 10) (n := n) (by decide) (by decide)
        (heq ▸ List.mem_cons_self)
    exact absurd hdigit (by decide)
  · rfl

/-- Without its sign, the text of an integer is that of its magnitude. -/
theorem stripMinus_bigintText (b : ℤ) : stripMinus (bigintText b) = Nat.toDigits 10 b.natAbs := by
  unfold bigintText
  split
  · rfl
  · exact stripMinus_digits _

/-- The check that the formatter makes is this one, with zero for no limit. -/
theorem formatter_exceeds (limit : ℕ) (b : ℤ) :
    IntegerLayout.bigintStrDigitsExceedLimit limit b =
      if limit = 0 then false else bigintExceedsDigitLimit b limit := by
  rw [bigintExceedsDigitLimit, stripMinus_bigintText]
  rfl

theorem digit_limit_exact (b : ℤ) (h : b.natAbs.size*30103 < 2^64) :
    (∀ limit, bigintExceedsDigitLimit b limit = true ↔
      limit < (Nat.toDigits 10 b.natAbs).length) ∧
    (Nat.toDigits 10 b.natAbs).length ≤ b.natAbs.size*30103/100000+1 := by
  have hbound := length_toDigits_le_digitBound h
  refine ⟨fun limit => ?_, digitBound_of_fits h ▸ hbound⟩
  rw [bigintExceedsDigitLimit, stripMinus_bigintText]
  split
  · next hle =>
    have hwithin := hbound.trans hle
    simp [Nat.not_lt.mpr hwithin]
  · exact decide_eq_true_iff

/-- The smallest integers of two and of three digits. -/
theorem digit_limit_exact_hundred :
    bigintExceedsDigitLimit (-99) 2 = false ∧ bigintExceedsDigitLimit (-100) 2 = true := by
  have hbelow := (digit_limit_exact (-99) (by decide)).1 2
  have habove := (digit_limit_exact (-100) (by decide)).1 2
  exact ⟨Bool.eq_false_iff.mpr fun hexceeds => absurd (hbelow.mp hexceeds) (by decide),
    habove.mpr (by decide)⟩

end Pyrust.DigitLimits
