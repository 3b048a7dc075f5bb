import Mathlib.Data.Int.Notation
import Mathlib.Data.Nat.Notation
import Mathlib.Algebra.Order.Ring.Int
import Mathlib.Tactic.Ring
import Mathlib.Tactic.Linarith

/-!
# Integers as bytes, least significant first

The lowest bytes of an integer are its digits in base 256, floored division
taking them off one by one. A byte list has an unsigned value, and a signed value
in which the highest bit counts negatively. Each range of integers is mapped one
to one to the byte lists of a length.
-/

set_option autoImplicit false

namespace Pyrust.TwosComplement

/-- The lowest `k` bytes. -/
def intBytes : ℕ → ℤ → List ℕ
  | 0, _ => []
  | k+1, n => (n % 256).toNat::intBytes k (n/256)

def unsignedValue : List ℕ → ℤ
  | [] => 0
  | b::bs => b+256*unsignedValue bs

def signedValue (bs : List ℕ) : ℤ :=
  if 256^bs.length ≤ 2*unsignedValue bs then unsignedValue bs-256^bs.length else unsignedValue bs

/-- The integers with an unsigned, and with a signed, representation in `k` bytes. -/
def Fits (signed : Bool) (k : ℕ) (n : ℤ) : Prop :=
  if signed then
    if k = 0 then n = 0 else -(256^k/2) ≤ n ∧ n < 256^k/2
  else 0 ≤ n ∧ n < 256^k

instance (signed : Bool) (k : ℕ) (n : ℤ) : Decidable (Fits signed k n) := by
  unfold Fits
  infer_instance

section digits
variable {k j : ℕ} {n : ℤ} {bs : List ℕ}

theorem intBytes_nil (n : ℤ) : intBytes 0 n = [] := rfl

theorem intBytes_succ (k : ℕ) (n : ℤ) :
    intBytes (k+1) n = (n % 256).toNat::intBytes k (n/256) := rfl

@[simp] theorem length_intBytes (k : ℕ) (n : ℤ) : (intBytes k n).length = k := by
  induction k generalizing n with
  | zero => rfl
  | succ k ih => rw [intBytes_succ, List.length_cons, ih]

theorem intBytes_lt : ∀ b ∈ intBytes k n, b < 256 := by
  induction k generalizing n with
  | zero => simp [intBytes_nil]
  | succ k ih =>
    intro b hb
    rcases List.mem_cons.mp hb with rfl | hb
    · omega
    · exact ih b hb

/-- The value of the lowest bytes is the remainder. -/
theorem exists_unsignedValue_intBytes (k : ℕ) (n : ℤ) :
    ∃ q, n = unsignedValue (intBytes k n)+q*256^k := by
  induction k generalizing n with
  | zero => exact ⟨n, by simp [intBytes_nil, unsignedValue]⟩
  | succ k ih =>
    obtain ⟨q, hq⟩ := ih (n/256)
    refine ⟨q, ?_⟩
    have hmod : ((n % 256).toNat : ℤ) = n % 256 := Int.toNat_of_nonneg (by omega)
    have hdiv := Int.emod_add_mul_ediv n 256
    rw [intBytes_succ, unsignedValue, hmod, pow_succ]
    linarith

theorem unsignedValue_nonneg : 0 ≤ unsignedValue bs := by
  induction bs with
  | nil => exact Int.le_refl 0
  | cons b bs ih => rw [unsignedValue]; omega

theorem unsignedValue_lt (h : ∀ b ∈ bs, b < 256) : unsignedValue bs < 256^bs.length := by
  induction bs with
  | nil => decide
  | cons b bs ih =>
    have hb := h b List.mem_cons_self
    have hrest := ih fun c hc => h c (List.mem_cons_of_mem b hc)
    rw [unsignedValue, List.length_cons, pow_succ]
    omega

/-- Bytes are the lowest bytes of their value, and of any integer that differs from it in higher
bytes only. -/
theorem intBytes_unsignedValue (h : ∀ b ∈ bs, b < 256) (q : ℤ) :
    intBytes bs.length (unsignedValue bs+q*256^bs.length) = bs := by
  induction bs generalizing q with
  | nil => rfl
  | cons b bs ih =>
    have hb := h b List.mem_cons_self
    have hsum : unsignedValue (b::bs)+q*256^(b::bs).length =
        b+256*(unsignedValue bs+q*256^bs.length) := by
      rw [unsignedValue, List.length_cons, pow_succ]
      ring
    have hmod : (b+256*(unsignedValue bs+q*256^bs.length)) % 256 = b := by omega
    have hdiv : (b+256*(unsignedValue bs+q*256^bs.length))/256 =
        unsignedValue bs+q*256^bs.length := by omega
    rw [hsum, List.length_cons, intBytes_succ, hmod, hdiv,
      ih fun c hc => h c (List.mem_cons_of_mem b hc)]
    rfl

/-- Higher bytes have no say in the lowest ones. -/
theorem intBytes_add_mul (k : ℕ) (n q : ℤ) : intBytes k (n+q*256^k) = intBytes k n := by
  obtain ⟨q', hq⟩ := exists_unsignedValue_intBytes k n
  have hbytes := intBytes_unsignedValue (@intBytes_lt k n) (q'+q)
  rw [length_intBytes, Int.add_mul, ← Int.add_assoc, ← hq] at hbytes
  exact hbytes

theorem intBytes_add (k j : ℕ) (n : ℤ) :
    intBytes (k+j) n = intBytes k n ++ intBytes j (n/256^k) := by
  induction k generalizing n with
  | zero => simp [intBytes_nil]
  | succ k ih =>
    have hdiv : n/256/256^k = n/256^(k+1) := by
      rw [Int.ediv_ediv_of_nonneg (by decide), pow_succ, Int.mul_comm]
    rw [Nat.succ_add, intBytes_succ, ih, hdiv, intBytes_succ, List.cons_append]

theorem take_intBytes (h : j ≤ k) : (intBytes k n).take j = intBytes j n := by
  obtain ⟨d, rfl⟩ := Nat.exists_eq_add_of_le h
  rw [intBytes_add, List.take_append_of_le_length (by simp), List.take_of_length_le (by simp)]

theorem intBytes_zero : intBytes k 0 = List.replicate k 0 := by
  induction k with
  | zero => rfl
  | succ k ih => rw [intBytes_succ, List.replicate_succ, Int.zero_ediv, ih]; rfl

theorem intBytes_neg_one : intBytes k (-1) = List.replicate k 255 := by
  induction k with
  | zero => rfl
  | succ k ih => rw [intBytes_succ, List.replicate_succ, show (-1 : ℤ)/256 = -1 by decide, ih]; rfl

theorem pow_pos_256 (k : ℕ) : (0 : ℤ) < 256^k := pow_pos (by decide) k

/-- The bytes above those of an integer that fits are all zero or all ones. -/
theorem intBytes_extend (hlo : -256^k ≤ n) (hhi : n < 256^k) (j : ℕ) :
    intBytes (k+j) n = intBytes k n ++ List.replicate j (if n < 0 then 255 else 0) := by
  rw [intBytes_add]
  by_cases hneg : n < 0
  · have hdiv : n/256^k = -1 := by
      rw [Int.ediv_eq_iff_of_pos (pow_pos_256 k)]
      constructor <;> linarith
    rw [hdiv, intBytes_neg_one, if_pos hneg]
  · rw [Int.ediv_eq_zero_of_lt (by omega) hhi, intBytes_zero, if_neg hneg]

end digits

/-! ## Values -/

section values
variable {k : ℕ} {n : ℤ} {bs : List ℕ}

theorem unsignedValue_intBytes (h : Fits false k n) : unsignedValue (intBytes k n) = n := by
  obtain ⟨hlo, hhi⟩ : 0 ≤ n ∧ n < 256^k := by simpa [Fits] using h
  obtain ⟨q, hq⟩ := exists_unsignedValue_intBytes k n
  have hv0 := @unsignedValue_nonneg (intBytes k n)
  have hv1 := unsignedValue_lt (@intBytes_lt k n)
  rw [length_intBytes] at hv1
  have hpos := pow_pos_256 k
  have hq0 : q = 0 := by
    rcases Int.lt_trichotomy q 0 with hlt | heq | hgt
    · nlinarith
    · exact heq
    · nlinarith
  rw [hq0, Int.zero_mul, Int.add_zero] at hq
  exact hq.symm

/-- Half the number of byte lists. -/
theorem two_mul_half (hk : k ≠ 0) : 2*((256 : ℤ)^k/2) = 256^k := by
  obtain ⟨k, rfl⟩ := Nat.exists_eq_succ_of_ne_zero hk
  have heven : (256 : ℤ)^(k+1) = 2*(128*256^k) := by rw [pow_succ]; ring
  omega

theorem signed_bounds (hk : k ≠ 0) (h : Fits true k n) : -256^k ≤ 2*n ∧ 2*n < 256^k := by
  have hhalf := two_mul_half hk
  simp only [Fits, if_true, hk, if_false] at h
  omega

theorem fits_signed_iff (hk : k ≠ 0) : Fits true k n ↔ -256^k ≤ 2*n ∧ 2*n < 256^k := by
  have hhalf := two_mul_half hk
  simp only [Fits, if_true, hk, if_false]
  omega

theorem signedValue_intBytes (h : Fits true k n) : signedValue (intBytes k n) = n := by
  rcases Nat.eq_zero_or_pos k with rfl | hk
  · have hn : n = 0 := by simpa [Fits] using h
    rw [hn]
    rfl
  · obtain ⟨hlo, hhi⟩ := signed_bounds (Nat.pos_iff_ne_zero.mp hk) h
    obtain ⟨q, hq⟩ := exists_unsignedValue_intBytes k n
    have hv0 := @unsignedValue_nonneg (intBytes k n)
    have hv1 := unsignedValue_lt (@intBytes_lt k n)
    have hpos := pow_pos_256 k
    rw [signedValue]
    rw [length_intBytes] at hv1 ⊢
    -- the lowest bytes are the integer, or the integer and one more power
    have hcases : q = 0 ∨ q = -1 := by
      have hq0 : q < 1 := by
        by_contra hge
        nlinarith
      have hq1 : -2 < q := by
        by_contra hle
        nlinarith
      omega
    rcases hcases with rfl | rfl
    · rw [if_neg (by linarith)]
      linarith
    · rw [if_pos (by linarith)]
      linarith

theorem fits_unsignedValue (h : ∀ b ∈ bs, b < 256) : Fits false bs.length (unsignedValue bs) := by
  have := unsignedValue_lt h
  simp [Fits, unsignedValue_nonneg, this]

theorem fits_signedValue (h : ∀ b ∈ bs, b < 256) : Fits true bs.length (signedValue bs) := by
  rcases bs with _ | ⟨b, rest⟩
  · rfl
  · have hv0 := @unsignedValue_nonneg (b::rest)
    have hv1 := unsignedValue_lt h
    rw [fits_signed_iff (by simp), signedValue]
    split_ifs
    · constructor <;> linarith
    · constructor <;> linarith

theorem intBytes_signedValue (h : ∀ b ∈ bs, b < 256) :
    intBytes bs.length (signedValue bs) = bs := by
  rw [signedValue]
  split_ifs
  · have := intBytes_unsignedValue h (-1)
    rwa [Int.neg_mul, Int.one_mul, ← Int.sub_eq_add_neg] at this
  · have := intBytes_unsignedValue h 0
    rwa [Int.zero_mul, Int.add_zero] at this

theorem intBytes_unsigned (h : ∀ b ∈ bs, b < 256) :
    intBytes bs.length (unsignedValue bs) = bs := by
  have := intBytes_unsignedValue h 0
  rwa [Int.zero_mul, Int.add_zero] at this

theorem Fits.mono {signed : Bool} {j : ℕ} (h : Fits signed k n) (hj : k ≤ j) : Fits signed j n := by
  have hpow : (256 : ℤ)^k ≤ 256^j := pow_le_pow_right₀ (by decide) hj
  cases signed with
  | false =>
    simp only [Fits, Bool.false_eq_true, if_false] at h ⊢
    exact ⟨h.1, lt_of_lt_of_le h.2 hpow⟩
  | true =>
    rcases Nat.eq_zero_or_pos j with rfl | hj0
    · rwa [Nat.le_zero.mp hj] at h
    · rw [fits_signed_iff (Nat.pos_iff_ne_zero.mp hj0)]
      rcases Nat.eq_zero_or_pos k with rfl | hk0
      · have hn : n = 0 := by simpa [Fits] using h
        have := pow_pos_256 j
        omega
      · have := signed_bounds (Nat.pos_iff_ne_zero.mp hk0) h
        constructor <;> linarith

end values
end Pyrust.TwosComplement
