import Mathlib.Data.Int.Bitwise
import Mathlib.Tactic.Linarith
import Mathlib.Tactic.Positivity
import Pyrust.FixedWidth

/-!
# Bits of words and of integers

A signed word and the integer it stands for have the same bits, so that an
operation bit by bit on words that stand for two integers stands for the operation
on the integers, and a shift of a word for the shift of the integer.
-/

set_option autoImplicit false

namespace Pyrust.WordBits

open FixedWidth

section bits
variable {w : ℕ} {a b : ℤ}

/-- The signed word of an integer. -/
def word (w : ℕ) (a : ℤ) : BitVec w := BitVec.ofInt w a

theorem toInt_word (hw : 0 < w) (h : Fits w a) : (word w a).toInt = a := by
  obtain ⟨k, rfl⟩ : ∃ k, w = k+1 := ⟨w-1, by omega⟩
  rw [Fits, Nat.add_sub_cancel] at h
  rw [word, BitVec.toInt_ofInt]
  refine Int.bmod_eq_of_le ?_ ?_ <;> push_cast <;> omega

theorem word_bit (a : ℤ) {i : ℕ} (hi : i < w) : (word w a).getLsbD i = a.testBit i := by
  cases a with
  | ofNat n => simp [word, Int.testBit, hi, BitVec.getElem_eq_testBit_toNat]
  | negSucc n =>
    rw [word, BitVec.ofInt_negSucc_eq_not_ofNat, BitVec.getLsbD_not, BitVec.getLsbD_ofNat]
    simp [Int.testBit, hi]

/-- The numbers whose distance from `0` or `-1` takes `w-1` bits. -/
theorem fits_ofNat {n : ℕ} : Fits w n ↔ n < 2^(w-1) := by
  have hpow : (0 : ℤ) ≤ 2^(w-1) := by positivity
  rw [Fits, ← Nat.cast_lt (α := ℤ)]
  push_cast
  omega

theorem fits_negSucc {n : ℕ} : Fits w (Int.negSucc n) ↔ n < 2^(w-1) := by
  have hpow : (0 : ℤ) < 2^(w-1) := by positivity
  rw [Fits, ← Nat.cast_lt (α := ℤ), Int.negSucc_eq]
  push_cast
  omega

theorem fits_natBitwise (f : Bool → Bool → Bool) {m n : ℕ} (hm : m < 2^(w-1))
    (hn : n < 2^(w-1)) : Fits w (Int.natBitwise f m n) := by
  rw [Int.natBitwise]
  cases f false false with
  | true => exact fits_negSucc.mpr (Nat.bitwise_lt_two_pow hm hn)
  | false => exact fits_ofNat.mpr (Nat.bitwise_lt_two_pow hm hn)

theorem fits_bitwise (f : Bool → Bool → Bool) (ha : Fits w a) (hb : Fits w b) :
    Fits w (Int.bitwise f a b) := by
  cases a <;> cases b <;> rw [Int.bitwise] <;> apply fits_natBitwise <;>
    first | exact fits_ofNat.mp ‹_› | exact fits_negSucc.mp ‹_›

/-- A word whose bits are those of an operation on two others stands for the operation on the
integers. -/
theorem toInt_bitwise (f : Bool → Bool → Bool) (hw : 0 < w) (ha : Fits w a) (hb : Fits w b)
    {x : BitVec w} (hx : ∀ i < w, x.getLsbD i = f ((word w a).getLsbD i) ((word w b).getLsbD i)) :
    x.toInt = Int.bitwise f a b := by
  have hword : x = word w (Int.bitwise f a b) := by
    refine BitVec.eq_of_getLsbD_eq fun i hi => ?_
    rw [hx i hi, word_bit _ hi, word_bit _ hi, word_bit _ hi, Int.testBit_bitwise]
  rw [hword, toInt_word hw (fits_bitwise f ha hb)]

theorem toInt_and (hw : 0 < w) (ha : Fits w a) (hb : Fits w b) :
    (word w a &&& word w b).toInt = Int.land a b := by
  rw [← Int.bitwise_and]
  exact toInt_bitwise and hw ha hb fun i _ => BitVec.getLsbD_and

theorem toInt_or (hw : 0 < w) (ha : Fits w a) (hb : Fits w b) :
    (word w a ||| word w b).toInt = Int.lor a b := by
  rw [← Int.bitwise_or]
  exact toInt_bitwise or hw ha hb fun i _ => BitVec.getLsbD_or

theorem toInt_xor (hw : 0 < w) (ha : Fits w a) (hb : Fits w b) :
    (word w a ^^^ word w b).toInt = Int.xor a b := by
  rw [← Int.bitwise_xor]
  exact toInt_bitwise xor hw ha hb fun i _ => BitVec.getLsbD_xor

end bits

section shifts
variable {w n : ℕ} {a : ℤ}

theorem toInt_shiftRight (hw : 0 < w) (ha : Fits w a) :
    ((word w a).sshiftRight n).toInt = a / 2^n := by
  rw [BitVec.toInt_sshiftRight, toInt_word hw ha, Int.shiftRight_eq_div_pow]
  norm_cast

/-- A word shifted to the left is that of the product. -/
theorem word_shiftLeft (n : ℕ) (a : ℤ) : word w a <<< n = word w (a*2^n) := by
  have hpos : ((2^w : ℕ) : ℤ) ≠ 0 := by positivity
  apply BitVec.eq_of_toNat_eq
  rw [BitVec.toNat_shiftLeft, Nat.shiftLeft_eq, word, word, BitVec.toNat_ofInt,
    BitVec.toNat_ofInt, ← Nat.cast_inj (R := ℤ)]
  rw [Int.natCast_emod, Nat.cast_mul, Int.toNat_of_nonneg (Int.emod_nonneg _ hpos),
    Int.toNat_of_nonneg (Int.emod_nonneg _ hpos), Int.mul_emod, Int.emod_emod_of_dvd _ dvd_rfl,
    ← Int.mul_emod]
  norm_cast

theorem fits_toInt (x : BitVec w) : Fits w x.toInt :=
  ⟨BitVec.le_toInt x, BitVec.toInt_lt⟩

/-- Shifting to the left and back gives the same word exactly when nothing was lost. -/
theorem shiftLeft_back_iff (hw : 0 < w) (hn : n ≤ w) :
    ((word w a <<< n).sshiftRight n).toInt = a ↔ Fits w (a*2^n) := by
  rw [BitVec.toInt_sshiftRight, Int.shiftRight_eq_div_pow]
  have hpow : ((2^n : ℕ) : ℤ) = 2^n := by norm_cast
  rw [hpow]
  have hpos : (0 : ℤ) < 2^n := by positivity
  rw [word_shiftLeft]
  constructor
  · intro h
    have hdvd : (2 : ℤ)^n ∣ (word w (a*2^n)).toInt := by
      have hsub : ((2^w : ℕ) : ℤ) ∣ (word w (a*2^n)).toInt-a*2^n := by
        rw [word, BitVec.toInt_ofInt]
        exact Int.dvd_bmod_sub_self
      have hpow' : (2 : ℤ)^n ∣ ((2^w : ℕ) : ℤ) := by
        push_cast
        exact pow_dvd_pow 2 hn
      exact (Int.dvd_iff_dvd_of_dvd_sub (hpow'.trans hsub)).mpr (Dvd.intro_left a rfl)
    have hprod : (word w (a*2^n)).toInt = a*2^n := by
      rw [← Int.ediv_mul_cancel hdvd, h]
    exact hprod ▸ fits_toInt _
  · intro h
    rw [toInt_word hw h, Int.mul_ediv_cancel _ hpos.ne']

end shifts

end Pyrust.WordBits
