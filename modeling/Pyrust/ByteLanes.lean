import Mathlib.Algebra.BigOperators.Group.List.Basic
import Mathlib.Tactic.IntervalCases
import Pyrust.TaggedWords

/-!
# Bytes of a word as lanes

A word of 64 bits holds eight bytes. Masks and shifts by whole bytes act on each of them,
and as long as no lane grows beyond a byte, the lanes of words are added separately by an
addition of the words.
-/

set_option autoImplicit false

namespace Pyrust.ByteLanes

open TaggedWords

/-! ## Lanes -/

def lane (word : UInt64) (i : ℕ) : UInt8 := (word >>> (8*i).toUInt64).toUInt8

def laneSum (c : ℕ → ℕ) : ℕ :=
  c 0+c 1*2^8+c 2*2^16+c 3*2^24+c 4*2^32+c 5*2^40+c 6*2^48+c 7*2^56

theorem image_eq (word : UInt64) : image word = (List.range 8).map (lane word) := rfl

theorem length_image (word : UInt64) : (image word).length = 8 := by
  rw [image_eq, List.length_map, List.length_range]

section lanes
variable {word : UInt64} {c : ℕ → ℕ} {i k : ℕ}

theorem toNat_lane (hi : i < 8) : (lane word i).toNat = word.toNat/2^(8*i)%256 := by
  have hlen : i < (image word).length := by
    rw [length_image]
    exact hi
  have hget : (image word)[i] = lane word i := by simp [image_eq]
  rw [← hget, image_getElem, pow_mul]
  rfl

theorem toNat_lanes (word : UInt64) : word.toNat = laneSum fun i => (lane word i).toNat := by
  have hrest (i : ℕ) (hi : i < 8) : word.toNat/2^(8*i) =
      (lane word i).toNat + 256*(word.toNat/2^(8*(i+1))) := by
    rw [toNat_lane hi, Nat.mul_succ, pow_add, ← Nat.div_div_eq_div_mul]
    exact (Nat.mod_add_div _ _).symm
  have hlast : word.toNat/2^(8*8) = 0 := Nat.div_eq_of_lt word.toNat_lt
  have h0 : word.toNat/2^(8*0) = word.toNat := Nat.div_one _
  rw [laneSum, ← h0, hrest 0 (by decide), hrest 1 (by decide), hrest 2 (by decide),
    hrest 3 (by decide), hrest 4 (by decide), hrest 5 (by decide), hrest 6 (by decide),
    hrest 7 (by decide), hlast]
  ring

/-- The lanes are the digits, as long as they are bytes. -/
theorem lane_of_laneSum (h : word.toNat = laneSum c) (hc : ∀ i < 8, c i < 256) (hi : i < 8) :
    (lane word i).toNat = c i := by
  have h0 := hc 0 (by decide)
  have h1 := hc 1 (by decide)
  have h2 := hc 2 (by decide)
  have h3 := hc 3 (by decide)
  have h4 := hc 4 (by decide)
  have h5 := hc 5 (by decide)
  have h6 := hc 6 (by decide)
  have h7 := hc 7 (by decide)
  rw [toNat_lane hi, h, laneSum]
  interval_cases i <;> omega

theorem testBit_lane (hi : i < 8) (hk : k < 8) :
    (lane word i).toNat.testBit k = word.toNat.testBit (8*i+k) := by
  rw [toNat_lane hi, show 256 = 2^8 from rfl, Nat.testBit_mod_two_pow, Nat.testBit_div_two_pow,
    Nat.add_comm]
  simp [hk]

theorem testBit_not {j : ℕ} (hj : j < 64) :
    (~~~word).toNat.testBit j = !word.toNat.testBit j := by
  have hnot : (~~~word).toNat = 2^64-(word.toNat+1) := by
    rw [UInt64.toNat_not, Nat.sub_sub, Nat.add_comm]
    rfl
  rw [hnot, Nat.testBit_two_pow_sub_succ word.toNat_lt]
  simp [hj]

theorem lane_ext {a b : UInt8} (h : ∀ k < 8, a.toNat.testBit k = b.toNat.testBit k) : a = b := by
  rw [← UInt8.toNat_inj]
  refine Nat.eq_of_testBit_eq fun k => ?_
  by_cases hk : k < 8
  · exact h k hk
  · have hpow : 2^8 ≤ 2^k := Nat.pow_le_pow_right (by decide) (by omega)
    rw [Nat.testBit_lt_two_pow (a.toNat_lt.trans_le hpow),
      Nat.testBit_lt_two_pow (b.toNat_lt.trans_le hpow)]

theorem lane_and (a b : UInt64) (hi : i < 8) : lane (a &&& b) i = lane a i &&& lane b i := by
  refine lane_ext fun k hk => ?_
  rw [testBit_lane hi hk, UInt64.toNat_and, UInt8.toNat_and, Nat.testBit_and, Nat.testBit_and,
    testBit_lane hi hk, testBit_lane hi hk]

theorem lane_shift (hi : i < 8) :
    lane (word >>> 8) i = if i+1 < 8 then lane word (i+1) else 0 := by
  refine lane_ext fun k hk => ?_
  rw [testBit_lane hi hk, UInt64.toNat_shiftRight, Nat.testBit_shiftRight]
  change word.toNat.testBit (8+(8*i+k)) = _
  by_cases hnext : i+1 < 8
  · rw [if_pos hnext, testBit_lane hnext hk]
    congr 1
    omega
  · have hpow : 2^64 ≤ 2^(8+(8*i+k)) := Nat.pow_le_pow_right (by decide) (by omega)
    rw [if_neg hnext, Nat.testBit_lt_two_pow (word.toNat_lt.trans_le hpow)]
    simp

end lanes

/-! ## Sums over the lanes -/

def total (c : ℕ → ℕ) : ℕ := c 0+c 1+c 2+c 3+c 4+c 5+c 6+c 7

theorem laneSum_congr {c d : ℕ → ℕ} (h : ∀ i < 8, c i = d i) : laneSum c = laneSum d := by
  rw [laneSum, laneSum, h 0 (by decide), h 1 (by decide), h 2 (by decide), h 3 (by decide),
    h 4 (by decide), h 5 (by decide), h 6 (by decide), h 7 (by decide)]

theorem laneSum_add (c d : ℕ → ℕ) : laneSum (fun i => c i+d i) = laneSum c+laneSum d := by
  simp only [laneSum]
  ring

theorem laneSum_lt {c : ℕ → ℕ} (h : ∀ i < 8, c i < 256) : laneSum c < 2^64 := by
  have h0 := h 0 (by decide)
  have h1 := h 1 (by decide)
  have h2 := h 2 (by decide)
  have h3 := h 3 (by decide)
  have h4 := h 4 (by decide)
  have h5 := h 5 (by decide)
  have h6 := h 6 (by decide)
  have h7 := h 7 (by decide)
  rw [laneSum]
  omega

/-- No lane runs into the next one. -/
theorem laneSum_toNat_add {a b : UInt64} {c d : ℕ → ℕ} (ha : a.toNat = laneSum c)
    (hb : b.toNat = laneSum d) (h : ∀ i < 8, c i+d i < 256) :
    (a+b).toNat = laneSum fun i => c i+d i := by
  have hlt := laneSum_lt h
  rw [UInt64.toNat_add, ha, hb, ← laneSum_add, Nat.mod_eq_of_lt hlt]

/-- The number of set bits. -/
def countOnes (word : UInt64) : ℕ := (List.range 64).countP word.toNat.testBit

/-- Where each lane is a bit, the set bits are the lanes that are set. -/
theorem countOnes_eq {word : UInt64} {start : ℕ → Bool}
    (h : ∀ i < 8, lane word i = (start i).toNat.toUInt8) :
    countOnes word = total fun i => (start i).toNat := by
  have hrange : List.range 64 =
      (List.range 8).flatMap fun i => (List.range 8).map fun k => 8*i+k := by decide
  have hlane (i : ℕ) (hi : i < 8) :
      ((List.range 8).map fun k => 8*i+k).countP word.toNat.testBit = (start i).toNat := by
    have hbits (k : ℕ) (hk : k < 8) : word.toNat.testBit (8*i+k) =
        ((start i).toNat.toUInt8).toNat.testBit k := by rw [← testBit_lane hi hk, h i hi]
    rw [List.countP_map]
    have hcongr : (List.range 8).countP (word.toNat.testBit ∘ fun k => 8*i+k) =
        (List.range 8).countP ((start i).toNat.toUInt8).toNat.testBit :=
      List.countP_congr fun k hk => by
        rw [Function.comp_apply, hbits k (List.mem_range.mp hk)]
    rw [hcongr]
    cases start i <;> decide
  rw [countOnes, hrange, List.countP_flatMap]
  have hmap : (List.range 8).map (List.countP word.toNat.testBit ∘
      fun i => (List.range 8).map fun k => 8*i+k) = (List.range 8).map fun i => (start i).toNat :=
    List.map_congr_left fun i hi => hlane i (List.mem_range.mp hi)
  rw [hmap, total, show List.range 8 = [0, 1, 2, 3, 4, 5, 6, 7] from rfl]
  simp only [List.map_cons, List.map_nil, List.sum_cons, List.sum_nil]
  omega

end Pyrust.ByteLanes
