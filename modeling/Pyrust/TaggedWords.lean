import Mathlib.Data.Nat.Bitwise
import Mathlib.Tactic.Ring

/-!
# Words with a tag above a payload

A word of 64 bits is split at a bit: the tag from there on, the payload below. What was put
together with `or` is read back by a shift and by a mask. Bytes are put into a word one
after the other, the first one lowest.
-/

set_option autoImplicit false

namespace Pyrust.TaggedWords

/-! ## Tag and payload -/

section split
variable {k t : ℕ} {tag payload word mask : UInt64}

def Holds (k t : ℕ) (payload word : UInt64) : Prop :=
  payload.toNat < 2^k ∧ word.toNat = t*2^k+payload.toNat

theorem Holds.or (ht : tag.toNat = t*2^k) (hp : payload.toNat < 2^k) :
    Holds k t payload (tag ||| payload) := by
  refine ⟨hp, ?_⟩
  rw [UInt64.toNat_or, ht, Nat.mul_comm, Nat.two_pow_add_eq_or_of_lt hp]

theorem Holds.tag_eq (h : Holds k t payload word) : word.toNat/2^k = t := by
  rw [h.2, Nat.add_comm, Nat.add_mul_div_right _ _ (Nat.two_pow_pos k), Nat.div_eq_of_lt h.1,
    Nat.zero_add]

theorem Holds.mod_eq (h : Holds k t payload word) : word.toNat%2^k = payload.toNat := by
  rw [h.2, Nat.add_comm, Nat.add_mul_mod_self_right, Nat.mod_eq_of_lt h.1]

theorem toNat_mask (hm : mask.toNat = 2^k-1) (word : UInt64) :
    (word &&& mask).toNat = word.toNat%2^k := by
  rw [UInt64.toNat_and, hm, Nat.and_two_pow_sub_one_eq_mod]

theorem Holds.mask_eq (h : Holds k t payload word) (hm : mask.toNat = 2^k-1) :
    word &&& mask = payload := by
  rw [← UInt64.toNat_inj, toNat_mask hm, h.mod_eq]

theorem Holds.unique {t' : ℕ} {payload' : UInt64} (h : Holds k t payload word)
    (h' : Holds k t' payload' word) : t = t' ∧ payload = payload' :=
  ⟨h.tag_eq.symm.trans h'.tag_eq, UInt64.toNat_inj.mp (h.mod_eq.symm.trans h'.mod_eq)⟩

/-- The bits below the split are those of the payload. -/
theorem Holds.testBit (h : Holds k t payload word) {i : ℕ} (hi : i < k) :
    word.toNat.testBit i = payload.toNat.testBit i := by
  rw [← h.mod_eq, Nat.testBit_mod_two_pow]
  simp [hi]

/-- A tag that is clear under the mask is what stands outside it. -/
theorem or_and_not (h : tag &&& mask = 0) (word : UInt64) :
    (tag ||| (word &&& mask)) &&& ~~~mask = tag := by
  rw [← UInt64.toBitVec_inj]
  ext i hi
  have hclear := congrArg (fun w => w.toBitVec.getLsbD i) h
  simp [BitVec.getLsbD_eq_getElem hi] at hclear ⊢
  cases hm : mask.toBitVec[i] <;> simp_all

theorem and_not_or (word mask : UInt64) : (word &&& ~~~mask) ||| (word &&& mask) = word := by
  rw [← UInt64.toBitVec_inj]
  ext i hi
  simp only [UInt64.toBitVec_or, UInt64.toBitVec_and, UInt64.toBitVec_not, BitVec.getElem_or,
    BitVec.getElem_and, BitVec.getElem_not]
  cases word.toBitVec[i] <;> cases mask.toBitVec[i] <;> rfl

theorem bit_test {bit : UInt64} {i : ℕ} (hbit : bit.toNat = 2^i) (word : UInt64) :
    (word &&& bit != 0) = word.toNat.testBit i := by
  have hand : (word &&& bit).toNat = (word.toNat.testBit i).toNat*2^i := by
    rw [UInt64.toNat_and, hbit, Nat.and_two_pow]
  have hpos := Nat.two_pow_pos i
  rw [Bool.eq_iff_iff, bne_iff_ne, ne_eq, ← UInt64.toNat_inj, hand]
  cases word.toNat.testBit i with
  | false => simp
  | true => simp

/-- The top bit of a number below a power of two. -/
theorem testBit_top {n i : ℕ} (h : n < 2^(i+1)) : n.testBit i = decide (2^i ≤ n) := by
  rw [Nat.testBit_eq_decide_div_mod_eq]
  have hpow : 2^(i+1) = 2*2^i := by ring
  have hdiv : n/2^i < 2 := by
    rw [Nat.div_lt_iff_lt_mul (Nat.two_pow_pos i)]
    omega
  rw [Nat.mod_eq_of_lt hdiv]
  have hone := Nat.le_div_iff_mul_le (x := 1) (y := n) (Nat.two_pow_pos i)
  rw [Nat.one_mul] at hone
  simp only [← hone, decide_eq_decide]
  omega

end split

/-! ## Bytes -/

/-- The number that the bytes are the digits of, the first one lowest. -/
def ofBytes : List UInt8 → ℕ
  | [] => 0
  | b::bytes => b.toNat+256*ofBytes bytes

theorem ofBytes_lt (bytes : List UInt8) : ofBytes bytes < 256^bytes.length := by
  induction bytes with
  | nil => exact Nat.one_pos
  | cons b bytes ih =>
    have hb : b.toNat < 256 := b.toNat_lt
    rw [ofBytes, List.length_cons, pow_succ]
    omega

theorem ofBytes_digit {bytes : List UInt8} {i : ℕ} (hi : i < bytes.length) :
    ofBytes bytes/256^i%256 = bytes[i].toNat := by
  induction bytes generalizing i with
  | nil => exact absurd hi (Nat.not_lt_zero i)
  | cons b bytes ih =>
    have hb : b.toNat < 256 := b.toNat_lt
    cases i with
    | zero =>
      rw [ofBytes, pow_zero, Nat.div_one, List.getElem_cons_zero]
      omega
    | succ i =>
      have hdiv : (b.toNat+256*ofBytes bytes)/256 = ofBytes bytes := by omega
      rw [ofBytes, pow_succ', ← Nat.div_div_eq_div_mul, hdiv, List.getElem_cons_succ]
      exact ih (Nat.lt_of_succ_lt_succ hi)

/-- The bytes are put into the word from bit `shift` on. -/
def packFrom (word : UInt64) (shift : ℕ) : List UInt8 → UInt64
  | [] => word
  | b::bytes => packFrom (word ||| b.toUInt64 <<< shift.toUInt64) (shift+8) bytes

theorem packFrom_or (tag word : UInt64) (shift : ℕ) (bytes : List UInt8) :
    packFrom (tag ||| word) shift bytes = tag ||| packFrom word shift bytes := by
  induction bytes generalizing word shift with
  | nil => rfl
  | cons b bytes ih => rw [packFrom, packFrom, UInt64.or_assoc, ih]

theorem toNat_packFrom {word : UInt64} {shift : ℕ} (bytes : List UInt8)
    (hword : word.toNat < 2^shift) (hlen : shift+8*bytes.length ≤ 64) :
    (packFrom word shift bytes).toNat = word.toNat+2^shift*ofBytes bytes := by
  induction bytes generalizing word shift with
  | nil => rw [packFrom, ofBytes, Nat.mul_zero, Nat.add_zero]
  | cons b bytes ih =>
    rw [List.length_cons] at hlen
    have hb : b.toNat < 2^8 := b.toNat_lt
    have hshift : (b.toUInt64 <<< shift.toUInt64).toNat = b.toNat*2^shift := by
      have hs : shift.toUInt64.toNat%64 = shift := by
        rw [UInt64.toNat_ofNat']
        omega
      have hlt : b.toNat*2^shift < 2^64 := by
        calc b.toNat*2^shift < 2^8*2^shift := Nat.mul_lt_mul_of_pos_right hb (Nat.two_pow_pos _)
          _ = 2^(8+shift) := (pow_add 2 8 shift).symm
          _ ≤ 2^64 := Nat.pow_le_pow_right (by omega) (by omega)
      rw [UInt64.toNat_shiftLeft, hs, UInt8.toNat_toUInt64, Nat.shiftLeft_eq,
        Nat.mod_eq_of_lt hlt]
    have hor := (Holds.or (k := shift) (t := b.toNat) hshift hword).2
    rw [UInt64.or_comm] at hor
    have hnext : (word ||| b.toUInt64 <<< shift.toUInt64).toNat < 2^(shift+8) := by
      have hmul : b.toNat*2^shift+2^shift ≤ 2^8*2^shift := by
        calc b.toNat*2^shift+2^shift = (b.toNat+1)*2^shift := by ring
          _ ≤ 2^8*2^shift := Nat.mul_le_mul_right _ hb
      rw [hor, pow_add, Nat.mul_comm (2^shift)]
      omega
    rw [packFrom, ih hnext (by omega), hor, ofBytes, pow_add]
    ring

/-- The bytes of a word in memory, the lowest first. -/
def image (word : UInt64) : List UInt8 :=
  (List.range 8).map fun i => (word >>> (8*i).toUInt64).toUInt8

theorem image_getElem {word : UInt64} {i : ℕ} (hi : i < (image word).length) :
    ((image word)[i]).toNat = word.toNat/256^i%256 := by
  have hlt : i < 8 := by simpa [image] using hi
  have hs : (8*i).toUInt64.toNat%64 = 8*i := by
    rw [UInt64.toNat_ofNat']
    omega
  simp only [image, List.getElem_map, List.getElem_range]
  rw [UInt64.toNat_toUInt8, UInt64.toNat_shiftRight, hs, Nat.shiftRight_eq_div_pow, pow_mul]
  rfl

/-- Eight bytes are the image of the word they are put into. -/
theorem image_packFrom {bytes : List UInt8} (h : bytes.length = 8) :
    image (packFrom 0 0 bytes) = bytes := by
  have hnat : (packFrom 0 0 bytes).toNat = ofBytes bytes := by
    rw [toNat_packFrom bytes (by decide) (by omega)]
    simp
  refine List.ext_getElem (by simp [image, h]) fun i hi hi' => ?_
  rw [← UInt8.toNat_inj, image_getElem, hnat, ofBytes_digit hi']

end Pyrust.TaggedWords
