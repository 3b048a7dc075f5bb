import Pyrust.ByteLanes
import Pyrust.MarkedBlocks

/-!
# Code points and their byte offsets

A string is indexed by code points, stored as bytes. The code points are counted eight
bytes at a time, and an index is turned into a byte offset by a scan from the front, by one
from the back or from a table with every thirty-second offset. All find the same.
-/

set_option autoImplicit false

namespace Pyrust.CodePointIndex

open TaggedWords ByteLanes MarkedBlocks

/-! ## Bytes -/

/-- A byte at which a code point starts. -/
def isStart (byte : UInt8) : Bool := byte &&& 0xC0 != 0x80

def isContinuation (byte : UInt8) : Prop := 0x80 ≤ byte ∧ byte ≤ 0xBF

/-- The bytes of one code point; surrogates have three. -/
inductive Encoding : List UInt8 → Prop
  | one {a : UInt8} (ha : a ≤ 0x7F) : Encoding [a]
  | two {a b : UInt8} (ha : 0xC2 ≤ a ∧ a ≤ 0xDF) (hb : isContinuation b) : Encoding [a, b]
  | three {a b c : UInt8} (ha : 0xE0 ≤ a ∧ a ≤ 0xEF) (hb : isContinuation b)
      (hc : isContinuation c) : Encoding [a, b, c]
  | four {a b c d : UInt8} (ha : 0xF0 ≤ a ∧ a ≤ 0xF4) (hb : isContinuation b)
      (hc : isContinuation c) (hd : isContinuation d) : Encoding [a, b, c, d]

def utf8CodepointWidth (first : UInt8) : ℕ :=
  if first < 0x80 then 1
  else if first < 0xE0 then 2
  else if first < 0xF0 then 3
  else 4

/-! ## Counting -/

def lowBits : UInt64 := 0x0101010101010101

def utf8StartMarkers (word : UInt64) : UInt64 :=
  ((~~~word >>> 7) ||| (word >>> 6)) &&& lowBits

def utf8StartsInWord (word : UInt64) : ℕ := countOnes (utf8StartMarkers word)

def lowBytes : UInt64 := 0x00ff00ff00ff00ff

def sumU8Lanes (values : UInt64) : ℕ :=
  let pairSum := (values &&& lowBytes) + ((values >>> 8) &&& lowBytes)
  ((pairSum * 0x0001000100010001) >>> 48).toNat

def utf8CodepointCountScalar (bytes : List UInt8) : ℕ := (bytes.filter isStart).length

def chunkWords : ℕ := 192

/-- The words of the body, so many at a time. -/
def countBody (body : List UInt64) : ℕ :=
  match body with
  | [] => 0
  | word::words =>
    let chunk := (word::words).take chunkWords
    let laneCounts := chunk.foldl (fun lanes word => lanes + utf8StartMarkers word) 0
    sumU8Lanes laneCounts + countBody ((word::words).drop chunkWords)
termination_by body.length
decreasing_by
  rw [List.length_drop, List.length_cons, chunkWords]
  omega

/-- The count, where the alignment has split the bytes into a head, words and a tail. -/
def utf8CodepointCount (head : List UInt8) (body : List UInt64) (tail : List UInt8) : ℕ :=
  utf8CodepointCountScalar head + utf8CodepointCountScalar tail + countBody body

/-! ## Offsets -/

/-- The eight bytes from the offset on; `none` when they are not all there. -/
def wordAt (bytes : List UInt8) (offset : ℕ) : Option UInt64 :=
  if offset + 8 ≤ bytes.length then some (packFrom 0 0 ((bytes.drop offset).take 8)) else none

/-- The offset and what remains of the index after whole words. -/
def skipForward (bytes : List UInt8) (offset remaining : ℕ) : Option (ℕ × ℕ) :=
  if offset + 8 ≤ bytes.length then do
    let word ← wordAt bytes offset
    let starts := utf8StartsInWord word
    if remaining < starts then some (offset, remaining)
    else skipForward bytes (offset + 8) (remaining - starts)
  else some (offset, remaining)
termination_by bytes.length - offset

def scanForward (bytes : List UInt8) (offset remaining : ℕ) : Option ℕ :=
  if offset < bytes.length then do
    let byte ← bytes[offset]?
    if isStart byte then
      if remaining = 0 then some offset else scanForward bytes (offset + 1) (remaining - 1)
    else scanForward bytes (offset + 1) remaining
  else some offset
termination_by bytes.length - offset

def skipBackward (bytes : List UInt8) (offset remaining : ℕ) : Option (ℕ × ℕ) :=
  if 8 ≤ offset then do
    let word ← wordAt bytes (offset - 8)
    let starts := utf8StartsInWord word
    if remaining ≤ starts then some (offset, remaining)
    else skipBackward bytes (offset - 8) (remaining - starts)
  else some (offset, remaining)
termination_by offset

/-- `none` when the scan would pass the front. -/
def scanBackward (bytes : List UInt8) : ℕ → ℕ → Option ℕ
  | offset, 0 => some offset
  | 0, _+1 => none
  | offset+1, remaining+1 => do
    let byte ← bytes[offset]?
    scanBackward bytes offset (if isStart byte then remaining else remaining + 1)

def uncachedUtf8ByteOffset (bytes : List UInt8) (index codepointLen : ℕ) : Option ℕ :=
  if index ≤ codepointLen - index then do
    let (offset, remaining) ← skipForward bytes 0 index
    scanForward bytes offset remaining
  else do
    let (offset, remaining) ← skipBackward bytes bytes.length (codepointLen - index)
    scanBackward bytes offset remaining

/-! ## The table -/

def strOffsetStride : ℕ := 32

structure StrUnicodeCache where
  codepointLen : UInt32
  checkpoints : List UInt32

/-- The table from a code point on; a step that would not move is never taken. -/
def buildFrom (bytes : List UInt8) (offset codepointLen : ℕ) (checkpoints : List UInt32) :
    Option StrUnicodeCache :=
  if offset < bytes.length then do
    let checkpoints :=
      if codepointLen % strOffsetStride = 0 then checkpoints ++ [offset.toUInt32]
      else checkpoints
    let byte ← bytes[offset]?
    buildFrom bytes (offset + utf8CodepointWidth byte) (codepointLen + 1) checkpoints
  else some ⟨codepointLen.toUInt32, checkpoints⟩
termination_by bytes.length - offset
decreasing_by
  have : 0 < utf8CodepointWidth byte := by
    rw [utf8CodepointWidth]
    split_ifs <;> decide
  omega

def StrUnicodeCache.build (bytes : List UInt8) : Option StrUnicodeCache := buildFrom bytes 0 0 []

/-- So many code points further. -/
def walk (bytes : List UInt8) : ℕ → ℕ → Option ℕ
  | 0, offset => some offset
  | steps+1, offset => do
    let byte ← bytes[offset]?
    walk bytes steps (offset + utf8CodepointWidth byte)

def StrUnicodeCache.byteOffset (cache : StrUnicodeCache) (bytes : List UInt8) (index : ℕ) :
    Option ℕ :=
  if index = cache.codepointLen.toNat then some bytes.length
  else do
    let checkpoint := index / strOffsetStride
    let offset ← cache.checkpoints[checkpoint]?
    walk bytes (index - checkpoint * strOffsetStride) offset.toNat

def strMaxByteLen : ℕ := 2^32 - 1

def strOwnedHeaderSize : ℕ := 16

/-- The size of the allocation; `none` when the process is aborted. -/
def tryNanboxOwnedStringLayout (byteLen : ℕ) : Option ℕ :=
  if byteLen > strMaxByteLen then none else some (strOwnedHeaderSize + byteLen)

/-! ## Encodings -/

theorem isStart_eq (byte : UInt8) :
    isStart byte = decide (byte.toNat < 0x80 ∨ 0xC0 ≤ byte.toNat) := by
  have hall : ∀ n : Fin 256,
      isStart (UInt8.ofNat n) = decide (n.val < 0x80 ∨ 0xC0 ≤ n.val) := by
    set_option maxRecDepth 2000 in decide
  have h := hall ⟨byte.toNat, byte.toNat_lt⟩
  rwa [UInt8.ofNat_toNat] at h

theorem not_isStart {byte : UInt8} (h : isContinuation byte) : isStart byte = false := by
  have hlo := UInt8.le_iff_toNat_le.mp h.1
  have hhi := UInt8.le_iff_toNat_le.mp h.2
  rw [show (0x80 : UInt8).toNat = 0x80 from rfl] at hlo
  rw [show (0xBF : UInt8).toNat = 0xBF from rfl] at hhi
  rw [isStart_eq, decide_eq_false_iff_not]
  omega

theorem width_eq (first : UInt8) : utf8CodepointWidth first =
    if first.toNat < 0x80 then 1 else if first.toNat < 0xE0 then 2
    else if first.toNat < 0xF0 then 3 else 4 := by
  simp only [utf8CodepointWidth, UInt8.lt_iff_toNat_lt]
  rfl

/-- The first byte alone is a start, and it tells the width. -/
theorem Encoding.first {bytes : List UInt8} (h : Encoding bytes) :
    ∃ a rest, bytes = a::rest ∧ isStart a = true ∧ (∀ b ∈ rest, isStart b = false) ∧
      utf8CodepointWidth a = bytes.length := by
  cases h with
  | @one a ha =>
    have ha' := UInt8.le_iff_toNat_le.mp ha
    rw [show (0x7F : UInt8).toNat = 0x7F from rfl] at ha'
    refine ⟨a, [], rfl, ?_, by simp, ?_⟩
    · rw [isStart_eq, decide_eq_true_iff]
      omega
    · rw [width_eq, if_pos (by omega)]
      rfl
  | @two a b ha hb =>
    have hlo := UInt8.le_iff_toNat_le.mp ha.1
    have hhi := UInt8.le_iff_toNat_le.mp ha.2
    rw [show (0xC2 : UInt8).toNat = 0xC2 from rfl] at hlo
    rw [show (0xDF : UInt8).toNat = 0xDF from rfl] at hhi
    refine ⟨a, [b], rfl, ?_, by simpa using not_isStart hb, ?_⟩
    · rw [isStart_eq, decide_eq_true_iff]
      omega
    · rw [width_eq, if_neg (by omega), if_pos (by omega)]
      rfl
  | @three a b c ha hb hc =>
    have hlo := UInt8.le_iff_toNat_le.mp ha.1
    have hhi := UInt8.le_iff_toNat_le.mp ha.2
    rw [show (0xE0 : UInt8).toNat = 0xE0 from rfl] at hlo
    rw [show (0xEF : UInt8).toNat = 0xEF from rfl] at hhi
    refine ⟨a, [b, c], rfl, ?_, by simp [not_isStart hb, not_isStart hc], ?_⟩
    · rw [isStart_eq, decide_eq_true_iff]
      omega
    · rw [width_eq, if_neg (by omega), if_neg (by omega), if_pos (by omega)]
      rfl
  | @four a b c d ha hb hc hd =>
    have hlo := UInt8.le_iff_toNat_le.mp ha.1
    rw [show (0xF0 : UInt8).toNat = 0xF0 from rfl] at hlo
    refine ⟨a, [b, c, d], rfl, ?_, by simp [not_isStart hb, not_isStart hc, not_isStart hd], ?_⟩
    · rw [isStart_eq, decide_eq_true_iff]
      omega
    · rw [width_eq, if_neg (by omega), if_neg (by omega), if_neg (by omega)]
      rfl

theorem Encoding.block {bytes : List UInt8} (h : Encoding bytes) : Block isStart bytes := by
  obtain ⟨a, rest, rfl, ha, hrest, -⟩ := h.first
  exact ⟨a, rest, rfl, ha, hrest⟩

/-! ## Words -/

/-- The low bit of each lane. -/
theorem testBit_lowBits {i k : ℕ} (hi : i < 8) (hk : k < 8) :
    lowBits.toNat.testBit (8*i+k) = decide (k = 0) := by
  interval_cases i <;> interval_cases k <;> rfl

theorem isStart_bits (byte : UInt8) :
    isStart byte = (!byte.toNat.testBit 7 || byte.toNat.testBit 6) := by
  have hlt := byte.toNat_lt
  rw [isStart_eq, Nat.testBit_eq_decide_div_mod_eq, Nat.testBit_eq_decide_div_mod_eq,
    Bool.eq_iff_iff]
  simp only [decide_eq_true_eq, Bool.or_eq_true, Bool.not_eq_true', decide_eq_false_iff_not]
  omega

theorem lane_startMarkers (word : UInt64) {i : ℕ} (hi : i < 8) :
    lane (utf8StartMarkers word) i = (isStart (lane word i)).toNat.toUInt8 := by
  refine lane_ext fun k hk => ?_
  rw [testBit_lane hi hk, utf8StartMarkers, UInt64.toNat_and, Nat.testBit_and,
    testBit_lowBits hi hk]
  cases k with
  | zero =>
    rw [isStart_bits, testBit_lane hi (by decide), testBit_lane hi (by decide),
      UInt64.toNat_or, Nat.testBit_or, UInt64.toNat_shiftRight, UInt64.toNat_shiftRight,
      Nat.testBit_shiftRight, Nat.testBit_shiftRight]
    change (((~~~word).toNat.testBit (7+(8*i+0)) || word.toNat.testBit (6+(8*i+0))) && true) = _
    rw [Bool.and_true, testBit_not (by omega), Nat.add_zero, Nat.add_comm 7, Nat.add_comm 6]
    cases word.toNat.testBit (8*i+7) <;> cases word.toNat.testBit (8*i+6) <;> rfl
  | succ k =>
    rw [decide_eq_false (Nat.succ_ne_zero k), Bool.and_false]
    cases isStart (lane word i) with
    | false => simp
    | true => simp [Nat.testBit_succ]

theorem lane_lowBytes {i : ℕ} (hi : i < 8) (word : UInt64) :
    (lane (word &&& lowBytes) i).toNat = if i%2 = 0 then (lane word i).toNat else 0 := by
  rw [lane_and _ _ hi]
  have hand (b : UInt8) : (b &&& 0xFF).toNat = b.toNat := by
    rw [UInt8.toNat_and]
    exact (Nat.and_two_pow_sub_one_eq_mod b.toNat 8).trans (Nat.mod_eq_of_lt b.toNat_lt)
  have hzero (b : UInt8) : (b &&& 0).toNat = 0 := by rw [UInt8.toNat_and]; exact Nat.and_zero _
  interval_cases i
  · exact hand _
  · exact hzero _
  · exact hand _
  · exact hzero _
  · exact hand _
  · exact hzero _
  · exact hand _
  · exact hzero _

theorem toNat_pairSum (values : UInt64) :
    ((values &&& lowBytes) + ((values >>> 8) &&& lowBytes)).toNat =
      (lane values 0).toNat + (lane values 1).toNat +
        ((lane values 2).toNat + (lane values 3).toNat)*2^16 +
        ((lane values 4).toNat + (lane values 5).toNat)*2^32 +
        ((lane values 6).toNat + (lane values 7).toNat)*2^48 := by
  have hlo : (values &&& lowBytes).toNat =
      laneSum fun i => if i%2 = 0 then (lane values i).toNat else 0 :=
    (toNat_lanes _).trans (laneSum_congr fun i hi => lane_lowBytes hi values)
  have hhi : ((values >>> 8) &&& lowBytes).toNat =
      laneSum fun i => if i%2 = 0 then (lane values (i+1)).toNat else 0 := by
    refine (toNat_lanes _).trans (laneSum_congr fun i hi => ?_)
    rw [lane_lowBytes hi, lane_shift hi]
    by_cases heven : i%2 = 0
    · rw [if_pos heven, if_pos heven, if_pos (by omega)]
    · rw [if_neg heven, if_neg heven]
  have hbound (i : ℕ) : (lane values i).toNat < 256 := (lane values i).toNat_lt
  have h0 := hbound 0
  have h1 := hbound 1
  have h2 := hbound 2
  have h3 := hbound 3
  have h4 := hbound 4
  have h5 := hbound 5
  have h6 := hbound 6
  have h7 := hbound 7
  simp only [laneSum] at hlo hhi
  rw [UInt64.toNat_add, hlo, hhi]
  norm_num
  omega

/-- The upper quarter of the product with four ones is the sum of the quarters. -/
theorem quarters_sum {a b c d : ℕ} (ha : a ≤ 510) (hb : b ≤ 510) (hc : c ≤ 510) (hd : d ≤ 510) :
    (a + b*2^16 + c*2^32 + d*2^48)*0x0001000100010001%2^64/2^48 = a+b+c+d := by
  have hprod : (a + b*2^16 + c*2^32 + d*2^48)*0x0001000100010001 =
      a+(a+b)*2^16+(a+b+c)*2^32+(a+b+c+d)*2^48+
        2^64*(b+c+d+(c+d)*2^16+d*2^32) := by ring
  have hlow : a+(a+b)*2^16+(a+b+c)*2^32+(a+b+c+d)*2^48 < 2^64 := by omega
  rw [hprod, Nat.add_mul_mod_self_left, Nat.mod_eq_of_lt hlow]
  omega

theorem sumU8Lanes_eq (values : UInt64) :
    sumU8Lanes values = total fun i => (lane values i).toNat := by
  have hpair := toNat_pairSum values
  have h0 := (lane values 0).toNat_lt
  have h1 := (lane values 1).toNat_lt
  have h2 := (lane values 2).toNat_lt
  have h3 := (lane values 3).toNat_lt
  have h4 := (lane values 4).toNat_lt
  have h5 := (lane values 5).toNat_lt
  have h6 := (lane values 6).toNat_lt
  have h7 := (lane values 7).toNat_lt
  rw [sumU8Lanes, UInt64.toNat_shiftRight, UInt64.toNat_mul, hpair, Nat.shiftRight_eq_div_pow]
  refine (quarters_sum (by omega) (by omega) (by omega) (by omega)).trans ?_
  rw [total]
  omega

theorem toNat_startMarkers (word : UInt64) :
    (utf8StartMarkers word).toNat = laneSum fun i => (isStart (lane word i)).toNat := by
  refine (toNat_lanes _).trans (laneSum_congr fun i hi => ?_)
  rw [lane_startMarkers word hi]
  cases isStart (lane word i) <;> rfl

theorem total_image (word : UInt64) :
    (total fun i => (isStart (lane word i)).toNat) = (image word).countP isStart := by
  have hif (b : Bool) : (if b = true then 1 else 0) = b.toNat := by cases b <;> rfl
  rw [image_eq, List.countP_map, show List.range 8 = [0, 1, 2, 3, 4, 5, 6, 7] from rfl]
  simp only [total, List.countP_cons, List.countP_nil, Function.comp_apply, hif]
  omega

theorem startsInWord_eq (word : UInt64) :
    utf8StartsInWord word = (image word).countP isStart := by
  rw [← total_image, utf8StartsInWord, countOnes_eq fun i hi => lane_startMarkers word hi]

/-! ## The count -/

/-- The starts in a lane over the words. -/
def laneStarts (words : List UInt64) (i : ℕ) : ℕ := words.countP fun word => isStart (lane word i)

theorem laneStarts_cons (word : UInt64) (words : List UInt64) (i : ℕ) :
    laneStarts (word::words) i = (isStart (lane word i)).toNat+laneStarts words i := by
  rw [laneStarts, laneStarts, List.countP_cons, Nat.add_comm]
  cases isStart (lane word i) <;> rfl

/-- Below 256 words no lane runs into the next one. -/
theorem toNat_foldl {words : List UInt64} {lanes : UInt64} {c : ℕ → ℕ}
    (hlanes : lanes.toNat = laneSum c) (hc : ∀ i < 8, c i+words.length < 256) :
    (words.foldl (fun lanes word => lanes + utf8StartMarkers word) lanes).toNat =
      laneSum fun i => c i+laneStarts words i := by
  induction words generalizing lanes c with
  | nil => exact hlanes.trans (laneSum_congr fun i _ => rfl)
  | cons word words ih =>
    have hbit (i : ℕ) : (isStart (lane word i)).toNat ≤ 1 := Bool.toNat_le _
    have hadd := laneSum_toNat_add hlanes (toNat_startMarkers word) fun i hi => by
      have h := hc i hi
      have hb := hbit i
      rw [List.length_cons] at h
      omega
    rw [List.foldl_cons, ih hadd fun i hi => by
      have h := hc i hi
      have hb := hbit i
      rw [List.length_cons] at h
      omega]
    refine laneSum_congr fun i _ => ?_
    rw [laneStarts_cons]
    omega

theorem total_laneStarts (words : List UInt64) :
    total (laneStarts words) = (words.flatMap image).countP isStart := by
  induction words with
  | nil => rfl
  | cons word words ih =>
    rw [List.flatMap_cons, List.countP_append, ← ih, ← total_image]
    simp only [total, laneStarts_cons]
    omega

/-- The lanes of a chunk hold the counts of its columns. -/
theorem lane_foldl {words : List UInt64} (h : words.length ≤ chunkWords) {i : ℕ} (hi : i < 8) :
    (lane (words.foldl (fun lanes word => lanes + utf8StartMarkers word) 0) i).toNat =
      laneStarts words i := by
  rw [chunkWords] at h
  have hzero : (0 : UInt64).toNat = laneSum fun _ => 0 := rfl
  have hfold := toNat_foldl hzero fun i _ => show 0+words.length < 256 by omega
  have hlane (i : ℕ) : 0+laneStarts words i < 256 := by
    have : laneStarts words i ≤ words.length := List.countP_le_length
    omega
  rw [lane_of_laneSum hfold (fun i _ => hlane i) hi, Nat.zero_add]

theorem countChunk_eq {words : List UInt64} (h : words.length ≤ chunkWords) :
    sumU8Lanes (words.foldl (fun lanes word => lanes + utf8StartMarkers word) 0) =
      (words.flatMap image).countP isStart := by
  rw [sumU8Lanes_eq, ← total_laneStarts]
  have heq (i : ℕ) (hi : i < 8) := lane_foldl h hi
  simp only [total, heq 0 (by decide), heq 1 (by decide), heq 2 (by decide), heq 3 (by decide),
    heq 4 (by decide), heq 5 (by decide), heq 6 (by decide), heq 7 (by decide)]

theorem countBody_eq (body : List UInt64) :
    countBody body = (body.flatMap image).countP isStart := by
  induction body using countBody.induct with
  | case1 => rw [countBody]; rfl
  | case2 word words ih =>
    rw [countBody, ih, countChunk_eq (List.length_take_le _ _), ← List.countP_append,
      ← List.flatMap_append, List.take_append_drop]

theorem countScalar_eq (bytes : List UInt8) :
    utf8CodepointCountScalar bytes = bytes.countP isStart :=
  List.countP_eq_length_filter.symm

theorem codepointCount_eq (head : List UInt8) (body : List UInt64) (tail : List UInt8) :
    utf8CodepointCount head body tail =
      (head ++ body.flatMap image ++ tail).countP isStart := by
  rw [utf8CodepointCount, countScalar_eq, countScalar_eq, countBody_eq, List.countP_append,
    List.countP_append]
  omega

/-! ## The scans -/

section scans
variable {bytes : List UInt8} {offset remaining : ℕ}

theorem wordAt_some (h : offset+8 ≤ bytes.length) : ∃ word, wordAt bytes offset = some word ∧
    utf8StartsInWord word = ((bytes.drop offset).take 8).countP isStart := by
  refine ⟨_, if_pos h, ?_⟩
  have hlen : ((bytes.drop offset).take 8).length = 8 := by
    rw [List.length_take, List.length_drop]
    omega
  rw [startsInWord_eq, image_packFrom hlen]

theorem countP_take_add (bytes : List UInt8) (offset n : ℕ) :
    (bytes.take (offset+n)).countP isStart =
      (bytes.take offset).countP isStart+((bytes.drop offset).take n).countP isStart := by
  rw [List.take_add, List.countP_append]

/-- The starts before the offset and the remaining index make up the index. -/
theorem skipForward_spec (bytes : List UInt8) (offset remaining : ℕ)
    (h : offset ≤ bytes.length) :
    ∃ offset' remaining', skipForward bytes offset remaining = some (offset', remaining') ∧
      offset' ≤ bytes.length ∧ remaining'+(bytes.take offset').countP isStart =
        remaining+(bytes.take offset).countP isStart := by
  induction hn : bytes.length-offset using Nat.strongRecOn generalizing offset remaining with
  | ind n ih =>
    rw [skipForward]
    by_cases hword : offset+8 ≤ bytes.length
    · obtain ⟨word, hget, hstarts⟩ := wordAt_some hword
      rw [if_pos hword, hget]
      change ∃ offset' remaining', (if remaining < utf8StartsInWord word then _ else _) = _ ∧ _
      by_cases hbreak : remaining < utf8StartsInWord word
      · rw [if_pos hbreak]
        exact ⟨offset, remaining, rfl, h, rfl⟩
      · rw [if_neg hbreak]
        obtain ⟨offset', remaining', hskip, hle, hsum⟩ :=
          ih (bytes.length-(offset+8)) (by omega) (offset+8)
            (remaining-utf8StartsInWord word) hword rfl
        refine ⟨offset', remaining', hskip, hle, ?_⟩
        rw [hsum, countP_take_add, ← hstarts]
        omega
    · rw [if_neg hword]
      exact ⟨offset, remaining, rfl, h, rfl⟩

theorem skipBackward_spec (bytes : List UInt8) (offset remaining : ℕ)
    (h : offset ≤ bytes.length) :
    ∃ offset' remaining', skipBackward bytes offset remaining = some (offset', remaining') ∧
      offset' ≤ offset ∧ (remaining = 0 → offset' = offset ∧ remaining' = 0) ∧
      (0 < remaining → 0 < remaining') ∧
      remaining'+(bytes.take offset).countP isStart =
        remaining+(bytes.take offset').countP isStart := by
  induction offset using Nat.strongRecOn generalizing remaining with
  | ind offset ih =>
    rw [skipBackward]
    by_cases hword : 8 ≤ offset
    · obtain ⟨word, hget, hstarts⟩ := wordAt_some (show offset-8+8 ≤ bytes.length by omega)
      rw [if_pos hword, hget]
      change ∃ offset' remaining', (if remaining ≤ utf8StartsInWord word then _ else _) = _ ∧ _
      by_cases hbreak : remaining ≤ utf8StartsInWord word
      · rw [if_pos hbreak]
        exact ⟨offset, remaining, rfl, Nat.le_refl _, fun h => ⟨rfl, h⟩, id, rfl⟩
      · rw [if_neg hbreak]
        obtain ⟨offset', remaining', hskip, hle, -, hpos, hsum⟩ :=
          ih (offset-8) (by omega) (remaining-utf8StartsInWord word) (by omega)
        refine ⟨offset', remaining', hskip, by omega, fun hzero => by omega,
          fun _ => hpos (by omega), ?_⟩
        have hadd := countP_take_add bytes (offset-8) 8
        rw [Nat.sub_add_cancel hword, ← hstarts] at hadd
        omega
    · rw [if_neg hword]
      exact ⟨offset, remaining, rfl, Nat.le_refl _, fun h => ⟨rfl, h⟩, id, rfl⟩

end scans

section text
variable {text : List (List UInt8)} (h : ∀ c ∈ text, Encoding c)
include h

theorem blocks : ∀ c ∈ text, Block isStart c := fun c hc => (h c hc).block

theorem count_text : text.flatten.countP isStart = text.length := countP_flatten (blocks h)

theorem count_le {offset : ℕ} : (text.flatten.take offset).countP isStart ≤ text.length := by
  rw [← count_text h]
  exact (List.take_sublist _ _).countP_le

theorem scanForward_spec {index : ℕ} (hindex : index ≤ text.length) (offset remaining : ℕ)
    (hoffset : offset ≤ text.flatten.length)
    (hsum : remaining+(text.flatten.take offset).countP isStart = index) :
    scanForward text.flatten offset remaining = some (MarkedBlocks.offset text index) := by
  induction hn : text.flatten.length-offset using Nat.strongRecOn
    generalizing offset remaining with
  | ind n ih =>
    rw [scanForward]
    by_cases hlt : offset < text.flatten.length
    · have hget := List.getElem?_eq_getElem hlt
      rw [if_pos hlt, hget]
      change (if isStart text.flatten[offset] then _ else _) = _
      have hcount : (text.flatten.take (offset+1)).countP isStart =
          (text.flatten.take offset).countP isStart+(isStart text.flatten[offset]).toNat :=
        countP_take_succ hget
      cases hstart : isStart text.flatten[offset] with
      | true =>
        rw [hstart, Bool.toNat_true] at hcount
        rw [if_pos rfl]
        by_cases hzero : remaining = 0
        · rw [if_pos hzero, Option.some.injEq]
          refine eq_offset (blocks h) hindex (by omega) hoffset fun x hx => ?_
          rw [hget] at hx
          rwa [← Option.some.inj hx]
        · rw [if_neg hzero]
          exact ih (text.flatten.length-(offset+1)) (by omega) (offset+1) (remaining-1) hlt
            (by omega) rfl
      | false =>
        rw [hstart, Bool.toNat_false] at hcount
        rw [if_neg Bool.false_ne_true]
        exact ih (text.flatten.length-(offset+1)) (by omega) (offset+1) remaining hlt
          (by omega) rfl
    · have heq : offset = text.flatten.length := by omega
      subst heq
      rw [List.take_length, count_text h] at hsum
      have hlast : index = text.length := by omega
      rw [if_neg hlt, hlast, offset_length]

theorem scanBackward_spec {index : ℕ} (hindex : index ≤ text.length) (offset remaining : ℕ)
    (hpos : 0 < remaining) (hoffset : offset ≤ text.flatten.length)
    (hsum : (text.flatten.take offset).countP isStart = index+remaining) :
    scanBackward text.flatten offset remaining = some (MarkedBlocks.offset text index) := by
  induction offset generalizing remaining with
  | zero =>
    rw [List.take_zero, List.countP_nil] at hsum
    omega
  | succ offset ih =>
    obtain ⟨remaining, rfl⟩ : ∃ k, remaining = k+1 := ⟨remaining-1, by omega⟩
    have hget := List.getElem?_eq_getElem (Nat.lt_of_succ_le hoffset)
    have hcount : (text.flatten.take (offset+1)).countP isStart =
        (text.flatten.take offset).countP isStart+(isStart text.flatten[offset]).toNat :=
      countP_take_succ hget
    rw [scanBackward, hget]
    change scanBackward text.flatten offset (if isStart text.flatten[offset] then _ else _) = _
    cases hstart : isStart text.flatten[offset] with
    | true =>
      rw [hstart, Bool.toNat_true] at hcount
      rw [if_pos rfl]
      rcases Nat.eq_zero_or_pos remaining with rfl | hpos
      · rw [scanBackward, Option.some.injEq]
        refine eq_offset (blocks h) hindex (by omega) (by omega) fun x hx => ?_
        rw [hget] at hx
        rwa [← Option.some.inj hx]
      · exact ih remaining hpos (by omega) (by omega)
    | false =>
      rw [hstart, Bool.toNat_false] at hcount
      rw [if_neg Bool.false_ne_true]
      exact ih (remaining+1) hpos (by omega) (by omega)

theorem forward_spec {index : ℕ} (hindex : index ≤ text.length) :
    ∃ offset remaining, skipForward text.flatten 0 index = some (offset, remaining) ∧
      scanForward text.flatten offset remaining = some (MarkedBlocks.offset text index) := by
  obtain ⟨offset, remaining, hskip, hle, hsum⟩ :=
    skipForward_spec text.flatten 0 index (Nat.zero_le _)
  exact ⟨offset, remaining, hskip,
    scanForward_spec h hindex offset remaining hle (by simpa using hsum)⟩

theorem backward_spec {index : ℕ} (hindex : index ≤ text.length) :
    ∃ offset remaining, skipBackward text.flatten text.flatten.length (text.length-index) =
        some (offset, remaining) ∧
      scanBackward text.flatten offset remaining = some (MarkedBlocks.offset text index) := by
  obtain ⟨offset, remaining, hskip, hle, hzero, hpos, hsum⟩ :=
    skipBackward_spec text.flatten text.flatten.length (text.length-index) (Nat.le_refl _)
  rw [List.take_length, count_text h] at hsum
  refine ⟨offset, remaining, hskip, ?_⟩
  rcases Nat.eq_zero_or_pos (text.length-index) with hend | hend
  · obtain ⟨rfl, rfl⟩ := hzero hend
    have hlast : index = text.length := by omega
    rw [scanBackward, hlast, offset_length]
  · exact scanBackward_spec h hindex offset remaining (hpos hend) hle (by omega)

theorem uncached_spec {index : ℕ} (hindex : index ≤ text.length) :
    uncachedUtf8ByteOffset text.flatten index text.length =
      some (MarkedBlocks.offset text index) := by
  rw [uncachedUtf8ByteOffset]
  split
  case isTrue =>
    obtain ⟨offset, remaining, hskip, hscan⟩ := forward_spec h hindex
    rw [hskip]
    exact hscan
  case isFalse =>
    obtain ⟨offset, remaining, hskip, hscan⟩ := backward_spec h hindex
    rw [hskip]
    exact hscan

/-! ## The table -/

/-- From the start of a code point its width leads to the next one. -/
theorem width_step {i : ℕ} (hi : i < text.length) :
    ∃ byte, text.flatten[MarkedBlocks.offset text i]? = some byte ∧
      MarkedBlocks.offset text i+utf8CodepointWidth byte = MarkedBlocks.offset text (i+1) := by
  obtain ⟨x, xs, hblock, -, hget⟩ := getElem_offset (blocks h) hi
  obtain ⟨a, rest, hfirst, -, -, hwidth⟩ := (h text[i] (List.getElem_mem hi)).first
  obtain rfl : x = a := (List.cons.inj (hblock.symm.trans hfirst)).1
  exact ⟨x, hget, by rw [offset_succ hi, hwidth]⟩

theorem walk_spec (steps i : ℕ) (hi : i+steps ≤ text.length) :
    walk text.flatten steps (MarkedBlocks.offset text i) =
      some (MarkedBlocks.offset text (i+steps)) := by
  induction steps generalizing i with
  | zero => rfl
  | succ steps ih =>
    obtain ⟨byte, hget, hstep⟩ := width_step h (show i < text.length by omega)
    rw [walk, hget]
    change walk text.flatten steps _ = _
    rw [hstep, ih (i+1) (by omega), Nat.add_assoc, Nat.add_comm 1]

omit h in
/-- The checkpoints of the code points before the `i`th one. -/
def Checkpoints (text : List (List UInt8)) (i : ℕ) (checkpoints : List UInt32) : Prop :=
  checkpoints.length = (i+31)/32 ∧
    ∀ m, 32*m < i → checkpoints[m]? = some (MarkedBlocks.offset text (32*m)).toUInt32

omit h in
theorem Checkpoints.step {i : ℕ} {checkpoints : List UInt32} (hc : Checkpoints text i checkpoints) :
    Checkpoints text (i+1) (if i%strOffsetStride = 0
      then checkpoints ++ [(MarkedBlocks.offset text i).toUInt32] else checkpoints) := by
  obtain ⟨hlen, hget⟩ := hc
  rw [strOffsetStride]
  split
  case isTrue hmod =>
    refine ⟨?_, fun m hm => ?_⟩
    · rw [List.length_append, hlen, List.length_singleton]
      omega
    · by_cases hlast : 32*m = i
      · have hm : m = checkpoints.length := by omega
        rw [List.getElem?_append_right (by omega), hm, Nat.sub_self, ← hm, hlast]
        rfl
      · rw [List.getElem?_append_left (by omega)]
        exact hget m (by omega)
  case isFalse hmod => exact ⟨by omega, fun m hm => hget m (by omega)⟩

theorem buildFrom_spec (i : ℕ) (hi : i ≤ text.length) (checkpoints : List UInt32)
    (hc : Checkpoints text i checkpoints) :
    ∃ all, buildFrom text.flatten (MarkedBlocks.offset text i) i checkpoints =
      some ⟨text.length.toUInt32, all⟩ ∧ Checkpoints text text.length all := by
  induction hn : text.length-i generalizing i checkpoints with
  | zero =>
    obtain rfl : i = text.length := by omega
    rw [buildFrom, if_neg (by rw [offset_length]; exact Nat.lt_irrefl _)]
    exact ⟨checkpoints, rfl, hc⟩
  | succ n ih =>
    have hlt : i < text.length := by omega
    obtain ⟨byte, hget, hstep⟩ := width_step h hlt
    obtain ⟨all, hall, hlast⟩ := ih (i+1) hlt _ hc.step (by omega)
    refine ⟨all, ?_, hlast⟩
    rw [buildFrom, if_pos (offset_lt (blocks h) hlt), hget]
    change buildFrom text.flatten (_+utf8CodepointWidth byte) (i+1) _ = _
    rw [hstep]
    exact hall

/-- A string that can be allocated has offsets of 32 bits. -/
theorem byteOffset_spec {index : ℕ} (hindex : index ≤ text.length)
    (hlayout : (tryNanboxOwnedStringLayout text.flatten.length).isSome) :
    ∃ cache, StrUnicodeCache.build text.flatten = some cache ∧
      cache.byteOffset text.flatten index = some (MarkedBlocks.offset text index) := by
  have hsize : text.flatten.length < 2^32 := by
    rw [tryNanboxOwnedStringLayout] at hlayout
    split at hlayout
    case isTrue => cases hlayout
    case isFalse hle =>
      rw [strMaxByteLen] at hle
      omega
  have hcount : text.length ≤ text.flatten.length := by
    rw [← count_text h]
    exact List.countP_le_length
  obtain ⟨all, hbuild, -, hget⟩ := buildFrom_spec h 0 (Nat.zero_le _) []
    ⟨rfl, fun m hm => absurd hm (Nat.not_lt_zero _)⟩
  refine ⟨_, hbuild, ?_⟩
  have hlen : text.length.toUInt32.toNat = text.length := by
    rw [UInt32.toNat_ofNat', Nat.mod_eq_of_lt (by omega)]
  rw [StrUnicodeCache.byteOffset, hlen]
  by_cases hend : index = text.length
  · rw [if_pos hend, hend, offset_length]
  · have hcheckpoint := hget (index/32) (by omega)
    have hoffset : (MarkedBlocks.offset text (32*(index/32))).toUInt32.toNat =
        MarkedBlocks.offset text (32*(index/32)) := by
      have hle := offset_le text (32*(index/32))
      rw [UInt32.toNat_ofNat', Nat.mod_eq_of_lt (by omega)]
    rw [if_neg hend, strOffsetStride]
    change (all[index/32]? >>= _) = _
    rw [hcheckpoint]
    change walk text.flatten _ _ = _
    rw [hoffset, walk_spec h _ _ (by omega)]
    congr 2
    omega

/-- Every count is the number of code points, and every way to an offset leads to the place
where the code point starts, without a read outside the bytes. -/
theorem offsets_agree :
    (∀ head body tail, head ++ body.flatMap image ++ tail = text.flatten →
      utf8CodepointCount head body tail = text.length) ∧
    (∀ words : List UInt64, words.length ≤ chunkWords →
      ∀ i < 8, (lane (words.foldl (fun lanes word => lanes + utf8StartMarkers word) 0) i).toNat =
        laneStarts words i) ∧
    ∀ index ≤ text.length,
      uncachedUtf8ByteOffset text.flatten index text.length =
        some (text.take index).flatten.length ∧
      (∃ offset remaining, skipForward text.flatten 0 index = some (offset, remaining) ∧
        scanForward text.flatten offset remaining = some (text.take index).flatten.length) ∧
      (∃ offset remaining,
        skipBackward text.flatten text.flatten.length (text.length-index) =
          some (offset, remaining) ∧
        scanBackward text.flatten offset remaining = some (text.take index).flatten.length) ∧
      ((tryNanboxOwnedStringLayout text.flatten.length).isSome →
        ∃ cache, StrUnicodeCache.build text.flatten = some cache ∧
          cache.byteOffset text.flatten index = some (text.take index).flatten.length) :=
  ⟨fun head body tail hsplit => by rw [codepointCount_eq, hsplit, count_text h],
    fun _ hwords _ hi => lane_foldl hwords hi,
    fun _ hindex => ⟨uncached_spec h hindex, forward_spec h hindex, backward_spec h hindex,
      byteOffset_spec h hindex⟩⟩

end text

/-- The text `aé`. -/
theorem offsets_agree_two :
    (∀ c ∈ [[0x61], [0xC3, 0xA9]], Encoding c) ∧
      uncachedUtf8ByteOffset [0x61, 0xC3, 0xA9] 1 2 = some 1 := by
  have htext : ∀ c ∈ [[0x61], [0xC3, 0xA9]], Encoding c := by
    intro c hc
    simp only [List.mem_cons, List.not_mem_nil, or_false] at hc
    rcases hc with rfl | rfl
    · exact .one (by decide)
    · exact .two (by decide) ⟨by decide, by decide⟩
  exact ⟨htext, ((offsets_agree htext).2.2 1 (by decide)).1⟩

end Pyrust.CodePointIndex
