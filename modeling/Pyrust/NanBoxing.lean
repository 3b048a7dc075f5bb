import Mathlib.Data.UInt
import Mathlib.Tactic.IntervalCases
import Pyrust.Binary64
import Pyrust.TaggedWords

/-!
# The one word of a value

Booleans, integers of 48 bits, floats, short strings and pointers share one word. The tags
lie among the negative NaN patterns and three sentinels among the positive ones, so no NaN
is stored as it came: each is minted anew from a counter, above the sentinels.
-/

set_option autoImplicit false

namespace Pyrust.NanBoxing

open Binary64 TaggedWords

/-! ## Constants -/

def payloadMask : UInt64 := 0x0000FFFFFFFFFFFF
def intSignBit : UInt64 := (1 : UInt64) <<< 47
def canonicalNan : UInt64 := 0x7FF8000000000000
def tagNoneBits : UInt64 := 0xFFF9000000000000
def unsetBits : UInt64 := 0x7FF800000000BAD0
def notImplementedBits : UInt64 := 0x7FF800000000BAD2
def ellipsisBits : UInt64 := 0x7FF800000000BAD4
def nanIdentityBit : UInt64 := (1 : UInt64) <<< 47
def nanIdentityMask : UInt64 := nanIdentityBit - 1

def tagBoolBits : UInt64 := 0xFFFA000000000000
def tagIntBits : UInt64 := 0xFFFB000000000000
def tagStrBits : UInt64 := 0xFFFC000000000000
def tagTupleBits : UInt64 := 0xFFFD000000000000
def tagListBits : UInt64 := 0xFFFE000000000000
def tagOpaqueBits : UInt64 := 0xFFFF000000000000

def tagFloatMax : UInt16 := 0xFFF8
def tagBool : UInt16 := 0xFFFA
def tagInt : UInt16 := 0xFFFB
def tagStr : UInt16 := 0xFFFC
def tagTuple : UInt16 := 0xFFFD
def tagList : UInt16 := 0xFFFE
def tagOpaque : UInt16 := 0xFFFF

def strInlineMark : UInt64 := 1
def strInlineMax : ℕ := 5
def heapPointerAlignment : UInt64 := 8

def top16 (bits : UInt64) : UInt16 := (bits >>> 48).toUInt16

/-! ## Constructors -/

/-- The counter of the thread; `none` once it is torn down. -/
abbrev Counter := Option UInt64

def mintNanIdentity : Counter → UInt64 × Counter
  | some count =>
    let next := (count + 1) &&& nanIdentityMask
    (canonicalNan ||| nanIdentityBit ||| next, some next)
  | none => (canonicalNan ||| nanIdentityBit ||| 0, none)

def isMintedNan (bits : UInt64) : Bool :=
  bits &&& ~~~nanIdentityMask == canonicalNan ||| nanIdentityBit

def bool (b : Bool) : UInt64 := tagBoolBits ||| b.toUInt64

def maxI48 : Int64 := ((1 : Int64) <<< 47) - 1

def minI48 : Int64 := -((1 : Int64) <<< 47)

/-- Integers of more than 48 bits have no word of their own: they go to the heap. -/
def int (n : Int64) : Option UInt64 :=
  if minI48 ≤ n ∧ n ≤ maxI48 then some (tagIntBits ||| (n.toUInt64 &&& payloadMask))
  else none

def float (counter : Counter) (f : UInt64) : UInt64 × Counter :=
  if isNan f then mintNanIdentity counter else (f, counter)

def floatFromBits (counter : Counter) (bits : UInt64) : UInt64 × Counter :=
  if isMintedNan bits then (bits, counter) else float counter bits

def tryNanboxHeapPointerPayload (address : UInt64) : Option UInt64 :=
  if address ≠ 0 ∧ address ≤ payloadMask ∧ address % heapPointerAlignment = 0 then some address
  else none

/-- `none` when the process is aborted. -/
def encodeNanboxHeapPointer (tagBits address : UInt64) : Option UInt64 :=
  (tryNanboxHeapPointerPayload address).map (tagBits ||| ·)

def makeInlineStr (bytes : List UInt8) : UInt64 :=
  packFrom (tagStrBits ||| strInlineMark ||| (bytes.length.toUInt64 <<< 1)) 8 bytes

/-- The word of a string whose bytes are at the address when they do not fit inline. -/
def string (address : UInt64) (bytes : List UInt8) : Option UInt64 :=
  if bytes.length ≤ strInlineMax then some (makeInlineStr bytes)
  else encodeNanboxHeapPointer tagStrBits address

/-! ## Tests and accessors -/

def isNone (bits : UInt64) : Bool := bits == tagNoneBits

def isBool (bits : UInt64) : Bool := top16 bits == tagBool

def isFloat (bits : UInt64) : Bool :=
  if bits == notImplementedBits || bits == unsetBits || bits == ellipsisBits then false
  else top16 bits ≤ tagFloatMax

def isStr (bits : UInt64) : Bool := top16 bits == tagStr

def isList (bits : UInt64) : Bool := top16 bits == tagList

def strIsInlineBits (bits : UInt64) : Bool := bits &&& strInlineMark != 0

def asBool (bits : UInt64) : Bool := bits &&& 1 != 0

def asIntRaw (bits : UInt64) : Int64 :=
  let raw := (bits &&& payloadMask).toInt64
  if bits &&& intSignBit != 0 then raw ||| (~~~payloadMask).toInt64 else raw

def asFloatRaw (bits : UInt64) : UInt64 := bits

/-- Inline, the bytes follow the first byte of the word in memory. -/
def strAsBytes (heap : UInt64 → List UInt8) (bits : UInt64) : List UInt8 :=
  if strIsInlineBits bits then ((image bits).drop 1).take ((bits >>> 1) &&& 0b111).toNat
  else heap (bits &&& payloadMask)

inductive Tag where
  | noneTag
  | boolTag
  | intTag
  | floatTag
  | strTag
  | tupleTag
  | listTag
  | opaqueTag
  deriving DecidableEq, Repr

def Tag.test : Tag → UInt64 → Bool
  | noneTag, bits => isNone bits
  | boolTag, bits => isBool bits
  | intTag, bits => top16 bits == tagInt
  | floatTag, bits => isFloat bits
  | strTag, bits => isStr bits
  | tupleTag, bits => top16 bits == tagTuple
  | listTag, bits => isList bits
  | opaqueTag, bits => top16 bits == tagOpaque

/-- The word answers to one test alone and is no sentinel. -/
def HasTag (tag : Tag) (bits : UInt64) : Prop :=
  (∀ t : Tag, t.test bits = true ↔ t = tag) ∧
    bits ≠ unsetBits ∧ bits ≠ notImplementedBits ∧ bits ≠ ellipsisBits

/-! ## Tags -/

theorem toNat_top16 (bits : UInt64) : (top16 bits).toNat = bits.toNat/2^48 := by
  have hlt := bits.toNat_lt
  rw [top16, UInt64.toNat_toUInt16, UInt64.toNat_shiftRight, Nat.shiftRight_eq_div_pow]
  change bits.toNat/2^48%2^16 = _
  omega

theorem top16_eq (bits : UInt64) (tag : UInt16) :
    (top16 bits == tag) = decide (bits.toNat/2^48 = tag.toNat) := by
  rw [Bool.eq_iff_iff, beq_iff_eq, decide_eq_true_iff, ← UInt16.toNat_inj, toNat_top16]

/-- The number that stands above the payload under a tag. -/
def Tag.code : Tag → ℕ
  | noneTag => 0xFFF9
  | boolTag => 0xFFFA
  | intTag => 0xFFFB
  | floatTag => 0xFFF8
  | strTag => 0xFFFC
  | tupleTag => 0xFFFD
  | listTag => 0xFFFE
  | opaqueTag => 0xFFFF

theorem hasTag_of_code {tag : Tag} {bits : UInt64} (h : bits.toNat/2^48 = tag.code)
    (hnone : tag ≠ .noneTag) (hfloat : tag ≠ .floatTag) : HasTag tag bits := by
  have hne (word : UInt64) (hword : word.toNat/2^48 ≠ tag.code) : bits ≠ word := by
    rintro rfl
    exact hword h
  have hcode : 0xFFF9 < tag.code := by cases tag <;> first | contradiction | decide
  have hsmall (word : UInt64) (hword : word.toNat/2^48 ≤ 0xFFF9) : bits ≠ word :=
    hne word (by omega)
  refine ⟨fun t => ?_, hsmall _ (by decide), hsmall _ (by decide), hsmall _ (by decide)⟩
  cases t with
  | noneTag =>
    refine iff_of_false (fun ht => hsmall tagNoneBits (by decide) (beq_iff_eq.mp ht)) ?_
    exact fun heq => hnone heq.symm
  | floatTag =>
    refine iff_of_false (fun ht => ?_) fun heq => hfloat heq.symm
    rw [Tag.test, isFloat] at ht
    split at ht
    case isTrue => cases ht
    case isFalse =>
      have hle := UInt16.le_iff_toNat_le.mp (decide_eq_true_iff.mp ht)
      rw [toNat_top16, h] at hle
      exact absurd hle (by rw [show tagFloatMax.toNat = 0xFFF8 from rfl]; omega)
  | _ =>
    simp only [Tag.test, isBool, isStr, isList, top16_eq, h, decide_eq_true_iff]
    cases tag <;> first | contradiction | decide

theorem hasTag_float {bits : UInt64} (h : bits.toNat/2^48 ≤ 0xFFF8) (hunset : bits ≠ unsetBits)
    (hni : bits ≠ notImplementedBits) (hell : bits ≠ ellipsisBits) : HasTag .floatTag bits := by
  refine ⟨fun t => ?_, hunset, hni, hell⟩
  cases t with
  | noneTag =>
    refine iff_of_false (fun ht => ?_) (by decide)
    rw [Tag.test, isNone, beq_iff_eq] at ht
    subst ht
    exact absurd h (by decide)
  | floatTag =>
    refine iff_of_true ?_ rfl
    have hle : top16 bits ≤ tagFloatMax := by
      rw [UInt16.le_iff_toNat_le, toNat_top16]
      exact h
    rw [Tag.test, isFloat, if_neg (by simp [hunset, hni, hell])]
    exact decide_eq_true hle
  | _ =>
    refine iff_of_false (fun ht => ?_) (by decide)
    simp only [Tag.test, isBool, isStr, isList, top16_eq, decide_eq_true_iff] at ht
    rw [ht] at h
    exact absurd h (by decide)

/-! ## Integers, booleans and pointers -/

theorem toNat_payloadMask : payloadMask.toNat = 2^48-1 := rfl

theorem bool_spec (b : Bool) : HasTag .boolTag (bool b) ∧ asBool (bool b) = b := by
  cases b with
  | false => exact ⟨hasTag_of_code (by decide) (by decide) (by decide), by decide⟩
  | true => exact ⟨hasTag_of_code (by decide) (by decide) (by decide), by decide⟩

theorem holds_payload {tagBits : UInt64} {t : ℕ} (htag : tagBits.toNat = t*2^48)
    (word : UInt64) :
    Holds 48 t (word &&& payloadMask) (tagBits ||| (word &&& payloadMask)) := by
  refine Holds.or htag ?_
  rw [toNat_mask toNat_payloadMask]
  exact Nat.mod_lt _ (Nat.two_pow_pos 48)

/-- The word of a small integer is small, or close below the last one. -/
theorem toNat_toUInt64 {n : Int64} (hlo : -2^47 ≤ n.toInt) (hhi : n.toInt < 2^47) :
    n.toUInt64.toNat < 2^47 ∨ 2^64-2^47 ≤ n.toUInt64.toNat := by
  have hlt := n.toBitVec.isLt
  rw [← Int64.toInt_toBitVec, BitVec.toInt_eq_toNat_bmod, Int.bmod] at hlo hhi
  change n.toBitVec.toNat < 2^47 ∨ 2^64-2^47 ≤ n.toBitVec.toNat
  split at hlo <;> omega

theorem asIntRaw_tagged {tagBits : UInt64} {t : ℕ} (htag : tagBits.toNat = t*2^48) {n : Int64}
    (hlo : -2^47 ≤ n.toInt) (hhi : n.toInt < 2^47) :
    asIntRaw (tagBits ||| (n.toUInt64 &&& payloadMask)) = n := by
  have hp := toNat_mask toNat_payloadMask n.toUInt64
  have hholds := holds_payload htag n.toUInt64
  have hsmall := toNat_toUInt64 hlo hhi
  have hlt := n.toUInt64.toNat_lt
  rw [asIntRaw, hholds.mask_eq toNat_payloadMask, bit_test (i := 47) (by decide),
    hholds.testBit (by decide), testBit_top hholds.1]
  by_cases hsign : 2^47 ≤ (n.toUInt64 &&& payloadMask).toNat
  · -- the bits from 48 on are those of the sign
    have hor : (n.toUInt64 &&& payloadMask) ||| ~~~payloadMask = n.toUInt64 := by
      have hhigh : Holds 48 0xFFFF (n.toUInt64 &&& payloadMask)
          (~~~payloadMask ||| (n.toUInt64 &&& payloadMask)) := Holds.or (by decide) hholds.1
      rw [UInt64.or_comm, ← UInt64.toNat_inj, hhigh.2]
      omega
    rw [decide_eq_true hsign, if_pos rfl, ← UInt64.toInt64_or, hor, Int64.toInt64_toUInt64]
  · have hsame : n.toUInt64 &&& payloadMask = n.toUInt64 := by
      rw [← UInt64.toNat_inj, hp]
      omega
    rw [decide_eq_false hsign, if_neg Bool.false_ne_true, hsame, Int64.toInt64_toUInt64]

theorem int_spec {n : Int64} (hlo : -2^47 ≤ n.toInt) (hhi : n.toInt < 2^47) :
    ∃ bits, int n = some bits ∧ HasTag .intTag bits ∧ asIntRaw bits = n := by
  have hlo' : minI48 ≤ n := Int64.le_iff_toInt_le.mpr hlo
  have hhi' : n ≤ maxI48 := Int64.le_iff_toInt_le.mpr (Int.le_sub_one_of_lt hhi)
  have hholds : Holds 48 0xFFFB (n.toUInt64 &&& payloadMask)
      (tagIntBits ||| (n.toUInt64 &&& payloadMask)) := holds_payload (by decide) n.toUInt64
  exact ⟨_, if_pos ⟨hlo', hhi'⟩, hasTag_of_code hholds.tag_eq (by decide) (by decide),
    asIntRaw_tagged (t := 0xFFFB) (by decide) hlo hhi⟩

theorem pointer_spec {tag : Tag} {tagBits address bits : UInt64}
    (htag : tagBits.toNat = tag.code*2^48) (hnone : tag ≠ .noneTag) (hfloat : tag ≠ .floatTag)
    (h : encodeNanboxHeapPointer tagBits address = some bits) :
    HasTag tag bits ∧ bits &&& payloadMask = address ∧ strIsInlineBits bits = false := by
  obtain ⟨payload, hpayload, rfl⟩ := Option.map_eq_some_iff.mp h
  rw [tryNanboxHeapPointerPayload] at hpayload
  split at hpayload
  case isFalse => cases hpayload
  case isTrue hok =>
    obtain rfl := Option.some.inj hpayload
    obtain ⟨-, hle, halign⟩ := hok
    have hlt : address.toNat < 2^48 := by
      have := UInt64.le_iff_toNat_le.mp hle
      rw [toNat_payloadMask] at this
      omega
    have hholds := Holds.or htag hlt
    refine ⟨hasTag_of_code hholds.tag_eq hnone hfloat, hholds.mask_eq toNat_payloadMask, ?_⟩
    rw [strIsInlineBits, bit_test (i := 0) (by decide), hholds.testBit (by decide)]
    have hmod : address.toNat%8 = 0 := by
      rw [← UInt64.toNat_inj, UInt64.toNat_mod] at halign
      exact halign
    rw [Nat.testBit_zero]
    have : address.toNat%2 = 0 := by omega
    rw [this]
    rfl

/-! ## Short strings -/

/-- The marker, the length and the bytes stand above each other. -/
theorem toNat_makeInlineStr {bytes : List UInt8} (h : bytes.length ≤ strInlineMax) :
    (makeInlineStr bytes).toNat =
      0xFFFC*2^48+(1+2*bytes.length+256*ofBytes bytes) ∧
      1+2*bytes.length+256*ofBytes bytes < 2^48 := by
  have hheader : (strInlineMark ||| bytes.length.toUInt64 <<< 1).toNat = 1+2*bytes.length := by
    generalize bytes.length = n at h
    rw [strInlineMax] at h
    interval_cases n <;> rfl
  have hsmall : (strInlineMark ||| bytes.length.toUInt64 <<< 1).toNat < 2^8 := by
    rw [hheader]
    rw [strInlineMax] at h
    omega
  have hdigits : ofBytes bytes < 256^5 :=
    (ofBytes_lt bytes).trans_le (Nat.pow_le_pow_right (by decide) h)
  have hpack := toNat_packFrom bytes hsmall (by
    rw [strInlineMax] at h
    omega)
  rw [hheader] at hpack
  have hlt : 1+2*bytes.length+256*ofBytes bytes < 2^48 := by
    rw [strInlineMax] at h
    omega
  refine ⟨?_, hlt⟩
  rw [makeInlineStr, UInt64.or_assoc, packFrom_or]
  have hor : Holds 48 0xFFFC (packFrom (strInlineMark ||| bytes.length.toUInt64 <<< 1) 8 bytes)
      (tagStrBits ||| packFrom (strInlineMark ||| bytes.length.toUInt64 <<< 1) 8 bytes) :=
    Holds.or (by decide) (by
      rw [hpack]
      exact hlt)
  rw [hor.2, hpack]
  rfl

theorem inline_marked {bytes : List UInt8} (h : bytes.length ≤ strInlineMax) :
    strIsInlineBits (makeInlineStr bytes) = true := by
  have hnat := (toNat_makeInlineStr h).1
  rw [strIsInlineBits, bit_test (i := 0) (by decide), Nat.testBit_zero, decide_eq_true_iff]
  omega

theorem inline_length {bytes : List UInt8} (h : bytes.length ≤ strInlineMax) :
    ((makeInlineStr bytes >>> 1) &&& 0b111).toNat = bytes.length := by
  have hnat := (toNat_makeInlineStr h).1
  rw [toNat_mask (k := 3) (by decide), UInt64.toNat_shiftRight, Nat.shiftRight_eq_div_pow]
  rw [strInlineMax] at h
  change (makeInlineStr bytes).toNat/2^1%2^3 = _
  omega

theorem inline_byte {bytes : List UInt8} (h : bytes.length ≤ strInlineMax) {i : ℕ}
    (hi : i < bytes.length) : (makeInlineStr bytes).toNat/256^(1+i)%256 = bytes[i].toNat := by
  have hnat := (toNat_makeInlineStr h).1
  rw [strInlineMax] at h
  have hdiv : (makeInlineStr bytes).toNat/256 = 0xFFFC*2^40+ofBytes bytes := by omega
  have htag : 0xFFFC*2^40 = 256^i*(256*(0xFFFC*256^(4-i))) := by
    have hsplit : (256 : ℕ)^5 = 256^i*(256*256^(4-i)) := by
      rw [← pow_succ', ← pow_add]
      congr 1
      omega
    calc 0xFFFC*2^40 = 0xFFFC*256^5 := by norm_num
      _ = _ := by
        rw [hsplit]
        ring
  rw [pow_add, pow_one, ← Nat.div_div_eq_div_mul, hdiv, htag,
    Nat.mul_add_div (Nat.pow_pos (by decide)), Nat.mul_add_mod, ofBytes_digit hi]

theorem inline_bytes {bytes : List UInt8} (h : bytes.length ≤ strInlineMax)
    (heap : UInt64 → List UInt8) : strAsBytes heap (makeInlineStr bytes) = bytes := by
  rw [strAsBytes, if_pos (inline_marked h), inline_length h]
  have himage : (image (makeInlineStr bytes)).length = 8 := by simp [image]
  rw [strInlineMax] at h
  refine List.ext_getElem ?_ fun i hi hi' => ?_
  · rw [List.length_take, List.length_drop, himage]
    omega
  · rw [List.getElem_take, List.getElem_drop, ← UInt8.toNat_inj, image_getElem,
      inline_byte h hi']

/-! ## Floats -/

/-- A word with the bits of a minted pattern is a float and stays as it is. -/
theorem minted_spec (x : UInt64) :
    HasTag .floatTag (canonicalNan ||| nanIdentityBit ||| (x &&& nanIdentityMask)) ∧
    isNan (canonicalNan ||| nanIdentityBit ||| (x &&& nanIdentityMask)) = true ∧
    isMintedNan (canonicalNan ||| nanIdentityBit ||| (x &&& nanIdentityMask)) = true := by
  have hmask : (x &&& nanIdentityMask).toNat = x.toNat%2^47 := toNat_mask (by decide) x
  have hholds : Holds 47 (0x7FF8*2+1) (x &&& nanIdentityMask)
      (canonicalNan ||| nanIdentityBit ||| (x &&& nanIdentityMask)) :=
    Holds.or (by decide) (by omega)
  have hnat := hholds.2
  have hne (word : UInt64) (hword : word.toNat%2^48 < 2^47) :
      canonicalNan ||| nanIdentityBit ||| (x &&& nanIdentityMask) ≠ word := by
    rintro rfl
    omega
  refine ⟨hasTag_float (by omega) (hne _ (by decide)) (hne _ (by decide)) (hne _ (by decide)),
    ?_, ?_⟩
  · rw [isNan, biasedExponent, fraction, hnat, Bool.and_eq_true, beq_iff_eq, bne_iff_ne]
    omega
  · rw [isMintedNan, beq_iff_eq]
    exact or_and_not (by decide) x

theorem mint_spec (counter : Counter) :
    HasTag .floatTag (mintNanIdentity counter).1 ∧ isNan (mintNanIdentity counter).1 = true ∧
      isMintedNan (mintNanIdentity counter).1 = true := by
  cases counter with
  | some count => exact minted_spec (count+1)
  | none => exact minted_spec 0

/-- Everything that is no NaN lies below the tags and is no sentinel. -/
theorem number_spec {f : UInt64} (h : isNan f = false) : HasTag .floatTag f := by
  have hne (word : UInt64) (hword : isNan word = true) : f ≠ word := by
    rintro rfl
    rw [h] at hword
    cases hword
  refine hasTag_float ?_ (hne _ (by decide)) (hne _ (by decide)) (hne _ (by decide))
  have hlt := f.toNat_lt
  by_contra hgt
  refine absurd h ?_
  rw [Bool.not_eq_false, isNan, biasedExponent, fraction, Bool.and_eq_true, beq_iff_eq,
    bne_iff_ne]
  omega

theorem float_spec (counter : Counter) (f : UInt64) :
    HasTag .floatTag (float counter f).1 ∧
      (isNan f = false → asFloatRaw (float counter f).1 = f) ∧
      (isNan f = true → isNan (asFloatRaw (float counter f).1) = true) := by
  rw [float]
  cases hnan : isNan f with
  | false => exact ⟨number_spec hnan, fun _ => rfl, Bool.noConfusion⟩
  | true => exact ⟨(mint_spec counter).1, Bool.noConfusion, fun _ => (mint_spec counter).2.1⟩

theorem floatFromBits_spec (counter : Counter) (bits : UInt64) :
    HasTag .floatTag (floatFromBits counter bits).1 := by
  rw [floatFromBits]
  cases hminted : isMintedNan bits with
  | false => exact (float_spec counter bits).1
  | true =>
    rw [isMintedNan, beq_iff_eq] at hminted
    have hbits := and_not_or bits nanIdentityMask
    rw [hminted] at hbits
    have hfloat := (minted_spec bits).1
    rwa [hbits] at hfloat

/-- The words of so many mintings one after the other. -/
def mintings : ℕ → Counter → List UInt64
  | 0, _ => []
  | n+1, counter => (mintNanIdentity counter).1::mintings n (mintNanIdentity counter).2

theorem mintings_spec (n : ℕ) (counter : Counter) : ∀ bits ∈ mintings n counter,
    HasTag .floatTag bits ∧ isNan bits = true ∧
      ∀ counter, floatFromBits counter bits = (bits, counter) := by
  induction n generalizing counter with
  | zero => exact fun bits h => absurd h List.not_mem_nil
  | succ n ih =>
    intro bits h
    rcases List.mem_cons.mp h with rfl | h
    · obtain ⟨htag, hnan, hminted⟩ := mint_spec counter
      exact ⟨htag, hnan, fun _ => if_pos hminted⟩
    · exact ih _ bits h

theorem makeInlineStr_injective {xs ys : List UInt8} (hx : xs.length ≤ strInlineMax)
    (hy : ys.length ≤ strInlineMax) (h : makeInlineStr xs = makeInlineStr ys) : xs = ys := by
  rw [← inline_bytes hx fun _ => [], h, inline_bytes hy]

theorem inline_tag {bytes : List UInt8} (h : bytes.length ≤ strInlineMax) :
    HasTag .strTag (makeInlineStr bytes) := by
  obtain ⟨hnat, hlt⟩ := toNat_makeInlineStr h
  refine hasTag_of_code ?_ (by decide) (by decide)
  rw [hnat, Tag.code]
  omega

/-- What a constructor puts in the word is what the tests and the accessors find. -/
theorem words_decode :
    (∀ n : Int64, -2^47 ≤ n.toInt → n.toInt < 2^47 →
      ∃ bits, int n = some bits ∧ HasTag .intTag bits ∧ asIntRaw bits = n) ∧
    (∀ b, HasTag .boolTag (bool b) ∧ asBool (bool b) = b) ∧
    (∀ counter f, HasTag .floatTag (float counter f).1 ∧
      (isNan f = false → asFloatRaw (float counter f).1 = f) ∧
      (isNan f = true → isNan (asFloatRaw (float counter f).1) = true)) ∧
    (∀ address bytes, bytes.length ≤ 5 → string address bytes = some (makeInlineStr bytes) ∧
      HasTag .strTag (makeInlineStr bytes) ∧ strIsInlineBits (makeInlineStr bytes) = true ∧
      ∀ heap, strAsBytes heap (makeInlineStr bytes) = bytes) ∧
    (∀ xs ys, xs.length ≤ 5 → ys.length ≤ 5 → (makeInlineStr xs = makeInlineStr ys ↔ xs = ys)) ∧
    (∀ address payload, tryNanboxHeapPointerPayload address = some payload →
      ∀ p ∈ [(Tag.strTag, tagStrBits), (.tupleTag, tagTupleBits), (.listTag, tagListBits),
        (.opaqueTag, tagOpaqueBits)],
      ∃ bits, encodeNanboxHeapPointer p.2 address = some bits ∧ HasTag p.1 bits ∧
        bits &&& payloadMask = address ∧ strIsInlineBits bits = false ∧
        ∀ heap, strAsBytes heap bits = heap address) ∧
    (∀ n counter, ∀ bits ∈ mintings n counter, HasTag .floatTag bits ∧ isNan bits = true ∧
      ∀ counter, floatFromBits counter bits = (bits, counter)) ∧
    ∀ counter bits, HasTag .floatTag (floatFromBits counter bits).1 := by
  refine ⟨fun n => int_spec, bool_spec, float_spec, fun address bytes h => ?_,
    fun xs ys hx hy => ⟨makeInlineStr_injective hx hy, congrArg makeInlineStr⟩,
    fun address payload h p hp => ?_, mintings_spec, floatFromBits_spec⟩
  · exact ⟨if_pos h, inline_tag h, inline_marked h, inline_bytes h⟩
  · have hbits : encodeNanboxHeapPointer p.2 address = some (p.2 ||| payload) := by
      rw [encodeNanboxHeapPointer, h]
      rfl
    have hspec : HasTag p.1 (p.2 ||| payload) ∧ (p.2 ||| payload) &&& payloadMask = address ∧
        strIsInlineBits (p.2 ||| payload) = false := by
      simp only [List.mem_cons, List.not_mem_nil, or_false] at hp
      rcases hp with rfl | rfl | rfl | rfl <;>
        exact pointer_spec (by decide) (by decide) (by decide) hbits
    refine ⟨_, hbits, hspec.1, hspec.2.1, hspec.2.2, fun heap => ?_⟩
    rw [strAsBytes, hspec.2.2, if_neg Bool.false_ne_true, hspec.2.1]

theorem words_decode_minus_one :
    int (-1) = some 0xFFFBFFFFFFFFFFFF ∧
      ∃ bits, int (-1) = some bits ∧ HasTag .intTag bits ∧ asIntRaw bits = -1 :=
  ⟨by decide, words_decode.1 (-1) (by decide) (by decide)⟩

end Pyrust.NanBoxing
