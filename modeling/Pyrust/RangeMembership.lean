import Pyrust.KeyNumbers
import Pyrust.RangeValues
import Pyrust.SizedIntegers

/-!
# Membership in a range

Whether a number is in a range is decided from the bounds and the remainder of the
distance to the start. A float is looked up as the integer it is, if it is one.
-/

set_option autoImplicit false

namespace Pyrust.RangeMembership

open Binary64 FixedWidth RangeValues SizedIntegers

/-! ## The tests -/

/-- The left operand of `in`, with floats as bit patterns. -/
inductive Item where
  | int (v : ℤ)
  | bool (b : Bool)
  | bigInt (n : ℤ)
  | float (bits : UInt64)
  | complex (re im : UInt64)
  | other

/-- The distance from the start is a multiple of the step. -/
def onStep (width : Option ℕ) (start step x : ℤ) : Except Stop Bool := do
  let distance ← arith width (x - start)
  let rest ← remainder width distance step
  pure (rest == 0)

/-- `i64_range_contains`. -/
def i64RangeContains (start stop step x : ℤ) : Except Stop Bool :=
  if 0 < step then
    if start ≤ x ∧ x < stop then onStep (some 128) start step x else pure false
  else if step < 0 then
    if x ≤ start ∧ stop < x then onStep (some 128) start step x else pure false
  else pure false

def toI64 (n : ℤ) : Option ℤ := if Fits 64 n then some n else none

/-- A finite float without a fraction that is in the range of `i64`. -/
def floatToI64 (bits : UInt64) : Option ℤ :=
  if isFinite bits ∧ isIntegral bits ∧ -2^63*one ≤ scaled bits ∧ scaled bits < 2^63*one then
    some (trunc bits)
  else none

/-- The item as an `i64`; no other item is in a range of that type. -/
def Item.asI64 : Item → Option ℤ
  | .int v => some v
  | .bool b => some (if b then 1 else 0)
  | .bigInt n => toI64 n
  | .float bits => floatToI64 bits
  | .complex re im => if isZero im then floatToI64 re else none
  | .other => none

/-- The arm of `Range`. -/
def rangeContains (start stop step : ℤ) (item : Item) : Except Stop Bool :=
  match item.asI64 with
  | some v => i64RangeContains start stop step v
  | none => pure false

def bigrangeContains (start stop step v : ℤ) : Except Stop Bool :=
  let inBounds := if 0 < step then decide (start ≤ v ∧ v < stop) else decide (v ≤ start ∧ stop < v)
  if inBounds then onStep none start step v else pure false

def intValuedFloat (bits : UInt64) : Option ℤ :=
  if isFinite bits ∧ isIntegral bits then some (trunc bits) else none

def Item.asInt : Item → Option ℤ
  | .int v => some v
  | .bool b => some (if b then 1 else 0)
  | .bigInt n => some n
  | .float bits => intValuedFloat bits
  | .complex re im => if isZero im then intValuedFloat re else none
  | .other => none

/-- The arm of `BigRange`. -/
def bigRangeContains (start stop step : ℤ) (item : Item) : Except Stop Bool :=
  match item.asInt with
  | some v => bigrangeContains start stop step v
  | none => pure false

/-! ## Values -/

/-- The item is a number, and that number is the integer. -/
def Item.Equals : Item → ℤ → Prop
  | .int v, n => v = n
  | .bool b, n => (if b then 1 else 0) = n
  | .bigInt m, n => m = n
  | .float bits, n => part bits = .finite (n*one)
  | .complex re im, n => part re = .finite (n*one) ∧ part im = .finite 0
  | .other, _ => False

section items

theorem intValuedFloat_iff {bits : UInt64} {n : ℤ} :
    intValuedFloat bits = some n ↔ part bits = .finite (n*one) := by
  rw [intValuedFloat]
  constructor
  · intro h
    by_cases hint : isFinite bits ∧ isIntegral bits
    · obtain ⟨m, hm⟩ := (isIntegral_iff bits).mp hint.2
      rw [if_pos hint, trunc_eq bits m hm] at h
      obtain rfl := Option.some.inj h
      exact hm
    · rw [if_neg hint] at h
      cases h
  · intro h
    have hfin := ((part_eq_finite_iff bits _).mp h).1
    rw [if_pos ⟨hfin, (isIntegral_iff bits).mpr ⟨n, h⟩⟩, trunc_eq bits n h]

theorem floatToI64_iff {bits : UInt64} {n : ℤ} :
    floatToI64 bits = some n ↔ part bits = .finite (n*one) ∧ Fits 64 n := by
  have hone := one_pos
  rw [← intValuedFloat_iff, floatToI64, intValuedFloat]
  by_cases hint : isFinite bits ∧ isIntegral bits
  · obtain ⟨m, hm⟩ := (isIntegral_iff bits).mp hint.2
    have hrange : (-2^63*one ≤ scaled bits ∧ scaled bits < 2^63*one) ↔ Fits 64 m := by
      rw [((part_eq_finite_iff bits _).mp hm).2]
      exact and_congr (mul_le_mul_iff_left₀ hone) (mul_lt_mul_iff_left₀ hone)
    rw [if_pos hint, trunc_eq bits m hm]
    by_cases hfits : Fits 64 m
    · rw [if_pos ⟨hint.1, hint.2, hrange.mpr hfits⟩]
      refine ⟨fun h => ⟨h, ?_⟩, And.left⟩
      rwa [← Option.some.inj h]
    · rw [if_neg fun h => hfits (hrange.mp h.2.2)]
      refine ⟨fun h => (by cases h), fun h => absurd ?_ hfits⟩
      rw [Option.some.inj h.1]
      exact h.2
  · rw [if_neg hint, if_neg fun h => hint ⟨h.1, h.2.1⟩]
    exact ⟨fun h => (by cases h), fun h => (by cases h.1)⟩

theorem asInt_iff {item : Item} {n : ℤ} : item.asInt = some n ↔ item.Equals n := by
  cases item with
  | int v => exact Option.some_inj
  | bool b => exact Option.some_inj
  | bigInt m => exact Option.some_inj
  | float bits => exact intValuedFloat_iff
  | complex re im =>
    rw [Item.asInt, Item.Equals, ← isZero_iff, ← intValuedFloat_iff]
    by_cases him : isZero im = true
    · rw [if_pos him]
      exact (and_iff_left him).symm
    · rw [if_neg him]
      exact ⟨fun h => (by cases h), fun h => absurd h.2 him⟩
  | other => exact ⟨fun h => (by cases h), fun h => h.elim⟩

theorem asI64_iff {item : Item} {n : ℤ} (hitem : ∀ v, item = .int v → Fits 64 v) :
    item.asI64 = some n ↔ item.Equals n ∧ Fits 64 n := by
  rw [← asInt_iff]
  cases item with
  | int v =>
    refine ⟨fun h => ⟨h, ?_⟩, And.left⟩
    rw [← Option.some.inj h]
    exact hitem v rfl
  | bool b =>
    refine ⟨fun h => ⟨h, ?_⟩, And.left⟩
    rw [← Option.some.inj h]
    cases b <;> decide
  | bigInt m =>
    rw [Item.asI64, Item.asInt, toI64]
    by_cases hm : Fits 64 m
    · rw [if_pos hm]
      refine ⟨fun h => ⟨h, ?_⟩, And.left⟩
      rwa [← Option.some.inj h]
    · rw [if_neg hm]
      refine ⟨fun h => (by cases h), fun h => absurd ?_ hm⟩
      rw [Option.some.inj h.1]
      exact h.2
  | float bits =>
    rw [Item.asI64, Item.asInt, floatToI64_iff, intValuedFloat_iff]
  | complex re im =>
    rw [Item.asI64, Item.asInt]
    by_cases him : isZero im = true
    · rw [if_pos him, if_pos him, floatToI64_iff, intValuedFloat_iff]
    · rw [if_neg him, if_neg him]
      exact ⟨fun h => (by cases h), fun h => (by cases h.1)⟩
  | other => exact ⟨fun h => (by cases h), fun h => (by cases h.1)⟩

end items

/-! ## Elements -/

section elements
variable {start stop step x : ℤ}

/-- An element lies before the stop, and a multiple of the step that is not negative leads to it. -/
theorem mem_yields : x ∈ yields stop step start ↔
    Before stop step x ∧ ∃ k : ℕ, x = start + k*step := by
  rw [yields_eq, List.mem_map]
  constructor
  · rintro ⟨k, hk, rfl⟩
    exact ⟨(before_iff start stop step k).mpr (List.mem_range.mp hk), k, rfl⟩
  · rintro ⟨hbefore, k, rfl⟩
    exact ⟨k, List.mem_range.mpr ((before_iff start stop step k).mp hbefore), rfl⟩

theorem mem_yields_pos (hstep : 0 < step) :
    x ∈ yields stop step start ↔ (start ≤ x ∧ x < stop) ∧ step ∣ x - start := by
  rw [mem_yields]
  constructor
  · rintro ⟨hbefore, k, rfl⟩
    have hk : 0 ≤ k*step := mul_nonneg (Int.natCast_nonneg k) hstep.le
    refine ⟨⟨by linarith, ?_⟩, ⟨k, by ring⟩⟩
    rcases hbefore with h | h
    · exact h.2
    · omega
  · rintro ⟨⟨hle, hlt⟩, c, hc⟩
    have hc0 : 0 ≤ c := by
      by_contra hneg
      have := mul_neg_of_pos_of_neg hstep (not_le.mp hneg)
      omega
    refine ⟨.inl ⟨hstep, hlt⟩, c.toNat, ?_⟩
    rw [Int.toNat_of_nonneg hc0, mul_comm, ← hc]
    ring

theorem mem_yields_neg (hstep : step < 0) :
    x ∈ yields stop step start ↔ (x ≤ start ∧ stop < x) ∧ step ∣ x - start := by
  rw [mem_yields]
  constructor
  · rintro ⟨hbefore, k, rfl⟩
    have hk : k*step ≤ 0 := mul_nonpos_of_nonneg_of_nonpos (Int.natCast_nonneg k) hstep.le
    refine ⟨⟨by linarith, ?_⟩, ⟨k, by ring⟩⟩
    rcases hbefore with h | h
    · omega
    · exact h.2
  · rintro ⟨⟨hle, hlt⟩, c, hc⟩
    have hc0 : 0 ≤ c := by
      by_contra hneg
      have := mul_pos_of_neg_of_neg hstep (not_le.mp hneg)
      omega
    refine ⟨.inr ⟨hstep, hlt⟩, c.toNat, ?_⟩
    rw [Int.toNat_of_nonneg hc0, mul_comm, ← hc]
    ring

theorem onStep_eq {width : Option ℕ} {bound : ℤ} (h : Holds width bound) (hstep : step ≠ 0)
    (hx : |x - start| ≤ bound) :
    onStep width start step x = .ok (decide (step ∣ x - start)) := by
  rw [onStep, h _ hx, ok_bind, remainder_eq h hstep hx, ok_bind]
  refine congrArg Except.ok ?_
  rw [Bool.eq_iff_iff, beq_iff_eq, decide_eq_true_iff, Int.dvd_iff_tmod_eq_zero]

theorem i64RangeContains_spec (hstart : Fits 64 start) (hstop : Fits 64 stop) (hstep : step ≠ 0) :
    i64RangeContains start stop step x = .ok (decide (x ∈ yields stop step start)) := by
  rw [fits_64] at hstart hstop
  rw [i64RangeContains]
  by_cases hpos : 0 < step
  · rw [if_pos hpos]
    by_cases hin : start ≤ x ∧ x < stop
    · rw [if_pos hin, onStep_eq holds_128 hstep (abs_le.mpr (by omega))]
      simp [mem_yields_pos hpos, hin]
    · rw [if_neg hin]
      simp only [mem_yields_pos hpos, hin, false_and, decide_false]
      rfl
  · have hneg : step < 0 := by omega
    rw [if_neg hpos, if_pos hneg]
    by_cases hin : x ≤ start ∧ stop < x
    · rw [if_pos hin, onStep_eq holds_128 hstep (abs_le.mpr (by omega))]
      simp [mem_yields_neg hneg, hin]
    · rw [if_neg hin]
      simp only [mem_yields_neg hneg, hin, false_and, decide_false]
      rfl

theorem bigrangeContains_spec (hstep : step ≠ 0) :
    bigrangeContains start stop step x = .ok (decide (x ∈ yields stop step start)) := by
  have honStep : onStep none start step x = .ok (decide (step ∣ x - start)) :=
    onStep_eq (holds_none |x - start|) hstep (le_refl _)
  rw [bigrangeContains, honStep]
  by_cases hpos : 0 < step
  · by_cases hin : start ≤ x ∧ x < stop
    · simp [mem_yields_pos hpos, hpos, hin]
    · simp only [mem_yields_pos hpos, hpos, hin, if_true, decide_false, false_and]
      rfl
  · have hneg : step < 0 := by omega
    by_cases hin : x ≤ start ∧ stop < x
    · simp [mem_yields_neg hneg, hpos, hin]
    · simp only [mem_yields_neg hneg, hpos, hin, if_false, decide_false, false_and]
      rfl

/-- A range holds no number outside the type of its bounds. -/
theorem fits_of_mem (hstart : Fits 64 start) (hstop : Fits 64 stop) (hstep : step ≠ 0)
    (h : x ∈ yields stop step start) : Fits 64 x := by
  rw [fits_64] at *
  rcases lt_or_gt_of_ne hstep with hneg | hpos
  · have := ((mem_yields_neg hneg).mp h).1
    omega
  · have := ((mem_yields_pos hpos).mp h).1
    omega

end elements

/-- The test for membership is true exactly when an element of the range equals the number, for
ranges of both sizes. -/
theorem range_membership_exact (item : Item) (hitem : ∀ v, item = .int v → Fits 64 v)
    {start stop step : ℤ} (hstep : step ≠ 0) :
    (Fits 64 start → Fits 64 stop →
      ∃ answer, rangeContains start stop step item = .ok answer ∧
        (answer = true ↔ ∃ x ∈ yields stop step start, item.Equals x)) ∧
      ∃ answer, bigRangeContains start stop step item = .ok answer ∧
        (answer = true ↔ ∃ x ∈ yields stop step start, item.Equals x) := by
  constructor
  · intro hstart hstop
    rw [rangeContains]
    cases hn : item.asI64 with
    | none =>
      refine ⟨false, rfl, iff_of_false Bool.false_ne_true ?_⟩
      rintro ⟨x, hx, heq⟩
      have hfits := fits_of_mem hstart hstop hstep hx
      cases hn.symm.trans ((asI64_iff hitem).mpr ⟨heq, hfits⟩)
    | some n =>
      refine ⟨_, i64RangeContains_spec hstart hstop hstep, ?_⟩
      rw [decide_eq_true_iff]
      refine ⟨fun h => ⟨n, h, ((asI64_iff hitem).mp hn).1⟩, ?_⟩
      rintro ⟨x, hx, heq⟩
      have hfits := fits_of_mem hstart hstop hstep hx
      rwa [Option.some.inj (hn.symm.trans ((asI64_iff hitem).mpr ⟨heq, hfits⟩))]
  · rw [bigRangeContains]
    cases hn : item.asInt with
    | none =>
      refine ⟨false, rfl, iff_of_false Bool.false_ne_true ?_⟩
      rintro ⟨x, hx, heq⟩
      cases hn.symm.trans (asInt_iff.mpr heq)
    | some n =>
      refine ⟨_, bigrangeContains_spec hstep, ?_⟩
      rw [decide_eq_true_iff]
      refine ⟨fun h => ⟨n, h, asInt_iff.mp hn⟩, ?_⟩
      rintro ⟨x, hx, heq⟩
      rwa [Option.some.inj (hn.symm.trans (asInt_iff.mpr heq))]

theorem range_membership_exact_last :
    ∃ answer, rangeContains (2^63-1) (-2^63) (-1) (.float 0xC3E0000000000000) = .ok answer ∧
      (answer = true ↔ ∃ x ∈ yields (-2^63) (-1) (2^63-1),
        (Item.float 0xC3E0000000000000).Equals x) :=
  (range_membership_exact (.float 0xC3E0000000000000) (fun v h => by cases h) (by decide)).1
    (by decide) (by decide)

end Pyrust.RangeMembership
