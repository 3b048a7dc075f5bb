import Mathlib.Tactic.IntervalCases
import Pyrust.IntegerConversion

/-!
# Equality of numeric values

Values are compared by code of their own, apart from that of the keys. It agrees with the
keys and with the numbers for all pairs but those with a complex number: an integer is
rounded to a double before it is compared, and a boolean or a big integer never equals one.
-/

set_option autoImplicit false

namespace Pyrust.NumericEquality

open Binary64 Keys KeyNumbers IntegerConversion

/-! ## Values -/

/-- Numbers without a NaN; a big integer is out of `i64` range. -/
inductive Value where
  | int (v : Int64)
  | bool (b : Bool)
  | bigInt (n : ℤ) (h : fitsI64 n = false)
  | float (f : UInt64) (h : isNan f = false)
  | complex (re im : UInt64) (hre : isNan re = false) (him : isNan im = false)

def Value.key : Value → PyKey
  | int v => .int v
  | bool b => .bool b
  | bigInt n _ => .bigInt n
  | float f _ => .float f
  | complex re im _ _ => .complex re im

/-- The number that is stood for; a complex one without an imaginary part is a real one. -/
def Value.number : Value → Number
  | int v => .real (.finite (v.toInt*one))
  | bool b => .real (.finite ((if b then 1 else 0)*one))
  | bigInt n _ => .real (.finite (n*one))
  | float f _ => .real (part f)
  | complex re im _ _ => if isZero im then .real (part re) else .complex (part re) (part im)

def intFloatEq (i : Int64) (f : UInt64) : Bool :=
  if !isFinite f || !isIntegral f then false
  else if scaled f < -2^63*one ∨ 2^63*one ≤ scaled f then false
  else Int64.ofInt (trunc f) == i

def Value.eq : Value → Value → Bool
  | int a, int b => a == b
  | int a, float b _ => intFloatEq a b
  | float a _, int b => intFloatEq b a
  | float a _, float b _ => feq a b
  | bigInt a _, bigInt b _ => a == b
  | bigInt a _, int b => a == b.toInt
  | int a, bigInt b _ => a.toInt == b
  | bigInt a _, float b _ => bigintFloatEq a b
  | float a _, bigInt b _ => bigintFloatEq b a
  | bool a, bool b => a == b
  | bool a, int b => boolAsI64 a == b
  | int a, bool b => a == boolAsI64 b
  | bool a, float b _ => feq (asF64 (if a then 1 else 0)) b
  | float a _, bool b => feq a (asF64 (if b then 1 else 0))
  | complex ar ai _ _, complex br bi _ _ => feq ar br && feq ai bi
  | int n, complex br bi _ _ => feq (asF64 n.toInt) br && feq bi 0
  | complex ar ai _ _, int n => feq ar (asF64 n.toInt) && feq ai 0
  | float f _, complex br bi _ _ => feq f br && feq bi 0
  | complex ar ai _ _, float f _ => feq ar f && feq ai 0
  | _, _ => false

/-! ## Where the two differ -/

/-- The integer is rounded to the real part of the complex number. -/
def Rounds (n : ℤ) (re im : UInt64) : Prop :=
  isZero im = true ∧ ¬IsExact n ∧ part re = part (asF64 n)

/-- The integer is the complex number. -/
def Stands (n : ℤ) (re im : UInt64) : Prop := isZero im = true ∧ part re = .finite (n*one)

/-- The complex number is not one to which the integer is rounded, and not the one that the
boolean or the big integer stands for. -/
def Value.Compared : Value → Value → Prop
  | int n, complex re im _ _ => ¬Rounds n.toInt re im
  | complex re im _ _, int n => ¬Rounds n.toInt re im
  | bool b, complex re im _ _ => ¬Stands (if b then 1 else 0) re im
  | complex re im _ _, bool b => ¬Stands (if b then 1 else 0) re im
  | bigInt n _, complex re im _ _ => ¬Stands n re im
  | complex re im _ _, bigInt n _ => ¬Stands n re im
  | _, _ => True

section equality
variable (sentinels : Sentinels) (hasher : List Word → UInt64)

theorem key_wf (a : Value) : a.key.Wf sentinels hasher := by
  cases a with
  | bigInt n h => simpa only [Value.key, PyKey.Wf] using h
  | _ => simp only [Value.key, PyKey.Wf]

theorem key_number (a : Value) : KeyNumbers.number a.key = some a.number := by
  cases a with
  | complex re im hre him =>
    rw [Value.key, KeyNumbers.number, Value.number, hre, Bool.not_false, Bool.and_true]
    split <;> rfl
  | _ => rfl

/-- The keys are equal exactly when the numbers are. -/
theorem key_eq_iff (a b : Value) :
    a.key.eq sentinels hasher b.key = true ↔ a.number = b.number :=
  eq_number_iff sentinels hasher _ _ _ _ (key_wf _ _ a) (key_wf _ _ b) (key_number a) (key_number b)

/-! ## The pairs -/

theorem intFloatEq_eq (i : Int64) (f : UInt64) :
    intFloatEq i f = (floatBitsAsExactI64 f == some i) := by
  rw [intFloatEq, floatBitsAsExactI64]
  split
  · rfl
  · by_cases hrange : -2^63*one ≤ scaled f ∧ scaled f < 2^63*one
    · rw [if_pos hrange, if_neg (by omega)]
      rfl
    · rw [if_neg hrange, if_pos (by omega)]
      rfl

theorem feq_number {a b : UInt64} (h : isNan b = false) :
    feq a b = true ↔ part a = part b := by
  rw [feq_iff]
  exact ⟨And.right, fun hpart => ⟨(nan_congr a b hpart).trans h, hpart⟩⟩

theorem feq_comm (a b : UInt64) : feq a b = feq b a := by
  rw [Bool.eq_iff_iff, feq_iff, feq_iff]
  constructor
  · rintro ⟨hnan, hpart⟩
    exact ⟨(nan_congr a b hpart).symm.trans hnan, hpart.symm⟩
  · rintro ⟨hnan, hpart⟩
    exact ⟨(nan_congr b a hpart).symm.trans hnan, hpart.symm⟩

theorem feq_zero (im : UInt64) : feq im 0 = isZero im := by
  have hzero : isZero 0 = true := by decide
  have hpart := (isZero_iff 0).mp hzero
  rw [Bool.eq_iff_iff, feq_number (by decide), isZero_iff, hpart]

/-- The clause for one pattern is of use to a NaN alone. -/
theorem same_number {a b : UInt64} (h : isNan a = false) : (feq a b || a == b) = feq a b := by
  rw [Bool.eq_iff_iff, Bool.or_comm, same_iff, feq_iff]
  exact ⟨fun hpart => ⟨h, hpart⟩, And.right⟩

theorem part_small {n : ℤ} (h : n.natAbs ≤ 1) : part (asF64 n) = .finite (n*one) := by
  refine part_asF64 (by omega) ?_
  rw [IsExact]
  generalize n.natAbs = m at h
  interval_cases m <;> decide

theorem natAbs_toInt_le (n : Int64) : n.toInt.natAbs ≤ 2^63 := by
  have hlo := n.le_toInt
  have hhi := n.toInt_lt
  omega

theorem bool_float {b : Bool} {f : UInt64} (hf : isNan f = false) :
    feq (asF64 (if b then 1 else 0)) f = (floatBitsAsExactI64 f == some (boolAsI64 b)) := by
  rw [Bool.eq_iff_iff, feq_number hf, part_small (by cases b <;> decide), beq_iff_eq,
    exactI64_some_iff, boolAsI64_toInt, eq_comm]

/-- Rounding alone makes the comparison with a complex number differ. -/
theorem int_complex {n : Int64} {re im : UInt64} (hre : isNan re = false) :
    (feq (asF64 n.toInt) re && feq im 0) = realValuedComplexEq re im (.int n) ↔
      ¬Rounds n.toInt re im := by
  have hkey : realValuedComplexEq re im (.int n) = true ↔
      isZero im = true ∧ part re = .finite (n.toInt*one) := by
    rw [realValuedComplexEq, Bool.and_eq_true, beq_iff_eq, exactI64_some_iff]
  have hvalue : (feq (asF64 n.toInt) re && feq im 0) = true ↔
      isZero im = true ∧ part (asF64 n.toInt) = part re := by
    rw [Bool.and_eq_true, feq_number hre, feq_zero, and_comm]
  rw [Bool.eq_iff_iff, hvalue, hkey, Rounds]
  by_cases hexact : IsExact n.toInt
  · rw [part_asF64 (natAbs_toInt_le n) hexact, eq_comm (a := Part.finite _)]
    exact iff_of_true Iff.rfl fun hr => hr.2.1 hexact
  · have hne : part re ≠ .finite (n.toInt*one) := fun h => hexact (isExact_of_part h)
    constructor
    · rintro h ⟨hzero, -, hpart⟩
      exact hne (h.mp ⟨hzero, hpart.symm⟩).2
    · intro h
      refine iff_of_false (fun hv => h ⟨hv.1, hexact, hv.2.symm⟩) fun hk => hne hk.2

/-- A comparison that is always false misses the numbers that are equal. -/
theorem missing {x : Bool} {p : Prop} (h : x = true ↔ p) : false = x ↔ ¬p := by
  rw [← h]
  cases x <;> decide

theorem stands_bool (b : Bool) (re im : UInt64) :
    realValuedComplexEq re im (.bool b) = true ↔ Stands (if b then 1 else 0) re im := by
  rw [realValuedComplexEq, Bool.and_eq_true, beq_iff_eq, exactI64_some_iff, boolAsI64_toInt, Stands]

theorem stands_bigInt (n : ℤ) (re im : UInt64) :
    realValuedComplexEq re im (.bigInt n) = true ↔ Stands n re im := by
  rw [realValuedComplexEq, Bool.and_eq_true, bigintFloatEq_iff, Stands]

theorem float_complex (f re im : UInt64) :
    (feq f re && feq im 0) = realValuedComplexEq re im (.float f) := by
  rw [realValuedComplexEq, feq_zero, Bool.and_comm, feq_comm]

-- the equations of the comparison are made once, ahead of the cases that share them
attribute [local simp] PyKey.eq Value.eq Value.key Value.Compared in
/-- The values and the keys are compared alike exactly on these pairs. -/
theorem eq_key_iff (a b : Value) :
    a.eq b = a.key.eq sentinels hasher b.key ↔ a.Compared b := by
  cases a with
  | int v =>
    cases b with
    | float f h => simp only [Value.eq, Value.key, PyKey.eq, Value.Compared, intFloatEq_eq]
    | complex re im hre him =>
      simp only [Value.eq, Value.key, PyKey.eq, Value.Compared, int_complex hre]
    | bigInt m h =>
      simp only [Value.eq, Value.key, PyKey.eq, Value.Compared, iff_true]
      exact Bool.beq_comm ..
    | _ => simp only [Value.eq, Value.key, PyKey.eq, Value.Compared]
  | bool c =>
    cases b with
    | int w =>
      simp only [Value.eq, Value.key, PyKey.eq, Value.Compared, iff_true]
      exact Bool.beq_comm ..
    | float f h => simp only [Value.eq, Value.key, PyKey.eq, Value.Compared, bool_float h]
    | complex re im hre him =>
      simp only [Value.eq, Value.key, PyKey.eq, Value.Compared]
      exact missing (stands_bool c re im)
    | _ => simp only [Value.eq, Value.key, PyKey.eq, Value.Compared]
  | bigInt n hn =>
    cases b with
    | complex re im hre him =>
      simp only [Value.eq, Value.key, PyKey.eq, Value.Compared]
      exact missing (stands_bigInt n re im)
    | _ => simp only [Value.eq, Value.key, PyKey.eq, Value.Compared]
  | float f hf =>
    cases b with
    | int w => simp only [Value.eq, Value.key, PyKey.eq, Value.Compared, intFloatEq_eq]
    | bool c =>
      simp only [Value.eq, Value.key, PyKey.eq, Value.Compared, feq_comm f, bool_float hf]
    | float g h =>
      simp only [Value.eq, Value.key, PyKey.eq, Value.Compared, Bool.or_comm (f == g),
        same_number hf]
    | complex re im hre him =>
      simp only [Value.eq, Value.key, PyKey.eq, Value.Compared, float_complex]
    | _ => simp only [Value.eq, Value.key, PyKey.eq, Value.Compared]
  | complex re im hre him =>
    cases b with
    | int w =>
      simp only [Value.eq, Value.key, PyKey.eq, Value.Compared, feq_comm re, int_complex hre]
    | bool c =>
      simp only [Value.eq, Value.key, PyKey.eq, Value.Compared]
      exact missing (stands_bool c re im)
    | bigInt m h =>
      simp only [Value.eq, Value.key, PyKey.eq, Value.Compared]
      exact missing (stands_bigInt m re im)
    | float f h =>
      simp only [Value.eq, Value.key, PyKey.eq, Value.Compared, feq_comm re, float_complex]
    | complex re' im' hre' him' =>
      simp only [Value.eq, Value.key, PyKey.eq, Value.Compared, same_number hre,
        same_number him]

/-- Equality is that of the numbers, and that of the keys. -/
def Agrees (a b : Value) : Prop :=
  (a.eq b = true ↔ a.number = b.number) ∧ a.eq b = a.key.eq sentinels hasher b.key

theorem agrees_iff (a b : Value) : Agrees sentinels hasher a b ↔ a.Compared b := by
  rw [← eq_key_iff sentinels hasher]
  refine ⟨And.right, fun h => ⟨?_, h⟩⟩
  rw [h, key_eq_iff]

/-- Two values are compared as the numbers they are and as their keys exactly when none is an
integer rounded to the other and none is a boolean or a big integer that stands for a complex
number. Among values no two of which are such a pair, equality is an equivalence. -/
theorem equality_agrees_iff :
    (∀ a b : Value, Agrees sentinels hasher a b ↔ a.Compared b) ∧
    ∀ S : Set Value, (∀ a ∈ S, ∀ b ∈ S, a.Compared b) →
      Equivalence fun a b : S => a.val.eq b.val = true := by
  refine ⟨agrees_iff sentinels hasher, fun S h => ?_⟩
  have heq (a b : S) : a.val.eq b.val = true ↔ a.val.number = b.val.number :=
    ((agrees_iff sentinels hasher a.val b.val).mpr (h a a.property b b.property)).1
  constructor
  · exact fun a => (heq a a).mpr rfl
  · exact fun hab => (heq _ _).mpr ((heq _ _).mp hab).symm
  · exact fun hab hbc => (heq _ _).mpr (((heq _ _).mp hab).trans ((heq _ _).mp hbc))

end equality

/-- `2**53 + 1 == complex(2**53, 0) == 2**53`, and `True != complex(1, 0)`. -/
theorem equality_rounds :
    (Value.int 9007199254740993).eq (.complex 0x4340000000000000 0 rfl rfl) = true ∧
    (Value.complex 0x4340000000000000 0 rfl rfl).eq (.int 9007199254740992) = true ∧
    (Value.int 9007199254740993).eq (.int 9007199254740992) = false ∧
    (Value.int 9007199254740993).number ≠
      (Value.complex 0x4340000000000000 0 rfl rfl).number ∧
    (Value.bool true).eq (.complex 0x3FF0000000000000 0 rfl rfl) = false ∧
    (Value.bool true).number = (Value.complex 0x3FF0000000000000 0 rfl rfl).number := by
  refine ⟨?_, ?_, ?_, ?_, ?_, ?_⟩ <;> decide +kernel

end Pyrust.NumericEquality
