import Mathlib
import Pyrust.IntegerConversion

/-!
# Ordering of numbers

An integer is compared with a double by the truncated double, and on a tie by the sign of
what was cut off. So the ordering is that of the exact numbers, infinities included, for
all the ways in which they are stored.
-/

set_option autoImplicit false

namespace Pyrust.ExactComparison

open Binary64 KeyNumbers IntegerConversion

/-! ## Comparisons -/

/-- `partial_cmp` of two doubles. -/
def partialCmp (a b : UInt64) : Option Ordering :=
  match part a, part b with
  | .nan _, _ | _, .nan _ => none
  | .finite s, .finite t => some (cmp s t)
  | .infinite m, .infinite n => some (cmp n m)
  | .infinite m, .finite _ => some (if m then .lt else .gt)
  | .finite _, .infinite n => some (if n then .gt else .lt)

/-- `a < b` of two doubles. -/
def flt (a b : UInt64) : Bool := partialCmp a b == some .lt

/-- `a <= b` of two doubles. -/
def fle (a b : UInt64) : Bool := partialCmp a b == some .lt || partialCmp a b == some .eq

def i64MaxPlusOne : UInt64 := 0x43E0000000000000

/-- `none` for a NaN. -/
def intFloatCmp (i : Int64) (f : UInt64) : Option Ordering :=
  if isNan f then none
  else if fle i64MaxPlusOne f then some .lt
  else if flt f (asF64 (-2^63)) then some .gt
  else
    let base := cmp i.toInt (Int64.ofInt (trunc f)).toInt
    if base ≠ .eq ∨ isIntegral f then some base
    else if flt 0 f then some .lt
    else some .gt

def bigintFloatCmp (big : ℤ) (f : UInt64) : Option Ordering :=
  if isNan f then none
  else if isFinite f && isIntegral f then some (cmp big (trunc f))
  else if isInfinite f then some (if flt 0 f then .lt else .gt)
  else
    let base := cmp big (trunc f)
    if base ≠ .eq then some base
    else if flt 0 f then some .lt
    else some .gt

/-! ## Numbers -/

/-- The rational numbers with both infinities. -/
abbrev Extended := WithBot (WithTop ℚ)

/-- So many units of the smallest subnormal. -/
def units (s : ℤ) : Extended := (((s : ℚ)/(one : ℚ) : ℚ) : WithTop ℚ)

/-- The number of a double; none for a NaN. -/
def floatValue (f : UInt64) : Option Extended :=
  match part f with
  | .nan _ => none
  | .infinite n => some (if n then ⊥ else ((⊤ : WithTop ℚ) : Extended))
  | .finite s => some (units s)

def intValue (n : ℤ) : Extended := ((n : ℚ) : WithTop ℚ)

theorem one_cast_pos : (0 : ℚ) < (one : ℚ) := Int.cast_pos.mpr one_pos

theorem intValue_eq (n : ℤ) : intValue n = units (n*one) := by
  rw [intValue, units, Int.cast_mul, mul_div_cancel_right₀ _ (ne_of_gt one_cast_pos)]

theorem units_strictMono : StrictMono units := by
  intro s t h
  rw [units, units, WithBot.coe_lt_coe, WithTop.coe_lt_coe]
  exact div_lt_div_of_pos_right (Int.cast_lt.mpr h) one_cast_pos

theorem cmp_units (s t : ℤ) : cmp (units s) (units t) = cmp s t :=
  units_strictMono.cmp_map_eq s t

theorem cmp_intValue (n m : ℤ) : cmp (intValue n) (intValue m) = cmp n m := by
  have hmono : StrictMono fun n : ℤ => n*one := fun _ _ h => Int.mul_lt_mul_of_pos_right h one_pos
  rw [intValue_eq, intValue_eq, cmp_units]
  exact hmono.cmp_map_eq n m

/-! ## Truncation -/

section truncation
variable {n s : ℤ}

theorem units_split (s : ℤ) : ∃ r, s = s.tdiv one*one+r ∧ -one < r ∧ r < one ∧
    (0 ≤ s → 0 ≤ r) ∧ (s ≤ 0 → r ≤ 0) := by
  have hpos := one_pos
  refine ⟨s.tmod one, ?_, ?_, Int.tmod_lt_of_pos s hpos, fun h => Int.tmod_nonneg one h, ?_⟩
  · rw [Int.mul_comm]
    exact (Int.mul_tdiv_add_tmod s one).symm
  · exact Int.lt_tmod_of_pos s hpos
  · intro h
    have hneg := Int.tmod_nonneg one (Int.neg_nonneg_of_nonpos h)
    rw [Int.neg_tmod] at hneg
    omega

theorem lt_of_lt_trunc (h : n < s.tdiv one) : n*one < s := by
  obtain ⟨r, hs, hlo, -, -⟩ := units_split s
  have hmul : (n+1)*one ≤ s.tdiv one*one := Int.mul_le_mul_of_nonneg_right h one_pos.le
  rw [Int.add_mul, Int.one_mul] at hmul
  omega

theorem lt_of_trunc_lt (h : s.tdiv one < n) : s < n*one := by
  obtain ⟨r, hs, -, hhi, -⟩ := units_split s
  have hmul : (s.tdiv one+1)*one ≤ n*one := Int.mul_le_mul_of_nonneg_right h one_pos.le
  rw [Int.add_mul, Int.one_mul] at hmul
  omega

/-- The comparison with the truncated number, settled by the sign on a tie. -/
theorem cmp_trunc (n s : ℤ) : cmp (n*one) s =
    if cmp n (s.tdiv one) ≠ .eq ∨ s%one = 0 then cmp n (s.tdiv one)
    else if 0 < s then .lt else .gt := by
  rcases lt_trichotomy n (s.tdiv one) with hlt | heq | hgt
  · have hcmp : cmp n (s.tdiv one) = .lt := (cmp_eq_lt_iff _ _).mpr hlt
    rw [hcmp, if_pos (.inl (by decide)), cmp_eq_lt_iff]
    exact lt_of_lt_trunc hlt
  · have hcmp : cmp n (s.tdiv one) = .eq := (cmp_eq_eq_iff _ _).mpr heq
    obtain ⟨r, hs, hlo, hhi, hpos, hneg⟩ := units_split s
    rw [hcmp, ← heq] at *
    have hmod : s%one = r%one := by rw [hs, Int.add_comm, Int.add_mul_emod_self_right]
    by_cases hr : r = 0
    · rw [if_pos (.inr (by rw [hmod, hr, Int.zero_emod])), cmp_eq_eq_iff, hs, hr, Int.add_zero]
    · have hne : s%one ≠ 0 := by
        rw [hmod]
        intro hdvd
        have := Int.eq_zero_of_abs_lt_dvd (Int.dvd_of_emod_eq_zero hdvd) (abs_lt.mpr ⟨hlo, hhi⟩)
        exact hr this
      rw [if_neg (by simp [hne])]
      by_cases hsign : 0 < s
      · have := hpos hsign.le
        rw [if_pos hsign, cmp_eq_lt_iff]
        omega
      · have := hneg (by omega)
        rw [if_neg hsign, cmp_eq_gt_iff]
        omega
  · have hcmp : cmp n (s.tdiv one) = .gt := (cmp_eq_gt_iff _ _).mpr hgt
    rw [hcmp, if_pos (.inl (by decide)), cmp_eq_gt_iff]
    exact lt_of_trunc_lt hgt

end truncation

theorem part_i64Max : part i64MaxPlusOne = .finite (2^63*one) := by
  have h : asF64 (2^63) = i64MaxPlusOne := by decide
  rw [← h]
  exact part_asF64 (by decide) (by decide)

theorem part_i64Min : part (asF64 (-2^63)) = .finite (-2^63*one) :=
  part_asF64 (by decide) (by decide)

theorem part_zero : part 0 = .finite 0 := (isZero_iff 0).mp (by decide)

section doubles
variable {a b f : UInt64} {s t : ℤ}

theorem flt_finite (ha : part a = .finite s) (hb : part b = .finite t) :
    flt a b = decide (s < t) := by
  rw [flt, partialCmp, ha, hb, Bool.eq_iff_iff, beq_iff_eq, Option.some.injEq, cmp_eq_lt_iff,
    decide_eq_true_iff]

theorem fle_finite (ha : part a = .finite s) (hb : part b = .finite t) :
    fle a b = decide (s ≤ t) := by
  rw [fle, partialCmp, ha, hb, Bool.eq_iff_iff, Bool.or_eq_true, beq_iff_eq, beq_iff_eq,
    Option.some.injEq, Option.some.injEq, cmp_eq_lt_iff, cmp_eq_eq_iff, decide_eq_true_iff,
    le_iff_lt_or_eq]

theorem isIntegral_finite (h : part f = .finite s) : isIntegral f = decide (s%one = 0) := by
  obtain ⟨hfin, hs⟩ := (part_eq_finite_iff f s).mp h
  rw [isIntegral, hfin, hs, Bool.true_and, Bool.eq_iff_iff, beq_iff_eq, decide_eq_true_iff]

theorem isNan_finite (h : part f = .finite s) : isNan f = false := (part_finite_kinds f s h).1

/-- Truncated, a double in range is an `i64`. -/
theorem trunc_fits (hlo : -2^63*one ≤ s) (hhi : s < 2^63*one) :
    (Int64.ofInt (s.tdiv one)).toInt = s.tdiv one := by
  refine Int64.toInt_ofInt_of_le ?_ ?_
  · by_contra hlt
    have := lt_of_trunc_lt (show s.tdiv one < -2^63 by omega)
    omega
  · by_contra hge
    obtain ⟨r, hs, hr, -, hpos, -⟩ := units_split s
    have hmul : 2^63*one ≤ s.tdiv one*one :=
      Int.mul_le_mul_of_nonneg_right (by omega) one_pos.le
    have := one_pos
    have := hpos (by omega)
    omega

/-- What the sign test and the truncation of a finite double come to. -/
theorem trunc_finite (h : part f = .finite s) : trunc f = s.tdiv one := by
  rw [trunc, ((part_eq_finite_iff f s).mp h).2]

theorem flt_zero (h : part f = .finite s) : flt 0 f = decide (0 < s) := flt_finite part_zero h

theorem intFloatCmp_finite {i : Int64} (h : part f = .finite s) :
    intFloatCmp i f = some (cmp (i.toInt*one) s) := by
  rw [intFloatCmp, isNan_finite h, if_neg Bool.false_ne_true, fle_finite part_i64Max h,
    flt_finite h part_i64Min, flt_zero h, isIntegral_finite h, trunc_finite h]
  simp only [decide_eq_true_eq]
  by_cases hhi : 2^63*one ≤ s
  · have hlt : i.toInt*one < 2^63*one := Int.mul_lt_mul_of_pos_right i.toInt_lt one_pos
    rw [if_pos hhi, Option.some.injEq, eq_comm, cmp_eq_lt_iff]
    omega
  · rw [if_neg hhi]
    by_cases hlo : s < -2^63*one
    · have hle : -2^63*one ≤ i.toInt*one := Int.mul_le_mul_of_nonneg_right i.le_toInt one_pos.le
      rw [if_pos hlo, Option.some.injEq, eq_comm, cmp_eq_gt_iff]
      omega
    · rw [if_neg hlo, trunc_fits (by omega) (by omega), cmp_trunc]
      split_ifs <;> rfl

/-- A double that is a number is finite or infinite. -/
theorem floatValue_cases {q : Extended} (h : floatValue f = some q) :
    (∃ s, part f = .finite s ∧ q = units s) ∨
    (part f = .infinite true ∧ q = ⊥) ∨ (part f = .infinite false ∧ q = (⊤ : WithTop ℚ)) := by
  rw [floatValue] at h
  cases hpart : part f with
  | nan bits =>
    rw [hpart] at h
    cases h
  | finite s =>
    rw [hpart] at h
    exact .inl ⟨s, rfl, (Option.some.inj h).symm⟩
  | infinite n =>
    rw [hpart] at h
    cases n with
    | true => exact .inr (.inl ⟨rfl, (Option.some.inj h).symm⟩)
    | false => exact .inr (.inr ⟨rfl, (Option.some.inj h).symm⟩)

theorem part_infinite {n : Bool} (h : part f = .infinite n) :
    isNan f = false ∧ isInfinite f = true ∧ isFinite f = false := by
  rcases kinds f with hk | hk | hk <;> simp [part, hk] at h ⊢

theorem units_lt_top (s : ℤ) : units s < ((⊤ : WithTop ℚ) : Extended) :=
  WithBot.coe_lt_coe.mpr (WithTop.coe_lt_top _)

theorem bot_lt_units (s : ℤ) : (⊥ : Extended) < units s := WithBot.bot_lt_coe _

theorem cmp_top (s : ℤ) : cmp (units s) ((⊤ : WithTop ℚ) : Extended) = .lt :=
  (cmp_eq_lt_iff _ _).mpr (units_lt_top s)

theorem cmp_bot (s : ℤ) : cmp (units s) (⊥ : Extended) = .gt :=
  (cmp_eq_gt_iff _ _).mpr (bot_lt_units s)

theorem intFloatCmp_spec {i : Int64} {q : Extended} (h : floatValue f = some q) :
    intFloatCmp i f = some (cmp (intValue i.toInt) q) := by
  rw [intValue_eq]
  rcases floatValue_cases h with ⟨s, hs, rfl⟩ | ⟨hinf, rfl⟩ | ⟨hinf, rfl⟩
  · rw [cmp_units, intFloatCmp_finite hs]
  · have hfle : fle i64MaxPlusOne f = false := by simp [fle, partialCmp, part_i64Max, hinf]
    have hflt : flt f (asF64 (-2^63)) = true := by
      rw [flt, partialCmp, hinf, part_i64Min]
      rfl
    rw [cmp_bot, intFloatCmp, (part_infinite hinf).1, hfle, hflt]
    rfl
  · have hfle : fle i64MaxPlusOne f = true := by simp [fle, partialCmp, part_i64Max, hinf]
    rw [cmp_top, intFloatCmp, (part_infinite hinf).1, hfle]
    rfl

theorem bigintFloatCmp_spec {big : ℤ} {q : Extended} (h : floatValue f = some q) :
    bigintFloatCmp big f = some (cmp (intValue big) q) := by
  rw [intValue_eq]
  rcases floatValue_cases h with ⟨s, hs, rfl⟩ | ⟨hinf, rfl⟩ | ⟨hinf, rfl⟩
  · have hfin := ((part_eq_finite_iff f s).mp hs).1
    have hnan := part_finite_kinds f s hs
    rw [bigintFloatCmp, hnan.1, hnan.2, hfin, isIntegral_finite hs, flt_zero hs, trunc_finite hs,
      cmp_units, cmp_trunc]
    by_cases hint : s%one = 0
    · simp [hint]
    · by_cases hbase : cmp big (s.tdiv one) = .eq
      · simp only [hint, hbase, decide_eq_true_eq]
        split_ifs <;> first | rfl | contradiction
      · simp [hint, hbase]
  · have hflt : flt 0 f = false := by simp [flt, partialCmp, part_zero, hinf]
    obtain ⟨hnan, hinfinite, hfin⟩ := part_infinite hinf
    rw [cmp_bot, bigintFloatCmp, hnan, hfin, hinfinite, hflt]
    rfl
  · have hflt : flt 0 f = true := by simp [flt, partialCmp, part_zero, hinf]
    obtain ⟨hnan, hinfinite, hfin⟩ := part_infinite hinf
    rw [cmp_top, bigintFloatCmp, hnan, hfin, hinfinite, hflt]
    rfl

theorem partialCmp_spec {p q : Extended} (ha : floatValue a = some p) (hb : floatValue b = some q) :
    partialCmp a b = some (cmp p q) := by
  rcases floatValue_cases ha with ⟨s, hs, rfl⟩ | ⟨hs, rfl⟩ | ⟨hs, rfl⟩ <;>
    rcases floatValue_cases hb with ⟨t, ht, rfl⟩ | ⟨ht, rfl⟩ | ⟨ht, rfl⟩ <;>
    rw [partialCmp, hs, ht]
  · rw [cmp_units]
  · rw [cmp_bot]
    rfl
  · rw [cmp_top]
    rfl
  · rw [(cmp_eq_lt_iff _ _).mpr (bot_lt_units t)]
    rfl
  · rw [cmp_self_eq_eq]
    rfl
  · rw [(cmp_eq_lt_iff _ _).mpr (WithBot.bot_lt_coe _)]
    rfl
  · rw [(cmp_eq_gt_iff _ _).mpr (units_lt_top t)]
    rfl
  · rw [(cmp_eq_gt_iff _ _).mpr (WithBot.bot_lt_coe _)]
    rfl
  · rw [cmp_self_eq_eq]
    rfl

end doubles

end Pyrust.ExactComparison
