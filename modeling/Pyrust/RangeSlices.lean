import Pyrust.RangeEquality
import Pyrust.SliceBounds

/-!
# Slices of ranges

The slice of a range is a range again, computed on machine words where the length
and the three results fit, and on integers of any size otherwise. The words hold
a large step of the slice at the end of the word, which the result then shows.
-/

set_option autoImplicit false

namespace Pyrust.RangeSlices

open FixedWidth RangeValues RangeEquality SliceSelection SliceBounds

/-- The two kinds of range values. -/
inductive RangeValue where
  | range (start stop step : ℤ)
  | bigRange (start stop step : ℤ)
  deriving DecidableEq, Repr

/-- `Value::range_big`. -/
def rangeBig (start stop step : ℤ) : RangeValue :=
  match checked 64 start, checked 64 stop, checked 64 step with
  | some s, some e, some st => .range s e st
  | _, _, _ => .bigRange start stop step

/-- A computation that aborts where it leaves the word. -/
def orPanic (x : Except Stop ℤ) : Except Failure ℤ :=
  match x with
  | .ok v => .ok v
  | .error _ => .error (.panic .overflow)

/-- The narrow path of `eval_slice`: the new start, stop and step, when all of it fits. -/
def narrowSlice (rStart rStop rStep : ℤ) (lo hi st : Option Bound) :
    Except Failure (Option (ℤ × ℤ × ℤ)) := do
  let rLen ← orPanic (rangeLen rStart rStop rStep)
  match checked 64 rLen with
  | none => return none
  | some rLen =>
    let (slStart, slStop, slStep) ← resolveSliceBounds rLen lo hi st
    return do
      let newStart ← (checked 64 (slStart*rStep)).bind fun offset => checked 64 (rStart+offset)
      let newStop ← (checked 64 (slStop*rStep)).bind fun offset => checked 64 (rStart+offset)
      let newStep ← checked 64 (rStep*slStep)
      return (newStart, newStop, newStep)

/-- The path of `eval_slice` on integers of any size. -/
def wideSlice (rLen rStart rStep : ℤ) (lo hi st : Option Bound) :
    Except Failure (ℤ × ℤ × ℤ) := do
  let (slStart, slStop, slStep) ← resolveSliceBoundsBig rLen lo hi st
  return (rStart+slStart*rStep, rStart+slStop*rStep, rStep*slStep)

/-- The range arms of `eval_slice`. -/
def evalSlice (target : RangeValue) (lo hi st : Option Bound) : Except Failure RangeValue :=
  match target with
  | .range rStart rStop rStep => do
    match ← narrowSlice rStart rStop rStep lo hi st with
    | some (newStart, newStop, newStep) => return .range newStart newStop newStep
    | none =>
      let rLen ← orPanic (rangeLen rStart rStop rStep)
      let (newStart, newStop, newStep) ← wideSlice rLen rStart rStep lo hi st
      return rangeBig newStart newStop newStep
  | .bigRange rStart rStop rStep => do
    let rLen := bigrangeLen rStart rStop rStep
    let (newStart, newStop, newStep) ← wideSlice rLen rStart rStep lo hi st
    return rangeBig newStart newStop newStep

/-! ## What a range denotes -/

namespace RangeValue

def start : RangeValue → ℤ
  | range start _ _ => start
  | bigRange start _ _ => start

def stop : RangeValue → ℤ
  | range _ stop _ => stop
  | bigRange _ stop _ => stop

def step : RangeValue → ℤ
  | range _ _ step => step
  | bigRange _ _ step => step

/-- No step is zero, and a narrow range is one of machine words. -/
def Valid : RangeValue → Prop
  | range start stop step => Fits 64 start ∧ Fits 64 stop ∧ Fits 64 step ∧ step ≠ 0
  | bigRange _ _ step => step ≠ 0

def elements (r : RangeValue) : List ℤ := yields r.stop r.step r.start

def length (r : RangeValue) : ℕ := count r.start r.stop r.step

end RangeValue

/-- A range that a program can hold. -/
structure PyRange where
  value : RangeValue
  valid : value.Valid

/-- Slicing is exact: the elements are those of the selected indices, in their order, and the
narrow path, where it is taken, has the results of the wide one. -/
structure Exact (r : RangeValue) (lo hi st : Option Bound) : Prop where
  zero : stepOf st = 0 → evalSlice r lo hi st = .error zeroStep
  elements : stepOf st ≠ 0 → ∃ r', evalSlice r lo hi st = .ok r' ∧ r'.Valid ∧
    r'.elements.map some = (selected r.length (stepOf st) (given lo) (given hi)).map
      fun i => r.elements[i.toNat]?
  narrow : ∀ rStart rStop rStep fields, r = .range rStart rStop rStep →
    narrowSlice rStart rStop rStep lo hi st = .ok (some fields) →
      wideSlice r.length rStart rStep lo hi st = .ok fields

/-- The narrow path is taken with a slice step that no word holds. -/
def Deviates : RangeValue → Option Bound → Option Bound → Option Bound → Prop
  | .bigRange _ _ _, _, _, _ => False
  | .range rStart rStop rStep, lo, hi, st =>
    ¬Fits 64 (stepOf st) ∧ (count rStart rStop rStep : ℤ) < 2^63 ∧
      (rStep = 1 ∨ rStep = -1 ∧ 0 < stepOf st) ∧
      Fits 64 (rStart+startOf (count rStart rStop rStep) (stepOf st) (given lo)*rStep) ∧
      Fits 64 (rStart+stopOf (count rStart rStop rStep) (stepOf st) (given hi)*rStep)

/-! ## Ranges of ranges -/

theorem scaled_before (start stop v : ℤ) {step : ℤ} (s : ℤ) (h : step ≠ 0) :
    Before (start+stop*step) (step*s) (start+v*step) ↔ Before stop s v := by
  unfold Before
  rcases lt_or_gt_of_ne h with hneg | hpos
  · have hs : 0 < step*s ↔ s < 0 := ⟨fun h => by nlinarith, fun h => by nlinarith⟩
    have hs' : step*s < 0 ↔ 0 < s := ⟨fun h => by nlinarith, fun h => by nlinarith⟩
    have hlt : v*step < stop*step ↔ stop < v := mul_lt_mul_right_of_neg hneg
    have hlt' : stop*step < v*step ↔ v < stop := mul_lt_mul_right_of_neg hneg
    omega
  · have hs : 0 < step*s ↔ 0 < s := mul_pos_iff_of_pos_left hpos
    have hs' : step*s < 0 ↔ s < 0 := ⟨fun h => by nlinarith, fun h => by nlinarith⟩
    have hlt : v*step < stop*step ↔ v < stop := mul_lt_mul_iff_of_pos_right hpos
    have hlt' : stop*step < v*step ↔ stop < v := mul_lt_mul_iff_of_pos_right hpos
    omega

/-- The range over the values of a range at the indices of a range. -/
theorem yields_scaled (start stop v : ℤ) {step : ℤ} (s : ℤ) (h : step ≠ 0) :
    yields (start+stop*step) (step*s) (start+v*step) =
      (yields stop s v).map fun i => start+i*step := by
  have hmove : ∀ k : ℕ, start+v*step+k*(step*s) = start+(v+k*s)*step := by
    intro k
    ring
  rw [yields_of_before (count v stop s), yields_eq, List.map_map]
  · apply List.map_congr_left
    intro k _
    exact hmove k
  · intro k
    rw [hmove, scaled_before _ _ _ _ h, before_iff]

theorem wideSlice_eq {len : ℤ} (hlen : 0 ≤ len) (rStart rStep : ℤ) (lo hi st : Option Bound) :
    wideSlice len rStart rStep lo hi st =
      if stepOf st = 0 then .error zeroStep
      else .ok (rStart+startOf len (stepOf st) (given lo)*rStep,
        rStart+stopOf len (stepOf st) (given hi)*rStep, rStep*stepOf st) := by
  rw [wideSlice, resolveSliceBoundsBig_eq hlen]
  by_cases h0 : stepOf st = 0
  · simp only [h0, if_true, bind, Except.bind]
  · simp only [h0, if_false, bind, Except.bind, pure, Except.pure]

theorem rangeBig_elements (start stop step : ℤ) (h : step ≠ 0) :
    (rangeBig start stop step).Valid ∧
      (rangeBig start stop step).elements = yields stop step start := by
  unfold rangeBig checked
  by_cases hs : Fits 64 start
  · by_cases he : Fits 64 stop
    · by_cases hst : Fits 64 step
      · simp only [hs, he, hst, if_true]
        exact ⟨⟨hs, he, hst, h⟩, rfl⟩
      · simp only [hs, he, hst, if_true, if_false]
        exact ⟨h, rfl⟩
    · simp only [hs, he, if_true, if_false]
      exact ⟨h, rfl⟩
  · simp only [hs, if_false]
    exact ⟨h, rfl⟩

/-- The elements at the selected indices. -/
theorem selected_elements (r : RangeValue) (step : ℤ) (lo hi : Option ℤ) :
    (selected r.length step lo hi).map (fun i => r.elements[i.toNat]?) =
      ((selected r.length step lo hi).map fun i => r.start+i*r.step).map some := by
  rw [List.map_map]
  apply List.map_congr_left
  intro i hi'
  have hin := mem_selected (by omega) hi'
  have hlt : i.toNat < count r.start r.stop r.step := by
    rw [RangeValue.length] at hin
    omega
  rw [RangeValue.elements, yields_getElem?, if_pos hlt, Int.toNat_of_nonneg hin.1]
  rfl

theorem PyRange.step_ne_zero (r : PyRange) : r.value.step ≠ 0 := by
  obtain ⟨value, valid⟩ := r
  cases value with
  | range start stop step => exact valid.2.2.2
  | bigRange start stop step => exact valid

/-- The fields of the wide path, and those with the step of the slice held in a word, denote the
elements at the selected indices. -/
theorem fields_elements (r : PyRange) {s : ℤ} (lo hi st : Option Bound)
    (h : selected r.value.length s (given lo) (given hi) =
      selected r.value.length (stepOf st) (given lo) (given hi))
    (hsign : 0 < s ↔ 0 < stepOf st) {r' : RangeValue}
    (hr : r'.elements = yields
      (r.value.start+stopOf r.value.length (stepOf st) (given hi)*r.value.step)
      (r.value.step*s)
      (r.value.start+startOf r.value.length (stepOf st) (given lo)*r.value.step)) :
    r'.elements.map some = (selected r.value.length (stepOf st) (given lo) (given hi)).map
      fun i => r.value.elements[i.toNat]? := by
  rw [selected_elements, hr, yields_scaled _ _ _ _ r.step_ne_zero, ← h, selected,
    startOf_congr hsign, stopOf_congr hsign]

/-! ## The narrow path -/

theorem checked_some {a x : ℤ} : checked 64 a = some x ↔ Fits 64 a ∧ a = x := by
  rw [checked]
  by_cases ha : Fits 64 a <;> simp [ha]

theorem checked_long {n : ℤ} (h : 2^63 ≤ n) : checked 64 n = none := by
  rw [checked, if_neg]
  rw [fits_64]
  omega

theorem checked_short {n : ℤ} (h : 0 ≤ n) (h' : n < 2^63) : checked 64 n = some n := by
  rw [checked, if_pos]
  rw [fits_64]
  omega

section narrow
variable {rStart rStop rStep n : ℤ} (hrun : rangeLen rStart rStop rStep = .ok n)
include hrun

theorem narrowSlice_none (lo hi st : Option Bound) (h : 2^63 ≤ n) :
    narrowSlice rStart rStop rStep lo hi st = .ok none := by
  rw [narrowSlice, hrun]
  simp only [orPanic, bind, Except.bind, checked_long h, pure, Except.pure]

theorem narrowSlice_zero (lo hi : Option Bound) {st : Option Bound} (h : 0 ≤ n) (h' : n < 2^63)
    (h0 : stepOf st = 0) : narrowSlice rStart rStop rStep lo hi st = .error zeroStep := by
  have hres := resolveSliceBounds_eq ⟨h, h'⟩ lo hi st
  rw [if_pos h0] at hres
  rw [narrowSlice, hrun]
  simp only [orPanic, bind, Except.bind, checked_short h h', hres]

/-- What the narrow path computes, and when. -/
theorem narrowSlice_some (lo hi : Option Bound) {st : Option Bound} (h : 0 ≤ n) (h' : n < 2^63)
    (h0 : stepOf st ≠ 0) :
    ∃ o, narrowSlice rStart rStop rStep lo hi st = .ok o ∧ ∀ fields, o = some fields ↔
      Fits 64 (startOf n (stepOf st) (given lo)*rStep) ∧
      Fits 64 (rStart+startOf n (stepOf st) (given lo)*rStep) ∧
      Fits 64 (stopOf n (stepOf st) (given hi)*rStep) ∧
      Fits 64 (rStart+stopOf n (stepOf st) (given hi)*rStep) ∧
      Fits 64 (rStep*saturated (stepOf st)) ∧
      (rStart+startOf n (stepOf st) (given lo)*rStep,
        rStart+stopOf n (stepOf st) (given hi)*rStep, rStep*saturated (stepOf st)) = fields := by
  have hres := resolveSliceBounds_eq ⟨h, h'⟩ lo hi st
  rw [if_neg h0] at hres
  rw [narrowSlice, hrun]
  simp only [orPanic, bind, Except.bind, checked_short h h', hres]
  refine ⟨_, rfl, ?_⟩
  rintro ⟨s, e, p⟩
  simp only [Option.bind_eq_some_iff, checked_some, pure, Option.some.injEq]
  constructor
  · rintro ⟨_, ⟨_, ⟨hs, rfl⟩, hs', rfl⟩, _, ⟨_, ⟨he, rfl⟩, he', rfl⟩, _, ⟨hp, rfl⟩, hf⟩
    exact ⟨hs, hs', he, he', hp, hf⟩
  · rintro ⟨hs, hs', he, he', hp, hf⟩
    exact ⟨_, ⟨_, ⟨hs, rfl⟩, hs', rfl⟩, _, ⟨_, ⟨he, rfl⟩, he', rfl⟩, _, ⟨hp, rfl⟩, hf⟩

/-- The narrow path is left: the result is that of the wide one. -/
theorem evalSlice_wide {lo hi st : Option Bound} (h : 0 ≤ n)
    (hnarrow : narrowSlice rStart rStop rStep lo hi st = .ok none) :
    evalSlice (.range rStart rStop rStep) lo hi st =
      if stepOf st = 0 then .error zeroStep
      else .ok (rangeBig (rStart+startOf n (stepOf st) (given lo)*rStep)
        (rStart+stopOf n (stepOf st) (given hi)*rStep) (rStep*stepOf st)) := by
  simp only [evalSlice, hnarrow, hrun, orPanic, bind, Except.bind, wideSlice_eq h]
  by_cases h0 : stepOf st = 0
  · simp only [h0, if_true]
  · simp only [h0, if_false, pure, Except.pure]

omit hrun in
theorem evalSlice_narrow {lo hi st : Option Bound} {s e p : ℤ}
    (hnarrow : narrowSlice rStart rStop rStep lo hi st = .ok (some (s, e, p))) :
    evalSlice (.range rStart rStop rStep) lo hi st = .ok (.range s e p) := by
  rw [evalSlice, hnarrow]
  rfl

end narrow

section steps
variable {rStep step : ℤ}

/-- A product with a step held in a word that fits tells the range step. -/
theorem unit_of_fits (h : ¬Fits 64 step) (h0 : rStep ≠ 0) (hp : Fits 64 (rStep*saturated step)) :
    rStep = 1 ∨ rStep = -1 ∧ 0 < step := by
  rw [fits_64] at h hp
  by_cases hpos : 0 < step
  · have hsat : saturated step = 2^63-1 := by
      rw [saturated]
      omega
    rw [hsat] at hp
    omega
  · have hsat : saturated step = -2^63 := by
      rw [saturated]
      omega
    rw [hsat] at hp
    omega

theorem fits_of_unit (h : rStep = 1 ∨ rStep = -1 ∧ 0 < step) :
    Fits 64 (rStep*saturated step) := by
  rw [fits_64, saturated]
  rcases h with rfl | ⟨rfl, hpos⟩ <;> omega

/-- An index of a range with a step of one either way moves it by a word. -/
theorem offset_fits {n v : ℤ} (hn : n < 2^63) (hv : -1 ≤ v ∧ v ≤ n) (h : rStep = 1 ∨ rStep = -1) :
    Fits 64 (v*rStep) := by
  rw [fits_64]
  rcases h with rfl | rfl <;> omega

theorem limits {n : ℤ} (h : 0 ≤ n) (lo hi : Option ℤ) :
    (-1 ≤ startOf n step lo ∧ startOf n step lo ≤ n) ∧
      -1 ≤ stopOf n step hi ∧ stopOf n step hi ≤ n := by
  have hs := @startOf_bounds n step h lo
  have ht := @stopOf_bounds n step h hi
  unfold lower upper at hs ht
  split at hs <;> omega

end steps

section results
variable (lo hi st : Option Bound)

/-- A range that the wide path slices is sliced exactly. -/
theorem exact_wide (r : PyRange)
    (hrun : evalSlice r.value lo hi st =
      if stepOf st = 0 then .error zeroStep
      else .ok (rangeBig
        (r.value.start+startOf r.value.length (stepOf st) (given lo)*r.value.step)
        (r.value.start+stopOf r.value.length (stepOf st) (given hi)*r.value.step)
        (r.value.step*stepOf st)))
    (hnarrow : ∀ rStart rStop rStep fields, r.value = .range rStart rStop rStep →
      narrowSlice rStart rStop rStep lo hi st = .ok (some fields) →
        wideSlice r.value.length rStart rStep lo hi st = .ok fields) :
    Exact r.value lo hi st := by
  refine ⟨?_, ?_, hnarrow⟩
  · intro h0
    rw [hrun, if_pos h0]
  · intro h0
    obtain ⟨hvalid, helems⟩ := rangeBig_elements
      (r.value.start+startOf r.value.length (stepOf st) (given lo)*r.value.step)
      (r.value.start+stopOf r.value.length (stepOf st) (given hi)*r.value.step)
      (r.value.step*stepOf st) (mul_ne_zero r.step_ne_zero h0)
    exact ⟨_, by rw [hrun, if_neg h0], hvalid, fields_elements r lo hi st rfl Iff.rfl helems⟩

theorem exact_big {start stop step : ℤ} (h : step ≠ 0) :
    Exact (.bigRange start stop step) lo hi st := by
  have hn : (0 : ℤ) ≤ count start stop step := Int.natCast_nonneg _
  have hrun : evalSlice (.bigRange start stop step) lo hi st =
      if stepOf st = 0 then .error zeroStep
      else .ok (rangeBig (start+startOf (count start stop step) (stepOf st) (given lo)*step)
        (start+stopOf (count start stop step) (stepOf st) (given hi)*step) (step*stepOf st)) := by
    simp only [evalSlice, bigrangeLen_eq, wideSlice_eq hn, bind, Except.bind]
    by_cases h0 : stepOf st = 0
    · simp only [h0, if_true]
    · simp only [h0, if_false, pure, Except.pure]
  refine exact_wide lo hi st ⟨.bigRange start stop step, h⟩ hrun ?_
  intro rStart rStop rStep fields heq
  cases heq

/-- Where the narrow path is not taken there is nothing to compare. -/
theorem exact_of_none {start stop step : ℤ} (h : (RangeValue.range start stop step).Valid)
    (hnarrow : narrowSlice start stop step lo hi st = .ok none) :
    Exact (.range start stop step) lo hi st := by
  have hrun := evalSlice_wide (rangeLen_ok h.1 h.2.1 h.2.2.1) (Int.natCast_nonneg _) hnarrow
  refine exact_wide lo hi st ⟨.range start stop step, h⟩ hrun ?_
  intro rStart rStop rStep fields heq hsome
  cases heq
  rw [hnarrow] at hsome
  cases hsome

theorem exact_range {start stop step : ℤ} (h : (RangeValue.range start stop step).Valid) :
    Exact (.range start stop step) lo hi st ↔ ¬Deviates (.range start stop step) lo hi st := by
  have hrun : rangeLen start stop step = .ok ((RangeValue.range start stop step).length : ℤ) :=
    rangeLen_ok h.1 h.2.1 h.2.2.1
  have hn : (0 : ℤ) ≤ (RangeValue.range start stop step).length := Int.natCast_nonneg _
  constructor
  · rintro hex ⟨hfit, hshort, hunit, hs, he⟩
    have h0 : stepOf st ≠ 0 := by
      intro h0
      rw [h0] at hfit
      exact hfit (by decide)
    obtain ⟨o, ho, hsome⟩ := narrowSlice_some hrun lo hi hn hshort h0
    have hlim := @limits (stepOf st) _ hn (given lo) (given hi)
    have hone : step = 1 ∨ step = -1 := hunit.imp_right fun hu => hu.1
    have htake := (hsome _).mpr ⟨offset_fits hshort hlim.1 hone, hs, offset_fits hshort hlim.2 hone,
      he, fits_of_unit hunit, rfl⟩
    rw [htake] at ho
    have hwide := hex.narrow start stop step _ rfl ho
    rw [wideSlice_eq hn, if_neg h0] at hwide
    have hstep : step*stepOf st = step*saturated (stepOf st) :=
      congrArg (fun x : ℤ × ℤ × ℤ => x.2.2) (Except.ok.inj hwide)
    rw [mul_left_cancel₀ h.2.2.2 hstep] at hfit
    exact hfit (saturated_fits _)
  · intro hdev
    by_cases hshort : ((RangeValue.range start stop step).length : ℤ) < 2^63
    · by_cases h0 : stepOf st = 0
      · have hnarrow := narrowSlice_zero hrun lo hi hn hshort h0
        refine ⟨fun _ => by rw [evalSlice, hnarrow]; rfl, fun hne => absurd h0 hne, ?_⟩
        intro rStart rStop rStep fields heq hsome
        cases heq
        rw [hnarrow] at hsome
        cases hsome
      · obtain ⟨o, ho, hsome⟩ := narrowSlice_some hrun lo hi hn hshort h0
        cases o with
        | none => exact exact_of_none lo hi st h ho
        | some fields =>
          obtain ⟨-, hs, -, he, hp, rfl⟩ := (hsome fields).mp rfl
          have hfit : Fits 64 (stepOf st) := by
            by_contra hfit
            exact hdev ⟨hfit, hshort, unit_of_fits hfit h.2.2.2 hp, hs, he⟩
          have hne : step*saturated (stepOf st) ≠ 0 := by
            rw [saturated_of_fits hfit]
            exact mul_ne_zero h.2.2.2 h0
          refine ⟨fun hz => absurd hz h0, fun _ => ?_, ?_⟩
          · refine ⟨_, evalSlice_narrow ho, ⟨hs, he, hp, hne⟩, ?_⟩
            exact fields_elements ⟨.range start stop step, h⟩ lo hi st
              (by rw [saturated_of_fits hfit]) saturated_pos rfl
          · intro rStart rStop rStep fields heq hsome'
            cases heq
            rw [ho] at hsome'
            cases hsome'
            rw [wideSlice_eq hn, if_neg h0, saturated_of_fits hfit]
    · exact exact_of_none lo hi st h (narrowSlice_none hrun lo hi st (not_lt.mp hshort))

end results

/-- A slice of a range is exact but where the narrow path is taken with a step of the slice that
no word holds: the elements are the same, the step of the result is not. -/
theorem range_slices_exact (r : PyRange) (lo hi st : Option Bound) :
    Exact r.value lo hi st ↔ ¬Deviates r.value lo hi st := by
  obtain ⟨value, valid⟩ := r
  cases value with
  | range start stop step => exact exact_range lo hi st valid
  | bigRange start stop step => exact iff_of_true (exact_big lo hi st valid) id

/-- `range(10)[::10**20]` has the step that ends the word. -/
theorem range_slices_differ :
    narrowSlice 0 10 1 none none (some (.int (10^20))) = .ok (some (0, 10, 2^63-1)) ∧
    wideSlice 10 0 1 none none (some (.int (10^20))) = .ok (0, 10, 10^20) := by
  decide

end Pyrust.RangeSlices
