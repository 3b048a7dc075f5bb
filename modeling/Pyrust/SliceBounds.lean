import Pyrust.SliceSelection

/-!
# Resolved slice bounds and target positions

The bounds of a slice are resolved against a length, once on machine words with
large integers held at the ends of the word, and once on integers of any size.
The positions of a list slice are walked by a count that is known beforehand.
-/

set_option autoImplicit false

namespace Pyrust.SliceBounds

open FixedWidth RangeValues SliceSelection

inductive PyError where
  | typeError (message : String)
  | valueError (message : String)
  deriving DecidableEq, Repr

/-- What a debug build of the source aborts on. -/
inductive Panic where
  | overflow
  | clampOrder
  | spliceOrder (start stop : ℕ)
  | indexOutOfRange
  deriving DecidableEq, Repr

inductive Failure where
  | raise (e : PyError)
  | panic (p : Panic)
  deriving DecidableEq, Repr

/-- A bound or step of a slice, as the program gives it. -/
inductive Bound where
  | none
  | bool (b : Bool)
  | int (n : ℤ)
  deriving DecidableEq, Repr

/-- `ValueKind`: an integer outside `i64` has a kind of its own. -/
inductive Kind where
  | none
  | bool (b : Bool)
  | int (n : ℤ)
  | bigInt (n : ℤ)
  deriving DecidableEq, Repr

def Bound.kind : Bound → Kind
  | .none => .none
  | .bool b => .bool b
  | .int n => if Fits 64 n then .int n else .bigInt n

def boolAsI64 (b : Bool) : ℤ := if b then 1 else 0

/-- The integer a bound stands for. -/
def Bound.value : Bound → Option ℤ
  | .none => Option.none
  | .bool b => some (boolAsI64 b)
  | .int n => some n

/-- Arithmetic on `i64` that is not checked. -/
def word (v : ℤ) : Except Failure ℤ := if Fits 64 v then .ok v else .error (.panic .overflow)

/-- `Ord::clamp`. -/
def clamp (v low high : ℤ) : Except Failure ℤ :=
  if high < low then .error (.panic .clampOrder) else .ok (max low (min v high))

def notAnIndex : Failure :=
  .raise (.typeError "slice indices must be integers or None or have an __index__ method")

def zeroStep : Failure := .raise (.valueError "slice step cannot be zero")

/-- `slice_index_from_value`. -/
def sliceIndexFromValue (value : Bound) : Except Failure ℤ :=
  match value.kind with
  | .int i => .ok i
  | .bool b => .ok (boolAsI64 b)
  | .bigInt big => match checked 64 big with
    | some i => .ok i
    | none => .ok (if big < 0 then -2^63 else 2^63-1)
  | .none => .error notAnIndex

/-- One bound of `resolve_slice_bounds`. -/
def resolveBound (len step default : ℤ) : Option Bound → Except Failure ℤ
  | none => .ok default
  | some .none => .ok default
  | some v => do
    let i ← sliceIndexFromValue v
    if 0 < step then
      if i < 0 then clamp (← word (i+len)) 0 len else clamp i 0 len
    else if i < 0 then clamp (← word (i+len)) (-1) (← word (len-1))
    else clamp i (-1) (← word (len-1))

def resolveStep : Option Bound → Except Failure ℤ
  | none => .ok 1
  | some .none => .ok 1
  | some v => do
    let s ← sliceIndexFromValue v
    if s = 0 then .error zeroStep else .ok s

/-- `resolve_slice_bounds`. -/
def resolveSliceBounds (len : ℤ) (lo hi st : Option Bound) : Except Failure (ℤ × ℤ × ℤ) := do
  let step ← resolveStep st
  let startDefault ← if 0 < step then pure 0 else word (len-1)
  let endDefault := if 0 < step then len else -1
  let start ← resolveBound len step startDefault lo
  let stop ← resolveBound len step endDefault hi
  return (start, stop, step)

/-- `value_to_bigint`. -/
def valueToBigint (value : Bound) : Option ℤ :=
  match value.kind with
  | .int n => some n
  | .bigInt n => some n
  | .bool b => some (boolAsI64 b)
  | .none => none

def toBig (value : Bound) : Except Failure ℤ :=
  match valueToBigint value with
  | some n => .ok n
  | none => .error notAnIndex

/-- The `clamp` closure of `resolve_slice_bounds_big`. -/
def clampBig (idx low high : ℤ) : ℤ := if idx < low then low else if high < idx then high else idx

def resolveBig (len step default : ℤ) : Option Bound → Except Failure ℤ
  | none => .ok default
  | some .none => .ok default
  | some v => do
    let i ← toBig v
    let i := if i < 0 then i+len else i
    return if 0 < step then clampBig i 0 len else clampBig i (-1) (len-1)

def resolveStepBig : Option Bound → Except Failure ℤ
  | none => .ok 1
  | some .none => .ok 1
  | some v => do
    let s ← toBig v
    if s = 0 then .error zeroStep else .ok s

/-- `resolve_slice_bounds_big`. -/
def resolveSliceBoundsBig (len : ℤ) (lo hi st : Option Bound) :
    Except Failure (ℤ × ℤ × ℤ) := do
  let step ← resolveStepBig st
  let start ← resolveBig len step (if 0 < step then 0 else len-1) lo
  let stop ← resolveBig len step (if 0 < step then len else -1) hi
  return (start, stop, step)

/-- The positions pushed for one cursor value. -/
def pushed (len i : ℤ) : List ℕ := if 0 ≤ i ∧ i < len then [i.toNat] else []

/-- The loop of `slice_target_indices`, which leaves out the increment behind the last round. -/
def walkTargets (len step : ℤ) : ℕ → ℤ → Except Failure (List ℕ)
  | 0, _ => .ok []
  | 1, i => .ok (pushed len i)
  | n+2, i => do
    let next ← word (i+step)
    return pushed len i ++ (← walkTargets len step (n+1) next)

/-- The number of rounds, computed in `i128`. -/
def targetCount (start stop step : ℤ) : ℤ :=
  let span := stop-start
  max 0 (if 0 < step then (if 0 < span then (span-1).tdiv step+1 else 0)
    else if span < 0 then (span+1).tdiv step+1 else 0)

/-- `slice_target_indices`. -/
def sliceTargetIndices (len start stop step : ℤ) : Except Failure (List ℕ) :=
  walkTargets len step (targetCount start stop step).toNat start

/-! ## What the words hold of an integer -/

/-- The integer held in `i64`. -/
def saturated (v : ℤ) : ℤ := max (-2^63) (min v (2^63-1))

theorem saturated_fits (v : ℤ) : Fits 64 (saturated v) := by
  rw [fits_64, saturated]
  omega

theorem saturated_of_fits {v : ℤ} (h : Fits 64 v) : saturated v = v := by
  rw [fits_64] at h
  rw [saturated]
  omega

theorem word_ok {v : ℤ} (h : Fits 64 v) : word v = .ok v := if_pos h

theorem clamp_ok {v low high : ℤ} (h : low ≤ high) :
    clamp v low high = .ok (max low (min v high)) :=
  if_neg (not_lt.mpr h)

theorem sliceIndex_some {v : Bound} {n : ℤ} (h : v.value = some n) :
    sliceIndexFromValue v = .ok (saturated n) := by
  cases v with
  | none => cases h
  | bool b =>
    cases h
    cases b <;> rfl
  | int m =>
    cases h
    by_cases hm : Fits 64 n
    · simp [sliceIndexFromValue, Bound.kind, hm, saturated_of_fits hm]
    · have hsat : (if n < 0 then (-2^63 : ℤ) else 2^63-1) = saturated n := by
        rw [fits_64] at hm
        rw [saturated]
        split <;> omega
      simp only [sliceIndexFromValue, Bound.kind, hm, if_false, checked, hsat]

theorem toBig_some {v : Bound} {n : ℤ} (h : v.value = some n) : toBig v = .ok n := by
  cases v with
  | none => cases h
  | bool b =>
    cases h
    rfl
  | int m =>
    cases h
    by_cases hm : Fits 64 n <;> simp [toBig, valueToBigint, Bound.kind, hm]

/-- The integer of an optional bound. -/
def given (o : Option Bound) : Option ℤ := o.bind Bound.value

/-- The step of a slice, one when it is left out. -/
def stepOf (st : Option Bound) : ℤ := (given st).getD 1

theorem saturated_pos {v : ℤ} : 0 < saturated v ↔ 0 < v := by
  rw [saturated]
  omega

theorem saturated_eq_zero {v : ℤ} : saturated v = 0 ↔ v = 0 := by
  rw [saturated]
  omega

section resolve
variable {len : ℤ} (hlen : 0 ≤ len ∧ len < 2^63)
include hlen

/-- Holding a bound in a word does not move it past a limit. -/
theorem clamped_saturated (step v : ℤ) :
    clamped len step (saturated v) = clamped len step v := by
  unfold clamped
  rcases lt_or_ge v (-2^63) with hlow | hlow
  · have hsat : saturated v = -2^63 := by
      rw [saturated]
      omega
    rw [hsat, if_pos (by omega), if_pos (by omega), upper, lower]
    split <;> omega
  · rcases lt_or_ge v (2^63) with hhigh | hhigh
    · rw [saturated_of_fits (fits_64.mpr ⟨hlow, hhigh⟩)]
    · have hsat : saturated v = 2^63-1 := by
        rw [saturated]
        omega
      rw [hsat, if_neg (by omega), if_neg (by omega), upper, lower]
      split <;> omega

theorem resolveBound_eq (step : ℤ) (default : ℤ) (o : Option Bound) :
    resolveBound len step default o =
      .ok ((given o).elim default (clamped len step)) := by
  cases o with
  | none => rfl
  | some b =>
    cases hb : b.value with
    | none =>
      cases b with
      | none => rfl
      | bool b => cases hb
      | int n => cases hb
    | some n =>
      have hgiven : given (some b) = some n := hb
      have hidx := sliceIndex_some hb
      have hne : b ≠ .none := by
        rintro rfl
        cases hb
      have hrun : resolveBound len step default (some b) = (do
          let i ← sliceIndexFromValue b
          if 0 < step then
            if i < 0 then clamp (← word (i+len)) 0 len else clamp i 0 len
          else if i < 0 then clamp (← word (i+len)) (-1) (← word (len-1))
          else clamp i (-1) (← word (len-1))) := by
        cases b with
        | none => exact absurd rfl hne
        | bool b => rfl
        | int n => rfl
      have hfit := saturated_fits n
      rw [fits_64] at hfit
      have hpred : word (len-1) = .ok (len-1) := word_ok (fits_64.mpr (by omega))
      rw [hrun, hidx, hgiven, Option.elim_some, ← clamped_saturated hlen]
      generalize saturated n = i at hfit ⊢
      unfold clamped lower upper
      by_cases hi : i < 0
      · have hadd : word (i+len) = .ok (i+len) := word_ok (fits_64.mpr (by omega))
        by_cases hs : 0 < step
        · simp [hi, hs, hadd, clamp_ok hlen.1, bind, Except.bind, min_comm]
        · have hle : (-1 : ℤ) ≤ len-1 := by omega
          simp [hi, hs, hadd, hpred, clamp_ok hle, bind, Except.bind, min_comm]
      · by_cases hs : 0 < step
        · simp [hi, hs, clamp_ok hlen.1, bind, Except.bind, min_comm]
        · have hle : (-1 : ℤ) ≤ len-1 := by omega
          simp [hi, hs, hpred, clamp_ok hle, bind, Except.bind, min_comm]

end resolve

theorem resolveStep_eq (st : Option Bound) :
    resolveStep st = if stepOf st = 0 then .error zeroStep else .ok (saturated (stepOf st)) := by
  cases st with
  | none => rfl
  | some b =>
    cases hb : b.value with
    | none =>
      cases b with
      | none => rfl
      | bool b => cases hb
      | int n => cases hb
    | some n =>
      have hstep : stepOf (some b) = n := by
        rw [stepOf, given, Option.bind_some, hb]
        rfl
      have hrun : resolveStep (some b) = (do
          let s ← sliceIndexFromValue b
          if s = 0 then .error zeroStep else .ok s) := by
        cases b with
        | none => cases hb
        | bool b => rfl
        | int n => rfl
      rw [hrun, hstep, sliceIndex_some hb, ← ite_congr (propext saturated_eq_zero)
        (fun _ => rfl) (fun _ => rfl)]
      rfl

/-- The bounds of a slice on machine words: those of the integers, the step held in a word. -/
theorem resolveSliceBounds_eq {len : ℤ} (hlen : 0 ≤ len ∧ len < 2^63) (lo hi st : Option Bound) :
    resolveSliceBounds len lo hi st =
      if stepOf st = 0 then .error zeroStep
      else .ok (startOf len (stepOf st) (given lo), stopOf len (stepOf st) (given hi),
        saturated (stepOf st)) := by
  rw [resolveSliceBounds, resolveStep_eq]
  by_cases h0 : stepOf st = 0
  · simp [h0, bind, Except.bind]
  have hpred : word (len-1) = .ok (len-1) := word_ok (fits_64.mpr (by omega))
  simp only [h0, if_false, bind, Except.bind, saturated_pos, resolveBound_eq hlen]
  have hcongr : ∀ v, clamped len (saturated (stepOf st)) v = clamped len (stepOf st) v := by
    intro v
    simp only [clamped, lower, upper, saturated_pos]
  by_cases hs : 0 < stepOf st
  · simp only [hs, if_true, pure, Except.pure]
    cases hlo : given lo <;> cases hhi : given hi <;>
      simp [startOf, stopOf, lower, upper, hs, hcongr]
  · simp only [hs, if_false, hpred, pure, Except.pure]
    cases hlo : given lo <;> cases hhi : given hi <;>
      simp [startOf, stopOf, lower, upper, hs, hcongr]

theorem clampBig_eq {v low high : ℤ} (h : low ≤ high) :
    clampBig v low high = max low (min high v) := by
  unfold clampBig
  split <;> omega

theorem resolveBig_eq {len : ℤ} (hlen : 0 ≤ len) (step default : ℤ) (o : Option Bound) :
    resolveBig len step default o = .ok ((given o).elim default (clamped len step)) := by
  cases o with
  | none => rfl
  | some b =>
    cases hb : b.value with
    | none =>
      cases b with
      | none => rfl
      | bool b => cases hb
      | int n => cases hb
    | some n =>
      have hgiven : given (some b) = some n := hb
      have hrun : resolveBig len step default (some b) = (do
          let i ← toBig b
          let i := if i < 0 then i+len else i
          return if 0 < step then clampBig i 0 len else clampBig i (-1) (len-1)) := by
        cases b with
        | none => cases hb
        | bool b => rfl
        | int n => rfl
      have hle : (-1 : ℤ) ≤ len-1 := by omega
      rw [hrun, toBig_some hb, hgiven, Option.elim_some]
      simp only [bind, Except.bind, pure, Except.pure, clampBig_eq hlen, clampBig_eq hle, clamped,
        lower, upper]
      by_cases hs : 0 < step <;> simp [hs]

theorem resolveSliceBoundsBig_eq {len : ℤ} (hlen : 0 ≤ len) (lo hi st : Option Bound) :
    resolveSliceBoundsBig len lo hi st =
      if stepOf st = 0 then .error zeroStep
      else .ok (startOf len (stepOf st) (given lo), stopOf len (stepOf st) (given hi),
        stepOf st) := by
  have hstep : resolveStepBig st =
      if stepOf st = 0 then .error zeroStep else .ok (stepOf st) := by
    cases st with
    | none => rfl
    | some b =>
      cases b with
      | none => rfl
      | bool b => cases b <;> rfl
      | int n =>
        rw [resolveStepBig, toBig_some rfl]
        · rfl
        · simp
  rw [resolveSliceBoundsBig, hstep]
  by_cases h0 : stepOf st = 0
  · simp [h0, bind, Except.bind]
  simp only [h0, if_false, bind, Except.bind, pure, Except.pure, resolveBig_eq hlen]
  cases hlo : given lo <;> cases hhi : given hi <;> by_cases hs : 0 < stepOf st <;>
    simp [startOf, stopOf, lower, upper, hs]

/-! ## The positions -/

theorem targetCount_eq (start stop : ℤ) {step : ℤ} (h0 : step ≠ 0) :
    targetCount start stop step = count start stop step := by
  unfold targetCount count
  by_cases hpos : 0 < step
  · have hneg : ¬step < 0 := by omega
    by_cases hspan : start < stop
    · have hdiv : 0 ≤ (stop-start-1)/step := Int.ediv_nonneg (by omega) hpos.le
      have hgt : 0 < stop-start := by omega
      simp only [hpos, hspan, hgt, if_true, true_and]
      rw [Int.tdiv_eq_ediv_of_nonneg (by omega)]
      omega
    · have hle : ¬0 < stop-start := by omega
      simp [hpos, hneg, hspan]
  · by_cases hspan : stop < start
    · have hlt : stop-start < 0 := by omega
      have hneg : step < 0 := by omega
      have hdiv : 0 ≤ (start-stop-1)/(-step) := Int.ediv_nonneg (by omega) (by omega)
      have hflip : (stop-start+1).tdiv step = (start-stop-1)/(-step) := by
        rw [← Int.tdiv_eq_ediv_of_nonneg (by omega), ← Int.neg_tdiv_neg]
        congr 1
        omega
      simp only [hpos, hneg, hspan, hlt, if_false, if_true, false_and, true_and, hflip]
      omega
    · have hge : ¬stop-start < 0 := by omega
      simp [hpos, hspan, hge]

/-- A walk that stays inside the sequence pushes every position it comes to. -/
theorem walkTargets_eq {len step : ℤ} (hlen : len < 2^63) (n : ℕ) {i : ℤ}
    (h : ∀ k : ℕ, k < n → 0 ≤ i+k*step ∧ i+k*step < len) :
    walkTargets len step n i = .ok ((List.range n).map fun k : ℕ => (i+k*step).toNat) := by
  induction n generalizing i with
  | zero => rfl
  | succ n ih =>
    have h0 := h 0 (by omega)
    simp only [Nat.cast_zero, zero_mul, add_zero] at h0
    have hpush : pushed len i = [i.toNat] := if_pos h0
    cases n with
    | zero => simp [walkTargets, hpush]
    | succ n =>
      have h1 := h 1 (by omega)
      simp only [Nat.cast_one, one_mul] at h1
      have hnext : ∀ k : ℕ, i+step+k*step = i+((k+1 : ℕ) : ℤ)*step := by
        intro k
        push_cast
        ring
      rw [walkTargets, word_ok (fits_64.mpr (by omega)), hpush]
      simp only [bind, Except.bind]
      rw [ih fun k hk => by rw [hnext]; exact h (k+1) (by omega), @List.range_succ_eq_map (n+1),
        List.map_cons, List.map_map]
      simp only [pure, Except.pure, Nat.cast_zero, zero_mul, add_zero, List.cons_append,
        List.nil_append, Except.ok.injEq, List.cons.injEq, true_and]
      apply List.map_congr_left
      intro k _
      exact congrArg Int.toNat (hnext k)

/-- A step held in a word selects what the step selects. -/
theorem selected_saturated {len : ℤ} (hlen : 0 ≤ len ∧ len < 2^63) {step : ℤ} (h0 : step ≠ 0)
    (lo hi : Option ℤ) : selected len (saturated step) lo hi = selected len step lo hi := by
  by_cases hfit : Fits 64 step
  · rw [saturated_of_fits hfit]
  · rw [fits_64] at hfit
    symm
    apply selected_congr_long hlen.1 saturated_pos.symm _ _ h0 (by simpa [saturated_eq_zero])
    · omega
    · rw [saturated]
      omega

/-- The positions of a list slice are those that the slice selects. -/
theorem sliceTargetIndices_eq {len : ℤ} (hlen : 0 ≤ len ∧ len < 2^63) {step : ℤ} (h0 : step ≠ 0)
    (lo hi : Option ℤ) :
    sliceTargetIndices len (startOf len step lo) (stopOf len step hi) (saturated step) =
      .ok ((selected len step lo hi).map Int.toNat) := by
  have hstart : startOf len step lo = startOf len (saturated step) lo :=
    startOf_congr saturated_pos.symm lo
  have hstop : stopOf len step hi = stopOf len (saturated step) hi :=
    stopOf_congr saturated_pos.symm hi
  rw [← selected_saturated hlen h0, hstart, hstop, sliceTargetIndices,
    targetCount_eq _ _ (by simpa [saturated_eq_zero]), Int.toNat_natCast]
  have hmem : ∀ i ∈ selected len (saturated step) lo hi, 0 ≤ i ∧ i < len := fun i hi' =>
    mem_selected hlen.1 hi'
  rw [selected, yields_eq] at hmem ⊢
  rw [walkTargets_eq hlen.2, List.map_map]
  · rfl
  · intro k hk
    exact hmem _ (List.mem_map.mpr ⟨k, List.mem_range.mpr hk, rfl⟩)

end Pyrust.SliceBounds
