import Pyrust.ListSlices

/-!
# Slices of a bytearray beside slices of a list

The bytearray resolves the bounds of a slice by itself, walks them with a cursor
that saturates, and drops the positions that lie outside. A bool bound is not held
between the limits.
-/

set_option autoImplicit false

namespace Pyrust.BytearraySlices

open FixedWidth RangeValues SliceSelection SliceBounds ListSlices

/-- The `clamp` closure of `resolve_slice_indices`. -/
def clampMax (v low high : ℤ) : ℤ := min (max v low) high

/-- The step, one for a kind that is no number. -/
def stepVal (step : Bound) : ℤ :=
  match step.kind with
  | .int n => n
  | .bool b => boolAsI64 b
  | .bigInt b => if b < 0 then -2^63 else 2^63-1
  | .none => 1

/-- `bigint_bound`: an index beyond every limit. -/
def bigintBound (len b : ℤ) : Except Failure ℤ := if b < 0 then word (-len-1) else word (len+1)

/-- `clamp_bound`. -/
def clampBound (len step n : ℤ) : Except Failure ℤ :=
  if 0 < step then
    if n < 0 then do return clampMax (← word (n+len)) 0 len else pure (clampMax n 0 len)
  else if n < 0 then do return clampMax (← word (n+len)) (-1) (← word (len-1))
  else do return clampMax n (-1) (← word (len-1))

/-- One bound of `resolve_slice_indices`. -/
def boundVal (len step default : ℤ) (bound : Bound) : Except Failure ℤ :=
  match bound.kind with
  | .none => .ok default
  | .int n => clampBound len step n
  | .bool b => .ok (boolAsI64 b)
  | .bigInt b => do clampBound len step (← bigintBound len b)

/-- `resolve_slice_indices`. -/
def resolveSliceIndices (len : ℤ) (start stop step : Bound) : Except Failure (ℤ × ℤ × ℤ) := do
  let step := stepVal step
  if step = 0 then .error zeroStep
  else
    let defaultStart ← if 0 < step then pure 0 else word (len-1)
    let defaultStop := if 0 < step then len else -1
    let start ← boundVal len step defaultStart start
    let stop ← boundVal len step defaultStop stop
    return (start, stop, step)

/-- `SliceIter`, taken for so many rounds. -/
def walk (stop step : ℤ) : ℕ → ℤ → List ℕ
  | 0, _ => []
  | rounds+1, current =>
    if 0 < step ∧ current < stop ∨ step < 0 ∧ stop < current then
      asUsize current::walk stop step rounds (saturated (current+step))
    else []

/-- `slice_indices`. A cursor in `i64` that goes one way ends within these rounds. -/
def sliceIndices (start stop step : ℤ) : List ℕ := walk stop step (2^64) start

def assignmentMismatch (given wanted : ℕ) : Failure :=
  .raise (.valueError
    s!"attempt to assign bytes of size {given} to extended slice of size {wanted}")

section items
variable {α : Type}

/-- The pass of `delete_item` over the items, beside the positions still to delete. -/
def dropMarked : List ℕ → ℕ → List α → List α
  | _, _, [] => []
  | indices, oldIndex, item::items =>
    if indices.head? = some oldIndex then dropMarked indices.tail (oldIndex+1) items
    else item::dropMarked indices (oldIndex+1) items

/-- `get_item` at a slice. -/
def getItem (data : List α) (lo hi st : Bound) : Except Failure (List α) := do
  let (start, stop, step) ← resolveSliceIndices data.length lo hi st
  return (sliceIndices start stop step).filterMap fun i => data[i]?

/-- The window of a slice of step one. -/
def window (data : List α) (start stop : ℤ) : ℕ × ℕ :=
  let s2 := min (asUsize (max start 0)) data.length
  (s2, max (min (asUsize (max stop 0)) data.length) s2)

/-- `set_item` at a slice, the bytes of the right side at hand. -/
def setItem (data : List α) (lo hi st : Bound) (replacement : List α) :
    Except Failure Unit × List α :=
  commit data do
    let (start, stop, step) ← resolveSliceIndices data.length lo hi st
    if step = 1 then
      splice data (window data start stop).1 (window data start stop).2 replacement
    else
      let indices := (sliceIndices start stop step).filter (· < data.length)
      if indices.length ≠ replacement.length then
        .error (assignmentMismatch replacement.length indices.length)
      else assignAll data (indices.zip replacement)

/-- `delete_item` at a slice. -/
def deleteItem (data : List α) (lo hi st : Bound) : Except Failure Unit × List α :=
  commit data do
    let (start, stop, step) ← resolveSliceIndices data.length lo hi st
    if step = 1 then splice data (window data start stop).1 (window data start stop).2 []
    else
      let indices := (sliceIndices start stop step).filter (· < data.length)
      let indices := if step < 0 then indices.reverse else indices
      return dropMarked indices 0 data

/-- The positions of a list slice: `resolve_slice_bounds`, then `slice_target_indices`. -/
def listIndices (len : ℤ) (lo hi st : Bound) : Except Failure (List ℕ) := do
  let (start, stop, step) ← resolveSliceBounds len (some lo) (some hi) (some st)
  sliceTargetIndices len start stop step

/-- Reading, replacing and deleting a slice touch exactly these positions. -/
structure Touches (data : List α) (lo hi st : Bound) (replacement : List α)
    (places : List ℕ) : Prop where
  read : ∃ bytes, getItem data lo hi st = .ok bytes ∧
    bytes.map some = places.map fun i => data[i]?
  stretch : stepOf (some st) = 1 → setItem data lo hi st replacement =
    (.ok (), data.take (startAt data (some lo) (some st)) ++ replacement ++
      data.drop (startAt data (some lo) (some st)+places.length))
  replaced : stepOf (some st) ≠ 1 → replacement.length = places.length →
    ∃ data', setItem data lo hi st replacement = (.ok (), data') ∧
      Replaced data replacement places data'
  mismatch : stepOf (some st) ≠ 1 → replacement.length ≠ places.length →
    setItem data lo hi st replacement =
      (.error (assignmentMismatch replacement.length places.length), data)
  deleted : deleteItem data lo hi st = (.ok (), retain (fun i => i ∉ places) data)

/-- A bytearray slice agrees with the list slice of the same bounds and length. -/
structure Agrees (data : List α) (lo hi st : Bound) (replacement : List α) : Prop where
  touches : ∀ places, listIndices data.length lo hi st = .ok places →
    Touches data lo hi st replacement places
  fails : ∀ e, listIndices data.length lo hi st = .error e →
    getItem data lo hi st = .error e ∧ setItem data lo hi st replacement = (.error e, data) ∧
      deleteItem data lo hi st = (.error e, data)

end items

/-! ## The cursor -/

/-- A cursor that leaves `i64` has passed every stop, and so has the saturated one. -/
theorem past_saturated {stop step current : ℤ} (hstop : -2^63 ≤ stop ∧ stop < 2^63)
    (hcurrent : -2^63 ≤ current ∧ current < 2^63)
    (hin : 0 < step ∧ current < stop ∨ step < 0 ∧ stop < current)
    (hfit : ¬Fits 64 (current+step)) :
    ¬Before stop step (current+step) ∧ ¬Before stop step (saturated (current+step)) ∧
      (0 < step → stop ≤ saturated (current+step)) ∧
      (step < 0 → saturated (current+step) ≤ stop) := by
  rw [fits_64] at hfit
  rcases hin with ⟨hpos, hlt⟩ | ⟨hneg, hlt⟩
  · have hover : 2^63 ≤ current+step := by
      by_contra hlt'
      exact hfit ⟨by omega, by omega⟩
    have hsat : saturated (current+step) = 2^63-1 := by
      rw [saturated, min_eq_right (by omega)]
      rfl
    have hle : stop ≤ 2^63-1 := by omega
    rw [hsat]
    exact ⟨fun hb => hb.elim (fun h => by omega) fun h => by omega,
      fun hb => hb.elim (fun h => by omega) fun h => by omega, fun _ => hle, fun h => by omega⟩
  · have hunder : current+step < -2^63 := by
      by_contra hlt'
      exact hfit ⟨by omega, by omega⟩
    have hsat : saturated (current+step) = -2^63 := by
      rw [saturated, max_eq_left ((min_le_left _ _).trans hunder.le)]
    rw [hsat]
    exact ⟨fun hb => hb.elim (fun h => by omega) fun h => by omega,
      fun hb => hb.elim (fun h => by omega) fun h => by omega, fun h => by omega,
      fun _ => hstop.1⟩

/-- A cursor with rounds enough yields the values of its range. Where it saturates it has passed
every stop in `i64`. -/
theorem walk_eq {stop step : ℤ} (hstop : Fits 64 stop) (rounds : ℕ) {current : ℤ}
    (hcurrent : Fits 64 current) (hup : 0 < step → stop-current < rounds)
    (hdown : step < 0 → current-stop < rounds) :
    walk stop step rounds current = (yields stop step current).map asUsize := by
  rw [fits_64] at hstop
  induction rounds generalizing current with
  | zero =>
    have hb : ¬Before stop step current := by
      rw [Before]
      omega
    rw [yields, if_neg hb]
    rfl
  | succ rounds ih =>
    rw [walk, yields]
    by_cases hb : Before stop step current
    · have hin : 0 < step ∧ current < stop ∨ step < 0 ∧ stop < current := hb
      rw [if_pos hin, if_pos hb, List.map_cons]
      congr 1
      rw [fits_64] at hcurrent
      by_cases hfit : Fits 64 (current+step)
      · rw [saturated_of_fits hfit]
        exact ih hfit (by omega) (by omega)
      · have hpast := past_saturated hstop hcurrent hin hfit
        have hnil : yields stop step (saturated (current+step)) = [] := by
          rw [yields, if_neg hpast.2.1]
        have hnil' : yields stop step (current+step) = [] := by
          rw [yields, if_neg hpast.1]
        rw [ih (saturated_fits _) (fun hs => by have := hpast.2.2.1 hs; omega)
          (fun hs => by have := hpast.2.2.2 hs; omega), hnil, hnil']
    · have hout : ¬(0 < step ∧ current < stop ∨ step < 0 ∧ stop < current) := hb
      rw [if_neg hout, if_neg hb]
      rfl

/-! ## The bounds -/

/-- A resolved start. A bool is taken as it is. -/
def startByte (len step : ℤ) : Bound → ℤ
  | .bool b => boolAsI64 b
  | lo => startOf len step lo.value

def stopByte (len step : ℤ) : Bound → ℤ
  | .bool b => boolAsI64 b
  | hi => stopOf len step hi.value

/-- A positive large bound of the longest sequence: its stand-in is past the word. -/
def Overflows (len : ℤ) (b : Bound) : Prop := len = 2^63-1 ∧ ∃ n, b = .int n ∧ 2^63 ≤ n

theorem stepVal_eq (st : Bound) : stepVal st = saturated (stepOf (some st)) := by
  cases st with
  | none => rfl
  | bool b => cases b <;> rfl
  | int n =>
    have hstep : stepOf (some (.int n)) = n := rfl
    rw [hstep]
    by_cases hn : Fits 64 n
    · simp only [stepVal, Bound.kind, hn, if_true, saturated_of_fits hn]
    · simp only [stepVal, Bound.kind, hn, if_false]
      rw [fits_64] at hn
      rw [saturated]
      split <;> omega

section bounds
variable {len : ℤ} (hlen : 0 ≤ len ∧ len < 2^63)
include hlen

theorem clampBound_eq {n : ℤ} (h : Fits 64 n) (step : ℤ) :
    clampBound len step n = .ok (clamped len step n) := by
  rw [fits_64] at h
  have hpred : word (len-1) = .ok (len-1) := word_ok (fits_64.mpr (by omega))
  have hclamp : ∀ v low high : ℤ, low ≤ high → clampMax v low high = max low (min high v) := by
    intro v low high hle
    rw [clampMax]
    omega
  have hle : (-1 : ℤ) ≤ len-1 := by omega
  unfold clampBound clamped lower upper
  by_cases hn : n < 0
  · have hadd : word (n+len) = .ok (n+len) := word_ok (fits_64.mpr (by omega))
    by_cases hs : 0 < step <;>
      simp [hn, hs, hadd, hpred, hclamp, hlen.1, hle, bind, Except.bind, pure, Except.pure]
  · by_cases hs : 0 < step <;>
      simp [hn, hs, hpred, hclamp, hlen.1, hle, bind, Except.bind, pure, Except.pure]

theorem boundVal_int {n : ℤ} (h : ¬Overflows len (.int n)) (step default : ℤ) :
    boundVal len step default (.int n) = .ok (clamped len step n) := by
  by_cases hn : Fits 64 n
  · simp only [boundVal, Bound.kind, hn, if_true]
    exact clampBound_eq hlen hn step
  · simp only [boundVal, Bound.kind, hn, if_false]
    have hno : ¬(len = 2^63-1 ∧ 2^63 ≤ n) := fun ho => h ⟨ho.1, n, rfl, ho.2⟩
    rw [fits_64] at hn
    rw [bigintBound]
    by_cases hneg : n < 0
    · have hfit : Fits 64 (-len-1) := fits_64.mpr (by omega)
      rw [if_pos hneg, word_ok hfit]
      refine (clampBound_eq hlen hfit step).trans (congrArg _ ?_)
      unfold clamped lower upper
      split <;> omega
    · have hfit : Fits 64 (len+1) := fits_64.mpr (by omega)
      rw [if_neg hneg, word_ok hfit]
      refine (clampBound_eq hlen hfit step).trans (congrArg _ ?_)
      unfold clamped lower upper
      split <;> omega

omit hlen in
theorem boundVal_overflow {b : Bound} (h : Overflows len b) (step default : ℤ) :
    boundVal len step default b = .error (.panic .overflow) := by
  obtain ⟨hl, n, rfl, hn⟩ := h
  have hfit : ¬Fits 64 n := by
    rw [fits_64]
    omega
  have hword : word (len+1) = .error (.panic .overflow) := by
    rw [word, if_neg]
    rw [fits_64]
    omega
  have hneg : ¬n < 0 := by omega
  simp only [boundVal, Bound.kind, hfit, if_false, bigintBound, hneg, hword]
  rfl

theorem startVal_eq {lo : Bound} (h : ¬Overflows len lo) (step : ℤ) :
    boundVal len step (if 0 < step then 0 else len-1) lo = .ok (startByte len step lo) := by
  cases lo with
  | none =>
    unfold startByte startOf lower upper
    simp only [boundVal, Bound.kind, Bound.value]
    split <;> rfl
  | bool b => rfl
  | int n => exact boundVal_int hlen h step _

theorem stopVal_eq {hi : Bound} (h : ¬Overflows len hi) (step : ℤ) :
    boundVal len step (if 0 < step then len else -1) hi = .ok (stopByte len step hi) := by
  cases hi with
  | none =>
    unfold stopByte stopOf lower upper
    simp only [boundVal, Bound.kind, Bound.value]
    split <;> rfl
  | bool b => rfl
  | int n => exact boundVal_int hlen h step _

theorem resolveSliceIndices_eq (lo hi st : Bound) : resolveSliceIndices len lo hi st = (do
    if stepOf (some st) = 0 then .error zeroStep
    else
      let step := saturated (stepOf (some st))
      let start ← boundVal len step (if 0 < step then 0 else len-1) lo
      let stop ← boundVal len step (if 0 < step then len else -1) hi
      return (start, stop, step)) := by
  have hpred : word (len-1) = .ok (len-1) := word_ok (fits_64.mpr (by omega))
  rw [resolveSliceIndices, stepVal_eq]
  by_cases h0 : stepOf (some st) = 0
  · rw [if_pos h0, if_pos (saturated_eq_zero.mpr h0)]
  · rw [if_neg h0, if_neg (fun h => h0 (saturated_eq_zero.mp h))]
    by_cases hs : 0 < saturated (stepOf (some st))
    · simp only [hs, if_true]
      rfl
    · simp only [hs, if_false, hpred]
      rfl

theorem resolveSliceIndices_ok {lo hi st : Bound} (h0 : stepOf (some st) ≠ 0)
    (hlo : ¬Overflows len lo) (hhi : ¬Overflows len hi) :
    resolveSliceIndices len lo hi st = .ok (startByte len (saturated (stepOf (some st))) lo,
      stopByte len (saturated (stepOf (some st))) hi, saturated (stepOf (some st))) := by
  rw [resolveSliceIndices_eq hlen, if_neg h0]
  simp only [startVal_eq hlen hlo, stopVal_eq hlen hhi]
  rfl

theorem resolveSliceIndices_overflow {lo hi st : Bound} (h0 : stepOf (some st) ≠ 0)
    (h : Overflows len lo ∨ Overflows len hi) :
    resolveSliceIndices len lo hi st = .error (.panic .overflow) := by
  rw [resolveSliceIndices_eq hlen, if_neg h0]
  by_cases hlo : Overflows len lo
  · simp only [boundVal_overflow hlo]
    rfl
  · simp only [startVal_eq hlen hlo, boundVal_overflow (h.resolve_left hlo)]
    rfl

end bounds

/-! ## The positions that are kept -/

/-- The one position of a sequence of length one is passed over: the start is the bool `True`,
one past it, and the step goes from there beyond the stop. -/
def Skips (len : ℤ) (lo hi st : Bound) : Prop :=
  len = 1 ∧ lo = .bool true ∧ stepOf (some st) ≤ -2 ∧
    stopOf len (stepOf (some st)) (given (some hi)) = -1

section kept
variable {len step : ℤ}

/-- A bool is a bound between the limits, or the sequence is too short. -/
theorem clamped_bool (h : 2 ≤ len ∨ len = 1 ∧ 0 < step) (b : Bool) :
    clamped len step (boolAsI64 b) = boolAsI64 b := by
  have hb : boolAsI64 b = 0 ∨ boolAsI64 b = 1 := by cases b <;> simp [boolAsI64]
  unfold clamped lower upper
  split <;> omega

theorem startByte_eq (h : 2 ≤ len ∨ len = 1 ∧ 0 < step) (lo : Bound) :
    startByte len step lo = startOf len step (given (some lo)) := by
  cases lo with
  | none => rfl
  | bool b => exact (clamped_bool h b).symm
  | int n => rfl

theorem stopByte_eq (h : 2 ≤ len ∨ len = 1 ∧ 0 < step) (hi : Bound) :
    stopByte len step hi = stopOf len step (given (some hi)) := by
  cases hi with
  | none => rfl
  | bool b => exact (clamped_bool h b).symm
  | int n => rfl

/-- Backwards over one position a `True` is one past the limit, any other bound is as given. -/
theorem startByte_one (h : step < 0) (lo : Bound) :
    (lo ≠ .bool true ∧ startByte 1 step lo = startOf 1 step (given (some lo))) ∨
      (lo = .bool true ∧ startByte 1 step lo = 1 ∧ startOf 1 step (given (some lo)) = 0) := by
  have hs : ¬0 < step := by omega
  cases lo with
  | none => exact .inl ⟨by simp, rfl⟩
  | int n => exact .inl ⟨by simp, rfl⟩
  | bool b =>
    cases b <;>
      simp [startByte, startOf, given, Bound.value, boolAsI64, clamped, lower, upper, hs]

theorem stopByte_one (h : step < 0) (hi : Bound) :
    stopByte 1 step hi = stopOf 1 step (given (some hi)) ∨
      (stopByte 1 step hi = 1 ∧ stopOf 1 step (given (some hi)) = 0) := by
  have hs : ¬0 < step := by omega
  cases hi with
  | none => exact .inl rfl
  | int n => exact .inl rfl
  | bool b =>
    cases b <;>
      simp [stopByte, stopOf, given, Bound.value, boolAsI64, clamped, lower, upper, hs]

theorem byte_bounds (h : 0 ≤ len) (lo hi : Bound) :
    (-1 ≤ startByte len step lo ∧ startByte len step lo ≤ max len 1 ∧
      (0 < step → 0 ≤ startByte len step lo)) ∧
    -1 ≤ stopByte len step hi ∧ stopByte len step hi ≤ max len 1 := by
  have hbool : ∀ b, boolAsI64 b = 0 ∨ boolAsI64 b = 1 := by
    intro b
    cases b <;> simp [boolAsI64]
  have hs := @startOf_bounds len step h lo.value
  have ht := @stopOf_bounds len step h hi.value
  unfold lower upper at hs ht
  constructor
  · cases lo with
    | none =>
      rw [startByte]
      · split at hs <;> omega
      · simp
    | int n =>
      rw [startByte]
      · split at hs <;> omega
      · simp
    | bool b =>
      have := hbool b
      rw [startByte]
      omega
  · cases hi with
    | none =>
      rw [stopByte]
      · split at ht <;> omega
      · simp
    | int n =>
      rw [stopByte]
      · split at ht <;> omega
      · simp
    | bool b =>
      have := hbool b
      rw [stopByte]
      omega

theorem sliceIndices_eq (hlen : 0 ≤ len ∧ len < 2^63) (lo hi : Bound) :
    sliceIndices (startByte len step lo) (stopByte len step hi) step =
      (yields (stopByte len step hi) step (startByte len step lo)).map Int.toNat := by
  obtain ⟨⟨hs, hs', hpos⟩, ht, ht'⟩ := @byte_bounds len step hlen.1 lo hi
  have hstop : Fits 64 (stopByte len step hi) := fits_64.mpr (by omega)
  have hstart : Fits 64 (startByte len step lo) := fits_64.mpr (by omega)
  rw [sliceIndices, walk_eq hstop _ hstart (by omega) (by omega)]
  apply List.map_congr_left
  intro v hv
  obtain ⟨hb, hup, hdown⟩ := mem_yields hv
  rw [Before] at hb
  apply asUsize_eq <;> omega

/-- Positions that all lie inside are all kept. -/
theorem filter_inside {n : ℕ} {places : List ℤ} (h : ∀ v ∈ places, 0 ≤ v ∧ v < n) :
    (places.map Int.toNat).filter (· < n) = places.map Int.toNat := by
  refine List.filter_eq_self.mpr fun i hi => ?_
  obtain ⟨v, hv, rfl⟩ := List.mem_map.mp hi
  have := h v hv
  rw [decide_eq_true_iff]
  omega

theorem yields_not_before {stop start : ℤ} (h : ¬Before stop step start) :
    yields stop step start = [] := by
  rw [yields, if_neg h]

theorem yields_before {stop start : ℤ} (h : Before stop step start) :
    yields stop step start = start::yields stop step (start+step) := by
  rw [yields, if_pos h]

/-- Over one position, backwards: the bounds that differ from those of a list. -/
theorem kept_one (hs : step < 0) (lo hi : Bound) (h : ¬(lo = .bool true ∧ step ≤ -2 ∧
      stopOf 1 step (given (some hi)) = -1)) :
    ((yields (stopByte 1 step hi) step (startByte 1 step lo)).map Int.toNat).filter (· < 1) =
      (selected 1 step (given (some lo)) (given (some hi))).map Int.toNat := by
  obtain ⟨hs1, hs1'⟩ := @startOf_bounds 1 step (by omega) (given (some lo))
  obtain ⟨ht1, ht1'⟩ := @stopOf_bounds 1 step (by omega) (given (some hi))
  have hno : ¬0 < step := by omega
  rw [lower, if_neg hno] at hs1 ht1
  rw [upper, if_neg hno] at hs1' ht1'
  have hinside := fun v => @mem_selected 1 step (given (some lo)) (given (some hi)) (by omega) v
  rw [selected] at hinside ⊢
  rcases startByte_one hs lo with ⟨hlo, hstart⟩ | ⟨hlo, hstart, hfrom⟩
  · rcases stopByte_one hs hi with hstop | ⟨hstop, hto⟩
    · rw [hstart, hstop]
      exact filter_inside hinside
    · rw [hstart, hstop, hto, yields_not_before, yields_not_before]
      · rfl
      · rw [Before]
        omega
      · rw [Before]
        omega
  · rw [hstart, hfrom]
    rcases stopByte_one hs hi with hstop | ⟨hstop, hto⟩
    · rw [hstop]
      have hcases : stopOf 1 step (given (some hi)) = 0 ∨
          stopOf 1 step (given (some hi)) = -1 ∧ step = -1 := by
        by_cases hstep : step ≤ -2
        · have : stopOf 1 step (given (some hi)) ≠ -1 := fun ht => h ⟨hlo, hstep, ht⟩
          omega
        · omega
      rcases hcases with hto | ⟨hto, rfl⟩
      · rw [hto, yields_before, yields_not_before, yields_not_before]
        · rfl
        · rw [Before]
          omega
        · rw [Before]
          omega
        · rw [Before]
          omega
      · rw [hto, yields_eq, yields_eq]
        decide
    · rw [hstop, hto, yields_not_before, yields_not_before]
      · rfl
      · rw [Before]
        omega
      · rw [Before]
        omega

/-- The positions that a bytearray keeps are those of a list, but where one is passed over. -/
theorem kept_eq {n : ℕ} (hlen : (n : ℤ) < 2^63) (h0 : step ≠ 0) (lo hi : Bound)
    (h : ¬((n : ℤ) = 1 ∧ lo = .bool true ∧ step ≤ -2 ∧
      stopOf n step (given (some hi)) = -1)) :
    (sliceIndices (startByte n step lo) (stopByte n step hi) step).filter (· < n) =
      (selected n step (given (some lo)) (given (some hi))).map Int.toNat := by
  rw [sliceIndices_eq ⟨by omega, hlen⟩]
  have hinside := fun v => @mem_selected n step (given (some lo)) (given (some hi)) (by omega) v
  by_cases hwide : 2 ≤ (n : ℤ) ∨ (n : ℤ) = 1 ∧ 0 < step
  · rw [startByte_eq hwide, stopByte_eq hwide]
    exact filter_inside hinside
  by_cases hone : n = 1
  · subst hone
    refine kept_one (by omega) lo hi fun hskip => h ⟨by omega, hskip⟩
  · obtain rfl : n = 0 := by omega
    have hempty : selected (0 : ℕ) step (given (some lo)) (given (some hi)) = [] := by
      refine List.eq_nil_iff_forall_not_mem.mpr fun v hv => ?_
      have := hinside v hv
      omega
    rw [hempty, List.filter_eq_nil_iff.mpr]
    · rfl
    · intro i _
      simp

end kept

/-! ## The operations on kept positions -/

section operations
variable {α : Type}

theorem filterMap_inside (data : List α) (l : List ℕ) :
    (l.filterMap fun i => data[i]?).map some =
      (l.filter (· < data.length)).map fun i => data[i]? := by
  induction l with
  | nil => rfl
  | cons i l ih => by_cases hi : i < data.length <;> simp [hi, ih]

/-- `retain` over items that stand from an index on. -/
def retainFrom (k : ℕ) (keep : ℕ → Bool) (items : List α) : List α :=
  ((items.zipIdx k).filter fun x => keep x.2).map Prod.fst

theorem retainFrom_cons (k : ℕ) (keep : ℕ → Bool) (item : α) (items : List α) :
    retainFrom k keep (item::items) =
      if keep k then item::retainFrom (k+1) keep items else retainFrom (k+1) keep items := by
  unfold retainFrom
  cases h : keep k <;> simp [h]

theorem retainFrom_append (k : ℕ) (keep : ℕ → Bool) (items items' : List α) :
    retainFrom k keep (items ++ items') =
      retainFrom k keep items ++ retainFrom (k+items.length) keep items' := by
  simp [retainFrom, List.zipIdx_append]

theorem retainFrom_all {k : ℕ} {keep : ℕ → Bool} {items : List α}
    (h : ∀ i, k ≤ i → i < k+items.length → keep i = true) : retainFrom k keep items = items := by
  induction items generalizing k with
  | nil => rfl
  | cons item items ih =>
    rw [retainFrom_cons, if_pos (h k le_rfl (by simp)), ih]
    intro i hi hlt
    apply h i (by omega)
    rw [List.length_cons]
    omega

theorem retainFrom_none {k : ℕ} {keep : ℕ → Bool} {items : List α}
    (h : ∀ i, k ≤ i → i < k+items.length → keep i = false) : retainFrom k keep items = [] := by
  induction items generalizing k with
  | nil => rfl
  | cons item items ih =>
    have hk := h k le_rfl (by simp)
    rw [retainFrom_cons, hk, if_neg (by decide), ih]
    intro i hi hlt
    apply h i (by omega)
    rw [List.length_cons]
    omega

theorem retainFrom_congr {k : ℕ} {keep keep' : ℕ → Bool} {items : List α}
    (h : ∀ i, k ≤ i → keep i = keep' i) : retainFrom k keep items = retainFrom k keep' items := by
  induction items generalizing k with
  | nil => rfl
  | cons item items ih =>
    rw [retainFrom_cons, retainFrom_cons, h k le_rfl, ih fun i hi => h i (by omega)]

/-- A stretch taken out is a pass that keeps the positions outside it. -/
theorem retain_stretch (items : List α) {start stop : ℕ} (h : start ≤ stop)
    (h' : stop ≤ items.length) :
    retain (fun i => ¬(start ≤ i ∧ i < stop)) items = items.take start ++ items.drop stop := by
  have hsplit : items = items.take start ++ ((items.drop start).take (stop-start) ++
      items.drop stop) := by
    have hdrop : items.drop stop = (items.drop start).drop (stop-start) := by
      rw [List.drop_drop]
      congr 1
      omega
    rw [hdrop, List.take_append_drop, List.take_append_drop]
  have hfrom : retain (fun i => ¬(start ≤ i ∧ i < stop)) items =
      retainFrom 0 (fun i => ¬(start ≤ i ∧ i < stop)) items := rfl
  have hlen : (items.take start).length = start := by
    rw [List.length_take]
    omega
  have hlen' : ((items.drop start).take (stop-start)).length = stop-start := by
    rw [List.length_take, List.length_drop]
    omega
  rw [hfrom]
  conv_lhs => rw [hsplit]
  rw [retainFrom_append, retainFrom_append, hlen, hlen', retainFrom_all, retainFrom_none,
    retainFrom_all, List.nil_append]
  · intro i hi _
    simp
    omega
  · intro i hi hlt
    simp
    omega
  · intro i hi hlt
    simp
    omega

/-- The pass beside ascending positions keeps the others. -/
theorem dropMarked_eq {indices : List ℕ} (hs : indices.Pairwise (· < ·)) {k : ℕ}
    (h : ∀ i ∈ indices, k ≤ i) (items : List α) :
    dropMarked indices k items = retainFrom k (fun i => i ∉ indices) items := by
  induction items generalizing indices k with
  | nil =>
    rw [dropMarked]
    rfl
  | cons item items ih =>
    rw [dropMarked, retainFrom_cons]
    cases indices with
    | nil =>
      rw [if_neg (by simp), if_pos (by simp), ih List.Pairwise.nil (by simp)]
    | cons index rest =>
      rw [List.pairwise_cons] at hs
      by_cases heq : index = k
      · subst heq
        rw [if_pos List.head?_cons, if_neg (by simp), List.tail_cons, ih hs.2 fun i hi => hs.1 i hi]
        apply retainFrom_congr
        intro i hi
        have hne : i ≠ index := by omega
        simp [hne]
      · have hlt : k < index := lt_of_le_of_ne (h index (by simp)) (Ne.symm heq)
        have hnot : k ∉ index::rest := by
          intro hk
          rcases List.mem_cons.mp hk with rfl | hk
          · exact heq rfl
          · exact absurd (hs.1 k hk) (by omega)
        rw [if_neg (by simpa using heq), if_pos (by simpa using hnot),
          ih (List.pairwise_cons.mpr hs)]
        intro i hi
        rcases List.mem_cons.mp hi with rfl | hi
        · exact hlt
        · have := hs.1 i hi
          omega

variable (v : Items α) (lo hi st : Bound)

/-- The positions of the list slice. -/
def places : List ℕ := positions v.items (some lo) (some hi) (some st)

theorem listIndices_eq : listIndices v.items.length lo hi st =
    if stepOf (some st) = 0 then .error zeroStep else .ok (places v lo hi st) := by
  rw [listIndices, resolveSliceBounds_eq (length_word v)]
  by_cases h0 : stepOf (some st) = 0
  · simp only [h0, if_true, bind, Except.bind]
  · simp only [h0, if_false, bind, Except.bind,
      sliceTargetIndices_eq (length_word v) h0 (given (some lo)) (given (some hi))]
    rfl

/-- The positions of a slice of step one are the stretch between its bounds. -/
theorem places_one (h : stepOf (some st) = 1) :
    startAt v.items (some lo) (some st)+(places v lo hi st).length =
      max (stopAt v.items (some hi) (some st)) (startAt v.items (some lo) (some st)) ∧
    ∀ i, i ∈ places v lo hi st ↔
      startAt v.items (some lo) (some st) ≤ i ∧ i < stopAt v.items (some hi) (some st) := by
  have hlen := (length_word v).1
  obtain ⟨hs, -⟩ := @startOf_bounds v.items.length (stepOf (some st)) hlen (given (some lo))
  obtain ⟨ht, -⟩ := @stopOf_bounds v.items.length (stepOf (some st)) hlen (given (some hi))
  have hlow : lower (stepOf (some st)) = 0 := by
    rw [h]
    rfl
  rw [hlow] at hs ht
  rw [places, positions, startAt, stopAt, selected]
  generalize startOf v.items.length (stepOf (some st)) (given (some lo)) = start at hs ⊢
  generalize stopOf v.items.length (stepOf (some st)) (given (some hi)) = stop at ht ⊢
  have hcount : (count start stop 1 : ℤ) = max 0 (stop-start) := by
    rw [count]
    split
    · omega
    · rw [if_neg (by omega)]
      omega
  rw [h]
  constructor
  · rw [List.length_map, yields_length]
    omega
  · intro i
    rw [yields_eq, List.map_map, List.mem_map]
    constructor
    · rintro ⟨k, hk, rfl⟩
      rw [List.mem_range] at hk
      simp only [Function.comp_apply]
      omega
    · rintro ⟨hle, hlt⟩
      refine ⟨i-start.toNat, ?_, ?_⟩
      · rw [List.mem_range]
        omega
      · simp only [Function.comp_apply]
        omega

/-- A truth value is inside the limits of any bytearray but the empty one. -/
theorem min_boolAsI64 {len : ℤ} (h : 0 ≤ len) (b : Bool) :
    min (boolAsI64 b) len = clamped len 1 (boolAsI64 b) := by
  have hlow : lower 1 = 0 := rfl
  have hup : upper len 1 = len := rfl
  have hbool : 0 ≤ boolAsI64 b := by cases b <;> decide
  rw [clamped, hlow, hup, if_neg (not_lt.mpr hbool), max_eq_right (le_min h hbool), min_comm]

/-- One end of the window. -/
theorem window_end {n : ℕ} {s a : ℤ} (h : min s n = a) (hs : s < 2^63) :
    min (asUsize (max s 0)) n = a.toNat := by
  rw [asUsize_eq (le_max_right s 0) (by omega)]
  omega

/-- At step one the window of the bytearray is the stretch of the list. -/
theorem window_eq (h : stepOf (some st) = 1) :
    window v.items (startByte v.items.length 1 lo) (stopByte v.items.length 1 hi) =
      (startAt v.items (some lo) (some st),
        max (stopAt v.items (some hi) (some st)) (startAt v.items (some lo) (some st))) := by
  have hlen := length_word v
  have hword : max (v.items.length : ℤ) 1 < 2^63 := max_lt hlen.2 (by decide)
  obtain ⟨⟨-, hs, -⟩, -, ht⟩ := @byte_bounds v.items.length 1 hlen.1 lo hi
  have hup : upper v.items.length 1 = v.items.length := rfl
  have hstart : min (startByte v.items.length 1 lo) v.items.length =
      startOf v.items.length 1 (given (some lo)) := by
    have hin := (@startOf_bounds v.items.length 1 hlen.1 (given (some lo))).2
    rw [hup] at hin
    cases lo with
    | none => exact min_eq_left hin
    | int n => exact min_eq_left hin
    | bool b => exact min_boolAsI64 hlen.1 b
  have hstop : min (stopByte v.items.length 1 hi) v.items.length =
      stopOf v.items.length 1 (given (some hi)) := by
    have hin := (@stopOf_bounds v.items.length 1 hlen.1 (given (some hi))).2
    rw [hup] at hin
    cases hi with
    | none => exact min_eq_left hin
    | int n => exact min_eq_left hin
    | bool b => exact min_boolAsI64 hlen.1 b
  rw [window, startAt, stopAt, h, ← window_end hstart (hs.trans_lt hword),
    ← window_end hstop (ht.trans_lt hword)]

/-- Kept positions in ascending order are those of the slice, forwards. -/
theorem ascending {step : ℤ} (h0 : step ≠ 0) (lo hi : Option ℤ) :
    (if step < 0 then ((selected v.items.length step lo hi).map Int.toNat).reverse
      else (selected v.items.length step lo hi).map Int.toNat).Pairwise (· < ·) := by
  have hin := fun i => @mem_selected v.items.length step lo hi (length_word v).1 i
  split
  · rename_i hs
    rw [List.pairwise_reverse, List.pairwise_map]
    refine List.Pairwise.imp_of_mem ?_ (yields_pairwise_gt hs)
    intro i j hi' hj' hij
    have := hin i hi'
    have := hin j hj'
    omega
  · rename_i hs
    rw [List.pairwise_map]
    refine List.Pairwise.imp_of_mem ?_ (yields_pairwise_lt (by omega))
    intro i j hi' hj' hij
    have := hin i hi'
    have := hin j hj'
    omega

variable {lo hi st}

theorem touches (h0 : stepOf (some st) ≠ 0) (hlo : ¬Overflows v.items.length lo)
    (hhi : ¬Overflows v.items.length hi) (hskip : ¬Skips v.items.length lo hi st)
    (replacement : List α) :
    Touches v.items lo hi st replacement (places v lo hi st) := by
  have hword := length_word v
  have hres := resolveSliceIndices_ok hword h0 hlo hhi
  have h0' : saturated (stepOf (some st)) ≠ 0 := fun h => h0 (saturated_eq_zero.mp h)
  have hkept : (sliceIndices (startByte v.items.length (saturated (stepOf (some st))) lo)
      (stopByte v.items.length (saturated (stepOf (some st))) hi)
      (saturated (stepOf (some st)))).filter (· < v.items.length) = places v lo hi st := by
    rw [kept_eq hword.2 h0', selected_saturated hword h0, places, positions]
    rintro ⟨hone, htrue, hstep, hstop⟩
    have hdown : stepOf (some st) ≤ -2 := by
      rw [saturated] at hstep
      omega
    refine hskip ⟨hone, htrue, hdown, ?_⟩
    rw [stopOf_congr saturated_pos.symm]
    exact hstop
  have hsat : stepOf (some st) ≠ 1 → saturated (stepOf (some st)) ≠ 1 := by
    rw [saturated]
    omega
  have hpl : ∀ i ∈ places v lo hi st, i < v.items.length := fun i hi' =>
    positions_lt v (some lo) (some hi) (some st) hi'
  constructor
  · refine ⟨_, by rw [getItem, hres]; rfl, ?_⟩
    rw [filterMap_inside, hkept]
  · intro h1
    obtain ⟨hlen, -⟩ := places_one v lo hi st h1
    have hcl := clamped_le v (some lo) (some hi) (some st) h1
    have hs1 : saturated (stepOf (some st)) = 1 := by
      rw [h1]
      rfl
    rw [setItem, hres]
    simp only [bind, Except.bind, hs1, if_true, window_eq v lo hi st h1]
    rw [splice_eq (by omega), if_neg (by omega), hlen, max_eq_right (by omega)]
    rfl
  · intro h1 hlen
    obtain ⟨data', hrun, hr⟩ := assignAll_replaced
      (positions_nodup v (some lo) (some hi) (some st) h0) hlen hpl
    refine ⟨data', ?_, hr⟩
    rw [setItem, hres]
    simp only [bind, Except.bind, hsat h1, if_false, hkept]
    rw [if_neg (not_not.mpr hlen.symm)]
    exact congrArg (commit v.items) hrun
  · intro h1 hlen
    rw [setItem, hres]
    simp only [bind, Except.bind, hsat h1, if_false, hkept]
    rw [if_pos (Ne.symm hlen)]
    rfl
  · rw [deleteItem, hres]
    by_cases h1 : stepOf (some st) = 1
    · obtain ⟨hlen, hmem⟩ := places_one v lo hi st h1
      have hcl := clamped_le v (some lo) (some hi) (some st) h1
      have hs1 : saturated (stepOf (some st)) = 1 := by
        rw [h1]
        rfl
      simp only [bind, Except.bind, hs1, if_true, window_eq v lo hi st h1]
      rw [splice_eq (by omega), if_neg (by omega), List.append_nil,
        ← retain_stretch v.items (by omega) (by omega)]
      have hkeep : (fun i => decide (i ∉ places v lo hi st)) = fun i =>
          decide (¬(startAt v.items (some lo) (some st) ≤ i ∧
            i < max (startAt v.items (some lo) (some st))
              (max (stopAt v.items (some hi) (some st))
                (startAt v.items (some lo) (some st))))) := by
        funext i
        rw [decide_eq_decide, hmem]
        omega
      rw [hkeep]
      rfl
    · have hasc := ascending v h0' (given (some lo)) (given (some hi))
      rw [selected_saturated hword h0] at hasc
      simp only [bind, Except.bind, hsat h1, if_false, hkept]
      have hall : ∀ i, i ∈ (if saturated (stepOf (some st)) < 0 then
          (places v lo hi st).reverse else places v lo hi st) ↔ i ∈ places v lo hi st := by
        intro i
        split <;> simp
      have hdrop := @dropMarked_eq α _ hasc 0 (by simp) v.items
      refine congrArg (commit v.items) (congrArg _ (hdrop.trans ?_))
      exact retainFrom_congr fun i _ => decide_eq_decide.mpr (not_congr (hall i))

/-- Where one position is passed over, a bytearray reads nothing and a list its only item. -/
theorem skips_differ (h : Skips v.items.length lo hi st) (hhi : ¬Overflows v.items.length hi) :
    getItem v.items lo hi st = .ok [] ∧ (places v lo hi st).length = 1 := by
  obtain ⟨hone, rfl, hstep, hstop⟩ := h
  have hs : saturated (stepOf (some st)) ≤ -2 := by
    rw [saturated]
    omega
  have hneg : saturated (stepOf (some st)) < 0 := by omega
  have hlo : ¬Overflows v.items.length (.bool true) := by
    rintro ⟨-, n, hn, -⟩
    cases hn
  have hbefore : ∀ start step : ℤ, 0 ≤ start → step < 0 → Before (-1) step start := by
    intro start step hstart hstep
    rw [Before]
    omega
  have hpast : ∀ start step : ℤ, start+step ≤ -1 → step < 0 → ¬Before (-1) step (start+step) := by
    intro start step hstart hstep
    rw [Before]
    omega
  have hlist : stopOf 1 (saturated (stepOf (some st))) (given (some hi)) = -1 := by
    rw [← hstop, hone]
    exact stopOf_congr saturated_pos _
  have hbyte : stopByte 1 (saturated (stepOf (some st))) hi = -1 := by
    rcases stopByte_one hneg hi with heq | ⟨-, hzero⟩
    · rw [heq, hlist]
    · rw [hlist] at hzero
      cases hzero
  constructor
  · have hne : stepOf (some st) ≠ 0 := by omega
    have hres := resolveSliceIndices_ok (length_word v) hne hlo hhi
    have hsi := @sliceIndices_eq v.items.length (saturated (stepOf (some st))) (length_word v)
      (.bool true) hi
    have hstart : startByte 1 (saturated (stepOf (some st))) (.bool true) = 1 := rfl
    have hnone : v.items[1]? = none := List.getElem?_eq_none (by omega)
    rw [getItem, hres]
    simp only [bind, Except.bind, pure, Except.pure]
    rw [hsi, hone, hbyte, hstart, yields_before (hbefore 1 _ (by omega) hneg),
      yields_not_before (hpast 1 (saturated (stepOf (some st))) (by omega) hneg)]
    simp [hnone]
  · have hstart : startOf 1 (stepOf (some st)) (given (some (.bool true))) = 0 := by
      rcases startByte_one (by omega : stepOf (some st) < 0) (.bool true) with ⟨hne, -⟩ | h
      · exact absurd rfl hne
      · exact h.2.2
    rw [places, positions, List.length_map, selected, hstop, hone, hstart,
      yields_before (hbefore 0 _ le_rfl (by omega)),
      yields_not_before (hpast 0 (stepOf (some st)) (by omega) (by omega))]
    rfl

/-- A bytearray slice agrees with the list slice but where its only position is passed over, and
where the stand-in of a large bound leaves the word. -/
theorem bytearray_slices_exact (v : Items α) (lo hi st : Bound) (replacement : List α) :
    Agrees v.items lo hi st replacement ↔
      ¬(Skips v.items.length lo hi st ∨
        stepOf (some st) ≠ 0 ∧ (Overflows v.items.length lo ∨ Overflows v.items.length hi)) := by
  have hlist := listIndices_eq v lo hi st
  constructor
  · rintro h (hskip | ⟨h0, hover⟩)
    · have hone := hskip.1
      have hstep := hskip.2.2.1
      have hhi : ¬Overflows v.items.length hi := by
        rintro ⟨hmax, -⟩
        omega
      obtain ⟨hread, hlen⟩ := skips_differ v hskip hhi
      rw [if_neg (by omega)] at hlist
      obtain ⟨bytes, hrun, hbytes⟩ := (h.touches _ hlist).read
      rw [hread] at hrun
      cases hrun
      have := congrArg List.length hbytes
      rw [List.length_map, List.length_map, hlen] at this
      cases this
    · rw [if_neg h0] at hlist
      obtain ⟨bytes, hrun, -⟩ := (h.touches _ hlist).read
      rw [getItem, resolveSliceIndices_overflow (length_word v) h0 hover] at hrun
      cases hrun
  · intro h
    rw [not_or, not_and] at h
    constructor
    · intro ps hps
      rw [hlist] at hps
      by_cases h0 : stepOf (some st) = 0
      · rw [if_pos h0] at hps
        cases hps
      · rw [if_neg h0] at hps
        cases hps
        have hover := not_or.mp (h.2 h0)
        exact touches v h0 hover.1 hover.2 h.1 replacement
    · intro e he
      rw [hlist] at he
      by_cases h0 : stepOf (some st) = 0
      · rw [if_pos h0] at he
        cases he
        have hres := resolveSliceIndices_eq (length_word v) lo hi st
        simp only [h0, if_true] at hres
        refine ⟨?_, ?_, ?_⟩
        · rw [getItem, hres]
          rfl
        · rw [setItem, hres]
          rfl
        · rw [deleteItem, hres]
          rfl
      · rw [if_neg h0] at he
        cases he

/-- `bytearray(b"a")[True::-2]` is empty, and the list slice has the position zero. -/
theorem bytearray_slices_differ :
    getItem [97] (.bool true) .none (.int (-2)) = .ok [] ∧
    listIndices 1 (.bool true) .none (.int (-2)) = .ok [0] := by
  decide

end operations

end Pyrust.BytearraySlices
