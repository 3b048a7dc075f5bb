import Mathlib.Algebra.Order.Ring.Int
import Mathlib.Tactic.Linarith
import Mathlib.Tactic.Ring
import Pyrust.FixedWidth

/-!
# The values of a range

The values a range yields are defined by iterating it: the cursor is yielded and
advanced while it lies before the stop. The length that the source computes in
`u64` counts them, and the arithmetic series gives their sum.
-/

set_option autoImplicit false

namespace Pyrust.RangeValues

open FixedWidth

/-- The cursor has not reached the stop. -/
def Before (stop step v : ℤ) : Prop := (0 < step ∧ v < stop) ∨ (step < 0 ∧ stop < v)

instance (stop step v : ℤ) : Decidable (Before stop step v) :=
  inferInstanceAs (Decidable (_ ∨ _))

/-- The values a range yields from a cursor on. -/
def yields (stop step v : ℤ) : List ℤ :=
  if Before stop step v then v :: yields stop step (v+step) else []
termination_by if 0 < step then (stop-v).toNat else (v-stop).toNat
decreasing_by
  rename_i h
  rw [Before] at h
  split <;> omega

/-- `range_len`. -/
def rangeLen (start stop step : ℤ) : Except Stop ℤ :=
  if step = 0 then pure 0
  else if 0 < step then
    if stop ≤ start then pure 0
    else do
      let distance ← unsigned (stop-start)
      let upTo ← unsigned (distance-1)
      unsigned (upTo/step+1)
  else if start ≤ stop then pure 0
  else do
    let distance ← unsigned (start-stop)
    let upTo ← unsigned (distance-1)
    unsigned (upTo/(-step)+1)

/-- `i64_range_native_cursor_safe`. -/
def i64RangeNativeCursorSafe (start stop step : ℤ) : Except Stop Bool := do
  let len ← rangeLen start stop step
  if len = 0 then return true
  let steps ← native 128 (len-1)
  let span ← native 128 (steps*step)
  let last ← native 128 (start+span)
  let afterLast ← native 128 (last+step)
  return len ≤ 2^63-1 ∧ -2^63 ≤ afterLast ∧ afterLast ≤ 2^63-1 ∧ step ≠ -2^63

/-! ## Counting -/

/-- The number of values of a range. -/
def count (start stop step : ℤ) : ℕ :=
  if 0 < step ∧ start < stop then ((stop-start-1)/step+1).toNat
  else if step < 0 ∧ stop < start then ((start-stop-1)/(-step)+1).toNat
  else 0

theorem before_iff (start stop step : ℤ) (k : ℕ) :
    Before stop step (start+k*step) ↔ k < count start stop step := by
  unfold Before count
  by_cases hpos : 0 < step ∧ start < stop
  · rw [if_pos hpos]
    have hq : 0 ≤ (stop-start-1)/step := Int.ediv_nonneg (by omega) (by omega)
    have hk : (k : ℤ) ≤ (stop-start-1)/step ↔ k*step ≤ stop-start-1 :=
      Int.le_ediv_iff_mul_le hpos.1
    omega
  rw [if_neg hpos]
  by_cases hneg : step < 0 ∧ stop < start
  · rw [if_pos hneg]
    have hq : 0 ≤ (start-stop-1)/(-step) := Int.ediv_nonneg (by omega) (by omega)
    have hk : (k : ℤ) ≤ (start-stop-1)/(-step) ↔ k*(-step) ≤ start-stop-1 :=
      Int.le_ediv_iff_mul_le (by omega)
    rw [mul_neg] at hk
    omega
  rw [if_neg hneg]
  constructor
  · rintro (⟨hs, hv⟩ | ⟨hs, hv⟩)
    · have : 0 ≤ k*step := mul_nonneg (by omega) hs.le
      omega
    · have : k*step ≤ 0 := mul_nonpos_of_nonneg_of_nonpos (by omega) hs.le
      omega
  · intro h
    cases h

theorem yields_of_before {stop step : ℤ} (n : ℕ) (start : ℤ)
    (h : ∀ k : ℕ, Before stop step (start+k*step) ↔ k < n) :
    yields stop step start = (List.range n).map fun k : ℕ => start+k*step := by
  induction n generalizing start with
  | zero =>
    have h0 := h 0
    simp only [Nat.cast_zero, zero_mul, add_zero, lt_self_iff_false, iff_false] at h0
    rw [yields, if_neg h0]
    rfl
  | succ n ih =>
    have h0 := h 0
    simp only [Nat.cast_zero, zero_mul, add_zero, Nat.zero_lt_succ, iff_true] at h0
    rw [yields, if_pos h0, List.range_succ_eq_map, List.map_cons, List.map_map]
    have hnext : ∀ k : ℕ, start+step+k*step = start+((k+1 : ℕ) : ℤ)*step := by
      intro k
      push_cast
      ring
    rw [ih (start+step) fun k => by rw [hnext, h]; omega]
    simp only [Nat.cast_zero, zero_mul, add_zero]
    congr 1
    apply List.map_congr_left
    intro k _
    exact hnext k

theorem yields_eq (start stop step : ℤ) :
    yields stop step start =
      (List.range (count start stop step)).map fun k : ℕ => start+k*step :=
  yields_of_before _ _ (before_iff start stop step)

theorem yields_length (start stop step : ℤ) :
    (yields stop step start).length = count start stop step := by
  simp [yields_eq]

/-- The last value is the start moved by one step less than the length. -/
theorem yields_getLast? {start stop step : ℤ} (h : count start stop step ≠ 0) :
    (yields stop step start).getLast? = some (start+(count start stop step-1)*step) := by
  obtain ⟨n, hn⟩ := Nat.exists_eq_succ_of_ne_zero h
  rw [yields_eq, hn, List.range_succ]
  simp

/-- The arithmetic series, doubled so that it needs no division. -/
theorem two_mul_sum (start step : ℤ) (n : ℕ) :
    2*((List.range n).map fun k : ℕ => start+k*step).sum = 2*(n*start)+step*(n*(n-1)) := by
  induction n with
  | zero => simp
  | succ n ih =>
    rw [List.range_succ, List.map_append, List.sum_append, mul_add, ih]
    simp only [List.map_cons, List.map_nil, List.sum_cons, List.sum_nil]
    push_cast
    ring

theorem even_pred (n : ℕ) : ∃ m : ℤ, (n : ℤ)*(n-1) = 2*m := by
  induction n with
  | zero => exact ⟨0, by simp⟩
  | succ n ih =>
    obtain ⟨m, hm⟩ := ih
    refine ⟨m+n, ?_⟩
    push_cast
    linarith

theorem sum_yields (start stop step : ℤ) :
    (yields stop step start).sum = start*count start stop step+
      step*((count start stop step*(count start stop step-1) : ℤ).tdiv 2) := by
  obtain ⟨m, hm⟩ := even_pred (count start stop step)
  have h := two_mul_sum start step (count start stop step)
  rw [← yields_eq, hm] at h
  rw [hm, Int.mul_tdiv_cancel_left m (by decide)]
  linarith

/-! ## The word-sized computations -/

section words
variable {start stop step : ℤ} (ha : Fits 64 start) (ho : Fits 64 stop) (he : Fits 64 step)
include ha ho he

/-- The length never leaves `u64`, and it counts the values. -/
theorem rangeLen_ok : rangeLen start stop step = .ok (count start stop step) := by
  rw [fits_64] at ha ho he
  unfold rangeLen count
  by_cases h0 : step = 0
  · simp [h0, pure, Except.pure]
  rw [if_neg h0]
  have hdiv : ∀ d s : ℤ, 0 < s → 1 ≤ d → d < 2^64 →
      0 ≤ (d-1)/s ∧ (d-1)/s ≤ d-1 := by
    intro d s hs hd _
    exact ⟨Int.ediv_nonneg (by omega) (by omega), Int.ediv_le_self _ (by omega)⟩
  by_cases hpos : 0 < step
  · by_cases hle : stop ≤ start
    · have : ¬(start < stop) := by omega
      have : ¬(step < 0) := by omega
      simp [*, pure, Except.pure]
    · obtain ⟨hq, hq'⟩ := hdiv (stop-start) step hpos (by omega) (by omega)
      rw [if_pos hpos, if_neg hle, unsigned_ok (by omega) (by omega)]
      rw [ok_bind, unsigned_ok (by omega) (by omega), ok_bind,
        unsigned_ok (by omega) (by omega), if_pos ⟨hpos, by omega⟩,
        Int.toNat_of_nonneg (by omega)]
  · by_cases hle : start ≤ stop
    · have : ¬(stop < start) := by omega
      simp [*, pure, Except.pure]
    · obtain ⟨hq, hq'⟩ := hdiv (start-stop) (-step) (by omega) (by omega) (by omega)
      rw [if_neg hpos, if_neg hle, unsigned_ok (by omega) (by omega)]
      have hno : ¬(0 < step ∧ start < stop) := by omega
      rw [ok_bind, unsigned_ok (by omega) (by omega), ok_bind, unsigned_ok (by omega) (by omega),
        if_neg hno, if_pos ⟨by omega, by omega⟩, Int.toNat_of_nonneg (by omega)]

/-- The last value of a range lies between its bounds. -/
theorem last_bounds (h : count start stop step ≠ 0) :
    Before stop step (start+(count start stop step-1)*step) ∧
      -2^64 < ((count start stop step : ℤ)-1)*step ∧
      ((count start stop step : ℤ)-1)*step < 2^64 ∧
      (count start stop step : ℤ) < 2^64 := by
  obtain ⟨n, hn⟩ := Nat.exists_eq_succ_of_ne_zero h
  have hb := (before_iff start stop step n).mpr (by omega)
  have hcast : (count start stop step : ℤ)-1 = n := by omega
  rw [hcast]
  refine ⟨hb, ?_⟩
  rw [fits_64] at ha ho he
  have hn0 : (0 : ℤ) ≤ n := by omega
  rw [Before] at hb
  rcases hb with ⟨hs, hv⟩ | ⟨hs, hv⟩
  · have hlow : (n : ℤ)*1 ≤ n*step := mul_le_mul_of_nonneg_left (by omega) hn0
    omega
  · have hlow : (n : ℤ)*step ≤ n*(-1) := mul_le_mul_of_nonneg_left (by omega) hn0
    omega

/-- The cursor test never leaves `i128`. -/
theorem cursorSafe_ok : ∃ b, i64RangeNativeCursorSafe start stop step = .ok b ∧
    (b = true → count start stop step = 0 ∨
      (count start stop step : ℤ) ≤ 2^63-1) := by
  rw [i64RangeNativeCursorSafe, rangeLen_ok ha ho he, ok_bind]
  by_cases h0 : count start stop step = 0
  · simp [h0, pure, Except.pure]
  obtain ⟨hb, hlow, hhigh, hn⟩ := last_bounds ha ho he h0
  rw [fits_64] at ha ho he
  have hfits : ∀ v : ℤ, -2^66 ≤ v → v < 2^66 → native 128 v = .ok v := by
    intro v h h'
    exact native_ok (fits_128.mpr (by omega))
  rw [if_neg (by omega), hfits _ (by omega) (by omega), ok_bind, hfits _ (by omega) (by omega),
    ok_bind, hfits _ (by omega) (by omega), ok_bind, hfits _ (by omega) (by omega), ok_bind]
  refine ⟨_, rfl, ?_⟩
  intro h
  right
  simpa using (of_decide_eq_true h).1

end words

end Pyrust.RangeValues
