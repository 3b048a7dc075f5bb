import Pyrust.RangeValues

/-!
# Equality of ranges and the reach of a cursor

A range of any size is counted with truncating division, and two ranges are
compared by length, first value and step. Both agree with the values that the
ranges yield. A cursor that passes its test stays a machine word at every
position of the range, the one behind its last value included.
-/

set_option autoImplicit false

namespace Pyrust.RangeEquality

open FixedWidth RangeValues

/-- `bigrange_len`. -/
def bigrangeLen (start stop step : ℤ) : ℤ :=
  if 0 < step then
    if start < stop then (stop-start-1).tdiv step+1 else 0
  else if step < 0 then
    if stop < start then (start-stop-1).tdiv (-step)+1 else 0
  else 0

/-- `bigrange_eq`. -/
def bigrangeEq (startA stopA stepA startB stopB stepB : ℤ) : Bool :=
  let lenA := bigrangeLen startA stopA stepA
  let lenB := bigrangeLen startB stopB stepB
  lenA = lenB ∧ (lenA < 1 ∨ startA = startB) ∧ (lenA < 2 ∨ stepA = stepB)

/-- The arm of `PartialEq` for two ranges of machine words. -/
def rangeEq (startA stopA stepA startB stopB stepB : ℤ) : Except Stop Bool := do
  let lenA ← rangeLen startA stopA stepA
  let lenB ← rangeLen startB stopB stepB
  return lenA = lenB ∧ (lenA < 1 ∨ startA = startB) ∧ (lenA < 2 ∨ stepA = stepB)

theorem bigrangeLen_eq (start stop step : ℤ) :
    bigrangeLen start stop step = count start stop step := by
  unfold bigrangeLen count
  by_cases hpos : 0 < step
  · rw [if_pos hpos]
    by_cases hlt : start < stop
    · have hdiv : 0 ≤ (stop-start-1)/step := Int.ediv_nonneg (by omega) hpos.le
      rw [if_pos hlt, if_pos ⟨hpos, hlt⟩, Int.tdiv_eq_ediv_of_nonneg (by omega)]
      omega
    · have hneg : ¬(step < 0 ∧ stop < start) := by omega
      simp [hlt, hneg]
  by_cases hneg : step < 0
  · have hno : ¬(0 < step ∧ start < stop) := fun h => hpos h.1
    rw [if_neg hpos, if_pos hneg, if_neg hno]
    by_cases hlt : stop < start
    · have hdiv : 0 ≤ (start-stop-1)/(-step) := Int.ediv_nonneg (by omega) (by omega)
      rw [if_pos hlt, if_pos ⟨hneg, hlt⟩, Int.tdiv_eq_ediv_of_nonneg (by omega)]
      omega
    · simp [hlt]
  · simp [hpos, hneg]

/-- The `k`-th value of a range. -/
theorem yields_getElem? (start stop step : ℤ) (k : ℕ) :
    (yields stop step start)[k]? =
      if k < count start stop step then some (start+k*step) else none := by
  rw [yields_eq, List.getElem?_map]
  by_cases hk : k < count start stop step <;> simp [hk]

/-- Ranges with the same values have the same length, first value and, from two values on, the
same step, and these are enough. -/
theorem yields_eq_iff (startA stopA stepA startB stopB stepB : ℤ) :
    yields stopA stepA startA = yields stopB stepB startB ↔
      count startA stopA stepA = count startB stopB stepB ∧
        (count startA stopA stepA < 1 ∨ startA = startB) ∧
        (count startA stopA stepA < 2 ∨ stepA = stepB) := by
  constructor
  · intro h
    have hlen : count startA stopA stepA = count startB stopB stepB := by
      rw [← yields_length, h, yields_length]
    have hat : ∀ k, k < count startA stopA stepA → startA+k*stepA = startB+k*stepB := by
      intro k hk
      have hk' : k < count startB stopB stepB := hlen ▸ hk
      have := congrArg (fun l => l[k]?) h
      simpa [yields_getElem?, hk, hk'] using this
    refine ⟨hlen, ?_, ?_⟩
    · by_cases h1 : count startA stopA stepA < 1
      · exact .inl h1
      · exact .inr (by simpa using hat 0 (by omega))
    · by_cases h2 : count startA stopA stepA < 2
      · exact .inl h2
      · have h0 := hat 0 (by omega)
        have h1 := hat 1 (by omega)
        right
        push_cast at h0 h1
        omega
  · rintro ⟨hlen, hfirst, hstep⟩
    ext k v
    rw [yields_getElem?, yields_getElem?, ← hlen]
    by_cases hk : k < count startA stopA stepA
    · obtain rfl : startA = startB := hfirst.resolve_left (by omega)
      rcases hstep with hlt | rfl
      · obtain rfl : k = 0 := by omega
        simp
      · rfl
    · simp [hk]

theorem bigrangeEq_iff (startA stopA stepA startB stopB stepB : ℤ) :
    bigrangeEq startA stopA stepA startB stopB stepB = true ↔
      yields stopA stepA startA = yields stopB stepB startB := by
  rw [yields_eq_iff]
  simp only [bigrangeEq, bigrangeLen_eq, decide_eq_true_eq]
  omega

section words
variable {start stop step : ℤ} (ha : Fits 64 start) (ho : Fits 64 stop) (he : Fits 64 step)
include ha ho he

/-- What the cursor test decides. -/
theorem cursorSafe_eq : i64RangeNativeCursorSafe start stop step =
    .ok (count start stop step = 0 ∨ ((count start stop step : ℤ) ≤ 2^63-1 ∧
      Fits 64 (start+count start stop step*step) ∧ step ≠ -2^63)) := by
  rw [i64RangeNativeCursorSafe, rangeLen_ok ha ho he, ok_bind]
  by_cases h0 : count start stop step = 0
  · simp [h0, pure, Except.pure]
  obtain ⟨hb, hlow, hhigh, hn⟩ := last_bounds ha ho he h0
  have hafter : start+((count start stop step : ℤ)-1)*step+step =
      start+count start stop step*step := by ring
  rw [fits_64] at ha ho he
  have hfits : ∀ v : ℤ, -2^66 ≤ v → v < 2^66 → native 128 v = .ok v := by
    intro v h h'
    exact native_ok (fits_128.mpr (by omega))
  rw [if_neg (by omega), hfits _ (by omega) (by omega), ok_bind, hfits _ (by omega) (by omega),
    ok_bind, hfits _ (by omega) (by omega), ok_bind, hfits _ (by omega) (by omega), ok_bind, hafter]
  simp only [pure, Except.pure, Except.ok.injEq, fits_64, decide_eq_decide]
  omega

end words

/-- The positions of a range up to the one behind it lie between its first and its last. -/
theorem fits_between {start step : ℤ} {n k : ℕ} (h0 : Fits 64 start)
    (hn : Fits 64 (start+n*step)) (hk : k ≤ n) : Fits 64 (start+k*step) := by
  rw [fits_64] at h0 hn ⊢
  have hk' : (k : ℤ) ≤ n := by omega
  rcases le_total 0 step with hs | hs
  · have hlow : 0 ≤ (k : ℤ)*step := mul_nonneg (by omega) hs
    have hhigh : (k : ℤ)*step ≤ n*step := mul_le_mul_of_nonneg_right hk' hs
    omega
  · have hhigh : (k : ℤ)*step ≤ 0 := mul_nonpos_of_nonneg_of_nonpos (by omega) hs
    have hlow : (n : ℤ)*step ≤ k*step := mul_le_mul_of_nonpos_right hk' hs
    omega

/-- Lengths, cursors and equality of ranges are those of their values: on machine words without an
overflow, and on integers of any size. -/
theorem range_exact :
    (∀ start stop step, Fits 64 start → Fits 64 stop → Fits 64 step → step ≠ 0 →
      rangeLen start stop step = .ok ((yields stop step start).length : ℤ) ∧
      ∃ safe, i64RangeNativeCursorSafe start stop step = .ok safe ∧
        (safe = true → ∀ k ≤ (yields stop step start).length, Fits 64 (start+k*step)) ∧
        (safe = false → (∃ k ≤ (yields stop step start).length, ¬Fits 64 (start+k*step)) ∨
          ¬Fits 64 (yields stop step start).length ∨ step = -2^63)) ∧
    (∀ start stop step, bigrangeLen start stop step = ((yields stop step start).length : ℤ)) ∧
    (∀ startA stopA stepA startB stopB stepB,
      bigrangeEq startA stopA stepA startB stopB stepB = true ↔
        yields stopA stepA startA = yields stopB stepB startB) ∧
    (∀ start stop step, Fits 64 start → Fits 64 stop → Fits 64 step →
      rangeLen start stop step = .ok (bigrangeLen start stop step)) ∧
    ∀ startA stopA stepA startB stopB stepB, Fits 64 startA → Fits 64 stopA → Fits 64 stepA →
      Fits 64 startB → Fits 64 stopB → Fits 64 stepB →
      rangeEq startA stopA stepA startB stopB stepB =
        .ok (bigrangeEq startA stopA stepA startB stopB stepB) := by
  refine ⟨?_, ?_, bigrangeEq_iff, ?_, ?_⟩
  · intro start stop step ha ho he _
    rw [yields_length]
    refine ⟨rangeLen_ok ha ho he, _, cursorSafe_eq ha ho he, ?_, ?_⟩
    · intro hsafe k hk
      rcases of_decide_eq_true hsafe with h0 | ⟨_, hafter, _⟩
      · obtain rfl : k = 0 := by omega
        simpa using ha
      · exact fits_between ha hafter hk
    · intro hsafe
      have hnot := of_decide_eq_false hsafe
      by_cases hlen : Fits 64 (count start stop step)
      · by_cases hafter : Fits 64 (start+count start stop step*step)
        · right
          right
          rw [fits_64] at hlen
          by_contra hmin
          exact hnot (.inr ⟨by omega, hafter, hmin⟩)
        · exact .inl ⟨_, le_rfl, hafter⟩
      · exact .inr (.inl hlen)
  · intro start stop step
    rw [bigrangeLen_eq, yields_length]
  · intro start stop step ha ho he
    rw [bigrangeLen_eq, rangeLen_ok ha ho he]
  · intro startA stopA stepA startB stopB stepB ha ho he ha' ho' he'
    rw [rangeEq, rangeLen_ok ha ho he, rangeLen_ok ha' ho' he']
    simp only [ok_bind, bigrangeEq, bigrangeLen_eq]
    rfl

theorem range_exact_last_word :
    Fits 64 (2^63-4) ∧ Fits 64 (2^63-1) ∧ Fits 64 3 ∧
      rangeLen (2^63-4) (2^63-1) 3 = .ok 1 ∧
      (yields (2^63-1) 3 (2^63-4)).length = 1 ∧
      rangeEq (2^63-4) (2^63-1) 3 (2^63-4) (2^63-3) 1 = .ok true := by
  have ha : Fits 64 (2^63-4) := by decide
  have ho : Fits 64 (2^63-1) := by decide
  have he : Fits 64 3 := by decide
  obtain ⟨hword, -, -, -, heq⟩ := range_exact
  have hlen := (hword _ _ _ ha ho he (by decide)).1
  have hone : rangeLen (2^63-4) (2^63-1) 3 = .ok 1 := by decide
  refine ⟨ha, ho, he, hone, ?_, ?_⟩
  · rw [hone, Except.ok.injEq] at hlen
    omega
  · rw [heq _ _ _ _ _ _ ha ho he ha (by decide) (by decide)]
    decide

/-- The widest range has more values than a machine word counts. -/
example : rangeLen (-2^63) (2^63-1) 1 = .ok (2^64-1) ∧
    i64RangeNativeCursorSafe (-2^63) (2^63-1) 1 = .ok false := by
  decide

end Pyrust.RangeEquality
