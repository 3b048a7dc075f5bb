import Pyrust.RangeValues

/-!
# The positions that a slice selects

A slice of a sequence has a lower and an upper limit by the sign of its step.
Given bounds are counted from the end when they are negative and then held
between the limits, and a bound that is left out is the limit at its side. The
selected positions are the values of the range from the one to the other.
-/

set_option autoImplicit false

namespace Pyrust.SliceSelection

open RangeValues

def lower (step : ℤ) : ℤ := if 0 < step then 0 else -1

def upper (len step : ℤ) : ℤ := if 0 < step then len else len-1

/-- A given bound, between the limits. -/
def clamped (len step v : ℤ) : ℤ :=
  max (lower step) (min (upper len step) (if v < 0 then v+len else v))

def startOf (len step : ℤ) : Option ℤ → ℤ
  | none => if 0 < step then lower step else upper len step
  | some v => clamped len step v

def stopOf (len step : ℤ) : Option ℤ → ℤ
  | none => if 0 < step then upper len step else lower step
  | some v => clamped len step v

/-- The selected positions, in the order of the slice. -/
def selected (len step : ℤ) (lo hi : Option ℤ) : List ℤ :=
  yields (stopOf len step hi) step (startOf len step lo)

section bounds
variable {len step : ℤ}

theorem clamped_bounds (h : 0 ≤ len) (v : ℤ) :
    lower step ≤ clamped len step v ∧ clamped len step v ≤ upper len step := by
  unfold clamped lower upper
  split <;> omega

theorem startOf_bounds (h : 0 ≤ len) (lo : Option ℤ) :
    lower step ≤ startOf len step lo ∧ startOf len step lo ≤ upper len step := by
  cases lo with
  | some v => exact clamped_bounds h v
  | none =>
    simp only [startOf, lower, upper]
    split <;> omega

theorem stopOf_bounds (h : 0 ≤ len) (hi : Option ℤ) :
    lower step ≤ stopOf len step hi ∧ stopOf len step hi ≤ upper len step := by
  cases hi with
  | some v => exact clamped_bounds h v
  | none =>
    simp only [stopOf, lower, upper]
    split <;> omega

/-- Bounds see of a step only its sign. -/
theorem startOf_congr {step' : ℤ} (h : 0 < step ↔ 0 < step') (lo : Option ℤ) :
    startOf len step lo = startOf len step' lo := by
  cases lo <;> simp only [startOf, clamped, lower, upper, h]

theorem stopOf_congr {step' : ℤ} (h : 0 < step ↔ 0 < step') (hi : Option ℤ) :
    stopOf len step hi = stopOf len step' hi := by
  cases hi <;> simp only [stopOf, clamped, lower, upper, h]

end bounds

/-! ## Ranges as lists of positions -/

/-- A value that a range yields has not reached the stop and has been reached from the start. -/
theorem mem_yields {start stop step v : ℤ} (h : v ∈ yields stop step start) :
    Before stop step v ∧ (0 < step → start ≤ v) ∧ (step < 0 → v ≤ start) := by
  rw [yields_eq, List.mem_map] at h
  obtain ⟨k, hk, rfl⟩ := h
  rw [List.mem_range, ← before_iff] at hk
  refine ⟨hk, ?_, ?_⟩
  · intro hs
    have : 0 ≤ (k : ℤ)*step := mul_nonneg (by omega) hs.le
    omega
  · intro hs
    have : (k : ℤ)*step ≤ 0 := mul_nonpos_of_nonneg_of_nonpos (by omega) hs.le
    omega

theorem yields_pairwise_lt {start stop step : ℤ} (h : 0 < step) :
    (yields stop step start).Pairwise (· < ·) := by
  rw [yields_eq, List.pairwise_map]
  refine List.pairwise_lt_range.imp fun {i j} hij => ?_
  have : (i : ℤ)*step < j*step := mul_lt_mul_of_pos_right (by omega) h
  omega

theorem yields_pairwise_gt {start stop step : ℤ} (h : step < 0) :
    (yields stop step start).Pairwise (· > ·) := by
  rw [yields_eq, List.pairwise_map]
  refine List.pairwise_lt_range.imp fun {i j} hij => ?_
  have : (j : ℤ)*step < i*step := mul_lt_mul_of_neg_right (by omega) h
  omega

theorem yields_nodup {start stop step : ℤ} (h : step ≠ 0) : (yields stop step start).Nodup := by
  rcases lt_or_gt_of_ne h with hs | hs
  · exact (yields_pairwise_gt hs).imp fun h => ne_of_gt h
  · exact (yields_pairwise_lt hs).imp fun h => ne_of_lt h

/-- A step that is at least as long as the way yields the start alone, if anything. -/
theorem yields_long {start stop step : ℤ}
    (h : 0 < step ∧ stop ≤ start+step ∨ step < 0 ∧ start+step ≤ stop) :
    yields stop step start = if Before stop step start then [start] else [] := by
  rw [yields]
  by_cases hb : Before stop step start
  · have hnext : ¬Before stop step (start+step) := by
      rw [Before]
      omega
    rw [if_pos hb, if_pos hb, yields, if_neg hnext]
  · rw [if_neg hb, if_neg hb]

/-- Steps of one sign that both are at least as long as the way yield the same. -/
theorem yields_congr_long {start stop step step' : ℤ} (hsign : 0 < step ↔ 0 < step')
    (h : 0 < step ∧ stop ≤ start+step ∨ step < 0 ∧ start+step ≤ stop)
    (h' : 0 < step' ∧ stop ≤ start+step' ∨ step' < 0 ∧ start+step' ≤ stop) :
    yields stop step start = yields stop step' start := by
  have hb : Before stop step start ↔ Before stop step' start := by
    rw [Before, Before]
    omega
  rw [yields_long h, yields_long h']
  simp only [hb]

section selection
variable {len step : ℤ} {lo hi : Option ℤ}

theorem mem_selected (h : 0 ≤ len) {i : ℤ} (hi' : i ∈ selected len step lo hi) :
    0 ≤ i ∧ i < len := by
  obtain ⟨hb, hup, hdown⟩ := mem_yields hi'
  obtain ⟨hs, hs'⟩ := @startOf_bounds len step h lo
  obtain ⟨ht, ht'⟩ := @stopOf_bounds len step h hi
  rw [lower] at hs ht
  rw [upper] at hs' ht'
  rcases hb with ⟨hpos, hlt⟩ | ⟨hneg, hlt⟩
  · rw [if_pos hpos] at hs ht'
    have := hup hpos
    omega
  · have hno : ¬0 < step := by omega
    rw [if_neg hno] at ht hs'
    have := hdown hneg
    omega

theorem selected_nodup (h : step ≠ 0) : (selected len step lo hi).Nodup := yields_nodup h

/-- A step beyond the length may be replaced by any other of its sign. -/
theorem selected_congr_long {step' : ℤ} (hlen : 0 ≤ len) (hsign : 0 < step ↔ 0 < step')
    (h : len ≤ step ∨ step < 0 ∧ step ≤ -len) (h' : len ≤ step' ∨ step' < 0 ∧ step' ≤ -len)
    (h0 : step ≠ 0) (h0' : step' ≠ 0) : selected len step lo hi = selected len step' lo hi := by
  obtain ⟨hs, hs'⟩ := @startOf_bounds len step hlen lo
  obtain ⟨ht, ht'⟩ := @stopOf_bounds len step hlen hi
  rw [lower] at hs ht
  rw [upper] at hs' ht'
  rw [selected, selected, ← startOf_congr hsign, ← stopOf_congr hsign]
  apply yields_congr_long hsign
  · split at hs <;> simp_all <;> omega
  · split at hs <;> simp_all <;> omega

end selection

end Pyrust.SliceSelection
