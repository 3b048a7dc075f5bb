import Mathlib.Data.List.Count
import Mathlib.Data.Nat.Notation
import Mathlib.Tactic.Common

/-!
# Lines of a text

The line a position is on, counted from one, and where that line begins. Both
change behind a line feed and nowhere else.
-/

set_option autoImplicit false

namespace Pyrust.TextLines

/-- Where the line of a position begins. -/
def lineStart (chars : List ℕ) : ℕ → ℕ
  | 0 => 0
  | pos+1 => if chars[pos]? = some 0x0A then pos+1 else lineStart chars pos

/-- The line of a position. -/
def lineNumber (chars : List ℕ) (pos : ℕ) : ℕ := (chars.take pos).count 0x0A+1

/-- The column of a position. -/
def column (chars : List ℕ) (pos : ℕ) : ℕ := pos-lineStart chars pos

section lines
variable {chars : List ℕ} {pos first last c : ℕ}

theorem lineStart_feed (h : chars[pos]? = some 0x0A) : lineStart chars (pos+1) = pos+1 := if_pos h

theorem lineStart_other (h : chars[pos]? ≠ some 0x0A) :
    lineStart chars (pos+1) = lineStart chars pos := if_neg h

theorem lineNumber_feed (h : chars[pos]? = some 0x0A) :
    lineNumber chars (pos+1) = lineNumber chars pos+1 := by
  rw [lineNumber, lineNumber, List.take_add_one, h, List.count_append]
  rfl

theorem lineNumber_other (h : chars[pos]? ≠ some 0x0A) :
    lineNumber chars (pos+1) = lineNumber chars pos := by
  rw [lineNumber, lineNumber, List.take_add_one, List.count_append]
  cases hc : chars[pos]? with
  | none => rfl
  | some c =>
    have hne : c ≠ 0x0A := by
      rintro rfl
      exact h hc
    simp [hne]

/-- Up to the next line feed the line stays the same. -/
theorem same_line (hle : first ≤ last) (h : ∀ i, first ≤ i → i < last → chars[i]? ≠ some 0x0A) :
    lineStart chars last = lineStart chars first ∧
      lineNumber chars last = lineNumber chars first := by
  induction hle with
  | refl => exact ⟨rfl, rfl⟩
  | @step last hle ih =>
    obtain ⟨hstart, hnumber⟩ := ih fun i hi hlt => h i hi (Nat.lt_succ_of_lt hlt)
    have hne := h last hle (Nat.lt_succ_self _)
    rw [lineStart_other hne, lineNumber_other hne]
    exact ⟨hstart, hnumber⟩

end lines

end Pyrust.TextLines
