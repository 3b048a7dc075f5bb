import Mathlib.Data.Nat.Notation
import Mathlib.Tactic.Common

/-!
# Streams of words

A code tells by the beginning of a list whether it begins with a word, and how
long that word is. What follows the word has no say in it. A list is a stream if
it is one word after another. Where a scan finds no word, the list before that
place is the longest beginning that is a stream; a lenient scan hands the next
unit to a handler there and goes on behind it.
-/

set_option autoImplicit false

namespace Pyrust.WordStream

structure WordCode (α : Type*) where
  /-- The length of the word that a list begins with. -/
  wordLength : List α → Option ℕ
  /-- The length of a unit. -/
  unit : ℕ
  unit_pos : 0 < unit
  pos : ∀ {xs n}, wordLength xs = some n → 0 < n
  le : ∀ {xs n}, wordLength xs = some n → n ≤ xs.length
  extend : ∀ {xs n} ys, wordLength xs = some n → wordLength (xs ++ ys) = some n
  restrict : ∀ {xs n}, wordLength xs = some n → wordLength (xs.take n) = some n

namespace WordCode
variable {α β : Type*} (W : WordCode α)

/-- One word after another. -/
inductive Stream : List α → Prop
  | nil : Stream []
  | word {xs : List α} {n : ℕ} : W.wordLength xs = some n → Stream (xs.drop n) → Stream xs

theorem drop_lt {xs : List α} {n : ℕ} (h : W.wordLength xs = some n) :
    (xs.drop n).length < xs.length := by
  have hpos := W.pos h
  have hle := W.le h
  rw [List.length_drop]
  omega

/-- Where no further word begins. -/
def stop (xs : List α) : ℕ :=
  match _h : W.wordLength xs with
  | some n => n + stop (xs.drop n)
  | none => 0
termination_by xs.length
decreasing_by exact W.drop_lt _h

/-- Words are emitted, units that begin no word are handled. -/
def scan (emit handler : List α → List β) (xs : List α) : List β :=
  match _h : W.wordLength xs with
  | some n => emit (xs.take n) ++ scan emit handler (xs.drop n)
  | none =>
    if _hne : xs = [] then []
    else handler (xs.take W.unit) ++ scan emit handler (xs.drop W.unit)
termination_by xs.length
decreasing_by
  · exact W.drop_lt _h
  · have hunit := W.unit_pos
    have hlen := List.length_pos_iff.mpr _hne
    rw [List.length_drop]
    omega

section laws
variable {W} {xs : List α} {n m : ℕ}

@[simp] theorem wordLength_nil : W.wordLength [] = none := by
  cases h : W.wordLength [] with
  | none => rfl
  | some n =>
    have hpos := W.pos h
    have hle := W.le h
    rw [List.length_nil] at hle
    omega

theorem wordLength_take (h : W.wordLength xs = some n) (hm : n ≤ m) :
    W.wordLength (xs.take m) = some n := by
  have hext := W.extend ((xs.take m).drop n) (W.restrict h)
  have htake : xs.take n = (xs.take m).take n := by rw [List.take_take, Nat.min_eq_left hm]
  rwa [htake, List.take_append_drop] at hext

theorem wordLength_of_take (h : W.wordLength (xs.take m) = some n) : W.wordLength xs = some n := by
  have hext := W.extend (xs.drop m) h
  rwa [List.take_append_drop] at hext

theorem stop_word (h : W.wordLength xs = some n) : W.stop xs = n + W.stop (xs.drop n) := by
  rw [stop]
  split
  · rename_i k hk
    rw [h] at hk
    cases hk
    rfl
  · rename_i hk
    rw [h] at hk
    cases hk

theorem stop_none (h : W.wordLength xs = none) : W.stop xs = 0 := by
  rw [stop]
  split
  · rename_i k hk
    rw [h] at hk
    cases hk
  · rfl

theorem scan_word {emit handler : List α → List β} (h : W.wordLength xs = some n) :
    W.scan emit handler xs = emit (xs.take n) ++ W.scan emit handler (xs.drop n) := by
  rw [scan]
  split
  · rename_i k hk
    rw [h] at hk
    cases hk
    rfl
  · rename_i hk
    rw [h] at hk
    cases hk

theorem scan_unit {emit handler : List α → List β} (h : W.wordLength xs = none) (hne : xs ≠ []) :
    W.scan emit handler xs =
      handler (xs.take W.unit) ++ W.scan emit handler (xs.drop W.unit) := by
  rw [scan]
  split
  · rename_i k hk
    rw [h] at hk
    cases hk
  · rw [dif_neg hne]

@[simp] theorem scan_nil {emit handler : List α → List β} : W.scan emit handler [] = [] := by
  rw [scan]
  split
  · rename_i k hk
    rw [wordLength_nil] at hk
    cases hk
  · rfl

/-- Induction over the words of a list, up to where there is none. -/
theorem word_induction {motive : List α → Prop}
    (hnone : ∀ xs, W.wordLength xs = none → motive xs)
    (hword : ∀ xs n, W.wordLength xs = some n → motive (xs.drop n) → motive xs)
    (xs : List α) : motive xs := by
  induction hlen : xs.length using Nat.strongRecOn generalizing xs with
  | _ len ih =>
    cases h : W.wordLength xs with
    | none => exact hnone xs h
    | some n => exact hword xs n h (ih _ (hlen ▸ W.drop_lt h) _ rfl)

theorem stop_le (xs : List α) : W.stop xs ≤ xs.length := by
  induction xs using word_induction (W := W) with
  | hnone xs h => rw [stop_none h]; exact Nat.zero_le _
  | hword xs n h ih =>
    have hle := W.le h
    rw [List.length_drop] at ih
    rw [stop_word h]
    omega

theorem stream_take_stop (xs : List α) : W.Stream (xs.take (W.stop xs)) := by
  induction xs using word_induction (W := W) with
  | hnone xs h => rw [stop_none h, List.take_zero]; exact .nil
  | hword xs n h ih =>
    rw [stop_word h]
    refine .word (wordLength_take h (Nat.le_add_right _ _)) ?_
    rwa [List.drop_take, Nat.add_sub_cancel_left]

/-- No longer beginning is a stream. -/
theorem not_stream_take (xs : List α) (hlt : W.stop xs < m) (hle : m ≤ xs.length) :
    ¬ W.Stream (xs.take m) := by
  induction xs using word_induction (W := W) generalizing m with
  | hnone xs h =>
    rw [stop_none h] at hlt
    intro hs
    generalize hys : xs.take m = ys at hs
    cases hs with
    | nil =>
      have hlen := congrArg List.length hys
      rw [List.length_take, List.length_nil] at hlen
      omega
    | word hword _ =>
      rw [← hys] at hword
      rw [wordLength_of_take hword] at h
      cases h
  | hword xs n h ih =>
    rw [stop_word h] at hlt
    intro hs
    have htake := wordLength_take h (by omega : n ≤ m)
    generalize hys : xs.take m = ys at hs htake
    cases hs with
    | nil => rw [wordLength_nil] at htake; cases htake
    | word hword hrest =>
      rw [htake] at hword
      cases hword
      rw [← hys, List.drop_take] at hrest
      have hlen := W.le h
      exact ih (by omega) (by rw [List.length_drop]; omega) hrest

theorem stream_iff_stop : W.Stream xs ↔ W.stop xs = xs.length := by
  constructor
  · intro hs
    by_contra hne
    have hlt := Nat.lt_of_le_of_ne (W.stop_le xs) hne
    refine not_stream_take xs hlt (Nat.le_refl _) ?_
    rwa [List.take_length]
  · intro h
    have := W.stream_take_stop xs
    rwa [h, List.take_length] at this

end laws

end WordCode

/-! ## The first failure -/

/-- The longest beginning with a property ends at `k`, before the end of the list. -/
structure FailsAt {α : Type*} (good : List α → Prop) (xs : List α) (k : ℕ) : Prop where
  lt : k < xs.length
  holds : good (xs.take k)
  longest : ∀ m, k < m → m ≤ xs.length → ¬ good (xs.take m)

section failures
variable {α : Type*} {W : WordCode α} {good good' : List α → Prop} {xs : List α} {k : ℕ}

theorem FailsAt.unique {j : ℕ} (h : FailsAt good xs k) (h' : FailsAt good xs j) : k = j := by
  rcases Nat.lt_trichotomy k j with hlt | heq | hgt
  · exact absurd h'.holds (h.longest j hlt (Nat.le_of_lt h'.lt))
  · exact heq
  · exact absurd h.holds (h'.longest k hgt (Nat.le_of_lt h.lt))

theorem failsAt_congr (h : ∀ m, good (xs.take m) ↔ good' (xs.take m)) :
    FailsAt good xs k ↔ FailsAt good' xs k :=
  ⟨fun hf => ⟨hf.lt, (h k).mp hf.holds, fun m hm hle => (hf.longest m hm hle) ∘ (h m).mpr⟩,
    fun hf => ⟨hf.lt, (h k).mpr hf.holds, fun m hm hle => (hf.longest m hm hle) ∘ (h m).mp⟩⟩

/-- A scan that finds no further word before the end has found the first failure. -/
theorem failsAt_stop (h : W.stop xs < xs.length) : FailsAt W.Stream xs (W.stop xs) :=
  ⟨h, W.stream_take_stop xs, fun _ hm hle => WordCode.not_stream_take xs hm hle⟩

end failures
end Pyrust.WordStream
