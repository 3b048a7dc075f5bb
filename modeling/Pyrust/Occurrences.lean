import Mathlib.Data.List.Infix
import Mathlib.Data.Nat.Notation

/-!
# Occurrences of a list in a list

The first place at which a list occurs in another, and the pieces between the
occurrences that a scan from the left finds without overlap. Put together again
with the list between them, the pieces are the whole.
-/

set_option autoImplicit false

namespace Pyrust.Occurrences
variable {α : Type*} [DecidableEq α]

/-- The least place at which `sub` occurs. -/
def first (sub : List α) : List α → Option ℕ
  | [] => if sub = [] then some 0 else none
  | x::xs => if sub.isPrefixOf (x::xs) then some 0 else (first sub xs).map (·+1)

/-- `r` is the least place at which `sub` occurs, if it does. -/
def FirstOccurrence (sub xs : List α) : Option ℕ → Prop
  | some i => i + sub.length ≤ xs.length ∧ sub <+: xs.drop i ∧ ∀ j < i, ¬ sub <+: xs.drop j
  | none => ¬ sub <:+: xs

/-- The pieces around the first `n` occurrences. -/
def pieces (sub : List α) : ℕ → List α → List (List α)
  | 0, xs => [xs]
  | n+1, xs =>
    match first sub xs with
    | none => [xs]
    | some i => xs.take i::pieces sub n (xs.drop (i+sub.length))

section first
variable {sub xs rest : List α} {x : α} {i n : ℕ}

attribute [local simp] first in
theorem first_append : first sub (sub ++ rest) = some 0 := by
  cases h : sub ++ rest with
  | nil => simp [first, (List.append_eq_nil_iff.mp h).1]
  | cons x xs =>
    rw [first, if_pos (List.isPrefixOf_iff_prefix.mpr ⟨rest, h⟩)]

theorem first_cons (h : ¬ sub <+: x::xs) : first sub (x::xs) = (first sub xs).map (·+1) := by
  rw [first, if_neg (mt List.isPrefixOf_iff_prefix.mp h)]

theorem firstOccurrence_first (sub xs : List α) : FirstOccurrence sub xs (first sub xs) := by
  induction xs with
  | nil =>
    by_cases h : sub = []
    · subst h
      exact ⟨Nat.le_refl _, List.prefix_refl _, fun j hj => absurd hj (Nat.not_lt_zero j)⟩
    · rw [first, if_neg h]
      exact fun hin => h (List.infix_nil.mp hin)
  | cons x xs ih =>
    by_cases h : sub <+: x::xs
    · obtain ⟨rest, hrest⟩ := h
      rw [← hrest, first_append]
      refine ⟨?_, List.prefix_append _ _, fun j hj => absurd hj (Nat.not_lt_zero j)⟩
      rw [Nat.zero_add, List.length_append]
      exact Nat.le_add_right _ _
    · rw [first_cons h]
      cases hfirst : first sub xs with
      | none =>
        rw [hfirst] at ih
        intro hin
        rcases List.infix_cons_iff.mp hin with hpre | hin
        · exact h hpre
        · exact ih hin
      | some i =>
        rw [hfirst] at ih
        obtain ⟨hle, hpre, hleast⟩ := ih
        show i+1+sub.length ≤ xs.length+1 ∧ sub <+: xs.drop i ∧
          ∀ j < i+1, ¬ sub <+: (x::xs).drop j
        refine ⟨by omega, hpre, fun j hj => ?_⟩
        rcases j with _ | j
        · exact h
        · exact hleast j (by omega)

omit [DecidableEq α] in
theorem infix_of_prefix_drop (h : sub <+: xs.drop i) : sub <:+: xs :=
  h.isInfix.trans (List.drop_suffix i xs).isInfix

/-- There is one least place only. -/
theorem FirstOccurrence.eq_first {r : Option ℕ} (h : FirstOccurrence sub xs r) :
    r = first sub xs := by
  have hfirst := firstOccurrence_first sub xs
  cases r with
  | none =>
    cases hf : first sub xs with
    | none => rfl
    | some j =>
      rw [hf] at hfirst
      exact absurd (infix_of_prefix_drop hfirst.2.1) h
  | some i =>
    cases hf : first sub xs with
    | none =>
      rw [hf] at hfirst
      exact absurd (infix_of_prefix_drop h.2.1) hfirst
    | some j =>
      rw [hf] at hfirst
      rcases Nat.lt_trichotomy i j with hlt | rfl | hgt
      · exact absurd h.2.1 (hfirst.2.2 i hlt)
      · rfl
      · exact absurd hfirst.2.1 (h.2.2 j hgt)

theorem isSome_first : (first sub xs).isSome = decide (sub <:+: xs) := by
  have hfirst := firstOccurrence_first sub xs
  cases hf : first sub xs with
  | none =>
    rw [hf] at hfirst
    exact (decide_eq_false hfirst).symm
  | some i =>
    rw [hf] at hfirst
    exact (decide_eq_true (infix_of_prefix_drop hfirst.2.1)).symm

theorem first_some (h : first sub xs = some i) : ∃ rest, xs = xs.take i ++ sub ++ rest ∧
    i + sub.length ≤ xs.length ∧ xs.drop (i+sub.length) = rest := by
  have hfirst := firstOccurrence_first sub xs
  rw [h] at hfirst
  obtain ⟨hle, ⟨rest, hrest⟩, -⟩ := hfirst
  refine ⟨rest, ?_, hle, ?_⟩
  · rw [List.append_assoc, hrest, List.take_append_drop]
  · rw [← List.drop_drop, ← hrest, List.drop_left]

/-- A non-empty list occurs nowhere in a shorter one. -/
theorem first_short (h : xs.length < sub.length) : first sub xs = none := by
  cases hfirst : first sub xs with
  | none => rfl
  | some i =>
    obtain ⟨rest, -, hle, -⟩ := first_some hfirst
    omega

end first

section pieces
variable {sub new xs rest a b : List α} {x : α} {l : List (List α)} {n m : ℕ}

omit [DecidableEq α] in
theorem intercalate_cons_ne (h : l ≠ []) :
    List.intercalate sub (a::l) = a ++ sub ++ List.intercalate sub l := by
  rcases l with _ | ⟨b, l⟩
  · exact absurd rfl h
  · rw [List.intercalate_cons_cons]

omit [DecidableEq α] in
theorem intercalate_append_head :
    List.intercalate sub ((a ++ b)::l) = a ++ List.intercalate sub (b::l) := by
  rcases l with _ | ⟨c, l⟩
  · simp
  · simp

attribute [local simp] pieces in
theorem pieces_ne_nil : pieces sub n xs ≠ [] := by
  rcases n with _ | n
  · exact List.cons_ne_nil _ _
  · rw [pieces]
    split <;> exact List.cons_ne_nil _ _

theorem length_pieces_le : (pieces sub n xs).length ≤ n+1 := by
  induction n generalizing xs with
  | zero => exact Nat.le_refl _
  | succ n ih =>
    rw [pieces]
    split
    · rw [List.length_singleton]
      omega
    · rw [List.length_cons]
      exact Nat.succ_le_succ ih

/-- The pieces, joined. -/
theorem intercalate_pieces : List.intercalate sub (pieces sub n xs) = xs := by
  induction n generalizing xs with
  | zero => simp [pieces]
  | succ n ih =>
    rw [pieces]
    split
    · simp
    · rename_i i hfirst
      obtain ⟨rest, hxs, -, hrest⟩ := first_some hfirst
      rw [intercalate_cons_ne pieces_ne_nil, ih, hrest, ← hxs]

theorem pieces_none (h : first sub xs = none) : pieces sub n xs = [xs] := by
  rcases n with _ | n
  · rfl
  · rw [pieces, h]

/-- An occurrence at the beginning ends an empty piece. -/
theorem pieces_append : pieces sub (n+1) (sub ++ rest) = []::pieces sub n rest := by
  rw [pieces, first_append]
  dsimp only
  rw [List.take_zero, Nat.zero_add, List.drop_left]

/-- An element at which no occurrence begins belongs to the first piece. -/
theorem pieces_cons (h : ¬ sub <+: x::xs) :
    pieces sub n (x::xs) = (pieces sub n xs).modifyHead (x::·) := by
  rcases n with _ | n
  · rfl
  · rw [pieces, pieces, first_cons h]
    cases hfirst : first sub xs with
    | none => rfl
    | some i =>
      simp only [Option.map_some, List.take_succ_cons, List.modifyHead_cons, List.cons.injEq,
        true_and]
      rw [Nat.add_right_comm, List.drop_succ_cons]

theorem intercalate_pieces_cons (h : ¬ sub <+: x::xs) :
    List.intercalate new (pieces sub n (x::xs)) = x::List.intercalate new (pieces sub n xs) := by
  rw [pieces_cons h]
  cases hp : pieces sub n xs with
  | nil => exact absurd hp pieces_ne_nil
  | cons p ps => exact @intercalate_append_head _ new [x] p ps

theorem length_pieces_cons (h : ¬ sub <+: x::xs) :
    (pieces sub n (x::xs)).length = (pieces sub n xs).length := by
  rw [pieces_cons h, List.length_modifyHead]

end pieces
end Pyrust.Occurrences
