import Mathlib.Data.List.DropRight
import Mathlib.Data.List.ReduceOption
import Mathlib.Tactic.NthRewrite

/-!
# Append-only lists with holes

A compact entry array only grows at its end and a deletion leaves a hole. The
present elements in order are `List.reduceOption`; the rank of an element is
its position among them. Punching a hole erases the element of that rank, and
trimming trailing holes changes no present element.
-/

set_option autoImplicit false

namespace Pyrust.HoleyList

universe u
variable {α : Type u}

theorem getElem?_append_some (l : List (Option α)) (key a : α) (i : ℕ)
    (h : (l++[some key])[i]? = some (some a)) :
    l[i]? = some (some a) ∨ (i = l.length ∧ a = key) := by
  rcases lt_trichotomy i l.length with hlt | rfl | hgt
  · left
    rwa [List.getElem?_append_left hlt] at h
  · right
    simpa [eq_comm] using h
  · rw [List.getElem?_eq_none (by simp; omega)] at h
    simp at h

theorem getElem?_set_none (l : List (Option α)) (i j : ℕ) (a : α)
    (h : (l.set i none)[j]? = some (some a)) : i ≠ j ∧ l[j]? = some (some a) := by
  by_cases hij : i = j
  · subst hij
    by_cases hi : i < l.length <;> simp [hi] at h
  · rw [List.getElem?_set_ne hij] at h
    exact ⟨hij, h⟩

theorem reduceOption_map_some (keys : List α) : (keys.map some).reduceOption = keys := by
  induction keys with
  | nil => rfl
  | cons key keys ih => simp [ih]

/-- The position of a live entry among the live keys. -/
def rank (l : List (Option α)) (i : ℕ) : ℕ := (l.take i).reduceOption.length

theorem split_at (l : List (Option α)) (i : ℕ) (a : α) (h : l[i]? = some (some a)) :
    l = l.take i++some a::l.drop (i+1) := by
  obtain ⟨hi, hget⟩ := List.getElem?_eq_some_iff.mp h
  rw [← hget, ← List.drop_eq_getElem_cons hi, List.take_append_drop]

theorem rank_get (l : List (Option α)) (i : ℕ) (a : α) (h : l[i]? = some (some a)) :
    l.reduceOption[rank l i]? = some a := by
  have hs := split_at l i a h
  have hr : l.reduceOption = (l.take i).reduceOption++a::(l.drop (i+1)).reduceOption := by
    nth_rewrite 1 [hs]
    simp [List.reduceOption_append]
  rw [hr, rank, List.getElem?_append_right le_rfl]
  simp

theorem rank_erase (l : List (Option α)) (i : ℕ) (a : α) (h : l[i]? = some (some a)) :
    (l.set i none).reduceOption = l.reduceOption.eraseIdx (rank l i) := by
  have hi := (List.getElem?_eq_some_iff.mp h).1
  have hs := split_at l i a h
  have hr : l.reduceOption = (l.take i).reduceOption++a::(l.drop (i+1)).reduceOption := by
    nth_rewrite 1 [hs]
    simp [List.reduceOption_append]
  rw [hr, rank, List.eraseIdx_append_of_length_le le_rfl, List.set_eq_take_append_cons_drop,
    if_pos hi]
  simp [List.reduceOption_append]

theorem rank_lt (l : List (Option α)) (i j : ℕ) (a : α) (h : l[i]? = some (some a))
    (hij : i < j) : rank l i < rank l j := by
  have hs := split_at l i a h
  have hi := (List.getElem?_eq_some_iff.mp h).1
  have ht : l.take j = l.take i++some a::(l.drop (i+1)).take (j-i-1) := by
    nth_rewrite 1 [hs]
    rw [List.take_append, List.take_take, List.length_take]
    have h1 : min j i = i := by omega
    have h2 : j-min i l.length = (j-i-1)+1 := by omega
    rw [h1, h2, List.take_succ_cons]
  rw [rank, rank, ht, List.reduceOption_append]
  simp

theorem rank_injective (l : List (Option α)) (i j : ℕ) (a b : α) (hi : l[i]? = some (some a))
    (hj : l[j]? = some (some b)) (h : rank l i = rank l j) : i = j := by
  rcases lt_trichotomy i j with hlt | he | hlt
  · have := rank_lt l i j a hi hlt
    omega
  · exact he
  · have := rank_lt l j i b hj hlt
    omega

theorem rank_surjective (l : List (Option α)) (r : ℕ) (a : α)
    (h : l.reduceOption[r]? = some a) : ∃ i, l[i]? = some (some a) ∧ rank l i = r := by
  induction l generalizing r with
  | nil => simp at h
  | cons x l ih =>
    cases x with
    | none =>
      obtain ⟨i, hi, hr⟩ := ih r (by simpa using h)
      exact ⟨i+1, by simpa using hi, by simpa [rank] using hr⟩
    | some b =>
      cases r with
      | zero => exact ⟨0, by simpa using h, rfl⟩
      | succ r =>
        obtain ⟨i, hi, hr⟩ := ih r (by simpa using h)
        exact ⟨i+1, by simpa using hi, by simpa [rank] using hr⟩

theorem reduceOption_trim (l : List (Option α)) :
    (l.rdropWhile Option.isNone).reduceOption = l.reduceOption := by
  induction l using List.reverseRecOn with
  | nil => rfl
  | append_singleton l x ih =>
    cases x with
    | none => simp [ih, List.reduceOption_append]
    | some a => simp

theorem getElem?_trim (l : List (Option α)) (i : ℕ) (a : α) :
    (l.rdropWhile Option.isNone)[i]? = some (some a) ↔ l[i]? = some (some a) := by
  induction l using List.reverseRecOn with
  | nil => rfl
  | append_singleton l x ih =>
    cases x with
    | none =>
      rw [List.rdropWhile_concat_pos _ _ _ rfl, ih]
      rcases lt_trichotomy i l.length with hlt | rfl | hgt
      · rw [List.getElem?_append_left hlt]
      · simp
      · rw [List.getElem?_eq_none (by omega), List.getElem?_eq_none (by simp; omega)]
    | some b => rw [List.rdropWhile_concat_neg _ _ _ (by simp)]

end Pyrust.HoleyList
