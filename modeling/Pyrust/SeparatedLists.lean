import Mathlib.Data.List.Basic
import Mathlib.Tactic.Ring

/-!
# Lists with separators

The items of a list are written in groups of a fixed size, counted from the right, with
a separator between two groups. The length of such a text, the places of its separators
and the items that it holds determine it.
-/

set_option autoImplicit false

namespace Pyrust.SeparatedLists

section separate
variable {α : Type} (k : ℕ) (sep : α)

/-- The items from the one of number `i` on, with a separator behind every `k` items. -/
def separate : ℕ → List α → List α
  | _, [] => []
  | i, x::xs =>
    if 0 < i ∧ i % k = 0 then sep :: x :: separate (i+1) xs else x :: separate (i+1) xs

/-- The length of `n` items with their separators. -/
def separatedLen (n : ℕ) : ℕ := if n = 0 then 0 else n + (n-1)/k

/-- The items with separators counted from the right. -/
def grouped (xs : List α) : List α := (separate k sep 0 xs.reverse).reverse

end separate

section lemmas
variable {α : Type} {k : ℕ} {sep : α}

theorem separatedLen_succ (i : ℕ) :
    separatedLen k (i+1) = separatedLen k i + (if 0 < i ∧ i % k = 0 then 2 else 1) := by
  cases i with
  | zero => simp [separatedLen]
  | succ i =>
    have hdiv : (i+1)/k = i/k + if k ∣ i+1 then 1 else 0 := Nat.succ_div
    simp only [separatedLen, Nat.add_one_ne_zero, if_false, Nat.add_sub_cancel, hdiv,
      Nat.succ_pos, true_and, Nat.dvd_iff_mod_eq_zero]
    split <;> omega

theorem le_separatedLen (n : ℕ) : n ≤ separatedLen k n := by
  rw [separatedLen]
  split
  · omega
  · exact Nat.le_add_right _ _

/-- Whole groups end right before the place of a separator, and nothing else does. -/
theorem separatedLen_mod (hk : 0 < k) (i : ℕ) :
    separatedLen k i % (k+1) = k ↔ 0 < i ∧ i % k = 0 := by
  cases i with
  | zero =>
    simp only [separatedLen, if_true, Nat.zero_mod]
    omega
  | succ i =>
    -- the length is counted in whole groups and what is behind them
    obtain ⟨q, r, hr, hi⟩ : ∃ q r, r < k ∧ i = k*q + r :=
      ⟨i/k, i%k, Nat.mod_lt i hk, (Nat.div_add_mod i k).symm⟩
    have hdiv : i/k = q := by
      rw [hi, Nat.mul_add_div hk, Nat.div_eq_of_lt hr, Nat.add_zero]
    have hlen : separatedLen k (i+1) = (k+1)*q + (r+1) := by
      rw [separatedLen, if_neg (Nat.succ_ne_zero i), Nat.add_sub_cancel, hdiv, hi]
      ring
    have hmod : (i+1) % k = (r+1) % k := by rw [hi, Nat.add_assoc, Nat.mul_add_mod]
    rw [hlen, Nat.mul_add_mod, Nat.mod_eq_of_lt (by omega), hmod]
    rcases Nat.lt_or_ge (r+1) k with hlt | hge
    · rw [Nat.mod_eq_of_lt hlt]
      omega
    · obtain rfl : r+1 = k := by omega
      simp

theorem separate_append (i : ℕ) (xs ys : List α) :
    separate k sep i (xs ++ ys) = separate k sep i xs ++ separate k sep (i + xs.length) ys := by
  induction xs generalizing i with
  | nil => rfl
  | cons x xs ih =>
    have hlen : i + (x::xs).length = i + 1 + xs.length := by rw [List.length_cons]; omega
    rw [List.cons_append, separate, separate, ih, hlen]
    split <;> rfl

theorem length_separate (i : ℕ) (xs : List α) :
    separatedLen k i + (separate k sep i xs).length = separatedLen k (i + xs.length) := by
  induction xs generalizing i with
  | nil => rfl
  | cons x xs ih =>
    have hlen : i + (x::xs).length = i + 1 + xs.length := by rw [List.length_cons]; omega
    rw [hlen, ← ih, separatedLen_succ (k := k), separate]
    split <;> simp only [List.length_cons] <;> omega

theorem length_grouped (xs : List α) :
    (grouped k sep xs).length = separatedLen k xs.length := by
  have h := @length_separate _ k sep 0 xs.reverse
  rw [List.length_reverse, Nat.zero_add, separatedLen, if_pos rfl, Nat.zero_add] at h
  rw [grouped, List.length_reverse, h]

/-- What stands at a place is a separator when the place ends a group, and else an item. -/
theorem separate_place (hk : 0 < k) (i : ℕ) (xs : List α) (j : ℕ) (x : α)
    (h : (separate k sep i xs)[j]? = some x) :
    ((separatedLen k i + j) % (k+1) = k → x = sep) ∧
      ((separatedLen k i + j) % (k+1) ≠ k → x ∈ xs) := by
  induction xs generalizing i j with
  | nil => cases h
  | cons y xs ih =>
    have hstep := separatedLen_succ (k := k) i
    have hmod := separatedLen_mod hk i
    rw [separate] at h
    split at h
    · rename_i hgroup
      rw [if_pos hgroup] at hstep
      have hend := hmod.mpr hgroup
      match j, h with
      | 0, h =>
        obtain rfl := Option.some.inj h
        exact ⟨fun _ => rfl, fun hne => absurd hend hne⟩
      | 1, h =>
        obtain rfl := Option.some.inj h
        refine ⟨fun heq => ?_, fun _ => List.mem_cons_self⟩
        rw [Nat.add_mod, hend] at heq
        rcases Nat.lt_or_ge 1 k with hlt | hge
        · rw [Nat.mod_eq_of_lt (by omega : 1 < k+1), Nat.mod_self] at heq
          omega
        · obtain rfl : k = 1 := by omega
          simp at heq
      | j+2, h =>
        have hrest := ih (i+1) j h
        rw [hstep, Nat.add_assoc, Nat.add_comm 2 j] at hrest
        exact ⟨hrest.1, fun hne => List.mem_cons_of_mem _ (hrest.2 hne)⟩
    · rename_i hgroup
      rw [if_neg hgroup] at hstep
      have hend := fun heq => hgroup (hmod.mp heq)
      match j, h with
      | 0, h =>
        obtain rfl := Option.some.inj h
        exact ⟨fun heq => absurd heq hend, fun _ => List.mem_cons_self⟩
      | j+1, h =>
        have hrest := ih (i+1) j h
        rw [hstep, Nat.add_assoc, Nat.add_comm 1 j] at hrest
        exact ⟨hrest.1, fun hne => List.mem_cons_of_mem _ (hrest.2 hne)⟩

theorem grouped_append (xs ys : List α) :
    grouped k sep (xs ++ ys) =
      (separate k sep ys.length xs.reverse).reverse ++ grouped k sep ys := by
  rw [grouped, grouped, List.reverse_append, separate_append, List.reverse_append,
    List.length_reverse, Nat.zero_add]

/-- The first item comes first. -/
theorem head_grouped (xs : List α) : (grouped k sep xs).head? = xs.head? := by
  cases xs with
  | nil => rfl
  | cons x xs =>
    rw [← List.singleton_append, grouped_append, List.reverse_singleton, separate, separate]
    split <;> rfl

end lemmas

/-! ## Texts in groups -/

section groups
variable {α : Type} [DecidableEq α] {k : ℕ} {sep : α}

/-- The text holds the items in order, and a separator at each place that ends a group, counted from
the right, and nowhere else. -/
structure GroupedAs (k : ℕ) (sep : α) (items text : List α) : Prop where
  items : text.filter (· != sep) = items
  places : ∀ j : ℕ, text.reverse[j]? = some sep ↔ j < text.length ∧ (j+1) % (k+1) = 0
  first : text.head? ≠ some sep

theorem filter_separate (i : ℕ) {xs : List α} (h : sep ∉ xs) :
    (separate k sep i xs).filter (· != sep) = xs := by
  induction xs generalizing i with
  | nil => rfl
  | cons x xs ih =>
    obtain ⟨hx, hxs⟩ : sep ≠ x ∧ sep ∉ xs := by simpa using h
    rw [separate]
    have hne : (x != sep) = true := bne_iff_ne.mpr hx.symm
    have hself : ¬ (sep != sep) = true := by simp
    split
    · rw [List.filter_cons_of_neg (p := (· != sep)) hself,
        List.filter_cons_of_pos (p := (· != sep)) hne, ih (i+1) hxs]
    · rw [List.filter_cons_of_pos (p := (· != sep)) hne, ih (i+1) hxs]

theorem filter_grouped {xs : List α} (h : sep ∉ xs) :
    (grouped k sep xs).filter (· != sep) = xs := by
  rw [grouped, List.filter_reverse, filter_separate 0 (by simpa using h), List.reverse_reverse]

theorem grouped_groupedAs (hk : 0 < k) {xs : List α} (h : sep ∉ xs) :
    GroupedAs k sep xs (grouped k sep xs) where
  items := filter_grouped h
  places j := by
    rw [grouped, List.reverse_reverse, List.length_reverse]
    have hplace := @separate_place _ _ sep hk 0 xs.reverse j
    rw [separatedLen, if_pos rfl, Nat.zero_add] at hplace
    rw [Nat.succ_mod_succ_eq_zero_iff]
    constructor
    · intro hsep
      refine ⟨(List.getElem?_eq_some_iff.mp hsep).1, ?_⟩
      by_contra hne
      exact h (List.mem_reverse.mp ((hplace sep hsep).2 hne))
    · rintro ⟨hlt, heq⟩
      rw [List.getElem?_eq_getElem hlt]
      exact congrArg some ((hplace _ (List.getElem?_eq_getElem hlt)).1 heq)
  first := by
    rw [head_grouped]
    intro hfirst
    exact h (List.mem_of_mem_head? hfirst)

end groups

end Pyrust.SeparatedLists
