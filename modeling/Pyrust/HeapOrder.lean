import Mathlib.Data.List.Sort

/-!
# Heaps in lists

A list is a heap when no entry ranks below its parent, the one at half its place. An
exchange of two places keeps the entries, and moves the only place at which the
order fails up or down.
-/

set_option autoImplicit false

namespace Pyrust.HeapOrder

open List

section swap
variable {α : Type*} {xs : List α} {i j k : ℕ} {a b : α}

/-- Two places exchanged. -/
def swap (xs : List α) (i j : ℕ) : List α :=
  match xs[i]?, xs[j]? with
  | some a, some b => (xs.set i b).set j a
  | _, _ => xs

variable (hi : xs[i]? = some a) (hj : xs[j]? = some b)
include hi hj

theorem swap_eq : swap xs i j = (xs.set i b).set j a := by
  rw [swap, hi, hj]

theorem swap_perm : swap xs i j ~ xs := by
  obtain ⟨hilt, rfl⟩ := List.getElem?_eq_some_iff.mp hi
  obtain ⟨hjlt, rfl⟩ := List.getElem?_eq_some_iff.mp hj
  rw [swap_eq hi hj]
  exact List.set_set_perm hilt hjlt

theorem swap_right : (swap xs i j)[j]? = some a := by
  rw [swap_eq hi hj, List.getElem?_set_self]
  rw [List.length_set]
  exact (List.getElem?_eq_some_iff.mp hj).1

theorem swap_left (hij : i ≠ j) : (swap xs i j)[i]? = some b := by
  rw [swap_eq hi hj, List.getElem?_set_ne hij.symm, List.getElem?_set_self]
  exact (List.getElem?_eq_some_iff.mp hi).1

theorem swap_other (hik : k ≠ i) (hjk : k ≠ j) : (swap xs i j)[k]? = xs[k]? := by
  rw [swap_eq hi hj, List.getElem?_set_ne hjk.symm, List.getElem?_set_ne hik.symm]

end swap

section heap
variable {α L : Type*} [LinearOrder L] (rank : α → L)

/-- No entry ranks below its parent. -/
def Ordered (xs : List α) : Prop :=
  ∀ i a b, 0 < i → xs[i]? = some a → xs[(i-1)/2]? = some b → rank b ≤ rank a

/-- The entries below a place do not rank below the parent of that place. -/
def Grand (xs : List α) (hole : ℕ) : Prop :=
  0 < hole → ∀ i a b, 0 < i → (i-1)/2 = hole → xs[i]? = some a → xs[(hole-1)/2]? = some b →
    rank b ≤ rank a

/-- Only the entry at one place may rank below its parent. -/
structure UpOrder (xs : List α) (hole : ℕ) : Prop where
  pairs : ∀ i a b, 0 < i → i ≠ hole → xs[i]? = some a → xs[(i-1)/2]? = some b → rank b ≤ rank a
  grand : Grand rank xs hole

/-- Only the entries below one place may rank below their parent. -/
structure DownOrder (xs : List α) (hole : ℕ) : Prop where
  pairs : ∀ i a b, 0 < i → (i-1)/2 ≠ hole → xs[i]? = some a → xs[(i-1)/2]? = some b →
    rank b ≤ rank a
  grand : Grand rank xs hole

variable {rank} {xs : List α} {c p i : ℕ} {x y a : α}

/-- The root ranks lowest. -/
theorem Ordered.root_le (h : Ordered rank xs) (hx : xs[0]? = some x) (ha : xs[i]? = some a) :
    rank x ≤ rank a := by
  induction i using Nat.strongRecOn generalizing a with
  | ind i ih =>
    rcases Nat.eq_zero_or_pos i with rfl | hi
    · rw [Option.some.inj (hx.symm.trans ha)]
    · have hlt := (List.getElem?_eq_some_iff.mp ha).1
      have hb : xs[(i-1)/2]? = some xs[(i-1)/2] := List.getElem?_eq_getElem (by omega)
      exact (ih _ (by omega) hb).trans (h i a _ hi ha hb)

theorem UpOrder.finish (h : UpOrder rank xs c)
    (hstop : 0 < c → ∀ a b, xs[c]? = some a → xs[(c-1)/2]? = some b → rank b ≤ rank a) :
    Ordered rank xs := by
  intro i a b hi ha hb
  by_cases hic : i = c
  · subst hic
    exact hstop hi a b ha hb
  · exact h.pairs i a b hi hic ha hb

/-- An entry that ranks below its parent is exchanged with it. -/
theorem UpOrder.move (h : UpOrder rank xs c) (hc : 0 < c) (hx : xs[c]? = some x)
    (hy : xs[(c-1)/2]? = some y) (hlt : rank x ≤ rank y) :
    UpOrder rank (swap xs c ((c-1)/2)) ((c-1)/2) := by
  have hne : c ≠ (c-1)/2 := by omega
  have hleft := swap_left hx hy hne
  have hright := swap_right hx hy
  have hother : ∀ {k}, k ≠ c → k ≠ (c-1)/2 → (swap xs c ((c-1)/2))[k]? = xs[k]? :=
    swap_other hx hy
  constructor
  · intro i a b hi hiq ha hb
    by_cases hic : i = c
    · subst hic
      rw [← Option.some.inj (hleft.symm.trans ha), ← Option.some.inj (hright.symm.trans hb)]
      exact hlt
    · rw [hother hic hiq] at ha
      by_cases hpc : (i-1)/2 = c
      · rw [hpc, hleft] at hb
        rw [← Option.some.inj hb]
        exact h.grand hc i a y hi hpc ha hy
      · by_cases hpq : (i-1)/2 = (c-1)/2
        · rw [hpq, hright] at hb
          rw [← Option.some.inj hb]
          exact hlt.trans (h.pairs i a y hi hic ha (hpq ▸ hy))
        · rw [hother hpc hpq] at hb
          exact h.pairs i a b hi hic ha hb
  · intro hq i a b hi hpq ha hb
    rw [hother (by omega) (by omega)] at hb
    have hup := h.pairs _ y b hq hne.symm hy hb
    by_cases hic : i = c
    · subst hic
      rw [← Option.some.inj (hleft.symm.trans ha)]
      exact hup
    · rw [hother hic (by omega)] at ha
      exact hup.trans (h.pairs i a y hi hic ha (hpq ▸ hy))

theorem DownOrder.finish (h : DownOrder rank xs p)
    (hstop : ∀ i a b, 0 < i → (i-1)/2 = p → xs[i]? = some a → xs[p]? = some b →
      rank b ≤ rank a) : Ordered rank xs := by
  intro i a b hi ha hb
  by_cases hip : (i-1)/2 = p
  · exact hstop i a b hi hip ha (hip ▸ hb)
  · exact h.pairs i a b hi hip ha hb

/-- An entry is exchanged with the lowest of those below it, which ranks below it. -/
theorem DownOrder.move (h : DownOrder rank xs p) (hc : 0 < c) (hp : (c-1)/2 = p)
    (hx : xs[c]? = some x) (hy : xs[p]? = some y) (hlt : rank x ≤ rank y)
    (hmin : ∀ i a, 0 < i → (i-1)/2 = p → xs[i]? = some a → rank x ≤ rank a) :
    DownOrder rank (swap xs p c) c := by
  have hne : p ≠ c := by omega
  have hleft := swap_left hy hx hne
  have hright := swap_right hy hx
  have hother : ∀ {k}, k ≠ p → k ≠ c → (swap xs p c)[k]? = xs[k]? := swap_other hy hx
  constructor
  · intro i a b hi hpc ha hb
    by_cases hic : i = c
    · subst hic
      rw [hp] at hb
      rw [← Option.some.inj (hright.symm.trans ha), ← Option.some.inj (hleft.symm.trans hb)]
      exact hlt
    · by_cases hip : i = p
      · subst hip
        rw [hother (by omega) hpc] at hb
        rw [← Option.some.inj (hleft.symm.trans ha)]
        exact h.grand hi c x b hc hp hx hb
      · rw [hother hip hic] at ha
        by_cases hpp : (i-1)/2 = p
        · rw [hpp, hleft] at hb
          rw [← Option.some.inj hb]
          exact hmin i a hi hpp ha
        · rw [hother hpp hpc] at hb
          exact h.pairs i a b hi hpp ha hb
  · intro _ i a b hi hpi ha hb
    rw [hother (by omega) (by omega)] at ha
    rw [hp, hleft] at hb
    rw [← Option.some.inj hb]
    exact h.pairs i a x hi (by omega) ha (hpi ▸ hx)

/-- One more entry at the end. -/
theorem Ordered.push (h : Ordered rank xs) (x : α) : UpOrder rank (xs ++ [x]) xs.length := by
  constructor
  · intro i a b hi hne ha hb
    have hlt := (List.getElem?_eq_some_iff.mp ha).1
    rw [List.length_append, List.length_singleton] at hlt
    rw [List.getElem?_append_left (by omega)] at ha hb
    exact h i a b hi ha hb
  · intro hpos i a b hi hp ha hb
    have hlt := (List.getElem?_eq_some_iff.mp ha).1
    rw [List.length_append, List.length_singleton] at hlt
    omega

/-- Another entry at the root. -/
theorem Ordered.setRoot (h : Ordered rank xs) (x : α) : DownOrder rank (xs.set 0 x) 0 := by
  constructor
  · intro i a b hi hp ha hb
    rw [List.getElem?_set_ne (by omega)] at ha hb
    exact h i a b hi ha hb
  · intro hpos
    exact absurd hpos (Nat.lt_irrefl 0)

/-- The entries without the last. -/
theorem Ordered.dropLast (h : Ordered rank xs) : Ordered rank xs.dropLast := by
  intro i a b hi ha hb
  rw [List.getElem?_dropLast] at ha hb
  split at ha <;> [skip; cases ha]
  split at hb <;> [skip; cases hb]
  exact h i a b hi ha hb

end heap

/-! ## Entries of falling rank -/

section falling
variable {α L : Type*} [LinearOrder L] {rank : α → L} {xs ys rest : List α}

/-- The ranks fall along the list. -/
def Falling (rank : α → L) (xs : List α) : Prop := xs.Pairwise fun a b => rank b < rank a

/-- Only one list of falling rank has the same entries. -/
theorem Falling.eq_of_perm (hx : Falling rank xs) (hy : Falling rank ys) (hp : xs ~ ys) :
    xs = ys :=
  hp.eq_of_pairwise (fun _ _ _ _ hab hba => absurd hab hba.asymm) hx hy

/-- A list in order whose ranks are those of a list of falling rank is one itself. -/
theorem Falling.of_perm (hx : Falling rank xs) (hp : ys ~ xs)
    (hsorted : ys.Pairwise fun a b => rank b ≤ rank a) : Falling rank ys := by
  have hnodup : (xs.map rank).Nodup := List.pairwise_map.mpr (hx.imp fun h => h.ne')
  have hne := List.pairwise_map.mp ((hp.map rank).nodup_iff.mpr hnodup)
  exact (hsorted.and hne).imp fun h => lt_of_le_of_ne h.1 h.2.symm

/-- Entries that all rank above the rest are the first. -/
theorem Falling.take_eq (hx : Falling rank xs) (hy : Falling rank ys) (hp : ys ++ rest ~ xs)
    (htop : ∀ d ∈ rest, ∀ c ∈ ys, rank d < rank c) : ys = xs.take ys.length := by
  have hperm := List.mergeSort_perm rest fun a b => decide (rank b ≤ rank a)
  have hsorted : (rest.mergeSort fun a b => decide (rank b ≤ rank a)).Pairwise
      fun a b => rank b ≤ rank a := by
    refine (List.pairwise_mergeSort (fun a b c hab hbc => ?_) (fun a b => ?_) rest).imp
      fun h => of_decide_eq_true h
    · exact decide_eq_true ((of_decide_eq_true hbc).trans (of_decide_eq_true hab))
    · simpa using le_total (rank b) (rank a)
  have hall : (ys ++ rest.mergeSort fun a b => decide (rank b ≤ rank a)) ~ xs :=
    (hperm.append_left ys).trans hp
  have hfalling : Falling rank (ys ++ rest.mergeSort fun a b => decide (rank b ≤ rank a)) := by
    refine hx.of_perm hall (List.pairwise_append.mpr ⟨hy.imp fun h => h.le, hsorted, ?_⟩)
    intro c hc d hd
    exact (htop d (hperm.mem_iff.mp hd) c hc).le
  rw [← hfalling.eq_of_perm hx hall, List.take_left]

end falling

/-! ## Pairs in their order -/

section pairs
variable {α : Type*} {xs : List α} {a b : α}

/-- Of two entries one stands before the other. -/
theorem pair_sublist_of_mem (ha : a ∈ xs) (hb : b ∈ xs) (hne : a ≠ b) :
    [a, b] <+ xs ∨ [b, a] <+ xs := by
  induction xs with
  | nil => cases ha
  | cons x xs ih =>
    rcases List.mem_cons.mp ha with hax | hain
    · rcases List.mem_cons.mp hb with hbx | hbin
      · exact absurd (hax.trans hbx.symm) hne
      · exact .inl (hax ▸ (List.singleton_sublist.mpr hbin).cons_cons a)
    · rcases List.mem_cons.mp hb with hbx | hbin
      · exact .inr (hbx ▸ (List.singleton_sublist.mpr hain).cons_cons b)
      · exact (ih hain hbin).imp (.cons x) (.cons x)

/-- Two entries stand in one order only. -/
theorem not_pair_sublist (hn : xs.Nodup) (hab : [a, b] <+ xs) : ¬[b, a] <+ xs := by
  induction xs with
  | nil => cases hab
  | cons x xs ih =>
    obtain ⟨hx, hn⟩ := List.nodup_cons.mp hn
    intro hba
    cases hab with
    | cons _ hab =>
      cases hba with
      | cons _ hba => exact ih hn hab hba
      | cons_cons _ _ => exact hx (hab.subset (by simp))
    | cons_cons _ hb =>
      cases hba with
      | cons _ hba => exact hx (hba.subset (by simp))
      | cons_cons _ ha => exact hx (List.singleton_sublist.mp ha)

end pairs

end Pyrust.HeapOrder
