import Mathlib.Data.List.Nodup
import Mathlib.Data.List.Infix

/-!
# The C3 merge

Lists are merged by taking, again and again, the first head that is in no tail,
and dropping it from the lists it heads. The result, where there is one, holds
the elements of the lists, none of them twice, and keeps the order of each list.
-/

set_option autoImplicit false

namespace Pyrust.C3Merge

variable {α : Type*} [DecidableEq α]

/-- Remove `x` where it is the head. -/
def dropHead (x : α) (l : List α) : List α := if l.head? = some x then l.tail else l

/-- Behind the head of one of the lists. -/
def Blocked (ls : List (List α)) (x : α) : Prop := ∃ l ∈ ls, x ∈ l.tail

instance (ls : List (List α)) (x : α) : Decidable (Blocked ls x) := by
  unfold Blocked
  infer_instance

/-- The first head that is not blocked. -/
def Picks (ls : List (List α)) (x : α) : Prop :=
  ∃ pre l post, ls = pre ++ l::post ∧ l.head? = some x ∧ ¬ Blocked ls x ∧
    ∀ l' ∈ pre, ∀ y ∈ l'.head?, Blocked ls y

inductive Merge : List (List α) → List α → Prop where
  | done {ls : List (List α)} (h : ∀ l ∈ ls, l = []) : Merge ls []
  | pick {ls : List (List α)} {x : α} {r : List α} (h : Picks ls x)
    (hr : Merge (ls.map (dropHead x)) r) : Merge ls (x::r)

variable {ls : List (List α)} {l r : List α} {x y : α}

omit [DecidableEq α] in
theorem Picks.mem (h : Picks ls x) : ∃ l ∈ ls, l.head? = some x := by
  obtain ⟨pre, l, post, rfl, hl, -, -⟩ := h
  exact ⟨l, by simp, hl⟩

omit [DecidableEq α] in
theorem Picks.not_blocked (h : Picks ls x) : ¬ Blocked ls x := by
  obtain ⟨-, -, -, -, -, hx, -⟩ := h
  exact hx

omit [DecidableEq α] in
theorem picks_unique (hx : Picks ls x) (hy : Picks ls y) : x = y := by
  obtain ⟨pre, l, post, rfl, hl, hbx, hpre⟩ := hx
  obtain ⟨pre', l', post', heq, hl', hby, hpre'⟩ := hy
  have hcases := List.append_eq_append_iff.mp heq
  rcases hcases with ⟨a, ha, hb⟩ | ⟨a, ha, hb⟩
  · cases a with
    | nil =>
      simp only [List.nil_append, List.cons.injEq] at hb
      rw [hb.1, hl'] at hl
      exact (Option.some.inj hl).symm
    | cons z a =>
      simp only [List.cons_append, List.cons.injEq] at hb
      exact absurd (hpre' l (by simp [ha, hb.1]) x hl) hbx
  · cases a with
    | nil =>
      simp only [List.nil_append, List.cons.injEq] at hb
      rw [← hb.1, hl'] at hl
      exact (Option.some.inj hl).symm
    | cons z a =>
      simp only [List.cons_append, List.cons.injEq] at hb
      exact absurd (hpre l' (by simp [ha, hb.1]) y hl') hby

/-- The first head that is not blocked, computed. -/
def nextHead (ls : List (List α)) : Option α :=
  ls.findSome? fun l => l.head?.filter fun x => ¬ Blocked ls x

theorem nextHead_picks (h : nextHead ls = some x) : Picks ls x := by
  obtain ⟨pre, l, post, rfl, hl, hpre⟩ := List.findSome?_eq_some_iff.mp h
  obtain ⟨hl, hx⟩ := Option.filter_eq_some_iff.mp hl
  refine ⟨pre, l, post, rfl, hl, by simpa using hx, fun l' hl' y hy => ?_⟩
  simpa using Option.filter_eq_none_iff.mp (hpre l' hl') y hy

theorem merge_unique {r' : List α} (h : Merge ls r) (h' : Merge ls r') : r = r' := by
  induction h generalizing r' with
  | done hnil =>
    cases h' with
    | done => rfl
    | pick hp =>
      obtain ⟨l, hl, hhead⟩ := hp.mem
      simp [hnil l hl] at hhead
  | pick hp hr ih =>
    cases h' with
    | done hnil =>
      obtain ⟨l, hl, hhead⟩ := hp.mem
      simp [hnil l hl] at hhead
    | pick hp' hr' =>
      obtain rfl := picks_unique hp hp'
      rw [ih hr']

theorem sublist_cons_dropHead (x : α) (l : List α) : l.Sublist (x::dropHead x l) := by
  unfold dropHead
  cases l with
  | nil => simp
  | cons y l =>
    by_cases h : y = x
    · simp [h]
    · simp [h]

theorem dropHead_sublist (x : α) (l : List α) : (dropHead x l).Sublist l := by
  unfold dropHead
  split
  · exact List.tail_sublist l
  · exact List.Sublist.refl l

theorem not_mem_dropHead (h : x ∉ l.tail) : x ∉ dropHead x l := by
  unfold dropHead
  cases l with
  | nil => simp
  | cons y l =>
    by_cases hy : y = x
    · simpa [hy] using h
    · simpa [hy, Ne.symm hy] using h

/-- Each list keeps its order. -/
theorem merge_sublist (h : Merge ls r) : ∀ l ∈ ls, l.Sublist r := by
  induction h with
  | done hnil =>
    intro l hl
    rw [hnil l hl]
  | @pick ls x r hp hr ih =>
    intro l hl
    have hrest := ih (dropHead x l) (List.mem_map.mpr ⟨l, hl, rfl⟩)
    exact (sublist_cons_dropHead x l).trans (hrest.cons_cons x)

theorem merge_mem (h : Merge ls r) : x ∈ r → ∃ l ∈ ls, x ∈ l := by
  induction h with
  | done => simp
  | @pick ls y r hp hr ih =>
    intro hx
    rcases List.mem_cons.mp hx with rfl | hx
    · obtain ⟨l, hl, hhead⟩ := hp.mem
      exact ⟨l, hl, List.mem_of_head? hhead⟩
    · obtain ⟨l', hl', hxl⟩ := ih hx
      obtain ⟨l, hl, rfl⟩ := List.mem_map.mp hl'
      exact ⟨l, hl, (dropHead_sublist y l).subset hxl⟩

/-- A head that is taken is in none of the lists that are left. -/
theorem Picks.gone (h : Picks ls x) : ∀ l ∈ ls.map (dropHead x), x ∉ l := by
  intro l' hl'
  obtain ⟨l, hl, rfl⟩ := List.mem_map.mp hl'
  exact not_mem_dropHead fun hx => h.not_blocked ⟨l, hl, hx⟩

theorem merge_nodup (h : Merge ls r) : r.Nodup := by
  induction h with
  | done => exact List.nodup_nil
  | @pick ls x r hp hr ih =>
    refine List.nodup_cons.mpr ⟨fun hx => ?_, ih⟩
    obtain ⟨l, hl, hxl⟩ := merge_mem hr hx
    exact hp.gone l hl hxl

omit [DecidableEq α] in
/-- Two elements of a list without repetitions stand in one order only. -/
theorem pair_order (h : r.Nodup) (hxy : [x, y].Sublist r) : ¬ [y, x].Sublist r := by
  induction r with
  | nil => simp at hxy
  | cons z r ih =>
    intro hyx
    obtain ⟨hz, hr⟩ := List.nodup_cons.mp h
    cases hxy with
    | cons _ hxy =>
      cases hyx with
      | cons _ hyx => exact ih hr hxy hyx
      | cons_cons _ hx => exact hz (hxy.subset (by simp))
    | cons_cons _ hy =>
      cases hyx with
      | cons _ hyx => exact hz (hyx.subset (by simp))
      | cons_cons _ hx => exact hz (hy.subset (by simp))

omit [DecidableEq α] in
theorem pair_trans {z : α} (h : r.Nodup) (hxy : [x, y].Sublist r) (hyz : [y, z].Sublist r) :
    [x, z].Sublist r := by
  induction r with
  | nil => simp at hxy
  | cons w r ih =>
    obtain ⟨hw, hr⟩ := List.nodup_cons.mp h
    cases hxy with
    | cons _ hxy =>
      cases hyz with
      | cons _ hyz => exact (ih hr hxy hyz).cons w
      | cons_cons _ hz => exact absurd (hxy.subset (by simp)) hw
    | cons_cons _ hy =>
      cases hyz with
      | cons _ hyz => exact ((List.sublist_cons_self y [z]).trans hyz).cons_cons x
      | cons_cons _ hz => exact hz.cons_cons x

omit [DecidableEq α] in
/-- The element that stands behind all others is the last. -/
theorem last_of_pairs (hr : r.Nodup) (hx : x ∈ r) (h : ∀ y ∈ r, y ≠ x → [y, x].Sublist r) :
    ∃ k, r = k ++ [x] := by
  obtain ⟨s, t, rfl⟩ := List.append_of_mem hx
  cases t with
  | nil => exact ⟨s, rfl⟩
  | cons y t =>
    have hne : y ≠ x := by
      rintro rfl
      simp [List.nodup_append] at hr
    have hxy : [x, y].Sublist (s ++ x::y::t) :=
      (((List.nil_sublist t).cons_cons y).cons_cons x).trans (List.sublist_append_right s _)
    exact absurd (h y (by simp) hne) (pair_order hr hxy)

end Pyrust.C3Merge
