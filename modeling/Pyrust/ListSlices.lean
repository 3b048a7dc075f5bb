import Mathlib.Data.List.Nodup
import Pyrust.SliceBounds

/-!
# Slice assignment and deletion on lists

A slice of step one replaces one stretch of the list, any other slice its
positions one by one. A list is never longer than the largest `i64`, which the
type of a list carries. The state of a list after an error is part of the result.
-/

set_option autoImplicit false

namespace Pyrust.ListSlices

open FixedWidth RangeValues SliceSelection SliceBounds

/-- A `Vec` of values. Its length is at most `isize::MAX`. -/
structure Items (α : Type) where
  items : List α
  fits : items.length < 2^63

section model
variable {α : Type}

/-- `v as usize`. -/
def asUsize (v : ℤ) : ℕ := (v%2^64).toNat

/-- `Vec::splice`, and `Vec::drain` when nothing is put in. -/
def splice (items : List α) (start stop : ℕ) (newItems : List α) : Except Failure (List α) :=
  if stop < start then .error (.panic (.spliceOrder start stop))
  else if items.length < stop then .error (.panic .indexOutOfRange)
  else .ok (items.take start ++ newItems ++ items.drop stop)

/-- The assignments `items[ix] = val`. -/
def assignAll : List α → List (ℕ × α) → Except Failure (List α)
  | items, [] => .ok items
  | items, (ix, val)::rest =>
    if ix < items.length then assignAll (items.set ix val) rest
    else .error (.panic .indexOutOfRange)

/-- The assignments `deleted[index] = true`. -/
def markAll : List Bool → List ℕ → Except Failure (List Bool)
  | deleted, [] => .ok deleted
  | deleted, index::rest =>
    if index < deleted.length then markAll (deleted.set index true) rest
    else .error (.panic .indexOutOfRange)

/-- `Vec::retain` with a running index. -/
def retain (keep : ℕ → Bool) (items : List α) : List α :=
  (items.zipIdx.filter fun x => keep x.2).map Prod.fst

def sizeMismatch (given wanted : ℕ) : Failure :=
  .raise (.valueError
    s!"attempt to assign sequence of size {given} to extended slice of size {wanted}")

/-- The changed list, or the list as it was. After a panic the list is not looked at. -/
def commit (items : List α) : Except Failure (List α) → Except Failure Unit × List α
  | .error e => (.error e, items)
  | .ok items' => (.ok (), items')

/-- `slice_setitem`. -/
def sliceSetitem (items : List α) (lo hi st : Option Bound) (newItems : List α) :
    Except Failure Unit × List α :=
  commit items do
    let (start, stop, step) ← resolveSliceBounds items.length lo hi st
    if step = 1 then splice items (asUsize start) (asUsize stop) newItems
    else
      let indices ← sliceTargetIndices items.length start stop step
      if indices.length ≠ newItems.length then
        .error (sizeMismatch newItems.length indices.length)
      else assignAll items (indices.zip newItems)

/-- `slice_delitem`. -/
def sliceDelitem (items : List α) (lo hi st : Option Bound) : Except Failure Unit × List α :=
  commit items do
    let (start, stop, step) ← resolveSliceBounds items.length lo hi st
    if step = 1 then splice items (asUsize start) (asUsize stop) []
    else
      let indices ← sliceTargetIndices items.length start stop step
      if indices.isEmpty then pure items
      else
        let deleted ← markAll (List.replicate items.length false) indices
        return retain (fun index => !deleted.getD index false) items

/-! ## What the two are for -/

/-- The clamped start of a slice of these items. -/
def startAt (items : List α) (lo st : Option Bound) : ℕ :=
  (startOf items.length (stepOf st) (given lo)).toNat

def stopAt (items : List α) (hi st : Option Bound) : ℕ :=
  (stopOf items.length (stepOf st) (given hi)).toNat

/-- The positions a slice of these items selects. -/
def positions (items : List α) (lo hi st : Option Bound) : List ℕ :=
  (selected items.length (stepOf st) (given lo) (given hi)).map Int.toNat

/-- `new` stands at the selected positions, in their order, and nothing else has changed. -/
structure Replaced (items new : List α) (places : List ℕ) (items' : List α) : Prop where
  length : items'.length = items.length
  inside : ∀ k i : ℕ, places[k]? = some i → items'[i]? = new[k]?
  outside : ∀ i ∉ places, items'[i]? = items[i]?

/-- What slice assignment promises: it ends without a panic, with the list that the slice
describes, or with an error and the list as it was. -/
structure Assigns (items : List α) (lo hi st : Option Bound) (new : List α) : Prop where
  zero : stepOf st = 0 → sliceSetitem items lo hi st new = (.error zeroStep, items)
  one : stepOf st = 1 → sliceSetitem items lo hi st new =
    (.ok (), items.take (startAt items lo st) ++ new ++
      items.drop (max (startAt items lo st) (stopAt items hi st)))
  extended : stepOf st ≠ 0 → stepOf st ≠ 1 →
    new.length = (positions items lo hi st).length →
    ∃ items', sliceSetitem items lo hi st new = (.ok (), items') ∧
      Replaced items new (positions items lo hi st) items'
  mismatch : stepOf st ≠ 0 → stepOf st ≠ 1 →
    new.length ≠ (positions items lo hi st).length →
    sliceSetitem items lo hi st new =
      (.error (sizeMismatch new.length (positions items lo hi st).length), items)

structure Deletes (items : List α) (lo hi st : Option Bound) : Prop where
  zero : stepOf st = 0 → sliceDelitem items lo hi st = (.error zeroStep, items)
  one : stepOf st = 1 → sliceDelitem items lo hi st =
    (.ok (), items.take (startAt items lo st) ++
      items.drop (max (startAt items lo st) (stopAt items hi st)))
  extended : stepOf st ≠ 0 → stepOf st ≠ 1 → sliceDelitem items lo hi st =
    (.ok (), retain (fun i => i ∉ positions items lo hi st) items)

end model

/-! ## The loops -/

section loops
variable {α : Type}

theorem assignAll_replaced {indices : List ℕ} (hnd : indices.Nodup) {items new : List α}
    (hlen : new.length = indices.length) (h : ∀ i ∈ indices, i < items.length) :
    ∃ items', assignAll items (indices.zip new) = .ok items' ∧
      Replaced items new indices items' := by
  induction indices generalizing items new with
  | nil =>
    refine ⟨items, rfl, rfl, fun k i hk => ?_, fun i _ => rfl⟩
    cases hk
  | cons index indices ih =>
    cases new with
    | nil => cases hlen
    | cons val new =>
      rw [List.nodup_cons] at hnd
      have hlt : index < items.length := h index (by simp)
      obtain ⟨items', hrun, hr⟩ := @ih hnd.2 (items.set index val) new (by simpa using hlen)
        fun i hi => by simpa using h i (by simp [hi])
      have hself : items'[index]? = some val := by
        rw [hr.outside index hnd.1, List.getElem?_set_self hlt]
      refine ⟨items', ?_, by simpa using hr.length, ?_, ?_⟩
      · rw [List.zip_cons_cons, assignAll, if_pos hlt, hrun]
      · intro k i hk
        cases k with
        | zero =>
          obtain rfl : index = i := by simpa using hk
          simpa using hself
        | succ k => simpa using hr.inside k i (by simpa using hk)
      · intro i hi
        rw [List.mem_cons, not_or] at hi
        rw [hr.outside i hi.2, List.getElem?_set_ne (Ne.symm hi.1)]

theorem markAll_eq (indices : List ℕ) {deleted : List Bool}
    (h : ∀ i ∈ indices, i < deleted.length) :
    ∃ deleted', markAll deleted indices = .ok deleted' ∧
      ∀ i, deleted'.getD i false = (deleted.getD i false || decide (i ∈ indices)) := by
  induction indices generalizing deleted with
  | nil => exact ⟨deleted, rfl, by simp⟩
  | cons index indices ih =>
    have hlt : index < deleted.length := h index (by simp)
    obtain ⟨deleted', hrun, hd⟩ := @ih (deleted.set index true) fun i hi => by
      simpa using h i (by simp [hi])
    refine ⟨deleted', by rw [markAll, if_pos hlt, hrun], ?_⟩
    intro i
    rw [hd i]
    by_cases hi : i = index
    · subst hi
      simp [List.getD_eq_getElem?_getD, hlt]
    · simp [List.getD_eq_getElem?_getD, List.getElem?_set_ne (Ne.symm hi), hi]

end loops

/-! ## The two operations -/

section operations
variable {α : Type} (v : Items α) (lo hi st : Option Bound)

theorem length_word : (0 : ℤ) ≤ v.items.length ∧ (v.items.length : ℤ) < 2^63 := by
  have := v.fits
  omega

theorem asUsize_eq {n : ℤ} (h : 0 ≤ n) (h' : n < 2^63) : asUsize n = n.toNat := by
  rw [asUsize, Int.emod_eq_of_lt h (by omega)]

/-- Both clamped bounds of a slice of step one lie inside the list. -/
theorem clamped_le (h : stepOf st = 1) :
    startAt v.items lo st ≤ v.items.length ∧ stopAt v.items hi st ≤ v.items.length := by
  have hlen := (length_word v).1
  obtain ⟨-, hs⟩ := @startOf_bounds v.items.length (stepOf st) hlen (given lo)
  obtain ⟨-, ht⟩ := @stopOf_bounds v.items.length (stepOf st) hlen (given hi)
  have hup : upper v.items.length (stepOf st) = v.items.length := by
    rw [h]
    rfl
  rw [hup] at hs ht
  rw [startAt, stopAt]
  omega

theorem asUsize_startOf (h : stepOf st = 1) :
    asUsize (startOf v.items.length (stepOf st) (given lo)) = startAt v.items lo st := by
  have hlen := length_word v
  obtain ⟨hs, hs'⟩ := @startOf_bounds v.items.length (stepOf st) hlen.1 (given lo)
  rw [h] at hs hs' ⊢
  rw [asUsize_eq hs (lt_of_le_of_lt hs' hlen.2), startAt, h]

theorem asUsize_stopOf (h : stepOf st = 1) :
    asUsize (stopOf v.items.length (stepOf st) (given hi)) = stopAt v.items hi st := by
  have hlen := length_word v
  obtain ⟨ht, ht'⟩ := @stopOf_bounds v.items.length (stepOf st) hlen.1 (given hi)
  rw [h] at ht ht' ⊢
  rw [asUsize_eq ht (lt_of_le_of_lt ht' hlen.2), stopAt, h]

/-- The run of a splice, and what of it the order of the bounds decides. -/
theorem splice_eq {items new : List α} {start stop : ℕ} (h : stop ≤ items.length) :
    splice items start stop new = if stop < start then .error (.panic (.spliceOrder start stop))
      else .ok (items.take start ++ new ++ items.drop (max start stop)) := by
  rw [splice, if_neg (not_lt.mpr h)]
  by_cases hlt : stop < start
  · rw [if_pos hlt, if_pos hlt]
  · rw [if_neg hlt, if_neg hlt, max_eq_right (not_lt.mp hlt)]

theorem positions_lt {i : ℕ} (h : i ∈ positions v.items lo hi st) : i < v.items.length := by
  obtain ⟨j, hj, rfl⟩ := List.mem_map.mp h
  have := mem_selected (length_word v).1 hj
  omega

theorem positions_nodup (h : stepOf st ≠ 0) : (positions v.items lo hi st).Nodup := by
  refine List.Nodup.map_on (fun i hi' j hj' hij => ?_) (selected_nodup h)
  have := mem_selected (length_word v).1 hi'
  have := mem_selected (length_word v).1 hj'
  omega

/-- The bounds of a slice, each beside what becomes of it. -/
theorem sliceSetitem_eq (new : List α) : sliceSetitem v.items lo hi st new = commit v.items (
    if stepOf st = 0 then .error zeroStep
    else if stepOf st = 1 then splice v.items (startAt v.items lo st) (stopAt v.items hi st) new
    else if (positions v.items lo hi st).length ≠ new.length then
      .error (sizeMismatch new.length (positions v.items lo hi st).length)
    else assignAll v.items ((positions v.items lo hi st).zip new)) := by
  rw [sliceSetitem, resolveSliceBounds_eq (length_word v)]
  by_cases h0 : stepOf st = 0
  · simp only [h0, if_true, bind, Except.bind]
  by_cases h1 : stepOf st = 1
  · have hsat : saturated (stepOf st) = 1 := by
      rw [h1]
      rfl
    simp only [h0, if_false, bind, Except.bind, hsat, if_true, asUsize_startOf v lo st h1,
      asUsize_stopOf v hi st h1, if_pos h1]
  · have hsat : saturated (stepOf st) ≠ 1 := by
      rw [saturated]
      omega
    simp only [h0, h1, if_false, bind, Except.bind, hsat,
      sliceTargetIndices_eq (length_word v) h0 (given lo) (given hi), positions]
    rfl

theorem sliceDelitem_eq : sliceDelitem v.items lo hi st = commit v.items (
    if stepOf st = 0 then .error zeroStep
    else if stepOf st = 1 then splice v.items (startAt v.items lo st) (stopAt v.items hi st) []
    else if (positions v.items lo hi st).isEmpty then .ok v.items
    else do
      let deleted ← markAll (List.replicate v.items.length false) (positions v.items lo hi st)
      return retain (fun index => !deleted.getD index false) v.items) := by
  rw [sliceDelitem, resolveSliceBounds_eq (length_word v)]
  by_cases h0 : stepOf st = 0
  · simp only [h0, if_true, bind, Except.bind]
  by_cases h1 : stepOf st = 1
  · have hsat : saturated (stepOf st) = 1 := by
      rw [h1]
      rfl
    simp only [h0, if_false, bind, Except.bind, hsat, if_true, asUsize_startOf v lo st h1,
      asUsize_stopOf v hi st h1, if_pos h1]
  · have hsat : saturated (stepOf st) ≠ 1 := by
      rw [saturated]
      omega
    simp only [h0, h1, if_false, bind, Except.bind, hsat, pure, Except.pure,
      sliceTargetIndices_eq (length_word v) h0 (given lo) (given hi), positions]
    rfl

theorem markAll_replicate {indices : List ℕ} {n : ℕ} (h : ∀ i ∈ indices, i < n) :
    ∃ deleted, markAll (List.replicate n false) indices = .ok deleted ∧
      ∀ i, deleted.getD i false = decide (i ∈ indices) := by
  obtain ⟨deleted, hrun, hd⟩ := @markAll_eq indices (List.replicate n false) (by simpa using h)
  refine ⟨deleted, hrun, fun i => ?_⟩
  have hclear : (List.replicate n false).getD i false = false := by
    by_cases hi : i < n <;> simp [List.getD_eq_getElem?_getD, hi]
  rw [hd i, hclear, Bool.false_or]

theorem retain_true (items : List α) : retain (fun _ => true) items = items := by
  have hall : items.zipIdx.filter (fun _ => true) = items.zipIdx :=
    List.filter_eq_self.mpr fun _ _ => rfl
  rw [retain, hall, List.zipIdx_map_fst]

theorem delete_extended (h0 : stepOf st ≠ 0) (h1 : stepOf st ≠ 1) :
    sliceDelitem v.items lo hi st =
      (.ok (), retain (fun i => i ∉ positions v.items lo hi st) v.items) := by
  obtain ⟨deleted, hrun, hd⟩ := markAll_replicate fun i hi' => positions_lt v lo hi st hi'
  rw [sliceDelitem_eq, if_neg h0, if_neg h1, hrun]
  by_cases he : (positions v.items lo hi st).isEmpty
  · rw [if_pos he, List.isEmpty_iff.mp he]
    simp only [commit, List.not_mem_nil, not_false_eq_true, decide_true, retain_true]
  · rw [if_neg he]
    simp only [commit, bind, Except.bind, pure, Except.pure, hd, decide_not]

/-- Assignment and deletion keep their promise but at step one with the clamped start past the
clamped stop. -/
theorem slice_changes_exact (new : List α) :
    (Assigns v.items lo hi st new ↔
      ¬(stepOf st = 1 ∧ stopAt v.items hi st < startAt v.items lo st)) ∧
    (Deletes v.items lo hi st ↔
      ¬(stepOf st = 1 ∧ stopAt v.items hi st < startAt v.items lo st)) := by
  have hset := sliceSetitem_eq v lo hi st
  have hdel := sliceDelitem_eq v lo hi st
  have hsplice : ∀ new, stepOf st = 1 →
      splice v.items (startAt v.items lo st) (stopAt v.items hi st) new = _ := fun new h1 =>
    splice_eq (clamped_le v lo hi st h1).2
  refine ⟨⟨?_, ?_⟩, ⟨?_, ?_⟩⟩
  · rintro h ⟨h1, hlt⟩
    have hrun := h.one h1
    rw [hset, if_neg (by omega), if_pos h1, hsplice new h1, if_pos hlt] at hrun
    cases hrun
  · intro h
    constructor
    · intro h0
      rw [hset, if_pos h0]
      rfl
    · intro h1
      rw [hset, if_neg (by omega), if_pos h1, hsplice new h1, if_neg fun hlt => h ⟨h1, hlt⟩]
      rfl
    · intro h0 h1 hlen
      obtain ⟨items', hrun, hr⟩ := assignAll_replaced (positions_nodup v lo hi st h0) hlen
        fun i hi' => positions_lt v lo hi st hi'
      refine ⟨items', ?_, hr⟩
      rw [hset, if_neg h0, if_neg h1, if_neg (not_not.mpr hlen.symm), hrun]
      rfl
    · intro h0 h1 hlen
      rw [hset, if_neg h0, if_neg h1, if_pos (Ne.symm hlen)]
      rfl
  · rintro h ⟨h1, hlt⟩
    have hrun := h.one h1
    rw [hdel, if_neg (by omega), if_pos h1, hsplice [] h1, if_pos hlt] at hrun
    cases hrun
  · intro h
    constructor
    · intro h0
      rw [hdel, if_pos h0]
      rfl
    · intro h1
      rw [hdel, if_neg (by omega), if_pos h1, hsplice [] h1, if_neg fun hlt => h ⟨h1, hlt⟩,
        List.append_nil]
      rfl
    · exact delete_extended v lo hi st

theorem slice_changes_panic :
    sliceSetitem [1, 2, 3] (some (.int 2)) (some (.int 1)) none [9] =
      (.error (.panic (.spliceOrder 2 1)), [1, 2, 3]) ∧
    sliceDelitem [1, 2, 3] (some (.int 2)) (some (.int 1)) none =
      (.error (.panic (.spliceOrder 2 1)), [1, 2, 3]) := by
  decide

end operations

end Pyrust.ListSlices
