import Mathlib.Data.List.Nodup
import Mathlib.Data.Nat.Notation
import Mathlib.Logic.Function.Basic

/-!
# Insertion-ordered maps

A map that remembers the order in which its keys came. A key that is held keeps
its place when its value changes; a key that leaves does not disturb the order of
the others. A list of pairs holds such a map when its keys are the order and a
search from the front finds the values.
-/

set_option autoImplicit false

namespace Pyrust.OrderedMaps

universe u v

/-- The keys in their order, and the value of each. -/
structure OrderedMap (K : Type u) (V : Type v) where
  order : List K
  value : K → Option V
  distinct : order.Nodup
  held : ∀ k, k ∈ order ↔ (value k).isSome

section maps
variable {K : Type u} {V : Type v} [DecidableEq K] (m : OrderedMap K V)

namespace OrderedMap

def empty : OrderedMap K V := ⟨[], fun _ => none, .nil, by simp⟩

/-- A new key goes to the end, a key that is held keeps its place. -/
def put (k : K) (v : V) : OrderedMap K V where
  order := if k ∈ m.order then m.order else m.order ++ [k]
  value := Function.update m.value k (some v)
  distinct := by
    split
    case isTrue => exact m.distinct
    case isFalse hk =>
      rw [← List.concat_eq_append]
      exact m.distinct.concat hk
  held := fun x => by
    by_cases hx : x = k
    · subst hx
      split <;> simp_all
    · rw [Function.update_of_ne hx, ← m.held x]
      split <;> simp [hx]

def take (k : K) : OrderedMap K V where
  order := m.order.erase k
  value := Function.update m.value k none
  distinct := m.distinct.erase k
  held := fun x => by
    by_cases hx : x = k
    · subst hx
      simp [m.distinct.not_mem_erase]
    · rw [Function.update_of_ne hx, ← m.held x, List.mem_erase_of_ne hx]

/-- The keys with their values. -/
def entries : List (K × V) := m.order.filterMap fun k => (m.value k).map (k, ·)

theorem put_value (k : K) (v : V) (x : K) :
    (m.put k v).value x = if x = k then some v else m.value x :=
  Function.update_apply m.value k (some v) x

theorem take_value (k x : K) : (m.take k).value x = if x = k then none else m.value x :=
  Function.update_apply m.value k none x

end OrderedMap

/-! ## Lists of pairs -/

/-- The place of a key. -/
def position (es : List (K × V)) (k : K) : Option ℕ := es.findIdx? fun e => e.1 = k

/-- The value a search from the front finds. -/
def lookup (es : List (K × V)) (k : K) : Option V := (es.find? fun e => e.1 = k).map Prod.snd

variable {m} {es : List (K × V)} {e : K × V} {k x : K} {v : V} {i : ℕ}

theorem position_cons : position (e::es) k =
    if e.1 = k then some 0 else (position es k).map (·+1) := by
  simp [position, List.findIdx?_cons]

theorem lookup_cons : lookup (e::es) k = if e.1 = k then some e.2 else lookup es k := by
  by_cases h : e.1 = k
  · simp [lookup, h]
  · simp [lookup, h]

theorem lookup_append (xs ys : List (K × V)) (k : K) :
    lookup (xs ++ ys) k = (lookup xs k).or (lookup ys k) := by
  rw [lookup, List.find?_append, Option.map_or]
  rfl

theorem position_keys : position es k = (es.map Prod.fst).idxOf? k := by
  rw [position, List.idxOf?, List.findIdx?_map]
  rfl

theorem position_none : position es k = none ↔ k ∉ es.map Prod.fst := by
  rw [position_keys, List.idxOf?_eq_none_iff]

theorem lookup_none (h : position es k = none) : lookup es k = none := by
  rw [position_none] at h
  rw [lookup, Option.map_eq_none_iff, List.find?_eq_none]
  intro e he hk
  exact h (List.mem_map.mpr ⟨e, he, by simpa using hk⟩)

theorem position_some (h : position es k = some i) :
    ∃ v, es[i]? = some (k, v) ∧ lookup es k = some v := by
  induction es generalizing i with
  | nil => cases h
  | cons e es ih =>
    rw [position_cons] at h
    rw [lookup_cons]
    split at h
    case isTrue hk =>
      cases h
      rw [if_pos hk]
      subst hk
      exact ⟨e.2, rfl, rfl⟩
    case isFalse hk =>
      obtain ⟨j, hj, rfl⟩ := Option.map_eq_some_iff.mp h
      rw [if_neg hk]
      exact ih hj

omit [DecidableEq K] in
theorem keys_modify (es : List (K × V)) (i : ℕ) (v : V) :
    (es.modify i fun e => (e.1, v)).map Prod.fst = es.map Prod.fst := by
  induction es generalizing i with
  | nil => simp
  | cons e es ih =>
    cases i with
    | zero => simp
    | succ i => simp [ih]

theorem lookup_modify (h : position es k = some i) (x : K) :
    lookup (es.modify i fun e => (e.1, v)) x = if x = k then some v else lookup es x := by
  induction es generalizing i with
  | nil => cases h
  | cons e es ih =>
    rw [position_cons] at h
    split at h
    case isTrue hk =>
      cases h
      subst hk
      rw [List.modify_zero_cons, lookup_cons, lookup_cons]
      by_cases hx : e.1 = x
      · simp [hx]
      · simp [hx, Ne.symm hx]
    case isFalse hk =>
      obtain ⟨j, hj, rfl⟩ := Option.map_eq_some_iff.mp h
      rw [List.modify_succ_cons, lookup_cons, lookup_cons, ih hj]
      by_cases hx : e.1 = x
      · subst hx
        simp [hk]
      · simp [hx]

theorem position_modify (es : List (K × V)) (i : ℕ) (v : V) (x : K) :
    position (es.modify i fun e => (e.1, v)) x = position es x := by
  rw [position_keys, keys_modify, ← position_keys]

theorem position_append (hk : position es k = none) (v : V) (x : K) :
    position (es ++ [(k, v)]) x = if x = k then some es.length else position es x := by
  induction es with
  | nil => by_cases hx : x = k <;> simp [position, hx, eq_comm]
  | cons e es ih =>
    rw [position_cons] at hk
    split at hk
    case isTrue => cases hk
    case isFalse hne =>
      rw [List.cons_append, position_cons, position_cons, ih (Option.map_eq_none_iff.mp hk)]
      by_cases hx : x = k
      · subst hx
        simp [hne]
      · simp [hx]

/-- The list holds the map. -/
def Holds (es : List (K × V)) (m : OrderedMap K V) : Prop :=
  es.map Prod.fst = m.order ∧ ∀ k, lookup es k = m.value k

theorem Holds.nil : Holds [] (OrderedMap.empty : OrderedMap K V) := ⟨rfl, fun _ => rfl⟩

theorem Holds.distinct (h : Holds es m) : (es.map Prod.fst).Nodup := by
  rw [h.1]
  exact m.distinct

theorem Holds.position (h : Holds es m) (k : K) : position es k = m.order.idxOf? k := by
  rw [position_keys, h.1]

theorem Holds.mem (h : Holds es m) (k : K) :
    k ∈ m.order ↔ (OrderedMaps.position es k).isSome := by
  rw [← h.1, ← not_iff_not, ← position_none]
  simp

theorem Holds.overwrite (h : Holds es m) (hi : OrderedMaps.position es k = some i) (v : V) :
    Holds (es.modify i fun e => (e.1, v)) (m.put k v) := by
  have hk : k ∈ m.order := (h.mem k).mpr (by rw [hi]; rfl)
  constructor
  · rw [keys_modify, h.1]
    exact (if_pos hk).symm
  · intro x
    rw [lookup_modify hi, h.2 x, OrderedMap.put_value]

theorem Holds.append (h : Holds es m) (hk : OrderedMaps.position es k = none) (v : V) :
    Holds (es ++ [(k, v)]) (m.put k v) := by
  have hnew : k ∉ m.order := by rwa [← h.1, ← position_none]
  constructor
  · rw [List.map_append, h.1]
    exact (if_neg hnew).symm
  · intro x
    rw [lookup_append, h.2 x, OrderedMap.put_value]
    by_cases hx : x = k
    · subst hx
      rw [← h.2 x, lookup_none hk, Option.none_or, lookup_cons, if_pos rfl, if_pos rfl]
    · have hone : lookup [(k, v)] x = none := by
        rw [lookup_cons, if_neg (Ne.symm hx)]
        rfl
      rw [hone, Option.or_none, if_neg hx]

theorem keys_eraseIdx (h : position es k = some i) :
    (es.eraseIdx i).map Prod.fst = (es.map Prod.fst).erase k := by
  induction es generalizing i with
  | nil => cases h
  | cons e es ih =>
    rw [position_cons] at h
    split at h
    case isTrue hk =>
      cases h
      subst hk
      simp
    case isFalse hk =>
      obtain ⟨j, hj, rfl⟩ := Option.map_eq_some_iff.mp h
      rw [List.eraseIdx_cons_succ, List.map_cons, ih hj, List.map_cons,
        List.erase_cons_tail (by simpa using hk)]

theorem lookup_eraseIdx (h : position es k = some i) (hx : x ≠ k) :
    lookup (es.eraseIdx i) x = lookup es x := by
  induction es generalizing i with
  | nil => cases h
  | cons e es ih =>
    rw [position_cons] at h
    split at h
    case isTrue hk =>
      cases h
      subst hk
      rw [List.eraseIdx_cons_zero, lookup_cons, if_neg (Ne.symm hx)]
    case isFalse hk =>
      obtain ⟨j, hj, rfl⟩ := Option.map_eq_some_iff.mp h
      rw [List.eraseIdx_cons_succ, lookup_cons, lookup_cons, ih hj]

theorem Holds.remove (h : Holds es m) (hi : OrderedMaps.position es k = some i) :
    Holds (es.eraseIdx i) (m.take k) := by
  have hkeys : (es.eraseIdx i).map Prod.fst = m.order.erase k := by rw [keys_eraseIdx hi, h.1]
  refine ⟨hkeys, fun x => ?_⟩
  rw [OrderedMap.take_value]
  by_cases hx : x = k
  · subst hx
    have hgone : OrderedMaps.position (es.eraseIdx i) x = none := by
      rw [position_none, hkeys]
      exact m.distinct.not_mem_erase
    rw [lookup_none hgone, if_pos rfl]
  · rw [lookup_eraseIdx hi hx, h.2 x, if_neg hx]

/-- Taking a key that is not held changes nothing. -/
theorem Holds.absent (h : Holds es m) (hk : OrderedMaps.position es k = none) :
    Holds es (m.take k) := by
  have hnot : k ∉ m.order := by rwa [← h.1, ← position_none]
  refine ⟨h.1.trans (List.erase_of_not_mem hnot).symm, fun x => ?_⟩
  rw [OrderedMap.take_value]
  by_cases hx : x = k
  · subst hx
    rw [lookup_none hk, if_pos rfl]
  · rw [h.2 x, if_neg hx]

theorem entries_of_distinct (h : (es.map Prod.fst).Nodup) :
    es = (es.map Prod.fst).filterMap fun k => (lookup es k).map (k, ·) := by
  induction es with
  | nil => rfl
  | cons e es ih =>
    rw [List.map_cons, List.nodup_cons] at h
    have hrest : ((es.map Prod.fst).filterMap fun k => (lookup (e::es) k).map (k, ·)) =
        (es.map Prod.fst).filterMap fun k => (lookup es k).map (k, ·) := by
      refine List.filterMap_congr fun k hk => ?_
      have hne : e.1 ≠ k := fun heq => h.1 (heq ▸ hk)
      rw [lookup_cons, if_neg hne]
    have hhead : (lookup (e::es) e.1).map (e.1, ·) = some e := by
      rw [lookup_cons, if_pos rfl]
      rfl
    rw [List.map_cons, @List.filterMap_cons_some _ _ (fun k => (lookup (e::es) k).map (k, ·)) _ _ _
      hhead, hrest, ← ih h.2]

/-- The list is what the map gives when it is iterated. -/
theorem Holds.entries (h : Holds es m) : es = m.entries := by
  have hes := entries_of_distinct h.distinct
  rw [h.1] at hes
  refine hes.trans (List.filterMap_congr fun k _ => ?_)
  rw [h.2 k]

end maps

end Pyrust.OrderedMaps
