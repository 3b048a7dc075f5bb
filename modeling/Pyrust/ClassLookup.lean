import Mathlib.Algebra.Order.BigOperators.Group.List
import Mathlib.Algebra.Order.Ring.Nat
import Mathlib.Data.Fintype.Card
import Mathlib.Order.WellFounded
import Pyrust.C3Merge

/-!
# Class attribute lookup

A class records an optional first base and further bases; a class that records
none has `object` as its base. The linearization merges the linearizations of the
recorded bases and puts `object` off as long as another head can be taken. The
attribute lookups walk a single chain of first bases by themselves.
-/

set_option autoImplicit false

namespace Pyrust.ClassLookup

open C3Merge

/-- The classes of a program: what they record, and that no class is its own ancestor. -/
structure ClassGraph (Cls Name Value : Type*) where
  base : Cls → Option Cls
  extraBases : Cls → List Cls
  attrs : Cls → Name → Option Value
  object : Cls
  /-- `is_primitive_class`: the class has an entry in the constructor table. -/
  isPrimitive : Cls → Bool
  object_base : base object = none
  object_extraBases : extraBases object = []
  primitive_base : ∀ c, isPrimitive c = true → (base c).isSome
  acyclic : WellFounded fun b c => b ∈ (base c).toList ++ extraBases c

namespace ClassGraph

variable {Cls Name Value : Type*} [DecidableEq Cls] (g : ClassGraph Cls Name Value)

def allBases (c : Cls) : List Cls := (g.base c).toList ++ g.extraBases c

/-- The bases of a class in the language. -/
def bases (c : Cls) : List Cls :=
  if g.allBases c = [] ∧ c ≠ g.object then [g.object] else g.allBases c

omit [DecidableEq Cls] in
theorem allBases_object : g.allBases g.object = [] := by
  simp [allBases, g.object_base, g.object_extraBases]

theorem bases_object : g.bases g.object = [] := by simp [bases, allBases_object]

theorem bases_of_allBases {c : Cls} (h : g.allBases c ≠ []) : g.bases c = g.allBases c := by
  simp [bases, h]

theorem bases_of_none {c : Cls} (h : g.allBases c = []) (hc : c ≠ g.object) :
    g.bases c = [g.object] := by
  simp [bases, h, hc]

theorem bases_ne_nil {c : Cls} (hc : c ≠ g.object) : g.bases c ≠ [] := by
  by_cases h : g.allBases c = []
  · simp [g.bases_of_none h hc]
  · rw [g.bases_of_allBases h]
    exact h

/-- The implicit base `object` closes no cycle. -/
theorem bases_wellFounded : WellFounded fun b c => b ∈ g.bases c := by
  have hobject : Acc (fun b c => b ∈ g.bases c) g.object :=
    ⟨_, fun b hb => by simp [bases_object] at hb⟩
  constructor
  intro c
  induction c using g.acyclic.induction with
  | _ c ih =>
    constructor
    intro b hb
    by_cases h : g.allBases c = []
    · by_cases hc : c = g.object
      · simp [hc, bases_object] at hb
      · rw [g.bases_of_none h hc, List.mem_singleton] at hb
        rw [hb]
        exact hobject
    · rw [g.bases_of_allBases h] at hb
      exact ih b hb

section c3

/-- The head of a list, when no list has it in its tail. -/
def freeHead (lists : List (List Cls)) (list : List Cls) : Option Cls :=
  list.head?.filter fun head => !lists.any fun other => other.tail.contains head

/-- The head that is merged next: the first free head that is not `object`, or else a free head
`object`, or else the first head. -/
def chooseHead (object : Cls) (lists : List (List Cls)) : Option Cls :=
  (lists.findSome? fun list => (freeHead lists list).filter (· ≠ object)).or <|
    (lists.findSome? fun list => (freeHead lists list).filter (· = object)).or <|
      lists.head?.bind List.head?

theorem chooseHead_mem {object x : Cls} {lists : List (List Cls)}
    (h : chooseHead object lists = some x) : ∃ list ∈ lists, list.head? = some x := by
  unfold chooseHead at h
  rcases Option.or_eq_some_iff.mp h with h | ⟨-, h⟩
  · obtain ⟨list, hl, hx⟩ := List.exists_of_findSome?_eq_some h
    obtain ⟨hx, -⟩ := Option.filter_eq_some_iff.mp hx
    exact ⟨list, hl, (Option.filter_eq_some_iff.mp hx).1⟩
  · rcases Option.or_eq_some_iff.mp h with h | ⟨-, h⟩
    · obtain ⟨list, hl, hx⟩ := List.exists_of_findSome?_eq_some h
      obtain ⟨hx, -⟩ := Option.filter_eq_some_iff.mp hx
      exact ⟨list, hl, (Option.filter_eq_some_iff.mp hx).1⟩
    · obtain ⟨list, hl, hx⟩ := Option.bind_eq_some_iff.mp h
      exact ⟨list, List.mem_of_head? hl, hx⟩

theorem dropHead_length {x : Cls} {list : List Cls} (h : list.head? = some x) :
    (dropHead x list).length < list.length := by
  cases list with
  | nil => simp at h
  | cons y list => simp_all [dropHead]

theorem dropHead_total {x : Cls} {lists : List (List Cls)}
    (h : ∃ list ∈ lists, list.head? = some x) :
    ((lists.map (dropHead x)).map List.length).sum < (lists.map List.length).sum := by
  have hle (list : List Cls) : (dropHead x list).length ≤ list.length :=
    (dropHead_sublist x list).length_le
  obtain ⟨list, hl, hx⟩ := h
  rw [List.map_map]
  exact List.sum_lt_sum _ _ (fun l _ => hle l) ⟨list, hl, dropHead_length hx⟩

def retain (lists : List (List Cls)) : List (List Cls) := lists.filter (· ≠ [])

omit [DecidableEq Cls] in
theorem retain_sublist (lists : List (List Cls)) : (retain lists).Sublist lists :=
  List.filter_sublist

/-- The merge loop. -/
def mergeLoop (object : Cls) (lists : List (List Cls)) : List Cls :=
  match h : chooseHead object (retain lists) with
  | none => []
  | some chosen => chosen::mergeLoop object ((retain lists).map (dropHead chosen))
termination_by (lists.map List.length).sum
decreasing_by
  refine (dropHead_total (chooseHead_mem h)).trans_le ?_
  exact List.Sublist.sum_le_sum ((retain_sublist lists).map List.length) (by simp)

def linearize (c : Cls) : List Cls :=
  if g.allBases c = [] then [c]
  else
    c::mergeLoop g.object
      ((g.allBases c).attach.map (fun b => linearize b.1) ++ [g.allBases c])
termination_by g.acyclic.wrap c
decreasing_by exact b.2

def c3LinearizeClasses (c : Cls) : List Cls :=
  let mro := g.linearize c
  if g.object ∈ mro then mro else mro ++ [g.object]

end c3

theorem base_mem {b c : Cls} (h : g.base c = some b) : b ∈ g.bases c := by
  rw [g.bases_of_allBases (by simp [allBases, h])]
  simp [allBases, h]

theorem object_mem {c : Cls} (h : g.base c = none) (he : g.extraBases c = [])
    (hc : c ≠ g.object) : g.object ∈ g.bases c := by
  rw [g.bases_of_none (by simp [allBases, h, he]) hc]
  simp

def lookupClassAttr (name : Name) (c : Cls) : Option Value :=
  match g.attrs c name with
  | some v => some v
  | none =>
    if he : g.extraBases c = [] then
      match hb : g.base c with
      | some b => lookupClassAttr name b
      | none =>
        if hc : g.isPrimitive c = false ∧ c ≠ g.object then lookupClassAttr name g.object
        else none
    else (g.c3LinearizeClasses c).findSome? fun d => g.attrs d name
termination_by g.bases_wellFounded.wrap c
decreasing_by
  · exact g.base_mem hb
  · exact g.object_mem hb he hc.2

def lookupClassAttrOwner (name : Name) (c : Cls) : Option Cls :=
  if (g.attrs c name).isSome then some c
  else if he : g.extraBases c = [] then
    match hb : g.base c with
    | some b => lookupClassAttrOwner name b
    | none =>
      if hc : g.isPrimitive c = false ∧ c ≠ g.object then lookupClassAttrOwner name g.object
      else none
  else (g.c3LinearizeClasses c).find? fun owner => (g.attrs owner name).isSome
termination_by g.bases_wellFounded.wrap c
decreasing_by
  · exact g.base_mem hb
  · exact g.object_mem hb he hc.2

def classIsSubclassOf (c expected : Cls) : Bool :=
  c = expected || expected = g.object ||
    (g.allBases c).attach.any fun b => classIsSubclassOf b.1 expected
termination_by g.acyclic.wrap c
decreasing_by exact b.2

end ClassGraph

end Pyrust.ClassLookup
