import Mathlib
import Pyrust.Bytecode
import Pyrust.HeapOrder

/-!
# The most common entries of a counter

Three ways to the first entries by count, all with the earlier of two equal counts
first: a scan for the largest, a heap of the entries to be kept with the worst on top,
and a stable sort.
-/

set_option autoImplicit false

namespace Pyrust.CounterSelection

open Bytecode HeapOrder
open scoped List

/-! ## The selection -/

/-- What is raised; `outOfRange` is an index out of range, which the language traps. -/
inductive PyError (E : Type) where
  | raised (e : E)
  | named (className message : String)
  | runtime (message : String)
  | outOfRange

/-- The protocols of the interpreter that a selection uses. -/
structure Interp (V E : Type) where
  isInstance : V → Bool
  compareValues : V → V → Except (PyError E) Ordering
  evalBinary : V → BinaryOp → V → Except (PyError E) V
  truthyValue : V → Except (PyError E) Bool
  richcmpOrder : V → V → Except (PyError E) Ordering

/-- An entry with its place in the order of insertion. -/
structure Entry (K V : Type) where
  key : K
  count : V
  order : ℕ

section model
variable {K V E F : Type} (interp : Interp V E)

def usizeMax : ℕ := 2^64-1

def saturatingAdd (a b : ℕ) : ℕ := min (a+b) usizeMax

def saturatingMul (a b : ℕ) : ℕ := min (a*b) usizeMax

def heapRatio : ℕ := 4

/-- The kinds of the number asked for, with the backing of a subclass taken. Of a float it matters
whether it is `1.0` and whether it reaches the number of entries. -/
inductive Kind (F : Type) where
  | none
  | int (value : ℤ)
  | bool (value : Bool)
  | bigInt (value : ℤ)
  | float (value : F)
  | other (typeName : String)

def resolveLimit (isOne : F → Bool) (reaches : F → ℕ → Bool) (n : Option (Kind F)) (len : ℕ) :
    Except (PyError E) (Option ℕ) :=
  match n with
  | none => .ok none
  | some .none => .ok none
  | some (.int value) => if value ≤ 0 then .ok (some 0) else .ok (some value.toNat)
  | some (.bool value) => .ok (some value.toNat)
  | some (.bigInt value) =>
    if value ≤ 0 then .ok (some 0)
    else .ok (some (if value.toNat ≤ usizeMax then value.toNat else usizeMax))
  | some (.float value) =>
    if isOne value then .ok (some 1)
    else if reaches value len then .error (.named "TypeError"
      "slice indices must be integers or None or have an __index__ method")
    else .error (.named "TypeError" "'float' object cannot be interpreted as an integer")
  | some (.other typeName) => .error (.named "TypeError"
      ("'>=' not supported between instances of '" ++ typeName ++ "' and 'int'"))

def countLess (left right : V) : Except (PyError E) Bool :=
  if ¬interp.isInstance left ∧ ¬interp.isInstance right then do
    let order ← interp.compareValues left right
    pure order.isLT
  else do
    let compared ← interp.evalBinary left .lt right
    interp.truthyValue compared

def heapEntryLess (left right : Entry K V) : Except (PyError E) Bool := do
  let equal ← interp.evalBinary left.count .eq right.count
  if ← interp.truthyValue equal then pure (right.order < left.order)
  else countLess interp left.count right.count

/-- `heap_entry_less` of the entries at two places. -/
def lessAt (heap : List (Entry K V)) (i j : ℕ) : Except (PyError E) Bool :=
  match heap[i]?, heap[j]? with
  | some left, some right => heapEntryLess interp left right
  | _, _ => .error .outOfRange

def heapSiftUp : ℕ → List (Entry K V) → ℕ → Except (PyError E) (List (Entry K V))
  | 0, heap, _ => .ok heap
  | fuel+1, heap, child =>
    if 0 < child then do
      let parent := (child-1)/2
      if ← lessAt interp heap child parent then heapSiftUp fuel (swap heap child parent) parent
      else pure heap
    else pure heap

/-- The child that ranks lower. -/
def lowerChild (heap : List (Entry K V)) (left : ℕ) : Except (PyError E) ℕ :=
  let right := left+1
  if right < heap.length then do
    if ← lessAt interp heap right left then pure right else pure left
  else pure left

def heapSiftDown : ℕ → List (Entry K V) → ℕ → Except (PyError E) (List (Entry K V))
  | 0, heap, _ => .ok heap
  | fuel+1, heap, parent =>
    let left := saturatingAdd (saturatingMul parent 2) 1
    if heap.length ≤ left then pure heap
    else do
      let child ← lowerChild interp heap left
      if ← lessAt interp heap child parent then heapSiftDown fuel (swap heap parent child) child
      else pure heap

def heapPush (heap : List (Entry K V)) (entry : Entry K V) :
    Except (PyError E) (List (Entry K V)) :=
  let heap := heap ++ [entry]
  let child := heap.length-1
  heapSiftUp interp child heap child

def heapPop (heap : List (Entry K V)) : Except (PyError E) (Entry K V × List (Entry K V)) :=
  match heap.getLast? with
  | none => .error (.runtime "internal: empty Counter heap")
  | some last =>
    match heap.dropLast with
    | [] => .ok (last, [])
    | smallest::rest => do
      let heap ← heapSiftDown interp (rest.length+1) (last::rest) 0
      pure (smallest, heap)

/-- The largest entry, the first of those with an equal count. -/
def selectOne : List (Entry K V) → Except (PyError E) (List (Entry K V))
  | [] => .ok []
  | best::entries => do
    let best ← entries.foldlM (fun best candidate => do
      let compared ← interp.evalBinary candidate.count .gt best.count
      if ← interp.truthyValue compared then pure candidate else pure best) best
    pure [best]

/-- An entry takes the place of the worst one kept when its count is larger. -/
def admitEntry (heap : List (Entry K V)) (entry : Entry K V) :
    Except (PyError E) (List (Entry K V)) :=
  match heap with
  | [] => .error .outOfRange
  | root::rest => do
    if ← countLess interp root.count entry.count then
      heapSiftDown interp (rest.length+1) (entry::rest) 0
    else pure heap

/-- The entries of the heap, the worst first. -/
def popAll : ℕ → List (Entry K V) → Except (PyError E) (List (Entry K V))
  | 0, _ => .ok []
  | fuel+1, heap =>
    if heap = [] then pure []
    else do
      let (entry, heap) ← heapPop interp heap
      let selected ← popAll fuel heap
      pure (entry::selected)

def selectBounded (entries : List (Entry K V)) (limit : ℕ) :
    Except (PyError E) (List (Entry K V)) := do
  let heap ← (entries.take limit).foldlM (heapPush interp) []
  let heap ← (entries.drop limit).foldlM (admitEntry interp) heap
  let selected ← popAll interp heap.length heap
  pure selected.reverse

section sort
variable {α σ : Type} (cmp : α → α → σ → Ordering × σ)

/-- An element goes before the first that it is not greater than. -/
def insertBy (x : α) : List α → σ → List α × σ
  | [], s => ([x], s)
  | y::ys, s =>
    if (cmp x y s).1 = .gt then
      let rest := insertBy x ys (cmp x y s).2
      (y::rest.1, rest.2)
    else (x::y::ys, (cmp x y s).2)

/-- The stable sort of the standard library, with a comparison that keeps a state. Which elements
it compares is not specified, only the order of the result. -/
def sortBy : List α → σ → List α × σ
  | [], s => ([], s)
  | x::xs, s => insertBy cmp x (sortBy xs s).1 (sortBy xs s).2

end sort

/-- The comparison of the sort: after an error all entries count as equal. -/
def compareDesc (left right : Entry K V) (comparisonError : Option (PyError E)) :
    Ordering × Option (PyError E) :=
  match comparisonError with
  | some error => (.eq, some error)
  | none =>
    match interp.richcmpOrder right.count left.count with
    | .ok ordering => (ordering, none)
    | .error error => (.eq, some error)

def sortAllDesc (entries : List (Entry K V)) : Except (PyError E) (List (Entry K V)) :=
  match sortBy (compareDesc interp) entries none with
  | (_, some error) => .error error
  | (entries, none) => .ok entries

/-- The entries of the pairs, numbered. -/
def toEntries (pairs : List (K × V)) : List (Entry K V) :=
  pairs.zipIdx.map fun x => ⟨x.1.1, x.1.2, x.2⟩

def Entry.pair (entry : Entry K V) : K × V := (entry.key, entry.count)

def sortAndTruncate (entries : List (Entry K V)) (limit : Option ℕ) :
    Except (PyError E) (List (Entry K V)) := do
  let entries ← sortAllDesc interp entries
  pure (entries.take (min (limit.getD entries.length) entries.length))

/-- The way is chosen by the number of entries wanted. -/
def selectLimit (entries : List (Entry K V)) :
    Option ℕ → Except (PyError E) (List (Entry K V))
  | some 0 => .ok []
  | some 1 => selectOne interp entries
  | some limit =>
    if limit < entries.length ∧ saturatingMul limit heapRatio ≤ entries.length then
      selectBounded interp entries limit
    else sortAndTruncate interp entries (some limit)
  | none => sortAndTruncate interp entries none

def select (isOne : F → Bool) (reaches : F → ℕ → Bool) (pairs : List (K × V))
    (n : Option (Kind F)) : Except (PyError E) (List (K × V)) := do
  let limit ← resolveLimit isOne reaches n pairs.length
  let selected ← selectLimit interp (toEntries pairs) limit
  pure (selected.map Entry.pair)

end model

/-! ## Rank -/

section rank
variable {K V E L : Type} [LinearOrder L] {interp : Interp V E} {key : V → L} {counts : List V}

/-- Some counts are totally ordered: all comparisons of two of them succeed and say how their keys
compare. -/
structure TotallyOrdered (interp : Interp V E) (key : V → L) (counts : List V) : Prop where
  compare : ∀ a ∈ counts, ∀ b ∈ counts, interp.isInstance a = false → interp.isInstance b = false →
    interp.compareValues a b = .ok (cmp (key a) (key b))
  less : ∀ a ∈ counts, ∀ b ∈ counts, ∃ v, interp.evalBinary a .lt b = .ok v ∧
    interp.truthyValue v = .ok (decide (key a < key b))
  equal : ∀ a ∈ counts, ∀ b ∈ counts, ∃ v, interp.evalBinary a .eq b = .ok v ∧
    interp.truthyValue v = .ok (decide (key a = key b))
  greater : ∀ a ∈ counts, ∀ b ∈ counts, ∃ v, interp.evalBinary a .gt b = .ok v ∧
    interp.truthyValue v = .ok (decide (key b < key a))
  order : ∀ a ∈ counts, ∀ b ∈ counts, interp.richcmpOrder a b = .ok (cmp (key a) (key b))

/-- An entry ranks by its count, and among equal counts the later one ranks lower. -/
def rank (key : V → L) (e : Entry K V) : L ×ₗ ℕᵒᵈ :=
  toLex (key e.count, OrderDual.toDual e.order)

variable {a b : Entry K V}

theorem rank_lt : rank key a < rank key b ↔
    key a.count < key b.count ∨ key a.count = key b.count ∧ b.order < a.order := by
  rw [rank, rank, Prod.Lex.toLex_lt_toLex]
  rfl

omit [LinearOrder L] in
theorem rank_inj (h : rank key a = rank key b) : a.order = b.order :=
  congrArg (fun r : L ×ₗ ℕᵒᵈ => OrderDual.ofDual (ofLex r).2) h

/-- A later entry ranks above an earlier one when its count is larger. -/
theorem rank_later (h : a.order < b.order) :
    rank key a < rank key b ↔ key a.count < key b.count := by
  rw [rank_lt]
  constructor
  · rintro (h' | ⟨-, h'⟩)
    · exact h'
    · exact absurd h h'.asymm
  · exact .inl

variable (hord : TotallyOrdered interp key counts)
include hord

theorem countLess_eq {x y : V} (hx : x ∈ counts) (hy : y ∈ counts) :
    countLess interp x y = .ok (decide (key x < key y)) := by
  rw [countLess]
  split
  · rename_i h
    rw [hord.compare x hx y hy (by simpa using h.1) (by simpa using h.2)]
    show Except.ok (cmp (key x) (key y)).isLT = _
    rw [Except.ok.injEq, cmp, cmpUsing]
    by_cases hlt : key x < key y
    · simp [hlt]
    · by_cases hgt : key y < key x <;> simp [hlt, hgt]
  · obtain ⟨v, hv, htruth⟩ := hord.less x hx y hy
    rw [hv]
    exact htruth

/-- The comparison of the heap is that of the ranks. -/
theorem heapEntryLess_eq (ha : a.count ∈ counts) (hb : b.count ∈ counts) :
    heapEntryLess interp a b = .ok (decide (rank key a < rank key b)) := by
  obtain ⟨v, hv, htruth⟩ := hord.equal a.count ha b.count hb
  have hbind : heapEntryLess interp a b =
      if key a.count = key b.count then .ok (decide (b.order < a.order))
      else countLess interp a.count b.count := by
    rw [heapEntryLess, hv]
    show (interp.truthyValue v >>= _) = _
    rw [htruth]
    by_cases h : key a.count = key b.count
    · rw [if_pos h, decide_eq_true h]
      rfl
    · rw [if_neg h, decide_eq_false h]
      rfl
  rw [hbind]
  by_cases h : key a.count = key b.count
  · rw [if_pos h]
    simp [rank_lt, h]
  · rw [if_neg h, countLess_eq hord ha hb]
    simp [rank_lt, h]

end rank

/-! ## The heap -/

section heap
variable {K V E L : Type} [LinearOrder L] {interp : Interp V E} {key : V → L} {counts : List V}
variable {heap : List (Entry K V)} {i j : ℕ} {a b : Entry K V}

/-- The counts of all entries are among the ordered ones. -/
def Counts (counts : List V) (heap : List (Entry K V)) : Prop := ∀ a ∈ heap, a.count ∈ counts

theorem Counts.perm {heap' : List (Entry K V)} (h : Counts counts heap) (hp : heap' ~ heap) :
    Counts counts heap' := fun a ha => h a (hp.mem_iff.mp ha)

variable (hord : TotallyOrdered interp key counts) (hc : Counts counts heap)
include hord hc

theorem lessAt_eq (ha : heap[i]? = some a) (hb : heap[j]? = some b) :
    lessAt interp heap i j = .ok (decide (rank key a < rank key b)) := by
  rw [lessAt, ha, hb]
  exact heapEntryLess_eq hord (hc a (List.mem_of_getElem? ha)) (hc b (List.mem_of_getElem? hb))

/-- A sift up restores the order. -/
theorem heapSiftUp_spec {fuel child : ℕ} (hup : UpOrder (rank key) heap child)
    (hlt : child < heap.length) (hfuel : child ≤ fuel) :
    ∃ heap', heapSiftUp interp fuel heap child = .ok heap' ∧ heap' ~ heap ∧
      Ordered (rank key) heap' := by
  induction fuel generalizing heap child with
  | zero => exact ⟨heap, rfl, .refl _, hup.finish fun h => by omega⟩
  | succ fuel ih =>
    rw [heapSiftUp]
    by_cases hpos : 0 < child
    · have ha : heap[child]? = some heap[child] := List.getElem?_eq_getElem hlt
      have hb : heap[(child-1)/2]? = some heap[(child-1)/2] := List.getElem?_eq_getElem (by omega)
      have hperm := swap_perm ha hb
      simp only [hpos, if_true, lessAt_eq hord hc ha hb]
      by_cases hless : rank key heap[child] < rank key heap[(child-1)/2]
      · obtain ⟨heap', heq, hp, ho⟩ := ih (hc.perm hperm) (hup.move hpos ha hb hless.le)
          (by rw [hperm.length_eq]; omega) (by omega)
        refine ⟨heap', ?_, hp.trans hperm, ho⟩
        rw [← heq, decide_eq_true hless]
        rfl
      · refine ⟨heap, ?_, .refl _, hup.finish fun _ a b ha' hb' => ?_⟩
        · rw [decide_eq_false hless]
          rfl
        · rw [← Option.some.inj (ha.symm.trans ha'), ← Option.some.inj (hb.symm.trans hb')]
          exact not_lt.mp hless
    · exact ⟨heap, by rw [if_neg hpos]; rfl, .refl _, hup.finish fun h => absurd h hpos⟩

/-- The lower of the children of a place. -/
theorem lowerChild_spec {parent : ℕ} (hlt : 2*parent+1 < heap.length) :
    ∃ c x, lowerChild interp heap (2*parent+1) = .ok c ∧ 0 < c ∧ (c-1)/2 = parent ∧
      heap[c]? = some x ∧ ∀ i a, 0 < i → (i-1)/2 = parent → heap[i]? = some a →
        rank key x ≤ rank key a := by
  have hleft : heap[2*parent+1]? = some heap[2*parent+1] := List.getElem?_eq_getElem hlt
  have hplaces : ∀ i, 0 < i → (i-1)/2 = parent → i = 2*parent+1 ∨ i = 2*parent+2 := by omega
  rw [lowerChild]
  by_cases hright : 2*parent+1+1 < heap.length
  · have hget : heap[2*parent+1+1]? = some heap[2*parent+1+1] := List.getElem?_eq_getElem hright
    simp only [hright, if_true, lessAt_eq hord hc hget hleft]
    by_cases hless : rank key heap[2*parent+1+1] < rank key heap[2*parent+1]
    · refine ⟨2*parent+1+1, _, ?_, by omega, by omega, hget, fun i a hi hp ha => ?_⟩
      · rw [decide_eq_true hless]
        rfl
      · rcases hplaces i hi hp with rfl | rfl
        · rw [← Option.some.inj (hleft.symm.trans ha)]
          exact hless.le
        · rw [← Option.some.inj (hget.symm.trans ha)]
    · refine ⟨2*parent+1, _, ?_, by omega, by omega, hleft, fun i a hi hp ha => ?_⟩
      · rw [decide_eq_false hless]
        rfl
      · rcases hplaces i hi hp with rfl | rfl
        · rw [← Option.some.inj (hleft.symm.trans ha)]
        · rw [← Option.some.inj (hget.symm.trans ha)]
          exact not_lt.mp hless
  · refine ⟨2*parent+1, _, by rw [if_neg hright]; rfl, by omega, by omega, hleft,
      fun i a hi hp ha => ?_⟩
    rcases hplaces i hi hp with rfl | rfl
    · rw [← Option.some.inj (hleft.symm.trans ha)]
    · have := (List.getElem?_eq_some_iff.mp ha).1
      omega

/-- A sift down restores the order. -/
theorem heapSiftDown_spec {fuel parent : ℕ} (hdown : DownOrder (rank key) heap parent)
    (hmax : heap.length ≤ usizeMax) (hlt : parent < heap.length)
    (hfuel : heap.length ≤ parent+fuel) :
    ∃ heap', heapSiftDown interp fuel heap parent = .ok heap' ∧ heap' ~ heap ∧
      Ordered (rank key) heap' := by
  induction fuel generalizing heap parent with
  | zero => exact absurd hlt (by omega)
  | succ fuel ih =>
    rw [heapSiftDown]
    have hleft : saturatingAdd (saturatingMul parent 2) 1 = min (2*parent+1) usizeMax := by
      rw [saturatingAdd, saturatingMul]
      omega
    by_cases hend : heap.length ≤ saturatingAdd (saturatingMul parent 2) 1
    · refine ⟨heap, by simp only [hend, if_true]; rfl, .refl _,
        hdown.finish fun i a b hi hp ha hb => ?_⟩
      have := (List.getElem?_eq_some_iff.mp ha).1
      omega
    · have hchild : saturatingAdd (saturatingMul parent 2) 1 = 2*parent+1 := by omega
      obtain ⟨c, x, hlower, hcpos, hcp, hx, hmin⟩ :=
        @lowerChild_spec _ _ _ _ _ _ _ _ _ hord hc parent (by omega)
      have hy : heap[parent]? = some heap[parent] := List.getElem?_eq_getElem hlt
      have hperm := swap_perm hy hx
      rw [hchild] at hend ⊢
      simp only [hend, if_false, hlower]
      show ∃ heap', (lessAt interp heap c parent >>= _) = _ ∧ _
      rw [lessAt_eq hord hc hx hy]
      by_cases hless : rank key x < rank key heap[parent]
      · have hclt := (List.getElem?_eq_some_iff.mp hx).1
        obtain ⟨heap', heq, hp, ho⟩ := ih (hc.perm hperm) (hdown.move hcpos hcp hx hy hless.le hmin)
          (by rwa [hperm.length_eq]) (by rw [hperm.length_eq]; exact hclt)
          (by rw [hperm.length_eq]; omega)
        refine ⟨heap', ?_, hp.trans hperm, ho⟩
        rw [← heq, decide_eq_true hless]
        rfl
      · refine ⟨heap, by rw [decide_eq_false hless]; rfl, .refl _,
          hdown.finish fun i a b hi hp ha hb => ?_⟩
        rw [← Option.some.inj (hy.symm.trans hb)]
        exact (not_lt.mp hless).trans (hmin i a hi hp ha)

theorem heapPush_spec (ho : Ordered (rank key) heap) {entry : Entry K V}
    (he : entry.count ∈ counts) :
    ∃ heap', heapPush interp heap entry = .ok heap' ∧ heap' ~ heap ++ [entry] ∧
      Ordered (rank key) heap' := by
  have hall : Counts counts (heap ++ [entry]) := fun a ha => by
    rcases List.mem_append.mp ha with ha | ha
    · exact hc a ha
    · rw [List.mem_singleton.mp ha]
      exact he
  have hlen : (heap ++ [entry]).length-1 = heap.length := by simp
  rw [heapPush, hlen]
  exact heapSiftUp_spec hord hall (ho.push entry) (by simp) le_rfl

/-- The worst entry is taken, and the others stay in order. -/
theorem heapPop_spec (ho : Ordered (rank key) heap) (hmax : heap.length ≤ usizeMax)
    (hne : heap ≠ []) :
    ∃ entry heap', heapPop interp heap = .ok (entry, heap') ∧ entry::heap' ~ heap ∧
      Ordered (rank key) heap' ∧ ∀ a ∈ heap', rank key entry ≤ rank key a := by
  obtain ⟨front, last, rfl⟩ : ∃ front last, heap = front ++ [last] :=
    ⟨heap.dropLast, heap.getLast hne, (List.dropLast_append_getLast hne).symm⟩
  have hdrop := ho.dropLast
  rw [List.dropLast_concat] at hdrop
  rw [heapPop, List.getLast?_concat, List.dropLast_concat]
  cases front with
  | nil => exact ⟨last, [], rfl, .refl _, hdrop, fun a ha => by cases ha⟩
  | cons smallest rest =>
    have hcounts : Counts counts (last::rest) := fun a ha => by
      apply hc
      rcases List.mem_cons.mp ha with rfl | ha <;> simp [*]
    obtain ⟨heap', heq, hp, ho'⟩ :=
      @heapSiftDown_spec _ _ _ _ _ _ _ _ _ hord hcounts (rest.length+1) 0 (hdrop.setRoot last)
        (by simp at hmax ⊢; omega) (by simp) (by simp)
    refine ⟨smallest, heap', ?_, ?_, ho', fun a ha => ?_⟩
    · show (heapSiftDown interp (rest.length+1) (last::rest) 0 >>= _) = _
      rw [heq]
      rfl
    · rw [List.cons_append]
      exact ((hp.trans (List.perm_append_singleton last rest).symm)).cons smallest
    · have hmem : a ∈ smallest::rest ++ [last] := by
        rcases List.mem_cons.mp (hp.mem_iff.mp ha) with rfl | ha <;> simp [*]
      obtain ⟨i, hi⟩ := List.mem_iff_getElem?.mp hmem
      exact ho.root_le rfl hi

omit hc in
/-- All entries are taken, the worst first. -/
theorem popAll_spec (fuel : ℕ) (hc : Counts counts heap) (ho : Ordered (rank key) heap)
    (hmax : heap.length ≤ usizeMax) (hfuel : heap.length ≤ fuel) :
    ∃ out, popAll interp fuel heap = .ok out ∧ out ~ heap ∧
      out.Pairwise fun a b => rank key a ≤ rank key b := by
  induction fuel generalizing heap with
  | zero =>
    obtain rfl := List.eq_nil_of_length_eq_zero (Nat.le_zero.mp hfuel)
    exact ⟨[], rfl, .refl _, .nil⟩
  | succ fuel ih =>
    rw [popAll]
    by_cases hnil : heap = []
    · exact ⟨[], by rw [if_pos hnil]; rfl, by rw [hnil], .nil⟩
    · obtain ⟨entry, heap', heq, hp, ho', hmin⟩ := heapPop_spec hord hc ho hmax hnil
      have hlen := hp.length_eq
      rw [List.length_cons] at hlen
      obtain ⟨out, hout, hpout, hsorted⟩ := ih (fun a ha => hc a (hp.mem_iff.mp (by simp [ha])))
        ho' (by omega) (by omega)
      refine ⟨entry::out, ?_, (hpout.cons entry).trans hp,
        List.pairwise_cons.mpr ⟨fun a ha => hmin a (hpout.mem_iff.mp ha), hsorted⟩⟩
      rw [if_neg hnil, heq]
      show (popAll interp fuel heap' >>= _) = _
      rw [hout]
      rfl

end heap

/-! ## The three ways -/

section ways
variable {K V E L : Type} [LinearOrder L] {interp : Interp V E} {key : V → L} {counts : List V}
variable {entries seen heap dropped : List (Entry K V)} {entry : Entry K V}

/-- The entries are numbered in their order. -/
def Numbered (entries : List (Entry K V)) : Prop := entries.Pairwise fun a b => a.order < b.order

/-- Of the entries seen the heap keeps those that rank above the ones dropped. -/
structure Kept (key : V → L) (seen heap dropped : List (Entry K V)) : Prop where
  perm : heap ++ dropped ~ seen
  ordered : Ordered (rank key) heap
  top : ∀ d ∈ dropped, ∀ a ∈ heap, rank key d < rank key a

omit [LinearOrder L] in
theorem Numbered.ranks (h : Numbered entries) : (entries.map (rank key)).Nodup :=
  List.pairwise_map.mpr (h.imp fun hab heq => hab.ne (rank_inj heq))

variable (hord : TotallyOrdered interp key counts)
include hord

theorem pushAll_spec (hc : Counts counts (heap ++ entries)) (ho : Ordered (rank key) heap) :
    ∃ heap', entries.foldlM (heapPush interp) heap = .ok heap' ∧ heap' ~ heap ++ entries ∧
      Ordered (rank key) heap' := by
  induction entries generalizing heap with
  | nil => exact ⟨heap, rfl, by rw [List.append_nil], ho⟩
  | cons entry entries ih =>
    obtain ⟨heap', heq, hp, ho'⟩ := heapPush_spec hord (fun a ha => hc a (by simp [ha])) ho
      (hc entry (by simp))
    have hmore : heap' ++ entries ~ heap ++ entry::entries := by
      simpa using hp.append_right entries
    obtain ⟨out, hout, hpout, hoout⟩ := ih (hc.perm hmore) ho'
    refine ⟨out, ?_, hpout.trans hmore, hoout⟩
    rw [List.foldlM_cons, heq]
    exact hout

theorem admit_spec (hk : Kept key seen heap dropped) (hne : heap ≠ [])
    (hmax : heap.length ≤ usizeMax) (hc : Counts counts (seen ++ [entry]))
    (hnum : Numbered (seen ++ [entry])) :
    ∃ heap' dropped', admitEntry interp heap entry = .ok heap' ∧
      Kept key (seen ++ [entry]) heap' dropped' ∧ heap'.length = heap.length := by
  obtain ⟨root, rest, rfl⟩ := List.exists_cons_of_ne_nil hne
  obtain ⟨hseenNum, -, hlast⟩ := List.pairwise_append.mp hnum
  have hseen : ∀ a ∈ root::rest, a ∈ seen := fun a ha =>
    hk.perm.mem_iff.mp (List.mem_append_left _ ha)
  have hroot := hseen root List.mem_cons_self
  have hlater := @rank_later _ _ _ _ key _ _ (hlast root hroot entry List.mem_cons_self)
  have hmin : ∀ a ∈ rest, rank key root < rank key a := fun a ha => by
    have hnodup := (hk.perm.map (rank key)).nodup_iff.mpr (Numbered.ranks hseenNum)
    rw [List.map_append, List.map_cons, List.cons_append, List.nodup_cons] at hnodup
    obtain ⟨i, hi⟩ := List.mem_iff_getElem?.mp (List.mem_cons_of_mem root ha)
    refine lt_of_le_of_ne (hk.ordered.root_le rfl hi) fun heq => hnodup.1 ?_
    exact List.mem_append_left _ (List.mem_map.mpr ⟨a, ha, heq.symm⟩)
  rw [admitEntry, countLess_eq hord (hc root (by simp [hroot])) (hc entry (by simp))]
  by_cases hless : key root.count < key entry.count
  · have hcounts : Counts counts (entry::rest) := fun a ha => by
      rcases List.mem_cons.mp ha with rfl | ha
      · exact hc a (by simp)
      · exact hc a (by simp [hseen a (List.mem_cons_of_mem _ ha)])
    obtain ⟨heap', heq, hp, ho⟩ :=
      @heapSiftDown_spec _ _ _ _ _ _ _ _ _ hord hcounts (rest.length+1) 0 (hk.ordered.setRoot entry)
        (by simpa using hmax) (by simp) (by simp)
    refine ⟨heap', root::dropped, ?_, ⟨?_, ho, ?_⟩, by simpa using hp.length_eq⟩
    · rw [← heq, decide_eq_true hless]
      rfl
    · calc heap' ++ root::dropped ~ entry::rest ++ root::dropped := hp.append_right _
        _ ~ entry::(root::rest ++ dropped) := List.perm_middle.cons entry
        _ ~ entry::seen := hk.perm.cons entry
        _ ~ seen ++ [entry] := (List.perm_append_singleton entry seen).symm
    · intro d hd a ha
      rcases List.mem_cons.mp hd with rfl | hd <;>
        rcases List.mem_cons.mp (hp.mem_iff.mp ha) with rfl | ha
      · exact hlater.mpr hless
      · exact hmin a ha
      · exact (hk.top d hd root List.mem_cons_self).trans (hlater.mpr hless)
      · exact hk.top d hd a (List.mem_cons_of_mem _ ha)
  · refine ⟨root::rest, entry::dropped, by rw [decide_eq_false hless]; rfl, ⟨?_, hk.ordered, ?_⟩,
      rfl⟩
    · calc root::rest ++ entry::dropped ~ entry::(root::rest ++ dropped) := List.perm_middle
        _ ~ entry::seen := hk.perm.cons entry
        _ ~ seen ++ [entry] := (List.perm_append_singleton entry seen).symm
    · intro d hd a ha
      rcases List.mem_cons.mp hd with rfl | hd
      · have hle : rank key root ≤ rank key a := by
          rcases List.mem_cons.mp ha with rfl | ha
          · exact le_rfl
          · exact (hmin a ha).le
        refine lt_of_lt_of_le (lt_of_le_of_ne (not_lt.mp (mt hlater.mp hless)) fun heq => ?_) hle
        exact (hlast root hroot d List.mem_cons_self).ne' (rank_inj heq)
      · exact hk.top d hd a ha

theorem admitAll_spec (hk : Kept key seen heap dropped) (hne : heap ≠ [])
    (hmax : heap.length ≤ usizeMax) (hc : Counts counts (seen ++ entries))
    (hnum : Numbered (seen ++ entries)) :
    ∃ heap' dropped', entries.foldlM (admitEntry interp) heap = .ok heap' ∧
      Kept key (seen ++ entries) heap' dropped' ∧ heap'.length = heap.length := by
  induction entries generalizing seen heap dropped with
  | nil => exact ⟨heap, dropped, rfl, by rwa [List.append_nil], rfl⟩
  | cons entry entries ih =>
    rw [List.append_cons] at hc hnum
    have hfront := (List.pairwise_append.mp hnum).1
    obtain ⟨heap', dropped', heq, hk', hlen⟩ := admit_spec hord hk hne hmax
      (fun a ha => hc a (List.mem_append_left _ ha)) hfront
    obtain ⟨out, rest, hout, hkout, hlen'⟩ := ih hk'
      (by rw [← List.length_pos_iff, hlen]; exact List.length_pos_iff.mpr hne)
      (by rwa [hlen]) hc hnum
    refine ⟨out, rest, ?_, by rwa [List.append_cons], hlen'.trans hlen⟩
    rw [List.foldlM_cons, heq]
    exact hout

/-- The selection with a heap has the entries that rank highest, in falling rank. -/
theorem selectBounded_spec (hc : Counts counts entries) (hnum : Numbered entries)
    (hmax : entries.length ≤ usizeMax) {limit : ℕ} (hpos : 0 < limit)
    (hle : limit ≤ entries.length) :
    ∃ out rest, selectBounded interp entries limit = .ok out ∧ out ++ rest ~ entries ∧
      Falling (rank key) out ∧ (∀ d ∈ rest, ∀ a ∈ out, rank key d < rank key a) ∧
      out.length = limit := by
  have hsplit := List.take_append_drop limit entries
  obtain ⟨first, hfirst, hpfirst, hofirst⟩ :=
    @pushAll_spec _ _ _ _ _ _ _ _ (entries.take limit) [] hord
      (fun a ha => hc a (List.mem_of_mem_take ha)) (fun i a b hi ha => by cases ha)
  have hlen : first.length = limit := by
    rw [hpfirst.length_eq, List.nil_append, List.length_take, Nat.min_eq_left hle]
  have hkept : Kept key (entries.take limit) first [] :=
    ⟨by rwa [List.append_nil], hofirst, fun d hd => by cases hd⟩
  obtain ⟨heap, dropped, hentries, hk, hlen'⟩ :=
    @admitAll_spec _ _ _ _ _ _ _ _ (entries.drop limit) _ _ _ hord hkept
      (List.length_pos_iff.mp (by omega)) (by omega) (hsplit.symm ▸ hc) (hsplit.symm ▸ hnum)
  rw [hsplit] at hk
  have hcheap : Counts counts heap := fun a ha =>
    hc a (hk.perm.mem_iff.mp (List.mem_append_left _ ha))
  obtain ⟨out, hout, hpout, hsorted⟩ := popAll_spec hord heap.length hcheap hk.ordered (by omega)
    le_rfl
  have hnodup : (heap.map (rank key)).Nodup := by
    have hall := (hk.perm.map (rank key)).nodup_iff.mpr hnum.ranks
    rw [List.map_append] at hall
    exact (List.nodup_append.mp hall).1
  refine ⟨out.reverse, dropped, ?_, ?_, ?_, fun d hd a ha => ?_, ?_⟩
  · rw [selectBounded, hfirst]
    show (List.foldlM (admitEntry interp) first (entries.drop limit) >>= _) = _
    rw [hentries]
    show (popAll interp heap.length heap >>= _) = _
    rw [hout]
    rfl
  · exact ((out.reverse_perm.trans hpout).append_right dropped).trans hk.perm
  · have hne := List.pairwise_map.mp ((hpout.map (rank key)).nodup_iff.mpr hnodup)
    refine List.pairwise_reverse.mpr ((hsorted.and hne).imp fun h => ?_)
    exact lt_of_le_of_ne h.1 h.2
  · exact hk.top d hd a (hpout.mem_iff.mp (List.mem_reverse.mp ha))
  · rw [List.length_reverse, hpout.length_eq, hlen', hlen]

/-- The scan keeps the entry that ranks highest of those seen. -/
theorem scan_spec {best : Entry K V} (hc : Counts counts (best::dropped ++ entries))
    (hp : best::dropped ~ seen) (htop : ∀ d ∈ dropped, rank key d < rank key best)
    (hnum : Numbered (seen ++ entries)) :
    ∃ out rest, entries.foldlM (fun best candidate => do
        let compared ← interp.evalBinary candidate.count .gt best.count
        if ← interp.truthyValue compared then pure candidate else pure best) best = .ok out ∧
      out::rest ~ seen ++ entries ∧ ∀ d ∈ rest, rank key d < rank key out := by
  induction entries generalizing seen best dropped with
  | nil => exact ⟨best, dropped, rfl, by rwa [List.append_nil], htop⟩
  | cons entry entries ih =>
    rw [List.append_cons] at hnum
    obtain ⟨-, -, hlast⟩ := List.pairwise_append.mp (List.pairwise_append.mp hnum).1
    have horder := hlast best (hp.mem_iff.mp List.mem_cons_self) entry List.mem_cons_self
    have hlater := @rank_later _ _ _ _ key _ _ horder
    obtain ⟨v, hv, htruth⟩ := hord.greater entry.count (hc entry (by simp)) best.count
      (hc best (by simp))
    have hstep : (do
        let compared ← interp.evalBinary entry.count .gt best.count
        if ← interp.truthyValue compared then pure entry else pure best) =
          Except.ok (ε := PyError E) (if key best.count < key entry.count then entry else best) := by
      rw [hv]
      show (interp.truthyValue v >>= _) = _
      rw [htruth]
      by_cases h : key best.count < key entry.count
      · rw [decide_eq_true h, if_pos h]
        rfl
      · rw [decide_eq_false h, if_neg h]
        rfl
    rw [List.foldlM_cons, hstep, List.append_cons seen]
    show ∃ out rest, List.foldlM _ (if key best.count < key entry.count then entry else best)
      entries = _ ∧ _
    by_cases hless : key best.count < key entry.count
    · rw [if_pos hless]
      refine @ih _ (best::dropped) _ (fun a ha => hc a ?_) ?_ (fun d hd => ?_) hnum
      · simp only [List.mem_append, List.mem_cons] at ha ⊢
        tauto
      · exact (hp.cons entry).trans (List.perm_append_singleton entry seen).symm
      · rcases List.mem_cons.mp hd with rfl | hd
        · exact hlater.mpr hless
        · exact (htop d hd).trans (hlater.mpr hless)
    · rw [if_neg hless]
      refine @ih _ (entry::dropped) _ (fun a ha => hc a ?_) ?_ (fun d hd => ?_) hnum
      · simp only [List.mem_append, List.mem_cons] at ha ⊢
        tauto
      · exact (List.Perm.swap entry best dropped).trans
          ((hp.cons entry).trans (List.perm_append_singleton entry seen).symm)
      · rcases List.mem_cons.mp hd with rfl | hd
        · exact lt_of_le_of_ne (not_lt.mp (mt hlater.mp hless)) fun heq =>
            horder.ne' (rank_inj heq)
        · exact htop d hd

theorem selectOne_spec (hc : Counts counts entries) (hnum : Numbered entries)
    (hne : entries ≠ []) :
    ∃ best rest, selectOne interp entries = .ok [best] ∧ best::rest ~ entries ∧
      ∀ d ∈ rest, rank key d < rank key best := by
  obtain ⟨first, entries, rfl⟩ := List.exists_cons_of_ne_nil hne
  obtain ⟨best, rest, heq, hp, htop⟩ :=
    @scan_spec _ _ _ _ _ _ _ _ _ [first] [] hord _ hc (.refl _) (fun d hd => by cases hd) hnum
  refine ⟨best, rest, ?_, hp, htop⟩
  rw [selectOne, heq]
  rfl

theorem compareDesc_eq {a b : Entry K V} (ha : a.count ∈ counts) (hb : b.count ∈ counts) :
    compareDesc interp a b none = (cmp (key b.count) (key a.count), none) := by
  rw [compareDesc, hord.order b.count hb a.count ha]

theorem insertBy_spec (hc : Counts counts (entry::entries))
    (hearly : ∀ a ∈ entries, entry.order < a.order) (hf : Falling (rank key) entries) :
    ∃ out, insertBy (compareDesc interp) entry entries none = (out, none) ∧
      out ~ entry::entries ∧ Falling (rank key) out := by
  induction entries with
  | nil => exact ⟨[entry], rfl, .refl _, List.pairwise_singleton _ _⟩
  | cons y ys ih =>
    obtain ⟨hy, hys⟩ := List.pairwise_cons.mp hf
    rw [insertBy, compareDesc_eq hord (hc entry (by simp)) (hc y (by simp))]
    have hlater := @rank_later _ _ _ _ key _ _ (hearly y List.mem_cons_self)
    by_cases hgt : key entry.count < key y.count
    · obtain ⟨out, heq, hp, hout⟩ := ih (fun a ha => hc a (by
        rcases List.mem_cons.mp ha with rfl | ha <;> simp [*]))
        (fun a ha => hearly a (List.mem_cons_of_mem _ ha)) hys
      refine ⟨y::out, ?_, (hp.cons y).trans (.swap entry y ys), List.pairwise_cons.mpr
        ⟨fun a ha => ?_, hout⟩⟩
      · rw [if_pos ((cmp_eq_gt_iff _ _).mpr hgt), heq]
      · rcases List.mem_cons.mp (hp.mem_iff.mp ha) with rfl | ha
        · exact hlater.mpr hgt
        · exact hy a ha
    · refine ⟨entry::y::ys, by rw [if_neg (mt (cmp_eq_gt_iff _ _).mp hgt)], .refl _,
        List.pairwise_cons.mpr ⟨fun a ha => ?_, hf⟩⟩
      have hfirst : rank key y < rank key entry := lt_of_le_of_ne (not_lt.mp (mt hlater.mp hgt))
        fun heq => (hearly y List.mem_cons_self).ne' (rank_inj heq)
      rcases List.mem_cons.mp ha with rfl | ha
      · exact hfirst
      · exact (hy a ha).trans hfirst

/-- The stable sort leaves all entries in falling rank. -/
theorem sortAllDesc_spec (hc : Counts counts entries) (hnum : Numbered entries) :
    ∃ out, sortAllDesc interp entries = .ok out ∧ out ~ entries ∧ Falling (rank key) out := by
  have hsort : ∃ out, sortBy (compareDesc interp) entries none = (out, none) ∧ out ~ entries ∧
      Falling (rank key) out := by
    induction entries with
    | nil => exact ⟨[], rfl, .refl _, .nil⟩
    | cons entry entries ih =>
      obtain ⟨hfirst, hrest⟩ := List.pairwise_cons.mp hnum
      obtain ⟨out, heq, hp, hf⟩ := ih (fun a ha => hc a (List.mem_cons_of_mem _ ha)) hrest
      obtain ⟨out', heq', hp', hf'⟩ :=
        @insertBy_spec _ _ _ _ _ _ _ _ _ entry hord (hc.perm (hp.cons entry))
          (fun a ha => hfirst a (hp.mem_iff.mp ha)) hf
      exact ⟨out', by rw [sortBy, heq, heq'], hp'.trans (hp.cons entry), hf'⟩
  obtain ⟨out, heq, hp, hf⟩ := hsort
  exact ⟨out, by rw [sortAllDesc, heq], hp, hf⟩

end ways

/-! ## The stable sort by count -/

section stable
variable {K V L : Type} [LinearOrder L] {key : V → L} {entries : List (Entry K V)}
variable {pairs : List (K × V)}

/-- The pairs sorted by falling count; the sort is stable. -/
def stableDesc (key : V → L) (pairs : List (K × V)) : List (K × V) :=
  pairs.mergeSort fun a b => decide (key b.2 ≤ key a.2)

/-- The entries in falling rank are those sorted by count: the sort keeps the order of entries of
equal counts. -/
theorem mergeSort_falling (hnum : Numbered entries) :
    Falling (rank key) (entries.mergeSort fun a b => decide (key b.count ≤ key a.count)) := by
  have htrans : ∀ a b c : Entry K V, decide (key b.count ≤ key a.count) = true →
      decide (key c.count ≤ key b.count) = true → decide (key c.count ≤ key a.count) = true :=
    fun a b c hab hbc => decide_eq_true ((of_decide_eq_true hbc).trans (of_decide_eq_true hab))
  have htotal : ∀ a b : Entry K V,
      (decide (key b.count ≤ key a.count) || decide (key a.count ≤ key b.count)) = true :=
    fun a b => by simpa using le_total (key b.count) (key a.count)
  have hperm := List.mergeSort_perm entries fun a b => decide (key b.count ≤ key a.count)
  have hnodup : entries.Nodup := List.Nodup.of_map _ (@Numbered.ranks _ _ _ key _ hnum)
  have hnodup' := hperm.nodup_iff.mpr hnodup
  have hsorted := List.pairwise_mergeSort htrans htotal entries
  refine List.pairwise_iff_forall_sublist.mpr fun {a b} hab => rank_lt.mpr ?_
  have hle := of_decide_eq_true (List.pairwise_iff_forall_sublist.mp hsorted hab)
  rcases hle.lt_or_eq with hlt | heq
  · exact .inl hlt
  · have ha := hperm.mem_iff.mp (hab.subset List.mem_cons_self)
    have hb := hperm.mem_iff.mp (hab.subset (List.mem_cons_of_mem _ List.mem_cons_self))
    have hne : a ≠ b := List.pairwise_iff_forall_sublist.mp hnodup' hab
    rcases pair_sublist_of_mem ha hb hne with hold | hold
    · exact .inr ⟨heq, List.pairwise_iff_forall_sublist.mp hnum hold⟩
    · exact absurd (List.pair_sublist_mergeSort htrans htotal (decide_eq_true heq.ge) hold)
        (not_pair_sublist hnodup' hab)

theorem toEntries_numbered : Numbered (toEntries pairs) := by
  refine List.pairwise_map.mpr ?_
  rw [← List.pairwise_map (f := Prod.snd) (R := (· < ·)), List.zipIdx_map_snd]
  exact List.pairwise_lt_range'

theorem toEntries_map (pairs : List (K × V)) : (toEntries pairs).map Entry.pair = pairs := by
  rw [toEntries, List.map_map]
  exact List.zipIdx_map_fst 0 pairs

theorem toEntries_sorted : ((toEntries pairs).mergeSort fun a b =>
    decide (key b.count ≤ key a.count)).map Entry.pair = stableDesc key pairs := by
  have h := List.map_mergeSort (l := toEntries pairs) (f := Entry.pair)
    (r := fun a b => decide (key b.count ≤ key a.count))
    (s := fun a b => decide (key b.2 ≤ key a.2)) fun _ _ _ _ => rfl
  rw [h, toEntries_map, stableDesc]

end stable

/-! ## The most common entries -/

section main
variable {K V E F L : Type} [LinearOrder L] {interp : Interp V E} {key : V → L}
variable {isOne : F → Bool} {reaches : F → ℕ → Bool} {pairs : List (K × V)} {n : Option (Kind F)}

/-- The integer asked for, if one or none is. -/
def requested : Option (Kind F) → Option (Option ℤ)
  | none | some .none => some none
  | some (.int value) | some (.bigInt value) => some (some value)
  | some (.bool value) => some (some value.toNat)
  | some (.float _) | some (.other _) => none

/-- The entries that an answer to the question has. -/
def firstEntries (entries : List (K × V)) : Option ℤ → List (K × V)
  | none => entries
  | some value => entries.take value.toNat

/-- The number that is resolved cuts a list of so many entries at the place asked for. -/
theorem resolveLimit_spec {limit : Option ℤ} (hn : requested n = some limit)
    {entries : List (K × V)} (hmax : entries.length ≤ usizeMax) :
    ∃ resolved, resolveLimit (E := E) isOne reaches n entries.length = .ok resolved ∧
      firstEntries entries limit = entries.take (resolved.getD entries.length) := by
  have hall : entries = entries.take entries.length := List.take_length.symm
  rcases n with - | (- | value | value | value | value | name) <;> cases hn
  · exact ⟨none, rfl, hall⟩
  · exact ⟨none, rfl, hall⟩
  · rw [resolveLimit]
    by_cases h : value ≤ 0
    · refine ⟨some 0, if_pos h, ?_⟩
      rw [firstEntries, Int.toNat_of_nonpos h]
      rfl
    · exact ⟨some value.toNat, if_neg h, rfl⟩
  · exact ⟨some value.toNat, rfl, by cases value <;> rfl⟩
  · rw [resolveLimit]
    by_cases h : value ≤ 0
    · refine ⟨some 0, if_pos h, ?_⟩
      rw [firstEntries, Int.toNat_of_nonpos h]
      rfl
    · refine ⟨_, if_neg h, ?_⟩
      rw [firstEntries, Option.getD_some, List.take_eq_take_iff]
      split <;> omega

theorem toEntries_counts : Counts (pairs.map Prod.snd) (toEntries pairs) := by
  intro a ha
  obtain ⟨x, hx, rfl⟩ := List.mem_map.mp ha
  exact List.mem_map_of_mem (List.fst_mem_of_mem_zipIdx hx)

theorem toEntries_length : (toEntries pairs).length = pairs.length := by
  simp [toEntries]

theorem stableDesc_length : (stableDesc key pairs).length = pairs.length :=
  (List.mergeSort_perm _ _).length_eq

/-- Any way to the highest ranking entries gives the first of the sorted ones. -/
theorem chosen_eq {chosen rest : List (Entry K V)} (hp : chosen ++ rest ~ toEntries pairs)
    (hf : Falling (rank key) chosen)
    (htop : ∀ d ∈ rest, ∀ a ∈ chosen, rank key d < rank key a) :
    chosen.map Entry.pair = (stableDesc key pairs).take chosen.length := by
  have hsorted := @mergeSort_falling _ _ _ _ key _ (@toEntries_numbered _ _ pairs)
  have hperm := hp.trans (List.mergeSort_perm (toEntries pairs)
    fun a b => decide (key b.count ≤ key a.count)).symm
  conv_lhs => rw [hsorted.take_eq hf hperm htop]
  rw [List.map_take, toEntries_sorted]

variable (hord : TotallyOrdered interp key (pairs.map Prod.snd))
include hord

/-- The full sort, cut. -/
theorem sortAndTruncate_spec (limit : Option ℕ) :
    ∃ chosen, sortAndTruncate interp (toEntries pairs) limit = .ok chosen ∧
      chosen.map Entry.pair = (stableDesc key pairs).take (limit.getD pairs.length) := by
  obtain ⟨out, heq, hp, hf⟩ := sortAllDesc_spec hord toEntries_counts toEntries_numbered
  have hlen : out.length = pairs.length := hp.length_eq.trans toEntries_length
  refine ⟨out.take (min (limit.getD out.length) out.length), by rw [sortAndTruncate, heq]; rfl, ?_⟩
  have hall := @chosen_eq _ _ _ _ _ _ out [] (by rwa [List.append_nil]) hf
    fun d hd => by cases hd
  rw [hlen, ← @stableDesc_length _ _ _ _ key _, List.take_length] at hall
  rw [List.map_take, hall, hlen, List.take_eq_take_iff, stableDesc_length]
  omega

/-- Each way has the first entries of the stable order. -/
theorem selectLimit_spec (hmax : pairs.length ≤ usizeMax) (limit : Option ℕ) :
    ∃ chosen, selectLimit interp (toEntries pairs) limit = .ok chosen ∧
      chosen.map Entry.pair = (stableDesc key pairs).take (limit.getD pairs.length) := by
  have hlen := @toEntries_length _ _ pairs
  rcases limit with - | limit
  · exact sortAndTruncate_spec hord none
  · rcases limit with - | - | limit
    · exact ⟨[], rfl, rfl⟩
    · by_cases hnil : toEntries pairs = []
      · have hzero : pairs.length = 0 := by rw [← hlen, hnil, List.length_nil]
        have hsorted := List.eq_nil_of_length_eq_zero
          ((@stableDesc_length _ _ _ _ key pairs).trans hzero)
        exact ⟨[], by rw [hnil]; rfl, by rw [hsorted]; rfl⟩
      · obtain ⟨best, rest, heq, hp, htop⟩ :=
          selectOne_spec hord toEntries_counts toEntries_numbered hnil
        refine ⟨[best], heq, chosen_eq hp (List.pairwise_singleton _ _) fun d hd a ha => ?_⟩
        rw [List.mem_singleton.mp ha]
        exact htop d hd
    · have hway : selectLimit interp (toEntries pairs) (some (limit+1+1)) =
          if limit+1+1 < (toEntries pairs).length ∧
            saturatingMul (limit+1+1) heapRatio ≤ (toEntries pairs).length then
            selectBounded interp (toEntries pairs) (limit+1+1)
          else sortAndTruncate interp (toEntries pairs) (some (limit+1+1)) := rfl
      rw [hway]
      split
      · rename_i h
        obtain ⟨out, rest, heq, hp, hf, htop, hout⟩ := selectBounded_spec hord toEntries_counts
          toEntries_numbered (hlen ▸ hmax) (Nat.succ_pos (limit+1)) h.1.le
        refine ⟨out, heq, ?_⟩
        rw [chosen_eq hp hf htop, hout]
        rfl
      · exact sortAndTruncate_spec hord _

/-- What the selection returns is the first part of the entries in the stable order by falling
count, whichever way it takes. -/
theorem select_eq_sorted {limit : Option ℤ} (hmax : pairs.length ≤ usizeMax)
    (hn : requested n = some limit) :
    select interp isOne reaches pairs n = .ok (firstEntries (stableDesc key pairs) limit) := by
  obtain ⟨resolved, hres, hfirst⟩ := @resolveLimit_spec _ _ E _ isOne reaches _ _ hn _
    (@stableDesc_length _ _ _ _ key pairs ▸ hmax)
  rw [stableDesc_length] at hres hfirst
  obtain ⟨chosen, heq, hchosen⟩ := selectLimit_spec hord hmax resolved
  rw [hfirst, ← hchosen, select, hres]
  show (selectLimit interp (toEntries pairs) resolved >>= _) = _
  rw [heq]
  rfl

end main

section integers

/-- Counts that are integers, compared as such. -/
def intInterp : Interp ℤ Unit where
  isInstance _ := false
  compareValues a b := .ok (cmp a b)
  evalBinary a op b := .ok (match op with
    | .lt => if a < b then 1 else 0
    | .eq => if a = b then 1 else 0
    | .gt => if b < a then 1 else 0
    | _ => 0)
  truthyValue v := .ok (v ≠ 0)
  richcmpOrder a b := .ok (cmp a b)

theorem intInterp_ordered {counts : List ℤ} : TotallyOrdered intInterp id counts where
  compare _ _ _ _ _ _ := rfl
  less a _ b _ := ⟨if a < b then 1 else 0, rfl, by by_cases h : a < b <;> simp [intInterp, h]⟩
  equal a _ b _ := ⟨if a = b then 1 else 0, rfl, by by_cases h : a = b <;> simp [intInterp, h]⟩
  greater a _ b _ := ⟨if b < a then 1 else 0, rfl, by by_cases h : b < a <;> simp [intInterp, h]⟩
  order _ _ _ _ := rfl

/-- Two of eight entries, with equal counts, are taken from the heap. -/
theorem select_eq_sorted_two :
    select intInterp (fun _ : Unit => false) (fun _ _ => false)
        [("a", 2), ("b", 5), ("c", 1), ("d", 5), ("e", 5), ("f", 3), ("g", 0), ("h", 4)]
        (some (.int 2)) =
      .ok ((stableDesc id [("a", 2), ("b", 5), ("c", 1), ("d", 5), ("e", 5), ("f", 3), ("g", 0),
        ("h", 4)]).take 2) :=
  @select_eq_sorted _ _ _ _ _ _ _ _ _ _ _ _ intInterp_ordered (some 2) (by decide) rfl

example : select intInterp (fun _ : Unit => false) (fun _ _ => false)
    [("a", 2), ("b", 5), ("c", 1), ("d", 5), ("e", 5), ("f", 3), ("g", 0), ("h", 4)]
    (some (.int 2)) = .ok [("b", 5), ("d", 5)] := by rfl

end integers

end Pyrust.CounterSelection
