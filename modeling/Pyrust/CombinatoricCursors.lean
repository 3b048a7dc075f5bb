import Pyrust.LexTuples

/-!
# Cursors of the combinatoric iterators

Each cursor holds the materialised pools and an array of positions that is changed in
place, from the right, by the rule of its kind. A cursor that has run out stays so.
-/

set_option autoImplicit false

namespace Pyrust.CombinatoricCursors

open LexTuples

/-! ## Arrays -/

/-- An error of the interpreter, or an index or a difference that is out of range. -/
inductive CursorError where
  | internal
  | memoryError
  | panicked
  deriving DecidableEq, Repr

/-- The allocator grants a capacity, or there is a `MemoryError`. -/
def tryReserve (grants : ℕ → Bool) (capacity : ℕ) : Except CursorError Unit :=
  if grants capacity then .ok () else .error .memoryError

def readAt {α : Type} (xs : List α) (i : ℕ) : Except CursorError α :=
  match xs[i]? with
  | some x => .ok x
  | none => .error .panicked

def writeAt {α : Type} (xs : List α) (i : ℕ) (x : α) : Except CursorError (List α) :=
  if i < xs.length then .ok (xs.set i x) else .error .panicked

/-- The difference of two `usize`. -/
def minus (a b : ℕ) : Except CursorError ℕ := if b ≤ a then .ok (a - b) else .error .panicked

/-- `pool.get(index)` with the error of a corrupted instance. -/
def poolGet {V : Type} (pool : List V) (index : ℕ) : Except CursorError V :=
  match pool[index]? with
  | some v => .ok v
  | none => .error .internal

def tupleFromPool {V : Type} (grants : ℕ → Bool) (pool : List V) (indices : List ℕ) :
    Except CursorError (List V) := do
  tryReserve grants indices.length
  indices.mapM (poolGet pool)

/-! ## Product -/

section product
variable {V : Type}

/-- A dimension of a product, which is expected to be a list. -/
inductive Pool (V : Type) where
  | list (items : List V)
  | other

structure ProductCursor (V : Type) where
  pools : List (Pool V)
  indices : List ℕ
  started : Bool
  exhausted : Bool

def isEmptyList : Pool V → Bool
  | .list items => items.isEmpty
  | .other => false

def ProductCursor.tryNew (grants : ℕ → Bool) (pools : List (Pool V)) :
    Except CursorError (ProductCursor V) :=
  if pools.any isEmptyList then
    .ok { pools, indices := [], started := false, exhausted := true }
  else do
    tryReserve grants pools.length
    pure { pools, indices := List.replicate pools.length 0, started := false, exhausted := false }

/-- The carry of the odometer, from the position on to the left. -/
def productCarry (pools : List (Pool V)) : ℕ → List ℕ → Except CursorError (Bool × List ℕ)
  | 0, indices => .ok (false, indices)
  | position+1, indices => do
    match ← readAt pools position with
    | .list items => do
      let index ← readAt indices position
      let indices ← writeAt indices position (index+1)
      if index+1 < items.length then pure (true, indices)
      else do
        let indices ← writeAt indices position 0
        productCarry pools position indices
    | .other => .error .internal

def productGet : Pool V × ℕ → Except CursorError V
  | (.list items, index) => poolGet items index
  | (.other, _) => .error .internal

def ProductCursor.tuple (grants : ℕ → Bool) (cursor : ProductCursor V) :
    Except CursorError (List V) := do
  tryReserve grants cursor.indices.length
  (cursor.pools.zip cursor.indices).mapM productGet

def ProductCursor.nextTuple (grants : ℕ → Bool) (cursor : ProductCursor V) :
    Except CursorError (Option (List V) × ProductCursor V) :=
  if cursor.exhausted then .ok (none, cursor)
  else if cursor.started then do
    let (advanced, indices) ← productCarry cursor.pools cursor.pools.length cursor.indices
    let cursor := { cursor with indices, exhausted := !advanced }
    if advanced then do
      let tuple ← cursor.tuple grants
      pure (some tuple, cursor)
    else pure (none, cursor)
  else do
    let cursor := { cursor with started := true }
    let tuple ← cursor.tuple grants
    pure (some tuple, cursor)

end product

/-! ## Combinations -/

section combinations
variable {V : Type}

structure CombinationsCursor (V : Type) where
  pool : List V
  indices : List ℕ
  withReplacement : Bool
  started : Bool
  exhausted : Bool

def CombinationsCursor.tryNew (grants : ℕ → Bool) (pool : List V) (r : ℕ)
    (withReplacement : Bool) : Except CursorError (CombinationsCursor V) := do
  let exhausted := if withReplacement then decide (pool.length = 0 ∧ 0 < r)
    else decide (pool.length < r)
  if exhausted || r == 0 then
    pure { pool, indices := [], withReplacement, started := false, exhausted }
  else do
    tryReserve grants r
    let indices := if withReplacement then List.replicate r 0 else List.range r
    pure { pool, indices, withReplacement, started := false, exhausted }

/-- The positions behind the one that has grown, for the index of the loop. -/
def refill (withReplacement : Bool) (position : ℕ) (indices : List ℕ) (index : ℕ) :
    Except CursorError (List ℕ) := do
  let value ← (if withReplacement then readAt indices position
    else do
      let before ← minus index 1
      let value ← readAt indices before
      pure (value+1))
  writeAt indices index value

/-- The largest value at the position. -/
def maxValue (withReplacement : Bool) (n r position : ℕ) : Except CursorError ℕ :=
  if withReplacement then minus n 1
  else do
    let rest ← minus n r
    pure (rest + position)

/-- The carry; without positions it ends at once. -/
def combinationsCarry (withReplacement : Bool) (n r : ℕ) :
    ℕ → List ℕ → Except CursorError (Bool × List ℕ)
  | 0, indices => .ok (false, indices)
  | position+1, indices => do
    let largest ← maxValue withReplacement n r position
    let index ← readAt indices position
    if index < largest then do
      let indices ← writeAt indices position (index+1)
      let indices ← (List.range' (position+1) (r - (position+1))).foldlM
        (refill withReplacement position) indices
      pure (true, indices)
    else combinationsCarry withReplacement n r position indices

def CombinationsCursor.nextTuple (grants : ℕ → Bool) (cursor : CombinationsCursor V) :
    Except CursorError (Option (List V) × CombinationsCursor V) :=
  if cursor.exhausted then .ok (none, cursor)
  else if cursor.started then do
    let r := cursor.indices.length
    let (advanced, indices) ← combinationsCarry cursor.withReplacement cursor.pool.length r r
      cursor.indices
    let cursor := { cursor with indices, exhausted := !advanced }
    if advanced then do
      let tuple ← tupleFromPool grants cursor.pool cursor.indices
      pure (some tuple, cursor)
    else pure (none, cursor)
  else do
    let cursor := { cursor with started := true }
    let tuple ← tupleFromPool grants cursor.pool cursor.indices
    pure (some tuple, cursor)

end combinations

/-! ## Permutations -/

section permutations
variable {V : Type}

structure PermutationsCursor (V : Type) where
  pool : List V
  r : ℕ
  indices : List ℕ
  cycles : List ℕ
  started : Bool
  exhausted : Bool

def PermutationsCursor.tryNew (grants : ℕ → Bool) (pool : List V) (r : ℕ) :
    Except CursorError (PermutationsCursor V) :=
  let exhausted := decide (pool.length < r)
  if exhausted || r == 0 then
    .ok { pool, r, indices := [], cycles := [], started := false, exhausted }
  else do
    tryReserve grants pool.length
    tryReserve grants r
    let cycles ← (List.range r).mapM fun index => minus pool.length index
    pure { pool, r, indices := List.range pool.length, cycles, started := false, exhausted }

/-- `indices[position..].rotate_left(1)` -/
def rotateFrom (indices : List ℕ) (position : ℕ) : Except CursorError (List ℕ) :=
  if position < indices.length then
    .ok (indices.take position ++ (indices.drop position).rotate 1)
  else .error .panicked

/-- `indices.swap(a, b)` -/
def swapAt (indices : List ℕ) (a b : ℕ) : Except CursorError (List ℕ) := do
  let x ← readAt indices a
  let y ← readAt indices b
  let indices ← writeAt indices a y
  writeAt indices b x

def permutationsCarry (n : ℕ) :
    ℕ → List ℕ → List ℕ → Except CursorError (Bool × List ℕ × List ℕ)
  | 0, cycles, indices => .ok (false, cycles, indices)
  | position+1, cycles, indices => do
    let cycle ← readAt cycles position
    let cycle ← minus cycle 1
    let cycles ← writeAt cycles position cycle
    if cycle = 0 then do
      let indices ← rotateFrom indices position
      let reset ← minus n position
      let cycles ← writeAt cycles position reset
      permutationsCarry n position cycles indices
    else do
      let swapIndex ← minus n cycle
      let indices ← swapAt indices position swapIndex
      pure (true, cycles, indices)

/-- `&indices[..r]` -/
def firstIndices (indices : List ℕ) (r : ℕ) : Except CursorError (List ℕ) :=
  if r ≤ indices.length then .ok (indices.take r) else .error .panicked

def PermutationsCursor.tuple (grants : ℕ → Bool) (cursor : PermutationsCursor V) :
    Except CursorError (List V) := do
  let indices ← firstIndices cursor.indices cursor.r
  tupleFromPool grants cursor.pool indices

def PermutationsCursor.nextTuple (grants : ℕ → Bool) (cursor : PermutationsCursor V) :
    Except CursorError (Option (List V) × PermutationsCursor V) :=
  if cursor.exhausted then .ok (none, cursor)
  else if cursor.started then do
    let (advanced, cycles, indices) ← permutationsCarry cursor.pool.length cursor.r cursor.cycles
      cursor.indices
    let cursor := { cursor with cycles, indices, exhausted := !advanced }
    if advanced then do
      let tuple ← cursor.tuple grants
      pure (some tuple, cursor)
    else pure (none, cursor)
  else do
    let cursor := { cursor with started := true }
    let tuple ← cursor.tuple grants
    pure (some tuple, cursor)

end permutations

/-! ## Copies -/

section copies
variable {V : Type}

inductive Cursor (V : Type) where
  | product (cursor : ProductCursor V)
  | combinations (cursor : CombinationsCursor V)
  | permutations (cursor : PermutationsCursor V)

namespace Cursor

def nextTuple (grants : ℕ → Bool) : Cursor V → Except CursorError (Option (List V) × Cursor V)
  | .product cursor => do
    let (tuple, cursor) ← cursor.nextTuple grants
    pure (tuple, .product cursor)
  | .combinations cursor => do
    let (tuple, cursor) ← cursor.nextTuple grants
    pure (tuple, .combinations cursor)
  | .permutations cursor => do
    let (tuple, cursor) ← cursor.nextTuple grants
    pure (tuple, .permutations cursor)

/-- The derived `clone`, field by field. -/
def clone : Cursor V → Cursor V
  | .product cursor =>
    .product { pools := cursor.pools, indices := cursor.indices, started := cursor.started,
               exhausted := cursor.exhausted }
  | .combinations cursor =>
    .combinations { pool := cursor.pool, indices := cursor.indices,
                    withReplacement := cursor.withReplacement, started := cursor.started,
                    exhausted := cursor.exhausted }
  | .permutations cursor =>
    .permutations { pool := cursor.pool, r := cursor.r, indices := cursor.indices,
                    cycles := cursor.cycles, started := cursor.started,
                    exhausted := cursor.exhausted }

def stopped : Cursor V → Bool
  | .product cursor => cursor.started && cursor.exhausted
  | .combinations cursor => cursor.started && cursor.exhausted
  | .permutations cursor => cursor.started && cursor.exhausted

/-- The cursor that a copy receives: one that has stopped is made anew without its pool. -/
def reducedClone (cursor : Cursor V) : Cursor V :=
  if !cursor.stopped then cursor.clone
  else
    match cursor with
    | .product _ => .product { pools := [], indices := [], started := false, exhausted := true }
    | .combinations cursor =>
      .combinations { pool := [], indices := [], withReplacement := cursor.withReplacement,
                      started := false, exhausted := !cursor.indices.isEmpty }
    | .permutations cursor =>
      .permutations { pool := [], r := cursor.r, indices := [], cycles := [], started := false,
                      exhausted := decide (0 < cursor.r) }

end Cursor

end copies

/-! ## Reading and writing -/

section arrays

theorem readAt_append {α : Type} (a z : List α) (x : α) : readAt (a ++ x::z) a.length = .ok x := by
  rw [readAt, List.getElem?_append_right (le_refl _), Nat.sub_self]
  rfl

theorem writeAt_append {α : Type} (a z : List α) (x y : α) :
    writeAt (a ++ x::z) a.length y = .ok (a ++ y::z) := by
  rw [writeAt, if_pos (by simp), List.set_append_right _ _ (le_refl _), Nat.sub_self]
  rfl

/-- The values at the positions of a tuple. -/
def valuesAt {V : Type} (pool : List V) (t : List ℕ) : List V := t.filterMap (pool[·]?)

theorem tupleFromPool_ok {V : Type} {grants : ℕ → Bool} {pool : List V} {t : List ℕ}
    (hgrant : grants t.length = true) (ht : ∀ i ∈ t, i < pool.length) :
    tupleFromPool grants pool t = .ok (valuesAt pool t) := by
  have hall : t.mapM (poolGet pool) = .ok (valuesAt pool t) := by
    clear hgrant
    induction t with
    | nil => rfl
    | cons i t ih =>
      have hi := ht i List.mem_cons_self
      have hget : pool[i]? = some pool[i] := List.getElem?_eq_getElem hi
      have hvalues : valuesAt pool (i::t) = pool[i] :: valuesAt pool t :=
        List.filterMap_cons_some hget
      rw [List.mapM_cons, poolGet, hget, ih fun j hj => ht j (List.mem_cons_of_mem _ hj), hvalues]
      rfl
  rw [tupleFromPool, tryReserve, if_pos hgrant, hall]
  rfl

end arrays

/-! ## The odometer of a product -/

section odometer
variable {V : Type} (lists : List (List V))

/-- The positions in the list of the dimension that comes next. -/
def productChoices (before : List ℕ) : Set ℕ :=
  {i | ∃ items, lists[before.length]? = some items ∧ i < items.length}

/-- The position tuples of a product. -/
def productTuples : Set (List ℕ) := {t | List.Forall₂ (fun i items => i < items.length) t lists}

def productValues (t : List ℕ) : List V := (lists.zip t).filterMap fun x => x.1[x.2]?

theorem productTuples_eq : productTuples lists = Tuples (productChoices lists) [] lists.length := by
  have hgen : ∀ (before : List ℕ) (rest : List (List V)), lists.drop before.length = rest →
      ∀ t, t ∈ Tuples (productChoices lists) before rest.length ↔
        List.Forall₂ (fun i items => i < items.length) t rest := by
    intro before rest hrest t
    induction rest generalizing before t with
    | nil => simp [Tuples]
    | cons items rest ih =>
      have hitems : lists[before.length]? = some items := by
        rw [← List.head?_drop, hrest]
        rfl
      have hdrop : lists.drop (before ++ [0]).length = rest := by
        rw [List.length_append, List.length_singleton, ← List.drop_drop, hrest]
        rfl
      cases t with
      | nil =>
        refine iff_of_false (fun h => ?_) (fun h => by cases h)
        cases length_of_mem h
      | cons i t =>
        rw [List.length_cons, cons_mem_tuples, List.forall₂_cons,
          ih (before ++ [i]) (by simpa using hdrop) t]
        refine and_congr_left fun _ => ?_
        simp [productChoices, hitems]
  ext t
  exact (hgen [] lists rfl t).symm

variable {lists}

theorem productChoices_finite (before : List ℕ) : (productChoices lists before).Finite := by
  cases h : lists[before.length]? with
  | none => simp [productChoices, h]
  | some items =>
    refine (Set.finite_lt_nat items.length).subset ?_
    rintro i ⟨items', hitems', hi⟩
    obtain rfl := Option.some.inj (h.symm.trans hitems')
    exact hi

variable (hne : ∀ items ∈ lists, items ≠ [])
include hne

theorem zeros_least (before : List ℕ) (m : ℕ) (hm : before.length + m ≤ lists.length) :
    IsLeast (Tuples (productChoices lists) before m) (List.replicate m 0) := by
  induction m generalizing before with
  | zero => exact least_nil
  | succ m ih =>
    have hlt : before.length < lists.length := by omega
    refine least_cons ⟨⟨lists[before.length], List.getElem?_eq_getElem hlt, ?_⟩,
      fun i _ => Nat.zero_le i⟩ (ih (before ++ [0]) (by simp; omega))
    exact List.length_pos_iff.mpr (hne _ (List.getElem_mem hlt))

/-- From a position whose rest is at its end, the odometer goes to the next tuple. -/
theorem productCarry_spec (a b : List ℕ) (hlen : a.length + b.length = lists.length)
    (ha : a ∈ Tuples (productChoices lists) [] a.length)
    (hb : IsGreatest (Tuples (productChoices lists) a b.length) b) :
    (∃ zeros, productCarry (lists.map .list) a.length (a ++ List.replicate b.length 0) =
        .ok (false, zeros) ∧ IsGreatest (productTuples lists) (a ++ b)) ∨
      ∃ t', productCarry (lists.map .list) a.length (a ++ List.replicate b.length 0) =
        .ok (true, t') ∧ Next (productTuples lists) (a ++ b) t' := by
  rw [productTuples_eq]
  induction a using List.reverseRecOn generalizing b with
  | nil =>
    refine .inl ⟨_, rfl, ?_⟩
    rw [← hlen]
    simpa using hb
  | append_singleton a x ih =>
    have hlen' : a.length + (b.length + 1) = lists.length := by
      rw [List.length_append, List.length_singleton] at hlen
      omega
    have hlt : a.length < lists.length := by omega
    obtain ⟨ha, hx⟩ : a ∈ Tuples (productChoices lists) [] a.length ∧
        [x] ∈ Tuples (productChoices lists) a 1 := by
      rw [List.length_append, List.length_singleton, append_mem_tuples, List.nil_append] at ha
      exact ha
    have hxmem := (cons_mem_tuples.mp hx).1
    obtain ⟨items, hitems, hxlt⟩ := hxmem
    have hread : readAt (lists.map Pool.list) a.length = .ok (Pool.list items) := by
      rw [readAt, List.getElem?_map, hitems]
      rfl
    rw [List.length_append, List.length_singleton, List.append_assoc, List.append_assoc,
      List.singleton_append, List.singleton_append, productCarry, hread, ok_bind]
    simp only [readAt_append, writeAt_append, ok_bind]
    by_cases hnext : x + 1 < items.length
    · rw [if_pos hnext]
      refine .inr ⟨_, rfl, ?_⟩
      rw [← hlen']
      refine next_append ha (next_head hb ⟨⟨⟨items, hitems, hnext⟩, Nat.lt_succ_self x⟩, ?_⟩
        (zeros_least hne _ _ (by simp; omega)))
      rintro y ⟨-, hy⟩
      exact hy
    · rw [if_neg hnext]
      have hgreatest : IsGreatest (productChoices lists a) x := by
        refine ⟨⟨items, hitems, hxlt⟩, ?_⟩
        rintro y ⟨items', hitems', hy⟩
        obtain rfl := Option.some.inj (hitems.symm.trans hitems')
        omega
      exact ih (x::b) hlen' ha (greatest_cons hgreatest hb)

/-- A product cursor that last answered the tuple. -/
structure ProductAt (lists : List (List V)) (t : List ℕ) (cursor : ProductCursor V) : Prop where
  pools : cursor.pools = lists.map .list
  indices : cursor.indices = t
  started : cursor.started = true
  going : cursor.exhausted = false

omit hne in
theorem ProductAt.tuple {t : List ℕ} {cursor : ProductCursor V} {grants : ℕ → Bool}
    (h : ProductAt lists t cursor) (hgrant : grants lists.length = true)
    (ht : t ∈ productTuples lists) :
    cursor.tuple grants = .ok (productValues lists t) := by
  have hlen : t.length = lists.length := ht.length_eq
  have hall : ((lists.map Pool.list).zip t).mapM productGet = .ok (productValues lists t) := by
    clear hlen h hgrant
    induction ht with
    | nil => rfl
    | @cons i items t lists hi ht ih =>
      have hget : items[i]? = some items[i] := List.getElem?_eq_getElem hi
      have hvalues : productValues (items::lists) (i::t) = items[i] :: productValues lists t :=
        List.filterMap_cons_some hget
      rw [List.map_cons, List.zip_cons_cons, List.mapM_cons, ih, productGet, poolGet, hget, hvalues]
      rfl
  rw [ProductCursor.tuple, h.indices, h.pools, tryReserve, hlen, if_pos hgrant, hall]
  rfl

theorem product_walks {grants : ℕ → Bool} (hgrant : grants lists.length = true) :
    Walks (ProductCursor.nextTuple grants) (productTuples lists) (productValues lists)
      (ProductAt lists) (fun cursor => cursor.exhausted = true) where
  step t cursor ht hat := by
    have hlen : t.length = lists.length := ht.length_eq
    have hmem : t ∈ Tuples (productChoices lists) [] t.length := by
      rw [hlen, ← productTuples_eq]
      exact ht
    have hcarry := productCarry_spec hne t [] (by simpa using hlen) hmem greatest_nil
    obtain ⟨pools, indices, started, exhausted⟩ := cursor
    obtain ⟨rfl, rfl, rfl, rfl⟩ := hat
    simp only [List.length_nil, List.replicate_zero, List.append_nil] at hcarry
    simp only [ProductCursor.nextTuple, Bool.false_eq_true, if_false, if_true, List.length_map]
    rw [← hlen]
    rcases hcarry with ⟨zeros, heq, hgreatest⟩ | ⟨t', heq, hnext⟩
    · exact .inr ⟨⟨lists.map .list, zeros, true, true⟩, by rw [heq]; rfl, hgreatest, rfl⟩
    · have hat' : ProductAt lists t' ⟨lists.map .list, t', true, false⟩ := ⟨rfl, rfl, rfl, rfl⟩
      refine .inl ⟨t', _, ?_, hnext, hat'⟩
      rw [heq, ok_bind]
      simp only [if_true, Bool.not_true, hat'.tuple hgrant hnext.1.1, ok_bind]
      rfl
  done cursor h := ⟨cursor, if_pos h, h⟩

omit hne in
/-- A product answers each tuple of its positions once and in order. -/
theorem product_enumerates (grants : ℕ → Bool) (lists : List (List V))
    (hgrant : (∀ items ∈ lists, items ≠ []) → grants lists.length = true) :
    ∃ cursor, ProductCursor.tryNew grants (lists.map .list) = .ok cursor ∧
      Enumerates (ProductCursor.nextTuple grants) (productTuples lists) (productValues lists)
        cursor := by
  have hany : (lists.map Pool.list).any isEmptyList = true ↔ ∃ items ∈ lists, items = [] := by
    simp [isEmptyList]
  rw [ProductCursor.tryNew]
  by_cases hempty : ∃ items ∈ lists, items = []
  · rw [if_pos (hany.mpr hempty)]
    have hdone : ∀ cursor : ProductCursor V, cursor.exhausted = true →
        ∃ cursor', cursor.nextTuple grants = .ok (none, cursor') ∧ cursor'.exhausted = true :=
      fun cursor h => ⟨cursor, if_pos h, h⟩
    refine ⟨_, rfl, enumerates_empty hdone ?_ rfl⟩
    obtain ⟨items, hitems, rfl⟩ := hempty
    refine Set.eq_empty_of_forall_notMem fun t ht => ?_
    obtain ⟨hlen, hall⟩ := List.forall₂_iff_get.mp ht
    obtain ⟨i, hi, heq⟩ := List.mem_iff_getElem.mp hitems
    have hlt := hall i (by omega) hi
    simp [heq] at hlt
  · have hne : ∀ items ∈ lists, items ≠ [] := fun items h heq => hempty ⟨items, h, heq⟩
    have hwalks := product_walks hne (hgrant hne)
    have hleast := zeros_least hne [] lists.length (by simp)
    rw [← productTuples_eq] at hleast
    rw [if_neg fun h => hempty (hany.mp h), tryReserve, List.length_map, if_pos (hgrant hne)]
    have hat : ProductAt lists (List.replicate lists.length 0)
        ⟨lists.map .list, List.replicate lists.length 0, true, false⟩ := ⟨rfl, rfl, rfl, rfl⟩
    refine ⟨_, rfl, hwalks.enumerates ?_ ?_ hleast hat⟩
    · rw [productTuples_eq]
      exact tuples_finite productChoices_finite [] lists.length
    · simp only [ProductCursor.nextTuple, Bool.false_eq_true, if_false,
        hat.tuple (hgrant hne) hleast.1, ok_bind]
      rfl

omit hne in
/-- The product of `[1, 2]` and `[3]`. -/
theorem product_enumerates_pairs :
    ∃ cursor, ProductCursor.tryNew (fun _ => true) [.list [1, 2], .list [3]] = .ok cursor ∧
      Enumerates (ProductCursor.nextTuple fun _ => true) (productTuples [[1, 2], [3]])
        (productValues [[1, 2], [3]]) cursor :=
  product_enumerates (fun _ => true) [[1, 2], [3]] fun _ => rfl

end odometer

end Pyrust.CombinatoricCursors
