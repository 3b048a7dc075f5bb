import Mathlib.Data.Fintype.Prod
import Mathlib.Data.List.Perm.Subperm
import Pyrust.GuardedComparison
import Pyrust.OrderedMaps

/-!
# Equality of containers that may hold themselves

Two containers of one kind are compared under a guard: their pair of ids is put on a stack,
and a pair that is on the stack is taken for equal. The stack shrinks to what it was, the
comparison ends, and its answer is bisimilarity.
-/

set_option autoImplicit false

namespace Pyrust.CyclicEquality

open GuardedComparison OrderedMaps

/-! ## Values -/

inductive Key where
  | int (v : ℤ)
  | str (s : String)
  deriving DecidableEq, Repr

/-- A leaf, or a reference to one of `n` containers. -/
inductive Value (n : ℕ) where
  | int (v : ℤ)
  | str (s : String)
  | ref (i : Fin n)
  deriving DecidableEq, Repr

/-- The entries of a dict in their order. -/
structure Dict (n : ℕ) where
  entries : List (Key × Value n)
  nodup : (entries.map Prod.fst).Nodup

def Dict.get {n : ℕ} (d : Dict n) (k : Key) : Option (Value n) := lookup d.entries k

inductive Node (n : ℕ) where
  | list (items : List (Value n))
  | tuple (items : List (Value n))
  | dict (d : Dict n)

inductive ValueKind (n : ℕ) where
  | int (v : ℤ)
  | str (s : String)
  | list (items : List (Value n))
  | tuple (items : List (Value n))
  | dict (d : Dict n)

/-- The containers and their ids. -/
structure Heap (n : ℕ) where
  node : Fin n → Node n
  id : Fin n → ℤ
  distinct : Function.Injective id

/-- Pairs of ids that are being compared, the innermost first. -/
abbrev Stack := List (ℤ × ℤ)

section comparison
variable {n : ℕ} (H : Heap n)

def Heap.kind : Value n → ValueKind n
  | .int v => .int v
  | .str s => .str s
  | .ref i =>
    match H.node i with
    | .list items => .list items
    | .tuple items => .tuple items
    | .dict d => .dict d

def Heap.valueId : Value n → Option ℤ
  | .ref i => some (H.id i)
  | _ => none

/-- The pair that a comparison of the two puts on the stack. -/
def Heap.guardPair (a b : Value n) : Option (ℤ × ℤ) :=
  match H.kind a, H.kind b with
  | .list _, .list _ | .dict _, .dict _ | .tuple _, .tuple _ =>
    match H.valueId a, H.valueId b with
    | some x, some y => some (x, y)
    | _, _ => none
  | _, _ => none

/-- The comparison of two slices of one length. -/
def eqItems (eq : Stack → Value n → Value n → Option (Bool × Stack)) :
    Stack → List (Value n) → List (Value n) → Option (Bool × Stack)
  | stack, x::xs, y::ys => do
    let (same, stack) ← eq stack x y
    if same then eqItems eq stack xs ys else pure (false, stack)
  | stack, _, _ => pure (true, stack)

/-- Each entry has an equal value in the other map. -/
def eqEntries (eq : Stack → Value n → Value n → Option (Bool × Stack)) (other : Dict n) :
    Stack → List (Key × Value n) → Option (Bool × Stack)
  | stack, (k, x)::entries =>
    match other.get k with
    | none => pure (false, stack)
    | some y => do
      let (same, stack) ← eq stack x y
      if same then eqEntries eq other stack entries else pure (false, stack)
  | stack, [] => pure (true, stack)

def Heap.eqContents (eq : Stack → Value n → Value n → Option (Bool × Stack)) (stack : Stack)
    (a b : Value n) : Option (Bool × Stack) :=
  match H.kind a, H.kind b with
  | .int x, .int y => pure (x == y, stack)
  | .str x, .str y => pure (x == y, stack)
  | .list xs, .list ys | .tuple xs, .tuple ys =>
    if xs.length = ys.length then eqItems eq stack xs ys else pure (false, stack)
  | .dict d, .dict e =>
    if d.entries.length = e.entries.length then eqEntries eq e stack d.entries
    else pure (false, stack)
  | _, _ => pure (false, stack)

/-- `eq` of two values; `none` when the calls are nested deeper than allowed. -/
def Heap.eqValue : ℕ → Stack → Value n → Value n → Option (Bool × Stack)
  | 0, _, _, _ => none
  | depth+1, stack, a, b =>
    match H.guardPair a b with
    | none => H.eqContents (Heap.eqValue depth) stack a b
    | some pair =>
      if pair ∈ stack then pure (true, stack)
      else do
        let (same, stack) ← H.eqContents (Heap.eqValue depth) (pair::stack) a b
        pure (same, stack.tail)

end comparison

/-! ## What is seen of a value -/

inductive Label where
  | index (i : ℕ)
  | key (k : Key)

section graph
variable {n : ℕ} (H : Heap n)

def ValueKind.child : ValueKind n → Label → Option (Value n)
  | .list xs, .index i => xs[i]?
  | .tuple xs, .index i => xs[i]?
  | .dict d, .key k => d.get k
  | _, _ => none

/-- The same kind, and the same leaf, length or set of keys. -/
def ValueKind.Same : ValueKind n → ValueKind n → Prop
  | .int x, .int y => x = y
  | .str x, .str y => x = y
  | .list xs, .list ys => xs.length = ys.length
  | .tuple xs, .tuple ys => xs.length = ys.length
  | .dict d, .dict e => ∀ k, (d.get k).isSome = (e.get k).isSome
  | _, _ => False

def Heap.child (v : Value n) (l : Label) : Option (Value n) := (H.kind v).child l

def Heap.Same (v w : Value n) : Prop := (H.kind v).Same (H.kind w)

theorem isSome_items {xs ys : List (Value n)} (h : xs.length = ys.length) (i : ℕ) :
    xs[i]?.isSome = ys[i]?.isSome := by
  cases hx : xs[i]? <;> cases hy : ys[i]? <;> simp_all

theorem ValueKind.Same.symm {k l : ValueKind n} (h : k.Same l) : l.Same k := by
  unfold ValueKind.Same at h
  split at h
  case h_5 => exact fun key => (h key).symm
  case h_6 => exact h.elim
  all_goals exact Eq.symm h

theorem ValueKind.Same.trans {k l m : ValueKind n} (h : k.Same l) (h' : l.Same m) : k.Same m := by
  unfold ValueKind.Same at h
  split at h
  case h_5 => cases m with
    | dict e => exact fun key => (h key).trans (h' key)
    | _ => exact h'.elim
  case h_6 => exact h.elim
  all_goals cases m <;> first
    | exact h'.elim
    | exact Eq.trans h h'

theorem same_equivalence : Equivalence H.Same where
  refl v := by
    rw [Heap.Same]
    cases H.kind v with
    | dict d => exact fun key => rfl
    | _ => exact Eq.refl _
  symm h := ValueKind.Same.symm h
  trans h h' := ValueKind.Same.trans h h'

theorem child_uniform : Uniform H.child H.Same := by
  intro v w h l
  rw [Heap.Same] at h
  rw [Heap.child, Heap.child]
  cases hv : H.kind v <;> cases hw : H.kind w <;> rw [hv, hw] at h <;> cases l <;>
    try first | rfl | exact h.elim
  · exact isSome_items h _
  · exact isSome_items h _
  · exact h _

end graph

/-! ## Dicts of one size -/

section dicts
variable {n : ℕ} {d e : Dict n} {k : Key} {x : Value n}

theorem get_of_mem (h : (k, x) ∈ d.entries) : d.get k = some x := by
  obtain ⟨entries, hd⟩ := d
  rw [Dict.get]
  induction entries with
  | nil => exact absurd h List.not_mem_nil
  | cons entry entries ih =>
    rw [List.map_cons, List.nodup_cons] at hd
    rw [lookup_cons]
    rcases List.mem_cons.mp h with rfl | h
    · exact if_pos rfl
    · have hne : entry.1 ≠ k := fun heq => hd.1 (heq ▸ List.mem_map_of_mem h)
      rw [if_neg hne]
      exact ih hd.2 h

theorem mem_of_get (h : d.get k = some x) : (k, x) ∈ d.entries := by
  obtain ⟨entry, hentry, rfl⟩ := Option.map_eq_some_iff.mp h
  have hk : entry.1 = k := by simpa using List.find?_some hentry
  rw [← hk]
  exact List.mem_of_find?_eq_some hentry

theorem get_isSome : (d.get k).isSome ↔ k ∈ d.entries.map Prod.fst := by
  rw [Option.isSome_iff_exists, List.mem_map]
  constructor
  · rintro ⟨x, hx⟩
    exact ⟨(k, x), mem_of_get hx, rfl⟩
  · rintro ⟨⟨k, x⟩, hx, rfl⟩
    exact ⟨x, get_of_mem hx⟩

/-- A dict that has the keys of another of its size has no more. -/
theorem keys_of_subset (hlen : d.entries.length = e.entries.length)
    (h : ∀ k, (d.get k).isSome → (e.get k).isSome) (k : Key) :
    (d.get k).isSome = (e.get k).isSome := by
  have hsub : d.entries.map Prod.fst ⊆ e.entries.map Prod.fst := fun x hx =>
    get_isSome.mp (h x (get_isSome.mpr hx))
  have hperm := (d.nodup.subperm hsub).perm_of_length_le (by simp [hlen])
  rw [Bool.eq_iff_iff, get_isSome, get_isSome, hperm.mem_iff]

theorem length_of_keys (h : ∀ k, (d.get k).isSome = (e.get k).isSome) :
    d.entries.length = e.entries.length := by
  have hperm : (d.entries.map Prod.fst).Perm (e.entries.map Prod.fst) := by
    rw [List.perm_ext_iff_of_nodup d.nodup e.nodup]
    intro k
    rw [← get_isSome, ← get_isSome, h k]
  simpa using hperm.length_eq

end dicts

/-! ## One comparison under the guard -/

section contents
variable {n : ℕ} {H : Heap n} {eq : Stack → Value n → Value n → Option (Bool × Stack)}
  {way : Stack} {D : Value n → Value n → Prop} {a b : Value n}

/-- The comparison ends, leaves the stack as it was and finds what `D` says. -/
def Decides (eq : Stack → Value n → Value n → Option (Bool × Stack)) (way : Stack)
    (D : Value n → Value n → Prop) : Prop :=
  ∀ x y, ∃ answer, eq way x y = some (answer, way) ∧ (answer = false ↔ D x y)

theorem eqItems_spec (h : Decides eq way D) (xs ys : List (Value n)) :
    ∃ answer, eqItems eq way xs ys = some (answer, way) ∧
      (answer = false ↔ ∃ (i : ℕ) (x y : Value n), xs[i]? = some x ∧ ys[i]? = some y ∧ D x y) := by
  induction xs generalizing ys with
  | nil => exact ⟨true, by rw [eqItems]; rfl; simp, by simp⟩
  | cons x xs ih =>
    cases ys with
    | nil => exact ⟨true, by rw [eqItems]; rfl; simp, by simp⟩
    | cons y ys =>
      obtain ⟨same, hsame, hd⟩ := h x y
      rw [eqItems, hsame]
      cases same with
      | false =>
        exact ⟨false, rfl, iff_of_true rfl ⟨0, x, y, rfl, rfl, hd.mp rfl⟩⟩
      | true =>
        obtain ⟨answer, hanswer, hiff⟩ := ih ys
        refine ⟨answer, hanswer, hiff.trans ?_⟩
        have hnot : ¬D x y := fun hxy => Bool.noConfusion (hd.mpr hxy)
        constructor
        · rintro ⟨i, v, w, hv, hw, hvw⟩
          exact ⟨i+1, v, w, hv, hw, hvw⟩
        · rintro ⟨i, v, w, hv, hw, hvw⟩
          cases i with
          | zero =>
            obtain rfl := Option.some.inj hv
            obtain rfl := Option.some.inj hw
            exact absurd hvw hnot
          | succ i => exact ⟨i, v, w, hv, hw, hvw⟩

theorem eqEntries_spec (h : Decides eq way D) (other : Dict n) (entries : List (Key × Value n)) :
    ∃ answer, eqEntries eq other way entries = some (answer, way) ∧
      (answer = false ↔ ∃ k x, (k, x) ∈ entries ∧ ∀ y, other.get k = some y → D x y) := by
  induction entries with
  | nil => exact ⟨true, rfl, by simp⟩
  | cons entry entries ih =>
    obtain ⟨k, x⟩ := entry
    rw [eqEntries]
    cases hk : other.get k with
    | none =>
      exact ⟨false, rfl, iff_of_true rfl ⟨k, x, List.mem_cons_self, fun y hy => by simp_all⟩⟩
    | some y =>
      obtain ⟨same, hsame, hd⟩ := h x y
      simp only [hsame]
      cases same with
      | false =>
        refine ⟨false, rfl, iff_of_true rfl ⟨k, x, List.mem_cons_self, fun y' hy => ?_⟩⟩
        obtain rfl := Option.some.inj (hk.symm.trans hy)
        exact hd.mp rfl
      | true =>
        obtain ⟨answer, hanswer, hiff⟩ := ih
        refine ⟨answer, hanswer, hiff.trans ?_⟩
        have hnot : ¬D x y := fun hxy => Bool.noConfusion (hd.mpr hxy)
        constructor
        · rintro ⟨k', x', hmem, hx'⟩
          exact ⟨k', x', List.mem_cons_of_mem _ hmem, hx'⟩
        · rintro ⟨k', x', hmem, hx'⟩
          rcases List.mem_cons.mp hmem with heq | hmem
          · obtain ⟨rfl, rfl⟩ := Prod.mk.inj heq
            exact absurd (hx' y hk) hnot
          · exact ⟨k', x', hmem, hx'⟩

/-- The values differ at once or in children with the same label. -/
def ValueKind.Found (D : Value n → Value n → Prop) (v w : ValueKind n) : Prop :=
  ¬v.Same w ∨ ∃ l x y, v.child l = some x ∧ w.child l = some y ∧ D x y

theorem items_found (xs ys : List (Value n)) (hlen : xs.length = ys.length) :
    (∃ (i : ℕ) (x y : Value n), xs[i]? = some x ∧ ys[i]? = some y ∧ D x y) ↔
      ValueKind.Found D (.list xs) (.list ys) := by
  constructor
  · rintro ⟨i, x, y, hx, hy, hd⟩
    exact .inr ⟨.index i, x, y, hx, hy, hd⟩
  · rintro (hne | ⟨l, x, y, hx, hy, hd⟩)
    · exact absurd hlen hne
    · cases l with
      | index i => exact ⟨i, x, y, hx, hy, hd⟩
      | key k => cases hx

theorem entries_found {d e : Dict n} (hlen : d.entries.length = e.entries.length) :
    (∃ k x, (k, x) ∈ d.entries ∧ ∀ y, e.get k = some y → D x y) ↔
      ValueKind.Found D (.dict d) (.dict e) := by
  constructor
  · rintro ⟨k, x, hmem, hx⟩
    cases hy : e.get k with
    | some y => exact .inr ⟨.key k, x, y, get_of_mem hmem, hy, hx y hy⟩
    | none =>
      refine .inl fun hsame => ?_
      have := hsame k
      rw [get_of_mem hmem, hy] at this
      cases this
  · rintro (hne | ⟨l, x, y, hx, hy, hd⟩)
    · have : ∃ k, (d.get k).isSome ∧ ¬(e.get k).isSome := by
        by_contra hall
        refine hne (keys_of_subset hlen fun k hk => ?_)
        by_contra hk'
        exact hall ⟨k, hk, hk'⟩
      obtain ⟨k, hk, hk'⟩ := this
      obtain ⟨x, hx⟩ := Option.isSome_iff_exists.mp hk
      refine ⟨k, x, mem_of_get hx, fun y hy => absurd ?_ hk'⟩
      rw [hy]
      rfl
    · cases l with
      | index i => cases hx
      | key k =>
        refine ⟨k, x, mem_of_get hx, fun y' hy' => ?_⟩
        obtain rfl := Option.some.inj (hy.symm.trans hy')
        exact hd

theorem tuple_found (xs ys : List (Value n)) :
    ValueKind.Found D (.tuple xs) (.tuple ys) ↔ ValueKind.Found D (.list xs) (.list ys) := by
  have hchild (zs : List (Value n)) :
      (ValueKind.tuple zs).child = (ValueKind.list zs).child := by
    funext l
    cases l <;> rfl
  rw [ValueKind.Found, ValueKind.Found, hchild, hchild]
  rfl

/-- A comparison without a guard is not one of two containers of a kind. -/
theorem guardPair_none (h : H.guardPair a b = none) :
    (∀ xs ys, ¬(H.kind a = .list xs ∧ H.kind b = .list ys)) ∧
      (∀ xs ys, ¬(H.kind a = .tuple xs ∧ H.kind b = .tuple ys)) ∧
      ∀ d e, ¬(H.kind a = .dict d ∧ H.kind b = .dict e) := by
  cases a <;> cases b <;> refine ⟨?_, ?_, ?_⟩ <;> intro xs ys ⟨ha, hb⟩ <;>
    first | cases ha | cases hb | skip
  all_goals rw [Heap.guardPair, ha, hb] at h; cases h

/-- The comparison of two items slices of a list or a tuple. -/
theorem eqSlices_spec (h : Decides eq way D) (xs ys : List (Value n)) :
    ∃ answer, (if xs.length = ys.length then eqItems eq way xs ys else pure (false, way)) =
        some (answer, way) ∧ (answer = false ↔ ValueKind.Found D (.list xs) (.list ys)) := by
  by_cases hlen : xs.length = ys.length
  · rw [if_pos hlen, ← items_found xs ys hlen]
    exact eqItems_spec h xs ys
  · rw [if_neg hlen]
    exact ⟨false, rfl, iff_of_true rfl (.inl hlen)⟩

/-- The comparison of the contents, given one of the children. -/
theorem eqContents_spec (h : H.guardPair a b ≠ none → Decides eq way D) :
    ∃ answer, H.eqContents eq way a b = some (answer, way) ∧
      (answer = false ↔ (H.kind a).Found D (H.kind b)) := by
  have hguard : H.guardPair a b = none ∨ Decides eq way D :=
    (Classical.em _).imp_right h
  rw [Heap.eqContents]
  cases ha : H.kind a with
  | int x =>
    cases hb : H.kind b with
    | int y => exact ⟨x == y, rfl, by simp [ValueKind.Found, ValueKind.Same, ValueKind.child]⟩
    | _ => exact ⟨false, rfl, iff_of_true rfl (.inl id)⟩
  | str x =>
    cases hb : H.kind b with
    | str y => exact ⟨x == y, rfl, by simp [ValueKind.Found, ValueKind.Same, ValueKind.child]⟩
    | _ => exact ⟨false, rfl, iff_of_true rfl (.inl id)⟩
  | list xs =>
    cases hb : H.kind b with
    | list ys =>
      have h := hguard.resolve_left fun hnone => (guardPair_none hnone).1 xs ys ⟨ha, hb⟩
      exact eqSlices_spec h xs ys
    | _ => exact ⟨false, rfl, iff_of_true rfl (.inl id)⟩
  | tuple xs =>
    cases hb : H.kind b with
    | tuple ys =>
      have h := hguard.resolve_left fun hnone => (guardPair_none hnone).2.1 xs ys ⟨ha, hb⟩
      rw [tuple_found]
      exact eqSlices_spec h xs ys
    | _ => exact ⟨false, rfl, iff_of_true rfl (.inl id)⟩
  | dict d =>
    cases hb : H.kind b with
    | dict e =>
      have h := hguard.resolve_left fun hnone => (guardPair_none hnone).2.2 d e ⟨ha, hb⟩
      by_cases hlen : d.entries.length = e.entries.length
      · simp only [if_pos hlen]
        rw [← entries_found hlen]
        exact eqEntries_spec h e d.entries
      · simp only [if_neg hlen]
        exact ⟨false, rfl, iff_of_true rfl (.inl fun hsame => hlen (length_of_keys hsame))⟩
    | _ => exact ⟨false, rfl, iff_of_true rfl (.inl id)⟩

end contents

/-! ## Whole comparisons -/

section run
variable {n : ℕ} (H : Heap n)

/-- The pairs of containers that are not on the stack. -/
def Heap.rest (way : Stack) : Finset (Fin n × Fin n) :=
  Finset.univ.filter fun ij => (H.id ij.1, H.id ij.2) ∉ way

def Heap.Difference (way : Stack) (a b : Value n) : Prop :=
  Differs H.child H.Same H.guardPair way a b

variable {H}

theorem guardPair_some {a b : Value n} {p : ℤ × ℤ} (h : H.guardPair a b = some p) :
    ∃ i j, a = .ref i ∧ b = .ref j ∧ p = (H.id i, H.id j) := by
  rw [Heap.guardPair] at h
  split at h
  case h_4 => cases h
  all_goals
    split at h
    case h_2 => cases h
    case h_1 x y hx hy =>
      cases a <;> cases hx
      cases b <;> cases hy
      exact ⟨_, _, rfl, rfl, (Option.some.inj h).symm⟩

/-- A pair of ids is the pair of one pair of values. -/
theorem guardPair_injective {a b c d : Value n} {p : ℤ × ℤ} (h : p ∈ H.guardPair a b)
    (h' : p ∈ H.guardPair c d) : a = c ∧ b = d := by
  obtain ⟨i, j, rfl, rfl, hp⟩ := guardPair_some h
  obtain ⟨k, l, rfl, rfl, hp'⟩ := guardPair_some h'
  obtain ⟨hik, hjl⟩ := Prod.mk.inj (hp.symm.trans hp')
  rw [H.distinct hik, H.distinct hjl]
  exact ⟨rfl, rfl⟩

theorem rest_lt {way : Stack} {a b : Value n} {pair : ℤ × ℤ} (h : H.guardPair a b = some pair)
    (hfree : pair ∉ way) : (H.rest (pair::way)).card < (H.rest way).card := by
  obtain ⟨i, j, -, -, rfl⟩ := guardPair_some h
  refine Finset.card_lt_card ⟨fun ij hij => ?_, fun hsub => ?_⟩
  · rw [Heap.rest, Finset.mem_filter] at hij ⊢
    exact ⟨hij.1, fun hmem => hij.2 (List.mem_cons_of_mem _ hmem)⟩
  · have hin : (i, j) ∈ H.rest way := Finset.mem_filter.mpr ⟨Finset.mem_univ _, hfree⟩
    exact (Finset.mem_filter.mp (hsub hin)).2 List.mem_cons_self

theorem difference_iff {way : Stack} {a b : Value n} (hfree : Free H.guardPair way a b) :
    H.Difference way a b ↔
      (H.kind a).Found (H.Difference ((H.guardPair a b).toList ++ way)) (H.kind b) := by
  constructor
  · intro h
    cases h with
    | here hfree hne => exact .inl hne
    | step hfree hv hw h => exact .inr ⟨_, _, _, hv, hw, h⟩
  · rintro (hne | ⟨l, v, w, hv, hw, h⟩)
    · exact .here hfree hne
    · exact .step hfree hv hw h

theorem Free.of_difference {way : Stack} {a b : Value n} (h : H.Difference way a b) :
    Free H.guardPair way a b := by
  cases h with
  | here hfree hne => exact hfree
  | step hfree hv hw h => exact hfree

/-- On the depth, which the pairs not on the stack bound. -/
theorem eqValue_spec (depth : ℕ) (way : Stack) (h : (H.rest way).card < depth) :
    Decides (H.eqValue depth) way (H.Difference way) := by
  induction depth generalizing way with
  | zero => exact absurd h (Nat.not_lt_zero _)
  | succ depth ih =>
    intro a b
    rw [Heap.eqValue]
    cases hpair : H.guardPair a b with
    | none =>
      obtain ⟨answer, hanswer, hiff⟩ : ∃ answer,
          H.eqContents (H.eqValue depth) way a b = some (answer, way) ∧
            (answer = false ↔ (H.kind a).Found (H.Difference way) (H.kind b)) :=
        eqContents_spec fun hne => absurd hpair hne
      refine ⟨answer, hanswer, hiff.trans ?_⟩
      have hfree : Free H.guardPair way a b := fun p hp => by
        rw [hpair] at hp
        cases hp
      rw [difference_iff hfree, hpair]
      rfl
    | some pair =>
      by_cases hmem : pair ∈ way
      · simp only [if_pos hmem]
        refine ⟨true, rfl, iff_of_false Bool.noConfusion fun hd => ?_⟩
        exact Free.of_difference hd pair hpair hmem
      · simp only [if_neg hmem]
        have hlt := rest_lt hpair hmem
        obtain ⟨answer, hanswer, hiff⟩ : ∃ answer,
            H.eqContents (H.eqValue depth) (pair::way) a b = some (answer, pair::way) ∧
              (answer = false ↔
                (H.kind a).Found (H.Difference (pair::way)) (H.kind b)) :=
          eqContents_spec fun _ => ih (pair::way) (by omega)
        refine ⟨answer, by rw [hanswer]; rfl, hiff.trans ?_⟩
        have hfree : Free H.guardPair way a b := fun p hp => by
          obtain rfl := Option.some.inj (hpair.symm.trans hp)
          exact hmem
        rw [difference_iff hfree, hpair]
        rfl

theorem rest_le (way : Stack) : (H.rest way).card ≤ n * n := by
  refine (Finset.card_filter_le _ _).trans_eq ?_
  rw [Finset.card_univ, Fintype.card_prod, Fintype.card_fin]

theorem eqValue_bisimilar {depth : ℕ} (h : n * n < depth) (a b : Value n) :
    ∃ answer, H.eqValue depth [] a b = some (answer, []) ∧
      (answer = true ↔ Bisimilar H.child H.Same a b) := by
  obtain ⟨answer, hanswer, hiff⟩ := eqValue_spec depth [] ((rest_le []).trans_lt h) a b
  refine ⟨answer, hanswer, ?_⟩
  rw [← Bool.not_eq_false, hiff, Heap.Difference,
    differs_iff fun _ _ _ _ _ => guardPair_injective, not_not]

/-- Calls nested deeper than there are pairs of containers never occur; the stack is as it
was, and the answer is whether no path of indices and keys leads to a difference. -/
theorem equality_is_bisimilarity (H : Heap n) (depth : ℕ) (h : n * n < depth) :
    (∀ a b, ∃ answer, H.eqValue depth [] a b = some (answer, []) ∧
      (answer = true ↔ Bisimilar H.child H.Same a b)) ∧
    (∀ way a b, ∃ answer, H.eqValue depth way a b = some (answer, way)) ∧
    Equivalence fun a b => H.eqValue depth [] a b = some (true, []) := by
  refine ⟨eqValue_bisimilar h, fun way a b => ?_, ?_⟩
  · obtain ⟨answer, hanswer, -⟩ := eqValue_spec depth way ((rest_le way).trans_lt h) a b
    exact ⟨answer, hanswer⟩
  · have heq : (fun a b => H.eqValue depth [] a b = some (true, [])) =
        Bisimilar H.child H.Same := by
      funext a b
      obtain ⟨answer, hanswer, hiff⟩ := eqValue_bisimilar h a b
      rw [hanswer, ← hiff]
      simp
    rw [heq]
    exact bisimilar_equivalence (child_uniform H) (same_equivalence H)

end run

/-- `a = [b]`, `b = [a]`. -/
def twoLists : Heap 2 where
  node i := .list [.ref (1 - i)]
  id i := i
  distinct i j h := by
    have := Int.ofNat.inj h
    omega

theorem equality_is_bisimilarity_two :
    2 * 2 < 5 ∧ ∃ answer, twoLists.eqValue 5 [] (.ref 0) (.ref 1) = some (answer, []) ∧
      (answer = true ↔ Bisimilar twoLists.child twoLists.Same (.ref 0) (.ref 1)) :=
  ⟨by decide, (equality_is_bisimilarity twoLists 5 (by decide)).1 (.ref 0) (.ref 1)⟩

end Pyrust.CyclicEquality
