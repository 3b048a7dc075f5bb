import Mathlib.Data.List.Basic

/-!
# Trees split by their leaves

Trees with labels at the leaves and at the inner nodes. A tree is pruned by dropping
leaves, and every node that has lost all its children. It is split in two when each
leaf is marked for one of the parts and both are pruned by the marks.
-/

set_option autoImplicit false

namespace Pyrust.PartitionedTrees

inductive Tree (M L : Type) where
  | leaf (l : L)
  | node (m : M) (children : List (Tree M L))

section tree
variable {M L L' : Type}

theorem Tree.ind {P : Tree M L → Prop} (leaf : ∀ l, P (.leaf l))
    (node : ∀ m cs, (∀ c ∈ cs, P c) → P (.node m cs)) (t : Tree M L) : P t :=
  Tree.rec (motive_1 := P) (motive_2 := fun cs => ∀ c ∈ cs, P c) leaf node
    (fun c hc => by cases hc)
    (fun t ts ht hts c hc => by
      rcases List.mem_cons.mp hc with rfl | hc
      · exact ht
      · exact hts c hc) t

mutual
def Tree.leaves : Tree M L → List L
  | .leaf l => [l]
  | .node _ children => leavesAll children

def leavesAll : List (Tree M L) → List L
  | [] => []
  | t::ts => t.leaves ++ leavesAll ts
end

mutual
def Tree.map (f : L → L') : Tree M L → Tree M L'
  | .leaf l => .leaf (f l)
  | .node m children => .node m (mapAll f children)

def mapAll (f : L → L') : List (Tree M L) → List (Tree M L')
  | [] => []
  | t::ts => t.map f :: mapAll f ts
end

/-- A node, unless it has no children. -/
def nodeOf (m : M) : List (Tree M L) → Option (Tree M L)
  | [] => none
  | t::ts => some (.node m (t::ts))

mutual
/-- The tree without the leaves that `f` drops and without empty nodes. -/
def Tree.prune (f : L → Option L') : Tree M L → Option (Tree M L')
  | .leaf l => (f l).map .leaf
  | .node m children => nodeOf m (pruneAll f children)

def pruneAll (f : L → Option L') : List (Tree M L) → List (Tree M L')
  | [] => []
  | t::ts => (t.prune f).toList ++ pruneAll f ts
end

mutual
/-- No node is empty. -/
def Tree.Full : Tree M L → Prop
  | .leaf _ => True
  | .node _ children => children ≠ [] ∧ FullAll children

def FullAll : List (Tree M L) → Prop
  | [] => True
  | t::ts => t.Full ∧ FullAll ts
end

/-- The leaves of a part, which may be absent. -/
def partLeaves : Option (Tree M L) → List L
  | none => []
  | some t => t.leaves

end tree

section lists
variable {M L L' : Type} {f : L → Option L'} {g : L → L'} {ts : List (Tree M L)}

theorem partLeaves_nodeOf (m : M) : partLeaves (nodeOf m ts) = leavesAll ts := by
  cases ts <;> rfl

theorem leavesAll_append (ts us : List (Tree M L)) :
    leavesAll (ts ++ us) = leavesAll ts ++ leavesAll us := by
  induction ts with
  | nil => rfl
  | cons t ts ih => rw [List.cons_append, leavesAll, leavesAll, ih, List.append_assoc]

theorem leavesAll_toList (o : Option (Tree M L)) : leavesAll o.toList = partLeaves o := by
  cases o <;> simp [leavesAll, partLeaves]

theorem fullAll_iff : FullAll ts ↔ ∀ t ∈ ts, t.Full := by
  induction ts with
  | nil => simp [FullAll]
  | cons t ts ih => simp [FullAll, ih]

end lists

/-! ## Pruning -/

section prune
variable {M L L' : Type} {f : L → Option L'} {t : Tree M L}

/-- The leaves that are left are those that are not dropped. -/
theorem leaves_prune (t : Tree M L) : partLeaves (t.prune f) = t.leaves.filterMap f := by
  induction t using Tree.ind with
  | leaf l => cases h : f l <;> simp [Tree.prune, Tree.leaves, partLeaves, h]
  | node m cs ih =>
    rw [Tree.prune, partLeaves_nodeOf, Tree.leaves]
    clear m
    induction cs with
    | nil => rfl
    | cons c cs ihs =>
      rw [pruneAll, leavesAll_append, leavesAll_toList, leavesAll, List.filterMap_append,
        ih c List.mem_cons_self, ihs fun d hd => ih d (List.mem_cons_of_mem _ hd)]

/-- Pruned trees have no empty node. -/
theorem full_prune (t : Tree M L) : ∀ u ∈ t.prune f, u.Full := by
  induction t using Tree.ind with
  | leaf l =>
    intro u hu
    obtain ⟨l', -, rfl⟩ := Option.map_eq_some_iff.mp hu
    trivial
  | node m cs ih =>
    have hall : FullAll (pruneAll f cs) := by
      clear m
      induction cs with
      | nil => trivial
      | cons c cs ihs =>
        rw [pruneAll, fullAll_iff]
        intro u hu
        rcases List.mem_append.mp hu with hu | hu
        · exact ih c List.mem_cons_self u (Option.mem_toList.mp hu)
        · exact fullAll_iff.mp (ihs fun d hd => ih d (List.mem_cons_of_mem _ hd)) u hu
    intro u hu
    rw [Tree.prune] at hu
    cases hcs : pruneAll f cs with
    | nil =>
      rw [hcs] at hu
      cases hu
    | cons v vs =>
      rw [hcs] at hu hall
      obtain rfl := Option.some.inj hu
      exact ⟨List.cons_ne_nil _ _, hall⟩

/-- A tree without empty nodes has a leaf. -/
theorem Tree.Full.leaves_ne_nil (h : t.Full) : t.leaves ≠ [] := by
  induction t using Tree.ind with
  | leaf l => simp [Tree.leaves]
  | node m cs ih =>
    obtain ⟨hne, hall⟩ := h
    obtain ⟨c, cs, rfl⟩ := List.exists_cons_of_ne_nil hne
    rw [Tree.leaves, leavesAll]
    exact fun hnil => ih c List.mem_cons_self hall.1 (List.append_eq_nil_iff.mp hnil).1

/-- A part is absent exactly when it would have no leaf. -/
theorem prune_eq_none (t : Tree M L) : t.prune f = none ↔ t.leaves.filterMap f = [] := by
  rw [← leaves_prune]
  cases h : t.prune f with
  | none => simp [partLeaves]
  | some u => simpa [partLeaves] using (full_prune t u h).leaves_ne_nil

end prune

/-! ## Splitting -/

section split
variable {M L : Type} {t : Tree M L} {m r : Option (Tree M L)} {ts ms rs : List (Tree M L)}

/-- The leaves with a mark. -/
def kept (b : Bool) (x : L × Bool) : Option L := if x.2 = b then some x.1 else none

/-- Every leaf is marked for one of two parts, which are pruned by the marks. -/
def Splits (t : Tree M L) (m r : Option (Tree M L)) : Prop :=
  ∃ marked : Tree M (L × Bool), marked.map Prod.fst = t ∧ marked.prune (kept true) = m ∧
    marked.prune (kept false) = r

def SplitsAll (ts ms rs : List (Tree M L)) : Prop :=
  ∃ marked : List (Tree M (L × Bool)), mapAll Prod.fst marked = ts ∧
    pruneAll (kept true) marked = ms ∧ pruneAll (kept false) marked = rs

theorem SplitsAll.nil : SplitsAll ([] : List (Tree M L)) [] [] := ⟨[], rfl, rfl, rfl⟩

theorem Splits.cons (h : Splits t m r) (hs : SplitsAll ts ms rs) :
    SplitsAll (t::ts) (m.toList ++ ms) (r.toList ++ rs) := by
  obtain ⟨marked, rfl, rfl, rfl⟩ := h
  obtain ⟨more, rfl, rfl, rfl⟩ := hs
  exact ⟨marked::more, rfl, rfl, rfl⟩

theorem SplitsAll.node (hs : SplitsAll ts ms rs) (label : M) :
    Splits (.node label ts) (nodeOf label ms) (nodeOf label rs) := by
  obtain ⟨marked, rfl, rfl, rfl⟩ := hs
  exact ⟨.node label marked, rfl, rfl, rfl⟩

theorem splits_leaf (l : L) (b : Bool) :
    Splits (M := M) (.leaf l) (if b then some (.leaf l) else none)
      (if b then none else some (.leaf l)) := by
  refine ⟨.leaf (l, b), rfl, ?_, ?_⟩ <;> cases b <;> rfl

/-- All leaves may go to the first part. -/
theorem splits_all (h : t.Full) : Splits t (some t) none := by
  induction t using Tree.ind with
  | leaf l => exact splits_leaf l true
  | node label cs ih =>
    obtain ⟨hne, hall⟩ := h
    have hsplit : SplitsAll cs cs [] := by
      clear hne label
      induction cs with
      | nil => exact .nil
      | cons c cs ihs =>
        exact (ih c List.mem_cons_self hall.1).cons
          (ihs (fun d hd => ih d (List.mem_cons_of_mem _ hd)) hall.2)
    obtain ⟨c, cs, rfl⟩ := List.exists_cons_of_ne_nil hne
    exact hsplit.node label

theorem leaves_map {L' : Type} (f : L → L') (t : Tree M L) : (t.map f).leaves = t.leaves.map f := by
  induction t using Tree.ind with
  | leaf l => rfl
  | node label cs ih =>
    rw [Tree.map, Tree.leaves, Tree.leaves]
    clear label
    induction cs with
    | nil => rfl
    | cons c cs ihs =>
      rw [mapAll, leavesAll, leavesAll, List.map_append, ih c List.mem_cons_self,
        ihs fun d hd => ih d (List.mem_cons_of_mem _ hd)]

/-- Each leaf is in one of the parts, in the order it had. -/
theorem Splits.leaves (h : Splits t m r) : ∃ marks : List (L × Bool),
    marks.map Prod.fst = t.leaves ∧ partLeaves m = marks.filterMap (kept true) ∧
      partLeaves r = marks.filterMap (kept false) := by
  obtain ⟨marked, rfl, rfl, rfl⟩ := h
  exact ⟨marked.leaves, (leaves_map _ _).symm, leaves_prune _, leaves_prune _⟩

theorem Splits.full (h : Splits t m r) : (∀ u ∈ m, u.Full) ∧ ∀ u ∈ r, u.Full := by
  obtain ⟨marked, -, rfl, rfl⟩ := h
  exact ⟨full_prune _, full_prune _⟩

end split

end Pyrust.PartitionedTrees
