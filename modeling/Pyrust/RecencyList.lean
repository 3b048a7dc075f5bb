import Mathlib.Data.List.Nodup

/-!
# The links of a bounded cache

Nodes lie in slots of a vector and name their neighbours by slot. A removed
slot is taken again before the vector grows. The list that the links stand for
is its walk from the head: slots with their keys.
-/

set_option autoImplicit false

namespace Pyrust.RecencyList

universe u

structure LruNode (K : Type u) where
  key : K
  previous : Option ℕ
  next : Option ℕ
  deriving DecidableEq, Repr

/-- The free slots are a stack, the last freed one first. -/
structure LruLinks (K : Type u) where
  nodes : List (Option (LruNode K)) := []
  free : List ℕ := []
  head : Option ℕ := none
  tail : Option ℕ := none
  deriving DecidableEq, Repr

section operations
variable {K : Type u}

def nodeAt (l : LruLinks K) (index : ℕ) : Option (LruNode K) := l.nodes[index]?.join

def modifyNode (l : LruLinks K) (index : ℕ) (f : LruNode K → LruNode K) : LruLinks K :=
  { l with nodes := l.nodes.modify index (Option.map f) }

/-- The node before a gap, or the head, is set to lead to `next`. -/
def linkNext (l : LruLinks K) (previous next : Option ℕ) : LruLinks K :=
  match previous with
  | some index =>
    if (nodeAt l index).isSome then modifyNode l index fun node => { node with next := next }
    else { l with head := next }
  | none => { l with head := next }

/-- The node after a gap, or the tail, is set to lead back to `previous`. -/
def linkPrevious (l : LruLinks K) (next previous : Option ℕ) : LruLinks K :=
  match next with
  | some index =>
    if (nodeAt l index).isSome then
      modifyNode l index fun node => { node with previous := previous }
    else { l with tail := previous }
  | none => { l with tail := previous }

def takeSlot (l : LruLinks K) : ℕ × LruLinks K :=
  match l.free with
  | index::free => (index, { l with free := free })
  | [] => (l.nodes.length, { l with nodes := l.nodes ++ [none] })

def insertMru (l : LruLinks K) (key : K) : ℕ × LruLinks K :=
  let (index, l) := takeSlot l
  let l := { l with nodes := l.nodes.set index (some ⟨key, l.tail, none⟩) }
  (index, { linkNext l l.tail (some index) with tail := some index })

def promote (l : LruLinks K) (index : ℕ) : LruLinks K :=
  if l.tail = some index then l
  else
    match nodeAt l index with
    | none => l
    | some node =>
      let l := linkNext l node.previous node.next
      let l := match node.next with
        | some next => modifyNode l next fun follower => { follower with previous := node.previous }
        | none => l
      let l := match l.tail with
        | some tail => modifyNode l tail fun last => { last with next := some index }
        | none => l
      let l := modifyNode l index fun node => { node with previous := l.tail, next := none }
      { l with tail := some index }

def remove (l : LruLinks K) (index : ℕ) : Option K × LruLinks K :=
  match nodeAt l index with
  | none => (none, l)
  | some node =>
    let l := { l with nodes := l.nodes.set index none }
    let l := linkPrevious (linkNext l node.previous node.next) node.next node.previous
    (some node.key, { l with free := index::l.free })

def popLru (l : LruLinks K) : Option K × LruLinks K :=
  match l.head with
  | some head => remove l head
  | none => (none, l)

/-! ## Slots -/

theorem nodeAt_modify (l : LruLinks K) (index : ℕ) (f : LruNode K → LruNode K) (j : ℕ) :
    nodeAt (modifyNode l index f) j = if index = j then (nodeAt l j).map f else nodeAt l j := by
  simp only [nodeAt, modifyNode, List.getElem?_modify]
  cases l.nodes[j]? with
  | none => simp
  | some slot => split <;> simp

theorem nodeAt_set (l : LruLinks K) (index : ℕ) (slot : Option (LruNode K))
    (h : index < l.nodes.length) (j : ℕ) :
    nodeAt { l with nodes := l.nodes.set index slot } j = if index = j then slot else nodeAt l j := by
  rw [nodeAt, List.getElem?_set]
  split
  · rfl
  · rfl

theorem nodeAt_some_lt {l : LruLinks K} {index : ℕ} {node : LruNode K}
    (h : nodeAt l index = some node) : index < l.nodes.length := by
  by_contra hge
  rw [nodeAt, List.getElem?_eq_none (by omega)] at h
  exact absurd h (by simp)

/-! ## The walk -/

def headId (order : List (ℕ × K)) : Option ℕ := order.head?.map Prod.fst

def lastId (order : List (ℕ × K)) : Option ℕ := order.getLast?.map Prod.fst

/-- The nodes that `view` shows, from `head` to `tail`, are those of `order`, each linked to its
neighbours. -/
structure Chain (view : ℕ → Option (LruNode K)) (head tail : Option ℕ)
    (order : List (ℕ × K)) : Prop where
  nodup : (order.map Prod.fst).Nodup
  node : ∀ pre i key post, order = pre ++ (i, key)::post →
    view i = some ⟨key, lastId pre, headId post⟩
  head : head = headId order
  tail : tail = lastId order

/-- The list is consistent between its head and its tail, there are no other nodes, and the free
slots are free. -/
structure Linked (l : LruLinks K) (order : List (ℕ × K)) : Prop
    extends Chain (nodeAt l) l.head l.tail order where
  live : ∀ i, (nodeAt l i).isSome = true → i ∈ order.map Prod.fst
  free : ∀ i ∈ l.free, i < l.nodes.length ∧ nodeAt l i = none
  free_nodup : l.free.Nodup

theorem empty_linked : Linked ({} : LruLinks K) [] where
  nodup := .nil
  node := fun pre i key post h => absurd h.symm (by simp)
  head := rfl
  tail := rfl
  live := fun i h => by simp [nodeAt] at h
  free := fun i h => absurd h List.not_mem_nil
  free_nodup := .nil

theorem lastId_append_cons (pre : List (ℕ × K)) (entry : ℕ × K) (post : List (ℕ × K)) :
    lastId (pre ++ entry::post) = lastId (entry::post) := by
  rw [lastId, List.getLast?_append_cons, lastId]

theorem lastId_mem {order : List (ℕ × K)} {i : ℕ} (h : lastId order = some i) :
    i ∈ order.map Prod.fst := by
  obtain ⟨entry, hentry, rfl⟩ := Option.map_eq_some_iff.mp h
  exact List.mem_map_of_mem (List.mem_of_getLast? hentry)

theorem headId_mem {order : List (ℕ × K)} {i : ℕ} (h : headId order = some i) :
    i ∈ order.map Prod.fst := by
  obtain ⟨entry, hentry, rfl⟩ := Option.map_eq_some_iff.mp h
  exact List.mem_map_of_mem (List.mem_of_head? hentry)

theorem lastId_ne {j : ℕ} {key : K} {next : ℕ × K} {rest : List (ℕ × K)}
    (h : j ∉ (next::rest).map Prod.fst) : lastId ((j, key)::next::rest) ≠ some j := by
  intro hlast
  rw [show (j, key)::next::rest = [(j, key)] ++ next::rest from rfl, lastId_append_cons] at hlast
  exact h (lastId_mem hlast)

/-- An entry of two lists one after the other is an entry of the second or of the first. -/
theorem split_append {a b c d : List (ℕ × K)} {entry : ℕ × K} (h : a ++ b = c ++ entry::d) :
    (∃ e, c = a ++ e ∧ b = e ++ entry::d) ∨ ∃ e, a = c ++ entry::e ∧ d = e ++ b := by
  rcases List.append_eq_append_iff.mp h with hsecond | ⟨e, ha, hb⟩
  · exact Or.inl hsecond
  · cases e with
    | nil => exact Or.inl ⟨[], by simpa using ha.symm, hb.symm⟩
    | cons entry' e =>
      obtain ⟨rfl, hd⟩ := List.cons.inj hb
      exact Or.inr ⟨e, ha, hd⟩

/-- The walk goes on at the new tail. -/
theorem Chain.append {view view' : ℕ → Option (LruNode K)} {head tail : Option ℕ}
    {order : List (ℕ × K)} (h : Chain view head tail order) {i : ℕ} (key : K)
    (hi : i ∉ order.map Prod.fst) (hnew : view' i = some ⟨key, tail, none⟩)
    (hview : ∀ j ∈ order.map Prod.fst, view' j =
      if tail = some j then (view j).map fun node => { node with next := some i } else view j) :
    Chain view' (if order = [] then some i else head) (some i) (order ++ [(i, key)]) where
  nodup := by
    rw [List.map_append, List.nodup_append]
    refine ⟨h.nodup, by simp, ?_⟩
    rintro j hj _ hj' rfl
    simp only [List.map_cons, List.map_nil, List.mem_singleton] at hj'
    exact hi (hj' ▸ hj)
  node := by
    intro pre j key' post hsplit
    rcases split_append hsplit with ⟨c, hpre, hpost⟩ | ⟨c, horder, hpost⟩
    · -- the new node
      cases c with
      | nil =>
        obtain ⟨hentry, rfl⟩ := List.cons.inj hpost
        obtain ⟨rfl, rfl⟩ := Prod.mk.inj hentry
        rw [List.append_nil] at hpre
        rw [hnew, h.tail, hpre]
        rfl
      | cons entry c =>
        have hlength := congrArg List.length hpost
        simp at hlength
    · have hold := h.node pre j key' c horder
      rw [hview j (by simp [horder]), hold, h.tail, horder, lastId_append_cons, hpost]
      cases c with
      | nil => exact if_pos rfl
      | cons next c =>
        have hnodup := h.nodup
        rw [horder, List.map_append, List.nodup_append, List.map_cons, List.nodup_cons] at hnodup
        rw [if_neg (lastId_ne hnodup.2.1.1)]
        rfl
  head := by
    cases order with
    | nil => rfl
    | cons entry order => exact h.head
  tail := by rw [lastId_append_cons]; rfl

/-- A node leaves the walk, and its neighbours are linked to each other. -/
theorem Chain.unlink {view view' : ℕ → Option (LruNode K)} {head tail head' tail' : Option ℕ}
    {pre post : List (ℕ × K)} {i : ℕ} {key : K}
    (h : Chain view head tail (pre ++ (i, key)::post))
    (hhead : head' = if pre = [] then headId post else head)
    (htail : tail' = if post = [] then lastId pre else tail)
    (hnext : ∀ j ∈ pre.map Prod.fst, view' j =
      if lastId pre = some j then (view j).map fun node => { node with next := headId post }
      else view j)
    (hprevious : ∀ j ∈ post.map Prod.fst, view' j =
      if headId post = some j then (view j).map fun node => { node with previous := lastId pre }
      else view j) :
    Chain view' head' tail' (pre ++ post) where
  nodup := by
    have hnodup := h.nodup
    rw [List.map_append, List.map_cons] at hnodup
    rw [List.map_append]
    exact hnodup.sublist (List.Sublist.append_left (List.sublist_cons_self _ _) _)
  node := by
    intro a j key' b hsplit
    have hnodup := h.nodup
    rcases split_append hsplit with ⟨c, ha, hpost⟩ | ⟨c, hpre, hb⟩
    · have hold := h.node (pre ++ (i, key)::c) j key' b (by simp [hpost])
      rw [hprevious j (by simp [hpost]), hold, hpost, ha, lastId_append_cons]
      cases c with
      | nil =>
        rw [List.append_nil]
        exact if_pos rfl
      | cons next c =>
        have hne : headId (next::c ++ (j, key')::b) ≠ some j := by
          intro hhead
          simp only [hpost, List.map_append, List.map_cons, List.nodup_append, List.nodup_cons]
            at hnodup
          simp only [headId, List.cons_append, List.head?_cons, Option.map_some,
            Option.some.injEq] at hhead
          simp [hhead] at hnodup
        have hlast : lastId ((i, key)::next::c) = lastId (next::c) :=
          lastId_append_cons [(i, key)] next c
        rw [if_neg hne, lastId_append_cons, hlast]
    · have hold := h.node a j key' (c ++ (i, key)::post) (by simp [hpre])
      rw [hnext j (by simp [hpre]), hold, hpre, lastId_append_cons, hb]
      cases c with
      | nil => exact if_pos rfl
      | cons next c =>
        rw [hpre, List.append_assoc, List.cons_append, List.map_append, List.nodup_append,
          List.map_cons, List.nodup_cons] at hnodup
        have hother : j ∉ (next::c).map Prod.fst := fun hmem =>
          hnodup.2.1.1 (List.map_append ▸ List.mem_append_left _ hmem)
        rw [if_neg (lastId_ne hother)]
        rfl
  head := by
    rw [hhead]
    cases pre with
    | nil => rfl
    | cons entry pre => exact h.head
  tail := by
    rw [htail]
    cases post with
    | nil => rw [if_pos rfl, List.append_nil]
    | cons entry post =>
      rw [if_neg (by simp), h.tail, lastId_append_cons, lastId_append_cons]
      exact lastId_append_cons [(i, key)] entry post

/-! ## What the operations do to the walk -/

@[simp] theorem linkNext_tail (l : LruLinks K) (previous next : Option ℕ) :
    (linkNext l previous next).tail = l.tail := by
  unfold linkNext
  split
  · split <;> rfl
  · rfl

@[simp] theorem linkNext_free (l : LruLinks K) (previous next : Option ℕ) :
    (linkNext l previous next).free = l.free := by
  unfold linkNext
  split
  · split <;> rfl
  · rfl

@[simp] theorem linkNext_length (l : LruLinks K) (previous next : Option ℕ) :
    (linkNext l previous next).nodes.length = l.nodes.length := by
  unfold linkNext
  split
  · split
    · simp [modifyNode]
    · rfl
  · rfl

theorem linkNext_nodeAt (l : LruLinks K) (previous next : Option ℕ) (j : ℕ) :
    nodeAt (linkNext l previous next) j =
      if previous = some j then (nodeAt l j).map fun node => { node with next := next }
      else nodeAt l j := by
  cases previous with
  | none => rfl
  | some index =>
    simp only [linkNext, Option.some.injEq]
    cases hnode : nodeAt l index with
    | some node =>
      rw [Option.isSome_some, if_pos rfl]
      exact nodeAt_modify l index _ j
    | none =>
      rw [Option.isSome_none, if_neg Bool.false_ne_true]
      split
      · rename_i heq
        rw [← heq, hnode]
        exact hnode
      · rfl

theorem linkNext_isSome (l : LruLinks K) (previous next : Option ℕ) (j : ℕ) :
    (nodeAt (linkNext l previous next) j).isSome = (nodeAt l j).isSome := by
  rw [linkNext_nodeAt]
  split
  · exact Option.isSome_map
  · rfl

theorem linkNext_head (l : LruLinks K) {previous : Option ℕ} (next : Option ℕ)
    (h : ∀ index, previous = some index → (nodeAt l index).isSome = true) :
    (linkNext l previous next).head = if previous = none then next else l.head := by
  cases previous with
  | none => rfl
  | some index =>
    rw [linkNext, if_pos (h index rfl)]
    rfl

@[simp] theorem linkPrevious_head (l : LruLinks K) (next previous : Option ℕ) :
    (linkPrevious l next previous).head = l.head := by
  unfold linkPrevious
  split
  · split <;> rfl
  · rfl

@[simp] theorem linkPrevious_free (l : LruLinks K) (next previous : Option ℕ) :
    (linkPrevious l next previous).free = l.free := by
  unfold linkPrevious
  split
  · split <;> rfl
  · rfl

@[simp] theorem linkPrevious_length (l : LruLinks K) (next previous : Option ℕ) :
    (linkPrevious l next previous).nodes.length = l.nodes.length := by
  unfold linkPrevious
  split
  · split
    · simp [modifyNode]
    · rfl
  · rfl

theorem linkPrevious_nodeAt (l : LruLinks K) (next previous : Option ℕ) (j : ℕ) :
    nodeAt (linkPrevious l next previous) j =
      if next = some j then (nodeAt l j).map fun node => { node with previous := previous }
      else nodeAt l j := by
  cases next with
  | none => rfl
  | some index =>
    simp only [linkPrevious, Option.some.injEq]
    cases hnode : nodeAt l index with
    | some node =>
      rw [Option.isSome_some, if_pos rfl]
      exact nodeAt_modify l index _ j
    | none =>
      rw [Option.isSome_none, if_neg Bool.false_ne_true]
      split
      · rename_i heq
        rw [← heq, hnode]
        exact hnode
      · rfl

theorem linkPrevious_tail (l : LruLinks K) {next : Option ℕ} (previous : Option ℕ)
    (h : ∀ index, next = some index → (nodeAt l index).isSome = true) :
    (linkPrevious l next previous).tail = if next = none then previous else l.tail := by
  cases next with
  | none => rfl
  | some index =>
    rw [linkPrevious, if_pos (h index rfl)]
    rfl

theorem Chain.live {view : ℕ → Option (LruNode K)} {head tail : Option ℕ}
    {order : List (ℕ × K)} (h : Chain view head tail order) {i : ℕ}
    (hi : i ∈ order.map Prod.fst) : (view i).isSome = true := by
  obtain ⟨⟨j, key⟩, hentry, rfl⟩ := List.mem_map.mp hi
  obtain ⟨pre, post, hsplit⟩ := List.append_of_mem hentry
  rw [h.node pre j key post hsplit]
  rfl

/-- The slot that an insertion takes is free, and the other free slots stay free. -/
theorem takeSlot_free {l : LruLinks K} {order : List (ℕ × K)} (h : Linked l order) :
    (takeSlot l).1 < (takeSlot l).2.nodes.length ∧ nodeAt l (takeSlot l).1 = none ∧
      nodeAt (takeSlot l).2 = nodeAt l ∧ (takeSlot l).2.head = l.head ∧
      (takeSlot l).2.tail = l.tail ∧ (takeSlot l).1 ∉ (takeSlot l).2.free ∧
      (takeSlot l).2.free.Nodup ∧ ∀ i ∈ (takeSlot l).2.free,
        i < (takeSlot l).2.nodes.length ∧ nodeAt l i = none := by
  cases hfree : l.free with
  | nil =>
    have htake : takeSlot l = (l.nodes.length, { l with nodes := l.nodes ++ [none] }) := by
      rw [takeSlot, hfree]
    rw [htake]
    refine ⟨by simp, by simp [nodeAt], ?_, rfl, rfl, by simp [hfree], by simp [hfree],
      by simp [hfree]⟩
    funext j
    simp only [nodeAt, List.getElem?_append]
    split
    · rfl
    · rename_i hlt
      rw [List.getElem?_eq_none (by omega : l.nodes.length ≤ j)]
      cases hgap : j - l.nodes.length with
      | zero => rfl
      | succ gap => rfl
  | cons index free =>
    have htake : takeSlot l = (index, { l with free := free }) := by rw [takeSlot, hfree]
    have hnodup := h.free_nodup
    have hslots := h.free
    rw [hfree] at hnodup hslots
    rw [htake]
    obtain ⟨hnot, hrest⟩ := List.nodup_cons.mp hnodup
    obtain ⟨hlt, hnone⟩ := hslots index (.head _)
    exact ⟨hlt, hnone, rfl, rfl, rfl, hnot, hrest, fun i hi => hslots i (.tail _ hi)⟩

theorem insertMru_linked {l : LruLinks K} {order : List (ℕ × K)} (h : Linked l order) (key : K) :
    Linked (insertMru l key).2 (order ++ [((insertMru l key).1, key)]) := by
  obtain ⟨hlt, hnone, hview, hhead, htail, hnot, hnodup, hfree⟩ := takeSlot_free h
  rw [insertMru]
  generalize takeSlot l = taken at *
  obtain ⟨index, l'⟩ := taken
  dsimp only at *
  have hindex : index ∉ order.map Prod.fst := by
    intro hmem
    rw [← Option.not_isSome_iff_eq_none] at hnone
    exact hnone (h.toChain.live hmem)
  have hset : ∀ j, nodeAt { l' with nodes := l'.nodes.set index (some ⟨key, l'.tail, none⟩) } j =
      if index = j then some ⟨key, l'.tail, none⟩ else nodeAt l j := by
    intro j
    rw [nodeAt_set l' index _ hlt, hview]
  have hlink := linkNext_nodeAt
    { l' with nodes := l'.nodes.set index (some ⟨key, l'.tail, none⟩) } l'.tail (some index)
  have hother : ∀ j ∈ order.map Prod.fst, index ≠ j := fun j hj heq => hindex (heq ▸ hj)
  have hlast : l.tail ≠ some index := by
    rw [h.tail]
    exact fun heq => hindex (lastId_mem heq)
  have hhead' : (linkNext
      { l' with nodes := l'.nodes.set index (some ⟨key, l'.tail, none⟩) } l'.tail
        (some index)).head = if order = [] then some index else l.head := by
    rw [linkNext_head]
    · rw [htail, h.tail, hhead]
      cases order with
      | nil => rfl
      | cons entry order => simp [lastId]
    · intro last hl
      rw [htail, h.tail] at hl
      rw [hset, if_neg (hother last (lastId_mem hl))]
      exact h.toChain.live (lastId_mem hl)
  constructor
  · show Chain (fun j => nodeAt (linkNext _ _ _) j) (linkNext _ _ _).head (some index) _
    rw [hhead']
    apply h.toChain.append key hindex
    · rw [hlink, htail, if_neg hlast, ← htail, hset, if_pos rfl]
    · intro j hj
      rw [hlink, hset, if_neg (hother j hj), htail]
  · intro j hj
    change (nodeAt (linkNext { l' with nodes := l'.nodes.set index (some ⟨key, l'.tail, none⟩) }
      l'.tail (some index)) j).isSome = true at hj
    rw [hlink, hset] at hj
    by_cases heq : index = j
    · simp [heq]
    · rw [if_neg heq] at hj
      rw [List.map_append]
      apply List.mem_append_left
      apply h.live
      split at hj
      · rwa [Option.isSome_map] at hj
      · exact hj
  · intro i hi
    simp only [linkNext_free] at hi
    obtain ⟨hlt', hnone'⟩ := hfree i hi
    refine ⟨by simpa using hlt', ?_⟩
    have hne : index ≠ i := fun heq => hnot (heq ▸ hi)
    have hgone := hlink i
    rw [hset, if_neg hne, hnone'] at hgone
    exact hgone.trans (by simp)
  · simpa using hnodup

/-- The links of a node that lies between two others, or at an end. -/
theorem Linked.at_split {l : LruLinks K} {pre post : List (ℕ × K)} {i : ℕ} {key : K}
    (h : Linked l (pre ++ (i, key)::post)) :
    nodeAt l i = some ⟨key, lastId pre, headId post⟩ ∧
      i ∉ pre.map Prod.fst ∧ i ∉ post.map Prod.fst := by
  have hnodup := h.nodup
  rw [List.map_append, List.map_cons, List.nodup_append, List.nodup_cons] at hnodup
  exact ⟨h.node pre i key post rfl, fun hmem => hnodup.2.2 i hmem i (.head _) rfl, hnodup.2.1.1⟩

/-- A node whose neighbours are linked to each other has left the walk. -/
theorem Linked.unlink {l : LruLinks K} {pre post : List (ℕ × K)} {i : ℕ} {key : K}
    (h : Linked l (pre ++ (i, key)::post)) {cut : LruLinks K} (hhead : cut.head = l.head)
    (htail : cut.tail = l.tail) (hcut : ∀ j, j ≠ i → nodeAt cut j = nodeAt l j) :
    let left := linkNext cut (lastId pre) (headId post)
    let l' := linkPrevious left (headId post) (lastId pre)
    Chain (nodeAt l') l'.head l'.tail (pre ++ post) ∧
      (∀ j, (nodeAt l' j).isSome = (nodeAt cut j).isSome) ∧ nodeAt l' i = nodeAt cut i := by
  intro left l'
  obtain ⟨-, hpre, hpost⟩ := h.at_split
  have hkept : ∀ j, j ∈ pre.map Prod.fst ∨ j ∈ post.map Prod.fst →
      nodeAt cut j = nodeAt l j ∧ (nodeAt cut j).isSome = true := by
    intro j hj
    have hne : j ≠ i := by
      rintro rfl
      exact hj.elim hpre hpost
    rw [hcut j hne]
    refine ⟨rfl, h.toChain.live ?_⟩
    rw [List.map_append, List.map_cons, List.mem_append, List.mem_cons]
    exact hj.imp_right Or.inr
  have hleft : ∀ j, nodeAt left j = _ := linkNext_nodeAt cut (lastId pre) (headId post)
  have hlast : ∀ j, nodeAt l' j = _ := linkPrevious_nodeAt left (headId post) (lastId pre)
  have hsome := linkNext_isSome cut (lastId pre) (headId post)
  constructor
  · apply h.toChain.unlink
    · rw [linkPrevious_head, linkNext_head, hhead]
      · cases pre with
        | nil => rfl
        | cons entry pre => simp [lastId]
      · exact fun j hj => (hkept j (Or.inl (lastId_mem hj))).2
    · rw [linkPrevious_tail, linkNext_tail, htail]
      · cases post with
        | nil => rfl
        | cons entry post => simp [headId]
      · intro j hj
        rw [hsome]
        exact (hkept j (Or.inr (headId_mem hj))).2
    · intro j hj
      have hother : headId post ≠ some j := by
        intro hfirst
        have hnodup := h.nodup
        rw [List.map_append, List.map_cons, List.nodup_append] at hnodup
        exact hnodup.2.2 j hj j (.tail _ (headId_mem hfirst)) rfl
      rw [hlast, if_neg hother, hleft, (hkept j (Or.inl hj)).1]
    · intro j hj
      have hother : lastId pre ≠ some j := by
        intro hfirst
        have hnodup := h.nodup
        rw [List.map_append, List.map_cons, List.nodup_append] at hnodup
        exact hnodup.2.2 j (lastId_mem hfirst) j (.tail _ hj) rfl
      rw [hlast, hleft, if_neg hother, (hkept j (Or.inr hj)).1]
  · refine ⟨fun j => ?_, ?_⟩
    · rw [hlast, ← hsome]
      split
      · exact Option.isSome_map
      · rfl
    · rw [hlast, if_neg fun heq => hpost (headId_mem heq), hleft,
        if_neg fun heq => hpre (lastId_mem heq)]

theorem remove_linked {l : LruLinks K} {pre post : List (ℕ × K)} {i : ℕ} {key : K}
    (h : Linked l (pre ++ (i, key)::post)) :
    (remove l i).1 = some key ∧ Linked (remove l i).2 (pre ++ post) := by
  obtain ⟨hnode, hpre, hpost⟩ := h.at_split
  have hlt := nodeAt_some_lt hnode
  have hset := nodeAt_set l i none hlt
  have hlength : (l.nodes.set i none).length = l.nodes.length := List.length_set
  let cut : LruLinks K := { l with nodes := l.nodes.set i none }
  have hkept : ∀ j, j ≠ i → nodeAt cut j = nodeAt l j :=
    fun j hj => by rw [hset, if_neg hj.symm]
  have hhead : cut.head = l.head := rfl
  obtain ⟨hchain, hlive, -⟩ := h.unlink hhead rfl hkept
  rw [remove, hnode]
  refine ⟨rfl, ⟨hchain, ?_, ?_, ?_⟩⟩
  · intro j hj
    have hcut := (hlive j).symm.trans hj
    rw [hset] at hcut
    split at hcut
    · exact absurd hcut Bool.false_ne_true
    · rename_i hne
      have hmem := h.live j hcut
      rw [List.map_append, List.map_cons, List.mem_append, List.mem_cons] at hmem
      rw [List.map_append, List.mem_append]
      exact hmem.imp_right fun hor => hor.resolve_left fun heq => hne heq.symm
  · intro j hj
    simp only [linkPrevious_free, linkNext_free, List.mem_cons] at hj
    simp only [linkPrevious_length, linkNext_length, hlength]
    have hgone : (nodeAt { l with nodes := l.nodes.set i none } j).isSome = false ∧
        j < l.nodes.length := by
      rw [hset]
      rcases hj with rfl | hj
      · rw [if_pos rfl]
        exact ⟨rfl, hlt⟩
      · obtain ⟨hlt', hnone⟩ := h.free j hj
        rw [hnone]
        exact ⟨by split <;> rfl, hlt'⟩
    refine ⟨hgone.2, ?_⟩
    rw [← Option.not_isSome_iff_eq_none]
    exact fun hsome => Bool.false_ne_true (hgone.1.symm.trans ((hlive j).symm.trans hsome))
  · simp only [linkPrevious_free, linkNext_free, List.nodup_cons]
    refine ⟨fun hmem => ?_, h.free_nodup⟩
    rw [(h.free i hmem).2] at hnode
    exact absurd hnode (by simp)

theorem popLru_linked {l : LruLinks K} {post : List (ℕ × K)} {i : ℕ} {key : K}
    (h : Linked l ((i, key)::post)) :
    (popLru l).1 = some key ∧ Linked (popLru l).2 post := by
  rw [popLru, h.head]
  exact @remove_linked _ _ [] _ _ _ h

theorem popLru_empty {l : LruLinks K} (h : Linked l []) : popLru l = (none, l) := by
  rw [popLru, h.head]
  rfl

theorem promote_linked {l : LruLinks K} {pre post : List (ℕ × K)} {i : ℕ} {key : K}
    (h : Linked l (pre ++ (i, key)::post)) :
    Linked (promote l i) (pre ++ post ++ [(i, key)]) := by
  obtain ⟨hnode, hpre, hpost⟩ := h.at_split
  cases post with
  | nil =>
    have htail : l.tail = some i := by
      rw [h.tail, lastId_append_cons]
      rfl
    rw [promote, if_pos htail, List.append_nil]
    exact h
  | cons entry post =>
    have hne : l.tail ≠ some i := by
      rw [h.tail, lastId_append_cons]
      exact lastId_ne hpost
    obtain ⟨hchain, hlive, hkept⟩ := h.unlink rfl rfl fun j _ => rfl
    have hfollower : (match headId (entry::post) with
        | some next => modifyNode (linkNext l (lastId pre) (headId (entry::post))) next
            fun follower => { follower with previous := lastId pre }
        | none => linkNext l (lastId pre) (headId (entry::post))) =
          linkPrevious (linkNext l (lastId pre) (headId (entry::post))) (headId (entry::post))
            (lastId pre) := by
      have hlive' : (nodeAt l entry.1).isSome = true := h.toChain.live (by simp)
      exact (if_pos (by rw [linkNext_isSome]; exact hlive')).symm
    rw [promote, if_neg hne, hnode]
    dsimp only
    rw [hfollower]
    have hfree : (linkPrevious (linkNext l (lastId pre) (headId (entry::post)))
        (headId (entry::post)) (lastId pre)).free = l.free := by simp
    have hlength : (linkPrevious (linkNext l (lastId pre) (headId (entry::post)))
        (headId (entry::post)) (lastId pre)).nodes.length = l.nodes.length := by simp
    generalize linkPrevious (linkNext l (lastId pre) (headId (entry::post)))
      (headId (entry::post)) (lastId pre) = cut at *
    have hi : i ∉ (pre ++ entry::post).map Prod.fst := by
      rw [List.map_append, List.mem_append]
      exact fun hmem => hmem.elim hpre hpost
    obtain ⟨last, hlast⟩ : ∃ last, cut.tail = some last := by
      rw [hchain.tail, lastId_append_cons]
      exact ⟨_, by rw [lastId, List.getLast?_cons]; rfl⟩
    have hlast_ne : last ≠ i := fun heq => hi (lastId_mem (hchain.tail ▸ heq ▸ hlast))
    rw [hlast]
    dsimp only
    have hview : ∀ j, nodeAt (modifyNode (modifyNode cut last fun node =>
          { node with next := some i }) i fun node =>
            { node with previous := cut.tail, next := none }) j =
        if i = j then some ⟨key, cut.tail, none⟩
        else if cut.tail = some j then (nodeAt cut j).map fun node => { node with next := some i }
        else nodeAt cut j := by
      intro j
      rw [nodeAt_modify, nodeAt_modify, hlast]
      simp only [Option.some.injEq]
      by_cases hij : i = j
      · rw [if_pos hij, if_pos hij, ← hij, if_neg hlast_ne, hkept, hnode]
        rfl
      · rw [if_neg hij, if_neg hij]
    have hview_some : ∀ j, (nodeAt (modifyNode (modifyNode cut last fun node =>
          { node with next := some i }) i fun node =>
            { node with previous := cut.tail, next := none }) j).isSome =
        (nodeAt l j).isSome := by
      intro j
      rw [← hlive, hview]
      split
      · rename_i hij
        rw [← hij, hkept, hnode]
        rfl
      · split
        · exact Option.isSome_map
        · rfl
    refine ⟨?_, ?_, ?_, ?_⟩
    · have hnext := hchain.append key hi ((hview i).trans (if_pos rfl)) fun j hj =>
        (hview j).trans (if_neg fun heq : i = j => hi (heq ▸ hj))
      rw [if_neg (by simp)] at hnext
      exact hnext
    · intro j hj
      have hmem := h.live j ((hview_some j).symm.trans hj)
      simp only [List.map_append, List.map_cons, List.map_nil, List.mem_append, List.mem_cons]
        at hmem ⊢
      tauto
    · intro j hj
      have hold := h.free j (hfree ▸ hj)
      refine ⟨by simpa [modifyNode, hlength] using hold.1, ?_⟩
      rw [← Option.not_isSome_iff_eq_none]
      intro hsome
      rw [← Option.not_isSome_iff_eq_none] at hold
      exact hold.2 ((hview_some j).symm.trans hsome)
    · show (cut.free).Nodup
      rw [hfree]
      exact h.free_nodup

/-- A stale slot may be promoted: the walk keeps its nodes. -/
theorem promote_any {l : LruLinks K} {order : List (ℕ × K)} (h : Linked l order) (i : ℕ) :
    ∃ order', Linked (promote l i) order' ∧ order'.Perm order := by
  by_cases hi : i ∈ order.map Prod.fst
  · obtain ⟨⟨j, key⟩, hentry, rfl⟩ := List.mem_map.mp hi
    obtain ⟨pre, post, rfl⟩ := List.append_of_mem hentry
    refine ⟨_, promote_linked h, ?_⟩
    rw [List.append_assoc]
    exact (List.perm_append_singleton (j, key) post).append_left pre
  · refine ⟨order, ?_, .refl order⟩
    have hnone : nodeAt l i = none := by
      rw [← Option.not_isSome_iff_eq_none]
      exact fun hsome => hi (h.live i hsome)
    rw [promote, hnone]
    split <;> exact h

end operations

end Pyrust.RecencyList
