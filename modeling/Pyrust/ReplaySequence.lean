import Mathlib.Data.List.Nodup
import Pyrust.ImplicitTrees

/-!
# The sequence a journal is replayed over

The keys of a replay stand in a treap without search keys, whose nodes link to each other
by their place in a list. A position is found by the lengths of the subtrees. Splitting and
merging only change the links and the lengths of the nodes they pass, and no priority
assignment matters to the order. A removed node gives its key up and is left unlinked.
-/

set_option autoImplicit false

namespace Pyrust.ReplaySequence

open ImplicitTrees

variable {κ : Type}

structure DictReplaySequenceNode (κ : Type) where
  key : Option κ
  priority : UInt64
  left : Option ℕ
  right : Option ℕ
  subtreeLen : ℕ
  deriving Repr

structure DictReplaySequence (κ : Type) where
  nodes : List (DictReplaySequenceNode κ) := []
  root : Option ℕ := none
  deriving Repr

/-! ## The methods

None is a panic: an index out of range, a failed assertion, or fuel that ran out. -/

def priorityFor (index : ℕ) : UInt64 :=
  let value := UInt64.ofNat index + 0x9e3779b97f4a7c15
  let value := (value ^^^ (value >>> 30)) * 0xbf58476d1ce4e5b9
  let value := (value ^^^ (value >>> 27)) * 0x94d049bb133111eb
  value ^^^ (value >>> 31)

def nodeLen (nodes : List (DictReplaySequenceNode κ)) : Option ℕ → Option ℕ
  | none => some 0
  | some index => nodes[index]?.map DictReplaySequenceNode.subtreeLen

def refresh (nodes : List (DictReplaySequenceNode κ)) (node : ℕ) :
    Option (List (DictReplaySequenceNode κ)) := do
  let n ← nodes[node]?
  let left ← nodeLen nodes n.left
  let right ← nodeLen nodes n.right
  some (nodes.set node {n with subtreeLen := 1+left+right})

/-- The assignment of a left child, and the refresh after it. -/
def attachLeft (nodes : List (DictReplaySequenceNode κ)) (node : ℕ) (child : Option ℕ) :
    Option (List (DictReplaySequenceNode κ)) := do
  let n ← nodes[node]?
  refresh (nodes.set node {n with left := child}) node

/-- The assignment of a right child, and the refresh after it. -/
def attachRight (nodes : List (DictReplaySequenceNode κ)) (node : ℕ) (child : Option ℕ) :
    Option (List (DictReplaySequenceNode κ)) := do
  let n ← nodes[node]?
  refresh (nodes.set node {n with right := child}) node

def merge : ℕ → List (DictReplaySequenceNode κ) → Option ℕ → Option ℕ →
    Option (List (DictReplaySequenceNode κ) × Option ℕ)
  | 0, _, _, _ => none
  | _+1, nodes, none, other => some (nodes, other)
  | _+1, nodes, some left, none => some (nodes, some left)
  | fuel+1, nodes, some left, some right => do
    let l ← nodes[left]?
    let r ← nodes[right]?
    if r.priority ≤ l.priority then
      -- the child is taken out of its slot before the call
      let (nodes, merged) ← merge fuel (nodes.set left {l with right := none}) l.right right
      let nodes ← attachRight nodes left merged
      some (nodes, some left)
    else
      let (nodes, merged) ← merge fuel (nodes.set right {r with left := none}) left r.left
      let nodes ← attachLeft nodes right merged
      some (nodes, some right)

def split : ℕ → List (DictReplaySequenceNode κ) → Option ℕ → ℕ →
    Option (List (DictReplaySequenceNode κ) × Option ℕ × Option ℕ)
  | 0, _, _, _ => none
  | _+1, nodes, none, _ => some (nodes, none, none)
  | fuel+1, nodes, some root, leftLen => do
    let n ← nodes[root]?
    let rootLeftLen ← nodeLen nodes n.left
    if leftLen ≤ rootLeftLen then
      let (nodes, before, newLeft) ←
        split fuel (nodes.set root {n with left := none}) n.left leftLen
      let nodes ← attachLeft nodes root newLeft
      some (nodes, before, some root)
    else
      let (nodes, newRight, after) ←
        split fuel (nodes.set root {n with right := none}) n.right (leftLen-rootLeftLen-1)
      let nodes ← attachRight nodes root newRight
      some (nodes, some root, after)

section methods
variable (priority : ℕ → UInt64)

def allocateNode (nodes : List (DictReplaySequenceNode κ)) (key : κ) :
    List (DictReplaySequenceNode κ) × ℕ :=
  (nodes ++ [⟨some key, priority nodes.length, none, none, 1⟩], nodes.length)

def insert (fuel : ℕ) (s : DictReplaySequence κ) (index : ℕ) (key : κ) :
    Option (DictReplaySequence κ) := do
  let len ← nodeLen s.nodes s.root
  -- the debug assertion
  guard (index ≤ len)
  let (nodes, left, right) ← split fuel s.nodes s.root index
  let (nodes, node) := allocateNode priority nodes key
  let (nodes, withNode) ← merge fuel nodes left node
  let (nodes, root) ← merge fuel nodes withNode right
  some ⟨nodes, root⟩

/-- The key that is removed, with the node it was in. -/
def removeNode (fuel : ℕ) (s : DictReplaySequence κ) (index : ℕ) :
    Option (DictReplaySequence κ × ℕ × κ) := do
  let len ← nodeLen s.nodes s.root
  -- the debug assertion
  guard (index < len)
  let (nodes, left, remainder) ← split fuel s.nodes s.root index
  let (nodes, removed, right) ← split fuel nodes remainder 1
  let (nodes, root) ← merge fuel nodes left right
  let removed ← removed
  let n ← nodes[removed]?
  -- the debug assertion
  guard (n.subtreeLen = 1)
  let key ← n.key
  some (⟨nodes.set removed {n with key := none}, root⟩, removed, key)

def remove (fuel : ℕ) (s : DictReplaySequence κ) (index : ℕ) :
    Option (DictReplaySequence κ × κ) :=
  (removeNode fuel s index).map fun (s, _, key) => (s, key)

def push (fuel : ℕ) (s : DictReplaySequence κ) (key : κ) : Option (DictReplaySequence κ) := do
  let len ← nodeLen s.nodes s.root
  insert priority fuel s len key

/-- The last key, when there is one. -/
def pop (fuel : ℕ) (s : DictReplaySequence κ) :
    Option (DictReplaySequence κ × Option κ) := do
  let len ← nodeLen s.nodes s.root
  if len = 0 then some (s, none)
  else (remove fuel s (len-1)).map fun (s, key) => (s, some key)

end methods

/-- The keys in the order of their visits, each with the node it is read from. -/
def visitInOrder : ℕ → List (DictReplaySequenceNode κ) → Option ℕ → Option (List (ℕ × κ))
  | 0, _, _ => none
  | _+1, _, none => some []
  | fuel+1, nodes, some root => do
    let n ← nodes[root]?
    let before ← visitInOrder fuel nodes n.left
    let key ← n.key
    let after ← visitInOrder fuel nodes n.right
    some (before ++ (root, key)::after)

/-! ## Nodes that stand for a tree -/

/-- The links from a root are those of the tree, and every length is exact. -/
def Represents (nodes : List (DictReplaySequenceNode κ)) : BinaryTree ℕ → Option ℕ → Prop
  | .nil, o => o = none
  | .node i l r, o => o = some i ∧ ∃ n, nodes[i]? = some n ∧ Represents nodes l n.left ∧
      Represents nodes r n.right ∧ n.subtreeLen = l.numNodes+r.numNodes+1

/-- What splitting and merging leave of a node. -/
def DictReplaySequenceNode.content (n : DictReplaySequenceNode κ) : Option κ × UInt64 :=
  (n.key, n.priority)

/-- Only links and lengths change, and only of the nodes on the list. -/
structure Relinks (touched : List ℕ) (nodes nodes' : List (DictReplaySequenceNode κ)) :
    Prop where
  contents : nodes'.map (·.content) = nodes.map (·.content)
  others : ∀ j ∉ touched, nodes'[j]? = nodes[j]?

section relinks
variable {nodes nodes' nodes'' : List (DictReplaySequenceNode κ)} {touched : List ℕ}

theorem Relinks.refl : Relinks touched nodes nodes := ⟨rfl, fun _ _ => rfl⟩

theorem Relinks.trans (h : Relinks touched nodes nodes') (h' : Relinks touched nodes' nodes'') :
    Relinks touched nodes nodes'' :=
  ⟨h'.contents.trans h.contents, fun j hj => (h'.others j hj).trans (h.others j hj)⟩

theorem Relinks.mono {touched' : List ℕ} (h : Relinks touched nodes nodes')
    (hsub : touched ⊆ touched') : Relinks touched' nodes nodes' :=
  ⟨h.contents, fun j hj => h.others j fun hmem => hj (hsub hmem)⟩

theorem Relinks.set {i : ℕ} {n n' : DictReplaySequenceNode κ} (hn : nodes[i]? = some n)
    (hcontent : n'.content = n.content) : Relinks [i] nodes (nodes.set i n') := by
  obtain ⟨hi, rfl⟩ := List.getElem?_eq_some_iff.mp hn
  refine ⟨?_, fun j hj => List.getElem?_set_ne (Ne.symm (List.ne_of_not_mem_cons hj))⟩
  have hbound : i < (nodes.map (·.content)).length := by rwa [List.length_map]
  have hself := List.set_getElem_self hbound
  rwa [List.getElem_map, ← hcontent, ← List.map_set] at hself

/-- Only the nodes of the tree matter. -/
theorem represents_congr {t : BinaryTree ℕ} {o : Option ℕ} (hrep : Represents nodes t o)
    (heq : ∀ i ∈ inorder t, nodes'[i]? = nodes[i]?) : Represents nodes' t o := by
  induction t generalizing o with
  | nil => exact hrep
  | node i l r hl hr =>
    obtain ⟨rfl, n, hn, hleft, hright, hlen⟩ := hrep
    exact ⟨rfl, n, by rw [heq i (by simp), hn], hl hleft fun j hj => heq j (by simp [hj]),
      hr hright fun j hj => heq j (by simp [hj]), hlen⟩

theorem Relinks.represents {t : BinaryTree ℕ} {o : Option ℕ} (h : Relinks touched nodes nodes')
    (hrep : Represents nodes t o) (hout : ∀ i ∈ inorder t, i ∉ touched) :
    Represents nodes' t o :=
  represents_congr hrep fun i hi => h.others i (hout i hi)

theorem Relinks.represents_one {i : ℕ} {t : BinaryTree ℕ} {o : Option ℕ}
    (h : Relinks [i] nodes nodes') (hrep : Represents nodes t o) (hi : i ∉ inorder t) :
    Represents nodes' t o :=
  h.represents hrep fun _ hj hmem => hi (List.mem_singleton.mp hmem ▸ hj)

end relinks

section links
variable {nodes : List (DictReplaySequenceNode κ)}

theorem getElem?_set_present {i : ℕ} {n n' : DictReplaySequenceNode κ}
    (hn : nodes[i]? = some n) : (nodes.set i n')[i]? = some n' := by
  obtain ⟨hi, -⟩ := List.getElem?_eq_some_iff.mp hn
  exact List.getElem?_set_self hi

theorem nodeLen_of_represents {t : BinaryTree ℕ} {o : Option ℕ} (h : Represents nodes t o) :
    nodeLen nodes o = some t.numNodes := by
  cases t with
  | nil =>
    cases h
    rfl
  | node i l r =>
    obtain ⟨rfl, n, hn, hleft, hright, hlen⟩ := h
    rw [nodeLen, hn, Option.map_some, hlen, BinaryTree.numNodes]

/-- A node whose children represent two trees stands, once refreshed, for both under it. -/
theorem refresh_represents {i : ℕ} {l r : BinaryTree ℕ} {n : DictReplaySequenceNode κ}
    (hn : nodes[i]? = some n) (hl : Represents nodes l n.left) (hr : Represents nodes r n.right)
    (hil : i ∉ inorder l) (hir : i ∉ inorder r) :
    ∃ nodes', refresh nodes i = some nodes' ∧ Represents nodes' (.node i l r) (some i) ∧
      Relinks [i] nodes nodes' := by
  obtain ⟨n', hn'⟩ : ∃ n', n' = {n with subtreeLen := 1+l.numNodes+r.numNodes} := ⟨_, rfl⟩
  have hlinks : Relinks [i] nodes (nodes.set i n') := Relinks.set hn (hn' ▸ rfl)
  refine ⟨nodes.set i n', ?_, ⟨rfl, n', getElem?_set_present hn, ?_, ?_, ?_⟩, hlinks⟩
  · rw [refresh, hn, Option.bind_eq_bind, Option.bind_some, nodeLen_of_represents hl,
      nodeLen_of_represents hr, hn']
    rfl
  · exact hlinks.represents_one (hn' ▸ hl) hil
  · exact hlinks.represents_one (hn' ▸ hr) hir
  · simp only [hn']
    omega

theorem attachLeft_represents {i : ℕ} {l r : BinaryTree ℕ} {n : DictReplaySequenceNode κ}
    {child : Option ℕ} (hn : nodes[i]? = some n) (hl : Represents nodes l child)
    (hr : Represents nodes r n.right) (hil : i ∉ inorder l) (hir : i ∉ inorder r) :
    ∃ nodes', attachLeft nodes i child = some nodes' ∧ Represents nodes' (.node i l r) (some i) ∧
      Relinks [i] nodes nodes' := by
  obtain ⟨n', hn'⟩ : ∃ n', n' = {n with left := child} := ⟨_, rfl⟩
  have hset : Relinks [i] nodes (nodes.set i n') := Relinks.set hn (hn' ▸ rfl)
  obtain ⟨nodes', hrefresh, hrep, hlinks⟩ := refresh_represents (getElem?_set_present hn)
    (hset.represents_one (hn' ▸ hl) hil) (hset.represents_one (hn' ▸ hr) hir) hil hir
  refine ⟨nodes', ?_, hrep, hset.trans hlinks⟩
  rw [attachLeft, hn, Option.bind_eq_bind, Option.bind_some, ← hn', hrefresh]

theorem attachRight_represents {i : ℕ} {l r : BinaryTree ℕ} {n : DictReplaySequenceNode κ}
    {child : Option ℕ} (hn : nodes[i]? = some n) (hl : Represents nodes l n.left)
    (hr : Represents nodes r child) (hil : i ∉ inorder l) (hir : i ∉ inorder r) :
    ∃ nodes', attachRight nodes i child = some nodes' ∧ Represents nodes' (.node i l r) (some i) ∧
      Relinks [i] nodes nodes' := by
  obtain ⟨n', hn'⟩ : ∃ n', n' = {n with right := child} := ⟨_, rfl⟩
  have hset : Relinks [i] nodes (nodes.set i n') := Relinks.set hn (hn' ▸ rfl)
  obtain ⟨nodes', hrefresh, hrep, hlinks⟩ := refresh_represents (getElem?_set_present hn)
    (hset.represents_one (hn' ▸ hl) hil) (hset.represents_one (hn' ▸ hr) hir) hil hir
  refine ⟨nodes', ?_, hrep, hset.trans hlinks⟩
  rw [attachRight, hn, Option.bind_eq_bind, Option.bind_some, ← hn', hrefresh]

end links

/-! ## Splitting and merging -/

theorem split_front_subset (t : BinaryTree ℕ) (n : ℕ) :
    inorder (ImplicitTrees.split t n).1 ⊆ inorder t := by
  rw [(split_inorder t n).1]
  exact List.take_subset n _

theorem split_rest_subset (t : BinaryTree ℕ) (n : ℕ) :
    inorder (ImplicitTrees.split t n).2 ⊆ inorder t := by
  rw [(split_inorder t n).2]
  exact List.drop_subset n _

/-- Splitting the nodes of a tree leaves the two trees of its split. -/
theorem split_represents (t : BinaryTree ℕ) (fuel : ℕ)
    (nodes : List (DictReplaySequenceNode κ)) (o : Option ℕ) (n : ℕ)
    (hrep : Represents nodes t o) (hnodup : (inorder t).Nodup) (hfuel : t.numNodes < fuel) :
    ∃ nodes' a b, split fuel nodes o n = some (nodes', a, b) ∧
      Represents nodes' (ImplicitTrees.split t n).1 a ∧
      Represents nodes' (ImplicitTrees.split t n).2 b ∧ Relinks (inorder t) nodes nodes' := by
  induction t generalizing fuel nodes o n with
  | nil =>
    cases hrep
    obtain ⟨f, rfl⟩ := Nat.exists_eq_add_of_lt hfuel
    exact ⟨nodes, none, none, rfl, rfl, rfl, Relinks.refl⟩
  | node i l r ihl ihr =>
    obtain ⟨rfl, m, hm, hleft, hright, -⟩ := hrep
    obtain ⟨f, rfl⟩ : ∃ f, fuel = f+1 := ⟨fuel-1, by omega⟩
    rw [BinaryTree.numNodes] at hfuel
    rw [inorder_node, List.nodup_append, List.nodup_cons] at hnodup
    obtain ⟨hl, ⟨hir, hr⟩, hdisjoint⟩ := hnodup
    have hil : i ∉ inorder l := fun hmem => hdisjoint i hmem i List.mem_cons_self rfl
    have hlr : ∀ j ∈ inorder l, j ∉ inorder r := fun j hj hj' =>
      hdisjoint j hj j (List.mem_cons_of_mem i hj') rfl
    have hwhole : [i] ⊆ inorder (.node i l r) := by simp
    have hlsub : inorder l ⊆ inorder (.node i l r) := by simp
    have hrsub : inorder r ⊆ inorder (.node i l r) := by
      rw [inorder_node]
      exact fun j hj => List.mem_append_right _ (List.mem_cons_of_mem i hj)
    by_cases hle : n ≤ l.numNodes
    · obtain ⟨m', hm'⟩ : ∃ m', m' = {m with left := none} := ⟨_, rfl⟩
      have hset : Relinks [i] nodes (nodes.set i m') := Relinks.set hm (hm' ▸ rfl)
      obtain ⟨nodes₁, a, b, hsplit, ha, hb, hlinks⟩ :=
        ihl f (nodes.set i m') m.left n (hset.represents_one hleft hil) hl (by omega)
      have hm₁ : nodes₁[i]? = some m' := by
        rw [hlinks.others i hil, getElem?_set_present hm]
      have hr₁ : Represents nodes₁ r m'.right :=
        hlinks.represents (hset.represents_one (hm' ▸ hright) hir) fun j hj hj' => hlr j hj' hj
      obtain ⟨nodes₂, hattach, hrep₂, hlinks₂⟩ := attachLeft_represents hm₁ hb hr₁
        (fun hmem => hil (split_rest_subset l n hmem)) hir
      refine ⟨nodes₂, a, some i, ?_, ?_, ?_, ?_⟩
      · rw [split, hm, Option.bind_eq_bind, Option.bind_some, nodeLen_of_represents hleft,
          Option.bind_eq_bind, Option.bind_some, if_pos hle, ← hm', hsplit]
        simp [hattach]
      · rw [ImplicitTrees.split, if_pos hle]
        exact hlinks₂.represents_one ha fun hmem => hil (split_front_subset l n hmem)
      · rw [ImplicitTrees.split, if_pos hle]
        exact hrep₂
      · exact ((hset.mono hwhole).trans (hlinks.mono hlsub)).trans (hlinks₂.mono hwhole)
    · obtain ⟨m', hm'⟩ : ∃ m', m' = {m with right := none} := ⟨_, rfl⟩
      have hset : Relinks [i] nodes (nodes.set i m') := Relinks.set hm (hm' ▸ rfl)
      obtain ⟨nodes₁, a, b, hsplit, ha, hb, hlinks⟩ := ihr f (nodes.set i m') m.right
        (n-l.numNodes-1) (hset.represents_one hright hir) hr (by omega)
      have hm₁ : nodes₁[i]? = some m' := by
        rw [hlinks.others i hir, getElem?_set_present hm]
      have hl₁ : Represents nodes₁ l m'.left :=
        hlinks.represents (hset.represents_one (hm' ▸ hleft) hil) hlr
      obtain ⟨nodes₂, hattach, hrep₂, hlinks₂⟩ := attachRight_represents hm₁ hl₁ ha hil
        (fun hmem => hir (split_front_subset r _ hmem))
      refine ⟨nodes₂, some i, b, ?_, ?_, ?_, ?_⟩
      · rw [split, hm, Option.bind_eq_bind, Option.bind_some, nodeLen_of_represents hleft,
          Option.bind_eq_bind, Option.bind_some, if_neg hle, ← hm', hsplit]
        simp [hattach]
      · rw [ImplicitTrees.split, if_neg hle]
        exact hrep₂
      · rw [ImplicitTrees.split, if_neg hle]
        exact hlinks₂.represents_one hb fun hmem => hir (split_rest_subset r _ hmem)
      · exact ((hset.mono hwhole).trans (hlinks.mono hrsub)).trans (hlinks₂.mono hwhole)

section priorities
variable (priority : ℕ → UInt64)

/-- Every node has the priority of its place. -/
def Stamped (nodes : List (DictReplaySequenceNode κ)) : Prop :=
  ∀ i n, nodes[i]? = some n → n.priority = priority i

/-- The left root stays on top, also of an equal one. -/
def wins (i j : ℕ) : Bool := decide (priority j ≤ priority i)

variable {priority}

theorem Relinks.content_of {touched : List ℕ} {nodes nodes' : List (DictReplaySequenceNode κ)}
    (h : Relinks touched nodes nodes') (i : ℕ) :
    nodes'[i]?.map (·.content) = nodes[i]?.map (·.content) := by
  rw [← List.getElem?_map, ← List.getElem?_map, h.contents]

theorem Relinks.stamped {touched : List ℕ} {nodes nodes' : List (DictReplaySequenceNode κ)}
    (h : Relinks touched nodes nodes') (hstamped : Stamped priority nodes) :
    Stamped priority nodes' := by
  intro i n hn
  have hcontent := h.content_of i
  rw [hn, Option.map_some] at hcontent
  obtain ⟨m, hm, heq⟩ := Option.map_eq_some_iff.mp hcontent.symm
  rw [← hstamped i m hm]
  exact (congrArg Prod.snd heq).symm

/-- Merging the nodes of two trees leaves their merge. -/
theorem merge_represents (t u : BinaryTree ℕ) (fuel : ℕ)
    (nodes : List (DictReplaySequenceNode κ)) (o p : Option ℕ)
    (hstamped : Stamped priority nodes) (ht : Represents nodes t o) (hu : Represents nodes u p)
    (hnodup : (inorder t ++ inorder u).Nodup) (hfuel : t.numNodes+u.numNodes < fuel) :
    ∃ nodes' q, merge fuel nodes o p = some (nodes', q) ∧
      Represents nodes' (ImplicitTrees.merge (wins priority) t u) q ∧
      Relinks (inorder t ++ inorder u) nodes nodes' := by
  obtain ⟨f, rfl⟩ : ∃ f, fuel = f+1 := ⟨fuel-1, by omega⟩
  induction t, u using ImplicitTrees.merge.induct (wins priority) generalizing f nodes o p with
  | case1 u =>
    cases ht
    rw [ImplicitTrees.merge]
    exact ⟨nodes, p, rfl, hu, Relinks.refl⟩
  | case2 i l r =>
    cases hu
    obtain ⟨rfl, hlinked⟩ := ht
    rw [ImplicitTrees.merge]
    exact ⟨nodes, some i, rfl, ⟨rfl, hlinked⟩, Relinks.refl⟩
  | case3 i l r j l' r' hwins ih =>
    obtain ⟨rfl, m, hm, hleft, hright, -⟩ := ht
    obtain ⟨rfl, k, hk, hsecond⟩ := id hu
    have hcount : (BinaryTree.node i l r).numNodes = l.numNodes+r.numNodes+1 := rfl
    have hpos : (BinaryTree.node j l' r').numNodes = l'.numNodes+r'.numNodes+1 := rfl
    obtain ⟨f, rfl⟩ : ∃ f', f = f'+1 := ⟨f-1, by omega⟩
    rw [inorder_node i, List.append_assoc, List.cons_append, List.nodup_append,
      List.nodup_cons] at hnodup
    obtain ⟨hl, ⟨hirest, hrest⟩, hdisjoint⟩ := hnodup
    have hil : i ∉ inorder l := fun hmem => hdisjoint i hmem i List.mem_cons_self rfl
    have hir : i ∉ inorder r := fun hmem => hirest (List.mem_append_left _ hmem)
    have hiu : i ∉ inorder (.node j l' r') := fun hmem => hirest (List.mem_append_right _ hmem)
    have hlrest : ∀ x ∈ inorder l, x ∉ inorder r ++ inorder (.node j l' r') := fun x hx hx' =>
      hdisjoint x hx x (List.mem_cons_of_mem i hx') rfl
    obtain ⟨m', hm'⟩ : ∃ m', m' = {m with right := none} := ⟨_, rfl⟩
    have hset : Relinks [i] nodes (nodes.set i m') := Relinks.set hm (hm' ▸ rfl)
    obtain ⟨nodes₁, q, hmerge, hq, hlinks⟩ := ih (nodes.set i m') m.right (some j)
      (hset.stamped hstamped) (hset.represents_one hright hir) (hset.represents_one hu hiu)
      hrest f (by omega)
    have hm₁ : nodes₁[i]? = some m' := by
      rw [hlinks.others i hirest, getElem?_set_present hm]
    have hl₁ : Represents nodes₁ l m'.left :=
      hlinks.represents (hset.represents_one (hm' ▸ hleft) hil) hlrest
    obtain ⟨nodes₂, hattach, hrep₂, hlinks₂⟩ := attachRight_represents hm₁ hl₁ hq hil
      (by rwa [merge_inorder])
    have hle : k.priority ≤ m.priority := by
      rw [hstamped j k hk, hstamped i m hm]
      exact of_decide_eq_true hwins
    have hwhole : [i] ⊆ inorder (.node i l r) ++ inorder (.node j l' r') := by simp
    have hsub : inorder r ++ inorder (.node j l' r') ⊆
        inorder (.node i l r) ++ inorder (.node j l' r') := by
      rw [inorder_node i, List.append_assoc]
      exact fun x hx => List.mem_append_right _ (List.mem_cons_of_mem i hx)
    refine ⟨nodes₂, some i, ?_, ?_,
      ((hset.mono hwhole).trans (hlinks.mono hsub)).trans (hlinks₂.mono hwhole)⟩
    · rw [merge, hm, Option.bind_eq_bind, Option.bind_some, hk, Option.bind_eq_bind,
        Option.bind_some, if_pos hle, ← hm', hmerge]
      simp [hattach]
    · rw [ImplicitTrees.merge, if_pos hwins]
      exact hrep₂
  | case4 i l r j l' r' hwins ih =>
    obtain ⟨rfl, m, hm, hfirst⟩ := id ht
    obtain ⟨rfl, k, hk, hleft, hright, -⟩ := hu
    have hcount : (BinaryTree.node j l' r').numNodes = l'.numNodes+r'.numNodes+1 := rfl
    have hpos : (BinaryTree.node i l r).numNodes = l.numNodes+r.numNodes+1 := rfl
    obtain ⟨f, rfl⟩ : ∃ f', f = f'+1 := ⟨f-1, by omega⟩
    rw [inorder_node j, ← List.append_assoc, List.nodup_append, List.nodup_cons] at hnodup
    obtain ⟨hrest, ⟨hjr, hr⟩, hdisjoint⟩ := hnodup
    have hjrest : j ∉ inorder (.node i l r) ++ inorder l' := fun hmem =>
      hdisjoint j hmem j List.mem_cons_self rfl
    have hjl : j ∉ inorder l' := fun hmem => hjrest (List.mem_append_right _ hmem)
    have hjt : j ∉ inorder (.node i l r) := fun hmem => hjrest (List.mem_append_left _ hmem)
    obtain ⟨k', hk'⟩ : ∃ k', k' = {k with left := none} := ⟨_, rfl⟩
    have hset : Relinks [j] nodes (nodes.set j k') := Relinks.set hk (hk' ▸ rfl)
    obtain ⟨nodes₁, q, hmerge, hq, hlinks⟩ := ih (nodes.set j k') (some i) k.left
      (hset.stamped hstamped) (hset.represents_one ht hjt) (hset.represents_one hleft hjl)
      hrest f (by omega)
    have hk₁ : nodes₁[j]? = some k' := by
      rw [hlinks.others j hjrest, getElem?_set_present hk]
    have hr₁ : Represents nodes₁ r' k'.right :=
      hlinks.represents (hset.represents_one (hk' ▸ hright) hjr) fun x hx hx' =>
        hdisjoint x hx' x (List.mem_cons_of_mem j hx) rfl
    obtain ⟨nodes₂, hattach, hrep₂, hlinks₂⟩ := attachLeft_represents hk₁ hq hr₁
      (by rwa [merge_inorder]) hjr
    have hgt : ¬ k.priority ≤ m.priority := by
      rw [hstamped j k hk, hstamped i m hm]
      exact fun hle => hwins (decide_eq_true hle)
    have hwhole : [j] ⊆ inorder (.node i l r) ++ inorder (.node j l' r') := by simp
    have hsub : inorder (.node i l r) ++ inorder l' ⊆
        inorder (.node i l r) ++ inorder (.node j l' r') := by
      rw [inorder_node j, ← List.append_assoc]
      exact List.subset_append_left _ _
    refine ⟨nodes₂, some j, ?_, ?_,
      ((hset.mono hwhole).trans (hlinks.mono hsub)).trans (hlinks₂.mono hwhole)⟩
    · rw [merge, hm, Option.bind_eq_bind, Option.bind_some, hk, Option.bind_eq_bind,
        Option.bind_some, if_neg hgt, ← hk', hmerge]
      simp [hattach]
    · rw [ImplicitTrees.merge, if_neg hwins]
      exact hrep₂

end priorities

end Pyrust.ReplaySequence
