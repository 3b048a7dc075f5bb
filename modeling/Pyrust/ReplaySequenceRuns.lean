import Mathlib.Data.List.Perm.Subperm
import Pyrust.ReplaySequence

/-!
# Runs of the replay sequence

A sequence stands for a list when its tree reads as the nodes that hold the keys of the
list. An insertion reads as the insertion at the same position, a removal as the erasure,
and neither can fail in range. A node that gave its key up never gets one again, so no
later visit comes to it.
-/

set_option autoImplicit false

namespace Pyrust.ReplaySequenceRuns

open ImplicitTrees ReplaySequence

variable {κ : Type}

/-! ## Keys of nodes -/

def keyAt (nodes : List (DictReplaySequenceNode κ)) (i : ℕ) : Option κ :=
  nodes[i]?.bind DictReplaySequenceNode.key

section keys
variable {nodes nodes' : List (DictReplaySequenceNode κ)} {touched : List ℕ}

theorem keyAt_of_node {i : ℕ} {n : DictReplaySequenceNode κ} (hn : nodes[i]? = some n) :
    keyAt nodes i = n.key := by
  rw [keyAt, hn, Option.bind_some]

theorem keyAt_eq_content (i : ℕ) :
    keyAt nodes i = (nodes[i]?.map (·.content)).bind Prod.fst := by
  rw [keyAt, Option.bind_map]
  rfl

theorem relinks_keyAt (h : Relinks touched nodes nodes') (i : ℕ) :
    keyAt nodes' i = keyAt nodes i := by
  rw [keyAt_eq_content, keyAt_eq_content, h.content_of]

theorem relinks_length (h : Relinks touched nodes nodes') : nodes'.length = nodes.length := by
  simpa using congrArg List.length h.contents

theorem keyAt_append {i : ℕ} (hi : i < nodes.length) (more : List (DictReplaySequenceNode κ)) :
    keyAt (nodes ++ more) i = keyAt nodes i := by
  rw [keyAt, keyAt, List.getElem?_append_left hi]

theorem keyAt_set_ne {i j : ℕ} (hne : i ≠ j) (n : DictReplaySequenceNode κ) :
    keyAt (nodes.set i n) j = keyAt nodes j := by
  rw [keyAt, keyAt, List.getElem?_set_ne hne]

/-- Nodes appended at the end disturb no tree. -/
theorem represents_append {t : BinaryTree ℕ} {o : Option ℕ} (h : Represents nodes t o)
    (more : List (DictReplaySequenceNode κ)) : Represents (nodes ++ more) t o := by
  induction t generalizing o with
  | nil => exact h
  | node i l r ihl ihr =>
    obtain ⟨rfl, n, hn, hl, hr, hlen⟩ := h
    obtain ⟨hi, -⟩ := List.getElem?_eq_some_iff.mp hn
    exact ⟨rfl, n, by rw [List.getElem?_append_left hi, hn], ihl hl, ihr hr, hlen⟩

/-- The visits come to the nodes of the tree in order, and read their keys. -/
theorem visitInOrder_represents (t : BinaryTree ℕ) (o : Option ℕ) (fuel : ℕ)
    (hrep : Represents nodes t o) (hkeys : ∀ i ∈ inorder t, (keyAt nodes i).isSome)
    (hfuel : t.numNodes < fuel) :
    ∃ visits, visitInOrder fuel nodes o = some visits ∧ visits.map Prod.fst = inorder t ∧
      visits.map (fun visit => some visit.2) = (inorder t).map (keyAt nodes) := by
  obtain ⟨f, rfl⟩ : ∃ f, fuel = f+1 := ⟨fuel-1, by omega⟩
  induction t generalizing o f with
  | nil =>
    cases hrep
    exact ⟨[], rfl, rfl, rfl⟩
  | node i l r ihl ihr =>
    obtain ⟨rfl, n, hn, hl, hr, -⟩ := hrep
    rw [BinaryTree.numNodes] at hfuel
    obtain ⟨f, rfl⟩ : ∃ f', f = f'+1 := ⟨f-1, by omega⟩
    obtain ⟨key, hkey⟩ := Option.isSome_iff_exists.mp (hkeys i (by simp))
    have hown : n.key = some key := by rw [← keyAt_of_node hn, hkey]
    obtain ⟨before, hbefore, hfirst, hfirstKeys⟩ := ihl n.left hl
      (fun j hj => hkeys j (by simp [hj])) f (by omega)
    obtain ⟨after, hafter, hlast, hlastKeys⟩ := ihr n.right hr
      (fun j hj => hkeys j (by simp [hj])) f (by omega)
    refine ⟨before ++ (i, key)::after, ?_, ?_, ?_⟩
    · rw [visitInOrder, hn, Option.bind_eq_bind, Option.bind_some, hbefore, hown, hafter]
      rfl
    · rw [List.map_append, List.map_cons, hfirst, hlast, inorder_node]
    · rw [List.map_append, List.map_cons, hfirstKeys, hlastKeys, inorder_node,
        List.map_append, List.map_cons, hkey]

end keys

/-! ## Sequences that stand for a list -/

section mirrors
variable {priority : ℕ → UInt64} {s : DictReplaySequence κ} {t : BinaryTree ℕ}
  {keys : List κ} {fuel : ℕ}

variable (priority) in
/-- The links are those of a tree that reads as the keys. -/
structure Mirrors (s : DictReplaySequence κ) (t : BinaryTree ℕ) (keys : List κ) : Prop where
  linked : Represents s.nodes t s.root
  distinct : (inorder t).Nodup
  stamped : Stamped priority s.nodes
  keyed : (inorder t).map (keyAt s.nodes) = keys.map some

variable (priority) in
theorem mirrors_empty : Mirrors priority ({} : DictReplaySequence κ) .nil [] :=
  by
  refine ⟨rfl, List.nodup_nil, fun i n hn => ?_, rfl⟩
  cases hn

theorem Mirrors.count (h : Mirrors priority s t keys) : t.numNodes = keys.length := by
  simpa using congrArg List.length h.keyed

theorem Mirrors.nodeLen (h : Mirrors priority s t keys) :
    nodeLen s.nodes s.root = some keys.length := by
  rw [nodeLen_of_represents h.linked, h.count]

theorem Mirrors.isSome (h : Mirrors priority s t keys) {i : ℕ} (hi : i ∈ inorder t) :
    (keyAt s.nodes i).isSome := by
  have hmem : keyAt s.nodes i ∈ keys.map some := h.keyed ▸ List.mem_map_of_mem hi
  obtain ⟨key, -, hkey⟩ := List.mem_map.mp hmem
  rw [← hkey, Option.isSome_some]

theorem Mirrors.lt_length (h : Mirrors priority s t keys) {i : ℕ} (hi : i ∈ inorder t) :
    i < s.nodes.length := by
  have hsome := h.isSome hi
  by_contra hge
  rw [keyAt, List.getElem?_eq_none (Nat.le_of_not_lt hge)] at hsome
  cases hsome

/-- The nodes that were ever allocated are enough fuel. -/
theorem Mirrors.numNodes_le (h : Mirrors priority s t keys) : t.numNodes ≤ s.nodes.length := by
  have hsub : inorder t ⊆ List.range s.nodes.length :=
    fun i hi => List.mem_range.mpr (h.lt_length hi)
  simpa using (h.distinct.subperm hsub).length_le

/-- A tree of allocated nodes, read through a list of changes that keep every key. -/
theorem Mirrors.visits (h : Mirrors priority s t keys) (hfuel : s.nodes.length < fuel) :
    ∃ visits, visitInOrder fuel s.nodes s.root = some visits ∧
      visits.map Prod.fst = inorder t ∧ visits.map Prod.snd = keys := by
  obtain ⟨visits, hvisits, hnodes, hkeys⟩ := visitInOrder_represents t s.root fuel h.linked
    (fun i hi => h.isSome hi) (Nat.lt_of_le_of_lt h.numNodes_le hfuel)
  refine ⟨visits, hvisits, hnodes, ?_⟩
  rw [h.keyed] at hkeys
  refine List.map_injective_iff.mpr (fun _ _ => Option.some.inj) ?_
  rw [List.map_map, ← hkeys]
  rfl

theorem insertIdx_eq_take_drop (l : List κ) {i : ℕ} (key : κ) (hi : i ≤ l.length) :
    l.insertIdx i key = l.take i ++ key::l.drop i := by
  induction l generalizing i with
  | nil =>
    obtain rfl : i = 0 := by simpa using hi
    rfl
  | cons a l ih =>
    cases i with
    | zero => rfl
    | succ i =>
      rw [List.insertIdx_succ_cons, ih (by simpa using hi), List.take_succ_cons,
        List.drop_succ_cons, List.cons_append]

section allocated
variable {nodes : List (DictReplaySequenceNode κ)}

theorem allocateNode_represents (key : κ) :
    Represents (allocateNode priority nodes key).1 (.node nodes.length .nil .nil)
      (some nodes.length) :=
  ⟨rfl, _, List.getElem?_concat_length, rfl, rfl, rfl⟩

theorem keyAt_allocateNode (key : κ) :
    keyAt (allocateNode priority nodes key).1 nodes.length = some key :=
  keyAt_of_node List.getElem?_concat_length

theorem length_allocateNode (key : κ) :
    (allocateNode priority nodes key).1.length = nodes.length+1 := List.length_append

theorem allocateNode_stamped (h : Stamped priority nodes) (key : κ) :
    Stamped priority (allocateNode priority nodes key).1 := by
  intro i n hn
  rcases Nat.lt_or_ge i nodes.length with hi | hi
  · refine h i n ?_
    rwa [allocateNode, List.getElem?_append_left hi] at hn
  · obtain ⟨hbound, -⟩ := List.getElem?_eq_some_iff.mp hn
    rw [length_allocateNode] at hbound
    obtain rfl : i = nodes.length := by omega
    rw [allocateNode, List.getElem?_concat_length, Option.some_inj] at hn
    rw [← hn]

end allocated

theorem cut_inorder (t : BinaryTree ℕ) (n : ℕ) :
    inorder (ImplicitTrees.split t n).1 ++ inorder (ImplicitTrees.split t n).2 = inorder t := by
  rw [(split_inorder t n).1, (split_inorder t n).2, List.take_append_drop]

theorem cut_numNodes (t : BinaryTree ℕ) (n : ℕ) :
    (ImplicitTrees.split t n).1.numNodes+(ImplicitTrees.split t n).2.numNodes = t.numNodes := by
  rw [← length_inorder, ← length_inorder, ← List.length_append, cut_inorder, length_inorder]

/-- An insertion in range reads as the insertion into the list, and changes no key that
was there. -/
theorem insert_mirrors (h : Mirrors priority s t keys) {index : ℕ} (key : κ)
    (hindex : index ≤ keys.length) (hfuel : s.nodes.length+1 < fuel) :
    ∃ s' t', insert priority fuel s index key = some s' ∧
      Mirrors priority s' t' (keys.insertIdx index key) ∧
      s'.nodes.length = s.nodes.length+1 ∧
      ∀ i < s.nodes.length, keyAt s'.nodes i = keyAt s.nodes i := by
  have hcount := h.numNodes_le
  have hsizes := cut_numNodes t index
  obtain ⟨nodes₁, a, b, hsplit, ha, hb, hlinks⟩ :=
    split_represents t fuel s.nodes s.root index h.linked h.distinct (by omega)
  have hlen : nodes₁.length = s.nodes.length := relinks_length hlinks
  obtain ⟨front, hfront⟩ : ∃ front, front = (ImplicitTrees.split t index).1 := ⟨_, rfl⟩
  obtain ⟨rest, hrest⟩ : ∃ rest, rest = (ImplicitTrees.split t index).2 := ⟨_, rfl⟩
  rw [← hfront, ← hrest] at hsizes
  rw [← hfront] at ha
  rw [← hrest] at hb
  have hcut : inorder front ++ inorder rest = inorder t := by rw [hfront, hrest, cut_inorder]
  -- the new node, alone in its tree
  have hall : (inorder front ++ [nodes₁.length] ++ inorder rest).Nodup := by
    rw [List.append_assoc, List.singleton_append, List.nodup_middle, List.nodup_cons, hcut]
    refine ⟨fun hmem => ?_, h.distinct⟩
    exact Nat.lt_irrefl _ (hlen ▸ h.lt_length hmem)
  have hone : (BinaryTree.node nodes₁.length .nil .nil).numNodes = 1 := rfl
  obtain ⟨nodes₂, c, hmerge, hc, hlinks₂⟩ := merge_represents front
    (.node nodes₁.length .nil .nil) fuel (allocateNode priority nodes₁ key).1 a
    (some nodes₁.length) (allocateNode_stamped (hlinks.stamped h.stamped) key)
    (represents_append ha _) (allocateNode_represents key) hall.of_append_left (by omega)
  have hb₂ : Represents nodes₂ rest b := by
    refine hlinks₂.represents (represents_append hb _) fun i hi hmem => ?_
    exact List.disjoint_of_nodup_append hall hmem hi
  obtain ⟨nodes₃, d, hmerge₂, hd, hlinks₃⟩ := merge_represents _ rest fuel nodes₂ c b
    (hlinks₂.stamped (allocateNode_stamped (hlinks.stamped h.stamped) key)) hc hb₂
    (by rwa [merge_inorder])
    (by rw [← length_inorder, merge_inorder, List.length_append, length_inorder,
          length_inorder]; omega)
  have hread : ∀ i, keyAt nodes₃ i = keyAt (allocateNode priority nodes₁ key).1 i := fun i => by
    rw [relinks_keyAt hlinks₃, relinks_keyAt hlinks₂]
  have hkept : ∀ i < s.nodes.length, keyAt nodes₃ i = keyAt s.nodes i := fun i hi => by
    rw [hread, allocateNode, keyAt_append (hlen ▸ hi), relinks_keyAt hlinks]
  have horder : inorder (ImplicitTrees.merge (wins priority) (ImplicitTrees.merge (wins priority)
      front (.node nodes₁.length .nil .nil)) rest) =
      inorder front ++ nodes₁.length::inorder rest := by
    rw [merge_inorder, merge_inorder, List.append_assoc]
    rfl
  refine ⟨⟨nodes₃, d⟩, _, ?_, ⟨hd, ?_, ?_, ?_⟩, ?_, hkept⟩
  · rw [ReplaySequence.insert, h.nodeLen, Option.bind_eq_bind, Option.bind_some, guard,
      if_pos hindex]
    simp only [Option.pure_def, Option.bind_eq_bind, Option.bind_some, hsplit]
    rw [show (allocateNode priority nodes₁ key).2 = nodes₁.length from rfl, hmerge]
    simp [hmerge₂]
  · rwa [merge_inorder, merge_inorder]
  · exact hlinks₃.stamped (hlinks₂.stamped (allocateNode_stamped (hlinks.stamped h.stamped) key))
  · have hold : ∀ l : List ℕ, l ⊆ inorder t → l.map (keyAt nodes₃) = l.map (keyAt s.nodes) :=
      fun l hl => List.map_congr_left fun i hi => hkept i (h.lt_length (hl hi))
    rw [horder, List.map_append, List.map_cons, hread, keyAt_allocateNode,
      hold _ (hfront ▸ split_front_subset t index), hold _ (hrest ▸ split_rest_subset t index),
      hfront, hrest, (split_inorder t index).1, (split_inorder t index).2, List.map_take,
      List.map_drop, h.keyed, insertIdx_eq_take_drop _ _ hindex, List.map_append, List.map_cons,
      List.map_take, List.map_drop]
  · rw [relinks_length hlinks₃, relinks_length hlinks₂, length_allocateNode, hlen]

theorem stamped_set {nodes : List (DictReplaySequenceNode κ)} (h : Stamped priority nodes)
    {i : ℕ} {n : DictReplaySequenceNode κ} (hn : nodes[i]? = some n) :
    Stamped priority (nodes.set i {n with key := none}) := by
  intro j m hm
  by_cases hij : i = j
  · subst hij
    rw [getElem?_set_present hn, Option.some_inj] at hm
    rw [← hm]
    exact h i n hn
  · rw [List.getElem?_set_ne hij] at hm
    exact h j m hm

/-- A removal in range gives the key at the position, and reads as its erasure. Only the
removed node loses its key. -/
theorem remove_mirrors (h : Mirrors priority s t keys) {index : ℕ} (hindex : index < keys.length)
    (hfuel : s.nodes.length+1 < fuel) :
    ∃ s' t' r, removeNode fuel s index = some (s', r, keys[index]) ∧
      Mirrors priority s' t' (keys.eraseIdx index) ∧ s'.nodes.length = s.nodes.length ∧
      r ∈ inorder t ∧ keyAt s'.nodes r = none ∧
      ∀ i, i ≠ r → keyAt s'.nodes i = keyAt s.nodes i := by
  have hcount := h.numNodes_le
  have hsizes := cut_numNodes t index
  obtain ⟨nodes₁, a, b, hsplit, ha, hb, hlinks⟩ :=
    split_represents t fuel s.nodes s.root index h.linked h.distinct (by omega)
  obtain ⟨front, hfront⟩ : ∃ front, front = (ImplicitTrees.split t index).1 := ⟨_, rfl⟩
  obtain ⟨rest, hrest⟩ : ∃ rest, rest = (ImplicitTrees.split t index).2 := ⟨_, rfl⟩
  rw [← hfront, ← hrest] at hsizes
  rw [← hfront] at ha
  rw [← hrest] at hb
  have hcut : (inorder front ++ inorder rest).Nodup := by
    rw [hfront, hrest, cut_inorder]
    exact h.distinct
  obtain ⟨nodes₂, c, d, hsplit₂, hc, hd, hlinks₂⟩ :=
    split_represents rest fuel nodes₁ b 1 hb hcut.of_append_right (by omega)
  obtain ⟨after, hafter⟩ : ∃ after, after = (ImplicitTrees.split rest 1).2 := ⟨_, rfl⟩
  rw [← hafter] at hd
  -- the first node of the rest is the one that goes
  have hpos : index < (inorder t).length := by rwa [length_inorder, h.count]
  obtain ⟨r, hr⟩ : ∃ r, r = (inorder t)[index] := ⟨_, rfl⟩
  have hrestOrder : inorder rest = r::inorder after := by
    rw [hafter, (split_inorder rest 1).2, hrest, (split_inorder t index).2,
      List.drop_eq_getElem_cons hpos, hr]
    rfl
  have halone : (ImplicitTrees.split rest 1).1 = .node r .nil .nil := by
    refine eq_node_of_inorder_singleton ?_
    rw [(split_inorder rest 1).1, hrestOrder]
    rfl
  rw [halone] at hc
  obtain ⟨rfl, n, hn, -, -, hlen⟩ := hc
  have hrfresh : r ∉ inorder front ++ inorder after := by
    rw [hrestOrder, List.nodup_middle, List.nodup_cons] at hcut
    exact hcut.1
  have hrestNodup : (inorder front ++ inorder after).Nodup := by
    rw [hrestOrder, List.nodup_middle, List.nodup_cons] at hcut
    exact hcut.2
  have hafterCount : after.numNodes ≤ rest.numNodes := by
    rw [← length_inorder, ← length_inorder, hrestOrder, List.length_cons]
    omega
  obtain ⟨nodes₃, e, hmerge, he, hlinks₃⟩ := merge_represents front after fuel nodes₂ a d
    (hlinks₂.stamped (hlinks.stamped h.stamped))
    (hlinks₂.represents ha fun i hi hmem => List.disjoint_of_nodup_append hcut hi hmem) hd
    hrestNodup (by omega)
  have hn₃ : nodes₃[r]? = some n := by rw [hlinks₃.others r hrfresh, hn]
  have hread : ∀ i, keyAt nodes₃ i = keyAt s.nodes i := fun i => by
    rw [relinks_keyAt hlinks₃, relinks_keyAt hlinks₂, relinks_keyAt hlinks]
  have hkey : n.key = some keys[index] := by
    have hat : ((inorder t).map (keyAt s.nodes))[index]? = (keys.map some)[index]? := by
      rw [h.keyed]
    rw [List.getElem?_map, List.getElem?_map, List.getElem?_eq_getElem hpos,
      List.getElem?_eq_getElem hindex, Option.map_some, Option.map_some, ← hr] at hat
    rw [← keyAt_of_node hn₃, hread]
    exact Option.some_inj.mp hat
  have hkept : ∀ i, i ≠ r → keyAt (nodes₃.set r {n with key := none}) i = keyAt s.nodes i :=
    fun i hne => by rw [keyAt_set_ne hne.symm, hread]
  have horder : inorder (ImplicitTrees.merge (wins priority) front after) =
      (inorder t).eraseIdx index := by
    rw [merge_inorder, hfront, (split_inorder t index).1, List.eraseIdx_eq_take_drop_succ,
      hafter, (split_inorder rest 1).2, hrest, (split_inorder t index).2, List.drop_drop]
  have hgone : r ∉ inorder (ImplicitTrees.merge (wins priority) front after) := by
    rwa [merge_inorder]
  refine ⟨⟨nodes₃.set r {n with key := none}, e⟩,
    ImplicitTrees.merge (wins priority) front after, r, ?_, ⟨?_, ?_, ?_, ?_⟩, ?_, ?_, ?_,
    hkept⟩
  · rw [removeNode, h.nodeLen, Option.bind_eq_bind, Option.bind_some, guard, if_pos hindex]
    simp [hsplit, hsplit₂, hmerge, hn₃, hlen, hkey, guard]
  · exact represents_congr he fun i hi => List.getElem?_set_ne fun heq : r = i => hgone (heq ▸ hi)
  · rwa [merge_inorder]
  · exact stamped_set (hlinks₃.stamped (hlinks₂.stamped (hlinks.stamped h.stamped))) hn₃
  · rw [List.map_congr_left fun i hi => hkept i fun heq => hgone (heq ▸ hi), horder,
      ← List.eraseIdx_map, h.keyed, List.eraseIdx_map]
  · rw [List.length_set, relinks_length hlinks₃, relinks_length hlinks₂, relinks_length hlinks]
  · rw [hr]
    exact List.getElem_mem hpos
  · exact keyAt_of_node (getElem?_set_present hn₃)

theorem push_mirrors (h : Mirrors priority s t keys) (key : κ)
    (hfuel : s.nodes.length+1 < fuel) :
    ∃ s' t', push priority fuel s key = some s' ∧ Mirrors priority s' t' (keys ++ [key]) := by
  obtain ⟨s', t', hinsert, hmirrors, -⟩ := insert_mirrors h key (Nat.le_refl _) hfuel
  refine ⟨s', t', ?_, ?_⟩
  · rw [push, h.nodeLen, Option.bind_eq_bind, Option.bind_some, hinsert]
  · rwa [List.insertIdx_length_self] at hmirrors

/-- Popping gives the last key, and nothing of an empty sequence. -/
theorem pop_mirrors (h : Mirrors priority s t keys) (hfuel : s.nodes.length+1 < fuel) :
    ∃ s' t', pop fuel s = some (s', keys.getLast?) ∧ Mirrors priority s' t' keys.dropLast := by
  rw [pop, h.nodeLen, Option.bind_eq_bind, Option.bind_some]
  by_cases hempty : keys = []
  · subst hempty
    exact ⟨s, t, rfl, h⟩
  · have hpos : 0 < keys.length := List.length_pos_iff.mpr hempty
    have hlast : keys.length-1 < keys.length := by omega
    obtain ⟨s', t', r, hremove, hmirrors, -⟩ := remove_mirrors h hlast hfuel
    refine ⟨s', t', ?_, ?_⟩
    · rw [if_neg (Nat.ne_of_gt hpos), remove, hremove, List.getLast?_eq_getElem?,
        List.getElem?_eq_getElem hlast]
      rfl
    · rwa [List.eraseIdx_eq_dropLast (by omega)] at hmirrors

end mirrors

/-! ## Runs -/

inductive Op (κ : Type) where
  | insert (index : ℕ) (key : κ)
  | remove (index : ℕ)

/-- The operation on a list, when its position is in range. -/
def listStep (keys : List κ) : Op κ → Option (List κ)
  | .insert index key => if index ≤ keys.length then some (keys.insertIdx index key) else none
  | .remove index => if index < keys.length then some (keys.eraseIdx index) else none

def listRun : List (Op κ) → List κ → Option (List κ)
  | [], keys => some keys
  | op::ops, keys => (listStep keys op).bind (listRun ops)

section runs
variable (priority : ℕ → UInt64) (fuel : ℕ)

def step (s : DictReplaySequence κ) : Op κ → Option (DictReplaySequence κ)
  | .insert index key => ReplaySequence.insert priority fuel s index key
  | .remove index => (remove fuel s index).map Prod.fst

def run : List (Op κ) → DictReplaySequence κ → Option (DictReplaySequence κ)
  | [], s => some s
  | op::ops, s => (step priority fuel s op).bind (run ops)

theorem listRun_append (ops more : List (Op κ)) (keys : List κ) :
    listRun (ops ++ more) keys = (listRun ops keys).bind (listRun more) := by
  induction ops generalizing keys with
  | nil => rfl
  | cons op ops ih =>
    rw [List.cons_append, listRun, listRun, Option.bind_assoc]
    exact congrArg _ (funext ih)

theorem run_append (ops more : List (Op κ)) (s : DictReplaySequence κ) :
    run priority fuel (ops ++ more) s =
      (run priority fuel ops s).bind (run priority fuel more) := by
  induction ops generalizing s with
  | nil => rfl
  | cons op ops ih =>
    rw [List.cons_append, run, run, Option.bind_assoc]
    exact congrArg _ (funext ih)

/-- At most one node is allocated, and none that lost its key gets one. -/
structure Extends (n : ℕ) (s s' : DictReplaySequence κ) : Prop where
  grown : s.nodes.length ≤ s'.nodes.length
  bounded : s'.nodes.length ≤ s.nodes.length+n
  retired : ∀ i < s.nodes.length, keyAt s.nodes i = none → keyAt s'.nodes i = none

variable {priority fuel}
variable {s : DictReplaySequence κ} {t : BinaryTree ℕ} {keys keys' : List κ}

theorem step_mirrors (h : Mirrors priority s t keys) (op : Op κ)
    (hstep : listStep keys op = some keys') (hfuel : s.nodes.length+1 < fuel) :
    ∃ s' t', step priority fuel s op = some s' ∧ Mirrors priority s' t' keys' ∧
      Extends 1 s s' := by
  cases op with
  | insert index key =>
    obtain ⟨hindex, hkeys⟩ := Option.ite_none_right_eq_some.mp hstep
    obtain ⟨s', t', hinsert, hmirrors, hlen, hkept⟩ := insert_mirrors h key hindex hfuel
    refine ⟨s', t', hinsert, Option.some_inj.mp hkeys ▸ hmirrors, by omega, by omega, ?_⟩
    intro i hi hnone
    rw [hkept i hi, hnone]
  | remove index =>
    obtain ⟨hindex, hkeys⟩ := Option.ite_none_right_eq_some.mp hstep
    obtain ⟨s', t', r, hremove, hmirrors, hlen, -, hgone, hkept⟩ :=
      remove_mirrors h hindex hfuel
    refine ⟨s', t', ?_, Option.some_inj.mp hkeys ▸ hmirrors, by omega, by omega, ?_⟩
    · rw [step, remove, hremove]
      rfl
    · intro i hi hnone
      by_cases hir : i = r
      · rw [hir, hgone]
      · rw [hkept i hir, hnone]

theorem run_mirrors (ops : List (Op κ)) (h : Mirrors priority s t keys)
    (hrun : listRun ops keys = some keys') (hfuel : s.nodes.length+ops.length < fuel) :
    ∃ s' t', run priority fuel ops s = some s' ∧ Mirrors priority s' t' keys' ∧
      Extends ops.length s s' := by
  induction ops generalizing s t keys with
  | nil =>
    obtain rfl := Option.some_inj.mp hrun
    exact ⟨s, t, rfl, h, Nat.le_refl _, Nat.le_refl _, fun _ _ hnone => hnone⟩
  | cons op ops ih =>
    obtain ⟨middle, hop, hops⟩ := Option.bind_eq_some_iff.mp hrun
    rw [List.length_cons] at hfuel
    have hone : s.nodes.length+1 < fuel := by omega
    obtain ⟨s₁, t₁, hstep, hmirrors, hfirst⟩ := step_mirrors h op hop hone
    have hgrown := hfirst.grown
    have hbounded := hfirst.bounded
    obtain ⟨s₂, t₂, hrest, hmirrors₂, hlast⟩ := ih hmirrors hops (by omega)
    have hgrown₂ := hlast.grown
    have hbounded₂ := hlast.bounded
    refine ⟨s₂, t₂, ?_, hmirrors₂, by omega, by rw [List.length_cons]; omega, ?_⟩
    · rw [run, hstep, Option.bind_some, hrest]
    · exact fun i hi hnone => hlast.retired i (by omega) (hfirst.retired i hi hnone)

/-- The node a removal takes is in no later visit. -/
theorem removed_unvisited (before after : List (Op κ)) (index : ℕ)
    (hrun : listRun (before ++ .remove index::after) [] = some keys)
    (hfuel : (before ++ .remove index::after).length < fuel) :
    ∃ s₁ s₂ s₃ t₃ r keys₁, run priority fuel before {} = some s₁ ∧
      listRun before [] = some keys₁ ∧
      (∃ hindex : index < keys₁.length,
        removeNode fuel s₁ index = some (s₂, r, keys₁[index])) ∧
      run priority fuel after s₂ = some s₃ ∧ Mirrors priority s₃ t₃ keys ∧ r ∉ inorder t₃ := by
  rw [listRun_append, Option.bind_eq_some_iff] at hrun
  obtain ⟨keys₁, hbefore, hrest⟩ := hrun
  obtain ⟨keys₂, hstep, hafter⟩ := Option.bind_eq_some_iff.mp hrest
  obtain ⟨hindex, hkeys⟩ := Option.ite_none_right_eq_some.mp hstep
  rw [List.length_append, List.length_cons] at hfuel
  have hempty : ({} : DictReplaySequence κ).nodes.length = 0 := rfl
  have hfirst : ({} : DictReplaySequence κ).nodes.length+before.length < fuel := by omega
  obtain ⟨s₁, t₁, hrun₁, hmirrors₁, hext₁⟩ :=
    run_mirrors before (mirrors_empty priority) hbefore hfirst
  have hbounded := hext₁.bounded
  have hone : s₁.nodes.length+1 < fuel := by omega
  obtain ⟨s₂, t₂, r, hremove, hmirrors₂, hlen, hmem, hgone, -⟩ :=
    remove_mirrors hmirrors₁ hindex hone
  rw [Option.some_inj.mp hkeys] at hmirrors₂
  have hlast : s₂.nodes.length+after.length < fuel := by omega
  obtain ⟨s₃, t₃, hrun₃, hmirrors₃, hext₃⟩ := run_mirrors after hmirrors₂ hafter hlast
  refine ⟨s₁, s₂, s₃, t₃, r, keys₁, hrun₁, hbefore, ⟨hindex, hremove⟩, hrun₃, hmirrors₃, ?_⟩
  intro hvisited
  have hnone := hext₃.retired r (hlen ▸ hmirrors₁.lt_length hmem) hgone
  have hsome := hmirrors₃.isSome hvisited
  rw [hnone] at hsome
  cases hsome

/-- A run of positions in range never fails, and its traversal is the list; its links are
exact, and no removed node is visited. Splitting and merging keep every length exact. -/
theorem replay_sequence_list (priority : ℕ → UInt64) :
    (∀ (ops : List (Op κ)) (keys : List κ) (fuel : ℕ), listRun ops [] = some keys →
      ops.length < fuel → ∃ s t visits, run priority fuel ops {} = some s ∧
        Represents s.nodes t s.root ∧ visitInOrder fuel s.nodes s.root = some visits ∧
        visits.map Prod.fst = inorder t ∧ visits.map Prod.snd = keys ∧
        ∀ before index after, ops = before ++ .remove index::after →
          ∃ s₁ s₂ r keys₁, run priority fuel before {} = some s₁ ∧
            listRun before [] = some keys₁ ∧
            (∃ hindex : index < keys₁.length,
              removeNode fuel s₁ index = some (s₂, r, keys₁[index])) ∧
            run priority fuel after s₂ = some s ∧ r ∉ visits.map Prod.fst) ∧
    (∀ (nodes : List (DictReplaySequenceNode κ)) (t : BinaryTree ℕ) (o : Option ℕ) (n fuel : ℕ),
      Represents nodes t o → (inorder t).Nodup → t.numNodes < fuel →
      ∃ nodes' a b, ReplaySequence.split fuel nodes o n = some (nodes', a, b) ∧
        Represents nodes' (ImplicitTrees.split t n).1 a ∧
        Represents nodes' (ImplicitTrees.split t n).2 b ∧
        inorder (ImplicitTrees.split t n).1 = (inorder t).take n ∧
        inorder (ImplicitTrees.split t n).2 = (inorder t).drop n) ∧
    ∀ (nodes : List (DictReplaySequenceNode κ)) (t u : BinaryTree ℕ) (o p : Option ℕ) (fuel : ℕ),
      Stamped priority nodes → Represents nodes t o → Represents nodes u p →
      (inorder t ++ inorder u).Nodup → t.numNodes+u.numNodes < fuel →
      ∃ nodes' q tree, ReplaySequence.merge fuel nodes o p = some (nodes', q) ∧
        Represents nodes' tree q ∧ inorder tree = inorder t ++ inorder u := by
  refine ⟨fun ops keys fuel hlist hfuel => ?_, fun nodes t o n fuel hrep hnodup hfuel => ?_,
    fun nodes t u o p fuel hstamped ht hu hnodup hfuel => ?_⟩
  · have hempty : ({} : DictReplaySequence κ).nodes.length+ops.length < fuel := by
      rwa [List.length_nil, Nat.zero_add]
    obtain ⟨s, t, hrun, hmirrors, hext⟩ :=
      run_mirrors ops (mirrors_empty priority) hlist hempty
    have hbounded := hext.bounded
    have hlength : ({} : DictReplaySequence κ).nodes.length = 0 := rfl
    have hwithin : s.nodes.length < fuel := by omega
    obtain ⟨visits, hvisits, hnodes, hkeys⟩ := hmirrors.visits hwithin
    refine ⟨s, t, visits, hrun, hmirrors.linked, hvisits, hnodes, hkeys, ?_⟩
    rintro before index after rfl
    obtain ⟨s₁, s₂, s₃, t₃, r, keys₁, hbefore, hlist₁, ⟨hindex, hremove⟩, hafter, hmirrors₃,
      hunvisited⟩ := removed_unvisited before after index hlist hfuel
    have hsame : s₃ = s := by
      rw [run_append, hbefore, Option.bind_some, run, step, remove, hremove] at hrun
      exact Option.some_inj.mp (hafter.symm.trans hrun)
    subst hsame
    obtain ⟨visits', hvisits', hnodes', -⟩ := hmirrors₃.visits hwithin
    refine ⟨s₁, s₂, r, keys₁, hbefore, hlist₁, ⟨hindex, hremove⟩, hafter, ?_⟩
    rw [hvisits, Option.some_inj] at hvisits'
    rwa [hvisits', hnodes']
  · obtain ⟨nodes', a, b, hsplit, ha, hb, -⟩ :=
      split_represents t fuel nodes o n hrep hnodup hfuel
    exact ⟨nodes', a, b, hsplit, ha, hb, split_inorder t n⟩
  · obtain ⟨nodes', q, hmerge, hq, -⟩ :=
      merge_represents t u fuel nodes o p hstamped ht hu hnodup hfuel
    exact ⟨nodes', q, _, hmerge, hq, merge_inorder _ _ _⟩

/-- Three keys inserted at the front, the middle one removed, another put in its place. -/
theorem replay_sequence_list_front :
    (∃ s visits, run priorityFor 6 [.insert 0 30, .insert 0 20, .insert 0 10, .remove 1,
        .insert 1 25] {} = some s ∧ visitInOrder 6 s.nodes s.root = some visits ∧
      visits.map Prod.snd = [10, 25, 30]) ∧
    (∃ nodes' a b, ReplaySequence.split 2 (allocateNode priorityFor [] 7).1 (some 0) 0 =
      some (nodes', a, b) ∧ Represents nodes' .nil a) ∧
    ∃ nodes' q tree, ReplaySequence.merge 2 (allocateNode priorityFor [] 7).1 (some 0) none =
      some (nodes', q) ∧ Represents nodes' tree q ∧ inorder tree = [0] := by
  obtain ⟨hruns, hsplits, hmerges⟩ := replay_sequence_list (κ := ℕ) priorityFor
  have hone : Represents (allocateNode priorityFor [] 7).1 (.node 0 .nil .nil) (some 0) :=
    allocateNode_represents 7
  refine ⟨?_, ?_, ?_⟩
  · obtain ⟨s, t, visits, hrun, -, hvisits, -, hkeys, -⟩ := hruns [.insert 0 30, .insert 0 20,
      .insert 0 10, .remove 1, .insert 1 25] [10, 25, 30] 6 (by decide) (by decide)
    exact ⟨s, visits, hrun, hvisits, hkeys⟩
  · obtain ⟨nodes', a, b, hsplit, ha, -⟩ := hsplits _ _ _ 0 2 hone (by decide) (by decide)
    exact ⟨nodes', a, b, hsplit, ha⟩
  · exact hmerges _ _ .nil _ none 2
      (allocateNode_stamped (fun i n hn => by cases hn) 7) hone rfl (by decide) (by decide)

end runs

end Pyrust.ReplaySequenceRuns
