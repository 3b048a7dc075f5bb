import Mathlib.Data.Tree.Basic

/-!
# Binary trees read as sequences

A binary tree is a sequence in its in-order reading, and a position is found by the sizes
of the subtrees. Splitting a tree at a position cuts its reading there. Merging two trees
joins their readings, whichever of the two roots wins.
-/

set_option autoImplicit false

namespace Pyrust.ImplicitTrees

open BinaryTree

universe u
variable {α : Type u}

def inorder : BinaryTree α → List α
  | .nil => []
  | .node a l r => inorder l ++ a::inorder r

@[simp] theorem inorder_nil : inorder (nil : BinaryTree α) = [] := rfl

@[simp] theorem inorder_node (a : α) (l r : BinaryTree α) :
    inorder (node a l r) = inorder l ++ a::inorder r := rfl

@[simp] theorem length_inorder (t : BinaryTree α) : (inorder t).length = t.numNodes := by
  induction t with
  | nil => rfl
  | node a l r hl hr =>
    rw [inorder_node, List.length_append, List.length_cons, hl, hr, numNodes]
    omega

/-- A tree that reads as one entry is that entry alone. -/
theorem eq_node_of_inorder_singleton {t : BinaryTree α} {a : α} (h : inorder t = [a]) :
    t = node a nil nil := by
  cases t with
  | nil => cases h
  | node b l r =>
    have hcount := congrArg List.length h
    rw [length_inorder, numNodes, List.length_singleton] at hcount
    cases l with
    | node => simp only [numNodes] at hcount; omega
    | nil =>
      cases r with
      | node => simp only [numNodes] at hcount; omega
      | nil => rw [List.head_eq_of_cons_eq h]

/-- The first entries, and the rest. -/
def split : BinaryTree α → ℕ → BinaryTree α × BinaryTree α
  | .nil, _ => (.nil, .nil)
  | .node a l r, n =>
    if n ≤ l.numNodes then ((split l n).1, .node a (split l n).2 r)
    else (.node a l (split r (n-l.numNodes-1)).1, (split r (n-l.numNodes-1)).2)

theorem split_inorder (t : BinaryTree α) (n : ℕ) :
    inorder (split t n).1 = (inorder t).take n ∧ inorder (split t n).2 = (inorder t).drop n := by
  induction t generalizing n with
  | nil => simp [split]
  | node a l r hl hr =>
    rw [split]
    split
    · next hle =>
      have hlen : n-(inorder l).length = 0 := by rw [length_inorder]; omega
      refine ⟨?_, ?_⟩
      · rw [(hl n).1, inorder_node, List.take_append, hlen, List.take_zero, List.append_nil]
      · rw [inorder_node, (hl n).2, inorder_node, List.drop_append, hlen, List.drop_zero]
    · next hgt =>
      have hlen : n-(inorder l).length = (n-l.numNodes-1)+1 := by rw [length_inorder]; omega
      have hpast : (inorder l).length ≤ n := by rw [length_inorder]; omega
      refine ⟨?_, ?_⟩
      · rw [inorder_node, (hr _).1, inorder_node, List.take_append, hlen, List.take_succ_cons,
          List.take_of_length_le hpast]
      · rw [(hr _).2, inorder_node, List.drop_append, hlen, List.drop_succ_cons,
          List.drop_eq_nil_of_le hpast, List.nil_append]

/-- The two trees side by side, under the root that wins. -/
def merge (wins : α → α → Bool) : BinaryTree α → BinaryTree α → BinaryTree α
  | .nil, u => u
  | .node a l r, .nil => .node a l r
  | .node a l r, .node b l' r' =>
    if wins a b then .node a l (merge wins r (.node b l' r'))
    else .node b (merge wins (.node a l r) l') r'
termination_by t u => t.numNodes+u.numNodes
decreasing_by all_goals simp only [numNodes]; omega

theorem merge_inorder (wins : α → α → Bool) (t u : BinaryTree α) :
    inorder (merge wins t u) = inorder t ++ inorder u := by
  induction t, u using merge.induct wins with
  | case1 u => rw [merge, inorder_nil, List.nil_append]
  | case2 a l r => rw [merge, inorder_nil, List.append_nil]
  | case3 a l r b l' r' hwins ih =>
    rw [merge, if_pos hwins, inorder_node, ih, inorder_node a, List.append_assoc,
      List.cons_append]
  | case4 a l r b l' r' hwins ih =>
    rw [merge, if_neg hwins, inorder_node, ih, inorder_node b, List.append_assoc]

end Pyrust.ImplicitTrees
