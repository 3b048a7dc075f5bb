import Mathlib.Data.List.Basic
import Mathlib.Data.Nat.Notation
import Mathlib.Tactic.Common

/-!
# Blocks that are marked where they start

A list is the concatenation of blocks, and of each block the first element alone is marked.
So the marked elements count the blocks, and where a block starts is settled by how many
marked elements stand before.
-/

set_option autoImplicit false

namespace Pyrust.MarkedBlocks

variable {α : Type} (start : α → Bool)

/-- The first element of the block is marked and no other. -/
def Block (block : List α) : Prop :=
  ∃ x xs, block = x::xs ∧ start x = true ∧ ∀ y ∈ xs, start y = false

/-- Where the block of an index starts; the length for the index one past the end. -/
def offset (blocks : List (List α)) (index : ℕ) : ℕ := (blocks.take index).flatten.length

section blocks
variable {start} {blocks : List (List α)} {i j : ℕ}

theorem Block.countP {block : List α} (h : Block start block) : block.countP start = 1 := by
  obtain ⟨x, xs, rfl, hx, hxs⟩ := h
  have hzero : xs.countP start = 0 := List.countP_eq_zero.mpr fun y hy => by simp [hxs y hy]
  rw [List.countP_cons, hzero, hx]
  rfl

theorem countP_flatten (h : ∀ block ∈ blocks, Block start block) :
    blocks.flatten.countP start = blocks.length := by
  induction blocks with
  | nil => rfl
  | cons block blocks ih =>
    rw [List.flatten_cons, List.countP_append, (h block List.mem_cons_self).countP,
      ih fun b hb => h b (List.mem_cons_of_mem _ hb), List.length_cons, Nat.add_comm]

theorem offset_length : offset blocks blocks.length = blocks.flatten.length := by
  rw [offset, List.take_length]

theorem flatten_offset (blocks : List (List α)) (i : ℕ) :
    blocks.flatten = (blocks.take i).flatten ++ (blocks.drop i).flatten := by
  rw [← List.flatten_append, List.take_append_drop]

theorem take_offset (blocks : List (List α)) (i : ℕ) :
    blocks.flatten.take (offset blocks i) = (blocks.take i).flatten := by
  rw [flatten_offset blocks i, offset, List.take_left]

theorem offset_le (blocks : List (List α)) (i : ℕ) :
    offset blocks i ≤ blocks.flatten.length := by
  rw [flatten_offset blocks i, offset, List.length_append]
  exact Nat.le_add_right _ _

theorem offset_succ (hi : i < blocks.length) :
    offset blocks (i+1) = offset blocks i+blocks[i].length := by
  rw [offset, offset, List.take_succ_eq_append_getElem hi, List.flatten_append,
    List.length_append, List.flatten_singleton]

/-- At the offset of a block is its first element. -/
theorem getElem_offset (h : ∀ block ∈ blocks, Block start block) (hi : i < blocks.length) :
    ∃ x xs, blocks[i] = x::xs ∧ start x = true ∧ blocks.flatten[offset blocks i]? = some x := by
  obtain ⟨x, xs, hblock, hx, -⟩ := h blocks[i] (List.getElem_mem hi)
  refine ⟨x, xs, hblock, hx, ?_⟩
  rw [flatten_offset blocks i, offset, List.getElem?_append_right (Nat.le_refl _), Nat.sub_self,
    List.drop_eq_getElem_cons hi, List.flatten_cons, hblock]
  rfl

theorem offset_lt (h : ∀ block ∈ blocks, Block start block) (hi : i < blocks.length) :
    offset blocks i < blocks.flatten.length := by
  obtain ⟨x, xs, -, -, hx⟩ := getElem_offset h hi
  exact (List.getElem?_eq_some_iff.mp hx).1

theorem countP_take_succ {xs : List α} {x : α} (h : xs[j]? = some x) :
    (xs.take (j+1)).countP start = (xs.take j).countP start+(start x).toNat := by
  rw [List.take_add_one, h, Option.toList_some, List.countP_append, List.countP_singleton]
  cases start x <;> rfl

theorem countP_take_mono (xs : List α) (h : i ≤ j) :
    (xs.take i).countP start ≤ (xs.take j).countP start := by
  refine List.Sublist.countP_le ?_
  rw [← Nat.min_eq_left h, ← List.take_take]
  exact List.take_sublist _ _

/-- A marked element that has as many before it as another place is not before that place. -/
theorem le_of_marked {xs : List α} {x : α} (hx : xs[i]? = some x) (hstart : start x = true)
    (hcount : (xs.take i).countP start = (xs.take j).countP start) : j ≤ i := by
  by_contra hlt
  have hmono : (xs.take (i+1)).countP start ≤ (xs.take j).countP start :=
    countP_take_mono xs (Nat.succ_le_of_lt (Nat.lt_of_not_le hlt))
  rw [countP_take_succ hx, hstart, hcount] at hmono
  exact absurd hmono (by simp)

/-- A place after which a block starts is known by the marked elements before it. -/
theorem eq_offset (h : ∀ block ∈ blocks, Block start block) (hi : i ≤ blocks.length)
    (hcount : (blocks.flatten.take j).countP start = i) (hj : j ≤ blocks.flatten.length)
    (hstart : ∀ x, blocks.flatten[j]? = some x → start x = true) : j = offset blocks i := by
  have hoffset : (blocks.flatten.take (offset blocks i)).countP start = i := by
    rw [take_offset, countP_flatten fun b hb => h b (List.mem_of_mem_take hb),
      List.length_take, Nat.min_eq_left hi]
  have hsame := hcount.trans hoffset.symm
  refine Nat.le_antisymm ?_ ?_
  · rcases Nat.eq_or_lt_of_le hi with rfl | hlt
    · rwa [offset_length]
    · obtain ⟨x, xs, -, hx, hget⟩ := getElem_offset h hlt
      exact le_of_marked hget hx hsame.symm
  · rcases Nat.eq_or_lt_of_le hj with rfl | hlt
    · exact offset_le blocks i
    · have hget := List.getElem?_eq_getElem hlt
      exact le_of_marked hget (hstart _ hget) hsame

end blocks

end Pyrust.MarkedBlocks
