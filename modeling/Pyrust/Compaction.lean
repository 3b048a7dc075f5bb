import Mathlib.Tactic.Ring
import Pyrust.Machine

/-!
# Removing instructions and retargeting jumps

Passes mark instructions to drop and compact the stream. A dropped instruction
is transparent: a jump to it lands on the first kept instruction behind it.
-/

set_option autoImplicit false

namespace Pyrust.Compaction

open Bytecode Machine

/-- `(pc as i64 + 1 + offset) as usize`. -/
def jumpTarget (pc : ℕ) (off : ℤ) : ℕ :=
  let t : ℤ := (pc : ℤ)+1+off
  if 0 ≤ t then t.toNat else (2^64+t).toNat

/-- Every offset leads into the stream or just past it, as the compiler patches them. -/
def InRange (insns : List Insn) : Prop :=
  ∀ (pc : ℕ) i k, insns[pc]? = some i → i.jumpOff = some k →
    0 ≤ (pc : ℤ)+1+k ∧ (pc : ℤ)+1+k ≤ insns.length

theorem inRange_iff (insns : List Insn) :
    InRange insns ↔ ∀ x ∈ insns.zipIdx, ∀ k ∈ x.1.jumpOff,
      0 ≤ (x.2 : ℤ)+1+k ∧ (x.2 : ℤ)+1+k ≤ insns.length := by
  constructor
  · intro h x hx k hk
    exact h x.2 x.1 k (by simpa using List.mem_zipIdx_iff_getElem?.mp hx) hk
  · intro h pc i k hi hk
    exact h (i, pc) (List.mem_zipIdx_iff_getElem?.mpr (by simpa using hi)) k hk

instance (insns : List Insn) : Decidable (InRange insns) :=
  decidable_of_iff _ (inRange_iff insns).symm

/-- `rewrite_offsets_with`. -/
def rewriteOffsetsWith (insn : Insn) (oldI : ℕ) (placementMap jumpTargetMap : List ℕ) : Insn :=
  insn.fixOff fun k =>
    ((jumpTargetMap.getD (jumpTarget oldI k) 0 : ℕ) : ℤ)-(placementMap.getD oldI 0 : ℕ)-1

def rewriteOffsets (insn : Insn) (oldI : ℕ) (toNew : List ℕ) : Insn :=
  rewriteOffsetsWith insn oldI toNew toNew

/-- The old-to-new index table, one entry longer than the mask. -/
def toNewFrom : ℕ → List Bool → List ℕ
  | cnt, [] => [cnt]
  | cnt, b::keep => cnt :: toNewFrom (if b then cnt+1 else cnt) keep

def toNew (keep : List Bool) : List ℕ := toNewFrom 0 keep

def compact (insns : List Insn) (keep : List Bool) : List Insn :=
  (insns.zipIdx.filter fun x => keep.getD x.2 false).map fun x =>
    rewriteOffsets x.1 x.2 (toNew keep)

theorem toNewFrom_getD (keep : List Bool) (cnt i : ℕ) (hi : i ≤ keep.length) :
    (toNewFrom cnt keep).getD i 0 = cnt+(keep.take i).count true := by
  induction keep generalizing cnt i with
  | nil =>
    obtain rfl : i = 0 := by simpa using hi
    rfl
  | cons b keep ih =>
    cases i with
    | zero => simp [toNewFrom]
    | succ i =>
      have h := ih (if b then cnt+1 else cnt) i (by simpa using hi)
      cases b <;> simp [toNewFrom] at h ⊢ <;> omega

/-- The new index of old position `i`: the kept instructions before it. -/
def newPc (keep : List Bool) (i : ℕ) : ℕ := (keep.take i).count true

theorem toNew_getD {keep : List Bool} {i : ℕ} (hi : i ≤ keep.length) :
    (toNew keep).getD i 0 = newPc keep i := by
  rw [toNew, toNewFrom_getD keep 0 i hi, newPc, zero_add]

theorem newPc_succ {keep : List Bool} {i : ℕ} {b : Bool} (h : keep[i]? = some b) :
    newPc keep (i+1) = newPc keep i + if b then 1 else 0 := by
  rw [newPc, newPc, List.take_add_one, h]
  cases b <;> simp

theorem newPc_le {keep : List Bool} {i j : ℕ} (h : i ≤ j) : newPc keep i ≤ newPc keep j :=
  (List.take_sublist_take_left h).count_le true

theorem getElem?_filter_countP {α : Type*} (p : α → Bool) (l : List α) (i : ℕ) (a : α)
    (h : l[i]? = some a) (hp : p a) : (l.filter p)[(l.take i).countP p]? = some a := by
  induction l generalizing i with
  | nil => simp at h
  | cons x l ih =>
    cases i with
    | zero =>
      obtain rfl : x = a := by simpa using h
      simp [hp]
    | succ i =>
      have h' := ih i (by simpa using h)
      by_cases hx : p x <;> simp [hx, h']

theorem countP_zipIdx (insns : List Insn) (keep : List Bool) (h : keep.length = insns.length)
    (i : ℕ) : (insns.zipIdx.take i).countP (fun x => keep.getD x.2 false) = newPc keep i := by
  induction i with
  | zero => simp [newPc]
  | succ i ih =>
    rw [List.take_add_one, List.countP_append, ih]
    by_cases hi : i < insns.length
    · have hk : keep[i]? = some (keep[i]) := List.getElem?_eq_getElem (by omega)
      rw [newPc_succ hk]
      simp [hi, hk]
    · have hk : newPc keep (i+1) = newPc keep i := by
        rw [newPc, newPc, List.take_of_length_le (by omega), List.take_of_length_le (by omega)]
      simp [hk, hi]

theorem compact_getElem? {insns : List Insn} {keep : List Bool}
    (h : keep.length = insns.length) {pc : ℕ} {i : Insn} (hi : insns[pc]? = some i)
    (hk : keep[pc]? = some true) :
    (compact insns keep)[newPc keep pc]? = some (rewriteOffsets i pc (toNew keep)) := by
  have hz : insns.zipIdx[pc]? = some (i, pc) := by simp [List.getElem?_zipIdx, hi]
  have hf := getElem?_filter_countP (fun x : Insn × ℕ => keep.getD x.2 false) _ _ _ hz
    (by simp [hk])
  rw [countP_zipIdx insns keep h] at hf
  rw [compact, List.getElem?_map, hf]
  rfl

theorem compact_length {insns : List Insn} {keep : List Bool} (h : keep.length = insns.length) :
    (compact insns keep).length = newPc keep insns.length := by
  rw [compact, List.length_map, ← List.countP_eq_length_filter,
    ← countP_zipIdx insns keep h insns.length, List.take_of_length_le (by simp)]

theorem target_eq {insns : List Insn} (hr : InRange insns) {pc : ℕ} {i : Insn} {k : ℤ}
    (hi : insns[pc]? = some i) (hk : i.jumpOff = some k) :
    target insns.length pc k = some (jumpTarget pc k) ∧ jumpTarget pc k ≤ insns.length := by
  obtain ⟨h0, hn⟩ := hr pc i k hi hk
  constructor
  · simp [target, jumpTarget, h0, hn]
  · simp only [jumpTarget, h0, if_true]
    omega

theorem target_fix {n a b : ℕ} (h : b ≤ n) : target n a ((b : ℤ)-a-1) = some b := by
  have hb : (a : ℤ)+1+((b : ℤ)-a-1) = b := by ring
  simp [target, hb, h]

theorem rewrite_target {i : Insn} {k : ℤ} (n' pc : ℕ) (placement jumpMap : List ℕ)
    (hk : i.jumpOff = some k) (h : jumpMap.getD (jumpTarget pc k) 0 ≤ n') :
    (rewriteOffsetsWith i pc placement jumpMap).jumpOff.bind
      (target n' (placement.getD pc 0)) = some (jumpMap.getD (jumpTarget pc k) 0) := by
  rw [rewriteOffsetsWith, Insn.fixOff_jumpOff, hk]
  exact target_fix h

theorem transfer_next {code : Code} {pc : ℕ} {hs : List ℕ} {i : Insn}
    (h : i.isHandlerMark = false) : transfer code pc hs i .next = .goto (pc+1) hs := by
  unfold transfer
  dsimp only
  split
  · cases h
  · cases h
  · rfl

theorem next_pc {code : Code} {pc pc' : ℕ} {hs hs' : List ℕ} {x : Insn}
    (ht : transfer code pc hs x .next = .goto pc' hs') : pc' = pc+1 := by
  rcases mark_cases x with ⟨k, rfl⟩ | rfl | hmark
  · simp only [transfer] at ht
    split at ht <;> cases ht
    rfl
  · cases ht
    rfl
  · rw [transfer_next hmark] at ht
    cases ht
    rfl

end Pyrust.Compaction
