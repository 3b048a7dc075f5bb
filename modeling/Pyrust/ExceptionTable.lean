import Mathlib.Data.List.Infix
import Pyrust.ControlGraph

/-!
# Zero-cost exception tables

A worklist analysis assigns to every reachable instruction the stack of active
handlers at its entry. When all paths agree, the `SetupExcept`/`PopExcept` pairs
are dropped and a table names the innermost handler of each remaining
instruction. The table machine and the machine with the dynamic stack visit the
same instructions, whatever raises.
-/

set_option autoImplicit false

namespace Pyrust.ExceptionTable

open Bytecode Machine Compaction ControlGraph Simulation

/-- Active handlers at the entry of each instruction, innermost first. -/
abbrev StackIn := List (Option (List ℕ))

/-- The edges of the analysis. The handler of a `setupExcept` is entered with the stack before
the push; other exception edges are not followed. -/
def successors (pc : ℕ) (current : List ℕ) : Insn → List (ℕ × List ℕ)
  | .setupExcept off => [(pc+1, jumpTarget pc off :: current), (jumpTarget pc off, current)]
  | .popExcept => [(pc+1, current.tail)]
  | .jump off => [(jumpTarget pc off, current)]
  | .jumpIfFalse _ off | .jumpIfTrue _ off | .jumpIfNotInt _ off | .jumpIfIterNotIntRange _ off
  | .jumpIfIterNotIndexedSeq _ off | .jumpIfIterNotIntRangeExact _ off
  | .getItemSeqIntOrExit _ _ _ off | .jumpIfNotBuiltinLen _ off | .lenSeqOrExit _ _ off
  | .cmpJumpIfFalse _ _ _ off | .cmpJumpIfTrue _ _ _ off | .cmpJumpIfFalseConst _ _ _ off
  | .cmpJumpIfTrueConst _ _ _ off | .countCmpJumpTrue _ _ _ _ off
  | .countCmpJumpFalse _ _ _ _ off | .callInlineBinOp _ _ _ _ _ _ off | .forIter _ _ off
  | .matchExcept _ off | .matchExceptStar _ _ _ off =>
    [(jumpTarget pc off, current), (pc+1, current)]
  | .ret _ | .returnNone | .raiseAssert _ | .raiseAssertNoMsg | .raiseValue _
  | .raiseExceptStarResidual _ | .raiseFrom _ _ | .raiseReRaise => []
  | _ => [(pc+1, current)]

/-- `propagate`: an edge past the stream is a normal exit, a first visit is queued, and a
second one must bring the stack already known. -/
def propagate (st : StackIn × List ℕ) (edge : ℕ × List ℕ) : Option (StackIn × List ℕ) :=
  match st.1[edge.1]? with
  | none => some st
  | some none => some (st.1.set edge.1 (some edge.2), edge.1 :: st.2)
  | some (some existing) => if existing = edge.2 then some st else none

/-- The worklist loop. The fuel bounds the number of queued instructions. -/
def analyzeLoop (insns : List Insn) : ℕ → StackIn × List ℕ → Option StackIn
  | 0, _ => none
  | _+1, (stackIn, []) => some stackIn
  | fuel+1, (stackIn, pc::work) => match insns[pc]?, stackIn[pc]? with
    | some i, some (some current) =>
      ((successors pc current i).foldlM propagate (stackIn, work)).bind (analyzeLoop insns fuel)
    | _, _ => none

def analyzeActiveHandlerStacks (insns : List Insn) : Option StackIn :=
  match insns with
  | [] => analyzeLoop insns 1 ([], [])
  | _::rest => analyzeLoop insns (insns.length+1) (some [] :: rest.map fun _ => none, [0])

def keepMask (insns : List Insn) : List Bool := insns.map fun i => !i.isHandlerMark

/-- `handler_at` through `to_new`, for the instructions that stay. -/
def excTableOf (insns : List Insn) (stackIn : StackIn) : List (Option ℕ) :=
  ((insns.zip stackIn).filter fun x => !x.1.isHandlerMark).map fun x =>
    x.2.bind fun stack => stack.head?.map fun h => (toNew (keepMask insns)).getD h 0

/-- `build_exc_table_with_source_prefix`. -/
def buildExcTable (insns : List Insn) (sourcePrefixLen : ℕ) :
    List Insn × List (Option ℕ) × ℕ :=
  let sourcePrefixLen := min sourcePrefixLen insns.length
  if insns.any fun i => i matches .setupExcept _ then
    match analyzeActiveHandlerStacks insns with
    | none => (insns, [], sourcePrefixLen)
    | some stackIn =>
      (compact insns (keepMask insns), excTableOf insns stackIn,
        (toNew (keepMask insns)).getD sourcePrefixLen 0)
  else (insns, insns.map fun _ => none, sourcePrefixLen)

/-! ## What the analysis assigns -/

def Assigned (stackIn : StackIn) (pc : ℕ) (stack : List ℕ) : Prop :=
  stackIn[pc]? = some (some stack)

theorem Assigned.unique {S : StackIn} {pc : ℕ} {a b : List ℕ} (ha : Assigned S pc a)
    (hb : Assigned S pc b) : a = b := by
  simpa using ha.symm.trans hb

/-- What processing some edges does: nothing assigned changes, each edge inside the stream is
answered, and whatever is new came along an edge and is queued. -/
structure Grown (edges : List (ℕ × List ℕ)) (S S' : StackIn) (work work' : List ℕ) : Prop where
  length : S'.length = S.length
  keeps : ∀ {pc stack}, Assigned S pc stack → Assigned S' pc stack
  answered : ∀ e ∈ edges, S.length ≤ e.1 ∨ Assigned S' e.1 e.2
  fresh : ∀ {pc stack}, Assigned S' pc stack →
    Assigned S pc stack ∨ (pc, stack) ∈ edges ∧ pc ∈ work'
  queued : ∀ pc ∈ work, pc ∈ work'

theorem propagate_grown {S S' : StackIn} {work work' : List ℕ} {e : ℕ × List ℕ}
    (h : propagate (S, work) e = some (S', work')) : Grown [e] S S' work work' := by
  obtain ⟨t, stack⟩ := e
  unfold propagate at h
  split at h
  case h_1 hnone =>
    cases h
    have ht : S.length ≤ t := by simpa using hnone
    exact ⟨rfl, id, by simpa using Or.inl ht, Or.inl, fun _ => id⟩
  case h_2 hfree =>
    cases h
    have ht : t < S.length := (List.getElem?_eq_some_iff.mp hfree).1
    refine ⟨by simp, ?_, by simp [Assigned, ht], ?_, fun _ => List.mem_cons_of_mem t⟩
    · intro pc st hst
      have hne : t ≠ pc := by
        rintro rfl
        simp [Assigned, hfree] at hst
      simpa [Assigned, List.getElem?_set_ne hne] using hst
    · intro pc st hst
      by_cases hpc : t = pc
      · subst hpc
        have : stack = st := by simpa [Assigned, ht] using hst
        simp [this]
      · left
        simpa [Assigned, List.getElem?_set_ne hpc] using hst
  case h_3 existing hold =>
    split at h
    · cases h
      rename_i heq
      have heq : existing = stack := heq
      subst heq
      exact ⟨rfl, id, by simpa [Assigned] using Or.inr hold, Or.inl, fun _ => id⟩
    · cases h

theorem foldlM_grown {edges : List (ℕ × List ℕ)} {S S' : StackIn} {work work' : List ℕ}
    (h : edges.foldlM propagate (S, work) = some (S', work')) : Grown edges S S' work work' := by
  induction edges generalizing S work with
  | nil =>
    cases h
    exact ⟨rfl, id, by simp, Or.inl, fun _ => id⟩
  | cons e edges ih =>
    rw [List.foldlM_cons] at h
    cases hp : propagate (S, work) e with
    | none => simp [hp] at h
    | some st =>
      obtain ⟨S₁, work₁⟩ := st
      rw [hp] at h
      have g := propagate_grown hp
      have g' := ih (by simpa using h)
      refine ⟨g'.length.trans g.length, fun ha => g'.keeps (g.keeps ha), ?_, ?_,
        fun pc hpc => g'.queued pc (g.queued pc hpc)⟩
      · intro e' he'
        rcases List.mem_cons.mp he' with rfl | he'
        · exact (g.answered e' (by simp)).imp_right g'.keeps
        · simpa [g.length] using g'.answered e' he'
      · intro pc stack ha
        rcases g'.fresh ha with ha | ⟨he, hw⟩
        · rcases g.fresh ha with ha | ⟨he, hw⟩
          · exact .inl ha
          · exact .inr ⟨List.mem_cons.mpr (.inl (by simpa using he)), g'.queued pc hw⟩
        · exact .inr ⟨List.mem_cons_of_mem e he, hw⟩

/-- Every entry of the stack was pushed by a `setupExcept` that is entered with the rest. -/
def Supported (insns : List Insn) (S : StackIn) (stack : List ℕ) : Prop :=
  ∀ h rest, (h::rest) <:+ stack → ∃ q k, insns[q]? = some (.setupExcept k) ∧
    jumpTarget q k = h ∧ Assigned S q rest

structure Inv (insns : List Insn) (S : StackIn) (work : List ℕ) : Prop where
  length : S.length = insns.length
  closed : ∀ {pc stack i}, Assigned S pc stack → pc ∉ work → insns[pc]? = some i →
    ∀ e ∈ successors pc stack i, insns.length ≤ e.1 ∨ Assigned S e.1 e.2
  supported : ∀ {pc stack}, Assigned S pc stack → Supported insns S stack

theorem successors_stack {pc t : ℕ} {current stack : List ℕ} {i : Insn}
    (h : (t, stack) ∈ successors pc current i) :
    stack <:+ current ∨ ∃ k, i = .setupExcept k ∧ stack = jumpTarget pc k :: current := by
  have htail : current.tail <:+ current := List.tail_suffix current
  cases i <;> simp [successors.eq_def] at h <;> grind

theorem Inv.step {insns : List Insn} {S S' : StackIn} {pc : ℕ} {work work' : List ℕ} {i : Insn}
    {current : List ℕ} (hinv : Inv insns S (pc::work)) (hi : insns[pc]? = some i)
    (hc : Assigned S pc current) (g : Grown (successors pc current i) S S' work work') :
    Inv insns S' work' := by
  refine ⟨g.length.trans hinv.length, ?_, ?_⟩
  · intro u stack j ha hu hj e he
    rcases g.fresh ha with ha | ⟨-, hw⟩
    · by_cases hpc : u = pc
      · subst hpc
        obtain rfl : j = i := by simpa using hj.symm.trans hi
        obtain rfl := ha.unique hc
        simpa [hinv.length] using g.answered e he
      · have hnot : u ∉ pc::work := by
          simp only [List.mem_cons, not_or]
          exact ⟨hpc, fun hw => hu (g.queued u hw)⟩
        exact (hinv.closed ha hnot hj e he).imp_right g.keeps
    · exact absurd hw hu
  · have lift : ∀ {stack}, Supported insns S stack → Supported insns S' stack := by
      intro stack hs h rest hsuf
      obtain ⟨q, k, hq, hk, ha⟩ := hs h rest hsuf
      exact ⟨q, k, hq, hk, g.keeps ha⟩
    intro u stack ha
    rcases g.fresh ha with ha | ⟨he, -⟩
    · exact lift (hinv.supported ha)
    · rcases successors_stack he with hsuf | ⟨k, rfl, rfl⟩
      · exact lift fun h rest hr => hinv.supported hc h rest (hr.trans hsuf)
      · intro h rest hr
        rcases List.suffix_cons_iff.mp hr with heq | hr
        · cases heq
          exact ⟨pc, k, hi, rfl, g.keeps hc⟩
        · exact lift (hinv.supported hc) h rest hr

theorem analyzeLoop_inv {insns : List Insn} {fuel : ℕ} {S S' : StackIn} {work : List ℕ}
    (hinv : Inv insns S work) (h : analyzeLoop insns fuel (S, work) = some S') :
    Inv insns S' [] ∧ ∀ {pc stack}, Assigned S pc stack → Assigned S' pc stack := by
  induction fuel generalizing S work with
  | zero => cases h
  | succ fuel ih =>
    cases work with
    | nil =>
      cases h
      exact ⟨hinv, id⟩
    | cons pc work =>
      rw [analyzeLoop] at h
      split at h
      case h_2 => cases h
      case h_1 i current hi hc =>
        cases hf : (successors pc current i).foldlM propagate (S, work) with
        | none => simp [hf] at h
        | some st =>
          obtain ⟨S₁, work₁⟩ := st
          have g := foldlM_grown hf
          obtain ⟨hinv', hkeep⟩ := ih (hinv.step hi hc g) (by simpa [hf] using h)
          exact ⟨hinv', fun ha => hkeep (g.keeps ha)⟩

theorem analyze_spec {insns : List Insn} {S : StackIn}
    (h : analyzeActiveHandlerStacks insns = some S) :
    Inv insns S [] ∧ (insns ≠ [] → Assigned S 0 []) := by
  cases insns with
  | nil =>
    cases h
    exact ⟨⟨rfl, by simp [Assigned], by simp [Assigned]⟩, by simp⟩
  | cons i rest =>
    have hfree : ∀ {pc stack}, Assigned (some [] :: rest.map fun _ => none) pc stack →
        pc = 0 ∧ stack = [] := by
      intro pc stack ha
      cases pc with
      | zero => simpa [Assigned, eq_comm] using ha
      | succ pc => simp [Assigned, List.getElem?_replicate] at ha
    have hinv : Inv (i::rest) (some [] :: rest.map fun _ => none) [0] := by
      refine ⟨by simp, ?_, ?_⟩
      · intro pc stack j ha hpc
        exact absurd (by simp [(hfree ha).1]) hpc
      · intro pc stack ha h rest' hsuf
        rw [(hfree ha).2, List.suffix_nil] at hsuf
        cases hsuf
    obtain ⟨hS, hkeep⟩ := analyzeLoop_inv hinv h
    exact ⟨hS, fun _ => hkeep rfl⟩

/-! ## The fuel is enough

Every queued instruction was unassigned before, so the unassigned and queued
instructions together drop by one with each turn of the loop.
-/

def pending (st : StackIn × List ℕ) : ℕ := st.1.count none + st.2.length

theorem count_set_none {S : StackIn} {t : ℕ} (h : S[t]? = some none) (x : List ℕ) :
    (S.set t (some x)).count none + 1 = S.count none := by
  obtain ⟨ht, hv⟩ := List.getElem?_eq_some_iff.mp h
  have hpos : 0 < S.count none := List.count_pos_iff.mpr (hv ▸ List.getElem_mem ht)
  rw [List.count_set ht, hv]
  simp
  omega

theorem propagate_pending {st st' : StackIn × List ℕ} {e : ℕ × List ℕ}
    (h : propagate st e = some st') : pending st' = pending st := by
  unfold propagate at h
  split at h
  case h_1 => cases h; rfl
  case h_2 hfree =>
    cases h
    have := count_set_none hfree e.2
    simp only [pending, List.length_cons]
    omega
  case h_3 =>
    split at h <;> cases h
    rfl

theorem foldlM_pending {edges : List (ℕ × List ℕ)} {st st' : StackIn × List ℕ}
    (h : edges.foldlM propagate st = some st') : pending st' = pending st := by
  induction edges generalizing st with
  | nil => cases h; rfl
  | cons e edges ih =>
    rw [List.foldlM_cons] at h
    cases hp : propagate st e with
    | none => simp [hp] at h
    | some st₁ =>
      rw [hp] at h
      rw [ih (by simpa using h), propagate_pending hp]

theorem analyzeLoop_fuel {insns : List Insn} {fuel : ℕ} {st : StackIn × List ℕ}
    (h : pending st < fuel) : analyzeLoop insns (fuel+1) st = analyzeLoop insns fuel st := by
  induction fuel generalizing st with
  | zero => omega
  | succ fuel ih =>
    obtain ⟨S, work⟩ := st
    cases work with
    | nil => rfl
    | cons pc work =>
      rw [analyzeLoop, analyzeLoop]
      split
      · rename_i i current hi hc
        cases hf : (successors pc current i).foldlM propagate (S, work) with
        | none => rfl
        | some st' =>
          have hlt : pending st' < fuel := by
            rw [foldlM_pending hf]
            simp only [pending, List.length_cons] at h ⊢
            omega
          exact ih hlt
      · rfl

/-- Running the loop longer changes nothing: a bail is always an inconsistency. -/
theorem analyze_fuel (i : Insn) (rest : List Insn) (extra : ℕ) :
    analyzeLoop (i::rest) (rest.length+2+extra) (some [] :: rest.map fun _ => none, [0]) =
      analyzeActiveHandlerStacks (i::rest) := by
  induction extra with
  | zero => rfl
  | succ extra ih =>
    rw [← ih, ← add_assoc, analyzeLoop_fuel]
    simp [pending]
    omega

/-! ## The stripped stream -/

theorem keepMask_length (insns : List Insn) : (keepMask insns).length = insns.length := by
  simp [keepMask]

theorem keepMask_getElem? {insns : List Insn} {pc : ℕ} {i : Insn} (h : insns[pc]? = some i) :
    (keepMask insns)[pc]? = some (!i.isHandlerMark) := by
  simp [keepMask, h]

theorem newPc_keepMask_succ {insns : List Insn} {pc : ℕ} {i : Insn} (h : insns[pc]? = some i) :
    newPc (keepMask insns) (pc+1) =
      newPc (keepMask insns) pc + if i.isHandlerMark then 0 else 1 := by
  rw [newPc_succ (keepMask_getElem? h)]
  cases i.isHandlerMark <;> rfl

theorem countP_zip {insns : List Insn} {S : StackIn} (h : S.length = insns.length) (pc : ℕ) :
    ((insns.zip S).take pc).countP (fun x => !x.1.isHandlerMark) = newPc (keepMask insns) pc := by
  induction insns generalizing S pc with
  | nil => simp [newPc, keepMask]
  | cons i insns ih =>
    cases S with
    | nil => simp at h
    | cons a S =>
      cases pc with
      | zero => simp [newPc]
      | succ pc =>
        have := ih (by simpa using h) pc
        simp only [newPc, keepMask] at this ⊢
        cases hm : i.isHandlerMark <;> simp [hm, this]

theorem excTableOf_getElem? {insns : List Insn} {S : StackIn} (h : S.length = insns.length)
    {pc : ℕ} {i : Insn} {stack : List ℕ} (hi : insns[pc]? = some i)
    (hm : i.isHandlerMark = false) (ha : Assigned S pc stack) :
    (excTableOf insns S)[newPc (keepMask insns) pc]? =
      some (stack.head?.map fun h => (toNew (keepMask insns)).getD h 0) := by
  have hz : (insns.zip S)[pc]? = some (i, some stack) := by
    rw [List.getElem?_zip_eq_some]
    exact ⟨hi, ha⟩
  have hf := getElem?_filter_countP (fun x : Insn × Option (List ℕ) => !x.1.isHandlerMark) _ _ _ hz
    (by simp [hm])
  rw [countP_zip h] at hf
  rw [excTableOf, List.getElem?_map, hf]
  rfl

/-- An observer of everything but the handler marks, by the number of other instructions
before the one visited. -/
def unmarked (insns : List Insn) : Observer := fun pc i =>
  if i.isHandlerMark then none else some (newPc (keepMask insns) pc)

section run
variable {Val World : Type*} (sem : Sem Val World) (numLocals : ℕ)

/-- The dynamic frame on the left, the table frame on the right. -/
structure Rel (insns : List Insn) (S : StackIn) (s t : State Val World) : Prop where
  pc_le : s.pc ≤ insns.length
  pc : t.pc = newPc (keepMask insns) s.pc
  regs : t.regs = s.regs
  world : t.world = s.world
  stack : s.pc < insns.length → Assigned S s.pc s.handlers

def remaining (insns : List Insn) (s _t : Option (State Val World)) : ℕ :=
  match s with
  | some s => insns.length-s.pc
  | none => 0

variable {sem numLocals}

/-- An edge of the analysis leads from related states to related states. -/
theorem Rel.follow {insns : List Insn} {S : StackIn} (hinv : Inv insns S []) {pc : ℕ}
    {stack : List ℕ} {i : Insn} (ha : Assigned S pc stack) (hi : insns[pc]? = some i)
    {pc' : ℕ} {stack' : List ℕ} (he : (pc', stack') ∈ successors pc stack i)
    (hle : pc' ≤ insns.length) (regs : Regs Val) (w : World) (hs : List ℕ) :
    Rel insns S ⟨pc', regs, w, stack'⟩ ⟨newPc (keepMask insns) pc', regs, w, hs⟩ := by
  refine ⟨hle, rfl, rfl, rfl, fun hlt => ?_⟩
  exact (hinv.closed ha (by simp) hi _ he).resolve_left (by simpa using hlt)

theorem successors_next {pc : ℕ} {stack : List ℕ} {i : Insn} (hf : canFlow i .next)
    (hm : i.isHandlerMark = false) : (pc+1, stack) ∈ successors pc stack i := by
  cases i <;> simp_all [successors.eq_def, canFlow.eq_def, Insn.isHandlerMark]

theorem successors_jump {pc : ℕ} {stack : List ℕ} {i : Insn} {k : ℤ} (hf : canFlow i .jump)
    (hk : i.jumpOff = some k) : (jumpTarget pc k, stack) ∈ successors pc stack i := by
  cases i <;> simp_all [successors.eq_def, canFlow.eq_def, Insn.jumpOff.eq_def]

theorem compact_unmarked {insns : List Insn} {pc : ℕ} {i : Insn}
    (h : (compact insns (keepMask insns))[pc]? = some i) : i.isHandlerMark = false := by
  have hmem := List.mem_of_getElem? h
  simp only [compact, List.mem_map, List.mem_filter] at hmem
  obtain ⟨⟨j, q⟩, ⟨hj, hk⟩, rfl⟩ := hmem
  have hq : insns[q]? = some j := by simpa [List.mk_mem_zipIdx_iff_getElem?] using hj
  simp only [List.getD_eq_getElem?_getD, keepMask_getElem? hq] at hk
  simpa [rewriteOffsets, rewriteOffsetsWith] using hk

theorem newPc_all_true {keep : List Bool} (h : ∀ b ∈ keep, b = true) {pc : ℕ}
    (hpc : pc ≤ keep.length) : newPc keep pc = pc := by
  rw [newPc, List.count_eq_length.mpr]
  · simpa using hpc
  · intro b hb
    exact (h b (List.mem_of_mem_take hb)).symm

theorem unmarked_compact {insns : List Insn} {pc : ℕ} {i : Insn}
    (h : (compact insns (keepMask insns))[pc]? = some i) :
    unmarked (compact insns (keepMask insns)) pc i = some pc := by
  rw [unmarked, compact_unmarked h, if_neg (by simp), newPc_all_true]
  · intro b hb
    simp only [keepMask, List.mem_map] at hb
    obtain ⟨j, hj, rfl⟩ := hb
    obtain ⟨q, hq⟩ := List.mem_iff_getElem?.mp hj
    simp [compact_unmarked hq]
  · rw [keepMask_length]
    exact le_of_lt (List.getElem?_eq_some_iff.mp h).1

/-- The raise of a kept instruction goes to the same handler, or escapes, in both frames. -/
theorem raise_rel {insns : List Insn} {S : StackIn} (hr : InRange insns) (hinv : Inv insns S [])
    {pc : ℕ} {stack hs : List ℕ} {i : Insn} (hi : insns[pc]? = some i)
    (hm : i.isHandlerMark = false) (ha : Assigned S pc stack) (regs : Regs Val) :
    Goto.Rel (fun pc hs pc' hs' => ∀ w : World,
        Rel insns S ⟨pc, regs, w, hs⟩ ⟨pc', regs, w, hs'⟩)
      (raiseTo ⟨insns, []⟩ pc stack)
      (raiseTo ⟨compact insns (keepMask insns), excTableOf insns S⟩ (newPc (keepMask insns) pc)
        hs) := by
  have ht := excTableOf_getElem? hinv.length hi hm ha
  have hne : excTableOf insns S ≠ [] := by
    intro h
    simp [h] at ht
  cases stack with
  | nil => simpa [raiseTo, hne, ht] using Goto.Rel.finish .escaped
  | cons h rest =>
    obtain ⟨q, k, hq, rfl, haq⟩ := hinv.supported ha h rest List.suffix_rfl
    have hle : jumpTarget q k ≤ insns.length := (target_eq hr hq rfl).2
    have hn : (toNew (keepMask insns)).getD (jumpTarget q k) 0 =
        newPc (keepMask insns) (jumpTarget q k) := toNew_getD (by rwa [keepMask_length])
    simp only [raiseTo, if_true, if_neg hne, ht, List.head?_cons, Option.map_some, hn]
    exact .goto fun w => Rel.follow hinv haq hq (by simp [successors.eq_def]) hle regs w hs

theorem kept_rel {insns : List Insn} {S : StackIn} (hr : InRange insns) (hinv : Inv insns S [])
    {pc : ℕ} {stack hs : List ℕ} {i : Insn} (hi : insns[pc]? = some i)
    (hm : i.isHandlerMark = false) (ha : Assigned S pc stack) (regs : Regs Val) {f : Flow}
    (hf : canFlow i f) :
    Goto.Rel (fun pc hs pc' hs' => ∀ w : World,
        Rel insns S ⟨pc, regs, w, hs⟩ ⟨pc', regs, w, hs'⟩)
      (transfer ⟨insns, []⟩ pc stack i f)
      (transfer ⟨compact insns (keepMask insns), excTableOf insns S⟩ (newPc (keepMask insns) pc) hs
        (rewriteOffsets i pc (toNew (keepMask insns))) f) := by
  have hlt : pc < insns.length := (List.getElem?_eq_some_iff.mp hi).1
  have hplace : (toNew (keepMask insns)).getD pc 0 = newPc (keepMask insns) pc :=
    toNew_getD (by rw [keepMask_length]; omega)
  cases f with
  | next =>
    rw [transfer_next hm, transfer_next (by simpa [rewriteOffsets, rewriteOffsetsWith] using hm)]
    have hsucc := newPc_keepMask_succ hi
    rw [hm] at hsucc
    refine .goto fun w => ?_
    rw [← show newPc (keepMask insns) (pc+1) = newPc (keepMask insns) pc + 1 by simpa using hsucc]
    exact Rel.follow hinv ha hi (successors_next hf hm) (by omega) regs w hs
  | jump =>
    obtain ⟨k, hk⟩ := jumpOff_of_jump hf
    obtain ⟨ht, hle⟩ := target_eq hr hi hk
    have hn : (toNew (keepMask insns)).getD (jumpTarget pc k) 0 =
        newPc (keepMask insns) (jumpTarget pc k) := toNew_getD (by rwa [keepMask_length])
    have ht' := rewrite_target (compact insns (keepMask insns)).length pc
      (toNew (keepMask insns)) (toNew (keepMask insns)) hk
      (by rw [hn, compact_length (keepMask_length insns)]; exact newPc_le hle)
    rw [hplace, hn] at ht'
    simp only [transfer, hk, Option.bind_some, ht, rewriteOffsets, ht']
    exact .goto fun w => Rel.follow hinv ha hi (successors_jump hf hk) hle regs w hs
  | again => exact .goto fun w => ⟨hlt.le, rfl, rfl, rfl, fun _ => ha⟩
  | raise => exact raise_rel hr hinv hi hm ha regs
  | halt => exact .finish .returned

theorem mark_transfer {insns : List Insn} (hr : InRange insns) {pc : ℕ} {i : Insn}
    (hi : insns[pc]? = some i) (hm : i.isHandlerMark) (stack : List ℕ) :
    ∃ stack', (pc+1, stack') ∈ successors pc stack i ∧
      transfer ⟨insns, []⟩ pc stack i .next = .goto (pc+1) stack' := by
  cases i with
  | setupExcept k =>
    exact ⟨jumpTarget pc k :: stack, by simp [successors.eq_def],
      by simp [transfer, (target_eq hr hi rfl).1]⟩
  | popExcept => exact ⟨stack.tail, by simp [successors.eq_def], rfl⟩
  | _ => cases hm

theorem rel_matched {insns : List Insn} {S : StackIn} (hr : InRange insns)
    (hinv : Inv insns S []) {s t : State Val World} (h : Rel insns S s t) :
    Machine.Matched (frame sem numLocals ⟨insns, []⟩ (unmarked insns))
      (frame sem numLocals ⟨compact insns (keepMask insns), excTableOf insns S⟩
        (unmarked (compact insns (keepMask insns))))
      (Option.Rel (Rel insns S)) (remaining insns) (some s) (some t) := by
  obtain ⟨pc, regs, w, stack⟩ := s
  obtain ⟨pc', regs', w', hs⟩ := t
  obtain ⟨hle, hpc, hregs, hworld, hstack⟩ := h
  dsimp only at hle hpc hregs hworld hstack
  subst pc' regs' w'
  rcases hle.lt_or_eq with hlt | rfl
  · have ha := hstack hlt
    have hi := List.getElem?_eq_getElem hlt
    cases hm : (insns[pc]).isHandlerMark with
    | true =>
      obtain ⟨stack', he, htr⟩ := mark_transfer hr hi hm stack
      obtain ⟨hflow, hworld, hregs⟩ := perform_mark sem numLocals hm regs w
      have hstep : (frame sem numLocals ⟨insns, []⟩ (unmarked insns)).step
          (some ⟨pc, regs, w, stack⟩) = some ([], some ⟨pc+1, regs, w, stack'⟩) := by
        rw [frame_silent hi (by simp [unmarked, hm]) hflow htr, hworld, hregs]
      refine .left _ hstep (.some ?_) (by simp only [remaining]; omega)
      have hsucc := newPc_keepMask_succ hi
      rw [hm, if_pos rfl, add_zero] at hsucc
      rw [← hsucc]
      exact Rel.follow hinv ha hi he (by omega) regs w hs
    | false =>
      have hj := compact_getElem? (keepMask_length insns) hi
        (by rw [keepMask_getElem? hi, hm]; rfl)
      refine frame_both hi hj ?_ ?_ ?_ ?_
      · rw [visitEvents, visitEvents, unmarked_compact hj]
        simp [unmarked, hm, rewriteOffsets, rewriteOffsetsWith]
      · simp [rewriteOffsets, rewriteOffsetsWith]
      · simp [rewriteOffsets, rewriteOffsetsWith]
      · simp only [rewriteOffsets, rewriteOffsetsWith, finishRegs_fixOff]
        exact kept_rel hr hinv hi hm ha _ (perform_flow sem numLocals _ _ _)
  · refine .both _ _ _ (frame_past rfl) ?_ .none
    rw [frame_past]
    exact (compact_length (keepMask_length insns)).symm

/-- Without a `setupExcept` the dynamic stack stays empty and every raise escapes. -/
structure Plain (s t : State Val World) : Prop where
  same : t = s
  empty : s.handlers = []

theorem transfer_plain {insns : List Insn} (hno : ∀ i ∈ insns, ∀ k, i ≠ .setupExcept k) {pc : ℕ}
    {i : Insn} (hi : insns[pc]? = some i) (regs : Regs Val) (f : Flow) :
    Goto.Rel (fun pc hs pc' hs' => ∀ w : World, Plain ⟨pc, regs, w, hs⟩ ⟨pc', regs, w, hs'⟩)
      (transfer ⟨insns, []⟩ pc [] i f) (transfer ⟨insns, insns.map fun _ => none⟩ pc [] i f) := by
  have hplain : ∀ pc, Goto.Rel (fun pc hs pc' hs' => ∀ w : World,
      Plain ⟨pc, regs, w, hs⟩ ⟨pc', regs, w, hs'⟩) (.goto pc []) (.goto pc []) :=
    fun pc => .goto fun w => ⟨rfl, rfl⟩
  cases f with
  | next =>
    have hs := hno i (List.mem_of_getElem? hi)
    cases i <;> first | exact hplain _ | exact absurd rfl (hs _)
  | jump =>
    simp only [transfer]
    cases i.jumpOff.bind (target insns.length pc) with
    | none => exact .finish .fault
    | some t => exact hplain t
  | again => exact hplain pc
  | raise =>
    have hne : insns ≠ [] := by
      rintro rfl
      simp at hi
    have hnone : (insns.map fun _ => (none : Option ℕ))[pc]? = some none := by
      rw [List.getElem?_map, hi]
      rfl
    simp only [transfer, raiseTo, if_true, List.map_eq_nil_iff, if_neg hne, hnone]
    exact .finish .escaped
  | halt => exact .finish .returned

theorem plain_matched {insns : List Insn} (hno : ∀ i ∈ insns, ∀ k, i ≠ .setupExcept k)
    {s t : State Val World} (h : Plain s t) :
    Machine.Matched (frame sem numLocals ⟨insns, []⟩ (unmarked insns))
      (frame sem numLocals ⟨insns, insns.map fun _ => none⟩ (unmarked insns))
      (Option.Rel Plain) (fun _ _ => 0) (some s) (some t) := by
  obtain ⟨pc, regs, w, stack⟩ := s
  obtain ⟨rfl, hempty⟩ := h
  dsimp only at hempty
  subst hempty
  cases hi : insns[pc]? with
  | none => exact .both _ _ _ (frame_none hi) (frame_none hi) .none
  | some i =>
    exact frame_both hi hi rfl rfl rfl (transfer_plain hno hi _ _)

/-- Whatever the opcodes do and whichever of them raise, the stream with its table and the
stream with the dynamic stack visit the same instructions other than the handler marks, on the
same operand values, and end alike. On a bail nothing is changed, so that the line table, which
is computed from the stream and the length of its source part, is not either. -/
theorem exc_table_refines_handler_stack (insns : List Insn) (sourcePrefixLen : ℕ)
    (hr : InRange insns) (sem : Sem Val World) (numLocals : ℕ) (regs : Regs Val) (world : World) :
    let built := buildExcTable insns sourcePrefixLen
    (frame sem numLocals ⟨built.1, built.2.1⟩ (unmarked built.1)).behaviours
        (State.enter regs world) =
      (frame sem numLocals ⟨insns, []⟩ (unmarked insns)).behaviours (State.enter regs world) ∧
    ((∃ k, .setupExcept k ∈ insns) → analyzeActiveHandlerStacks insns = none →
      built = (insns, [], min sourcePrefixLen insns.length)) := by
  have hany : (insns.any fun i => i matches .setupExcept _) = true ↔
      ∃ k, .setupExcept k ∈ insns := by
    rw [List.any_eq_true]
    constructor
    · rintro ⟨i, hi, hm⟩
      cases i <;> first | exact ⟨_, hi⟩ | cases hm
    · rintro ⟨k, hk⟩
      exact ⟨_, hk, rfl⟩
  intro built
  by_cases hsome : ∃ k, .setupExcept k ∈ insns
  · cases hS : analyzeActiveHandlerStacks insns with
    | none =>
      have hbuilt : built = (insns, [], min sourcePrefixLen insns.length) := by
        simp only [built, buildExcTable, if_pos (hany.mpr hsome), hS]
      rw [hbuilt]
      exact ⟨rfl, fun _ _ => rfl⟩
    | some S =>
      have hbuilt : built.1 = compact insns (keepMask insns) ∧ built.2.1 = excTableOf insns S := by
        simp only [built, buildExcTable, if_pos (hany.mpr hsome), hS, and_self]
      refine ⟨?_, fun _ h => by cases h⟩
      rw [hbuilt.1, hbuilt.2]
      obtain ⟨hinv, hzero⟩ := analyze_spec hS
      have hstart : Rel insns S ⟨0, regs, world, []⟩ ⟨0, regs, world, []⟩ := by
        refine ⟨Nat.zero_le _, rfl, rfl, rfl, fun _ => hzero ?_⟩
        rintro rfl
        simp at hsome
      exact (frame_behaviours_eq (Rel insns S) (remaining insns)
        (fun s t => rel_matched hr hinv) hstart).symm
  · have hbuilt : built.1 = insns ∧ built.2.1 = insns.map fun _ => none := by
      simp only [built, buildExcTable, if_neg (mt hany.mp hsome), and_self]
    refine ⟨?_, fun h => absurd h hsome⟩
    rw [hbuilt.1, hbuilt.2]
    have hno : ∀ i ∈ insns, ∀ k, i ≠ .setupExcept k := by
      rintro i hi k rfl
      exact hsome ⟨k, hi⟩
    exact (frame_behaviours_eq Plain (fun _ _ => 0) (fun s t => plain_matched hno)
      ⟨rfl, rfl⟩).symm

/-- A protected call in a loop, with a handler that goes on looping. -/
def tryInLoop : List Insn :=
  [.forIter 1 0 6, .setupExcept 3, .call 2 1, .popExcept, .jump (-5), .endExcept, .jump (-7),
    .returnNone]

theorem exc_table_refines_handler_stack_try_in_loop :
    (buildExcTable tryInLoop 8).2.1 ≠ [] ∧
    (frame scripted 1 ⟨(buildExcTable tryInLoop 8).1, (buildExcTable tryInLoop 8).2.1⟩
        (unmarked (buildExcTable tryInLoop 8).1)).behaviours
        (State.enter (fun _ => none) [.next, .raise, .next, .jump]) =
      (frame scripted 1 ⟨tryInLoop, []⟩ (unmarked tryInLoop)).behaviours
        (State.enter (fun _ => none) [.next, .raise, .next, .jump]) :=
  ⟨by decide, (exc_table_refines_handler_stack tryInLoop 8 (by decide) scripted 1 (fun _ => none)
    [.next, .raise, .next, .jump]).1⟩

end run

end Pyrust.ExceptionTable
