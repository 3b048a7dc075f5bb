import Pyrust.Compaction

/-!
# The control graph of a stream

Places are program counters together with the stack of active handlers. The
graph keeps an edge for every way out an opcode has, raising included, so that
liveness read off it covers every path a run can take.
-/

set_option autoImplicit false

namespace Pyrust.ControlGraph

open Bytecode Machine Compaction

/-- The ways out an opcode has. -/
def canFlow : Insn → Flow → Bool
  | .loadConst _ _, f | .loadNone _, f | .loadNoneRange _ _, f | .setupExcept _, f
  | .popExcept, f => f = .next
  | .jump _, f => f = .jump
  | .returnNone, f => f = .halt
  | .ret _, f => f = .raise ∨ f = .halt
  | .raiseAssert _, f | .raiseAssertNoMsg, f | .raiseValue _, f | .raiseFrom _ _, f
  | .raiseReRaise, f | .raiseExceptStarResidual _, f => f = .raise
  | .yieldFrom _ _ _, f => f = .next ∨ f = .again ∨ f = .raise
  | i, f => f = .next ∨ f = .raise ∨ (f = .jump ∧ i.jumpOff.isSome)

theorem jumpOff_of_jump {x : Insn} (h : canFlow x .jump) : ∃ k, x.jumpOff = some k := by
  apply Option.isSome_iff_exists.mp
  unfold canFlow at h
  split at h
  case h_6 => rfl
  all_goals simp_all

theorem again_yieldFrom {x : Insn} (h : canFlow x .again) :
    ∃ iterReg sentReg resultReg, x = .yieldFrom iterReg sentReg resultReg := by
  unfold canFlow at h
  split at h
  case h_15 => exact ⟨_, _, _, rfl⟩
  all_goals simp at h

theorem outcome_flow {Val World : Type*} (sem : Sem Val World) (i : Insn)
    (ops : List (Operand Val)) (locals : Regs Val) (world : World) :
    canFlow i (outcome sem i.shape ops locals world).flow := by
  cases i
  case move =>
    cases ops with
    | nil => rfl
    | cons op ops => cases op <;> cases ops <;> rfl
  case copyReg =>
    cases ops with
    | nil => rfl
    | cons op ops => cases op <;> cases ops <;> rfl
  all_goals first
    | rfl
    | show canFlow _ (settle _ (sem.exec _ ops locals world).flow) = true
      cases (sem.exec _ ops locals world).flow <;> rfl

theorem perform_flow {Val World : Type*} (sem : Sem Val World) (numLocals : ℕ) (i : Insn)
    (regs : Regs Val) (world : World) : canFlow i (perform sem numLocals i regs world).flow :=
  outcome_flow sem i _ _ world

/-! ## Reachable places and live registers -/

/-- The places control can get to from the entry of the stream. -/
inductive Reach (code : Code) : ℕ → List ℕ → Prop
  | start : Reach code 0 []
  | step {pc pc' : ℕ} {hs hs' : List ℕ} {i : Insn} {f : Flow} : Reach code pc hs →
      code.insns[pc]? = some i → canFlow i f → transfer code pc hs i f = .goto pc' hs' →
      Reach code pc' hs'

/-- The registers an instruction is sure to have overwritten on a way out. -/
def overwritten (i : Insn) : Flow → List Reg
  | .raise => []
  | f => writesOn i f

theorem overwritten_sub {i : Insn} {f : Flow} {r : Reg} (h : r ∈ overwritten i f) :
    r ∈ i.collectWrites := by
  unfold overwritten at h
  split at h
  · cases h
  · exact writesOn_sub h

/-- Some path from the place reads the register before it is overwritten. -/
inductive Live (code : Code) (r : Reg) : ℕ → List ℕ → Prop
  | read {pc : ℕ} {hs : List ℕ} {i : Insn} : code.insns[pc]? = some i → r ∈ operandRegs i →
      Live code r pc hs
  | pass {pc pc' : ℕ} {hs hs' : List ℕ} {i : Insn} {f : Flow} : code.insns[pc]? = some i →
      canFlow i f → r ∉ overwritten i f → transfer code pc hs i f = .goto pc' hs' →
      Live code r pc' hs' → Live code r pc hs

section agreement
variable {Val World : Type*} {sem : Sem Val World} {numLocals : ℕ} {code : Code}

/-- Register files that agree on the named locals and on whatever may still be read. -/
def Agree (code : Code) (numLocals pc : ℕ) (hs : List ℕ) (regs regs' : Regs Val) : Prop :=
  ∀ r, r < numLocals ∨ Live code r pc hs → regs r = regs' r

theorem Agree.view {pc : ℕ} {hs : List ℕ} {regs regs' : Regs Val}
    (h : Agree code numLocals pc hs regs regs') :
    view numLocals regs = view numLocals regs' := by
  funext r
  by_cases hr : r < numLocals
  · simp [Machine.view, hr, h r (.inl hr)]
  · simp [Machine.view, hr]

theorem Agree.operands {pc : ℕ} {hs : List ℕ} {regs regs' : Regs Val} {i : Insn}
    (h : Agree code numLocals pc hs regs regs') (hi : code.insns[pc]? = some i) :
    operands numLocals i regs = operands numLocals i regs' := by
  rw [Machine.operands, Machine.operands, List.map_inj_left]
  intro r hr
  rw [Machine.read, Machine.read, h r (.inr (.read hi hr))]

theorem Agree.perform {pc : ℕ} {hs : List ℕ} {regs regs' : Regs Val} {i : Insn}
    (h : Agree code numLocals pc hs regs regs') (hi : code.insns[pc]? = some i) (world : World) :
    perform sem numLocals i regs world = perform sem numLocals i regs' world := by
  rw [Machine.perform, Machine.perform, h.operands hi, h.view]

theorem Agree.finish_view {pc : ℕ} {hs : List ℕ} {regs regs' : Regs Val}
    (h : Agree code numLocals pc hs regs regs') (i : Insn) (o : Outcome Val World) :
    Machine.view numLocals (finishRegs numLocals i o regs) =
      Machine.view numLocals (finishRegs numLocals i o regs') := by
  funext r
  by_cases hr : r < numLocals
  · simp only [Machine.view, hr, if_true]
    rw [finishRegs, finishRegs]
    apply writeAll_congr
    left
    by_cases hm : i.mayInvalidateNamedLocals
    · simp [hm, hr]
    · simp [hm, h r (.inl hr)]
  · simp [Machine.view, hr]

/-- Agreement at a place gives agreement wherever the instruction there leads. -/
theorem Agree.step {pc pc' : ℕ} {hs hs' : List ℕ} {regs regs' : Regs Val} {i : Insn}
    {o : Outcome Val World} (h : Agree code numLocals pc hs regs regs')
    (hi : code.insns[pc]? = some i) (hf : canFlow i o.flow)
    (ht : transfer code pc hs i o.flow = .goto pc' hs') :
    Agree code numLocals pc' hs' (finishRegs numLocals i o regs)
      (finishRegs numLocals i o regs') := by
  intro r hr
  rw [finishRegs, finishRegs]
  apply writeAll_congr
  by_cases hw : r ∈ overwritten i o.flow
  · right
    have hne : o.flow ≠ .raise := by
      intro heq
      simp [heq, overwritten] at hw
    refine ⟨?_, fun k => by simp [hne]⟩
    cases hflow : o.flow <;> simp_all [overwritten]
  · left
    have hsame : r < numLocals ∨ Live code r pc hs :=
      hr.imp_right fun hl => .pass hi hf hw ht hl
    by_cases hm : i.mayInvalidateNamedLocals
    · by_cases hlt : r < numLocals
      · simp [hm, hlt]
      · simp [hm, hlt, h r hsame]
    · simp [hm, h r hsame]

end agreement

end Pyrust.ControlGraph
