import Mathlib.Logic.Function.Basic
import Pyrust.Bytecode
import Pyrust.Simulation

/-!
# The register machine

One frame of the dispatch loop: a program counter, registers that may be unset,
the stack of handler targets, and a world that stands for everything else the
interpreter owns. What an opcode does to values is a parameter of the model.
Which registers it reads and writes, where control goes next and how a raise
finds its handler are not: they follow the dispatch loop.
-/

set_option autoImplicit false

namespace Pyrust.Machine

open Bytecode Simulation

/-- How control leaves an instruction. `again` is a suspended delegation, which is resumed at
the instruction that suspended it. -/
inductive Flow where
  | next | jump | again | raise | halt
  deriving DecidableEq, Repr

inductive Finish where
  | returned | escaped | fault
  deriving DecidableEq, Repr

abbrev Regs (Val : Type*) := Reg → Option Val

/-- A register as `vm_read` sees it: its error tells named locals from temporaries. -/
inductive Operand (Val : Type*) where
  | value (v : Val)
  | unboundLocal
  | unsetTemp
  deriving DecidableEq, Repr

/-- `locals` are the named locals as called code leaves them, `results` the values of the
destinations in order, and `early` the destinations already written when the opcode raises. -/
structure Outcome (Val World : Type*) where
  world : World
  locals : Regs Val
  flow : Flow
  results : ℕ → Option Val
  early : ℕ → Bool

/-- What the opcodes do to values. `unbound` is the failed read of an unset register, `caught`
the bookkeeping at the entry of a handler, which may itself fail. -/
structure Sem (Val World : Type*) where
  const : ℕ → Val
  none : Val
  exec : Insn → List (Operand Val) → Regs Val → World → Outcome Val World
  unbound : Operand Val → World → World
  caught : World → Option World

/-- A code object: the stream and its exception table, empty when handlers are kept on the
dynamic stack. -/
structure Code where
  insns : List Insn
  excTable : List (Option ℕ)

structure State (Val World : Type*) where
  pc : ℕ
  regs : Regs Val
  world : World
  handlers : List ℕ

inductive Event (Val World : Type*) where
  | visit (label : ℕ) (shape : Insn) (operands : List (Operand Val))
  | finish (how : Finish) (locals : Regs Val) (world : World)

/-- The visits of a trace, without how it ended. -/
def visits {Val World : Type*} :
    List (Event Val World) → List (ℕ × Insn × List (Operand Val)) :=
  List.filterMap fun
    | .visit label shape ops => some (label, shape, ops)
    | .finish _ _ _ => none

/-- The registers an instruction reads. `deleteLocal` looks at the slot it clears, which
`collect_reads` does not list. -/
def operandRegs : Insn → List Reg
  | .deleteLocal r _ _ => [r]
  | i => i.collectReads

/-- The flows an opcode has, whatever the semantics asks for. -/
def settle : Insn → Flow → Flow
  | .ret _, .raise => .raise
  | .ret _, _ => .halt
  | .raiseAssert _, _ | .raiseAssertNoMsg, _ | .raiseValue _, _ | .raiseFrom _ _, _
  | .raiseReRaise, _ | .raiseExceptStarResidual _, _ => .raise
  | .yieldFrom _ _ _, .again => .again
  | _, .raise => .raise
  | i, .jump => if i.jumpOff.isSome then .jump else .next
  | _, _ => .next

/-- The registers written on each way out. A raise may come before some of the writes. -/
def writesOn : Insn → Flow → List Reg
  | i, .raise => i.collectWrites
  | .callInlineBinOp _ _ _ _ _ _ _, .next => []
  | .yieldFrom _ _ resultReg, .next => [resultReg]
  | .matchExceptStar _ src dst _, .next => [dst, src]
  | i, .next => i.collectWrites
  | .callInlineBinOp _ dst _ _ _ _ _, .jump => [dst]
  | .countCmpJumpTrue v _ _ _ _, .jump => [v]
  | .countCmpJumpFalse v _ _ _ _, .jump => [v]
  | .yieldFrom _ sentReg _, .again => [sentReg]
  | _, _ => []

section values
variable {Val World : Type*}

def read (numLocals : ℕ) (regs : Regs Val) (r : Reg) : Operand Val :=
  match regs r with
  | some v => .value v
  | none => if r < numLocals then .unboundLocal else .unsetTemp

def operands (numLocals : ℕ) (i : Insn) (regs : Regs Val) : List (Operand Val) :=
  (operandRegs i).map (read numLocals regs)

/-- The named locals, as namespace aliases reach them. -/
def view (numLocals : ℕ) (regs : Regs Val) : Regs Val :=
  fun r => if r < numLocals then regs r else none

def writeAll : List Reg → (ℕ → Option (Option Val)) → Regs Val → Regs Val
  | [], _, regs => regs
  | r::rs, v, regs => writeAll rs (fun k => v (k+1)) (match v 0 with
      | some x => Function.update regs r x
      | none => regs)

/-- The opcode of a shape applied to operand values. -/
def outcome (sem : Sem Val World) (shape : Insn) (ops : List (Operand Val)) (locals : Regs Val)
    (world : World) : Outcome Val World :=
  match shape with
  | .loadConst _ c => ⟨world, locals, .next, fun _ => some (sem.const c), fun _ => false⟩
  | .loadNone _ | .loadNoneRange _ _ =>
    ⟨world, locals, .next, fun _ => some sem.none, fun _ => false⟩
  | .move _ _ | .copyReg _ _ => match ops with
    | [.value v] => ⟨world, locals, .next, fun _ => some v, fun _ => false⟩
    | ops => ⟨sem.unbound (ops.headD .unsetTemp) world, locals, .raise, fun _ => none,
        fun _ => false⟩
  | .jump _ => ⟨world, locals, .jump, fun _ => none, fun _ => false⟩
  | .setupExcept _ | .popExcept => ⟨world, locals, .next, fun _ => none, fun _ => false⟩
  | .returnNone => ⟨world, locals, .halt, fun _ => none, fun _ => false⟩
  | shape =>
    let o := sem.exec shape ops locals world
    { o with flow := settle shape o.flow }

/-- The registers after an instruction: called code has rewritten the named locals if it may,
then the destinations are written. -/
def finishRegs (numLocals : ℕ) (i : Insn) (o : Outcome Val World) (regs : Regs Val) : Regs Val :=
  let base := if i.mayInvalidateNamedLocals then
      fun r => if r < numLocals then o.locals r else regs r
    else regs
  writeAll (writesOn i o.flow) (fun k =>
    if o.flow = .raise ∧ o.early k = false then none else some (o.results k)) base

def perform (sem : Sem Val World) (numLocals : ℕ) (i : Insn) (regs : Regs Val) (world : World) :
    Outcome Val World :=
  outcome sem i.shape (operands numLocals i regs) (view numLocals regs) world

end values

/-- `jump_pc!`: the target must lie in the stream or just past it. -/
def target (len pc : ℕ) (off : ℤ) : Option ℕ :=
  let t : ℤ := (pc : ℤ)+1+off
  if 0 ≤ t ∧ t ≤ len then some t.toNat else none

inductive Goto where
  | goto (pc : ℕ) (handlers : List ℕ)
  | finish (how : Finish)
  deriving DecidableEq, Repr

/-- `handle_vm_error`: a table, when there is one, is the source of truth. -/
def raiseTo (code : Code) (pc : ℕ) (handlers : List ℕ) : Goto :=
  if code.excTable = [] then
    match handlers with
    | h::rest => .goto h rest
    | [] => .finish .escaped
  else
    match code.excTable[pc]? with
    | some (some h) => .goto h handlers
    | _ => .finish .escaped

def transfer (code : Code) (pc : ℕ) (handlers : List ℕ) (i : Insn) : Flow → Goto
  | .next => match i with
    | .setupExcept k => match target code.insns.length pc k with
      | some h => .goto (pc+1) (h::handlers)
      | none => .finish .fault
    | .popExcept => .goto (pc+1) handlers.tail
    | _ => .goto (pc+1) handlers
  | .jump => match i.jumpOff.bind (target code.insns.length pc) with
    | some t => .goto t handlers
    | none => .finish .fault
  | .again => .goto pc handlers
  | .raise => raiseTo code pc handlers
  | .halt => .finish .returned

theorem transfer_congr {insns insns' : List Insn} (h : insns.length = insns'.length) (pc : ℕ)
    (hs : List ℕ) (x : Insn) (f : Flow) :
    transfer ⟨insns, []⟩ pc hs x f = transfer ⟨insns', []⟩ pc hs x f := by
  unfold transfer raiseTo
  rw [h]

section machine
variable {Val World : Type*} (sem : Sem Val World) (numLocals : ℕ) (code : Code)

/-- What an observer labels a visited instruction with, or nothing when the visit is hidden. -/
abbrev Observer := ℕ → Insn → Option ℕ

/-- Carry an outcome to the next state, or to the end of the frame. -/
def proceed (regs : Regs Val) (o : Outcome Val World) :
    Goto → List (Event Val World) × Option (State Val World)
  | .finish how => ([.finish how (view numLocals regs) o.world], none)
  | .goto pc handlers => match o.flow with
    | .raise => match sem.caught o.world with
      | some w => ([], some ⟨pc, regs, w, handlers⟩)
      | none => ([.finish .escaped (view numLocals regs) o.world], none)
    | _ => ([], some ⟨pc, regs, o.world, handlers⟩)

def visitEvents (obs : Observer) (s : State Val World) (i : Insn) : List (Event Val World) :=
  match obs s.pc i with
  | some label => [.visit label i.shape (operands numLocals i s.regs)]
  | none => []

def step (obs : Observer) (s : State Val World) :
    List (Event Val World) × Option (State Val World) :=
  match code.insns[s.pc]? with
  | none =>
    let how := if s.pc = code.insns.length then Finish.returned else Finish.fault
    ([.finish how (view numLocals s.regs) s.world], none)
  | some i =>
    let o := perform sem numLocals i s.regs s.world
    let r := proceed sem numLocals (finishRegs numLocals i o s.regs) o
      (transfer code s.pc s.handlers i o.flow)
    (visitEvents numLocals obs s i ++ r.1, r.2)

/-- The frame as an observed machine. A stopped frame is `none`. -/
def frame (obs : Observer) : Machine (Option (State Val World)) (Event Val World) where
  step
    | none => none
    | some s => some (step sem numLocals code obs s)

end machine

/-- A fresh frame. -/
def State.enter {Val World : Type*} (regs : Regs Val) (world : World) :
    Option (State Val World) := some ⟨0, regs, world, []⟩

/-- Opcodes that take their way out from a script and produce the value `7`. Constants are
their pool indices. -/
def scripted : Sem ℕ (List Flow) where
  const c := c
  none := 0
  exec _ _ locals world := ⟨world.tail, locals, world.headD .next, fun _ => some 7, fun _ => false⟩
  unbound _ world := world
  caught := some

section offsets
variable (fix : ℤ → ℤ) (i : Insn)

@[simp] theorem operandRegs_fixOff : operandRegs (i.fixOff fix) = operandRegs i := by
  cases i <;> rfl

@[simp] theorem writesOn_fixOff (f : Flow) : writesOn (i.fixOff fix) f = writesOn i f := by
  cases i <;> first
    | rfl
    | cases f <;> rfl

variable {Val World : Type*}

@[simp] theorem operands_fixOff (numLocals : ℕ) (regs : Regs Val) :
    operands numLocals (i.fixOff fix) regs = operands numLocals i regs := by
  simp [operands]

@[simp] theorem perform_fixOff (sem : Sem Val World) (numLocals : ℕ) (regs : Regs Val)
    (world : World) :
    perform sem numLocals (i.fixOff fix) regs world = perform sem numLocals i regs world := by
  simp [perform]

@[simp] theorem finishRegs_fixOff (numLocals : ℕ) (o : Outcome Val World) (regs : Regs Val) :
    finishRegs numLocals (i.fixOff fix) o regs = finishRegs numLocals i o regs := by
  simp [finishRegs]

end offsets

section still
variable {Val World : Type*} {sem : Sem Val World} {numLocals : ℕ}

theorem view_self (regs : Regs Val) :
    (fun r => if r < numLocals then view numLocals regs r else regs r) = regs := by
  funext r
  by_cases h : r < numLocals <;> simp [view, h]

theorem handlerMark_cases {x : Insn} (h : x.isHandlerMark) :
    (∃ k, x = .setupExcept k) ∨ x = .popExcept := by
  unfold Insn.isHandlerMark at h
  split at h
  · exact .inl ⟨_, rfl⟩
  · exact .inr rfl
  · cases h

theorem mark_cases (x : Insn) :
    (∃ k, x = .setupExcept k) ∨ x = .popExcept ∨ x.isHandlerMark = false := by
  by_cases h : x.isHandlerMark = true
  · exact (handlerMark_cases h).imp_right .inl
  · exact .inr (.inr (by simpa using h))

variable (sem numLocals) in
/-- A handler mark changes no register and not the world. -/
theorem perform_mark {i : Insn} (h : i.isHandlerMark) (regs : Regs Val) (world : World) :
    (perform sem numLocals i regs world).flow = .next ∧
      (perform sem numLocals i regs world).world = world ∧
      finishRegs numLocals i (perform sem numLocals i regs world) regs = regs := by
  rcases handlerMark_cases h with ⟨k, rfl⟩ | rfl <;> exact ⟨rfl, rfl, view_self regs⟩

end still

section registers
variable {Val World : Type*} {numLocals : ℕ}

theorem read_set {r : Reg} {regs : Regs Val} {v : Val} (h : regs r = some v) :
    read numLocals regs r = .value v := by
  rw [read, h]

/-- Operands that are all set are seen as values. -/
theorem operands_set (vs : List Val) {i : Insn} {rs : List Reg} {regs : Regs Val}
    (hi : operandRegs i = rs) (h : rs.map regs = vs.map some) :
    operands numLocals i regs = vs.map .value := by
  rw [operands, hi]
  clear hi
  induction rs generalizing vs with
  | nil =>
    rw [List.map_nil, eq_comm, List.map_eq_nil_iff] at h
    rw [h]
    rfl
  | cons r rs ih =>
    cases vs with
    | nil => cases h
    | cons v vs =>
      obtain ⟨hr, hrs⟩ := List.cons.inj h
      rw [List.map_cons, List.map_cons, read_set hr, ih vs hrs]

/-- Copying a set register, by either instruction. -/
theorem perform_copied (sem : Sem Val World) {i : Insn} {dst src : Reg} {regs : Regs Val} {v : Val}
    (hi : i = .move dst src ∨ i = .copyReg dst src) (h : regs src = some v) (world : World) :
    perform sem numLocals i regs world =
      ⟨world, view numLocals regs, .next, fun _ => some v, fun _ => false⟩ := by
  cases hi with
  | inl hi =>
    subst hi
    show outcome sem (.move 0 0) [read numLocals regs src] _ _ = _
    rw [read_set h]
    rfl
  | inr hi =>
    subst hi
    show outcome sem (.copyReg 0 0) [read numLocals regs src] _ _ = _
    rw [read_set h]
    rfl

theorem finishRegs_copied (sem : Sem Val World) {i : Insn} {dst src : Reg} {regs : Regs Val}
    {v : Val} (hi : i = .move dst src ∨ i = .copyReg dst src) (h : regs src = some v)
    (world : World) :
    finishRegs numLocals i (perform sem numLocals i regs world) regs =
      Function.update regs dst (some v) := by
  rw [perform_copied sem hi h]
  cases hi with
  | inl hi =>
    subst hi
    rfl
  | inr hi =>
    subst hi
    rfl

theorem perform_move (sem : Sem Val World) {dst src : Reg} {regs : Regs Val} {v : Val}
    (h : regs src = some v) (world : World) :
    finishRegs numLocals (.move dst src) (perform sem numLocals (.move dst src) regs world) regs =
      Function.update regs dst (some v) :=
  finishRegs_copied sem (.inl rfl) h world

theorem perform_loadConst (sem : Sem Val World) (dst : Reg) (idx : ℕ) (regs : Regs Val)
    (world : World) :
    finishRegs numLocals (.loadConst dst idx)
        (perform sem numLocals (.loadConst dst idx) regs world) regs =
      Function.update regs dst (some (sem.const idx)) := rfl

theorem perform_move_flow (sem : Sem Val World) {dst src : Reg} {regs : Regs Val}
    (h : regs src = none) (world : World) :
    (perform sem numLocals (.move dst src) regs world).flow = .raise := by
  show (outcome sem (.move 0 0) [read numLocals regs src] _ _).flow = .raise
  rw [read, h]
  by_cases hs : src < numLocals
  · rw [if_pos hs]
    rfl
  · rw [if_neg hs]
    rfl

theorem writesOn_sub {i : Insn} {f : Flow} {r : Reg} (h : r ∈ writesOn i f) :
    r ∈ i.collectWrites := by
  unfold writesOn at h
  split at h
  all_goals first
    | exact h
    | exact absurd h List.not_mem_nil
    | simp_all [Insn.collectWrites.eq_def, or_comm]

theorem writeAll_of_not_mem {rs : List Reg} {r : Reg} (h : r ∉ rs)
    (v : ℕ → Option (Option Val)) (regs : Regs Val) : writeAll rs v regs r = regs r := by
  induction rs generalizing v regs with
  | nil => rfl
  | cons a rs ih =>
    simp only [List.mem_cons, not_or] at h
    rw [writeAll, ih h.2]
    cases v 0 with
    | none => rfl
    | some x => exact Function.update_of_ne h.1 x regs

theorem writeAll_congr {rs : List Reg} {v : ℕ → Option (Option Val)} {regs regs' : Regs Val}
    {r : Reg} (h : regs r = regs' r ∨ r ∈ rs ∧ ∀ k, (v k).isSome) :
    writeAll rs v regs r = writeAll rs v regs' r := by
  induction rs generalizing v regs regs' with
  | nil =>
    rcases h with h | h
    · exact h
    · cases h.1
  | cons a rs ih =>
    rw [writeAll, writeAll]
    apply ih
    by_cases ha : r = a
    · subst ha
      cases hv : v 0 with
      | none =>
        rcases h with h | h
        · exact .inl h
        · have := h.2 0
          rw [hv] at this
          cases this
      | some x => simp
    · rcases h with h | h
      · left
        cases v 0 with
        | none => exact h
        | some x => simp [Function.update_of_ne ha, h]
      · exact .inr ⟨(List.mem_cons.mp h.1).resolve_left ha, fun k => h.2 (k+1)⟩

/-- A register that is neither written nor within reach of called code keeps its value. -/
theorem finishRegs_frame {i : Insn} {r : Reg} (hw : r ∉ i.collectWrites)
    (hl : i.mayInvalidateNamedLocals → numLocals ≤ r) (o : Outcome Val World) (regs : Regs Val) :
    finishRegs numLocals i o regs r = regs r := by
  rw [finishRegs, writeAll_of_not_mem (fun h => hw (writesOn_sub h))]
  by_cases hm : i.mayInvalidateNamedLocals
  · simp [hm, Nat.not_lt.mpr (hl hm)]
  · simp [hm]

end registers

/-- Two ways to go on that end alike or lead to related places. -/
inductive Goto.Rel (Q : ℕ → List ℕ → ℕ → List ℕ → Prop) : Goto → Goto → Prop
  | goto {pc hs pc' hs'} : Q pc hs pc' hs' → Rel Q (.goto pc hs) (.goto pc' hs')
  | finish (how : Finish) : Rel Q (.finish how) (.finish how)

section together
variable {Val World : Type*} {sem : Sem Val World} {numLocals : ℕ} {code code' : Code}

theorem frame_step {obs : Observer} {s : State Val World} {i : Insn}
    (hi : code.insns[s.pc]? = some i) :
    (frame sem numLocals code obs).step (some s) =
      let o := perform sem numLocals i s.regs s.world
      let r := proceed sem numLocals (finishRegs numLocals i o s.regs) o
        (transfer code s.pc s.handlers i o.flow)
      some (visitEvents numLocals obs s i ++ r.1, r.2) := by
  simp [frame, step, hi]

theorem frame_none {obs : Observer} {s : State Val World} (hs : code.insns[s.pc]? = none) :
    (frame sem numLocals code obs).step (some s) =
      some ([.finish (if s.pc = code.insns.length then .returned else .fault)
        (view numLocals s.regs) s.world], none) := by
  simp [frame, step, hs]

theorem frame_past {obs : Observer} {s : State Val World} (hs : s.pc = code.insns.length) :
    (frame sem numLocals code obs).step (some s) =
      some ([.finish .returned (view numLocals s.regs) s.world], none) := by
  simp [frame, step, hs]

/-- A hidden visit that falls through emits nothing. -/
theorem frame_silent {obs : Observer} {s : State Val World} {i : Insn} {pc : ℕ} {hs : List ℕ}
    (hi : code.insns[s.pc]? = some i) (hobs : obs s.pc i = none)
    (hflow : (perform sem numLocals i s.regs s.world).flow = .next)
    (htr : transfer code s.pc s.handlers i .next = .goto pc hs) :
    (frame sem numLocals code obs).step (some s) = some ([], some ⟨pc,
      finishRegs numLocals i (perform sem numLocals i s.regs s.world) s.regs,
      (perform sem numLocals i s.regs s.world).world, hs⟩) := by
  rw [frame_step hi]
  simp [hflow, htr, proceed, visitEvents, hobs]

/-- A hidden unconditional jump emits nothing. -/
theorem frame_jump {obs : Observer} {s : State Val World} {k : ℤ} {pc : ℕ}
    (hi : code.insns[s.pc]? = some (.jump k)) (hobs : obs s.pc (.jump k) = none)
    (ht : target code.insns.length s.pc k = some pc) :
    (frame sem numLocals code obs).step (some s) = some ([], some { s with pc := pc }) := by
  have hregs : finishRegs numLocals (.jump k) (perform sem numLocals (.jump k) s.regs s.world)
      s.regs = s.regs := view_self s.regs
  have hp : perform sem numLocals (.jump k) s.regs s.world =
      ⟨s.world, view numLocals s.regs, .jump, fun _ => none, fun _ => false⟩ := rfl
  rw [frame_step hi]
  simp only [hregs]
  simp only [hp, transfer, Insn.jumpOff.eq_def, Option.bind_some, ht, proceed, visitEvents, hobs,
    List.nil_append]

/-- The registers of the next state are those behind the instruction. -/
theorem proceed_goto {regs : Regs Val} {o : Outcome Val World} {g : Goto} {s' : State Val World}
    (h : (proceed sem numLocals regs o g).2 = some s') :
    g = .goto s'.pc s'.handlers ∧ s'.regs = regs := by
  cases g with
  | finish how => cases h
  | goto pc hs =>
    simp only [proceed] at h
    split at h
    · split at h
      · cases h
        exact ⟨rfl, rfl⟩
      · cases h
    · cases h
      exact ⟨rfl, rfl⟩

theorem proceed_rel {R : State Val World → State Val World → Prop} {regs regs' : Regs Val}
    (o : Outcome Val World) {g g' : Goto} (hview : view numLocals regs = view numLocals regs')
    (hg : Goto.Rel (fun pc hs pc' hs' => ∀ w, R ⟨pc, regs, w, hs⟩ ⟨pc', regs', w, hs'⟩) g g') :
    (proceed sem numLocals regs o g).1 = (proceed sem numLocals regs' o g').1 ∧
      Option.Rel R (proceed sem numLocals regs o g).2 (proceed sem numLocals regs' o g').2 := by
  cases hg with
  | finish how => simp [proceed, hview]
  | goto hq =>
    cases hf : o.flow <;> simp only [proceed, hf]
    case raise =>
      cases hc : sem.caught o.world with
      | none => simp [hview]
      | some w => exact ⟨rfl, .some (hq w)⟩
    all_goals exact ⟨trivial, .some (hq o.world)⟩

/-- Two frames at instructions that see and do the same take one step together. -/
theorem frame_both {obs obs' : Observer} {R : State Val World → State Val World → Prop}
    {rank : Option (State Val World) → Option (State Val World) → ℕ} {s t : State Val World}
    {i j : Insn} (hi : code.insns[s.pc]? = some i) (hj : code'.insns[t.pc]? = some j)
    (hev : visitEvents numLocals obs s i = visitEvents numLocals obs' t j)
    (ho : perform sem numLocals j t.regs t.world = perform sem numLocals i s.regs s.world)
    (hview : view numLocals
        (finishRegs numLocals i (perform sem numLocals i s.regs s.world) s.regs) =
      view numLocals (finishRegs numLocals j (perform sem numLocals i s.regs s.world) t.regs))
    (hgo : Goto.Rel (fun pc hs pc' hs' => ∀ w,
        R ⟨pc, finishRegs numLocals i (perform sem numLocals i s.regs s.world) s.regs, w, hs⟩
          ⟨pc', finishRegs numLocals j (perform sem numLocals i s.regs s.world) t.regs, w, hs'⟩)
      (transfer code s.pc s.handlers i (perform sem numLocals i s.regs s.world).flow)
      (transfer code' t.pc t.handlers j (perform sem numLocals i s.regs s.world).flow)) :
    Machine.Matched (frame sem numLocals code obs) (frame sem numLocals code' obs')
      (Option.Rel R) rank (some s) (some t) := by
  obtain ⟨he, hr⟩ := proceed_rel (perform sem numLocals i s.regs s.world) hview hgo
  refine .both _ _ _ (frame_step hi) ?_ hr
  rw [frame_step hj, ho, hev, he]

/-- Frames related by a relation that their steps keep behave alike. -/
theorem frame_tracks {obs obs' : Observer} (R : State Val World → State Val World → Prop)
    (rank : Option (State Val World) → Option (State Val World) → ℕ)
    (h : ∀ s t, R s t → Machine.Matched (frame sem numLocals code obs)
      (frame sem numLocals code' obs') (Option.Rel R) rank (some s) (some t))
    {s t : State Val World} (hst : R s t) :
    (frame sem numLocals code obs).Tracks (frame sem numLocals code' obs') (Option.Rel R) (some s)
      (some t) := by
  apply @Machine.tracks_of_matched _ _ _ _ _ (Option.Rel R) rank
  · intro s t hst
    cases hst with
    | none => exact .stop rfl rfl
    | some hst => exact h _ _ hst
  · exact .some hst

theorem frame_behaviours_eq {obs obs' : Observer}
    (R : State Val World → State Val World → Prop)
    (rank : Option (State Val World) → Option (State Val World) → ℕ)
    (h : ∀ s t, R s t → Machine.Matched (frame sem numLocals code obs)
      (frame sem numLocals code' obs') (Option.Rel R) rank (some s) (some t))
    {s t : State Val World} (hst : R s t) :
    (frame sem numLocals code obs).behaviours (some s) =
      (frame sem numLocals code' obs').behaviours (some t) :=
  (frame_tracks R rank h hst).behaviours_eq

theorem frame_tracks_along {obs obs' : Observer}
    (R : State Val World → State Val World → Prop)
    (rank : Option (State Val World) → Option (State Val World) → ℕ)
    (P : Option (State Val World) → Prop)
    (h : ∀ s t, R s t → P (some s) → Machine.Matched (frame sem numLocals code obs)
      (frame sem numLocals code' obs') (Option.Rel R) rank (some s) (some t))
    {s t : State Val World} (hst : R s t)
    (ha : (frame sem numLocals code obs).Along P (some s)) :
    (frame sem numLocals code obs).Tracks (frame sem numLocals code' obs') (Option.Rel R) (some s)
      (some t) := by
  apply @Machine.tracks_along _ _ _ _ _ (Option.Rel R) rank P
  · intro s t hst hp
    cases hst with
    | none => exact .stop rfl rfl
    | some hst => exact h _ _ hst hp
  · exact .some hst
  · exact ha

theorem frame_behaviours_eq_along {obs obs' : Observer}
    (R : State Val World → State Val World → Prop)
    (rank : Option (State Val World) → Option (State Val World) → ℕ)
    (P : Option (State Val World) → Prop)
    (h : ∀ s t, R s t → P (some s) → Machine.Matched (frame sem numLocals code obs)
      (frame sem numLocals code' obs') (Option.Rel R) rank (some s) (some t))
    {s t : State Val World} (hst : R s t)
    (ha : (frame sem numLocals code obs).Along P (some s)) :
    (frame sem numLocals code obs).behaviours (some s) =
      (frame sem numLocals code' obs').behaviours (some t) :=
  (frame_tracks_along R rank P h hst ha).behaviours_eq

end together

end Pyrust.Machine
