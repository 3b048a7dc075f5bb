import Pyrust.ConstantPool
import Pyrust.ControlGraph

/-!
# Constant registers

A temporary whose only write in the whole stream is a constant load stands for
that constant wherever it is read. The pass puts the pool index, or the number
itself, in the place of the register and drops the loads nothing reads any more.
The one load need not come before the use in the text: what the pass relies on
is that no path reaches the use without it.
-/

set_option autoImplicit false

namespace Pyrust.ConstantRegisters

open Bytecode Machine Compaction ControlGraph ConstantPool Simulation

variable {Obj : Type}

/-- `i16::try_from`. -/
def toI16 (v : ℤ) : Option ℤ := if -2^15 ≤ v ∧ v < 2^15 then some v else none

def writeCount (insns : List Insn) (r : Reg) : ℕ := insns.countP fun x => r ∈ x.collectWrites

/-- The pool index of the last constant load into the register. -/
def loadConstIdx (insns : List Insn) (r : Reg) : Option ℕ :=
  insns.reverse.findSome? fun
    | .loadConst dst idx => if dst = r then some idx else none
    | _ => none

/-- The temporaries written once, by a constant load. -/
def immutableConst (insns : List Insn) (numLocals : ℕ) (r : Reg) : Option ℕ :=
  if numLocals ≤ r ∧ writeCount insns r = 1 then loadConstIdx insns r else none

def markTemp (numLocals : ℕ) (r : Reg) : Option Reg := if numLocals ≤ r then some r else none

/-- One instruction and the register it no longer reads. Compiled code only carries indices
inside the pool, where the source's indexing does not fail. -/
def convert (immutable : Reg → Option ℕ) (numLocals : ℕ) (consts : List (Value Obj)) :
    Insn → Insn × Option Reg
  | .binOp dst lhs op rhs => match immutable rhs with
    | some idx => (.binOpConst dst lhs op idx false, markTemp numLocals rhs)
    | none => (.binOp dst lhs op rhs, none)
  | .cmpJumpIfFalse lhs op rhs k => match immutable rhs with
    | some idx => (.cmpJumpIfFalseConst lhs op idx k, markTemp numLocals rhs)
    | none => (.cmpJumpIfFalse lhs op rhs k, none)
  | .cmpJumpIfTrue lhs op rhs k => match immutable rhs with
    | some idx => (.cmpJumpIfTrueConst lhs op idx k, markTemp numLocals rhs)
    | none => (.cmpJumpIfTrue lhs op rhs k, none)
  | .binOpInPlace dst lhs op rhs => match immutable rhs with
    | some idx => match (consts[idx]?.bind asInt).bind toI16 with
      | some imm => (.binOpImm dst lhs op imm true, markTemp numLocals rhs)
      | none =>
        -- a temporary never holds an object with an in-place method of its own
        if numLocals ≤ lhs then (.binOpConst dst lhs op idx true, markTemp numLocals rhs)
        else (.binOpInPlace dst lhs op rhs, none)
    | none => (.binOpInPlace dst lhs op rhs, none)
  | x => (x, none)

/-- The stream with the operands replaced, before the dead loads go. -/
def convertAll (insns : List Insn) (numLocals : ℕ) (consts : List (Value Obj)) :
    List (Insn × Option Reg) :=
  insns.map (convert (immutableConst insns numLocals) numLocals consts)

/-- The converted registers that nothing reads any more. -/
def deadRegs (conv : List (Insn × Option Reg)) : List Reg :=
  (conv.filterMap Prod.snd).filter fun r => !conv.any fun x => r ∈ x.1.collectReads

def keepMask (conv : List (Insn × Option Reg)) : List Bool :=
  conv.map fun
    | (.loadConst r _, _) => !(r ∈ deadRegs conv)
    | _ => true

def passConstRegProp (insns : List Insn) (numLocals : ℕ) (consts : List (Value Obj)) :
    List Insn :=
  let conv := convertAll insns numLocals consts
  if deadRegs conv = [] then conv.map Prod.fst
  else compact (conv.map Prod.fst) (keepMask conv)

/-! ## What the scan has found -/

section scan
variable {insns : List Insn} {numLocals : ℕ} {r : Reg} {idx : ℕ}

theorem loadConst_of_idx (h : loadConstIdx insns r = some idx) : .loadConst r idx ∈ insns := by
  obtain ⟨x, hx, hsome⟩ := List.exists_of_findSome?_eq_some h
  rw [List.mem_reverse] at hx
  cases x
  case loadConst dst c =>
    by_cases hd : dst = r
    · subst hd
      obtain rfl : c = idx := by simpa using hsome
      exact hx
    · simp [hd] at hsome
  all_goals simp at hsome

theorem immutableConst_temp (h : immutableConst insns numLocals r = some idx) : numLocals ≤ r := by
  rw [immutableConst] at h
  split at h
  case isTrue hc => exact hc.1
  case isFalse => cases h

/-- Two members with a property that one element has are one and the same. -/
theorem eq_of_countP_one {α : Type*} {p : α → Bool} {l : List α} (h : l.countP p = 1) {a b : α}
    (ha : a ∈ l) (hb : b ∈ l) (hpa : p a) (hpb : p b) : a = b := by
  rw [List.countP_eq_length_filter, List.length_eq_one_iff] at h
  obtain ⟨c, hc⟩ := h
  have hfa : a ∈ l.filter p := List.mem_filter.mpr ⟨ha, hpa⟩
  have hfb : b ∈ l.filter p := List.mem_filter.mpr ⟨hb, hpb⟩
  rw [hc, List.mem_singleton] at hfa hfb
  rw [hfa, hfb]

/-- Whatever writes such a register is its one constant load. -/
theorem immutableConst_writer (h : immutableConst insns numLocals r = some idx) {x : Insn}
    (hx : x ∈ insns) (hw : r ∈ x.collectWrites) : x = .loadConst r idx := by
  rw [immutableConst] at h
  split at h
  case isTrue hc =>
    exact eq_of_countP_one hc.2 hx (loadConst_of_idx h) (by simpa using hw)
      (by simp [Insn.collectWrites.eq_def])
  case isFalse => cases h

end scan

/-! ## The places a register can be read unset -/

/-- Some path from the entry to the place has not written the register for sure. -/
inductive Unwritten (code : Code) (r : Reg) : ℕ → List ℕ → Prop
  | start : Unwritten code r 0 []
  | step {pc pc' : ℕ} {hs hs' : List ℕ} {i : Insn} {f : Flow} : Unwritten code r pc hs →
      code.insns[pc]? = some i → canFlow i f → r ∉ overwritten i f →
      transfer code pc hs i f = .goto pc' hs' → Unwritten code r pc' hs'

/-- Every temporary is defined before use on every path. -/
def DefinedBeforeUse (code : Code) (numLocals : ℕ) : Prop :=
  ∀ r pc hs i, numLocals ≤ r → Unwritten code r pc hs → code.insns[pc]? = some i →
    r ∉ operandRegs i

section runs
variable {Val World : Type*} {sem : Sem Val World} {numLocals : ℕ} {code : Code}

/-- A register written by nothing but one load holds its constant, or is still unwritten. -/
def Settled (sem : Sem Val World) (code : Code) (r : Reg) (idx : ℕ) :
    Option (State Val World) → Prop
  | some s => s.regs r = some (sem.const idx) ∨ Unwritten code r s.pc s.handlers
  | none => True

theorem settled_step {r : Reg} {idx : ℕ} (hr : numLocals ≤ r)
    (hw : ∀ x ∈ code.insns, r ∈ x.collectWrites → x = .loadConst r idx) {obs : Observer}
    {s : State Val World} {es : List (Event Val World)} {t : Option (State Val World)}
    (h : Settled sem code r idx (some s))
    (hs : (frame sem numLocals code obs).step (some s) = some (es, t)) :
    Settled sem code r idx t := by
  cases hi : code.insns[s.pc]? with
  | none =>
    rw [frame_none hi] at hs
    cases hs
    trivial
  | some i =>
    rw [frame_step hi] at hs
    cases t with
    | none => trivial
    | some s' =>
      have hp := congrArg Prod.snd (Option.some.inj hs)
      obtain ⟨htr, hregs⟩ := proceed_goto hp
      rw [Settled, hregs]
      by_cases hmem : r ∈ i.collectWrites
      · left
        obtain rfl := hw i (List.mem_of_getElem? hi) hmem
        rw [perform_loadConst, Function.update_self]
      · rcases h with h | h
        · left
          rw [finishRegs_frame hmem fun _ => hr]
          exact h
        · right
          exact .step h hi (perform_flow sem numLocals i s.regs s.world)
            (fun ho => hmem (overwritten_sub ho)) htr

/-- In every run the register is settled. -/
theorem settled_along {r : Reg} {idx : ℕ} (hr : numLocals ≤ r)
    (hw : ∀ x ∈ code.insns, r ∈ x.collectWrites → x = .loadConst r idx) (obs : Observer)
    (regs : Regs Val) (world : World) :
    (frame sem numLocals code obs).Along (Settled sem code r idx) (State.enter regs world) := by
  apply Machine.along_of_step
  · intro s es s' h hs
    cases s with
    | none => cases hs
    | some s => exact settled_step hr hw h hs
  · exact .inr .start

end runs

/-! ## The operands the pass replaces -/

/-- `j` is `i` with a constant in the place of the register `rhs`, wherever it may jump. -/
inductive Stands (consts : List (Value Obj)) : Insn → Insn → Reg → ℕ → Prop
  | binOp (dst lhs : Reg) (op : BinaryOp) (rhs : Reg) (idx : ℕ) :
      Stands consts (.binOp dst lhs op rhs) (.binOpConst dst lhs op idx false) rhs idx
  | cmpJumpIfFalse (lhs : Reg) (op : BinaryOp) (rhs : Reg) (idx : ℕ) (k k' : ℤ) :
      Stands consts (.cmpJumpIfFalse lhs op rhs k) (.cmpJumpIfFalseConst lhs op idx k') rhs idx
  | cmpJumpIfTrue (lhs : Reg) (op : BinaryOp) (rhs : Reg) (idx : ℕ) (k k' : ℤ) :
      Stands consts (.cmpJumpIfTrue lhs op rhs k) (.cmpJumpIfTrueConst lhs op idx k') rhs idx
  | binOpImm (dst lhs : Reg) (op : BinaryOp) (rhs : Reg) (idx : ℕ) (imm : ℤ) :
      (consts[idx]? = some (.int imm) ∨ consts[idx]? = some (.bigInt imm)) →
      -2^15 ≤ imm → imm < 2^15 →
      Stands consts (.binOpInPlace dst lhs op rhs) (.binOpImm dst lhs op imm true) rhs idx
  | binOpConst (dst lhs : Reg) (op : BinaryOp) (rhs : Reg) (idx : ℕ) :
      Stands consts (.binOpInPlace dst lhs op rhs) (.binOpConst dst lhs op idx true) rhs idx

theorem Stands.reads {consts : List (Value Obj)} {i j : Insn} {rhs : Reg} {idx : ℕ}
    (h : Stands consts i j rhs idx) : rhs ∈ operandRegs i := by
  cases h <;> simp [operandRegs, Insn.collectReads.eq_def]

theorem imm_of_const {v : Option (Value Obj)} {imm : ℤ}
    (h : (v.bind asInt).bind toI16 = some imm) :
    (v = some (.int imm) ∨ v = some (.bigInt imm)) ∧ -2^15 ≤ imm ∧ imm < 2^15 := by
  rw [Option.bind_eq_some_iff] at h
  obtain ⟨n, hn, himm⟩ := h
  rw [toI16] at himm
  split at himm
  case isFalse => cases himm
  case isTrue hrange =>
    cases himm
    refine ⟨?_, hrange⟩
    rw [Option.bind_eq_some_iff] at hn
    obtain ⟨w, rfl, hw⟩ := hn
    cases w
    case int m => exact .inl (by simpa [asInt] using hw)
    case bigInt m =>
      rw [asInt] at hw
      split at hw
      case isTrue => exact .inr (by simpa using hw)
      case isFalse => cases hw
    all_goals cases hw

/-- The pass leaves an instruction alone or puts a constant for a register known to hold it. -/
theorem convert_stands (immutable : Reg → Option ℕ) (numLocals : ℕ) (consts : List (Value Obj))
    (i : Insn) (h : (convert immutable numLocals consts i).1 ≠ i) :
    ∃ rhs idx, immutable rhs = some idx ∧
      Stands consts i (convert immutable numLocals consts i).1 rhs idx := by
  cases i
  case binOp dst lhs op rhs =>
    cases hm : immutable rhs with
    | none => simp [convert, hm] at h
    | some idx => exact ⟨rhs, idx, hm, by simpa [convert, hm] using .binOp dst lhs op rhs idx⟩
  case cmpJumpIfFalse lhs op rhs k =>
    cases hm : immutable rhs with
    | none => simp [convert, hm] at h
    | some idx =>
      exact ⟨rhs, idx, hm, by simpa [convert, hm] using .cmpJumpIfFalse lhs op rhs idx k k⟩
  case cmpJumpIfTrue lhs op rhs k =>
    cases hm : immutable rhs with
    | none => simp [convert, hm] at h
    | some idx =>
      exact ⟨rhs, idx, hm, by simpa [convert, hm] using .cmpJumpIfTrue lhs op rhs idx k k⟩
  case binOpInPlace dst lhs op rhs =>
    cases hm : immutable rhs with
    | none => simp [convert, hm] at h
    | some idx =>
      refine ⟨rhs, idx, hm, ?_⟩
      cases hc : (consts[idx]?.bind asInt).bind toI16 with
      | some imm =>
        obtain ⟨hv, hlo, hhi⟩ := imm_of_const hc
        simpa [convert, hm, hc] using Stands.binOpImm dst lhs op rhs idx imm hv hlo hhi
      | none =>
        by_cases hl : numLocals ≤ lhs
        · simpa [convert, hm, hc, hl] using Stands.binOpConst dst lhs op rhs idx
        · simp [convert, hm, hc, hl] at h
  all_goals exact absurd rfl h

theorem Stands.fixOff {consts : List (Value Obj)} {i j : Insn} {rhs : Reg} {idx : ℕ}
    (h : Stands consts i j rhs idx) (fix : ℤ → ℤ) : Stands consts i (j.fixOff fix) rhs idx := by
  cases h with
  | binOp dst lhs op rhs idx => exact .binOp dst lhs op rhs idx
  | cmpJumpIfFalse lhs op rhs idx k k' => exact .cmpJumpIfFalse lhs op rhs idx k (fix k')
  | cmpJumpIfTrue lhs op rhs idx k k' => exact .cmpJumpIfTrue lhs op rhs idx k (fix k')
  | binOpImm dst lhs op rhs idx imm hv hlo hhi => exact .binOpImm dst lhs op rhs idx imm hv hlo hhi
  | binOpConst dst lhs op rhs idx => exact .binOpConst dst lhs op rhs idx

/-! ## The result of the pass -/

section result
variable {insns : List Insn} {numLocals : ℕ} {consts : List (Value Obj)}

/-- Which instructions of the input the result keeps. -/
def kept (insns : List Insn) (numLocals : ℕ) (consts : List (Value Obj)) : List Bool :=
  keepMask (convertAll insns numLocals consts)

theorem keepMask_of_deadRegs_nil {conv : List (Insn × Option Reg)} (h : deadRegs conv = []) :
    keepMask conv = List.replicate conv.length true := by
  rw [keepMask, List.map_eq_replicate_iff]
  rintro ⟨x, r⟩ -
  cases x <;> simp [h]

theorem newPc_replicate {n pc : ℕ} (h : pc ≤ n) : newPc (List.replicate n true) pc = pc := by
  rw [newPc, List.take_replicate, List.count_replicate_self, Nat.min_eq_left h]

/-- A kept instruction of the result is the converted one, with its offset rewritten. -/
theorem pass_getElem? {pc : ℕ} {i : Insn} (hi : insns[pc]? = some i)
    (hk : (kept insns numLocals consts)[pc]? = some true) :
    ∃ fix, (passConstRegProp insns numLocals consts)[newPc (kept insns numLocals consts) pc]? =
      some ((convert (immutableConst insns numLocals) numLocals consts i).1.fixOff fix) := by
  have hc : ((convertAll insns numLocals consts).map Prod.fst)[pc]? =
      some (convert (immutableConst insns numLocals) numLocals consts i).1 := by
    simp [convertAll, hi]
  rw [passConstRegProp]
  by_cases hd : deadRegs (convertAll insns numLocals consts) = []
  · refine ⟨id, ?_⟩
    have hlen : pc ≤ (convertAll insns numLocals consts).length := by
      have := (List.getElem?_eq_some_iff.mp hi).1
      simp only [convertAll, List.length_map]
      omega
    rw [if_pos hd, kept, keepMask_of_deadRegs_nil hd, newPc_replicate hlen, hc]
    congr 1
    generalize (convert (immutableConst insns numLocals) numLocals consts i).1 = j
    cases j <;> rfl
  · rw [if_neg hd]
    exact ⟨_, compact_getElem? (by simp [keepMask]) hc hk⟩

theorem convert_loadConst {immutable : Reg → Option ℕ} {i : Insn} {r : Reg} {idx : ℕ}
    (h : (convert immutable numLocals consts i).1 = .loadConst r idx) : i = .loadConst r idx := by
  by_contra hne
  obtain ⟨rhs, c, -, hst⟩ := convert_stands immutable numLocals consts i (h ▸ Ne.symm hne)
  rw [h] at hst
  cases hst

/-- Only constant loads of registers that nothing in the result reads are dropped. -/
theorem dropped_unread {pc : ℕ} {i : Insn} (hi : insns[pc]? = some i)
    (hk : (kept insns numLocals consts)[pc]? = some false) :
    ∃ r idx, i = .loadConst r idx ∧
      ∀ x ∈ convertAll insns numLocals consts, r ∉ x.1.collectReads := by
  have hc : (convertAll insns numLocals consts)[pc]? =
      some (convert (immutableConst insns numLocals) numLocals consts i) := by
    simp [convertAll, hi]
  rw [kept, keepMask, List.getElem?_map, hc, Option.map_some, Option.some.injEq] at hk
  split at hk
  case h_1 r idx _ hx =>
    refine ⟨r, idx, convert_loadConst (congrArg Prod.fst hx), ?_⟩
    have hdead : r ∈ deadRegs (convertAll insns numLocals consts) := by simpa using hk
    rw [deadRegs, List.mem_filter] at hdead
    simpa using hdead.2
  case h_2 => cases hk

end result

/-- Each operand that the pass replaces by a constant reads that constant in every run. -/
theorem const_reg_prop_reads (code : Code) (numLocals : ℕ) (consts : List (Value Obj))
    (hdef : DefinedBeforeUse code numLocals) (pc : ℕ) (i j : Insn)
    (hi : code.insns[pc]? = some i) (hk : (kept code.insns numLocals consts)[pc]? = some true)
    (hj : (passConstRegProp code.insns numLocals consts)[
      newPc (kept code.insns numLocals consts) pc]? = some j) :
    (∃ fix, j = i.fixOff fix) ∨ ∃ rhs idx, Stands consts i j rhs idx ∧
      ∀ (Val World : Type) (sem : Sem Val World) (obs : Observer) (regs : Regs Val) (world : World)
        (n : ℕ) (s : State Val World),
        (frame sem numLocals code obs).after n (State.enter regs world) = some (some s) →
        s.pc = pc → s.regs rhs = some (sem.const idx) := by
  obtain ⟨fix, hfix⟩ := pass_getElem? hi hk
  obtain rfl := Option.some.inj (hj.symm.trans hfix)
  by_cases hne : (convert (immutableConst code.insns numLocals) numLocals consts i).1 = i
  · left
    exact ⟨fix, by rw [hne]⟩
  · right
    obtain ⟨rhs, idx, him, hst⟩ := convert_stands _ _ _ _ hne
    refine ⟨rhs, idx, hst.fixOff fix, ?_⟩
    intro Val World sem obs regs world n s hs hpc
    have htemp := immutableConst_temp him
    have halong : (frame sem numLocals code obs).Along (Settled sem code rhs idx)
        (State.enter regs world) :=
      settled_along htemp (fun x => immutableConst_writer him) obs regs world
    have hset := halong n (some s) hs
    rcases hset with hset | hun
    · exact hset
    · exact absurd hst.reads (hdef rhs s.pc s.handlers i htemp hun (hpc ▸ hi))

/-- The load stands behind its use in the text and before it on every path. -/
def lateLoad : Code :=
  ⟨[.jump 2, .binOp 2 0 .add 1, .ret 2, .loadConst 1 0, .jump (-4)], []⟩

theorem lateLoad_unwritten {r : Reg} {pc : ℕ} {hs : List ℕ} (h : Unwritten lateLoad r pc hs) :
    hs = [] ∧ (pc = 0 ∨ pc = 3 ∨ r ≠ 1 ∧ (pc = 4 ∨ pc = 1 ∨ r ≠ 2 ∧ pc = 2)) := by
  induction h with
  | start => simp
  | @step pc pc' hs hs' i f _ hi hf ho ht ih =>
    obtain ⟨rfl, hpc⟩ := ih
    rcases hpc with rfl | rfl | ⟨h1, rfl | rfl | ⟨h2, rfl⟩⟩ <;>
      obtain rfl := Option.some.inj hi <;>
      cases f <;>
      simp_all [canFlow.eq_def, transfer, target, lateLoad, Insn.jumpOff.eq_def, raiseTo,
        overwritten, writesOn.eq_def, Insn.collectWrites.eq_def, eq_comm]

theorem lateLoad_defined : DefinedBeforeUse lateLoad 1 := by
  intro r pc hs i hr hun hi
  obtain ⟨-, hpc⟩ := lateLoad_unwritten hun
  rcases hpc with rfl | rfl | ⟨h1, rfl | rfl | ⟨h2, rfl⟩⟩ <;>
    obtain rfl := Option.some.inj hi <;>
    simp_all [operandRegs, Insn.collectReads.eq_def]
  omega

theorem const_reg_prop_reads_late_load :
    (∃ fix, .binOpConst 2 0 .add 0 false = (Insn.binOp 2 0 .add 1).fixOff fix) ∨ ∃ rhs idx,
      Stands ([.int 3] : List (Value Unit)) (.binOp 2 0 .add 1) (.binOpConst 2 0 .add 0 false) rhs
        idx ∧
      ∀ (Val World : Type) (sem : Sem Val World) (obs : Observer) (regs : Regs Val) (world : World)
        (n : ℕ) (s : State Val World),
        (frame sem 1 lateLoad obs).after n (State.enter regs world) = some (some s) →
        s.pc = 1 → s.regs rhs = some (sem.const idx) :=
  const_reg_prop_reads lateLoad 1 [.int 3] lateLoad_defined 1 _ _ rfl (by decide) (by decide)

end Pyrust.ConstantRegisters
