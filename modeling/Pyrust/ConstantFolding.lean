import Pyrust.ConstantPool
import Pyrust.ControlGraph

/-!
# Constant folding

The pass walks the stream once with a map from registers to pool slots. An
operator whose operands are known becomes a load of the folded constant. The
map is cleared at every jump target and behind every branch, and forgets what an
instruction writes; `factsAt` is the map that forgets all of it.
-/

set_option autoImplicit false

namespace Pyrust.ConstantFolding

open Bytecode Machine Compaction ControlGraph ConstantPool Simulation

abbrev Known := Reg → Option ℕ

@[ext]
structure Facts (Obj : Type) where
  known : Known
  pool : Pool Obj

variable {Obj : Type}

namespace Facts

def clear (st : Facts Obj) : Facts Obj := { st with known := fun _ => none }

def know (st : Facts Obj) (r : Reg) (c : Option ℕ) : Facts Obj :=
  { st with known := Function.update st.known r c }

def retainTemps (st : Facts Obj) (numLocals : ℕ) : Facts Obj :=
  { st with known := fun r => if numLocals ≤ r then st.known r else none }

end Facts

/-- The offsets the pass takes into account. -/
def branchOff : Insn → Option ℤ
  | .jump k | .jumpIfFalse _ k | .jumpIfTrue _ k | .cmpJumpIfFalse _ _ _ k
  | .cmpJumpIfTrue _ _ _ k | .cmpJumpIfFalseConst _ _ _ k | .cmpJumpIfTrueConst _ _ _ k
  | .forIter _ _ k | .setupExcept k | .matchExcept _ k | .matchExceptStar _ _ _ k => some k
  | _ => none

def bbStart (insns : List Insn) (i : ℕ) : Bool :=
  i < insns.length &&
    insns.zipIdx.any fun x => (branchOff x.1).any fun k => jumpTarget x.2 k = i

/-- Branches, loops, raises, suspensions and the instructions with several destinations. -/
def clears : Insn → Bool
  | .matchClassPositional .. | .jump .. | .jumpIfFalse .. | .jumpIfTrue .. | .cmpJumpIfFalse ..
  | .cmpJumpIfTrue .. | .cmpJumpIfFalseConst .. | .cmpJumpIfTrueConst .. | .forIter ..
  | .setupExcept .. | .matchExcept .. | .matchExceptStar .. | .ret .. | .returnNone
  | .raiseValue .. | .raiseExceptStarResidual .. | .raiseFrom .. | .raiseReRaise
  | .raiseAssert .. | .raiseAssertNoMsg | .unpack .. | .unpackEx .. | .yield ..
  | .yieldFrom .. => true
  | _ => false

/-- Forget the one destination `writable_dst` names. -/
def forgetDst (x : Insn) (st : Facts Obj) : Facts Obj :=
  match x.writableDst with
  | some dst => st.know dst none
  | none => st

/-- Forget every register the instruction may define. -/
def forgetWrites (x : Insn) (st : Facts Obj) : Facts Obj :=
  { st with known := fun r => if r ∈ x.collectWrites then none else st.known r }

section pass
variable (fold : Value Obj → BinaryOp → Value Obj → Option (Value Obj))

/-- What an operator with known operands folds to. -/
def foldedValue (st : Facts Obj) : Insn → Option (Value Obj)
  | .binOp _ lhs op rhs => do
      let a ← st.pool.consts[← st.known lhs]?
      let b ← st.pool.consts[← st.known rhs]?
      fold a op b
  | .binOpConst _ lhs op c _ => do
      let a ← st.pool.consts[← st.known lhs]?
      let b ← st.pool.consts[c]?
      fold a op b
  | .binOpImm _ lhs op imm _ => do
      let a ← st.pool.consts[← st.known lhs]?
      fold a op (.int imm)
  | _ => none

def applyConstFold (st : Facts Obj) (dst : Reg) (v : Option (Value Obj)) (fallback : Insn) :
    Insn × Facts Obj :=
  match v.bind st.pool.intern with
  | some (nc, pool) => (.loadConst dst nc, ⟨Function.update st.known dst (some nc), pool⟩)
  | none => (fallback, st.know dst none)

/-- The arm of the pass for one instruction; `forget` is what the last arm does. -/
def foldInsn (forget : Insn → Facts Obj → Facts Obj) (st : Facts Obj) : Insn → Insn × Facts Obj
  | .loadConst dst c => (.loadConst dst c, st.know dst (some c))
  | .move dst src => (.move dst src, st.know dst (st.known src))
  | .binOp dst lhs op rhs =>
    applyConstFold st dst (foldedValue fold st (.binOp dst lhs op rhs)) (.binOp dst lhs op rhs)
  | .binOpConst dst lhs op c aug =>
    applyConstFold st dst (foldedValue fold st (.binOpConst dst lhs op c aug))
      (.binOpConst dst lhs op c aug)
  | .binOpImm dst lhs op imm aug =>
    applyConstFold st dst (foldedValue fold st (.binOpImm dst lhs op imm aug))
      (.binOpImm dst lhs op imm aug)
  | x => (x, if clears x then st.clear else forget x st)

/-- One instruction, with the effect of called code on the named locals. -/
def foldStep (forget : Insn → Facts Obj → Facts Obj) (numLocals : ℕ) (st : Facts Obj) (x : Insn) :
    Insn × Facts Obj :=
  let r := foldInsn fold forget st x
  (r.1, if r.1.mayInvalidateNamedLocals then r.2.retainTemps numLocals else r.2)

def enter (start : Bool) (st : Facts Obj) : Facts Obj := if start then st.clear else st

def foldFrom (numLocals : ℕ) (start : ℕ → Bool) :
    ℕ → Facts Obj → List Insn → List Insn × Facts Obj
  | _, st, [] => ([], st)
  | i, st, x::xs =>
    let r := foldStep fold forgetDst numLocals (enter (start i) st) x
    let rest := foldFrom numLocals start (i+1) r.2 xs
    (r.1::rest.1, rest.2)

def passConstFold (insns : List Insn) (consts : List (Value Obj)) (numLocals : ℕ) :
    List Insn × List (Value Obj) :=
  let r := foldFrom fold numLocals (bbStart insns) 0 ⟨fun _ => none, Pool.build consts⟩ insns
  (r.1, r.2.pool.consts)

/-! ## Constants in force -/

/-- What is known, and the pool, whenever control reaches an instruction. -/
def factsAt (insns : List Insn) (consts : List (Value Obj)) (numLocals : ℕ) : ℕ → Facts Obj
  | 0 => ⟨fun _ => none, Pool.build consts⟩
  | i+1 => match insns[i]? with
    | some x => enter (bbStart insns (i+1))
        (foldStep fold forgetWrites numLocals (factsAt insns consts numLocals i) x).2
    | none => factsAt insns consts numLocals i

/-- The instruction writes a known register and the pass does not see it. -/
def overlooks (st : Facts Obj) : Insn → Bool
  | .loadNoneRange start count => (List.range' start count).any fun r => (st.known r).isSome
  | _ => false

/-- No known register is overwritten behind the pass's back. -/
def KnownRespected (insns : List Insn) (consts : List (Value Obj)) (numLocals : ℕ) : Prop :=
  ∀ x ∈ insns.zipIdx, overlooks (factsAt fold insns consts numLocals x.2) x.1 = false

instance (insns : List Insn) (consts : List (Value Obj)) (numLocals : ℕ) :
    Decidable (KnownRespected fold insns consts numLocals) :=
  inferInstanceAs (Decidable (∀ x ∈ insns.zipIdx, _))

/-- A delegation may be resumed where it stands, and folds nothing. -/
def delegates : Insn → Bool
  | .yieldFrom _ _ _ => true
  | _ => false

/-- The destination of the three operator forms that fold. -/
def operatorDst : Insn → Option Reg
  | .binOp dst _ _ _ | .binOpConst dst _ _ _ _ | .binOpImm dst _ _ _ _ => some dst
  | _ => none

theorem operator_cases {x : Insn} {dst : Reg} (h : operatorDst x = some dst) :
    (∃ lhs op rhs, x = .binOp dst lhs op rhs) ∨
      (∃ lhs op c aug, x = .binOpConst dst lhs op c aug) ∨
        ∃ lhs op imm aug, x = .binOpImm dst lhs op imm aug := by
  unfold operatorDst at h
  split at h <;> cases h
  · exact .inl ⟨_, _, _, rfl⟩
  · exact .inr (.inl ⟨_, _, _, _, rfl⟩)
  · exact .inr (.inr ⟨_, _, _, _, rfl⟩)

/-- The arms of the pass: a load, a copy, an operator or anything else. -/
theorem foldInsn_cases (st : Facts Obj) (x : Insn) :
    (∃ dst c, x = .loadConst dst c) ∨ (∃ dst src, x = .move dst src) ∨
      (∃ dst, operatorDst x = some dst) ∨
        operatorDst x = none ∧ (∀ d c, x ≠ .loadConst d c) ∧ (∀ d s, x ≠ .move d s) ∧
          ∀ forget, foldInsn fold forget st x = (x, if clears x then st.clear else forget x st) := by
  cases ho : operatorDst x with
  | some dst => exact .inr (.inr (.inl ⟨dst, rfl⟩))
  | none =>
    by_cases hload : ∃ dst c, x = .loadConst dst c
    · exact .inl hload
    · by_cases hmove : ∃ dst src, x = .move dst src
      · exact .inr (.inl hmove)
      · refine .inr (.inr (.inr ⟨rfl, ?_, ?_, ?_⟩))
        · exact fun d c e => hload ⟨d, c, e⟩
        · exact fun d s e => hmove ⟨d, s, e⟩
        · intro forget
          unfold foldInsn
          split
          · exact absurd ⟨_, _, rfl⟩ hload
          · exact absurd ⟨_, _, rfl⟩ hmove
          · cases ho
          · cases ho
          · cases ho
          · rfl

theorem foldInsn_operator {x : Insn} {dst : Reg} (h : operatorDst x = some dst) (st : Facts Obj)
    (forget : Insn → Facts Obj → Facts Obj) :
    foldInsn fold forget st x = applyConstFold st dst (foldedValue fold st x) x := by
  rcases operator_cases h with ⟨_, _, _, rfl⟩ | ⟨_, _, _, _, rfl⟩ | ⟨_, _, _, _, rfl⟩ <;> rfl

theorem forget_eq {x : Insn} {st : Facts Obj} (hlate : x.isLateStageGuardInsn = false)
    (hok : overlooks st x = false) (hclear : clears x = false)
    (hmove : ∀ d s, x ≠ .move d s) (hload : ∀ d c, x ≠ .loadConst d c) :
    forgetDst x st = forgetWrites x st := by
  have hone : ∀ d, x.writableDst = some d → x.collectWrites = [d] →
      forgetDst x st = forgetWrites x st := by
    intro d h1 h2
    rw [forgetDst, h1, forgetWrites, h2]
    ext r c
    · by_cases hr : r = d
      · simp [Facts.know, hr]
      · simp [Facts.know, hr]
    · rfl
  have hnone : x.writableDst = none → (∀ r ∈ x.collectWrites, st.known r = none) →
      forgetDst x st = forgetWrites x st := by
    intro h1 h2
    rw [forgetDst, h1, forgetWrites]
    ext r c
    · by_cases hr : r ∈ x.collectWrites
      · simp [hr, h2 r hr]
      · simp [hr]
    · rfl
  by_cases hrange : ∃ start count, x = .loadNoneRange start count
  · obtain ⟨start, count, rfl⟩ := hrange
    apply hnone rfl
    intro r hr
    have := List.any_eq_false.mp hok r hr
    simpa using this
  · have hwrites : x.collectWrites = x.writableDst.toList := by
      cases x <;> first
        | rfl
        | cases hlate; done
        | cases hclear; done
        | exact absurd rfl (hload _ _)
        | exact absurd rfl (hmove _ _)
        | exact absurd ⟨_, _, rfl⟩ hrange
    cases hd : x.writableDst with
    | none => exact hnone hd (by simp [hwrites, hd])
    | some d => exact hone d hd (by rw [hwrites, hd]; rfl)

theorem foldStep_eq {numLocals : ℕ} {x : Insn} {st : Facts Obj}
    (hlate : x.isLateStageGuardInsn = false) (hok : overlooks st x = false) :
    foldStep fold forgetDst numLocals st x = foldStep fold forgetWrites numLocals st x := by
  have harm : foldInsn fold forgetDst st x = foldInsn fold forgetWrites st x := by
    by_cases hclear : clears x = true
    · cases x <;> first | rfl | cases hclear
    · have hforget := @forget_eq Obj x st hlate hok (by simpa using hclear)
      rcases foldInsn_cases fold st x with ⟨_, _, rfl⟩ | ⟨_, _, rfl⟩ | ⟨dst, hd⟩ |
        ⟨-, hload, hmove, heq⟩
      · rfl
      · rfl
      · rw [foldInsn_operator fold hd, foldInsn_operator fold hd]
      · rw [heq, heq, hforget hmove hload]
  rw [foldStep, foldStep, harm]

variable {fold}

theorem enter_pool (start : Bool) (st : Facts Obj) : (enter start st).pool = st.pool := by
  cases start <;> rfl

theorem foldFrom_spec {insns : List Insn} {consts : List (Value Obj)} {numLocals : ℕ}
    (hlate : ∀ x ∈ insns, x.isLateStageGuardInsn = false)
    (hok : KnownRespected fold insns consts numLocals) (before after : List Insn)
    (hsplit : insns = before ++ after) (st : Facts Obj)
    (hst : enter (bbStart insns before.length) st = factsAt fold insns consts numLocals before.length) :
    (foldFrom fold numLocals (bbStart insns) before.length st after).2.pool =
        (factsAt fold insns consts numLocals insns.length).pool ∧
      ∀ j, (foldFrom fold numLocals (bbStart insns) before.length st after).1[j]? =
        (after[j]?).map fun x => (foldStep fold forgetWrites numLocals
          (factsAt fold insns consts numLocals (before.length+j)) x).1 := by
  induction after generalizing before st with
  | nil =>
    have hlen : insns.length = before.length := by simp [hsplit]
    refine ⟨?_, by simp [foldFrom]⟩
    rw [foldFrom, hlen, ← hst, enter_pool]
  | cons x after ih =>
    have hx : insns[before.length]? = some x := by simp [hsplit]
    have hstep := @foldStep_eq Obj fold numLocals x
      (factsAt fold insns consts numLocals before.length) (hlate x (List.mem_of_getElem? hx))
      (hok (x, before.length) (List.mem_zipIdx_iff_getElem?.mpr (by simpa using hx)))
    have hrec := ih (before ++ [x]) (by simp [hsplit])
      (foldStep fold forgetDst numLocals (enter (bbStart insns before.length) st) x).2
    rw [List.length_append, List.length_singleton] at hrec
    have hnext := hrec (by rw [hst, hstep, factsAt, hx])
    refine ⟨?_, ?_⟩
    · rw [foldFrom]
      exact hnext.1
    · intro j
      rw [foldFrom]
      cases j with
      | zero => simp [hst, hstep]
      | succ j =>
        rw [List.getElem?_cons_succ, hnext.2 j, List.getElem?_cons_succ,
          show before.length+1+j = before.length+(j+1) by omega]

theorem pass_spec {insns : List Insn} {consts : List (Value Obj)} {numLocals : ℕ}
    (hlate : ∀ x ∈ insns, x.isLateStageGuardInsn = false)
    (hok : KnownRespected fold insns consts numLocals) :
    (passConstFold fold insns consts numLocals).2 =
        (factsAt fold insns consts numLocals insns.length).pool.consts ∧
      ∀ pc, (passConstFold fold insns consts numLocals).1[pc]? =
        (insns[pc]?).map fun x => (foldStep fold forgetWrites numLocals
          (factsAt fold insns consts numLocals pc) x).1 := by
  have hstart : enter (bbStart insns 0) ⟨fun _ => none, Pool.build consts⟩ =
      factsAt fold insns consts numLocals 0 := by
    cases bbStart insns 0 <;> rfl
  have h := foldFrom_spec hlate hok [] insns rfl _ hstart
  simp only [List.length_nil, Nat.zero_add] at h
  exact ⟨congrArg Pool.consts h.1, h.2⟩

/-! ## The pool only grows -/

theorem applyConstFold_pool {st : Facts Obj} (h : st.pool.Sound) (dst : Reg)
    (v : Option (Value Obj)) (fallback : Insn) :
    (applyConstFold st dst v fallback).2.pool.Sound ∧
      st.pool.consts <+: (applyConstFold st dst v fallback).2.pool.consts := by
  rw [applyConstFold]
  cases hv : v.bind st.pool.intern with
  | none => exact ⟨h, List.prefix_refl _⟩
  | some r =>
    obtain ⟨w, -, hw⟩ := Option.bind_eq_some_iff.mp hv
    obtain ⟨h1, -, h3⟩ := intern_spec h hw
    exact ⟨h1, h3⟩

theorem foldStep_pool {st : Facts Obj} (h : st.pool.Sound) (numLocals : ℕ) (x : Insn) :
    (foldStep fold forgetWrites numLocals st x).2.pool.Sound ∧
      st.pool.consts <+: (foldStep fold forgetWrites numLocals st x).2.pool.consts := by
  have harm : (foldInsn fold forgetWrites st x).2.pool.Sound ∧
      st.pool.consts <+: (foldInsn fold forgetWrites st x).2.pool.consts := by
    rcases foldInsn_cases fold st x with ⟨_, _, rfl⟩ | ⟨_, _, rfl⟩ | ⟨dst, hd⟩ | ⟨-, -, -, heq⟩
    · exact ⟨h, List.prefix_refl _⟩
    · exact ⟨h, List.prefix_refl _⟩
    · rw [foldInsn_operator fold hd]
      exact applyConstFold_pool h _ _ _
    · rw [heq]
      dsimp only
      split <;> exact ⟨h, List.prefix_refl _⟩
  rw [foldStep]
  by_cases hm : (foldInsn fold forgetWrites st x).1.mayInvalidateNamedLocals = true
  · simpa [hm, Facts.retainTemps] using harm
  · simpa [hm] using harm

theorem factsAt_sound (insns : List Insn) (consts : List (Value Obj)) (numLocals i : ℕ) :
    (factsAt fold insns consts numLocals i).pool.Sound := by
  induction i with
  | zero => exact build_sound consts
  | succ i ih =>
    rw [factsAt]
    cases insns[i]? with
    | none => exact ih
    | some x =>
      simp only [enter_pool]
      exact (foldStep_pool ih numLocals x).1

theorem factsAt_step (insns : List Insn) (consts : List (Value Obj)) (numLocals i : ℕ) :
    (factsAt fold insns consts numLocals i).pool.consts <+:
      (factsAt fold insns consts numLocals (i+1)).pool.consts := by
  rw [factsAt]
  cases insns[i]? with
  | none => exact List.prefix_refl _
  | some x =>
    simp only [enter_pool]
    exact (foldStep_pool (factsAt_sound insns consts numLocals i) numLocals x).2

theorem factsAt_grows (insns : List Insn) (consts : List (Value Obj)) (numLocals : ℕ) {i j : ℕ}
    (h : i ≤ j) : (factsAt fold insns consts numLocals i).pool.consts <+:
      (factsAt fold insns consts numLocals j).pool.consts := by
  induction j, h using Nat.le_induction with
  | base => exact List.prefix_refl _
  | succ j _ ih => exact ih.trans (factsAt_step insns consts numLocals j)

end pass

/-! ## Both streams step together -/

section run
variable {World : Type}

/-- The operator has returned `v` and done nothing else. -/
def Returns (o : Outcome (Value Obj) World) (locals : Regs (Value Obj)) (world : World)
    (v : Value Obj) : Prop :=
  o.flow = .next ∧ o.world = world ∧ o.locals = locals ∧ o.results 0 = some v

/-- Folding yields a constant only when the runtime operator returns it. -/
structure FoldSound (rt : Runtime Obj World)
    (fold : Value Obj → BinaryOp → Value Obj → Option (Value Obj)) : Prop where
  binOp : ∀ {a op b v}, fold a op b = some v → ∀ locals world,
    Returns (rt.exec (.binOp 0 0 op 0) [] [.value a, .value b] locals world) locals world v
  binOpConst : ∀ {a op b v}, fold a op b = some v → ∀ c aug locals world,
    Returns (rt.exec (.binOpConst 0 0 op c aug) [some b] [.value a] locals world) locals world v
  binOpImm : ∀ {a op imm v}, fold a op (.int imm) = some v → ∀ aug locals world,
    Returns (rt.exec (.binOpImm 0 0 op imm aug) [] [.value a] locals world) locals world v

/-- The registers hold the constants the facts say they hold. -/
def Holds (st : Facts Obj) (pool : List (Value Obj)) (regs : Regs (Value Obj)) : Prop :=
  ∀ r c, st.known r = some c → ∃ v, pool[c]? = some v ∧ regs r = some v

variable {rt : Runtime Obj World}
  {fold : Value Obj → BinaryOp → Value Obj → Option (Value Obj)} {numLocals : ℕ}

theorem Holds.value {st : Facts Obj} {pool : List (Value Obj)} {regs : Regs (Value Obj)}
    (h : Holds st pool regs) (hgrow : st.pool.consts <+: pool) {r : Reg} {c : ℕ} {a : Value Obj}
    (hk : st.known r = some c) (ha : st.pool.consts[c]? = some a) : regs r = some a := by
  obtain ⟨v, hv, hr⟩ := h r c hk
  rw [prefix_getElem? hgrow (List.getElem?_eq_some_iff.mp ha).1, ha, Option.some.injEq] at hv
  rw [hr, hv]

/-- Where an operator folds, the runtime returns the folded value. -/
theorem folded_operator {st : Facts Obj} {x : Insn} {v : Value Obj}
    (h : foldedValue fold st x = some v) : ∃ dst, operatorDst x = some dst := by
  unfold foldedValue at h
  split at h <;> first | exact ⟨_, rfl⟩ | cases h

theorem folded_returns (hsound : FoldSound rt fold) {st : Facts Obj} {pool : List (Value Obj)}
    {regs : Regs (Value Obj)} (h : Holds st pool regs) (hgrow : st.pool.consts <+: pool)
    {x : Insn} {v : Value Obj} (hv : foldedValue fold st x = some v) (world : World) :
    Returns (perform (rt.sem pool) numLocals x regs world) (view numLocals regs) world v := by
  obtain ⟨dst, hd⟩ := folded_operator hv
  rcases operator_cases hd with ⟨lhs, op, rhs, rfl⟩ | ⟨lhs, op, c, aug, rfl⟩ |
    ⟨lhs, op, imm, aug, rfl⟩
  · simp only [foldedValue, Option.bind_eq_bind, Option.bind_eq_some_iff] at hv
    obtain ⟨cl, hl, a, ha, cr, hr, b, hb, hf⟩ := hv
    have hops : operands numLocals (.binOp dst lhs op rhs) regs = [.value a, .value b] := by
      simp [operands, operandRegs, Insn.collectReads.eq_def, Machine.read, h.value hgrow hl ha,
        h.value hgrow hr hb]
    obtain ⟨h1, h2, h3, h4⟩ := hsound.binOp hf (view numLocals regs) world
    simp only [perform, hops, outcome, Insn.shape.eq_def, Runtime.sem, constIdx, List.map_nil]
    exact ⟨by simp [h1, settle.eq_def], h2, h3, h4⟩
  · simp only [foldedValue, Option.bind_eq_bind, Option.bind_eq_some_iff] at hv
    obtain ⟨cl, hl, a, ha, b, hb, hf⟩ := hv
    have hops : operands numLocals (.binOpConst dst lhs op c aug) regs = [.value a] := by
      simp [operands, operandRegs, Insn.collectReads.eq_def, Machine.read, h.value hgrow hl ha]
    have hc : pool[c]? = some b := by
      rw [prefix_getElem? hgrow (List.getElem?_eq_some_iff.mp hb).1, hb]
    obtain ⟨h1, h2, h3, h4⟩ := hsound.binOpConst hf c aug (view numLocals regs) world
    simp only [perform, hops, outcome, Insn.shape.eq_def, Runtime.sem, constIdx, List.map_cons,
      List.map_nil, hc]
    exact ⟨by simp [h1, settle.eq_def], h2, h3, h4⟩
  · simp only [foldedValue, Option.bind_eq_bind, Option.bind_eq_some_iff] at hv
    obtain ⟨cl, hl, a, ha, hf⟩ := hv
    have hops : operands numLocals (.binOpImm dst lhs op imm aug) regs = [.value a] := by
      simp [operands, operandRegs, Insn.collectReads.eq_def, Machine.read, h.value hgrow hl ha]
    obtain ⟨h1, h2, h3, h4⟩ := hsound.binOpImm hf aug (view numLocals regs) world
    simp only [perform, hops, outcome, Insn.shape.eq_def, Runtime.sem, constIdx, List.map_nil]
    exact ⟨by simp [h1, settle.eq_def], h2, h3, h4⟩

theorem operator_writes {x : Insn} {dst : Reg} (h : operatorDst x = some dst) :
    x.collectWrites = [dst] ∧ writesOn x .next = [dst] ∧ x.mayInvalidateNamedLocals = true := by
  rcases operator_cases h with ⟨_, _, _, rfl⟩ | ⟨_, _, _, _, rfl⟩ | ⟨_, _, _, _, rfl⟩ <;>
    exact ⟨rfl, rfl, rfl⟩

theorem operator_plain {x : Insn} {dst : Reg} (h : operatorDst x = some dst) :
    delegates x = false ∧ x.isHandlerMark = false ∧ ∀ d c, x ≠ .loadConst d c := by
  rcases operator_cases h with ⟨_, _, _, rfl⟩ | ⟨_, _, _, _, rfl⟩ | ⟨_, _, _, _, rfl⟩ <;>
    exact ⟨rfl, rfl, by simp⟩

theorem foldInsn_kept {x : Insn} (h : operatorDst x = none) (st : Facts Obj) :
    (foldInsn fold forgetWrites st x).1 = x := by
  rcases foldInsn_cases fold st x with ⟨_, _, rfl⟩ | ⟨_, _, rfl⟩ | ⟨dst, hd⟩ | ⟨-, -, -, heq⟩
  · rfl
  · rfl
  · rw [h] at hd
    cases hd
  · rw [heq]

/-- The slot and the pool of the constant an operator is replaced by. -/
def replacement (fold : Value Obj → BinaryOp → Value Obj → Option (Value Obj)) (st : Facts Obj)
    (x : Insn) : Option (ℕ × Pool Obj) :=
  (foldedValue fold st x).bind st.pool.intern

theorem replacement_operator {st : Facts Obj} {x : Insn} {r : ℕ × Pool Obj}
    (h : replacement fold st x = some r) : ∃ dst, operatorDst x = some dst := by
  obtain ⟨v, hv, -⟩ := Option.bind_eq_some_iff.mp h
  exact folded_operator hv

theorem foldStep_replaced {st : Facts Obj} {x : Insn} {dst : Reg} {nc : ℕ} {pool : Pool Obj}
    (hd : operatorDst x = some dst) (h : replacement fold st x = some (nc, pool)) :
    foldStep fold forgetWrites numLocals st x =
      (.loadConst dst nc, ⟨Function.update st.known dst (some nc), pool⟩) := by
  rw [replacement] at h
  simp only [foldStep, foldInsn_operator _ hd, applyConstFold, h]
  rfl

theorem foldStep_kept {st : Facts Obj} {x : Insn} (h : replacement fold st x = none) :
    (foldStep fold forgetWrites numLocals st x).1 = x := by
  cases hd : operatorDst x with
  | none => exact foldInsn_kept hd st
  | some dst =>
    rw [replacement] at h
    simp only [foldStep, foldInsn_operator _ hd, applyConstFold, h]

/-- Behind a kept instruction only untouched facts survive, a load or a copy apart. -/
theorem foldStep_survives {st : Facts Obj} {x : Insn} (h : replacement fold st x = none)
    (hload : ∀ d c, x ≠ .loadConst d c) (hmove : ∀ d s, x ≠ .move d s) {r : Reg} {c : ℕ}
    (hk : (foldStep fold forgetWrites numLocals st x).2.known r = some c) :
    st.known r = some c ∧ r ∉ x.collectWrites ∧
      (x.mayInvalidateNamedLocals = true → numLocals ≤ r) := by
  have hkept : (foldStep fold forgetWrites numLocals st x).1 = x := foldStep_kept h
  have harm : ∀ {r c}, (foldInsn fold forgetWrites st x).2.known r = some c →
      st.known r = some c ∧ r ∉ x.collectWrites := by
    intro r c hk
    cases hd : operatorDst x with
    | some dst =>
      rw [replacement] at h
      simp only [foldInsn_operator _ hd, applyConstFold, h, Facts.know] at hk
      rw [(operator_writes hd).1]
      by_cases hr : r = dst
      · simp [hr] at hk
      · exact ⟨by simpa [Function.update_of_ne hr] using hk, by simpa using hr⟩
    | none =>
      have hlast : (foldInsn fold forgetWrites st x).2 =
          if clears x then st.clear else forgetWrites x st := by
        rcases foldInsn_cases fold st x with ⟨_, _, rfl⟩ | ⟨_, _, rfl⟩ | ⟨dst, hd'⟩ |
          ⟨-, -, -, heq⟩
        · exact absurd rfl (hload _ _)
        · exact absurd rfl (hmove _ _)
        · rw [hd] at hd'
          cases hd'
        · rw [heq]
      rw [hlast] at hk
      by_cases hc : clears x = true
      · simp [hc, Facts.clear] at hk
      · by_cases hr : r ∈ x.collectWrites
        · simp [hc, forgetWrites, hr] at hk
        · exact ⟨by simpa [hc, forgetWrites, hr] using hk, hr⟩
  simp only [foldStep] at hk hkept
  rw [hkept] at hk
  by_cases hm : x.mayInvalidateNamedLocals = true
  · simp only [hm, if_true, Facts.retainTemps] at hk
    by_cases hr : numLocals ≤ r
    · rw [if_pos hr] at hk
      exact ⟨(harm hk).1, (harm hk).2, fun _ => hr⟩
    · simp [hr] at hk
  · rw [if_neg hm] at hk
    exact ⟨(harm hk).1, (harm hk).2, fun h => absurd h hm⟩

theorem returned_regs {x : Insn} {dst : Reg} {regs : Regs (Value Obj)} {world : World}
    {v : Value Obj} {o : Outcome (Value Obj) World} (hw : writesOn x .next = [dst])
    (hm : x.mayInvalidateNamedLocals = true) (h : Returns o (view numLocals regs) world v) :
    finishRegs numLocals x o regs = Function.update regs dst (some v) := by
  obtain ⟨hflow, -, hlocals, hres⟩ := h
  simp only [finishRegs, hm, hflow, hw, hlocals, if_true, writeAll, view_self]
  simp [hres]

theorem loadConst_regs {dst : Reg} {c : ℕ} {pool : List (Value Obj)} {v : Value Obj}
    (hc : pool[c]? = some v) (regs : Regs (Value Obj)) (world : World) :
    finishRegs numLocals (.loadConst dst c)
      (perform (rt.sem pool) numLocals (.loadConst dst c) regs world) regs =
        Function.update regs dst (some v) := by
  rw [perform_loadConst]
  simp [Runtime.sem, List.getD_eq_getElem?_getD, hc]

/-- What is known behind an instruction holds once it has fallen through. -/
theorem after_holds (hsound : FoldSound rt fold) {x : Insn} {st : Facts Obj} {pool : List (Value Obj)}
    {regs : Regs (Value Obj)} (h : Holds st pool regs) (hst : st.pool.Sound)
    (hgrow : (foldStep fold forgetWrites numLocals st x).2.pool.consts <+: pool)
    (hin : ∀ c ∈ constIdx x, c < pool.length) {world : World}
    (hflow : (perform (rt.sem pool) numLocals x regs world).flow = .next) :
    Holds (foldStep fold forgetWrites numLocals st x).2 pool
      (finishRegs numLocals x (perform (rt.sem pool) numLocals x regs world) regs) := by
  have hold := (@foldStep_pool Obj fold st hst numLocals x).2.trans hgrow
  cases hrep : replacement fold st x with
  | some r =>
    obtain ⟨nc, pool'⟩ := r
    obtain ⟨dst, hd⟩ := replacement_operator hrep
    obtain ⟨v, hv, hnc⟩ := Option.bind_eq_some_iff.mp hrep
    obtain ⟨-, hwrites, hm⟩ := operator_writes hd
    rw [foldStep_replaced hd hrep] at hgrow ⊢
    have hslot := (intern_spec hst hnc).2.1
    rw [returned_regs hwrites hm (folded_returns hsound h hold hv world)]
    intro r c hk
    by_cases hr : r = dst
    · subst hr
      obtain rfl : nc = c := by simpa using hk
      refine ⟨v, ?_, by simp⟩
      rw [prefix_getElem? hgrow (List.getElem?_eq_some_iff.mp hslot).1, hslot]
    · rw [Function.update_of_ne hr]
      exact h r c (by simpa [Function.update_of_ne hr] using hk)
  | none =>
    by_cases hload : ∃ d c, x = .loadConst d c
    · obtain ⟨d, c, rfl⟩ := hload
      have hc : pool[c]? = some (pool.getD c .none) := by
        have := hin c (by simp [constIdx.eq_def])
        rw [List.getD_eq_getElem?_getD, List.getElem?_eq_getElem this]
        rfl
      rw [loadConst_regs hc]
      intro r k hk
      by_cases hr : r = d
      · subst hr
        obtain rfl : c = k := by
          simpa [foldStep, foldInsn, Insn.mayInvalidateNamedLocals.eq_def, Facts.know] using hk
        exact ⟨_, hc, by simp⟩
      · rw [Function.update_of_ne hr]
        apply h r k
        simpa [foldStep, foldInsn, Insn.mayInvalidateNamedLocals.eq_def, Facts.know,
          Function.update_of_ne hr] using hk
    by_cases hmove : ∃ d s, x = .move d s
    · obtain ⟨d, src, rfl⟩ := hmove
      cases hv : regs src with
      | none => simp [perform_move_flow _ hv] at hflow
      | some v =>
        rw [perform_move _ hv]
        intro r k hk
        by_cases hr : r = d
        · subst hr
          have hks : st.known src = some k := by
            simpa [foldStep, foldInsn, Insn.mayInvalidateNamedLocals.eq_def, Facts.know] using hk
          obtain ⟨w, hw, hsrc⟩ := h src k hks
          exact ⟨w, hw, by simp [← hv, hsrc]⟩
        · rw [Function.update_of_ne hr]
          apply h r k
          simpa [foldStep, foldInsn, Insn.mayInvalidateNamedLocals.eq_def, Facts.know,
            Function.update_of_ne hr] using hk
    intro r c hk
    obtain ⟨hknown, hw, hm⟩ := foldStep_survives hrep (fun d c e => hload ⟨d, c, e⟩)
      (fun d s e => hmove ⟨d, s, e⟩) hk
    rw [finishRegs_frame hw hm]
    exact h r c hknown

variable {insns : List Insn} {consts : List (Value Obj)}

/-- Equal states, with the known constants in their registers and handlers at block starts. -/
structure Rel (fold : Value Obj → BinaryOp → Value Obj → Option (Value Obj)) (insns : List Insn)
    (consts pool : List (Value Obj)) (numLocals : ℕ) (s t : State (Value Obj) World) : Prop where
  same : t = s
  holds : ∀ x, insns[s.pc]? = some x → delegates x = false →
    Holds (factsAt fold insns consts numLocals s.pc) pool s.regs
  starts : ∀ h ∈ s.handlers, h < insns.length → bbStart insns h = true

theorem factsAt_start {pc : ℕ} (h : pc < insns.length) (hs : bbStart insns pc = true) (r : Reg) :
    (factsAt fold insns consts numLocals pc).known r = none := by
  cases pc with
  | zero => rfl
  | succ pc =>
    have hpc : insns[pc]? = some insns[pc] := List.getElem?_eq_getElem (by omega)
    rw [factsAt, hpc]
    simp [enter, hs, Facts.clear]

theorem Rel.at_start {pool : List (Value Obj)} {pc : ℕ} {hs : List ℕ}
    (h : pc < insns.length → bbStart insns pc = true)
    (ht : ∀ h ∈ hs, h < insns.length → bbStart insns h = true) (regs : Regs (Value Obj))
    (w : World) : Rel fold insns consts pool numLocals ⟨pc, regs, w, hs⟩ ⟨pc, regs, w, hs⟩ := by
  refine ⟨rfl, ?_, ht⟩
  intro x hx _ r c hk
  have hlt : pc < insns.length := (List.getElem?_eq_some_iff.mp hx).1
  rw [factsAt_start hlt (h hlt)] at hk
  cases hk

theorem bbStart_of_off {pc t : ℕ} {x : Insn} {k : ℤ} (hx : insns[pc]? = some x)
    (hk : branchOff x = some k) (ht : target insns.length pc k = some t) (hlt : t < insns.length) :
    bbStart insns t = true := by
  have hjt : jumpTarget pc k = t := by
    simp only [target] at ht
    split at ht
    · rename_i h
      simpa [jumpTarget, h.1] using ht
    · cases ht
  rw [bbStart, Bool.and_eq_true, List.any_eq_true]
  exact ⟨by simpa using hlt, (x, pc), List.mem_zipIdx_iff_getElem?.mpr (by simpa using hx),
    by simp [hk, hjt]⟩

theorem branchOff_of_jump {x : Insn} {k : ℤ} (hlate : x.isLateStageGuardInsn = false)
    (hk : x.jumpOff = some k) : branchOff x = some k := by
  cases x <;> first | exact hk | cases hlate

theorem next_rel {pool : List (Value Obj)} {pc : ℕ} {x : Insn} {hs : List ℕ}
    {regs : Regs (Value Obj)} (hx : insns[pc]? = some x)
    (ht : ∀ h ∈ hs, h < insns.length → bbStart insns h = true)
    (h : Holds (factsAt fold insns consts numLocals (pc+1)) pool regs) :
    Goto.Rel (fun pc hs pc' hs' => ∀ w : World,
        Rel fold insns consts pool numLocals ⟨pc, regs, w, hs⟩ ⟨pc', regs, w, hs'⟩)
      (transfer ⟨insns, []⟩ pc hs x .next) (transfer ⟨insns, []⟩ pc hs x .next) := by
  rcases mark_cases x with ⟨k, rfl⟩ | rfl | hmark
  · simp only [transfer]
    cases htgt : target insns.length pc k with
    | none => exact .finish .fault
    | some t =>
      refine .goto fun w => ⟨rfl, fun _ _ _ => h, ?_⟩
      intro a ha hlt
      rcases List.mem_cons.mp ha with rfl | ha
      · exact bbStart_of_off hx rfl htgt hlt
      · exact ht a ha hlt
  · exact .goto fun w => ⟨rfl, fun _ _ _ => h, fun a ha => ht a (List.mem_of_mem_tail ha)⟩
  · rw [transfer_next hmark]
    exact .goto fun w => ⟨rfl, fun _ _ _ => h, ht⟩

/-- What holds behind an instruction that falls through. A delegation leaves nothing known. -/
theorem next_holds (hsound : FoldSound rt fold) {pool : List (Value Obj)}
    (hpool : (factsAt fold insns consts numLocals insns.length).pool.consts = pool)
    (hin : InPool insns consts) {pc : ℕ} {x : Insn} {regs : Regs (Value Obj)} {world : World}
    (hx : insns[pc]? = some x)
    (h : delegates x = false → Holds (factsAt fold insns consts numLocals pc) pool regs)
    (hflow : (perform (rt.sem pool) numLocals x regs world).flow = .next) :
    Holds (factsAt fold insns consts numLocals (pc+1)) pool
      (finishRegs numLocals x (perform (rt.sem pool) numLocals x regs world) regs) := by
  have hlt : pc < insns.length := (List.getElem?_eq_some_iff.mp hx).1
  have hgrow : (factsAt fold insns consts numLocals (pc+1)).pool.consts <+: pool :=
    hpool ▸ factsAt_grows insns consts numLocals hlt
  have hbase : consts <+: pool := by
    rw [← hpool]
    exact factsAt_grows insns consts numLocals (Nat.zero_le insns.length)
  rw [factsAt, hx] at hgrow ⊢
  by_cases hs : bbStart insns (pc+1) = true
  · intro r c hk
    simp [enter, hs, Facts.clear] at hk
  · simp only [enter, hs] at hgrow ⊢
    by_cases hd : delegates x = true
    · intro r c hk
      unfold delegates at hd
      split at hd
      · simp [foldStep, foldInsn, clears.eq_def, Insn.mayInvalidateNamedLocals.eq_def,
          Facts.retainTemps, Facts.clear] at hk
      · cases hd
    · apply after_holds hsound (h (by simpa using hd)) (factsAt_sound insns consts numLocals pc)
        hgrow _ hflow
      intro c hc
      have := hin x (List.mem_of_getElem? hx) c hc
      exact this.trans_le hbase.length_le

theorem go_rel (hlate : ∀ x ∈ insns, x.isLateStageGuardInsn = false)
    (hsound : FoldSound rt fold) {pool : List (Value Obj)}
    (hpool : (factsAt fold insns consts numLocals insns.length).pool.consts = pool)
    (hin : InPool insns consts) {pc : ℕ} {x : Insn} {hs : List ℕ} {regs : Regs (Value Obj)}
    {world : World} (hx : insns[pc]? = some x)
    (ht : ∀ h ∈ hs, h < insns.length → bbStart insns h = true)
    (h : delegates x = false → Holds (factsAt fold insns consts numLocals pc) pool regs) :
    Goto.Rel (fun pc hs pc' hs' => ∀ w : World, Rel fold insns consts pool numLocals
        ⟨pc, finishRegs numLocals x (perform (rt.sem pool) numLocals x regs world) regs, w, hs⟩
        ⟨pc', finishRegs numLocals x (perform (rt.sem pool) numLocals x regs world) regs, w, hs'⟩)
      (transfer ⟨insns, []⟩ pc hs x (perform (rt.sem pool) numLocals x regs world).flow)
      (transfer ⟨insns, []⟩ pc hs x (perform (rt.sem pool) numLocals x regs world).flow) := by
  have hcan := perform_flow (rt.sem pool) numLocals x regs world
  cases hf : (perform (rt.sem pool) numLocals x regs world).flow with
  | next => exact next_rel hx ht (next_holds hsound hpool hin hx h hf)
  | jump =>
    simp only [transfer]
    cases hk : x.jumpOff with
    | none => exact .finish .fault
    | some k =>
      cases htgt : target insns.length pc k with
      | none => simpa [htgt] using Goto.Rel.finish .fault
      | some t =>
        have := bbStart_of_off hx
          (branchOff_of_jump (hlate x (List.mem_of_getElem? hx)) hk) htgt
        simpa [htgt] using Goto.Rel.goto fun w => Rel.at_start this ht _ w
  | again =>
    refine .goto fun w => ⟨rfl, fun y hy hd => ?_, ht⟩
    obtain rfl : x = y := by simpa using hx.symm.trans hy
    rw [hf] at hcan
    obtain ⟨iterReg, sentReg, resultReg, rfl⟩ := again_yieldFrom hcan
    cases hd
  | raise =>
    cases hs with
    | nil => exact .finish .escaped
    | cons a rest =>
      exact .goto fun w => .at_start (ht a (by simp)) (fun b hb => ht b (by simp [hb])) _ w
  | halt => exact .finish .returned

/-- Every visit outside the folded operators, by its position. -/
def unfolded (insns out : List Insn) : Observer :=
  fun pc _ => if insns[pc]? = out[pc]? then some pc else none

theorem rel_matched (hlate : ∀ x ∈ insns, x.isLateStageGuardInsn = false)
    (hok : KnownRespected fold insns consts numLocals) (hsound : FoldSound rt fold)
    (hin : InPool insns consts) {s t : State (Value Obj) World} {out : List Insn}
    {pool : List (Value Obj)} (hout : passConstFold fold insns consts numLocals = (out, pool))
    (h : Rel fold insns consts pool numLocals s t) :
    Machine.Matched (frame (rt.sem pool) numLocals ⟨insns, []⟩ (unfolded insns out))
      (frame (rt.sem pool) numLocals ⟨out, []⟩ (unfolded insns out))
      (Option.Rel (Rel fold insns consts pool numLocals)) (fun _ _ => 0) (some s) (some t) := by
  obtain ⟨pc, regs, w, hs⟩ := s
  obtain ⟨rfl, hholds, ht⟩ := h
  dsimp only at hholds ht
  have hspec := pass_spec hlate hok
  rw [hout] at hspec
  obtain ⟨hpool, hpass⟩ := hspec
  dsimp only at hpool hpass
  have hlen : out.length = insns.length := by
    apply Nat.le_antisymm
    · rw [← List.getElem?_eq_none_iff, hpass]
      simp
    · by_contra hlt
      have hnone := hpass out.length
      rw [List.getElem?_eq_none le_rfl, eq_comm, Option.map_eq_none_iff,
        List.getElem?_eq_none_iff] at hnone
      omega
  cases hx : insns[pc]? with
  | none =>
    have hx' : out[pc]? = none := by rw [hpass, hx]; rfl
    refine .both _ _ _ (frame_none hx) ?_ .none
    rw [frame_none hx']
    simp [hlen]
  | some x =>
    have hx' := hpass pc
    rw [hx, Option.map_some] at hx'
    have htr : ∀ f, transfer ⟨out, []⟩ pc hs x f = transfer ⟨insns, []⟩ pc hs x f :=
      transfer_congr hlen pc hs x
    cases hrep : replacement fold (factsAt fold insns consts numLocals pc) x with
    | none =>
      rw [foldStep_kept hrep] at hx'
      refine frame_both hx hx' rfl rfl rfl ?_
      rw [htr]
      exact go_rel hlate hsound hpool.symm hin hx ht (hholds x hx)
    | some r =>
      obtain ⟨nc, grown⟩ := r
      obtain ⟨dst, hd⟩ := replacement_operator hrep
      obtain ⟨v, hv, hnc⟩ := Option.bind_eq_some_iff.mp hrep
      obtain ⟨-, hwrites, hm⟩ := operator_writes hd
      rw [foldStep_replaced hd hrep] at hx'
      have hlt : pc < insns.length := (List.getElem?_eq_some_iff.mp hx).1
      obtain ⟨hdel, hmark, hload⟩ := operator_plain hd
      have hgrow : (factsAt fold insns consts numLocals pc).pool.consts <+: pool :=
        hpool ▸ factsAt_grows insns consts numLocals hlt.le
      have hreturn := @folded_returns Obj World rt fold numLocals hsound _ _ _ (hholds x hx hdel)
        hgrow _ _ hv w
      have hslot : pool[nc]? = some v := by
        have hfound := (intern_spec (factsAt_sound insns consts numLocals pc) hnc).2.1
        have hnext : grown.consts <+: pool := by
          have := @factsAt_grows Obj fold insns consts numLocals _ _ hlt
          rw [Nat.succ_eq_add_one, factsAt, hx] at this
          simp only [enter_pool, foldStep_replaced hd hrep] at this
          exact hpool ▸ this
        rw [prefix_getElem? hnext (List.getElem?_eq_some_iff.mp hfound).1, hfound]
      have hhide : ∀ y, unfolded insns out pc y = none := by
        intro y
        rw [unfolded, if_neg]
        rw [hx, hx']
        exact fun e => hload _ _ (Option.some.inj e)
      have hgo : transfer ⟨insns, []⟩ pc hs x .next = .goto (pc+1) hs := transfer_next hmark
      refine .both _ _ _ (frame_silent hx (hhide x) hreturn.1 hgo)
        (frame_silent hx' (hhide _) rfl rfl) (.some ?_)
      have hnextHolds := next_holds hsound hpool.symm hin hx (fun _ => hholds x hx hdel) hreturn.1
      have hregs := returned_regs hwrites hm hreturn
      refine ⟨?_, fun _ _ _ => hnextHolds, ht⟩
      rw [loadConst_regs hslot, hregs, hreturn.2.1]
      rfl

/-- On a stream without late-stage guards whose indices lie in the pool, and in which no known
register is overwritten behind the pass's back, constant folding keeps every visit outside the
folded operators with its operand values, and the named locals and the world at the end. -/
theorem const_fold_preserves (rt : Runtime Obj World)
    (fold : Value Obj → BinaryOp → Value Obj → Option (Value Obj)) (hsound : FoldSound rt fold)
    (insns : List Insn) (consts : List (Value Obj)) (numLocals : ℕ)
    (hlate : ∀ x ∈ insns, x.isLateStageGuardInsn = false) (hin : InPool insns consts)
    (hok : KnownRespected fold insns consts numLocals) (regs : Regs (Value Obj)) (world : World) :
    let r := passConstFold fold insns consts numLocals
    (frame (rt.sem r.2) numLocals ⟨r.1, []⟩ (unfolded insns r.1)).behaviours
        (State.enter regs world) =
      (frame (rt.sem consts) numLocals ⟨insns, []⟩ (unfolded insns r.1)).behaviours
        (State.enter regs world) := by
  intro r
  have hgrow : consts <+: r.2 := by
    rw [show r.2 = _ from (pass_spec hlate hok).1]
    exact factsAt_grows insns consts numLocals (Nat.zero_le _)
  rw [← @frame_grown Obj World rt _ _ hgrow ⟨insns, []⟩ hin]
  refine (frame_behaviours_eq (Rel fold insns consts r.2 numLocals) (fun _ _ => 0)
    (fun s t => rel_matched hlate hok hsound hin rfl) ⟨rfl, ?_, ?_⟩).symm
  · intro x _ _ r c hk
    cases hk
  · simp

end run

/-- Integer addition. -/
def foldAdd : Value Empty → BinaryOp → Value Empty → Option (Value Empty)
  | .int a, .add, .int b => some (.int (a+b))
  | _, _, _ => none

/-- Integers add, other operands of an operator raise, and a call returns `7`. -/
def adding : Runtime Empty Unit where
  exec shape named ops locals world :=
    let returns (v : Value Empty) : Outcome (Value Empty) Unit :=
      ⟨world, locals, .next, fun _ => some v, fun _ => false⟩
    match shape, named, ops with
    | .binOp _ _ .add _, _, [.value (.int a), .value (.int b)] => returns (.int (a+b))
    | .binOpConst _ _ .add _ _, [some (.int b)], [.value (.int a)] => returns (.int (a+b))
    | .binOpImm _ _ .add imm _, _, [.value (.int a)] => returns (.int (a+imm))
    | .binOp _ _ _ _, _, _ => ⟨world, locals, .raise, fun _ => none, fun _ => false⟩
    | _, _, _ => returns (.int 7)
  unbound _ world := world
  caught := some

theorem foldAdd_some {a b v : Value Empty} {op : BinaryOp} (h : foldAdd a op b = some v) :
    ∃ x y, a = .int x ∧ op = .add ∧ b = .int y ∧ v = .int (x+y) := by
  unfold foldAdd at h
  split at h
  · exact ⟨_, _, rfl, rfl, rfl, (Option.some.inj h).symm⟩
  · cases h

theorem adding_sound : FoldSound adding foldAdd := by
  refine ⟨?_, ?_, ?_⟩
  · intro a op b v h locals world
    obtain ⟨x, y, rfl, rfl, rfl, rfl⟩ := foldAdd_some h
    exact ⟨rfl, rfl, rfl, rfl⟩
  · intro a op b v h c aug locals world
    obtain ⟨x, y, rfl, rfl, rfl, rfl⟩ := foldAdd_some h
    exact ⟨rfl, rfl, rfl, rfl⟩
  · intro a op imm v h aug locals world
    obtain ⟨x, y, rfl, rfl, hy, rfl⟩ := foldAdd_some h
    obtain rfl : imm = y := by simpa using hy
    exact ⟨rfl, rfl, rfl, rfl⟩

/-- A sum of two constants, and a range of registers cleared beside it. -/
def foldedSum : List Insn :=
  [.loadConst 1 0, .binOpImm 2 1 .add 3 false, .loadNoneRange 3 2, .call 3 0, .binOp 4 2 .add 3,
    .ret 4]

theorem const_fold_preserves_folded_sum :
    passConstFold foldAdd foldedSum [.int 5] 1 =
      ([.loadConst 1 0, .loadConst 2 1, .loadNoneRange 3 2, .call 3 0, .binOp 4 2 .add 3, .ret 4],
        [.int 5, .int 8]) ∧
    let r := passConstFold foldAdd foldedSum [.int 5] 1
    (frame (adding.sem r.2) 1 ⟨r.1, []⟩ (unfolded foldedSum r.1)).behaviours
        (State.enter (fun _ => none) ()) =
      (frame (adding.sem [.int 5]) 1 ⟨foldedSum, []⟩ (unfolded foldedSum r.1)).behaviours
        (State.enter (fun _ => none) ()) :=
  ⟨by decide, const_fold_preserves adding foldAdd adding_sound foldedSum [.int 5] 1 (by decide)
    (by decide) (by decide) _ _⟩

/-- A known register is cleared by a range load and then added to itself. -/
def clearedOperand : List Insn :=
  [.loadConst 1 0, .loadNoneRange 1 1, .binOp 2 1 .add 1, .ret 2]

/-- The frames before and after the pass. -/
def clearedBefore : Machine (Option (State (Value Empty) Unit)) (Event (Value Empty) Unit) :=
  frame (adding.sem [.int 5]) 1 ⟨clearedOperand, []⟩
    (unfolded clearedOperand (passConstFold foldAdd clearedOperand [.int 5] 1).1)

def clearedAfter : Machine (Option (State (Value Empty) Unit)) (Event (Value Empty) Unit) :=
  let r := passConstFold foldAdd clearedOperand [.int 5] 1
  frame (adding.sem r.2) 1 ⟨r.1, []⟩ (unfolded clearedOperand r.1)

/-- The sum of two `None`s raises before the pass; after it the frame returns `10`. -/
theorem const_fold_uses_cleared_register :
    FoldSound adding foldAdd ∧ clearedAfter.behaviours (State.enter (fun _ => none) ()) ≠
      clearedBefore.behaviours (State.enter (fun _ => none) ()) := by
  refine ⟨adding_sound, ?_⟩
  apply Machine.behaviours_ne (fun tr => (visits tr).map Prod.fst) 4 4
  · decide
  · decide

end Pyrust.ConstantFolding
