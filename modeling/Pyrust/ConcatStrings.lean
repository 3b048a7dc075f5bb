import Pyrust.ConcatChains

/-!
# What is tracked is a string

In a run on which no instruction overwrites, unseen, a register that a chain
depends on, and none puts something else than a string where the pass takes a
string for granted, the registers a chain depends on hold strings all the way
to the chain.
-/

set_option autoImplicit false

namespace Pyrust.ConcatStrings

open Bytecode Machine Compaction ControlGraph ConcatChains

/-- Strings at run time: values that are exactly `str`, and the opcodes on them. Adding two
strings, and concatenating any number, runs no code and cannot fail. -/
structure Strings {Val World : Type*} (sem : Sem Val World) (strConst : ℕ → Bool) where
  isStr : Val → Prop
  append : Val → Val → Val
  const : ∀ c, strConst c → isStr (sem.const c)
  append_str : ∀ a b, isStr a → isStr b → isStr (append a b)
  add : ∀ a b locals world, isStr a → isStr b →
    sem.exec (.binOp 0 0 .add 0) [.value a, .value b] locals world =
      ⟨world, locals, .next, fun _ => some (append a b), fun _ => false⟩
  addConst : ∀ a c aug locals world, isStr a → strConst c →
    ∃ v, (sem.exec (.binOpConst 0 0 .add c aug) [.value a] locals world).results 0 = some v ∧ isStr v
  buildString : ∀ n ops locals world, (sem.exec (.buildString 0 0 n) ops locals world).flow ≠ .raise →
    ∃ v, (sem.exec (.buildString 0 0 n) ops locals world).results 0 = some v ∧ isStr v
  concat : ∀ v vs locals world, (∀ x ∈ v :: vs, isStr x) →
    sem.exec (.concat 0 0 (vs.length+1)) ((v :: vs).map .value) locals world =
      ⟨world, locals, .next, fun _ => some (vs.foldl append v), fun _ => false⟩

/-- The destination whose fact the transfer function settles. -/
def factDst : Insn → Option Reg
  | .loadConst r _ | .move r _ => some r
  | x => x.writableDst

/-- The registers whose facts make the fact of the destination. -/
def factSources : Insn → List Reg
  | .move _ src => [src]
  | .binOp _ lhs .add rhs => [lhs, rhs]
  | .binOpConst _ lhs .add _ _ => [lhs]
  | _ => []

/-- The registers an instruction overwrites while the transfer function keeps their facts. -/
def unseenWrites : Insn → List Reg
  | .loadNoneRange start count => List.range' start count
  | .unpack base _ n => List.range' base n
  | .unpackEx _ before after dstBase => List.range' dstBase (before+1+after)
  | .yieldFrom _ sentReg resultReg => [resultReg, sentReg]
  | .matchClassPositional dstBase _ _ n => List.range' dstBase n
  | .matchExceptStar _ src dst _ => [src, dst]
  | _ => []

/-- The opcodes whose result is taken for a string without a look at their operands. -/
def takenForStr : Insn → Bool
  | .concat .. | .formatValue .. | .formatValueSpec .. => true
  | _ => false

theorem write_seen {x : Insn} (hlate : x.isLateStageGuardInsn = false) {r : Reg}
    (h : r ∈ x.collectWrites) : factDst x = some r ∨ r ∈ unseenWrites x := by
  cases x <;> first
    | exact Bool.noConfusion hlate
    | exact .inr h
    | exact .inl (congrArg some (List.mem_singleton.mp h).symm)

/-- The chain depends on the fact of a register before an instruction of its block. -/
inductive Needed (insns : List Insn) (c : Chain) : ℕ → Reg → Prop
  | leaf {r : Reg} : r ∈ c.leaves → Needed insns c c.first r
  | keep {pc : ℕ} {r : Reg} {x : Insn} : Needed insns c (pc+1) r → bbStart insns (pc+1) = false →
      insns[pc]? = some x → factDst x ≠ some r → Needed insns c pc r
  | source {pc : ℕ} {r dst : Reg} {x : Insn} : Needed insns c (pc+1) dst →
      bbStart insns (pc+1) = false → insns[pc]? = some x → factDst x = some dst →
      r ∈ factSources x → Needed insns c pc r

theorem Needed.le {insns : List Insn} {c : Chain} {pc : ℕ} {r : Reg} (h : Needed insns c pc r) :
    pc ≤ c.first := by
  induction h with
  | leaf _ => exact Nat.le_refl _
  | keep _ _ _ _ ih => omega
  | source _ _ _ _ _ ih => omega

section facts
variable {Val World : Type*} {sem : Sem Val World} {numLocals : ℕ} {strConst : ℕ → Bool}
variable {insns : List Insn} {c : Chain}

/-- The register holds a string. -/
def HoldsStr (St : Strings sem strConst) (regs : Regs Val) (r : Reg) : Prop :=
  ∃ v, regs r = some v ∧ St.isStr v

/-- At this step a fact that the chain depends on goes stale: a tracked register is overwritten
unseen, or by an opcode taken for a string, the run goes on, and the register does not hold a
string. -/
def Overlooked (St : Strings sem strConst) (numLocals : ℕ) (insns : List Insn) (c : Chain)
    (s : State Val World) : Prop :=
  ∃ x r, insns[s.pc]? = some x ∧ Needed insns c (s.pc+1) r ∧
    strRegsBefore numLocals strConst insns (s.pc+1) r ∧
    (r ∈ unseenWrites x ∨ takenForStr x ∧ factDst x = some r) ∧
    ((perform sem numLocals x s.regs s.world).flow = .next ∨
      (perform sem numLocals x s.regs s.world).flow = .again) ∧
    ¬HoldsStr St (finishRegs numLocals x (perform sem numLocals x s.regs s.world) s.regs) r

/-- The tracked registers that the chain depends on hold strings. -/
def Good (St : Strings sem strConst) (numLocals : ℕ) (insns : List Insn) (c : Chain) (pc : ℕ)
    (regs : Regs Val) : Prop :=
  ∀ r, Needed insns c pc r → strRegsBefore numLocals strConst insns pc r → HoldsStr St regs r

/-- How an instruction makes the fact of its destination. -/
inductive Makes (strConst : ℕ → Bool) (strs : Reg → Bool) (r : Reg) : Insn → Prop
  | const {k : ℕ} : strConst k → Makes strConst strs r (.loadConst r k)
  | move {src : Reg} : strs src → Makes strConst strs r (.move r src)
  | add {a b : Reg} : strs a → strs b → Makes strConst strs r (.binOp r a .add b)
  | addConst {a : Reg} {k : ℕ} {aug : Bool} : strs a → strConst k →
      Makes strConst strs r (.binOpConst r a .add k aug)
  | build {base : Reg} {n : ℕ} : Makes strConst strs r (.buildString r base n)
  | taken {x : Insn} : takenForStr x → factDst x = some r → Makes strConst strs r x

/-- The arm of the transfer function for an instruction that makes no string. -/
theorem update_false {d : Option Reg} {strs : Reg → Bool} {r : Reg}
    (h : (match d with
      | some dst => Function.update strs dst false
      | none => strs) r = true) : d ≠ some r ∧ strs r := by
  cases d with
  | none => exact ⟨nofun, h⟩
  | some dst =>
    by_cases hr : r = dst
    · subst hr
      simp at h
    · exact ⟨by simpa using Ne.symm hr, by simpa [hr] using h⟩

theorem of_retain {strs : Reg → Bool} {b : Bool} {r : Reg}
    (h : (if b then fun r => decide (numLocals ≤ r) && strs r else strs) r = true) :
    strs r = true := by
  cases b <;> simp_all

theorem of_update {strs : Reg → Bool} {dst r : Reg} {b : Bool}
    (h : Function.update strs dst b r = true) : dst ≠ r ∧ strs r ∨ dst = r ∧ b = true := by
  by_cases hr : r = dst
  · subst hr
    exact .inr ⟨rfl, by simpa using h⟩
  · exact .inl ⟨Ne.symm hr, by simpa [hr] using h⟩

/-- A fact behind an instruction was there before, or the instruction makes it. -/
theorem strStep_cases {x : Insn} {strs : Reg → Bool} {r : Reg}
    (h : strStep numLocals strConst x strs r) :
    (factDst x ≠ some r ∧ strs r) ∨ (factDst x = some r ∧ numLocals ≤ r ∧ Makes strConst strs r x) := by
  unfold strStep at h
  replace h := of_retain h
  revert h
  split
  all_goals intro h
  case h_1 dst k =>
    rcases of_update h with ⟨hne, hs⟩ | ⟨rfl, hb⟩
    · exact .inl ⟨by simpa [factDst] using hne, hs⟩
    · simp only [Bool.and_eq_true, decide_eq_true_eq] at hb
      exact .inr ⟨rfl, hb.1, .const hb.2⟩
  case h_2 dst src =>
    rcases of_update h with ⟨hne, hs⟩ | ⟨rfl, hb⟩
    · exact .inl ⟨by simpa [factDst] using hne, hs⟩
    · simp only [Bool.and_eq_true, decide_eq_true_eq] at hb
      exact .inr ⟨rfl, hb.1, .move hb.2⟩
  case h_3 dst lhs rhs =>
    rcases of_update h with ⟨hne, hs⟩ | ⟨rfl, hb⟩
    · exact .inl ⟨by simpa [factDst, Insn.writableDst.eq_def] using hne, hs⟩
    · simp only [Bool.and_eq_true, decide_eq_true_eq] at hb
      exact .inr ⟨rfl, hb.1.1, .add hb.1.2 hb.2⟩
  case h_4 dst lhs k aug =>
    rcases of_update h with ⟨hne, hs⟩ | ⟨rfl, hb⟩
    · exact .inl ⟨by simpa [factDst, Insn.writableDst.eq_def] using hne, hs⟩
    · simp only [Bool.and_eq_true, decide_eq_true_eq] at hb
      exact .inr ⟨rfl, hb.1.1, .addConst hb.1.2 hb.2⟩
  case h_6 dst base n =>
    rcases of_update h with ⟨hne, hs⟩ | ⟨rfl, hb⟩
    · exact .inl ⟨by simpa [factDst, Insn.writableDst.eq_def] using hne, hs⟩
    · exact .inr ⟨rfl, of_decide_eq_true hb, .build⟩
  case h_5 | h_7 | h_8 =>
    rcases of_update h with ⟨hne, hs⟩ | ⟨rfl, hb⟩
    · exact .inl ⟨by simpa [factDst, Insn.writableDst.eq_def] using hne, hs⟩
    · exact .inr ⟨rfl, of_decide_eq_true hb, .taken rfl rfl⟩
  case h_9 hload hmove _ _ _ _ _ _ =>
    have hdst : factDst x = x.writableDst := by
      unfold factDst
      split
      · exact absurd rfl (hload _ _)
      · exact absurd rfl (hmove _ _)
      · rfl
    exact .inl (hdst ▸ update_false h)

theorem strRegsBefore_temp {pc : ℕ} {r : Reg}
    (h : strRegsBefore numLocals strConst insns pc r) : numLocals ≤ r := by
  induction pc generalizing r with
  | zero => simp [strRegsBefore] at h
  | succ pc ih =>
    rw [strRegsBefore] at h
    split_ifs at h
    cases hx : insns[pc]? with
    | none => simp [hx] at h
    | some x =>
      rw [hx] at h
      rcases strStep_cases h with hold | hnew
      · exact ih hold.2
      · exact hnew.2.1

theorem good_start (St : Strings sem strConst) {pc : ℕ} (h : pc = 0 ∨ bbStart insns pc)
    (regs : Regs Val) : Good St numLocals insns c pc regs := by
  intro r _ hr
  cases pc with
  | zero => simp [strRegsBefore] at hr
  | succ pc => simp [strRegsBefore, h.resolve_left (Nat.succ_ne_zero pc)] at hr

/-- Nothing in front of the chain depends on what happens behind its start. -/
theorem good_behind (St : Strings sem strConst) {pc : ℕ} (h : c.first < pc) (regs : Regs Val) :
    Good St numLocals insns c pc regs := by
  intro r hn _
  have := hn.le
  omega

/-- The register that a single destination is given. -/
theorem finishRegs_result {x : Insn} {o : Outcome Val World} {r : Reg} {v : Val}
    (hw : writesOn x .next = [r]) (hf : o.flow = .next) (hv : o.results 0 = some v)
    (regs : Regs Val) : finishRegs numLocals x o regs r = some v := by
  simp [finishRegs, hf, hw, writeAll, hv]

theorem perform_add {St : Strings sem strConst} {dst a b : Reg} {regs : Regs Val} {u v : Val}
    (ha : regs a = some u) (hb : regs b = some v) (hu : St.isStr u) (hv : St.isStr v)
    (world : World) : perform sem numLocals (.binOp dst a .add b) regs world =
      ⟨world, view numLocals regs, .next, fun _ => some (St.append u v), fun _ => false⟩ := by
  have hops : operands numLocals (.binOp dst a .add b) regs = [.value u, .value v] := by
    simp [operands, operandRegs, Insn.collectReads.eq_def, Machine.read, ha, hb]
  simp only [perform, hops, Insn.shape.eq_def, outcome, St.add u v _ _ hu hv]
  rfl

/-- What makes a fact puts a string into the register. -/
theorem Makes.holds (St : Strings sem strConst) {x : Insn} {strs : Reg → Bool} {r : Reg}
    {regs : Regs Val} {world : World} (h : Makes strConst strs r x)
    (hsrc : ∀ a ∈ factSources x, strs a → HoldsStr St regs a)
    (hf : (perform sem numLocals x regs world).flow = .next)
    (htaken : takenForStr x → factDst x = some r →
      HoldsStr St (finishRegs numLocals x (perform sem numLocals x regs world) regs) r) :
    HoldsStr St (finishRegs numLocals x (perform sem numLocals x regs world) regs) r := by
  cases h with
  | const hk =>
    rw [perform_loadConst, HoldsStr, Function.update_self]
    exact ⟨_, rfl, St.const _ hk⟩
  | @move src hs =>
    obtain ⟨v, hv, hstr⟩ := hsrc src (by simp [factSources]) hs
    rw [perform_move sem hv, HoldsStr, Function.update_self]
    exact ⟨v, rfl, hstr⟩
  | @add a b ha hb =>
    obtain ⟨u, hu, hustr⟩ := hsrc a (by simp [factSources]) ha
    obtain ⟨v, hv, hvstr⟩ := hsrc b (by simp [factSources]) hb
    rw [perform_add hu hv hustr hvstr]
    exact ⟨_, finishRegs_result rfl rfl rfl regs, St.append_str _ _ hustr hvstr⟩
  | @addConst a k aug ha hk =>
    obtain ⟨u, hu, hustr⟩ := hsrc a (by simp [factSources]) ha
    have hops : operands numLocals (.binOpConst r a .add k aug) regs = [.value u] := by
      simp [operands, operandRegs, Insn.collectReads.eq_def, Machine.read, hu]
    obtain ⟨v, hv, hvstr⟩ := St.addConst u k aug (view numLocals regs) world hustr hk
    refine ⟨v, finishRegs_result rfl hf ?_ regs, hvstr⟩
    simpa [perform, hops, Insn.shape.eq_def, outcome] using hv
  | @build base n =>
    have hne : (sem.exec (.buildString 0 0 n) (operands numLocals (.buildString r base n) regs)
        (view numLocals regs) world).flow ≠ .raise := by
      intro heq
      simp [perform, Insn.shape.eq_def, outcome, heq, settle] at hf
    obtain ⟨v, hv, hvstr⟩ := St.buildString n _ _ _ hne
    exact ⟨v, finishRegs_result rfl hf (by simpa [perform, Insn.shape.eq_def, outcome] using hv)
      regs, hvstr⟩
  | taken ht hd => exact htaken ht hd

theorem Good.next {St : Strings sem strConst} {s : State Val World} {x : Insn}
    (h : Good St numLocals insns c s.pc s.regs) (hx : insns[s.pc]? = some x)
    (hlate : x.isLateStageGuardInsn = false) (hok : ¬Overlooked St numLocals insns c s)
    (hf : (perform sem numLocals x s.regs s.world).flow = .next) :
    Good St numLocals insns c (s.pc+1)
      (finishRegs numLocals x (perform sem numLocals x s.regs s.world) s.regs) := by
  intro r hn hr
  have hseen : (r ∈ unseenWrites x ∨ takenForStr x ∧ factDst x = some r) →
      HoldsStr St (finishRegs numLocals x (perform sem numLocals x s.regs s.world) s.regs) r := by
    intro hover
    by_contra hno
    exact hok ⟨x, r, hx, hn, hr, hover, .inl hf, hno⟩
  rw [strRegsBefore] at hr
  split_ifs at hr with hb
  rw [hx] at hr
  rcases strStep_cases hr with ⟨hd, hold⟩ | ⟨hd, -, hmakes⟩
  · by_cases hw : r ∈ x.collectWrites
    · exact hseen (.inl ((write_seen hlate hw).resolve_left hd))
    · obtain ⟨v, hv, hvstr⟩ := h r (.keep hn (by simpa using hb) hx hd) hold
      exact ⟨v, by rw [finishRegs_frame hw fun _ => strRegsBefore_temp hold, hv], hvstr⟩
  · have hsrc : ∀ a ∈ factSources x, strRegsBefore numLocals strConst insns s.pc a →
        HoldsStr St s.regs a :=
      fun a ha hs => h a (.source hn (by simpa using hb) hx hd ha) hs
    exact hmakes.holds St hsrc hf fun ht hd' => hseen (.inr ⟨ht, hd'⟩)

/-- Before a chain that does not begin here, the dependence comes from behind the instruction. -/
theorem Needed.behind {pc : ℕ} {r : Reg} {x : Insn} (h : Needed insns c pc r) (hne : pc ≠ c.first)
    (hx : insns[pc]? = some x) (hsrc : factSources x = []) :
    Needed insns c (pc+1) r ∧ bbStart insns (pc+1) = false := by
  cases h with
  | leaf _ => exact absurd rfl hne
  | keep hn hb _ _ => exact ⟨hn, hb⟩
  | source _ _ hy _ hr =>
    obtain rfl := Option.some.inj (hx.symm.trans hy)
    simp [hsrc] at hr

/-- A delegation that is resumed has stored the sent value only. -/
theorem Good.again {St : Strings sem strConst} {s : State Val World} {x : Insn}
    (h : Good St numLocals insns c s.pc s.regs) (hne : s.pc ≠ c.first)
    (hx : insns[s.pc]? = some x) (hok : ¬Overlooked St numLocals insns c s)
    (hf : (perform sem numLocals x s.regs s.world).flow = .again) :
    Good St numLocals insns c s.pc
      (finishRegs numLocals x (perform sem numLocals x s.regs s.world) s.regs) := by
  have hcan := perform_flow sem numLocals x s.regs s.world
  rw [hf] at hcan
  obtain ⟨iterReg, sentReg, resultReg, rfl⟩ := again_yieldFrom hcan
  intro r hn hr
  by_cases hw : r ∈ (Insn.yieldFrom iterReg sentReg resultReg).collectWrites
  · obtain ⟨hn', hb⟩ := hn.behind hne hx rfl
    by_contra hno
    refine hok ⟨_, r, hx, hn', ?_, .inl hw, .inr hf, hno⟩
    simp [strRegsBefore, hb, hx, strStep.eq_def, Insn.writableDst.eq_def,
      Insn.mayInvalidateNamedLocals.eq_def, hr, strRegsBefore_temp hr]
  · obtain ⟨v, hv, hvstr⟩ := h r hn hr
    exact ⟨v, by rw [finishRegs_frame hw fun _ => strRegsBefore_temp hr, hv], hvstr⟩

end facts

end Pyrust.ConcatStrings
