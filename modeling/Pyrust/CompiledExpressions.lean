import Pyrust.ExpressionCorrect

/-!
# Chained comparisons and method calls

The two forms with lists of operands, and the theorem for every expression. A
chained comparison leaves its jumps to be patched when the last operand has been
compiled. A call lays its arguments out behind the receiver, or appends them to
a private list when there are too many.
-/

set_option autoImplicit false

namespace Pyrust.CompiledExpressions

open Bytecode Machine CompilerCore Expressions Fragment ExpressionValues ExpressionRuns
  ExpressionCorrect

section patches

def patchAll (ps : List ℕ) (code : List Insn) : List Insn :=
  ps.foldl (fun code p => patchAt p code) code

theorem patchAll_append (ps : List ℕ) (a b : List Insn) :
    patchAll (ps.map (a.length+·)) (a ++ b) = a ++ patchAll ps b := by
  induction ps generalizing b with
  | nil => rfl
  | cons p ps ih =>
    simp only [patchAll, List.map_cons, List.foldl_cons] at ih ⊢
    rw [patchAt_append, ih]

theorem patchAll_cons (ps : List ℕ) (a b : List Insn) (i : Insn) :
    patchAll (a.length::ps.map (a.length+1+·)) (a ++ i::b) =
      a ++ i.fixOff (fun _ => b.length)::patchAll ps b := by
  have h := patchAll_append ps (a ++ [i.fixOff fun _ => b.length]) b
  rw [patchAll, List.foldl_cons, patchAt_cons]
  simpa [patchAll] using h

theorem length_patchAll (ps : List ℕ) (code : List Insn) :
    (patchAll ps code).length = code.length := by
  induction ps generalizing code with
  | nil => rfl
  | cons p ps ih =>
    simp only [patchAll, List.foldl_cons] at ih ⊢
    rw [ih, patchAt, List.length_modify]

theorem patchJumps_eq {Lit : Type} (ps : List ℕ) (c : Compiler Lit) :
    patchJumps ps c = { c with insns := patchAll ps c.insns } := by
  induction ps generalizing c with
  | nil => rfl
  | cons p ps ih =>
    simp only [patchJumps, List.foldl_cons] at ih ⊢
    rw [ih]
    rfl

end patches

section chains
variable {Lit Val World : Type} {P : Prims Lit Val World} {regOf : String → Option Reg} {base : ℕ}
  {right : Expr Lit}

/-- The code of a chain once its jumps are patched, from a state that holds the left operand. -/
def ChainCodes (P : Prims Lit Val World) (regOf : String → Option Reg) (base : ℕ)
    (ops : Comparisons Lit) (place : Option Reg) (prev result : Reg) (n : ℕ) (c : Compiler Lit)
    (code : List Insn) : Prop :=
  ∀ names consts, c.names <+: names → c.consts <+: consts → ∀ a ρ regs st, Holds base ρ regs →
    regs prev = some (.obj a) →
    Meets P base (fun r => r < n ∧ r ≠ result) regs st.lists
      ((evalChain P regOf ops a).run ρ st.world) (fun v regs _ => regs result = some (.obj v))
      (KeptChain P regOf ops place a ρ st.world) (run (sem P names consts) base code 0 regs st)

def ChainOk [DecidableEq Lit] (P : Prims Lit Val World) (regOf : String → Option Reg) (base : ℕ)
    (ops : Comparisons Lit) : Prop :=
  ∀ c i place prev result, Wf regOf base c → OperandAt place prev base c.nextTemp →
    base ≤ result → result < c.nextTemp → prev ≠ result →
    (0 < i → prev < base ∨ result < prev) →
    ∃ ps last c' code, compileChain ops i prev result c =
        (ps.map (c.insns.length+·), last, c') ∧ Emits c c' code ∧ result < c'.nextTemp ∧
      (last < base ∨ result < last) ∧
      ChainCodes P regOf base ops place prev result c.nextTemp c' (patchAll ps code)

theorem apply_env {op : Operation Val} {ρ ρ' : Env Val} {w w' : World} {v : Val}
    (h : (Comp.apply (P := P) op).run ρ w = .value v ρ' w') : ρ' = ρ := by
  simp only [Comp.apply] at h
  split at h
  · cases h
    rfl
  · cases h

theorem codes_more {rest : Comparisons Lit} {op : CmpOp} {place : Option Reg}
    {prev result rhs : Reg} {n m : ℕ} {c : Compiler Lit} {codeR codeC : List Insn}
    (hR : Codes P base c codeR (· < n) (eval P regOf right) (Kept P regOf right)
      fun a regs _ => regs rhs = some (.obj a))
    (hC : ChainCodes P regOf base rest (bareLocal regOf right) rhs result m c codeC)
    (hprev : OperandAt place prev base n) (hrhs : OperandAt (bareLocal regOf right) rhs base m)
    (hres : base ≤ result) (hlt : result < n) (hnm : n ≤ m) (hne : rhs ≠ result) :
    ChainCodes P regOf base (.more op right rest) place prev result n c
      (codeR ++ ([Insn.binOp m prev op.toBinary rhs] ++ [Insn.move result m] ++
        jumpIf false result codeC.length :: codeC)) := by
  intro names consts hnames hconsts a ρ regs st hρ ha
  simp only [evalChain, KeptChain, ite_true_eq]
  rw [run_append]
  refine Meets.bind _ (hR names consts hnames hconsts ρ regs st hρ) (fun _ hr => hr.1) ?_
  intro b ρ₁ w₁ regs₁ st₁ hres₁ he₁ hb₁
  have hgrow := (eval P regOf right).grows ρ st.world
  rw [hres₁] at hgrow
  obtain ⟨a', ha', hstay⟩ := operand_after hprev ha hρ he₁ hgrow.1 id
  have hbm : base ≤ m := hres.trans (Nat.le_of_lt (Nat.lt_of_lt_of_le hlt hnm))
  have hact : act P names (Insn.binOp m prev op.toBinary rhs).shape
      (operands base (.binOp m prev op.toBinary rhs) regs₁) st₁ =
        .apply P (.binary op.toBinary a' b) st₁ := by
    have hregs : [prev, rhs].map regs₁ = [Slot.obj a', .obj b].map some :=
      congrArg₂ (fun x y => [x, y]) ha' hb₁
    rw [operands_set _ rfl hregs]
    rfl
  -- the comparison, and its copy into the result
  have hcmp : Meets P base (fun r => r < m ∧ r ≠ result) regs₁ st₁.lists
      ((Comp.apply (P := P) (.binary op.toBinary a b)).run ρ₁ st₁.world)
      (fun v regs _ => regs result = some (.obj v)) (Stays place a ρ₁)
      (run (sem P names consts) base
        ([Insn.binOp m prev op.toBinary rhs] ++ [Insn.move result m]) 0 regs₁
        st₁) := by
    rw [run_append]
    have happ : Meets P base (· < m) regs₁ st₁.lists
        ((Comp.apply (P := P) (.binary op.toBinary a b)).run ρ₁ st₁.world)
        (fun v regs _ => regs m = some (.obj v)) _ _ :=
      Meets.apply names consts (.binary op.toBinary a b) he₁.1 rfl hbm (Nat.lt_irrefl m) hact
    refine (happ.congr (by simpa using hstay)).after (fun _ hr => hr.1) ?_
    intro v ρ₂ regs₂ st₂ he₂ hv
    refine ⟨Function.update regs₂ result (some (.obj v)), st₂, ?_,
      (Ends.update he₂.1 hres ?_ _ st₂).mono (fun _ _ hr => hr) he₂.2.2.2, ?_⟩
    · rw [run_single, step_move hv]
    · exact fun hr => hr.2 rfl
    · exact Function.update_self ..
  rw [run_append, ← he₁.2.2.1]
  refine (Meets.bind _ hcmp ?_ ?_).lower he₁.2.2.2
  · exact fun r hr => ⟨Nat.lt_of_lt_of_le hr.1 hnm, hr.2⟩
  intro v ρ₂ w₂ regs₂ st₂ hres₂ he₂ hv
  have hb₂ : regs₂ rhs = some (.obj b) := by
    rcases hrhs with ⟨-, hl⟩ | ⟨-, h1, h2⟩
    · rw [he₂.1 rhs hl, apply_env hres₂, ← he₁.1 rhs hl, hb₁]
    · rw [he₂.2.1 rhs h1 ⟨h2, hne⟩, hb₁]
  rw [show jumpIf false result codeC.length :: codeC =
    jumpIf false result codeC.length :: (codeC ++ []) by simp, ← he₂.2.2.1]
  refine (Meets.branch he₂.1 hv (fun w => Meets.pure he₂.1 { st₂ with world := w } hv)
    fun w => ?_).lower he₂.2.2.2
  rw [List.append_nil]
  refine (hC names consts hnames hconsts b ρ₂ regs₂ { st₂ with world := w } he₂.1 hb₂).mono ?_
    List.prefix_rfl fun _ _ _ _ _ _ hp => hp
  exact fun r _ hr => ⟨Nat.lt_of_lt_of_le hr.1 hnm, hr.2⟩

variable [DecidableEq Lit]

attribute [local simp] Expressions.compileChain in
theorem last_ok (hreg : ∀ x r, regOf x = some r → r < base) (op : CmpOp)
    (hR : ExprOk P regOf base right) : ChainOk P regOf base (.last op right) := by
  intro c i place prev result hc hprev hres hlt hne hi
  obtain ⟨rhs, c₁, codeR, hx, h⟩ := hR c hc
  have hb : c₁.baseTemp = base := h.emits.baseTemp.trans hc.baseTemp
  have hfree : ∃ d, (if 0 < i then (c₁.emit (.binOp result prev op.toBinary rhs)).freeTemp prev
      else c₁.emit (.binOp result prev op.toBinary rhs)) = d ∧
      Emits c₁ d [.binOp result prev op.toBinary rhs] ∧ result < d.nextTemp := by
    refine ⟨_, rfl, ?_⟩
    have hem := (Emits.refl c₁).emit (.binOp result prev op.toBinary rhs)
    have hlt' : result+1 ≤ c₁.nextTemp := Nat.lt_of_lt_of_le hlt h.temp
    split
    · rename_i h0
      refine ⟨hem.freeTemp prev, le_freeTemp hlt' ?_⟩
      show prev < c₁.baseTemp ∨ _
      rw [hb]
      exact (hi h0).imp_right .inl
    · exact ⟨hem, hlt'⟩
  obtain ⟨d, hd, hem, hlt'⟩ := hfree
  simp only [compileChain, hx, hd]
  refine ⟨[], rhs, d, codeR ++ [Insn.binOp result prev op.toBinary rhs], rfl,
    h.emits.trans hem, hlt',
    ?_, ?_⟩
  · rw [← hb]
    exact (h.place.lt_or_le hreg hc h.emits).imp_right fun hl => Nat.lt_of_lt_of_le hlt hl
  intro names consts hnames hconsts a ρ regs st hρ ha
  simp only [evalChain, KeptChain]
  show Meets _ _ _ _ _ _ _ _ (run _ _ (codeR ++ _) _ _ _)
  rw [run_append]
  have hcodes := h.codes names consts (hem.names.trans hnames) (hem.consts.trans hconsts) ρ regs st
    hρ
  refine Meets.bind _ hcodes (fun _ hr => hr.1) ?_
  intro b ρ₁ w₁ regs₁ st₁ hres₁ he hb₁
  have hgrow := (eval P regOf right).grows ρ st.world
  rw [hres₁] at hgrow
  obtain ⟨a', ha', hstay⟩ := operand_after hprev ha hρ he hgrow.1 id
  have hact : act P names (Insn.binOp result prev op.toBinary rhs).shape
      (operands base (.binOp result prev op.toBinary rhs) regs₁) st₁ =
        .apply P (.binary op.toBinary a' b) st₁ := by
    have hregs : [prev, rhs].map regs₁ = [Slot.obj a', .obj b].map some :=
      congrArg₂ (fun x y => [x, y]) ha' hb₁
    rw [operands_set _ rfl hregs]
    rfl
  rw [← he.2.2.1]
  refine Meets.lower (Meets.congr (Meets.apply names consts (.binary op.toBinary a b) he.1 rfl hres
    ?_ hact) ?_) he.2.2.2
  · exact fun hr => hr.2 rfl
  · simpa using hstay

theorem more_ok {rest : Comparisons Lit} (hreg : ∀ x r, regOf x = some r → r < base) (op : CmpOp)
    (hR : ExprOk P regOf base right) (hrest : ChainOk P regOf base rest) :
    ChainOk P regOf base (.more op right rest) := by
  intro c i place prev result hc hprev hres hlt hne hi
  obtain ⟨rhs, c₁, codeR, hx, h⟩ := hR c hc
  have hb : c₁.baseTemp = base := h.emits.baseTemp.trans hc.baseTemp
  have hplace := h.place.lt_or_le hreg hc h.emits
  rw [hb] at hplace
  have hrhs := h.place.operand hreg hc le_rfl
  -- the previous operand lies below the comparison and is not freed, the comparison is
  have hfree : (((if 0 < i then (Compiler.emit { c₁ with nextTemp := c₁.nextTemp+1 }
        (.binOp c₁.nextTemp prev op.toBinary rhs)).freeTemp prev
      else Compiler.emit { c₁ with nextTemp := c₁.nextTemp+1 }
        (.binOp c₁.nextTemp prev op.toBinary rhs)).emit (.move result c₁.nextTemp)).freeTemp
          c₁.nextTemp) =
      (c₁.emit (.binOp c₁.nextTemp prev op.toBinary rhs)).emit (.move result c₁.nextTemp) := by
    rw [freeTemp_operand (c := Compiler.emit { c₁ with nextTemp := c₁.nextTemp+1 }
      (.binOp c₁.nextTemp prev op.toBinary rhs)) hprev hb (Nat.lt_succ_of_le h.temp), ite_self,
      Compiler.freeTemp, if_pos ⟨hb.trans_le (hc.temp.trans h.temp), rfl⟩]
    rfl
  have hem : Emits c₁ (((c₁.emit (.binOp c₁.nextTemp prev op.toBinary rhs)).emit
      (.move result c₁.nextTemp)).emit (.jumpIfFalse result 0))
      ([Insn.binOp c₁.nextTemp prev op.toBinary rhs] ++ [Insn.move result c₁.nextTemp] ++
        [jumpIf false result 0]) :=
    (((Emits.refl c₁).emit _).emit _).emit _
  simp only [compileChain, hx, Compiler.allocTemp, hfree]
  have hat : ((c₁.emit (.binOp c₁.nextTemp prev op.toBinary rhs)).emit
      (.move result c₁.nextTemp)).insns.length = c.insns.length+(codeR.length+2) := by
    simp [Compiler.emit, h.emits.insns]
  rw [hat]
  have hd : (((c₁.emit (.binOp c₁.nextTemp prev op.toBinary rhs)).emit
      (.move result c₁.nextTemp)).emit (.jumpIfFalse result 0)).nextTemp = c₁.nextTemp := rfl
  have hallD := h.emits.trans hem
  have hwD : Wf regOf base (((c₁.emit (.binOp c₁.nextTemp prev op.toBinary rhs)).emit
      (.move result c₁.nextTemp)).emit (.jumpIfFalse result 0)) :=
    hc.emits hallD (hc.temp.trans h.temp)
  generalize ((c₁.emit (.binOp c₁.nextTemp prev op.toBinary rhs)).emit
    (.move result c₁.nextTemp)).emit (.jumpIfFalse result 0) = d at hem hd hallD hwD ⊢
  have hltD : result < d.nextTemp := hd ▸ Nat.lt_of_lt_of_le hlt h.temp
  have hsep : rhs < base ∨ result < rhs := hplace.imp_right fun hl => Nat.lt_of_lt_of_le hlt hl
  have hneR : rhs ≠ result := by
    rintro rfl
    exact hsep.elim (Nat.not_lt.mpr hres) (Nat.lt_irrefl _)
  obtain ⟨ps, last, c₂, codeC, hy, hemC, hltC, hlast, hcodes⟩ :=
    hrest d (i+1) (bareLocal regOf right) rhs result hwD (hd.symm ▸ hrhs) hres hltD hneR
      fun _ => hsep
  rw [hy]
  refine ⟨(codeR.length+2)::ps.map ((codeR.length+3)+·), last, c₂, _, ?_, hallD.trans hemC, hltC,
    hlast, ?_⟩
  · simp [hallD.insns, Nat.add_assoc]
  · have htabs := hem.trans hemC
    rw [hd] at hcodes
    have hcode := @codes_more Lit Val World P regOf base right rest op place prev result rhs
      c.nextTemp c₁.nextTemp c₂ codeR (patchAll ps codeC)
      (h.codes.tables htabs.names htabs.consts) hcodes hprev hrhs hres hlt h.temp hneR
    rw [length_patchAll] at hcode
    have hpatch := patchAll_cons ps
      (codeR ++ ([Insn.binOp c₁.nextTemp prev op.toBinary rhs] ++
        [Insn.move result c₁.nextTemp])) codeC (jumpIf false result 0)
    rw [jumpIf_fixOff] at hpatch
    simp only [List.append_assoc, List.length_append, List.length_cons, List.length_nil,
      List.cons_append, List.nil_append] at hpatch hcode ⊢
    rw [hpatch]
    exact hcode

theorem compare_more_ok {left : Expr Lit} {rest : Comparisons Lit} {op : CmpOp}
    (hreg : ∀ x r, regOf x = some r → r < base) (hL : ExprOk P regOf base left)
    (hC : ChainOk P regOf base (.more op right rest)) :
    ExprOk P regOf base (.compare left (.more op right rest)) := by
  intro c hc
  obtain ⟨first, c₁, codeL, hx, h⟩ := hL c hc
  have hem := (Emits.refl c₁).setTemp (c₁.nextTemp+1)
  have hb : base ≤ c₁.nextTemp := hc.temp.trans h.temp
  have hw := hc.emits (h.emits.trans hem) (Nat.le_succ_of_le hb)
  have hfirst := h.place.operand hreg hc (Nat.le_succ c₁.nextTemp)
  have hne : first ≠ c₁.nextTemp := by
    rcases h.place.operand hreg hc le_rfl with ⟨-, hl⟩ | ⟨-, -, hl⟩
    · exact Nat.ne_of_lt (Nat.lt_of_lt_of_le hl hb)
    · exact Nat.ne_of_lt hl
  obtain ⟨ps, last, c₂, code, hy, hemC, hlt, hlast, hcodes⟩ :=
    hC { c₁ with nextTemp := c₁.nextTemp+1 } 0 (bareLocal regOf left) first c₁.nextTemp hw hfirst hb
      (Nat.lt_succ_self _) hne fun h => absurd h (Nat.lt_irrefl 0)
  simp only [compileExpr, hx, Compiler.allocTemp, hy]
  have hbase : c₂.baseTemp = base := hemC.baseTemp.trans hw.baseTemp
  have hlt₂ : c₁.nextTemp+1 ≤ (c₂.freeTemp last).nextTemp := by
    apply le_freeTemp hlt
    rw [hbase]
    exact hlast.imp_right .inl
  have hem₂ := hemC.freeTemp last
  have hfree := (Emits.refl c₂).freeTemp last
  generalize c₂.freeTemp last = d at hlt₂ hem₂ hfree ⊢
  rw [patchJumps_eq, hem₂.insns, patchAll_append]
  have hem₃ : Emits { c₁ with nextTemp := c₁.nextTemp+1 }
      { d with insns := c₁.insns ++ patchAll ps code } (patchAll ps code) :=
    ⟨rfl, hem₂.localReg, hem₂.baseTemp, hem₂.consts, hem₂.names⟩
  rw [freeTemp_operand (c := { d with insns := c₁.insns ++ patchAll ps code })
    (h.place.operand hreg hc le_rfl) (hem₃.baseTemp.trans hw.baseTemp) hlt₂]
  refine ⟨_, _, codeL ++ patchAll ps code, rfl, h.emits.trans (hem.trans hem₃),
    (Nat.le_succ_of_le h.temp).trans hlt₂, .inr ⟨rfl, h.temp, hlt₂⟩, ?_⟩
  intro names consts hnames hconsts ρ regs st hρ
  simp only [eval, Kept]
  rw [run_append]
  have hrun := h.codes names consts (hem₃.names.trans hnames) (hem₃.consts.trans hconsts) ρ regs st
    hρ
  refine Meets.bind _ hrun (fun _ hr => hr) ?_
  intro a ρ₁ w₁ regs₁ st₁ _ he ha
  rw [← he.2.2.1]
  have hchain := hcodes names consts (hfree.names.trans hnames) (hfree.consts.trans hconsts) a ρ₁
    regs₁ st₁ he.1 ha
  refine (hchain.mono ?_ List.prefix_rfl fun _ _ _ _ _ _ hp => hp).lower he.2.2.2
  intro r _ hr
  have hlt' : r < c₁.nextTemp := Nat.lt_of_lt_of_le hr h.temp
  exact ⟨Nat.lt_succ_of_lt hlt', Nat.ne_of_lt hlt'⟩

end chains

section calls
variable {Lit Val World : Type} {P : Prims Lit Val World} {regOf : String → Option Reg} {base : ℕ}
  {c : Compiler Lit} {target arg : Expr Lit} {name : String} {args : Args Lit}

variable (P regOf base) in
/-- The arguments of a compact call, in the registers from `argReg` on. -/
def ArgsOk [DecidableEq Lit] (args : Args Lit) : Prop :=
  ∀ c argReg, Wf regOf base c → base ≤ argReg → argReg+args.length ≤ c.nextTemp → ∃ code,
    Emits c (compileArgs args argReg c) code ∧ (compileArgs args argReg c).nextTemp = c.nextTemp ∧
      Codes P base (compileArgs args argReg c) code
        (fun r => r < c.nextTemp ∧ (r < argReg ∨ argReg+args.length ≤ r)) (evalArgs P regOf args)
        (KeptArgs P regOf args)
        fun vs regs _ => (List.range' argReg args.length).map regs = vs.map fun v => some (.obj v)

theorem no_args_ok [DecidableEq Lit] : ArgsOk P regOf base (.nil : Args Lit) := by
  intro c argReg _ _ _
  refine ⟨[], .refl c, rfl, ?_⟩
  intro names consts _ _ ρ regs st hρ
  simp only [evalArgs, KeptArgs]
  exact Meets.pure hρ st rfl

attribute [local simp] Expressions.compileArgs in
theorem args_ok [DecidableEq Lit] (hreg : ∀ x r, regOf x = some r → r < base)
    (hE : ExprOk P regOf base arg) (hrest : ArgsOk P regOf base args) :
    ArgsOk P regOf base (.cons arg args) := by
  intro c argReg hc hb hn
  obtain ⟨r, c₁, code, hx, h⟩ := hE c hc
  simp only [Args.length] at hn ⊢
  have hlt : argReg < c.nextTemp := Nat.lt_of_lt_of_le (Nat.lt_add_of_pos_right (Nat.succ_pos _)) hn
  obtain ⟨codeM, hemM, -, hcM⟩ := moveInto_ok hreg hc h hb hlt
  have hw := hc.emits (hemM.setTemp c.nextTemp) hc.temp
  obtain ⟨codeA, hemA, hnA, hcA⟩ := hrest { moveInto argReg c r c₁ with nextTemp := c.nextTemp }
    (argReg+1) hw (Nat.le_succ_of_le hb) (by rw [Nat.add_right_comm, Nat.add_assoc]; exact hn)
  simp only [compileArgs, hx]
  refine ⟨codeM ++ codeA, (hemM.setTemp c.nextTemp).trans hemA, hnA, ?_⟩
  intro names consts hnames hconsts ρ regs st hρ
  simp only [evalArgs, KeptArgs]
  rw [run_append]
  have hrun := hcM names consts (hemA.names.trans hnames) (hemA.consts.trans hconsts) ρ regs st hρ
  refine Meets.bind _ hrun ?_ ?_
  · rintro r ⟨h1, h2⟩
    refine ⟨h1, ?_⟩
    rintro rfl
    exact h2.elim (Nat.lt_irrefl _) fun h => absurd h (by omega)
  intro v ρ₁ w₁ regs₁ st₁ _ he hv
  rw [← he.2.2.1]
  refine Meets.map (v::·) ((hcA names consts hnames hconsts ρ₁ regs₁ st₁ he.1).mono ?_ he.2.2.2 ?_)
  · rintro r _ ⟨h1, h2⟩
    exact ⟨h1, h2.imp Nat.lt_succ_of_lt fun h => by omega⟩
  · intro vs ρ₂ w₂ regs₂ st₂ he₂ hvs
    have hkeep : regs₂ argReg = regs₁ argReg :=
      he₂.2.1 argReg hb ⟨hlt, .inl (Nat.lt_succ_self _)⟩
    simp only [List.range'_succ, List.map_cons, hkeep, hv, hvs]

theorem objects_read {rs : List Reg} {regs : Regs (Slot Val)} {vs : List Val}
    (h : rs.map regs = vs.map fun v => some (.obj v)) :
    objects (rs.map (Machine.read base regs)) = some vs := by
  induction rs generalizing vs with
  | nil =>
    rw [List.map_nil, eq_comm, List.map_eq_nil_iff] at h
    rw [h]
    rfl
  | cons r rs ih =>
    cases vs with
    | nil => simp at h
    | cons v vs =>
      simp only [List.map_cons, List.cons.injEq] at h
      rw [List.map_cons, read_set h.1, objects, ih h.2]
      rfl

theorem codes_callMethod {obj dst idx n m k : ℕ} {keep : Reg → Prop} {codeT codeA : List Insn}
    (hT : Codes P base c codeT keep (eval P regOf target) (Kept P regOf target)
      fun a regs _ => regs obj = some (.obj a))
    (hA : Codes P base c codeA (fun r => r < m ∧ (r < k ∨ k+args.length ≤ r))
      (evalArgs P regOf args) (KeptArgs P regOf args)
      fun vs regs _ => (List.range' k args.length).map regs = vs.map fun v => some (.obj v))
    (hobj : OperandAt (localReceiver regOf target) obj base k)
    (hget : ∀ names, c.names <+: names → names[idx]? = some name)
    (hkeep : ∀ r, r < n → keep r) (hk : k ≤ m) (hn : n ≤ k) (hdst : n ≤ dst) (hbase : base ≤ n)
    (hlen : args.length ≤ 255) :
    Codes P base c (codeT ++ (codeA ++ [Insn.callMethod dst obj idx k args.length])) (· < n)
      (eval P regOf (.methodCall target name args)) (Kept P regOf (.methodCall target name args))
      fun a regs _ => regs dst = some (.obj a) := by
  intro names consts hnames hconsts ρ regs st hρ
  simp only [eval, Kept]
  rw [run_append]
  refine Meets.bind _ (hT names consts hnames hconsts ρ regs st hρ) hkeep ?_
  intro a ρ₁ w₁ regs₁ st₁ _ he₁ ha
  rw [run_append, ← he₁.2.2.1]
  refine (Meets.bind _ (hA names consts hnames hconsts ρ₁ regs₁ st₁ he₁.1) ?_ ?_).lower he₁.2.2.2
  · intro r hr
    have hrk : r < k := Nat.lt_of_lt_of_le hr hn
    exact ⟨Nat.lt_of_lt_of_le hrk hk, .inl hrk⟩
  intro vs ρ₂ w₂ regs₂ st₂ hres he₂ hvs
  have hgrow := (evalArgs P regOf args).grows ρ₁ st₁.world
  rw [hres] at hgrow
  obtain ⟨a', ha', hstay⟩ := operand_after hobj ha he₁.1 he₂ hgrow.1
    fun hr => ⟨Nat.lt_of_lt_of_le hr hk, .inl hr⟩
  have hact : act P names (Insn.callMethod dst obj idx k args.length).shape
      (operands base (.callMethod dst obj idx k args.length) regs₂) st₂ =
        .apply P (.callMethod a' name vs) st₂ := by
    show act P names (.callMethod 0 0 idx 0 args.length) (Machine.read base regs₂ obj ::
      (List.range' k args.length).map (Machine.read base regs₂)) st₂ = _
    rw [read_set ha']
    exact act_callMethod (hget names hnames) (objects_read hvs)
  rw [← he₂.2.2.1]
  refine Meets.lower (Meets.congr (Meets.apply names consts (.callMethod a name vs) he₂.1 rfl
    (hbase.trans hdst) ?_ hact) ?_) he₂.2.2.2
  · exact Nat.not_lt.mpr hdst
  · simpa [hlen] using hstay

/-- A receiver that is a local needs no code. -/
theorem codes_receiver (hreg : ∀ x r, regOf x = some r → r < base) {reg : Reg}
    (h : localReceiver regOf target = some reg) : reg < base ∧
      Codes P base c [] (fun _ => True) (eval P regOf target) (Kept P regOf target)
        fun a regs _ => regs reg = some (.obj a) := by
  cases target
  case var name =>
    have hlt := hreg name reg h
    refine ⟨hlt, ?_⟩
    intro names consts _ _ ρ regs st hρ
    have hread := hρ reg hlt
    rw [localReceiver] at h
    simp only [eval, Kept, h, Comp.readLocal, Option.bind_some]
    cases hv : ρ reg with
    | none => trivial
    | some v =>
      rw [hv] at hread
      exact .inl ⟨trivial, regs, st, rfl, .refl hρ st, hread⟩
  all_goals cases h

variable [DecidableEq Lit]

theorem methodCall_ok (hreg : ∀ x r, regOf x = some r → r < base) (hlen : args.length ≤ 255)
    (hT : ExprOk P regOf base target) (hA : ArgsOk P regOf base args) :
    ExprOk P regOf base (.methodCall target name args) := by
  intro c hc
  have hb := hc.temp
  have hem := (Emits.refl c).setTemp (c.nextTemp+1+args.length)
  have hn : c.nextTemp+1 ≤ c.nextTemp+1+args.length := Nat.le_add_right _ _
  have hw := hc.emits hem ((Nat.le_succ_of_le hb).trans hn)
  simp only [compileExpr, if_neg (Nat.not_lt.mpr hlen)]
  generalize hf : { c with nextTemp := c.nextTemp+1+args.length } = frame at hem hw ⊢
  have hnf : frame.nextTemp = c.nextTemp+1+args.length := by rw [← hf]
  rw [hc.localReg]
  cases hr : localReceiver regOf target with
  | some reg =>
    obtain ⟨codeA, hemA, -, hcA⟩ :=
      hA frame (c.nextTemp+1) hw (Nat.le_succ_of_le hb) hnf.ge
    obtain ⟨idx, c₂, hI, hem₂, -, hget⟩ :=
      internName_spec (compileArgs args (c.nextTemp+1) frame) name
    simp only [hI]
    refine ⟨_, _,
      [] ++ (codeA ++ [Insn.callMethod c.nextTemp reg idx (c.nextTemp+1) args.length]), rfl,
      ?_, Nat.le_succ _, .inr ⟨rfl, le_rfl, Nat.lt_succ_self _⟩, ?_⟩
    · simpa using ((hem.trans (hemA.trans hem₂)).emit
        (.callMethod c.nextTemp reg idx (c.nextTemp+1) args.length)).setTemp (c.nextTemp+1)
    · obtain ⟨hlt, hcT⟩ := codes_receiver hreg (P := P) (c := c₂) hr
      apply codes_callMethod hcT (hcA.tables hem₂.names hem₂.consts) (.inl ⟨hr, hlt⟩) hget
        (fun _ _ => trivial) _ (Nat.le_succ _) le_rfl hb hlen
      exact hnf ▸ hn
  | none =>
    obtain ⟨r, c₁, codeE, hx, h⟩ := hT frame hw
    obtain ⟨codeT, hemT, -, hcT⟩ := exprInto_ok hreg hw h hb
      (hnf ▸ Nat.lt_of_lt_of_le (Nat.lt_succ_self _) hn)
    simp only [hx]
    have hemT' := hemT.setTemp (c.nextTemp+1+args.length)
    have hw₁ := hw.emits hemT' ((Nat.le_succ_of_le hb).trans hn)
    generalize hg : { exprInto c.nextTemp frame (r, c₁) with
      nextTemp := c.nextTemp+1+args.length } = g at hemT' hw₁ ⊢
    have hng : g.nextTemp = c.nextTemp+1+args.length := by rw [← hg]
    have htg : (exprInto c.nextTemp frame (r, c₁)).names = g.names ∧
        (exprInto c.nextTemp frame (r, c₁)).consts = g.consts := by
      rw [← hg]
      exact ⟨rfl, rfl⟩
    obtain ⟨codeA, hemA, -, hcA⟩ := hA g (c.nextTemp+1) hw₁ (Nat.le_succ_of_le hb) hng.ge
    obtain ⟨idx, c₂, hI, hem₂, -, hget⟩ := internName_spec (compileArgs args (c.nextTemp+1) g) name
    simp only [hI]
    have htail := hemA.trans hem₂
    refine ⟨_, _, codeT ++ (codeA ++
      [Insn.callMethod c.nextTemp c.nextTemp idx (c.nextTemp+1) args.length]), rfl, ?_, Nat.le_succ _,
      .inr ⟨rfl, le_rfl, Nat.lt_succ_self _⟩, ?_⟩
    · simpa using ((hem.trans (hemT'.trans htail)).emit
        (.callMethod c.nextTemp c.nextTemp idx (c.nextTemp+1) args.length)).setTemp (c.nextTemp+1)
    · apply codes_callMethod (hcT.tables (htg.1 ▸ htail.names) (htg.2 ▸ htail.consts))
        (hcA.tables hem₂.names hem₂.consts) (.inr ⟨hr, hb, Nat.lt_succ_self _⟩) hget _ _
        (Nat.le_succ _) le_rfl hb hlen
      · intro r hr
        exact ⟨hnf ▸ Nat.lt_of_lt_of_le (Nat.lt_succ_of_lt hr) hn, Nat.ne_of_lt hr⟩
      · exact hng ▸ hn

end calls

section longCalls
variable {Lit Val World : Type} {P : Prims Lit Val World} {regOf : String → Option Reg} {base : ℕ}
  {c : Compiler Lit} {target arg : Expr Lit} {name : String} {args : Args Lit}

/-- Code that appends the values of the arguments to the private list in `posList`. -/
def AppendCodes (P : Prims Lit Val World) (regOf : String → Option Reg) (base : ℕ)
    (args : Args Lit) (posList : Reg) (n : ℕ) (c : Compiler Lit) (code : List Insn) : Prop :=
  ∀ names consts, c.names <+: names → c.consts <+: consts → ∀ ρ regs st lists vs rest,
    Holds base ρ regs → regs posList = some (.posList lists.length) →
    st.lists = lists ++ vs::rest →
    Meets P base (· < n) regs lists ((evalArgs P regOf args).run ρ st.world)
      (fun vs' _ st => ∃ rest, st.lists = lists ++ (vs ++ vs')::rest)
      (KeptArgs P regOf args ρ st.world)
      (run (sem P names consts) base code 0 regs st)

variable (P regOf base) in
def AppendOk [DecidableEq Lit] (args : Args Lit) : Prop :=
  ∀ c posList, Wf regOf base c → base ≤ posList → posList < c.nextTemp → ∃ code,
    Emits c (appendArgs args posList c) code ∧ c.nextTemp ≤ (appendArgs args posList c).nextTemp ∧
      AppendCodes P regOf base args posList c.nextTemp (appendArgs args posList c) code

theorem append_nil_ok [DecidableEq Lit] : AppendOk P regOf base (.nil : Args Lit) := by
  intro c posList _ _ _
  refine ⟨[], .refl c, le_rfl, ?_⟩
  intro names consts _ _ ρ regs st lists vs rest hρ _ hl
  simp only [evalArgs, KeptArgs]
  refine (Meets.pure hρ st ⟨rest, ?_⟩).lower ⟨vs::rest, hl.symm⟩
  rw [hl, List.append_nil]

theorem append_ok [DecidableEq Lit] (hreg : ∀ x r, regOf x = some r → r < base)
    (hE : ExprOk P regOf base arg) (hrest : AppendOk P regOf base args) :
    AppendOk P regOf base (.cons arg args) := by
  intro c posList hc hb hlt
  obtain ⟨val, c₁, code, hx, h⟩ := hE c hc
  have hem := ((Emits.refl c₁).emit (.listAppend posList val)).freeTemp val
  have hn : c.nextTemp ≤ ((c₁.emit (.listAppend posList val)).freeTemp val).nextTemp :=
    le_freeTemp h.temp ((h.place.lt_or_le hreg hc h.emits).imp_right .inl)
  simp only [appendArgs, hx]
  generalize (c₁.emit (.listAppend posList val)).freeTemp val = d at hem hn ⊢
  have hw := hc.emits (h.emits.trans hem) (hc.temp.trans hn)
  obtain ⟨codeA, hemA, hnA, hcA⟩ := hrest d posList hw hb (Nat.lt_of_lt_of_le hlt hn)
  refine ⟨(code ++ [Insn.listAppend posList val]) ++ codeA, ?_, hn.trans hnA, ?_⟩
  · simpa using (h.emits.trans hem).trans hemA
  intro names consts hnames hconsts ρ regs st lists vs rest hρ hp hl
  simp only [evalArgs, KeptArgs]
  have htabs := hem.trans hemA
  have hrun := h.codes names consts (htabs.names.trans hnames) (htabs.consts.trans hconsts) ρ regs
    st hρ
  -- the value is appended to the list that the register names
  have hone : Meets P base (· < c.nextTemp) regs lists ((eval P regOf arg).run ρ st.world)
      (fun v _ st => ∃ rest, st.lists = lists ++ (vs ++ [v])::rest) (Kept P regOf arg ρ st.world)
      (run (sem P names consts) base (code ++ [Insn.listAppend posList val]) 0 regs st) := by
    rw [run_append]
    have hlist : Meets P base (· < c.nextTemp) regs lists ((eval P regOf arg).run ρ st.world)
        (fun v regs' st' => regs' val = some (.obj v) ∧ regs' posList = regs posList ∧
          ∃ rest, st'.lists = lists ++ vs::rest) (Kept P regOf arg ρ st.world)
        (run (sem P names consts) base code 0 regs st) := by
      refine hrun.mono (fun _ _ hr => hr) ⟨vs::rest, hl.symm⟩ ?_
      intro v ρ₁ w₁ regs₁ st₁ he hv
      obtain ⟨more, hmore⟩ := he.2.2.2
      refine ⟨hv, he.2.1 posList hb hlt, rest ++ more, ?_⟩
      rw [← hmore, hl, List.append_assoc, List.cons_append]
    refine hlist.after (fun _ hr => hr) ?_
    rintro v ρ₁ regs₁ st₁ he ⟨hv, hpos, rest₁, hl₁⟩
    rw [hp] at hpos
    refine ⟨regs₁, { st₁ with lists := lists ++ (vs ++ [v])::rest₁ }, ?_,
      ⟨he.1, fun _ _ _ => rfl, rfl, List.prefix_append _ _⟩, rest₁, rfl⟩
    have happ := modify_append lists (vs::rest₁) 0 (· ++ [v])
    rw [run_single, step_listAppend hpos hv, hl₁]
    rw [Nat.add_zero, List.modify_zero_cons] at happ
    rw [happ]
  rw [run_append]
  refine Meets.bind _ hone (fun _ hr => hr) ?_
  rintro v ρ₁ w₁ regs₁ st₁ _ he ⟨rest₁, hl₁⟩
  rw [← he.2.2.1]
  have hp₁ : regs₁ posList = some (.posList lists.length) := by rw [he.2.1 posList hb hlt, hp]
  refine Meets.map (v::·) ((hcA names consts hnames hconsts ρ₁ regs₁ st₁ lists (vs ++ [v]) rest₁
    he.1 hp₁ hl₁).mono (fun _ _ hr => Nat.lt_of_lt_of_le hr hn) List.prefix_rfl ?_)
  rintro vs' ρ₂ w₂ regs₂ st₂ _ ⟨rest₂, hl₂⟩
  exact ⟨rest₂, by simpa using hl₂⟩

/-- The private list and mapping of a long call are built empty. -/
theorem run_builds {names : List String} {consts : List Lit} {posList kwDict e₁ e₂ : Reg}
    (regs : Regs (Slot Val)) (st : Store Val World) :
    run (sem P names consts) base
      ([Insn.buildList posList e₁ 0] ++ [Insn.buildDict kwDict e₂ 0 .unicode]) 0 regs st =
    .fall 0 (Function.update (Function.update regs posList (some (.posList st.lists.length))) kwDict
      (some .kwDict)) { st with lists := st.lists ++ [[]] } := by
  have hlist : stepExit (sem P names consts) base (.buildList posList e₁ 0) regs st =
      .fall 0 (Function.update regs posList (some (.posList st.lists.length)))
        { st with lists := st.lists ++ [[]] } := step_give rfl rfl
  have hdict (regs : Regs (Slot Val)) (st : Store Val World) :
      stepExit (sem P names consts) base (.buildDict kwDict e₂ 0 .unicode) regs st =
        .fall 0 (Function.update regs kwDict (some .kwDict)) st := step_give rfl rfl
  rw [run_append, run_single, hlist, Exit.bind, run_single, hdict]

theorem codes_callExpanded {obj posList kwDict e₁ e₂ idx n m k : ℕ} {codeT codeA : List Insn}
    (hT : Codes P base c codeT (fun r => r < m ∧ r ≠ obj) (eval P regOf target)
      (Kept P regOf target) fun a regs _ => regs obj = some (.obj a))
    (hA : AppendCodes P regOf base args posList k c codeA)
    (hget : ∀ names, c.names <+: names → names[idx]? = some name)
    (hobj : obj < posList) (hpos : posList < kwDict) (hkw : kwDict < k) (hn : n ≤ obj) (hm : n ≤ m)
    (hbase : base ≤ n) (hlen : 255 < args.length) :
    Codes P base c ((codeT ++ ([Insn.buildList posList e₁ 0] ++
        [Insn.buildDict kwDict e₂ 0 .unicode])) ++
        (codeA ++ [Insn.callMethodExpanded obj obj idx posList kwDict])) (· < n)
      (eval P regOf (.methodCall target name args)) (Kept P regOf (.methodCall target name args))
      fun a regs _ => regs obj = some (.obj a) := by
  intro names consts hnames hconsts ρ regs st hρ
  simp only [eval, Kept]
  have hb : base ≤ obj := hbase.trans hn
  have hprefix : Meets P base (· < n) regs st.lists ((eval P regOf target).run ρ st.world)
      (fun a regs' st' => regs' obj = some (.obj a) ∧ regs' kwDict = some .kwDict ∧
        ∃ lists, st.lists <+: lists ∧ regs' posList = some (.posList lists.length) ∧
          st'.lists = lists ++ []::[]) (Kept P regOf target ρ st.world)
      (run (sem P names consts) base (codeT ++
        ([Insn.buildList posList e₁ 0] ++ [Insn.buildDict kwDict e₂ 0 .unicode])) 0 regs st) := by
    rw [run_append]
    refine (hT names consts hnames hconsts ρ regs st hρ).after ?_ ?_
    · intro r hr
      exact ⟨Nat.lt_of_lt_of_le hr hm, Nat.ne_of_lt (Nat.lt_of_lt_of_le hr hn)⟩
    intro a ρ₁ regs₁ st₁ he ha
    refine ⟨_, _, run_builds regs₁ st₁, ⟨?_, ?_, rfl, he.2.2.2.trans (List.prefix_append _ _)⟩, ?_,
      ?_, st₁.lists, he.2.2.2, ?_, rfl⟩
    · exact (he.1.update (by omega) _).update (by omega) _
    · intro r _ (hr : r < n)
      rw [Function.update_of_ne (Nat.ne_of_lt (by omega)),
        Function.update_of_ne (Nat.ne_of_lt (by omega))]
    · rw [Function.update_of_ne (Nat.ne_of_lt (by omega)),
        Function.update_of_ne (Nat.ne_of_lt hobj), ha]
    · exact Function.update_self ..
    · rw [Function.update_of_ne (Nat.ne_of_lt hpos), Function.update_self]
  rw [run_append]
  refine Meets.bind _ hprefix (fun _ hr => hr) ?_
  rintro a ρ₁ w₁ regs₁ st₁ _ he₁ ⟨ha, hd, lists, hpre, hp, hl⟩
  rw [run_append, ← he₁.2.2.1]
  refine (Meets.bind _ (hA names consts hnames hconsts ρ₁ regs₁ st₁ lists [] [] he₁.1 hp hl) ?_
    ?_).lower hpre
  · intro r hr
    exact Nat.lt_of_lt_of_le hr (by omega)
  rintro vs ρ₂ w₂ regs₂ st₂ _ he₂ ⟨rest, hl₂⟩
  have hpk : posList < k := Nat.lt_trans hpos hkw
  have hok : obj < k := Nat.lt_trans hobj hpk
  have ha₂ : regs₂ obj = some (.obj a) := by rw [he₂.2.1 obj hb hok, ha]
  have hp₂ : regs₂ posList = some (.posList lists.length) := by
    rw [he₂.2.1 posList (by omega) hpk, hp]
  have hd₂ : regs₂ kwDict = some .kwDict := by rw [he₂.2.1 kwDict (by omega) hkw, hd]
  have hat : st₂.lists[lists.length]? = some vs := by
    rw [hl₂]
    simp
  have hact : act P names (Insn.callMethodExpanded obj obj idx posList kwDict).shape
      (operands base (.callMethodExpanded obj obj idx posList kwDict) regs₂) st₂ =
        .apply P (.callMethod a name vs) st₂ := by
    have hregs : [obj, posList, kwDict].map regs₂ =
        [Slot.obj a, .posList lists.length, .kwDict].map some := by
      simp only [List.map_cons, List.map_nil, ha₂, hp₂, hd₂]
    rw [operands_set _ rfl hregs]
    exact act_callMethodExpanded (hget names hnames) hat
  rw [← he₂.2.2.1]
  refine Meets.lower (Meets.congr (Meets.apply names consts (.callMethod a name vs) he₂.1 rfl hb ?_
    hact) ?_) he₂.2.2.2
  · exact Nat.not_lt.mpr hn
  · simp [Nat.not_le.mpr hlen]

variable [DecidableEq Lit]

theorem receiver_ok (hreg : ∀ x r, regOf x = some r → r < base) (hT : ExprOk P regOf base target)
    (hc : Wf regOf base c) {obj : Reg} (hb : base ≤ obj) (hlt : obj < c.nextTemp) :
    ∃ c' code, (match localReceiver c.localReg target with
        | some reg => c.emit (.move obj reg)
        | none => exprInto obj c (compileExpr target c)) = c' ∧ Emits c c' code ∧
      c.nextTemp ≤ c'.nextTemp ∧
      Codes P base c' code (fun r => r < c.nextTemp ∧ r ≠ obj) (eval P regOf target)
        (Kept P regOf target) fun a regs _ => regs obj = some (.obj a) := by
  rw [hc.localReg]
  cases hr : localReceiver regOf target with
  | some reg =>
    obtain ⟨-, hcT⟩ := codes_receiver hreg (P := P) (c := c.emit (.move obj reg)) hr
    refine ⟨_, [] ++ [Insn.move obj reg], rfl, (Emits.refl c).emit _, le_rfl, codes_move ?_ hb⟩
    intro names consts hnames hconsts ρ regs st hρ
    exact (hcT names consts hnames hconsts ρ regs st hρ).mono (fun _ _ _ => trivial) List.prefix_rfl
      fun _ _ _ _ _ _ hp => hp
  | none =>
    obtain ⟨r, c₁, codeE, hx, h⟩ := hT c hc
    obtain ⟨codeT, hemT, hnT, hcT⟩ := exprInto_ok hreg hc h hb hlt
    exact ⟨_, codeT, by rw [hx], hemT, hnT, hcT⟩

/-- A long call behind its receiver. -/
def longCall (name : String) (args : Args Lit) (obj : Reg) (c : Compiler Lit) :
    Reg × Compiler Lit :=
  let (idx, c) := c.internName name
  let (posList, c) := c.allocTemp
  let (emptyList, c) := c.allocTemp
  let c := c.emit (.buildList posList emptyList 0)
  let (kwDict, c) := c.allocTemp
  let (emptyDict, c) := c.allocTemp
  let c := c.emit (.buildDict kwDict emptyDict 0 .unicode)
  let c := appendArgs args posList c
  let c := c.emit (.callMethodExpanded obj obj idx posList kwDict)
  (obj, { c with nextTemp := obj+1 })

theorem compileExpr_longCall (hlen : 255 < args.length) (c : Compiler Lit) :
    compileExpr (.methodCall target name args) c = longCall name args c.nextTemp
      (match localReceiver c.localReg target with
        | some reg => Compiler.emit { c with nextTemp := c.nextTemp+1 } (.move c.nextTemp reg)
        | none => exprInto c.nextTemp { c with nextTemp := c.nextTemp+1 }
          (compileExpr target { c with nextTemp := c.nextTemp+1 })) := by
  simp only [compileExpr, if_pos hlen]
  rfl

theorem longCall_ok (hreg : ∀ x r, regOf x = some r → r < base) (hlen : 255 < args.length)
    (hT : ExprOk P regOf base target) (hA : AppendOk P regOf base args) :
    ExprOk P regOf base (.methodCall target name args) := by
  intro c hc
  have hb := hc.temp
  have hem₁ := (Emits.refl c).setTemp (c.nextTemp+1)
  have hw₁ := hc.emits hem₁ (Nat.le_succ_of_le hb)
  obtain ⟨c₂, codeT, hmatch, hem₂, hn₂, hcT⟩ := receiver_ok hreg hT hw₁ hb (Nat.lt_succ_self _)
  rw [compileExpr_longCall hlen, hmatch]
  obtain ⟨idx, c₃, hI, hem₃, hn₃, hget⟩ := internName_spec c₂ name
  simp only [longCall, hI, Compiler.allocTemp, Compiler.emit]
  -- the state with the two private registers built
  generalize hd : ({ c₃ with
    nextTemp := c₃.nextTemp+1+1+1+1
    insns := c₃.insns ++ [Insn.buildList c₃.nextTemp (c₃.nextTemp+1) 0] ++
      [Insn.buildDict (c₃.nextTemp+1+1) (c₃.nextTemp+1+1+1) 0 .unicode] } : Compiler Lit) = d
  have hem₄ : Emits c₃ d ([Insn.buildList c₃.nextTemp (c₃.nextTemp+1) 0] ++
      [Insn.buildDict (c₃.nextTemp+1+1) (c₃.nextTemp+1+1+1) 0 .unicode]) := by
    rw [← hd]
    exact ⟨List.append_assoc _ _ _, rfl, rfl, List.prefix_rfl, List.prefix_rfl⟩
  have hnd : d.nextTemp = c₃.nextTemp+4 := by rw [← hd]
  have hobj : c.nextTemp < c₃.nextTemp := by
    rw [hn₃]
    exact hn₂
  have hemd := hem₁.trans (hem₂.trans (hem₃.trans hem₄))
  have hwd := hc.emits hemd (by rw [hnd]; exact hb.trans (Nat.le_of_lt (Nat.lt_add_right 4 hobj)))
  obtain ⟨codeA, hemA, -, hcA⟩ := hA d c₃.nextTemp hwd (hb.trans (Nat.le_of_lt hobj))
    (by rw [hnd]; exact Nat.lt_add_of_pos_right (by omega))
  have htabs := hem₃.trans (hem₄.trans hemA)
  refine ⟨_, _, (codeT ++ ([Insn.buildList c₃.nextTemp (c₃.nextTemp+1) 0] ++
    [Insn.buildDict (c₃.nextTemp+1+1) (c₃.nextTemp+1+1+1) 0 .unicode])) ++ (codeA ++
      [Insn.callMethodExpanded c.nextTemp c.nextTemp idx c₃.nextTemp (c₃.nextTemp+1+1)]), rfl, ?_,
    Nat.le_succ _, .inr ⟨rfl, le_rfl, Nat.lt_succ_self _⟩, ?_⟩
  · have hall := (((hem₁.trans (hem₂.trans (hem₃.trans (hem₄.trans hemA)))).emit
      (.callMethodExpanded c.nextTemp c.nextTemp idx c₃.nextTemp (c₃.nextTemp+1+1))).setTemp
        (c.nextTemp+1))
    simp only [List.nil_append, List.append_assoc] at hall ⊢
    exact hall
  · apply codes_callExpanded (hcT.tables htabs.names htabs.consts) hcA
    · intro names hnames
      exact hget names ((hem₄.trans hemA).names.trans hnames)
    · exact hobj
    · exact Nat.lt_succ_of_lt (Nat.lt_succ_self _)
    · rw [hnd]
      exact Nat.add_lt_add_left (by omega) _
    · exact le_rfl
    · exact Nat.le_succ _
    · exact hb
    · exact hlen

end longCalls

section all
variable {Lit Val World : Type} [DecidableEq Lit] {P : Prims Lit Val World}
  {regOf : String → Option Reg} {base : ℕ} (hreg : ∀ x r, regOf x = some r → r < base)
include hreg

mutual

theorem expr_ok : ∀ e : Expr Lit, ExprOk P regOf base e
  | .none => none_ok
  | .lit v => lit_ok v
  | .var name => var_ok hreg name
  | .unary op e => unary_ok hreg op (expr_ok e)
  | .binary left op right =>
    if hop : op = .and ∨ op = .or then shortCircuit_ok hreg hop (expr_ok left) (expr_ok right)
    else binary_ok hreg hop (expr_ok left) (expr_ok right)
  | .compare left (.last op right) => compare_last_ok hreg op (expr_ok left) (expr_ok right)
  | .compare left (.more op right rest) =>
    compare_more_ok hreg (expr_ok left) (more_ok hreg op (expr_ok right) (chain_ok rest))
  | .attr target name => attr_ok hreg name (expr_ok target)
  | .index target idx => index_ok hreg (expr_ok target) (expr_ok idx)
  | .slice target lower upper step =>
    slice_ok hreg (expr_ok target) (bound_ok lower) (bound_ok upper) (bound_ok step)
  | .methodCall target _ args =>
    if hlen : 255 < args.length then longCall_ok hreg hlen (expr_ok target) (append_args_ok args)
    else methodCall_ok hreg (Nat.not_lt.mp hlen) (expr_ok target) (call_args_ok args)
  | .ternary cond thenE elseE =>
    ternary_ok hreg (expr_ok cond) (expr_ok thenE) (expr_ok elseE)
  | .named name value => named_ok hreg name (expr_ok value)

theorem chain_ok : ∀ ops : Comparisons Lit, ChainOk P regOf base ops
  | .last op right => last_ok hreg op (expr_ok right)
  | .more op right rest => more_ok hreg op (expr_ok right) (chain_ok rest)

theorem bound_ok : ∀ b : Bound Lit, BoundOk P regOf base b
  | .absent => absent_ok
  | .present e => present_ok hreg (expr_ok e)

theorem call_args_ok : ∀ args : Args Lit, ArgsOk P regOf base args
  | .nil => no_args_ok
  | .cons arg rest => args_ok hreg (expr_ok arg) (call_args_ok rest)

theorem append_args_ok : ∀ args : Args Lit, AppendOk P regOf base args
  | .nil => append_nil_ok
  | .cons arg rest => append_ok hreg (expr_ok arg) (append_args_ok rest)

end

end all

section results
variable {Lit Val World : Type} [DecidableEq Lit]

/-- Named locals lie below the temporaries. -/
structure Ready (c : Compiler Lit) : Prop where
  temp : c.baseTemp ≤ c.nextTemp
  locals : ∀ x r, c.localReg x = some r → r < c.baseTemp

/-- The instructions an expression is compiled to. -/
def emitted (e : Expr Lit) (c : Compiler Lit) : List Insn :=
  (compileExpr e c).2.insns.drop c.insns.length

/-- Executing the code of an expression gives what its evaluation gives: the value in the register
that is returned, or the raise, with the same world, and so the same operations in the same order,
the same locals, and every temporary that was in use before. -/
def Evaluates (P : Prims Lit Val World) (e : Expr Lit) (c : Compiler Lit) (names : List String)
    (consts : List Lit) (ρ : Env Val) (regs : Regs (Slot Val)) (st : Store Val World) : Prop :=
  let exit := run (sem P names consts) c.baseTemp (emitted e c) 0 regs st
  match (eval P c.localReg e).run ρ st.world with
  | .value a ρ' w => ∃ regs' st', exit = .fall 0 regs' st' ∧
      Ends c.baseTemp (· < c.nextTemp) regs st.lists ρ' w regs' st' ∧
      regs' (compileExpr e c).1 = some (.obj a)
  | .raised ρ' w => ∃ regs' st', exit = .raised regs' st' ∧
      Ends c.baseTemp (· < c.nextTemp) regs st.lists ρ' w regs' st'
  | .outside => True

variable {P : Prims Lit Val World} {e : Expr Lit} {c : Compiler Lit} {names : List String}
  {consts : List Lit} {ρ : Env Val} {regs : Regs (Slot Val)} {st : Store Val World}

theorem meets_emitted (hc : Ready c) (hnames : (compileExpr e c).2.names <+: names)
    (hconsts : (compileExpr e c).2.consts <+: consts) (hρ : Holds c.baseTemp ρ regs) :
    Meets P c.baseTemp (· < c.nextTemp) regs st.lists ((eval P c.localReg e).run ρ st.world)
      (fun a regs' _ => regs' (compileExpr e c).1 = some (.obj a)) (Kept P c.localReg e ρ st.world)
      (run (sem P names consts) c.baseTemp (emitted e c) 0 regs st) := by
  obtain ⟨r, c', code, hx, h⟩ := expr_ok (P := P) hc.locals e c ⟨rfl, rfl, hc.temp⟩
  have hcode : emitted e c = code := by rw [emitted, hx, h.emits.insns, List.drop_left]
  rw [hx] at hnames hconsts ⊢
  rw [hcode]
  exact h.codes names consts hnames hconsts ρ regs st hρ

/-- Compiled expressions evaluate as they should exactly when no local changes between its
evaluation as an operand and the operation on that operand. -/
theorem compileExpr_evaluates_iff (hc : Ready c) (hnames : (compileExpr e c).2.names <+: names)
    (hconsts : (compileExpr e c).2.consts <+: consts) (hρ : Holds c.baseTemp ρ regs)
    (hread : (eval P c.localReg e).run ρ st.world ≠ .outside) :
    Evaluates P e c names consts ρ regs st ↔ Kept P c.localReg e ρ st.world := by
  have h := @meets_emitted Lit Val World _ P e c names consts ρ regs st hc hnames hconsts hρ
  simp only [Evaluates]
  cases hres : (eval P c.localReg e).run ρ st.world with
  | outside => exact absurd hres hread
  | value a ρ' w =>
    rw [hres] at h
    constructor
    · rintro ⟨regs', st', hx, he, -⟩
      refine (h.resolve_right ?_).1
      rintro ⟨-, hd⟩
      rw [hx] at hd
      exact Mismatch.ne hd (by rw [he.2.2.1])
    · intro hk
      exact (h.resolve_right fun hn => hn.1 hk).2
  | raised ρ' w =>
    rw [hres] at h
    constructor
    · rintro ⟨regs', st', hx, he⟩
      refine (h.resolve_right ?_).1
      rintro ⟨-, hd⟩
      rw [hx] at hd
      exact Mismatch.ne hd (by rw [he.2.2.1])
    · intro hk
      exact (h.resolve_right fun hn => hn.1 hk).2

/-- Inside a code object, the frame comes to the end of the code, or to an instruction of it that
raises. -/
theorem evaluates_reaches (h : Evaluates P e c names consts ρ regs st) {code : Code}
    {pre post : List Insn} (hcode : code.insns = pre ++ (emitted e c ++ post)) (hs : List ℕ) :
    match (eval P c.localReg e).run ρ st.world with
    | .value a ρ' w => ∃ regs' st',
        Reaches (sem P names consts) c.baseTemp code ⟨pre.length, regs, st, hs⟩
          ⟨pre.length+(emitted e c).length, regs', st', hs⟩ ∧
        Ends c.baseTemp (· < c.nextTemp) regs st.lists ρ' w regs' st' ∧
        regs' (compileExpr e c).1 = some (.obj a)
    | .raised ρ' w => ∃ t regs' st',
        Reaches (sem P names consts) c.baseTemp code ⟨pre.length, regs, st, hs⟩ t ∧
        Raising (sem P names consts) c.baseTemp code t regs' st' ∧
        Ends c.baseTemp (· < c.nextTemp) regs st.lists ρ' w regs' st'
    | .outside => True := by
  simp only [Evaluates] at h
  cases hres : (eval P c.localReg e).run ρ st.world with
  | outside => trivial
  | value a ρ' w =>
    rw [hres] at h
    obtain ⟨regs', st', hx, he, ha⟩ := h
    exact ⟨regs', st', run_fall hcode hx (Nat.zero_le _) hs, he, ha⟩
  | raised ρ' w =>
    rw [hres] at h
    obtain ⟨regs', st', hx, he⟩ := h
    obtain ⟨t, hreach, -, -, -, hraise⟩ := run_raised hcode hx hs
    exact ⟨t, regs', st', hreach, hraise, he⟩

end results

section integers

/-- Integers with sums and products, on a record of the operations. -/
def integers : Prims ℤ ℤ (List (Operation ℤ)) where
  literal v := v
  none := 0
  apply op w := (match op with
    | .binary .add a b => some (a+b)
    | .binary .mul a b => some (a*b)
    | _ => none, w ++ [op])
  truth v w := (some (decide (v ≠ 0)), w)
  log w := w
  log_apply _ _ := List.prefix_rfl
  log_truth _ _ := List.prefix_rfl

/-- A function with one local, which is bound. -/
def oneLocal : Compiler ℤ where
  localReg name := if name = "x" then some 0 else none
  isFunctionCell _ := false
  baseTemp := 1
  nextTemp := 1
  insns := []
  consts := []
  names := []
  defSet := 1

theorem oneLocal_ready : Ready oneLocal := by
  refine ⟨le_rfl, ?_⟩
  intro x r h
  simp only [oneLocal] at h ⊢
  split at h
  · cases h
    exact Nat.one_pos
  · cases h

def onlyX (v : ℤ) : Env ℤ := fun r => if r = 0 then some v else none

/-- `x + (x := 5)`. -/
def sumReassigned : Expr ℤ := .binary (.var "x") .add (.named "x" (.lit 5))

/-- `(x := x + 2) * x`. -/
def assignedProduct : Expr ℤ :=
  .binary (.named "x" (.binary (.var "x") .add (.lit 2))) .mul (.var "x")

/-- From `x = 1`, the sum is `6` and the code computes `10`. -/
theorem sumReassigned_fails :
    (eval integers oneLocal.localReg sumReassigned).run (onlyX 1) [] ≠ .outside ∧
    ¬Evaluates integers sumReassigned oneLocal [] [5] (onlyX 1) (fun r => (onlyX 1 r).map .obj)
      ⟨[], []⟩ := by
  constructor
  · intro h
    cases h
  · rintro ⟨regs', st', hx, -, hv⟩
    have hreg : regs' 1 = some (.obj 10) := by
      cases hx
      rfl
    have hv' : regs' 1 = some (.obj 6) := hv
    rw [hreg] at hv'
    revert hv'
    decide

theorem assignedProduct_evaluates :
    Evaluates integers assignedProduct oneLocal [] [2] (onlyX 1)
      (fun r => (onlyX 1 r).map .obj) ⟨[], []⟩ := by
  refine (compileExpr_evaluates_iff oneLocal_ready ?_ ?_ (fun _ _ => rfl) ?_).mpr ?_
  · decide
  · decide
  · intro h
    cases h
  · simp only [assignedProduct, Kept, Comp.Then, Stays, bareLocal]
    refine ⟨⟨trivial, trivial, ?_⟩, trivial, ?_⟩ <;> intro r hr <;> cases hr
    rfl

end integers

end Pyrust.CompiledExpressions
