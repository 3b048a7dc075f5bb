import Pyrust.NameScopes
import Pyrust.SparedExpressions

/-!
# Stores into containers

The statements that store into an element or a slice of a container, update it or
delete it. The container is loaded first. A container that is no local is written
back to its name at the end, and by then the sub-expressions and the methods of
the container may have bound that name anew.
-/

set_option autoImplicit false

namespace Pyrust.ItemStatements

open Bytecode Machine CompilerCore Expressions Fragment ExpressionCorrect CompiledExpressions
  SparedRegisters SparedExpressions NameScopes
open ExpressionRuns (run_single)

/-- Where a statement stands. -/
structure Place where
  isModuleScope : Bool
  isClassBody : Bool
  classDirectEnvNames : String → Bool

/-- A sub-expression: code with a value that keeps the temporaries in use. -/
structure SubExpr (Lit : Type) where
  compile : Compiler Lit → Reg × Compiler Lit
  spares : ∀ base n c, At base n c → Spared base n c (compile c).2 ∧ Free base n (compile c).1

/-- The right operand of an augmented assignment, as `emit_aug_binop` tells them apart. -/
inductive AugOperand (Lit : Type) where
  | imm (v : ℤ)
  | folded (v : Lit)
  | expr (e : SubExpr Lit)

inductive ItemStmt (Lit : Type) where
  | indexAssign (index expr : SubExpr Lit)
  | sliceAssign (lower upper step : Option (SubExpr Lit)) (expr : SubExpr Lit)
  | indexAug (index : SubExpr Lit) (op : BinaryOp) (rhs : AugOperand Lit)
  | sliceAug (lower upper step : Option (SubExpr Lit)) (op : BinaryOp) (rhs : AugOperand Lit)
  | deleteIndex (index : SubExpr Lit)
  | deleteSlice (lower upper step : Option (SubExpr Lit))

section compile
variable {Lit : Type}

/-- The expressions that are modelled are sub-expressions. -/
def SubExpr.ofExpr [DecidableEq Lit] (e : Expr Lit) : SubExpr Lit :=
  ⟨compileExpr e, fun _ _ => expr_spares e⟩

/-- The load of a name that is no local. -/
def nameLoad (place : Place) (c : Compiler Lit) (name : String) (dst : Reg) (idx : ℕ) : Insn :=
  if place.isClassBody && !place.classDirectEnvNames name then
    .loadClassName dst noClassLocal idx
  else if c.isFunctionCell name then .loadCell dst idx
  else .loadGlobal dst idx

/-- `compile_expr` of the container's name. -/
def compileContainer (place : Place) (name : String) (c : Compiler Lit) : Reg × Compiler Lit :=
  match c.localReg name with
  | some reg =>
    if place.isClassBody then
      let (idx, c) := c.internName name
      let (dst, c) := c.allocTemp
      (dst, c.emit (.loadClassName dst reg idx))
    else if c.definitelyBound reg then (reg, c)
    else if place.isModuleScope then
      let (idx, c) := c.internName name
      let (dst, c) := c.allocTemp
      (dst, c.emit (.loadGlobal dst idx))
    else
      let (idx, c) := c.internName name
      (reg, c.emit (.checkLocal reg idx))
  | none =>
    let (idx, c) := c.internName name
    let (dst, c) := c.allocTemp
    (dst, c.emit (nameLoad place c name dst idx))

/-- `fill_slot`. -/
def fillSlot (slot : Reg) : Option (SubExpr Lit) → Compiler Lit → Compiler Lit
  | none, c => c.emit (.loadNone slot)
  | some e, c =>
    let (src, c) := e.compile c
    if src = slot then c else (c.emit (.move slot src)).freeTemp src

/-- `compile_slice_key`. -/
def compileSliceKey (lower upper step : Option (SubExpr Lit)) (c : Compiler Lit) :
    Reg × Compiler Lit :=
  let (lo, c) := c.allocTemp
  let (hi, c) := c.allocTemp
  let (st, c) := c.allocTemp
  let c := fillSlot st step (fillSlot hi upper (fillSlot lo lower c))
  let (slice, c) := c.allocTemp
  (slice, { c.emit (.buildSlice slice lo) with nextTemp := slice+1 })

/-- `writeback_container_if_global`. -/
def writebackContainerIfGlobal (name : String) (obj : Reg) (c : Compiler Lit) : Compiler Lit :=
  if (c.localReg name).isNone then
    let (idx, c) := c.internName name
    c.emit (.storeGlobal idx obj)
  else c

variable [DecidableEq Lit]

/-- `emit_aug_binop`. -/
def emitAugBinOp (reg : Reg) (op : BinaryOp) : AugOperand Lit → Compiler Lit → Compiler Lit
  | .imm v, c => c.emit (.binOpImm reg reg op v true)
  | .folded v, c =>
    let (idx, c) := c.internConst v
    c.emit (.binOpConst reg reg op idx true)
  | .expr e, c =>
    let (rhs, c) := e.compile c
    (c.emit (.binOpInPlace reg reg op rhs)).freeTemp rhs

/-- A statement on an element or a slice of the container of a name. -/
def compileItemStmt (place : Place) (name : String) : ItemStmt Lit → Compiler Lit → Compiler Lit
  | .indexAssign index expr, c =>
    let (obj, c) := compileContainer place name c
    let (idx, c) := index.compile c
    let (val, c) := expr.compile c
    let c := ((c.emit (.setItem obj idx val)).freeTemp val).freeTemp idx
    (writebackContainerIfGlobal name obj c).freeTemp obj
  | .sliceAssign lower upper step expr, c =>
    let (obj, c) := compileContainer place name c
    let (slice, c) := compileSliceKey lower upper step c
    let (val, c) := expr.compile c
    let c := c.emit (.setItem obj slice val)
    (((writebackContainerIfGlobal name obj c).freeTemp val).freeTemp slice).freeTemp obj
  | .indexAug index op rhs, c =>
    let (obj, c) := compileContainer place name c
    let (idx, c) := index.compile c
    let (lhs, c) := c.allocTemp
    let c := emitAugBinOp lhs op rhs (c.emit (.getItem lhs obj idx))
    let c := c.emit (.setItem obj idx lhs)
    (((writebackContainerIfGlobal name obj c).freeTemp lhs).freeTemp idx).freeTemp obj
  | .sliceAug lower upper step op rhs, c =>
    let (obj, c) := compileContainer place name c
    let (slice, c) := compileSliceKey lower upper step c
    let (lhs, c) := c.allocTemp
    let c := emitAugBinOp lhs op rhs (c.emit (.getItem lhs obj slice))
    let c := c.emit (.setItem obj slice lhs)
    (((writebackContainerIfGlobal name obj c).freeTemp lhs).freeTemp slice).freeTemp obj
  | .deleteIndex index, c =>
    let (obj, c) := compileContainer place name c
    let (idx, c) := index.compile c
    let c := c.emit (.deleteItem obj idx)
    ((writebackContainerIfGlobal name obj c).freeTemp idx).freeTemp obj
  | .deleteSlice lower upper step, c =>
    let (obj, c) := compileContainer place name c
    let (slice, c) := compileSliceKey lower upper step c
    let c := c.emit (.deleteItem obj slice)
    ((writebackContainerIfGlobal name obj c).freeTemp slice).freeTemp obj

end compile

section emission
variable {Lit : Type} {base n : Reg} {c : Compiler Lit} {place : Place} {name : String}

theorem fillSlot_spared (hc : At base n c) {r : Reg} (hslot : n ≤ r) :
    ∀ b : Option (SubExpr Lit), Spared base n c (fillSlot r b c)
  | none => hc.refl.emit_one rfl (.inr hslot)
  | some e => by
    obtain ⟨hs, hr⟩ := e.spares base n c hc
    simp only [fillSlot]
    split
    · exact hs
    · exact (hs.emit_one rfl (.inr hslot)).freeTemp hc.baseTemp hr

theorem sliceKey_spared (hc : At base n c) (lower upper step : Option (SubExpr Lit)) :
    Spared base n c (compileSliceKey lower upper step c).2 ∧
      n ≤ (compileSliceKey lower upper step c).1 := by
  have hslots := hc.refl.alloc.alloc.alloc
  have hlo := hc.temp
  have h₁ := hslots.trans (fillSlot_spared (hc.next hslots) hlo lower)
  have h₂ := h₁.trans (fillSlot_spared (r := c.nextTemp+1) (hc.next h₁)
    (Nat.le_succ_of_le hlo) upper)
  have h₃ := h₂.trans (fillSlot_spared (r := c.nextTemp+2) (hc.next h₂)
    (Nat.le_add_right_of_le hlo) step)
  exact ⟨(h₃.alloc.emit_one rfl (.inr h₃.le)).setTemp (Nat.le_succ_of_le h₃.le), h₃.le⟩

theorem writeback_local {reg : Reg} (h : c.localReg name = some reg) (obj : Reg) :
    writebackContainerIfGlobal name obj c = c := by
  rw [writebackContainerIfGlobal, h]
  rfl

theorem writeback_emits (h : c.localReg name = none) (obj : Reg) :
    ∃ idx, Emits c (writebackContainerIfGlobal name obj c) [.storeGlobal idx obj] ∧
      ∀ names, (writebackContainerIfGlobal name obj c).names <+: names →
        names[idx]? = some name := by
  obtain ⟨idx, c', hI, hem, -, hget⟩ := internName_spec c name
  refine ⟨idx, ?_, ?_⟩
  · simp only [writebackContainerIfGlobal, h, Option.isNone_none, if_true, hI]
    exact hem.emit _
  · simp only [writebackContainerIfGlobal, h, Option.isNone_none, if_true, hI]
    exact hget

/-- A container that is no local is loaded into a fresh temporary. -/
theorem container_load (place : Place) (h : c.localReg name = none) :
    ∃ idx c', compileContainer place name c = (c.nextTemp, c') ∧
      Emits c c' [nameLoad place c name c.nextTemp idx] ∧ c'.nextTemp = c.nextTemp+1 ∧
      ∀ names, c'.names <+: names → names[idx]? = some name := by
  obtain ⟨idx, c₀, hI, hem, htemp, hget⟩ := internName_spec c name
  have hcell : c₀.isFunctionCell = c.isFunctionCell := by
    have hc₀ : c₀ = (c.internName name).2 := by rw [hI]
    rw [hc₀, Compiler.internName]
    split <;> rfl
  refine ⟨idx, Compiler.emit { c₀ with nextTemp := c.nextTemp+1 }
    (nameLoad place c name c.nextTemp idx), ?_, (hem.setTemp _).emit _, rfl, hget⟩
  simp only [compileContainer, h, hI, Compiler.allocTemp, htemp, nameLoad, hcell]

theorem container_spared (hc : At base n c) :
    Spared base n c (compileContainer place name c).2 := by
  have hs := hc.refl.internName name
  simp only [compileContainer]
  split
  · split
    · exact hs.alloc.emit_one rfl (.inr hs.le)
    · split
      · exact hc.refl
      · split
        · exact hs.alloc.emit_one rfl (.inr hs.le)
        · exact hs.emit_none rfl
  · refine hs.alloc.emit_one (i := nameLoad _ _ _ _ _) ?_ (.inr hs.le)
    unfold nameLoad
    split
    · rfl
    · split <;> rfl

variable [DecidableEq Lit]

theorem augBinOp_spared (hc : At base n c) {reg : Reg} (hreg : n ≤ reg) (op : BinaryOp) :
    ∀ rhs : AugOperand Lit, Spared base n c (emitAugBinOp reg op rhs c)
  | .imm _ => hc.refl.emit_one rfl (.inr hreg)
  | .folded v => (hc.refl.internConst v).emit_one rfl (.inr hreg)
  | .expr e => by
    obtain ⟨hs, hr⟩ := e.spares base n c hc
    exact (hs.emit_one rfl (.inr hreg)).freeTemp hc.baseTemp hr

/-- Between the load of the container and its write-back, the temporaries that are in use behind
the load are kept. -/
theorem between_spared {c₁ : Compiler Lit} (hc : At base n c₁) {obj : Reg}
    (hload : compileContainer place name c = (obj, c₁)) (stmt : ItemStmt Lit) :
    ∃ c₂, Spared base n c₁ c₂ ∧
      Emits (writebackContainerIfGlobal name obj c₂) (compileItemStmt place name stmt c) [] := by
  cases stmt with
  | indexAssign index expr =>
    obtain ⟨hi, hidx⟩ := index.spares base n c₁ hc
    obtain ⟨hv, hval⟩ := expr.spares base n _ (hc.next hi)
    have hset := (hi.trans hv).emit_none (i := .setItem obj (index.compile c₁).1
      (expr.compile (index.compile c₁).2).1) rfl
    have hfree := (hset.freeTemp hc.baseTemp hval).freeTemp hc.baseTemp hidx
    simp only [compileItemStmt, hload]
    exact ⟨_, hfree, (Emits.refl _).freeTemp obj⟩
  | sliceAssign lower upper step expr =>
    obtain ⟨hk, -⟩ := sliceKey_spared hc lower upper step
    obtain ⟨hv, -⟩ := expr.spares base n _ (hc.next hk)
    simp only [compileItemStmt, hload]
    exact ⟨_, (hk.trans hv).emit_none rfl, (((Emits.refl _).freeTemp _).freeTemp _).freeTemp obj⟩
  | indexAug index op rhs =>
    obtain ⟨hi, -⟩ := index.spares base n c₁ hc
    have hget := hi.alloc.emit_one (i := .getItem (index.compile c₁).2.nextTemp obj
      (index.compile c₁).1) rfl (.inr hi.le)
    have haug := hget.trans (augBinOp_spared (hc.next hget) hi.le op rhs)
    simp only [compileItemStmt, hload]
    exact ⟨_, haug.emit_none rfl, (((Emits.refl _).freeTemp _).freeTemp _).freeTemp obj⟩
  | sliceAug lower upper step op rhs =>
    obtain ⟨hk, -⟩ := sliceKey_spared hc lower upper step
    have hget := hk.alloc.emit_one (i := .getItem
      (compileSliceKey lower upper step c₁).2.nextTemp obj
      (compileSliceKey lower upper step c₁).1) rfl (.inr hk.le)
    have haug := hget.trans (augBinOp_spared (hc.next hget) hk.le op rhs)
    simp only [compileItemStmt, hload]
    exact ⟨_, haug.emit_none rfl, (((Emits.refl _).freeTemp _).freeTemp _).freeTemp obj⟩
  | deleteIndex index =>
    obtain ⟨hi, -⟩ := index.spares base n c₁ hc
    simp only [compileItemStmt, hload]
    exact ⟨_, hi.emit_none rfl, ((Emits.refl _).freeTemp _).freeTemp obj⟩
  | deleteSlice lower upper step =>
    obtain ⟨hk, -⟩ := sliceKey_spared hc lower upper step
    simp only [compileItemStmt, hload]
    exact ⟨_, hk.emit_none rfl, ((Emits.refl _).freeTemp _).freeTemp obj⟩

end emission

section results
variable {Lit Val World : Type} [DecidableEq Lit]

/-- The instructions of a statement. -/
def emitted (place : Place) (name : String) (stmt : ItemStmt Lit) (c : Compiler Lit) : List Insn :=
  (compileItemStmt place name stmt c).insns.drop c.insns.length

/-- The instructions that load its container. -/
def containerLoad (place : Place) (name : String) (c : Compiler Lit) : List Insn :=
  (compileContainer place name c).2.insns.drop c.insns.length

/-- The instructions without the write-back, which is the last of them: the load, the
sub-expressions and the methods of the container. -/
def effects (place : Place) (name : String) (stmt : ItemStmt Lit) (c : Compiler Lit) : List Insn :=
  if (c.localReg name).isSome then emitted place name stmt c
  else (emitted place name stmt c).dropLast

/-- The opcodes in a frame of the statement: those that go by names do what they do, over a
table of names that extends the compiler's, and the others do anything. -/
def frameSem (env : Env) (place : Place) (name : String) (stmt : ItemStmt Lit) (c : Compiler Lit)
    (later : List String) (others : Sem Val (Store Val World)) : Sem Val (Store Val World) :=
  withNames env ((compileItemStmt place name stmt c).names ++ later) others

/-- The statement itself changes no binding: the load of the container leaves all of them as they
are, and in the end they are as the sub-expressions and the methods have left them. -/
def KeepsBindings (env : Env) (place : Place) (name : String) (stmt : ItemStmt Lit)
    (c : Compiler Lit) (later : List String) (others : Sem Val (Store Val World))
    (regs : Regs Val) (w : Store Val World) : Prop :=
  let sem := frameSem env place name stmt c later others
  boundAt c.baseTemp (run sem c.baseTemp (containerLoad place name c) 0 regs w) =
      some (view c.baseTemp regs, w.bindings) ∧
    boundAt c.baseTemp (run sem c.baseTemp (emitted place name stmt c) 0 regs w) =
      boundAt c.baseTemp (run sem c.baseTemp (effects place name stmt c) 0 regs w)

/-- The object that the name of a container stands for when it is loaded. -/
def container (env : Env) (place : Place) (name : String) (w : Store Val World) : Option Val :=
  if place.isClassBody && !place.classDirectEnvNames name then
    loadClassName w.bindings env name none
  else resolveName w.bindings env name

/-- The container is a local, or the name is bound to the object that was loaded in the scope it is
written back to, whenever the sub-expressions and the methods let the statement come so far. -/
def StaysBound (env : Env) (place : Place) (name : String) (stmt : ItemStmt Lit)
    (c : Compiler Lit) (later : List String) (others : Sem Val (Store Val World))
    (regs : Regs Val) (w : Store Val World) : Prop :=
  (c.localReg name).isSome ∨ ∀ regs' w',
    run (frameSem env place name stmt c later others) c.baseTemp (effects place name stmt c) 0 regs
      w = .fall 0 regs' w' →
    w'.bindings.values (env.assignScope name).id name = container env place name w

variable {env : Env} {place : Place} {name : String} {stmt : ItemStmt Lit} {c : Compiler Lit}
  {later : List String} {others : Sem Val (Store Val World)} {regs : Regs Val}
  {w : Store Val World} {base : ℕ}

theorem view_temp {dst : Reg} (h : base ≤ dst) (v : Option Val) :
    view base (Function.update regs dst v) = view base regs := by
  funext r
  unfold view
  split
  case isTrue hr => exact Function.update_of_ne (Nat.ne_of_lt (Nat.lt_of_lt_of_le hr h)) v regs
  case isFalse => rfl

/-- A load into a temporary changes no binding. -/
theorem boundAt_load {dst : Reg} (h : base ≤ dst) {found : Option Val}
    {exit : Exit Val (Store Val World)}
    (hx : exit = match found with
      | some v => .fall 0 (Function.update regs dst (some v)) w
      | none => .raised regs w) :
    boundAt base exit = some (view base regs, w.bindings) := by
  subst hx
  cases found with
  | some v => simp only [boundAt, view_temp h]
  | none => rfl

omit [DecidableEq Lit] in
theorem step_nameLoad {names : List String} {dst : Reg} {idx : ℕ} (hn : names[idx]? = some name) :
    stepExit (withNames env names others) base (nameLoad place c name dst idx) regs w =
      match container env place name w with
      | some v => .fall 0 (Function.update regs dst (some v)) w
      | none => .raised regs w := by
  unfold nameLoad container
  split
  · exact step_loadClassName hn
  · split
    · exact step_load (.inr rfl) hn
    · exact step_load (.inl rfl) hn

omit [DecidableEq Lit] in
/-- A write-back behind code that keeps the register of the container. -/
theorem writeback_iff {names : List String} {idx idx' : ℕ} {dst : Reg} {mid : List Insn}
    (hn : names[idx]? = some name) (hn' : names[idx']? = some name) (hdst : base ≤ dst)
    (hmid : Spares base (dst+1) mid) :
    boundAt base (run (withNames env names others) base
        (nameLoad place c name dst idx::mid ++ [Insn.storeGlobal idx' dst]) 0 regs w) =
      boundAt base (run (withNames env names others) base
        (nameLoad place c name dst idx::mid) 0 regs w) ↔
    ∀ regs' w', run (withNames env names others) base
        (nameLoad place c name dst idx::mid) 0 regs w = .fall 0 regs' w' →
      w'.bindings.values (env.assignScope name).id name = container env place name w := by
  rw [run_append]
  cases hx : run (withNames env names others) base (nameLoad place c name dst idx::mid) 0 regs w
    with
  | raised regs' w' => exact iff_of_true rfl fun _ _ h => by cases h
  | lost => exact iff_of_true rfl fun _ _ h => by cases h
  | fall k regs' w' =>
    cases k with
    | succ k => exact iff_of_true rfl fun _ _ h => by cases h
    | zero =>
      -- the load has found the container, and its register still holds it
      rw [run, step_nameLoad hn] at hx
      cases hfound : container env place name w with
      | none =>
        rw [hfound] at hx
        cases hx
      | some v =>
        rw [hfound] at hx
        have hobj : regs' dst = some v :=
          (run_spares hmid hx hdst (Nat.lt_succ_self dst)).trans (Function.update_self ..)
        have hstore := @step_storeGlobal Val World env names others base regs' w' dst idx' name v
          hn' hobj
        simp only [Exit.bind, run_single, hstore, boundAt, Option.some.injEq, Prod.mk.injEq,
          true_and, assignName_eq_iff]
        constructor
        · rintro h _ _ h'
          cases h'
          exact h
        · exact fun h => h regs' w' rfl

/-- The code of a statement on a container that is no local. -/
theorem emitted_parts (place : Place) (hc : Ready c) (hname : c.localReg name = none)
    (stmt : ItemStmt Lit) :
    ∃ idx idx' mid,
      containerLoad place name c = [nameLoad place c name c.nextTemp idx] ∧
      emitted place name stmt c =
        nameLoad place c name c.nextTemp idx::mid ++ [Insn.storeGlobal idx' c.nextTemp] ∧
      Spares c.baseTemp (c.nextTemp+1) mid ∧
      ∀ names, (compileItemStmt place name stmt c).names <+: names →
        names[idx]? = some name ∧ names[idx']? = some name := by
  obtain ⟨idx, c₁, hload, hem, htemp, hget⟩ := container_load place hname
  have hat : At c.baseTemp (c.nextTemp+1) c₁ := by
    refine ⟨hem.baseTemp, Nat.le_succ_of_le hc.temp, htemp.ge, fun x r hr => ?_⟩
    rw [hem.localReg] at hr
    exact hc.locals x r hr
  obtain ⟨c₂, ⟨mid, hmid, hspares, -⟩, hend⟩ := between_spared hat hload stmt
  have hname₂ : c₂.localReg name = none := by rw [hmid.localReg, hem.localReg, hname]
  obtain ⟨idx', hback, hget'⟩ := writeback_emits hname₂ c.nextTemp
  have hall := ((hem.trans hmid).trans hback).trans hend
  refine ⟨idx, idx', mid, ?_, ?_, hspares, fun names hnames => ⟨hget names ?_, hget' names ?_⟩⟩
  · rw [containerLoad, hload, hem.insns, List.drop_left]
  · rw [emitted, hall.insns, List.drop_left, List.append_nil]
    rfl
  · exact (((hmid.trans hback).trans hend).names.trans hnames)
  · exact hend.names.trans hnames

omit [DecidableEq Lit] in
/-- The load of a local container changes no binding. -/
theorem local_load (hc : Ready c) {reg : Reg} (hname : c.localReg name = some reg)
    {names : List String} (hnames : (compileContainer place name c).2.names <+: names) :
    boundAt c.baseTemp (run (withNames env names others) c.baseTemp
      (containerLoad place name c) 0 regs w) = some (view c.baseTemp regs, w.bindings) := by
  obtain ⟨idx, c₁, hI, hem, htemp, hget⟩ := internName_spec c name
  have hdst : c.baseTemp ≤ c₁.nextTemp := hc.temp.trans_eq htemp.symm
  unfold containerLoad
  simp only [compileContainer, hname, hI, Compiler.allocTemp] at hnames ⊢
  have hdrop (i : Insn) : (c₁.insns ++ [i]).drop c.insns.length = [i] := by
    rw [hem.insns, List.append_nil, List.drop_left]
  by_cases hclass : place.isClassBody
  · rw [if_pos hclass] at hnames ⊢
    rw [Compiler.emit, hdrop, run_single]
    exact boundAt_load hdst (step_loadClassName (hget names hnames))
  rw [if_neg hclass] at hnames ⊢
  by_cases hbound : c.definitelyBound reg
  · rw [if_pos hbound, List.drop_length]
    rfl
  rw [if_neg hbound] at hnames ⊢
  by_cases hmodule : place.isModuleScope
  · rw [if_pos hmodule] at hnames ⊢
    rw [Compiler.emit, hdrop, run_single]
    exact boundAt_load hdst (step_load (.inl rfl) (hget names hnames))
  · rw [if_neg hmodule, Compiler.emit, hdrop, run_single, step_checkLocal]
    cases operandValue (operands c.baseTemp (.checkLocal reg idx) regs) <;> rfl

/-- The names of the load are in the tables of the statement. -/
theorem emitted_names (place : Place) (name : String) (hc : Ready c) (stmt : ItemStmt Lit) :
    (compileContainer place name c).2.names <+: (compileItemStmt place name stmt c).names := by
  have hat : At c.baseTemp c.baseTemp c := ⟨rfl, le_rfl, hc.temp, hc.locals⟩
  obtain ⟨c₂, ⟨mid, hmid, -, -⟩, hend⟩ := between_spared (hat.next (container_spared hat)) rfl stmt
  refine hmid.names.trans (List.IsPrefix.trans ?_ hend.names)
  cases hname : c₂.localReg name with
  | some reg => exact ⟨[], by rw [writeback_local hname, List.append_nil]⟩
  | none =>
    obtain ⟨idx, hback, -⟩ := writeback_emits hname (compileContainer place name c).1
    exact hback.names

/-- A container that is no local has to stay bound to the object that was loaded. -/
theorem keeps_nonlocal_iff (hc : Ready c) (hname : c.localReg name = none) :
    KeepsBindings env place name stmt c later others regs w ↔ ∀ regs' w',
      run (frameSem env place name stmt c later others) c.baseTemp (effects place name stmt c) 0
        regs w = .fall 0 regs' w' →
      w'.bindings.values (env.assignScope name).id name = container env place name w := by
  obtain ⟨idx, idx', mid, hload, hcode, hspares, hget⟩ := emitted_parts place hc hname stmt
  obtain ⟨hn, hn'⟩ := hget _ (List.prefix_append _ later)
  have heffects : effects place name stmt c = nameLoad place c name c.nextTemp idx::mid := by
    rw [effects, hname, hcode]
    exact List.dropLast_concat ..
  have hfirst : boundAt c.baseTemp (run (frameSem env place name stmt c later others) c.baseTemp
      [nameLoad place c name c.nextTemp idx] 0 regs w) =
        some (view c.baseTemp regs, w.bindings) := by
    rw [run_single]
    exact boundAt_load hc.temp (step_nameLoad hn)
  rw [KeepsBindings, hload, hcode, heffects]
  simp only [hfirst, true_and]
  exact writeback_iff hn hn' hc.temp hspares

/-- A statement on an element or a slice keeps the bindings exactly when its container is a local or
stays bound to the object that was loaded. -/
theorem item_statement_keeps_iff (hc : Ready c) :
    KeepsBindings env place name stmt c later others regs w ↔
      StaysBound env place name stmt c later others regs w := by
  cases hname : c.localReg name with
  | some reg =>
    have heffects : effects place name stmt c = emitted place name stmt c := by
      rw [effects, hname]
      rfl
    have hnames := (emitted_names place name hc stmt).trans (List.prefix_append _ later)
    rw [KeepsBindings, StaysBound, heffects, hname]
    exact iff_of_true ⟨local_load hc hname hnames, rfl⟩ (.inl rfl)
  | none =>
    rw [keeps_nonlocal_iff hc hname, StaysBound, hname]
    simp only [Option.isSome_none, Bool.false_eq_true, false_or]

/-- A container that was found elsewhere, in a scope around or among the builtins, is bound anew
where it is written back. -/
theorem new_binding (hc : Ready c) (hname : c.localReg name = none) {regs' : Regs Val}
    {w' : Store Val World} (hx : run (frameSem env place name stmt c later others) c.baseTemp
      (effects place name stmt c) 0 regs w = .fall 0 regs' w')
    (hfree : w'.bindings.values (env.assignScope name).id name = none)
    (hfound : container env place name w ≠ none) :
    ¬KeepsBindings env place name stmt c later others regs w := by
  rw [keeps_nonlocal_iff hc hname]
  intro h
  exact hfound ((h regs' w' hx).symm.trans hfree)

end results

section rebinding

/-- A function without locals. -/
def noLocals : Compiler ℤ where
  localReg _ := none
  isFunctionCell _ := false
  baseTemp := 0
  nextTemp := 0
  insns := []
  consts := []
  names := []
  defSet := 0

theorem noLocals_ready : Ready noLocals := ⟨le_rfl, fun _ _ h => by cases h⟩

def functionPlace : Place := ⟨false, false, fun _ => false⟩

/-- A function of a module that declares `global xs`. -/
def declaringFrame : NameScopes.Env where
  inner := ⟨1, fun _ => false, fun name => name = "xs", fun _ => false⟩
  outer := [⟨0, fun _ => false, fun _ => false, fun _ => false⟩]

/-- The module binds `xs` to an object. -/
def boundModule : NameScopes.Store ℤ Unit where
  bindings := ⟨fun id name => if id = 0 ∧ name = "xs" then some 7 else none, fun _ => none, none⟩
  rest := ()

/-- Methods that bind no name, and the constants `0` and `5`. -/
def quietMethods : Sem ℤ (NameScopes.Store ℤ Unit) where
  const i := 5*i
  none := 0
  exec _ _ locals w := ⟨w, locals, .next, fun _ => some 0, fun _ => false⟩
  unbound _ w := w
  caught := some

/-- `xs[(xs := 0)] = 5`. -/
def indexRebound : ItemStmt ℤ :=
  .indexAssign (.ofExpr (.named "xs" (.lit 0))) (.ofExpr (.lit 5))

/-- `xs[0] = 5`. -/
def indexPlain : ItemStmt ℤ := .indexAssign (.ofExpr (.lit 0)) (.ofExpr (.lit 5))

/-- The index has bound `xs` to `0`, and the statement binds it to the old object again. -/
theorem indexRebound_lost : ¬KeepsBindings declaringFrame functionPlace "xs" indexRebound
    noLocals [] quietMethods (fun _ => none) boundModule := by
  rintro ⟨-, h⟩
  have hxs := congrArg (Option.map fun b => b.2.values 0 "xs") h
  have hcode : (boundAt 0 (run (frameSem declaringFrame functionPlace "xs" indexRebound noLocals []
      quietMethods) 0 (emitted functionPlace "xs" indexRebound noLocals) 0 (fun _ => none)
      boundModule)).map (fun b => b.2.values 0 "xs") = some (some 7) := rfl
  have heffects : (boundAt 0 (run (frameSem declaringFrame functionPlace "xs" indexRebound noLocals
      [] quietMethods) 0 (effects functionPlace "xs" indexRebound noLocals) 0 (fun _ => none)
      boundModule)).map (fun b => b.2.values 0 "xs") = some (some 0) := rfl
  have hvalues := hcode.symm.trans (hxs.trans heffects)
  revert hvalues
  decide

theorem indexPlain_keeps :
    Ready noLocals ∧ (KeepsBindings declaringFrame functionPlace "xs" indexPlain noLocals []
        quietMethods (fun _ => none) boundModule ↔
      StaysBound declaringFrame functionPlace "xs" indexPlain noLocals [] quietMethods
        (fun _ => none) boundModule) :=
  ⟨noLocals_ready, item_statement_keeps_iff noLocals_ready⟩

end rebinding

end Pyrust.ItemStatements
