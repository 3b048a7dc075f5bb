import Pyrust.ExpressionRuns

/-!
# The compiler of expressions

One lemma for each form of expression: the compiler appends code, gives back a
register that is the local itself or a temporary it allocated, and the code meets
the evaluation. The forms are put together by the recursion of the syntax.
-/

set_option autoImplicit false

namespace Pyrust.ExpressionCorrect

open Bytecode Machine CompilerCore Expressions Fragment ExpressionValues ExpressionRuns

section patches

theorem modify_append {A : Type*} (a b : List A) (k : ℕ) (f : A → A) :
    (a ++ b).modify (a.length+k) f = a ++ b.modify k f := by
  induction a with
  | nil => simp
  | cons x a ih =>
    rw [List.cons_append, List.length_cons, Nat.add_right_comm, List.modify_succ_cons, ih]
    rfl

theorem patchAt_append (a b : List Insn) (k : ℕ) :
    patchAt (a.length+k) (a ++ b) = a ++ patchAt k b := by
  simp only [patchAt]
  rw [modify_append, List.length_append]
  congr 3
  funext x
  omega

/-- A patched jump leads past the code behind it. -/
theorem patchAt_cons (a b : List Insn) (i : Insn) :
    patchAt a.length (a ++ i::b) = a ++ i.fixOff (fun _ => b.length)::b := by
  have h := patchAt_append a (i::b) 0
  rw [Nat.add_zero] at h
  rw [h, patchAt, List.modify_zero_cons]
  congr 4
  funext x
  simp

end patches

section emits
variable {Lit : Type}

/-- The compiler has appended code, and has kept everything else that was settled. -/
structure Emits (c c' : Compiler Lit) (code : List Insn) : Prop where
  insns : c'.insns = c.insns ++ code
  localReg : c'.localReg = c.localReg
  baseTemp : c'.baseTemp = c.baseTemp
  consts : c.consts <+: c'.consts
  names : c.names <+: c'.names

namespace Emits
variable {c c' c'' : Compiler Lit} {code code' : List Insn}

theorem refl (c : Compiler Lit) : Emits c c [] :=
  ⟨by simp, rfl, rfl, List.prefix_rfl, List.prefix_rfl⟩

theorem trans (h : Emits c c' code) (h' : Emits c' c'' code') : Emits c c'' (code ++ code') where
  insns := by rw [h'.insns, h.insns, List.append_assoc]
  localReg := h'.localReg.trans h.localReg
  baseTemp := h'.baseTemp.trans h.baseTemp
  consts := h.consts.trans h'.consts
  names := h.names.trans h'.names

theorem emit (h : Emits c c' code) (i : Insn) : Emits c (c'.emit i) (code ++ [i]) where
  insns := by simp [Compiler.emit, h.insns]
  localReg := h.localReg
  baseTemp := h.baseTemp
  consts := h.consts
  names := h.names

/-- Which temporaries are in use and what is bound is no part of what is emitted. -/
theorem setTemp (h : Emits c c' code) (n : Reg) : Emits c { c' with nextTemp := n } code :=
  ⟨h.insns, h.localReg, h.baseTemp, h.consts, h.names⟩

theorem freeTemp (h : Emits c c' code) (r : Reg) : Emits c (c'.freeTemp r) code := by
  unfold Compiler.freeTemp
  split
  · exact h.setTemp _
  · exact h

theorem ensureDst (h : Emits c c' code) (r : Reg) : Emits c (c'.ensureDst r).2 code := by
  unfold Compiler.ensureDst
  split
  · exact h
  · exact h.setTemp _

theorem markDef (h : Emits c c' code) (r : Reg) : Emits c (c'.markDef r) code := by
  unfold Compiler.markDef
  split
  · exact ⟨h.insns, h.localReg, h.baseTemp, h.consts, h.names⟩
  · exact h

theorem internName (h : Emits c c' code) (n : String) : Emits c (c'.internName n).2 code := by
  unfold Compiler.internName
  split
  · exact h
  · exact ⟨h.insns, h.localReg, h.baseTemp, h.consts, h.names.trans (List.prefix_append _ _)⟩

theorem internConst [DecidableEq Lit] (h : Emits c c' code) (v : Lit) :
    Emits c (c'.internConst v).2 code := by
  unfold Compiler.internConst
  split
  · exact h
  · exact ⟨h.insns, h.localReg, h.baseTemp, h.consts.trans (List.prefix_append _ _), h.names⟩

theorem patchJump {k : ℕ} (h : Emits c c' code) :
    Emits c (c'.patchJump (c.insns.length+k)) (patchAt k code) where
  insns := by
    rw [Compiler.patchJump, h.insns]
    exact patchAt_append c.insns code k
  localReg := h.localReg
  baseTemp := h.baseTemp
  consts := h.consts
  names := h.names

end Emits

theorem internName_spec (c : Compiler Lit) (n : String) : ∃ idx c', c.internName n = (idx, c') ∧
    Emits c c' [] ∧ c'.nextTemp = c.nextTemp ∧
    ∀ names, c'.names <+: names → names[idx]? = some n := by
  refine ⟨(c.internName n).1, (c.internName n).2, rfl, (Emits.refl c).internName n, ?_, ?_⟩
  · unfold Compiler.internName
    split <;> rfl
  · rintro _ ⟨t, rfl⟩
    unfold Compiler.internName
    split
    · rename_i i hi
      obtain ⟨hlt, hget, -⟩ := List.idxOf?_eq_some_iff.mp hi
      rw [List.getElem?_append_left hlt, List.getElem?_eq_getElem hlt, hget]
    · simp

theorem internConst_spec [DecidableEq Lit] (c : Compiler Lit) (v : Lit) :
    ∃ idx c', c.internConst v = (idx, c') ∧ Emits c c' [] ∧ c'.nextTemp = c.nextTemp ∧
      ∀ consts, c'.consts <+: consts → consts[idx]? = some v := by
  refine ⟨(c.internConst v).1, (c.internConst v).2, rfl, (Emits.refl c).internConst v, ?_, ?_⟩
  · unfold Compiler.internConst
    split <;> rfl
  · rintro _ ⟨t, rfl⟩
    unfold Compiler.internConst
    split
    · rename_i i hi
      obtain ⟨hlt, hget, -⟩ := List.idxOf?_eq_some_iff.mp hi
      rw [List.getElem?_append_left hlt, List.getElem?_eq_getElem hlt, hget]
    · simp

theorem le_freeTemp {c : Compiler Lit} {n r : Reg} (hn : n ≤ c.nextTemp)
    (hr : r < c.baseTemp ∨ n ≤ r ∨ r+1 < c.nextTemp) : n ≤ (c.freeTemp r).nextTemp := by
  unfold Compiler.freeTemp
  split
  · rename_i h
    have h' : n ≤ r := (hr.resolve_left (Nat.not_lt.mpr h.1)).resolve_right h.2.not_lt
    exact Nat.le_sub_of_add_le (h.2 ▸ Nat.succ_le_succ h')
  · exact hn

end emits

section compiled
variable {Lit Val World : Type} {α : Type} (P : Prims Lit Val World)
  (regOf : String → Option Reg) (base : ℕ)

structure Wf (c : Compiler Lit) : Prop where
  localReg : c.localReg = regOf
  baseTemp : c.baseTemp = base
  temp : base ≤ c.nextTemp

/-- Code that meets a computation, over any tables that extend those of the compiler. -/
def Codes (c : Compiler Lit) (code : List Insn) (keep : Reg → Prop) (x : Comp P α)
    (k : Env Val → World → Prop) (post : α → Regs (Slot Val) → Store Val World → Prop) : Prop :=
  ∀ names consts, c.names <+: names → c.consts <+: consts → ∀ ρ regs st, Holds base ρ regs →
    Meets P base keep regs st.lists (x.run ρ st.world) post (k ρ st.world)
      (run (sem P names consts) base code 0 regs st)

/-- Where the value of an expression is: in its own local, or in a temporary. -/
def Placed (e : Expr Lit) (c c' : Compiler Lit) (r : Reg) : Prop :=
  bareLocal regOf e = some r ∨
    bareLocal regOf e = none ∧ c.nextTemp ≤ r ∧ r < c'.nextTemp

structure Compiled (e : Expr Lit) (c c' : Compiler Lit) (r : Reg) (code : List Insn) : Prop where
  emits : Emits c c' code
  temp : c.nextTemp ≤ c'.nextTemp
  place : Placed regOf e c c' r
  codes : Codes P base c' code (· < c.nextTemp) (eval P regOf e) (Kept P regOf e)
    fun a regs _ => regs r = some (.obj a)

def ExprOk [DecidableEq Lit] (e : Expr Lit) : Prop :=
  ∀ c, Wf regOf base c → ∃ r c' code,
    compileExpr e c = (r, c') ∧ Compiled P regOf base e c c' r code

variable {P regOf base} {e : Expr Lit} {c c' : Compiler Lit} {r : Reg} {code : List Insn}

theorem Wf.emits (h : Wf regOf base c) (he : Emits c c' code) (hn : base ≤ c'.nextTemp) :
    Wf regOf base c' :=
  ⟨he.localReg.trans h.localReg, he.baseTemp.trans h.baseTemp, hn⟩

theorem Codes.tables {keep : Reg → Prop} {x : Comp P α} {k : Env Val → World → Prop}
    {post : α → Regs (Slot Val) → Store Val World → Prop} (h : Codes P base c code keep x k post)
    (hn : c.names <+: c'.names) (hcs : c.consts <+: c'.consts) :
    Codes P base c' code keep x k post :=
  fun names consts hnames hconsts => h names consts (hn.trans hnames) (hcs.trans hconsts)

/-- The register of an operand: a local, or a temporary below `n`. -/
def OperandAt (place : Option Reg) (r : Reg) (base n : ℕ) : Prop :=
  place = some r ∧ r < base ∨ place = none ∧ base ≤ r ∧ r < n

/-- An operand behind the evaluation of another: a temporary is as it was, a local has the value
it then has. -/
theorem operand_after {place : Option Reg} {n : ℕ} {a : Val} {ρ ρ' : Env Val} {w' : World}
    {regs regs' : Regs (Slot Val)} {lists : List (List Val)} {st' : Store Val World}
    {keep : Reg → Prop} (h : OperandAt place r base n) (ha : regs r = some (.obj a))
    (hρ : Holds base ρ regs) (he : Ends base keep regs lists ρ' w' regs' st')
    (hgrow : ∀ r, ρ r ≠ none → ρ' r ≠ none) (hkeep : r < n → keep r) :
    ∃ a', regs' r = some (.obj a') ∧ (a' = a ↔ Stays place a ρ') := by
  rcases h with ⟨h, hlt⟩ | ⟨hn, h1, h2⟩
  · have hr := hρ r hlt
    rw [ha] at hr
    cases hx : ρ r with
    | none => simp [hx] at hr
    | some v =>
      cases hx' : ρ' r with
      | none => exact absurd hx' (hgrow r (by simp [hx]))
      | some a' =>
        have hr' := he.1 r hlt
        rw [hx'] at hr'
        refine ⟨a', hr', ?_⟩
        simp [Stays, h, hx']
  · refine ⟨a, ?_, ?_⟩
    · rw [he.2.1 r h1 (hkeep h2), ha]
    · simp [Stays, hn]

/-- The register of an operand below the last temporary is not freed. -/
theorem freeTemp_operand {place : Option Reg} {n : ℕ} (h : OperandAt place r base n)
    (hb : c.baseTemp = base) (hn : n < c.nextTemp) : c.freeTemp r = c := by
  unfold Compiler.freeTemp
  rw [if_neg]
  rintro ⟨hr, hr'⟩
  rcases h with ⟨-, h⟩ | ⟨-, -, h⟩
  · exact Nat.not_le.mpr h (hb ▸ hr)
  · exact Nat.not_le.mpr hn (hr' ▸ h)

section places
variable (hreg : ∀ x r, regOf x = some r → r < base)
include hreg

theorem bareLocal_lt {e : Expr Lit} (h : bareLocal regOf e = some r) : r < base := by
  match e with
  | .var name => exact hreg name r h
  | .named _ value => exact bareLocal_lt (e := value) h

theorem Placed.lt_or_le (hc : Wf regOf base c) (he : Emits c c' code)
    (h : Placed regOf e c c' r) : r < c'.baseTemp ∨ c.nextTemp ≤ r := by
  rw [he.baseTemp, hc.baseTemp]
  rcases h with h | h
  · exact .inl (bareLocal_lt hreg h)
  · exact .inr h.2.1

theorem ensureDst_spec (hc : Wf regOf base c) {d : Compiler Lit} (he : Emits c d code)
    (hn : c'.nextTemp ≤ d.nextTemp) (hn' : c.nextTemp ≤ c'.nextTemp) (h : Placed regOf e c c' r) :
    ∃ dst d', d.ensureDst r = (dst, d') ∧ Emits d d' [] ∧ c.nextTemp ≤ dst ∧ dst < d'.nextTemp ∧
      d.nextTemp ≤ d'.nextTemp ∧ (dst < c'.nextTemp ∨ dst = d.nextTemp) := by
  have hb : d.baseTemp = base := he.baseTemp.trans hc.baseTemp
  have hem := (Emits.refl d).ensureDst r
  refine ⟨(d.ensureDst r).1, (d.ensureDst r).2, rfl, hem, ?_⟩
  unfold Compiler.ensureDst
  rcases h with h | ⟨-, h1, h2⟩
  · have hlt := bareLocal_lt hreg h
    rw [if_neg (by rw [hb]; exact Nat.not_le.mpr hlt)]
    exact ⟨hn'.trans hn, Nat.lt_succ_self _, Nat.le_succ _, .inr rfl⟩
  · rw [if_pos (by rw [hb]; exact hc.temp.trans h1)]
    exact ⟨h1, Nat.lt_of_lt_of_le h2 hn, le_rfl, .inl h2⟩

/-- An operand that is a local, or a temporary below the given one. -/
theorem Placed.operand (hc : Wf regOf base c) (h : Placed regOf e c c' r) {n : Reg}
    (hn : c'.nextTemp ≤ n) : OperandAt (bareLocal regOf e) r base n := by
  rcases h with h | h
  · exact .inl ⟨h, bareLocal_lt hreg h⟩
  · exact .inr ⟨h.1, hc.temp.trans h.2.1, Nat.lt_of_lt_of_le h.2.2 hn⟩

end places

theorem then_true {x : Comp P α} {ρ : Env Val} {w : World} :
    x.Then (fun _ _ _ => True) ρ w ↔ True := by
  unfold Comp.Then
  split <;> simp

section forms
variable {c₁ c₂ c₃ : Compiler Lit} {lhs rhs dst : Reg} {left right : Expr Lit}
  {codeL codeR : List Insn} {i : Insn}

attribute [local simp] ExpressionValues.Kept ExpressionValues.eval in
/-- The code of an operand with an operation on it. -/
theorem one_operand (hL : Compiled P regOf base e c c₁ lhs codeL) (hc : Wf regOf base c)
    (op : Val → Operation Val) (hi : resultReg i = some dst) (hd : c.nextTemp ≤ dst)
    (hn : c₁.names <+: c'.names) (hcs : c₁.consts <+: c'.consts)
    (hact : ∀ names a regs st, c'.names <+: names → regs lhs = some (.obj a) →
      act P names i.shape (operands base i regs) st = .apply P (op a) st) :
    Codes P base c' (codeL ++ [i]) (· < c.nextTemp)
      (do let a ← eval P regOf e; Comp.apply (op a)) (Kept P regOf e)
      fun a regs _ => regs dst = some (.obj a) := by
  intro names consts hnames hconsts ρ regs st hρ
  rw [run_append]
  have h := hL.codes names consts (hn.trans hnames) (hcs.trans hconsts) ρ regs st hρ
  refine (Meets.bind (fun _ _ _ => True) h (fun _ hr => hr) ?_).congr ?_
  · intro a ρ' w' regs' st' _ he ha
    rw [← he.2.2.1]
    refine Meets.lower (Meets.congr (Meets.apply names consts (op a) he.1 hi (hc.temp.trans hd) ?_
      (hact names a regs' st' hnames ha)) ?_) he.2.2.2
    · exact Nat.not_lt.mpr hd
    · simp
  · rw [then_true, and_true]

/-- The code of two operands with an operation on them. The first may have changed by then. -/
theorem two_operands (hreg : ∀ x r, regOf x = some r → r < base)
    (hL : Compiled P regOf base left c c₁ lhs codeL)
    (hR : Compiled P regOf base right c₂ c₃ rhs codeR) (hc : Wf regOf base c)
    (h₂ : c₁.nextTemp ≤ c₂.nextTemp) (op : Val → Val → Operation Val)
    (hop : ∀ a a' b, op a' b = op a b ↔ a' = a) (hi : resultReg i = some dst)
    (hd : c.nextTemp ≤ dst) (hn₁ : c₁.names <+: c'.names) (hcs₁ : c₁.consts <+: c'.consts)
    (hn : c₃.names <+: c'.names) (hcs : c₃.consts <+: c'.consts)
    (hact : ∀ names a b regs st, regs lhs = some (.obj a) → regs rhs = some (.obj b) →
      act P names i.shape (operands base i regs) st = .apply P (op a b) st) :
    Codes P base c' (codeL ++ (codeR ++ [i])) (· < c.nextTemp)
      (do let a ← eval P regOf left; let b ← eval P regOf right; Comp.apply (op a b))
      (fun ρ w => Kept P regOf left ρ w ∧ (eval P regOf left).Then (fun a ρ w =>
        Kept P regOf right ρ w ∧ (eval P regOf right).Then (fun _ ρ _ =>
          Stays (bareLocal regOf left) a ρ) ρ w) ρ w)
      fun a regs _ => regs dst = some (.obj a) := by
  intro names consts hnames hconsts ρ regs st hρ
  rw [run_append]
  have h₁ := hL.codes names consts (hn₁.trans hnames) (hcs₁.trans hconsts) ρ regs st hρ
  refine Meets.bind _ h₁ (fun _ hr => hr) ?_
  intro a ρ₁ w₁ regs₁ st₁ _ he₁ ha
  rw [run_append]
  have hR₁ := hR.codes names consts (hn.trans hnames) (hcs.trans hconsts) ρ₁ regs₁ st₁ he₁.1
  rw [he₁.2.2.1] at hR₁
  have hle : c.nextTemp ≤ c₂.nextTemp := hL.temp.trans h₂
  refine (Meets.bind _ hR₁ (fun _ hr => Nat.lt_of_lt_of_le hr hle) ?_).lower he₁.2.2.2
  intro b ρ₂ w₂ regs₂ st₂ hres he₂ hb
  have hgrow := (eval P regOf right).grows ρ₁ w₁
  rw [hres] at hgrow
  obtain ⟨a', ha', hstay⟩ := operand_after (hL.place.operand hreg hc h₂) ha he₁.1 he₂ hgrow.1 id
  rw [← he₂.2.2.1]
  refine Meets.lower (Meets.congr (Meets.apply names consts (op a b) he₂.1 hi (hc.temp.trans hd) ?_
    (hact names a' b regs₂ st₂ ha' hb)) ((hop a a' b).trans hstay)) he₂.2.2.2
  exact Nat.not_lt.mpr hd

variable [DecidableEq Lit]

theorem none_ok : ExprOk P regOf base (.none : Expr Lit) := by
  intro c hc
  refine ⟨_, _, [.loadNone c.nextTemp], rfl, ((Emits.refl c).setTemp _).emit _, Nat.le_succ _,
    .inr ⟨rfl, le_rfl, Nat.lt_succ_self _⟩, ?_⟩
  intro names consts _ _ ρ regs st hρ
  rw [run_single, step_loadNone]
  refine .inl ⟨trivial, _, _, rfl, .update hρ hc.temp ?_ _ st, ?_⟩
  · exact Nat.lt_irrefl _
  · exact Function.update_self ..

attribute [local simp] Expressions.compileExpr in
-- the equations of the compiler are made once, ahead of the proofs that share them
attribute [local simp] compileExpr eval Kept in
theorem lit_ok (v : Lit) : ExprOk P regOf base (.lit v) := by
  intro c hc
  obtain ⟨idx, c₁, hI, hem, hn, hget⟩ := internConst_spec c v
  simp only [compileExpr, compileLiteral, hI, Compiler.allocTemp, hn]
  refine ⟨_, _, [.loadConst c.nextTemp idx], rfl, (hem.setTemp _).emit _, Nat.le_succ _,
    .inr ⟨rfl, le_rfl, Nat.lt_succ_self _⟩, ?_⟩
  intro names consts _ hconsts ρ regs st hρ
  rw [run_single, step_loadConst, hget consts hconsts]
  refine .inl ⟨trivial, _, _, rfl, .update hρ hc.temp ?_ _ st, ?_⟩
  · exact Nat.lt_irrefl _
  · exact Function.update_self ..

theorem var_ok (hreg : ∀ x r, regOf x = some r → r < base) (name : String) :
    ExprOk P regOf base (.var name : Expr Lit) := by
  intro c hc
  obtain ⟨idx, c₁, hI, hem, hn, -⟩ := internName_spec c name
  simp only [compileExpr, compileVar]
  rw [hc.localReg]
  cases hr : regOf name with
  | none =>
    -- no local: nothing is said of the evaluation
    simp only [hI, Compiler.allocTemp, hn]
    refine ⟨_, _, _, rfl, (hem.setTemp _).emit _, Nat.le_succ _,
      .inr ⟨hr, le_rfl, Nat.lt_succ_self _⟩, ?_⟩
    intro names consts _ _ ρ regs st _
    simp only [eval, hr]
    trivial
  | some reg =>
    have hlt := hreg name reg hr
    have hmeets {ρ : Env Val} {regs : Regs (Slot Val)} (st : Store Val World)
        (hρ : Holds base ρ regs) {exit : Exit (Slot Val) (Store Val World)}
        (hx : ∀ v, regs reg = some v → exit = .fall 0 regs st) :
        Meets P base (· < c.nextTemp) regs st.lists ((eval P regOf (.var name)).run ρ st.world)
          (fun a regs _ => regs reg = some (.obj a)) True exit := by
      have hread := hρ reg hlt
      simp only [eval, hr, Comp.readLocal, Option.bind_some]
      cases hv : ρ reg with
      | none => trivial
      | some v =>
        rw [hv] at hread
        exact .inl ⟨trivial, regs, st, hx _ hread, .refl hρ st, hread⟩
    by_cases hb : c.definitelyBound reg
    · simp only [hb, if_true]
      refine ⟨_, _, [], rfl, .refl c, le_rfl, .inl hr, ?_⟩
      intro names consts _ _ ρ regs st hρ
      exact hmeets st hρ fun _ _ => rfl
    · simp only [hb, hI]
      refine ⟨_, _, [.checkLocal reg idx], rfl, hem.emit _, hn.ge, .inl hr, ?_⟩
      intro names consts _ _ ρ regs st hρ
      refine hmeets st hρ fun v hv => ?_
      rw [run_single, step_checkLocal hv]

theorem unary_ok (hreg : ∀ x r, regOf x = some r → r < base) (op : UnaryOp)
    (hE : ExprOk P regOf base e) : ExprOk P regOf base (.unary op e) := by
  intro c hc
  obtain ⟨src, c₁, code, hx, h⟩ := hE c hc
  obtain ⟨dst, c₂, hy, hem, hd, hd', hn, -⟩ := ensureDst_spec hreg hc h.emits le_rfl h.temp h.place
  simp only [compileExpr, hx, hy]
  refine ⟨_, _, code ++ [Insn.unaryOp dst op src], rfl, ?_, h.temp.trans hn,
    .inr ⟨rfl, hd, hd'⟩, ?_⟩
  · simpa using (h.emits.trans hem).emit (.unaryOp dst op src)
  · apply one_operand h hc (.unary op) rfl hd hem.names hem.consts
    intro names a regs st _ ha
    have hregs : [src].map regs = [Slot.obj a].map some := congrArg (fun x => [x]) ha
    rw [operands_set _ rfl hregs]
    rfl

theorem attr_ok (hreg : ∀ x r, regOf x = some r → r < base) (name : String)
    (hE : ExprOk P regOf base e) : ExprOk P regOf base (.attr e name) := by
  intro c hc
  obtain ⟨obj, c₁, code, hx, h⟩ := hE c hc
  obtain ⟨idx, c₂, hI, hem₂, hn₂, hget⟩ := internName_spec c₁ name
  have hem := h.emits.trans hem₂
  obtain ⟨dst, c₃, hy, hem₃, hd, hd', hn, -⟩ := ensureDst_spec hreg hc hem hn₂.ge h.temp h.place
  simp only [compileExpr, hx, hI, hy]
  refine ⟨_, _, code ++ [Insn.getAttr dst obj idx], rfl, ?_, ?_, .inr ⟨rfl, hd, hd'⟩, ?_⟩
  · simpa using (hem.trans hem₃).emit (.getAttr dst obj idx)
  · exact (h.temp.trans hn₂.ge).trans hn
  · apply one_operand h hc (.getAttr · name) rfl hd (hem₂.names.trans hem₃.names)
      (hem₂.consts.trans hem₃.consts)
    intro names a regs st hnames ha
    have hregs : [obj].map regs = [Slot.obj a].map some := congrArg (fun x => [x]) ha
    rw [operands_set _ rfl hregs]
    exact act_getAttr (hget names (hem₃.names.trans hnames))

/-- A binary operation as the compiler emits it for operators and single comparisons. -/
def compileBinOp (left : Expr Lit) (op : BinaryOp) (right : Expr Lit) (c : Compiler Lit) :
    Reg × Compiler Lit :=
  let (lhs, c) := compileExpr left c
  let (dst, c) := c.ensureDst lhs
  let (rhs, c) := compileExpr right c
  (dst, (c.emit (.binOp dst lhs op rhs)).freeTemp rhs)

theorem binOp_ok (hreg : ∀ x r, regOf x = some r → r < base) (op : BinaryOp)
    (hL : ExprOk P regOf base left) (hR : ExprOk P regOf base right)
    (hbare : bareLocal regOf e = none) (hcomp : ∀ c, compileExpr e c = compileBinOp left op right c)
    (heval : eval P regOf e = do
      let a ← eval P regOf left
      let b ← eval P regOf right
      Comp.apply (.binary op a b))
    (hkept : Kept P regOf e = fun ρ w => Kept P regOf left ρ w ∧
      (eval P regOf left).Then (fun a ρ w => Kept P regOf right ρ w ∧
        (eval P regOf right).Then (fun _ ρ _ => Stays (bareLocal regOf left) a ρ) ρ w) ρ w) :
    ExprOk P regOf base e := by
  intro c hc
  obtain ⟨lhs, c₁, codeL, hx, h⟩ := hL c hc
  obtain ⟨dst, c₂, hy, hem, hd, hd', hn, -⟩ := ensureDst_spec hreg hc h.emits le_rfl h.temp h.place
  have hc₂ := hc.emits (h.emits.trans hem) ((hc.temp.trans h.temp).trans hn)
  obtain ⟨rhs, c₃, codeR, hz, h'⟩ := hR c₂ hc₂
  simp only [hcomp, compileBinOp, hx, hy, hz]
  have hle : dst+1 ≤ ((c₃.emit (.binOp dst lhs op rhs)).freeTemp rhs).nextTemp := by
    apply le_freeTemp
    · exact Nat.le_trans hd' h'.temp
    · exact (h'.place.lt_or_le hreg hc₂ h'.emits).imp_right fun h => .inl (Nat.le_trans hd' h)
  have hfree := ((Emits.refl c₃).emit (.binOp dst lhs op rhs)).freeTemp rhs
  have hall := (hem.trans h'.emits).trans hfree
  refine ⟨_, _, codeL ++ (codeR ++ [Insn.binOp dst lhs op rhs]), rfl, ?_, ?_,
    .inr ⟨hbare, hd, hle⟩, ?_⟩
  · simpa using h.emits.trans hall
  · exact hd.trans (Nat.le_of_succ_le hle)
  · rw [heval, hkept]
    apply two_operands hreg h h' hc hn (.binary op) (fun a a' b => by simp) rfl hd hall.names
      hall.consts hfree.names hfree.consts
    intro names a b regs st ha hb
    have hregs : [lhs, rhs].map regs = [Slot.obj a, .obj b].map some :=
      congrArg₂ (fun x y => [x, y]) ha hb
    rw [operands_set _ rfl hregs]
    rfl

theorem binary_ok (hreg : ∀ x r, regOf x = some r → r < base) {op : BinaryOp}
    (hop : ¬(op = .and ∨ op = .or)) (hL : ExprOk P regOf base left)
    (hR : ExprOk P regOf base right) : ExprOk P regOf base (.binary left op right) := by
  apply binOp_ok hreg op hL hR rfl
  · intro c
    simp only [compileExpr, if_neg hop, compileBinOp]
  · simp only [eval, if_neg hop]
  · funext ρ w
    simp only [Kept, if_neg hop]

attribute [local simp] ExpressionValues.KeptChain ExpressionValues.evalChain in
theorem compare_last_ok (hreg : ∀ x r, regOf x = some r → r < base) (op : CmpOp)
    (hL : ExprOk P regOf base left) (hR : ExprOk P regOf base right) :
    ExprOk P regOf base (.compare left (.last op right)) := by
  apply binOp_ok hreg op.toBinary hL hR rfl
  · intro c
    simp only [compileExpr, compileBinOp]
  · simp only [eval, evalChain]
  · funext ρ w
    simp only [Kept, KeptChain]

theorem index_ok (hreg : ∀ x r, regOf x = some r → r < base) (hL : ExprOk P regOf base left)
    (hR : ExprOk P regOf base right) : ExprOk P regOf base (.index left right) := by
  intro c hc
  obtain ⟨obj, c₁, codeL, hx, h⟩ := hL c hc
  have hc₁ := hc.emits h.emits (hc.temp.trans h.temp)
  obtain ⟨idx, c₂, codeR, hz, h'⟩ := hR c₁ hc₁
  obtain ⟨dst, c₃, hy, hem, hd, hd', hn, hor⟩ :=
    ensureDst_spec hreg hc (h.emits.trans h'.emits) h'.temp h.temp h.place
  simp only [compileExpr, hx, hy, hz]
  have hle : dst+1 ≤ ((c₃.emit (.getItem dst obj idx)).freeTemp idx).nextTemp := by
    apply le_freeTemp
    · exact hd'
    rcases h'.place with hb | ⟨-, hi, hi'⟩
    · left
      show idx < c₃.baseTemp
      rw [hem.baseTemp, h'.emits.baseTemp, hc₁.baseTemp]
      exact bareLocal_lt hreg hb
    · right
      rcases hor with hor | hor
      · exact .inl (Nat.le_trans hor hi)
      · -- the index lies below a destination allocated behind it
        exact .inr (Nat.lt_of_le_of_lt (hor ▸ hi') hd')
  have hfree := hem.trans (((Emits.refl c₃).emit (.getItem dst obj idx)).freeTemp idx)
  have hall := h'.emits.trans hfree
  refine ⟨_, _, codeL ++ (codeR ++ [Insn.getItem dst obj idx]), rfl, ?_, ?_,
    .inr ⟨rfl, hd, hle⟩, ?_⟩
  · simpa using h.emits.trans hall
  · exact hd.trans (Nat.le_of_succ_le hle)
  · simp only [eval, Kept]
    apply two_operands hreg h h' hc le_rfl .getItem (fun a a' b => by simp) rfl hd hall.names
      hall.consts hfree.names hfree.consts
    intro names a b regs st ha hb
    have hregs : [obj, idx].map regs = [Slot.obj a, .obj b].map some :=
      congrArg₂ (fun x y => [x, y]) ha hb
    rw [operands_set _ rfl hregs]
    rfl

end forms

section into
variable {names : List String} {consts : List Lit} {dst into d : Reg} {i i' : Insn}

/-- Two instructions that differ in their destination only. -/
theorem retarget_spec (h : retarget into i = some (d, i')) :
    i'.shape = i.shape ∧ operandRegs i' = operandRegs i ∧ i.isHandlerMark = false ∧
      i'.isHandlerMark = false ∧ i'.mayInvalidateNamedLocals = i.mayInvalidateNamedLocals ∧
      ∀ f, f = .next ∨ f = .raise → writesOn i f = [d] ∧ writesOn i' f = [into] := by
  cases i <;> cases h <;> refine ⟨rfl, rfl, rfl, rfl, rfl, ?_⟩ <;>
    rintro f (rfl | rfl) <;> exact ⟨rfl, rfl⟩

theorem retarget_flow (h : retarget into i = some (d, i')) (regs : Regs (Slot Val))
    (st : Store Val World) :
    (perform (sem P names consts) base i regs st).flow = .next ∨
      (perform (sem P names consts) base i regs st).flow = .raise := by
  cases i
  case forIter => exact .inr rfl
  case move dst src =>
    cases hv : regs src with
    | none => exact .inr (perform_move_flow _ hv st)
    | some v =>
      rw [perform_copied _ (.inl rfl) hv]
      exact .inl rfl
  all_goals first
    | (cases h; done)
    | exact .inl rfl
    | exact .inr rfl
    | (show settle _ ((act P names _ _ st).outcome _).flow = .next ∨
         settle _ ((act P names _ _ st).outcome _).flow = .raise
       cases act P names _ _ st <;> first
         | exact .inl rfl
         | exact .inr rfl)

theorem retarget_step (h : retarget into i = some (d, i')) (regs : Regs (Slot Val))
    (st : Store Val World) :
    (∃ v st', stepExit (sem P names consts) base i regs st =
        .fall 0 (Function.update regs d v) st' ∧
      stepExit (sem P names consts) base i' regs st =
        .fall 0 (Function.update regs into v) st') ∨
    ∃ st', stepExit (sem P names consts) base i regs st = .raised regs st' ∧
      stepExit (sem P names consts) base i' regs st = .raised regs st' := by
  obtain ⟨hs, ho, hm, hm', hinv, hw⟩ := retarget_spec h
  have hp : perform (sem P names consts) base i' regs st =
      perform (sem P names consts) base i regs st := by
    simp only [perform, operands, hs, ho]
  have hsem := @perform_sem Lit Val World P names consts base i regs st
  have hbase : (if i.mayInvalidateNamedLocals = true then fun r =>
      if r < base then (perform (sem P names consts) base i regs st).locals r else regs r
    else regs) = regs := by
    rw [hsem.1]
    split
    · exact view_self regs
    · rfl
  rcases @retarget_flow Lit Val World P base names consts into d i i' h regs st with hf | hf
  · left
    refine ⟨(perform (sem P names consts) base i regs st).results 0,
      (perform (sem P names consts) base i regs st).world, ?_, ?_⟩
    · simp [stepExit, hm, hf, finishRegs, hbase, (hw .next (.inl rfl)).1, writeAll]
    · simp [stepExit, hm', hp, hf, finishRegs, hinv, hbase, (hw .next (.inl rfl)).2, writeAll]
  · right
    refine ⟨(perform (sem P names consts) base i regs st).world, ?_, ?_⟩
    · simp [stepExit, hm, hf, finishRegs, hbase, (hw .raise (.inr rfl)).1, writeAll, hsem.2]
    · simp [stepExit, hm', hp, hf, finishRegs, hinv, hbase, (hw .raise (.inr rfl)).2, writeAll,
        hsem.2]

/-- A single instruction with another destination. -/
theorem codes_retarget {x : Comp P Val} {k : Env Val → World → Prop} {n : ℕ}
    (h : Codes P base c [i] (· < n) x k fun a regs _ => regs d = some (.obj a))
    (hi : retarget dst i = some (d, i')) (hd : base ≤ d) (hdst : base ≤ dst) :
    Codes P base c [i'] (fun r => r < n ∧ r ≠ dst) x k
      fun a regs _ => regs dst = some (.obj a) := by
  intro names consts hnames hconsts ρ regs st hρ
  have hx := h names consts hnames hconsts ρ regs st hρ
  rw [run_single] at hx ⊢
  rcases @retarget_step Lit Val World P base names consts dst d i i' hi regs st with
    ⟨v, st', h1, h2⟩ | ⟨st', h1, h2⟩
  · rw [h1] at hx
    rw [h2]
    cases hres : x.run ρ st.world with
    | outside => trivial
    | raised ρ' w' =>
      rw [hres] at hx
      rcases hx with ⟨-, regs', st', hcon, -⟩ | hx
      · cases hcon
      · exact .inr hx
    | value a ρ' w' =>
      rw [hres] at hx
      rcases hx with ⟨hk, regs', st'', heq, he, hp⟩ | hx
      · cases heq
        have hv : v = some (.obj a) := by simpa using hp
        refine .inl ⟨hk, _, _, rfl, ⟨?_, ?_, he.2.2⟩, by simp [hv]⟩
        · intro r hr
          have hd' : r ≠ d := Nat.ne_of_lt (Nat.lt_of_lt_of_le hr hd)
          have hdst' : r ≠ dst := Nat.ne_of_lt (Nat.lt_of_lt_of_le hr hdst)
          rw [← he.1 r hr, Function.update_of_ne hd', Function.update_of_ne hdst']
        · intro r _ hkr
          rw [Function.update_of_ne hkr.2]
      · exact .inr hx
  · rw [h1] at hx
    rw [h2]
    cases hres : x.run ρ st.world with
    | outside => trivial
    | raised ρ' w' =>
      rw [hres] at hx
      apply hx.imp_left
      rintro ⟨hk, regs', st'', heq, he⟩
      exact ⟨hk, regs', st'', heq, he.mono (fun r _ hr => hr.1) List.prefix_rfl⟩
    | value a ρ' w' =>
      rw [hres] at hx
      rcases hx with ⟨-, regs', st'', hcon, -⟩ | hx
      · cases hcon
      · exact .inr hx

theorem codes_move {x : Comp P Val} {k : Env Val → World → Prop} {n : ℕ}
    (h : Codes P base c code (· < n) x k fun a regs _ => regs r = some (.obj a))
    (hdst : base ≤ dst) :
    Codes P base c (code ++ [Insn.move dst r]) (fun r => r < n ∧ r ≠ dst) x k
      fun a regs _ => regs dst = some (.obj a) := by
  intro names consts hnames hconsts ρ regs st hρ
  rw [run_append]
  refine (h names consts hnames hconsts ρ regs st hρ).after (fun _ hr => hr.1) ?_
  intro a ρ' regs' st' he ha
  refine ⟨Function.update regs' dst (some (.obj a)), st', ?_,
    (Ends.update he.1 hdst ?_ _ st').mono (fun _ _ hr => hr) he.2.2.2, ?_⟩
  · rw [run_single, step_move ha]
  · exact fun hr => hr.2 rfl
  · exact Function.update_self ..

/-- The value of an expression is brought into a temporary that was allocated before. -/
theorem moveInto_ok (hreg : ∀ x r, regOf x = some r → r < base) (hc : Wf regOf base c)
    (h : Compiled P regOf base e c c' r code) (hb : base ≤ dst) (hd : dst < c.nextTemp) :
    ∃ code', Emits c (moveInto dst c r c') code' ∧ (moveInto dst c r c').nextTemp = c'.nextTemp ∧
      Codes P base (moveInto dst c r c') code' (fun x => x < c.nextTemp ∧ x ≠ dst)
        (eval P regOf e) (Kept P regOf e) fun a regs _ => regs dst = some (.obj a) := by
  have hne : r ≠ dst := by
    rcases h.place with hl | ⟨-, h1, -⟩
    · exact Nat.ne_of_lt (Nat.lt_of_lt_of_le (bareLocal_lt hreg hl) hb)
    · exact (Nat.ne_of_lt (Nat.lt_of_lt_of_le hd h1)).symm
  have hmove : ∃ code', Emits c (c'.emit (.move dst r)) code' ∧
      (c'.emit (.move dst r)).nextTemp = c'.nextTemp ∧
      Codes P base (c'.emit (.move dst r)) code' (fun x => x < c.nextTemp ∧ x ≠ dst)
        (eval P regOf e) (Kept P regOf e) fun a regs _ => regs dst = some (.obj a) :=
    ⟨_, h.emits.emit _, rfl, codes_move h.codes hb⟩
  unfold moveInto
  rw [if_neg hne]
  split
  case isFalse => exact hmove
  case isTrue hsingle =>
    rw [h.emits.insns, List.length_append, Nat.add_left_cancel_iff, List.length_eq_one_iff]
      at hsingle
    obtain ⟨⟨i, rfl⟩, hbr⟩ := hsingle
    rw [h.emits.baseTemp, hc.baseTemp] at hbr
    unfold Compiler.retargetLast
    rw [h.emits.insns]
    simp only [List.getLast?_append, List.getLast?_singleton, Option.some_or, Option.bind_some]
    cases hi : retarget dst i with
    | none => exact hmove
    | some x =>
      obtain ⟨d, i'⟩ := x
      by_cases hdr : d = r
      · subst hdr
        simp only [if_true, Option.getD_some, List.dropLast_concat]
        exact ⟨[i'], ⟨rfl, h.emits.localReg, h.emits.baseTemp, h.emits.consts, h.emits.names⟩,
          trivial, codes_retarget h.codes hi hbr hb⟩
      · simpa only [hdr, if_false, Option.getD_none] using hmove

theorem exprInto_ok (hreg : ∀ x r, regOf x = some r → r < base) (hc : Wf regOf base c)
    (h : Compiled P regOf base e c c' r code) (hb : base ≤ dst) (hd : dst < c.nextTemp) :
    ∃ code', Emits c (exprInto dst c (r, c')) code' ∧
      c.nextTemp ≤ (exprInto dst c (r, c')).nextTemp ∧
      Codes P base (exprInto dst c (r, c')) code' (fun x => x < c.nextTemp ∧ x ≠ dst)
        (eval P regOf e) (Kept P regOf e) fun a regs _ => regs dst = some (.obj a) := by
  obtain ⟨code', hem, hn, hcodes⟩ := moveInto_ok hreg hc h hb hd
  simp only [exprInto]
  split
  · exact ⟨code', hem.setTemp _, le_rfl, hcodes⟩
  · exact ⟨code', hem, hn ▸ h.temp, hcodes⟩

end into

section control
variable {left right cond thenE elseE : Expr Lit}

theorem ite_true_eq {A : Sort*} (t : Bool) (x y : A) :
    (if t = true then x else y) = if t = false then y else x := by
  cases t <;> rfl

theorem jumpIf_fixOff (on : Bool) (r : Reg) (n : ℕ) :
    (jumpIf on r 0).fixOff (fun _ => n) = jumpIf on r n := by
  cases on <;> rfl

theorem codes_shortCircuit (on : Bool) {lhs dst n m : Reg} {codeL codeI : List Insn}
    (hL : Codes P base c codeL (· < n) (eval P regOf left) (Kept P regOf left)
      fun a regs _ => regs lhs = some (.obj a))
    (hI : Codes P base c codeI (fun r => r < m ∧ r ≠ dst) (eval P regOf right)
      (Kept P regOf right) fun a regs _ => regs dst = some (.obj a))
    (hb : base ≤ dst) (hn : n ≤ dst) (hm : dst < m) :
    Codes P base c ((codeL ++ [Insn.move dst lhs]) ++ jumpIf on dst codeI.length :: codeI) (· < n)
      (do
        let a ← eval P regOf left
        let t ← Comp.truth a
        if t = on then pure a else eval P regOf right)
      (fun ρ w => Kept P regOf left ρ w ∧ (eval P regOf left).Then (fun a ρ w =>
        (Comp.truth (P := P) a).Then (fun t ρ w =>
          if t = on then True else Kept P regOf right ρ w) ρ w) ρ w)
      fun a regs _ => regs dst = some (.obj a) := by
  intro names consts hnames hconsts ρ regs st hρ
  rw [run_append]
  have hmove := codes_move hL hb names consts hnames hconsts ρ regs st hρ
  refine Meets.bind _ hmove ?_ ?_
  · intro r hr
    exact ⟨hr, Nat.ne_of_lt (Nat.lt_of_lt_of_le hr hn)⟩
  intro a ρ₁ w₁ regs₁ st₁ _ he ha
  rw [← he.2.2.1, show jumpIf on dst codeI.length :: codeI =
    jumpIf on dst codeI.length :: (codeI ++ []) by simp]
  refine (Meets.branch he.1 ha (fun w => Meets.pure he.1 { st₁ with world := w } ha)
    fun w => ?_).lower he.2.2.2
  rw [List.append_nil]
  refine (hI names consts hnames hconsts ρ₁ regs₁ { st₁ with world := w } he.1).mono ?_
    List.prefix_rfl fun _ _ _ _ _ _ hp => hp
  intro r _ hr
  exact ⟨Nat.lt_trans (Nat.lt_of_lt_of_le hr hn) hm, Nat.ne_of_lt (Nat.lt_of_lt_of_le hr hn)⟩

theorem patchAt_ternary (a t b : List Insn) (i : Insn) :
    patchAt (a.length+1+t.length) (a ++ i::(t ++ [Insn.jump 0]) ++ b) =
      a ++ i::((t ++ [Insn.jump b.length]) ++ b) := by
  have h := patchAt_cons (a ++ i::t) b (.jump 0)
  have hlen : (a ++ i::t).length = a.length+1+t.length := by
    simp only [List.length_append, List.length_cons]
    omega
  rw [hlen] at h
  simpa [Insn.fixOff.eq_def] using h

theorem codes_ternary {cond' dst n m : Reg} {codeC codeT codeE : List Insn}
    (hC : Codes P base c codeC (· < n) (eval P regOf cond) (Kept P regOf cond)
      fun a regs _ => regs cond' = some (.obj a))
    (hT : Codes P base c codeT (fun r => r < m ∧ r ≠ dst) (eval P regOf thenE)
      (Kept P regOf thenE) fun a regs _ => regs dst = some (.obj a))
    (hE : Codes P base c codeE (fun r => r < m ∧ r ≠ dst) (eval P regOf elseE)
      (Kept P regOf elseE) fun a regs _ => regs dst = some (.obj a))
    (hn : n ≤ dst) (hm : dst < m) :
    Codes P base c (codeC ++ jumpIf false cond' (codeT ++ [Insn.jump codeE.length]).length ::
        ((codeT ++ [Insn.jump codeE.length]) ++ codeE)) (· < n)
      (eval P regOf (.ternary cond thenE elseE)) (Kept P regOf (.ternary cond thenE elseE))
      fun a regs _ => regs dst = some (.obj a) := by
  intro names consts hnames hconsts ρ regs st hρ
  simp only [eval, Kept, ite_true_eq]
  rw [run_append]
  refine Meets.bind _ (hC names consts hnames hconsts ρ regs st hρ) (fun _ hr => hr) ?_
  intro v ρ₁ w₁ regs₁ st₁ _ he hv
  have hkeep (r : Reg) (_ : base ≤ r) (hr : r < n) : r < m ∧ r ≠ dst :=
    ⟨Nat.lt_trans (Nat.lt_of_lt_of_le hr hn) hm, Nat.ne_of_lt (Nat.lt_of_lt_of_le hr hn)⟩
  rw [← he.2.2.1]
  refine (Meets.branch he.1 hv (fun w => ?_) fun w => ?_).lower he.2.2.2
  · exact (hE names consts hnames hconsts ρ₁ regs₁ { st₁ with world := w } he.1).mono hkeep
      List.prefix_rfl fun _ _ _ _ _ _ hp => hp
  · -- the jump at the end of the first branch leads over the second
    rw [List.append_assoc, run_append]
    refine ((hT names consts hnames hconsts ρ₁ regs₁ { st₁ with world := w } he.1).mono hkeep
      List.prefix_rfl fun _ _ _ _ _ _ hp => hp).after (fun _ hr => hr) ?_
    intro a ρ₂ regs₂ st₂ he₂ ha
    exact ⟨regs₂, st₂, run_jump codeE regs₂ st₂, (Ends.refl he₂.1 st₂).mono (fun _ _ hr => hr)
      he₂.2.2.2, ha⟩

variable [DecidableEq Lit]

theorem shortCircuit_ok (hreg : ∀ x r, regOf x = some r → r < base) {op : BinaryOp}
    (hop : op = .and ∨ op = .or) (hL : ExprOk P regOf base left)
    (hR : ExprOk P regOf base right) : ExprOk P regOf base (.binary left op right) := by
  intro c hc
  obtain ⟨lhs, c₁, codeL, hx, h⟩ := hL c hc
  have hjump : (if op = .or then Insn.jumpIfTrue c₁.nextTemp 0 else .jumpIfFalse c₁.nextTemp 0) =
      jumpIf (decide (op = .or)) c₁.nextTemp 0 := by
    by_cases ho : op = .or <;> simp [jumpIf, ho]
  simp only [compileExpr, if_pos hop, hx, Compiler.allocTemp, hjump]
  rw [freeTemp_operand (c := Compiler.emit { c₁ with nextTemp := c₁.nextTemp+1 }
    (.move c₁.nextTemp lhs)) (h.place.operand hreg hc le_rfl)
    (h.emits.baseTemp.trans hc.baseTemp) (Nat.lt_succ_self _)]
  -- the state behind the jump
  generalize hc₂ : Compiler.emit (Compiler.emit { c₁ with nextTemp := c₁.nextTemp+1 }
    (.move c₁.nextTemp lhs)) (jumpIf (decide (op = .or)) c₁.nextTemp 0) = c₂
  have hem₂ : Emits c c₂ (codeL ++ [Insn.move c₁.nextTemp lhs] ++
      [jumpIf (decide (op = .or)) c₁.nextTemp 0]) := by
    rw [← hc₂]
    exact ((h.emits.setTemp _).emit _).emit _
  have hn₂ : c₂.nextTemp = c₁.nextTemp+1 := by rw [← hc₂]; rfl
  have hw₂ := hc.emits hem₂ (by rw [hn₂]; exact Nat.le_succ_of_le (hc.temp.trans h.temp))
  obtain ⟨rhs, c₃, codeR, hy, h'⟩ := hR c₂ hw₂
  rw [hy]
  obtain ⟨codeI, hemI, -, hcodes⟩ := exprInto_ok hreg hw₂ h' (hc.temp.trans h.temp)
    (hn₂ ▸ Nat.lt_succ_self _)
  have hall := hem₂.trans hemI
  have hat : (Compiler.emit { c₁ with nextTemp := c₁.nextTemp+1 }
      (.move c₁.nextTemp lhs)).insns.length =
        c.insns.length+(codeL ++ [Insn.move c₁.nextTemp lhs]).length := by
    simp [Compiler.emit, h.emits.insns]
  rw [hat]
  refine ⟨_, _, (codeL ++ [Insn.move c₁.nextTemp lhs]) ++
    jumpIf (decide (op = .or)) c₁.nextTemp codeI.length :: codeI, rfl, ?_, ?_, ?_, ?_⟩
  · have hp := (hall.setTemp c₂.nextTemp).patchJump
      (k := (codeL ++ [Insn.move c₁.nextTemp lhs]).length)
    rw [List.append_assoc _ [_] codeI, List.singleton_append, patchAt_cons, jumpIf_fixOff] at hp
    exact hp
  · exact (hn₂ ▸ Nat.le_succ_of_le h.temp)
  · exact .inr ⟨rfl, h.temp, hn₂ ▸ Nat.lt_succ_self _⟩
  · have ht₁ : c₁.names <+: c₂.names ∧ c₁.consts <+: c₂.consts := by
      rw [← hc₂]
      exact ⟨List.prefix_rfl, List.prefix_rfl⟩
    have hcode := codes_shortCircuit (decide (op = .or))
      (h.codes.tables (ht₁.1.trans hemI.names) (ht₁.2.trans hemI.consts)) hcodes
      (hc.temp.trans h.temp) h.temp (hn₂ ▸ Nat.lt_succ_self _)
    intro names consts hnames hconsts ρ regs st hρ
    simp only [eval, if_pos hop, Kept]
    exact hcode names consts hnames hconsts ρ regs st hρ

theorem ternary_ok (hreg : ∀ x r, regOf x = some r → r < base) (hC : ExprOk P regOf base cond)
    (hT : ExprOk P regOf base thenE) (hE : ExprOk P regOf base elseE) :
    ExprOk P regOf base (.ternary cond thenE elseE) := by
  intro c hc
  obtain ⟨cond', c₁, codeC, hx, h⟩ := hC c hc
  have hdst : c.nextTemp ≤ ((c₁.emit (.jumpIfFalse cond' 0)).freeTemp cond').nextTemp :=
    le_freeTemp h.temp ((h.place.lt_or_le hreg hc h.emits).imp_right .inl)
  have hem₁ : Emits c ((c₁.emit (.jumpIfFalse cond' 0)).freeTemp cond')
      (codeC ++ [jumpIf false cond' 0]) := (h.emits.emit _).freeTemp cond'
  have hi₁ : c₁.insns.length = c.insns.length+codeC.length := by simp [h.emits.insns]
  have ht₁ : c₁.names = ((c₁.emit (.jumpIfFalse cond' 0)).freeTemp cond').names ∧
      c₁.consts = ((c₁.emit (.jumpIfFalse cond' 0)).freeTemp cond').consts := by
    unfold Compiler.freeTemp
    split <;> exact ⟨rfl, rfl⟩
  simp only [compileExpr, hx, Compiler.allocTemp, hi₁]
  generalize (c₁.emit (.jumpIfFalse cond' 0)).freeTemp cond' = d₁ at hdst hem₁ ht₁ ⊢
  -- the first branch
  have hem₂ := hem₁.setTemp (d₁.nextTemp+1)
  have hw₂ := hc.emits hem₂ (Nat.le_succ_of_le (hc.temp.trans hdst))
  obtain ⟨r, c₃, codeT', hy, hT'⟩ := hT _ hw₂
  obtain ⟨codeT, hemT, -, hcT⟩ := exprInto_ok hreg hw₂ hT' (hc.temp.trans hdst)
    (Nat.lt_succ_self _)
  simp only [hy]
  generalize exprInto d₁.nextTemp { d₁ with nextTemp := d₁.nextTemp+1 } (r, c₃) = d₃ at hemT hcT ⊢
  have hem₃ := ((hem₂.trans hemT).setTemp (d₁.nextTemp+1)).emit (.jump 0)
  have hi₃ : d₃.insns.length = c.insns.length+(codeC.length+1+codeT.length) := by
    simp [(hem₂.trans hemT).insns]
    omega
  have hem₄ := hem₃.patchJump (k := codeC.length)
  rw [List.append_assoc, List.append_assoc, List.singleton_append, patchAt_cons, jumpIf_fixOff]
    at hem₄
  simp only [hi₃]
  -- the second branch
  have hw₄ := hc.emits hem₄ (Nat.le_succ_of_le (hc.temp.trans hdst))
  obtain ⟨r', c₅, codeE', hz, hE'⟩ := hE _ hw₄
  obtain ⟨codeE, hemE, -, hcE⟩ := exprInto_ok hreg hw₄ hE' (hc.temp.trans hdst)
    (Nat.lt_succ_self _)
  simp only [hz]
  generalize hd₄ : Compiler.patchJump (Compiler.emit { d₃ with nextTemp := d₁.nextTemp+1 }
    (.jump 0)) (c.insns.length+codeC.length) = d₄ at hem₄ hw₄ hE' hemE hcE ⊢
  generalize exprInto d₁.nextTemp d₄ (r', c₅) = d₅ at hemE hcE ⊢
  have hem₅ := ((hem₄.trans hemE).setTemp (d₁.nextTemp+1)).patchJump
    (k := codeC.length+1+codeT.length)
  rw [patchAt_ternary] at hem₅
  have htT : d₃.names = d₄.names ∧ d₃.consts = d₄.consts := by
    rw [← hd₄]
    exact ⟨rfl, rfl⟩
  have hn₃ : d₃.names <+: d₅.names := htT.1 ▸ hemE.names
  have hc₃ : d₃.consts <+: d₅.consts := htT.2 ▸ hemE.consts
  have hn₁ : c₁.names <+: d₅.names := ht₁.1 ▸ hemT.names.trans hn₃
  have hc₁ : c₁.consts <+: d₅.consts := ht₁.2 ▸ hemT.consts.trans hc₃
  have hlen : (codeT ++ [Insn.jump 0]).length = (codeT ++ [Insn.jump codeE.length]).length := by
    simp
  rw [hlen] at hem₅
  refine ⟨_, _, _, rfl, hem₅, Nat.le_succ_of_le hdst, .inr ⟨rfl, hdst, Nat.lt_succ_self _⟩, ?_⟩
  have hnext : d₄.nextTemp = d₁.nextTemp+1 := by rw [← hd₄]; rfl
  rw [hnext] at hcE
  exact codes_ternary (h.codes.tables hn₁ hc₁) (hcT.tables hn₃ hc₃) hcE hdst (Nat.lt_succ_self _)

end control

section assignment

theorem meets_assign {ρ : Env Val} {regs : Regs (Slot Val)} {keep : Reg → Prop} {reg val : Reg}
    {v : Val} (hρ : Holds base ρ regs) (hlt : reg < base) (hv : regs val = some (.obj v))
    (st : Store Val World) :
    Meets P base keep regs st.lists
      ((do Comp.assign (P := P) (some reg) v; pure v : Comp P Val).run ρ st.world)
      (fun a regs _ => regs val = some (.obj a)) True
      (.fall 0 (Function.update regs reg (some (.obj v))) st) := by
  refine .inl ⟨trivial, _, st, rfl, ⟨?_, ?_, rfl, List.prefix_rfl⟩, ?_⟩
  · intro r hr
    by_cases hx : r = reg
    · simp [hx]
    · rw [Function.update_of_ne hx, Function.update_of_ne hx, hρ r hr]
  · intro r hr _
    rw [Function.update_of_ne (Nat.ne_of_lt (Nat.lt_of_lt_of_le hlt hr)).symm]
  · by_cases hx : val = reg
    · simp [hx]
    · simp [Function.update_of_ne hx, hv]

theorem markDef_nextTemp (c : Compiler Lit) (r : Reg) :
    (c.markDef r).nextTemp = c.nextTemp := by
  unfold Compiler.markDef
  split <;> rfl

theorem named_ok [DecidableEq Lit] (hreg : ∀ x r, regOf x = some r → r < base) (name : String)
    (hE : ExprOk P regOf base e) : ExprOk P regOf base (.named name e) := by
  intro c hc
  obtain ⟨val, c₁, code, hx, h⟩ := hE c hc
  have hl : c₁.localReg = regOf := h.emits.localReg.trans hc.localReg
  simp only [compileExpr, hx, hl]
  have hcodes {c' : Compiler Lit} {tail : List Insn} (hn : c₁.names <+: c'.names)
      (hcs : c₁.consts <+: c'.consts)
      (hf : ∀ names consts v ρ regs st, Holds base ρ regs → regs val = some (.obj v) →
        Meets P base (· < c.nextTemp) regs st.lists
          ((do Comp.assign (P := P) (regOf name) v; pure v : Comp P Val).run ρ st.world)
          (fun a regs _ => regs val = some (.obj a)) True
          (run (sem P names consts) base tail 0 regs st)) :
      Codes P base c' (code ++ tail) (· < c.nextTemp) (eval P regOf (.named name e))
        (Kept P regOf (.named name e)) fun a regs _ => regs val = some (.obj a) := by
    intro names consts hnames hconsts ρ regs st hρ
    simp only [eval, Kept]
    rw [run_append]
    have hrun := h.codes names consts (hn.trans hnames) (hcs.trans hconsts) ρ regs st hρ
    refine (Meets.bind (fun _ _ _ => True) hrun (fun _ hr => hr) ?_).congr (by simp [then_true])
    intro v ρ₁ w₁ regs₁ st₁ _ he hv
    rw [← he.2.2.1]
    exact (hf names consts v ρ₁ regs₁ st₁ he.1 hv).lower he.2.2.2
  cases hr : regOf name with
  | none =>
    obtain ⟨idx, c₂, hI, hem, hn, -⟩ := internName_spec c₁ name
    simp only [hI]
    refine ⟨_, _, code ++ [Insn.storeGlobal idx val], rfl, ?_, h.temp.trans hn.ge, ?_, ?_⟩
    · simpa using (h.emits.trans hem).emit (.storeGlobal idx val)
    · exact h.place.imp_right fun hp => ⟨hp.1, hp.2.1, hn ▸ hp.2.2⟩
    · apply hcodes hem.names hem.consts
      intro names consts v ρ regs st _ _
      rw [hr]
      trivial
  | some reg =>
    have hlt := hreg name reg hr
    have hplace {d : Compiler Lit} (hd : d.nextTemp = c₁.nextTemp) :
        Placed regOf (.named name e) c (d.markDef reg) val := by
      refine h.place.imp_right fun hp => ⟨hp.1, hp.2.1, ?_⟩
      rw [markDef_nextTemp, hd]
      exact hp.2.2
    simp only
    by_cases hne : val = reg
    · -- a local assigned to itself
      rw [if_neg (by simpa using hne)]
      have hem := (Emits.refl c₁).markDef reg
      refine ⟨_, _, code ++ [], rfl, h.emits.trans hem, ?_, hplace rfl, ?_⟩
      · exact (markDef_nextTemp c₁ reg).symm ▸ h.temp
      · apply hcodes hem.names hem.consts
        intro names consts v ρ regs st hρ hv
        have hself : Function.update regs reg (some (.obj v)) = regs := by
          rw [Function.update_eq_self_iff, ← hne, hv]
        have hm := @meets_assign Lit Val World P base ρ regs (· < c.nextTemp) reg val v hρ hlt hv st
        rw [hself] at hm
        rw [hr]
        exact hm
    · rw [if_pos (show val ≠ reg from hne)]
      have hem := ((Emits.refl c₁).emit (.move reg val)).markDef reg
      refine ⟨_, _, code ++ [Insn.move reg val], rfl, (h.emits.emit _).markDef reg, ?_,
        hplace rfl, ?_⟩
      · exact (markDef_nextTemp (c₁.emit (.move reg val)) reg).symm ▸ h.temp
      · apply hcodes hem.names hem.consts
        intro names consts v ρ regs st hρ hv
        rw [run_single, step_move hv, hr]
        exact meets_assign hρ hlt hv st

end assignment

section slices
variable {lower upper step : Bound Lit}

variable (P regOf base) in
/-- A slot that is filled with a bound. -/
def BoundOk [DecidableEq Lit] (b : Bound Lit) : Prop :=
  ∀ c slot, Wf regOf base c → base ≤ slot → slot < c.nextTemp → ∃ code,
    Emits c (fillSlot b slot c) code ∧ c.nextTemp ≤ (fillSlot b slot c).nextTemp ∧
      Codes P base (fillSlot b slot c) code (fun r => r < c.nextTemp ∧ r ≠ slot)
        (evalBound P regOf b) (KeptBound P regOf b) fun a regs _ => regs slot = some (.obj a)

theorem absent_ok [DecidableEq Lit] : BoundOk P regOf base (.absent : Bound Lit) := by
  intro c slot hc hb hlt
  refine ⟨[.loadNone slot], (Emits.refl c).emit _, le_rfl, ?_⟩
  intro names consts _ _ ρ regs st hρ
  rw [run_single, step_loadNone]
  refine .inl ⟨trivial, _, _, rfl, .update hρ hb ?_ _ st, ?_⟩
  · exact fun hr => hr.2 rfl
  · exact Function.update_self ..

theorem present_ok [DecidableEq Lit] (hreg : ∀ x r, regOf x = some r → r < base)
    (hE : ExprOk P regOf base e) : BoundOk P regOf base (.present e) := by
  intro c slot hc hb hlt
  obtain ⟨src, c₁, code, hx, h⟩ := hE c hc
  have hplace := h.place.lt_or_le hreg hc h.emits
  have hne : src ≠ slot := by
    rintro rfl
    rcases hplace with hl | hl
    · rw [h.emits.baseTemp, hc.baseTemp] at hl
      exact Nat.not_le.mpr hl hb
    · exact Nat.not_le.mpr hlt hl
  simp only [fillSlot, hx, if_neg hne]
  refine ⟨code ++ [Insn.move slot src], (h.emits.emit _).freeTemp _, ?_, ?_⟩
  · exact le_freeTemp h.temp (hplace.imp_right .inl)
  · have hem := ((Emits.refl c₁).emit (.move slot src)).freeTemp src
    have hcodes := (codes_move h.codes hb).tables hem.names hem.consts
    intro names consts hnames hconsts ρ regs st hρ
    simp only [evalBound, KeptBound]
    exact hcodes names consts hnames hconsts ρ regs st hρ

theorem codes_slice (hreg : ∀ x r, regOf x = some r → r < base) {obj dst n b m₁ m₂ m₃ : ℕ}
    {c₀ c₁ : Compiler Lit} {codeO codeL codeU codeS : List Insn} (hc₀ : Wf regOf base c₀)
    (hplace : Placed regOf e c₀ c₁ obj) (hb₁ : c₁.nextTemp ≤ b)
    (hO : Codes P base c codeO (· < n) (eval P regOf e) (Kept P regOf e)
      fun a regs _ => regs obj = some (.obj a))
    (hL : Codes P base c codeL (fun r => r < m₁ ∧ r ≠ b) (evalBound P regOf lower)
      (KeptBound P regOf lower) fun a regs _ => regs b = some (.obj a))
    (hU : Codes P base c codeU (fun r => r < m₂ ∧ r ≠ b+1) (evalBound P regOf upper)
      (KeptBound P regOf upper) fun a regs _ => regs (b+1) = some (.obj a))
    (hS : Codes P base c codeS (fun r => r < m₃ ∧ r ≠ b+2) (evalBound P regOf step)
      (KeptBound P regOf step) fun a regs _ => regs (b+2) = some (.obj a))
    (h₁ : b+3 ≤ m₁) (h₂ : b+3 ≤ m₂) (h₃ : b+3 ≤ m₃) (hnb : n ≤ b) (hbase : base ≤ n)
    (hdst : n ≤ dst) :
    Codes P base c (codeO ++ (codeL ++ (codeU ++ (codeS ++ [Insn.getSlice dst obj b])))) (· < n)
      (eval P regOf (.slice e lower upper step)) (Kept P regOf (.slice e lower upper step))
      fun a regs _ => regs dst = some (.obj a) := by
  -- the slots of the bounds lie above everything that is kept
  have hbelow {m s : ℕ} (hm : b+3 ≤ m) (hs : b ≤ s) (r : ℕ) (hr : r < b) : r < m ∧ r ≠ s :=
    ⟨by omega, by omega⟩
  have hslot {m s : ℕ} (hm : b+3 ≤ m) (hs : b ≤ s) (r : ℕ) (hr : r < n) : r < m ∧ r ≠ s :=
    hbelow hm hs r (Nat.lt_of_lt_of_le hr hnb)
  intro names consts hnames hconsts ρ regs st hρ
  simp only [eval, Kept]
  rw [run_append]
  refine Meets.bind _ (hO names consts hnames hconsts ρ regs st hρ) (fun _ hr => hr) ?_
  intro a ρ₁ w₁ regs₁ st₁ _ he₁ ha
  rw [run_append, ← he₁.2.2.1]
  refine (Meets.bind _ (hL names consts hnames hconsts ρ₁ regs₁ st₁ he₁.1) (hslot h₁ le_rfl)
    ?_).lower he₁.2.2.2
  intro lo ρ₂ w₂ regs₂ st₂ hr₂ he₂ hlo
  rw [run_append, ← he₂.2.2.1]
  refine (Meets.bind _ (hU names consts hnames hconsts ρ₂ regs₂ st₂ he₂.1)
    (hslot h₂ (Nat.le_succ b)) ?_).lower he₂.2.2.2
  intro hi ρ₃ w₃ regs₃ st₃ hr₃ he₃ hhi
  rw [run_append, ← he₃.2.2.1]
  refine (Meets.bind _ (hS names consts hnames hconsts ρ₃ regs₃ st₃ he₃.1)
    (hslot h₃ (Nat.le_add_right b 2)) ?_).lower he₃.2.2.2
  intro sp ρ₄ w₄ regs₄ st₄ hr₄ he₄ hsp
  have hends : Ends base (· < b) regs₁ st₃.lists ρ₄ w₄ regs₄ st₄ :=
    he₂.trans (he₃.trans (he₄.mono (fun r _ => hbelow h₃ (Nat.le_add_right b 2) r) List.prefix_rfl)
      (hbelow h₂ (Nat.le_succ b))) (hbelow h₁ le_rfl)
  have hgrow (r : Reg) (h : ρ₁ r ≠ none) : ρ₄ r ≠ none := by
    have g₂ := (evalBound P regOf lower).grows ρ₁ st₁.world
    have g₃ := (evalBound P regOf upper).grows ρ₂ st₂.world
    have g₄ := (evalBound P regOf step).grows ρ₃ st₃.world
    rw [hr₂] at g₂
    rw [hr₃] at g₃
    rw [hr₄] at g₄
    exact g₄.1 r (g₃.1 r (g₂.1 r h))
  obtain ⟨a', ha', hstay⟩ := operand_after (hplace.operand hreg hc₀ hb₁) ha he₁.1 hends hgrow id
  have hbb : base ≤ b := hbase.trans hnb
  have hlo₄ : regs₄ b = some (.obj lo) := by
    have h₃' : b < m₂ ∧ b ≠ b+1 := by omega
    have h₄' : b < m₃ ∧ b ≠ b+2 := by omega
    rw [he₄.2.1 b hbb h₄', he₃.2.1 b hbb h₃', hlo]
  have hhi₄ : regs₄ (b+1) = some (.obj hi) := by
    have h₄' : b+1 < m₃ ∧ b+1 ≠ b+2 := by omega
    rw [he₄.2.1 (b+1) (Nat.le_succ_of_le hbb) h₄', hhi]
  have hact : act P names (Insn.getSlice dst obj b).shape
      (operands base (.getSlice dst obj b) regs₄) st₄ =
        .apply P (.getSlice a' lo hi sp) st₄ := by
    have hregs : [obj, b, b+1, b+2].map regs₄ =
        [Slot.obj a', .obj lo, .obj hi, .obj sp].map some := by
      simp only [List.map_cons, List.map_nil, ha', hlo₄, hhi₄, hsp]
    rw [operands_set _ rfl hregs]
    rfl
  rw [← he₄.2.2.1]
  refine Meets.lower (Meets.congr (Meets.apply names consts (.getSlice a lo hi sp) he₄.1 rfl
    (hbase.trans hdst) ?_ hact) ?_) he₄.2.2.2
  · exact Nat.not_lt.mpr hdst
  · simpa using hstay

theorem slice_ok [DecidableEq Lit] (hreg : ∀ x r, regOf x = some r → r < base)
    (hE : ExprOk P regOf base e) (hL : BoundOk P regOf base lower)
    (hU : BoundOk P regOf base upper) (hS : BoundOk P regOf base step) :
    ExprOk P regOf base (.slice e lower upper step) := by
  intro c hc
  obtain ⟨obj, c₁, codeO, hx, h⟩ := hE c hc
  obtain ⟨dst, c₂, hy, hem, hd, hd', hn, -⟩ := ensureDst_spec hreg hc h.emits le_rfl h.temp h.place
  have hle : c.nextTemp ≤ c₂.nextTemp := h.temp.trans hn
  have hb : base ≤ c₂.nextTemp := hc.temp.trans hle
  have hem₃ := hem.setTemp (c₂.nextTemp+1+1+1)
  have hw₃ := hc.emits (h.emits.trans hem₃) (hb.trans (Nat.le_add_right _ 3))
  simp only [compileExpr, hx, hy, Compiler.allocTemp]
  generalize hd₃ : { c₂ with nextTemp := c₂.nextTemp+1+1+1 } = d₃ at hem₃ hw₃ ⊢
  have hn₃ : d₃.nextTemp = c₂.nextTemp+3 := by rw [← hd₃]
  have hslot (k : ℕ) (hk : k < 3) : c₂.nextTemp+k < d₃.nextTemp := by
    rw [hn₃]
    exact Nat.add_lt_add_left hk _
  -- the three slots are filled from left to right
  obtain ⟨codeL, hemL, hnL, hcL⟩ := hL d₃ c₂.nextTemp hw₃ hb (hslot 0 (by omega))
  generalize fillSlot lower c₂.nextTemp d₃ = d₄ at hemL hnL hcL ⊢
  have hw₄ := hw₃.emits hemL (hw₃.temp.trans hnL)
  obtain ⟨codeU, hemU, hnU, hcU⟩ := hU d₄ (c₂.nextTemp+1) hw₄ (Nat.le_succ_of_le hb)
    (Nat.lt_of_lt_of_le (hslot 1 (by omega)) hnL)
  generalize fillSlot upper (c₂.nextTemp+1) d₄ = d₅ at hemU hnU hcU ⊢
  have hw₅ := hw₄.emits hemU (hw₄.temp.trans hnU)
  obtain ⟨codeS, hemS, hnS, hcS⟩ := hS d₅ (c₂.nextTemp+1+1) hw₅
    (Nat.le_succ_of_le (Nat.le_succ_of_le hb))
    (Nat.lt_of_lt_of_le (hslot 2 (by omega)) (hnL.trans hnU))
  generalize fillSlot step (c₂.nextTemp+1+1) d₅ = d₆ at hemS hnS hcS ⊢
  have hem₆ := (h.emits.trans (hem₃.trans (hemL.trans (hemU.trans hemS)))).emit
    (.getSlice dst obj c₂.nextTemp)
  refine ⟨_, _, codeO ++ (codeL ++ (codeU ++ (codeS ++ [Insn.getSlice dst obj c₂.nextTemp]))), rfl,
    ?_, hle, .inr ⟨rfl, hd, hd'⟩, ?_⟩
  · simpa using hem₆.setTemp c₂.nextTemp
  · have t₅ := hemS
    have t₄ := hemU.trans t₅
    have t₃ := hem₃.trans (hemL.trans t₄)
    apply codes_slice hreg hc h.place hn (h.codes.tables t₃.names t₃.consts)
      (hcL.tables t₄.names t₄.consts) (hcU.tables t₅.names t₅.consts) hcS
    · exact hn₃.ge
    · exact hn₃.ge.trans hnL
    · exact (hn₃.ge.trans hnL).trans hnU
    · exact hle
    · exact hc.temp
    · exact hd

end slices

end compiled

end Pyrust.ExpressionCorrect
