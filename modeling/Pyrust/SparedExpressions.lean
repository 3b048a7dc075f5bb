import Pyrust.CompiledExpressions
import Pyrust.SparedRegisters

/-!
# Expressions and the temporaries in use

One lemma for each form of expression: its code writes no temporary that was in
use, and its value is in a local or in a temporary that was free. The forms are
put together by the recursion of the syntax.
-/

set_option autoImplicit false

namespace Pyrust.SparedExpressions

open Bytecode CompilerCore Expressions ExpressionCorrect CompiledExpressions SparedRegisters

section forms
variable {Lit : Type} [DecidableEq Lit] (base n : Reg)

def ExprSpares (e : Expr Lit) : Prop :=
  ∀ c, At base n c → Spared base n c (compileExpr e c).2 ∧ Free base n (compileExpr e c).1

/-- A chain from a state in which its left operand and the result have their registers. -/
def ChainSpares (ops : Comparisons Lit) : Prop :=
  ∀ c i prev result, At base n c → Free base n prev → n ≤ result →
    Spared base n c (compileChain ops i prev result c).2.2 ∧
      Free base n (compileChain ops i prev result c).2.1 ∧
      ∀ p ∈ (compileChain ops i prev result c).1, c.insns.length ≤ p

def BoundSpares (b : Bound Lit) : Prop :=
  ∀ c slot, At base n c → n ≤ slot → Spared base n c (fillSlot b slot c)

def ArgsSpares (args : Args Lit) : Prop :=
  ∀ c argReg, At base n c → n ≤ argReg → Spared base n c (compileArgs args argReg c)

def AppendSpares (args : Args Lit) : Prop :=
  ∀ c posList, At base n c → Spared base n c (appendArgs args posList c)

variable {base n} {e left right : Expr Lit} {ops : Comparisons Lit} {args : Args Lit}

theorem none_spares : ExprSpares base n (.none : Expr Lit) :=
  fun _ hc => ⟨hc.refl.alloc.emit_one rfl (.inr hc.temp), .inr hc.temp⟩

theorem lit_spares (v : Lit) : ExprSpares base n (.lit v) := by
  intro c hc
  have hs := hc.refl.internConst v
  exact ⟨hs.alloc.emit_one rfl (.inr hs.le), .inr hs.le⟩

theorem var_spares (name : String) : ExprSpares base n (.var name : Expr Lit) := by
  intro c hc
  have hs := hc.refl.internName name
  simp only [compileExpr, compileVar]
  split
  case h_1 reg hreg =>
    have hlt := hc.locals name reg hreg
    split
    · exact ⟨hc.refl, .inl hlt⟩
    · exact ⟨hs.emit_none rfl, .inl hlt⟩
  case h_2 =>
    refine ⟨?_, .inr hs.le⟩
    split
    · exact hs.alloc.emit_one rfl (.inr hs.le)
    · exact hs.alloc.emit_one rfl (.inr hs.le)

theorem unary_spares (op : UnaryOp) (he : ExprSpares base n e) :
    ExprSpares base n (.unary op e) := by
  intro c hc
  obtain ⟨hs, hr⟩ := he c hc
  obtain ⟨hd, hle⟩ := hs.ensureDst hc.baseTemp hr
  exact ⟨hd.emit_one rfl (.inr hle), .inr hle⟩

theorem attr_spares (name : String) (he : ExprSpares base n e) :
    ExprSpares base n (.attr e name) := by
  intro c hc
  obtain ⟨hs, hr⟩ := he c hc
  obtain ⟨hd, hle⟩ := (hs.internName name).ensureDst hc.baseTemp hr
  exact ⟨hd.emit_one rfl (.inr hle), .inr hle⟩

/-- `compile_binop` and the comparison of two operands. -/
theorem binOp_spares (op : BinaryOp) (hL : ExprSpares base n left) (hR : ExprSpares base n right)
    {c : Compiler Lit} (hc : At base n c) :
    Spared base n c (compileBinOp left op right c).2 ∧
      Free base n (compileBinOp left op right c).1 := by
  obtain ⟨hs, hr⟩ := hL c hc
  obtain ⟨hd, hle⟩ := hs.ensureDst hc.baseTemp hr
  obtain ⟨hs', hr'⟩ := hR _ (hc.next hd)
  exact ⟨((hd.trans hs').emit_one rfl (.inr hle)).freeTemp hc.baseTemp hr', .inr hle⟩

/-- An operand brought into a temporary, as `compile_expr_into` does. -/
theorem into_spares (he : ExprSpares base n e) {c : Compiler Lit} (hc : At base n c) {dst : Reg}
    (hd : n ≤ dst) : Spared base n c (exprInto dst c (compileExpr e c)) :=
  exprInto_spared (he c hc).1 hc.temp (.inr hd)

theorem shortCircuit_spares {op : BinaryOp} (h : op = .and ∨ op = .or)
    (hL : ExprSpares base n left) (hR : ExprSpares base n right) :
    ExprSpares base n (.binary left op right) := by
  intro c hc
  obtain ⟨hs, hr⟩ := hL c hc
  have hmove := (hs.alloc.emit_one (i := .move (compileExpr left c).2.nextTemp
    (compileExpr left c).1) rfl (.inr hs.le)).freeTemp hc.baseTemp hr
  have hjump := hmove.emit_none (i := if op = .or
    then .jumpIfTrue (compileExpr left c).2.nextTemp 0
    else .jumpIfFalse (compileExpr left c).2.nextTemp 0) (by split <;> rfl)
  have hinto := hjump.trans (into_spares hR (hc.next hjump) hs.le)
  simp only [compileExpr, if_pos h]
  exact ⟨(hinto.setTemp hjump.le).patchJump hmove.length_le, .inr hs.le⟩

theorem binary_spares (op : BinaryOp) (hL : ExprSpares base n left)
    (hR : ExprSpares base n right) : ExprSpares base n (.binary left op right) := by
  by_cases h : op = .and ∨ op = .or
  · exact shortCircuit_spares h hL hR
  · intro c hc
    have hbin := binOp_spares op hL hR hc
    simp only [compileExpr, if_neg h]
    exact hbin

theorem index_spares (hL : ExprSpares base n left) (hR : ExprSpares base n right) :
    ExprSpares base n (.index left right) := by
  intro c hc
  obtain ⟨hs, hr⟩ := hL c hc
  obtain ⟨hs', hr'⟩ := hR _ (hc.next hs)
  obtain ⟨hd, hle⟩ := (hs.trans hs').ensureDst hc.baseTemp hr
  exact ⟨(hd.emit_one rfl (.inr hle)).freeTemp hc.baseTemp hr', .inr hle⟩

theorem last_spares (op : CmpOp) (hR : ExprSpares base n right) :
    ChainSpares base n (.last op right) := by
  intro c i prev result hc hprev hres
  obtain ⟨hs, hr⟩ := hR c hc
  have hem := hs.emit_one (i := .binOp result prev op.toBinary (compileExpr right c).1) rfl
    (.inr hres)
  exact ⟨hem.freeTempIf (0 < i) hc.baseTemp hprev, hr, fun p hp => absurd hp List.not_mem_nil⟩

theorem more_spares (op : CmpOp) (hR : ExprSpares base n right) (hrest : ChainSpares base n ops) :
    ChainSpares base n (.more op right ops) := by
  intro c i prev result hc hprev hres
  obtain ⟨hs, hr⟩ := hR c hc
  have hcmp := hs.alloc.emit_one (i := .binOp (compileExpr right c).2.nextTemp prev op.toBinary
    (compileExpr right c).1) rfl (.inr hs.le)
  have hfree := hcmp.freeTempIf (0 < i) hc.baseTemp hprev
  have hmove := (hfree.emit_one (i := .move result (compileExpr right c).2.nextTemp) rfl
    (.inr hres)).freeTemp hc.baseTemp (.inr hs.le)
  have hjump := hmove.emit_none (i := .jumpIfFalse result 0) rfl
  obtain ⟨hs', hr', hps⟩ := hrest _ (i+1) (compileExpr right c).1 result (hc.next hjump) hr hres
  refine ⟨hjump.trans hs', hr', fun p hp => ?_⟩
  rcases List.mem_cons.mp hp with rfl | hp
  · exact hmove.length_le
  · exact hjump.length_le.trans (hps p hp)

theorem compare_last_spares (op : CmpOp) (hL : ExprSpares base n left)
    (hR : ExprSpares base n right) : ExprSpares base n (.compare left (.last op right)) :=
  fun _ hc => binOp_spares op.toBinary hL hR hc

theorem compare_more_spares {op : CmpOp} (hL : ExprSpares base n left)
    (hops : ChainSpares base n (.more op right ops)) :
    ExprSpares base n (.compare left (.more op right ops)) := by
  intro c hc
  obtain ⟨hs, hr⟩ := hL c hc
  obtain ⟨hs', hr', hps⟩ := hops _ 0 (compileExpr left c).1 (compileExpr left c).2.nextTemp
    (hc.next hs.alloc) hr hs.le
  have hpatch := ((hs.alloc.trans hs').freeTemp hc.baseTemp hr').patchJumps
    fun p hp => hs.alloc.length_le.trans (hps p hp)
  exact ⟨hpatch.freeTemp hc.baseTemp hr, .inr hs.le⟩

theorem absent_spares : BoundSpares base n (.absent : Bound Lit) :=
  fun _ _ hc hslot => hc.refl.emit_one rfl (.inr hslot)

theorem present_spares (he : ExprSpares base n e) : BoundSpares base n (.present e) := by
  intro c slot hc hslot
  obtain ⟨hs, hr⟩ := he c hc
  simp only [fillSlot]
  split
  · exact hs
  · exact (hs.emit_one rfl (.inr hslot)).freeTemp hc.baseTemp hr

theorem slice_spares {lower upper step : Bound Lit} (he : ExprSpares base n e)
    (hlo : BoundSpares base n lower) (hhi : BoundSpares base n upper)
    (hst : BoundSpares base n step) : ExprSpares base n (.slice e lower upper step) := by
  intro c hc
  obtain ⟨hs, hr⟩ := he c hc
  obtain ⟨hd, hle⟩ := hs.ensureDst hc.baseTemp hr
  have hslots := hd.alloc.alloc.alloc
  have h₁ := hslots.trans (hlo _ _ (hc.next hslots) hd.le)
  have h₂ := h₁.trans (hhi _ _ (hc.next h₁) (Nat.le_succ_of_le hd.le))
  have h₃ := h₂.trans (hst _ _ (hc.next h₂) (Nat.le_succ_of_le (Nat.le_succ_of_le hd.le)))
  exact ⟨(h₃.emit_one rfl (.inr hle)).setTemp hd.le, .inr hle⟩

theorem no_args_spares : ArgsSpares base n (.nil : Args Lit) := fun _ _ hc _ => hc.refl

theorem args_spares (he : ExprSpares base n e) (hrest : ArgsSpares base n args) :
    ArgsSpares base n (.cons e args) := by
  intro c argReg hc harg
  have hmove := (moveInto_spared (r := (compileExpr e c).1) (he c hc).1
    (.inr harg : Free base n argReg)).setTemp hc.temp
  exact hmove.trans (hrest _ _ (hc.next hmove) (Nat.le_succ_of_le harg))

theorem append_nil_spares : AppendSpares base n (.nil : Args Lit) := fun _ _ hc => hc.refl

theorem append_spares (he : ExprSpares base n e) (hrest : AppendSpares base n args) :
    AppendSpares base n (.cons e args) := by
  intro c posList hc
  obtain ⟨hs, hr⟩ := he c hc
  have happ := (hs.emit_none (i := .listAppend posList (compileExpr e c).1) rfl).freeTemp
    hc.baseTemp hr
  exact happ.trans (hrest _ posList (hc.next happ))

/-- The private list and mapping of a long call are temporaries of its own. -/
theorem longCall_spared (name : String) (hA : AppendSpares base n args) {c c' : Compiler Lit}
    {obj : Reg} (hc : At base n c) (h : Spared base n c c') (hobj : n ≤ obj) :
    Spared base n c (longCall name args obj c').2 := by
  have hname := h.internName name
  have hlist := hname.alloc.alloc.emit_one (i := .buildList (c'.internName name).2.nextTemp
    ((c'.internName name).2.nextTemp+1) 0) rfl (.inr hname.le)
  have hdict := hlist.alloc.alloc.emit_one (i := .buildDict ((c'.internName name).2.nextTemp+2)
    ((c'.internName name).2.nextTemp+3) 0 .unicode) rfl (.inr hlist.le)
  have hargs := hdict.trans (hA _ (c'.internName name).2.nextTemp (hc.next hdict))
  exact (hargs.emit_one rfl (.inr hobj)).setTemp (Nat.le_succ_of_le hobj)

theorem longCall_spares (name : String) (hT : ExprSpares base n e) (hA : AppendSpares base n args)
    (hlen : 255 < args.length) : ExprSpares base n (.methodCall e name args) := by
  intro c hc
  rw [compileExpr_longCall hlen]
  refine ⟨longCall_spared name hA hc ?_ hc.temp, .inr hc.temp⟩
  split
  · exact hc.refl.alloc.emit_one rfl (.inr hc.temp)
  · exact hc.refl.alloc.trans (into_spares hT (hc.next hc.refl.alloc) hc.temp)

theorem methodCall_spares (name : String) (hT : ExprSpares base n e) (hA : ArgsSpares base n args)
    (hlen : ¬255 < args.length) : ExprSpares base n (.methodCall e name args) := by
  intro c hc
  have hframe : Spared base n c { c with nextTemp := c.nextTemp+1+args.length } :=
    hc.refl.setTemp (hc.temp.trans (Nat.le_add_right_of_le (Nat.le_succ _)))
  have harg : n ≤ c.nextTemp+1 := Nat.le_succ_of_le hc.temp
  simp only [compileExpr, if_neg hlen]
  split
  case h_1 reg _ =>
    have hs := (hframe.trans (hA _ _ (hc.next hframe) harg)).internName name
    exact ⟨(hs.emit_one rfl (.inr hc.temp)).setTemp harg, .inr hc.temp⟩
  case h_2 =>
    have hinto := (hframe.trans (into_spares hT (hc.next hframe) hc.temp)).setTemp hframe.le
    have hs := (hinto.trans (hA _ _ (hc.next hinto) harg)).internName name
    exact ⟨(hs.emit_one rfl (.inr hc.temp)).setTemp harg, .inr hc.temp⟩

theorem ternary_spares {cond thenE elseE : Expr Lit} (hC : ExprSpares base n cond)
    (hT : ExprSpares base n thenE) (hE : ExprSpares base n elseE) :
    ExprSpares base n (.ternary cond thenE elseE) := by
  intro c hc
  obtain ⟨hs, hr⟩ := hC c hc
  have hjump := (hs.emit_none (i := .jumpIfFalse (compileExpr cond c).1 0) rfl).freeTemp
    hc.baseTemp hr
  have hdst := hjump.alloc
  have hthen := (hdst.trans (into_spares hT (hc.next hdst) hjump.le)).setTemp hdst.le
  have hover := (hthen.emit_none (i := .jump 0) rfl).patchJump hs.length_le
  have helse := (hover.trans (into_spares hE (hc.next hover) hjump.le)).setTemp hdst.le
  exact ⟨helse.patchJump hthen.length_le, .inr hjump.le⟩

theorem named_spares (name : String) (he : ExprSpares base n e) :
    ExprSpares base n (.named name e) := by
  intro c hc
  obtain ⟨hs, hr⟩ := he c hc
  have hc' := hc.next hs
  simp only [compileExpr]
  split
  case h_1 reg hreg =>
    refine ⟨Spared.markDef ?_ reg, hr⟩
    split
    · exact hs.emit_one rfl (.inl (hc'.locals name reg hreg))
    · exact hs
  case h_2 => exact ⟨(hs.internName name).emit_none rfl, hr⟩

end forms

section all
variable {Lit : Type} [DecidableEq Lit] {base n : Reg}

mutual

theorem expr_spares : ∀ e : Expr Lit, ExprSpares base n e
  | .none => none_spares
  | .lit v => lit_spares v
  | .var name => var_spares name
  | .unary op e => unary_spares op (expr_spares e)
  | .binary left op right => binary_spares op (expr_spares left) (expr_spares right)
  | .compare left (.last op right) =>
    compare_last_spares op (expr_spares left) (expr_spares right)
  | .compare left (.more op right rest) =>
    compare_more_spares (expr_spares left) (more_spares op (expr_spares right) (chain_spares rest))
  | .attr target name => attr_spares name (expr_spares target)
  | .index target idx => index_spares (expr_spares target) (expr_spares idx)
  | .slice target lower upper step =>
    slice_spares (expr_spares target) (bound_spares lower) (bound_spares upper) (bound_spares step)
  | .methodCall target name args =>
    if hlen : 255 < args.length then
      longCall_spares name (expr_spares target) (append_args_spares args) hlen
    else methodCall_spares name (expr_spares target) (call_args_spares args) hlen
  | .ternary cond thenE elseE =>
    ternary_spares (expr_spares cond) (expr_spares thenE) (expr_spares elseE)
  | .named name value => named_spares name (expr_spares value)

theorem chain_spares : ∀ ops : Comparisons Lit, ChainSpares base n ops
  | .last op right => last_spares op (expr_spares right)
  | .more op right rest => more_spares op (expr_spares right) (chain_spares rest)

theorem bound_spares : ∀ b : Bound Lit, BoundSpares base n b
  | .absent => absent_spares
  | .present e => present_spares (expr_spares e)

theorem call_args_spares : ∀ args : Args Lit, ArgsSpares base n args
  | .nil => no_args_spares
  | .cons arg rest => args_spares (expr_spares arg) (call_args_spares rest)

theorem append_args_spares : ∀ args : Args Lit, AppendSpares base n args
  | .nil => append_nil_spares
  | .cons arg rest => append_spares (expr_spares arg) (append_args_spares rest)

end

end all

end Pyrust.SparedExpressions
