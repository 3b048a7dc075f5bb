import Pyrust.CompilerCore
import Pyrust.Fragment

/-!
# Expressions

The expression forms over local names, literals, operators, conditional
expressions, subscripts, slices, attributes, method calls and assignment
expressions: the code the compiler emits for them, and what they mean. A local
operand is compiled to its own register, everything else to a temporary.
-/

set_option autoImplicit false

namespace Pyrust.Expressions

open Bytecode CompilerCore

inductive CmpOp where
  | eq | ne | lt | le | gt | ge | isIn | notIn | is | isNot
  deriving DecidableEq, Repr

def CmpOp.toBinary : CmpOp → BinaryOp
  | .eq => .eq
  | .ne => .ne
  | .lt => .lt
  | .le => .le
  | .gt => .gt
  | .ge => .ge
  | .isIn => .isIn
  | .notIn => .notIn
  | .is => .is
  | .isNot => .isNot

mutual

inductive Expr (Lit : Type) where
  | none
  | lit (v : Lit)
  | var (name : String)
  | unary (op : UnaryOp) (e : Expr Lit)
  | binary (left : Expr Lit) (op : BinaryOp) (right : Expr Lit)
  | compare (left : Expr Lit) (ops : Comparisons Lit)
  | attr (target : Expr Lit) (name : String)
  | index (target idx : Expr Lit)
  | slice (target : Expr Lit) (lower upper step : Bound Lit)
  | methodCall (target : Expr Lit) (name : String) (args : Args Lit)
  | ternary (cond thenE elseE : Expr Lit)
  | named (target : String) (value : Expr Lit)

/-- The operators and right operands of a comparison, at least one. -/
inductive Comparisons (Lit : Type) where
  | last (op : CmpOp) (right : Expr Lit)
  | more (op : CmpOp) (right : Expr Lit) (rest : Comparisons Lit)

inductive Bound (Lit : Type) where
  | absent
  | present (e : Expr Lit)

inductive Args (Lit : Type) where
  | nil
  | cons (arg : Expr Lit) (rest : Args Lit)

end

def Args.length {Lit : Type} : Args Lit → ℕ
  | .nil => 0
  | .cons _ rest => rest.length+1

section compile
variable {Lit : Type} [DecidableEq Lit]

def compileLiteral (v : Lit) (c : Compiler Lit) : Reg × Compiler Lit :=
  let (idx, c) := c.internConst v
  let (dst, c) := c.allocTemp
  (dst, c.emit (.loadConst dst idx))

/-- A local that is definitely bound is its register, without any instruction. -/
def compileVar (name : String) (c : Compiler Lit) : Reg × Compiler Lit :=
  match c.localReg name with
  | some reg =>
    if c.definitelyBound reg then (reg, c)
    else
      let (idx, c) := c.internName name
      (reg, c.emit (.checkLocal reg idx))
  | none =>
    let (idx, c) := c.internName name
    let (dst, c) := c.allocTemp
    (dst, c.emit (if c.isFunctionCell name then .loadCell dst idx else .loadGlobal dst idx))

/-- Bring the value of an expression just compiled into a register: retarget its only
instruction, or copy. -/
def moveInto (dst : Reg) (before : Compiler Lit) (r : Reg) (c : Compiler Lit) : Compiler Lit :=
  if r = dst then c
  else if c.insns.length = before.insns.length+1 ∧ c.baseTemp ≤ r then
    (c.retargetLast r dst).getD (c.emit (.move dst r))
  else c.emit (.move dst r)

/-- What `compile_expr_into` does behind `compile_expr`. -/
def exprInto (dst : Reg) (before : Compiler Lit) (x : Reg × Compiler Lit) : Compiler Lit :=
  let c := moveInto dst before x.1 x.2
  if x.1 ≠ dst ∧ c.baseTemp ≤ x.1 then { c with nextTemp := before.nextTemp } else c

/-- The receiver of a method call when it is a bare local. -/
def localReceiver (regOf : String → Option Reg) : Expr Lit → Option Reg
  | .var name => regOf name
  | _ => none

def patchJumps (idxs : List ℕ) (c : Compiler Lit) : Compiler Lit :=
  idxs.foldl (fun c idx => c.patchJump idx) c

mutual

def compileExpr : Expr Lit → Compiler Lit → Reg × Compiler Lit
  | .none, c =>
    let (dst, c) := c.allocTemp
    (dst, c.emit (.loadNone dst))
  | .lit v, c => compileLiteral v c
  | .var name, c => compileVar name c
  | .unary op e, c =>
    let (src, c) := compileExpr e c
    let (dst, c) := c.ensureDst src
    (dst, c.emit (.unaryOp dst op src))
  | .binary left op right, c =>
    if op = .and ∨ op = .or then
      -- `compile_short_circuit`
      let (lhs, c) := compileExpr left c
      let (dst, c) := c.allocTemp
      let c := (c.emit (.move dst lhs)).freeTemp lhs
      let jmp := c.insns.length
      let c := c.emit (if op = .or then .jumpIfTrue dst 0 else .jumpIfFalse dst 0)
      let saved := c.nextTemp
      let c := exprInto dst c (compileExpr right c)
      (dst, { c with nextTemp := saved }.patchJump jmp)
    else
      let (lhs, c) := compileExpr left c
      let (dst, c) := c.ensureDst lhs
      let (rhs, c) := compileExpr right c
      (dst, (c.emit (.binOp dst lhs op rhs)).freeTemp rhs)
  | .compare left (.last op right), c =>
    let (lhs, c) := compileExpr left c
    let (dst, c) := c.ensureDst lhs
    let (rhs, c) := compileExpr right c
    (dst, (c.emit (.binOp dst lhs op.toBinary rhs)).freeTemp rhs)
  | .compare left ops, c =>
    let (first, c) := compileExpr left c
    let (result, c) := c.allocTemp
    let (patches, prev, c) := compileChain ops 0 first result c
    (result, (patchJumps patches (c.freeTemp prev)).freeTemp first)
  | .attr target name, c =>
    let (obj, c) := compileExpr target c
    let (idx, c) := c.internName name
    let (dst, c) := c.ensureDst obj
    (dst, c.emit (.getAttr dst obj idx))
  | .index target idx, c =>
    let (obj, c) := compileExpr target c
    let (idx, c) := compileExpr idx c
    let (dst, c) := c.ensureDst obj
    (dst, (c.emit (.getItem dst obj idx)).freeTemp idx)
  | .slice target lower upper step, c =>
    let (obj, c) := compileExpr target c
    let (dst, c) := c.ensureDst obj
    let saved := c.nextTemp
    -- `compile_slice_bounds`
    let (lo, c) := c.allocTemp
    let (hi, c) := c.allocTemp
    let (st, c) := c.allocTemp
    let c := fillSlot lower lo c
    let c := fillSlot upper hi c
    let c := fillSlot step st c
    (dst, { c.emit (.getSlice dst obj lo) with nextTemp := saved })
  | .methodCall target name args, c =>
    if 255 < args.length then
      -- `compile_variadic_call`
      let (obj, c) := c.allocTemp
      let c := match localReceiver c.localReg target with
        | some reg => c.emit (.move obj reg)
        | none => exprInto obj c (compileExpr target c)
      let (idx, c) := c.internName name
      let (posList, c) := c.allocTemp
      let (emptyList, c) := c.allocTemp
      let c := c.emit (.buildList posList emptyList 0)
      let (kwDict, c) := c.allocTemp
      let (emptyDict, c) := c.allocTemp
      let c := c.emit (.buildDict kwDict emptyDict 0 .unicode)
      let c := appendArgs args posList c
      let c := c.emit (.callMethodExpanded obj obj idx posList kwDict)
      (obj, { c with nextTemp := obj+1 })
    else
      -- `compile_method_call`
      let dst := c.nextTemp
      let argsBase := dst+1
      let frame : Compiler Lit := { c with nextTemp := argsBase+args.length }
      match localReceiver c.localReg target with
      | some reg =>
        let c := compileArgs args argsBase frame
        let (idx, c) := c.internName name
        (dst, { c.emit (.callMethod dst reg idx argsBase args.length) with nextTemp := dst+1 })
      | none =>
        let c := exprInto dst frame (compileExpr target frame)
        let c := compileArgs args argsBase { c with nextTemp := frame.nextTemp }
        let (idx, c) := c.internName name
        (dst, { c.emit (.callMethod dst dst idx argsBase args.length) with nextTemp := dst+1 })
  | .ternary cond thenE elseE, c =>
    let (cond, c) := compileExpr cond c
    let jmpFalse := c.insns.length
    let c := (c.emit (.jumpIfFalse cond 0)).freeTemp cond
    let (dst, c) := c.allocTemp
    let saved := c.nextTemp
    let c := { exprInto dst c (compileExpr thenE c) with nextTemp := saved }
    let jmpEnd := c.insns.length
    let c := (c.emit (.jump 0)).patchJump jmpFalse
    let c := { exprInto dst c (compileExpr elseE c) with nextTemp := saved }
    (dst, c.patchJump jmpEnd)
  | .named target value, c =>
    let (val, c) := compileExpr value c
    match c.localReg target with
    | some reg => (val, (if val ≠ reg then c.emit (.move reg val) else c).markDef reg)
    | none =>
      let (idx, c) := c.internName target
      (val, c.emit (.storeGlobal idx val))

/-- The loop of a chained comparison from its `i`-th operator on: the jumps to patch, the last
right operand and the state. -/
def compileChain : Comparisons Lit → ℕ → Reg → Reg → Compiler Lit → List ℕ × Reg × Compiler Lit
  | .last op right, i, prev, result, c =>
    let (rhs, c) := compileExpr right c
    let c := c.emit (.binOp result prev op.toBinary rhs)
    ([], rhs, if 0 < i then c.freeTemp prev else c)
  | .more op right rest, i, prev, result, c =>
    let (rhs, c) := compileExpr right c
    let (cmp, c) := c.allocTemp
    let c := c.emit (.binOp cmp prev op.toBinary rhs)
    let c := if 0 < i then c.freeTemp prev else c
    let c := (c.emit (.move result cmp)).freeTemp cmp
    let p := c.insns.length
    let c := c.emit (.jumpIfFalse result 0)
    let (patches, last, c) := compileChain rest (i+1) rhs result c
    (p::patches, last, c)

/-- `fill_slot`. -/
def fillSlot : Bound Lit → Reg → Compiler Lit → Compiler Lit
  | .absent, slot, c => c.emit (.loadNone slot)
  | .present e, slot, c =>
    let (src, c) := compileExpr e c
    if src = slot then c else (c.emit (.move slot src)).freeTemp src

/-- The arguments of a compact call, laid out from `argReg` on. -/
def compileArgs : Args Lit → Reg → Compiler Lit → Compiler Lit
  | .nil, _, c => c
  | .cons arg rest, argReg, c =>
    let (r, c') := compileExpr arg c
    compileArgs rest (argReg+1) { moveInto argReg c r c' with nextTemp := c.nextTemp }

/-- The arguments of an expanded call, appended to a private list. -/
def appendArgs : Args Lit → Reg → Compiler Lit → Compiler Lit
  | .nil, _, c => c
  | .cons arg rest, posList, c =>
    let (val, c) := compileExpr arg c
    appendArgs rest posList ((c.emit (.listAppend posList val)).freeTemp val)

end

def compileExprInto (e : Expr Lit) (dst : Reg) (c : Compiler Lit) : Compiler Lit :=
  exprInto dst c (compileExpr e c)

end compile

end Pyrust.Expressions
