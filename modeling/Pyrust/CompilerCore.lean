import Pyrust.Bytecode

/-!
# The compiler's state

Instructions are appended to one stream. Named locals have fixed registers below
`baseTemp`; temporaries are allocated above it and freed in stack order, and a
free out of that order does nothing. A jump is emitted with offset zero and
patched once its target is known. The counts of registers, names and constants
are not bounded here: past the bounds of the source nothing is compiled.
-/

set_option autoImplicit false

namespace Pyrust.CompilerCore

open Bytecode

/-- The compiler of one function body, over a type of literals. -/
structure Compiler (Lit : Type) where
  /-- `local_reg`: the register of a name that is neither global nor a cell. -/
  localReg : String → Option Reg
  isFunctionCell : String → Bool
  baseTemp : Reg
  nextTemp : Reg
  insns : List Insn
  consts : List Lit
  names : List String
  defSet : BitVec 64

/-- The opcodes whose destination `retarget_last` replaces, with that destination. -/
def retarget (into : Reg) : Insn → Option (Reg × Insn)
  | .binOp d a op b => some (d, .binOp into a op b)
  | .binOpInPlace d a op b => some (d, .binOpInPlace into a op b)
  | .binOpConst d a op c aug => some (d, .binOpConst into a op c aug)
  | .binOpImm d a op imm aug => some (d, .binOpImm into a op imm aug)
  | .unaryOp d op a => some (d, .unaryOp into op a)
  | .loadConst d i => some (d, .loadConst into i)
  | .loadNone d => some (d, .loadNone into)
  | .loadGlobal d n => some (d, .loadGlobal into n)
  | .loadClassName d slot n => some (d, .loadClassName into slot n)
  | .move d a => some (d, .move into a)
  | .getAttr d a n => some (d, .getAttr into a n)
  | .getAttrForWith d a n p => some (d, .getAttrForWith into a n p)
  | .importFromAttr d a n => some (d, .importFromAttr into a n)
  | .getItem d a b => some (d, .getItem into a b)
  | .makeFunction d p b n ab an => some (d, .makeFunction into p b n ab an)
  | .makeClass d p b n ni kb kn => some (d, .makeClass into p b n ni kb kn)
  | .buildList d b n => some (d, .buildList into b n)
  | .buildTuple d b n => some (d, .buildTuple into b n)
  | .buildDict d b n h => some (d, .buildDict into b n h)
  | .forIter d slot k => some (d, .forIter into slot k)
  | .loadExc d => some (d, .loadExc into)
  | .importModule d n => some (d, .importModule into n)
  | _ => none

/-- Set the offset of the jump at `idx` to lead past the end of the code. -/
def patchAt (idx : ℕ) (code : List Insn) : List Insn :=
  code.modify idx (Insn.fixOff fun _ => (code.length : ℤ)-idx-1)

namespace Compiler

variable {Lit : Type} (c : Compiler Lit)

def emit (i : Insn) : Compiler Lit := { c with insns := c.insns ++ [i] }

def allocTemp : Reg × Compiler Lit := (c.nextTemp, { c with nextTemp := c.nextTemp+1 })

def freeTemp (r : Reg) : Compiler Lit :=
  if c.baseTemp ≤ r ∧ r+1 = c.nextTemp then { c with nextTemp := c.nextTemp-1 } else c

/-- Reuse a temporary as the destination, or take a fresh one. -/
def ensureDst (candidate : Reg) : Reg × Compiler Lit :=
  if c.baseTemp ≤ candidate then (candidate, c) else c.allocTemp

def internName (name : String) : ℕ × Compiler Lit :=
  match c.names.idxOf? name with
  | some i => (i, c)
  | none => (c.names.length, { c with names := c.names ++ [name] })

def internConst [DecidableEq Lit] (val : Lit) : ℕ × Compiler Lit :=
  match c.consts.idxOf? val with
  | some i => (i, c)
  | none => (c.consts.length, { c with consts := c.consts ++ [val] })

def patchJump (idx : ℕ) : Compiler Lit := { c with insns := patchAt idx c.insns }

def markDef (reg : Reg) : Compiler Lit :=
  if reg < 64 then { c with defSet := c.defSet ||| 1#64 <<< reg } else c

def definitelyBound (reg : Reg) : Bool := reg < 64 && c.defSet.getLsbD reg

/-- Retarget the last instruction from one destination to another. -/
def retargetLast (source into : Reg) : Option (Compiler Lit) :=
  match c.insns.getLast?.bind (retarget into) with
  | some (d, i) => if d = source then some { c with insns := c.insns.dropLast ++ [i] } else none
  | none => none

end Compiler

end Pyrust.CompilerCore
