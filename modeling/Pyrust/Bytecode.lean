import Mathlib.Algebra.Group.Int.Defs
import Mathlib.Algebra.Group.Nat.Defs

/-!
# The executable instruction schema

One constructor for each opcode of the register machine, in the order of the
source, with the operand registers, pool indices and jump offsets it carries.
A jump offset counts from the instruction after the one that holds it. The
classification functions below are the ones the optimizer passes share.
-/

set_option autoImplicit false

namespace Pyrust.Bytecode

abbrev Reg := ℕ

inductive BinaryOp where
  | add | sub | mul | matMul | div | floorDiv | mod | pow
  | bitAnd | bitOr | bitXor | lShift | rShift
  | eq | ne | lt | le | gt | ge
  | and | or | isIn | notIn | is | isNot
  deriving DecidableEq, Repr

inductive UnaryOp where
  | neg | not | bitNot | pos
  deriving DecidableEq, Repr

inductive DictKeyKindHint where
  | unknown | unicode | general
  deriving DecidableEq, Repr

structure IntRangeExactGuard where
  slot : ℕ
  start : ℤ
  stop : ℤ
  step : ℤ
  deriving DecidableEq, Repr

/-- Where a call-context merge finds the callee's name for its error text. -/
inductive KwCallName where
  | callee (reg : Reg)
  | method (obj : Reg) (nameIdx : ℕ)
  deriving DecidableEq, Repr

def KwCallName.reads : KwCallName → List Reg
  | .callee reg => [reg]
  | .method obj _ => [obj]

/-- `kwcall_name_subst`. -/
def KwCallName.subst (s : Reg → Reg) : KwCallName → KwCallName
  | .callee reg => .callee (s reg)
  | .method obj nameIdx => .method (s obj) nameIdx

/-- `Reg::MAX`, the absent operand of `loadClassName`. -/
def noClassLocal : Reg := 2^32-1

/-- `Reg::MAX`, the absent keyword mapping of `callExArgs`. -/
def noKwargs : Reg := 2^32-1

inductive Insn where
  | loadConst (dst : Reg) (idx : ℕ)
  | loadGlobal (dst : Reg) (nameIdx : ℕ)
  | loadClassName (dst slot : Reg) (nameIdx : ℕ)
  | storeGlobal (nameIdx : ℕ) (src : Reg)
  | loadCell (dst : Reg) (nameIdx : ℕ)
  | storeCell (nameIdx : ℕ) (src : Reg)
  | loadNone (dst : Reg)
  | loadNoneRange (start : Reg) (count : ℕ)
  | move (dst src : Reg)
  | copyReg (dst src : Reg)
  | binOp (dst lhs : Reg) (op : BinaryOp) (rhs : Reg)
  | binOpInPlace (dst lhs : Reg) (op : BinaryOp) (rhs : Reg)
  | binOpConst (dst lhs : Reg) (op : BinaryOp) (constIdx : ℕ) (isAug : Bool)
  | binOpImm (dst lhs : Reg) (op : BinaryOp) (imm : ℤ) (isAug : Bool)
  | unaryOp (dst : Reg) (op : UnaryOp) (src : Reg)
  | matchSeqExcluded (dst subj : Reg)
  | matchMapping (dst subj : Reg)
  | getAttr (dst obj : Reg) (nameIdx : ℕ)
  | getAttrForWith (dst obj : Reg) (nameIdx proto : ℕ)
  | setAttr (obj : Reg) (nameIdx : ℕ) (val : Reg)
  | deleteAttr (obj : Reg) (nameIdx : ℕ)
  | getItem (dst obj idx : Reg)
  | getItemSeqIntOrExit (dst obj idx : Reg) (off : ℤ)
  | getSlice (dst obj base : Reg)
  | setItem (obj idx val : Reg)
  | deleteItem (obj idx : Reg)
  | deleteName (nameIdx : ℕ)
  | pushTypeParamEnv
  | popTypeParamEnv
  | deleteLocal (reg : Reg) (nameIdx : ℕ) (raiseIfMissing : Bool)
  | jump (off : ℤ)
  | jumpIfFalse (cond : Reg) (off : ℤ)
  | jumpIfTrue (cond : Reg) (off : ℤ)
  | cmpJumpIfFalse (lhs : Reg) (op : BinaryOp) (rhs : Reg) (off : ℤ)
  | cmpJumpIfTrue (lhs : Reg) (op : BinaryOp) (rhs : Reg) (off : ℤ)
  | cmpJumpIfFalseConst (lhs : Reg) (op : BinaryOp) (constIdx : ℕ) (off : ℤ)
  | cmpJumpIfTrueConst (lhs : Reg) (op : BinaryOp) (constIdx : ℕ) (off : ℤ)
  | jumpIfNotInt (reg : Reg) (off : ℤ)
  | countCmpJumpTrue (var : Reg) (op : BinaryOp) (stop : Reg) (imm off : ℤ)
  | countCmpJumpFalse (var : Reg) (op : BinaryOp) (stop : Reg) (imm off : ℤ)
  | jumpIfIterNotIntRange (slot : ℕ) (off : ℤ)
  | jumpIfIterNotIndexedSeq (slot : ℕ) (off : ℤ)
  | jumpIfIterNotIntRangeExact (guard : IntRangeExactGuard) (off : ℤ)
  | jumpIfNotBuiltinLen (reg : Reg) (off : ℤ)
  | lenSeqOrExit (dst seq : Reg) (off : ℤ)
  | callInlineBinOp (callee dst a : Reg) (op : BinaryOp) (b : Reg) (proto : ℕ) (skip : ℤ)
  | call (func : Reg) (argc : ℕ)
  | callMemo (func : Reg) (argc : ℕ)
  | callMethod (dst obj : Reg) (nameIdx : ℕ) (argsBase : Reg) (nargs : ℕ)
  | callMethodExpanded (dst obj : Reg) (nameIdx : ℕ) (posList kwDict : Reg)
  | callKw (func : Reg) (total nkw kwnamesIdx : ℕ)
  | callEx (func : Reg) (npos : ℕ) (kwargs : Reg)
  | callExArgs (func : Reg) (npos nkw kwnamesIdx : ℕ) (argsSplat kwargs : Reg)
  | callMethodKw (dst obj : Reg) (nameIdx : ℕ) (argsBase : Reg) (total nkw kwnamesIdx : ℕ)
  | ret (src : Reg)
  | returnNone
  | buildList (dst base : Reg) (n : ℕ)
  | buildListReserve (dst src : Reg)
  | buildTuple (dst base : Reg) (n : ℕ)
  | buildString (dst base : Reg) (n : ℕ)
  | formatValue (dst src : Reg)
  | formatValueSpec (dst src spec : Reg)
  | buildSlice (dst base : Reg)
  | buildDict (dst base : Reg) (n : ℕ) (hint : DictKeyKindHint)
  | unpack (base src : Reg) (n : ℕ)
  | unpackEx (src : Reg) (before after : ℕ) (dstBase : Reg)
  | getIter (slot : ℕ) (src : Reg)
  | forIter (dst : Reg) (slot : ℕ) (off : ℤ)
  | checkLocal (reg : Reg) (nameIdx : ℕ)
  | raiseAssert (msg : Reg)
  | raiseAssertNoMsg
  | raiseValue (exc : Reg)
  | raiseFrom (exc cause : Reg)
  | raiseReRaise
  | raiseExceptStarResidual (exc : Reg)
  | matchClassPositional (dstBase subj cls : Reg) (n : ℕ)
  | makeFunction (dst : Reg) (proto : ℕ) (defsBase : Reg) (defsN : ℕ) (annotsBase : Reg)
      (annotsN : ℕ)
  | importModule (dst : Reg) (nameIdx : ℕ)
  | importFromAttr (dst mod : Reg) (nameIdx : ℕ)
  | importStar (mod : Reg)
  | setupExcept (off : ℤ)
  | popExcept
  | loadExc (dst : Reg)
  | loadExcTraceback (dst exc : Reg)
  | matchExcept (type : Reg) (off : ℤ)
  | matchExceptStar (type srcGroup matchedDst : Reg) (off : ℤ)
  | endExcept
  | pushExcContext (src : Reg)
  | popExcContext
  | makeClass (dst : Reg) (proto : ℕ) (basesBase : Reg) (basesN nameIdx : ℕ) (kwargBase : Reg)
      (kwargN : ℕ)
  | makeClassMeta (dst : Reg) (proto : ℕ) (basesBase : Reg) (basesN nameIdx : ℕ)
      (kwargBase : Reg) (kwargN : ℕ) (metaReg : Reg)
  | makeTypeVar (dst : Reg) (nameIdx : ℕ)
  | setTypeVarAttr (obj : Reg) (nameIdx : ℕ) (val : Reg)
  | makeTypeAlias (dst : Reg) (nameIdx : ℕ) (value params : Reg)
  | printExpr (src : Reg)
  | setAdd (set val : Reg)
  | listAppend (list val : Reg)
  | listExtend (list src : Reg)
  | listExtendCall (list src : Reg) (name : KwCallName)
  | dictUpdate (dict src : Reg)
  | dictMergeKwCall (dict src : Reg) (name : KwCallName)
  | setItemKwCall (dict key val : Reg) (name : KwCallName)
  | yield (src dst : Reg)
  | yieldFrom (iterReg sentReg resultReg : Reg)
  | getAwaitable (dst src : Reg)
  | recordClassStore (slot : Reg)
  | recordClassDel (slot : Reg)
  | concat (dst base : Reg) (count : ℕ)
  | syncModuleGlobal (reg : Reg) (nameIdx : ℕ)
  | deleteModuleGlobal (nameIdx : ℕ)
  deriving DecidableEq, Repr

namespace Insn

/-- The offset of every instruction that carries one. -/
def jumpOff : Insn → Option ℤ
  | jump k | jumpIfFalse _ k | jumpIfTrue _ k | cmpJumpIfFalse _ _ _ k | cmpJumpIfTrue _ _ _ k
  | cmpJumpIfFalseConst _ _ _ k | cmpJumpIfTrueConst _ _ _ k | forIter _ _ k | setupExcept k
  | matchExcept _ k | matchExceptStar _ _ _ k | jumpIfNotInt _ k | jumpIfIterNotIntRange _ k
  | jumpIfIterNotIndexedSeq _ k | jumpIfIterNotIntRangeExact _ k | getItemSeqIntOrExit _ _ _ k
  | jumpIfNotBuiltinLen _ k | lenSeqOrExit _ _ k | countCmpJumpTrue _ _ _ _ k
  | countCmpJumpFalse _ _ _ _ k | callInlineBinOp _ _ _ _ _ _ k => some k
  | _ => none

/-- Apply `fix` to the offset, as the match of `rewrite_offsets_with` does. -/
def fixOff (fix : ℤ → ℤ) : Insn → Insn
  | jump k => jump (fix k)
  | jumpIfFalse r k => jumpIfFalse r (fix k)
  | jumpIfTrue r k => jumpIfTrue r (fix k)
  | cmpJumpIfFalse a op b k => cmpJumpIfFalse a op b (fix k)
  | cmpJumpIfTrue a op b k => cmpJumpIfTrue a op b (fix k)
  | cmpJumpIfFalseConst r op c k => cmpJumpIfFalseConst r op c (fix k)
  | cmpJumpIfTrueConst r op c k => cmpJumpIfTrueConst r op c (fix k)
  | forIter dst slot k => forIter dst slot (fix k)
  | setupExcept k => setupExcept (fix k)
  | matchExcept r k => matchExcept r (fix k)
  | matchExceptStar r src dst k => matchExceptStar r src dst (fix k)
  | jumpIfNotInt r k => jumpIfNotInt r (fix k)
  | jumpIfIterNotIntRange s k => jumpIfIterNotIntRange s (fix k)
  | jumpIfIterNotIndexedSeq s k => jumpIfIterNotIndexedSeq s (fix k)
  | jumpIfIterNotIntRangeExact guard k => jumpIfIterNotIntRangeExact guard (fix k)
  | getItemSeqIntOrExit dst obj idx k => getItemSeqIntOrExit dst obj idx (fix k)
  | jumpIfNotBuiltinLen r k => jumpIfNotBuiltinLen r (fix k)
  | lenSeqOrExit dst seq k => lenSeqOrExit dst seq (fix k)
  | countCmpJumpTrue v op s imm k => countCmpJumpTrue v op s imm (fix k)
  | countCmpJumpFalse v op s imm k => countCmpJumpFalse v op s imm (fix k)
  | callInlineBinOp callee dst a op b proto k => callInlineBinOp callee dst a op b proto (fix k)
  | other => other

/-- `collect_reads`: every register whose value the instruction reads, in operand order. -/
def collectReads : Insn → List Reg
  | loadClassName _ slot _ => if slot = noClassLocal then [] else [slot]
  | storeGlobal _ s | storeCell _ s | importStar s | move _ s | copyReg _ s | unaryOp _ _ s
  | formatValue _ s | matchSeqExcluded _ s | matchMapping _ s | ret s | printExpr s
  | raiseValue s | raiseExceptStarResidual s | raiseAssert s | jumpIfFalse s _ | jumpIfTrue s _
  | getIter _ s | getAwaitable _ s | buildListReserve _ s | unpack _ s _ | checkLocal s _
  | getAttr _ s _ | getAttrForWith _ s _ _ | loadExcTraceback _ s | importFromAttr _ s _
  | deleteAttr s _ | binOpConst _ s _ _ _ | binOpImm _ s _ _ _ | cmpJumpIfFalseConst s _ _ _
  | jumpIfNotInt s _ | jumpIfNotBuiltinLen s _ | lenSeqOrExit _ s _ | cmpJumpIfTrueConst s _ _ _
  | matchExcept s _ | recordClassStore s | recordClassDel s | pushExcContext s
  | syncModuleGlobal s _ | yield s _ | unpackEx s _ _ _ => [s]
  | matchExceptStar type src _ _ => [type, src]
  | binOp _ a _ b | binOpInPlace _ a _ b | cmpJumpIfFalse a _ b _ | cmpJumpIfTrue a _ b _
  | countCmpJumpTrue a _ b _ _ | countCmpJumpFalse a _ b _ _ | raiseFrom a b | setAdd a b
  | listAppend a b | listExtend a b | dictUpdate a b | getItem _ a b | getItemSeqIntOrExit _ a b _
  | formatValueSpec _ a b | deleteItem a b => [a, b]
  | listExtendCall list src name => [list, src] ++ name.reads
  | setAttr obj _ val | setTypeVarAttr obj _ val => [obj, val]
  | setItem a b c => [a, b, c]
  | dictMergeKwCall dict src name => [dict, src] ++ name.reads
  | setItemKwCall dict key val name => [dict, key, val] ++ name.reads
  | call base argc | callMemo base argc => List.range' base (argc+1)
  | callKw func total _ _ => List.range' func (total+1)
  | callEx func npos kwargs => List.range' func (npos+1) ++ [kwargs]
  | callExArgs func npos nkw _ argsSplat kwargs =>
    List.range' func (npos+nkw+1) ++ [argsSplat] ++ if kwargs = noKwargs then [] else [kwargs]
  | buildList _ base n | buildTuple _ base n | buildString _ base n => List.range' base n
  | buildSlice _ base => List.range' base 3
  | getSlice _ obj base => obj :: List.range' base 3
  | buildDict _ base n _ => List.range' base (2*n)
  | callMethod _ obj _ argsBase nargs => obj :: List.range' argsBase nargs
  | callMethodKw _ obj _ argsBase total _ _ => obj :: List.range' argsBase total
  | callMethodExpanded _ obj _ posList kwDict => [obj, posList, kwDict]
  | makeFunction _ _ defsBase defsN annotsBase annotsN =>
    List.range' defsBase defsN ++ List.range' annotsBase annotsN
  | makeClass _ _ basesBase basesN _ kwargBase kwargN =>
    List.range' basesBase basesN ++ List.range' kwargBase kwargN
  | makeClassMeta _ _ basesBase basesN _ kwargBase kwargN metaReg =>
    metaReg :: (List.range' basesBase basesN ++ List.range' kwargBase kwargN)
  | makeTypeAlias _ _ value params => [value, params]
  | yieldFrom iterReg sentReg _ => [iterReg, sentReg]
  | concat _ base count => List.range' base count
  | matchClassPositional _ subj cls _ => [subj, cls]
  | callInlineBinOp callee _ a _ b _ _ => [callee, a, b]
  | _ => []

/-- `collect_writes`: every register the instruction may define. -/
def collectWrites : Insn → List Reg
  | loadConst r _ | loadGlobal r _ | loadClassName r _ _ | loadCell r _ | loadNone r | loadExc r
  | loadExcTraceback r _ | importModule r _ | makeFunction r _ _ _ _ _ | makeClass r _ _ _ _ _ _
  | makeClassMeta r _ _ _ _ _ _ _ | makeTypeAlias r _ _ _ | makeTypeVar r _ | buildList r _ _
  | buildListReserve r _ | buildTuple r _ _ | buildString r _ _ | buildSlice r _
  | buildDict r _ _ _ | binOp r _ _ _ | binOpInPlace r _ _ _ | binOpConst r _ _ _ _
  | countCmpJumpTrue r _ _ _ _ | countCmpJumpFalse r _ _ _ _ | callInlineBinOp _ r _ _ _ _ _
  | binOpImm r _ _ _ _ | unaryOp r _ _ | formatValue r _ | formatValueSpec r _ _
  | matchSeqExcluded r _ | matchMapping r _ | getAttr r _ _ | getAttrForWith r _ _ _
  | importFromAttr r _ _ | getItem r _ _ | getItemSeqIntOrExit r _ _ _ | lenSeqOrExit r _ _
  | getSlice r _ _ | getAwaitable r _ | call r _ | callMemo r _ | callKw r _ _ _ | callEx r _ _
  | callExArgs r _ _ _ _ _ | move r _ | copyReg r _ | deleteLocal r _ _ | callMethod r _ _ _ _
  | callMethodKw r _ _ _ _ _ _ | callMethodExpanded r _ _ _ _ | yield _ r | forIter r _ _
  | concat r _ _ => [r]
  | matchExceptStar _ src dst _ => [src, dst]
  | loadNoneRange start count => List.range' start count
  | yieldFrom _ sentReg resultReg => [resultReg, sentReg]
  | unpack base _ n => List.range' base n
  | unpackEx _ before after dstBase => List.range' dstBase (before+1+after)
  | matchClassPositional dstBase _ _ n => List.range' dstBase n
  | _ => []

/-- `writable_dst`: the one destination most instructions have. -/
def writableDst : Insn → Option Reg
  | loadGlobal r _ | loadClassName r _ _ | loadCell r _ | loadNone r | deleteLocal r _ _
  | binOp r _ _ _ | binOpConst r _ _ _ _ | binOpImm r _ _ _ _ | binOpInPlace r _ _ _
  | unaryOp r _ _ | formatValue r _ | formatValueSpec r _ _ | matchSeqExcluded r _
  | matchMapping r _ | getAttr r _ _ | getAttrForWith r _ _ _ | importFromAttr r _ _
  | getItem r _ _ | getSlice r _ _ | getAwaitable r _ | call r _ | callMemo r _ | callKw r _ _ _
  | callEx r _ _ | callExArgs r _ _ _ _ _ | buildList r _ _ | buildListReserve r _
  | buildTuple r _ _ | buildString r _ _ | buildSlice r _ | buildDict r _ _ _
  | makeFunction r _ _ _ _ _ | importModule r _ | loadExc r | loadExcTraceback r _
  | makeClass r _ _ _ _ _ _ | makeClassMeta r _ _ _ _ _ _ _ | makeTypeAlias r _ _ _
  | makeTypeVar r _ | callMethod r _ _ _ _ | callMethodKw r _ _ _ _ _ _
  | callMethodExpanded r _ _ _ _ | concat r _ _ | yield _ r | forIter r _ _ | copyReg r _ => some r
  | _ => none

/-- `may_invalidate_named_locals`: everything outside the audited list may run Python code. -/
def mayInvalidateNamedLocals : Insn → Bool
  | loadConst .. | loadGlobal .. | loadClassName .. | loadCell .. | loadNone .. | loadNoneRange ..
  | move .. | copyReg .. | checkLocal .. | buildList .. | buildListReserve .. | buildTuple ..
  | buildString .. | buildSlice .. | makeFunction .. => false
  | _ => true

/-- `is_late_stage_guard_insn`. -/
def isLateStageGuardInsn : Insn → Bool
  | jumpIfNotInt .. | jumpIfIterNotIntRange .. | jumpIfIterNotIndexedSeq ..
  | jumpIfIterNotIntRangeExact .. | getItemSeqIntOrExit .. | jumpIfNotBuiltinLen ..
  | lenSeqOrExit .. | countCmpJumpTrue .. | countCmpJumpFalse .. | callInlineBinOp .. => true
  | _ => false

/-- `is_terminator`. The residual raise of `except*` is not on the source's list. -/
def isTerminator : Insn → Bool
  | ret .. | returnNone | raiseAssert .. | raiseAssertNoMsg | raiseValue .. | raiseFrom ..
  | raiseReRaise => true
  | _ => false

/-- `is_control_flow`. Neither `matchExceptStar` nor `yieldFrom` is on the source's list. -/
def isControlFlow : Insn → Bool
  | jump .. | jumpIfNotInt .. | jumpIfIterNotIntRange .. | jumpIfIterNotIndexedSeq ..
  | jumpIfIterNotIntRangeExact .. | getItemSeqIntOrExit .. | jumpIfNotBuiltinLen ..
  | lenSeqOrExit .. | countCmpJumpTrue .. | countCmpJumpFalse .. | callInlineBinOp ..
  | jumpIfFalse .. | jumpIfTrue .. | cmpJumpIfFalse .. | cmpJumpIfTrue ..
  | cmpJumpIfFalseConst .. | cmpJumpIfTrueConst .. | forIter .. | ret .. | returnNone
  | raiseAssert .. | raiseAssertNoMsg | raiseValue .. | raiseFrom .. | raiseReRaise
  | setupExcept .. | popExcept | endExcept | matchExcept .. | yield .. => true
  | _ => false

/-- `insn_is_back_edge`. -/
def isBackEdge : Insn → Bool
  | jump k | jumpIfFalse _ k | jumpIfTrue _ k | forIter _ _ k | cmpJumpIfFalse _ _ _ k
  | cmpJumpIfTrue _ _ _ k | cmpJumpIfFalseConst _ _ _ k | cmpJumpIfTrueConst _ _ _ k
  | jumpIfNotInt _ k | jumpIfIterNotIntRange _ k | jumpIfIterNotIndexedSeq _ k
  | jumpIfIterNotIntRangeExact _ k | getItemSeqIntOrExit _ _ _ k | jumpIfNotBuiltinLen _ k
  | lenSeqOrExit _ _ k | countCmpJumpTrue _ _ _ _ k | countCmpJumpFalse _ _ _ _ k
  | callInlineBinOp _ _ _ _ _ _ k => decide (k < 0)
  | _ => false

def isHandlerMark : Insn → Bool
  | setupExcept _ | popExcept => true
  | _ => false

/-- What is left of an instruction when its operand registers, destinations and offset are
erased: the opcode with its pool indices, counts and named slots. Two instructions of one
shape do the same to the same operand values. -/
def shape : Insn → Insn
  | loadConst _ i => loadConst 0 i
  | loadGlobal _ n => loadGlobal 0 n
  | loadClassName _ slot n => loadClassName 0 slot n
  | storeGlobal n _ => storeGlobal n 0
  | loadCell _ n => loadCell 0 n
  | storeCell n _ => storeCell n 0
  | loadNone _ => loadNone 0
  | loadNoneRange _ n => loadNoneRange 0 n
  | move _ _ => move 0 0
  | copyReg _ _ => copyReg 0 0
  | binOp _ _ op _ => binOp 0 0 op 0
  | binOpInPlace _ _ op _ => binOpInPlace 0 0 op 0
  | binOpConst _ _ op c aug => binOpConst 0 0 op c aug
  | binOpImm _ _ op imm aug => binOpImm 0 0 op imm aug
  | unaryOp _ op _ => unaryOp 0 op 0
  | matchSeqExcluded _ _ => matchSeqExcluded 0 0
  | matchMapping _ _ => matchMapping 0 0
  | getAttr _ _ n => getAttr 0 0 n
  | getAttrForWith _ _ n p => getAttrForWith 0 0 n p
  | setAttr _ n _ => setAttr 0 n 0
  | deleteAttr _ n => deleteAttr 0 n
  | getItem _ _ _ => getItem 0 0 0
  | getItemSeqIntOrExit _ _ _ _ => getItemSeqIntOrExit 0 0 0 0
  | getSlice _ _ _ => getSlice 0 0 0
  | setItem _ _ _ => setItem 0 0 0
  | deleteItem _ _ => deleteItem 0 0
  | jump _ => jump 0
  | jumpIfFalse _ _ => jumpIfFalse 0 0
  | jumpIfTrue _ _ => jumpIfTrue 0 0
  | cmpJumpIfFalse _ op _ _ => cmpJumpIfFalse 0 op 0 0
  | cmpJumpIfTrue _ op _ _ => cmpJumpIfTrue 0 op 0 0
  | cmpJumpIfFalseConst _ op c _ => cmpJumpIfFalseConst 0 op c 0
  | cmpJumpIfTrueConst _ op c _ => cmpJumpIfTrueConst 0 op c 0
  | jumpIfNotInt _ _ => jumpIfNotInt 0 0
  | countCmpJumpTrue _ op _ imm _ => countCmpJumpTrue 0 op 0 imm 0
  | countCmpJumpFalse _ op _ imm _ => countCmpJumpFalse 0 op 0 imm 0
  | jumpIfIterNotIntRange slot _ => jumpIfIterNotIntRange slot 0
  | jumpIfIterNotIndexedSeq slot _ => jumpIfIterNotIndexedSeq slot 0
  | jumpIfIterNotIntRangeExact guard _ => jumpIfIterNotIntRangeExact guard 0
  | jumpIfNotBuiltinLen _ _ => jumpIfNotBuiltinLen 0 0
  | lenSeqOrExit _ _ _ => lenSeqOrExit 0 0 0
  | callInlineBinOp _ _ _ op _ proto _ => callInlineBinOp 0 0 0 op 0 proto 0
  | call _ argc => call 0 argc
  | callMemo _ argc => callMemo 0 argc
  | callMethod _ _ n _ nargs => callMethod 0 0 n 0 nargs
  | callMethodExpanded _ _ n _ _ => callMethodExpanded 0 0 n 0 0
  | callKw _ total nkw names => callKw 0 total nkw names
  | callEx _ npos _ => callEx 0 npos 0
  | callExArgs _ npos nkw names _ kwargs =>
    callExArgs 0 npos nkw names 0 (if kwargs = noKwargs then noKwargs else 0)
  | callMethodKw _ _ n _ total nkw names => callMethodKw 0 0 n 0 total nkw names
  | ret _ => ret 0
  | buildList _ _ n => buildList 0 0 n
  | buildListReserve _ _ => buildListReserve 0 0
  | buildTuple _ _ n => buildTuple 0 0 n
  | buildString _ _ n => buildString 0 0 n
  | formatValue _ _ => formatValue 0 0
  | formatValueSpec _ _ _ => formatValueSpec 0 0 0
  | buildSlice _ _ => buildSlice 0 0
  | buildDict _ _ n hint => buildDict 0 0 n hint
  | unpack _ _ n => unpack 0 0 n
  | unpackEx _ before after _ => unpackEx 0 before after 0
  | getIter slot _ => getIter slot 0
  | forIter _ slot _ => forIter 0 slot 0
  | checkLocal _ n => checkLocal 0 n
  | raiseAssert _ => raiseAssert 0
  | raiseValue _ => raiseValue 0
  | raiseFrom _ _ => raiseFrom 0 0
  | raiseExceptStarResidual _ => raiseExceptStarResidual 0
  | matchClassPositional _ _ _ n => matchClassPositional 0 0 0 n
  | makeFunction _ proto _ defsN _ annotsN => makeFunction 0 proto 0 defsN 0 annotsN
  | importModule _ n => importModule 0 n
  | importFromAttr _ _ n => importFromAttr 0 0 n
  | importStar _ => importStar 0
  | setupExcept _ => setupExcept 0
  | loadExc _ => loadExc 0
  | loadExcTraceback _ _ => loadExcTraceback 0 0
  | matchExcept _ _ => matchExcept 0 0
  | matchExceptStar _ _ _ _ => matchExceptStar 0 0 0 0
  | pushExcContext _ => pushExcContext 0
  | makeClass _ proto _ basesN n _ kwargN => makeClass 0 proto 0 basesN n 0 kwargN
  | makeClassMeta _ proto _ basesN n _ kwargN _ => makeClassMeta 0 proto 0 basesN n 0 kwargN 0
  | makeTypeVar _ n => makeTypeVar 0 n
  | setTypeVarAttr _ n _ => setTypeVarAttr 0 n 0
  | makeTypeAlias _ n _ _ => makeTypeAlias 0 n 0 0
  | printExpr _ => printExpr 0
  | setAdd _ _ => setAdd 0 0
  | listAppend _ _ => listAppend 0 0
  | listExtend _ _ => listExtend 0 0
  | listExtendCall _ _ name => listExtendCall 0 0 (name.subst fun _ => 0)
  | dictUpdate _ _ => dictUpdate 0 0
  | dictMergeKwCall _ _ name => dictMergeKwCall 0 0 (name.subst fun _ => 0)
  | setItemKwCall _ _ _ name => setItemKwCall 0 0 0 (name.subst fun _ => 0)
  | yield _ _ => yield 0 0
  | yieldFrom _ _ _ => yieldFrom 0 0 0
  | getAwaitable _ _ => getAwaitable 0 0
  | concat _ _ count => concat 0 0 count
  | syncModuleGlobal _ n => syncModuleGlobal 0 n
  | other => other

section fixOff
variable (fix : ℤ → ℤ) (i : Insn)

@[simp] theorem fixOff_jumpOff : (i.fixOff fix).jumpOff = i.jumpOff.map fix := by
  cases i <;> rfl

@[simp] theorem fixOff_shape : (i.fixOff fix).shape = i.shape := by
  cases i <;> rfl

@[simp] theorem fixOff_collectReads : (i.fixOff fix).collectReads = i.collectReads := by
  cases i <;> rfl

@[simp] theorem fixOff_collectWrites : (i.fixOff fix).collectWrites = i.collectWrites := by
  cases i <;> rfl

@[simp] theorem fixOff_mayInvalidate :
    (i.fixOff fix).mayInvalidateNamedLocals = i.mayInvalidateNamedLocals := by
  cases i <;> rfl

@[simp] theorem fixOff_isHandlerMark : (i.fixOff fix).isHandlerMark = i.isHandlerMark := by
  cases i <;> rfl

end fixOff

end Insn

end Pyrust.Bytecode
