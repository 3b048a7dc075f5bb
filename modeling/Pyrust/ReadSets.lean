import Pyrust.Machine

/-!
# What an instruction reads

Three matches over the opcodes say which registers an instruction reads: a test of one
register, a set, and a visit of each. Register numbers are machine words, so a range that
passes the last one comes out empty. What the dispatch loop reads is a fourth match. It
agrees with the three on every instruction the compiler can emit but two: the deletion of
a local looks at the slot it clears, and the class-body record of a deletion is listed with
a slot that it only names.
-/

set_option autoImplicit false

namespace Pyrust.ReadSets

open Bytecode

/-- Arithmetic on register numbers wraps. -/
def wrap (n : ℕ) : ℕ := n%2^32

/-- `a..b` -/
def upTo (a b : ℕ) : List ℕ := List.range' a (b-a)

/-- `a..=b` -/
def through (a b : ℕ) : List ℕ := List.range' a (b+1-a)

def kwcallNameReads : KwCallName → Reg → Bool
  | .callee reg, r => reg == r
  | .method obj _, r => obj == r

def kwcallNameInsert : KwCallName → List Reg
  | .callee reg => [reg]
  | .method obj _ => [obj]

open Insn

/-! ## The three matches -/

/-- `insn_reads_reg`: whether the instruction reads the register. -/
def insnReadsReg (insn : Insn) (r : Reg) : Bool :=
  match insn with
  | loadConst .. | loadGlobal .. | loadCell .. | loadNone .. | loadNoneRange .. | loadExc ..
  | importModule .. | deleteName .. | pushTypeParamEnv | popTypeParamEnv | deleteLocal ..
  | jump .. | jumpIfIterNotIntRange .. | jumpIfIterNotIndexedSeq ..
  | jumpIfIterNotIntRangeExact .. | setupExcept .. | popExcept | endExcept | popExcContext
  | returnNone | raiseReRaise | raiseAssertNoMsg | forIter .. | deleteModuleGlobal .. => false
  | loadClassName _ slot _ => slot != noClassLocal && r == slot
  | storeGlobal _ s | storeCell _ s | importStar s | move _ s | copyReg _ s | unaryOp _ _ s
  | formatValue _ s | matchSeqExcluded _ s | matchMapping _ s | ret s | printExpr s
  | raiseValue s | raiseExceptStarResidual s | raiseAssert s | jumpIfFalse s _ | jumpIfTrue s _
  | getIter _ s | getAwaitable _ s | buildListReserve _ s | unpack _ s _ | checkLocal s _
  | getAttr _ s _ | getAttrForWith _ s _ _ | loadExcTraceback _ s | importFromAttr _ s _
  | deleteAttr s _ | binOpConst _ s _ _ _ | binOpImm _ s _ _ _ | cmpJumpIfFalseConst s _ _ _
  | jumpIfNotInt s _ | jumpIfNotBuiltinLen s _ | lenSeqOrExit _ s _ | cmpJumpIfTrueConst s _ _ _
  | matchExcept s _ | recordClassStore s | recordClassDel s | pushExcContext s
  | syncModuleGlobal s _ => s == r
  | matchExceptStar type src _ _ => type == r || src == r
  | binOp _ a _ b | binOpInPlace _ a _ b | cmpJumpIfFalse a _ b _ | cmpJumpIfTrue a _ b _
  | countCmpJumpTrue a _ b _ _ | countCmpJumpFalse a _ b _ _ | raiseFrom a b | setAdd a b
  | listAppend a b | listExtend a b | dictUpdate a b | getItem _ a b | getItemSeqIntOrExit _ a b _
  | formatValueSpec _ a b | deleteItem a b => a == r || b == r
  | listExtendCall list src name => list == r || src == r || kwcallNameReads name r
  | setAttr obj _ val | setTypeVarAttr obj _ val => obj == r || val == r
  | setItem a b c => a == r || b == r || c == r
  | dictMergeKwCall dict src name => dict == r || src == r || kwcallNameReads name r
  | setItemKwCall dict key val name =>
    dict == r || key == r || val == r || kwcallNameReads name r
  | call base argc | callMemo base argc => r ≥ base && r ≤ wrap (base+argc)
  | callKw func total _ _ => r ≥ func && r ≤ wrap (func+total)
  | callEx func npos kwargs => (r ≥ func && r ≤ wrap (func+npos)) || r == kwargs
  | callExArgs func npos nkw _ argsSplat kwargs =>
    (r ≥ func && r ≤ wrap (wrap (func+npos)+nkw)) || r == argsSplat ||
      (kwargs != noKwargs && r == kwargs)
  | buildList _ base n | buildTuple _ base n | buildString _ base n =>
    r ≥ base && r < wrap (base+n)
  | buildSlice _ base => r ≥ base && r < wrap (base+3)
  | getSlice _ obj base => obj == r || (r ≥ base && r < wrap (base+3))
  | buildDict _ base n _ => r ≥ base && r < wrap (base+wrap (2*n))
  | callMethod _ obj _ argsBase nargs =>
    obj == r || (r ≥ argsBase && r < wrap (argsBase+nargs))
  | callMethodKw _ obj _ argsBase total _ _ =>
    obj == r || (r ≥ argsBase && r < wrap (argsBase+total))
  | callMethodExpanded _ obj _ posList kwDict => obj == r || posList == r || kwDict == r
  | makeFunction _ _ defsBase defsN annotsBase annotsN =>
    (r ≥ defsBase && r < wrap (defsBase+defsN)) ||
      (annotsN > 0 && r ≥ annotsBase && r < wrap (annotsBase+annotsN))
  | makeClass _ _ basesBase basesN _ kwargBase kwargN =>
    (r ≥ basesBase && r < wrap (basesBase+basesN)) ||
      (kwargN > 0 && r ≥ kwargBase && r < wrap (kwargBase+kwargN))
  | makeClassMeta _ _ basesBase basesN _ kwargBase kwargN metaReg =>
    metaReg == r || (r ≥ basesBase && r < wrap (basesBase+basesN)) ||
      (kwargN > 0 && r ≥ kwargBase && r < wrap (kwargBase+kwargN))
  | makeTypeAlias _ _ value params => value == r || params == r
  | makeTypeVar _ _ => false
  | yield src _ => src == r
  | yieldFrom iterReg sentReg _ => iterReg == r || sentReg == r
  | unpackEx src _ _ _ => src == r
  | concat _ base count => r ≥ base && r < wrap (base+count)
  | matchClassPositional _ subj cls _ => r == subj || r == cls
  | callInlineBinOp callee _ a _ b _ _ => r == callee || r == a || r == b

/-- `collect_reads`: the registers put into the set. -/
def collectReads : Insn → List Reg
  | loadConst .. | loadGlobal .. | loadCell .. | loadNone .. | loadExc .. | importModule ..
  | deleteName .. | pushTypeParamEnv | popTypeParamEnv | deleteLocal .. | jump ..
  | jumpIfIterNotIntRange .. | jumpIfIterNotIndexedSeq .. | jumpIfIterNotIntRangeExact ..
  | setupExcept .. | popExcept | endExcept | popExcContext | returnNone | raiseReRaise
  | raiseAssertNoMsg | forIter .. | deleteModuleGlobal .. => []
  | loadClassName _ slot _ => if slot ≠ noClassLocal then [slot] else []
  | storeGlobal _ s | storeCell _ s | importStar s | move _ s | copyReg _ s | unaryOp _ _ s
  | formatValue _ s | matchSeqExcluded _ s | matchMapping _ s | ret s | printExpr s
  | raiseValue s | raiseExceptStarResidual s | raiseAssert s | jumpIfFalse s _ | jumpIfTrue s _
  | getIter _ s | getAwaitable _ s | buildListReserve _ s | unpack _ s _ | checkLocal s _
  | getAttr _ s _ | getAttrForWith _ s _ _ | loadExcTraceback _ s | importFromAttr _ s _
  | deleteAttr s _ | binOpConst _ s _ _ _ | binOpImm _ s _ _ _ | cmpJumpIfFalseConst s _ _ _
  | jumpIfNotInt s _ | jumpIfNotBuiltinLen s _ | lenSeqOrExit _ s _ | cmpJumpIfTrueConst s _ _ _
  | matchExcept s _ | recordClassStore s | recordClassDel s | pushExcContext s
  | syncModuleGlobal s _ => [s]
  | matchExceptStar type src _ _ => [type, src]
  | binOp _ a _ b | binOpInPlace _ a _ b | cmpJumpIfFalse a _ b _ | cmpJumpIfTrue a _ b _
  | countCmpJumpTrue a _ b _ _ | countCmpJumpFalse a _ b _ _ | raiseFrom a b | setAdd a b
  | listAppend a b | listExtend a b | dictUpdate a b | getItem _ a b | getItemSeqIntOrExit _ a b _
  | formatValueSpec _ a b | deleteItem a b => [a, b]
  | listExtendCall list src name => [list, src] ++ kwcallNameInsert name
  | setAttr obj _ val | setTypeVarAttr obj _ val => [obj, val]
  | setItem a b c => [a, b, c]
  | dictMergeKwCall dict src name => [dict, src] ++ kwcallNameInsert name
  | setItemKwCall dict key val name => [dict, key, val] ++ kwcallNameInsert name
  | call base argc | callMemo base argc => through base (wrap (base+argc))
  | callKw func total _ _ => through func (wrap (func+total))
  | callEx func npos kwargs => through func (wrap (func+npos)) ++ [kwargs]
  | callExArgs func npos nkw _ argsSplat kwargs =>
    through func (wrap (wrap (func+npos)+nkw)) ++ [argsSplat] ++
      if kwargs ≠ noKwargs then [kwargs] else []
  | buildList _ base n | buildTuple _ base n => upTo base (wrap (base+n))
  | buildString _ base n => upTo base (wrap (base+n))
  | buildSlice _ base => upTo base (wrap (base+3))
  | getSlice _ obj base => obj::upTo base (wrap (base+3))
  | buildDict _ base n _ => upTo base (wrap (base+wrap (2*n)))
  | callMethod _ obj _ argsBase nargs => obj::upTo argsBase (wrap (argsBase+nargs))
  | callMethodKw _ obj _ argsBase total _ _ => obj::upTo argsBase (wrap (argsBase+total))
  | callMethodExpanded _ obj _ posList kwDict => [obj, posList, kwDict]
  | makeFunction _ _ defsBase defsN annotsBase annotsN =>
    upTo defsBase (wrap (defsBase+defsN)) ++
      if annotsN > 0 then upTo annotsBase (wrap (annotsBase+annotsN)) else []
  | makeClass _ _ basesBase basesN _ kwargBase kwargN =>
    upTo basesBase (wrap (basesBase+basesN)) ++ upTo kwargBase (wrap (kwargBase+kwargN))
  | makeClassMeta _ _ basesBase basesN _ kwargBase kwargN metaReg =>
    metaReg::upTo basesBase (wrap (basesBase+basesN)) ++
      upTo kwargBase (wrap (kwargBase+kwargN))
  | makeTypeAlias _ _ value params => [value, params]
  | makeTypeVar _ _ => []
  | yield src _ => [src]
  | yieldFrom iterReg sentReg _ => [iterReg, sentReg]
  | unpackEx src _ _ _ => [src]
  | loadNoneRange .. => []
  | concat _ base count => upTo base (wrap (base+count))
  | matchClassPositional _ subj cls _ => [subj, cls]
  | callInlineBinOp callee _ a _ b _ _ => [callee, a, b]

/-- The prototypes an instruction names, as far as they say how many registers are read. -/
structure Proto where
  hasDefault : List Bool
  annotationKeys : List String
  classKwargNames : List String

/-- `base+i` for `i` below `n` -/
def span (base n : ℕ) : List ℕ := (List.range n).map fun i => wrap (base+i)

/-- The registers whose values the handler of an instruction fetches. -/
def vmReads (protos : ℕ → Proto) : Insn → List Reg
  | loadConst .. | loadGlobal .. | loadCell .. | loadNone .. | loadNoneRange .. | loadExc ..
  | importModule .. | deleteName .. | pushTypeParamEnv | popTypeParamEnv
  | deleteModuleGlobal .. | jump .. | jumpIfIterNotIntRange .. | jumpIfIterNotIndexedSeq ..
  | jumpIfIterNotIntRangeExact .. | setupExcept .. | popExcept | endExcept | popExcContext
  | returnNone | raiseReRaise | raiseAssertNoMsg | forIter .. | makeTypeVar .. => []
  -- a slot that is already unset raises, and the value taken out is finalised
  | deleteLocal slot _ _ => [slot]
  -- the slot's name leaves the store order, whatever the slot holds
  | recordClassDel _ => []
  | loadClassName _ slot _ => if slot = noClassLocal then [] else [slot]
  | storeGlobal _ s | storeCell _ s | importStar s | move _ s | copyReg _ s | unaryOp _ _ s
  | formatValue _ s | matchSeqExcluded _ s | matchMapping _ s | ret s | printExpr s
  | raiseValue s | raiseExceptStarResidual s | raiseAssert s | jumpIfFalse s _ | jumpIfTrue s _
  | getIter _ s | getAwaitable _ s | buildListReserve _ s | unpack _ s _ | checkLocal s _
  | getAttr _ s _ | getAttrForWith _ s _ _ | loadExcTraceback _ s | importFromAttr _ s _
  | deleteAttr s _ | binOpConst _ s _ _ _ | binOpImm _ s _ _ _ | cmpJumpIfFalseConst s _ _ _
  | cmpJumpIfTrueConst s _ _ _ | jumpIfNotInt s _ | jumpIfNotBuiltinLen s _
  | lenSeqOrExit _ s _ | matchExcept s _ | recordClassStore s | pushExcContext s
  | syncModuleGlobal s _ | yield s _ | unpackEx s _ _ _ => [s]
  | matchExceptStar a b _ _ | binOp _ a _ b | binOpInPlace _ a _ b | cmpJumpIfFalse a _ b _
  | cmpJumpIfTrue a _ b _ | countCmpJumpTrue a _ b _ _ | countCmpJumpFalse a _ b _ _
  | raiseFrom a b | setAdd a b | listAppend a b | listExtend a b | dictUpdate a b
  | getItem _ a b | getItemSeqIntOrExit _ a b _ | formatValueSpec _ a b | deleteItem a b
  | setAttr a _ b | setTypeVarAttr a _ b | makeTypeAlias _ _ a b | yieldFrom a b _
  | matchClassPositional _ a b _ => [a, b]
  | setItem a b c | callMethodExpanded _ a _ b c | callInlineBinOp a _ b _ c _ _ => [a, b, c]
  -- the callee or the method's object gives the text of an error its name
  | listExtendCall list src (.callee reg) => [list, src, reg]
  | listExtendCall list src (.method obj _) => [list, src, obj]
  | dictMergeKwCall dict src (.callee reg) => [dict, src, reg]
  | dictMergeKwCall dict src (.method obj _) => [dict, src, obj]
  | setItemKwCall dict key val (.callee reg) => [dict, key, val, reg]
  | setItemKwCall dict key val (.method obj _) => [dict, key, val, obj]
  | call func argc | callMemo func argc => func::span (func+1) argc
  | callKw func total nkw _ =>
    func::span (func+1) (total-nkw) ++ span (func+1+(total-nkw)) nkw
  | callEx func npos kwargs => [func, kwargs] ++ span (func+1) npos
  | callExArgs func npos nkw _ argsSplat kwargs =>
    [func, argsSplat] ++ (if kwargs = noKwargs then [] else [kwargs]) ++
      span (func+1+npos) nkw ++ span (func+1) npos
  | callMethod _ obj _ argsBase nargs => obj::span argsBase nargs
  | callMethodKw _ obj _ argsBase total nkw _ =>
    span argsBase (total-nkw) ++ span (argsBase+(total-nkw)) nkw ++ [obj]
  | buildList _ base n | buildTuple _ base n | buildString _ base n => span base n
  | buildSlice _ base => [base, wrap (base+1), wrap (base+2)]
  | getSlice _ obj base => [base, wrap (base+1), wrap (base+2), obj]
  | buildDict _ base n _ =>
    (List.range n).flatMap fun i => [wrap (base+2*i), wrap (base+2*i+1)]
  -- the counts of the instruction are not looked at
  | makeFunction _ proto defsBase _ annotsBase _ =>
    span defsBase ((protos proto).hasDefault.count true) ++
      span annotsBase (protos proto).annotationKeys.length
  -- `__init_subclass__` is given every keyword of the prototype
  | makeClass _ proto basesBase basesN _ kwargBase _ =>
    span basesBase basesN ++ span kwargBase (protos proto).classKwargNames.length
  | makeClassMeta _ proto basesBase basesN _ kwargBase kwargN metaReg =>
    metaReg::span basesBase basesN ++
      span kwargBase (min kwargN (protos proto).classKwargNames.length)
  -- two integers are added before the count is looked at
  | concat _ base count => List.range' base (if count = 1 then 2 else count)

/-- What the compiler sees to: a range ends before the last register number, a function and a
class carry the counts of their prototype, at least two values are concatenated, and the
keyword values of a call are among its values. -/
def Formed (protos : ℕ → Proto) : Insn → Prop
  | call func argc | callMemo func argc => func+argc < 2^32
  | callKw func total nkw _ => func+total < 2^32 ∧ nkw ≤ total
  | callEx func npos _ => func+npos < 2^32
  | callExArgs func npos nkw _ _ _ => func+npos+nkw < 2^32
  | callMethod _ _ _ argsBase nargs => argsBase+nargs < 2^32
  | callMethodKw _ _ _ argsBase total nkw _ => argsBase+total < 2^32 ∧ nkw ≤ total
  | buildList _ base n | buildTuple _ base n | buildString _ base n => base+n < 2^32
  | buildSlice _ base | getSlice _ _ base => base+3 < 2^32
  | buildDict _ base n _ => base+2*n < 2^32
  | makeFunction _ proto defsBase defsN annotsBase annotsN =>
    defsBase+defsN < 2^32 ∧ annotsBase+annotsN < 2^32 ∧
      defsN = (protos proto).hasDefault.count true ∧
      annotsN = (protos proto).annotationKeys.length
  | makeClass _ proto basesBase basesN _ kwargBase kwargN
  | makeClassMeta _ proto basesBase basesN _ kwargBase kwargN _ =>
    basesBase+basesN < 2^32 ∧ kwargBase+kwargN < 2^32 ∧
      kwargN = (protos proto).classKwargNames.length
  | concat _ base count => base+count < 2^32 ∧ 2 ≤ count
  | _ => True

variable {α : Type}

/-- The values a handler is given. -/
def operands (protos : ℕ → Proto) (insn : Insn) (regs : Reg → α) : List α :=
  (vmReads protos insn).map regs

/-- Some handler of the instruction tells two register files apart that differ in `r` only. -/
def Depends (protos : ℕ → Proto) (insn : Insn) (r : Reg) : Prop :=
  ∃ (handler : List ℕ → ℕ) (regs regs' : Reg → ℕ), (∀ s, s ≠ r → regs s = regs' s) ∧
    handler (operands protos insn regs) ≠ handler (operands protos insn regs')

/-! ## Ranges -/

section ranges

variable {a b base r n : ℕ}

theorem wrap_of_lt (h : n < 2^32) : wrap n = n := Nat.mod_eq_of_lt h

theorem wrap_empty (h : n = 0) : wrap (b+n) ≤ b := by
  rw [h, Nat.add_zero]
  exact Nat.mod_le b _

theorem mem_upTo : r ∈ upTo a b ↔ a ≤ r ∧ r < b := by
  rw [upTo, List.mem_range'_1]
  omega

theorem mem_through : r ∈ through a b ↔ a ≤ r ∧ r ≤ b := by
  rw [through, List.mem_range'_1]
  omega

theorem mem_span (h : base+n ≤ 2^32) : r ∈ span base n ↔ base ≤ r ∧ r < base+n := by
  simp only [span, List.mem_map, List.mem_range]
  constructor
  · rintro ⟨k, hk, rfl⟩
    rw [wrap_of_lt (by omega)]
    omega
  · rintro ⟨hl, hr⟩
    exact ⟨r-base, by omega, by rw [wrap_of_lt (by omega)]; omega⟩

/-- A range of no registers is empty with the guard and without. -/
theorem mem_guarded :
    (r ∈ if n > 0 then upTo base (wrap (base+n)) else []) ↔ r ∈ upTo base (wrap (base+n)) := by
  split
  · rfl
  · next h =>
    have := wrap_empty (b := base) (Nat.eq_zero_of_not_pos h)
    rw [mem_upTo]
    simp only [List.not_mem_nil, false_iff]
    omega

end ranges

/-! ## The three matches agree -/

section tests

variable {a b r n : ℕ} {p q : Bool} {l m : List Reg}

theorem none_iff : false = true ↔ r ∈ ([] : List Reg) := by simp

theorem one_iff : (a == r) = true ↔ r ∈ [a] := by
  rw [beq_iff_eq, List.mem_singleton, eq_comm]

theorem one_iff' : (r == a) = true ↔ r ∈ [a] := by
  rw [beq_iff_eq, List.mem_singleton]

theorem upTo_iff : (decide (r ≥ a) && decide (r < b)) = true ↔ r ∈ upTo a b := by
  simp [mem_upTo]

theorem through_iff : (decide (r ≥ a) && decide (r ≤ b)) = true ↔ r ∈ through a b := by
  simp [mem_through]

/-- An empty range is skipped without a look at where it would begin. -/
theorem guarded_iff : (decide (n > 0) && decide (r ≥ a) && decide (r < wrap (a+n))) = true ↔
    r ∈ upTo a (wrap (a+n)) := by
  have := wrap_empty (b := a) (n := n)
  rw [mem_upTo]
  simp only [Bool.and_eq_true, decide_eq_true_eq]
  omega

theorem given_iff : (a != n && r == a) = true ↔ r ∈ if a ≠ n then [a] else [] := by
  by_cases h : a = n <;> simp [h]

theorem or_iff (hp : p = true ↔ r ∈ l) (hq : q = true ↔ r ∈ m) :
    (p || q) = true ↔ r ∈ l ++ m := by
  rw [Bool.or_eq_true, List.mem_append, hp, hq]

theorem cons_iff (hq : q = true ↔ r ∈ m) : (a == r || q) = true ↔ r ∈ a::m :=
  or_iff one_iff hq

theorem kwcallName_iff {name : KwCallName} :
    kwcallNameReads name r = true ↔ r ∈ kwcallNameInsert name := by
  cases name <;> exact one_iff

end tests

variable (i : Insn) (r : ℕ)

theorem insnReadsReg_iff : insnReadsReg i r = true ↔ r ∈ collectReads i := by
  cases i with
  | loadConst | loadGlobal | loadCell | loadNone | loadNoneRange | loadExc | importModule
  | deleteName | pushTypeParamEnv | popTypeParamEnv | deleteLocal | jump
  | jumpIfIterNotIntRange | jumpIfIterNotIndexedSeq | jumpIfIterNotIntRangeExact | setupExcept
  | popExcept | endExcept | popExcContext | returnNone | raiseReRaise | raiseAssertNoMsg
  | forIter | deleteModuleGlobal | makeTypeVar => exact none_iff
  | storeGlobal | storeCell | importStar | move | copyReg | unaryOp | formatValue
  | matchSeqExcluded | matchMapping | ret | printExpr | raiseValue | raiseExceptStarResidual
  | raiseAssert | jumpIfFalse | jumpIfTrue | getIter | getAwaitable | buildListReserve | unpack
  | checkLocal | getAttr | getAttrForWith | loadExcTraceback | importFromAttr | deleteAttr
  | binOpConst | binOpImm | cmpJumpIfFalseConst | jumpIfNotInt | jumpIfNotBuiltinLen
  | lenSeqOrExit | cmpJumpIfTrueConst | matchExcept | recordClassStore | recordClassDel
  | pushExcContext | syncModuleGlobal | yield | unpackEx => exact one_iff
  | matchExceptStar | binOp | binOpInPlace | cmpJumpIfFalse | cmpJumpIfTrue | countCmpJumpTrue
  | countCmpJumpFalse | raiseFrom | setAdd | listAppend | listExtend | dictUpdate | getItem
  | getItemSeqIntOrExit | formatValueSpec | deleteItem | setAttr | setTypeVarAttr
  | makeTypeAlias | yieldFrom => exact cons_iff one_iff
  | setItem | callMethodExpanded => exact or_iff (cons_iff one_iff) one_iff
  | matchClassPositional => exact or_iff one_iff' one_iff'
  | callInlineBinOp => exact or_iff (or_iff one_iff' one_iff') one_iff'
  | listExtendCall | dictMergeKwCall => exact or_iff (cons_iff one_iff) kwcallName_iff
  | setItemKwCall => exact or_iff (or_iff (cons_iff one_iff) one_iff) kwcallName_iff
  | loadClassName => exact given_iff
  | call | callMemo | callKw => exact through_iff
  | callEx => exact or_iff through_iff one_iff'
  | callExArgs => exact or_iff (or_iff through_iff one_iff') given_iff
  | buildList | buildTuple | buildString | buildSlice | buildDict | concat => exact upTo_iff
  | getSlice | callMethod | callMethodKw => exact cons_iff upTo_iff
  | makeFunction => exact or_iff upTo_iff (guarded_iff.trans mem_guarded.symm)
  | makeClass => exact or_iff upTo_iff guarded_iff
  | makeClassMeta => exact or_iff (cons_iff upTo_iff) guarded_iff

/-! ## The three against the dispatch loop -/

variable {i r} {protos : ℕ → Proto}

theorem depends_iff : Depends protos i r ↔ r ∈ vmReads protos i := by
  constructor
  · rintro ⟨handler, regs, regs', hsame, hne⟩
    by_cases hr : r ∈ vmReads protos i
    · exact hr
    · have heq : operands protos i regs = operands protos i regs' :=
        List.map_congr_left fun s hs => hsame s fun h => hr (h ▸ hs)
      exact absurd (congrArg handler heq) hne
  · intro hr
    -- counting the ones among the operands notices the first one
    refine ⟨List.count 1, fun _ => 0, fun s => if s = r then 1 else 0,
      fun s hs => (if_neg hs).symm, ?_⟩
    have hnone : (operands protos i fun _ => 0).count 1 = 0 :=
      List.count_eq_zero.mpr fun h => by
        obtain ⟨_, _, hx⟩ := List.mem_map.mp h
        exact Nat.zero_ne_one hx
    have hone : 0 < (operands protos i fun s => if s = r then 1 else 0).count 1 :=
      List.count_pos_iff.mpr (List.mem_map.mpr ⟨r, hr, if_pos rfl⟩)
    exact Nat.ne_of_lt (Nat.lt_of_le_of_lt (Nat.le_of_eq hnone) hone)

theorem mem_call {func argc : ℕ} (h : func+argc < 2^32) :
    r ∈ func::span (func+1) argc ↔ r ∈ through func (wrap (func+argc)) := by
  rw [List.mem_cons, mem_span (by omega), wrap_of_lt h, mem_through]
  omega

/-- The positional and the keyword values are one block. -/
theorem mem_values {base total nkw : ℕ} (h : base+total ≤ 2^32) (hk : nkw ≤ total) :
    r ∈ span base (total-nkw) ++ span (base+(total-nkw)) nkw ↔ r ∈ span base total := by
  rw [List.mem_append, mem_span (by omega), mem_span h, mem_span (by omega)]
  omega

theorem mem_callKw {func total nkw : ℕ} (h : func+total < 2^32 ∧ nkw ≤ total) :
    r ∈ func::span (func+1) (total-nkw) ++ span (func+1+(total-nkw)) nkw ↔
      r ∈ through func (wrap (func+total)) := by
  rw [← mem_call h.1, List.cons_append, List.mem_cons, List.mem_cons,
    mem_values (by have := h.1; omega) h.2]

theorem mem_callEx {func npos kwargs : ℕ} (h : func+npos < 2^32) :
    r ∈ [func, kwargs] ++ span (func+1) npos ↔
      r ∈ through func (wrap (func+npos)) ++ [kwargs] := by
  simp only [List.mem_append, ← mem_call h, List.mem_cons, List.not_mem_nil, or_false]
  exact or_right_comm

theorem mem_callExArgs {func npos nkw argsSplat kwargs : ℕ} (h : func+npos+nkw < 2^32) :
    r ∈ [func, argsSplat] ++ (if kwargs = noKwargs then [] else [kwargs]) ++
        span (func+1+npos) nkw ++ span (func+1) npos ↔
      r ∈ through func (wrap (wrap (func+npos)+nkw)) ++ [argsSplat] ++
        if kwargs ≠ noKwargs then [kwargs] else [] := by
  rw [wrap_of_lt (n := func+npos) (by omega), wrap_of_lt h, ite_not]
  have hpos : r ∈ span (func+1) npos ↔ _ := mem_span (by omega)
  have hkw : r ∈ span (func+1+npos) nkw ↔ _ := mem_span (by omega)
  simp only [List.mem_append, mem_through, hpos, hkw, List.mem_cons, List.not_mem_nil, or_false]
  by_cases hk : kwargs = noKwargs
  · simp only [if_pos hk, List.not_mem_nil, or_false]
    omega
  · simp only [if_neg hk, List.mem_singleton]
    omega

theorem mem_block {base n : ℕ} (h : base+n < 2^32) :
    r ∈ span base n ↔ r ∈ upTo base (wrap (base+n)) := by
  rw [mem_span (by omega), wrap_of_lt h, mem_upTo]

theorem mem_callMethod {obj base n : ℕ} (h : base+n < 2^32) :
    r ∈ obj::span base n ↔ r ∈ obj::upTo base (wrap (base+n)) := by
  rw [List.mem_cons, List.mem_cons, mem_block h]

theorem mem_callMethodKw {obj base total nkw : ℕ} (h : base+total < 2^32 ∧ nkw ≤ total) :
    r ∈ span base (total-nkw) ++ span (base+(total-nkw)) nkw ++ [obj] ↔
      r ∈ obj::upTo base (wrap (base+total)) := by
  rw [List.mem_append, mem_values (Nat.le_of_lt h.1) h.2, mem_block h.1, List.mem_singleton,
    List.mem_cons, or_comm]

theorem mem_blocks {a b n m : ℕ} (ha : a+n < 2^32) (hb : b+m < 2^32) :
    r ∈ span a n ++ span b m ↔ r ∈ upTo a (wrap (a+n)) ++ upTo b (wrap (b+m)) := by
  rw [List.mem_append, List.mem_append, mem_block ha, mem_block hb]

theorem mem_three {base : ℕ} (h : base+3 < 2^32) :
    r ∈ [base, wrap (base+1), wrap (base+2)] ↔ r ∈ upTo base (wrap (base+3)) := by
  rw [wrap_of_lt (by omega), wrap_of_lt (by omega), wrap_of_lt h, mem_upTo]
  simp only [List.mem_cons, List.not_mem_nil, or_false]
  omega

theorem mem_getSlice {obj base : ℕ} (h : base+3 < 2^32) :
    r ∈ [base, wrap (base+1), wrap (base+2)] ++ [obj] ↔ r ∈ obj::upTo base (wrap (base+3)) := by
  rw [List.mem_append, mem_three h, List.mem_singleton, List.mem_cons, or_comm]

theorem mem_pairs {base n : ℕ} (h : base+2*n < 2^32) :
    (r ∈ (List.range n).flatMap fun i => [wrap (base+2*i), wrap (base+2*i+1)]) ↔
      r ∈ upTo base (wrap (base+wrap (2*n))) := by
  rw [wrap_of_lt (n := 2*n) (by omega), wrap_of_lt h, mem_upTo, List.mem_flatMap]
  constructor
  · rintro ⟨k, hk, hr⟩
    rw [List.mem_range] at hk
    rw [wrap_of_lt (by omega), wrap_of_lt (by omega)] at hr
    simp only [List.mem_cons, List.not_mem_nil, or_false] at hr
    omega
  · rintro ⟨hl, hr⟩
    refine ⟨(r-base)/2, List.mem_range.mpr (by omega), ?_⟩
    rw [wrap_of_lt (by omega), wrap_of_lt (by omega)]
    simp only [List.mem_cons, List.not_mem_nil, or_false]
    omega

/-- The slot of a deletion is looked at and not listed, that of its record the reverse. -/
def SlotForm : Insn → Prop
  | deleteLocal .. | recordClassDel .. => True
  | _ => False

theorem mem_vmReads (h : Formed protos i) (hslot : ¬SlotForm i) :
    r ∈ vmReads protos i ↔ r ∈ collectReads i := by
  cases i with
  | deleteLocal | recordClassDel => exact absurd trivial hslot
  | listExtendCall _ _ name | dictMergeKwCall _ _ name | setItemKwCall _ _ _ name =>
    cases name <;> exact Iff.rfl
  | loadClassName _ slot =>
    by_cases hs : slot = noClassLocal <;> simp [vmReads.eq_def, collectReads.eq_def, hs]
  | call | callMemo => exact mem_call h
  | callKw => exact mem_callKw h
  | callEx => exact mem_callEx h
  | callExArgs => exact mem_callExArgs h
  | callMethod => exact mem_callMethod h
  | callMethodKw => exact mem_callMethodKw h
  | buildList | buildTuple | buildString => exact mem_block h
  | buildSlice => exact mem_three h
  | getSlice => exact mem_getSlice h
  | buildDict => exact mem_pairs h
  | makeFunction _ proto defsBase defsN annotsBase annotsN =>
    obtain ⟨hdefs, hannots, hdn, han⟩ := h
    simp only [vmReads.eq_def, collectReads.eq_def, ← hdn, ← han]
    rw [mem_blocks hdefs hannots, List.mem_append, List.mem_append, mem_guarded]
  | makeClass _ proto basesBase basesN _ kwargBase kwargN =>
    obtain ⟨hbases, hkwargs, hn⟩ := h
    simp only [vmReads.eq_def, collectReads.eq_def, ← hn]
    exact mem_blocks hbases hkwargs
  | makeClassMeta _ proto basesBase basesN _ kwargBase kwargN metaReg =>
    obtain ⟨hbases, hkwargs, hn⟩ := h
    simp only [vmReads.eq_def, collectReads.eq_def, ← hn, Nat.min_self, List.cons_append,
      List.mem_cons]
    rw [mem_blocks hbases hkwargs]
  | concat _ base count =>
    have hcount : count ≠ 1 := by have := h.2; omega
    simp only [vmReads.eq_def, collectReads.eq_def, if_neg hcount]
    rw [mem_upTo, wrap_of_lt h.1, List.mem_range'_1]
  | _ => exact Iff.rfl

theorem upTo_eq {base n : ℕ} (h : base+n < 2^32) :
    upTo base (wrap (base+n)) = List.range' base n := by
  rw [upTo, wrap_of_lt h, Nat.add_sub_cancel_left]

theorem through_eq {base n : ℕ} (h : base+n < 2^32) :
    through base (wrap (base+n)) = List.range' base (n+1) := by
  rw [through, wrap_of_lt h, Nat.add_assoc, Nat.add_sub_cancel_left]

/-- On a formed instruction the set is the list that the passes are modelled with. -/
theorem collectReads_eq (h : Formed protos i) : collectReads i = i.collectReads := by
  cases i with
  | listExtendCall _ _ name | dictMergeKwCall _ _ name | setItemKwCall _ _ _ name =>
    cases name <;> rfl
  | loadClassName _ slot => exact ite_not ..
  | call | callMemo => exact through_eq h
  | callKw => exact through_eq h.1
  | callEx => exact congrArg (· ++ _) (through_eq h)
  | callExArgs func npos nkw _ argsSplat kwargs =>
    have hfirst : wrap (func+npos) = func+npos := wrap_of_lt (Nat.lt_of_le_of_lt (by omega) h)
    have hall : through func (wrap (func+(npos+nkw))) = _ :=
      through_eq (by rw [← Nat.add_assoc]; exact h)
    simp only [Insn.collectReads.eq_def, collectReads.eq_def, hfirst, Nat.add_assoc, hall, ite_not]
  | callMethod => exact congrArg _ (upTo_eq h)
  | callMethodKw => exact congrArg _ (upTo_eq h.1)
  | buildList | buildTuple | buildString => exact upTo_eq h
  | buildSlice => exact upTo_eq h
  | getSlice => exact congrArg _ (upTo_eq h)
  | buildDict _ base n =>
    have htwice : wrap (2*n) = 2*n := wrap_of_lt (Nat.lt_of_le_of_lt (by omega) h)
    simp only [Insn.collectReads.eq_def, collectReads.eq_def, htwice, upTo_eq h]
  | makeFunction _ _ defsBase defsN annotsBase annotsN =>
    simp only [Insn.collectReads.eq_def, collectReads.eq_def, upTo_eq h.1, upTo_eq h.2.1]
    split
    · rfl
    · next hn => rw [Nat.eq_zero_of_not_pos hn]; rfl
  | makeClass => exact congrArg₂ _ (upTo_eq h.1) (upTo_eq h.2.1)
  | makeClassMeta _ _ basesBase basesN _ kwargBase kwargN metaReg =>
    simp only [Insn.collectReads.eq_def, collectReads.eq_def, upTo_eq h.1, upTo_eq h.2.1,
      List.cons_append]
  | concat => exact upTo_eq h.1
  | _ => rfl

/-- A handler is given the same values when the listed registers hold the same. -/
theorem operands_congr (h : Formed protos i) (hslot : ¬SlotForm i) {regs regs' : Reg → α}
    (hsame : ∀ s, insnReadsReg i s = true → regs s = regs' s) :
    operands protos i regs = operands protos i regs' :=
  List.map_congr_left fun s hs =>
    hsame s ((insnReadsReg_iff i s).mpr ((mem_vmReads h hslot).mp hs))

/-- The machine's operands are the registers an instruction depends on. -/
theorem depends_operandRegs (h : Formed protos i) (hrec : ∀ slot, i ≠ recordClassDel slot) :
    Depends protos i r ↔ r ∈ Machine.operandRegs i := by
  rw [depends_iff]
  by_cases hslot : SlotForm i
  · cases i with
    | deleteLocal => exact Iff.rfl
    | recordClassDel slot => exact absurd rfl (hrec slot)
    | _ => exact absurd hslot id
  · have hregs : Machine.operandRegs i = i.collectReads := by
      cases i with
      | deleteLocal => exact absurd trivial hslot
      | _ => rfl
    rw [mem_vmReads h hslot, collectReads_eq h, hregs]

end Pyrust.ReadSets
