import Mathlib.Data.List.Forall2
import Pyrust.ControlGraph

/-!
# Copy propagation

The pass walks the stream once and keeps a map of copies `dst → source`, cleared
at every jump target. Reads of a copied register are replaced by reads of the
source. It is correct as long as the map forgets every register an instruction
writes; `copiesInForce` is the map that does.
-/

set_option autoImplicit false

namespace Pyrust.CopyPropagation

open Bytecode Machine Compaction ControlGraph Simulation

abbrev Copies := List (Reg × Reg)

/-- Replace a register by its recorded source. -/
def Copies.subst (copies : Copies) (r : Reg) : Reg := (copies.lookup r).getD r

/-- Forget the copies that name a register of `bad`, on either side. -/
def Copies.evict (bad : Reg → Bool) (copies : Copies) : Copies :=
  copies.filter fun e => !bad e.1 && !bad e.2

/-- The offsets the pass takes into account. -/
def targetOff : Insn → Option ℤ
  | .jump k | .jumpIfFalse _ k | .jumpIfTrue _ k | .forIter _ _ k | .cmpJumpIfFalse _ _ _ k
  | .cmpJumpIfTrue _ _ _ k | .cmpJumpIfFalseConst _ _ _ k | .cmpJumpIfTrueConst _ _ _ k
  | .setupExcept k | .matchExcept _ k | .matchExceptStar _ _ _ k => some k
  | _ => none

def isTarget (insns : List Insn) (i : ℕ) : Bool :=
  i = 0 || insns.zipIdx.any fun x => (targetOff x.1).any fun k => jumpTarget x.2 k = i

def substInsn (s : Reg → Reg) : Insn → Insn
  | .move dst src => .move dst (s src)
  | .copyReg dst src => .copyReg dst (s src)
  | .ret src => .ret (s src)
  | .printExpr v => .printExpr (s v)
  | .raiseValue v => .raiseValue (s v)
  | .raiseExceptStarResidual v => .raiseExceptStarResidual (s v)
  | .raiseAssert v => .raiseAssert (s v)
  | .raiseFrom exc cause => .raiseFrom (s exc) (s cause)
  | .jumpIfFalse cond k => .jumpIfFalse (s cond) k
  | .jumpIfTrue cond k => .jumpIfTrue (s cond) k
  | .unaryOp dst op src => .unaryOp dst op (s src)
  | .binOp dst lhs op rhs => .binOp dst (s lhs) op (s rhs)
  | .binOpInPlace dst lhs op rhs => .binOpInPlace dst (s lhs) op (s rhs)
  | .binOpConst dst lhs op c isAug => .binOpConst dst (if isAug then lhs else s lhs) op c isAug
  | .binOpImm dst lhs op imm isAug => .binOpImm dst (if isAug then lhs else s lhs) op imm isAug
  | .cmpJumpIfFalse lhs op rhs k => .cmpJumpIfFalse (s lhs) op (s rhs) k
  | .cmpJumpIfTrue lhs op rhs k => .cmpJumpIfTrue (s lhs) op (s rhs) k
  | .cmpJumpIfFalseConst lhs op c k => .cmpJumpIfFalseConst (s lhs) op c k
  | .cmpJumpIfTrueConst lhs op c k => .cmpJumpIfTrueConst (s lhs) op c k
  | .setAdd set val => .setAdd set (s val)
  | .listAppend list val => .listAppend list (s val)
  | .listExtend list src => .listExtend list (s src)
  | .listExtendCall list src name => .listExtendCall list (s src) (name.subst s)
  | .dictUpdate dict other => .dictUpdate dict (s other)
  | .dictMergeKwCall dict src name => .dictMergeKwCall dict (s src) (name.subst s)
  | .setItemKwCall dict key val name => .setItemKwCall dict (s key) (s val) (name.subst s)
  | .setAttr obj n val => .setAttr obj n (s val)
  | .setTypeVarAttr obj n val => .setTypeVarAttr obj n (s val)
  | .setItem obj idx val => .setItem obj (s idx) (s val)
  | .deleteItem obj idx => .deleteItem obj (s idx)
  | .getAttr dst obj n => .getAttr dst (s obj) n
  | .getAttrForWith dst obj n proto => .getAttrForWith dst (s obj) n proto
  | .importFromAttr dst obj n => .importFromAttr dst (s obj) n
  | .getItem dst obj idx => .getItem dst (s obj) (s idx)
  | .getIter slot src => .getIter slot (s src)
  | .buildListReserve dst src => .buildListReserve dst (s src)
  | .getAwaitable dst src => .getAwaitable dst (s src)
  | .unpack dst src n => .unpack dst (s src) n
  | .unpackEx src before after dstBase => .unpackEx (s src) before after dstBase
  | .checkLocal r n => .checkLocal (s r) n
  | .matchExcept r k => .matchExcept (s r) k
  | .matchExceptStar r src dst k => .matchExceptStar (s r) (s src) (s dst) k
  | .storeGlobal n src => .storeGlobal n (s src)
  | .storeCell n src => .storeCell n (s src)
  | .syncModuleGlobal reg n => .syncModuleGlobal (s reg) n
  | .yieldFrom iterReg sentReg resultReg => .yieldFrom (s iterReg) (s sentReg) resultReg
  | other => other

/-- Called code may have changed any named local. -/
def Copies.reenter (numLocals : ℕ) (insn : Insn) (copies : Copies) : Copies :=
  if insn.mayInvalidateNamedLocals then
    copies.filter fun e => numLocals ≤ e.1 && numLocals ≤ e.2
  else copies

/-- The evictions of the pass, in its order, and the copy a `move` records. -/
def killAndRecord (numLocals : ℕ) (insn : Insn) (copies : Copies) : Copies :=
  let copies : Copies := copies.reenter numLocals insn
  let copies : Copies := match insn.writableDst with
    | some dst => copies.evict (· == dst)
    | none => copies
  match insn with
  | .yieldFrom _ sentReg resultReg => copies.evict fun r => r == resultReg || r == sentReg
  | .loadConst dst _ => copies.evict (· == dst)
  | .unpack dst _ n => copies.evict fun r => dst ≤ r && r < dst+n
  | .unpackEx _ before after dstBase =>
    copies.evict fun r => dstBase ≤ r && r < dstBase+before+1+after
  | .move dst src =>
    let copies : Copies := copies.evict (· == dst)
    let canonical := copies.subst src
    if dst = canonical then copies else (dst, canonical) :: copies
  | _ => copies

/-- One instruction of the forward pass. -/
def copyStep (numLocals : ℕ) (target : Bool) (copies : Copies) (insn : Insn) : Insn × Copies :=
  let copies : Copies := if target then [] else copies
  let insn := substInsn copies.subst insn
  (insn, killAndRecord numLocals insn copies)

def copyFrom (numLocals : ℕ) (target : ℕ → Bool) : ℕ → Copies → List Insn → List Insn
  | _, _, [] => []
  | i, copies, insn::rest =>
    let r := copyStep numLocals (target i) copies insn
    r.1 :: copyFrom numLocals target (i+1) r.2 rest

def passCopyProp (insns : List Insn) (numLocals : ℕ) : List Insn :=
  copyFrom numLocals (isTarget insns) 0 [] insns

/-! ## Copies in force -/

/-- What an instruction does to the copies that hold: those it may overwrite a register of are
gone, and a `move` makes one. -/
def copiesAfter (numLocals : ℕ) (insn : Insn) (copies : Copies) : Copies :=
  let kept : Copies := (copies.reenter numLocals insn).evict insn.collectWrites.contains
  match insn with
  | .move dst src =>
    let source := kept.subst (copies.subst src)
    if dst = source then kept else (dst, source) :: kept
  | _ => kept

/-- The copies that hold whenever control reaches an instruction. -/
def copiesInForce (insns : List Insn) (numLocals : ℕ) : ℕ → Copies
  | 0 => []
  | i+1 =>
    if isTarget insns (i+1) then []
    else match insns[i]? with
      | some insn => copiesAfter numLocals insn (copiesInForce insns numLocals i)
      | none => []

/-- The instruction writes a register some copy in force names, and the pass does not see it:
it is not on the list of evictions, or the destination itself is replaced. A delegation that is
resumed reads its operands again, after called code has run and the sent value was stored. -/
def overlooks (numLocals : ℕ) (copies : Copies) : Insn → Bool
  | .loadNoneRange start count => copies.any fun e =>
    (List.range' start count).contains e.1 || (List.range' start count).contains e.2
  | .matchClassPositional dstBase _ _ n => copies.any fun e =>
    (List.range' dstBase n).contains e.1 || (List.range' dstBase n).contains e.2
  | .matchExceptStar _ src dst _ => copies.any fun e =>
    [src, dst].contains e.1 || [src, dst].contains e.2
  | .yieldFrom iterReg sentReg _ => (copies.lookup sentReg).isSome ||
    (copies.lookup iterReg).any fun v => v == sentReg || iterReg < numLocals || v < numLocals
  | _ => false

/-- No instruction overwrites a copied register behind the pass's back. -/
def CopiesRespected (insns : List Insn) (numLocals : ℕ) : Prop :=
  ∀ x ∈ insns.zipIdx, overlooks numLocals (copiesInForce insns numLocals x.2) x.1 = false

instance (insns : List Insn) (numLocals : ℕ) : Decidable (CopiesRespected insns numLocals) :=
  inferInstanceAs (Decidable (∀ x ∈ insns.zipIdx, _))

theorem evict_eq_self {bad : Reg → Bool} {copies : Copies}
    (h : (copies.any fun e => bad e.1 || bad e.2) = false) : copies.evict bad = copies := by
  rw [Copies.evict, List.filter_eq_self]
  intro e he
  have := List.any_eq_false.mp h e he
  simpa using this

theorem evict_congr {bad bad' : Reg → Bool} {copies : Copies} (h : ∀ r, bad r = bad' r) :
    copies.evict bad = copies.evict bad' := by
  rw [funext h]

theorem evict_nil (copies : Copies) : copies.evict ([] : List Reg).contains = copies := by
  simp [Copies.evict]

theorem evict_singleton (copies : Copies) (d : Reg) :
    copies.evict [d].contains = copies.evict (· == d) :=
  evict_congr fun r => by simp only [List.contains_cons, List.contains_nil, Bool.or_false]

/-- The eviction of the one register that is written, if there is one. -/
theorem evict_written (copies : Copies) (dst : Option Reg) :
    (match dst with
      | some dst => copies.evict (· == dst)
      | none => copies) = copies.evict dst.toList.contains := by
  cases dst with
  | none => exact (evict_nil copies).symm
  | some dst => exact (evict_singleton copies dst).symm

theorem contains_range' (base n r : ℕ) :
    (List.range' base n).contains r = (decide (base ≤ r) && decide (r < base+n)) := by
  rw [List.contains_eq_mem, ← Bool.decide_and]
  simp

theorem reenter_sub {numLocals : ℕ} {insn : Insn} {copies : Copies} {e : Reg × Reg}
    (h : e ∈ copies.reenter numLocals insn) : e ∈ copies := by
  unfold Copies.reenter at h
  split at h
  · exact (List.mem_filter.mp h).1
  · exact h

theorem any_reenter {numLocals : ℕ} {insn : Insn} {copies : Copies} {p : Reg × Reg → Bool}
    (h : copies.any p = false) : (copies.reenter numLocals insn).any p = false := by
  rw [List.any_eq_false] at h ⊢
  exact fun e he => h e (reenter_sub he)

theorem mem_of_lookup {copies : Copies} {k v : Reg} (h : copies.lookup k = some v) :
    (k, v) ∈ copies := by
  induction copies with
  | nil => cases h
  | cons e copies ih =>
    obtain ⟨a, b⟩ := e
    rw [List.lookup_cons] at h
    by_cases hk : k == a
    · rw [hk] at h
      obtain rfl : b = v := by simpa using h
      simp [beq_iff_eq.mp hk]
    · rw [Bool.not_eq_true] at hk
      rw [hk] at h
      exact List.mem_cons_of_mem _ (ih h)

/-- As long as nothing is overlooked, the map of the pass is the map of copies in force. -/
theorem killAndRecord_eq {numLocals : ℕ} {insn : Insn} {copies : Copies}
    (hlate : insn.isLateStageGuardInsn = false) (h : overlooks numLocals copies insn = false) :
    killAndRecord numLocals (substInsn copies.subst insn) copies =
      copiesAfter numLocals insn copies := by
  have hwritten := evict_written (copies.reenter numLocals insn) insn.writableDst
  cases insn
  case yieldFrom iterReg sentReg resultReg =>
    simp only [overlooks, Bool.or_eq_false_iff] at h
    have hs : copies.subst sentReg = sentReg := by
      rw [Copies.subst, Option.isSome_eq_false_iff.mp h.1 |> Option.isNone_iff_eq_none.mp]
      rfl
    simp only [killAndRecord, copiesAfter, substInsn.eq_def, Insn.writableDst.eq_def,
      Insn.collectWrites.eq_def, hs]
    exact evict_congr fun r => by
      simp only [List.contains_cons, List.contains_nil, Bool.or_false]
  case loadNoneRange start count => exact (evict_eq_self (any_reenter h)).symm
  case matchClassPositional => exact (evict_eq_self (any_reenter h)).symm
  case matchExceptStar => exact (evict_eq_self (any_reenter h)).symm
  case unpack base src n => exact evict_congr fun r => (contains_range' base n r).symm
  case unpackEx src before after dstBase =>
    have hw : ∀ r, (decide (dstBase ≤ r) && decide (r < dstBase+before+1+after)) =
        (List.range' dstBase (before+1+after)).contains r := by
      intro r
      rw [contains_range', add_assoc, add_assoc, ← add_assoc before]
    exact evict_congr hw
  case loadConst dst idx => exact (evict_singleton _ _).symm
  case move dst src =>
    simp only [copiesAfter, Insn.collectWrites.eq_def, evict_singleton]
    rfl
  all_goals first
    | exact hwritten
    | cases hlate

theorem copyFrom_getElem? {insns : List Insn} {numLocals : ℕ}
    (hlate : ∀ x ∈ insns, x.isLateStageGuardInsn = false)
    (h : CopiesRespected insns numLocals) {i j : ℕ} {copies : Copies}
    (hc : (if isTarget insns i then [] else copies) = copiesInForce insns numLocals i) :
    (copyFrom numLocals (isTarget insns) i copies (insns.drop i))[j]? =
      (insns[i+j]?).map (substInsn (copiesInForce insns numLocals (i+j)).subst) := by
  induction j generalizing i copies with
  | zero =>
    cases hd : insns.drop i with
    | nil =>
      have hle : insns.length ≤ i := by simpa using hd
      simp [copyFrom, hle]
    | cons x rest =>
      have hx : insns[i]? = some x := by
        rw [← List.head?_drop, hd]
        rfl
      simp [copyFrom, copyStep, hx, hc]
  | succ j ih =>
    cases hd : insns.drop i with
    | nil =>
      have hle : insns.length ≤ i := by simpa using hd
      have hle' : insns.length ≤ i+(j+1) := by omega
      simp [copyFrom, hle']
    | cons x rest =>
      have hx : insns[i]? = some x := by
        rw [← List.head?_drop, hd]
        rfl
      have hrest : rest = insns.drop (i+1) := by
        rw [← List.tail_drop, hd]
        rfl
      have hk := killAndRecord_eq (hlate x (List.mem_of_getElem? hx))
        (h (x, i) (List.mem_zipIdx_iff_getElem?.mpr (by simpa using hx)))
      have hnext : (if isTarget insns (i+1) then [] else
          killAndRecord numLocals (substInsn (copiesInForce insns numLocals i).subst x)
            (copiesInForce insns numLocals i)) = copiesInForce insns numLocals (i+1) := by
        rw [hk, copiesInForce, hx]
      have := ih hnext
      simp only [copyFrom, copyStep, hc, List.getElem?_cons_succ, hrest]
      rw [this, show i+1+j = i+(j+1) by omega]

theorem passCopyProp_getElem? {insns : List Insn} {numLocals : ℕ}
    (hlate : ∀ x ∈ insns, x.isLateStageGuardInsn = false)
    (h : CopiesRespected insns numLocals) (pc : ℕ) :
    (passCopyProp insns numLocals)[pc]? =
      (insns[pc]?).map (substInsn (copiesInForce insns numLocals pc).subst) := by
  have hc : (if isTarget insns 0 then [] else ([] : Copies)) = copiesInForce insns numLocals 0 := by
    simp [copiesInForce]
  simpa [passCopyProp] using copyFrom_getElem? (j := pc) hlate h hc

/-! ## Both streams step together -/

/-- The destinations the substitution reaches. -/
def redirected : Insn → List Reg
  | .matchExceptStar _ src dst _ => [src, dst]
  | .yieldFrom _ sentReg _ => [sentReg]
  | _ => []

section subst
variable (s : Reg → Reg) (x : Insn)

theorem substInsn_shape : (substInsn s x).shape = x.shape := by
  cases x
  case listExtendCall list src name => cases name <;> rfl
  case dictMergeKwCall dict src name => cases name <;> rfl
  case setItemKwCall dict key val name => cases name <;> rfl
  all_goals rfl

theorem substInsn_jumpOff : (substInsn s x).jumpOff = x.jumpOff := by
  cases x <;> rfl

theorem substInsn_mayInvalidate :
    (substInsn s x).mayInvalidateNamedLocals = x.mayInvalidateNamedLocals := by
  cases x <;> rfl

theorem substInsn_transfer {code code' : Code} (hlen : code'.insns.length = code.insns.length)
    (htable : code'.excTable = code.excTable) (pc : ℕ) (hs : List ℕ) (f : Flow) :
    transfer code' pc hs (substInsn s x) f = transfer code pc hs x f := by
  cases f with
  | next =>
    cases x
    case setupExcept k => simp only [transfer, substInsn.eq_def, hlen]
    all_goals rfl
  | jump => simp [transfer, substInsn_jumpOff, hlen]
  | raise => simp [transfer, raiseTo, htable]
  | again | halt => rfl

theorem substInsn_writesOn (h : ∀ r ∈ redirected x, s r = r) (f : Flow) :
    writesOn (substInsn s x) f = writesOn x f := by
  cases x
  case matchExceptStar | yieldFrom =>
    cases f <;>
      simp_all [writesOn, substInsn.eq_def, redirected, Insn.collectWrites.eq_def]
  all_goals first
    | rfl
    | cases f <;> rfl

theorem KwCallName.subst_reads (s : Reg → Reg) (name : KwCallName) :
    List.Forall₂ (fun r' r => r' = s r ∨ r' = r) (name.subst s).reads name.reads := by
  cases name with
  | callee reg => exact .cons (.inl rfl) .nil
  | method obj nameIdx => exact .cons (.inl rfl) .nil

/-- Each operand is replaced, or is a container that the instruction changes and stays. -/
theorem substInsn_reads : List.Forall₂ (fun r' r => r' = s r ∨ r' = r)
    (operandRegs (substInsn s x)) (operandRegs x) := by
  have hsame : ∀ rs : List Reg, List.Forall₂ (fun r' r => r' = s r ∨ r' = r) rs rs := fun rs =>
    List.forall₂_same.mpr fun _ _ => .inr rfl
  cases x
  case listExtendCall list src name =>
    exact .cons (.inr rfl) (.cons (.inl rfl) (KwCallName.subst_reads s name))
  case dictMergeKwCall dict src name =>
    exact .cons (.inr rfl) (.cons (.inl rfl) (KwCallName.subst_reads s name))
  case setItemKwCall dict key val name =>
    exact .cons (.inr rfl) (.cons (.inl rfl) (.cons (.inl rfl) (KwCallName.subst_reads s name)))
  case binOpConst dst lhs op c isAug =>
    cases isAug with
    | true => exact hsame [lhs]
    | false => exact .cons (.inl rfl) .nil
  case binOpImm dst lhs op c isAug =>
    cases isAug with
    | true => exact hsame [lhs]
    | false => exact .cons (.inl rfl) .nil
  all_goals first
    | exact hsame _
    | repeat' first
      | exact .nil
      | exact .inl rfl
      | exact .inr rfl
      | apply List.Forall₂.cons

theorem substInsn_operands {Val : Type*} {numLocals : ℕ} {regs : Regs Val}
    (h : ∀ r ∈ operandRegs x, read numLocals regs (s r) = read numLocals regs r) :
    operands numLocals (substInsn s x) regs = operands numLocals x regs := by
  have hmap : ∀ {rs rs' : List Reg}, List.Forall₂ (fun r' r => r' = s r ∨ r' = r) rs' rs →
      (∀ r ∈ rs, read numLocals regs (s r) = read numLocals regs r) →
      rs'.map (read numLocals regs) = rs.map (read numLocals regs) := by
    intro rs rs' hreads h
    induction hreads with
    | nil => rfl
    | cons hr _ ih =>
      rw [List.forall_mem_cons] at h
      rw [List.map_cons, List.map_cons, ih h.2]
      cases hr with
      | inl hr => rw [hr, h.1]
      | inr hr => rw [hr]
  exact hmap (substInsn_reads s x) h

end subst

section run
variable {Val World : Type*} {sem : Sem Val World} {insns : List Insn} {numLocals : ℕ}

/-- Both sides of every copy hold the same value. -/
def Holds (regs : Regs Val) (copies : Copies) : Prop :=
  ∀ e ∈ copies, ∃ v, regs e.1 = some v ∧ regs e.2 = some v

/-- The part of the copies that survives the suspension of a delegation. -/
def surviving (numLocals : ℕ) (copies : Copies) : Insn → Copies
  | .yieldFrom iterReg sentReg resultReg =>
    (copies.reenter numLocals (.yieldFrom iterReg sentReg resultReg)).evict (· == sentReg)
  | _ => copies

/-- What is known of the registers whenever control reaches an instruction. -/
structure Good (numLocals : ℕ) (copies : Copies) (x : Insn) (regs : Regs Val) : Prop where
  reads : ∀ r ∈ operandRegs x, read numLocals regs (copies.subst r) = read numLocals regs r
  holds : Holds regs (surviving numLocals copies x)

theorem surviving_sub {copies : Copies} {x : Insn} {e : Reg × Reg}
    (h : e ∈ surviving numLocals copies x) : e ∈ copies := by
  cases x
  case yieldFrom => exact reenter_sub (List.mem_filter.mp h).1
  all_goals exact h

theorem Holds.read {regs : Regs Val} {copies : Copies} (h : Holds regs copies) (r : Reg) :
    read numLocals regs (copies.subst r) = Machine.read numLocals regs r := by
  cases hl : copies.lookup r with
  | none => simp [Copies.subst, hl]
  | some v =>
    obtain ⟨a, h1, h2⟩ := h _ (mem_of_lookup hl)
    simp only at h1 h2
    simp [Copies.subst, hl, Machine.read, h1, h2]

theorem Holds.good {regs : Regs Val} {copies : Copies} (h : Holds regs copies) (x : Insn) :
    Good numLocals copies x regs :=
  ⟨fun r _ => h.read r, fun e he => h e (surviving_sub he)⟩

/-- Copies that an instruction can neither write nor reach still hold after it. -/
theorem Holds.frame {regs : Regs Val} {copies : Copies} {x : Insn} (o : Outcome Val World)
    (h : Holds regs copies)
    (hw : ∀ e ∈ copies, e.1 ∉ x.collectWrites ∧ e.2 ∉ x.collectWrites)
    (hl : ∀ e ∈ copies, x.mayInvalidateNamedLocals → numLocals ≤ e.1 ∧ numLocals ≤ e.2) :
    Holds (finishRegs numLocals x o regs) copies := by
  intro e he
  obtain ⟨v, h1, h2⟩ := h e he
  refine ⟨v, ?_, ?_⟩
  · rw [finishRegs_frame (hw e he).1 (fun hm => (hl e he hm).1), h1]
  · rw [finishRegs_frame (hw e he).2 (fun hm => (hl e he hm).2), h2]

theorem reenter_temps {copies : Copies} {x : Insn} {e : Reg × Reg}
    (h : e ∈ copies.reenter numLocals x) (hm : x.mayInvalidateNamedLocals) :
    numLocals ≤ e.1 ∧ numLocals ≤ e.2 := by
  rw [Copies.reenter, if_pos hm, List.mem_filter] at h
  simpa using h.2

theorem evict_mem {bad : Reg → Bool} {copies : Copies} {e : Reg × Reg} (h : e ∈ copies.evict bad) :
    e ∈ copies ∧ bad e.1 = false ∧ bad e.2 = false := by
  rw [Copies.evict, List.mem_filter] at h
  simpa using h

/-- The kept part of `copiesAfter`. -/
theorem kept_holds {regs : Regs Val} {copies : Copies} {x : Insn} (o : Outcome Val World)
    (h : Good numLocals copies x regs) :
    Holds (finishRegs numLocals x o regs)
      ((copies.reenter numLocals x).evict x.collectWrites.contains) := by
  apply Holds.frame
  · intro e he
    obtain ⟨hmem, h1, h2⟩ := evict_mem he
    apply h.holds
    cases x
    case yieldFrom iterReg sentReg resultReg =>
      simp only [Insn.collectWrites.eq_def, List.contains_cons, List.contains_nil, Bool.or_false,
        Bool.or_eq_false_iff] at h1 h2
      rw [surviving, Copies.evict, List.mem_filter]
      exact ⟨hmem, by simp [h1.2, h2.2]⟩
    all_goals exact reenter_sub hmem
  · intro e he
    obtain ⟨-, h1, h2⟩ := evict_mem he
    exact ⟨by simpa using h1, by simpa using h2⟩
  · intro e he hm
    exact reenter_temps (evict_mem he).1 hm

theorem Holds.value {regs : Regs Val} {copies : Copies} {r : Reg} {v : Val} (h : Holds regs copies)
    (hr : regs r = some v) : regs (copies.subst r) = some v := by
  cases hl : copies.lookup r with
  | none => simpa [Copies.subst, hl] using hr
  | some u =>
    obtain ⟨a, h1, h2⟩ := h _ (mem_of_lookup hl)
    obtain rfl : a = v := by simpa [hr] using h1.symm
    simpa [Copies.subst, hl] using h2

theorem subst_evicted {bad : Reg → Bool} {copies : Copies} {r : Reg} (h : bad r) :
    (copies.evict bad).subst r = r := by
  cases hl : (copies.evict bad).lookup r with
  | none => simp [Copies.subst, hl]
  | some u =>
    have := (evict_mem (mem_of_lookup hl)).2.1
    simp [h] at this

theorem after_holds {regs : Regs Val} {copies : Copies} {x : Insn} {world : World}
    (h : Good numLocals copies x regs) (hflow : (perform sem numLocals x regs world).flow = .next) :
    Holds (finishRegs numLocals x (perform sem numLocals x regs world) regs)
      (copiesAfter numLocals x copies) := by
  have hkept := kept_holds (perform sem numLocals x regs world) h
  cases x
  case move dst src =>
    cases hv : regs src with
    | none => simp [perform_move_flow sem hv] at hflow
    | some v =>
      have hsrc : regs (copies.subst src) = some v := by
        have hr := h.reads src (List.mem_singleton_self src)
        cases hs : regs (copies.subst src) with
        | none =>
          by_cases hlt : copies.subst src < numLocals <;> simp [Machine.read, hv, hs, hlt] at hr
        | some u => simpa [Machine.read, hv, hs] using hr
      simp only [copiesAfter]
      split
      · exact hkept
      · rename_i hne
        intro e he
        rcases List.mem_cons.mp he with rfl | he
        · refine ⟨v, by simp [perform_move sem hv], hkept.value ?_⟩
          by_cases hq : copies.subst src = dst
          · refine absurd ?_ hne
            rw [hq]
            exact (subst_evicted (List.contains_iff_mem.mpr (List.mem_singleton_self dst))).symm
          · rw [perform_move sem hv, Function.update_of_ne hq, hsrc]
        · exact hkept e he
  all_goals exact hkept

/-- Equal states, with the copies in force holding and handlers only at targets. -/
structure Rel (insns : List Insn) (numLocals : ℕ) (s t : State Val World) : Prop where
  same : t = s
  good : ∀ x, insns[s.pc]? = some x → Good numLocals (copiesInForce insns numLocals s.pc) x s.regs
  targets : ∀ h ∈ s.handlers, isTarget insns h

theorem Rel.of_holds {pc : ℕ} {regs : Regs Val} {hs : List ℕ}
    (h : Holds regs (copiesInForce insns numLocals pc)) (ht : ∀ h ∈ hs, isTarget insns h)
    (w : World) : Rel insns numLocals ⟨pc, regs, w, hs⟩ ⟨pc, regs, w, hs⟩ :=
  ⟨rfl, fun x _ => h.good x, ht⟩

theorem inForce_target {pc : ℕ} (h : isTarget insns pc) : copiesInForce insns numLocals pc = [] := by
  cases pc with
  | zero => rfl
  | succ pc => rw [copiesInForce, if_pos h]

theorem Rel.at_target {pc : ℕ} {hs : List ℕ} (h : isTarget insns pc)
    (ht : ∀ h ∈ hs, isTarget insns h) (regs : Regs Val) (w : World) :
    Rel insns numLocals ⟨pc, regs, w, hs⟩ ⟨pc, regs, w, hs⟩ :=
  .of_holds (by rw [inForce_target h]; simp [Holds]) ht w

theorem isTarget_of_off {pc t : ℕ} {x : Insn} {k : ℤ} (hx : insns[pc]? = some x)
    (hk : targetOff x = some k) (ht : target insns.length pc k = some t) : isTarget insns t := by
  have hjt : jumpTarget pc k = t := by
    simp only [target] at ht
    split at ht
    · rename_i h
      simpa [jumpTarget, h.1] using ht
    · cases ht
  rw [isTarget, Bool.or_eq_true, List.any_eq_true]
  right
  exact ⟨(x, pc), List.mem_zipIdx_iff_getElem?.mpr (by simpa using hx), by simp [hk, hjt]⟩

theorem targetOff_of_jump {x : Insn} {k : ℤ} (hlate : x.isLateStageGuardInsn = false)
    (hk : x.jumpOff = some k) : targetOff x = some k := by
  cases x <;> first | exact hk | cases hlate

theorem next_rel {pc : ℕ} {x : Insn} {hs : List ℕ} {regs : Regs Val} (hx : insns[pc]? = some x)
    (ht : ∀ h ∈ hs, isTarget insns h) (h : Holds regs (copiesInForce insns numLocals (pc+1))) :
    Goto.Rel (fun pc hs pc' hs' => ∀ w : World,
        Rel insns numLocals ⟨pc, regs, w, hs⟩ ⟨pc', regs, w, hs'⟩)
      (transfer ⟨insns, []⟩ pc hs x .next) (transfer ⟨insns, []⟩ pc hs x .next) := by
  rcases mark_cases x with ⟨k, rfl⟩ | rfl | hmark
  · simp only [transfer]
    cases htgt : target insns.length pc k with
    | none => exact .finish .fault
    | some t =>
      refine .goto fun w => .of_holds h ?_ w
      intro a ha
      rcases List.mem_cons.mp ha with rfl | ha
      · exact isTarget_of_off hx rfl htgt
      · exact ht a ha
  · exact .goto fun w => .of_holds h (fun a ha => ht a (List.mem_of_mem_tail ha)) w
  · rw [transfer_next hmark]
    exact .goto fun w => .of_holds h ht w

/-- A resumed delegation finds its operands as it left them. -/
theorem again_good {copies : Copies} {iterReg sentReg resultReg : Reg} {regs : Regs Val}
    (o : Outcome Val World) (hflow : o.flow = .again)
    (hok : overlooks numLocals copies (.yieldFrom iterReg sentReg resultReg) = false)
    (h : Good numLocals copies (.yieldFrom iterReg sentReg resultReg) regs) :
    Good numLocals copies (.yieldFrom iterReg sentReg resultReg)
      (finishRegs numLocals (.yieldFrom iterReg sentReg resultReg) o regs) := by
  have hframe : ∀ r, r ≠ sentReg → numLocals ≤ r →
      finishRegs numLocals (.yieldFrom iterReg sentReg resultReg) o regs r = regs r := by
    intro r hr hl
    rw [finishRegs, writeAll_of_not_mem (by simpa [hflow, writesOn.eq_def] using hr)]
    simp [Insn.mayInvalidateNamedLocals.eq_def, Nat.not_lt.mpr hl]
  simp only [overlooks, Bool.or_eq_false_iff, Option.isSome_eq_false_iff,
    Option.isNone_iff_eq_none] at hok
  obtain ⟨hsent, hiter⟩ := hok
  have hholds : Holds (finishRegs numLocals (.yieldFrom iterReg sentReg resultReg) o regs)
      (surviving numLocals copies (.yieldFrom iterReg sentReg resultReg)) := by
    intro e he
    have he' : e ∈ (copies.reenter numLocals (.yieldFrom iterReg sentReg resultReg)).evict
      (· == sentReg) := he
    obtain ⟨hmem, h1, h2⟩ := evict_mem he'
    have hl := reenter_temps hmem rfl
    obtain ⟨v, hv1, hv2⟩ := h.holds e he
    exact ⟨v, by rw [hframe _ (by simpa using h1) hl.1, hv1],
      by rw [hframe _ (by simpa using h2) hl.2, hv2]⟩
  refine ⟨?_, hholds⟩
  intro r hr
  cases hlk : copies.lookup r with
  | none => simp [Copies.subst, hlk]
  | some v =>
    have hne : r ≠ sentReg := by
      rintro rfl
      rw [hsent] at hlk
      cases hlk
    obtain rfl : r = iterReg := by
      simpa [operandRegs, Insn.collectReads.eq_def, hne] using hr
    rw [hlk, Option.any_some, Bool.or_eq_false_iff, Bool.or_eq_false_iff] at hiter
    have hmem : (r, v) ∈ surviving numLocals copies (.yieldFrom r sentReg resultReg) := by
      rw [surviving, Copies.evict, List.mem_filter]
      refine ⟨?_, by simpa [hne] using hiter.1.1⟩
      simp only [Copies.reenter, Insn.mayInvalidateNamedLocals.eq_def, if_true, List.mem_filter]
      have htemp : numLocals ≤ r ∧ numLocals ≤ v := by simpa using And.intro hiter.1.2 hiter.2
      exact ⟨mem_of_lookup hlk, by simpa using htemp⟩
    obtain ⟨a, h1, h2⟩ := hholds _ hmem
    simp only at h1 h2
    simp [Copies.subst, hlk, Machine.read, h1, h2]

theorem go_rel (hlate : ∀ x ∈ insns, x.isLateStageGuardInsn = false)
    (hok : CopiesRespected insns numLocals) {pc : ℕ} {x : Insn} {hs : List ℕ} {regs : Regs Val}
    {world : World} (hx : insns[pc]? = some x) (ht : ∀ h ∈ hs, isTarget insns h)
    (h : Good numLocals (copiesInForce insns numLocals pc) x regs) :
    Goto.Rel (fun pc hs pc' hs' => ∀ w : World, Rel insns numLocals
        ⟨pc, finishRegs numLocals x (perform sem numLocals x regs world) regs, w, hs⟩
        ⟨pc', finishRegs numLocals x (perform sem numLocals x regs world) regs, w, hs'⟩)
      (transfer ⟨insns, []⟩ pc hs x (perform sem numLocals x regs world).flow)
      (transfer ⟨insns, []⟩ pc hs x (perform sem numLocals x regs world).flow) := by
  have hcan := perform_flow sem numLocals x regs world
  cases hf : (perform sem numLocals x regs world).flow with
  | next =>
    apply next_rel hx ht
    rw [copiesInForce, hx]
    split
    · simp [Holds]
    · exact after_holds h hf
  | jump =>
    simp only [transfer]
    cases hk : x.jumpOff with
    | none => exact .finish .fault
    | some k =>
      cases htgt : target insns.length pc k with
      | none => simpa [htgt] using Goto.Rel.finish .fault
      | some t =>
        have := isTarget_of_off hx
          (targetOff_of_jump (hlate x (List.mem_of_getElem? hx)) hk) htgt
        simpa [htgt] using Goto.Rel.goto fun w => Rel.at_target this ht _ w
  | again =>
    refine .goto fun w => ⟨rfl, fun y hy => ?_, ht⟩
    obtain rfl : x = y := by simpa using hx.symm.trans hy
    have hsafe := hok (x, pc) (List.mem_zipIdx_iff_getElem?.mpr (by simpa using hx))
    rw [hf] at hcan
    obtain ⟨iterReg, sentReg, resultReg, rfl⟩ := again_yieldFrom hcan
    exact again_good _ hf hsafe h
  | raise =>
    cases hs with
    | nil => exact .finish .escaped
    | cons a rest =>
      exact .goto fun w => .at_target (ht a (by simp)) (fun b hb => ht b (by simp [hb])) _ w
  | halt => exact .finish .returned

/-- Every visit, by its position. -/
def everyVisit : Observer := fun pc _ => some pc

theorem redirected_fixed {copies : Copies} {x : Insn} (h : overlooks numLocals copies x = false) :
    ∀ r ∈ redirected x, copies.subst r = r := by
  intro r hr
  have hnone : copies.lookup r = none := by
    rw [List.lookup_eq_none_iff]
    cases x
    case matchExceptStar type src dst k =>
      intro e he
      have hany := List.any_eq_false.mp h e he
      rw [Bool.or_eq_true, not_or, List.contains_eq_mem, decide_eq_true_eq] at hany
      have hne : r ≠ e.1 := by
        rintro rfl
        exact hany.1 hr
      simpa using hne
    case yieldFrom iterReg sentReg resultReg =>
      simp only [overlooks, Bool.or_eq_false_iff, Option.isSome_eq_false_iff,
        Option.isNone_iff_eq_none] at h
      obtain rfl : r = sentReg := by simpa [redirected] using hr
      exact List.lookup_eq_none_iff.mp h.1
    all_goals simp [redirected] at hr
  simp [Copies.subst, hnone]

theorem rel_matched (hlate : ∀ x ∈ insns, x.isLateStageGuardInsn = false)
    (hok : CopiesRespected insns numLocals) {s t : State Val World} (h : Rel insns numLocals s t) :
    Machine.Matched (frame sem numLocals ⟨insns, []⟩ everyVisit)
      (frame sem numLocals ⟨passCopyProp insns numLocals, []⟩ everyVisit)
      (Option.Rel (Rel insns numLocals)) (fun _ _ => 0) (some s) (some t) := by
  obtain ⟨pc, regs, w, hs⟩ := s
  obtain ⟨rfl, hgood, ht⟩ := h
  dsimp only at hgood ht
  have hpass := passCopyProp_getElem? hlate hok
  have hlen : (passCopyProp insns numLocals).length = insns.length := by
    apply Nat.le_antisymm
    · rw [← List.getElem?_eq_none_iff, hpass]
      simp
    · by_contra hlt
      have hnone := hpass (passCopyProp insns numLocals).length
      rw [List.getElem?_eq_none le_rfl, eq_comm, Option.map_eq_none_iff,
        List.getElem?_eq_none_iff] at hnone
      omega
  cases hx : insns[pc]? with
  | none =>
    have hx' : (passCopyProp insns numLocals)[pc]? = none := by rw [hpass, hx]; rfl
    refine .both _ _ _ (frame_none hx) ?_ .none
    rw [frame_none hx']
    simp [hlen]
  | some x =>
    have hg := hgood x hx
    have hsafe := hok (x, pc) (List.mem_zipIdx_iff_getElem?.mpr (by simpa using hx))
    have hx' : (passCopyProp insns numLocals)[pc]? =
        some (substInsn (copiesInForce insns numLocals pc).subst x) := by rw [hpass, hx]; rfl
    have hops := substInsn_operands (copiesInForce insns numLocals pc).subst x hg.reads
    have hregs : ∀ o : Outcome Val World,
        finishRegs numLocals (substInsn (copiesInForce insns numLocals pc).subst x) o regs =
          finishRegs numLocals x o regs := by
      intro o
      rw [finishRegs, finishRegs, substInsn_mayInvalidate,
        substInsn_writesOn _ _ (redirected_fixed hsafe)]
    refine frame_both hx hx' ?_ ?_ ?_ ?_
    · simp [visitEvents, everyVisit, hops, substInsn_shape]
    · simp [perform, hops, substInsn_shape]
    · rw [hregs]
    · have htr : ∀ f, transfer ⟨passCopyProp insns numLocals, []⟩ pc hs
          (substInsn (copiesInForce insns numLocals pc).subst x) f =
          transfer ⟨insns, []⟩ pc hs x f := by
        intro f
        apply substInsn_transfer
        · exact hlen
        · rfl
      rw [hregs, htr]
      exact go_rel hlate hok hx ht hg

/-- On a stream without late-stage guards in which no copied register is overwritten behind the
pass's back, copy propagation keeps every visit, its operand values and the named locals at the
end, whatever called code does to the named locals. -/
theorem copy_prop_preserves (insns : List Insn) (numLocals : ℕ)
    (hlate : ∀ x ∈ insns, x.isLateStageGuardInsn = false)
    (hok : CopiesRespected insns numLocals) (sem : Sem Val World) (regs : Regs Val)
    (world : World) :
    (frame sem numLocals ⟨passCopyProp insns numLocals, []⟩ everyVisit).behaviours
        (State.enter regs world) =
      (frame sem numLocals ⟨insns, []⟩ everyVisit).behaviours (State.enter regs world) := by
  refine (frame_behaviours_eq (Rel insns numLocals) (fun _ _ => 0)
    (fun s t => rel_matched hlate hok) (Rel.at_target ?_ ?_ regs world)).symm
  · simp [isTarget]
  · simp

end run

/-- A copy that survives a call and is read through its source afterwards. -/
def copiedArgument : List Insn :=
  [.loadConst 1 5, .move 2 1, .call 3 0, .binOp 4 2 .add 2, .matchClassPositional 5 4 2 2, .ret 5]

theorem copy_prop_preserves_copied_argument :
    passCopyProp copiedArgument 1 = [.loadConst 1 5, .move 2 1, .call 3 0, .binOp 4 1 .add 1,
      .matchClassPositional 5 4 2 2, .ret 5] ∧
    (frame scripted 1 ⟨passCopyProp copiedArgument 1, []⟩ everyVisit).behaviours
        (State.enter (fun _ => some 3) []) =
      (frame scripted 1 ⟨copiedArgument, []⟩ everyVisit).behaviours
        (State.enter (fun _ => some 3) []) :=
  ⟨by decide, copy_prop_preserves copiedArgument 1 (by decide) (by decide) scripted _ _⟩

/-- The positional captures of a class pattern land on a register that was copied before. -/
def capturedCopy : List Insn :=
  [.loadConst 1 5, .loadConst 2 6, .move 3 1, .matchClassPositional 3 1 2 1, .ret 3]

/-- The value returned is the captured one before the pass and the copied one after it. -/
theorem copy_prop_reads_overwritten_copy :
    (frame scripted 1 ⟨passCopyProp capturedCopy 1, []⟩ everyVisit).behaviours
        (State.enter (fun _ => none) []) ≠
      (frame scripted 1 ⟨capturedCopy, []⟩ everyVisit).behaviours
        (State.enter (fun _ => none) []) := by
  apply Ne.symm
  apply Machine.behaviours_ne visits 5 5
  · decide
  · decide

end Pyrust.CopyPropagation
