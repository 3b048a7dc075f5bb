import Pyrust.ConstantFusion
import Pyrust.ConstantPool

/-!
# Folding unary operators on constants

A constant load whose temporary a unary operator consumes becomes a load of the
result, which the built-in operator computes at compile time. The dispatch loop
has a path of its own for machine integers; it computes the same integers.
-/

set_option autoImplicit false

namespace Pyrust.UnaryFolding

open Bytecode Machine Compaction ControlGraph ConstantPool RegisterLiveness ConstantFusion
open DeadStores (DeletesNamed)

variable {Obj World : Type}

/-! ## Unary operators on values -/

/-- An integer that `Value::int` or `Value::bigint` has made. -/
def mkInt (n : ℤ) : Value Obj := if -2^63 ≤ n ∧ n < 2^63 then .int n else .bigInt n

/-- Negation flips the sign bit. -/
def negFloat (bits : BitVec 64) : BitVec 64 := bits ^^^ (1 <<< 63)

def zeroFloat (bits : BitVec 64) : Bool := bits = 0 || bits = 1 <<< 63

/-- `truthy_raw`, with the truth of an object given. -/
def truthyRaw (truthy : Obj → Bool) : Value Obj → Bool
  | .bool b => b
  | .int v => v ≠ 0
  | .bigInt v => v ≠ 0
  | .float bits => !zeroFloat bits
  | .complex re im => !zeroFloat re || !zeroFloat im
  | .str s => s ≠ ""
  | .bytes b => !b.isEmpty
  | .none => false
  | .object o => truthy o

/-- `eval_builtin_unary`. A `TypeError` is `none`. -/
def evalBuiltinUnary (truthy : Obj → Bool) : UnaryOp → Value Obj → Option (Value Obj)
  | .neg, .int v => some (if v = -2^63 then .bigInt (2^63) else mkInt (-v))
  | .neg, .float bits => some (.float (negFloat bits))
  | .neg, .complex re im => some (.complex (negFloat re) (negFloat im))
  | .neg, .bigInt v => some (mkInt (-v))
  | .neg, .bool b => some (mkInt (if b then -1 else 0))
  | .not, v => some (.bool (!truthyRaw truthy v))
  | .bitNot, .int v => some (mkInt (-v-1))
  | .bitNot, .bool b => some (mkInt (if b then -2 else -1))
  | .bitNot, .bigInt v => some (mkInt (-v-1))
  | .pos, .bigInt v => some (.bigInt v)
  | .pos, .float bits => some (.float bits)
  | .pos, .int v => some (mkInt v)
  | .pos, .complex re im => some (.complex re im)
  | .pos, .bool b => some (mkInt (if b then 1 else 0))
  | _, _ => none

/-- `try_tagged_int_unary!`. -/
def tryTaggedIntUnary (v : Value Obj) : UnaryOp → Option (Value Obj)
  | .not => none
  | .neg => (asInt v).bind fun n => if n = -2^63 then none else some (mkInt (-n))
  | .bitNot => (asInt v).map fun n => mkInt (-n-1)
  | .pos => (asInt v).map mkInt

/-- What the operators of the dispatch loop do. Objects whose class defines the operation run its
code; everything else goes to the built-in operator. -/
structure Operators (Obj World : Type) where
  rest : Sem (Value Obj) World
  binary : BinaryOp → Operand (Value Obj) → Operand (Value Obj) → Regs (Value Obj) → World →
    Outcome (Value Obj) World
  truthy : Obj → Bool
  userDefined : Obj → Bool
  unaryObject : UnaryOp → Obj → Regs (Value Obj) → World → Outcome (Value Obj) World
  unaryError : UnaryOp → Value Obj → Regs (Value Obj) → World → Outcome (Value Obj) World

namespace Operators

variable (O : Operators Obj World)

def returns (v : Value Obj) (locals : Regs (Value Obj)) (world : World) :
    Outcome (Value Obj) World :=
  ⟨world, locals, .next, fun _ => some v, fun _ => false⟩

def builtin (op : UnaryOp) (v : Value Obj) (locals : Regs (Value Obj)) (world : World) :
    Outcome (Value Obj) World :=
  match evalBuiltinUnary O.truthy op v with
  | some w => returns w locals world
  | none => O.unaryError op v locals world

/-- The `UnaryOp` arm of the dispatch loop. -/
def evalUnary (op : UnaryOp) (v : Value Obj) (locals : Regs (Value Obj)) (world : World) :
    Outcome (Value Obj) World :=
  match tryTaggedIntUnary v op with
  | some w => returns w locals world
  | none => match v with
    | .object o =>
      if O.userDefined o then O.unaryObject op o locals world
      else O.builtin op (.object o) locals world
    | v => O.builtin op v locals world

/-- The dispatch loop on a code object with this pool: `BinOp` and `BinOpConst` evaluate one
binary operation, the second with the constant on the right. -/
def sem (consts : List (Value Obj)) : Sem (Value Obj) World where
  const c := consts.getD c .none
  none := .none
  exec shape ops locals world := match shape, ops with
    | .binOp _ _ op _, [a, b] => O.binary op a b locals world
    | .binOpConst _ _ op c false, [a] =>
      O.binary op a (.value (consts.getD c .none)) locals world
    | .unaryOp _ op _, [.value v] => O.evalUnary op v locals world
    | shape, ops => O.rest.exec shape ops locals world
  unbound := O.rest.unbound
  caught := O.rest.caught

end Operators

def intValue : Value Obj → Option ℤ
  | .int v | .bigInt v => some v
  | _ => none

/-- Equal, or the same integer. -/
def SameValue (v w : Value Obj) : Prop := v = w ∨ ∃ n, intValue v = some n ∧ intValue w = some n

theorem intValue_mkInt (n : ℤ) : intValue (mkInt n : Value Obj) = some n := by
  rw [mkInt]
  split <;> rfl

theorem intValue_of_asInt {v : Value Obj} {n : ℤ} (h : asInt v = some n) :
    intValue v = some n := by
  cases v
  case int m => exact h
  case bigInt m =>
    rw [asInt] at h
    split at h
    · exact h
    · cases h
  all_goals cases h

def intUnary : UnaryOp → ℤ → ℤ
  | .neg, n => -n
  | .bitNot, n => -n-1
  | _, n => n

attribute [local simp] evalBuiltinUnary in
theorem intValue_builtin {truthy : Obj → Bool} {op : UnaryOp} {v w : Value Obj} {n : ℤ}
    (hop : op ≠ .not) (hv : intValue v = some n) (h : evalBuiltinUnary truthy op v = some w) :
    intValue w = some (intUnary op n) := by
  cases v
  case int m =>
    obtain rfl : m = n := by simpa [intValue] using hv
    cases op
    case not => exact absurd rfl hop
    case neg =>
      by_cases hmin : m = -2^63
      · subst hmin
        obtain rfl : Value.bigInt (2^63) = w := by simpa [evalBuiltinUnary] using h
        rfl
      · rw [evalBuiltinUnary, if_neg hmin, Option.some.injEq] at h
        rw [← h]
        exact intValue_mkInt _
    all_goals
      rw [← Option.some.inj h]
      exact intValue_mkInt _
  case bigInt m =>
    obtain rfl : m = n := by simpa [intValue] using hv
    cases op
    case not => exact absurd rfl hop
    case pos =>
      rw [← Option.some.inj h]
      rfl
    all_goals
      rw [← Option.some.inj h]
      exact intValue_mkInt _
  all_goals cases hv

theorem intValue_tagged {op : UnaryOp} {v w : Value Obj} {n : ℤ} (hv : intValue v = some n)
    (h : tryTaggedIntUnary v op = some w) : intValue w = some (intUnary op n) := by
  have hn : ∀ {m}, asInt v = some m → m = n := fun hm =>
    Option.some.inj ((intValue_of_asInt hm).symm.trans hv)
  cases op
  case not => cases h
  case neg =>
    obtain ⟨m, hm, hw⟩ := Option.bind_eq_some_iff.mp h
    split at hw
    · cases hw
    · rw [← Option.some.inj hw, hn hm]
      exact intValue_mkInt _
  all_goals
    obtain ⟨m, hm, rfl⟩ := Option.map_eq_some_iff.mp h
    rw [hn hm]
    exact intValue_mkInt _

/-- What the built-in operator makes of an integer is the integer the fast path computes. -/
theorem evalBuiltinUnary_int {truthy : Obj → Bool} {op : UnaryOp} {v w w' : Value Obj}
    (hfast : tryTaggedIntUnary v op = some w') (h : evalBuiltinUnary truthy op v = some w) :
    SameValue w' w := by
  have hop : op ≠ .not := by
    rintro rfl
    cases hfast
  have hint : ∃ n, asInt v = some n := by
    cases hv : asInt v with
    | some n => exact ⟨n, rfl⟩
    | none => cases op <;> simp [tryTaggedIntUnary, hv] at hfast
  obtain ⟨n, hn⟩ := hint
  have hv := intValue_of_asInt hn
  exact .inr ⟨intUnary op n, intValue_tagged hv hfast, intValue_builtin hop hv h⟩

/-- At run time the operator returns what was folded, with nothing else changed. -/
theorem Operators.evalUnary_folded (O : Operators Obj World) {op : UnaryOp} {v w : Value Obj}
    (h : evalBuiltinUnary O.truthy op v = some w)
    (hv : ∀ o, v = .object o → O.userDefined o = false) (locals : Regs (Value Obj))
    (world : World) :
    ∃ w', SameValue w' w ∧ O.evalUnary op v locals world = returns w' locals world := by
  cases hfast : tryTaggedIntUnary v op with
  | some w' => exact ⟨w', evalBuiltinUnary_int hfast h, by simp [evalUnary, hfast]⟩
  | none =>
    refine ⟨w, .inl rfl, ?_⟩
    cases v
    case object o => simp [evalUnary, hfast, hv o rfl, builtin, h]
    all_goals simp [evalUnary, hfast, builtin, h]

/-! ## The pass -/

/-- `intern_const_in_pool`: the first constant of the same kind and value, or a new slot. -/
def internConstInPool (consts : List (Value Obj)) (v : Value Obj) :
    Option (ℕ × List (Value Obj)) :=
  match consts.findIdx? fun e => (constKey v).isSome && constKey e = constKey v with
  | some i => if i < 2^16 then some (i, consts) else none
  | none => if poolLimit ≤ consts.length then none else some (consts.length, consts ++ [v])

theorem internConstInPool_spec {consts consts' : List (Value Obj)} {v : Value Obj} {nc : ℕ}
    (h : internConstInPool consts v = some (nc, consts')) :
    consts <+: consts' ∧ consts'[nc]? = some v := by
  rw [internConstInPool] at h
  split at h
  case h_1 i hi =>
    split at h
    case isFalse => cases h
    case isTrue =>
      cases h
      obtain ⟨hlt, hp, -⟩ := List.findIdx?_eq_some_iff_getElem.mp hi
      simp only [Bool.and_eq_true, Option.isSome_iff_exists, decide_eq_true_eq] at hp
      obtain ⟨⟨k, hk⟩, heq⟩ := hp
      have hsame : consts[nc] = v := constKey_injective (heq.trans hk) hk
      exact ⟨List.prefix_rfl, by rw [List.getElem?_eq_getElem hlt, hsame]⟩
  case h_2 =>
    split at h
    case isTrue => cases h
    case isFalse =>
      cases h
      exact ⟨List.prefix_append consts [v], by simp⟩

structure Folding (Obj : Type) where
  insns : List Insn
  keep : List Bool
  consts : List (Value Obj)

section pass
variable (insns : List Insn) (numLocals : ℕ) (truthy : Obj → Bool)

/-- Some candidate writes a register of its own. -/
def needsDeadSource : Bool := insns.zipIdx.any fun x =>
  match x.1, insns[x.2+1]? with
  | .loadConst src _, some (.unaryOp dst _ unarySrc) =>
    src = unarySrc && dst ≠ src && decide (numLocals ≤ src)
  | _, _ => false

def deadAfterUse : Option (ℕ → Bool) :=
  if needsDeadSource insns numLocals then
    some (loadConstDeadAfterUse numLocals (jumpTargets insns) insns)
  else none

/-- The destination and the result of the pair at `i`. Compiled code only carries indices inside
the pool, where the source's indexing does not fail. -/
def foldedPair (st : Folding Obj) (i : ℕ) : Option (Reg × Value Obj) :=
  match st.insns[i]?, st.insns[i+1]? with
  | some (.loadConst lc idx), some (.unaryOp dst op src) =>
    if src = lc ∧ numLocals ≤ lc ∧ (dst = lc ∨ (deadAfterUse insns numLocals).any fun d => d i) then
      (st.consts[idx]?.bind (evalBuiltinUnary truthy op)).map fun v => (dst, v)
    else none
  | _, _ => none

/-- The loop. Each turn moves on, so the length of the stream is fuel enough. -/
def foldFrom : ℕ → ℕ → Folding Obj → Folding Obj
  | 0, _, st => st
  | fuel+1, i, st =>
    if i+1 < insns.length then
      if jumpTargets insns (i+1) then foldFrom fuel (i+1) st
      else match foldedPair insns numLocals truthy st i with
        | some (dst, v) => match internConstInPool st.consts v with
          | some (nc, consts) => foldFrom fuel (i+2)
            ⟨st.insns.set (i+1) (.loadConst dst nc), st.keep.set i false, consts⟩
          | none => foldFrom fuel (i+1) st
        | none => foldFrom fuel (i+1) st
    else st

def unaryFold (consts : List (Value Obj)) : Folding Obj :=
  foldFrom insns numLocals truthy insns.length 0
    ⟨insns, List.replicate insns.length true, consts⟩

def passUnaryFold (consts : List (Value Obj)) : List Insn × List (Value Obj) :=
  let st := unaryFold insns numLocals truthy consts
  (compact st.insns st.keep, st.consts)

end pass

section folded
variable {insns : List Insn} {numLocals : ℕ} {truthy : Obj → Bool} {consts : List (Value Obj)}

/-- The pair at `i` has been folded: its second instruction loads the result. -/
structure Folded (insns : List Insn) (numLocals : ℕ) (truthy : Obj → Bool) (st : Folding Obj)
    (i : ℕ) (lc : Reg) (idx : ℕ) (dst : Reg) (op : UnaryOp) (nc : ℕ) : Prop where
  load : insns[i]? = some (.loadConst lc idx)
  use : insns[i+1]? = some (.unaryOp dst op lc)
  temp : numLocals ≤ lc
  dead : dst = lc ∨ loadConstDeadAfterUse numLocals (jumpTargets insns) insns i
  result : st.insns[i+1]? = some (.loadConst dst nc)
  value : ∃ c v, st.consts[idx]? = some c ∧ evalBuiltinUnary truthy op c = some v ∧
    st.consts[nc]? = some v

/-- What holds whenever the loop comes to a position. -/
structure Running (insns : List Insn) (numLocals : ℕ) (truthy : Obj → Bool)
    (consts : List (Value Obj)) (i : ℕ) (st : Folding Obj) : Prop where
  length : st.insns.length = insns.length
  ahead : st.insns.drop i = insns.drop i
  grown : consts <+: st.consts
  dropped : ∀ j, st.keep[j]? = some false → ∃ lc idx dst op nc,
    Folded insns numLocals truthy st j lc idx dst op nc

theorem Running.next {i : ℕ} {st : Folding Obj} (h : Running insns numLocals truthy consts i st) :
    Running insns numLocals truthy consts (i+1) st :=
  { h with ahead := by rw [← List.drop_drop, h.ahead, List.drop_drop] }

theorem prefix_some {xs ys : List (Value Obj)} (h : xs <+: ys) {i : ℕ} {v : Value Obj}
    (hv : xs[i]? = some v) : ys[i]? = some v := by
  rw [prefix_getElem? h (List.getElem?_eq_some_iff.mp hv).1, hv]

theorem deadAfterUse_any {i : ℕ} (h : (deadAfterUse insns numLocals).any fun d => d i) :
    loadConstDeadAfterUse numLocals (jumpTargets insns) insns i := by
  rw [deadAfterUse] at h
  split at h
  · exact h
  · cases h

/-- A folded pair keeps what holds. -/
theorem Running.fold {i : ℕ} {st : Folding Obj} (h : Running insns numLocals truthy consts i st)
    {dst : Reg} {v : Value Obj} (hp : foldedPair insns numLocals truthy st i = some (dst, v))
    {nc : ℕ} {consts' : List (Value Obj)}
    (hint : internConstInPool st.consts v = some (nc, consts')) :
    Running insns numLocals truthy consts (i+2)
      ⟨st.insns.set (i+1) (.loadConst dst nc), st.keep.set i false, consts'⟩ := by
  obtain ⟨hgrown, hnc⟩ := internConstInPool_spec hint
  have hload := getElem?_of_drop h.ahead 0
  have huse := getElem?_of_drop h.ahead 1
  rw [Nat.add_zero] at hload
  simp only [foldedPair] at hp
  split at hp
  case h_2 => cases hp
  case h_1 lc idx d op src hx hy =>
    split at hp
    case isFalse => cases hp
    case isTrue hc =>
      obtain ⟨rfl, htemp, hdead⟩ := hc
      obtain ⟨w, hw, heq⟩ := Option.map_eq_some_iff.mp hp
      cases heq
      obtain ⟨e, he, hev⟩ := Option.bind_eq_some_iff.mp hw
      have hlt : i+1 < st.insns.length := (List.getElem?_eq_some_iff.mp hy).1
      refine ⟨by simp [h.length], ?_, h.grown.trans hgrown, ?_⟩
      · show (st.insns.set (i+1) _).drop (i+2) = insns.drop (i+2)
        rw [List.drop_set_of_lt (by omega), h.next.next.ahead]
      · intro j hj
        by_cases hij : j = i
        · subst hij
          exact ⟨src, idx, dst, op, nc, hload ▸ hx, huse ▸ hy, htemp, hdead.imp_right deadAfterUse_any,
            List.getElem?_set_self hlt, e, v, prefix_some hgrown he, hev, hnc⟩
        · rw [List.getElem?_set_ne (Ne.symm hij)] at hj
          obtain ⟨lc', idx', dst', op', nc', hf⟩ := h.dropped j hj
          obtain ⟨e', v', he', hev', hnc'⟩ := hf.value
          refine ⟨lc', idx', dst', op', nc', hf.load, hf.use, hf.temp, hf.dead, ?_, e', v',
            prefix_some hgrown he', hev', prefix_some hgrown hnc'⟩
          rw [List.getElem?_set_ne (by omega), hf.result]

attribute [local simp] foldFrom in
theorem foldFrom_running (fuel i : ℕ) (st : Folding Obj)
    (h : Running insns numLocals truthy consts i st) :
    ∃ k, Running insns numLocals truthy consts k (foldFrom insns numLocals truthy fuel i st) := by
  induction fuel generalizing i st with
  | zero => exact ⟨i, h⟩
  | succ fuel ih =>
    rw [foldFrom]
    split
    case isFalse => exact ⟨i, h⟩
    case isTrue =>
      split
      case isTrue => exact ih _ _ h.next
      case isFalse =>
        split
        case h_2 => exact ih _ _ h.next
        case h_1 dst v hp =>
          split
          case h_2 => exact ih _ _ h.next
          case h_1 nc consts' hint => exact ih _ _ (h.fold hp hint)

theorem unaryFold_running :
    ∃ k, Running insns numLocals truthy consts k (unaryFold insns numLocals truthy consts) := by
  apply foldFrom_running
  refine ⟨rfl, rfl, List.prefix_rfl, ?_⟩
  intro j hj
  simp [List.getElem?_replicate] at hj

end folded

/-! ## What the rewritten instructions compute -/

section effect
variable {numLocals : ℕ} (O : Operators Obj World) {consts : List (Value Obj)}

/-- On a register file in which the temporary holds the constant, the operator does what the fused
instruction does without it. -/
def SameEffect (sem : Sem (Value Obj) World) (numLocals : ℕ) (lc : Reg) (idx : ℕ) (x y : Insn) :
    Prop :=
  ∀ (regs : Regs (Value Obj)) (world : World),
    perform sem numLocals x (Function.update regs lc (some (sem.const idx))) world =
        perform sem numLocals y regs world ∧
      ∀ (o : Outcome (Value Obj) World) (a : Reg), a ≠ lc ∨ a ∈ y.collectWrites ∧ o.flow = .next →
        finishRegs numLocals x o (Function.update regs lc (some (sem.const idx))) a =
          finishRegs numLocals y o regs a

theorem view_update {lc : Reg} (h : numLocals ≤ lc) (regs : Regs (Value Obj))
    (v : Option (Value Obj)) : view numLocals (Function.update regs lc v) = view numLocals regs := by
  funext r
  by_cases hr : r < numLocals
  · have hne : r ≠ lc := Nat.ne_of_lt (Nat.lt_of_lt_of_le hr h)
    simp [view, hr, hne]
  · simp [view, hr]

attribute [local simp] Operators.sem in
theorem fused_sameEffect {lc : Reg} (htemp : numLocals ≤ lc) {lhs : Reg} (hne : lhs ≠ lc)
    (dst : Reg) (op : BinaryOp) (idx : ℕ) :
    SameEffect (O.sem consts) numLocals lc idx (.binOp dst lhs op lc)
      (.binOpConst dst lhs op idx false) := by
  intro regs world
  constructor
  · have hview := view_update htemp regs (some ((O.sem consts).const idx))
    simp only [perform, hview]
    simp only [operands, operandRegs, Insn.collectReads.eq_def, List.map, Machine.read,
      Function.update_of_ne hne, Function.update_self, Insn.shape.eq_def]
    show Outcome.mk _ _ _ _ _ = Outcome.mk _ _ _ _ _
    simp only [Operators.sem]
    generalize O.binary op _ _ _ world = o
    cases o.flow <;> rfl
  · intro o a ha
    simp only [finishRegs, Insn.mayInvalidateNamedLocals.eq_def, if_true]
    have hwrites : writesOn (.binOp dst lhs op lc) o.flow =
        writesOn (.binOpConst dst lhs op idx false) o.flow := by
      cases o.flow <;> rfl
    rw [hwrites]
    apply writeAll_congr
    rcases ha with ha | ⟨ha, hflow⟩
    · left
      simp [Function.update_of_ne ha]
    · right
      simp only [hflow]
      exact ⟨ha, fun k => rfl⟩

/-- From register files that differ in the temporary, which holds the constant on the left, both
instructions fall through, change nothing but `dst`, and write the same value there. -/
def SameResult (sem sem' : Sem (Value Obj) World) (numLocals : ℕ) (lc : Reg) (idx : ℕ) (dst : Reg)
    (x y : Insn) : Prop :=
  ∀ (regs : Regs (Value Obj)) (world : World), ∃ v w, SameValue v w ∧
    let before := Function.update regs lc (some (sem.const idx))
    perform sem numLocals x before world = Operators.returns v (view numLocals regs) world ∧
    perform sem' numLocals y regs world = Operators.returns w (view numLocals regs) world ∧
    finishRegs numLocals x (Operators.returns v (view numLocals regs) world) before =
      Function.update before dst (some v) ∧
    finishRegs numLocals y (Operators.returns w (view numLocals regs) world) regs =
      Function.update regs dst (some w)

theorem finishRegs_returns_unary (dst : Reg) (op : UnaryOp) {lc : Reg} (htemp : numLocals ≤ lc)
    (v : Value Obj) (u : Option (Value Obj)) (regs : Regs (Value Obj)) (world : World) :
    finishRegs numLocals (.unaryOp dst op lc) (Operators.returns v (view numLocals regs) world)
        (Function.update regs lc u) = Function.update (Function.update regs lc u) dst (some v) := by
  have hbase : (fun r => if r < numLocals then view numLocals regs r
      else Function.update regs lc u r) = Function.update regs lc u := by
    rw [← view_update htemp regs u]
    exact view_self _
  simp only [finishRegs, Insn.mayInvalidateNamedLocals.eq_def, if_true, Operators.returns, hbase]
  rfl

theorem folded_sameResult {consts' : List (Value Obj)} {lc : Reg} (htemp : numLocals ≤ lc)
    {idx nc : ℕ} (dst : Reg) {op : UnaryOp} {c w : Value Obj} (hc : consts[idx]? = some c)
    (hfold : evalBuiltinUnary O.truthy op c = some w) (hnc : consts'[nc]? = some w)
    (hobj : ∀ o, c = .object o → O.userDefined o = false) :
    SameResult (O.sem consts) (O.sem consts') numLocals lc idx dst (.unaryOp dst op lc)
      (.loadConst dst nc) := by
  intro regs world
  obtain ⟨v, hsame, heval⟩ := O.evalUnary_folded hfold hobj (view numLocals regs) world
  have hconst : (O.sem consts).const idx = c := by
    simp [Operators.sem, List.getD_eq_getElem?_getD, hc]
  have hconst' : (O.sem consts').const nc = w := by
    simp [Operators.sem, List.getD_eq_getElem?_getD, hnc]
  refine ⟨v, w, hsame, ?_, ?_, finishRegs_returns_unary dst op htemp v _ regs world, rfl⟩
  · rw [perform, view_update htemp]
    simp only [operands, operandRegs, Insn.collectReads.eq_def, List.map, Machine.read,
      Function.update_self, Insn.shape.eq_def, hconst]
    show (let o := O.evalUnary op c (view numLocals regs) world;
      ({ o with flow := settle (.unaryOp 0 op 0) o.flow } : Outcome (Value Obj) World)) = _
    rw [heval]
    rfl
  · simp only [perform, Insn.shape.eq_def, outcome, hconst']
    rfl

end effect

/-! ## Both passes -/

section both
variable (O : Operators Obj World) (insns : List Insn) (numLocals : ℕ) (consts : List (Value Obj))

/-- Each load that fusion drops is followed by an operator with the temporary on its right, and
the fused instruction has the same effect, with the operands in the same order. -/
def FusedAlike : Prop :=
  ∀ i, (fusion insns numLocals).keep[i]? = some false → ∃ lc idx dst lhs op,
    insns[i]? = some (Insn.loadConst lc idx) ∧ insns[i+1]? = some (Insn.binOp dst lhs op lc) ∧
    (fusion insns numLocals).insns[i+1]? = some (Insn.binOpConst dst lhs op idx false) ∧
    SameEffect (O.sem consts) numLocals lc idx (.binOp dst lhs op lc)
      (.binOpConst dst lhs op idx false)

/-- Each load that folding drops is followed by a unary operator on its temporary, a load of the
same result stands in its place, and the temporary is that load's own or is dead behind it. -/
def FoldedAlike : Prop :=
  ∀ i, (unaryFold insns numLocals O.truthy consts).keep[i]? = some false → ∃ lc idx dst op nc,
    insns[i]? = some (Insn.loadConst lc idx) ∧ insns[i+1]? = some (Insn.unaryOp dst op lc) ∧
    (unaryFold insns numLocals O.truthy consts).insns[i+1]? = some (Insn.loadConst dst nc) ∧
    SameResult (O.sem consts) (O.sem (unaryFold insns numLocals O.truthy consts).consts) numLocals
      lc idx dst (.unaryOp dst op lc) (.loadConst dst nc) ∧
    (dst = lc ∨ ∀ hs, Reach ⟨insns, []⟩ (i+1) hs → ¬ReadAfter insns lc (i+1) hs)

variable {insns numLocals consts}

theorem fusedAlike : FusedAlike O insns numLocals consts := by
  intro i hi
  obtain ⟨lc, idx, dst, lhs, op, hp, hx⟩ := fusion_sound.1.dropped i hi
  exact ⟨lc, idx, dst, lhs, op, hp.load, hp.use, hx, fused_sameEffect O hp.temp hp.other dst op idx⟩

theorem foldedAlike (hlate : ∀ x ∈ insns, x.isLateStageGuardInsn = false)
    (hdel : DeletesNamed insns numLocals) (hin : InPool insns consts)
    (hobj : ∀ o, Value.object o ∈ consts → O.userDefined o = false) :
    FoldedAlike O insns numLocals consts := by
  intro i hi
  obtain ⟨k, hrun⟩ := @unaryFold_running Obj insns numLocals O.truthy consts
  obtain ⟨lc, idx, dst, op, nc, hf⟩ := hrun.dropped i hi
  obtain ⟨c, v, hc, hv, hnc⟩ := hf.value
  have hidx := hin _ (List.mem_of_getElem? hf.load) idx (by simp [constIdx.eq_def])
  rw [prefix_getElem? hrun.grown hidx] at hc
  refine ⟨lc, idx, dst, op, nc, hf.load, hf.use, hf.result, ?_, hf.dead.imp_right ?_⟩
  · apply folded_sameResult O hf.temp dst hc hv hnc
    rintro o rfl
    exact hobj o (List.mem_of_getElem? hc)
  · intro hdead hs hreach
    have huse : ∀ a b, insns[i+1]? ≠ some (.loadConst a b) := by
      intro a b heq
      cases hf.use.symm.trans heq
    have hplain : ∀ x f, insns[i+1]? = some x → canFlow x f → f = .next ∨ f = .raise := by
      intro x f hx hflow
      obtain rfl := Option.some.inj (hf.use.symm.trans hx)
      cases f with
      | next => exact .inl rfl
      | raise => exact .inr rfl
      | jump | again | halt => cases hflow
    exact blockLocal_dead (Thinned.refl insns) hf.load hf.temp huse hplain hdead hlate hdel hreach

end both

/-- Folding keeps the meaning of every pair. Fusion keeps the effect of every pair, and on no path
behind a fused one is its temporary read before it is overwritten exactly when no hidden edge out
of the code that the coarse guards look at leads to such a read. -/
theorem constant_fusion_sound (O : Operators Obj World) (insns : List Insn) (numLocals : ℕ)
    (consts : List (Value Obj)) (hlate : ∀ x ∈ insns, x.isLateStageGuardInsn = false)
    (hdel : DeletesNamed insns numLocals) (hin : InPool insns consts)
    (hobj : ∀ o, Value.object o ∈ consts → O.userDefined o = false) :
    (DeadBehindUse insns numLocals ↔ NoHiddenUses insns numLocals) ∧
      FusedAlike O insns numLocals consts ∧ FoldedAlike O insns numLocals consts :=
  ⟨deadBehindUse_iff hlate hdel, fusedAlike O, foldedAlike O hlate hdel hin hobj⟩

/-- Operators that add integers and fail otherwise. -/
def adder : Operators Empty Unit where
  rest := ⟨fun _ => .none, .none, fun _ _ locals world =>
    ⟨world, locals, .next, fun _ => none, fun _ => false⟩, fun _ w => w, some⟩
  binary op a b locals world := match op, a, b with
    | .add, .value (.int m), .value (.int n) => Operators.returns (mkInt (m+n)) locals world
    | _, _, _ => ⟨world, locals, .raise, fun _ => none, fun _ => false⟩
  truthy _ := true
  userDefined _ := false
  unaryObject _ _ locals world := ⟨world, locals, .raise, fun _ => none, fun _ => false⟩
  unaryError _ _ locals world := ⟨world, locals, .raise, fun _ => none, fun _ => false⟩

/-- A loop that adds one constant and returns the negation of another. -/
def countUp : List Insn :=
  [.loadConst 1 0, .binOp 0 0 .add 1, .jumpIfTrue 0 (-3), .loadConst 2 1, .unaryOp 3 .neg 2,
    .ret 3]

theorem constant_fusion_sound_count_up :
    (fusion countUp 1).keep = [false, true, true, true, true, true] ∧
      (unaryFold countUp 1 adder.truthy [.int 1, .int 5]).keep =
        [true, true, true, false, true, true] ∧
      (DeadBehindUse countUp 1 ↔ NoHiddenUses countUp 1) ∧
      FusedAlike adder countUp 1 [.int 1, .int 5] ∧ FoldedAlike adder countUp 1 [.int 1, .int 5] :=
  ⟨by decide, by decide, constant_fusion_sound adder countUp 1 [.int 1, .int 5] (by decide)
    (by simp [DeletesNamed, countUp]) (by decide) (fun o => nomatch o)⟩

/-- The temporary of a fused pair is set again behind the operator, and a handler reads it. -/
def handlerReads : List Insn :=
  [.setupExcept 4, .loadConst 5 0, .binOp 6 1 .add 5, .loadConst 5 1, .returnNone, .ret 5]

/-- The load is dropped, and the operator's raise leads to a read of its temporary. -/
theorem constant_fusion_misses_handler :
    (fusion handlerReads 2).keep[1]? = some false ∧
      handlerReads[1]? = some (Insn.loadConst 5 0) ∧ Reach ⟨handlerReads, []⟩ 2 [5] ∧
      ReadAfter handlerReads 5 2 [5] := by
  refine ⟨by decide, rfl, ?_, ?_⟩
  · have h0 : Reach ⟨handlerReads, []⟩ 1 [5] := .step .start rfl (f := .next) rfl rfl
    exact .step h0 rfl (f := .next) rfl rfl
  · exact ⟨_, .raise, 5, [], rfl, rfl, by simp [overwritten], rfl,
      .read rfl (by simp [operandRegs, Insn.collectReads.eq_def])⟩

end Pyrust.UnaryFolding
