import Mathlib.Data.List.Basic
import Pyrust.Machine

/-!
# Calls of plain user functions

A function value carries the code object it was made from. A call with exactly
the positional arguments of a plain function enters a frame: each argument goes
to the register of its parameter, then the register of the function's own name,
when it has one, receives the function. Integer arithmetic and the return of the
body are executed here; the rest of a body is the runtime's. Results of memoized
calls are kept in a cache whose entries are results of such calls.
-/

set_option autoImplicit false

namespace Pyrust.LeafCalls

open Bytecode Machine

structure Param where
  name : String
  hasDefault : Bool
  isArgs : Bool
  isKwargs : Bool
  isKeywordOnly : Bool

structure FnCode where
  insns : List Insn
  isGenerator : Bool
  isCoroutine : Bool
  cellVars : List String

/-- A function prototype. The register of a local name is its place in `localIndex`, where the
parameters come first. -/
structure FnProto where
  name : String
  params : List Param
  code : FnCode
  localIndex : List String
  globalNames : List String
  nonlocalNames : List String
  isMemoPure : Bool
  params_first : params.map Param.name <+: localIndex
  nodup : localIndex.Nodup

inductive ParamBind where
  | reg (r : Reg)
  | cell
  | none

def slot (p : FnProto) (name : String) : Option Reg := p.localIndex.idxOf? name

def computeParamBinds (p : FnProto) : List ParamBind :=
  p.params.map fun param =>
    if param.name ∈ p.code.cellVars then .cell
    else match slot p param.name with
      | some r => .reg r
      | none => .none

def computeSelfBind (p : FnProto) : Option Reg :=
  if p.name ∈ p.code.cellVars then none else slot p p.name

inductive UserFunctionKind where
  | regular | staticMethod | classMethod | builtin
  deriving DecidableEq

structure UserFunction where
  id : ℕ
  kind : UserFunctionKind

/-- A value as calls and integer arithmetic see it. -/
inductive Val (Obj : Type) where
  | int (v : ℤ)
  | function (fn : UserFunction)
  | object (o : Obj)

/-- The code objects of a program by address. A copy of a function keeps its id and its code.
`bigToI64` is the value of a big integer that fits 64 bits, `isScalar` says which other values
are booleans or `None`, and `intIntOther` is the integer path of the operators no leaf has. -/
structure Program (Obj : Type) where
  precompiledCode : ℕ → Option ℕ
  protoAt : ℕ → FnProto
  bigToI64 : Obj → Option ℤ
  isScalar : Obj → Bool
  intIntOther : BinaryOp → ℤ → ℤ → Option (Val Obj)

section values
variable {Obj : Type} (P : Program Obj)

def asInt : Val Obj → Option ℤ
  | .int v => some v
  | .function _ => none
  | .object o => P.bigToI64 o

def checkedI64 (n : ℤ) : Option (Val Obj) := if -2^63 ≤ n ∧ n < 2^63 then some (.int n) else none

def intIntFast (a b : ℤ) : BinaryOp → Option (Val Obj)
  | .add => checkedI64 (a+b)
  | .sub => checkedI64 (a-b)
  | .mul => checkedI64 (a*b)
  | op => P.intIntOther op a b

/-- The integer path of `exec_binop`. -/
def intBinop (l r : Operand (Val Obj)) (op : BinaryOp) : Option (Val Obj) :=
  match l, r with
  | .value x, .value y => match asInt P x, asInt P y with
    | some a, some b => intIntFast P a b op
    | _, _ => none
  | _, _ => none

/-- `leaf_op`: the operator of a two-parameter body that only combines its parameters, and
whether it takes them in the other order. -/
def leafOp (p : FnProto) : Option (BinaryOp × Bool) :=
  if p.params.length = 2 ∧ p.params.all (fun q => !q.hasDefault) ∧
      p.params.all (fun q => !q.isArgs) ∧ p.params.all (fun q => !q.isKwargs) ∧
      p.params.all (fun q => !q.isKeywordOnly) ∧ p.code.isGenerator = false ∧
      p.code.isCoroutine = false ∧ p.code.cellVars = [] ∧ p.globalNames = [] ∧
      p.nonlocalNames = [] then
    match p.code.insns with
    | [.binOp d a op b, .ret r] =>
      if d = r ∧ (op = .add ∨ op = .sub ∨ op = .mul) then
        match a, b with
        | 0, 1 => some (op, false)
        | 1, 0 => some (op, true)
        | _, _ => none
      else none
    | _ => none
  else none

/-- What a leaf makes of two integers. -/
def leafValue (op : BinaryOp) (swapped : Bool) (a b : ℤ) : Option (Val Obj) :=
  if swapped then intIntFast P b a op else intIntFast P a b op

/-- No parameter has the function's own name. -/
def OwnNameFree (p : FnProto) : Prop := p.name ∉ p.params.map Param.name

instance (p : FnProto) : Decidable (OwnNameFree p) := inferInstanceAs (Decidable (_ ∉ _))

abbrev MemoKey := ℕ × List ℤ

/-- What the cache may hold under a key: for a leaf on two integers, its value. -/
def Entry (key : MemoKey) (v : Val Obj) : Prop :=
  ∀ addr op swapped a b r, P.precompiledCode key.1 = some addr →
    leafOp (P.protoAt addr) = some (op, swapped) → OwnNameFree (P.protoAt addr) →
    key.2 = [a, b] → leafValue P op swapped a b = some r → v = r

/-- The result cache of `callMemo`, with its call statistics and the keys whose call is running. -/
structure Memo where
  cache : MemoKey → Option (Val Obj)
  size : ℕ
  stats : ℕ → Option (ℕ × ℕ × Bool)
  inFlight : MemoKey → Bool
  sound : ∀ key v, cache key = some v → Entry P key v

structure World (Host : Type) where
  host : Host
  memo : Memo P

/-- What called code leaves: the world, the caller's named locals and its value unless it
raised. -/
structure Reply (Host : Type) where
  world : World P Host
  locals : Regs (Val Obj)
  value : Option (Val Obj)

/-- Everything outside the calls modelled here. `runRest` runs a body from an instruction on. -/
structure Engine (Host : Type) where
  callDepth : Host → ℕ
  maxCallDepth : Host → ℕ
  recursionError : World P Host → World P Host
  runRest : FnProto → List Insn → Regs (Val Obj) → Regs (Val Obj) → World P Host → Reply P Host
  callOther : List (Operand (Val Obj)) → Regs (Val Obj) → World P Host → Reply P Host
  const : ℕ → Val Obj
  none : Val Obj
  exec : Insn → List (Operand (Val Obj)) → Regs (Val Obj) → World P Host →
    Outcome (Val Obj) (World P Host)
  unbound : Operand (Val Obj) → World P Host → World P Host
  caught : World P Host → Option (World P Host)

end values

section calls
variable {Obj Host : Type} {P : Program Obj} (E : Engine P Host)

def runBody (p : FnProto) :
    List Insn → Regs (Val Obj) → Regs (Val Obj) → World P Host → Reply P Host
  | .binOp d a op b::rest, regs, locals, w =>
    match intBinop P (read p.localIndex.length regs a) (read p.localIndex.length regs b) op with
    | some v => runBody p rest (Function.update regs d (some v)) locals w
    | none => E.runRest p (.binOp d a op b::rest) regs locals w
  | .ret r::rest, regs, locals, w =>
    match regs r with
    | some v => ⟨w, locals, some v⟩
    | none => E.runRest p (.ret r::rest) regs locals w
  | insns, regs, locals, w => E.runRest p insns regs locals w

def bindArgs : List ParamBind → List (Val Obj) → Regs (Val Obj) → Regs (Val Obj)
  | .reg r::binds, v::args, regs => bindArgs binds args (Function.update regs r (some v))
  | _::binds, _::args, regs => bindArgs binds args regs
  | _, _, regs => regs

/-- The registers of a fresh frame. The function's own name is bound after the parameters. -/
def frameRegs (fn : UserFunction) (p : FnProto) (args : List (Val Obj)) : Regs (Val Obj) :=
  let regs := bindArgs (computeParamBinds p) args fun _ => none
  match computeSelfBind p with
  | some r => Function.update regs r (some (.function fn))
  | none => regs

def enterFrame (fn : UserFunction) (p : FnProto) (args : List (Val Obj)) (locals : Regs (Val Obj))
    (w : World P Host) : Reply P Host :=
  if E.maxCallDepth w.host ≤ E.callDepth w.host then ⟨E.recursionError w, locals, none⟩
  else runBody E p p.code.insns (frameRegs fn p args) locals w

/-- The prototype a call with `argc` positional arguments enters a frame of. A direct call does
not look at the kind of the function. -/
def plainTarget (P : Program Obj) (fn : UserFunction) (argc : ℕ) : Option FnProto :=
  match P.precompiledCode fn.id with
  | none => none
  | some addr =>
    let p := P.protoAt addr
    if p.params.length = argc ∧
        p.params.all (fun q => !q.isArgs && !q.isKwargs && !q.isKeywordOnly) ∧
        p.code.isGenerator = false ∧ p.code.isCoroutine = false ∧ p.code.cellVars = [] ∧
        p.globalNames = [] ∧ p.nonlocalNames = [] then some p
    else none

def values : List (Operand (Val Obj)) → Option (List (Val Obj))
  | [] => some []
  | .value v::ops => (values ops).map (v::·)
  | _ => none

def execCall (ops : List (Operand (Val Obj))) (locals : Regs (Val Obj)) (w : World P Host) :
    Reply P Host :=
  match ops with
  | .value (.function fn)::rest => match plainTarget P fn rest.length, values rest with
    | some p, some args => enterFrame E fn p args locals w
    | _, _ => E.callOther ops locals w
  | ops => E.callOther ops locals w

/-- `try_inline_leaf_binop`. -/
def tryInlineLeafBinop (P : Program Obj) (fnProtos : List ℕ) (callee a b : Operand (Val Obj))
    (op : BinaryOp) (proto : ℕ) : Option (Val Obj) :=
  match callee with
  | .value (.function fn) =>
    if fn.kind = .regular then
      match fnProtos[proto]?, P.precompiledCode fn.id with
      | some expected, some actual => if actual = expected then intBinop P a b op else none
      | _, _ => none
    else none
  | _ => none

end calls

section leaf
variable {Obj Host : Type} {P : Program Obj} {p : FnProto} {op : BinaryOp} {swapped : Bool}

attribute [local simp] leafOp in
/-- What `leafOp` has checked. -/
theorem leafOp_spec (h : leafOp p = some (op, swapped)) :
    ∃ q q' d a b, p.params = [q, q'] ∧ p.code.insns = [.binOp d a op b, .ret d] ∧
      (a, b) = (if swapped then (1, 0) else (0, 1)) ∧
      p.params.all (fun q => !q.isArgs && !q.isKwargs && !q.isKeywordOnly) ∧
      p.code.isGenerator = false ∧ p.code.isCoroutine = false ∧ p.code.cellVars = [] ∧
      p.globalNames = [] ∧ p.nonlocalNames = [] := by
  rw [leafOp] at h
  split at h
  case isFalse => cases h
  case isTrue hp =>
    obtain ⟨hlen, -, hargs, hkw, hko, hrest⟩ := hp
    obtain ⟨q, q', hq⟩ := List.length_eq_two.mp hlen
    split at h
    case h_2 => cases h
    case h_1 d a op' b r hins =>
      split at h
      case isFalse => cases h
      case isTrue hd =>
        obtain ⟨rfl, -⟩ := hd
        refine ⟨q, q', d, a, b, hq, ?_⟩
        split at h
        case h_3 => cases h
        all_goals
          cases h
          refine ⟨hins, rfl, ?_, hrest⟩
          simp_all

theorem plainTarget_leaf {fn : UserFunction} {addr : ℕ}
    (ha : P.precompiledCode fn.id = some addr)
    (h : leafOp (P.protoAt addr) = some (op, swapped)) :
    plainTarget P fn 2 = some (P.protoAt addr) := by
  obtain ⟨q, q', d, a, b, hq, -, -, hall, hrest⟩ := leafOp_spec h
  simp only [plainTarget, ha, hrest, hq, List.length_cons, List.length_nil]
  simp [← hq, hall]

/-- The parameters of a plain prototype without cells are bound to their own places. -/
theorem computeParamBinds_pair {q q' : Param} (hq : p.params = [q, q'])
    (hc : p.code.cellVars = []) : computeParamBinds p = [.reg 0, .reg 1] := by
  have hfirst := p.params_first
  obtain ⟨rest, hrest⟩ := hfirst
  have hnd := p.nodup
  rw [hq] at hrest
  rw [← hrest] at hnd
  have hne : q.name ≠ q'.name := by
    simp only [List.map_cons, List.map_nil, List.cons_append, List.nodup_cons] at hnd
    intro heq
    exact hnd.1 (by simp [heq])
  simp [computeParamBinds, hq, hc, slot, ← hrest, List.idxOf?_cons, hne]

theorem computeSelfBind_pair {q q' : Param} (hq : p.params = [q, q']) (hfree : OwnNameFree p)
    {r : Reg} (hr : computeSelfBind p = some r) : r ≠ 0 ∧ r ≠ 1 := by
  obtain ⟨rest, hrest⟩ := p.params_first
  rw [computeSelfBind] at hr
  split at hr
  · cases hr
  rw [OwnNameFree, hq] at hfree
  rw [hq] at hrest
  simp only [List.map_cons, List.map_nil, List.mem_cons, List.not_mem_nil, or_false,
    not_or] at hfree
  have h0 : ¬ q.name = p.name := fun h => hfree.1 h.symm
  have h1 : ¬ q'.name = p.name := fun h => hfree.2 h.symm
  rw [slot, ← hrest] at hr
  simp only [List.map_cons, List.map_nil, List.cons_append, List.nil_append, List.idxOf?_cons,
    beq_iff_eq, h0, h1, if_false, Option.map_map, Option.map_eq_some_iff] at hr
  obtain ⟨k, -, rfl⟩ := hr
  simp

attribute [local simp] bindArgs in
/-- The frame of a leaf holds the arguments in its first two registers. -/
theorem frameRegs_leaf {q q' : Param} (hq : p.params = [q, q']) (hc : p.code.cellVars = [])
    (hfree : OwnNameFree p) (fn : UserFunction) (x y : Val Obj) :
    frameRegs fn p [x, y] 0 = some x ∧ frameRegs fn p [x, y] 1 = some y := by
  have hb := computeParamBinds_pair hq hc
  rw [frameRegs, hb]
  cases hs : computeSelfBind p with
  | none => simp [bindArgs]
  | some r =>
    obtain ⟨h0, h1⟩ := computeSelfBind_pair hq hfree hs
    simp [bindArgs, Function.update_of_ne h0.symm, Function.update_of_ne h1.symm]

/-- A first parameter with the function's own name is lost: its register holds the function
when the body starts. -/
theorem frameRegs_own_name {q q' : Param} (hq : p.params = [q, q']) (hc : p.code.cellVars = [])
    (hname : p.name = q.name) (fn : UserFunction) (x y : Val Obj) :
    frameRegs fn p [x, y] 0 = some (.function fn) := by
  obtain ⟨rest, hrest⟩ := p.params_first
  have hs : computeSelfBind p = some 0 := by
    rw [hq] at hrest
    simp [computeSelfBind, hc, slot, ← hrest, hname, List.idxOf?_cons]
  simp [frameRegs, hs]

attribute [local simp] runBody in
/-- A leaf called on two integers whose operation does not overflow returns its value and
leaves everything else as it is. -/
theorem enterFrame_leaf (E : Engine P Host) (fn : UserFunction) {x y r : Val Obj} {a b : ℤ}
    (h : leafOp p = some (op, swapped)) (hfree : OwnNameFree p) (hx : asInt P x = some a)
    (hy : asInt P y = some b) (hr : leafValue P op swapped a b = some r) (locals : Regs (Val Obj))
    (w : World P Host) (hd : E.callDepth w.host < E.maxCallDepth w.host) :
    enterFrame E fn p [x, y] locals w = ⟨w, locals, some r⟩ := by
  obtain ⟨q, q', d, c, c', hq, hins, hab, -, -, -, hc, -⟩ := leafOp_spec h
  obtain ⟨h0, h1⟩ := frameRegs_leaf hq hc hfree fn x y
  rw [enterFrame, if_neg (by omega), hins]
  cases swapped <;>
    · simp only [leafValue, if_true, Bool.false_eq_true, if_false, Prod.mk.injEq] at hr hab
      obtain ⟨rfl, rfl⟩ := hab
      simp [runBody, Machine.read, h0, h1, intBinop, hx, hy, hr]

/-- The value of any call of a leaf on two integers, when it returns one. -/
theorem execCall_leaf (E : Engine P Host) {fn : UserFunction} {addr : ℕ} {x y r : Val Obj}
    {a b : ℤ} (ha : P.precompiledCode fn.id = some addr)
    (h : leafOp (P.protoAt addr) = some (op, swapped)) (hfree : OwnNameFree (P.protoAt addr))
    (hx : asInt P x = some a) (hy : asInt P y = some b)
    (hr : leafValue P op swapped a b = some r) (locals : Regs (Val Obj)) (w : World P Host)
    (hd : E.callDepth w.host < E.maxCallDepth w.host) :
    execCall E [.value (.function fn), .value x, .value y] locals w = ⟨w, locals, some r⟩ := by
  simp only [execCall, List.length_cons, List.length_nil, plainTarget_leaf ha h, values,
    Option.map_some]
  exact enterFrame_leaf E fn h hfree hx hy hr locals w hd

/-- Whatever a call of a leaf on two integers returns is its value. -/
theorem execCall_entry (E : Engine P Host) {fn : UserFunction} {args : List (Val Obj)}
    {ints : List ℤ} (hargs : args.mapM (asInt P) = some ints) {locals : Regs (Val Obj)}
    {w : World P Host} {v : Val Obj}
    (hv : (execCall E (.value (.function fn)::args.map .value) locals w).value = some v) :
    Entry P (fn.id, ints) v := by
  intro addr op swapped a b r ha h hfree hints hr
  simp only at ha hints
  subst hints
  obtain ⟨x, y, rfl, hx, hy⟩ : ∃ x y, args = [x, y] ∧ asInt P x = some a ∧ asInt P y = some b := by
    match args with
    | [] => simp at hargs
    | [x] => cases hx : asInt P x <;> simp [hx] at hargs
    | [x, y] => cases hx : asInt P x <;> cases hy : asInt P y <;> simp_all
    | x::y::z::rest =>
      cases hx : asInt P x <;> cases hy : asInt P y <;> cases hz : asInt P z <;>
        cases hrest : rest.mapM (asInt P) <;> simp_all
  by_cases hd : E.callDepth w.host < E.maxCallDepth w.host
  · rw [List.map_cons, List.map_cons, List.map_nil,
      execCall_leaf E ha h hfree hx hy hr locals w hd] at hv
    exact (Option.some.inj hv).symm
  · simp [execCall, plainTarget_leaf ha h, values, enterFrame, Nat.le_of_not_lt hd] at hv

end leaf

section memo
variable {Obj Host : Type} {P : Program Obj}

inductive MemoCallProbe (Obj : Type) where
  | hit (v : Val Obj)
  | miss (key : MemoKey)
  | bypass

/-- `probe_memoized_call` on argument values. -/
def probeMemoizedCall (m : Memo P) (fn : UserFunction) (args : List (Val Obj)) :
    MemoCallProbe Obj :=
  match P.precompiledCode fn.id with
  | none => .bypass
  | some addr =>
    let p := P.protoAt addr
    if p.isMemoPure ∧ args.length =
          p.params.countP (fun q => !q.isArgs && !q.isKwargs && !q.isKeywordOnly) ∧
        (m.stats fn.id).all (fun s => s.2.2) then
      match args.mapM (asInt P) with
      | some ints => match m.cache (fn.id, ints) with
        | some v => .hit v
        | none => .miss (fn.id, ints)
      | none => .bypass
    else .bypass

namespace Memo

def statsOf (m : Memo P) (id : ℕ) : ℕ × ℕ × Bool := (m.stats id).getD (0, 0, true)

def countHit (m : Memo P) (id : ℕ) : Memo P :=
  let s := m.statsOf id
  { m with stats := Function.update m.stats id (some (s.1+1, s.2.1+1, s.2.2)) }

/-- `claim_memoized_call` of a key that no running call owns. -/
def claim (m : Memo P) (key : MemoKey) : Memo P :=
  { m with inFlight := Function.update m.inFlight key true }

/-- `cancel_memoized_call`. -/
def cancel (m : Memo P) (key : MemoKey) : Memo P :=
  { m with inFlight := Function.update m.inFlight key false }

def cacheable (P : Program Obj) : Val Obj → Bool
  | .int _ => true
  | .function _ => false
  | .object o => P.isScalar o

/-- `finish_memoized_call`. The result that is stored is one that the key may hold. -/
def finish (m : Memo P) (key : MemoKey) (v : Val Obj) (hv : Entry P key v) : Memo P :=
  let s := m.statsOf key.1
  let total := s.1+1
  let enabled := s.2.2 && !(128 ≤ total && s.2.1*4 < total)
  let m : Memo P := { m.cancel key with
    stats := Function.update m.stats key.1 (some (total, s.2.1, enabled)) }
  if enabled ∧ m.size < 2^16 ∧ cacheable P v then
    { m with
      cache := Function.update m.cache key (some v)
      size := if (m.cache key).isSome then m.size else m.size+1
      sound := by
        intro k w hw
        by_cases hk : k = key
        · subst hk
          rw [Function.update_self] at hw
          exact Option.some.inj hw ▸ hv
        · rw [Function.update_of_ne hk] at hw
          exact m.sound k w hw }
  else m

end Memo

/-- The call behind a probed miss, whose result is published by the call that owns the key. -/
def callMiss (E : Engine P Host) (fn : UserFunction) (args : List (Val Obj)) (ints : List ℤ)
    (hargs : args.mapM (asInt P) = some ints) (locals : Regs (Val Obj)) (w : World P Host) :
    Reply P Host :=
  let ops := .value (.function fn)::args.map Operand.value
  if w.memo.inFlight (fn.id, ints) then execCall E ops locals w
  else
    let r := execCall E ops locals { w with memo := w.memo.claim (fn.id, ints) }
    match hv : r.value with
    | some v =>
      let memo := r.world.memo.finish (fn.id, ints) v (execCall_entry E hargs hv)
      ⟨{ r.world with memo := memo }, r.locals, some v⟩
    | none => ⟨{ r.world with memo := r.world.memo.cancel (fn.id, ints) }, r.locals, none⟩

def execCallMemo (E : Engine P Host) (ops : List (Operand (Val Obj))) (locals : Regs (Val Obj))
    (w : World P Host) : Reply P Host :=
  match ops with
  | .value (.function fn)::rest => match values rest with
    | none => execCall E ops locals w
    | some args => match probeMemoizedCall w.memo fn args with
      | .hit v => ⟨{ w with memo := w.memo.countHit fn.id }, locals, some v⟩
      | .miss _ => match hargs : args.mapM (asInt P) with
        | some ints => callMiss E fn args ints hargs locals w
        | none => execCall E ops locals w
      | .bypass => execCall E ops locals w
  | ops => execCall E ops locals w

/-- A memoized call of a leaf on two integers returns its value as well, from the cache or
not, and changes at most the cache. -/
theorem execCallMemo_leaf (E : Engine P Host) {fn : UserFunction} {addr : ℕ} {op : BinaryOp}
    {swapped : Bool} {x y r : Val Obj} {a b : ℤ} (ha : P.precompiledCode fn.id = some addr)
    (h : leafOp (P.protoAt addr) = some (op, swapped)) (hfree : OwnNameFree (P.protoAt addr))
    (hx : asInt P x = some a) (hy : asInt P y = some b)
    (hr : leafValue P op swapped a b = some r) (locals : Regs (Val Obj)) (w : World P Host)
    (hd : E.callDepth w.host < E.maxCallDepth w.host) :
    ∃ memo, execCallMemo E [.value (.function fn), .value x, .value y] locals w =
      ⟨{ w with memo := memo }, locals, some r⟩ := by
  have hcall := execCall_leaf E ha h hfree hx hy hr locals
  have hints : [x, y].mapM (asInt P) = some [a, b] := by simp [hx, hy]
  rw [execCallMemo]
  simp only [values, Option.map_some]
  cases hp : probeMemoizedCall w.memo fn [x, y] with
  | hit v =>
    have hv : w.memo.cache (fn.id, [a, b]) = some v := by
      simp only [probeMemoizedCall, ha, hints] at hp
      split at hp
      · split at hp <;> simp_all
      · cases hp
    have hvr : v = r := w.memo.sound _ v hv addr op swapped a b r ha h hfree rfl hr
    exact ⟨_, by rw [hvr]⟩
  | bypass => exact ⟨w.memo, hcall w hd⟩
  | miss key =>
    dsimp only
    split
    case h_2 hnone => simp [hints] at hnone
    case h_1 ints hsome =>
      obtain rfl : [a, b] = ints := Option.some.inj (hints.symm.trans hsome)
      rw [callMiss]
      by_cases hfl : w.memo.inFlight (fn.id, [a, b])
      · rw [if_pos hfl]
        exact ⟨w.memo, hcall w hd⟩
      · rw [if_neg hfl]
        have hc := hcall { w with memo := w.memo.claim (fn.id, [a, b]) } hd
        dsimp only
        split
        case h_2 hnone =>
          simp only [List.map_cons, List.map_nil, hc] at hnone
          cases hnone
        case h_1 v hv =>
          have hvr : v = r := by
            simp only [List.map_cons, List.map_nil, hc] at hv
            exact (Option.some.inj hv).symm
          subst hvr
          simp only [List.map_cons, List.map_nil, hc]
          exact ⟨_, rfl⟩

/-- The runtime with these calls, in a code object with the given prototypes. -/
def Engine.sem (E : Engine P Host) (fnProtos : List ℕ) : Sem (Val Obj) (World P Host) where
  const := E.const
  none := E.none
  exec
    | .call _ _, ops, locals, w =>
      let r := execCall E ops locals w
      ⟨r.world, r.locals, if r.value.isSome then .next else .raise, fun _ => r.value,
        fun _ => false⟩
    | .callMemo _ _, ops, locals, w =>
      let r := execCallMemo E ops locals w
      ⟨r.world, r.locals, if r.value.isSome then .next else .raise, fun _ => r.value,
        fun _ => false⟩
    | .callInlineBinOp _ _ _ op _ proto _, ops, locals, w =>
      match ops with
      | [callee, a, b] =>
        if E.callDepth w.host < E.maxCallDepth w.host then
          match tryInlineLeafBinop P fnProtos callee a b op proto with
          | some v => ⟨w, locals, .jump, fun _ => some v, fun _ => false⟩
          | .none => ⟨w, locals, .next, fun _ => .none, fun _ => false⟩
        else ⟨w, locals, .next, fun _ => .none, fun _ => false⟩
      | _ => ⟨w, locals, .next, fun _ => .none, fun _ => false⟩
    | i, ops, locals, w => E.exec i ops locals w
  unbound := E.unbound
  caught := E.caught

end memo

end Pyrust.LeafCalls
