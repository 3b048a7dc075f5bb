import Pyrust.Fragment

/-!
# Names and scopes

A frame runs in its own scope and those around it, the module's last. The opcodes
that read and write names by their text go to a scope by what the frame's own
scope declares. The mirrors of a module's bindings, which are its values, its
mapping of globals and the registers of its script, are one table here. What all
other opcodes do is left open, so that they may bind any name in any scope.
-/

set_option autoImplicit false

namespace Pyrust.NameScopes

open Bytecode Machine Fragment

/-- `Environment`, without its values. -/
structure Scope where
  id : ℕ
  localNames : String → Bool
  globalNames : String → Bool
  nonlocalNames : String → Bool

/-- The scope of a frame and its parents, the nearest first. -/
structure Env where
  inner : Scope
  outer : List Scope

/-- `classNamespace` is the namespace of the class whose body the frame runs, once it has
escaped. -/
structure Bindings (Val : Type*) where
  values : ℕ → String → Option Val
  builtins : String → Option Val
  classNamespace : Option (String → Option Val)

/-- The world of a frame: the bindings outside its registers, and everything else. -/
structure Store (Val World : Type*) where
  bindings : Bindings Val
  rest : World

inductive Found (Val : Type*) where
  | value (v : Val)
  | unbound
  | missing

section lookup
variable {Val : Type*}

/-- `module_env`. -/
def Env.moduleEnv (env : Env) : Scope := (env.inner::env.outer).getLast (List.cons_ne_nil _ _)

/-- `find_function_scope_with_local`: a function's scope has a parent. -/
def findFunctionScopeWithLocal (name : String) : List Scope → Option (Scope × List Scope)
  | [] => none
  | scope::parents =>
    if !parents.isEmpty && scope.localNames name then some (scope, parents)
    else findFunctionScopeWithLocal name parents

variable (b : Bindings Val) (env : Env) (name : String)

/-- `lookup_name_in_env_impl`. -/
def lookupNameInEnv : List Scope → Found Val
  | [] => .missing
  | scope::parents => match b.values scope.id name with
    | some v => .value v
    | none => if scope.localNames name then .unbound else lookupNameInEnv parents

/-- `lookup_name_inner`. -/
def lookupNameInner : Found Val :=
  if env.inner.globalNames name then
    match b.values env.moduleEnv.id name with
    | some v => .value v
    | none => .missing
  else if env.inner.nonlocalNames name then
    match findFunctionScopeWithLocal name env.outer with
    | some (scope, parents) => lookupNameInEnv b name (scope::parents)
    | none => .unbound
  else lookupNameInEnv b name (env.inner::env.outer)

/-- `load_global_cached` and `resolve_cell_value`: what no scope binds is a builtin. -/
def resolveName : Option Val :=
  match lookupNameInner b env name with
  | .value v => some v
  | .unbound => none
  | .missing => b.builtins name

/-- `load_class_name`. -/
def loadClassName (slot : Option Val) : Option Val :=
  match b.classNamespace with
  | some namespace_ => (namespace_ name).or (resolveName b env name)
  | none => slot.or (resolveName b env name)

/-- The scope `assign_name` writes to. -/
def Env.assignScope : Scope :=
  if env.inner.globalNames name then env.moduleEnv
  else if env.inner.nonlocalNames name then
    ((findFunctionScopeWithLocal name env.outer).map Prod.fst).getD env.inner
  else env.inner

/-- `assign_name`. -/
def assignName (v : Val) : Bindings Val :=
  let id := (env.assignScope name).id
  { b with values := Function.update b.values id (Function.update (b.values id) name (some v)) }

end lookup

section opcodes
variable {Val World : Type*} (env : Env) (names : List String)

/-- An opcode that gives a value to its destination, or raises. -/
def giveOutcome (found : Option Val) (locals : Regs Val) (w : World) : Outcome Val World :=
  match found with
  | some v => ⟨w, locals, .next, fun _ => some v, fun _ => false⟩
  | none => ⟨w, locals, .raise, fun _ => none, fun _ => false⟩

/-- The operand of an opcode with one, when it is set. -/
def operandValue : List (Operand Val) → Option Val
  | [.value v] => some v
  | _ => none

/-- The opcodes that go by the text of a name, over any behaviour of the others. -/
def withNames (others : Sem Val (Store Val World)) : Sem Val (Store Val World) where
  const := others.const
  none := others.none
  exec i ops locals w := match i with
    | .loadGlobal _ n | .loadCell _ n =>
      giveOutcome (names[n]?.bind fun name => resolveName w.bindings env name) locals w
    | .loadClassName _ _ n =>
      giveOutcome (names[n]?.bind fun name =>
        loadClassName w.bindings env name (operandValue ops)) locals w
    | .checkLocal _ _ =>
      { giveOutcome (operandValue ops) locals w with results := fun _ => none }
    | .storeGlobal n _ | .storeCell n _ => match names[n]?, operandValue ops with
      | some name, some v =>
        ⟨{ w with bindings := assignName w.bindings env name v }, locals, .next, fun _ => none,
          fun _ => false⟩
      | _, _ => ⟨w, locals, .raise, fun _ => none, fun _ => false⟩
    | i => others.exec i ops locals w
  unbound := others.unbound
  caught := others.caught

/-- The bindings a fragment ends in: the named locals and those outside the frame. -/
def boundAt (base : ℕ) : Exit Val (Store Val World) → Option (Regs Val × Bindings Val)
  | .fall _ regs w | .raised regs w => some (view base regs, w.bindings)
  | .lost => none

variable {env names} {others : Sem Val (Store Val World)} {base : ℕ} {regs : Regs Val}
  {w : Store Val World} {dst src : Reg} {n : ℕ} {name : String}

section
variable {ops : List (Operand Val)} {locals : Regs Val}

theorem exec_loadGlobal :
    (withNames env names others).exec (.loadGlobal dst n) ops locals w =
      giveOutcome (names[n]?.bind fun name => resolveName w.bindings env name) locals w := rfl

theorem exec_loadCell :
    (withNames env names others).exec (.loadCell dst n) ops locals w =
      giveOutcome (names[n]?.bind fun name => resolveName w.bindings env name) locals w := rfl

theorem exec_loadClassName :
    (withNames env names others).exec (.loadClassName dst src n) ops locals w =
      giveOutcome (names[n]?.bind fun name =>
        loadClassName w.bindings env name (operandValue ops)) locals w := rfl

theorem exec_checkLocal :
    (withNames env names others).exec (.checkLocal src n) ops locals w =
      { giveOutcome (operandValue ops) locals w with results := fun _ => none } := rfl

theorem exec_storeGlobal :
    (withNames env names others).exec (.storeGlobal n src) ops locals w =
      match names[n]?, operandValue ops with
      | some name, some v =>
        ⟨{ w with bindings := assignName w.bindings env name v }, locals, .next, fun _ => none,
          fun _ => false⟩
      | _, _ => ⟨w, locals, .raise, fun _ => none, fun _ => false⟩ := rfl

end

/-- An opcode that loads a name writes its destination and no binding. -/
theorem step_load {i : Insn} (hi : i = .loadGlobal dst n ∨ i = .loadCell dst n)
    (hn : names[n]? = some name) :
    stepExit (withNames env names others) base i regs w =
      match resolveName w.bindings env name with
      | some v => .fall 0 (Function.update regs dst (some v)) w
      | none => .raised regs w := by
  have hexec : perform (withNames env names others) base i regs w =
      giveOutcome (resolveName w.bindings env name) (view base regs) w := by
    rcases hi with rfl | rfl
    all_goals
      simp only [perform, outcome, Insn.shape.eq_def, exec_loadGlobal, exec_loadCell, hn,
        Option.bind_some]
      cases resolveName w.bindings env name <;> rfl
  rw [stepExit, hexec]
  cases resolveName w.bindings env name with
  | some v => rcases hi with rfl | rfl <;> rfl
  | none => rcases hi with rfl | rfl <;> rfl

theorem step_loadClassName (hn : names[n]? = some name) :
    stepExit (withNames env names others) base (.loadClassName dst src n) regs w =
      match loadClassName w.bindings env name
        (operandValue (operands base (.loadClassName dst src n) regs)) with
      | some v => .fall 0 (Function.update regs dst (some v)) w
      | none => .raised regs w := by
  have hexec : perform (withNames env names others) base (.loadClassName dst src n) regs w =
      giveOutcome (loadClassName w.bindings env name
        (operandValue (operands base (.loadClassName dst src n) regs))) (view base regs) w := by
    simp only [perform, outcome, Insn.shape.eq_def, exec_loadClassName, hn, Option.bind_some]
    cases loadClassName w.bindings env name
      (operandValue (operands base (.loadClassName dst src n) regs)) <;> rfl
  rw [stepExit, hexec]
  cases loadClassName w.bindings env name
    (operandValue (operands base (.loadClassName dst src n) regs)) <;> rfl

theorem step_checkLocal :
    stepExit (withNames env names others) base (.checkLocal src n) regs w =
      match operandValue (operands base (.checkLocal src n) regs) with
      | some _ => .fall 0 regs w
      | none => .raised regs w := by
  have hexec : perform (withNames env names others) base (.checkLocal src n) regs w =
      { giveOutcome (operandValue (operands base (.checkLocal src n) regs)) (view base regs) w with
        results := fun _ => none } := by
    simp only [perform, outcome, Insn.shape.eq_def, exec_checkLocal]
    cases operandValue (operands base (.checkLocal src n) regs) <;> rfl
  rw [stepExit, hexec]
  cases operandValue (operands base (.checkLocal src n) regs) <;> rfl

theorem step_storeGlobal {v : Val} (hn : names[n]? = some name) (hv : regs src = some v) :
    stepExit (withNames env names others) base (.storeGlobal n src) regs w =
      .fall 0 regs { w with bindings := assignName w.bindings env name v } := by
  have hops : operands base (.storeGlobal n src) regs = [.value v] :=
    congrArg (fun x => [x]) (read_set hv)
  have hexec : perform (withNames env names others) base (.storeGlobal n src) regs w =
      ⟨{ w with bindings := assignName w.bindings env name v }, view base regs, .next,
        fun _ => none, fun _ => false⟩ := by
    simp only [perform, outcome, Insn.shape.eq_def, exec_storeGlobal, hn, hops, operandValue]
    rfl
  have hregs : (fun r => if r < base then view base regs r else regs r) = regs := view_self regs
  rw [stepExit, hexec]
  exact congrArg (fun regs => Exit.fall 0 regs _) hregs

/-- A name keeps its binding when it is assigned what it is bound to, and only then. -/
theorem assignName_eq_iff {b : Bindings Val} {v : Val} :
    assignName b env name v = b ↔ b.values (env.assignScope name).id name = some v := by
  constructor
  · intro h
    have hvalues := congrArg (fun b => b.values (env.assignScope name).id name) h
    simp only [assignName, Function.update_self] at hvalues
    exact hvalues.symm
  · intro h
    have hscope : Function.update (b.values (env.assignScope name).id) name (some v) =
        b.values (env.assignScope name).id := by rw [← h, Function.update_eq_self]
    simp only [assignName, hscope, Function.update_eq_self]

end opcodes

end Pyrust.NameScopes
