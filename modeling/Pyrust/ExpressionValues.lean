import Pyrust.Expressions

/-!
# What expressions mean

Operands are evaluated from left to right, and the value of an operand is taken
when it is evaluated. Everything the interpreter does to values is an operation
on a world, which keeps a record of the operations that were performed on it.
Beside the meaning stands the machine: the same operations on registers, with
private lists for the arguments of long calls.
-/

set_option autoImplicit false

namespace Pyrust.ExpressionValues

open Bytecode Machine CompilerCore Expressions Fragment

inductive Operation (Val : Type) where
  | unary (op : UnaryOp) (v : Val)
  | binary (op : BinaryOp) (a b : Val)
  | getAttr (obj : Val) (name : String)
  | getItem (obj idx : Val)
  | getSlice (obj lower upper step : Val)
  | callMethod (obj : Val) (name : String) (args : List Val)
  deriving DecidableEq

/-- The operations of the interpreter. One that raises gives no value. -/
structure Prims (Lit Val World : Type) where
  literal : Lit → Val
  none : Val
  apply : Operation Val → World → Option Val × World
  truth : Val → World → Option Bool × World
  log : World → List (Operation Val)
  log_apply : ∀ op w, log w ++ [op] <+: log (apply op w).2
  log_truth : ∀ v w, log w <+: log (truth v w).2

/-- The named locals by their registers. -/
abbrev Env (Val : Type) := Reg → Option Val

/-- `outside` is the read of a name that is no local or has no value, of which nothing is
said here. -/
inductive Result (Val World α : Type) where
  | value (a : α) (env : Env Val) (world : World)
  | raised (env : Env Val) (world : World)
  | outside

section meaning
variable {Lit Val World : Type} {α β : Type}

/-- The record only grows and no local loses its value. -/
def Result.Past (P : Prims Lit Val World) (ρ : Env Val) (past : List (Operation Val)) :
    Result Val World α → Prop
  | .value _ ρ' w | .raised ρ' w => (∀ r, ρ r ≠ none → ρ' r ≠ none) ∧ past <+: P.log w
  | .outside => True

/-- A computation over the locals and the world. What is on record stays on record. -/
structure Comp (P : Prims Lit Val World) (α : Type) where
  run : Env Val → World → Result Val World α
  grows : ∀ ρ w, (run ρ w).Past P ρ (P.log w)

variable {P : Prims Lit Val World}

theorem Result.Past.trans {ρ ρ' : Env Val} {past past' : List (Operation Val)}
    {x : Result Val World α} (h : x.Past P ρ' past') (hρ : ∀ r, ρ r ≠ none → ρ' r ≠ none)
    (hp : past <+: past') : x.Past P ρ past := by
  cases x with
  | value a ρ'' w => exact ⟨fun r hr => h.1 r (hρ r hr), hp.trans h.2⟩
  | raised ρ'' w => exact ⟨fun r hr => h.1 r (hρ r hr), hp.trans h.2⟩
  | outside => trivial

namespace Comp

protected def pure (a : α) : Comp P α := ⟨.value a, fun _ _ => ⟨fun _ h => h, List.prefix_rfl⟩⟩

protected def bind (x : Comp P α) (f : α → Comp P β) : Comp P β where
  run ρ w := match x.run ρ w with
    | .value a ρ w => (f a).run ρ w
    | .raised ρ w => .raised ρ w
    | .outside => .outside
  grows ρ w := by
    have hx := x.grows ρ w
    cases h : x.run ρ w with
    | value a ρ' w' =>
      rw [h] at hx
      exact ((f a).grows ρ' w').trans hx.1 hx.2
    | raised ρ' w' =>
      rw [h] at hx
      exact hx
    | outside => trivial

instance : Monad (Comp P) where
  pure := Comp.pure
  bind := Comp.bind

def apply (op : Operation Val) : Comp P Val where
  run ρ w := match P.apply op w with
    | (some v, w) => .value v ρ w
    | (none, w) => .raised ρ w
  grows ρ w := by
    have h := P.log_apply op w
    split <;> simp_all only <;> exact ⟨fun _ h => h, (List.prefix_append _ _).trans h⟩

def truth (v : Val) : Comp P Bool where
  run ρ w := match P.truth v w with
    | (some b, w) => .value b ρ w
    | (none, w) => .raised ρ w
  grows ρ w := by
    have h := P.log_truth v w
    split <;> simp_all only <;> exact ⟨fun _ h => h, h⟩

def readLocal (reg : Option Reg) : Comp P Val where
  run ρ w := match reg.bind ρ with
    | some v => .value v ρ w
    | none => .outside
  grows ρ w := by
    cases reg.bind ρ with
    | some v => exact ⟨fun _ h => h, List.prefix_rfl⟩
    | none => trivial

def assign (reg : Option Reg) (v : Val) : Comp P Unit where
  run ρ w := match reg with
    | some r => .value () (Function.update ρ r (some v)) w
    | none => .outside
  grows ρ w := by
    cases reg with
    | some r =>
      refine ⟨fun r' h => ?_, List.prefix_rfl⟩
      by_cases hr : r' = r <;> simp [hr, h]
    | none => trivial

end Comp

section eval
variable (P) (regOf : String → Option Reg)

mutual

def eval : Expr Lit → Comp P Val
  | .none => pure P.none
  | .lit v => pure (P.literal v)
  | .var name => Comp.readLocal (regOf name)
  | .unary op e => do
    let v ← eval e
    Comp.apply (.unary op v)
  | .binary left op right =>
    if op = .and ∨ op = .or then do
      let a ← eval left
      let t ← Comp.truth a
      if t = decide (op = .or) then pure a else eval right
    else do
      let a ← eval left
      let b ← eval right
      Comp.apply (.binary op a b)
  | .compare left ops => do
    let a ← eval left
    evalChain ops a
  | .attr target name => do
    let obj ← eval target
    Comp.apply (.getAttr obj name)
  | .index target idx => do
    let obj ← eval target
    let i ← eval idx
    Comp.apply (.getItem obj i)
  | .slice target lower upper step => do
    let obj ← eval target
    let lo ← evalBound lower
    let hi ← evalBound upper
    let st ← evalBound step
    Comp.apply (.getSlice obj lo hi st)
  | .methodCall target name args => do
    let obj ← eval target
    let vs ← evalArgs args
    Comp.apply (.callMethod obj name vs)
  | .ternary cond thenE elseE => do
    let v ← eval cond
    let t ← Comp.truth v
    if t then eval thenE else eval elseE
  | .named target value => do
    let v ← eval value
    Comp.assign (regOf target) v
    pure v

/-- The comparisons from a left value on. Each operand is evaluated once. -/
def evalChain : Comparisons Lit → Val → Comp P Val
  | .last op right, a => do
    let b ← eval right
    Comp.apply (.binary op.toBinary a b)
  | .more op right rest, a => do
    let b ← eval right
    let r ← Comp.apply (.binary op.toBinary a b)
    let t ← Comp.truth r
    if t then evalChain rest b else pure r

def evalBound : Bound Lit → Comp P Val
  | .absent => pure P.none
  | .present e => eval e

def evalArgs : Args Lit → Comp P (List Val)
  | .nil => pure []
  | .cons arg rest => do
    let v ← eval arg
    let vs ← evalArgs rest
    pure (v::vs)

end

end eval

/-- What a local operand is compiled to: its own register. An assignment expression is
compiled to what its value is. -/
def bareLocal (regOf : String → Option Reg) : Expr Lit → Option Reg
  | .var name => regOf name
  | .named _ value => bareLocal regOf value
  | _ => none

/-- The local that stands for an operand still holds the operand's value. -/
def Stays (reg : Option Reg) (v : Val) (ρ : Env Val) : Prop := ∀ r, reg = some r → ρ r = some v

/-- A condition on where a computation leads, when it gives a value. -/
def Comp.Then (x : Comp P α) (k : α → Env Val → World → Prop) (ρ : Env Val) (w : World) : Prop :=
  match x.run ρ w with
  | .value a ρ w => k a ρ w
  | _ => True

section kept
variable (P) (regOf : String → Option Reg)

mutual

/-- Along the evaluation of the expression no local changes between its evaluation as an
operand and the operation on that operand. -/
def Kept : Expr Lit → Env Val → World → Prop
  | .none, _, _ => True
  | .lit _, _, _ => True
  | .var _, _, _ => True
  | .unary _ e, ρ, w => Kept e ρ w
  | .binary left op right, ρ, w => Kept left ρ w ∧ (eval P regOf left).Then (fun a ρ w =>
      if op = .and ∨ op = .or then
        (Comp.truth (P := P) a).Then (fun t ρ w =>
          if t = decide (op = .or) then True else Kept right ρ w) ρ w
      else Kept right ρ w ∧ (eval P regOf right).Then (fun _ ρ _ =>
        Stays (bareLocal regOf left) a ρ) ρ w) ρ w
  | .compare left ops, ρ, w => Kept left ρ w ∧ (eval P regOf left).Then (fun a ρ w =>
      KeptChain ops (bareLocal regOf left) a ρ w) ρ w
  | .attr target _, ρ, w => Kept target ρ w
  | .index target idx, ρ, w => Kept target ρ w ∧ (eval P regOf target).Then (fun obj ρ w =>
      Kept idx ρ w ∧ (eval P regOf idx).Then (fun _ ρ _ =>
        Stays (bareLocal regOf target) obj ρ) ρ w) ρ w
  | .slice target lower upper step, ρ, w => Kept target ρ w ∧
      (eval P regOf target).Then (fun obj ρ w => KeptBound lower ρ w ∧
        (evalBound P regOf lower).Then (fun _ ρ w => KeptBound upper ρ w ∧
          (evalBound P regOf upper).Then (fun _ ρ w => KeptBound step ρ w ∧
            (evalBound P regOf step).Then (fun _ ρ _ =>
              Stays (bareLocal regOf target) obj ρ) ρ w) ρ w) ρ w) ρ w
  | .methodCall target _ args, ρ, w => Kept target ρ w ∧
      (eval P regOf target).Then (fun obj ρ w => KeptArgs args ρ w ∧
        (evalArgs P regOf args).Then (fun _ ρ _ =>
          -- a long call takes a copy of its receiver, and so does every receiver but a name
          args.length ≤ 255 → Stays (localReceiver regOf target) obj ρ) ρ w) ρ w
  | .ternary cond thenE elseE, ρ, w => Kept cond ρ w ∧ (eval P regOf cond).Then (fun v ρ w =>
      (Comp.truth (P := P) v).Then (fun t ρ w =>
        if t then Kept thenE ρ w else Kept elseE ρ w) ρ w) ρ w
  | .named _ value, ρ, w => Kept value ρ w

def KeptChain : Comparisons Lit → Option Reg → Val → Env Val → World → Prop
  | .last _ right, prev, a, ρ, w => Kept right ρ w ∧
      (eval P regOf right).Then (fun _ ρ _ => Stays prev a ρ) ρ w
  | .more op right rest, prev, a, ρ, w => Kept right ρ w ∧
      (eval P regOf right).Then (fun b ρ w => Stays prev a ρ ∧
        (Comp.apply (P := P) (.binary op.toBinary a b)).Then (fun r ρ w =>
          (Comp.truth (P := P) r).Then (fun t ρ w =>
            if t then KeptChain rest (bareLocal regOf right) b ρ w else True) ρ w) ρ w) ρ w

def KeptBound : Bound Lit → Env Val → World → Prop
  | .absent, _, _ => True
  | .present e, ρ, w => Kept e ρ w

def KeptArgs : Args Lit → Env Val → World → Prop
  | .nil, _, _ => True
  | .cons arg rest, ρ, w => Kept arg ρ w ∧ (eval P regOf arg).Then (fun _ ρ w =>
      KeptArgs rest ρ w) ρ w

end

end kept

end meaning

/-- What a register holds: a value, or the private list or mapping of a long call. -/
inductive Slot (Val : Type) where
  | obj (v : Val)
  | posList (id : ℕ)
  | kwDict
  deriving DecidableEq

/-- The world of the machine, with the private lists built so far. -/
structure Store (Val World : Type) where
  world : World
  lists : List (List Val)

/-- What an opcode comes to: a value for its destination, nothing, a jump, or a raise. -/
inductive Act (Val World : Type) where
  | give (v : Slot Val) (st : Store Val World)
  | go (st : Store Val World)
  | jump (st : Store Val World)
  | fail (st : Store Val World)

section machine
variable {Lit Val World : Type}

def objects : List (Operand (Slot Val)) → Option (List Val)
  | [] => some []
  | .value (.obj v)::rest => (objects rest).map (v::·)
  | _ => none

variable (P : Prims Lit Val World)

def Act.apply (op : Operation Val) (st : Store Val World) : Act Val World :=
  match P.apply op st.world with
  | (some v, w) => .give (.obj v) { st with world := w }
  | (none, w) => .fail { st with world := w }

/-- A conditional jump, taken when the truth of the operand is `on`. -/
def Act.branch (on : Bool) (v : Val) (st : Store Val World) : Act Val World :=
  match P.truth v st.world with
  | (some t, w) => if t = on then .jump { st with world := w } else .go { st with world := w }
  | (none, w) => .fail { st with world := w }

variable (names : List String)

/-- The opcodes that expressions are compiled to. Any other fails, and so does an operand
that is unset or not of its kind. -/
def act : Insn → List (Operand (Slot Val)) → Store Val World → Act Val World
  | .unaryOp _ op _, [.value (.obj v)], st => .apply P (.unary op v) st
  | .binOp _ _ op _, [.value (.obj a), .value (.obj b)], st => .apply P (.binary op a b) st
  | .getAttr _ _ n, [.value (.obj o)], st => match names[n]? with
    | some name => .apply P (.getAttr o name) st
    | none => .fail st
  | .getItem _ _ _, [.value (.obj o), .value (.obj i)], st => .apply P (.getItem o i) st
  | .getSlice _ _ _, [.value (.obj o), .value (.obj lo), .value (.obj hi), .value (.obj step)],
    st => .apply P (.getSlice o lo hi step) st
  | .callMethod _ _ n _ _, .value (.obj o)::args, st => match names[n]?, objects args with
    | some name, some vs => .apply P (.callMethod o name vs) st
    | _, _ => .fail st
  | .callMethodExpanded _ _ n _ _, [.value (.obj o), .value (.posList id), .value .kwDict], st =>
    match names[n]?, st.lists[id]? with
    | some name, some vs => .apply P (.callMethod o name vs) st
    | _, _ => .fail st
  | .buildList _ _ 0, [], st =>
    .give (.posList st.lists.length) { st with lists := st.lists ++ [[]] }
  | .buildDict _ _ 0 _, [], st => .give .kwDict st
  | .listAppend _ _, [.value (.posList id), .value (.obj v)], st =>
    .go { st with lists := st.lists.modify id (· ++ [v]) }
  | .checkLocal _ _, [.value _], st => .go st
  | .jumpIfTrue _ _, [.value (.obj v)], st => .branch P true v st
  | .jumpIfFalse _ _, [.value (.obj v)], st => .branch P false v st
  | _, _, st => .fail st

section names
variable {P names} {n : ℕ} {name : String} {o : Val} {st : Store Val World}
  {dst obj argsStart argc : Reg}

theorem act_getAttr (h : names[n]? = some name) :
    act P names (.getAttr dst obj n) [.value (.obj o)] st = .apply P (.getAttr o name) st := by
  simp only [act.eq_def, h]

theorem act_callMethod {args : List (Operand (Slot Val))} {vs : List Val}
    (h : names[n]? = some name) (hargs : objects args = some vs) :
    act P names (.callMethod dst obj n argsStart argc) (.value (.obj o)::args) st =
      .apply P (.callMethod o name vs) st := by
  simp only [act.eq_def, h, hargs]

theorem act_callMethodExpanded {id : ℕ} {vs : List Val} {pos kw : Reg} (h : names[n]? = some name)
    (hlist : st.lists[id]? = some vs) :
    act P names (.callMethodExpanded dst obj n pos kw)
      [.value (.obj o), .value (.posList id), .value .kwDict] st =
        .apply P (.callMethod o name vs) st := by
  simp only [act.eq_def, h, hlist]

end names

def Act.outcome (locals : Regs (Slot Val)) : Act Val World → Outcome (Slot Val) (Store Val World)
  | .give v st => ⟨st, locals, .next, fun _ => some v, fun _ => false⟩
  | .go st => ⟨st, locals, .next, fun _ => none, fun _ => false⟩
  | .jump st => ⟨st, locals, .jump, fun _ => none, fun _ => false⟩
  | .fail st => ⟨st, locals, .raise, fun _ => none, fun _ => false⟩

/-- The opcodes over these operations. No called code reaches the locals of the frame. -/
def sem (consts : List Lit) : Sem (Slot Val) (Store Val World) where
  const i := .obj ((consts[i]?.map P.literal).getD P.none)
  none := .obj P.none
  exec i ops locals st := (act P names i ops st).outcome locals
  unbound _ st := st
  caught := some

end machine

end Pyrust.ExpressionValues
