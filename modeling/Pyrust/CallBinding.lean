import Mathlib.Data.List.Nodup
import Mathlib.Data.Nat.Count
import Mathlib.Logic.Function.Basic
import Mathlib.Tactic

/-!
# Argument binding of user functions

Four separately written binders place the arguments of a call in the frame of
a user function. Each is given here as the interpreter runs it, with its own
bookkeeping of bound slots, and beside them stands Python's binding rule on
pre-split argument lists. A frame is read by parameter index: `none` is the
unset value a register file starts from.
-/

set_option autoImplicit false

namespace Pyrust.CallBinding

inductive ParamKind where
  | positionalOnly | regular | args | keywordOnly | kwargs
  deriving DecidableEq, Repr

def ParamKind.rank : ParamKind → ℕ
  | .positionalOnly => 0
  | .regular => 1
  | .args => 2
  | .keywordOnly => 3
  | .kwargs => 4

structure Param (V : Type) where
  name : String
  kind : ParamKind
  default : Option V

namespace Param

variable {V : Type}

def isArgs (p : Param V) : Bool := p.kind == .args
def isKwargs (p : Param V) : Bool := p.kind == .kwargs
def isKeywordOnly (p : Param V) : Bool := p.kind == .keywordOnly
def isPositionalOnly (p : Param V) : Bool := p.kind == .positionalOnly

/-- Neither variadic nor keyword-only: the parameters `__defaults__` aligns to. -/
def isPositional (p : Param V) : Bool := !p.isArgs && !p.isKwargs && !p.isKeywordOnly

/-- The order the parameter list of a `def` keeps, with one `*args` and one
`**kwargs` at most. -/
def Before (p q : Param V) : Prop :=
  p.kind.rank < q.kind.rank ∨ (p.kind = q.kind ∧ p.kind ≠ .args ∧ p.kind ≠ .kwargs)

instance (p q : Param V) : Decidable (Before p q) := inferInstanceAs (Decidable (_ ∨ _))

end Param

/-- The `__defaults__` override: not overridden, cleared, or a tuple. -/
inductive DefaultsSlot (V : Type) where
  | unset | none | tuple (items : List V)

inductive KwdefaultsSlot (V : Type) where
  | unset | none | dict (entries : List (String × V))

structure UserFunction (V : Type) where
  qualname : String
  params : List (Param V)
  defaultsOverride : DefaultsSlot V
  kwdefaultsOverride : KwdefaultsSlot V
  distinct : (params.map Param.name).Nodup
  ordered : params.Pairwise Param.Before

structure CallArg (V : Type) where
  name : Option String
  value : V

/-- What a parameter is bound to: an argument or default, the surplus
positionals of `*args`, or the surplus keywords of `**kwargs`. -/
inductive Bound (V : Type) where
  | value (v : V)
  | tuple (items : List V)
  | dict (entries : List (String × V))
  deriving DecidableEq

abbrev Frame (V : Type) := ℕ → Option (Bound V)

inductive BindError where
  | tooManyPositional (required total given keywordOnlyGiven : ℕ)
  | multipleValues (name : String)
  | positionalOnlyAsKeyword (names : List String)
  | unexpectedKeyword (name : String)
  | missingPositional (names : List String)
  | missingKeywordOnly (names : List String)
  deriving DecidableEq

section Messages

def quoted (name : String) : String := "'" ++ name ++ "'"

def formatMissingArgs : List String → String
  | [] => ""
  | [only] => quoted only
  | [first, second] => quoted first ++ " and " ++ quoted second
  | names => ", ".intercalate (names.dropLast.map quoted) ++ ", and "
      ++ quoted (names.getLastD "")

def argumentWord (n : ℕ) : String := if n = 1 then "argument" else "arguments"

/-- The text of the `TypeError`, after the qualified name of the function. -/
def BindError.message (qualname : String) : BindError → String
  | tooManyPositional required total given keywordOnlyGiven =>
      let takes := if required = total then toString total
        else "from " ++ toString required ++ " to " ++ toString total
      let word := if required = total then argumentWord total else "arguments"
      let start := qualname ++ "() takes " ++ takes ++ " positional " ++ word ++ " but "
        ++ toString given
      if keywordOnlyGiven = 0 then
        start ++ (if given = 1 then " was" else " were") ++ " given"
      else
        start ++ " positional " ++ argumentWord given ++ " (and " ++ toString keywordOnlyGiven
          ++ " keyword-only " ++ argumentWord keywordOnlyGiven ++ ") were given"
  | multipleValues name => qualname ++ "() got multiple values for argument " ++ quoted name
  | positionalOnlyAsKeyword names =>
      qualname ++ "() got some positional-only arguments passed as keyword arguments: "
        ++ quoted (", ".intercalate names)
  | unexpectedKeyword name => qualname ++ "() got an unexpected keyword argument " ++ quoted name
  | missingPositional names =>
      qualname ++ "() missing " ++ toString names.length ++ " required positional "
        ++ argumentWord names.length ++ ": " ++ formatMissingArgs names
  | missingKeywordOnly names =>
      qualname ++ "() missing " ++ toString names.length ++ " required keyword-only "
        ++ argumentWord names.length ++ ": " ++ formatMissingArgs names

end Messages

variable {V : Type}

namespace UserFunction

def nparams (f : UserFunction V) : ℕ := f.params.length

def holds (f : UserFunction V) (q : Param V → Bool) (i : ℕ) : Bool := (f.params[i]?).any q

def hasArgs (f : UserFunction V) : Bool := f.params.any Param.isArgs
def hasKwargs (f : UserFunction V) : Bool := f.params.any Param.isKwargs
def positionalParamIndices (f : UserFunction V) : List ℕ :=
  (List.range f.nparams).filter (f.holds Param.isPositional)

/-- An override tuple is aligned to the trailing positional parameters. -/
def positionalDefault (f : UserFunction V) (pi : ℕ) : Option V :=
  match f.defaultsOverride with
  | .unset => (f.params[pi]?).bind Param.default
  | .none => none
  | .tuple items =>
      let positions := f.positionalParamIndices
      match positions.idxOf? pi with
      | none => none
      | some j =>
          let idx : ℤ := items.length-positions.length+j
          if 0 ≤ idx then items[idx.toNat]? else none

def kwonlyDefault (f : UserFunction V) (pi : ℕ) : Option V :=
  match f.params[pi]? with
  | none => none
  | some p =>
      match f.kwdefaultsOverride with
      | .unset => p.default
      | .none => none
      | .dict entries => entries.lookup p.name

def defaultFor (f : UserFunction V) (pi : ℕ) : Option V :=
  if f.holds Param.isKeywordOnly pi then f.kwonlyDefault pi else f.positionalDefault pi

def paramIndex (f : UserFunction V) (name : String) : Option ℕ :=
  f.params.findIdx? (fun p => p.name == name)

end UserFunction

open UserFunction

section Shared

end Shared

section Expanded

structure Binding (V : Type) where
  frame : Frame V
  positionalIndex : ℕ
  posonlyViolations : List String
  firstUnknownKeyword : Option String

def bindParam (b : Binding V) (pi : ℕ) (v : V) : Binding V :=
  { b with frame := Function.update b.frame pi (some (.value v)) }

def bindKeyword (f : UserFunction V) (name : String) (v : V) (b : Binding V) :
    Except BindError (Binding V) :=
  match f.paramIndex name with
  | none => .ok { b with firstUnknownKeyword := b.firstUnknownKeyword.or (some name) }
  | some pi =>
      if f.holds Param.isPositionalOnly pi then
        .ok { b with posonlyViolations := b.posonlyViolations ++ [name] }
      else if (b.frame pi).isSome then .error (.multipleValues name)
      else .ok (bindParam b pi v)

/-- The loop that passes over bound slots and keyword-only parameters. -/
def skipBound (f : UserFunction V) (frame : Frame V) : ℕ → ℕ → ℕ
  | 0, i => i
  | fuel+1, i =>
      if i < f.nparams ∧ ((frame i).isSome ∨ f.holds Param.isKeywordOnly i) then
        skipBound f frame fuel (i+1)
      else i

def bindPositional (f : UserFunction V) (tooMany : BindError) (v : V) (b : Binding V) :
    Except BindError (Binding V) :=
  let i := skipBound f b.frame f.nparams b.positionalIndex
  if f.nparams ≤ i ∨ f.holds Param.isKeywordOnly i then .error tooMany
  else .ok { bindParam b i v with positionalIndex := i+1 }

def bindArg (f : UserFunction V) (tooMany : BindError) (b : Binding V) (arg : CallArg V) :
    Except BindError (Binding V) :=
  match arg.name with
  | some name => bindKeyword f name arg.value b
  | none => bindPositional f tooMany arg.value b

def bindArgs (f : UserFunction V) (tooMany : BindError) :
    List (CallArg V) → Binding V → Except BindError (Binding V)
  | [], b => .ok b
  | arg::args, b => do bindArgs f tooMany args (← bindArg f tooMany b arg)

def positionals (args : List (CallArg V)) : List V :=
  args.filterMap (fun a => if a.name.isNone then some a.value else none)

def keywords (args : List (CallArg V)) : List (String × V) :=
  args.filterMap (fun a => a.name.map (fun n => (n, a.value)))

end Expanded

section Variadic

structure Resolving (V : Type) where
  posIdx : ℕ
  consumed : List String
  vals : List (Option (Bound V))
  missingPositional : List String
  missingKwonly : List String

def dictInsert (entries : List (String × V)) (key : String) (v : V) : List (String × V) :=
  if entries.any (fun e => e.1 == key) then
    entries.map (fun e => if e.1 == key then (key, v) else e)
  else entries ++ [(key, v)]

end Variadic

section KeywordCall

end KeywordCall

section Rule

/-- The number of parameters a positional argument can fill. In a well-ordered
signature they are the first ones, so a positional fills the slot of its own
position. -/
def arity (f : UserFunction V) : ℕ := (f.params.filter Param.isPositional).length

def takesKeyword (p : Param V) : Bool := p.kind == .regular || p.kind == .keywordOnly

/-- A tuple assigned to `__defaults__` belongs to the last positional
parameters; `None` there leaves none. -/
def ruleDefault (f : UserFunction V) (i : ℕ) (p : Param V) : Option V :=
  if p.isKeywordOnly then
    match f.kwdefaultsOverride with
    | .unset => p.default
    | .none => none
    | .dict entries => entries.lookup p.name
  else
    match f.defaultsOverride with
    | .unset => p.default
    | .none => none
    | .tuple items =>
        if arity f ≤ i+items.length then items[i+items.length-arity f]? else none

def ruleValue (f : UserFunction V) (pos : List V) (kw : List (String × V)) (i : ℕ) (p : Param V) :
    Option (Bound V) :=
  match p.kind with
  | .args => some (.tuple (pos.drop (arity f)))
  | .kwargs =>
      some (.dict (kw.filter (fun kv => !f.params.any (fun q => takesKeyword q && q.name == kv.1))))
  | .positionalOnly => ((pos[i]?).or (ruleDefault f i p)).map .value
  | .regular => (((pos[i]?).or (kw.lookup p.name)).or (ruleDefault f i p)).map .value
  | .keywordOnly => ((kw.lookup p.name).or (ruleDefault f i p)).map .value

def ruleFrame (f : UserFunction V) (pos : List V) (kw : List (String × V)) : Frame V := fun i =>
  (f.params[i]?).bind (ruleValue f pos kw i)

/-- Python's binding rule: surplus positionals need `*args`, a keyword may not
name a positionally filled parameter, an unknown keyword needs `**kwargs`, and
every parameter ends with a value. -/
def Admissible (f : UserFunction V) (pos : List V) (kw : List (String × V)) : Prop :=
  (f.hasArgs ∨ pos.length ≤ arity f) ∧
  (∀ kv ∈ kw, ∀ (i : ℕ) (p : Param V), f.params[i]? = some p → p.kind = .regular →
    p.name = kv.1 → pos.length ≤ i) ∧
  (f.hasKwargs ∨ ∀ kv ∈ kw, ∃ p ∈ f.params, takesKeyword p ∧ p.name = kv.1) ∧
  (∀ i < f.nparams, (ruleFrame f pos kw i).isSome)

/-- A binder meets the rule when it fails on the calls the rule refuses and
otherwise binds what the rule binds. -/
def Meets (f : UserFunction V) (pos : List V) (kw : List (String × V))
    (result : Except BindError (Frame V)) : Prop :=
  match result with
  | .ok frame => Admissible f pos kw ∧ frame = ruleFrame f pos kw
  | .error _ => ¬ Admissible f pos kw

end Rule

end Pyrust.CallBinding
