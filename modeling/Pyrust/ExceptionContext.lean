import Pyrust.PointerChain

/-!
# Exception contexts

The interpreter keeps a stack of the exceptions being handled. An error that is
raised while the stack is not empty gets the exception on top as its
`__context__`, unless it has one already or is that exception. Exception objects
are named by the order of their creation, and stacks are listed from the top.
Assignments to `__context__` by the program itself are not steps here, and
neither is what no context depends on (tracebacks, causes, notes).
-/

set_option autoImplicit false

namespace Pyrust.ExceptionContext

open PointerChain

/-- The identity of an exception object. -/
abbrev Exc := ℕ

/-- An error on its way: an exception object, an error that becomes one when it is caught, or
`return`, `break` and the like. -/
inductive PyError where
  | raised (exc : Exc)
  | runtime
  | transport
  deriving DecidableEq, Repr

/-- An exception object that the program has, or one that it makes now. -/
inductive Operand where
  | object (exc : Exc)
  | made
  deriving DecidableEq, Repr

/-- What entering a frame saves. -/
structure Frame where
  excCtxFrameBase : ℕ
  excSavedActiveFrameBase : ℕ
  savedActive : Option Exc
  savedPushExcCtxDepth : ℕ

/-- What a suspended generator keeps. -/
structure GenSave where
  handledExcSlice : List Exc
  activeException : Option Exc
  excSavedActiveSlice : List (Option Exc)

/-- Between two instructions, with an error at an instruction of the running frame, or with an
error that leaves it. -/
inductive Control where
  | running
  | throwing (err : PyError)
  | escaping (err : PyError)
  deriving DecidableEq, Repr

structure Interpreter where
  /-- The exception objects made so far. -/
  made : ℕ
  /-- The `__context__` slot: absent, `None` or an exception. -/
  context : Exc → Option (Option Exc)
  activeException : Option Exc
  handledExcStack : List Exc
  excSavedActive : List (Option Exc)
  pushExcCtxDepth : ℕ
  frames : List Frame
  suspended : List GenSave
  control : Control

/-- The exception that the `__context__` slot of an exception holds. -/
def next (s : Interpreter) (exc : Exc) : Option Exc := (s.context exc).bind id

namespace Interpreter
variable (s : Interpreter)

def insertContext (exc : Exc) (value : Option Exc) : Interpreter :=
  { s with context := Function.update s.context exc (some value) }

/-- A new exception object has no `__context__` slot. -/
def instantiateException : Exc × Interpreter :=
  (s.made, { s with made := s.made+1, context := Function.update s.context s.made none })

/-- Only the errors that carry no transport become exceptions. -/
def materializePyerror : PyError → Option (Exc × Interpreter)
  | .raised exc => some (exc, s)
  | .runtime => some s.instantiateException
  | .transport => none

def attachImplicitContext (exc : Exc) : Interpreter :=
  match s.handledExcStack with
  | [] => s
  | ctx::_ =>
    if exc = ctx then s
    else if (s.context exc).isSome then s
    else s.insertContext exc (some ctx)

def escapeWithImplicitContext (err : PyError) : PyError × Interpreter :=
  if s.handledExcStack = [] then (err, s)
  else match s.materializePyerror err with
    | some (exc, s) => (.raised exc, s.attachImplicitContext exc)
    | none => (err, s)

def ctxBase : ℕ := (s.frames.head?.map Frame.excCtxFrameBase).getD 0

def savedBase : ℕ := (s.frames.head?.map Frame.excSavedActiveFrameBase).getD 0

/-- Pop the stack of handled exceptions, but never an entry of a caller. -/
def popHandled : Interpreter :=
  { s with handledExcStack :=
      if s.ctxBase < s.handledExcStack.length then s.handledExcStack.tail
      else s.handledExcStack }

/-- A handler of the running frame takes the error; whether there is one is in `caught`. -/
def handleVmError (err : PyError) (caught : Bool) : Interpreter :=
  if caught then
    match s.materializePyerror err with
    | none => { s with control := .escaping err }
    | some (exc, s) =>
      let s := s.attachImplicitContext exc
      let prevActive := s.activeException
      let s := if s.pushExcCtxDepth = 0 ∧ s.handledExcStack.head?.isSome ∧
          s.handledExcStack.head? = s.activeException then s.popHandled else s
      { s with
        handledExcStack := exc::s.handledExcStack
        excSavedActive := prevActive::s.excSavedActive
        activeException := some exc
        control := .running }
  else
    let (err, s) := s.escapeWithImplicitContext err
    { s with control := .escaping err }

def endExcept : Interpreter :=
  let s := s.popHandled
  if s.savedBase < s.excSavedActive.length then
    { s with
      activeException := s.excSavedActive.head?.join
      excSavedActive := s.excSavedActive.tail }
  else { s with activeException := none }

def pushExcContext (exc : Exc) : Interpreter :=
  { s with
    handledExcStack := exc::s.handledExcStack
    activeException := some exc
    pushExcCtxDepth := s.pushExcCtxDepth+1 }

def popExcContext : Interpreter :=
  let s := { s with pushExcCtxDepth := s.pushExcCtxDepth-1 }.popHandled
  { s with activeException := s.handledExcStack.head? }

def raiseReRaise : Interpreter :=
  match s.activeException with
  | none => { s with control := .throwing .runtime }
  | some exc =>
    let s := { s with activeException := none }.popHandled
    let s := if s.savedBase < s.excSavedActive.length then
        { s with
          activeException := s.excSavedActive.head?.join
          excSavedActive := s.excSavedActive.tail }
      else s
    { s with control := .throwing (.raised exc) }

def coerceToException : Operand → Exc × Interpreter
  | .object exc => (exc, s)
  | .made => s.instantiateException

def prepareExplicitRaise (v : Operand) : Interpreter :=
  let (exc, s) := s.coerceToException v
  let s := s.attachImplicitContext exc
  { s with control := .throwing (.raised exc) }

/-- The cause is made behind the exception; it is not kept here. -/
def prepareExplicitRaiseFrom (v : Operand) (cause : Option Operand) : Interpreter :=
  let (exc, s) := s.coerceToException v
  let s := match cause with
    | none => s
    | some c => (s.coerceToException c).2
  let s := s.attachImplicitContext exc
  { s with control := .throwing (.raised exc) }

def prepareAssertionError : Interpreter := s.prepareExplicitRaise .made

/-- The residual of an `except*` keeps the context of the group being handled. -/
def prepareExceptionGroupResidual (residual : Exc) : Interpreter :=
  let originalContext := s.handledExcStack.head?.bind fun group => next s group
  { s.insertContext residual originalContext with control := .throwing (.raised residual) }

/-- `derive` may return any exception object; it gets the context of the group it comes from. -/
def egDeriveWithMetadata (group : Exc) (v : Operand) : Interpreter :=
  let (derived, s) := s.coerceToException v
  if group = derived then s
  else match s.context group with
    | some value => s.insertContext derived value
    | none => s

/-- A generator that raised `StopIteration` raises a `RuntimeError` with it as its context. -/
def convertStopIteration (cause : Exc) : Interpreter :=
  let (exc, s) := s.instantiateException
  { s.insertContext exc (some cause) with control := .throwing (.raised exc) }

def enterFrame : Interpreter :=
  { s with
    frames := ⟨s.handledExcStack.length, s.excSavedActive.length, s.activeException,
      s.pushExcCtxDepth⟩::s.frames
    pushExcCtxDepth := 0 }

/-- A resumed generator puts its entries back above the base of its frame. -/
def resumeGenerator (save : GenSave) (inject : Option PyError) : Interpreter :=
  let s := s.enterFrame
  { s with
    handledExcStack := save.handledExcSlice ++ s.handledExcStack
    excSavedActive := save.excSavedActiveSlice ++ s.excSavedActive
    activeException := if save.activeException.isSome then save.activeException
      else s.activeException
    control := match inject with
      | none => .running
      | some err => .throwing err }

/-- What every way out of a frame restores. -/
def leaveFrame (frame : Frame) (rest : List Frame) : Interpreter :=
  { s with
    handledExcStack :=
      s.handledExcStack.drop (s.handledExcStack.length-frame.excCtxFrameBase)
    excSavedActive :=
      s.excSavedActive.drop (s.excSavedActive.length-frame.excSavedActiveFrameBase)
    activeException := frame.savedActive
    pushExcCtxDepth := frame.savedPushExcCtxDepth
    frames := rest }

def yieldFrame (frame : Frame) (rest : List Frame) : Interpreter :=
  let save : GenSave :=
    { handledExcSlice :=
        s.handledExcStack.take (s.handledExcStack.length-frame.excCtxFrameBase)
      activeException := s.activeException
      excSavedActiveSlice :=
        s.excSavedActive.take (s.excSavedActive.length-frame.excSavedActiveFrameBase) }
  { s.leaveFrame frame rest with suspended := s.suspended ++ [save] }

end Interpreter

open Interpreter

/-- The transitions of raising and handling. -/
inductive Action where
  | enterFrame
  | exitFrame
  | yieldFrame
  | resumeGenerator (i : ℕ) (inject : Option PyError)
  | instantiateException
  | raiseValue (v : Operand)
  | raiseFrom (v : Operand) (cause : Option Operand)
  | raiseAssert
  | raiseReRaise
  | raiseResidual (exc : Exc)
  | fail (err : PyError)
  | handle (caught : Bool)
  | endExcept
  | pushExcContext (exc : Exc)
  | popExcContext
  | derive (group : Exc) (v : Operand)
  | convertStopIteration (cause : Exc)
  deriving DecidableEq, Repr

/-- The objects a transition names exist. -/
def Operand.Made (s : Interpreter) : Operand → Prop
  | .object exc => exc < s.made
  | .made => True

instance (s : Interpreter) (v : Operand) : Decidable (Operand.Made s v) := by
  cases v <;> unfold Operand.Made <;> infer_instance

def PyError.Made (s : Interpreter) : PyError → Prop
  | .raised exc => exc < s.made
  | _ => True

instance (s : Interpreter) (err : PyError) : Decidable (PyError.Made s err) := by
  cases err <;> unfold PyError.Made <;> infer_instance

/-- One transition of the interpreter, where it is possible. -/
def step (a : Action) (s : Interpreter) : Option Interpreter :=
  match s.control, a with
  | .throwing err, .handle caught => some (s.handleVmError err caught)
  | .throwing _, _ => none
  | .escaping err, .exitFrame =>
    match s.frames with
    | frame::rest => some { s.leaveFrame frame rest with control := .throwing err }
    | [] => none
  | .escaping _, _ => none
  | .running, .enterFrame => some s.enterFrame
  | .running, .exitFrame =>
    match s.frames with
    | frame::rest => some (s.leaveFrame frame rest)
    | [] => none
  | .running, .yieldFrame =>
    match s.frames with
    | frame::rest => some (s.yieldFrame frame rest)
    | [] => none
  | .running, .resumeGenerator i inject =>
    match s.suspended[i]? with
    | some save =>
      if ∀ err ∈ inject, err.Made s then
        some ({ s with suspended := s.suspended.eraseIdx i }.resumeGenerator save inject)
      else none
    | none => none
  | .running, .instantiateException => some s.instantiateException.2
  | .running, .raiseValue v => if v.Made s then some (s.prepareExplicitRaise v) else none
  | .running, .raiseFrom v cause =>
    if v.Made s ∧ ∀ c ∈ cause, Operand.Made s c then some (s.prepareExplicitRaiseFrom v cause)
    else none
  | .running, .raiseAssert => some s.prepareAssertionError
  | .running, .raiseReRaise => some s.raiseReRaise
  | .running, .raiseResidual exc =>
    if exc < s.made then some (s.prepareExceptionGroupResidual exc) else none
  | .running, .fail err =>
    if err.Made s then some { s with control := .throwing err } else none
  | .running, .handle _ => none
  | .running, .endExcept => some s.endExcept
  | .running, .pushExcContext exc =>
    if exc < s.made then some (s.pushExcContext exc) else none
  | .running, .popExcContext => some s.popExcContext
  | .running, .derive group v =>
    if group < s.made ∧ v.Made s then some (s.egDeriveWithMetadata group v) else none
  | .running, .convertStopIteration cause =>
    if cause < s.made then some (s.convertStopIteration cause) else none

def run : List Action → Interpreter → Option Interpreter
  | [], s => some s
  | a::as, s => (step a s).bind (run as)

/-- The module frame, before any exception exists. -/
def start : Interpreter where
  made := 0
  context := fun _ => none
  activeException := none
  handledExcStack := []
  excSavedActive := []
  pushExcCtxDepth := 0
  frames := [⟨0, 0, none, 0⟩]
  suspended := []
  control := .running

/-- The object that is given the exception on top as its context is on the context chain of that
exception. -/
def AttachCloses (s : Interpreter) (exc : Exc) : Prop :=
  ∃ ctx, s.handledExcStack.head? = some ctx ∧ exc ≠ ctx ∧ s.context exc = none ∧
    OnChain (next s) ctx exc

/-- The same for a context that is written over the old one. -/
def WriteCloses (s : Interpreter) (exc : Exc) (value : Option Exc) : Prop :=
  ∃ ctx ∈ value, OnChain (next s) ctx exc

/-- A transition that gives an object a context whose chain holds the object already. -/
def Closes (a : Action) (s : Interpreter) : Prop :=
  match s.control, a with
  | .throwing err, .handle _ => ∃ x ∈ s.materializePyerror err, AttachCloses x.2 x.1
  | .running, .raiseValue v => AttachCloses (s.coerceToException v).2 (s.coerceToException v).1
  | .running, .raiseFrom v cause =>
    AttachCloses
      ((cause.map fun c => ((s.coerceToException v).2.coerceToException c).2).getD
        (s.coerceToException v).2)
      (s.coerceToException v).1
  | .running, .raiseAssert =>
    AttachCloses (s.coerceToException .made).2 (s.coerceToException .made).1
  | .running, .raiseResidual exc =>
    WriteCloses s exc (s.handledExcStack.head?.bind fun group => next s group)
  | .running, .derive group v =>
    group ≠ (s.coerceToException v).1 ∧
      WriteCloses (s.coerceToException v).2 (s.coerceToException v).1
        (next (s.coerceToException v).2 group)
  | .running, .convertStopIteration cause =>
    WriteCloses s.instantiateException.2 s.instantiateException.1 (some cause)
  | _, _ => False

section chains
variable {s : Interpreter}

theorem next_congr {s t : Interpreter} (h : t.context = s.context) : next t = next s := by
  funext exc
  simp only [next, h]

theorem insertContext_next (exc : Exc) (value : Option Exc) :
    next (s.insertContext exc value) = Function.update (next s) exc value := by
  ext x : 1
  by_cases hx : x = exc
  · simp [next, insertContext, hx]
  · simp [next, insertContext, hx]

theorem instantiateException_next :
    next s.instantiateException.2 = Function.update (next s) s.made none := by
  ext x : 1
  by_cases hx : x = s.made
  · simp [next, instantiateException, hx]
  · simp [next, instantiateException, hx]

theorem instantiateException_finite (hf : Finite (next s)) :
    Finite (next s.instantiateException.2) := by
  rw [instantiateException_next]
  exact finite_update_none hf

theorem coerceToException_finite (v : Operand) (hf : Finite (next s)) :
    Finite (next (s.coerceToException v).2) := by
  cases v with
  | object exc => exact hf
  | made => exact instantiateException_finite hf

theorem materializePyerror_finite {err : PyError} {x : Exc × Interpreter}
    (h : s.materializePyerror err = some x) (hf : Finite (next s)) : Finite (next x.2) := by
  cases err with
  | raised exc =>
    cases h
    exact hf
  | runtime =>
    cases h
    exact instantiateException_finite hf
  | transport => cases h

theorem materializePyerror_stack {err : PyError} {x : Exc × Interpreter}
    (h : s.materializePyerror err = some x) : x.2.handledExcStack = s.handledExcStack := by
  cases err <;> cases h <;> rfl

theorem insertContext_finite {exc : Exc} {value : Option Exc} (hf : Finite (next s)) :
    Finite (next (s.insertContext exc value)) ↔ ¬ WriteCloses s exc value := by
  rw [insertContext_next]
  cases value with
  | none => simpa [WriteCloses] using finite_update_none hf
  | some ctx => simpa [WriteCloses] using finite_update_some hf

theorem attachImplicitContext_finite {exc : Exc} (hf : Finite (next s)) :
    Finite (next (s.attachImplicitContext exc)) ↔ ¬ AttachCloses s exc := by
  unfold attachImplicitContext AttachCloses
  cases hs : s.handledExcStack with
  | nil => simpa using hf
  | cons ctx rest =>
    by_cases he : exc = ctx
    · simpa [he] using hf
    · cases hc : s.context exc with
      | some v => simpa [he] using hf
      | none =>
        have hw := @insertContext_finite s exc (some ctx) hf
        simpa [he, WriteCloses] using hw

theorem handleVmError_finite (err : PyError) (caught : Bool) (hf : Finite (next s)) :
    Finite (next (s.handleVmError err caught)) ↔
      ¬ ∃ x ∈ s.materializePyerror err, AttachCloses x.2 x.1 := by
  cases hm : s.materializePyerror err with
  | none =>
    have hn : next (s.handleVmError err caught) = next s := by
      apply next_congr
      cases caught with
      | true => simp [handleVmError, hm]
      | false => simp [handleVmError, escapeWithImplicitContext, hm]
    simpa [hn] using hf
  | some x =>
    have hx := materializePyerror_finite hm hf
    have hattach := @attachImplicitContext_finite x.2 x.1 hx
    cases caught with
    | true =>
      have hn : next (s.handleVmError err true) = next (x.2.attachImplicitContext x.1) := by
        apply next_congr
        simp only [handleVmError, hm, if_true]
        split <;> rfl
      simpa [hn] using hattach
    | false =>
      by_cases hs : s.handledExcStack = []
      · -- nothing is attached, and there is nothing that could be
        have hn : next (s.handleVmError err false) = next s := by
          apply next_congr
          simp [handleVmError, escapeWithImplicitContext, hs]
        have hx2 := materializePyerror_stack hm
        simpa [hn, AttachCloses, hx2, hs] using hf
      · have hn : next (s.handleVmError err false) = next (x.2.attachImplicitContext x.1) := by
          apply next_congr
          simp [handleVmError, escapeWithImplicitContext, hs, hm]
        simpa [hn] using hattach

theorem prepareExplicitRaise_finite (v : Operand) (hf : Finite (next s)) :
    Finite (next (s.prepareExplicitRaise v)) ↔
      ¬ AttachCloses (s.coerceToException v).2 (s.coerceToException v).1 :=
  attachImplicitContext_finite (coerceToException_finite v hf)

theorem prepareExplicitRaiseFrom_finite (v : Operand) (cause : Option Operand)
    (hf : Finite (next s)) :
    Finite (next (s.prepareExplicitRaiseFrom v cause)) ↔
      ¬ AttachCloses
        ((cause.map fun c => ((s.coerceToException v).2.coerceToException c).2).getD
          (s.coerceToException v).2)
        (s.coerceToException v).1 := by
  have hv := coerceToException_finite v hf
  cases cause with
  | none => exact attachImplicitContext_finite hv
  | some c => exact attachImplicitContext_finite (coerceToException_finite c hv)

theorem egDeriveWithMetadata_finite (group : Exc) (v : Operand) (hf : Finite (next s)) :
    Finite (next (s.egDeriveWithMetadata group v)) ↔
      ¬ (group ≠ (s.coerceToException v).1 ∧
        WriteCloses (s.coerceToException v).2 (s.coerceToException v).1
          (next (s.coerceToException v).2 group)) := by
  have hv := coerceToException_finite v hf
  unfold egDeriveWithMetadata
  by_cases he : group = (s.coerceToException v).1
  · simpa [he] using hv
  · cases hc : (s.coerceToException v).2.context group with
    | none => simpa [he, hc, next, WriteCloses] using hv
    | some value =>
      have hw := @insertContext_finite _ (s.coerceToException v).1 value hv
      simpa [he, hc, next] using hw

end chains

/-- A transition that writes no context closes no chain. -/
theorem finite_of_context {a : Action} {s t : Interpreter} (hf : Finite (next s))
    (hctx : t.context = s.context) (hq : ¬ Closes a s) : Finite (next t) ↔ ¬ Closes a s := by
  rw [next_congr hctx]
  exact iff_of_true hf hq

theorem endExcept_context (s : Interpreter) : s.endExcept.context = s.context := by
  unfold endExcept
  dsimp only
  split <;> rfl

theorem raiseReRaise_context (s : Interpreter) : s.raiseReRaise.context = s.context := by
  unfold raiseReRaise
  cases s.activeException with
  | none => rfl
  | some exc => dsimp only; split <;> rfl

/-- One transition keeps every chain finite exactly when it closes none. -/
theorem step_finite {a : Action} {s t : Interpreter} (h : step a s = some t)
    (hf : Finite (next s)) : Finite (next t) ↔ ¬ Closes a s := by
  cases hc : s.control with
  | throwing err =>
    cases a with
    | handle caught =>
      simp only [step, hc, Option.some.injEq] at h
      subst h
      simpa only [Closes, hc] using handleVmError_finite err caught hf
    | _ => simp [step, hc] at h
  | escaping err =>
    cases a with
    | exitFrame =>
      apply finite_of_context hf _ (by simp [Closes, hc])
      cases hfr : s.frames with
      | nil => simp [step, hc, hfr] at h
      | cons frame rest =>
        simp only [step, hc, hfr, Option.some.injEq] at h
        rw [← h]
        rfl
    | _ => simp [step, hc] at h
  | running =>
    have hquiet (hctx : t.context = s.context) (hq : ¬ Closes a s) :
        Finite (next t) ↔ ¬ Closes a s := finite_of_context hf hctx hq
    cases a with
    | handle caught => simp [step, hc] at h
    | enterFrame | popExcContext =>
      apply hquiet _ (by simp [Closes, hc])
      simp only [step, hc, Option.some.injEq] at h
      subst h
      rfl
    | pushExcContext exc | fail err =>
      apply hquiet _ (by simp [Closes, hc])
      simp only [step, hc, Option.ite_none_right_eq_some, Option.some.injEq] at h
      obtain ⟨_, rfl⟩ := h
      rfl
    | exitFrame | yieldFrame =>
      apply hquiet _ (by simp [Closes, hc])
      cases hfr : s.frames with
      | nil => simp [step, hc, hfr] at h
      | cons frame rest =>
        simp only [step, hc, hfr, Option.some.injEq] at h
        rw [← h]
        rfl
    | resumeGenerator i inject =>
      apply hquiet _ (by simp [Closes, hc])
      cases hs : s.suspended[i]? with
      | none => simp [step, hc, hs] at h
      | some save =>
        simp only [step, hc, hs, Option.ite_none_right_eq_some, Option.some.injEq] at h
        rw [← h.2]
        rfl
    | endExcept =>
      apply hquiet _ (by simp [Closes, hc])
      simp only [step, hc, Option.some.injEq] at h
      rw [← h, endExcept_context]
    | raiseReRaise =>
      apply hquiet _ (by simp [Closes, hc])
      simp only [step, hc, Option.some.injEq] at h
      rw [← h, raiseReRaise_context]
    | instantiateException =>
      simp only [step, hc, Option.some.injEq] at h
      rw [← h]
      exact iff_of_true (instantiateException_finite hf) (by simp [Closes, hc])
    | raiseValue v =>
      simp only [step, hc, Option.ite_none_right_eq_some, Option.some.injEq] at h
      rw [← h.2]
      simpa only [Closes, hc] using prepareExplicitRaise_finite v hf
    | raiseFrom v cause =>
      simp only [step, hc, Option.ite_none_right_eq_some, Option.some.injEq] at h
      rw [← h.2]
      simpa only [Closes, hc] using prepareExplicitRaiseFrom_finite v cause hf
    | raiseAssert =>
      simp only [step, hc, Option.some.injEq] at h
      rw [← h]
      simp only [Closes, hc]
      exact prepareExplicitRaise_finite .made hf
    | raiseResidual exc =>
      simp only [step, hc, Option.ite_none_right_eq_some, Option.some.injEq] at h
      rw [← h.2]
      simp only [Closes, hc]
      exact insertContext_finite hf
    | derive group v =>
      simp only [step, hc, Option.ite_none_right_eq_some, Option.some.injEq] at h
      rw [← h.2]
      simpa only [Closes, hc] using egDeriveWithMetadata_finite group v hf
    | convertStopIteration cause =>
      simp only [step, hc, Option.ite_none_right_eq_some, Option.some.injEq] at h
      rw [← h.2]
      simp only [Closes, hc]
      exact insertContext_finite (instantiateException_finite hf)

theorem run_append (as bs : List Action) (s : Interpreter) :
    run (as ++ bs) s = (run as s).bind (run bs) := by
  induction as generalizing s with
  | nil => rfl
  | cons a as ih =>
    rw [List.cons_append, run, run, Option.bind_assoc]
    congr 1
    funext t
    exact ih t

theorem start_finite : Finite (next start) := fun _ => ends_of_none rfl

/-- A run none of whose transitions closes a chain reaches states with finite chains only. -/
theorem run_finite {as pre post : List Action} {s t : Interpreter} (hf : Finite (next s))
    (h : ∀ pre a post u v, as = pre ++ a::post → run pre s = some u → step a u = some v →
      ¬ Closes a u)
    (has : as = pre ++ post) (ht : run pre s = some t) : Finite (next t) := by
  induction pre generalizing as s with
  | nil =>
    cases ht
    exact hf
  | cons a pre ih =>
    obtain ⟨u, hu, hrest⟩ := Option.bind_eq_some_iff.mp ht
    have hfu : Finite (next u) := (step_finite hu hf).mpr (h [] a (pre ++ post) s u has rfl hu)
    apply ih hfu _ rfl hrest
    intro pre' b post' v w hsplit hv hw
    exact h (a::pre') b post' v w (by rw [has, List.cons_append, hsplit]; rfl)
      (by simp [run, hu, hv]) hw

/-- Every chain is finite in every state of a run exactly when no transition of the run gives an
exception a context whose chain holds that exception. -/
theorem contexts_end_iff (as : List Action) :
    (∀ pre post s, as = pre ++ post → run pre start = some s → Finite (next s)) ↔
      ∀ pre a post s t, as = pre ++ a::post → run pre start = some s → step a s = some t →
        ¬ Closes a s := by
  constructor
  · intro h pre a post s t has hs ht
    have hbefore := h pre (a::post) s has hs
    have hafter := h (pre ++ [a]) post t (by simp [has]) (by simp [run_append, hs, run, ht])
    exact (step_finite ht hbefore).mp hafter
  · intro h pre post s has hs
    exact run_finite start_finite h has hs

/-- An exception that is kept and raised again in a handler of one of its descendants. -/
theorem kept_exception_cycle :
    ∃ s, run [.raiseValue .made, .handle true, .raiseValue .made, .handle true,
        .raiseValue (.object 0)] start = some s ∧ ¬ Ends (next s) 0 := by
  refine ⟨_, rfl, ?_⟩
  apply not_ends_of_cycle (y := 1)
  · rfl
  · exact ⟨1, rfl⟩

end Pyrust.ExceptionContext
