import Mathlib.Data.List.Basic
import Pyrust.PartitionedTrees

/-!
# Splitting exception groups

An exception is a group when its class says so. A group is split by a condition into
the part that matches and the rest, both derived from it with what is left of its
exceptions; a group that matches as a whole is not taken apart.
-/

set_option autoImplicit false

namespace Pyrust.ExceptionGroups

open PartitionedTrees

/-! ## Exceptions and conditions -/

/-- What is raised; `panicked` is a lookup that the interpreter expects to succeed. -/
inductive PyError (E : Type) where
  | raised (e : E)
  | typeError (message : String)
  | panicked (message : String)

/-- The attributes that a derived group takes from its source. -/
structure Slots (V : Type) where
  message : V
  traceback : Option V := none
  cause : Option V := none
  context : Option V := none
  suppressContext : Bool := false
  notes : Option V := none

/-- An exception object; the class of a group is one of those with `exceptions`. -/
inductive Exc (C V : Type) where
  | mk (address : ℕ) (cls : C) (slots : Slots V) (exceptions : List (Exc C V))

section fields
variable {C V : Type}

def Exc.address : Exc C V → ℕ | .mk address _ _ _ => address
def Exc.cls : Exc C V → C | .mk _ cls _ _ => cls
def Exc.slots : Exc C V → Slots V | .mk _ _ slots _ => slots
def Exc.exceptions : Exc C V → List (Exc C V) | .mk _ _ _ exceptions => exceptions

theorem Exc.ind {P : Exc C V → Prop}
    (mk : ∀ address cls slots exceptions, (∀ x ∈ exceptions, P x) →
      P (.mk address cls slots exceptions)) (x : Exc C V) : P x :=
  Exc.rec (motive_1 := P) (motive_2 := fun xs => ∀ x ∈ xs, P x) mk
    (fun x hx => by cases hx)
    (fun x xs hx hxs y hy => by
      rcases List.mem_cons.mp hy with rfl | hy
      · exact hx
      · exact hxs y hy) x

end fields

/-- What the interpreter knows of classes. -/
structure Classes (C : Type) where
  isSubclass : C → C → Bool
  isExceptionClass : C → Bool
  chainContains : C → String → Bool
  lookupExcClass : String → Option C

/-- The type of an `except` clause: a class, a tuple whose items need not be classes, or neither. -/
inductive CatchType (C : Type) where
  | cls (c : C)
  | tuple (items : List (Option C))
  | other

/-- A value given as a condition. -/
inductive Condition (C V E σ : Type) where
  | cls (c : C)
  | tuple (items : List (Option C))
  | callable (f : Exc C V → σ → Except (PyError E) (Bool × σ))
  | other

inductive EgMatcher (C V E σ : Type) where
  | type (kind : CatchType C)
  | predicate (f : Exc C V → σ → Except (PyError E) (Bool × σ))

section model
variable {C V E σ : Type} (classes : Classes C)

def isGroup (exc : Exc C V) : Bool := classes.chainContains exc.cls "BaseExceptionGroup"

def notInheriting : PyError E :=
  .typeError "catching classes that do not inherit from BaseException is not allowed"

/-- The test of one item of a tuple of classes. -/
def matchItem (cls : C) (matched : Bool) : Option C → Except (PyError E) Bool
  | some expected =>
    if !classes.isExceptionClass expected then .error notInheriting
    else .ok (matched || classes.isSubclass cls expected)
  | none => .error notInheriting

def exceptionMatches (exception : Exc C V) : CatchType C → Except (PyError E) Bool
  | .cls expected =>
    if !classes.isExceptionClass expected then .error notInheriting
    else .ok (classes.isSubclass exception.cls expected)
  | .tuple items => items.foldlM (matchItem classes exception.cls) false
  | .other => .error notInheriting

def conditionError : PyError E :=
  .typeError "expected a function, exception type or tuple of exception types"

def classifyEgCondition : Condition C V E σ → Except (PyError E) (EgMatcher C V E σ)
  | .cls c => if classes.isExceptionClass c then .ok (.type (.cls c)) else .error conditionError
  | .tuple items =>
    if items.all fun item => item.any classes.isExceptionClass then .ok (.type (.tuple items))
    else .error conditionError
  | .callable f => .ok (.predicate f)
  | .other => .error conditionError

def egMatches (matcher : EgMatcher C V E σ) (exc : Exc C V) (s : σ) :
    Except (PyError E) (Bool × σ) :=
  match matcher with
  | .type kind => do
    let matched ← exceptionMatches classes exc kind
    pure (matched, s)
  | .predicate f => f exc s

variable (fresh : σ → ℕ × σ)

def makeDerivedGroup (message : V) (excs : List (Exc C V)) (s : σ) :
    Except (PyError E) (Exc C V × σ) :=
  let allExc := !excs.isEmpty && excs.all fun v => classes.chainContains v.cls "Exception"
  let clsName := if allExc then "ExceptionGroup" else "BaseExceptionGroup"
  match (classes.lookupExcClass clsName).or (classes.lookupExcClass "BaseExceptionGroup") with
  | some cls => .ok (.mk (fresh s).1 cls { message } excs, (fresh s).2)
  | none => .error (.panicked "BaseExceptionGroup class must exist")

/-- `eg_derive_with_metadata`, with the default `derive`. -/
def egDeriveWithMetadata (group : Exc C V) (excs : List (Exc C V)) (s : σ) :
    Except (PyError E) (Exc C V × σ) := do
  let (derived, s) ← makeDerivedGroup classes fresh group.slots.message excs s
  let source := group.slots
  let slots := { derived.slots with
    traceback := source.traceback.or derived.slots.traceback
    cause := source.cause.or derived.slots.cause
    context := source.context.or derived.slots.context
    suppressContext := true
    notes := source.notes.or derived.slots.notes }
  pure (.mk derived.address derived.cls slots derived.exceptions, s)

/-- A part of a group; there is none without exceptions. -/
def derivePart (group : Exc C V) (excs : List (Exc C V)) (s : σ) :
    Except (PyError E) (Option (Exc C V) × σ) :=
  if excs.isEmpty then pure (none, s)
  else do
    let (derived, s) ← egDeriveWithMetadata classes fresh group excs s
    pure (some derived, s)

variable (matcher : EgMatcher C V E σ)

/-- One exception that is no group, on its side. -/
def splitLeaf (exc : Exc C V) (s : σ) :
    Except (PyError E) ((Option (Exc C V) × Option (Exc C V)) × σ) := do
  let (matched, s) ← egMatches classes matcher exc s
  pure (if matched then (some exc, none) else (none, some exc), s)

mutual
def egSplit : Exc C V → σ →
    Except (PyError E) ((Option (Exc C V) × Option (Exc C V)) × σ)
  | .mk address cls slots exceptions, s => do
    let group := Exc.mk address cls slots exceptions
    let (matched, s) ← egMatches classes matcher group s
    if matched then pure ((some group, none), s)
    else do
      let ((matchExcs, restExcs), s) ← egSplitItems exceptions s
      let (m, s) ← derivePart classes fresh group matchExcs s
      let (r, s) ← derivePart classes fresh group restExcs s
      pure ((m, r), s)

/-- The loop over the exceptions of a group. -/
def egSplitItems : List (Exc C V) → σ →
    Except (PyError E) ((List (Exc C V) × List (Exc C V)) × σ)
  | [], s => pure (([], []), s)
  | exc::items, s => do
    let ((m, r), s) ← (if isGroup classes exc then egSplit exc s
      else splitLeaf classes matcher exc s)
    let ((ms, rs), s) ← egSplitItems items s
    pure ((m.toList ++ ms, r.toList ++ rs), s)
end

/-- What `subgroup` and `split` answer. -/
inductive Answer (C V : Type) where
  | pair (m r : Option (Exc C V))
  | single (m : Option (Exc C V))

def exceptionGroupSubgroupOrSplit (self : Exc C V) (args : List (Condition C V E σ))
    (wantSplit : Bool) (s : σ) : Except (PyError E) (Answer C V × σ) :=
  let method := if wantSplit then "split" else "subgroup"
  match args with
  | [condition] => do
    let matcher ← classifyEgCondition classes condition
    let ((m, r), s) ← egSplit classes fresh matcher self s
    if wantSplit then pure (.pair m r, s) else pure (.single m, s)
  | args => .error (.typeError
      (method ++ " expected 1 argument, got " ++ toString args.length))

end model

/-! ## The tree of a group -/

section skeleton
variable {C V : Type} (classes : Classes C)

mutual
/-- The messages of the groups and the exceptions that are no groups. -/
def skeleton : Exc C V → Tree V (Exc C V)
  | .mk address cls slots exceptions =>
    if isGroup classes (Exc.mk address cls slots exceptions) then
      .node slots.message (skeletonAll exceptions)
    else .leaf (.mk address cls slots exceptions)

def skeletonAll : List (Exc C V) → List (Tree V (Exc C V))
  | [] => []
  | x::xs => skeleton x :: skeletonAll xs
end

theorem skeletonAll_eq (xs : List (Exc C V)) :
    skeletonAll classes xs = xs.map (skeleton classes) := by
  induction xs with
  | nil => rfl
  | cons x xs ih => rw [skeletonAll, ih, List.map_cons]

variable {classes}

theorem skeleton_group {x : Exc C V} (h : isGroup classes x = true) :
    skeleton classes x = .node x.slots.message (x.exceptions.map (skeleton classes)) := by
  obtain ⟨address, cls, slots, exceptions⟩ := x
  rw [skeleton, if_pos h, skeletonAll_eq]
  rfl

theorem skeleton_leaf {x : Exc C V} (h : isGroup classes x = false) :
    skeleton classes x = .leaf x := by
  obtain ⟨address, cls, slots, exceptions⟩ := x
  rw [skeleton, h]
  rfl

end skeleton

/-! ## The parts of a group -/

section split
variable {C V E σ : Type} {classes : Classes C} {fresh : σ → ℕ × σ}

/-- The two classes of groups can be looked up, and are classes of groups. -/
structure HasGroups (classes : Classes C) : Prop where
  base : ∃ k, classes.lookupExcClass "BaseExceptionGroup" = some k
  derived : ∃ k, classes.lookupExcClass "ExceptionGroup" = some k
  group : ∀ name k, name = "ExceptionGroup" ∨ name = "BaseExceptionGroup" →
    classes.lookupExcClass name = some k → classes.chainContains k "BaseExceptionGroup" = true

/-- The class is one that the default `derive` makes groups of. -/
def Derived (classes : Classes C) (x : Exc C V) : Prop :=
  ∃ name, (name = "ExceptionGroup" ∨ name = "BaseExceptionGroup") ∧
    classes.lookupExcClass name = some x.cls

theorem Derived.isGroup (hg : HasGroups classes) {x : Exc C V} (h : Derived classes x) :
    isGroup classes x = true := by
  obtain ⟨name, hname, hlookup⟩ := h
  exact hg.group name x.cls hname hlookup

variable (hg : HasGroups classes)
include hg

theorem makeDerivedGroup_spec (message : V) (excs : List (Exc C V)) (s : σ) :
    ∃ cls s', makeDerivedGroup (E := E) classes fresh message excs s =
        .ok (.mk (fresh s).1 cls { message } excs, s') ∧
      ∃ name, (name = "ExceptionGroup" ∨ name = "BaseExceptionGroup") ∧
        classes.lookupExcClass name = some cls := by
  obtain ⟨base, hbase⟩ := hg.base
  rw [makeDerivedGroup]
  split
  · rename_i cls hcls
    refine ⟨cls, _, rfl, ?_⟩
    rcases Option.or_eq_some_iff.mp hcls with h | ⟨-, h⟩
    · refine ⟨_, ?_, h⟩
      split
      · exact .inl rfl
      · exact .inr rfl
    · exact ⟨_, .inr rfl, h⟩
  · rename_i hnone
    rw [Option.or_eq_none_iff, hbase] at hnone
    cases hnone.2

/-- A part is a group of what is left, with the message of its source. -/
theorem derivePart_spec (group : Exc C V) (excs : List (Exc C V)) (s : σ) :
    ∃ part s', derivePart (E := E) classes fresh group excs s = .ok (part, s') ∧
      part.map (skeleton classes) = nodeOf group.slots.message (excs.map (skeleton classes)) ∧
      (∀ d ∈ part, Derived classes d) ∧ (part.isSome ↔ excs ≠ []) := by
  rw [derivePart]
  cases excs with
  | nil => exact ⟨none, s, rfl, rfl, fun d hd => (by cases hd), by simp⟩
  | cons x xs =>
    obtain ⟨cls, s', heq, name, hname, hlookup⟩ :=
      @makeDerivedGroup_spec _ _ E _ _ fresh hg group.slots.message (x::xs) s
    rw [List.isEmpty_cons, if_neg Bool.false_ne_true, egDeriveWithMetadata, heq]
    refine ⟨_, s', rfl, ?_, fun d hd => ?_, by simp⟩
    · refine congrArg some (skeleton_group ?_)
      exact hg.group name cls hname hlookup
    · obtain rfl := Option.some.inj hd
      exact ⟨name, hname, hlookup⟩

variable {matcher : EgMatcher C V E σ}

/-- Matching never raises. -/
def Total (classes : Classes C) (matcher : EgMatcher C V E σ) : Prop :=
  ∀ x s, ∃ b s', egMatches classes matcher x s = .ok (b, s')

omit hg in
theorem egSplit_whole {x : Exc C V} {s s' : σ}
    (h : egMatches classes matcher x s = .ok (true, s')) :
    egSplit classes fresh matcher x s = .ok ((some x, none), s') := by
  obtain ⟨address, cls, slots, exceptions⟩ := x
  rw [egSplit, h]
  rfl

omit hg in
/-- A group that does not match as a whole is split by its exceptions. -/
theorem egSplit_parts {address : ℕ} {cls : C} {slots : Slots V} {exceptions ms rs : List (Exc C V)}
    {m r : Option (Exc C V)} {s s₁ s₂ s₃ s₄ : σ}
    (hb : egMatches classes matcher (.mk address cls slots exceptions) s = .ok (false, s₁))
    (heq : egSplitItems classes fresh matcher exceptions s₁ = .ok ((ms, rs), s₂))
    (hm : derivePart (E := E) classes fresh (.mk address cls slots exceptions) ms s₂ = .ok (m, s₃))
    (hr : derivePart (E := E) classes fresh (.mk address cls slots exceptions) rs s₃ =
      .ok (r, s₄)) :
    egSplit classes fresh matcher (.mk address cls slots exceptions) s = .ok ((m, r), s₄) := by
  rw [egSplit, hb]
  show (egSplitItems classes fresh matcher exceptions s₁ >>= _) = _
  rw [heq]
  show (derivePart classes fresh _ ms s₂ >>= _) = _
  rw [hm]
  show (derivePart classes fresh _ rs s₃ >>= _) = _
  rw [hr]
  rfl

variable (ht : Total classes matcher)
include ht

/-- What a split of a group is to give. -/
def SplitsGroup (classes : Classes C) (fresh : σ → ℕ × σ) (matcher : EgMatcher C V E σ)
    (x : Exc C V) : Prop :=
  ∀ s, ∃ m r s', egSplit classes fresh matcher x s = .ok ((m, r), s') ∧
    Splits (skeleton classes x) (m.map (skeleton classes)) (r.map (skeleton classes)) ∧
    ∀ d ∈ r, Derived classes d

omit hg in
theorem egSplitItems_spec (items : List (Exc C V))
    (ih : ∀ x ∈ items, isGroup classes x = true → (skeleton classes x).Full →
      SplitsGroup classes fresh matcher x)
    (hall : FullAll (items.map (skeleton classes))) (s : σ) :
    ∃ ms rs s', egSplitItems classes fresh matcher items s = .ok ((ms, rs), s') ∧
      SplitsAll (items.map (skeleton classes)) (ms.map (skeleton classes))
        (rs.map (skeleton classes)) := by
  induction items generalizing s with
  | nil => exact ⟨[], [], s, rfl, .nil⟩
  | cons exc items ihs =>
    rw [List.map_cons, FullAll] at hall
    obtain ⟨m, r, s₁, heq, hsplit⟩ : ∃ m r s', (if isGroup classes exc then
        egSplit classes fresh matcher exc s else splitLeaf classes matcher exc s) =
          .ok ((m, r), s') ∧ Splits (skeleton classes exc) (m.map (skeleton classes))
            (r.map (skeleton classes)) := by
      cases hgroup : isGroup classes exc with
      | true =>
        obtain ⟨m, r, s', heq, hsplit, -⟩ := ih exc List.mem_cons_self hgroup hall.1 s
        exact ⟨m, r, s', heq, hsplit⟩
      | false =>
        obtain ⟨b, s', hb⟩ := ht exc s
        have hleaf := splits_leaf (M := V) exc b
        refine ⟨if b then some exc else none, if b then none else some exc, s', ?_, ?_⟩
        · rw [if_neg Bool.false_ne_true, splitLeaf, hb]
          cases b <;> rfl
        · rw [skeleton_leaf hgroup]
          cases b <;> simpa [skeleton_leaf hgroup] using hleaf
    obtain ⟨ms, rs, s₂, heqs, hsplits⟩ :=
      ihs (fun x hx => ih x (List.mem_cons_of_mem _ hx)) hall.2 s₁
    refine ⟨m.toList ++ ms, r.toList ++ rs, s₂, ?_, ?_⟩
    · rw [egSplitItems, heq]
      show (egSplitItems classes fresh matcher items s₁ >>= _) = _
      rw [heqs]
      rfl
    · have hcons := hsplit.cons hsplits
      rw [Option.toList_map, Option.toList_map] at hcons
      rwa [List.map_append, List.map_append]

/-- The parts of a group have each of its leaves in one of them. -/
theorem egSplit_spec (x : Exc C V) (hx : isGroup classes x = true)
    (hfull : (skeleton classes x).Full) : SplitsGroup classes fresh matcher x := by
  induction x using Exc.ind with
  | mk address cls slots exceptions ih =>
    intro s
    obtain ⟨b, s₁, hb⟩ := ht (.mk address cls slots exceptions) s
    cases b with
    | true => exact ⟨_, none, s₁, egSplit_whole hb, splits_all hfull, fun d hd => by cases hd⟩
    | false =>
      rw [skeleton_group hx] at hfull
      obtain ⟨ms, rs, s₂, heq, hsplit⟩ := egSplitItems_spec ht exceptions ih hfull.2 s₁
      obtain ⟨m, s₃, hm, hmskel, -⟩ :=
        @derivePart_spec _ _ E _ _ fresh hg (.mk address cls slots exceptions) ms s₂
      obtain ⟨r, s₄, hr, hrskel, hder, -⟩ :=
        @derivePart_spec _ _ E _ _ fresh hg (.mk address cls slots exceptions) rs s₃
      refine ⟨m, r, s₄, egSplit_parts hb heq hm hr, ?_, hder⟩
      rw [skeleton_group hx, hmskel, hrskel]
      exact hsplit.node _

end split

/-! ## When a part matches -/

section reach
variable {C V E σ : Type} {classes : Classes C} {fresh : σ → ℕ × σ}

mutual
/-- The exception satisfies the predicate, or is a group that holds one that does. -/
def reaches (classes : Classes C) (p : Exc C V → Bool) : Exc C V → Bool
  | .mk address cls slots exceptions =>
    p (.mk address cls slots exceptions) ||
      (isGroup classes (Exc.mk address cls slots exceptions) && reachesAny classes p exceptions)

def reachesAny (classes : Classes C) (p : Exc C V → Bool) : List (Exc C V) → Bool
  | [] => false
  | x::xs => reaches classes p x || reachesAny classes p xs
end

theorem reaches_leaf {p : Exc C V → Bool} {x : Exc C V} (h : isGroup classes x = false) :
    reaches classes p x = p x := by
  obtain ⟨address, cls, slots, exceptions⟩ := x
  rw [reaches, h, Bool.false_and, Bool.or_false]

variable (hg : HasGroups classes) {matcher : EgMatcher C V E σ} {p : Exc C V → Bool}
variable (hp : ∀ x s, ∃ s', egMatches classes matcher x s = .ok (p x, s'))

include hp in
theorem egSplitItems_reaches (items : List (Exc C V))
    (ih : ∀ x ∈ items, isGroup classes x = true → ∀ s, ∃ m r s',
      egSplit classes fresh matcher x s = .ok ((m, r), s') ∧ m.isSome = reaches classes p x)
    (s : σ) :
    ∃ ms rs s', egSplitItems classes fresh matcher items s = .ok ((ms, rs), s') ∧
      (ms ≠ [] ↔ reachesAny classes p items = true) := by
  induction items generalizing s with
  | nil => exact ⟨[], [], s, rfl, by simp [reachesAny]⟩
  | cons exc items ihs =>
    obtain ⟨m, r, s₁, heq, hm⟩ : ∃ m r s', (if isGroup classes exc then
        egSplit classes fresh matcher exc s else splitLeaf classes matcher exc s) =
          .ok ((m, r), s') ∧ m.isSome = reaches classes p exc := by
      cases hgroup : isGroup classes exc with
      | true => exact ih exc List.mem_cons_self hgroup s
      | false =>
        obtain ⟨s', hb⟩ := hp exc s
        refine ⟨if p exc then some exc else none, if p exc then none else some exc, s', ?_, ?_⟩
        · rw [if_neg Bool.false_ne_true, splitLeaf, hb]
          cases p exc <;> rfl
        · rw [reaches_leaf hgroup]
          cases p exc <;> rfl
    obtain ⟨ms, rs, s₂, heqs, hms⟩ := ihs (fun x hx => ih x (List.mem_cons_of_mem _ hx)) s₁
    refine ⟨m.toList ++ ms, r.toList ++ rs, s₂, ?_, ?_⟩
    · rw [egSplitItems, heq]
      show (egSplitItems classes fresh matcher items s₁ >>= _) = _
      rw [heqs]
      rfl
    · rw [reachesAny, Bool.or_eq_true, ← hm, ← hms]
      cases m <;> simp

include hg hp in
/-- A part matches exactly when the predicate is satisfied somewhere in the group. -/
theorem egSplit_reaches (x : Exc C V) (hx : isGroup classes x = true) (s : σ) :
    ∃ m r s', egSplit classes fresh matcher x s = .ok ((m, r), s') ∧
      m.isSome = reaches classes p x := by
  induction x using Exc.ind generalizing s with
  | mk address cls slots exceptions ih =>
    obtain ⟨s₁, hb⟩ := hp (.mk address cls slots exceptions) s
    rw [reaches, hx, Bool.true_and]
    cases hpx : p (.mk address cls slots exceptions) with
    | true =>
      rw [hpx] at hb
      exact ⟨_, none, s₁, egSplit_whole hb, rfl⟩
    | false =>
      rw [hpx] at hb
      obtain ⟨ms, rs, s₂, heq, hms⟩ := egSplitItems_reaches hp exceptions ih s₁
      obtain ⟨m, s₃, hm, -, -, hsome⟩ :=
        @derivePart_spec _ _ E _ _ fresh hg (.mk address cls slots exceptions) ms s₂
      obtain ⟨r, s₄, hr, -⟩ :=
        @derivePart_spec _ _ E _ _ fresh hg (.mk address cls slots exceptions) rs s₃
      refine ⟨m, r, s₄, egSplit_parts hb heq hm hr, ?_⟩
      rw [Bool.false_or, Bool.eq_iff_iff, hsome, hms]

end reach

end Pyrust.ExceptionGroups
