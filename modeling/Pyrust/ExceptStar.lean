import Mathlib.Data.List.ReduceOption
import Pyrust.ExceptionGroups

/-!
# Handlers of exception groups

The clauses of an `except*` statement are tried one after the other. Each that matches
takes a part of the group, and the rest goes to the next; what is left at the end is
raised again when it is true as a truth value.
-/

set_option autoImplicit false

namespace Pyrust.ExceptStar

open PartitionedTrees ExceptionGroups

/-! ## The statement -/

section model
variable {C V E σ : Type} (classes : Classes C)

/-- The classes of a catch type. -/
def catchClasses : CatchType C → Except (PyError E) (List C)
  | .cls c => .ok [c]
  | .tuple items =>
    if items.all Option.isSome then .ok items.reduceOption else .error notInheriting
  | .other => .error notInheriting

def validateExceptStarType (kind : CatchType C) : Except (PyError E) Unit := do
  let caught ← catchClasses kind
  if caught.all classes.isExceptionClass then
    if caught.any fun c => classes.chainContains c "BaseExceptionGroup" then
      .error (.typeError "catching ExceptionGroup with except* is not allowed. Use except instead.")
    else .ok ()
  else .error notInheriting

variable (fresh : σ → ℕ × σ) (emptyMessage : V)

/-- The exception itself when it is a group, else a group with nothing else in it. -/
def wrapped (exc : Exc C V) (s : σ) : Option (Exc C V) × σ :=
  if isGroup classes exc then (some exc, s)
  else
    let wrapClsName := if classes.chainContains exc.cls "Exception" then "ExceptionGroup"
      else "BaseExceptionGroup"
    match classes.lookupExcClass wrapClsName with
    | some cls => (some (.mk (fresh s).1 cls { message := emptyMessage } [exc]), (fresh s).2)
    | none => (none, s)

/-- The register of the group holds `None` when nothing is left. -/
def splitExceptionGroup (groupIn : Option (Exc C V)) (kind : CatchType C) (s : σ) :
    Except (PyError E) (Option (Exc C V × Option (Exc C V)) × σ) := do
  validateExceptStarType classes kind
  match groupIn with
  | none => pure (none, s)
  | some exc =>
    match wrapped classes fresh emptyMessage exc s with
    | (none, s) => pure (none, s)
    | (some group, s) =>
      if isGroup classes group then do
        let ((matched, remaining), s) ← egSplit classes fresh (.type kind) group s
        match matched with
        | some matchedGroup => pure (some (matchedGroup, remaining), s)
        | none => pure (none, s)
      else pure (none, s)

/-- A clause: its type, and what its body does when it ends normally. -/
structure Handler (C σ : Type) where
  kind : CatchType C
  body : σ → σ

/-- The clauses from `MatchExceptStar` on: what each gets, and what is left. -/
def runHandlers : List (Handler C σ) → Option (Exc C V) → σ →
    Except (PyError E) ((List (Option (Exc C V)) × Option (Exc C V)) × σ)
  | [], groupReg, s => pure (([], groupReg), s)
  | handler::handlers, groupReg, s => do
    let (result, s) ← splitExceptionGroup classes fresh emptyMessage groupReg handler.kind s
    match result with
    | none => do
      let ((delivered, left), s) ← runHandlers handlers groupReg s
      pure ((none::delivered, left), s)
    | some (matchedGroup, remaining) => do
      let ((delivered, left), s) ← runHandlers handlers remaining (handler.body s)
      pure ((some matchedGroup::delivered, left), s)

/-- `JumpIfFalse` on the register of the group. -/
def isTrue (truthy : Exc C V → Except (PyError E) Bool) :
    Option (Exc C V) → Except (PyError E) Bool
  | none => .ok false
  | some exc => truthy exc

/-- The exception path of the statement: what each clause gets, and what is raised again. -/
def tryStar (truthy : Exc C V → Except (PyError E) Bool) (handlers : List (Handler C σ))
    (raised : Exc C V) (s : σ) :
    Except (PyError E) ((List (Option (Exc C V)) × Option (Exc C V)) × σ) := do
  let ((delivered, left), s) ← runHandlers classes fresh emptyMessage handlers (some raised) s
  if ← isTrue truthy left then pure ((delivered, left), s)
  else pure ((delivered, none), s)

end model

/-! ## Who gets which exception -/

section owners
variable {L : Type}

/-- The leaves that an owner has. -/
def ownedBy (owner : Option ℕ) (x : L × Option ℕ) : Option L :=
  if x.2 = owner then some x.1 else none

/-- Leaves marked for the first owner, and the others given to owners that come later. -/
theorem merge_owners (marks : List (L × Bool)) (owners : List (L × Option ℕ))
    (h : owners.map Prod.fst = marks.filterMap (kept false)) :
    ∃ merged : List (L × Option ℕ), merged.map Prod.fst = marks.map Prod.fst ∧
      merged.filterMap (ownedBy (some 0)) = marks.filterMap (kept true) ∧
      (∀ i, merged.filterMap (ownedBy (some (i+1))) = owners.filterMap (ownedBy (some i))) ∧
      merged.filterMap (ownedBy none) = owners.filterMap (ownedBy none) := by
  induction marks generalizing owners with
  | nil =>
    obtain rfl := List.map_eq_nil_iff.mp h
    exact ⟨[], rfl, rfl, fun i => rfl, rfl⟩
  | cons mark marks ih =>
    obtain ⟨l, b⟩ := mark
    cases b with
    | true =>
      obtain ⟨merged, hfst, hzero, hsucc, hnone⟩ := ih owners (by simpa [kept] using h)
      refine ⟨(l, some 0)::merged, by simp [hfst], by simp [ownedBy, kept, hzero],
        fun i => by simp [ownedBy, ← hsucc], by simp [ownedBy, ← hnone]⟩
    | false =>
      have hhead : (l, false)::marks = [(l, false)] ++ marks := rfl
      rw [hhead, List.filterMap_append] at h
      obtain ⟨⟨l', o⟩, owners, rfl⟩ : ∃ x xs, owners = x::xs := by
        cases owners with
        | nil => simp [kept] at h
        | cons x xs => exact ⟨x, xs, rfl⟩
      obtain ⟨rfl, hrest⟩ : l' = l ∧ owners.map Prod.fst = marks.filterMap (kept false) := by
        simpa [kept] using h
      obtain ⟨merged, hfst, hzero, hsucc, hnone⟩ := ih owners hrest
      refine ⟨(l', o.map (·+1))::merged, by simp [hfst], ?_, fun i => ?_, ?_⟩
      · cases o <;> simp [ownedBy, kept, hzero]
      · cases o <;> simp [ownedBy, ← hsucc, List.filterMap_cons]
      · cases o <;> simp [ownedBy, ← hnone]

end owners

/-! ## One clause -/

section clause
variable {C V E σ : Type} {classes : Classes C} {fresh : σ → ℕ × σ} {emptyMessage : V}
variable {kind : CatchType C} {exc : Exc C V}

theorem ok_bind {α β : Type} (a : α) (f : α → Except (PyError E) β) :
    ((Except.ok a : Except (PyError E) α) >>= f) = f a := rfl

/-- A class is caught by a type. -/
def matchesKind (classes : Classes C) (cls : C) : CatchType C → Bool
  | .cls expected => classes.isSubclass cls expected
  | .tuple items => items.any fun item => item.any (classes.isSubclass cls)
  | .other => false

def wrapCls (classes : Classes C) (exc : Exc C V) : Option C :=
  classes.lookupExcClass (if classes.chainContains exc.cls "Exception" then "ExceptionGroup"
    else "BaseExceptionGroup")

/-- The type of a clause catches the exception, its group, or something in it. -/
def catches (classes : Classes C) (kind : CatchType C) (exc : Exc C V) : Bool :=
  if isGroup classes exc then reaches classes (fun x => matchesKind classes x.cls kind) exc
  else (wrapCls classes exc).any (fun cls => matchesKind classes cls kind) ||
    matchesKind classes exc.cls kind

/-- The leaves of an exception that may be absent. -/
def leavesOf (classes : Classes C) (exc : Option (Exc C V)) : List (Exc C V) :=
  partLeaves (exc.map (skeleton classes))

theorem matchItems_valid {cls : C} {items : List (Option C)} (b : Bool)
    (h : ∀ item ∈ items, ∃ c, item = some c ∧ classes.isExceptionClass c = true) :
    items.foldlM (matchItem (E := E) classes cls) b =
      .ok (b || items.any fun item => item.any (classes.isSubclass cls)) := by
  induction items generalizing b with
  | nil => simp; rfl
  | cons item items ih =>
    obtain ⟨c, rfl, hc⟩ := h item List.mem_cons_self
    rw [List.foldlM_cons, matchItem, hc]
    show items.foldlM (matchItem (E := E) classes cls) (b || classes.isSubclass cls c) = _
    rw [ih _ fun item hitem => h item (List.mem_cons_of_mem _ hitem), List.any_cons, Bool.or_assoc]
    rfl

theorem valid_classes (h : validateExceptStarType (E := E) classes kind = .ok ()) :
    ∃ caught, catchClasses (E := E) kind = .ok caught ∧
      ∀ c ∈ caught, classes.isExceptionClass c = true := by
  cases hcaught : catchClasses (E := E) kind with
  | error e =>
    rw [validateExceptStarType, hcaught] at h
    cases h
  | ok caught =>
    refine ⟨caught, rfl, List.all_eq_true.mp ?_⟩
    by_contra hall
    rw [validateExceptStarType, hcaught, ok_bind, if_neg hall] at h
    cases h

/-- With a type that has been checked, matching is a test of the class. -/
theorem exceptionMatches_valid (h : validateExceptStarType (E := E) classes kind = .ok ()) :
    exceptionMatches (E := E) classes exc kind = .ok (matchesKind classes exc.cls kind) := by
  obtain ⟨caught, hcaught, hall⟩ := valid_classes h
  cases kind with
  | cls c =>
    obtain rfl := Except.ok.inj hcaught
    rw [exceptionMatches, hall c (List.mem_singleton_self c)]
    rfl
  | tuple items =>
    rw [catchClasses] at hcaught
    split at hcaught
    · rename_i hsome
      obtain rfl := Except.ok.inj hcaught
      rw [exceptionMatches, matchItems_valid _ fun item hitem => ?_, Bool.false_or]
      · rfl
      · obtain ⟨c, rfl⟩ := Option.isSome_iff_exists.mp (List.all_eq_true.mp hsome item hitem)
        exact ⟨c, rfl, hall c (List.reduceOption_mem_iff.mpr hitem)⟩
    · cases hcaught
  | other => cases hcaught

variable (hg : HasGroups classes)
include hg

/-- The group that is split has the leaves of the exception. -/
theorem wrapped_spec (hfull : (skeleton classes exc).Full) (s : σ) :
    ∃ group s', wrapped classes fresh emptyMessage exc s = (some group, s') ∧
      isGroup classes group = true ∧ (skeleton classes group).Full ∧
      (skeleton classes group).leaves = (skeleton classes exc).leaves ∧
      reaches classes (fun x => matchesKind classes x.cls kind) group =
        catches classes kind exc := by
  rw [wrapped, catches]
  cases hgroup : isGroup classes exc with
  | true => exact ⟨exc, s, rfl, hgroup, hfull, rfl, rfl⟩
  | false =>
    obtain ⟨name, cls, hname, hlookup, hwrap⟩ : ∃ name cls,
        (name = "ExceptionGroup" ∨ name = "BaseExceptionGroup") ∧
        classes.lookupExcClass name = some cls ∧
        (if classes.chainContains exc.cls "Exception" then "ExceptionGroup"
          else "BaseExceptionGroup") = name := by
      obtain ⟨base, hbase⟩ := hg.base
      obtain ⟨derived, hderived⟩ := hg.derived
      split
      · exact ⟨_, derived, .inl rfl, hderived, rfl⟩
      · exact ⟨_, base, .inr rfl, hbase, rfl⟩
    have hcls := hg.group name cls hname hlookup
    have hisgroup : isGroup classes (Exc.mk (fresh s).1 cls { message := emptyMessage } [exc]) =
        true := hcls
    have hskeleton : skeleton classes (Exc.mk (fresh s).1 cls { message := emptyMessage } [exc]) =
        .node emptyMessage [.leaf exc] := by
      rw [skeleton_group hisgroup]
      simp [Exc.slots, Exc.exceptions, skeleton_leaf hgroup]
    refine ⟨.mk (fresh s).1 cls { message := emptyMessage } [exc], (fresh s).2, ?_, hcls,
      ?_, ?_, ?_⟩
    · simp only [Bool.false_eq_true, if_false, hwrap, hlookup]
    · rw [hskeleton]
      exact ⟨List.cons_ne_nil _ _, trivial, trivial⟩
    · rw [hskeleton, skeleton_leaf hgroup]
      rfl
    · rw [reaches, hisgroup, Bool.true_and, reachesAny, reachesAny, Bool.or_false,
        reaches_leaf hgroup, wrapCls, hwrap, hlookup]
      rfl

/-- One clause: nothing in the exception is caught, or each leaf is taken by the clause or left. -/
theorem splitExceptionGroup_spec (hvalid : validateExceptStarType (E := E) classes kind = .ok ())
    (hfull : (skeleton classes exc).Full) (s : σ) :
    (∃ s', splitExceptionGroup (E := E) classes fresh emptyMessage (some exc) kind s =
        .ok (none, s') ∧ catches classes kind exc = false) ∨
      ∃ m r s', splitExceptionGroup (E := E) classes fresh emptyMessage (some exc) kind s =
          .ok (some (m, r), s') ∧ catches classes kind exc = true ∧
        (∀ x ∈ r, Derived classes x ∧ (skeleton classes x).Full) ∧
        ∃ marks : List (Exc C V × Bool), marks.map Prod.fst = leavesOf classes (some exc) ∧
          leavesOf classes (some m) = marks.filterMap (kept true) ∧
          leavesOf classes r = marks.filterMap (kept false) := by
  obtain ⟨group, s₁, hwrapped, hgroup, hgfull, hleaves, hreach⟩ :=
    @wrapped_spec _ _ _ _ fresh emptyMessage kind _ hg hfull s
  have hmatch : ∀ x s, ∃ s', egMatches (E := E) (σ := σ) classes (.type kind) x s =
      .ok (matchesKind classes (Exc.cls (V := V) x) kind, s') := fun x s =>
    ⟨s, by rw [egMatches, exceptionMatches_valid hvalid]; rfl⟩
  obtain ⟨m, r, s₂, heq, hsome⟩ := @egSplit_reaches _ _ _ _ _ fresh hg _ _ hmatch group hgroup s₁
  obtain ⟨m', r', s₂', heq', hsplit, hder⟩ :=
    @egSplit_spec _ _ _ _ _ fresh hg _ (fun x s => ⟨_, hmatch x s⟩) group hgroup hgfull s₁
  obtain ⟨⟨rfl, rfl⟩, rfl⟩ : (m' = m ∧ r' = r) ∧ s₂' = s₂ := by
    simpa using Except.ok.inj (heq'.symm.trans heq)
  rw [splitExceptionGroup, hvalid]
  simp only [ok_bind, hwrapped, hgroup, if_true, heq]
  rw [hreach] at hsome
  cases m' with
  | none => exact .inl ⟨s₂', rfl, hsome.symm⟩
  | some m =>
    obtain ⟨marks, hfst, htrue, hfalse⟩ := hsplit.leaves
    refine .inr ⟨m, r', s₂', rfl, hsome.symm, fun x hx => ⟨hder x hx, ?_⟩, marks, ?_, htrue, hfalse⟩
    · exact hsplit.full.2 _ (Option.mem_map_of_mem _ hx)
    · rw [hfst, hleaves]
      rfl

end clause

/-! ## All clauses -/

section statement
variable {C V E σ : Type} {classes : Classes C} {fresh : σ → ℕ × σ} {emptyMessage : V}

/-- Each leaf has one owner, a clause by its number or the exception that is raised again, and each
owner gets its leaves in the order they had. -/
def DeliversOnce (classes : Classes C) (raised : Option (Exc C V))
    (delivered : List (Option (Exc C V))) (reraised : Option (Exc C V)) : Prop :=
  ∃ owners : List (Exc C V × Option ℕ), owners.map Prod.fst = leavesOf classes raised ∧
    (∀ i, leavesOf classes delivered[i]?.join = owners.filterMap (ownedBy (some i))) ∧
    leavesOf classes reraised = owners.filterMap (ownedBy none)

theorem DeliversOnce.cons {reg rest m left : Option (Exc C V)} {delivered : List (Option (Exc C V))}
    (h : DeliversOnce classes rest delivered left) (marks : List (Exc C V × Bool))
    (hfst : marks.map Prod.fst = leavesOf classes reg)
    (htrue : leavesOf classes m = marks.filterMap (kept true))
    (hfalse : leavesOf classes rest = marks.filterMap (kept false)) :
    DeliversOnce classes reg (m::delivered) left := by
  obtain ⟨owners, hown, hsome, hnone⟩ := h
  obtain ⟨merged, hmfst, hzero, hsucc, hmnone⟩ := merge_owners marks owners (hown.trans hfalse)
  refine ⟨merged, hmfst.trans hfst, fun i => ?_, hnone.trans hmnone.symm⟩
  cases i with
  | zero => exact htrue.trans hzero.symm
  | succ i => exact (hsome i).trans (hsucc i).symm

/-- Either nothing was caught and the exception is still there, or what is left, if anything, is a
derived group. -/
def Narrowed (classes : Classes C) (handlers : List (Handler C σ)) (reg : Option (Exc C V))
    (delivered : List (Option (Exc C V))) (left : Option (Exc C V)) : Prop :=
  (left = reg ∧ (∀ i : ℕ, leavesOf classes delivered[i]?.join = []) ∧
      ∀ h ∈ handlers, ∀ x ∈ reg, catches classes h.kind x = false) ∨
    (∃ h ∈ handlers, ∃ x ∈ reg, catches classes h.kind x = true) ∧ ∀ x ∈ left, Derived classes x

/-- A clause that takes nothing. -/
theorem Narrowed.pass {handler : Handler C σ} {handlers : List (Handler C σ)}
    {reg left : Option (Exc C V)} {delivered : List (Option (Exc C V))}
    (h : Narrowed classes handlers reg delivered left)
    (hnone : ∀ x ∈ reg, catches classes handler.kind x = false) :
    Narrowed classes (handler::handlers) reg (none::delivered) left := by
  rcases h with ⟨rfl, hempty, hall⟩ | ⟨⟨h, hh, hx⟩, hder⟩
  · refine .inl ⟨rfl, fun i => ?_, fun h hh => ?_⟩
    · cases i with
      | zero => rfl
      | succ i => exact hempty i
    · rcases List.mem_cons.mp hh with rfl | hh
      · exact hnone
      · exact hall h hh
  · exact .inr ⟨⟨h, List.mem_cons_of_mem _ hh, hx⟩, hder⟩

/-- A clause that takes a part. -/
theorem Narrowed.take {handler : Handler C σ} {handlers : List (Handler C σ)}
    {rest m left : Option (Exc C V)} {exc : Exc C V} {delivered : List (Option (Exc C V))}
    (h : Narrowed classes handlers rest delivered left)
    (hcatch : catches classes handler.kind exc = true) (hrest : ∀ x ∈ rest, Derived classes x) :
    Narrowed classes (handler::handlers) (some exc) (m::delivered) left := by
  refine .inr ⟨⟨handler, List.mem_cons_self, exc, rfl, hcatch⟩, ?_⟩
  rcases h with ⟨rfl, -, -⟩ | ⟨-, hder⟩
  · exact hrest
  · exact hder

variable (hg : HasGroups classes)
include hg

/-- The clauses take each leaf once or leave it. -/
theorem runHandlers_spec (handlers : List (Handler C σ))
    (hvalid : ∀ h ∈ handlers, validateExceptStarType (E := E) classes h.kind = .ok ())
    (reg : Option (Exc C V)) (hfull : ∀ x ∈ reg, (skeleton classes x).Full) (s : σ) :
    ∃ (delivered : List (Option (Exc C V))) (left : Option (Exc C V)) (s' : σ),
      runHandlers (E := E) classes fresh emptyMessage handlers reg s =
        .ok ((delivered, left), s') ∧ DeliversOnce classes reg delivered left ∧
      Narrowed classes handlers reg delivered left := by
  induction handlers generalizing reg s with
  | nil =>
    refine ⟨[], reg, s, rfl, ⟨(leavesOf classes reg).map fun x => (x, none), ?_, fun i => ?_, ?_⟩,
      .inl ⟨rfl, fun i => rfl, fun h hh => by cases hh⟩⟩
    · simp [Function.comp_def]
    · simp [ownedBy, leavesOf, partLeaves, List.filterMap_map]
    · simp [ownedBy, List.filterMap_map, Function.comp_def]
  | cons handler handlers ih =>
    have hhead := hvalid handler List.mem_cons_self
    have htail : ∀ h ∈ handlers, validateExceptStarType (E := E) classes h.kind = .ok () :=
      fun h hh => hvalid h (List.mem_cons_of_mem _ hh)
    -- a clause that takes nothing marks every leaf for those after it
    have hpass : ∀ s₁, splitExceptionGroup (E := E) classes fresh emptyMessage reg handler.kind s =
        .ok (none, s₁) → (∀ x ∈ reg, catches classes handler.kind x = false) →
        ∃ (delivered : List (Option (Exc C V))) (left : Option (Exc C V)) (s' : σ),
          runHandlers (E := E) classes fresh emptyMessage (handler::handlers) reg s =
            .ok ((delivered, left), s') ∧ DeliversOnce classes reg delivered left ∧
          Narrowed classes (handler::handlers) reg delivered left := by
      intro s₁ hsplit hnone
      obtain ⟨delivered, left, s', heq, honce, hleft⟩ := ih htail reg hfull s₁
      refine ⟨none::delivered, left, s', ?_, honce.cons ((leavesOf classes reg).map (·, false))
        ?_ ?_ ?_, hleft.pass hnone⟩
      · rw [runHandlers, hsplit]
        simp only [ok_bind, heq]
        rfl
      · simp [Function.comp_def]
      · simp [kept, leavesOf, partLeaves, List.filterMap_map]
      · simp [kept, List.filterMap_map, Function.comp_def]
    cases reg with
    | none =>
      refine hpass s ?_ fun x hx => by cases hx
      rw [splitExceptionGroup, hhead]
      rfl
    | some exc =>
      rcases @splitExceptionGroup_spec _ _ _ _ _ fresh emptyMessage _ _ hg hhead (hfull exc rfl) s
        with ⟨s₁, hsplit, hnone⟩ | ⟨m, r, s₁, hsplit, hcatch, hder, marks,
          hfst, htrue, hfalse⟩
      · refine hpass s₁ hsplit fun x hx => ?_
        obtain rfl := Option.some.inj hx
        exact hnone
      · obtain ⟨delivered, left, s', heq, honce, hleft⟩ :=
          ih htail r (fun x hx => (hder x hx).2) (handler.body s₁)
        refine ⟨some m::delivered, left, s', ?_, honce.cons marks hfst htrue hfalse,
          hleft.take hcatch fun x hx => (hder x hx).1⟩
        rw [runHandlers, hsplit]
        simp only [ok_bind, heq]
        rfl

variable {truthy : Exc C V → Except (PyError E) Bool}

omit hg in
/-- An exception that no clause caught cannot be dropped. -/
theorem not_deliversOnce_none {raised : Exc C V} {delivered : List (Option (Exc C V))}
    (hfull : (skeleton classes raised).Full)
    (hempty : ∀ i : ℕ, leavesOf classes delivered[i]?.join = []) :
    ¬ DeliversOnce classes (some raised) delivered none := by
  rintro ⟨owners, hfst, hsome, hnone⟩
  cases owners with
  | nil => exact hfull.leaves_ne_nil hfst.symm
  | cons owner owners =>
    obtain ⟨x, owner⟩ := owner
    cases owner with
    | none => simp [ownedBy, leavesOf, partLeaves] at hnone
    | some i =>
      have hi := (hempty i).symm.trans (hsome i)
      simp [ownedBy] at hi

/-- Nothing is lost exactly when a clause catches something or the exception is true. -/
theorem tryStar_spec (htrue : ∀ x, Derived classes x → truthy x = .ok true)
    (handlers : List (Handler C σ))
    (hvalid : ∀ h ∈ handlers, validateExceptStarType (E := E) classes h.kind = .ok ())
    (raised : Exc C V) (hfull : (skeleton classes raised).Full) (s : σ) :
    (∃ (delivered : List (Option (Exc C V))) (reraised : Option (Exc C V)) (s' : σ),
      tryStar (E := E) classes fresh emptyMessage truthy handlers raised s =
        .ok ((delivered, reraised), s') ∧
        DeliversOnce classes (some raised) delivered reraised) ↔
      (∃ h ∈ handlers, catches classes h.kind raised = true) ∨ truthy raised = .ok true := by
  obtain ⟨delivered, left, s', heq, honce, hleft⟩ :=
    @runHandlers_spec _ _ _ _ _ fresh emptyMessage hg handlers hvalid (some raised)
      (fun x hx => Option.some.inj hx ▸ hfull) s
  simp only [tryStar, heq, ok_bind]
  rcases hleft with ⟨rfl, hempty, hall⟩ | ⟨⟨h, hh, x, hx, hcatch⟩, hder⟩
  · have hnone : ¬ ∃ h ∈ handlers, catches classes h.kind raised = true := by
      rintro ⟨h, hh, hcatch⟩
      exact Bool.false_ne_true ((hall h hh raised rfl).symm.trans hcatch)
    rw [or_iff_right hnone, isTrue]
    cases htruthy : truthy raised with
    | error e =>
      refine iff_of_false ?_ (by simp)
      rintro ⟨d, r, s'', h, -⟩
      cases h
    | ok b =>
      cases b with
      | true => exact iff_of_true ⟨delivered, some raised, s', rfl, honce⟩ rfl
      | false =>
        refine iff_of_false ?_ (by simp)
        rintro ⟨d, r, s'', h, hd⟩
        obtain ⟨⟨rfl, rfl⟩, -⟩ : (delivered = d ∧ none = r) ∧ s' = s'' := by
          simpa using Except.ok.inj h
        exact not_deliversOnce_none hfull hempty hd
  · obtain rfl := Option.some.inj hx
    refine iff_of_true ?_ (.inl ⟨h, hh, hcatch⟩)
    cases left with
    | none => exact ⟨delivered, none, s', rfl, honce⟩
    | some y =>
      refine ⟨delivered, some y, s', ?_, honce⟩
      rw [isTrue, htrue y (hder y rfl)]
      rfl

end statement

/-! ## Splitting and handling -/

section main
variable {C V E σ : Type} {classes : Classes C} {fresh : σ → ℕ × σ} {emptyMessage : V}

/-- The answers of `split` and `subgroup` are the two sides of one marking of the leaves. -/
def AnswersSplit (classes : Classes C) (fresh : σ → ℕ × σ) (condition : Condition C V E σ)
    (matcher : EgMatcher C V E σ) (group : Exc C V) (s : σ) : Prop :=
  ∃ (m r : Option (Exc C V)) (s' : σ) (marked : Tree V (Exc C V × Bool)),
    exceptionGroupSubgroupOrSplit classes fresh group [condition] true s =
        .ok (.pair m r, s') ∧
      exceptionGroupSubgroupOrSplit classes fresh group [condition] false s =
        .ok (.single m, s') ∧
      marked.map Prod.fst = skeleton classes group ∧
      m.map (skeleton classes) = marked.prune (kept true) ∧
      r.map (skeleton classes) = marked.prune (kept false) ∧
      (m = none ↔ marked.leaves.filterMap (kept true) = []) ∧
      (r = none ↔ marked.leaves.filterMap (kept false) = []) ∧
      ∀ s₁, egMatches classes matcher group s = .ok (true, s₁) → m = some group ∧ r = none

theorem answersSplit (hg : HasGroups classes) {condition : Condition C V E σ}
    {matcher : EgMatcher C V E σ} (hcond : classifyEgCondition classes condition = .ok matcher)
    (ht : Total classes matcher) (group : Exc C V) (hgroup : isGroup classes group = true)
    (hfull : (skeleton classes group).Full) (s : σ) :
    AnswersSplit classes fresh condition matcher group s := by
  obtain ⟨m, r, s', heq, ⟨marked, hfst, hm, hr⟩, -⟩ :=
    @egSplit_spec _ _ _ _ _ fresh hg _ ht group hgroup hfull s
  have hanswer : ∀ wantSplit, exceptionGroupSubgroupOrSplit classes fresh group [condition]
      wantSplit s = .ok (if wantSplit then .pair m r else .single m, s') := by
    intro wantSplit
    rw [exceptionGroupSubgroupOrSplit, hcond]
    simp only [ok_bind, heq]
    cases wantSplit <;> rfl
  refine ⟨m, r, s', marked, hanswer true, hanswer false, hfst, hm.symm, hr.symm, ?_, ?_,
    fun s₁ hwhole => ?_⟩
  · rw [← prune_eq_none, hm, Option.map_eq_none_iff]
  · rw [← prune_eq_none, hr, Option.map_eq_none_iff]
  · rw [egSplit_whole hwhole] at heq
    obtain ⟨⟨rfl, rfl⟩, -⟩ : (some group = m ∧ none = r) ∧ s₁ = s' := by
      simpa using Except.ok.inj heq
    exact ⟨rfl, rfl⟩

/-- A group is split by its leaves, whole where it matches as a whole. The clauses of a statement
and the exception that is raised again share out the leaves exactly when a clause catches something
or the exception is true as a truth value. -/
theorem exceptionGroups_partition_iff (hg : HasGroups classes)
    {condition : Condition C V E σ} {matcher : EgMatcher C V E σ}
    (hcond : classifyEgCondition classes condition = .ok matcher) (ht : Total classes matcher)
    (group : Exc C V) (hgroup : isGroup classes group = true)
    (hgfull : (skeleton classes group).Full)
    {truthy : Exc C V → Except (PyError E) Bool}
    (htrue : ∀ x, Derived classes x → truthy x = .ok true) (handlers : List (Handler C σ))
    (hvalid : ∀ h ∈ handlers, validateExceptStarType (E := E) classes h.kind = .ok ())
    (raised : Exc C V) (hfull : (skeleton classes raised).Full) (s : σ) :
    (AnswersSplit classes fresh condition matcher group s ∧
      (∀ nested s s₁, egMatches classes matcher nested s = .ok (true, s₁) →
        egSplit classes fresh matcher nested s = .ok ((some nested, none), s₁)) ∧
      ∃ (delivered : List (Option (Exc C V))) (reraised : Option (Exc C V)) (s' : σ),
        tryStar (E := E) classes fresh emptyMessage truthy handlers raised s =
          .ok ((delivered, reraised), s') ∧
          DeliversOnce classes (some raised) delivered reraised) ↔
      (∃ h ∈ handlers, catches classes h.kind raised = true) ∨ truthy raised = .ok true := by
  rw [← @tryStar_spec _ _ _ _ _ fresh emptyMessage hg _ htrue handlers hvalid raised hfull s]
  constructor
  · rintro ⟨-, -, h⟩
    exact h
  · intro h
    exact ⟨answersSplit hg hcond ht group hgroup hgfull s,
      fun nested s s₁ hwhole => egSplit_whole hwhole, h⟩

/-- Classes by their names; each class is below `Exception`. -/
def namedClasses : Classes String where
  isSubclass cls expected := cls == expected || expected == "Exception"
  isExceptionClass _ := true
  chainContains cls name := cls == name || name == "Exception" ||
    cls == "ExceptionGroup" && name == "BaseExceptionGroup"
  lookupExcClass name := some name

theorem namedClasses_hasGroups : HasGroups namedClasses where
  base := ⟨_, rfl⟩
  derived := ⟨_, rfl⟩
  group name k hname hlookup := by
    obtain rfl := Option.some.inj hlookup
    rcases hname with rfl | rfl <;> decide

/-- The truth value of an instance of a class `E` whose `__bool__` answers `False`. -/
def falseOfE (x : Exc String Unit) : Except (PyError Unit) Bool := .ok (x.cls != "E")

theorem falseOfE_derived (x : Exc String Unit) (h : Derived namedClasses x) :
    falseOfE x = .ok true := by
  obtain ⟨name, hname, hlookup⟩ := h
  refine congrArg Except.ok ?_
  rw [← Option.some.inj hlookup]
  rcases hname with rfl | rfl <;> decide

/-- A false exception that no clause catches is not raised again. -/
theorem tryStar_loses :
    HasGroups namedClasses ∧ (∀ x, Derived namedClasses x → falseOfE x = .ok true) ∧
      validateExceptStarType (E := Unit) namedClasses (.cls "ValueError") = .ok () ∧
      ¬ ∃ (delivered : List (Option (Exc String Unit))) (reraised : Option (Exc String Unit))
          (s' : ℕ),
        tryStar (E := Unit) namedClasses (fun s => (s, s+1)) () falseOfE
            [⟨.cls "ValueError", id⟩] (.mk 0 "E" { message := () } []) 1 =
          .ok ((delivered, reraised), s') ∧
          DeliversOnce namedClasses (some (.mk 0 "E" { message := () } [])) delivered reraised := by
  refine ⟨namedClasses_hasGroups, falseOfE_derived, rfl, ?_⟩
  rintro ⟨delivered, reraised, s', heq, honce⟩
  have hrun : tryStar (E := Unit) namedClasses (fun s => (s, s+1)) () falseOfE
      [⟨.cls "ValueError", id⟩] (.mk 0 "E" { message := () } []) 1 = .ok (([none], none), 3) := rfl
  obtain ⟨⟨rfl, rfl⟩, -⟩ : ([none] = delivered ∧ none = reraised) ∧ 3 = s' := by
    simpa using Except.ok.inj (hrun.symm.trans heq)
  refine not_deliversOnce_none ?_ (fun i => ?_) honce
  · trivial
  · cases i <;> rfl

theorem exceptionGroups_partition_iff_pair :
    (AnswersSplit namedClasses (fun s : ℕ => (s, s+1)) (.cls "KeyError")
        (.type (.cls "KeyError") : EgMatcher String Unit Unit ℕ)
        (.mk 0 "ExceptionGroup" { message := () }
          [.mk 1 "KeyError" { message := () } [], .mk 2 "E" { message := () } []]) 3 ∧
      (∀ nested s s₁, egMatches namedClasses
          (.type (.cls "KeyError") : EgMatcher String Unit Unit ℕ) nested s = .ok (true, s₁) →
        egSplit (E := Unit) namedClasses (fun s => (s, s+1)) (.type (.cls "KeyError")) nested s =
          .ok ((some nested, none), s₁)) ∧
      ∃ (delivered : List (Option (Exc String Unit))) (reraised : Option (Exc String Unit))
          (s' : ℕ),
        tryStar (E := Unit) namedClasses (fun s => (s, s+1)) () falseOfE
            [⟨.cls "E", id⟩] (.mk 0 "E" { message := () } []) 3 =
          .ok ((delivered, reraised), s') ∧
          DeliversOnce namedClasses (some (.mk 0 "E" { message := () } [])) delivered reraised) ↔
      (∃ h ∈ [(⟨.cls "E", id⟩ : Handler String ℕ)],
          catches namedClasses h.kind (.mk 0 "E" { message := () } [] : Exc String Unit) = true) ∨
        falseOfE (.mk 0 "E" { message := () } []) = .ok true := by
  refine exceptionGroups_partition_iff namedClasses_hasGroups rfl (fun x s => ⟨_, s, rfl⟩) _ ?_ ?_
    falseOfE_derived _ ?_ _ ?_ _
  · rfl
  · exact ⟨List.cons_ne_nil _ _, trivial, trivial, trivial⟩
  · intro h hh
    obtain rfl := List.mem_singleton.mp hh
    rfl
  · trivial

end main

end Pyrust.ExceptStar
