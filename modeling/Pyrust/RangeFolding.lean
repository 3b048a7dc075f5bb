import Mathlib.Algebra.BigOperators.Group.List.Basic
import Mathlib.Data.List.Nodup
import Pyrust.RangeTrace
import Pyrust.RangeValues

/-!
# Closed forms of counting loops

A loop over a traced range whose body only adds constants and the loop variable to
accumulators is replaced by one addition for each accumulator and the final binding
of the variable. The totals are computed in `i128` and kept only if they are
machine words. Running the body once for each value of the range, over unbounded
integers, leaves the registers as the closed form does.
-/

set_option autoImplicit false

namespace Pyrust.RangeFolding

open Bytecode ConstantPool FixedWidth RangeValues RangeTrace

/-- `ClosedForm`, before its pool slots are allocated. -/
structure ClosedForm where
  guard : IntRangeExactGuard
  var : Reg
  varFinal : ℤ
  accDeltas : List (Reg × ℤ)
  deriving DecidableEq, Repr

section fold
variable {Obj : Type} (consts : List (Value Obj)) (reaching : ℕ → Reg → Option ℕ)

/-- What a step contributes over the whole run before the operator's sign is applied. -/
def stepTotal (var : Reg) (trips sum : ℤ) : Insn → Option (Reg × Reg × BinaryOp × ℤ)
  | .binOpImm dst src op imm _ => (checked 128 (imm*trips)).map fun t => (dst, src, op, t)
  | .binOpConst dst src op idx _ =>
    ((consts[idx]?.bind asInt).bind fun k => checked 128 (k*trips)).map fun t =>
      (dst, src, op, t)
  | .binOp dst src op rhs | .binOpInPlace dst src op rhs =>
    if rhs = var then some (dst, src, op, sum) else none
  | _ => none

/-- Only the two operators that make repeated application a sum fold. -/
def signed : BinaryOp → ℤ → Option ℤ
  | .add, total => some total
  | .sub, total => checked 128 (-total)
  | _, _ => none

/-- One instruction of the body. -/
def accumulate (var : Reg) (trips sum : ℤ) (acc : List (Reg × ℤ)) :
    Insn → Option (List (Reg × ℤ))
  | .syncModuleGlobal _ _ => some acc
  | x => do
    let (dst, src, op, total) ← stepTotal consts var trips sum x
    let delta ← signed op total
    if dst ≠ src ∨ dst = var then none
    else upsert dst delta (fun t => checked 128 (t+delta)) acc

def accumulateAll (var : Reg) (trips sum : ℤ) :
    List Insn → List (Reg × ℤ) → Option (List (Reg × ℤ))
  | [], acc => some acc
  | x::xs, acc => (accumulate consts var trips sum acc x).bind (accumulateAll var trips sum xs)

/-- The totals as machine words. -/
def narrow (acc : List (Reg × ℤ)) : Option (List (Reg × ℤ)) :=
  if acc.all fun p => decide (Fits 64 p.2) then some acc else none

/-- The sum of the yielded values, `trips*start + step*trips*(trips-1)/2`. -/
def seriesSum (start step trips : ℤ) : Except Stop ℤ := do
  let base ← orDecline (checked 128 (start*trips))
  let before ← native 128 (trips-1)
  let pairs ← orDecline (checked 128 (trips*before))
  let rise ← orDecline (checked 128 (step*pairs.tdiv 2))
  orDecline (checked 128 (base+rise))

/-- The last value, `i64::try_from(start + (trips-1)*step)`. -/
def lastValue (start step trips : ℤ) : Except Stop ℤ := do
  let before ← native 128 (trips-1)
  let span ← native 128 (before*step)
  let last ← native 128 (start+span)
  orDecline (checked 64 last)

/-- The body of the loop between the header and its back edge. -/
def bodyOf (insns : List Insn) (head back : ℕ) : List Insn := (insns.take back).drop (head+1)

/-- `closed_form_for` from the traced triple on. -/
def foldRange (slot : ℕ) (var : Reg) (body : List Insn) (start stop step : ℤ) :
    Except Stop ClosedForm :=
  if step = 0 then .error .declined
  else do
    let safe ← i64RangeNativeCursorSafe start stop step
    if safe = false then .error .declined
    else
      let trips ← rangeLen start stop step
      if trips = 0 then .error .declined
      else
        let varFinal ← lastValue start step trips
        let sum ← seriesSum start step trips
        let acc ← orDecline (accumulateAll consts var trips sum body [])
        let accDeltas ← orDecline (narrow acc)
        pure ⟨⟨slot, start, stop, step⟩, var, varFinal, accDeltas⟩

/-- `closed_form_for`. -/
def closedFormFor (insns : List Insn) (names : List String) (head back slot : ℕ) :
    Except Stop ClosedForm :=
  match insns[head]? with
  | some (.forIter var _ _) => do
    let (start, stop, step) ←
      orDecline (tracedConstRangeBounds consts reaching insns names head slot)
    foldRange consts slot var (bodyOf insns head back) start stop step
  | _ => .error .declined

/-! ## The loop over unbounded integers -/

/-- Python integer arithmetic, for the operators with an integer result on all integers. -/
def intOp : BinaryOp → ℤ → ℤ → Option ℤ
  | .add, a, b => some (a+b)
  | .sub, a, b => some (a-b)
  | .mul, a, b => some (a*b)
  | _, _, _ => none

/-- A body instruction on registers that hold integers. -/
def execute (regs : Reg → ℤ) : Insn → Option (Reg → ℤ)
  | .syncModuleGlobal _ _ => some regs
  | .binOpImm dst src op imm _ => (intOp op (regs src) imm).map (Function.update regs dst)
  | .binOpConst dst src op idx _ =>
    ((consts[idx]?.bind asInt).bind (intOp op (regs src))).map (Function.update regs dst)
  | .binOp dst src op rhs | .binOpInPlace dst src op rhs =>
    (intOp op (regs src) (regs rhs)).map (Function.update regs dst)
  | _ => none

def runBody : List Insn → (Reg → ℤ) → Option (Reg → ℤ)
  | [], regs => some regs
  | x::xs, regs => (execute consts regs x).bind (runBody xs)

/-- The body once for each value, with the value bound to the loop variable first. -/
def runLoop (var : Reg) (body : List Insn) : List ℤ → (Reg → ℤ) → Option (Reg → ℤ)
  | [], regs => some regs
  | y::ys, regs =>
    (runBody consts body (Function.update regs var y)).bind (runLoop var body ys)

end fold

/-! ## One trip is linear -/

/-- The change recorded for a register. -/
def totalOf (acc : List (Reg × ℤ)) (r : Reg) : ℤ := (acc.lookup r).getD 0

section linear
variable {Obj : Type} {consts : List (Value Obj)}

/-- The instructions add `inc r y` to each register `r` when the loop variable holds `y`, and the
record of changes has grown by the sum over all values. -/
structure Linear (consts : List (Value Obj)) (var : Reg) (ys : List ℤ) (body : List Insn)
    (acc acc' : List (Reg × ℤ)) (inc : Reg → ℤ → ℤ) : Prop where
  run : ∀ regs, runBody consts body regs = some fun r => regs r+inc r (regs var)
  var : ∀ y, inc var y = 0
  total : ∀ r, totalOf acc' r = totalOf acc r+(ys.map (inc r)).sum

theorem Linear.nil (var : Reg) (ys : List ℤ) (acc : List (Reg × ℤ)) :
    Linear consts var ys [] acc acc fun _ _ => 0 where
  run regs := by simp [runBody]
  var _ := rfl
  total r := by simp

theorem Linear.cons {var : Reg} {ys : List ℤ} {x : Insn} {xs : List Insn}
    {acc acc1 acc' : List (Reg × ℤ)} {f g : Reg → ℤ → ℤ}
    (h : Linear consts var ys [x] acc acc1 f) (ht : Linear consts var ys xs acc1 acc' g) :
    Linear consts var ys (x::xs) acc acc' fun r y => f r y+g r y where
  run regs := by
    have hx := h.run regs
    simp only [runBody, Option.bind_fun_some] at hx
    rw [runBody, hx, Option.bind_some, ht.run, h.var, add_zero]
    congr 1
    funext r
    ring
  var y := by rw [h.var, ht.var, add_zero]
  total r := by
    rw [ht.total, h.total, List.sum_map_add, add_assoc]

theorem total_upsert {dst : Reg} {delta : ℤ} {acc acc' : List (Reg × ℤ)}
    (h : upsert dst delta (fun t => checked 128 (t+delta)) acc = some acc') (r : Reg) :
    totalOf acc' r = totalOf acc r+if r = dst then delta else 0 := by
  obtain ⟨hself, hother⟩ := lookup_upsert h
  by_cases hr : r = dst
  · subst hr
    rw [totalOf, totalOf, hself, if_pos rfl]
    cases hl : acc.lookup r with
    | none => simp
    | some t =>
      have hmem : (acc'.lookup r).isSome := by
        clear hself hother hl
        induction acc generalizing acc' with
        | nil =>
          cases h
          simp
        | cons p acc ih =>
          rw [upsert] at h
          by_cases hk : p.1 = r
          · rw [if_pos hk] at h
            obtain ⟨y, _, rfl⟩ := Option.map_eq_some_iff.mp h
            simp [hk]
          · rw [if_neg hk] at h
            obtain ⟨rest, hrest, rfl⟩ := Option.map_eq_some_iff.mp h
            have hne : (r == p.1) = false := by simpa using Ne.symm hk
            rw [List.lookup_cons, hne]
            exact ih hrest
      rw [hself, hl] at hmem
      obtain ⟨v, hv⟩ := Option.isSome_iff_exists.mp hmem
      obtain ⟨rfl, _⟩ := checked_some hv
      simp [hv]
  · rw [totalOf, totalOf, hother r hr, if_neg hr, add_zero]

/-- An instruction that adds `a y` to its accumulator when the loop variable holds `y`. -/
theorem linear_of_addend {var dst : Reg} {ys : List ℤ} {x : Insn} {acc acc' : List (Reg × ℤ)}
    {delta : ℤ} {a : ℤ → ℤ} (hne : dst ≠ var)
    (hx : ∀ regs, execute consts regs x =
      some (Function.update regs dst (regs dst+a (regs var))))
    (hsum : delta = (ys.map a).sum)
    (h : upsert dst delta (fun t => checked 128 (t+delta)) acc = some acc') :
    Linear consts var ys [x] acc acc' fun r y => if r = dst then a y else 0 where
  run regs := by
    rw [runBody, hx, Option.bind_some, runBody]
    congr 1
    funext r
    by_cases hr : r = dst
    · subst hr
      simp
    · simp [hr]
  var _ := if_neg (Ne.symm hne)
  total r := by
    rw [total_upsert h, hsum]
    by_cases hr : r = dst <;> simp [hr]

attribute [local simp] stepTotal in
/-- What an admitted step is: an addition or a subtraction of something whose sum over the
values is the step's total. -/
theorem stepTotal_addend {var dst src : Reg} {op : BinaryOp} {ys : List ℤ} {total : ℤ} {x : Insn}
    (h : stepTotal consts var ys.length ys.sum x = some (dst, src, op, total)) :
    ∃ a : ℤ → ℤ, total = (ys.map a).sum ∧ ∀ regs,
      execute consts regs x =
        (intOp op (regs src) (a (regs var))).map (Function.update regs dst) := by
  have hconst : ∀ k : ℤ, k*ys.length = (ys.map fun _ => k).sum := by
    intro k
    simp [mul_comm]
  unfold stepTotal at h
  split at h
  · rename_i dst' src' op' imm aug
    obtain ⟨t, ht, heq⟩ := Option.map_eq_some_iff.mp h
    cases heq
    obtain ⟨rfl, _⟩ := checked_some ht
    exact ⟨fun _ => imm, hconst imm, fun regs => rfl⟩
  · rename_i dst' src' op' idx aug
    obtain ⟨t, ht, heq⟩ := Option.map_eq_some_iff.mp h
    cases heq
    obtain ⟨k, hk, ht⟩ := Option.bind_eq_some_iff.mp ht
    obtain ⟨rfl, _⟩ := checked_some ht
    refine ⟨fun _ => k, hconst k, fun regs => ?_⟩
    rw [execute, hk, Option.bind_some]
  · rename_i dst' src' op' rhs
    by_cases hr : rhs = var
    · rw [if_pos hr] at h
      cases h
      exact ⟨id, by simp, fun regs => by rw [execute, hr]; rfl⟩
    · simp [hr] at h
  · rename_i dst' src' op' rhs
    by_cases hr : rhs = var
    · rw [if_pos hr] at h
      cases h
      exact ⟨id, by simp, fun regs => by rw [execute, hr]; rfl⟩
    · simp [hr] at h
  · cases h

theorem accumulate_linear {var : Reg} {ys : List ℤ} {x : Insn} {acc acc' : List (Reg × ℤ)}
    (h : accumulate consts var ys.length ys.sum acc x = some acc') :
    ∃ inc, Linear consts var ys [x] acc acc' inc := by
  unfold accumulate at h
  split at h
  · cases h
    refine ⟨fun _ _ => 0, ?_, fun _ => rfl, fun r => by simp⟩
    intro regs
    simp [runBody, execute]
  simp only [Option.bind_eq_bind, Option.bind_eq_some_iff] at h
  obtain ⟨⟨dst, src, op, total⟩, ht, delta, hd, h⟩ := h
  dsimp only at h
  by_cases hbad : dst ≠ src ∨ dst = var
  · simp [hbad] at h
  rw [if_neg hbad] at h
  simp only [ne_eq, not_or, not_not] at hbad
  obtain ⟨rfl, hvar⟩ := hbad
  obtain ⟨a, rfl, hx⟩ := stepTotal_addend ht
  cases op
  case add =>
    cases hd
    exact ⟨_, linear_of_addend hvar hx rfl h⟩
  case sub =>
    obtain ⟨rfl, _⟩ := checked_some hd
    have hneg : -(ys.map a).sum = (ys.map fun y => -a y).sum := by
      rw [List.sum_neg, List.map_map]
      rfl
    refine ⟨_, linear_of_addend hvar ?_ hneg h⟩
    intro regs
    rw [hx]
    rfl
  all_goals cases hd

theorem accumulateAll_linear {var : Reg} {ys : List ℤ} (body : List Insn)
    {acc acc' : List (Reg × ℤ)}
    (h : accumulateAll consts var ys.length ys.sum body acc = some acc') :
    ∃ inc, Linear consts var ys body acc acc' inc := by
  induction body generalizing acc with
  | nil =>
    cases h
    exact ⟨_, .nil var ys _⟩
  | cons x xs ih =>
    obtain ⟨acc1, h1, hrest⟩ := Option.bind_eq_some_iff.mp h
    obtain ⟨f, hf⟩ := accumulate_linear h1
    obtain ⟨g, hg⟩ := ih hrest
    exact ⟨_, hf.cons hg⟩

/-- The loop adds the whole change and leaves the last value in the variable. -/
theorem Linear.loop {var : Reg} {ys : List ℤ} {body : List Insn} {acc acc' : List (Reg × ℤ)}
    {inc : Reg → ℤ → ℤ} (h : Linear consts var ys body acc acc' inc) (zs : List ℤ)
    (regs : Reg → ℤ) :
    runLoop consts var body zs regs = some fun r =>
      if r = var then zs.getLast?.getD (regs var) else regs r+(zs.map (inc r)).sum := by
  induction zs generalizing regs with
  | nil =>
    rw [runLoop]
    congr 1
    funext r
    by_cases hr : r = var <;> simp [hr]
  | cons z zs ih =>
    rw [runLoop, h.run, Option.bind_some, ih]
    congr 1
    funext r
    by_cases hr : r = var
    · simp [hr, h.var, List.getLast?_cons]
    · simp [hr, add_assoc]

/-! ## The recorded changes -/

theorem upsert_keys {r : Reg} {v : ℤ} {merge : ℤ → Option ℤ} {env env' : List (Reg × ℤ)}
    (h : upsert r v merge env = some env') :
    env'.map Prod.fst = env.map Prod.fst ∧ r ∈ env.map Prod.fst ∨
      env'.map Prod.fst = env.map Prod.fst ++ [r] ∧ r ∉ env.map Prod.fst := by
  induction env generalizing env' with
  | nil =>
    cases h
    simp
  | cons p env ih =>
    rw [upsert] at h
    by_cases hk : p.1 = r
    · rw [if_pos hk] at h
      obtain ⟨y, _, rfl⟩ := Option.map_eq_some_iff.mp h
      left
      simp [hk]
    · rw [if_neg hk] at h
      obtain ⟨rest, hrest, rfl⟩ := Option.map_eq_some_iff.mp h
      rcases ih hrest with ⟨heq, hm⟩ | ⟨heq, hm⟩
      · left
        simp only [List.map_cons, heq, true_and]
        exact List.mem_cons_of_mem _ hm
      · right
        simp only [List.map_cons, heq, List.cons_append, true_and, List.mem_cons, not_or]
        exact ⟨Ne.symm hk, hm⟩

/-- Each accumulator has one entry, and none is the loop variable. -/
def Distinct (var : Reg) (acc : List (Reg × ℤ)) : Prop :=
  (acc.map Prod.fst).Nodup ∧ var ∉ acc.map Prod.fst

theorem accumulate_distinct {var : Reg} {trips sum : ℤ} {x : Insn} {acc acc' : List (Reg × ℤ)}
    (h : accumulate consts var trips sum acc x = some acc') (hd : Distinct var acc) :
    Distinct var acc' := by
  unfold accumulate at h
  split at h
  · cases h
    exact hd
  simp only [Option.bind_eq_bind, Option.bind_eq_some_iff] at h
  obtain ⟨⟨dst, src, op, total⟩, _, delta, _, h⟩ := h
  dsimp only at h
  by_cases hbad : dst ≠ src ∨ dst = var
  · simp [hbad] at h
  rw [if_neg hbad] at h
  rcases upsert_keys h with ⟨heq, _⟩ | ⟨heq, hm⟩
  · rw [Distinct, heq]
    exact hd
  · rw [Distinct, heq]
    refine ⟨List.nodup_append.mpr ⟨hd.1, List.nodup_singleton _, ?_⟩, ?_⟩
    · intro a ha b hb
      rw [List.mem_singleton] at hb
      exact fun hab => hm (hb ▸ hab ▸ ha)
    · intro hmem
      rcases List.mem_append.mp hmem with hmem | hmem
      · exact hd.2 hmem
      · exact hbad (.inr (List.mem_singleton.mp hmem).symm)

theorem accumulateAll_distinct {var : Reg} {trips sum : ℤ} (body : List Insn)
    {acc acc' : List (Reg × ℤ)} (h : accumulateAll consts var trips sum body acc = some acc')
    (hd : Distinct var acc) : Distinct var acc' := by
  induction body generalizing acc with
  | nil =>
    cases h
    exact hd
  | cons x xs ih =>
    obtain ⟨acc1, h1, hrest⟩ := Option.bind_eq_some_iff.mp h
    exact ih hrest (accumulate_distinct h1 hd)

theorem totalOf_mem {acc : List (Reg × ℤ)} (h : (acc.map Prod.fst).Nodup) {p : Reg × ℤ}
    (hp : p ∈ acc) : totalOf acc p.1 = p.2 := by
  induction acc with
  | nil => cases hp
  | cons q acc ih =>
    rw [List.map_cons, List.nodup_cons] at h
    rcases List.mem_cons.mp hp with rfl | hp
    · rw [totalOf, List.lookup_cons, beq_self_eq_true]
      rfl
    · have hne : (p.1 == q.1) = false := by
        rw [beq_eq_false_iff_ne]
        exact fun heq => h.1 (heq ▸ List.mem_map_of_mem hp)
      have := ih h.2 hp
      rw [totalOf] at this ⊢
      rw [List.lookup_cons, hne]
      exact this

theorem totalOf_of_not_mem {acc : List (Reg × ℤ)} {r : Reg} (h : r ∉ acc.map Prod.fst) :
    totalOf acc r = 0 := by
  induction acc with
  | nil => rfl
  | cons q acc ih =>
    rw [List.map_cons, List.mem_cons, not_or] at h
    have hne : (r == q.1) = false := beq_eq_false_iff_ne.mpr h.1
    have := ih h.2
    rw [totalOf] at this ⊢
    rw [List.lookup_cons, hne]
    exact this

end linear

/-! ## The closed form is exact -/

section exact
variable {Obj : Type} {consts : List (Value Obj)}

/-- The values the guarded range yields. -/
def ClosedForm.values (form : ClosedForm) : List ℤ :=
  yields form.guard.stop form.guard.step form.guard.start

/-- The form binds the variable to the last value and adds to the accumulators what running the
body once for each value adds to them. -/
structure Exact (consts : List (Value Obj)) (body : List Insn) (form : ClosedForm) : Prop where
  last : form.values.getLast? = some form.varFinal
  varWord : Fits 64 form.varFinal
  deltaWord : ∀ p ∈ form.accDeltas, Fits 64 p.2
  loop : ∀ regs, ∃ regs', runLoop consts form.var body form.values regs = some regs' ∧
    regs' form.var = form.varFinal ∧ (∀ p ∈ form.accDeltas, regs' p.1 = regs p.1+p.2) ∧
    ∀ r ≠ form.var, r ∉ form.accDeltas.map Prod.fst → regs' r = regs r

/-- Nothing is yielded, or the last value or the change of an accumulator is no machine word. -/
def Unrepresentable (consts : List (Value Obj)) (var : Reg) (body : List Insn)
    (start stop step : ℤ) : Prop :=
  yields stop step start = [] ∨
    (∃ last, (yields stop step start).getLast? = some last ∧ ¬Fits 64 last) ∨
    ∃ regs regs' r, runLoop consts var body (yields stop step start) regs = some regs' ∧
      r ≠ var ∧ ¬Fits 64 (regs' r-regs r)

theorem seriesSum_ok {start stop step sum : ℤ}
    (h : seriesSum start step (count start stop step) = .ok sum) :
    sum = (yields stop step start).sum := by
  obtain ⟨base, hbase, h⟩ := bind_ok h
  obtain ⟨before, hbefore, h⟩ := bind_ok h
  obtain ⟨pairs, hpairs, h⟩ := bind_ok h
  obtain ⟨rise, hrise, h⟩ := bind_ok h
  have hb : before = (count start stop step : ℤ)-1 := by
    rw [native] at hbefore
    split at hbefore <;> cases hbefore
    rfl
  obtain ⟨rfl, _⟩ := checked_some (orDecline_ok.mp hbase)
  obtain ⟨rfl, _⟩ := checked_some (orDecline_ok.mp hpairs)
  obtain ⟨rfl, _⟩ := checked_some (orDecline_ok.mp hrise)
  obtain ⟨rfl, _⟩ := checked_some (orDecline_ok.mp h)
  rw [sum_yields, hb]

section words
variable {start stop step : ℤ} (ha : Fits 64 start) (ho : Fits 64 stop) (he : Fits 64 step)
  (hn : count start stop step ≠ 0)
include ha ho he hn

theorem seriesSum_ne_overflow :
    seriesSum start step (count start stop step) ≠ .error .overflow := by
  obtain ⟨_, _, _, hlt⟩ := last_bounds ha ho he hn
  apply orDecline_bind_ne_overflow
  intro base _
  rw [native_ok (fits_128.mpr (by omega))]
  apply orDecline_bind_ne_overflow
  intro pairs _
  apply orDecline_bind_ne_overflow
  intro rise _
  exact orDecline_ne_overflow _

theorem lastValue_eq : lastValue start step (count start stop step) =
    orDecline (checked 64 (start+(count start stop step-1)*step)) := by
  obtain ⟨_, hlow, hhigh, hlt⟩ := last_bounds ha ho he hn
  rw [fits_64] at ha
  rw [lastValue, native_ok (fits_128.mpr (by omega)), ok_bind,
    native_ok (fits_128.mpr (by omega)), ok_bind, native_ok (fits_128.mpr (by omega)), ok_bind]

end words

/-- From the traced triple on: no overflow, and an accepted form is exact. -/
theorem foldRange_spec (slot : ℕ) (var : Reg) (body : List Insn) {start stop step : ℤ}
    (ha : Fits 64 start) (ho : Fits 64 stop) (he : Fits 64 step) :
    foldRange consts slot var body start stop step ≠ .error .overflow ∧
      ∀ form, foldRange consts slot var body start stop step = .ok form →
        form.guard = ⟨slot, start, stop, step⟩ ∧ form.var = var ∧ Exact consts body form := by
  unfold foldRange
  by_cases hs : step = 0
  · simp [hs]
  obtain ⟨safe, hsafe, _⟩ := cursorSafe_ok ha ho he
  rw [if_neg hs, hsafe, ok_bind]
  by_cases hb : safe = false
  · simp [hb]
  rw [if_neg hb, rangeLen_ok ha ho he, ok_bind]
  by_cases hn : count start stop step = 0
  · simp [hn]
  rw [if_neg (by omega), lastValue_eq ha ho he hn]
  constructor
  · apply orDecline_bind_ne_overflow
    intro last _
    apply bind_ne_overflow (seriesSum_ne_overflow ha ho he hn)
    intro sum _
    apply orDecline_bind_ne_overflow
    intro acc _
    apply orDecline_bind_ne_overflow
    intro acc' _
    exact nofun
  · intro form h
    obtain ⟨last, hlast, hafter⟩ := bind_ok h
    obtain ⟨sum, hsum, hsummed⟩ := bind_ok hafter
    obtain ⟨acc, hacc, hbody⟩ := bind_ok hsummed
    obtain ⟨acc', hnarrow, hform⟩ := bind_ok hbody
    obtain ⟨rfl, hword⟩ := checked_some (orDecline_ok.mp hlast)
    have hfits : acc' = acc ∧ ∀ p ∈ acc, Fits 64 p.2 := by
      rw [orDecline_ok, narrow] at hnarrow
      split at hnarrow
      · rename_i hall
        cases hnarrow
        exact ⟨rfl, by simpa using hall⟩
      · cases hnarrow
    obtain ⟨rfl, hfits⟩ := hfits
    cases hform
    rw [seriesSum_ok hsum, ← yields_length] at hacc
    obtain ⟨inc, hinc⟩ := accumulateAll_linear body (orDecline_ok.mp hacc)
    obtain ⟨hnodup, hvar⟩ : Distinct var acc' :=
      accumulateAll_distinct body (orDecline_ok.mp hacc) ⟨List.nodup_nil, nofun⟩
    have hval := yields_getLast? hn
    have htotal : ∀ r, ((yields stop step start).map (inc r)).sum = totalOf acc' r := by
      intro r
      rw [hinc.total r]
      simp [totalOf]
    refine ⟨rfl, rfl, hval, hword, hfits, fun regs => ⟨_, hinc.loop _ regs, ?_, ?_, ?_⟩⟩
    · simp [ClosedForm.values, hval]
    · intro p hp
      have hne : p.1 ≠ var := fun heq => hvar (heq ▸ List.mem_map_of_mem hp)
      simp only [ClosedForm.values, hne, if_false, htotal, totalOf_mem hnodup hp]
    · intro r hr hmem
      simp only [ClosedForm.values, hr, if_false, htotal, totalOf_of_not_mem hmem, add_zero]

/-- A closed form leaves the variable and the accumulators as the loop does over unbounded
integers, no computation overflows, and a range that is empty or whose result is no machine word
is declined. -/
theorem closed_form_exact (hc : WordInts consts) (reaching : ℕ → Reg → Option ℕ)
    (insns : List Insn) (names : List String) (head back slot : ℕ) :
    closedFormFor consts reaching insns names head back slot ≠ .error .overflow ∧
    (∀ form, closedFormFor consts reaching insns names head back slot = .ok form →
      tracedConstRangeBounds consts reaching insns names head slot =
        some (form.guard.start, form.guard.stop, form.guard.step) ∧
      form.guard.slot = slot ∧ (∃ s k, insns[head]? = some (.forIter form.var s k)) ∧
      Exact consts (bodyOf insns head back) form) ∧
    ∀ var s k start stop step, insns[head]? = some (.forIter var s k) →
      tracedConstRangeBounds consts reaching insns names head slot = some (start, stop, step) →
      Unrepresentable consts var (bodyOf insns head back) start stop step →
      closedFormFor consts reaching insns names head back slot = .error .declined := by
  have hover : closedFormFor consts reaching insns names head back slot ≠ .error .overflow := by
    unfold closedFormFor
    split
    · apply orDecline_bind_ne_overflow
      rintro ⟨start, stop, step⟩ ht
      obtain ⟨ha, ho, he⟩ := traced_fits hc ht
      exact (foldRange_spec slot _ _ ha ho he).1
    · exact nofun
  have hexact : ∀ form, closedFormFor consts reaching insns names head back slot = .ok form →
      tracedConstRangeBounds consts reaching insns names head slot =
        some (form.guard.start, form.guard.stop, form.guard.step) ∧
      form.guard.slot = slot ∧ (∃ s k, insns[head]? = some (.forIter form.var s k)) ∧
      Exact consts (bodyOf insns head back) form := by
    intro form h
    unfold closedFormFor at h
    split at h
    · rename_i var s k hhead
      obtain ⟨⟨start, stop, step⟩, ht, h⟩ := bind_ok h
      rw [orDecline_ok] at ht
      obtain ⟨ha, ho, he⟩ := traced_fits hc ht
      obtain ⟨hguard, rfl, hform⟩ := (foldRange_spec slot _ _ ha ho he).2 form h
      rw [hguard]
      exact ⟨ht, rfl, ⟨s, k, hhead⟩, hform⟩
    · cases h
  refine ⟨hover, hexact, ?_⟩
  intro var s k start stop step hhead ht hun
  apply declined_of hover
  intro form h
  obtain ⟨ht', _, ⟨s', k', hhead'⟩, hform⟩ := hexact form h
  have hsame := ht.symm.trans ht'
  simp only [Option.some.injEq, Prod.mk.injEq] at hsame
  have hvar : var = form.var := by
    have := hhead.symm.trans hhead'
    cases this
    rfl
  obtain ⟨rfl, rfl, rfl⟩ := hsame
  subst hvar
  rcases hun with hnil | ⟨last, hlast, hbig⟩ | ⟨regs, regs', r, hrun, hr, hbig⟩
  · have := hform.last
    rw [ClosedForm.values, hnil] at this
    cases this
  · have := hform.last.symm.trans hlast
    cases this
    exact hbig hform.varWord
  · obtain ⟨regs1, hrun1, _, hacc, hrest⟩ := hform.loop regs
    have := hrun1.symm.trans hrun
    cases this
    apply hbig
    by_cases hmem : r ∈ form.accDeltas.map Prod.fst
    · obtain ⟨p, hp, rfl⟩ := List.mem_map.mp hmem
      rw [hacc p hp, add_sub_cancel_left]
      exact hform.deltaWord p hp
    · rw [hrest r hr hmem, sub_self]
      decide

end exact

/-- `for v in range(100, 0, -7): total += v`, the step spelt as a negated literal. -/
def countdown : List Insn :=
  [.loadGlobal 2 0, .loadConst 3 0, .loadConst 4 1, .loadConst 6 2, .unaryOp 6 .neg 6, .move 5 6,
    .call 2 3, .getIter 0 2, .forIter 1 0 4, .syncModuleGlobal 1 2, .binOpInPlace 0 0 .add 1,
    .syncModuleGlobal 0 1, .jump (-5)]

/-- Its values run from `100` down to `2` and sum to `765`. -/
def countdownForm : ClosedForm := ⟨⟨0, 100, 0, -7⟩, 1, 2, [(0, 765)]⟩

theorem closed_form_exact_countdown :
    @closedFormFor Empty [.int 100, .int 0, .int 7] (fun _ _ => none) countdown
        ["range", "total", "v"] 8 12 0 = .ok countdownForm ∧
      @Exact Empty [.int 100, .int 0, .int 7] (bodyOf countdown 8 12) countdownForm := by
  have hc : @WordInts Empty [.int 100, .int 0, .int 7] := by
    intro v hv
    simp only [List.mem_cons, Value.int.injEq, List.not_mem_nil, or_false] at hv
    rw [fits_64]
    omega
  have h : @closedFormFor Empty [.int 100, .int 0, .int 7] (fun _ _ => none) countdown
      ["range", "total", "v"] 8 12 0 = .ok countdownForm := by decide
  exact ⟨h, ((closed_form_exact hc _ countdown _ 8 12 0).2.1 _ h).2.2.2⟩

end Pyrust.RangeFolding
