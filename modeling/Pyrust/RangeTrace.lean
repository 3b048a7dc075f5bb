import Pyrust.ConstantPool
import Pyrust.FixedWidth

/-!
# Traced range bounds

The triple a call of `range` ahead of a loop header is expected to produce. The
call, the iterator creation and the header are adjacent. The argument setup
between the load of the callee and the call is interpreted over a small
environment of integer constants, and a register the environment does not know
is looked up among the constants that reach the instruction.
-/

set_option autoImplicit false

namespace Pyrust.RangeTrace

open Bytecode ConstantPool FixedWidth

/-- Merge a value into the first entry of a register, or append an entry for it. -/
def upsert (r : Reg) (v : ℤ) (merge : ℤ → Option ℤ) : List (Reg × ℤ) → Option (List (Reg × ℤ))
  | [] => some [(r, v)]
  | (k, x)::rest =>
    if k = r then (merge x).map fun y => (k, y)::rest
    else (upsert r v merge rest).map fun rest' => (k, x)::rest'

section trace
variable {Obj : Type} (consts : List (Value Obj)) (reaching : ℕ → Reg → Option ℕ)

/-- A constant of kind `Int`. -/
def intConst (idx : ℕ) : Option ℤ :=
  match consts[idx]? with
  | some (.int v) => some v
  | _ => none

/-- `reaching_value`. -/
def reachingValue (pc : ℕ) (r : Reg) : Option ℤ := (reaching pc r).bind (intConst consts)

/-- `known_value`. -/
def knownValue (env : List (Reg × ℤ)) (pc : ℕ) (r : Reg) : Option ℤ :=
  match env.lookup r with
  | some v => some v
  | none => reachingValue consts reaching pc r

/-- What one instruction of the argument setup leaves in its destination. -/
def setupValue (env : List (Reg × ℤ)) (pc : ℕ) : Insn → Option (Reg × ℤ)
  | .loadConst dst idx => (intConst consts idx).map (dst, ·)
  | .unaryOp dst .neg src =>
    ((knownValue consts reaching env pc src).bind fun v => checked 64 (-v)).map (dst, ·)
  | .move dst src | .copyReg dst src => (knownValue consts reaching env pc src).map (dst, ·)
  | _ => none

/-- The environment after the setup. -/
def interpretSetup : List Insn → ℕ → List (Reg × ℤ) → Option (List (Reg × ℤ))
  | [], _, env => some env
  | x::xs, pc, env => do
    let (dst, v) ← setupValue consts reaching env pc x
    let env' ← upsert dst v (fun _ => some v) env
    interpretSetup xs (pc+1) env'

/-- `MAX_SETUP_PER_ARG`. -/
def maxSetupPerArg : ℕ := 3

/-- The load of the callee: the nearest one within reach of the call. -/
def findLoadGlobal (insns : List Insn) (names : List String) (callAt argc : ℕ) (base : Reg) :
    Option ℕ :=
  let windowStart := callAt-(1+argc*maxSetupPerArg)
  (List.range' windowStart (callAt-windowStart)).reverse.find? fun j =>
    match insns[j]? with
    | some (.loadGlobal dst nameIdx) => dst = base ∧ names[nameIdx]? = some "range"
    | _ => false

/-- `traced_const_range_bounds`. -/
def tracedConstRangeBounds (insns : List Insn) (names : List String) (head slot : ℕ) :
    Option (ℤ × ℤ × ℤ) :=
  if head < 2 then none
  else
    match insns[head-1]?, insns[head-2]? with
    | some (.getIter iterSlot base), some (.call callee argc) =>
      if iterSlot = slot ∧ callee = base ∧ 1 ≤ argc ∧ argc ≤ 3 then do
        let callAt := head-2
        let loadGlobal ← findLoadGlobal insns names callAt argc base
        let env ← interpretSetup consts reaching ((insns.take callAt).drop (loadGlobal+1))
          (loadGlobal+1) []
        let arg k := knownValue consts reaching env callAt (base+1+k)
        match argc with
        | 1 => do
          let stop ← arg 0
          some (0, stop, 1)
        | 2 => do
          let start ← arg 0
          let stop ← arg 1
          some (start, stop, 1)
        | _ => do
          let start ← arg 0
          let stop ← arg 1
          let step ← arg 2
          some (start, stop, step)
      else none
    | _, _ => none

end trace

/-- The integers of a pool are machine words. -/
def WordInts {Obj : Type} (consts : List (Value Obj)) : Prop :=
  ∀ v, Value.int v ∈ consts → Fits 64 v

section words
variable {Obj : Type} {consts : List (Value Obj)} {reaching : ℕ → Reg → Option ℕ}

theorem lookup_upsert {r : Reg} {v : ℤ} {merge : ℤ → Option ℤ} {env env' : List (Reg × ℤ)}
    (h : upsert r v merge env = some env') :
    env'.lookup r = (match env.lookup r with
      | some x => merge x
      | none => some v) ∧
      ∀ r' ≠ r, env'.lookup r' = env.lookup r' := by
  induction env generalizing env' with
  | nil =>
    cases h
    refine ⟨by simp, fun r' hr => ?_⟩
    have : (r' == r) = false := by simpa using hr
    simp [List.lookup_cons, this]
  | cons p env ih =>
    obtain ⟨k, x⟩ := p
    rw [upsert] at h
    by_cases hk : k = r
    · subst hk
      rw [if_pos rfl] at h
      obtain ⟨y, hy, rfl⟩ := Option.map_eq_some_iff.mp h
      refine ⟨by simp [hy], fun r' hr => ?_⟩
      have : (r' == k) = false := by simpa using hr
      simp [List.lookup_cons, this]
    · rw [if_neg hk] at h
      obtain ⟨rest, hrest, rfl⟩ := Option.map_eq_some_iff.mp h
      have hne : (r == k) = false := by simpa using Ne.symm hk
      obtain ⟨hr, ho⟩ := ih hrest
      refine ⟨by simp [List.lookup_cons, hne, hr], fun r' hr' => ?_⟩
      rw [List.lookup_cons, List.lookup_cons, ho r' hr']

theorem intConst_fits (hc : WordInts consts) {idx : ℕ} {v : ℤ}
    (h : intConst consts idx = some v) : Fits 64 v := by
  rw [intConst] at h
  split at h
  · rename_i w hw
    cases h
    exact hc _ (List.mem_of_getElem? hw)
  · cases h

/-- An environment of machine words. -/
def WordEnv (env : List (Reg × ℤ)) : Prop := ∀ r v, env.lookup r = some v → Fits 64 v

theorem knownValue_fits (hc : WordInts consts) {env : List (Reg × ℤ)} (he : WordEnv env) {pc : ℕ}
    {r : Reg} {v : ℤ} (h : knownValue consts reaching env pc r = some v) : Fits 64 v := by
  rw [knownValue] at h
  cases hl : env.lookup r with
  | some w =>
    rw [hl] at h
    exact he r v (hl.trans h)
  | none =>
    rw [hl] at h
    obtain ⟨idx, _, hidx⟩ := Option.bind_eq_some_iff.mp h
    exact intConst_fits hc hidx

theorem setupValue_fits (hc : WordInts consts) {env : List (Reg × ℤ)} (he : WordEnv env) {pc : ℕ}
    {x : Insn} {dst : Reg} {v : ℤ} (h : setupValue consts reaching env pc x = some (dst, v)) :
    Fits 64 v := by
  unfold setupValue at h
  split at h
  · obtain ⟨w, hw, heq⟩ := Option.map_eq_some_iff.mp h
    cases heq
    exact intConst_fits hc hw
  · obtain ⟨w, hw, heq⟩ := Option.map_eq_some_iff.mp h
    cases heq
    obtain ⟨u, _, hu⟩ := Option.bind_eq_some_iff.mp hw
    obtain ⟨rfl, hf⟩ := checked_some hu
    exact hf
  · obtain ⟨w, hw, heq⟩ := Option.map_eq_some_iff.mp h
    cases heq
    exact knownValue_fits hc he hw
  · obtain ⟨w, hw, heq⟩ := Option.map_eq_some_iff.mp h
    cases heq
    exact knownValue_fits hc he hw
  · cases h

theorem interpretSetup_fits (hc : WordInts consts) (xs : List Insn) (pc : ℕ)
    {env env' : List (Reg × ℤ)} (he : WordEnv env)
    (h : interpretSetup consts reaching xs pc env = some env') : WordEnv env' := by
  induction xs generalizing pc env with
  | nil =>
    cases h
    exact he
  | cons x xs ih =>
    simp only [interpretSetup, Option.bind_eq_bind, Option.bind_eq_some_iff] at h
    obtain ⟨⟨dst, v⟩, hv, env1, h1, hrest⟩ := h
    apply ih (pc+1) _ hrest
    have hf := setupValue_fits hc he hv
    obtain ⟨hself, hother⟩ := lookup_upsert h1
    intro r w hw
    by_cases hr : r = dst
    · subst hr
      rw [hself] at hw
      cases hl : env.lookup r <;> simp only [hl, Option.some.injEq] at hw <;> exact hw ▸ hf
    · rw [hother r hr] at hw
      exact he r w hw

attribute [local simp] tracedConstRangeBounds in
/-- A traced triple is made of machine words. -/
theorem traced_fits (hc : WordInts consts) {insns : List Insn} {names : List String}
    {head slot : ℕ} {start stop step : ℤ}
    (h : tracedConstRangeBounds consts reaching insns names head slot =
      some (start, stop, step)) : Fits 64 start ∧ Fits 64 stop ∧ Fits 64 step := by
  have hsmall : ∀ v : ℤ, v = 0 ∨ v = 1 → Fits 64 v := by
    rintro v (rfl | rfl) <;> decide
  unfold tracedConstRangeBounds at h
  split at h
  · cases h
  split at h
  swap
  · cases h
  split at h
  swap
  · cases h
  simp only [Option.bind_eq_bind, Option.bind_eq_some_iff] at h
  obtain ⟨at0, _, env, henv, h⟩ := h
  have he : WordEnv env := interpretSetup_fits hc _ _ (fun r v hl => by cases hl) henv
  split at h
  · obtain ⟨b, hb, heq⟩ := Option.bind_eq_some_iff.mp h
    cases heq
    exact ⟨hsmall _ (.inl rfl), knownValue_fits hc he hb, hsmall _ (.inr rfl)⟩
  · obtain ⟨a, ha, h⟩ := Option.bind_eq_some_iff.mp h
    obtain ⟨b, hb, heq⟩ := Option.bind_eq_some_iff.mp h
    cases heq
    exact ⟨knownValue_fits hc he ha, knownValue_fits hc he hb, hsmall _ (.inr rfl)⟩
  · obtain ⟨a, ha, h⟩ := Option.bind_eq_some_iff.mp h
    obtain ⟨b, hb, h⟩ := Option.bind_eq_some_iff.mp h
    obtain ⟨s, hs, heq⟩ := Option.bind_eq_some_iff.mp h
    cases heq
    exact ⟨knownValue_fits hc he ha, knownValue_fits hc he hb, knownValue_fits hc he hs⟩

end words

end Pyrust.RangeTrace
