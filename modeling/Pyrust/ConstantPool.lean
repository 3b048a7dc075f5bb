import Pyrust.Machine

/-!
# Constant pools

Constants are interned under a key that keeps the types apart: `1`, `True` and
`1.0` have three keys, and a float is keyed by its bits. A runtime reads a pool
only through the indices an instruction carries, so a pool may grow behind them.
-/

set_option autoImplicit false

namespace Pyrust.ConstantPool

open Bytecode Machine

/-- A value as its `kind` shows it: an integer that fits a word is an `int`, inline or boxed, and
everything outside the primitive kinds is an object. -/
inductive Value (Obj : Type) where
  | int (v : ℤ)
  | bigInt (v : ℤ)
  | float (bits : BitVec 64)
  | complex (re im : BitVec 64)
  | str (s : String)
  | bytes (b : List (BitVec 8))
  | bool (b : Bool)
  | none
  | object (o : Obj)
  deriving DecidableEq

/-- `ConstKey`. A big integer is keyed by its byte string, which is one for each integer. -/
inductive ConstKey where
  | int (v : ℤ)
  | bigInt (v : ℤ)
  | floatBits (bits : BitVec 64)
  | complexBits (re im : BitVec 64)
  | str (s : String)
  | bytes (b : List (BitVec 8))
  | bool (b : Bool)
  | none
  deriving DecidableEq

variable {Obj : Type}

def constKey : Value Obj → Option ConstKey
  | .int v => some (.int v)
  | .bigInt v => some (.bigInt v)
  | .float bits => some (.floatBits bits)
  | .complex re im => some (.complexBits re im)
  | .str s => some (.str s)
  | .bytes b => some (.bytes b)
  | .bool b => some (.bool b)
  | .none => some .none
  | .object _ => none

/-- The one constant a key stands for. -/
def ConstKey.value : ConstKey → Value Obj
  | .int v => .int v
  | .bigInt v => .bigInt v
  | .floatBits bits => .float bits
  | .complexBits re im => .complex re im
  | .str s => .str s
  | .bytes b => .bytes b
  | .bool b => .bool b
  | .none => .none

theorem eq_value {a : Value Obj} {k : ConstKey} (h : constKey a = some k) : a = k.value := by
  cases a <;> simp only [constKey, Option.some.injEq, reduceCtorEq] at h <;> subst h <;> rfl

/-- Constants of one key are the same value of the same type. -/
theorem constKey_injective {a b : Value Obj} {k : ConstKey} (ha : constKey a = some k)
    (hb : constKey b = some k) : a = b := (eq_value ha).trans (eq_value hb).symm

/-- `Value::as_int`. -/
def asInt : Value Obj → Option ℤ
  | .int v => some v
  | .bigInt v => if -2^63 ≤ v ∧ v < 2^63 then some v else none
  | _ => none

/-- `u16::MAX`. -/
def poolLimit : ℕ := 2^16-1

structure Pool (Obj : Type) where
  consts : List (Value Obj)
  index : List (ConstKey × ℕ)

def buildIndex : List (Value Obj) → ℕ → List (ConstKey × ℕ) → List (ConstKey × ℕ)
  | [], _, index => index
  | v::vs, i, index =>
    buildIndex vs (i+1) (match constKey v with
      | some k => if i ≤ poolLimit ∧ index.lookup k = none then (k, i)::index else index
      | none => index)

/-- `ConstIndex::build`: the first slot that holds a key stands for it. -/
def Pool.build (consts : List (Value Obj)) : Pool Obj := ⟨consts, buildIndex consts 0 []⟩

/-- `ConstIndex::intern`. -/
def Pool.intern (p : Pool Obj) (v : Value Obj) : Option (ℕ × Pool Obj) :=
  match constKey v with
  | some k =>
    match p.index.lookup k with
    | some idx => some (idx, p)
    | none =>
      if poolLimit ≤ p.consts.length then none
      else some (p.consts.length, ⟨p.consts ++ [v], (k, p.consts.length)::p.index⟩)
  | none =>
    if poolLimit ≤ p.consts.length then none
    else some (p.consts.length, ⟨p.consts ++ [v], p.index⟩)

/-- Every indexed key stands for a slot that holds a constant of that key. -/
def Pool.Sound (p : Pool Obj) : Prop :=
  ∀ k idx, p.index.lookup k = some idx → ∃ v, p.consts[idx]? = some v ∧ constKey v = some k

theorem buildIndex_sound (consts : List (Value Obj)) (before after : List (Value Obj))
    (hsplit : consts = before ++ after) (index : List (ConstKey × ℕ))
    (h : Pool.Sound ⟨consts, index⟩) :
    Pool.Sound ⟨consts, buildIndex after before.length index⟩ := by
  induction after generalizing before index with
  | nil => exact h
  | cons v after ih =>
    have hget : consts[before.length]? = some v := by simp [hsplit]
    have hrec := ih (before ++ [v]) (by simp [hsplit])
    rw [List.length_append, List.length_singleton] at hrec
    apply hrec
    cases hk : constKey v with
    | none => exact h
    | some k =>
      dsimp only
      by_cases hc : before.length ≤ poolLimit ∧ index.lookup k = none
      · rw [if_pos hc]
        intro k' idx hl
        rw [List.lookup_cons] at hl
        by_cases hkk : k' = k
        · subst hkk
          simp only [BEq.rfl, Option.some.injEq] at hl
          exact ⟨v, hl ▸ hget, hk⟩
        · have hne : (k' == k) = false := by simpa using hkk
          rw [hne] at hl
          exact h k' idx hl
      · rw [if_neg hc]
        exact h

theorem build_sound (consts : List (Value Obj)) : (Pool.build consts).Sound := by
  apply buildIndex_sound consts [] consts rfl
  intro k idx h
  cases h

theorem lookup_append_some {α : Type} {xs ys : List α} {i : ℕ} {a : α} (h : xs[i]? = some a) :
    (xs ++ ys)[i]? = some a := by
  rw [List.getElem?_append_left (List.getElem?_eq_some_iff.mp h).1, h]

/-- Interning yields a slot that holds the value and only appends to the pool. -/
theorem intern_spec {p p' : Pool Obj} {v : Value Obj} {idx : ℕ} (hp : p.Sound)
    (h : p.intern v = some (idx, p')) :
    p'.Sound ∧ p'.consts[idx]? = some v ∧ p.consts <+: p'.consts := by
  rw [Pool.intern] at h
  cases hk : constKey v with
  | none =>
    rw [hk] at h
    by_cases hfull : poolLimit ≤ p.consts.length
    · simp [hfull] at h
    simp only [hfull, if_false, Option.some.injEq, Prod.mk.injEq] at h
    obtain ⟨rfl, rfl⟩ := h
    refine ⟨?_, by simp, List.prefix_append _ _⟩
    intro k i hl
    obtain ⟨w, hw, hwk⟩ := hp k i hl
    exact ⟨w, lookup_append_some hw, hwk⟩
  | some k =>
    rw [hk] at h
    cases hl : p.index.lookup k with
    | some i =>
      simp only [hl, Option.some.injEq, Prod.mk.injEq] at h
      obtain ⟨rfl, rfl⟩ := h
      obtain ⟨w, hw, hwk⟩ := hp k i hl
      exact ⟨hp, constKey_injective hwk hk ▸ hw, List.prefix_refl _⟩
    | none =>
      by_cases hfull : poolLimit ≤ p.consts.length
      · simp [hl, hfull] at h
      simp only [hl, hfull, if_false, Option.some.injEq, Prod.mk.injEq] at h
      obtain ⟨rfl, rfl⟩ := h
      refine ⟨?_, by simp, List.prefix_append _ _⟩
      intro k' i hl'
      rw [List.lookup_cons] at hl'
      by_cases hkk : k' = k
      · subst hkk
        simp only [BEq.rfl, Option.some.injEq] at hl'
        exact ⟨v, by simp [← hl'], hk⟩
      · have hne : (k' == k) = false := by simpa using hkk
        rw [hne] at hl'
        obtain ⟨w, hw, hwk⟩ := hp k' i hl'
        exact ⟨w, lookup_append_some hw, hwk⟩

/-- The pool indices an instruction carries. -/
def constIdx : Insn → List ℕ
  | .loadConst _ c | .binOpConst _ _ _ c _ | .cmpJumpIfFalseConst _ _ c _
  | .cmpJumpIfTrueConst _ _ c _ | .makeTypeAlias _ c _ _ | .makeTypeVar _ c | .callKw _ _ _ c
  | .callMethodKw _ _ _ _ _ _ c | .callExArgs _ _ _ c _ _ => [c]
  | _ => []

/-- What the opcodes do to values, with the constants an instruction names handed to it. -/
structure Runtime (Obj World : Type) where
  exec : Insn → List (Option (Value Obj)) → List (Operand (Value Obj)) → Regs (Value Obj) →
    World → Outcome (Value Obj) World
  unbound : Operand (Value Obj) → World → World
  caught : World → Option World

variable {World : Type}

/-- The runtime on a code object with this pool. -/
def Runtime.sem (rt : Runtime Obj World) (consts : List (Value Obj)) :
    Sem (Value Obj) World where
  const c := consts.getD c .none
  none := .none
  exec shape := rt.exec shape ((constIdx shape).map fun c => consts[c]?)
  unbound := rt.unbound
  caught := rt.caught

/-- Every index of the stream lies in the pool. -/
def InPool (insns : List Insn) (consts : List (Value Obj)) : Prop :=
  ∀ x ∈ insns, ∀ c ∈ constIdx x, c < consts.length

instance (insns : List Insn) (consts : List (Value Obj)) : Decidable (InPool insns consts) :=
  inferInstanceAs (Decidable (∀ x ∈ insns, _))

theorem constIdx_shape (x : Insn) : constIdx x.shape = constIdx x := by
  cases x <;> rfl

theorem prefix_getElem? {xs ys : List (Value Obj)} (h : xs <+: ys) {c : ℕ} (hc : c < xs.length) :
    ys[c]? = xs[c]? := by
  obtain ⟨zs, rfl⟩ := h
  exact List.getElem?_append_left hc

/-- A pool that has grown does the same for an instruction whose indices it had before. -/
theorem perform_grown (rt : Runtime Obj World) {consts consts' : List (Value Obj)}
    (h : consts <+: consts') {x : Insn} (hx : ∀ c ∈ constIdx x, c < consts.length)
    (numLocals : ℕ) (regs : Regs (Value Obj)) (world : World) :
    perform (rt.sem consts') numLocals x regs world =
      perform (rt.sem consts) numLocals x regs world := by
  have hexec : (rt.sem consts').exec x.shape = (rt.sem consts).exec x.shape := by
    simp only [Runtime.sem, constIdx_shape]
    congr 1
    apply List.map_congr_left
    intro c hc
    exact prefix_getElem? h (hx c hc)
  cases x
  case loadConst dst c =>
    have hc := hx c (by simp [constIdx.eq_def])
    simp [perform, outcome, Insn.shape.eq_def, Runtime.sem, List.getD_eq_getElem?_getD,
      prefix_getElem? h hc]
  all_goals first
    | rfl
    | simp only [perform, outcome, Insn.shape.eq_def] at hexec ⊢
      rw [hexec]

/-- The input stream runs the same on the grown pool. -/
theorem frame_grown (rt : Runtime Obj World) {consts consts' : List (Value Obj)}
    (h : consts <+: consts') {code : Code} (hin : InPool code.insns consts) (numLocals : ℕ)
    (obs : Observer) :
    frame (rt.sem consts') numLocals code obs = frame (rt.sem consts) numLocals code obs := by
  rw [frame, frame]
  congr 1
  funext s
  cases s with
  | none => rfl
  | some s =>
    simp only [step]
    cases hi : code.insns[s.pc]? with
    | none => rfl
    | some x =>
      have hp := perform_grown rt h (hin x (List.mem_of_getElem? hi)) numLocals s.regs s.world
      simp only [hp]
      rfl

end Pyrust.ConstantPool
