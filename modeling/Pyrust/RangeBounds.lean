import Pyrust.RangeTrace
import Pyrust.ReachingConstants
import Pyrust.UnaryFolding

/-!
# What a traced range call iterates

The interpreter's `range` reads its arguments through `__index__` and refuses a
zero step. A traced triple is a proposal: control can enter the argument setup
sideways, the name can be bound to something else, and an exception can lead back
ahead of a read. In a run that does none of these, the object that the loop
iterates is the range of the triple.
-/

set_option autoImplicit false

namespace Pyrust.RangeBounds

open Bytecode Machine ControlGraph Simulation ConstantPool FixedWidth RangeTrace
open ReachingConstants UnaryFolding

section ranges
variable {Obj World : Type}

/-- `value_to_index` of the values that are integers. -/
def toIndex : Value Obj → Option ℤ
  | .bool b => some (if b then 1 else 0)
  | v => intValue v

def indexArgs : List (Operand (Value Obj)) → Option (List ℤ)
  | [] => some []
  | .value v::ops => (toIndex v).bind fun n => (indexArgs ops).map (n :: ·)
  | _ => none

/-- The bounds of `call_range_expanded`; an error is `none`. -/
def rangeTriple : List ℤ → Option (ℤ × ℤ × ℤ)
  | [stop] => some (0, stop, 1)
  | [start, stop] => some (start, stop, 1)
  | [start, stop, step] => if step = 0 then none else some (start, stop, step)
  | _ => none

/-- The operators together with the built-in `range`. An argument that is no integer runs the
object's `__index__`, which is left to the rest. -/
structure RangeOperators (Obj World : Type) where
  base : Operators Obj World
  isRange : Obj → Bool
  range : ℤ → ℤ → ℤ → Obj
  argumentError : World → World

namespace RangeOperators
variable (O : RangeOperators Obj World)

def callRange (ns : List ℤ) (locals : Regs (Value Obj)) (world : World) :
    Outcome (Value Obj) World :=
  match rangeTriple ns with
  | some (start, stop, step) => Operators.returns (.object (O.range start stop step)) locals world
  | none => ⟨O.argumentError world, locals, .raise, fun _ => none, fun _ => false⟩

def exec (consts : List (Value Obj)) (shape : Insn) (ops : List (Operand (Value Obj)))
    (locals : Regs (Value Obj)) (world : World) : Outcome (Value Obj) World :=
  match shape, ops with
  | .call _ _, .value (.object f)::args =>
    match O.isRange f, indexArgs args with
    | true, some ns => O.callRange ns locals world
    | _, _ => (O.base.sem consts).exec shape ops locals world
  | shape, ops => (O.base.sem consts).exec shape ops locals world

def sem (consts : List (Value Obj)) : Sem (Value Obj) World :=
  { O.base.sem consts with exec := O.exec consts }

end RangeOperators
end ranges

section conditions
variable {Obj World : Type} (O : RangeOperators Obj World) (consts : List (Value Obj))
  (numLocals : ℕ) (code : Code) (names : List String) (head : ℕ)

/-- Control comes to an instruction between the load of `range` and the loop header only by
falling through from the one ahead of it. -/
def EntersAhead : Option (State (Value Obj) World) → Prop
  | none => True
  | some s => ∀ base argc lg x pc hs, code.insns[head-2]? = some (.call base argc) →
      findLoadGlobal code.insns names (head-2) argc base = some lg →
      code.insns[s.pc]? = some x →
      transfer code s.pc s.handlers x
        (perform (O.sem consts) numLocals x s.regs s.world).flow = .goto pc hs →
      lg < pc → pc < head →
      (perform (O.sem consts) numLocals x s.regs s.world).flow = .next ∧ pc = s.pc+1

/-- The callee of the traced call is the built-in `range`. -/
def CallsRange : Option (State (Value Obj) World) → Prop
  | none => True
  | some s => s.pc = head-2 → ∀ base argc, code.insns[head-2]? = some (.call base argc) →
      ∃ f, s.regs base = some (.object f) ∧ O.isRange f = true

/-- The object the loop iterates is the range of the triple. -/
def Iterates (slot : ℕ) (start stop step : ℤ) : Option (State (Value Obj) World) → Prop
  | none => True
  | some s => s.pc = head-1 → ∃ base, code.insns[head-1]? = some (.getIter slot base) ∧
      s.regs base = some (.object (O.range start stop step))

end conditions

/-! ## The setup -/

section setup
variable {Obj World : Type}

/-- The registers hold the integers of the environment. -/
def SoundEnv (env : List (Reg × ℤ)) (regs : Regs (Value Obj)) : Prop :=
  ∀ r v, env.lookup r = some v → ∃ w, regs r = some w ∧ asInt w = some v

theorem SoundEnv.upsert {env env' : List (Reg × ℤ)} {regs : Regs (Value Obj)} {dst : Reg} {v : ℤ}
    {w : Value Obj} (h : SoundEnv env regs)
    (hu : RangeTrace.upsert dst v (fun _ => some v) env = some env') (hw : asInt w = some v) :
    SoundEnv env' (Function.update regs dst (some w)) := by
  obtain ⟨hself, hother⟩ := lookup_upsert hu
  intro r u hr
  by_cases hd : r = dst
  · subst hd
    have huv : u = v := by
      rw [hself] at hr
      cases hl : env.lookup r <;> simp only [hl, Option.some.injEq] at hr <;> exact hr.symm
    exact ⟨w, Function.update_self .., huv ▸ hw⟩
  · rw [hother r hd] at hr
    rw [Function.update_of_ne hd]
    exact h r u hr

theorem asInt_mkInt {v : ℤ} (h : Fits 64 v) : asInt (mkInt v : Value Obj) = some v := by
  rw [fits_64] at h
  rw [mkInt, if_pos (by omega)]
  rfl

theorem toIndex_of_asInt {w : Value Obj} {v : ℤ} (h : asInt w = some v) : toIndex w = some v := by
  have hv := intValue_of_asInt h
  cases w
  case bool b => cases h
  all_goals exact hv

section runs
variable {O : RangeOperators Obj World} {consts : List (Value Obj)} {numLocals : ℕ}
  {insns : List Insn}

/-- A register the interpreted setup takes as known holds that integer. -/
theorem knownValue_sound {env : List (Reg × ℤ)} {s : State (Value Obj) World}
    (he : SoundEnv env s.regs) (hold : Holds (O.sem consts) numLocals insns (some s))
    (hplain : ∀ a b d, insns[s.pc]? ≠ some (.yieldFrom a b d)) {r : Reg} {v : ℤ}
    (h : knownValue consts (reachingConstReads insns numLocals) env s.pc r = some v) :
    ∃ w, s.regs r = some w ∧ asInt w = some v := by
  rw [knownValue] at h
  cases hl : env.lookup r with
  | some u =>
    rw [hl] at h
    exact he r v (hl.trans h)
  | none =>
    rw [hl] at h
    obtain ⟨idx, hread, hc⟩ := Option.bind_eq_some_iff.mp h
    have hreg := @Holds.at_read _ _ _ _ ⟨insns, []⟩ _ _ _ hold hread hplain
    rw [intConst] at hc
    split at hc
    · rename_i u hu
      cases hc
      refine ⟨.int v, ?_, rfl⟩
      rw [hreg]
      simp [RangeOperators.sem, Operators.sem, List.getD_eq_getElem?_getD, hu]
    · cases hc

theorem finishRegs_returns {x : Insn} {dst : Reg} (hx : writesOn x .next = [dst])
    (w : Value Obj) (regs : Regs (Value Obj)) (world : World) :
    finishRegs numLocals x (Operators.returns w (view numLocals regs) world) regs =
      Function.update regs dst (some w) := by
  simp [finishRegs, Operators.returns, hx, view_self, writeAll]

/-- Negating a machine integer whose negation is one. -/
theorem perform_neg {dst src : Reg} {regs : Regs (Value Obj)} {w : Value Obj} {v : ℤ}
    (hw : regs src = some w) (hv : asInt w = some v) (hf : Fits 64 (-v)) (world : World) :
    perform (O.sem consts) numLocals (.unaryOp dst .neg src) regs world =
      Operators.returns (mkInt (-v)) (view numLocals regs) world := by
  have hne : v ≠ -2^63 := by
    rw [fits_64] at hf
    omega
  have htagged : tryTaggedIntUnary w .neg = some (mkInt (-v)) := by
    rw [tryTaggedIntUnary, hv, Option.bind_some, if_neg hne]
  have hops : operands numLocals (.unaryOp dst .neg src) regs = [.value w] := by
    simp [operands, operandRegs, Insn.collectReads.eq_def, Machine.read, hw]
  rw [perform, hops]
  simp [outcome, Insn.shape.eq_def, RangeOperators.sem, RangeOperators.exec, Operators.sem,
    Operators.evalUnary, htagged, Operators.returns, settle.eq_def]

/-- An instruction of the setup puts the interpreted integer into its destination. -/
theorem setup_step {env : List (Reg × ℤ)} {s : State (Value Obj) World} {x : Insn} {dst : Reg}
    {v : ℤ} (he : SoundEnv env s.regs) (hold : Holds (O.sem consts) numLocals insns (some s))
    (hx : insns[s.pc]? = some x)
    (h : setupValue consts (reachingConstReads insns numLocals) env s.pc x = some (dst, v)) :
    ∃ w, asInt w = some v ∧
      finishRegs numLocals x (perform (O.sem consts) numLocals x s.regs s.world) s.regs =
        Function.update s.regs dst (some w) := by
  have hplain : ∀ a b d, insns[s.pc]? ≠ some (.yieldFrom a b d) := by
    intro a b d hy
    rw [hx, Option.some.injEq] at hy
    rw [hy] at h
    cases h
  unfold setupValue at h
  split at h
  · rename_i dst' idx
    obtain ⟨u, hu, heq⟩ := Option.map_eq_some_iff.mp h
    cases heq
    rw [intConst] at hu
    split at hu
    · rename_i k hk
      cases hu
      refine ⟨.int v, rfl, ?_⟩
      rw [perform_loadConst]
      simp [RangeOperators.sem, Operators.sem, List.getD_eq_getElem?_getD, hk]
    · cases hu
  · rename_i dst' src
    obtain ⟨u, hu, heq⟩ := Option.map_eq_some_iff.mp h
    cases heq
    obtain ⟨k, hk, hu⟩ := Option.bind_eq_some_iff.mp hu
    obtain ⟨rfl, hfits⟩ := checked_some hu
    obtain ⟨w, hw, hwk⟩ := knownValue_sound he hold hplain hk
    refine ⟨mkInt (-k), asInt_mkInt hfits, ?_⟩
    rw [perform_neg hw hwk hfits, finishRegs_returns rfl]
  · obtain ⟨u, hu, heq⟩ := Option.map_eq_some_iff.mp h
    cases heq
    obtain ⟨w, hw, hwk⟩ := knownValue_sound he hold hplain hu
    exact ⟨w, hwk, finishRegs_copied _ (.inl rfl) hw s.world⟩
  · obtain ⟨u, hu, heq⟩ := Option.map_eq_some_iff.mp h
    cases heq
    obtain ⟨w, hw, hwk⟩ := knownValue_sound he hold hplain hu
    exact ⟨w, hwk, finishRegs_copied _ (.inr rfl) hw s.world⟩
  · cases h

/-! ## The call -/

theorem indexArgs_read {regs : Regs (Value Obj)} (args : List ℤ) (base : Reg)
    (h : ∀ (k : ℕ) (v : ℤ), args[k]? = some v → ∃ w, regs (base+k) = some w ∧ asInt w = some v) :
    indexArgs ((List.range' base args.length).map (Machine.read numLocals regs)) = some args := by
  induction args generalizing base with
  | nil => rfl
  | cons v args ih =>
    obtain ⟨w, hw, hv⟩ := h 0 v rfl
    have hrest := ih (base+1) fun k u hu => by
      have := h (k+1) u (by simpa using hu)
      rwa [Nat.add_assoc, Nat.add_comm 1 k]
    rw [List.length_cons, List.range'_succ, List.map_cons]
    rw [Nat.add_zero] at hw
    have hread : Machine.read numLocals regs base = .value w := by rw [Machine.read, hw]
    rw [hread, indexArgs, toIndex_of_asInt hv, Option.bind_some, hrest]
    rfl

/-- The traced argument list. -/
def Traced (args : List ℤ) (start stop step : ℤ) : Prop :=
  (args = [stop] ∧ start = 0 ∧ step = 1) ∨ (args = [start, stop] ∧ step = 1) ∨
    args = [start, stop, step]

/-- A call of `range` that goes through makes the range of its arguments. -/
theorem perform_range {base argc : ℕ} {regs : Regs (Value Obj)} {f : Obj} {args : List ℤ}
    {start stop step : ℤ} (hf : regs base = some (.object f)) (hr : O.isRange f = true)
    (hlen : args.length = argc)
    (hargs : ∀ (k : ℕ) (v : ℤ), args[k]? = some v →
      ∃ w, regs (base+1+k) = some w ∧ asInt w = some v)
    (htriple : Traced args start stop step) (world : World)
    (hflow : (perform (O.sem consts) numLocals (.call base argc) regs world).flow = .next) :
    finishRegs numLocals (.call base argc)
        (perform (O.sem consts) numLocals (.call base argc) regs world) regs =
      Function.update regs base (some (.object (O.range start stop step))) := by
  have hops : operands numLocals (.call base argc) regs =
      .value (.object f)::(List.range' (base+1) args.length).map (Machine.read numLocals regs) := by
    rw [operands]
    show (List.range' base (argc+1)).map (Machine.read numLocals regs) = _
    rw [List.range'_succ, List.map_cons, hlen, Machine.read, hf]
  have hcall : perform (O.sem consts) numLocals (.call base argc) regs world =
      { O.callRange args (view numLocals regs) world with
        flow := settle (.call 0 argc) (O.callRange args (view numLocals regs) world).flow } := by
    rw [perform, hops]
    simp [outcome, Insn.shape.eq_def, RangeOperators.sem, RangeOperators.exec, hr,
      indexArgs_read args (base+1) hargs]
  have htriple' : rangeTriple args = some (start, stop, step) := by
    rcases htriple with ⟨rfl, rfl, rfl⟩ | ⟨rfl, rfl⟩ | rfl
    · rfl
    · rfl
    · by_cases h0 : step = 0
      · rw [hcall] at hflow
        simp [RangeOperators.callRange, rangeTriple, h0, settle.eq_def] at hflow
      · simp [rangeTriple, h0]
  rw [hcall]
  simp only [RangeOperators.callRange, htriple']
  exact finishRegs_returns rfl _ regs world

/-! ## Runs -/

/-- The window between the load of `range` and the loop header. -/
structure Window (consts : List (Value Obj)) (numLocals : ℕ) (insns : List Insn)
    (names : List String) (head slot : ℕ) (start stop step : ℤ) (base lg : ℕ)
    (env : List (Reg × ℤ)) (args : List ℤ) : Prop where
  two : 2 ≤ head
  iter : insns[head-1]? = some (.getIter slot base)
  call : insns[head-2]? = some (.call base args.length)
  found : findLoadGlobal insns names (head-2) args.length base = some lg
  ahead : lg < head-2
  setup : interpretSetup consts (reachingConstReads insns numLocals)
    ((insns.take (head-2)).drop (lg+1)) (lg+1) [] = some env
  known : ∀ (k : ℕ) (v : ℤ), args[k]? = some v →
    knownValue consts (reachingConstReads insns numLocals) env (head-2) (base+1+k) = some v
  triple : Traced args start stop step

theorem window_of_traced {names : List String} {head slot : ℕ} {start stop step : ℤ}
    (h : tracedConstRangeBounds consts (reachingConstReads insns numLocals) insns names head slot =
      some (start, stop, step)) :
    ∃ base lg env args,
      Window consts numLocals insns names head slot start stop step base lg env args := by
  unfold tracedConstRangeBounds at h
  split at h
  · cases h
  rename_i htwo
  split at h
  swap
  · cases h
  rename_i iterSlot base callee argc hiter hcall
  split at h
  swap
  · cases h
  rename_i hguard
  obtain ⟨rfl, rfl, hge, hle⟩ := hguard
  simp only [Option.bind_eq_bind, Option.bind_eq_some_iff] at h
  obtain ⟨lg, hlg, env, henv, h⟩ := h
  have hahead : lg < head-2 := by
    have hmem := List.mem_of_find?_eq_some hlg
    rw [List.mem_reverse, List.mem_range'_1] at hmem
    generalize head-2-(1+argc*maxSetupPerArg) = first at hmem
    omega
  have hwin : ∀ args, args.length = argc → (∀ (k : ℕ) (v : ℤ), args[k]? = some v →
      knownValue consts (reachingConstReads insns numLocals) env (head-2) (callee+1+k) =
        some v) → Traced args start stop step →
      ∃ base lg env args,
        Window consts numLocals insns names head iterSlot start stop step base lg env args := by
    intro args hlen hargs htriple
    subst hlen
    exact ⟨callee, lg, env, args, by omega, hiter, hcall, hlg, hahead, henv, hargs, htriple⟩
  have hargc : argc = 1 ∨ argc = 2 ∨ argc = 3 := by omega
  rcases hargc with rfl | rfl | rfl
  · obtain ⟨b, hb, heq⟩ := Option.bind_eq_some_iff.mp h
    cases heq
    apply hwin [stop] rfl _ (.inl ⟨rfl, rfl, rfl⟩)
    intro k v hv
    match k, hv with
    | 0, hv => cases hv; exact hb
  · obtain ⟨a, ha, h⟩ := Option.bind_eq_some_iff.mp h
    obtain ⟨b, hb, heq⟩ := Option.bind_eq_some_iff.mp h
    cases heq
    apply hwin [start, stop] rfl _ (.inr (.inl ⟨rfl, rfl⟩))
    intro k v hv
    match k, hv with
    | 0, hv => cases hv; exact ha
    | 1, hv => cases hv; exact hb
  · obtain ⟨a, ha, h⟩ := Option.bind_eq_some_iff.mp h
    obtain ⟨b, hb, h⟩ := Option.bind_eq_some_iff.mp h
    obtain ⟨d, hd, heq⟩ := Option.bind_eq_some_iff.mp h
    cases heq
    apply hwin [start, stop, step] rfl _ (.inr (.inr rfl))
    intro k v hv
    match k, hv with
    | 0, hv => cases hv; exact ha
    | 1, hv => cases hv; exact hb
    | 2, hv => cases hv; exact hd

/-- What holds on the way through the window: the environment so far, and the range behind the
call. -/
def InWindow (O : RangeOperators Obj World) (consts : List (Value Obj)) (numLocals : ℕ)
    (insns : List Insn) (head base lg : ℕ) (env : List (Reg × ℤ)) (start stop step : ℤ) :
    Option (State (Value Obj) World) → Prop
  | none => True
  | some s =>
    (lg < s.pc → s.pc ≤ head-2 → ∃ e, SoundEnv e s.regs ∧
      interpretSetup consts (reachingConstReads insns numLocals)
        ((insns.take (head-2)).drop s.pc) s.pc e = some env) ∧
    (s.pc = head-1 → s.regs base = some (.object (O.range start stop step)))

variable {names : List String} {head slot base lg : ℕ} {start stop step : ℤ}
  {env : List (Reg × ℤ)} {args : List ℤ} {excTable : List (Option ℕ)}

theorem inWindow_step
    (hw : Window consts numLocals insns names head slot start stop step base lg env args)
    {obs : Observer} {s s' : Option (State (Value Obj) World)}
    {es : List (Event (Value Obj) World)}
    (hin : InWindow O consts numLocals insns head base lg env start stop step s)
    (hold : Holds (O.sem consts) numLocals insns s)
    (henters : EntersAhead O consts numLocals ⟨insns, excTable⟩ names head s)
    (hcalls : CallsRange O ⟨insns, excTable⟩ head s)
    (hstep : (frame (O.sem consts) numLocals ⟨insns, excTable⟩ obs).step s = some (es, s')) :
    InWindow O consts numLocals insns head base lg env start stop step s' := by
  have htwo := hw.two
  have hahead := hw.ahead
  cases s' with
  | none => trivial
  | some s' =>
  cases s with
  | none => cases hstep
  | some s =>
  obtain ⟨x, hx, hregs, hgo⟩ := frame_moves hstep
  have hfall := henters base args.length lg x s'.pc s'.handlers hw.call hw.found hx hgo
  constructor
  · intro hlt hle
    obtain ⟨hflow, hpc⟩ := hfall hlt (by omega)
    by_cases hlg : s.pc = lg
    · have hempty : SoundEnv [] s'.regs := fun r v hr => nomatch hr
      rw [hpc, hlg] at *
      exact ⟨[], hempty, hw.setup⟩
    · obtain ⟨e, hse, he⟩ := hin.1 (by omega) (by omega)
      have hdrop : (insns.take (head-2)).drop s.pc = x::(insns.take (head-2)).drop (s.pc+1) := by
        have hget : (insns.take (head-2))[s.pc]? = some x := by
          rw [List.getElem?_take_of_lt (by omega)]
          exact hx
        obtain ⟨hlen, hval⟩ := List.getElem?_eq_some_iff.mp hget
        rw [← hval]
        exact List.drop_eq_getElem_cons hlen
      rw [hdrop] at he
      simp only [interpretSetup, Option.bind_eq_bind, Option.bind_eq_some_iff] at he
      obtain ⟨⟨dst, v⟩, hv, e', he', hrest⟩ := he
      obtain ⟨w, hwv, hset⟩ := setup_step hse hold hx hv
      refine ⟨e', ?_, by rw [hpc]; exact hrest⟩
      rw [hregs, hset]
      exact hse.upsert he' hwv
  · intro hpc'
    obtain ⟨hflow, hpc⟩ := hfall (by omega) (by omega)
    have hat : s.pc = head-2 := by omega
    obtain ⟨f, hf, hr⟩ := hcalls hat base args.length hw.call
    obtain ⟨e, hse, he⟩ := hin.1 (by omega) (by omega)
    have hxc : x = .call base args.length := by
      have hcall := hw.call
      rw [← hat] at hcall
      exact Option.some.inj (hx.symm.trans hcall)
    subst hxc
    have henv : e = env := by
      rw [hat, List.drop_eq_nil_of_le (by simp)] at he
      exact Option.some.inj he
    subst henv
    have hplain : ∀ a b d, insns[s.pc]? ≠ some (.yieldFrom a b d) := by
      intro a b d hy
      have := hx.symm.trans hy
      cases this
    have hargs : ∀ (k : ℕ) (v : ℤ), args[k]? = some v →
        ∃ w, s.regs (base+1+k) = some w ∧ asInt w = some v := fun k v hk =>
      knownValue_sound hse hold hplain (hat ▸ hw.known k v hk)
    rw [hregs, perform_range hf hr rfl hargs hw.triple s.world hflow]
    exact Function.update_self ..

/-- In every run that enters the setup only through its load, calls the built-in `range` and has
its exceptions contained, the object that the loop iterates is the range of the traced triple. -/
theorem traced_bounds_iterated (O : RangeOperators Obj World) (consts : List (Value Obj))
    (numLocals : ℕ) (insns : List Insn) (excTable : List (Option ℕ)) (names : List String)
    (head slot : ℕ) (start stop step : ℤ)
    (h : tracedConstRangeBounds consts (reachingConstReads insns numLocals) insns names head slot =
      some (start, stop, step)) (obs : Observer) (regs : Regs (Value Obj)) (world : World)
    (hrun : (frame (O.sem consts) numLocals ⟨insns, excTable⟩ obs).Along (fun s =>
        EntersAhead O consts numLocals ⟨insns, excTable⟩ names head s ∧
        CallsRange O ⟨insns, excTable⟩ head s ∧
        Contained (O.sem consts) numLocals ⟨insns, excTable⟩ s)
      (State.enter regs world)) :
    (frame (O.sem consts) numLocals ⟨insns, excTable⟩ obs).Along
      (Iterates O ⟨insns, excTable⟩ head slot start stop step) (State.enter regs world) := by
  obtain ⟨base, lg, env, args, hw⟩ := window_of_traced h
  have hholds : (frame (O.sem consts) numLocals ⟨insns, excTable⟩ obs).Along
      (Holds (O.sem consts) numLocals insns) (State.enter regs world) :=
    reaching_sound fun n s hs => (hrun n s hs).2.2
  have hwin : (frame (O.sem consts) numLocals ⟨insns, excTable⟩ obs).Along
      (InWindow O consts numLocals insns head base lg env start stop step)
      (State.enter regs world) := by
    refine Machine.along_of_along (P := fun s =>
      Holds (O.sem consts) numLocals insns s ∧
      EntersAhead O consts numLocals ⟨insns, excTable⟩ names head s ∧
      CallsRange O ⟨insns, excTable⟩ head s) ?_ ?_ ?_
    · intro s es s' hin hp hstep
      exact inWindow_step hw hin hp.1 hp.2.1 hp.2.2 hstep
    · have htwo := hw.two
      exact ⟨fun hlt => absurd hlt (Nat.not_lt_zero lg),
        fun hpc => absurd hpc (show 0 ≠ head-1 by omega)⟩
    · intro n s hs
      exact ⟨hholds n s hs, (hrun n s hs).1, (hrun n s hs).2.1⟩
  intro n s hs
  cases s with
  | none => trivial
  | some s => exact fun hpc => ⟨base, hw.iter, (hwin n _ hs).2 hpc⟩

end runs
end setup

/-! ## Examples -/

inductive Thing where
  | rangeType | other
  | range (start stop step : ℤ)
  deriving DecidableEq

/-- Global loads and calls of anything but `range` take their results from a script, and
conditional jumps are taken. -/
def scriptedRanges : RangeOperators Thing (List (Value Thing)) where
  base :=
    { rest := ⟨fun _ => .none, .none, fun shape _ locals world => match shape with
        | .jumpIfTrue _ _ | .forIter _ _ _ =>
          ⟨world, locals, .jump, fun _ => none, fun _ => false⟩
        | _ => ⟨world.tail, locals, .next, fun _ => some (world.headD .none), fun _ => false⟩,
        fun _ world => world, some⟩
      binary _ _ _ locals world := ⟨world, locals, .raise, fun _ => none, fun _ => false⟩
      truthy _ := true
      userDefined _ := false
      unaryObject _ _ locals world := ⟨world, locals, .raise, fun _ => none, fun _ => false⟩
      unaryError _ _ locals world := ⟨world, locals, .raise, fun _ => none, fun _ => false⟩ }
  isRange f := f = .rangeType
  range := .range
  argumentError world := world

/-- `for v in range(5)` up to its header. -/
def forRange : List Insn :=
  [.loadGlobal 2 0, .loadConst 3 0, .call 2 1, .getIter 0 2, .forIter 1 0 0]

/-- The conditions on a run at a state whose instruction falls through. -/
theorem orderly_of_next {O : RangeOperators Thing (List (Value Thing))}
    {consts : List (Value Thing)} {s : State (Value Thing) (List (Value Thing))} {x : Insn}
    (hx : forRange[s.pc]? = some x)
    (hf : (perform (O.sem consts) 2 x s.regs s.world).flow = .next)
    (hcall : s.pc = 2 → ∃ f, s.regs 2 = some (.object f) ∧ O.isRange f = true) :
    EntersAhead O consts 2 ⟨forRange, []⟩ ["range"] 4 (some s) ∧
      CallsRange O ⟨forRange, []⟩ 4 (some s) ∧
      Contained (O.sem consts) 2 ⟨forRange, []⟩ (some s) := by
  refine ⟨?_, ?_, ?_⟩
  · intro base argc lg y pc hs _ _ hy hgo _ _
    cases hx.symm.trans hy
    rw [hf] at hgo ⊢
    rcases @transfer_cases ⟨forRange, []⟩ _ _ _ _ _ _ (hf ▸ perform_flow ..) hgo with
      h | h | h | h
    · exact h
    all_goals exact absurd h.1 (by decide)
  · intro hpc base argc hc
    cases hc
    exact hcall hpc
  · intro y h hs hy hraise
    cases hx.symm.trans hy
    rw [hf] at hraise
    cases hraise

/-- The conditions behind the header, where the loop ends at once. -/
theorem behind_header {s : Option (State (Value Thing) (List (Value Thing)))}
    (hpc : ∀ t, s = some t → t.pc = 4 ∨ t.pc = 5) :
    EntersAhead scriptedRanges [.int 5] 2 ⟨forRange, []⟩ ["range"] 4 s ∧
      CallsRange scriptedRanges ⟨forRange, []⟩ 4 s ∧
      Contained (scriptedRanges.sem [.int 5]) 2 ⟨forRange, []⟩ s := by
  cases s with
  | none => exact ⟨trivial, trivial, trivial⟩
  | some t =>
    have hinsn : ∀ x, forRange[t.pc]? = some x → t.pc = 4 ∧ x = .forIter 1 0 0 := by
      intro x hx
      rcases hpc t rfl with h | h <;> rw [h] at hx <;> cases hx
      exact ⟨h, rfl⟩
    refine ⟨?_, ?_, ?_⟩
    · intro base argc lg x pc hs _ _ hx hgo _ hlt
      obtain ⟨h4, rfl⟩ := hinsn x hx
      rw [h4] at hgo
      cases hgo
      exact absurd hlt (by decide)
    · intro h
      rcases hpc t rfl with h' | h' <;> exact absurd (h'.symm.trans h) (by decide)
    · intro x h hs hx hraise
      obtain ⟨_, rfl⟩ := hinsn x hx
      cases hraise

theorem traced_bounds_iterated_range_five :
    @tracedConstRangeBounds Thing [.int 5] (reachingConstReads forRange 2) forRange
        ["range"] 4 0 = some (0, 5, 1) ∧
      (frame (scriptedRanges.sem [.int 5]) 2 ⟨forRange, []⟩ fun _ _ => none).Along
        (Iterates scriptedRanges ⟨forRange, []⟩ 4 0 0 5 1)
        (State.enter (fun _ => none) [.object .rangeType]) := by
  have htrace : @tracedConstRangeBounds Thing [.int 5] (reachingConstReads forRange 2)
      forRange ["range"] 4 0 = some (0, 5, 1) := by decide
  refine ⟨htrace, traced_bounds_iterated scriptedRanges [.int 5] 2 forRange [] ["range"] 4 0 0 5 1
    htrace _ _ _ (Machine.along_of_stopped 7 rfl ?_)⟩
  intro m hm s hs
  match m, hs with
  | 0, hs => cases hs; exact orderly_of_next rfl rfl fun h => by cases h
  | 1, hs => cases hs; exact orderly_of_next rfl rfl fun h => by cases h
  | 2, hs => cases hs; exact orderly_of_next rfl rfl fun _ => ⟨.rangeType, rfl, rfl⟩
  | 3, hs => cases hs; exact orderly_of_next rfl rfl fun h => by cases h
  | 4, hs => exact behind_header (s := s) fun t ht => .inl (by cases ht; cases hs; rfl)
  | 5, hs => exact behind_header (s := s) fun t ht => .inr (by cases ht; cases hs; rfl)
  | 6, hs => cases hs; exact ⟨trivial, trivial, trivial⟩
  | m+7, hs => omega

/-- `for v in r or range(5)`: a true `r` is iterated itself. -/
def shortCircuit : List Insn :=
  [.loadGlobal 2 1, .jumpIfTrue 2 3, .loadGlobal 2 0, .loadConst 3 0, .call 2 1, .getIter 0 2,
    .forIter 1 0 0]

/-- The argument is loaded ahead of a handler, to which an exception behind the loop leads back. -/
def handlerAhead : List Insn :=
  [.loadConst 4 0, .setupExcept 1, .jump 5, .loadGlobal 2 0, .move 3 4, .call 2 1, .getIter 0 2,
    .forIter 1 0 2, .loadConst 4 1, .raiseAssertNoMsg]

/-- `range(5)` is proposed, and `range(0, 3)` is iterated: past the call, through a rebound name,
and behind a handler. -/
theorem traced_bounds_other_range :
    (@tracedConstRangeBounds Thing [.int 5] (reachingConstReads shortCircuit 2)
        shortCircuit ["range", "r"] 6 0 = some (0, 5, 1) ∧
      ∃ s, (frame (scriptedRanges.sem [.int 5]) 2 ⟨shortCircuit, []⟩ fun _ _ => none).after 2
          (State.enter (fun _ => none) [.object (.range 0 3 1)]) = some (some s) ∧
        s.pc = 5 ∧ s.regs 2 = some (.object (.range 0 3 1))) ∧
    (@tracedConstRangeBounds Thing [.int 5] (reachingConstReads forRange 2) forRange
        ["range"] 4 0 = some (0, 5, 1) ∧
      ∃ s, (frame (scriptedRanges.sem [.int 5]) 2 ⟨forRange, []⟩ fun _ _ => none).after 3
          (State.enter (fun _ => none) [.object .other, .object (.range 0 3 1)]) =
            some (some s) ∧
        s.pc = 3 ∧ s.regs 2 = some (.object (.range 0 3 1))) ∧
    (@tracedConstRangeBounds Thing [.int 5, .int 3] (reachingConstReads handlerAhead 2)
        handlerAhead ["range"] 7 0 = some (0, 5, 1) ∧
      ∃ s, (frame (scriptedRanges.sem [.int 5, .int 3]) 2 ⟨handlerAhead, []⟩ fun _ _ => none).after
          8 (State.enter (fun _ => none) [.none, .object .rangeType]) = some (some s) ∧
        s.pc = 6 ∧ s.regs 2 = some (.object (.range 0 3 1))) :=
  ⟨⟨by decide, _, rfl, rfl, rfl⟩, ⟨by decide, _, rfl, rfl, rfl⟩,
    ⟨by decide, _, rfl, rfl, rfl⟩⟩

end Pyrust.RangeBounds
