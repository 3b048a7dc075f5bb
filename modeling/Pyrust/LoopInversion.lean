import Pyrust.CompactionRuns

/-!
# Loop inversion

A `while` loop jumps back to its header, which tests the condition and leaves the
loop or enters the body. The pass replaces that jump by the opposite test, which
enters the body itself or falls through to the exit. The header stays: the loop is
entered through it, and every other jump to it still finds it. A pass behind it
drops what does nothing, the jump to the next instruction and the self-move.
-/

set_option autoImplicit false

namespace Pyrust.LoopInversion
open Bytecode Machine Compaction CompactionRuns Simulation

/-! ## The passes -/

/-- The offset of a loop header, and the test that is to stand at the end of its loop. -/
def loopHeader : Insn → Option (ℤ × (ℤ → Insn))
  | .cmpJumpIfFalseConst r op idx k => some (k, .cmpJumpIfTrueConst r op idx)
  | .cmpJumpIfFalse r op b k => some (k, .cmpJumpIfTrue r op b)
  | .cmpJumpIfTrueConst r op idx k => some (k, .cmpJumpIfFalseConst r op idx)
  | .cmpJumpIfTrue r op b k => some (k, .cmpJumpIfFalse r op b)
  | _ => none

def invertAt (out : List Insn) (j : ℕ) : List Insn :=
  match out[j]?.bind loopHeader with
  | none => out
  | some (k, recheck) =>
    if k < 2 then out
    else if out[j+k.toNat]? = some (.jump (-(k+1))) then out.set (j+k.toNat) (recheck (-k))
    else out

def passLoopInversion (insns : List Insn) : List Insn :=
  (List.range insns.length).foldl invertAt insns

def isTrivialNop : Insn → Bool
  | .jump k => k = 0
  | .move dst src => dst = src
  | .copyReg dst src => dst = src
  | _ => false

def passTrivialNop (insns : List Insn) : List Insn :=
  compact insns (insns.map fun i => !isTrivialNop i)

/-- The end `p` of the loop with header `j`, whose jump becomes `recheck (-k)`. -/
structure Inverted (insns : List Insn) (j p : ℕ) (k : ℤ) (recheck : ℤ → Insn) : Prop where
  header : insns[j]?.bind loopHeader = some (k, recheck)
  length : 2 ≤ k
  place : (p : ℤ) = j+k
  jump : insns[p]? = some (.jump (-(k+1)))

/-- What the pass has done to a stream so far. -/
structure Inverting (insns out : List Insn) : Prop where
  length : out.length = insns.length
  places : ∀ p, out[p]? = insns[p]? ∨ ∃ j k recheck, Inverted insns j p k recheck ∧
    out[p]? = some (recheck (-k))

theorem loopHeader_cases {i : Insn} {k : ℤ} {recheck : ℤ → Insn}
    (h : loopHeader i = some (k, recheck)) :
    (∃ r op idx, i = .cmpJumpIfFalseConst r op idx k ∧ recheck = .cmpJumpIfTrueConst r op idx) ∨
      (∃ r op b, i = .cmpJumpIfFalse r op b k ∧ recheck = .cmpJumpIfTrue r op b) ∨
      (∃ r op idx, i = .cmpJumpIfTrueConst r op idx k ∧ recheck = .cmpJumpIfFalseConst r op idx) ∨
      ∃ r op b, i = .cmpJumpIfTrue r op b k ∧ recheck = .cmpJumpIfFalse r op b := by
  unfold loopHeader at h
  split at h <;> cases h
  · exact .inl ⟨_, _, _, rfl, rfl⟩
  · exact .inr (.inl ⟨_, _, _, rfl, rfl⟩)
  · exact .inr (.inr (.inl ⟨_, _, _, rfl, rfl⟩))
  · exact .inr (.inr (.inr ⟨_, _, _, rfl, rfl⟩))

theorem recheck_header {i : Insn} {k : ℤ} {recheck : ℤ → Insn}
    (h : loopHeader i = some (k, recheck)) (k' : ℤ) :
    ∃ back, loopHeader (recheck k') = some (k', back) := by
  rcases loopHeader_cases h with ⟨_, _, _, rfl, rfl⟩ | ⟨_, _, _, rfl, rfl⟩ | ⟨_, _, _, rfl, rfl⟩ |
    ⟨_, _, _, rfl, rfl⟩ <;> exact ⟨_, rfl⟩

/-- An inverted jump is no header of another loop, for it leads back. -/
theorem Inverting.header {insns out : List Insn} (h : Inverting insns out) {j : ℕ} {k : ℤ}
    {recheck : ℤ → Insn} (hj : out[j]?.bind loopHeader = some (k, recheck)) (hk : 2 ≤ k) :
    insns[j]?.bind loopHeader = some (k, recheck) := by
  cases h.places j with
  | inl hsame => rwa [hsame] at hj
  | inr hinverted =>
    obtain ⟨j', k', recheck', hinverted, hout⟩ := hinverted
    obtain ⟨i, -, hheader⟩ := Option.bind_eq_some_iff.mp hinverted.header
    obtain ⟨back, hback⟩ := recheck_header hheader (-k')
    have hlength := hinverted.length
    rw [hout, Option.bind_some, hback] at hj
    cases hj
    omega

theorem recheck_ne_jump {i : Insn} {k : ℤ} {recheck : ℤ → Insn}
    (h : loopHeader i = some (k, recheck)) (k' off : ℤ) : recheck k' ≠ .jump off := by
  obtain ⟨back, hback⟩ := recheck_header h k'
  intro hjump
  rw [hjump] at hback
  cases hback

theorem invertAt_inverting {insns out : List Insn} (h : Inverting insns out) (j : ℕ) :
    Inverting insns (invertAt out j) := by
  rw [invertAt]
  split
  · exact h
  · rename_i k recheck hheader
    split
    · exact h
    · rename_i hk
      split
      · rename_i hjump
        refine ⟨by rw [List.length_set, h.length], fun p => ?_⟩
        rw [List.getElem?_set]
        split
        · rename_i hp
          have hback : insns[p]? = some (.jump (-(k+1))) := by
            rw [← hp]
            cases h.places (j+k.toNat) with
            | inl hsame => rwa [hsame] at hjump
            | inr hinverted =>
              obtain ⟨j', k', recheck', hinverted, hout⟩ := hinverted
              obtain ⟨i, -, hi⟩ := Option.bind_eq_some_iff.mp hinverted.header
              rw [hout] at hjump
              exact absurd (Option.some.inj hjump) (recheck_ne_jump hi _ _)
          refine .inr ⟨j, k, recheck, ⟨h.header hheader (by omega), by omega, by omega, hback⟩, ?_⟩
          rw [if_pos (hp ▸ (List.getElem?_eq_some_iff.mp hjump).1)]
        · exact h.places p
      · exact h

theorem passLoopInversion_inverting (insns : List Insn) :
    Inverting insns (passLoopInversion insns) := by
  have hfold : ∀ (js : List ℕ) (out : List Insn), Inverting insns out →
      Inverting insns (js.foldl invertAt out) := by
    intro js
    induction js with
    | nil => exact fun out h => h
    | cons j js ih => exact fun out h => ih _ (invertAt_inverting h j)
  exact hfold _ _ ⟨rfl, fun p => .inl rfl⟩

/-! ## Tests and what is observed of them -/

/-- Whether a compare-jump leaves on a true or on a false comparison. -/
def jumpsOn : Insn → Option Bool
  | .cmpJumpIfFalse _ _ _ _ | .cmpJumpIfFalseConst _ _ _ _ => some false
  | .cmpJumpIfTrue _ _ _ _ | .cmpJumpIfTrueConst _ _ _ _ => some true
  | _ => none

/-- The comparison of a compare-jump, whichever way it leaves. -/
def comparison : Insn → Insn
  | .cmpJumpIfTrue a op b k => .cmpJumpIfFalse a op b k
  | .cmpJumpIfTrueConst r op idx k => .cmpJumpIfFalseConst r op idx k
  | i => i

def Event.comparison {Val World : Type*} : Event Val World → Event Val World
  | .visit label shape operands => .visit label (LoopInversion.comparison shape) operands
  | .finish how locals world => .finish how locals world

/-- A comparison that was made: its truth value, unless it raised. -/
structure Verdict (Val World : Type*) where
  world : World
  locals : Regs Val
  result : Option Bool

abbrev Test (Val World : Type*) :=
  Insn → List (Operand Val) → Regs Val → World → Verdict Val World

def Verdict.outcome {Val World : Type*} (v : Verdict Val World) (leaves : Bool) :
    Outcome Val World where
  world := v.world
  locals := v.locals
  flow := match v.result with
    | none => .raise
    | some b => if b = leaves then .jump else .next
  results _ := none
  early _ := false

/-- The four compare-jumps make one comparison and differ in the answer they leave on. -/
def tested {Val World : Type*} (sem : Sem Val World) (test : Test Val World) : Sem Val World :=
  { sem with
    exec := fun shape ops locals world =>
      match jumpsOn shape with
      | some leaves => (test (comparison shape) ops locals world).outcome leaves
      | none => sem.exec shape ops locals world }

/-- Jumps and self-moves are not observed. -/
def isSilent : Insn → Bool
  | .jump _ => true
  | .move dst src => dst = src
  | .copyReg dst src => dst = src
  | _ => false

def visible : Observer := fun pc i => if isSilent i then none else some pc

/-- A test at the end of a loop counts as a visit to the header it was copied from. -/
def originals (insns : List Insn) : Observer := fun pc i =>
  if isSilent i then none
  else if insns[pc]? = some i then some pc
  else i.jumpOff.map fun k => ((pc : ℤ)+k).toNat

section tests
variable {Val World : Type*} {sem : Sem Val World} {test : Test Val World} {numLocals : ℕ}

/-- A header and the test made from it differ in the answer they leave on, and in the offset. -/
theorem header_twins {i : Insn} {k : ℤ} {recheck : ℤ → Insn}
    (h : loopHeader i = some (k, recheck)) (k' : ℤ) : ∃ leaves,
    jumpsOn i.shape = some leaves ∧ jumpsOn (recheck k').shape = some (!leaves) ∧
      comparison (recheck k').shape = comparison i.shape ∧
      operandRegs (recheck k') = operandRegs i ∧
      i.jumpOff = some k ∧ (recheck k').jumpOff = some k' ∧
      isSilent i = false ∧ isSilent (recheck k') = false := by
  rcases loopHeader_cases h with ⟨_, _, _, rfl, rfl⟩ | ⟨_, _, _, rfl, rfl⟩ | ⟨_, _, _, rfl, rfl⟩ |
    ⟨_, _, _, rfl, rfl⟩ <;> exact ⟨_, rfl, rfl, rfl, rfl, rfl, rfl, rfl, rfl⟩

theorem jumpsOn_shape (i : Insn) : jumpsOn i.shape = jumpsOn i := by
  cases i <;> rfl

theorem jumpsOn_cases {i : Insn} {leaves : Bool} (h : jumpsOn i = some leaves) :
    (∃ a op b k, i = .cmpJumpIfFalse a op b k ∧ leaves = false) ∨
      (∃ r op idx k, i = .cmpJumpIfFalseConst r op idx k ∧ leaves = false) ∨
      (∃ a op b k, i = .cmpJumpIfTrue a op b k ∧ leaves = true) ∨
      ∃ r op idx k, i = .cmpJumpIfTrueConst r op idx k ∧ leaves = true := by
  unfold jumpsOn at h
  split at h <;> cases h
  · exact .inl ⟨_, _, _, _, rfl, rfl⟩
  · exact .inr (.inl ⟨_, _, _, _, rfl, rfl⟩)
  · exact .inr (.inr (.inl ⟨_, _, _, _, rfl, rfl⟩))
  · exact .inr (.inr (.inr ⟨_, _, _, _, rfl, rfl⟩))

/-- A verdict asks for no flow that a compare-jump does not have. -/
theorem settle_test {shape : Insn} {leaves : Bool} (h : jumpsOn shape = some leaves)
    (v : Verdict Val World) :
    ({ v.outcome leaves with flow := settle shape (v.outcome leaves).flow } :
      Outcome Val World) = v.outcome leaves := by
  have hflow : settle shape (v.outcome leaves).flow = (v.outcome leaves).flow := by
    rw [Verdict.outcome]
    rcases jumpsOn_cases h with ⟨_, _, _, _, rfl, rfl⟩ | ⟨_, _, _, _, rfl, rfl⟩ |
      ⟨_, _, _, _, rfl, rfl⟩ | ⟨_, _, _, _, rfl, rfl⟩ <;> cases v.result with
      | none => rfl
      | some b => cases b <;> rfl
  rw [hflow]

theorem perform_test {i : Insn} {leaves : Bool} (h : jumpsOn i.shape = some leaves)
    (regs : Regs Val) (world : World) :
    perform (tested sem test) numLocals i regs world =
      (test (comparison i.shape) (operands numLocals i regs) (view numLocals regs) world).outcome
        leaves := by
  have hsettle := settle_test h (test (comparison i.shape) (operands numLocals i regs)
    (view numLocals regs) world)
  rw [jumpsOn_shape] at h
  rcases jumpsOn_cases h with ⟨_, _, _, _, rfl, rfl⟩ | ⟨_, _, _, _, rfl, rfl⟩ |
    ⟨_, _, _, _, rfl, rfl⟩ | ⟨_, _, _, _, rfl, rfl⟩ <;> exact hsettle

/-- A compare-jump writes no register, whatever called code does to the named locals. -/
theorem finishRegs_test {i : Insn} {leaves : Bool} (h : jumpsOn i.shape = some leaves)
    (v : Verdict Val World) (regs : Regs Val) :
    finishRegs numLocals i (v.outcome leaves) regs =
      fun r => if r < numLocals then v.locals r else regs r := by
  rw [jumpsOn_shape] at h
  obtain ⟨hwrites, hcalls⟩ : writesOn i (v.outcome leaves).flow = [] ∧
      i.mayInvalidateNamedLocals = true := by
    rcases jumpsOn_cases h with ⟨_, _, _, _, rfl, rfl⟩ | ⟨_, _, _, _, rfl, rfl⟩ |
      ⟨_, _, _, _, rfl, rfl⟩ | ⟨_, _, _, _, rfl, rfl⟩ <;>
      cases (v.outcome _).flow <;> exact ⟨rfl, rfl⟩
  rw [finishRegs, hwrites, if_pos hcalls]
  rfl

end tests

/-! ## The inverted stream -/

section inversion
variable {Val World : Type*} {sem : Sem Val World} {test : Test Val World} {numLocals : ℕ}
variable {insns : List Insn}

/-- The run of a stream, with its compare-jumps seen as comparisons. -/
def seen (sem : Sem Val World) (test : Test Val World) (numLocals : ℕ) (insns : List Insn)
    (obs : Observer) : Machine (Option (State Val World)) (Event Val World) :=
  (frame (tested sem test) numLocals ⟨insns, []⟩ obs).mapEvents Event.comparison

/-- The runs are at one place, or the old one has jumped back from the end of a loop. -/
inductive Rel (insns : List Insn) : State Val World → State Val World → Prop
  | same (s : State Val World) : Rel insns s s
  | back {t : State Val World} {j : ℕ} {k : ℤ} {recheck : ℤ → Insn}
      (h : Inverted insns j t.pc k recheck)
      (hout : (passLoopInversion insns)[t.pc]? = some (recheck (-k))) :
      Rel insns { t with pc := j } t

def lag : Option (State Val World) → Option (State Val World) → ℕ
  | some s, some t => if s.pc = t.pc then 1 else 0
  | _, _ => 0

theorem same_rel (o : Option (State Val World)) : Option.Rel (Rel insns) o o := by
  cases o with
  | none => exact .none
  | some s => exact .some (.same s)

theorem inverted_label {j p : ℕ} {k : ℤ} {recheck : ℤ → Insn} (h : Inverted insns j p k recheck) :
    originals insns p (recheck (-k)) = some j := by
  obtain ⟨i, -, hheader⟩ := Option.bind_eq_some_iff.mp h.header
  obtain ⟨leaves, -, -, -, -, -, hoff, -, hloud⟩ := header_twins hheader (-k)
  have hnew : insns[p]? ≠ some (recheck (-k)) := by
    rw [h.jump]
    intro heq
    exact recheck_ne_jump hheader _ _ (Option.some.inj heq).symm
  have hplace := h.place
  have hj : ((p : ℤ)+-k).toNat = j := by omega
  rw [originals, if_neg (by rw [hloud]; exact Bool.false_ne_true), if_neg hnew, hoff,
    Option.map_some, hj]

/-- Both tests lead to the same place, for they leave on opposite answers. -/
theorem inverted_transfer {j p : ℕ} {k : ℤ} {recheck : ℤ → Insn} {i : Insn} {leaves : Bool}
    (h : Inverted insns j p k recheck) (hi : insns[j]? = some i)
    (hjumps : jumpsOn i.shape = some leaves) (hs : List ℕ) (v : Verdict Val World) :
    transfer ⟨insns, []⟩ j hs i (v.outcome leaves).flow =
      transfer ⟨passLoopInversion insns, []⟩ p hs (recheck (-k)) (v.outcome (!leaves)).flow := by
  have hheader : loopHeader i = some (k, recheck) := by
    have := h.header
    rwa [hi] at this
  obtain ⟨leaves', hjumps', hjumpsBack, -, -, hoff, hoffBack, -, -⟩ := header_twins hheader (-k)
  have hlength := (passLoopInversion_inverting insns).length
  have hp : p < insns.length := (List.getElem?_eq_some_iff.mp h.jump).1
  have hplace := h.place
  have hlong := h.length
  have hexit : target insns.length j k = some (p+1) := by
    rw [target, if_pos (by omega)]
    exact congrArg some (by omega)
  have hbody : target (passLoopInversion insns).length p (-k) = some (j+1) := by
    rw [target, hlength, if_pos (by omega)]
    exact congrArg some (by omega)
  have hunmarked : ∀ {x : Insn} {b : Bool}, jumpsOn x.shape = some b →
      x.isHandlerMark = false := by
    intro x b hx
    rw [jumpsOn_shape] at hx
    rcases jumpsOn_cases hx with ⟨_, _, _, _, rfl, rfl⟩ | ⟨_, _, _, _, rfl, rfl⟩ |
      ⟨_, _, _, _, rfl, rfl⟩ | ⟨_, _, _, _, rfl, rfl⟩ <;> rfl
  have hnext : transfer ⟨insns, []⟩ j hs i .next = .goto (j+1) hs :=
    transfer_next (hunmarked hjumps)
  have hnextBack : transfer ⟨passLoopInversion insns, []⟩ p hs (recheck (-k)) .next =
      .goto (p+1) hs := transfer_next (hunmarked hjumpsBack)
  have hjump : transfer ⟨insns, []⟩ j hs i .jump = .goto (p+1) hs := by
    simp [transfer, hoff, hexit]
  have hjumpBack : transfer ⟨passLoopInversion insns, []⟩ p hs (recheck (-k)) .jump =
      .goto (j+1) hs := by
    simp [transfer, hoffBack, hbody]
  rw [Verdict.outcome, Verdict.outcome]
  cases v.result with
  | none => rfl
  | some b =>
    cases b <;> cases leaves <;>
      simp only [Bool.not_true, Bool.not_false, if_true, reduceCtorEq, if_false, hnext, hnextBack,
        hjump, hjumpBack]

theorem proceed_test (regs : Regs Val) (v : Verdict Val World) (leaves : Bool) (g : Goto) :
    proceed (tested sem test) numLocals regs (v.outcome leaves) g =
      proceed (tested sem test) numLocals regs (v.outcome (!leaves)) g := by
  cases g with
  | finish how => rfl
  | goto pc hs =>
    rw [Verdict.outcome, Verdict.outcome, proceed, proceed]
    cases v.result with
    | none => rfl
    | some b => cases b <;> cases leaves <;> rfl

/-- The old run tests at the header, the new one at the end of the loop. -/
theorem back_matched {t : State Val World} {j : ℕ} {k : ℤ} {recheck : ℤ → Insn}
    (h : Inverted insns j t.pc k recheck)
    (hout : (passLoopInversion insns)[t.pc]? = some (recheck (-k))) :
    Machine.Matched (seen sem test numLocals insns visible)
      (seen sem test numLocals (passLoopInversion insns) (originals insns))
      (Option.Rel (Rel insns)) lag (some { t with pc := j }) (some t) := by
  obtain ⟨i, hi, hheader⟩ := Option.bind_eq_some_iff.mp h.header
  obtain ⟨leaves, hjumps, hjumpsBack, hsame, hreads, -, -, hloud, -⟩ := header_twins hheader (-k)
  have hops : operands numLocals (recheck (-k)) t.regs = operands numLocals i t.regs := by
    rw [operands, operands, hreads]
  set v := test (comparison i.shape) (operands numLocals i t.regs) (view numLocals t.regs) t.world
    with hv
  have hperform : perform (tested sem test) numLocals i t.regs t.world = v.outcome leaves :=
    perform_test hjumps t.regs t.world
  have hperformBack : perform (tested sem test) numLocals (recheck (-k)) t.regs t.world =
      v.outcome (!leaves) := by
    rw [perform_test hjumpsBack, hsame, hops]
  set regs : Regs Val := fun r => if r < numLocals then v.locals r else t.regs r
  set after := proceed (tested sem test) numLocals regs (v.outcome leaves)
    (transfer ⟨insns, []⟩ j t.handlers i (v.outcome leaves).flow) with hafter
  have hafterBack : proceed (tested sem test) numLocals regs (v.outcome (!leaves))
      (transfer ⟨passLoopInversion insns, []⟩ t.pc t.handlers (recheck (-k))
        (v.outcome (!leaves)).flow) = after := by
    rw [hafter, inverted_transfer h hi hjumps, ← proceed_test]
  have hstep : (frame (tested sem test) numLocals ⟨insns, []⟩ visible).step
      (some { t with pc := j }) =
        some (.visit j i.shape (operands numLocals i t.regs)::after.1, after.2) := by
    rw [frame_step hi]
    simp only [hperform, finishRegs_test hjumps, visitEvents, visible, hloud]
    rfl
  have hstepBack : (frame (tested sem test) numLocals ⟨passLoopInversion insns, []⟩
      (originals insns)).step (some t) =
        some (.visit j (recheck (-k)).shape (operands numLocals i t.regs)::after.1, after.2) := by
    rw [frame_step hout]
    simp only [hperformBack, finishRegs_test hjumpsBack, visitEvents, inverted_label h, hops]
    rw [hafterBack]
    rfl
  refine .both _ _ _ (Machine.mapEvents_step Event.comparison hstep) ?_ (same_rel after.2)
  rw [seen, Machine.mapEvents_step Event.comparison hstepBack, List.map_cons, List.map_cons,
    Event.comparison, Event.comparison, hsame]

/-- One step of the two streams: together, but for the jump at the end of an inverted loop. -/
theorem rel_matched {s t : State Val World} (h : Rel insns s t) :
    Machine.Matched (seen sem test numLocals insns visible)
      (seen sem test numLocals (passLoopInversion insns) (originals insns))
      (Option.Rel (Rel insns)) lag (some s) (some t) := by
  have hinverting := passLoopInversion_inverting insns
  cases h with
  | back h hout => exact back_matched h hout
  | same s =>
    cases hinverting.places s.pc with
    | inl hsame =>
      cases hi : insns[s.pc]? with
      | none =>
        rw [hi] at hsame
        have hstep := @frame_none _ _ (tested sem test) numLocals ⟨insns, []⟩ visible s hi
        have hstep' := @frame_none _ _ (tested sem test) numLocals ⟨passLoopInversion insns, []⟩
          (originals insns) s hsame
        rw [hinverting.length] at hstep'
        exact .both _ _ _ (Machine.mapEvents_step _ hstep) (Machine.mapEvents_step _ hstep') .none
      | some i =>
        rw [hi] at hsame
        refine Machine.Matched.mapEvents Event.comparison (frame_both hi hsame ?_ rfl rfl ?_)
        · rw [visitEvents, visitEvents, visible, originals, if_pos hi]
        · rw [transfer_congr hinverting.length]
          cases transfer ⟨insns, []⟩ s.pc s.handlers i
              (perform (tested sem test) numLocals i s.regs s.world).flow with
          | goto pc hs => exact .goto fun w => .same _
          | finish how => exact .finish how
    | inr hinverted =>
      obtain ⟨j, k, recheck, hinverted, hout⟩ := hinverted
      have hplace := hinverted.place
      have hlong := hinverted.length
      have hlt : s.pc < insns.length := (List.getElem?_eq_some_iff.mp hinverted.jump).1
      have htarget : target insns.length s.pc (-(k+1)) = some j := by
        rw [target, if_pos (by omega)]
        exact congrArg some (by omega)
      have hstep := @frame_jump _ _ (tested sem test) numLocals ⟨insns, []⟩ visible s _ _
        hinverted.jump rfl htarget
      refine .left _ (Machine.mapEvents_step _ hstep) (.some (.back hinverted hout)) ?_
      have hne : j ≠ s.pc := by omega
      simp [lag, hne]

end inversion

/-! ## The trivial instructions -/

section trivial
variable {insns : List Insn}

def kept (insns : List Insn) : List Bool := insns.map fun i => !isTrivialNop i

theorem kept_getElem? {pc : ℕ} {i : Insn} (h : insns[pc]? = some i) :
    (kept insns)[pc]? = some (!isTrivialNop i) := by
  rw [kept, List.getElem?_map, h]
  rfl

theorem trivial_cases {i : Insn} (h : isTrivialNop i = true) :
    i = .jump 0 ∨ ∃ r, i = .move r r ∨ i = .copyReg r r := by
  unfold isTrivialNop at h
  split at h
  case h_4 => cases h
  all_goals obtain rfl := of_decide_eq_true h
  · exact .inl rfl
  · exact .inr ⟨_, .inl rfl⟩
  · exact .inr ⟨_, .inr rfl⟩

theorem silent_of_trivial {i : Insn} (h : isTrivialNop i = true) : isSilent i = true := by
  rcases trivial_cases h with rfl | ⟨r, rfl | rfl⟩
  · rfl
  · exact decide_eq_true rfl
  · exact decide_eq_true rfl

/-- A visit to the final stream, by the place of its instruction in the first one. -/
def origins (insns : List Insn) : Observer := fun pc _ =>
  let out := passLoopInversion insns
  let source := sourcePc (kept out) pc
  out[source]?.bind (originals insns source)

theorem origins_agree (insns : List Insn) : Agree (passLoopInversion insns)
    (kept (passLoopInversion insns)) (originals insns) (origins insns) where
  dropped pc i hi hk := by
    rw [kept_getElem? hi, Option.some.injEq, Bool.not_eq_false'] at hk
    rw [originals, if_pos (silent_of_trivial hk)]
  kept pc i hi hk := by
    rw [origins, sourcePc_newPc hk, hi, Option.bind_some]

theorem inRange_inverted (hr : InRange insns) : InRange (passLoopInversion insns) := by
  have hinverting := passLoopInversion_inverting insns
  intro pc i k hi hk
  rw [hinverting.length]
  cases hinverting.places pc with
  | inl hsame => exact hr pc i k (hsame ▸ hi) hk
  | inr hinverted =>
    obtain ⟨j, k', recheck, hinverted, hout⟩ := hinverted
    obtain ⟨x, -, hheader⟩ := Option.bind_eq_some_iff.mp hinverted.header
    obtain ⟨leaves, -, -, -, -, -, hoff, -, -⟩ := header_twins hheader (-k')
    have hplace := hinverted.place
    have hlong := hinverted.length
    have hlt : pc < insns.length := (List.getElem?_eq_some_iff.mp hinverted.jump).1
    rw [hout] at hi
    cases hi
    rw [hoff] at hk
    cases hk
    omega

variable {Val World : Type*} {sem : Sem Val World} {test : Test Val World} {numLocals : ℕ}

/-- A self-move that is visited finds its register set. -/
def SelfMovesBound (insns : List Insn) (c : Option (State Val World)) : Prop :=
  ∀ s, c = some s → ∀ r,
    insns[s.pc]? = some (.move r r) ∨ insns[s.pc]? = some (.copyReg r r) → (s.regs r).isSome = true

/-- A self-move of a set register is idle. -/
theorem idle_self_move {s : State Val World} {i : Insn} {r : Reg} {v : Val}
    (hi : insns[s.pc]? = some i) (hmove : i = .move r r ∨ i = .copyReg r r)
    (hv : s.regs r = some v) : Idle sem numLocals insns s := by
  have hperform := @perform_copied _ _ numLocals sem i r r s.regs v hmove hv s.world
  have hregs := @finishRegs_copied _ _ numLocals sem i r r s.regs v hmove hv s.world
  rw [hperform, ← congrArg (Function.update s.regs r) hv, Function.update_eq_self] at hregs
  have htransfer : transfer ⟨insns, []⟩ s.pc s.handlers i .next = .goto (s.pc+1) s.handlers := by
    cases hmove with
    | inl h =>
      subst h
      rfl
    | inr h =>
      subst h
      rfl
  rw [Idle, step, hi]
  simp only [hperform, hregs, htransfer, visitEvents, proceed, List.nil_append]

theorem trivial_idle {s : State Val World} {i : Insn} (hi : insns[s.pc]? = some i)
    (htrivial : isTrivialNop i = true) (hbound : SelfMovesBound insns (some s)) :
    Idle sem numLocals insns s := by
  rcases trivial_cases htrivial with rfl | ⟨r, rfl | rfl⟩
  · exact idle_jump_zero hi
  · obtain ⟨v, hv⟩ := Option.isSome_iff_exists.mp (hbound s rfl r (.inl hi))
    exact idle_self_move hi (.inl rfl) hv
  · obtain ⟨v, hv⟩ := Option.isSome_iff_exists.mp (hbound s rfl r (.inr hi))
    exact idle_self_move hi (.inr rfl) hv

theorem Inverted.not_trivial {j p : ℕ} {k : ℤ} {recheck : ℤ → Insn}
    (h : Inverted insns j p k recheck) : isTrivialNop (recheck (-k)) = false := by
  obtain ⟨i, -, hheader⟩ := Option.bind_eq_some_iff.mp h.header
  obtain ⟨leaves, -, -, -, -, -, -, -, hloud⟩ := header_twins hheader (-k)
  cases htrivial : isTrivialNop (recheck (-k)) with
  | false => rfl
  | true =>
    rw [silent_of_trivial htrivial] at hloud
    cases hloud

/-- A trivial instruction stands where it stood before the inversion. -/
theorem trivial_stands {pc : ℕ} {i : Insn} (hi : (passLoopInversion insns)[pc]? = some i)
    (htrivial : isTrivialNop i = true) : insns[pc]? = some i := by
  cases (passLoopInversion_inverting insns).places pc with
  | inl hsame => rwa [hsame] at hi
  | inr hinverted =>
    obtain ⟨j, k, recheck, hinverted, hout⟩ := hinverted
    rw [hout] at hi
    cases hi
    rw [hinverted.not_trivial] at htrivial
    cases htrivial

theorem trivial_of_dropped {pc : ℕ} (h : (kept insns)[pc]? = some false) :
    ∃ i, insns[pc]? = some i ∧ isTrivialNop i = true := by
  rw [kept, List.getElem?_map, Option.map_eq_some_iff] at h
  obtain ⟨i, hi, hkeep⟩ := h
  exact ⟨i, hi, by simpa using hkeep⟩

/-- What the old run does not trip over is idle in the inverted stream. -/
theorem inverted_idle {s t : State Val World} (h : Rel insns s t)
    (hbound : SelfMovesBound insns (some s)) :
    DropsIdle sem numLocals (passLoopInversion insns) (kept (passLoopInversion insns))
      (some t) := by
  intro u hu hdrop
  cases hu
  obtain ⟨i, hi, htrivial⟩ := trivial_of_dropped hdrop
  cases h with
  | same s =>
    have hstands := trivial_stands hi htrivial
    refine trivial_idle hi htrivial ?_
    intro u hu r hmove
    cases hu
    apply hbound s rfl r
    rwa [hstands, ← hi]
  | back h hout =>
    rw [hout] at hi
    cases hi
    rw [h.not_trivial] at htrivial
    cases htrivial

/-- A run in which every register that is read is set trips over no self-move. -/
theorem selfMovesBound_of_reads {c : Option (State Val World)}
    (h : ∀ s ∈ c, ∀ i ∈ insns[s.pc]?, ∀ r ∈ i.collectReads, (s.regs r).isSome = true) :
    SelfMovesBound insns c := by
  intro s hs r hmove
  cases hmove with
  | inl hi => exact h s hs _ hi r (List.mem_singleton_self r)
  | inr hi => exact h s hs _ hi r (List.mem_singleton_self r)

/-- The run of the inverted stream shows what the old run shows, and stays beside it. -/
theorem inverted_tracks (s : State Val World) :
    (seen sem test numLocals insns visible).Tracks
      (seen sem test numLocals (passLoopInversion insns) (originals insns))
      (Option.Rel (Rel insns)) (some s) (some s) := by
  apply @Machine.tracks_of_matched _ _ _ _ _ (Option.Rel (Rel insns)) lag
  · intro s t hst
    cases hst with
    | none => exact .stop rfl rfl
    | some hst => exact rel_matched hst
  · exact .some (.same s)

theorem inverted_drops_idle {s : State Val World}
    (hbound : (frame (tested sem test) numLocals ⟨insns, []⟩ visible).Along
      (SelfMovesBound insns) (some s)) :
    (seen sem test numLocals (passLoopInversion insns) (originals insns)).Along
      (DropsIdle (tested sem test) numLocals (passLoopInversion insns)
        (kept (passLoopInversion insns))) (some s) := by
  intro n t ht
  obtain ⟨m, s', hs', -, hrel⟩ := (inverted_tracks s).back n t ht
  rw [seen, Machine.after_mapEvents] at hs'
  cases hrel with
  | none =>
    intro u hu
    cases hu
  | some hrel => exact inverted_idle hrel (hbound m _ hs')

/-- What the pass behind the inversion drops, the run does not show. -/
theorem trivial_matched (hr : InRange insns) {s t : State Val World}
    (h : CompactionRuns.Rel (passLoopInversion insns) (kept (passLoopInversion insns)) s t)
    (hidle : DropsIdle (tested sem test) numLocals (passLoopInversion insns)
      (kept (passLoopInversion insns)) (some s)) :
    Machine.Matched (seen sem test numLocals (passLoopInversion insns) (originals insns))
      (seen sem test numLocals (passTrivialNop (passLoopInversion insns)) (origins insns))
      (Option.Rel (CompactionRuns.Rel (passLoopInversion insns) (kept (passLoopInversion insns))))
      (remaining (passLoopInversion insns)) (some s) (some t) := by
  have hlen : (kept (passLoopInversion insns)).length = (passLoopInversion insns).length := by
    rw [kept, List.length_map]
  exact (CompactionRuns.rel_matched hlen (inRange_inverted hr) (origins_agree insns) h
    hidle).mapEvents Event.comparison

/-- Inverted and cleaned of trivial instructions, a stream makes the same comparisons on the same
operands and executes the same instructions in the same order, whatever the tests answer, as long
as no self-move reads an unset register. Each comparison counts for the header it was written in,
and an instruction that is no jump and no self-move keeps all but its offset. -/
theorem loop_inversion_runs {Val World : Type*} (insns : List Insn) (hr : InRange insns)
    (sem : Sem Val World) (test : Test Val World) (numLocals : ℕ) (s : State Val World)
    (hpc : s.pc ≤ insns.length) (hh : ∀ h ∈ s.handlers, h ≤ insns.length)
    (hbound : (frame (tested sem test) numLocals ⟨insns, []⟩ visible).Along
      (SelfMovesBound insns) (some s)) :
    (seen sem test numLocals (passTrivialNop (passLoopInversion insns)) (origins insns)).behaviours
        (some (renumber (kept (passLoopInversion insns)) s)) =
      (seen sem test numLocals insns visible).behaviours (some s) ∧
    ∀ pc i, insns[pc]? = some i → isSilent i = false → ∃ fix,
      (passTrivialNop (passLoopInversion insns))[newPc (kept (passLoopInversion insns)) pc]? =
        some (i.fixOff fix) := by
  have hlength := (passLoopInversion_inverting insns).length
  constructor
  · have hinvert := (@inverted_tracks insns Val World sem test numLocals s).behaviours_eq
    have hstart : CompactionRuns.Rel (passLoopInversion insns) (kept (passLoopInversion insns)) s
        (renumber (kept (passLoopInversion insns)) s) := by
      rw [← hlength] at hpc hh
      exact ⟨rfl, hpc, hh⟩
    rw [hinvert]
    symm
    apply @Machine.behaviours_eq_along _ _ _ _ _ (Option.Rel (CompactionRuns.Rel _ _))
      (remaining (passLoopInversion insns)) _ _ _ _ (.some hstart) (inverted_drops_idle hbound)
    intro s t hst hidle
    cases hst with
    | none => exact .stop rfl rfl
    | some hst => exact trivial_matched hr hst hidle
  · intro pc i hi hloud
    have hsame : (passLoopInversion insns)[pc]? = some i := by
      cases (passLoopInversion_inverting insns).places pc with
      | inl hsame => rwa [hsame]
      | inr hinverted =>
        obtain ⟨j, k, recheck, hinverted, hout⟩ := hinverted
        rw [hinverted.jump] at hi
        cases hi
        cases hloud
    have hkeep : (kept (passLoopInversion insns))[pc]? = some true := by
      rw [kept_getElem? hsame]
      cases htrivial : isTrivialNop i with
      | false => rfl
      | true =>
        rw [silent_of_trivial htrivial] at hloud
        cases hloud
    exact ⟨_, compact_getElem? (by rw [List.length_map]) hsame hkeep⟩

end trivial

/-- A test that takes its answer from the script. -/
def scriptedTest : Test ℕ (List Flow) :=
  fun _ _ locals world => ⟨world.tail, locals, some (world.headD .next = .next)⟩

/-- `while a < b: f()`, with a self-move ahead of the call. -/
def callLoop : List Insn :=
  [.cmpJumpIfFalse 0 .lt 1 3, .move 2 2, .call 3 1, .jump (-4), .returnNone]

theorem loop_inversion_runs_call_loop :
    passTrivialNop (passLoopInversion callLoop) =
        [.cmpJumpIfFalse 0 .lt 1 2, .call 3 1, .cmpJumpIfTrue 0 .lt 1 (-2), .returnNone] ∧
      (seen scripted scriptedTest 2 (passTrivialNop (passLoopInversion callLoop))
          (origins callLoop)).behaviours
        (some (renumber (kept (passLoopInversion callLoop))
          ⟨0, fun _ => some 3, [.next, .next, .jump], []⟩)) =
      (seen scripted scriptedTest 2 callLoop visible).behaviours
        (some ⟨0, fun _ => some 3, [.next, .next, .jump], []⟩) := by
  refine ⟨by decide, (loop_inversion_runs callLoop (by decide) scripted scriptedTest 2 _ (by decide)
    (by simp) ?_).1⟩
  have hset : ∀ m ∈ List.range 7, ∀ c ∈ (frame (tested scripted scriptedTest) 2 ⟨callLoop, []⟩
      visible).after m (some ⟨0, fun _ => some 3, [.next, .next, .jump], []⟩),
      ∀ s ∈ c, ∀ i ∈ callLoop[s.pc]?, ∀ r ∈ i.collectReads, (s.regs r).isSome = true := by
    decide
  refine Machine.along_of_stopped 7 rfl ?_
  intro m hm c hc
  exact selfMovesBound_of_reads (hset m (List.mem_range.mpr hm) c hc)

/-- A self-move of a register that is not set. -/
def unsetSelfMove : List Insn := [.move 0 0, .returnNone]

/-- The dropped self-move would have raised. -/
theorem unset_self_move_dropped :
    InRange unsetSelfMove ∧
      (seen scripted scriptedTest 1 (passTrivialNop (passLoopInversion unsetSelfMove))
          (origins unsetSelfMove)).behaviours
        (some (renumber (kept (passLoopInversion unsetSelfMove)) ⟨0, fun _ => none, [], []⟩)) ≠
      (seen scripted scriptedTest 1 unsetSelfMove visible).behaviours
        (some ⟨0, fun _ => none, [], []⟩) := by
  refine ⟨by decide, Machine.behaviours_ne (fun es => (visits es).length) 1 1 rfl ?_⟩
  decide

end Pyrust.LoopInversion
