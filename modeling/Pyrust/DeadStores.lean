import Pyrust.CompactionRuns

/-!
# Dead-store elimination

A store of a constant or a copy to a temporary is dropped when the straight-line
code behind it overwrites the temporary before reading it. The scan sees jumps
and returns. It does not see the edges that a raise takes to a handler, nor the
branch of `matchExceptStar`; those are the hidden edges below.
-/

set_option autoImplicit false

namespace Pyrust.DeadStores

open Bytecode Machine Compaction CompactionRuns ControlGraph Simulation

/-- The temporary that a droppable store writes. -/
def storeDst (numLocals : ℕ) : Insn → Option Reg
  | .loadConst r _ | .loadNone r | .move r _ | .copyReg r _ => if numLocals ≤ r then some r else none
  | _ => none

def kills (insn : Insn) (r : Reg) : Bool :=
  insn.writableDst = some r || match insn with
    | .loadConst d _ | .move d _ => d = r
    | _ => false

/-- The state of the reverse loop: the nearest read and kill of each register and the nearest
control flow behind the position. The length of the stream stands for none. -/
structure Ahead where
  nextRead : Reg → ℕ
  nextKill : Reg → ℕ
  cfPos : ℕ
  cfIsCf : Bool

/-- Fold instruction `i` into the running state. -/
def Ahead.fold (i : ℕ) (insn : Insn) (a : Ahead) : Ahead where
  nextRead r := if r ∈ insn.collectReads then i else a.nextRead r
  nextKill r := if kills insn r then i else a.nextKill r
  cfPos := if insn.isTerminator || insn.isControlFlow then i else a.cfPos
  cfIsCf := if insn.isTerminator then false else if insn.isControlFlow then true else a.cfIsCf

def Ahead.dead (n : ℕ) (a : Ahead) (r : Reg) : Bool :=
  let read := a.nextRead r
  let kill := a.nextKill r
  if read < a.cfPos ∧ read ≤ kill then false
  else if kill < a.cfPos ∧ kill < read then true
  else if read = a.cfPos ∧ a.cfPos < n then false
  else if a.cfPos = n then true
  else !a.cfIsCf

def aheadFrom (n : ℕ) : ℕ → List Insn → Ahead
  | _, [] => ⟨fun _ => n, fun _ => n, n, false⟩
  | i, insn::rest => (aheadFrom n (i+1) rest).fold i insn

/-- The running state for the instructions from `i` on. -/
def ahead (insns : List Insn) (i : ℕ) : Ahead := aheadFrom insns.length i (insns.drop i)

def readAnywhere (insns : List Insn) (r : Reg) : Bool := insns.any fun x => r ∈ x.collectReads

def backEdgeAfter (insns : List Insn) (i : ℕ) : Bool := (insns.drop i).any Insn.isBackEdge

/-- The decision at one instruction. -/
def dropped (insns : List Insn) (numLocals i : ℕ) : Bool :=
  match (insns[i]?).bind (storeDst numLocals) with
  | none => false
  | some r =>
    if !readAnywhere insns r then true
    else if backEdgeAfter insns (i+1) then false
    else (ahead insns (i+1)).dead insns.length r

def keepMask (insns : List Insn) (numLocals : ℕ) : List Bool :=
  (List.range insns.length).map fun i => !dropped insns numLocals i

def passDeadStoreElim (insns : List Insn) (numLocals : ℕ) : List Insn :=
  compact insns (keepMask insns numLocals)

/-! ## What the scan has checked -/

section scan
variable {insns : List Insn} {r : Reg}

/-- The nearest instruction at or behind `i` with a property. -/
def nearest (p : Insn → Bool) (insns : List Insn) (i : ℕ) : ℕ := i+(insns.drop i).findIdx p

theorem nearest_before {p : Insn → Bool} {i k : ℕ} {x : Insn} (hi : i ≤ k)
    (hk : k < nearest p insns i) (hx : insns[k]? = some x) : p x = false := by
  have hlt : k-i < (insns.drop i).findIdx p := by
    rw [nearest] at hk
    omega
  have hget : (insns.drop i)[k-i]? = some x := by
    rw [List.getElem?_drop, Nat.add_sub_cancel' hi, hx]
  obtain ⟨hlen, rfl⟩ := List.getElem?_eq_some_iff.mp hget
  simpa using List.not_of_lt_findIdx hlt

theorem nearest_here {p : Insn → Bool} {i : ℕ} (h : nearest p insns i < insns.length) :
    ∃ x, insns[nearest p insns i]? = some x ∧ p x := by
  have hlt : (insns.drop i).findIdx p < (insns.drop i).length := by
    rw [nearest] at h
    rw [List.length_drop]
    omega
  refine ⟨(insns.drop i)[(insns.drop i).findIdx p], ?_, List.findIdx_getElem⟩
  rw [nearest, ← List.getElem?_drop, List.getElem?_eq_getElem hlt]

theorem aheadFrom_eq (n i : ℕ) (xs : List Insn) (h : i+xs.length = n) :
    (aheadFrom n i xs).nextRead r = i+xs.findIdx (fun x => r ∈ x.collectReads) ∧
      (aheadFrom n i xs).nextKill r = i+xs.findIdx (fun x => kills x r) ∧
      (aheadFrom n i xs).cfPos = i+xs.findIdx (fun x => x.isTerminator || x.isControlFlow) ∧
      ∀ x, xs[xs.findIdx fun x => x.isTerminator || x.isControlFlow]? = some x →
        (aheadFrom n i xs).cfIsCf = !x.isTerminator := by
  induction xs generalizing i with
  | nil => simpa [aheadFrom] using h.symm
  | cons x xs ih =>
    have ih := ih (i+1) (by simp at h; omega)
    simp only [aheadFrom, Ahead.fold, List.findIdx_cons]
    refine ⟨?_, ?_, ?_, ?_⟩
    · by_cases hp : r ∈ x.collectReads
      · simp [hp]
      · simp only [hp, if_false, decide_false, cond_false, ih.1]
        omega
    · by_cases hp : kills x r
      · simp [hp]
      · simp only [hp, cond_false, ih.2.1]
        simp
        omega
    · cases hp : x.isTerminator || x.isControlFlow with
      | true => simp
      | false =>
        simp only [cond_false, ih.2.2.1]
        simp
        omega
    · intro y hy
      cases ht : x.isTerminator with
      | true => simp_all
      | false =>
        cases hc : x.isControlFlow with
        | true => simp_all
        | false =>
          simp only [ht, hc, Bool.or_self, cond_false, List.getElem?_cons_succ] at hy
          simpa using ih.2.2.2 y hy

theorem ahead_eq {i : ℕ} (hi : i ≤ insns.length) :
    (ahead insns i).nextRead r = nearest (fun x => r ∈ x.collectReads) insns i ∧
      (ahead insns i).nextKill r = nearest (fun x => kills x r) insns i ∧
      (ahead insns i).cfPos = nearest (fun x => x.isTerminator || x.isControlFlow) insns i ∧
      ∀ x, insns[(ahead insns i).cfPos]? = some x → (ahead insns i).cfIsCf = !x.isTerminator := by
  have h := @aheadFrom_eq r insns.length i (insns.drop i) (by simp; omega)
  refine ⟨h.1, h.2.1, h.2.2.1, ?_⟩
  intro x hx
  apply h.2.2.2
  rw [List.getElem?_drop]
  rw [ahead, h.2.2.1] at hx
  exact hx

/-- Code that the scan walks over. -/
def passed (r : Reg) (x : Insn) : Bool :=
  !x.isTerminator && !x.isControlFlow && r ∉ x.collectReads && !kills x r

theorem nearest_bounds (p : Insn → Bool) {i : ℕ} (hi : i ≤ insns.length) :
    i ≤ nearest p insns i ∧ nearest p insns i ≤ insns.length := by
  have h := @List.findIdx_le_length _ p (insns.drop i)
  rw [List.length_drop] at h
  rw [nearest]
  omega

/-- Nothing in front of the nearest read, kill and control flow stops the scan. -/
theorem passed_before {i k : ℕ} {x : Insn} (hi : i ≤ k)
    (hr : k < nearest (fun x => r ∈ x.collectReads) insns i)
    (hk : k < nearest (fun x => kills x r) insns i)
    (hc : k < nearest (fun x => x.isTerminator || x.isControlFlow) insns i)
    (hx : insns[k]? = some x) : passed r x := by
  have h1 := nearest_before hi hr hx
  have h2 := nearest_before hi hk hx
  have h3 := nearest_before hi hc hx
  simp only [decide_eq_false_iff_not] at h1
  simp only [Bool.or_eq_false_iff] at h3
  simp [passed, h1, h2, h3]

/-- The register is killed, or the path ends, before it is read. -/
theorem dead_spec {i : ℕ} (hi : i ≤ insns.length) (h : (ahead insns i).dead insns.length r) :
    ∃ stop, i ≤ stop ∧ stop ≤ insns.length ∧
      (∀ k x, i ≤ k → k < stop → insns[k]? = some x → passed r x) ∧
      ∀ x, insns[stop]? = some x → r ∉ x.collectReads ∧
        (x.isTerminator ∨ kills x r ∧ x.isTerminator = false ∧ x.isControlFlow = false) := by
  obtain ⟨hread, hkill, hcf, hkind⟩ := @ahead_eq insns r i hi
  obtain ⟨hr1, hr2⟩ := nearest_bounds (fun x => r ∈ x.collectReads) hi
  obtain ⟨hk1, hk2⟩ := nearest_bounds (fun x => kills x r) hi
  obtain ⟨hc1, hc2⟩ := nearest_bounds (fun x => x.isTerminator || x.isControlFlow) hi
  have hbefore := @passed_before insns r i
  have hreads := @nearest_before insns (fun x => r ∈ x.collectReads) i
  simp only [Ahead.dead, hread, hkill, hcf] at h hkind
  split at h
  case isTrue => cases h
  case isFalse hfirst =>
    split at h
    case isTrue hkilled =>
      refine ⟨_, hk1, hk2, fun k x h1 h2 => hbefore h1 (by omega) h2 (by omega), ?_⟩
      intro x hx
      have hnot := hreads hk1 hkilled.2 hx
      have hflow := nearest_before hk1 hkilled.1 hx
      obtain ⟨y, hy, hky⟩ := nearest_here (show nearest (fun x => kills x r) insns i < _ by omega)
      rw [hx] at hy
      cases hy
      simp only [decide_eq_false_iff_not] at hnot
      simp only [Bool.or_eq_false_iff] at hflow
      exact ⟨hnot, .inr ⟨hky, hflow⟩⟩
    case isFalse hsecond =>
      split at h
      case isTrue => cases h
      case isFalse hthird =>
        split at h
        case isTrue hend =>
          refine ⟨insns.length, hi, le_rfl, ?_, by simp⟩
          exact fun k x h1 h2 => hbefore h1 (by omega) (by omega) (by omega)
        case isFalse hend =>
          refine ⟨_, hc1, hc2, fun k x h1 h2 => hbefore h1 (by omega) (by omega) h2, ?_⟩
          intro x hx
          have hnot := hreads hc1 (by omega) hx
          simp only [decide_eq_false_iff_not] at hnot
          rw [hkind x hx, Bool.not_not] at h
          exact ⟨hnot, .inl h⟩

end scan

/-! ## Hidden edges -/

section edges
variable {insns : List Insn} {numLocals : ℕ} {r : Reg}

/-- The ways out of straight-line code that the scan does not see. -/
def hiddenFlow : Insn → Flow → Bool
  | _, .raise => true
  | .matchExceptStar _ _ _ _, .jump => true
  | _, _ => false

/-- Straight-line code that leaves the register alone. -/
def leavesAlone (r : Reg) (x : Insn) : Bool :=
  passed r x && canFlow x .next && r ∉ overwritten x .next

/-- A hidden edge out of the code that follows a store and leaves the stored register alone. -/
def HiddenEdge (insns : List Insn) (r : Reg) (i : ℕ) (hs : List ℕ) (pc' : ℕ) (hs' : List ℕ) : Prop :=
  ∃ j x f, i < j ∧ (∀ k, i < k → k < j → ∃ y, insns[k]? = some y ∧ leavesAlone r y) ∧
    insns[j]? = some x ∧ canFlow x f ∧ hiddenFlow x f ∧
    transfer ⟨insns, []⟩ j hs x f = .goto pc' hs'

/-- No hidden edge behind a dropped store leads to code that may still read its register. -/
def NoHiddenUse (insns : List Insn) (numLocals : ℕ) : Prop :=
  ∀ i x r hs pc' hs', dropped insns numLocals i → insns[i]? = some x →
    storeDst numLocals x = some r → Reach ⟨insns, []⟩ i hs → HiddenEdge insns r i hs pc' hs' →
    ¬ Live ⟨insns, []⟩ r pc' hs'

/-- On every path behind a dropped store its register is overwritten before it is read. -/
def DeadBehind (insns : List Insn) (numLocals : ℕ) : Prop :=
  ∀ i x r hs, dropped insns numLocals i → insns[i]? = some x →
    storeDst numLocals x = some r → Reach ⟨insns, []⟩ i hs → ¬ Live ⟨insns, []⟩ r (i+1) hs

/-- Only named locals are deleted. -/
def DeletesNamed (insns : List Insn) (numLocals : ℕ) : Prop :=
  ∀ r n b, Insn.deleteLocal r n b ∈ insns → r < numLocals

theorem storeDst_cases {x : Insn} (h : storeDst numLocals x = some r) : numLocals ≤ r ∧
    ((∃ c, x = .loadConst r c) ∨ x = .loadNone r ∨ (∃ src, x = .move r src) ∨
      ∃ src, x = .copyReg r src) := by
  unfold storeDst at h
  split at h
  case h_5 => cases h
  all_goals
    obtain ⟨hr, heq⟩ := Option.ite_none_right_eq_some.mp h
    obtain rfl := Option.some.inj heq
    refine ⟨hr, ?_⟩
  · exact .inl ⟨_, rfl⟩
  · exact .inr (.inl rfl)
  · exact .inr (.inr (.inl ⟨_, rfl⟩))
  · exact .inr (.inr (.inr ⟨_, rfl⟩))

theorem storeDst_temp {x : Insn} (h : storeDst numLocals x = some r) : numLocals ≤ r :=
  (storeDst_cases h).1

theorem operandRegs_temp (hdel : DeletesNamed insns numLocals) (hr : numLocals ≤ r) {x : Insn}
    (hx : x ∈ insns) (h : r ∈ operandRegs x) : r ∈ x.collectReads := by
  cases x
  case deleteLocal a n b =>
    have hlt := hdel a n b hx
    rw [operandRegs, List.mem_singleton] at h
    exact absurd (h ▸ hlt) (Nat.not_lt.mpr hr)
  all_goals exact h

/-- A register that nothing reads is dead everywhere. -/
theorem not_live_of_unread (hdel : DeletesNamed insns numLocals) (hr : numLocals ≤ r)
    (h : readAnywhere insns r = false) {pc : ℕ} {hs : List ℕ} : ¬ Live ⟨insns, []⟩ r pc hs := by
  intro hl
  induction hl with
  | read hi hread =>
    have hmem := List.mem_of_getElem? hi
    simp only [readAnywhere, List.any_eq_false, decide_eq_true_eq] at h
    exact h _ hmem (operandRegs_temp hdel hr hmem hread)
  | pass _ _ _ _ _ ih => exact ih

theorem kills_overwritten {x : Insn} (h : kills x r) (hc : x.isControlFlow = false) :
    r ∈ overwritten x .next := by
  cases x <;> simp_all [kills, overwritten, writesOn.eq_def, Insn.writableDst.eq_def,
    Insn.collectWrites.eq_def, Insn.isControlFlow.eq_def]

theorem handlerMark_controlFlow {x : Insn} (h : x.isControlFlow = false) :
    x.isHandlerMark = false := by
  rcases mark_cases x with ⟨k, rfl⟩ | rfl | hmark
  · cases h
  · cases h
  · exact hmark

/-- The only branch that the list of control flow lacks. -/
theorem jump_hidden {x : Insn} (hf : canFlow x .jump) (hc : x.isControlFlow = false) :
    hiddenFlow x .jump := by
  cases x <;> first
    | rfl
    | (cases hf; done)
    | cases hc

theorem terminator_flow {x : Insn} {f : Flow} (hf : canFlow x f) (ht : x.isTerminator) :
    f = .raise ∨ f = .halt := by
  unfold Insn.isTerminator at ht
  split at ht <;> first
    | (cases ht; done)
    | cases f <;> first
      | exact .inl rfl
      | exact .inr rfl
      | cases hf

/-- Behind a store that the scan drops, its register stays dead up to where the scan stopped. -/
theorem dead_along (hdel : DeletesNamed insns numLocals) (hr : numLocals ≤ r) {i stop : ℕ}
    {hs : List ℕ}
    (hpassed : ∀ k x, i+1 ≤ k → k < stop → insns[k]? = some x → passed r x)
    (hstop : ∀ x, insns[stop]? = some x → r ∉ x.collectReads ∧
      (x.isTerminator ∨ kills x r ∧ x.isTerminator = false ∧ x.isControlFlow = false))
    (hno : ∀ pc' hs', HiddenEdge insns r i hs pc' hs' → ¬ Live ⟨insns, []⟩ r pc' hs') {pc : ℕ}
    {hs₀ : List ℕ} (hl : Live ⟨insns, []⟩ r pc hs₀) (heq : hs₀ = hs) (hi : i < pc)
    (hle : pc ≤ stop)
    (halone : ∀ k, i < k → k < pc → ∃ y, insns[k]? = some y ∧ leavesAlone r y) : False := by
  induction hl with
  | @read pc hs₀ x hx hread =>
    have hread := operandRegs_temp hdel hr (List.mem_of_getElem? hx) hread
    rcases hle.lt_or_eq with hlt | rfl
    · have hp := hpassed pc x hi hlt hx
      simp [passed, hread] at hp
    · exact (hstop x hx).1 hread
  | @pass pc pc' hs₀ hs' x f hx hf hw ht hl ih =>
    subst heq
    by_cases hidden : hiddenFlow x f
    · exact hno pc' hs' ⟨pc, x, f, hi, halone, hx, hf, hidden, ht⟩ hl
    · have hagain : f = .again → False := by
        rintro rfl
        cases ht
        exact ih rfl hi hle halone
      have hhalt : f = .halt → False := by
        rintro rfl
        cases ht
      have hraise : f = .raise → False := by
        rintro rfl
        simp [hiddenFlow] at hidden
      rcases hle.lt_or_eq with hlt | rfl
      · have hp := hpassed pc x hi hlt hx
        have hp' := hp
        simp only [passed, Bool.and_eq_true, Bool.not_eq_true'] at hp'
        cases f with
        | next =>
          rw [transfer_next (handlerMark_controlFlow hp'.1.1.2)] at ht
          cases ht
          apply ih rfl (by omega) (by omega)
          intro k h1 h2
          rcases Nat.lt_succ_iff_lt_or_eq.mp h2 with h2 | rfl
          · exact halone k h1 h2
          · exact ⟨x, hx, by simp [leavesAlone, hp, hf, hw]⟩
        | jump => exact hidden (jump_hidden hf hp'.1.1.2)
        | again => exact hagain rfl
        | raise => exact hraise rfl
        | halt => exact hhalt rfl
      · rcases (hstop x hx).2 with hterm | ⟨hkill, -, hc⟩
        · rcases terminator_flow hf hterm with h | h
          · exact hraise h
          · exact hhalt h
        · cases f with
          | next => exact hw (kills_overwritten hkill hc)
          | jump => exact hidden (jump_hidden hf hc)
          | again => exact hagain rfl
          | raise => exact hraise rfl
          | halt => exact hhalt rfl

theorem deadBehind_of_noHiddenUse (hdel : DeletesNamed insns numLocals)
    (h : NoHiddenUse insns numLocals) : DeadBehind insns numLocals := by
  intro i x r hs hd hx hr hreach hl
  have hlt : i < insns.length := (List.getElem?_eq_some_iff.mp hx).1
  have htemp := storeDst_temp hr
  have hno := fun pc' hs' => h i x r hs pc' hs' hd hx hr hreach
  simp only [dropped, hx, Option.bind_some, hr] at hd
  by_cases hread : readAnywhere insns r
  · simp only [hread, Bool.not_true, Bool.false_eq_true, if_false] at hd
    split at hd
    case isTrue => cases hd
    case isFalse =>
      obtain ⟨stop, h1, h2, hpassed, hstop⟩ := dead_spec hlt hd
      apply dead_along hdel htemp hpassed hstop hno hl rfl (by omega) h1
      intro k h1 h2
      omega
  · exact not_live_of_unread hdel htemp (by simpa using hread) hl

/-- Along code that leaves a register alone, it is live where it is live behind. -/
theorem live_before {i j : ℕ} {hs : List ℕ} (hij : i ≤ j)
    (halone : ∀ k, i ≤ k → k < j → ∃ y, insns[k]? = some y ∧ leavesAlone r y)
    (hl : Live ⟨insns, []⟩ r j hs) : Live ⟨insns, []⟩ r i hs := by
  induction j, hij using Nat.le_induction with
  | base => exact hl
  | succ j hj ih =>
    apply ih
    · intro k h1 h2
      exact halone k h1 (by omega)
    · obtain ⟨y, hy, ha⟩ := halone j hj (by omega)
      simp only [leavesAlone, passed, Bool.and_eq_true, Bool.not_eq_true', decide_eq_true_eq] at ha
      exact .pass hy ha.1.2 ha.2 (transfer_next (handlerMark_controlFlow ha.1.1.1.1.2)) hl

theorem hidden_cases {x : Insn} {f : Flow} (h : hiddenFlow x f) :
    f = .raise ∨ f = .jump ∧ ∃ pattern src dst k, x = .matchExceptStar pattern src dst k := by
  unfold hiddenFlow at h
  split at h
  · exact .inl rfl
  · exact .inr ⟨rfl, _, _, _, _, rfl⟩
  · cases h

theorem hidden_overwritten {x : Insn} {f : Flow} (h : hiddenFlow x f) : overwritten x f = [] := by
  rcases hidden_cases h with rfl | ⟨rfl, pattern, src, dst, k, rfl⟩ <;> rfl

/-- The stores the pass drops are dead exactly when no hidden edge leads to a use. -/
theorem deadBehind_iff (hdel : DeletesNamed insns numLocals) :
    DeadBehind insns numLocals ↔ NoHiddenUse insns numLocals := by
  refine ⟨?_, deadBehind_of_noHiddenUse hdel⟩
  rintro h i x r hs pc' hs' hd hx hr hreach ⟨j, y, f, hij, halone, hy, hf, hidden, ht⟩ hl
  apply h i x r hs hd hx hr hreach
  apply live_before hij halone
  exact .pass hy hf (by simp [hidden_overwritten hidden]) ht hl

end edges

/-! ## Runs -/

section run
variable {Val World : Type*} {sem : Sem Val World} {insns : List Insn} {numLocals : ℕ}

/-- The source of a copy that the pass drops is set when the copy is visited. -/
def SourceSet (insns : List Insn) (numLocals : ℕ) (c : Option (State Val World)) : Prop :=
  ∀ s x, c = some s → insns[s.pc]? = some x → dropped insns numLocals s.pc →
    ∀ r ∈ x.collectReads, (s.regs r).isSome

structure Rel (insns : List Insn) (numLocals : ℕ) (s t : State Val World) : Prop where
  pc : t.pc = newPc (keepMask insns numLocals) s.pc
  world : t.world = s.world
  handlers : t.handlers = s.handlers.map (newPc (keepMask insns numLocals))
  pc_le : s.pc ≤ insns.length
  handlers_le : ∀ h ∈ s.handlers, h ≤ insns.length
  reach : Reach ⟨insns, []⟩ s.pc s.handlers
  agree : Agree ⟨insns, []⟩ numLocals s.pc s.handlers s.regs t.regs

theorem keepMask_length : (keepMask insns numLocals).length = insns.length := by
  simp [keepMask]

theorem keepMask_getElem? {i : ℕ} (h : i < insns.length) :
    (keepMask insns numLocals)[i]? = some (!dropped insns numLocals i) := by
  simp [keepMask, h]

theorem dropped_store {i : ℕ} {x : Insn} (hx : insns[i]? = some x)
    (h : dropped insns numLocals i) : ∃ r, storeDst numLocals x = some r := by
  cases hr : storeDst numLocals x with
  | none => simp [dropped, hx, hr] at h
  | some r => exact ⟨r, rfl⟩

theorem storeDst_writes {x : Insn} {r : Reg} (h : storeDst numLocals x = some r) :
    x.collectWrites = [r] ∧ x.mayInvalidateNamedLocals = false := by
  obtain ⟨-, ⟨c, rfl⟩ | rfl | ⟨src, rfl⟩ | ⟨src, rfl⟩⟩ := storeDst_cases h <;> exact ⟨rfl, rfl⟩

/-- A store whose source is set falls through and changes its destination only. -/
theorem perform_store {x : Insn} {r : Reg} (h : storeDst numLocals x = some r) {regs : Regs Val}
    (hset : ∀ a ∈ x.collectReads, (regs a).isSome) (world : World) :
    (perform sem numLocals x regs world).flow = .next ∧
      (perform sem numLocals x regs world).world = world ∧
      ∀ a, a ≠ r → finishRegs numLocals x (perform sem numLocals x regs world) regs a = regs a := by
  have hframe : ∀ o : Outcome Val World, ∀ a, a ≠ r → finishRegs numLocals x o regs a = regs a := by
    intro o a ha
    apply finishRegs_frame
    · simp [(storeDst_writes h).1, ha]
    · simp [(storeDst_writes h).2]
  refine ⟨?_, ?_, hframe _⟩
  all_goals
    obtain ⟨-, ⟨c, rfl⟩ | rfl | ⟨src, rfl⟩ | ⟨src, rfl⟩⟩ := storeDst_cases h
    · rfl
    · rfl
    · obtain ⟨v, hv⟩ := Option.isSome_iff_exists.mp (hset src (by simp [Insn.collectReads.eq_def]))
      rw [perform_copied sem (.inl rfl) hv]
    · obtain ⟨v, hv⟩ := Option.isSome_iff_exists.mp (hset src (by simp [Insn.collectReads.eq_def]))
      rw [perform_copied sem (.inr rfl) hv]

theorem storeDst_handlerMark {x : Insn} {r : Reg} (h : storeDst numLocals x = some r) :
    x.isHandlerMark = false := by
  obtain ⟨-, ⟨c, rfl⟩ | rfl | ⟨src, rfl⟩ | ⟨src, rfl⟩⟩ := storeDst_cases h <;> rfl

/-- A dropped store is a silent step of the input that keeps the relation. -/
theorem Rel.drop {s t : State Val World} (h : Rel insns numLocals s t)
    (hdead : DeadBehind insns numLocals) (hset : SourceSet insns numLocals (some s)) {x : Insn}
    (hx : insns[s.pc]? = some x) (hd : dropped insns numLocals s.pc) :
    ∃ s', (frame sem numLocals ⟨insns, []⟩ (keptVisits (keepMask insns numLocals))).step (some s) =
      some ([], some s') ∧ s'.pc = s.pc+1 ∧ Rel insns numLocals s' t := by
  have hlt : s.pc < insns.length := (List.getElem?_eq_some_iff.mp hx).1
  obtain ⟨r, hr⟩ := dropped_store hx hd
  have hmask : (keepMask insns numLocals)[s.pc]? = some false := by
    rw [keepMask_getElem? hlt, hd]
    rfl
  have htr := @transfer_next ⟨insns, []⟩ s.pc s.handlers x (storeDst_handlerMark hr)
  obtain ⟨hflow, hworld, hregs⟩ :=
    @perform_store Val World sem numLocals x r hr s.regs (hset s x rfl hx hd) s.world
  have hcan := perform_flow sem numLocals x s.regs s.world
  rw [hflow] at hcan
  have hstep := @frame_silent Val World sem numLocals ⟨insns, []⟩
    (keptVisits (keepMask insns numLocals)) s x _ _ hx (keptVisits_of_dropped hmask x) hflow htr
  refine ⟨_, hstep, rfl, ?_, by rw [hworld]; exact h.world, h.handlers, hlt, h.handlers_le,
    .step h.reach hx hcan htr, ?_⟩
  · rw [h.pc, newPc_succ hmask]
    rfl
  · intro a ha
    have hne : a ≠ r := by
      rintro rfl
      rcases ha with ha | ha
      · exact absurd ha (Nat.not_lt.mpr (storeDst_temp hr))
      · exact hdead s.pc x a s.handlers hd hx hr h.reach ha
    simp only [hregs a hne]
    apply h.agree a
    refine ha.imp_right fun hl => .pass hx hcan ?_ htr hl
    intro hmem
    have hw : a ∈ x.collectWrites := writesOn_sub hmem
    simp [(storeDst_writes hr).1, hne] at hw

theorem rel_matched (hr : InRange insns) (hdead : DeadBehind insns numLocals)
    {s t : State Val World} (h : Rel insns numLocals s t)
    (hset : SourceSet insns numLocals (some s)) :
    Machine.Matched (frame sem numLocals ⟨insns, []⟩ (keptVisits (keepMask insns numLocals)))
      (frame sem numLocals ⟨passDeadStoreElim insns numLocals, []⟩ positions)
      (Option.Rel (Rel insns numLocals)) (remaining insns) (some s) (some t) := by
  have hlen := @keepMask_length insns numLocals
  rcases h.pc_le.lt_or_eq with hlt | heq
  · have hx := List.getElem?_eq_getElem hlt
    cases hd : dropped insns numLocals s.pc with
    | true =>
      obtain ⟨s', hstep, hpc, hrel⟩ := @Rel.drop Val World sem insns numLocals s t h hdead hset _ hx hd
      refine .left _ hstep (.some hrel) ?_
      simp only [remaining, hpc]
      omega
    | false =>
      have hb : (keepMask insns numLocals)[s.pc]? = some true := by
        rw [keepMask_getElem? hlt, hd]
        rfl
      have hj := compact_getElem? hlen hx hb
      have hops := h.agree.operands hx
      have hperf := @Agree.perform Val World sem numLocals _ _ _ _ _ _ h.agree hx s.world
      have hf := perform_flow sem numLocals insns[s.pc] s.regs s.world
      rw [← h.pc] at hj
      refine frame_both hx hj ?_ ?_ ?_ ?_
      · simp only [visitEvents, keptVisits_of_kept hb, positions, rewriteOffsets,
          rewriteOffsetsWith, Insn.fixOff_shape, operands_fixOff, hops, h.pc]
      · simp only [rewriteOffsets, rewriteOffsetsWith, perform_fixOff, h.world, hperf]
      · simp only [rewriteOffsets, rewriteOffsetsWith, finishRegs_fixOff]
        exact h.agree.finish_view _ _
      · have htr := compact_transfer hlen hr hx hb hf s.handlers
        rw [← h.pc, ← h.handlers] at htr
        show Goto.Rel _ _ (transfer ⟨compact _ _, []⟩ _ _ _ _)
        rw [htr]
        simp only [rewriteOffsets, rewriteOffsetsWith, finishRegs_fixOff]
        cases hgo : transfer ⟨insns, []⟩ s.pc s.handlers insns[s.pc]
            (perform sem numLocals insns[s.pc] s.regs s.world).flow with
        | finish how => exact .finish how
        | goto pc' hs' =>
          obtain ⟨hpc, hhs⟩ := transfer_inside hr hx h.handlers_le hgo
          exact .goto fun w => ⟨rfl, rfl, rfl, hpc, hhs, .step h.reach hx hf hgo,
            h.agree.step hx hf hgo⟩
  · have hlast : t.pc = (passDeadStoreElim insns numLocals).length := by
      rw [h.pc, passDeadStoreElim, compact_length hlen, heq]
    refine .both _ _ _ (frame_past heq) ?_ .none
    rw [frame_past hlast, h.world, h.agree.view]

end run

/-- The register of a dropped store is overwritten before it is read on every path exactly when
no hidden edge leads to a use of it, and then every run keeps the operands of every instruction
that is left, as long as no dropped copy is reached with its source unset. -/
theorem dead_store_elim_sound {Val World : Type*} (insns : List Insn) (numLocals : ℕ)
    (hr : InRange insns) (hdel : DeletesNamed insns numLocals) :
    (DeadBehind insns numLocals ↔ NoHiddenUse insns numLocals) ∧
    (NoHiddenUse insns numLocals → ∀ (sem : Sem Val World) (regs : Regs Val) (world : World),
      (frame sem numLocals ⟨insns, []⟩ (keptVisits (keepMask insns numLocals))).Along
        (SourceSet insns numLocals) (State.enter regs world) →
      (frame sem numLocals ⟨insns, []⟩ (keptVisits (keepMask insns numLocals))).behaviours
          (State.enter regs world) =
        (frame sem numLocals ⟨passDeadStoreElim insns numLocals, []⟩ positions).behaviours
          (State.enter regs world)) := by
  refine ⟨deadBehind_iff hdel, ?_⟩
  intro hno sem regs world hset
  have hdead := deadBehind_of_noHiddenUse hdel hno
  apply frame_behaviours_eq_along (Rel insns numLocals) (remaining insns) _ _ _ hset
  · intro s t
    exact rel_matched hr hdead
  · exact ⟨rfl, rfl, rfl, Nat.zero_le _, by simp, .start, fun r _ => rfl⟩

/-- Without handlers there is nothing to be hidden. -/
theorem noHiddenUse_of_plain {insns : List Insn} {numLocals : ℕ}
    (h : ∀ x ∈ insns, x.isHandlerMark = false)
    (hstar : ∀ a b c k, Insn.matchExceptStar a b c k ∉ insns) : NoHiddenUse insns numLocals := by
  have hnil : ∀ pc hs, Reach ⟨insns, []⟩ pc hs → hs = [] := by
    intro pc hs hreach
    induction hreach with
    | start => rfl
    | @step pc pc' hs hs' x f _ hx hf ht ih =>
      subst ih
      have hmark := h x (List.mem_of_getElem? hx)
      cases f with
      | next =>
        rw [transfer_next hmark] at ht
        cases ht
        rfl
      | jump =>
        simp only [transfer] at ht
        split at ht <;> cases ht
        rfl
      | again =>
        cases ht
        rfl
      | raise => cases ht
      | halt => cases ht
  rintro i x r hs pc' hs' - - - hreach ⟨j, y, f, -, -, hy, -, hidden, ht⟩
  obtain rfl := hnil i hs hreach
  rcases hidden_cases hidden with rfl | ⟨rfl, pattern, src, dst, k, rfl⟩
  · cases ht
  · exact absurd (List.mem_of_getElem? hy) (hstar _ _ _ _)

/-- A temporary that is set twice before it is returned. -/
def setTwice : List Insn := [.loadConst 5 0, .loadConst 5 1, .ret 5]

theorem dead_store_elim_sound_set_twice :
    passDeadStoreElim setTwice 1 = [.loadConst 5 1, .ret 5] ∧
      (frame scripted 1 ⟨setTwice, []⟩ (keptVisits (keepMask setTwice 1))).behaviours
          (State.enter (fun _ => some 9) []) =
        (frame scripted 1 ⟨passDeadStoreElim setTwice 1, []⟩ positions).behaviours
          (State.enter (fun _ => some 9) []) := by
  refine ⟨by decide, (dead_store_elim_sound setTwice 1 (by decide) ?_).2 ?_ scripted _ _ ?_⟩
  · intro r n b hmem
    simp [setTwice] at hmem
  · exact noHiddenUse_of_plain (by decide) (by simp [setTwice])
  · rintro _ _ _ s x - hx hd r hread
    obtain ⟨pc, regs, w, hs⟩ := s
    rcases pc with _ | _ | _ | pc
    · cases hx
      cases hread
    · cases hx
      cases hread
    · cases hd
    · cases hx

/-- A temporary is set, a call that may raise follows, and the handler reads the temporary. -/
def handlerUse : List Insn :=
  [.setupExcept 4, .loadConst 5 0, .call 6 0, .loadConst 5 1, .returnNone, .ret 5]

/-- The store is dropped and the handler reads what was there before it. -/
theorem dead_store_elim_misses_handler :
    (frame scripted 1 ⟨handlerUse, []⟩ (keptVisits (keepMask handlerUse 1))).behaviours
        (State.enter (fun _ => some 9) [.raise]) ≠
      (frame scripted 1 ⟨passDeadStoreElim handlerUse 1, []⟩ positions).behaviours
        (State.enter (fun _ => some 9) [.raise]) := by
  apply Machine.behaviours_ne (fun tr => (visits tr).map Prod.snd) 5 6
  · decide
  · decide

end Pyrust.DeadStores
