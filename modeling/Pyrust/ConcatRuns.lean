import Pyrust.ConcatStrings
import Pyrust.JumpThreading

/-!
# One merge, run by run

The additions of the chain against the copies and the concatenation: first the
one frame takes its additions, then the other its copies. Outside the chain the
frames agree on every register but the removed ones and the window.
-/

set_option autoImplicit false

namespace Pyrust.ConcatRuns

open Bytecode Machine Compaction ControlGraph Simulation ConcatChains ConcatStrings
open CopyPropagation (targetOff isTarget isTarget_of_off targetOff_of_jump)
open DeadStores (DeletesNamed operandRegs_temp)

/-- What the compiler and the earlier passes keep to: no late-stage guards yet, offsets that lead
into the stream, operands within the frame, and only named locals are deleted. -/
structure WellFormed (numLocals : ℕ) (s : Stream) : Prop where
  late : ∀ x ∈ s.insns, x.isLateStageGuardInsn = false
  range : InRange s.insns
  frame : ∀ x ∈ s.insns, ∀ r ∈ x.collectReads, r < s.numRegs
  deletes : DeletesNamed s.insns numLocals
  locals : numLocals ≤ s.numRegs

/-- Observers of a stream and of the stream with one chain merged: the same label outside the
chain, and no visit of the chain or of its window. -/
structure Hides (insns : List Insn) (numRegs : ℕ) (c : Chain) (obs obs' : Observer) : Prop where
  outside : ∀ (k : ℕ) (x : Insn), insns[k]? = some x → k < c.first ∨ c.stop ≤ k →
    obs' (c.newIdx k) (relocate insns c (x, k)) = obs k x
  chain : ∀ k x, c.first ≤ k → k < c.stop → obs k x = none
  window : ∀ (k : ℕ) (x : Insn), c.first ≤ k → k < c.stop + 2 →
    (rebuild insns c numRegs)[k]? = some x → obs' k x = none

section places
variable {numLocals : ℕ} {strConst : ℕ → Bool} {insns : List Insn} {numRegs : ℕ} {c : Chain}

theorem isTarget_iff (insns : List Insn) (t : ℕ) : isTarget insns t ↔ t = 0 ∨ bbStart insns t := by
  simp [isTarget, bbStart]

/-- No jump and no handler leads between the additions of the chain. -/
theorem target_outside (h : Found numLocals strConst insns numRegs c) {t : ℕ}
    (ht : isTarget insns t) : t ≤ c.first ∨ c.stop ≤ t := by
  by_contra hno
  have hb := h.block t (by omega) (by omega)
  rcases (isTarget_iff insns t).mp ht with h0 | hstart
  · omega
  · simp [hb] at hstart

theorem newIdx_succ (h : Found numLocals strConst insns numRegs c) {k : ℕ}
    (hk : k < c.first ∨ c.stop ≤ k) : c.newIdx (k+1) = c.newIdx k + 1 := by
  have h2 := h.two_le
  have hstop : c.stop = c.first + c.links.length := rfl
  unfold Chain.newIdx
  split_ifs <;> omega

theorem newIdx_le {k : ℕ} (hk : k ≤ insns.length) : c.newIdx k ≤ insns.length + 2 := by
  unfold Chain.newIdx
  split_ifs <;> omega

theorem table_getD {k : ℕ} (hk : k ≤ insns.length) :
    ((List.range (insns.length+1)).map c.newIdx).getD k 0 = c.newIdx k := by
  simp [List.getD_eq_getElem?_getD, Nat.lt_succ_of_le hk]

/-- An offset that led to `t` leads to the new position of `t`. -/
theorem relocate_target (hr : InRange insns) {pc : ℕ} {x : Insn} {k : ℤ} (hx : insns[pc]? = some x)
    (hk : x.jumpOff = some k) : ∃ t, target insns.length pc k = some t ∧
      (relocate insns c (x, pc)).jumpOff.bind (target (insns.length+2) (c.newIdx pc)) =
        some (c.newIdx t) := by
  obtain ⟨ht, hle⟩ := target_eq hr hx hk
  have hpc : pc ≤ insns.length := (List.getElem?_eq_some_iff.mp hx).1.le
  refine ⟨jumpTarget pc k, ht, ?_⟩
  have h := rewrite_target (insns.length+2) pc ((List.range (insns.length+1)).map c.newIdx)
    ((List.range (insns.length+1)).map c.newIdx) hk (by rw [table_getD hle]; exact newIdx_le hle)
  rwa [table_getD hpc, table_getD hle] at h

end places

section runs
variable {Val World : Type*} {sem : Sem Val World} {numLocals : ℕ} {strConst : ℕ → Bool}
variable {insns : List Insn} {numRegs : ℕ} {c : Chain} {St : Strings sem strConst}

/-- Agreement on the registers of the frame, the removed ones apart. -/
def Agrees (numRegs : ℕ) (c : Chain) (regs regs' : Regs Val) : Prop :=
  ∀ r < numRegs, r ∉ c.removed → regs r = regs' r

/-- The operands of the chain, in its order, are these strings. -/
def Operands (St : Strings sem strConst) (c : Chain) (vals : List Val) (regs : Regs Val) : Prop :=
  c.leaves.map regs = vals.map some ∧ ∀ v ∈ vals, St.isStr v

/-- The first `a+1` strings, one appended to the next. -/
def joined (append : Val → Val → Val) : List Val → ℕ → Option Val
  | [], _ => none
  | v :: vs, a => some ((vs.take a).foldl append v)

/-- Outside the chain. -/
structure Outside (St : Strings sem strConst) (numLocals : ℕ) (insns : List Insn) (numRegs : ℕ)
    (c : Chain) (s t : State Val World) : Prop where
  place : s.pc ≤ c.first ∨ c.stop ≤ s.pc
  pc : t.pc = c.newIdx s.pc
  agrees : Agrees numRegs c s.regs t.regs
  world : t.world = s.world
  handlers : t.handlers = s.handlers.map c.newIdx
  targets : ∀ h ∈ s.handlers, isTarget insns h
  good : Good St numLocals insns c s.pc s.regs

/-- `a` additions into the chain, the other frame waiting before its copies. -/
structure InChain (St : Strings sem strConst) (insns : List Insn) (numRegs : ℕ) (c : Chain)
    (vals : List Val) (a : ℕ) (s t : State Val World) : Prop where
  bound : a ≤ c.links.length
  here : s.pc = c.first + a
  there : t.pc = c.first
  agrees : ∀ r < numRegs, r ∉ c.removed → r ∉ c.dsts.take a → s.regs r = t.regs r
  operands : Operands St c vals t.regs
  sofar : ∀ p, (c.lhs :: c.dsts)[a]? = some p → s.regs p = joined St.append vals a
  world : t.world = s.world
  handlers : t.handlers = s.handlers.map c.newIdx
  targets : ∀ h ∈ s.handlers, isTarget insns h

/-- Behind the chain, the other frame having made `b` of its copies. -/
structure InWindow (St : Strings sem strConst) (insns : List Insn) (numRegs : ℕ) (c : Chain)
    (vals : List Val) (b : ℕ) (s t : State Val World) : Prop where
  bound : b ≤ c.links.length + 1
  here : s.pc = c.stop
  there : t.pc = c.first + b
  agrees : ∀ r < numRegs, r ∉ c.removed → r ≠ c.finalDst → s.regs r = t.regs r
  operands : Operands St c vals t.regs
  copied : ∀ j < b, t.regs (numRegs + j) = vals[j]?
  total : s.regs c.finalDst = joined St.append vals c.links.length
  world : t.world = s.world
  handlers : t.handlers = s.handlers.map c.newIdx
  targets : ∀ h ∈ s.handlers, isTarget insns h

inductive Rel (St : Strings sem strConst) (numLocals : ℕ) (insns : List Insn) (numRegs : ℕ)
    (c : Chain) (s t : State Val World) : Prop
  | outside : Outside St numLocals insns numRegs c s t → Rel St numLocals insns numRegs c s t
  | chain {vals : List Val} {a : ℕ} : 0 < a → InChain St insns numRegs c vals a s t →
      Rel St numLocals insns numRegs c s t
  | window {vals : List Val} {b : ℕ} : 0 < b → InWindow St insns numRegs c vals b s t →
      Rel St numLocals insns numRegs c s t

/-- What is left of the chain and of the window. -/
def left (c : Chain) (s t : Option (State Val World)) : ℕ :=
  match s, t with
  | some s, some t =>
    (if c.first ≤ s.pc ∧ s.pc ≤ c.stop then c.stop - s.pc else 0) +
      (if c.first ≤ t.pc ∧ t.pc ≤ c.stop + 2 then c.stop + 2 - t.pc else 0)
  | _, _ => 0

theorem Agrees.read_eq {s : Stream} (hw : WellFormed numLocals s)
    (h : Found numLocals strConst s.insns s.numRegs c) {regs regs' : Regs Val}
    (ha : Agrees s.numRegs c regs regs') {k : ℕ} {x : Insn} (hx : s.insns[k]? = some x)
    (hk : k < c.first ∨ c.stop ≤ k) :
    operands numLocals x regs = operands numLocals x regs' := by
  rw [operands, operands, List.map_inj_left]
  intro r hr
  have hmem := List.mem_of_getElem? hx
  have hsame : regs r = regs' r := by
    by_cases hl : r < numLocals
    · exact ha r (Nat.lt_of_lt_of_le hl hw.locals) fun hrem =>
        absurd hl (Nat.not_lt.mpr (removed_temp h hrem))
    · have hread := operandRegs_temp hw.deletes (Nat.not_lt.mp hl) hmem hr
      exact ha r (hw.frame x hmem r hread) fun hrem => removed_unread h hrem hx hk hread
  rw [Machine.read, Machine.read, hsame]

theorem Agrees.view_eq {s : Stream} (hw : WellFormed numLocals s)
    (h : Found numLocals strConst s.insns s.numRegs c) {regs regs' : Regs Val}
    (ha : Agrees s.numRegs c regs regs') : view numLocals regs = view numLocals regs' := by
  funext r
  by_cases hl : r < numLocals
  · simp only [view, hl, if_true]
    exact ha r (Nat.lt_of_lt_of_le hl hw.locals) fun hrem =>
      absurd hl (Nat.not_lt.mpr (removed_temp h hrem))
  · simp [view, hl]

theorem Agrees.finish {regs regs' : Regs Val} (ha : Agrees numRegs c regs regs') (x : Insn)
    (o : Outcome Val World) :
    Agrees numRegs c (finishRegs numLocals x o regs) (finishRegs numLocals x o regs') := by
  intro r hr hrem
  rw [finishRegs, finishRegs]
  apply writeAll_congr
  left
  by_cases hm : x.mayInvalidateNamedLocals
  · simp [hm, ha r hr hrem]
  · simp [hm, ha r hr hrem]

/-! ## Outside the chain -/

theorem Outside.rel {pc : ℕ} {regs regs' : Regs Val} {hs : List ℕ}
    (hplace : pc ≤ c.first ∨ c.stop ≤ pc) (ha : Agrees numRegs c regs regs')
    (ht : ∀ h ∈ hs, isTarget insns h) (hg : Good St numLocals insns c pc regs) (w : World) :
    Rel St numLocals insns numRegs c ⟨pc, regs, w, hs⟩
      ⟨c.newIdx pc, regs', w, hs.map c.newIdx⟩ :=
  .outside ⟨hplace, rfl, ha, rfl, rfl, ht, hg⟩

theorem good_target {pc : ℕ} (h : isTarget insns pc) (regs : Regs Val) :
    Good St numLocals insns c pc regs := good_start St ((isTarget_iff insns pc).mp h) regs

/-- Wherever an instruction outside the chain leads, the frames stay related. -/
theorem go_rel {p : Stream} (hw : WellFormed numLocals p)
    (h : Found numLocals strConst p.insns p.numRegs c) {s t : State Val World}
    (ho : Outside St numLocals p.insns p.numRegs c s t) {x : Insn} (hx : p.insns[s.pc]? = some x)
    (hk : s.pc < c.first ∨ c.stop ≤ s.pc) (hok : ¬Overlooked St numLocals p.insns c s)
    {o : Outcome Val World} (hperform : perform sem numLocals x s.regs s.world = o) :
    Goto.Rel (fun pc hs pc' hs' => ∀ w, Rel St numLocals p.insns p.numRegs c
        ⟨pc, finishRegs numLocals x o s.regs, w, hs⟩ ⟨pc', finishRegs numLocals x o t.regs, w, hs'⟩)
      (transfer ⟨p.insns, []⟩ s.pc s.handlers x o.flow)
      (transfer ⟨rebuild p.insns c p.numRegs, []⟩ t.pc t.handlers
        (relocate p.insns c (x, s.pc)) o.flow) := by
  have hlate := hw.late x (List.mem_of_getElem? hx)
  have hagrees : Agrees p.numRegs c (finishRegs numLocals x o s.regs)
      (finishRegs numLocals x o t.regs) := ho.agrees.finish x o
  have hne : s.pc ≠ c.first := by
    have h2 := h.two_le
    have hstop : c.stop = c.first + c.links.length := rfl
    omega
  have hlen := rebuild_length h p.numRegs
  rw [ho.pc, ho.handlers]
  cases hf : o.flow with
  | next =>
    have hgood := ho.good.next hx hlate hok (hperform ▸ hf)
    rw [hperform] at hgood
    have hplace : s.pc + 1 ≤ c.first ∨ c.stop ≤ s.pc + 1 := by omega
    have hsucc := newIdx_succ h hk
    by_cases hm : x.isHandlerMark
    · rcases handlerMark_cases hm with ⟨k, rfl⟩ | rfl
      · obtain ⟨a, ha, hnew⟩ := relocate_target (c := c) hw.range hx rfl
        have htransfer : transfer ⟨rebuild p.insns c p.numRegs, []⟩ (c.newIdx s.pc)
            (s.handlers.map c.newIdx) (relocate p.insns c (.setupExcept k, s.pc)) .next =
            .goto (c.newIdx s.pc + 1) ((a :: s.handlers).map c.newIdx) := by
          rw [relocate, rewriteOffsets, rewriteOffsetsWith, Insn.fixOff] at hnew ⊢
          rw [Insn.jumpOff, Option.bind_some] at hnew
          simp only [transfer, hlen, hnew, List.map_cons]
        rw [htransfer, ← hsucc]
        simp only [transfer, ha]
        refine .goto fun w => Outside.rel hplace hagrees (fun b hb => ?_) hgood w
        rcases List.mem_cons.mp hb with rfl | hb
        · exact isTarget_of_off hx rfl ha
        · exact ho.targets b hb
      · have htransfer : transfer ⟨rebuild p.insns c p.numRegs, []⟩ (c.newIdx s.pc)
            (s.handlers.map c.newIdx) (relocate p.insns c (.popExcept, s.pc)) .next =
            .goto (c.newIdx s.pc + 1) (s.handlers.tail.map c.newIdx) := by
          rw [List.map_tail]
          rfl
        rw [htransfer, ← hsucc]
        exact .goto fun w => Outside.rel hplace hagrees
          (fun b hb => ho.targets b (List.mem_of_mem_tail hb)) hgood w
    · rw [transfer_next (by simpa using hm), transfer_next (by
        rw [relocate, rewriteOffsets, rewriteOffsetsWith, Insn.fixOff_isHandlerMark]
        simpa using hm)]
      rw [← hsucc]
      exact .goto fun w => Outside.rel hplace hagrees ho.targets hgood w
  | jump =>
    simp only [transfer]
    cases hj : x.jumpOff with
    | none =>
      have hnone : (relocate p.insns c (x, s.pc)).jumpOff = none := by
        simp [relocate, rewriteOffsets, rewriteOffsetsWith, hj]
      simpa [hnone] using Goto.Rel.finish .fault
    | some k =>
      obtain ⟨a, ha, hnew⟩ := relocate_target (c := c) hw.range hx hj
      have htarget := isTarget_of_off hx (targetOff_of_jump hlate hj) ha
      rw [hlen, hnew]
      simp only [Option.bind_some, ha]
      exact .goto fun w => Outside.rel (target_outside h htarget) hagrees ho.targets
        (good_target htarget _) w
  | again =>
    have hgood := ho.good.again hne hx hok (hperform ▸ hf)
    rw [hperform] at hgood
    exact .goto fun w => Outside.rel ho.place hagrees ho.targets hgood w
  | raise =>
    cases hs : s.handlers with
    | nil => exact .finish .escaped
    | cons a rest =>
      have hall : ∀ b ∈ a :: rest, isTarget p.insns b := hs ▸ ho.targets
      have hstart := hall a (by simp)
      exact .goto fun w => Outside.rel (target_outside h hstart) hagrees
        (fun b hb => hall b (by simp [hb])) (good_target hstart _) w
  | halt => exact .finish .returned

theorem outside_matched {p : Stream} (hw : WellFormed numLocals p)
    (h : Found numLocals strConst p.insns p.numRegs c) {obs obs' : Observer}
    (hobs : Hides p.insns p.numRegs c obs obs') {s t : State Val World}
    (ho : Outside St numLocals p.insns p.numRegs c s t) (hk : s.pc < c.first ∨ c.stop ≤ s.pc)
    (hok : ¬Overlooked St numLocals p.insns c s) :
    Machine.Matched (frame sem numLocals ⟨p.insns, []⟩ obs)
      (frame sem numLocals ⟨rebuild p.insns c p.numRegs, []⟩ obs')
      (Option.Rel (Rel St numLocals p.insns p.numRegs c)) (left c) (some s) (some t) := by
  have hlen := rebuild_length h p.numRegs
  have hview := ho.agrees.view_eq hw h
  cases hx : p.insns[s.pc]? with
  | none =>
    have hge := List.getElem?_eq_none_iff.mp hx
    have hstop := h.stop_le
    have hnew : c.newIdx s.pc = s.pc + 2 := if_neg (by omega)
    have hx' : (rebuild p.insns c p.numRegs)[t.pc]? = none := by
      rw [List.getElem?_eq_none_iff, hlen, ho.pc, hnew]
      omega
    refine .both _ _ _ (frame_none hx) ?_ .none
    rw [frame_none (by exact hx'), hlen, ho.pc, hnew, hview, ho.world]
    simp
  | some x =>
    have hx' := rebuild_outside h p.numRegs hx hk
    rw [← ho.pc] at hx'
    have hops := ho.agrees.read_eq hw h hx hk
    refine frame_both hx hx' ?_ ?_ ?_ ?_
    · rw [visitEvents, visitEvents, ho.pc, hobs.outside s.pc x hx hk]
      simp [relocate, rewriteOffsets, rewriteOffsetsWith, hops]
    · simp [relocate, rewriteOffsets, rewriteOffsetsWith, perform, hops, hview, ho.world]
    · rw [relocate, rewriteOffsets, rewriteOffsetsWith, finishRegs_fixOff]
      exact (ho.agrees.finish x _).view_eq hw h
    · have hgo := go_rel hw h ho hx hk hok rfl
      simpa [relocate, rewriteOffsets, rewriteOffsetsWith] using hgo

/-! ## The additions and the copies -/

theorem removed_sub {r : Reg} (hr : r ∈ c.removed) : r ∈ c.dsts.dropLast := by
  obtain ⟨hmem, hne⟩ := List.mem_filter.mp hr
  obtain ⟨a, d', ha, ha', -⟩ := exists_last hmem (of_decide_eq_true hne : r ≠ c.finalDst).symm
  have hlt := (List.getElem?_eq_some_iff.mp ha').1
  rw [List.mem_iff_getElem?]
  exact ⟨a, by rw [List.getElem?_dropLast, if_pos (by omega), ha]⟩

theorem leaf_read {p : Stream} (h : Found numLocals strConst p.insns p.numRegs c) {r : Reg}
    (hr : r ∈ c.leaves) : ∃ x ∈ p.insns, r ∈ x.collectReads := by
  obtain ⟨j, hj⟩ := List.mem_iff_getElem?.mp hr
  have h2 := h.two_le
  cases j with
  | zero =>
    obtain ⟨q, d, r', hp, -, -, hx⟩ := h.link_of_lt (a := 0) (by omega)
    obtain rfl : q = r := Option.some.inj (hp.symm.trans hj)
    exact ⟨_, List.mem_of_getElem? hx, by simp [Insn.collectReads.eq_def]⟩
  | succ j =>
    have hlt := (List.getElem?_eq_some_iff.mp hj).1
    rw [c.leaves_length] at hlt
    obtain ⟨q, d, r', -, -, hr', hx⟩ := h.link_of_lt (a := j) (by omega)
    obtain rfl : r' = r := Option.some.inj (hr'.symm.trans hj)
    exact ⟨_, List.mem_of_getElem? hx, by simp [Insn.collectReads.eq_def]⟩

theorem leaf_lt {p : Stream} (hw : WellFormed numLocals p)
    (h : Found numLocals strConst p.insns p.numRegs c) {r : Reg} (hr : r ∈ c.leaves) :
    r < p.numRegs := by
  obtain ⟨x, hx, hread⟩ := leaf_read h hr
  exact hw.frame x hx r hread

theorem leaf_not_removed (h : Found numLocals strConst insns numRegs c) {r : Reg}
    (hr : r ∈ c.leaves) : r ∉ c.removed := fun hrem => h.leaf_not_dst hr (removed_sub hrem)

theorem operands_of_strs {rs : List Reg} {regs : Regs Val} (h : ∀ r ∈ rs, HoldsStr St regs r) :
    ∃ vals : List Val, rs.map regs = vals.map some ∧ ∀ v ∈ vals, St.isStr v := by
  induction rs with
  | nil => exact ⟨[], rfl, fun v hv => absurd hv (List.not_mem_nil)⟩
  | cons r rs ih =>
    obtain ⟨v, hv, hstr⟩ := h r (by simp)
    obtain ⟨vals, hvals, hall⟩ := ih fun r' hr' => h r' (by simp [hr'])
    refine ⟨v :: vals, by simp [hv, hvals], ?_⟩
    rintro u (_ | ⟨_, hu⟩)
    · exact hstr
    · exact hall u hu

namespace Operands
variable {vals : List Val} {regs : Regs Val} (h : Operands St c vals regs)
include h

theorem length_eq : vals.length = c.links.length + 1 := by
  have := congrArg List.length h.1
  simpa [c.leaves_length] using this.symm

/-- The value of an operand. -/
theorem get {j : ℕ} {r : Reg} (hr : c.leaves[j]? = some r) :
    ∃ v, vals[j]? = some v ∧ regs r = some v ∧ St.isStr v := by
  have hj : (c.leaves.map regs)[j]? = (vals.map some)[j]? := by rw [h.1]
  rw [List.getElem?_map, List.getElem?_map, hr, Option.map_some] at hj
  obtain ⟨v, hv, heq⟩ := Option.map_eq_some_iff.mp hj.symm
  exact ⟨v, hv, heq.symm, h.2 v (List.mem_of_getElem? hv)⟩

theorem congr {regs' : Regs Val} (heq : ∀ r ∈ c.leaves, regs r = regs' r) :
    Operands St c vals regs' :=
  ⟨by rw [← h.1, List.map_inj_left]; exact fun r hr => (heq r hr).symm, h.2⟩

end Operands

theorem joined_isStr {vals : List Val} (hall : ∀ v ∈ vals, St.isStr v) {a : ℕ} {u : Val}
    (hu : joined St.append vals a = some u) : St.isStr u := by
  cases vals with
  | nil => cases hu
  | cons v vs =>
    obtain rfl := Option.some.inj hu
    have hfold : ∀ (ws : List Val) (w : Val), St.isStr w → (∀ x ∈ ws, St.isStr x) →
        St.isStr (ws.foldl St.append w) := by
      intro ws
      induction ws with
      | nil => exact fun w hw _ => hw
      | cons x ws ih =>
        intro w hw hws
        exact ih _ (St.append_str w x hw (hws x (by simp))) fun y hy => hws y (by simp [hy])
    exact hfold _ v (hall v (by simp)) fun x hx =>
      hall x (by simp [List.mem_of_mem_take hx])

/-- One more string is appended. -/
theorem joined_succ {append : Val → Val → Val} {vals : List Val} {a : ℕ} {u v : Val}
    (hu : joined append vals a = some u) (hv : vals[a+1]? = some v) :
    joined append vals (a+1) = some (append u v) := by
  cases vals with
  | nil => cases hu
  | cons w ws =>
    obtain rfl := Option.some.inj hu
    rw [List.getElem?_cons_succ] at hv
    rw [joined, List.take_add_one, hv, List.foldl_append]
    rfl

theorem Outside.inChain {p : Stream} (hw : WellFormed numLocals p)
    (h : Found numLocals strConst p.insns p.numRegs c) {s t : State Val World}
    (ho : Outside St numLocals p.insns p.numRegs c s t) (hpc : s.pc = c.first) :
    ∃ vals, InChain St p.insns p.numRegs c vals 0 s t := by
  have h2 := h.two_le
  have hstop : c.stop = c.first + c.links.length := rfl
  have hstrs : ∀ r ∈ c.leaves, HoldsStr St s.regs r := fun r hr =>
    ho.good r (hpc ▸ .leaf hr) (hpc ▸ h.tests.2.1 r hr)
  obtain ⟨vals, hvals, hall⟩ := operands_of_strs hstrs
  have hops : Operands St c vals s.regs := ⟨hvals, hall⟩
  refine ⟨vals, Nat.zero_le _, hpc, ?_, fun r hr hrem _ => ho.agrees r hr hrem,
    hops.congr fun r hr => ho.agrees r (leaf_lt hw h hr) (leaf_not_removed h hr), ?_, ho.world,
    ho.handlers, ho.targets⟩
  · rw [ho.pc, hpc, Chain.newIdx, if_pos (by omega), Nat.min_self]
  · intro r hr
    obtain ⟨v, hv, hreg, -⟩ := hops.get (show c.leaves[0]? = some r from hr)
    rw [hreg]
    cases vals with
    | nil => cases hv
    | cons w ws => simpa [joined] using hv.symm

theorem finish_add {dst a b : Reg} (o : Outcome Val World) (v : Val) (regs : Regs Val)
    (ho : o = ⟨o.world, view numLocals regs, .next, fun _ => some v, fun _ => false⟩) :
    finishRegs numLocals (.binOp dst a .add b) o regs = Function.update regs dst (some v) := by
  rw [ho]
  simp only [finishRegs, Insn.mayInvalidateNamedLocals.eq_def, if_true, view_self]
  rfl

/-- One addition of the chain. -/
theorem InChain.step {p : Stream} (hw : WellFormed numLocals p)
    (h : Found numLocals strConst p.insns p.numRegs c) {obs obs' : Observer}
    (hobs : Hides p.insns p.numRegs c obs obs') {vals : List Val} {a : ℕ} {s t : State Val World}
    (hc : InChain St p.insns p.numRegs c vals a s t) (ha : a < c.links.length) :
    ∃ s', (frame sem numLocals ⟨p.insns, []⟩ obs).step (some s) = some ([], some s') ∧
      InChain St p.insns p.numRegs c vals (a+1) s' t := by
  obtain ⟨q, d, r, hq, hd, hr, hx⟩ := h.link_of_lt ha
  have hstop : c.stop = c.first + c.links.length := rfl
  have hleaf : r ∈ c.leaves := List.mem_of_getElem? hr
  obtain ⟨v, hv, hreg, hvstr⟩ := hc.operands.get hr
  have hlen := hc.operands.length_eq
  have hsub : ∀ x ∈ c.dsts.take a, x ∈ c.dsts.dropLast := by
    intro x hx
    rw [List.dropLast_eq_take]
    exact (List.take_subset_take_left _ (by rw [c.dsts_length]; omega)) hx
  have hregr : s.regs r = some v := by
    rw [hc.agrees r (leaf_lt hw h hleaf) (leaf_not_removed h hleaf)
      fun hmem => h.leaf_not_dst hleaf (hsub r hmem), hreg]
  obtain ⟨u, hu⟩ : ∃ u, joined St.append vals a = some u := by
    cases vals with
    | nil => simp at hlen
    | cons w ws => exact ⟨_, rfl⟩
  have hregq : s.regs q = some u := by rw [hc.sofar q hq, hu]
  have hustr := joined_isStr hc.operands.2 hu
  have hperform : perform sem numLocals (.binOp d q .add r) s.regs s.world = _ :=
    perform_add hregq hregr hustr hvstr s.world
  rw [← hc.here] at hx
  have hhere := hc.here
  refine ⟨_, frame_silent hx (hobs.chain _ _ (by omega) (by omega)) (by rw [hperform])
    (transfer_next rfl), ?_⟩
  rw [hperform, finish_add _ _ _ rfl]
  refine ⟨ha, by simp only; omega, hc.there, ?_, hc.operands, ?_, hc.world, hc.handlers,
    hc.targets⟩
  · intro x hx hrem hmem
    rw [List.take_add_one, hd] at hmem
    simp only [Option.toList_some, List.mem_append, List.mem_singleton, not_or] at hmem
    show Function.update s.regs d _ x = _
    rw [Function.update_of_ne hmem.2]
    exact hc.agrees x hx hrem hmem.1
  · intro x hx
    rw [List.getElem?_cons_succ, hd] at hx
    obtain rfl := Option.some.inj hx
    show Function.update s.regs d _ d = _
    rw [Function.update_self, joined_succ hu hv]

/-- Behind the last addition the result stands where the concatenation will put it. -/
theorem InChain.toWindow {p : Stream} (h : Found numLocals strConst p.insns p.numRegs c)
    {vals : List Val} {s t : State Val World}
    (hc : InChain St p.insns p.numRegs c vals c.links.length s t) :
    InWindow St p.insns p.numRegs c vals 0 s t := by
  have h2 := h.two_le
  have hdsts := c.dsts_length
  refine ⟨Nat.zero_le _, hc.here, hc.there, ?_, hc.operands, by simp, ?_, hc.world, hc.handlers,
    hc.targets⟩
  · intro r hr hrem hfinal
    refine hc.agrees r hr hrem fun hmem => hrem ?_
    rw [List.take_of_length_le (by omega)] at hmem
    exact List.mem_filter.mpr ⟨hmem, by simpa using hfinal⟩
  · apply hc.sofar
    obtain ⟨m, hm⟩ : ∃ m, c.links.length = m+1 := ⟨c.links.length-1, by omega⟩
    rw [hm, List.getElem?_cons_succ, Chain.finalDst, List.getLastD_eq_getLast?,
      List.getLast?_eq_getElem?, hdsts, hm, Nat.add_sub_cancel]
    obtain ⟨d, hd⟩ : ∃ d, c.dsts[m]? = some d := ⟨_, List.getElem?_eq_getElem (by omega)⟩
    rw [hd]
    rfl

theorem leaf_get {j : ℕ} (hj : j < c.links.length + 1) : ∃ r, c.leaves[j]? = some r :=
  ⟨_, List.getElem?_eq_getElem (by rw [c.leaves_length]; exact hj)⟩

/-- One copy into the window. -/
theorem InWindow.step {p : Stream} (hw : WellFormed numLocals p)
    (h : Found numLocals strConst p.insns p.numRegs c) {obs obs' : Observer}
    (hobs : Hides p.insns p.numRegs c obs obs') {vals : List Val} {b : ℕ} {s t : State Val World}
    (hc : InWindow St p.insns p.numRegs c vals b s t) (hb : b < c.links.length + 1) :
    ∃ t', (frame sem numLocals ⟨rebuild p.insns c p.numRegs, []⟩ obs').step (some t) =
        some ([], some t') ∧ InWindow St p.insns p.numRegs c vals (b+1) s t' := by
  obtain ⟨r, hr⟩ := leaf_get (c := c) hb
  have hstop : c.stop = c.first + c.links.length := rfl
  obtain ⟨v, hv, hreg, -⟩ := hc.operands.get hr
  have hx := rebuild_move h p.numRegs hr
  rw [← hc.there] at hx
  have hthere := hc.there
  have hflow : perform sem numLocals (.move (p.numRegs + b) r) t.regs t.world =
      ⟨t.world, view numLocals t.regs, .next, fun _ => some v, fun _ => false⟩ :=
    perform_copied sem (.inl rfl) hreg t.world
  refine ⟨_, frame_silent hx (hobs.window _ _ (by omega) (by omega) hx) (by rw [hflow])
    (transfer_next rfl), ?_⟩
  rw [perform_move sem hreg]
  have hold : ∀ x < p.numRegs, Function.update t.regs (p.numRegs + b) (some v) x = t.regs x := by
    intro x hx
    exact Function.update_of_ne (Nat.ne_of_lt (Nat.lt_of_lt_of_le hx (Nat.le_add_right _ _))) _ _
  refine ⟨by omega, hc.here, by simp only; omega, ?_, ?_, ?_, hc.total, ?_, hc.handlers,
    hc.targets⟩
  · intro x hx hrem hfinal
    show s.regs x = Function.update t.regs _ _ x
    rw [hold x hx]
    exact hc.agrees x hx hrem hfinal
  · exact hc.operands.congr fun x hx => (hold x (leaf_lt hw h hx)).symm
  · intro j hj
    rcases Nat.lt_or_eq_of_le (Nat.le_of_lt_succ hj) with hlt | rfl
    · show Function.update t.regs _ _ _ = _
      rw [Function.update_of_ne fun he => Nat.ne_of_lt hlt (Nat.add_left_cancel he)]
      exact hc.copied j hlt
    · show Function.update t.regs _ _ _ = _
      rw [Function.update_self, hv]
  · rw [hflow]
    exact hc.world

theorem range'_map {regs : Regs Val} {base : Reg} {vals : List Val}
    (h : ∀ j < vals.length, regs (base + j) = vals[j]?) :
    (List.range' base vals.length).map (Machine.read numLocals regs) = vals.map .value := by
  induction vals generalizing base with
  | nil => rfl
  | cons v vs ih =>
    rw [List.length_cons, List.range'_succ, List.map_cons, List.map_cons, ih fun j hj => ?_]
    · have h0 : regs base = some v := h 0 (by simp)
      simp [Machine.read, h0]
    · have hj' := h (j+1) (by simpa using hj)
      rwa [List.getElem?_cons_succ, Nat.add_comm j 1, ← Nat.add_assoc] at hj'

/-- The concatenation of the window. -/
theorem InWindow.concat {p : Stream} (h : Found numLocals strConst p.insns p.numRegs c)
    {obs obs' : Observer} (hobs : Hides p.insns p.numRegs c obs obs') {vals : List Val}
    {s t : State Val World}
    (hc : InWindow St p.insns p.numRegs c vals (c.links.length + 1) s t) :
    ∃ t', (frame sem numLocals ⟨rebuild p.insns c p.numRegs, []⟩ obs').step (some t) =
        some ([], some t') ∧ Outside St numLocals p.insns p.numRegs c s t' ∧
        t'.pc = c.stop + 2 := by
  have h2 := h.two_le
  have hstop : c.stop = c.first + c.links.length := rfl
  have hx := rebuild_concat h p.numRegs
  rw [← hc.there] at hx
  have hthere := hc.there
  have hlen := hc.operands.length_eq
  obtain ⟨v, vs, rfl⟩ : ∃ v vs, vals = v :: vs := by
    cases vals with
    | nil => simp at hlen
    | cons v vs => exact ⟨v, vs, rfl⟩
  have hvs : vs.length = c.links.length := by simpa using hlen
  have hops : Machine.operands numLocals (.concat c.finalDst p.numRegs (c.links.length + 1)) t.regs =
      (v :: vs).map .value := by
    have hcopied : ∀ j < (v :: vs).length, t.regs (p.numRegs + j) = (v :: vs)[j]? := by
      rw [hlen]
      exact hc.copied
    rw [← hlen]
    exact range'_map hcopied
  have hperform : perform sem numLocals (.concat c.finalDst p.numRegs (c.links.length + 1)) t.regs
      t.world = ⟨t.world, view numLocals t.regs, .next,
        fun _ => some (vs.foldl St.append v), fun _ => false⟩ := by
    simp only [perform, hops, Insn.shape.eq_def, outcome]
    rw [← hvs, St.concat v vs _ _ hc.operands.2]
    rfl
  refine ⟨_, frame_silent hx (hobs.window _ _ (by omega) (by omega) hx) (by rw [hperform])
    (transfer_next rfl), ?_, by simp only; omega⟩
  have hfinish : finishRegs numLocals (.concat c.finalDst p.numRegs (c.links.length + 1))
      (perform sem numLocals (.concat c.finalDst p.numRegs (c.links.length + 1)) t.regs t.world)
      t.regs = Function.update t.regs c.finalDst (some (vs.foldl St.append v)) := by
    rw [hperform]
    simp only [finishRegs, Insn.mayInvalidateNamedLocals.eq_def, if_true, view_self]
    rfl
  rw [hfinish, hperform]
  have hhere := hc.here
  refine ⟨.inr (by omega), ?_, ?_, hc.world, hc.handlers, hc.targets,
    good_behind St (by omega) _⟩
  · show t.pc + 1 = c.newIdx s.pc
    rw [Chain.newIdx, if_neg (by omega)]
    omega
  · intro r hr hrem
    show s.regs r = Function.update t.regs c.finalDst _ r
    by_cases hfinal : r = c.finalDst
    · subst hfinal
      rw [Function.update_self, hc.total, joined, List.take_of_length_le (by omega)]
    · rw [Function.update_of_ne hfinal]
      exact hc.agrees r hr hrem hfinal

/-- The frames keep related: side by side outside the chain, and in the chain first the one
takes its additions, then the other its copies and the concatenation. -/
theorem rel_matched {p : Stream} (hw : WellFormed numLocals p)
    (h : Found numLocals strConst p.insns p.numRegs c) {obs obs' : Observer}
    (hobs : Hides p.insns p.numRegs c obs obs') {s t : State Val World}
    (hrel : Rel St numLocals p.insns p.numRegs c s t)
    (hok : ¬Overlooked St numLocals p.insns c s) :
    Machine.Matched (frame sem numLocals ⟨p.insns, []⟩ obs)
      (frame sem numLocals ⟨rebuild p.insns c p.numRegs, []⟩ obs')
      (Option.Rel (Rel St numLocals p.insns p.numRegs c)) (left c) (some s) (some t) := by
  have h2 := h.two_le
  have hstop : c.stop = c.first + c.links.length := rfl
  have hadd : ∀ {vals : List Val} {a : ℕ}, InChain St p.insns p.numRegs c vals a s t →
      a < c.links.length → Machine.Matched (frame sem numLocals ⟨p.insns, []⟩ obs)
        (frame sem numLocals ⟨rebuild p.insns c p.numRegs, []⟩ obs')
        (Option.Rel (Rel St numLocals p.insns p.numRegs c)) (left c) (some s) (some t) := by
    intro vals a hc ha
    obtain ⟨s', hs', hc'⟩ := hc.step hw h hobs ha
    refine .left _ hs' (.some (.chain (Nat.succ_pos a) hc')) ?_
    have h1 := hc.here
    have h1' := hc'.here
    simp only [left]
    split_ifs <;> omega
  have hcopy : ∀ {vals : List Val} {b : ℕ}, InWindow St p.insns p.numRegs c vals b s t →
      Machine.Matched (frame sem numLocals ⟨p.insns, []⟩ obs)
        (frame sem numLocals ⟨rebuild p.insns c p.numRegs, []⟩ obs')
        (Option.Rel (Rel St numLocals p.insns p.numRegs c)) (left c) (some s) (some t) := by
    intro vals b hc
    have h1 := hc.there
    have hbound := hc.bound
    rcases Nat.lt_or_eq_of_le hc.bound with hb | rfl
    · obtain ⟨t', ht', hc'⟩ := hc.step hw h hobs hb
      refine .right _ ht' (.some (.window (Nat.succ_pos b) hc')) ?_
      have h1' := hc'.there
      simp only [left]
      split_ifs <;> omega
    · obtain ⟨t', ht', ho, hpc⟩ := hc.concat h hobs
      refine .right _ ht' (.some (.outside ho)) ?_
      simp only [left]
      split_ifs <;> omega
  cases hrel with
  | outside ho =>
    by_cases hfirst : s.pc = c.first
    · obtain ⟨vals, hc⟩ := ho.inChain hw h hfirst
      exact hadd hc (by omega)
    · exact outside_matched hw h hobs ho (by have := ho.place; omega) hok
  | chain _ hc =>
    rcases Nat.lt_or_eq_of_le hc.bound with ha | rfl
    · exact hadd hc ha
    · exact hcopy (hc.toWindow h)
  | window _ hc => exact hcopy hc

/-- One round, on runs on which nothing is overlooked. -/
theorem merge_tracks {p : Stream} (hw : WellFormed numLocals p)
    (h : Found numLocals strConst p.insns p.numRegs c) {obs obs' : Observer}
    (hobs : Hides p.insns p.numRegs c obs obs') (regs : Regs Val) (world : World)
    (ha : (frame sem numLocals ⟨p.insns, []⟩ obs).Along
      (fun s => ∀ u ∈ s, ¬Overlooked St numLocals p.insns c u) (State.enter regs world)) :
    (frame sem numLocals ⟨p.insns, []⟩ obs).Tracks
      (frame sem numLocals ⟨rebuild p.insns c p.numRegs, []⟩ obs')
      (Option.Rel (Rel St numLocals p.insns p.numRegs c)) (State.enter regs world)
      (State.enter regs world) := by
  apply frame_tracks_along _ (left c) _ (fun s t hst hok => rel_matched hw h hobs hst (hok s rfl))
    _ ha
  have hzero : c.newIdx 0 = 0 := by
    have h2 := h.two_le
    have hstop : c.stop = c.first + c.links.length := rfl
    rw [Chain.newIdx, if_pos (by omega), Nat.zero_min]
  have hrel : Outside St numLocals p.insns p.numRegs c (⟨0, regs, world, []⟩ : State Val World)
      ⟨0, regs, world, []⟩ :=
    ⟨.inl (Nat.zero_le _), hzero.symm, fun _ _ _ => rfl, rfl, rfl, by simp,
      good_start St (.inl rfl) _⟩
  exact .outside hrel

end runs

end Pyrust.ConcatRuns
