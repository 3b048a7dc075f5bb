import Pyrust.CopyPropagation

/-!
# Common subexpressions

Only constant loads are shared: within a block, the second load of a pool entry
becomes a copy of the temporary that holds the first. The table forgets a
temporary when an instruction overwrites it, and everything at a block boundary.
Two instructions that write a range of registers are not on the pass's list;
their writes are the unseen ones below.
-/

set_option autoImplicit false

namespace Pyrust.CommonSubexpressions

open Bytecode Machine Compaction ControlGraph Simulation
open CopyPropagation (isTarget isTarget_of_off targetOff_of_jump)

/-- The temporary that holds each pool entry, with a reverse index: the entries each temporary
has been recorded for. -/
structure CseTable where
  map : ℕ → Option Reg
  byOutput : Reg → List ℕ
  indexed : ∀ k w, map k = some w → k ∈ byOutput w

namespace CseTable

def empty : CseTable := ⟨fun _ => none, fun _ => [], by simp⟩

def insert (t : CseTable) (k : ℕ) (dst : Reg) : CseTable where
  map := Function.update t.map k (some dst)
  byOutput := Function.update t.byOutput dst (t.byOutput dst ++ [k])
  indexed j w h := by
    have := t.indexed j w
    by_cases hw : w = dst <;> by_cases hj : j = k <;> simp_all

/-- A stale index entry, whose pool entry another temporary holds by now, removes nothing. -/
def evictReg (t : CseTable) (w : Reg) : CseTable where
  map k := if k ∈ t.byOutput w ∧ t.map k = some w then none else t.map k
  byOutput := Function.update t.byOutput w []
  indexed j v h := by
    have := t.indexed j v
    by_cases hv : v = w <;> simp_all

def evictAll (t : CseTable) (ws : List Reg) : CseTable := ws.foldl evictReg t

theorem evictReg_some {t : CseTable} {w r : Reg} {k : ℕ} :
    (t.evictReg w).map k = some r ↔ t.map k = some r ∧ r ≠ w := by
  have := t.indexed k w
  by_cases h : t.map k = some w
  · simp only [evictReg, h, this h, and_self, if_true, reduceCtorEq, Option.some.injEq, false_iff,
      not_and, not_not]
    exact Eq.symm
  · simp only [evictReg, h, and_false, if_false, iff_self_and]
    rintro hr rfl
    exact h hr

/-- Eviction forgets the given temporaries and nothing else. -/
theorem evictAll_some {t : CseTable} {ws : List Reg} {r : Reg} {k : ℕ} :
    (t.evictAll ws).map k = some r ↔ t.map k = some r ∧ r ∉ ws := by
  induction ws generalizing t with
  | nil => simp [evictAll]
  | cons w ws ih =>
    rw [evictAll, List.foldl_cons, ← evictAll, ih, evictReg_some, List.mem_cons, not_or, and_assoc]

end CseTable

/-- The registers whose entries the pass evicts at an instruction. -/
def evictedRegs : Insn → List Reg
  | .loadConst r _ | .loadNone r | .loadGlobal r _ | .loadClassName r _ _ | .loadCell r _
  | .move r _ => [r]
  | .unpack base _ n => List.range' base n
  | .unpackEx _ before after dstBase => List.range' dstBase (before+1+after)
  | .yieldFrom _ sentReg resultReg => [resultReg, sentReg]
  | x => x.writableDst.toList

/-- Behind these the table is cleared. -/
def endsBlock : Insn → Bool
  | .jump .. | .jumpIfFalse .. | .jumpIfTrue .. | .cmpJumpIfFalse .. | .cmpJumpIfTrue ..
  | .cmpJumpIfFalseConst .. | .cmpJumpIfTrueConst .. | .forIter .. | .setupExcept ..
  | .matchExcept .. | .matchExceptStar .. | .ret .. | .returnNone | .raiseValue ..
  | .raiseExceptStarResidual .. | .raiseFrom .. | .raiseReRaise | .raiseAssert ..
  | .raiseAssertNoMsg => true
  | _ => false

def record (numLocals : ℕ) (t : CseTable) (k : ℕ) (dst : Reg) : CseTable :=
  if numLocals ≤ dst then t.insert k dst else t

/-- Share the load, or leave the instruction and record it. The table has forgotten what the
instruction overwrites. -/
def share (numLocals : ℕ) (t : CseTable) : Insn → Insn × CseTable
  | .loadConst dst idx => match t.map idx with
    | some prev =>
      if prev ≠ dst then (.copyReg dst prev, t)
      else (.loadConst dst idx, record numLocals t idx dst)
    | none => (.loadConst dst idx, record numLocals t idx dst)
  | x => (x, t)

/-- The body of the loop behind the test for a block start. -/
def cseStep (numLocals : ℕ) (t : CseTable) (x : Insn) : Insn × CseTable :=
  let r := share numLocals (t.evictAll (evictedRegs x)) x
  (r.1, if endsBlock r.1 then .empty else r.2)

def cseFrom (numLocals : ℕ) (start : ℕ → Bool) : ℕ → CseTable → List Insn → List Insn
  | _, _, [] => []
  | i, t, x::xs =>
    let r := cseStep numLocals (if start i then .empty else t) x
    r.1 :: cseFrom numLocals start (i+1) r.2 xs

def passCse (insns : List Insn) (numLocals : ℕ) : List Insn :=
  cseFrom numLocals (isTarget insns) 0 .empty insns

/-! ## The table at each instruction -/

section table
variable (insns : List Insn) (numLocals : ℕ)

/-- The table when the loop comes to an instruction, behind the test for a block start. -/
def tableAt : ℕ → CseTable
  | 0 => .empty
  | i+1 =>
    if isTarget insns (i+1) then .empty
    else match insns[i]? with
      | some x => (cseStep numLocals (tableAt i) x).2
      | none => .empty

theorem cseFrom_getElem? (i : ℕ) (t : CseTable) (xs : List Insn) (hxs : insns.drop i = xs)
    (ht : (if isTarget insns i then .empty else t) = tableAt insns numLocals i) (j : ℕ) :
    (cseFrom numLocals (isTarget insns) i t xs)[j]? =
      xs[j]?.map fun x => (cseStep numLocals (tableAt insns numLocals (i+j)) x).1 := by
  induction xs generalizing i t j with
  | nil => simp [cseFrom]
  | cons x xs ih =>
    have hx : insns[i]? = some x := by
      have := congrArg (·[0]?) hxs
      simpa using this
    rw [cseFrom, ht]
    cases j with
    | zero => simp
    | succ j =>
      have hdrop : insns.drop (i+1) = xs := by
        rw [← List.tail_drop, hxs, List.tail_cons]
      have hnext : (if isTarget insns (i+1) then .empty
          else (cseStep numLocals (tableAt insns numLocals i) x).2) =
          tableAt insns numLocals (i+1) := by
        rw [tableAt, hx]
      have hpos : i+1+j = i+(j+1) := by omega
      rw [List.getElem?_cons_succ, List.getElem?_cons_succ, ih (i+1) _ hdrop hnext j, hpos]

theorem passCse_getElem? (j : ℕ) :
    (passCse insns numLocals)[j]? =
      insns[j]?.map fun x => (cseStep numLocals (tableAt insns numLocals j) x).1 := by
  have h := cseFrom_getElem? insns numLocals 0 .empty insns rfl (by simp [tableAt]) j
  rw [Nat.zero_add] at h
  exact h

theorem passCse_length : (passCse insns numLocals).length = insns.length := by
  apply Nat.le_antisymm
  · rw [← List.getElem?_eq_none_iff, passCse_getElem?]
    simp
  · have h := passCse_getElem? insns numLocals (passCse insns numLocals).length
    rw [List.getElem?_eq_none le_rfl, eq_comm, Option.map_eq_none_iff] at h
    exact List.getElem?_eq_none_iff.mp h

end table

/-! ## What the table says of the registers -/

theorem share_endsBlock (numLocals : ℕ) (t : CseTable) (x : Insn) :
    endsBlock (share numLocals t x).1 = endsBlock x := by
  unfold share
  split
  case h_1 dst idx =>
    cases t.map idx with
    | none => rfl
    | some prev =>
      by_cases h : prev ≠ dst
      · simp only [if_pos h]
        rfl
      · simp only [if_neg h]
  case h_2 => rfl

theorem record_some {numLocals : ℕ} {t : CseTable} {k j : ℕ} {dst r : Reg}
    (h : (record numLocals t k dst).map j = some r) :
    t.map j = some r ∨ j = k ∧ r = dst ∧ numLocals ≤ dst := by
  rw [record] at h
  by_cases hd : numLocals ≤ dst
  · by_cases hj : j = k <;> simp_all [CseTable.insert]
  · rw [if_neg hd] at h
    exact .inl h

theorem share_some {numLocals : ℕ} {t : CseTable} {x : Insn} {k : ℕ} {r : Reg}
    (h : (share numLocals t x).2.map k = some r) :
    t.map k = some r ∨ x = .loadConst r k ∧ numLocals ≤ r := by
  cases x
  case loadConst dst idx =>
    have hrec : ∀ h : (record numLocals t idx dst).map k = some r,
        t.map k = some r ∨ Insn.loadConst dst idx = .loadConst r k ∧ numLocals ≤ r := by
      intro h
      rcases record_some h with h | ⟨rfl, rfl, hl⟩
      · exact .inl h
      · exact .inr ⟨rfl, hl⟩
    rw [share] at h
    cases hm : t.map idx with
    | none => exact hrec (by simpa [hm] using h)
    | some prev =>
      by_cases hp : prev ≠ dst
      · exact .inl (by simpa [hm, hp] using h)
      · exact hrec (by simpa [hm, hp] using h)
  all_goals exact .inl h

/-- An entry behind an instruction has survived it, or is the load it records. -/
theorem cseStep_some {numLocals : ℕ} {t : CseTable} {x : Insn} {k : ℕ} {r : Reg}
    (h : (cseStep numLocals t x).2.map k = some r) :
    endsBlock x = false ∧
      (t.map k = some r ∧ r ∉ evictedRegs x ∨ x = .loadConst r k ∧ numLocals ≤ r) := by
  simp only [cseStep, share_endsBlock] at h
  cases he : endsBlock x with
  | true => simp [he, CseTable.empty] at h
  | false =>
    simp only [he, if_false, Bool.false_eq_true] at h
    exact ⟨rfl, (share_some h).imp_left CseTable.evictAll_some.mp⟩

/-- A step that replaces the instruction copies the temporary that holds its entry. -/
theorem cseStep_fst {numLocals : ℕ} {t : CseTable} {x : Insn} :
    (cseStep numLocals t x).1 = x ∨ ∃ dst k r, x = .loadConst dst k ∧ t.map k = some r ∧ r ≠ dst ∧
      (cseStep numLocals t x).1 = .copyReg dst r := by
  cases x
  case loadConst dst k =>
    rw [cseStep, share]
    cases hm : (t.evictAll (evictedRegs (.loadConst dst k))).map k with
    | none => exact .inl rfl
    | some r =>
      have ht := CseTable.evictAll_some.mp hm
      by_cases hr : r ≠ dst
      · exact .inr ⟨dst, k, r, rfl, ht.1, hr, by simp [hr]⟩
      · exact .inl (by simp [hr])
  all_goals exact .inl rfl

theorem tableAt_temp {insns : List Insn} {numLocals pc k : ℕ} {r : Reg}
    (h : (tableAt insns numLocals pc).map k = some r) : numLocals ≤ r := by
  induction pc with
  | zero => simp [tableAt, CseTable.empty] at h
  | succ pc ih =>
    rw [tableAt] at h
    by_cases ht : isTarget insns (pc+1)
    · simp [ht, CseTable.empty] at h
    · cases hx : insns[pc]? with
      | none => simp [ht, hx, CseTable.empty] at h
      | some x =>
        simp only [ht, hx, if_false, Bool.false_eq_true] at h
        rcases (cseStep_some h).2 with hold | hnew
        · exact ih hold.1
        · exact hnew.2

/-- The instructions that overwrite registers without an eviction. -/
def unseenWrites : Insn → List Reg
  | .loadNoneRange start count => List.range' start count
  | .matchClassPositional dstBase _ _ n => List.range' dstBase n
  | _ => []

theorem write_seen {x : Insn} (hlate : x.isLateStageGuardInsn = false) {r : Reg}
    (h : r ∈ x.collectWrites) :
    r ∈ evictedRegs x ∨ r ∈ unseenWrites x ∨ endsBlock x := by
  cases x <;> first
    | exact .inl h
    | exact .inr (.inl h)
    | exact .inr (.inr rfl)
    | cases hlate

/-- The load of the entry `k` is shared: a later instruction of the result copies `r` for it. -/
def ReusedFrom (insns : List Insn) (numLocals pc k : ℕ) (r : Reg) : Prop :=
  ∃ q dst, pc ≤ q ∧ insns[q]? = some (.loadConst dst k) ∧
    (passCse insns numLocals)[q]? = some (.copyReg dst r)

/-- The instruction overwrites, unseen by the pass, a temporary that the table holds and a later
instruction copies. -/
def Overlooked (insns : List Insn) (numLocals pc : ℕ) : Prop :=
  ∃ x k r, insns[pc]? = some x ∧ r ∈ unseenWrites x ∧
    (tableAt insns numLocals pc).map k = some r ∧ ReusedFrom insns numLocals (pc+1) k r

section runs
variable {Val World : Type*} {sem : Sem Val World} {numLocals : ℕ} {insns : List Insn}

/-- The steps of a run at which no temporary is overlooked. -/
def Respected (insns : List Insn) (numLocals : ℕ) : Option (State Val World) → Prop
  | some s => ¬Overlooked insns numLocals s.pc
  | none => True

/-- The temporaries of the table that will be copied hold their constants. Those the next
instruction evicts need not: a delegation that is resumed has already stored the sent value. -/
def Good (sem : Sem Val World) (insns : List Insn) (numLocals pc : ℕ) (regs : Regs Val) : Prop :=
  ∀ x k r, insns[pc]? = some x → (tableAt insns numLocals pc).map k = some r →
    r ∉ evictedRegs x → ReusedFrom insns numLocals pc k r → regs r = some (sem.const k)

def Rel (sem : Sem Val World) (insns : List Insn) (numLocals : ℕ) (s t : State Val World) : Prop :=
  s = t ∧ Good sem insns numLocals s.pc s.regs ∧ ∀ h ∈ s.handlers, isTarget insns h

theorem tableAt_target {pc : ℕ} (h : isTarget insns pc) :
    tableAt insns numLocals pc = .empty := by
  cases pc with
  | zero => rfl
  | succ pc => simp [tableAt, h]

theorem good_target {pc : ℕ} (h : isTarget insns pc) (regs : Regs Val) :
    Good sem insns numLocals pc regs := by
  intro x k r _ hk
  simp [tableAt_target h, CseTable.empty] at hk

theorem ReusedFrom.mono {pc pc' k : ℕ} {r : Reg} (hle : pc' ≤ pc)
    (h : ReusedFrom insns numLocals pc k r) : ReusedFrom insns numLocals pc' k r := by
  obtain ⟨q, dst, hq, hrest⟩ := h
  exact ⟨q, dst, hle.trans hq, hrest⟩

/-- A temporary that is neither written nor evicted keeps its value. -/
theorem Good.frame {pc : ℕ} {regs : Regs Val} {x : Insn} (h : Good sem insns numLocals pc regs)
    (hx : insns[pc]? = some x) {k : ℕ} {r : Reg} (hk : (tableAt insns numLocals pc).map k = some r)
    (he : r ∉ evictedRegs x) (hu : ReusedFrom insns numLocals pc k r) (hw : r ∉ x.collectWrites)
    (o : Outcome Val World) : finishRegs numLocals x o regs r = some (sem.const k) := by
  rw [finishRegs_frame hw fun _ => tableAt_temp hk]
  exact h x k r hx hk he hu

theorem Good.next {pc : ℕ} {regs : Regs Val} {world : World} {x : Insn}
    (h : Good sem insns numLocals pc regs) (hx : insns[pc]? = some x)
    (hlate : x.isLateStageGuardInsn = false) (hok : ¬Overlooked insns numLocals pc) :
    Good sem insns numLocals (pc+1)
      (finishRegs numLocals x (perform sem numLocals x regs world) regs) := by
  intro y k r _ hk _ hu
  rw [tableAt] at hk
  by_cases ht : isTarget insns (pc+1)
  · simp [ht, CseTable.empty] at hk
  · simp only [ht, hx, if_false, Bool.false_eq_true] at hk
    obtain ⟨hends, hold | hnew⟩ := cseStep_some hk
    · have hw : r ∉ x.collectWrites := by
        intro hmem
        rcases write_seen hlate hmem with he | hun | he
        · exact hold.2 he
        · exact hok ⟨x, k, r, hx, hun, hold.1, hu⟩
        · simp [hends] at he
      exact h.frame hx hold.1 hold.2 (hu.mono (Nat.le_succ pc)) hw _
    · obtain rfl := hnew.1
      rw [perform_loadConst, Function.update_self]

/-- A delegation that is resumed has written the sent value only. -/
theorem Good.again {pc : ℕ} {regs : Regs Val} {x : Insn}
    (h : Good sem insns numLocals pc regs) (hx : insns[pc]? = some x)
    (hf : canFlow x .again) (o : Outcome Val World) :
    Good sem insns numLocals pc (finishRegs numLocals x o regs) := by
  intro y k r hy hk he hu
  obtain rfl : x = y := Option.some.inj (hx.symm.trans hy)
  apply h.frame hx hk he hu
  cases x
  case yieldFrom iterReg sentReg resultReg => exact he
  all_goals cases hf

theorem Rel.of_good {pc : ℕ} {regs : Regs Val} {hs : List ℕ} (h : Good sem insns numLocals pc regs)
    (ht : ∀ a ∈ hs, isTarget insns a) (w : World) :
    Rel sem insns numLocals ⟨pc, regs, w, hs⟩ ⟨pc, regs, w, hs⟩ := ⟨rfl, h, ht⟩

theorem next_rel {pc : ℕ} {x : Insn} {hs : List ℕ} {regs : Regs Val} (hx : insns[pc]? = some x)
    (ht : ∀ h ∈ hs, isTarget insns h) (h : Good sem insns numLocals (pc+1) regs) :
    Goto.Rel (fun pc hs pc' hs' => ∀ w : World,
        Rel sem insns numLocals ⟨pc, regs, w, hs⟩ ⟨pc', regs, w, hs'⟩)
      (transfer ⟨insns, []⟩ pc hs x .next) (transfer ⟨insns, []⟩ pc hs x .next) := by
  rcases mark_cases x with ⟨k, rfl⟩ | rfl | hmark
  · simp only [transfer]
    cases htgt : target insns.length pc k with
    | none => exact .finish .fault
    | some t =>
      refine .goto fun w => .of_good h ?_ w
      intro a ha
      rcases List.mem_cons.mp ha with rfl | ha
      · exact isTarget_of_off hx rfl htgt
      · exact ht a ha
  · exact .goto fun w => .of_good h (fun a ha => ht a (List.mem_of_mem_tail ha)) w
  · rw [transfer_next hmark]
    exact .goto fun w => .of_good h ht w

/-- Wherever an instruction leads, the temporaries to be copied hold their constants. -/
theorem go_rel {pc : ℕ} {x : Insn} {hs : List ℕ} {regs : Regs Val} {world : World}
    (hx : insns[pc]? = some x) (hlate : x.isLateStageGuardInsn = false)
    (hok : ¬Overlooked insns numLocals pc) (ht : ∀ h ∈ hs, isTarget insns h)
    (h : Good sem insns numLocals pc regs) :
    Goto.Rel (fun pc hs pc' hs' => ∀ w : World, Rel sem insns numLocals
        ⟨pc, finishRegs numLocals x (perform sem numLocals x regs world) regs, w, hs⟩
        ⟨pc', finishRegs numLocals x (perform sem numLocals x regs world) regs, w, hs'⟩)
      (transfer ⟨insns, []⟩ pc hs x (perform sem numLocals x regs world).flow)
      (transfer ⟨insns, []⟩ pc hs x (perform sem numLocals x regs world).flow) := by
  have hcan := perform_flow sem numLocals x regs world
  cases hf : (perform sem numLocals x regs world).flow with
  | next => exact next_rel hx ht (h.next hx hlate hok)
  | jump =>
    simp only [transfer]
    cases hk : x.jumpOff with
    | none => exact .finish .fault
    | some k =>
      cases htgt : target insns.length pc k with
      | none => simpa [htgt] using Goto.Rel.finish .fault
      | some t =>
        have htarget := isTarget_of_off hx (targetOff_of_jump hlate hk) htgt
        simpa [htgt] using Goto.Rel.goto fun w => Rel.of_good (good_target htarget _) ht w
  | again => exact .goto fun w => .of_good (h.again hx (hf ▸ hcan) _) ht w
  | raise =>
    cases hs with
    | nil => exact .finish .escaped
    | cons a rest =>
      exact .goto fun w => .of_good (good_target (ht a (by simp)) _)
        (fun b hb => ht b (by simp [hb])) w
  | halt => exact .finish .returned

/-- Every visit but those of the loads that were shared, by its position. -/
def unchanged (insns : List Insn) (numLocals : ℕ) : Observer := fun pc _ =>
  if (passCse insns numLocals)[pc]? = insns[pc]? then some pc else none

/-- Where the pass puts a copy, the input loads the constant that the copied register holds. -/
theorem Good.shared {pc : ℕ} {regs : Regs Val} {x y : Insn}
    (h : Good sem insns numLocals pc regs) (hx : insns[pc]? = some x)
    (hy : (passCse insns numLocals)[pc]? = some y) (hne : y ≠ x) :
    ∃ dst k r, x = .loadConst dst k ∧ y = .copyReg dst r ∧ regs r = some (sem.const k) := by
  have hstep : (cseStep numLocals (tableAt insns numLocals pc) x).1 = y := by
    rw [passCse_getElem?, hx] at hy
    exact Option.some.inj hy
  rcases @cseStep_fst numLocals (tableAt insns numLocals pc) x with
    hsame | ⟨dst, k, r, rfl, hk, hr, hcopy⟩
  · exact absurd (hstep.symm.trans hsame) hne
  · obtain rfl := hstep.symm.trans hcopy
    refine ⟨dst, k, r, rfl, rfl, h _ k r hx hk ?_ ⟨pc, dst, le_rfl, hx, hy⟩⟩
    simpa [evictedRegs.eq_def] using hr

/-- A copy of a register that holds the constant does what the load does. -/
theorem perform_copyReg {dst k r : ℕ} {regs : Regs Val} (h : regs r = some (sem.const k))
    (world : World) :
    perform sem numLocals (.copyReg dst r) regs world =
      perform sem numLocals (.loadConst dst k) regs world :=
  perform_copied sem (.inr rfl) h world

theorem rel_matched (hlate : ∀ x ∈ insns, x.isLateStageGuardInsn = false) {s t : State Val World}
    (h : Rel sem insns numLocals s t) (hok : Respected insns numLocals (some s)) :
    Machine.Matched (frame sem numLocals ⟨insns, []⟩ (unchanged insns numLocals))
      (frame sem numLocals ⟨passCse insns numLocals, []⟩ (unchanged insns numLocals))
      (Option.Rel (Rel sem insns numLocals)) (fun _ _ => 0) (some s) (some t) := by
  obtain ⟨rfl, hgood, ht⟩ := h
  have hlen := passCse_length insns numLocals
  cases hx : insns[s.pc]? with
  | none =>
    have hx' : (passCse insns numLocals)[s.pc]? = none := by rw [passCse_getElem?, hx]; rfl
    refine .both _ _ _ (frame_none hx) ?_ .none
    rw [frame_none hx', hlen]
  | some x =>
    have hgo := @go_rel _ World _ _ _ _ _ _ _ s.world hx (hlate x (List.mem_of_getElem? hx)) hok
      ht hgood
    cases hy : (passCse insns numLocals)[s.pc]? with
    | none => simp [passCse_getElem?, hx] at hy
    | some y =>
      by_cases hne : y = x
      · subst hne
        apply frame_both hx hy rfl rfl rfl
        rw [transfer_congr hlen]
        exact hgo
      · obtain ⟨dst, k, r, rfl, rfl, hr⟩ := hgood.shared hx hy hne
        have hhidden : unchanged insns numLocals s.pc = fun _ => none := by
          funext i
          simp [unchanged, hx, hy]
        refine frame_both hx hy ?_ (perform_copyReg hr s.world) rfl ?_
        · simp [visitEvents, hhidden]
        · rw [transfer_congr hlen]
          exact hgo

/-- On a stream without late-stage guards, in every run that overlooks no temporary, each load
the pass has replaced by a copy loads the constant that the copied register then holds, and the
result of the pass shows the same visits otherwise and the same end. -/
theorem cse_copies_constant (insns : List Insn) (numLocals : ℕ)
    (hlate : ∀ x ∈ insns, x.isLateStageGuardInsn = false) (sem : Sem Val World) (regs : Regs Val)
    (world : World)
    (hok : (frame sem numLocals ⟨insns, []⟩ (unchanged insns numLocals)).Along
      (Respected insns numLocals) (State.enter regs world)) :
    (frame sem numLocals ⟨insns, []⟩ (unchanged insns numLocals)).Along
        (fun s => ∀ s' ∈ s, ∀ x y, insns[s'.pc]? = some x →
          (passCse insns numLocals)[s'.pc]? = some y → y ≠ x →
          ∃ dst k r, x = .loadConst dst k ∧ y = .copyReg dst r ∧ s'.regs r = some (sem.const k))
        (State.enter regs world) ∧
      (frame sem numLocals ⟨passCse insns numLocals, []⟩ (unchanged insns numLocals)).behaviours
          (State.enter regs world) =
        (frame sem numLocals ⟨insns, []⟩ (unchanged insns numLocals)).behaviours
          (State.enter regs world) := by
  have hstart : Rel sem insns numLocals ⟨0, regs, world, []⟩ ⟨0, regs, world, []⟩ :=
    .of_good (good_target (by simp [isTarget]) regs) (by simp) world
  have htracks := frame_tracks_along (Rel sem insns numLocals) (fun _ _ => 0)
    (Respected insns numLocals) (fun s t h hp => rel_matched hlate h hp) hstart hok
  constructor
  · intro n s hs s' hs' x y hx hy hne
    obtain ⟨m, t, -, -, hrel⟩ := htracks.forth n s hs
    cases hs'
    cases hrel with
    | some hrel => exact hrel.2.1.shared hx hy hne
  · exact htracks.behaviours_eq.symm

end runs

/-- The captures of a class pattern land beside the temporary that is copied afterwards. -/
def captureBeside : List Insn :=
  [.loadConst 1 5, .matchClassPositional 2 0 0 2, .loadConst 4 5, .ret 4]

theorem captureBeside_respected (pc : ℕ) : ¬Overlooked captureBeside 1 pc := by
  rintro ⟨x, k, r, hx, hr, hk, -⟩
  match pc, hx with
  | 0, hx | 2, hx | 3, hx =>
    obtain rfl := Option.some.inj hx
    cases hr
  | 1, hx =>
    obtain rfl := Option.some.inj hx
    have htable : tableAt captureBeside 1 1 = (cseStep 1 .empty (.loadConst 1 5)).2 := rfl
    rw [htable] at hk
    rcases (cseStep_some hk).2 with hold | ⟨heq, -⟩
    · simp [CseTable.empty] at hold
    · cases heq
      simp [unseenWrites] at hr

theorem cse_copies_constant_capture_beside :
    (frame scripted 1 ⟨captureBeside, []⟩ (unchanged captureBeside 1)).Along
        (fun s => ∀ s' ∈ s, ∀ x y, captureBeside[s'.pc]? = some x →
          (passCse captureBeside 1)[s'.pc]? = some y → y ≠ x →
          ∃ dst k r, x = .loadConst dst k ∧ y = .copyReg dst r ∧
            s'.regs r = some (scripted.const k))
        (State.enter (fun _ => some 3) []) ∧
      (frame scripted 1 ⟨passCse captureBeside 1, []⟩ (unchanged captureBeside 1)).behaviours
          (State.enter (fun _ => some 3) []) =
        (frame scripted 1 ⟨captureBeside, []⟩ (unchanged captureBeside 1)).behaviours
          (State.enter (fun _ => some 3) []) := by
  apply cse_copies_constant captureBeside 1 (by decide) scripted
  intro n s hs
  cases s with
  | none => trivial
  | some s => exact captureBeside_respected s.pc

/-- The captures of a class pattern land on the temporary that is copied afterwards. -/
def captureOver : List Insn :=
  [.loadConst 1 5, .matchClassPositional 1 0 0 1, .loadConst 2 5, .ret 2]

/-- Where the input loads the constant `5`, the copied register holds the captured `7`. -/
theorem cse_copies_overwritten :
    ∃ s, (frame scripted 1 ⟨captureOver, []⟩ (unchanged captureOver 1)).after 2
        (State.enter (fun _ => some 3) []) = some (some s) ∧
      captureOver[s.pc]? = some (.loadConst 2 5) ∧
      (passCse captureOver 1)[s.pc]? = some (.copyReg 2 1) ∧
      s.regs 1 = some 7 ∧ scripted.const 5 = 5 :=
  ⟨_, rfl, rfl, rfl, rfl, rfl⟩

end Pyrust.CommonSubexpressions
