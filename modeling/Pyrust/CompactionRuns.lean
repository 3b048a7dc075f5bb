import Pyrust.ControlGraph

/-!
# Compaction is a simulation

Every pass that drops instructions relies on one renumbering. Here the places of
a stream are carried over to the compacted stream: the program counter and every
handler target move to the first kept instruction at or behind them.
-/

set_option autoImplicit false

namespace Pyrust.CompactionRuns

open Bytecode Machine Compaction ControlGraph Simulation

/-- Carry a way to go on over to renumbered places. -/
def Goto.map (f : ℕ → ℕ) : Goto → Goto
  | .goto pc hs => .goto (f pc) (hs.map f)
  | .finish how => .finish how

/-- The observer that labels each instruction with its new position, and does not see the
dropped ones. -/
def keptVisits (keep : List Bool) : Observer := fun pc _ =>
  if keep.getD pc false then some (newPc keep pc) else none

/-- Every visit, by its position. -/
def positions : Observer := fun pc _ => some pc

section places
variable {insns : List Insn} {keep : List Bool}

theorem newPc_le_compact (h : keep.length = insns.length) {pc : ℕ} (hpc : pc ≤ insns.length) :
    newPc keep pc ≤ (compact insns keep).length := by
  rw [compact_length h]
  exact newPc_le hpc

/-- An offset of a kept instruction leads to the image of its old target. -/
theorem compact_target (h : keep.length = insns.length) (hr : InRange insns) {pc : ℕ} {i : Insn}
    {k : ℤ} (hi : insns[pc]? = some i) (hk : i.jumpOff = some k) :
    (rewriteOffsets i pc (toNew keep)).jumpOff.bind
        (target (compact insns keep).length (newPc keep pc)) =
      some (newPc keep (jumpTarget pc k)) := by
  have hlt : pc < insns.length := (List.getElem?_eq_some_iff.mp hi).1
  have hle := (target_eq hr hi hk).2
  have hpc : (toNew keep).getD pc 0 = newPc keep pc := toNew_getD (by omega)
  have hto : (toNew keep).getD (jumpTarget pc k) 0 = newPc keep (jumpTarget pc k) :=
    toNew_getD (by omega)
  have ht := rewrite_target (compact insns keep).length pc (toNew keep) (toNew keep) hk
    (by rw [hto]; exact newPc_le_compact h hle)
  rwa [hpc, hto] at ht

/-- A kept instruction goes on from the image of its place as it does from its place. -/
theorem compact_transfer (h : keep.length = insns.length) (hr : InRange insns) {pc : ℕ} {i : Insn}
    {f : Flow} (hi : insns[pc]? = some i) (hkeep : keep[pc]? = some true) (hf : canFlow i f)
    (hs : List ℕ) :
    transfer ⟨compact insns keep, []⟩ (newPc keep pc) (hs.map (newPc keep))
        (rewriteOffsets i pc (toNew keep)) f =
      Goto.map (newPc keep) (transfer ⟨insns, []⟩ pc hs i f) := by
  have hsucc : newPc keep (pc+1) = newPc keep pc+1 := newPc_succ hkeep
  cases f with
  | next =>
    rcases mark_cases i with ⟨k, rfl⟩ | rfl | hmark
    · have ht := compact_target h hr hi rfl
      rw [rewriteOffsets, rewriteOffsetsWith] at ht ⊢
      simp only [Insn.fixOff.eq_def, Insn.jumpOff.eq_def, Option.bind_some] at ht ⊢
      simp only [transfer, ht, (target_eq hr hi rfl).1, Goto.map, hsucc, List.map_cons]
    · simp [transfer, rewriteOffsets, rewriteOffsetsWith, Insn.fixOff.eq_def, Goto.map, hsucc]
    · have hmark' : (rewriteOffsets i pc (toNew keep)).isHandlerMark = false := by
        rw [rewriteOffsets, rewriteOffsetsWith, Insn.fixOff_isHandlerMark, hmark]
      rw [transfer_next hmark, transfer_next hmark', Goto.map, hsucc]
  | jump =>
    obtain ⟨k, hk⟩ := jumpOff_of_jump hf
    simp [transfer, compact_target h hr hi hk, hk, (target_eq hr hi hk).1, Goto.map]
  | again => rfl
  | raise => cases hs <;> rfl
  | halt => rfl

/-- Where a place and a handler stack inside the stream lead stays inside the stream. -/
theorem transfer_inside (hr : InRange insns) {pc pc' : ℕ} {hs hs' : List ℕ} {i : Insn} {f : Flow}
    (hi : insns[pc]? = some i) (hh : ∀ h ∈ hs, h ≤ insns.length)
    (ht : transfer ⟨insns, []⟩ pc hs i f = .goto pc' hs') :
    pc' ≤ insns.length ∧ ∀ h ∈ hs', h ≤ insns.length := by
  have hlt : pc < insns.length := (List.getElem?_eq_some_iff.mp hi).1
  cases f with
  | next =>
    rcases mark_cases i with ⟨k, rfl⟩ | rfl | hmark
    · rw [transfer, (target_eq hr hi rfl).1] at ht
      cases ht
      refine ⟨hlt, ?_⟩
      intro a ha
      rcases List.mem_cons.mp ha with rfl | ha
      · exact (target_eq hr hi rfl).2
      · exact hh a ha
    · cases ht
      exact ⟨hlt, fun a ha => hh a (List.mem_of_mem_tail ha)⟩
    · rw [transfer_next hmark] at ht
      cases ht
      exact ⟨hlt, hh⟩
  | jump =>
    cases hk : i.jumpOff with
    | none => simp [transfer, hk] at ht
    | some k =>
      simp only [transfer, hk, Option.bind_some, (target_eq hr hi hk).1] at ht
      cases ht
      exact ⟨(target_eq hr hi hk).2, hh⟩
  | again =>
    cases ht
    exact ⟨hlt.le, hh⟩
  | raise =>
    cases hs with
    | nil => cases ht
    | cons a rest =>
      cases ht
      exact ⟨hh _ (by simp), fun b hb => hh b (by simp [hb])⟩
  | halt => cases ht

end places

section run
variable {Val World : Type*} {sem : Sem Val World} {numLocals : ℕ} {insns : List Insn}
  {keep : List Bool}

def renumber (keep : List Bool) (s : State Val World) : State Val World :=
  { s with pc := newPc keep s.pc, handlers := s.handlers.map (newPc keep) }

/-- The visit has no effect but to fall through. -/
def Idle (sem : Sem Val World) (numLocals : ℕ) (insns : List Insn) (s : State Val World) : Prop :=
  step sem numLocals ⟨insns, []⟩ (fun _ _ => none) s = ([], some { s with pc := s.pc+1 })

/-- Dropped instructions are idle whenever they are visited. -/
def DropsIdle (sem : Sem Val World) (numLocals : ℕ) (insns : List Insn) (keep : List Bool)
    (c : Option (State Val World)) : Prop :=
  ∀ s, c = some s → keep[s.pc]? = some false → Idle sem numLocals insns s

theorem keptVisits_of_kept {pc : ℕ} (h : keep[pc]? = some true) (i : Insn) :
    keptVisits keep pc i = some (newPc keep pc) := by
  simp [keptVisits, h]

theorem keptVisits_of_dropped {pc : ℕ} (h : keep[pc]? = some false) (i : Insn) :
    keptVisits keep pc i = none := by
  simp [keptVisits, h]

/-- Observers of the two streams that agree on the kept instructions, and hide the others. -/
structure Agree (insns : List Insn) (keep : List Bool) (obs obs' : Observer) : Prop where
  dropped : ∀ pc i, insns[pc]? = some i → keep[pc]? = some false → obs pc i = none
  kept : ∀ pc i, insns[pc]? = some i → keep[pc]? = some true →
    obs' (newPc keep pc) (rewriteOffsets i pc (toNew keep)) = obs pc i

/-- An idle hidden visit is a silent step. -/
theorem frame_idle {obs : Observer} {s : State Val World} {i : Insn}
    (hi : insns[s.pc]? = some i) (hobs : obs s.pc i = none) (h : Idle sem numLocals insns s) :
    (frame sem numLocals ⟨insns, []⟩ obs).step (some s) =
      some ([], some { s with pc := s.pc+1 }) := by
  simp only [Idle, step, hi, visitEvents] at h
  simp [frame, step, hi, visitEvents, hobs]
  simpa using h

structure Rel (insns : List Insn) (keep : List Bool) (s t : State Val World) : Prop where
  image : t = renumber keep s
  pc_le : s.pc ≤ insns.length
  handlers_le : ∀ h ∈ s.handlers, h ≤ insns.length

def remaining (insns : List Insn) (s _t : Option (State Val World)) : ℕ :=
  match s with
  | some s => insns.length-s.pc
  | none => 0

theorem kept_rel (hlen : keep.length = insns.length) (hr : InRange insns) {pc : ℕ} {i : Insn}
    {f : Flow} {hs : List ℕ} (hi : insns[pc]? = some i) (hk : keep[pc]? = some true)
    (hf : canFlow i f) (hh : ∀ h ∈ hs, h ≤ insns.length) (regs : Regs Val) :
    Goto.Rel (fun pc hs pc' hs' => ∀ w : World,
        Rel insns keep ⟨pc, regs, w, hs⟩ ⟨pc', regs, w, hs'⟩)
      (transfer ⟨insns, []⟩ pc hs i f)
      (transfer ⟨compact insns keep, []⟩ (newPc keep pc) (hs.map (newPc keep))
        (rewriteOffsets i pc (toNew keep)) f) := by
  rw [compact_transfer hlen hr hi hk hf]
  cases ht : transfer ⟨insns, []⟩ pc hs i f with
  | finish how => exact .finish how
  | goto pc' hs' =>
    obtain ⟨hpc, hhs⟩ := transfer_inside hr hi hh ht
    exact .goto fun w => ⟨rfl, hpc, hhs⟩

theorem rel_matched (hlen : keep.length = insns.length) (hr : InRange insns)
    {obs obs' : Observer} (hagree : Agree insns keep obs obs')
    {s t : State Val World} (h : Rel insns keep s t)
    (hidle : DropsIdle sem numLocals insns keep (some s)) :
    Machine.Matched (frame sem numLocals ⟨insns, []⟩ obs)
      (frame sem numLocals ⟨compact insns keep, []⟩ obs')
      (Option.Rel (Rel insns keep)) (remaining insns) (some s) (some t) := by
  obtain ⟨rfl, hle, hh⟩ := h
  rcases hle.lt_or_eq with hlt | heq
  · have hi := List.getElem?_eq_getElem hlt
    obtain ⟨b, hb⟩ : ∃ b, keep[s.pc]? = some b := ⟨_, List.getElem?_eq_getElem (hlen ▸ hlt)⟩
    cases b with
    | false =>
      have hhidden := hagree.dropped s.pc _ hi hb
      refine .left _ (frame_idle hi hhidden (hidle s rfl hb)) (.some ⟨?_, hlt, hh⟩) ?_
      · simp [renumber, newPc_succ hb]
      · simp only [remaining]
        omega
    | true =>
      have hj := compact_getElem? hlen hi hb
      refine frame_both hi hj ?_ ?_ ?_ ?_
      · have hlabel := hagree.kept s.pc _ hi hb
        simp only [visitEvents, renumber, hlabel]
        simp [rewriteOffsets, rewriteOffsetsWith]
      · simp [renumber, rewriteOffsets, rewriteOffsetsWith]
      · simp [renumber, rewriteOffsets, rewriteOffsetsWith]
      · have hf := perform_flow sem numLocals insns[s.pc] s.regs s.world
        have hrel := @kept_rel Val World insns keep hlen hr _ _ _ _ hi hb hf hh
          (finishRegs numLocals insns[s.pc] (perform sem numLocals insns[s.pc] s.regs s.world)
            s.regs)
        simpa [renumber, rewriteOffsets, rewriteOffsetsWith] using hrel
  · have hlast : (renumber keep s).pc = (compact insns keep).length := by
      rw [compact_length hlen, ← heq]
      rfl
    refine .both _ _ _ (frame_past heq) ?_ .none
    rw [frame_past hlast]
    rfl

end run

/-- The old position of the `q`-th kept instruction. -/
def sourcePc (keep : List Bool) (q : ℕ) : ℕ :=
  ((List.range keep.length).filter fun pc => keep.getD pc false).getD q 0

theorem countP_range (keep : List Bool) (pc : ℕ) :
    ((List.range keep.length).take pc).countP (fun q => keep.getD q false) = newPc keep pc := by
  induction pc with
  | zero => rfl
  | succ pc ih =>
    rw [List.take_add_one, List.countP_append, ih]
    by_cases hpc : pc < keep.length
    · rw [newPc_succ (List.getElem?_eq_getElem hpc)]
      cases hb : keep[pc] <;> simp [hpc, hb]
    · have hsame : newPc keep (pc+1) = newPc keep pc := by
        rw [newPc, newPc, List.take_of_length_le (by omega), List.take_of_length_le (by omega)]
      simp [hsame, hpc]

theorem sourcePc_newPc {keep : List Bool} {pc : ℕ} (h : keep[pc]? = some true) :
    sourcePc keep (newPc keep pc) = pc := by
  have hlt : pc < keep.length := (List.getElem?_eq_some_iff.mp h).1
  have hf := getElem?_filter_countP (fun q => keep.getD q false) (List.range keep.length) pc pc
    (by simp [hlt]) (by simp [h])
  rw [countP_range] at hf
  rw [sourcePc, List.getD_eq_getElem?_getD, hf]
  rfl

/-- A place moves with the first kept instruction at or behind it. -/
theorem newPc_skip {keep : List Bool} {t q : ℕ} (htq : t ≤ q)
    (h : ∀ m, t ≤ m → m < q → keep[m]? = some false) : newPc keep t = newPc keep q := by
  induction q, htq using Nat.le_induction with
  | base => rfl
  | succ q hq ih =>
    rw [ih fun m h1 h2 => h m h1 (by omega), newPc_succ (h q hq (by omega))]
    rfl

/-- A jump to the next instruction is idle wherever it stands. -/
theorem idle_jump_zero {Val World : Type*} {sem : Sem Val World} {numLocals : ℕ}
    {insns : List Insn} {s : State Val World} (h : insns[s.pc]? = some (.jump 0)) :
    Idle sem numLocals insns s := by
  have hlt : s.pc < insns.length := (List.getElem?_eq_some_iff.mp h).1
  have ht : target insns.length s.pc 0 = some (s.pc+1) := by
    simp only [target]
    rw [if_pos (by omega)]
    simp
  exact Option.some.inj (@frame_jump _ _ sem numLocals ⟨insns, []⟩ _ s 0 _ h rfl ht)

end Pyrust.CompactionRuns
