import Pyrust.ConcatRuns

/-!
# Round after round

What a round leaves of a stream: it is well formed again, every window still
stands as it was built, and what has once lost its readers gets no new ones.
Carried over all rounds, this describes the result of the pass.
-/

set_option autoImplicit false

namespace Pyrust.ConcatRounds

open Bytecode Machine Compaction ControlGraph Simulation ConcatChains ConcatStrings ConcatRuns

section rounds
variable (numLocals : ℕ) (strConst : ℕ → Bool)

/-- The stream with a chain merged. -/
def merged (s : Stream) (c : Chain) : Stream :=
  ⟨rebuild s.insns c s.numRegs, s.numRegs + c.leaves.length⟩

/-- The chain that a round merges. -/
def nextChain (s : Stream) : Option Chain := firstChain numLocals strConst s.insns s.numRegs

/-- Where some rounds put an instruction, unless one of them merges it. -/
def fate : ℕ → Stream → ℕ → Option ℕ
  | 0, _, pc => some pc
  | k+1, s, pc => match nextChain numLocals strConst s with
    | none => some pc
    | some c => if c.first ≤ pc ∧ pc < c.stop then none else fate k (merged s c) (c.newIdx pc)

/-- The copies and the concatenation of a window at or behind `base`. -/
def windowInsn (base : Reg) : Insn → Bool
  | .move dst _ => base ≤ dst
  | .concat _ window _ => base ≤ window
  | _ => false

/-- Every visit but those of merged additions and of windows, by where the instruction ends up
after `k` rounds. -/
def surviving (base : Reg) (k : ℕ) (s : Stream) : Observer := fun pc x =>
  if windowInsn base x then none else fate numLocals strConst k s pc

/-- The copies of the operands, in their order, and behind them the concatenation. -/
structure Window (insns : List Insn) (pos : ℕ) (leaves : List Reg) (dst base : Reg) : Prop where
  copies : ∀ (j : ℕ) (r : Reg), leaves[j]? = some r → insns[pos + j]? = some (.move (base + j) r)
  concat : insns[pos + leaves.length]? = some (.concat dst base leaves.length)

variable {numLocals strConst} {s : Stream} {c : Chain}

theorem rounds_none (h : nextChain numLocals strConst s = none) (k : ℕ) :
    rounds numLocals strConst s k = s := by
  induction k with
  | zero => rfl
  | succ k ih =>
    have hm : mergeOnce numLocals strConst s = none := by
      rw [mergeOnce, show firstChain numLocals strConst s.insns s.numRegs = none from h]
      rfl
    rw [rounds, ih, hm]
    rfl

theorem rounds_add (s : Stream) (j k : ℕ) : rounds numLocals strConst s (j+k) =
    rounds numLocals strConst (rounds numLocals strConst s j) k := by
  induction k with
  | zero => rfl
  | succ k ih => rw [← Nat.add_assoc, rounds, rounds, ih]

theorem rounds_one (h : nextChain numLocals strConst s = some c) :
    rounds numLocals strConst s 1 = merged s c := by
  have hm : mergeOnce numLocals strConst s = some (merged s c) := by
    rw [mergeOnce, show firstChain numLocals strConst s.insns s.numRegs = some c from h]
    rfl
  rw [rounds, rounds, hm]
  rfl

theorem rounds_next (h : nextChain numLocals strConst s = some c) (k : ℕ) :
    rounds numLocals strConst s (k+1) = rounds numLocals strConst (merged s c) k := by
  rw [Nat.add_comm, rounds_add, rounds_one h]

/-! ## What a round keeps -/

theorem relocate_collectReads (x : Insn × ℕ) :
    (relocate s.insns c x).collectReads = x.1.collectReads := by
  simp [relocate, rewriteOffsets, rewriteOffsetsWith]

theorem relocate_late (x : Insn × ℕ) :
    (relocate s.insns c x).isLateStageGuardInsn = x.1.isLateStageGuardInsn := by
  obtain ⟨x, k⟩ := x
  cases x <;> rfl

/-- An instruction that keeps no offset is moved as it is. -/
theorem relocate_plain {x y : Insn} {k : ℕ} (hy : relocate s.insns c (x, k) = y)
    (hoff : y.jumpOff = none) : x = y := by
  subst hy
  cases x <;> first
    | rfl
    | cases hoff

/-- Whatever reads in the new stream has read in the old one, or reads the window. -/
theorem merged_reads (h : Found numLocals strConst s.insns s.numRegs c) {y : Insn}
    (hy : y ∈ (merged s c).insns) {r : Reg} (hr : r ∈ y.collectReads) :
    (∃ x ∈ s.insns, r ∈ x.collectReads) ∧ r ∉ c.removed ∨
      s.numRegs ≤ r ∧ r < s.numRegs + c.leaves.length := by
  obtain ⟨q, hq⟩ := List.mem_iff_getElem?.mp hy
  rcases rebuild_cases h hq with ⟨k, x, hx, hplace, -, rfl⟩ | ⟨b, leaf, hleaf, -, rfl⟩ | ⟨-, rfl⟩
  · rw [relocate_collectReads] at hr
    exact .inl ⟨⟨x, List.mem_of_getElem? hx, hr⟩, fun hrem => removed_unread h hrem hx hplace hr⟩
  · obtain rfl : r = leaf := by simpa [Insn.collectReads.eq_def] using hr
    have hmem := List.mem_of_getElem? hleaf
    exact .inl ⟨leaf_read h hmem, leaf_not_removed h hmem⟩
  · replace hr := List.mem_range'_1.mp hr
    rw [← c.leaves_length] at hr
    exact .inr hr

theorem merged_inRange (hw : WellFormed numLocals s)
    (h : Found numLocals strConst s.insns s.numRegs c) : InRange (merged s c).insns := by
  intro pc y k hy hk
  rcases rebuild_cases h hy with ⟨q, x, hx, -, rfl, rfl⟩ | ⟨b, leaf, -, -, rfl⟩ | ⟨-, rfl⟩
  · obtain ⟨off, hoff⟩ : ∃ off, x.jumpOff = some off := by
      cases hoff : x.jumpOff with
      | none => simp [relocate, rewriteOffsets, rewriteOffsetsWith, hoff] at hk
      | some off => exact ⟨off, rfl⟩
    obtain ⟨t, -, hnew⟩ := relocate_target (c := c) hw.range hx hoff
    rw [hk, Option.bind_some, target] at hnew
    split_ifs at hnew with hin
    rw [merged, rebuild_length h]
    exact_mod_cast hin
  · cases hk
  · cases hk

theorem merged_wellFormed (hw : WellFormed numLocals s)
    (h : Found numLocals strConst s.insns s.numRegs c) : WellFormed numLocals (merged s c) := by
  refine ⟨?_, merged_inRange hw h, ?_, ?_, Nat.le_trans hw.locals (Nat.le_add_right _ _)⟩
  · intro y hy
    obtain ⟨q, hq⟩ := List.mem_iff_getElem?.mp hy
    rcases rebuild_cases h hq with ⟨k, x, hx, -, -, rfl⟩ | ⟨b, leaf, -, -, rfl⟩ | ⟨-, rfl⟩
    · rw [relocate_late]
      exact hw.late x (List.mem_of_getElem? hx)
    · rfl
    · rfl
  · intro y hy r hr
    rcases merged_reads h hy hr with ⟨⟨x, hx, hread⟩, -⟩ | hin
    · exact Nat.lt_of_lt_of_le (hw.frame x hx r hread) (Nat.le_add_right _ _)
    · exact hin.2
  · intro r n b hy
    obtain ⟨q, hq⟩ := List.mem_iff_getElem?.mp hy
    rcases rebuild_cases h hq with ⟨k, x, hx, -, -, heq⟩ | ⟨j, leaf, -, -, heq⟩ | ⟨-, heq⟩
    · obtain rfl := relocate_plain heq.symm rfl
      exact hw.deletes r n b (List.mem_of_getElem? hx)
    · cases heq
    · cases heq

/-- A run of instructions none of which is merged moves as a whole. -/
theorem newIdx_add (h : Found numLocals strConst s.insns s.numRegs c) {pos j : ℕ}
    (hout : ∀ i < j, pos + i < c.first ∨ c.stop ≤ pos + i) :
    c.newIdx (pos + j) = c.newIdx pos + j := by
  induction j with
  | zero => rfl
  | succ j ih =>
    rw [← Nat.add_assoc, newIdx_succ h (hout j (by omega)), ih fun i hi => hout i (by omega),
      Nat.add_assoc]

/-- An instruction that is no addition lies outside the chain. -/
theorem outside_of_plain (h : Found numLocals strConst s.insns s.numRegs c) {k : ℕ} {x : Insn}
    (hx : s.insns[k]? = some x) (hadd : isAdd x = false) : k < c.first ∨ c.stop ≤ k := by
  by_contra hin
  have hstop : c.stop = c.first + c.links.length := rfl
  obtain ⟨a, rfl⟩ : ∃ a, k = c.first + a := ⟨k - c.first, by omega⟩
  obtain ⟨p, d, r, -, -, -, hlink⟩ := h.link_of_lt (a := a) (by omega)
  obtain rfl := Option.some.inj (hx.symm.trans hlink)
  cases hadd

/-- A window stands in the new stream as it stood in the old one. -/
theorem Window.again (h : Found numLocals strConst s.insns s.numRegs c) {pos : ℕ}
    {leaves : List Reg} {dst base : Reg} (hwin : Window s.insns pos leaves dst base) :
    Window (merged s c).insns (c.newIdx pos) leaves dst base ∧
      c.newIdx (pos + leaves.length) = c.newIdx pos + leaves.length := by
  have hout : ∀ i < leaves.length, pos + i < c.first ∨ c.stop ≤ pos + i := by
    intro i hi
    exact outside_of_plain h (hwin.copies i leaves[i] (List.getElem?_eq_getElem hi)) rfl
  have hend := newIdx_add h hout
  refine ⟨⟨?_, ?_⟩, hend⟩
  · intro j r hr
    have hj := (List.getElem?_eq_some_iff.mp hr).1
    have hmove := hwin.copies j r hr
    rw [← newIdx_add h fun i hi => hout i (by omega)]
    exact rebuild_outside h _ hmove (hout j hj)
  · rw [← hend]
    exact rebuild_outside h _ hwin.concat (outside_of_plain h hwin.concat rfl)

/-- The window of a round. -/
theorem window_built (h : Found numLocals strConst s.insns s.numRegs c) :
    Window (merged s c).insns c.first c.leaves c.finalDst s.numRegs := by
  refine ⟨fun j r hr => rebuild_move h _ hr, ?_⟩
  rw [c.leaves_length]
  exact rebuild_concat h _

theorem rounds_wellFormed (hw : WellFormed numLocals s) (k : ℕ) :
    WellFormed numLocals (rounds numLocals strConst s k) := by
  induction k generalizing s with
  | zero => exact hw
  | succ k ih =>
    cases hc : nextChain numLocals strConst s with
    | none =>
      rw [rounds_none hc]
      exact hw
    | some c =>
      rw [rounds_next hc]
      exact ih (merged_wellFormed hw (firstChain_found hc))

/-! ## Removed registers -/

/-- No round gives a register of the frame a reader. -/
theorem reads_rounds (hw : WellFormed numLocals s) (k : ℕ) {r : Reg} (hr : r < s.numRegs) {y : Insn}
    (hy : y ∈ (rounds numLocals strConst s k).insns) (hread : r ∈ y.collectReads) :
    ∃ x ∈ s.insns, r ∈ x.collectReads := by
  induction k generalizing s with
  | zero => exact ⟨y, hy, hread⟩
  | succ k ih =>
    cases hc : nextChain numLocals strConst s with
    | none =>
      rw [rounds_none hc] at hy
      exact ⟨y, hy, hread⟩
    | some c =>
      have h := firstChain_found hc
      rw [rounds_next hc] at hy
      obtain ⟨x, hx, hreadx⟩ := ih (merged_wellFormed hw h)
        (Nat.lt_of_lt_of_le hr (Nat.le_add_right _ _)) hy
      rcases merged_reads h hx hreadx with hold | hwin
      · exact hold.1
      · exact absurd hr (Nat.not_lt.mpr hwin.1)

theorem removed_lt (hw : WellFormed numLocals s)
    (h : Found numLocals strConst s.insns s.numRegs c) {r : Reg} (hr : r ∈ c.removed) :
    r < s.numRegs := by
  obtain ⟨a, ha⟩ := List.mem_iff_getElem?.mp (removed_sub hr)
  rw [List.getElem?_dropLast] at ha
  split_ifs at ha with hlt
  rw [c.dsts_length] at hlt
  obtain ⟨p, d, q, hp, -, -, hx⟩ := h.link_of_lt (a := a+1) (by omega)
  obtain rfl : p = r := Option.some.inj (hp.symm.trans ha)
  exact hw.frame _ (List.mem_of_getElem? hx) p (by simp [Insn.collectReads.eq_def])

/-- A register that a round removes is read nowhere afterwards. -/
theorem removed_gone (hw : WellFormed numLocals s) (hc : nextChain numLocals strConst s = some c)
    (k : ℕ) {r : Reg} (hr : r ∈ c.removed) {y : Insn}
    (hy : y ∈ (rounds numLocals strConst s (k+1)).insns) : r ∉ y.collectReads := by
  intro hread
  have h := firstChain_found hc
  have hlt := removed_lt hw h hr
  rw [rounds_next hc] at hy
  obtain ⟨x, hx, hreadx⟩ := reads_rounds (merged_wellFormed hw h) k
    (Nat.lt_of_lt_of_le hlt (Nat.le_add_right _ _)) hy hread
  rcases merged_reads h hx hreadx with hold | hwin
  · exact hold.2 hr
  · exact absurd hlt (Nat.not_lt.mpr hwin.1)

/-- The loop ends behind every round that merges a chain. -/
theorem round_before_end {k : ℕ}
    (hc : nextChain numLocals strConst (rounds numLocals strConst s k) = some c) :
    ∃ j, passConcatMerge numLocals strConst s = rounds numLocals strConst s (k+(j+1)) := by
  rcases Nat.lt_or_ge k (s.insns.countP isAdd) with hlt | hge
  · obtain ⟨j, hj⟩ := Nat.exists_eq_add_of_lt hlt
    exact ⟨j, by rw [passConcatMerge, hj, Nat.add_assoc]⟩
  · obtain ⟨j, rfl⟩ := Nat.exists_eq_add_of_le hge
    have hend : nextChain numLocals strConst (passConcatMerge numLocals strConst s) = none := by
      simpa [mergeOnce, nextChain] using passConcatMerge_fixpoint s
    rw [rounds_add, ← passConcatMerge, rounds_none hend, hend] at hc
    cases hc

end rounds

section runs
variable {Val World : Type*} {sem : Sem Val World} {numLocals : ℕ} {strConst : ℕ → Bool}
variable (St : Strings sem strConst)

/-- The registers of a window hold strings, each that of its operand. -/
def Filled (leaves : List Reg) (base : Reg) (regs : Regs Val) : Prop :=
  ∀ (j : ℕ) (r : Reg), leaves[j]? = some r →
    ∃ v, regs (base + j) = some v ∧ regs r = some v ∧ St.isStr v

/-- At a concatenation that a round has put in, its window has been filled. -/
def Sound (bound : Reg) (insns : List Insn) (u : State Val World) : Prop :=
  ∀ dst base count, insns[u.pc]? = some (.concat dst base count) → bound ≤ base →
    ∃ pos leaves, Window insns pos leaves dst base ∧ u.pc = pos + leaves.length ∧
      count = leaves.length ∧ Filled St leaves base u.regs

/-- In no round does the run of the stream come to a step that overlooks what the chain of the
round depends on. -/
def Unbroken (numLocals : ℕ) (s : Stream) (regs : Regs Val) (world : World) : Prop :=
  ∀ k c, nextChain numLocals strConst (rounds numLocals strConst s k) = some c →
    (frame sem numLocals ⟨(rounds numLocals strConst s k).insns, []⟩ fun _ _ => none).Along
      (fun u => ∀ v ∈ u, ¬Overlooked St numLocals (rounds numLocals strConst s k).insns c v)
      (State.enter regs world)

variable {St} {s : Stream} {c : Chain} {regs : Regs Val} {world : World}

theorem frame_after_obs {code : Code} (obs obs' : Observer) (n : ℕ)
    (u : Option (State Val World)) :
    (frame sem numLocals code obs).after n u = (frame sem numLocals code obs').after n u := by
  induction n generalizing u with
  | zero => rfl
  | succ n ih =>
    cases u with
    | none => rfl
    | some u =>
      have hsame : (step sem numLocals code obs u).2 = (step sem numLocals code obs' u).2 := by
        unfold step
        cases code.insns[u.pc]? <;> rfl
      show (frame sem numLocals code obs).after n (step sem numLocals code obs u).2 =
        (frame sem numLocals code obs').after n (step sem numLocals code obs' u).2
      rw [ih, hsame]

/-- What holds along a run does so whoever watches. -/
theorem along_obs {code : Code} {obs : Observer} (obs' : Observer)
    {P : Option (State Val World) → Prop} {u : Option (State Val World)}
    (h : (frame sem numLocals code obs).Along P u) :
    (frame sem numLocals code obs').Along P u := by
  intro n u' hn
  apply h n u'
  rw [frame_after_obs obs obs', hn]

theorem sound_start (hw : WellFormed numLocals s) (u : State Val World) :
    Sound St s.numRegs s.insns u := by
  intro dst base count hx hbase
  have hzero : count = 0 := by
    by_contra hne
    have hread : base ∈ (Insn.concat dst base count).collectReads :=
      List.mem_range'_1.mpr ⟨Nat.le_refl _, Nat.lt_add_of_pos_right (by omega)⟩
    exact absurd (hw.frame _ (List.mem_of_getElem? hx) base hread) (Nat.not_lt.mpr hbase)
  subst hzero
  exact ⟨u.pc, [], ⟨fun j r h => (by cases h), hx⟩, rfl, rfl, fun j r h => (by cases h)⟩

theorem newIdx_inj (h : Found numLocals strConst s.insns s.numRegs c) {k k' : ℕ}
    (hk : k < c.first ∨ c.stop ≤ k) (hk' : k' ≤ c.first ∨ c.stop ≤ k')
    (heq : c.newIdx k = c.newIdx k') : k = k' := by
  have h2 := h.two_le
  have hstop : c.stop = c.first + c.links.length := rfl
  unfold Chain.newIdx at heq
  split_ifs at heq <;> omega

/-- An instruction outside the chain is come to in step with the old stream. -/
theorem Rel.at_outside (h : Found numLocals strConst s.insns s.numRegs c)
    {u t : State Val World} (hrel : Rel St numLocals s.insns s.numRegs c u t) {k : ℕ}
    (hk : k < c.first ∨ c.stop ≤ k) (hpc : t.pc = c.newIdx k) :
    u.pc = k ∧ Agrees s.numRegs c u.regs t.regs := by
  have h2 := h.two_le
  have hstop : c.stop = c.first + c.links.length := rfl
  have hnew : c.newIdx k < c.first ∨ c.stop + 2 ≤ c.newIdx k := by
    unfold Chain.newIdx
    split_ifs <;> omega
  cases hrel with
  | outside ho => exact ⟨(newIdx_inj h hk ho.place (hpc.symm.trans ho.pc)).symm, ho.agrees⟩
  | chain _ hc =>
    have := hc.there
    omega
  | window _ hc =>
    have := hc.there
    have := hc.bound
    omega

/-- The concatenation of a round is come to behind its window. -/
theorem Rel.at_concat {u t : State Val World} (hrel : Rel St numLocals s.insns s.numRegs c u t)
    (hpc : t.pc = c.first + (c.links.length + 1)) :
    ∃ vals, InWindow St s.insns s.numRegs c vals (c.links.length + 1) u t := by
  have hstop : c.stop = c.first + c.links.length := rfl
  cases hrel with
  | outside ho =>
    have hplace := ho.place
    have hnew := ho.pc
    unfold Chain.newIdx at hnew
    split_ifs at hnew <;> omega
  | chain _ hc =>
    have := hc.there
    omega
  | @window vals b _ hc =>
    have := hc.there
    obtain rfl : b = c.links.length + 1 := by omega
    exact ⟨vals, hc⟩

/-- A round keeps the filled windows filled, and fills its own. -/
theorem Sound.again (hw : WellFormed numLocals s)
    (h : Found numLocals strConst s.insns s.numRegs c) {bound : Reg} {u t : State Val World}
    (hrel : Rel St numLocals s.insns s.numRegs c u t) (hs : Sound St bound s.insns u) :
    Sound St bound (merged s c).insns t := by
  intro dst base count hx hbase
  rcases rebuild_cases h hx with ⟨k, x, hk, hplace, hpc, heq⟩ | ⟨b, leaf, -, -, heq⟩ | ⟨hpc, heq⟩
  · obtain rfl := relocate_plain heq.symm rfl
    obtain ⟨rfl, hagrees⟩ := Rel.at_outside h hrel hplace hpc
    obtain ⟨pos, leaves, hwin, hpos, rfl, hfilled⟩ := hs dst base count hk hbase
    obtain ⟨hwin', hend⟩ := hwin.again h
    have hkept : ∀ r x, (∃ j : ℕ, s.insns[j]? = some x) → isAdd x = false → r ∈ x.collectReads →
        u.regs r = t.regs r := by
      rintro r x ⟨j, hj⟩ hadd hread
      exact hagrees r (hw.frame x (List.mem_of_getElem? hj) r hread) fun hrem =>
        removed_unread h hrem hj (outside_of_plain h hj hadd) hread
    refine ⟨c.newIdx pos, leaves, hwin', by rw [hpc, hpos, hend], rfl, fun j r hr => ?_⟩
    obtain ⟨v, hv, hvr, hstr⟩ := hfilled j r hr
    have hj := (List.getElem?_eq_some_iff.mp hr).1
    refine ⟨v, ?_, ?_, hstr⟩
    · rw [← hkept _ _ ⟨u.pc, hk⟩ rfl, hv]
      exact List.mem_range'_1.mpr ⟨Nat.le_add_right _ _, Nat.add_lt_add_left hj _⟩
    · rw [← hkept _ _ ⟨_, hwin.copies j r hr⟩ rfl, hvr]
      simp [Insn.collectReads.eq_def]
  · cases heq
  · obtain ⟨vals, hc⟩ := Rel.at_concat hrel hpc
    cases heq
    refine ⟨c.first, c.leaves, window_built h, by rw [hpc, c.leaves_length], c.leaves_length.symm,
      fun j r hr => ?_⟩
    have hj := (List.getElem?_eq_some_iff.mp hr).1
    rw [c.leaves_length] at hj
    obtain ⟨v, hv, hreg, hstr⟩ := hc.operands.get hr
    exact ⟨v, by rw [hc.copied j hj, hv], hreg, hstr⟩

theorem surviving_hides (hc : nextChain numLocals strConst s = some c) {bound : Reg}
    (hbound : bound ≤ s.numRegs) (k : ℕ) :
    Hides s.insns s.numRegs c (surviving numLocals strConst bound (k+1) s)
      (surviving numLocals strConst bound k (merged s c)) := by
  have h := firstChain_found hc
  have hfate : ∀ pc, fate numLocals strConst (k+1) s pc =
      if c.first ≤ pc ∧ pc < c.stop then none
      else fate numLocals strConst k (merged s c) (c.newIdx pc) := by
    intro pc
    rw [fate, hc]
  refine ⟨?_, ?_, ?_⟩
  · intro pc x hx hplace
    have hwin : windowInsn bound (relocate s.insns c (x, pc)) = windowInsn bound x := by
      cases x <;> rfl
    rw [surviving, surviving, hwin, hfate, if_neg (by omega : ¬(c.first ≤ pc ∧ pc < c.stop))]
  · intro pc x hle hlt
    have hnone : fate numLocals strConst (k+1) s pc = none := by
      rw [hfate, if_pos ⟨hle, hlt⟩]
    rw [surviving, hnone, ite_self]
  · intro pc x hle hlt hx
    have hwin : windowInsn bound x := by
      have hstop : c.stop = c.first + c.links.length := rfl
      rcases rebuild_cases h hx with ⟨q, y, hy, hplace, rfl, rfl⟩ | ⟨b, leaf, -, -, rfl⟩ | ⟨-, rfl⟩
      · exfalso
        unfold Chain.newIdx at hle hlt
        split_ifs at hle hlt <;> omega
      · exact decide_eq_true (Nat.le_trans hbound (Nat.le_add_right _ _))
      · exact decide_eq_true hbound
    rw [surviving, if_pos hwin]

theorem Unbroken.again (hc : nextChain numLocals strConst s = some c)
    (h : Unbroken St numLocals s regs world) : Unbroken St numLocals (merged s c) regs world := by
  intro k d hd
  have := h (k+1) d
  rw [rounds_next hc] at this
  exact this hd

/-- Any number of rounds. -/
theorem rounds_preserve {bound : Reg} (k : ℕ) (hw : WellFormed numLocals s)
    (hbound : bound ≤ s.numRegs) (hu : Unbroken St numLocals s regs world)
    (hs : (frame sem numLocals ⟨s.insns, []⟩ fun _ _ => none).Along
      (fun u => ∀ v ∈ u, Sound St bound s.insns v) (State.enter regs world)) :
    (frame sem numLocals ⟨s.insns, []⟩ (surviving numLocals strConst bound k s)).behaviours
        (State.enter regs world) =
      (frame sem numLocals ⟨(rounds numLocals strConst s k).insns, []⟩
        (surviving numLocals strConst bound 0 (rounds numLocals strConst s k))).behaviours
        (State.enter regs world) ∧
    (frame sem numLocals ⟨(rounds numLocals strConst s k).insns, []⟩ fun _ _ => none).Along
      (fun u => ∀ v ∈ u, Sound St bound (rounds numLocals strConst s k).insns v)
      (State.enter regs world) := by
  induction k generalizing s with
  | zero => exact ⟨rfl, hs⟩
  | succ k ih =>
    cases hc : nextChain numLocals strConst s with
    | none =>
      have hobs : surviving numLocals strConst bound (k+1) s =
          surviving numLocals strConst bound 0 s := by
        funext pc x
        simp only [surviving, fate, hc]
      rw [rounds_none hc, hobs]
      exact ⟨rfl, hs⟩
    | some c =>
      have h := firstChain_found hc
      have htracks := merge_tracks hw h (surviving_hides hc hbound k) regs world
        (along_obs _ (hu 0 c hc))
      have hs' : (frame sem numLocals ⟨(merged s c).insns, []⟩ fun _ _ => none).Along
          (fun u => ∀ v ∈ u, Sound St bound (merged s c).insns v) (State.enter regs world) := by
        refine @along_obs _ _ _ _ _ (surviving numLocals strConst bound k (merged s c)) _ _ _ ?_
        intro n t ht v hv
        obtain ⟨m, u, hu, -, hrel⟩ := htracks.back n t ht
        cases hv
        cases hrel with
        | @some u _ hrel => exact Sound.again hw h hrel (along_obs _ hs m _ hu u rfl)
      rw [rounds_next hc]
      obtain ⟨hbeh, hsound⟩ := ih (merged_wellFormed hw h)
        (Nat.le_trans hbound (Nat.le_add_right _ _)) (hu.again hc) hs'
      exact ⟨htracks.behaviours_eq.trans hbeh, hsound⟩

/-- The pass ends: another round changes nothing. Each round copies the operands of a chain of
additions, in their order, in front of a concatenation, and what it removes is read nowhere in
the result. In every run that overlooks nothing a chain depends on, the result shows the same
visits, merged additions and windows apart, and the same end, and every concatenation put in
finds in its window the strings that its operands hold. -/
theorem concat_merge_preserves {s : Stream} (St : Strings sem strConst)
    (hw : WellFormed numLocals s) :
    mergeOnce numLocals strConst (passConcatMerge numLocals strConst s) = none ∧
    (∀ k c, nextChain numLocals strConst (rounds numLocals strConst s k) = some c →
      (∀ (a : ℕ) (p d r : Reg), (c.lhs :: c.dsts)[a]? = some p → c.links[a]? = some (d, r) →
        (rounds numLocals strConst s k).insns[c.first + a]? = some (.binOp d p .add r)) ∧
      Window (rounds numLocals strConst s (k+1)).insns c.first c.leaves c.finalDst
        (rounds numLocals strConst s k).numRegs ∧
      ∀ r ∈ c.removed, ∀ y ∈ (passConcatMerge numLocals strConst s).insns, r ∉ y.collectReads) ∧
    ∀ (regs : Regs Val) (world : World), Unbroken St numLocals s regs world →
      (frame sem numLocals ⟨s.insns, []⟩
          (surviving numLocals strConst s.numRegs (s.insns.countP isAdd) s)).behaviours
          (State.enter regs world) =
        (frame sem numLocals ⟨(passConcatMerge numLocals strConst s).insns, []⟩
          (surviving numLocals strConst s.numRegs 0
            (passConcatMerge numLocals strConst s))).behaviours (State.enter regs world) ∧
      (frame sem numLocals ⟨(passConcatMerge numLocals strConst s).insns, []⟩
          fun _ _ => none).Along
        (fun u => ∀ v ∈ u, Sound St s.numRegs (passConcatMerge numLocals strConst s).insns v)
        (State.enter regs world) := by
  refine ⟨passConcatMerge_fixpoint s, ?_, ?_⟩
  · intro k c hc
    have h := firstChain_found hc
    refine ⟨h.link, ?_, ?_⟩
    · rw [rounds_add, rounds_one hc]
      exact window_built h
    · intro r hr y hy
      obtain ⟨j, hj⟩ := round_before_end hc
      rw [hj, rounds_add] at hy
      exact removed_gone (rounds_wellFormed hw k) hc j hr hy
  · intro regs world hu
    exact rounds_preserve _ hw (Nat.le_refl _) hu fun _ _ _ v _ => sound_start hw v

end runs

/-! ## Strings and other values -/

/-- Texts are lists of characters; any other value is `none`. -/
abbrev Text := Option (List ℕ)

def Text.append (a b : Text) : Text := some (a.getD [] ++ b.getD [])

/-- The pool entries below `10` are texts. -/
def textConst (k : ℕ) : Bool := k < 10

/-- The string opcodes on texts; everything else takes its way out from a script and makes a value
that is no text. -/
def textual : Sem Text (List Flow) where
  const k := if textConst k then some [k] else none
  none := none
  exec
    | .binOp _ _ .add _, [.value (some a), .value (some b)], locals, world =>
      ⟨world, locals, .next, fun _ => some (Text.append (some a) (some b)), fun _ => false⟩
    | .binOpConst _ _ .add k _, [.value (some a)], locals, world =>
      ⟨world, locals, .next,
        fun _ => some (if textConst k then Text.append (some a) (some [k]) else none),
        fun _ => false⟩
    | .buildString .., _, locals, world =>
      ⟨world, locals, .next, fun _ => some (some []), fun _ => false⟩
    | .concat .., .value v :: ops, locals, world =>
      ⟨world, locals, .next, fun _ => some (ops.foldl (fun
        | t, .value w => Text.append t w
        | t, _ => t) v), fun _ => false⟩
    | _, _, locals, world =>
      ⟨world.tail, locals, world.headD .next, fun _ => some none, fun _ => false⟩
  unbound _ world := world
  caught := some

def texts : Strings textual textConst where
  isStr v := v.isSome
  append := Text.append
  const k hk := by simp [textual, hk]
  append_str _ _ _ _ := rfl
  add := by
    rintro (_ | a) (_ | b) locals world ha hb
    · cases ha
    · cases ha
    · cases hb
    · rfl
  addConst := by
    rintro (_ | a) k aug locals world ha hk
    · cases ha
    · exact ⟨_, rfl, by rw [if_pos hk]; rfl⟩
  buildString n ops locals world _ := ⟨some [], rfl, rfl⟩
  concat v vs locals world _ := by
    have hfold : ∀ (ws : List Text) (t : Text), (ws.map Operand.value).foldl (fun
        | t, .value w => Text.append t w
        | t, _ => t) t = ws.foldl Text.append t := by
      intro ws
      induction ws with
      | nil => exact fun _ => rfl
      | cons w ws ih => exact fun t => ih _
    show (⟨_, _, _, fun _ => some ((vs.map Operand.value).foldl _ v), _⟩ : Outcome _ _) = _
    rw [hfold]

/-- An unpacked value lands beside the temporaries of a chain of two additions. -/
def unpackBeside : Stream :=
  ⟨[.loadConst 1 1, .unpack 6 0 1, .loadConst 2 2, .loadConst 3 3, .binOp 4 1 .add 2,
    .binOp 5 4 .add 3, .ret 5], 7⟩

theorem unpackBeside_wellFormed : WellFormed 1 unpackBeside :=
  ⟨by decide, by decide, by decide, by
    intro r n b h
    simp [unpackBeside] at h, by decide⟩

theorem unpackBeside_rounds : nextChain 1 textConst unpackBeside = some ⟨4, 1, [(4, 2), (5, 3)]⟩ ∧
    nextChain 1 textConst (merged unpackBeside ⟨4, 1, [(4, 2), (5, 3)]⟩) = none := by
  decide

theorem unpackBeside_unbroken (regs : Regs Text) (world : List Flow) :
    Unbroken texts 1 unpackBeside regs world := by
  obtain ⟨hfirst, hsecond⟩ := unpackBeside_rounds
  intro k c hc n u hu v hv hover
  cases k with
  | zero =>
    obtain ⟨x, r, hx, -, hstr, hbad, -⟩ := hover
    have hx : unpackBeside.insns[v.pc]? = some x := hx
    have hstr : strRegsBefore 1 textConst unpackBeside.insns (v.pc+1) r := hstr
    generalize v.pc = pc at hx hstr
    match pc, hx, hstr with
    | 1, hx, hstr =>
      obtain rfl := Option.some.inj hx
      have hr : r = 6 := by simpa [unseenWrites, takenForStr] using hbad
      subst hr
      exact absurd hstr (by decide)
    | 0, hx, _ | 2, hx, _ | 3, hx, _ | 4, hx, _ | 5, hx, _ | 6, hx, _ =>
      obtain rfl := Option.some.inj hx
      simp [unseenWrites, takenForStr] at hbad
  | succ k =>
    rw [rounds_next hfirst, rounds_none hsecond, hsecond] at hc
    cases hc

theorem concat_merge_preserves_unpack_beside :
    mergeOnce 1 textConst (passConcatMerge 1 textConst unpackBeside) = none ∧
    Window (rounds 1 textConst unpackBeside 1).insns 4 [1, 2, 3] 5 7 ∧
    (frame textual 1 ⟨unpackBeside.insns, []⟩ (surviving 1 textConst 7 2 unpackBeside)).behaviours
        (State.enter (fun _ => some none) []) =
      (frame textual 1 ⟨(passConcatMerge 1 textConst unpackBeside).insns, []⟩
        (surviving 1 textConst 7 0 (passConcatMerge 1 textConst unpackBeside))).behaviours
        (State.enter (fun _ => some none) []) ∧
    (frame textual 1 ⟨(passConcatMerge 1 textConst unpackBeside).insns, []⟩
        fun _ _ => none).Along
      (fun u => ∀ v ∈ u, Sound texts 7 (passConcatMerge 1 textConst unpackBeside).insns v)
      (State.enter (fun _ => some none) []) := by
  obtain ⟨hfix, hrounds, hruns⟩ := concat_merge_preserves texts unpackBeside_wellFormed
  obtain ⟨hbeh, hsound⟩ := hruns (fun _ => some none) [] (unpackBeside_unbroken _ _)
  exact ⟨hfix, (hrounds 0 _ unpackBeside_rounds.1).2.1, hbeh, hsound⟩

/-- An unpacked value lands on a temporary that was a string before, and begins a chain. -/
def unpackOver : Stream :=
  ⟨[.loadConst 1 1, .unpack 1 0 1, .loadConst 2 2, .loadConst 3 3, .binOp 4 1 .add 2,
    .binOp 5 4 .add 3, .ret 5], 6⟩

/-- The chain is merged, and its concatenation is come to with a value that is no string. -/
theorem concat_merge_takes_unpacked :
    ∃ u, (frame textual 1 ⟨(passConcatMerge 1 textConst unpackOver).insns, []⟩
        fun _ _ => none).after 7 (State.enter (fun _ => some none) []) = some (some u) ∧
      (passConcatMerge 1 textConst unpackOver).insns[u.pc]? = some (.concat 5 6 3) ∧
      u.regs 6 = some none ∧ ¬texts.isStr none :=
  ⟨_, rfl, rfl, rfl, fun h => by cases h⟩

end Pyrust.ConcatRounds
