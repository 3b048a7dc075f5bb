import Pyrust.CrossJumping
import Pyrust.PointerChain

/-!
# Threading chains of jumps

A jump onto an unconditional forward jump is redirected to where the chain of
such jumps ends. Backward jumps end a chain, so that loops keep their edges.
Every place still leads to the same next instruction, a run that only jumps
still only jumps, and frames behave as before.
-/

set_option autoImplicit false

namespace Pyrust.JumpThreading

open Bytecode Machine Compaction Simulation
open CrossJumping (watch watch_fixOff)

/-- `follow`: the first place of the chain from `pc` that holds no forward jump. The places seen
so far guard against jumps that come back. -/
def follow (insns : List Insn) (seen : List ℕ) (pc : ℕ) : ℕ :=
  if pc < insns.length ∧ pc ∉ seen then
    match insns[pc]? with
    | some (.jump k) => if 0 ≤ k then follow insns (pc::seen) (jumpTarget pc k) else pc
    | _ => pc
  else pc
termination_by ((List.range insns.length).filter (· ∉ seen)).length
decreasing_by
  have h : pc < insns.length ∧ pc ∉ seen := ‹_›
  have hmem : pc ∈ (List.range insns.length).filter (· ∉ seen) := by simp [h.1, h.2]
  have hsplit : (List.range insns.length).filter (· ∉ pc::seen) =
      ((List.range insns.length).filter (· ∉ seen)).filter (· ≠ pc) := by
    rw [List.filter_filter]
    apply List.filter_congr
    intro x _
    simp
  rw [hsplit]
  exact List.length_filter_lt_length_iff_exists.mpr ⟨pc, hmem, by simp⟩

def thread (insns : List Insn) (i : ℕ) (k : ℤ) : ℤ :=
  (follow insns [] (jumpTarget i k) : ℤ)-i-1

def threadInsn (insns : List Insn) (i : ℕ) : Insn → Insn
  | .jump k => .jump (thread insns i k)
  | .jumpIfFalse r k => .jumpIfFalse r (thread insns i k)
  | .jumpIfTrue r k => .jumpIfTrue r (thread insns i k)
  | .cmpJumpIfFalse a op b k => .cmpJumpIfFalse a op b (thread insns i k)
  | .cmpJumpIfTrue a op b k => .cmpJumpIfTrue a op b (thread insns i k)
  | .cmpJumpIfFalseConst r op c k => .cmpJumpIfFalseConst r op c (thread insns i k)
  | .cmpJumpIfTrueConst r op c k => .cmpJumpIfTrueConst r op c (thread insns i k)
  | .forIter dst slot k => .forIter dst slot (thread insns i k)
  | .setupExcept k => .setupExcept (thread insns i k)
  | .matchExcept r k => .matchExcept r (thread insns i k)
  | .matchExceptStar r src dst k => .matchExceptStar r src dst (thread insns i k)
  | other => other

def passThreadJumps (insns : List Insn) : List Insn :=
  insns.zipIdx.map fun x => threadInsn insns x.2 x.1

/-- Where an unconditional jump leads. -/
def hop (insns : List Insn) (pc : ℕ) : Option ℕ :=
  match insns[pc]? with
  | some (.jump k) => target insns.length pc k
  | _ => none

/-- The place that the jumps from `pc` lead to, if they do not go on forever. -/
def NextInsn (insns : List Insn) (pc q : ℕ) : Prop :=
  ∃ n, PointerChain.follow (hop insns) n pc = some q ∧ hop insns q = none

/-- `b` is behind forward jumps from `a`. -/
inductive Threaded (insns : List Insn) : ℕ → ℕ → Prop
  | here (a : ℕ) : Threaded insns a a
  | step {a t b : ℕ} {k : ℤ} : insns[a]? = some (.jump k) → target insns.length a k = some t →
      a < t → Threaded insns t b → Threaded insns a b

section chains
variable {insns : List Insn}

theorem hop_jump {pc : ℕ} {k : ℤ} (h : insns[pc]? = some (.jump k)) :
    hop insns pc = target insns.length pc k := by
  rw [hop, h]

theorem hop_other {pc : ℕ} (h : ∀ k, insns[pc]? ≠ some (.jump k)) : hop insns pc = none := by
  rw [hop]
  split
  · rename_i k hk
    exact absurd hk (h k)
  · rfl

theorem hop_some {pc t : ℕ} (h : hop insns pc = some t) :
    ∃ k, insns[pc]? = some (.jump k) ∧ target insns.length pc k = some t := by
  rw [hop] at h
  split at h
  · rename_i k hk
    exact ⟨k, hk, h⟩
  · cases h

theorem jumpTarget_forward {pc : ℕ} {k : ℤ} (hk : 0 ≤ k) : pc < jumpTarget pc k := by
  have h0 : 0 ≤ (pc : ℤ)+1+k := by omega
  simp only [jumpTarget, h0, if_true]
  omega

theorem follow_threaded (hr : InRange insns) (seen : List ℕ) (pc : ℕ) (hle : pc ≤ insns.length) :
    Threaded insns pc (follow insns seen pc) ∧ follow insns seen pc ≤ insns.length := by
  induction seen, pc using follow.induct insns with
  | case1 seen pc h k hk hpos ih =>
    obtain ⟨ht, hbound⟩ := target_eq hr hk rfl
    obtain ⟨hchain, hend⟩ := ih hbound
    rw [follow, if_pos h, hk]
    simp only [hpos, if_true]
    exact ⟨.step hk ht (jumpTarget_forward hpos) hchain, hend⟩
  | case2 seen pc h k hk hneg =>
    rw [follow, if_pos h, hk]
    simp only [hneg, if_false]
    exact ⟨.here pc, hle⟩
  | case3 seen pc h hother =>
    rw [follow, if_pos h]
    split
    · rename_i k hk
      exact absurd hk (hother k)
    · exact ⟨.here pc, hle⟩
  | case4 seen pc h =>
    rw [follow, if_neg h]
    exact ⟨.here pc, hle⟩

theorem Threaded.le {a b : ℕ} (h : Threaded insns a b) : a ≤ b := by
  induction h with
  | here a => exact le_rfl
  | step _ _ hlt _ ih => exact hlt.le.trans ih

theorem Threaded.hops {a b : ℕ} (h : Threaded insns a b) :
    ∃ n, PointerChain.follow (hop insns) n a = some b := by
  induction h with
  | here a => exact ⟨0, rfl⟩
  | step hk ht _ _ ih =>
    obtain ⟨n, hn⟩ := ih
    refine ⟨n+1, ?_⟩
    rw [PointerChain.follow, hop_jump hk, ht]
    exact hn

/-- A chain of jumps runs through the places between it and the next instruction. -/
theorem hops_split {next : ℕ → Option ℕ} {m n a b q : ℕ}
    (hm : PointerChain.follow next m a = some b) (hn : PointerChain.follow next n a = some q)
    (hq : next q = none) : ∃ j, j+m = n ∧ PointerChain.follow next j b = some q := by
  rcases Nat.lt_or_ge n m with hlt | hge
  · obtain ⟨d, rfl⟩ := Nat.exists_eq_add_of_lt hlt
    rw [Nat.add_assoc, PointerChain.follow_add, hn, Option.bind_some, Nat.add_comm d 1,
      PointerChain.follow_add] at hm
    simp [PointerChain.follow, hq] at hm
  · obtain ⟨d, rfl⟩ := Nat.exists_eq_add_of_le hge
    rw [PointerChain.follow_add, hm, Option.bind_some] at hn
    exact ⟨d, Nat.add_comm d m, hn⟩

variable (insns) in
theorem passThreadJumps_length : (passThreadJumps insns).length = insns.length := by
  simp [passThreadJumps]

variable (insns) in
theorem passThreadJumps_getElem? (pc : ℕ) :
    (passThreadJumps insns)[pc]? = insns[pc]?.map (threadInsn insns pc) := by
  simp [passThreadJumps, List.getElem?_zipIdx, Option.map_map, Function.comp_def]

variable (insns) in
/-- Only the offset changes. -/
theorem threadInsn_eq (pc : ℕ) (x : Insn) :
    threadInsn insns pc x = x ∨ threadInsn insns pc x = x.fixOff (thread insns pc) := by
  cases x <;> first
    | exact Or.inr rfl
    | exact Or.inl rfl

theorem fixOff_id (x : Insn) : x.fixOff id = x := by
  cases x <;> rfl

theorem threadInsn_jump (pc : ℕ) (x : Insn) (k' : ℤ) :
    threadInsn insns pc x = .jump k' ↔ ∃ k, x = .jump k ∧ k' = thread insns pc k := by
  cases x <;> simp [threadInsn.eq_def, eq_comm]

theorem target_thread (hr : InRange insns) {pc t : ℕ} {x : Insn} {k : ℤ}
    (hx : insns[pc]? = some x) (hk : x.jumpOff = some k)
    (ht : target insns.length pc k = some t) :
    ∃ t', target insns.length pc (thread insns pc k) = some t' ∧ Threaded insns t t' := by
  obtain ⟨heq, hle⟩ := target_eq hr hx hk
  obtain rfl := Option.some.inj (heq.symm.trans ht)
  obtain ⟨hchain, hend⟩ := follow_threaded hr [] _ hle
  exact ⟨_, target_fix hend, hchain⟩

/-- Every way out of a threaded instruction leads further along the chain. -/
theorem threadInsn_target (hr : InRange insns) {pc t : ℕ} {x : Insn} {k : ℤ}
    (hx : insns[pc]? = some x) (hk : x.jumpOff = some k)
    (ht : target insns.length pc k = some t) :
    ∃ k' t', (threadInsn insns pc x).jumpOff = some k' ∧
      target insns.length pc k' = some t' ∧ Threaded insns t t' := by
  rcases threadInsn_eq insns pc x with heq | heq
  · exact ⟨k, t, by rw [heq, hk], ht, .here t⟩
  · obtain ⟨t', ht', hchain⟩ := target_thread hr hx hk ht
    refine ⟨thread insns pc k, t', ?_, ht', hchain⟩
    rw [heq, Insn.fixOff_jumpOff, hk]
    rfl

theorem hop_threaded (hr : InRange insns) {pc t : ℕ} (h : hop insns pc = some t) :
    ∃ t', hop (passThreadJumps insns) pc = some t' ∧ Threaded insns t t' := by
  obtain ⟨k, hk, ht⟩ := hop_some h
  obtain ⟨t', ht', hchain⟩ := target_thread hr hk rfl ht
  refine ⟨t', ?_, hchain⟩
  have hx : (passThreadJumps insns)[pc]? = some (.jump (thread insns pc k)) := by
    rw [passThreadJumps_getElem?, hk]
    rfl
  rw [hop_jump hx, passThreadJumps_length]
  exact ht'

theorem hop_none (hr : InRange insns) {pc : ℕ} :
    hop (passThreadJumps insns) pc = none ↔ hop insns pc = none := by
  constructor
  · intro h
    by_contra hne
    obtain ⟨t, ht⟩ := Option.ne_none_iff_exists'.mp hne
    obtain ⟨t', ht', -⟩ := hop_threaded hr ht
    rw [h] at ht'
    cases ht'
  · intro h
    apply hop_other
    intro k' hk'
    rw [passThreadJumps_getElem?, Option.map_eq_some_iff] at hk'
    obtain ⟨x, hx, hthread⟩ := hk'
    obtain ⟨k, rfl, -⟩ := (threadInsn_jump pc x k').mp hthread
    rw [hop_jump hx, (target_eq hr hx rfl).1] at h
    cases h

theorem nextInsn_step {pc t q : ℕ} (h : hop insns pc = some t) (hq : NextInsn insns t q) :
    NextInsn insns pc q := by
  obtain ⟨n, hn, hend⟩ := hq
  refine ⟨n+1, ?_, hend⟩
  rw [PointerChain.follow, h]
  exact hn

theorem nextInsn_threaded {a b q : ℕ} (h : Threaded insns a b) (hq : NextInsn insns b q) :
    NextInsn insns a q := by
  obtain ⟨m, hm⟩ := h.hops
  obtain ⟨n, hn, hend⟩ := hq
  refine ⟨m+n, ?_, hend⟩
  rw [PointerChain.follow_add, hm]
  exact hn

theorem nextInsn_chain {a b : ℕ} (h : Threaded insns a b) (q : ℕ) :
    NextInsn insns b q ↔ NextInsn insns a q := by
  constructor
  · exact nextInsn_threaded h
  · rintro ⟨n, hn, hq⟩
    obtain ⟨m, hm⟩ := h.hops
    obtain ⟨j, -, hj⟩ := hops_split hm hn hq
    exact ⟨j, hj, hq⟩

theorem nextInsn_of_threaded (hr : InRange insns) {n pc q : ℕ}
    (h : PointerChain.follow (hop (passThreadJumps insns)) n pc = some q)
    (hq : hop (passThreadJumps insns) q = none) : NextInsn insns pc q := by
  induction n generalizing pc with
  | zero =>
    cases h
    exact ⟨0, rfl, (hop_none hr).mp hq⟩
  | succ n ih =>
    rw [PointerChain.follow] at h
    cases ht : hop insns pc with
    | none =>
      rw [(hop_none hr).mpr ht] at h
      cases h
    | some t =>
      obtain ⟨t', ht', hchain⟩ := hop_threaded hr ht
      rw [ht', Option.bind_some] at h
      exact nextInsn_step ht (nextInsn_threaded hchain (ih h))

theorem nextInsn_to_threaded (hr : InRange insns) {n pc q : ℕ}
    (h : PointerChain.follow (hop insns) n pc = some q) (hq : hop insns q = none) :
    NextInsn (passThreadJumps insns) pc q := by
  -- the threaded jump skips part of the chain, so fewer hops are left than for the first jump
  induction n using Nat.strong_induction_on generalizing pc with
  | _ n ih =>
    cases n with
    | zero =>
      cases h
      exact ⟨0, rfl, (hop_none hr).mpr hq⟩
    | succ n =>
      rw [PointerChain.follow] at h
      cases ht : hop insns pc with
      | none =>
        rw [ht] at h
        cases h
      | some t =>
        rw [ht, Option.bind_some] at h
        obtain ⟨t', ht', hchain⟩ := hop_threaded hr ht
        obtain ⟨m, hm⟩ := hchain.hops
        obtain ⟨j, hj, hrest⟩ := hops_split hm h hq
        exact nextInsn_step ht' (ih j (by omega) hrest)

theorem nextInsn_iff (hr : InRange insns) (pc q : ℕ) :
    NextInsn (passThreadJumps insns) pc q ↔ NextInsn insns pc q := by
  constructor
  · rintro ⟨n, hn, hq⟩
    exact nextInsn_of_threaded hr hn hq
  · rintro ⟨n, hn, hq⟩
    exact nextInsn_to_threaded hr hn hq

/-- Jumps that end do so at a next instruction. -/
theorem ends_iff (pc : ℕ) : PointerChain.Ends (hop insns) pc ↔ ∃ q, NextInsn insns pc q := by
  constructor
  · rintro ⟨n, hn⟩
    induction n generalizing pc with
    | zero => cases hn
    | succ n ih =>
      rw [PointerChain.follow] at hn
      cases ht : hop insns pc with
      | none => exact ⟨pc, 0, rfl, ht⟩
      | some t =>
        rw [ht, Option.bind_some] at hn
        obtain ⟨q, hq⟩ := ih t hn
        exact ⟨q, nextInsn_step ht hq⟩
  · rintro ⟨q, n, hn, hq⟩
    refine ⟨n+1, ?_⟩
    rw [PointerChain.follow_add, hn, Option.bind_some, PointerChain.follow, hq]
    rfl

end chains

section runs
variable {Val World : Type*} {sem : Sem Val World} {numLocals : ℕ} {insns : List Insn}

/-- The threaded frame may be ahead in a chain of jumps, and so may its handlers. -/
structure Rel (insns : List Insn) (s t : State Val World) : Prop where
  ahead : Threaded insns s.pc t.pc
  regs : t.regs = s.regs
  world : t.world = s.world
  handlers : List.Forall₂ (Threaded insns) s.handlers t.handlers

def lag (s t : Option (State Val World)) : ℕ :=
  match s, t with
  | some s, some t => t.pc-s.pc
  | _, _ => 0

theorem transfer_threaded (hr : InRange insns) {pc : ℕ} {x : Insn} (hx : insns[pc]? = some x)
    {hs hs' : List ℕ} (hh : List.Forall₂ (Threaded insns) hs hs') (regs : Regs Val) (f : Flow) :
    Goto.Rel (fun pc hs pc' hs' => ∀ w : World, Rel insns ⟨pc, regs, w, hs⟩ ⟨pc', regs, w, hs'⟩)
      (transfer ⟨insns, []⟩ pc hs x f)
      (transfer ⟨passThreadJumps insns, []⟩ pc hs' (threadInsn insns pc x) f) := by
  have hlen := passThreadJumps_length insns
  cases f with
  | next =>
    by_cases hmark : x.isHandlerMark
    · rcases handlerMark_cases hmark with ⟨k, rfl⟩ | rfl
      · have ht := (target_eq hr hx rfl).1
        obtain ⟨t', ht', hchain⟩ := target_thread hr hx rfl ht
        simp only [transfer, threadInsn.eq_def, hlen, ht, ht']
        exact .goto fun w => ⟨.here _, rfl, rfl, .cons hchain hh⟩
      · refine .goto fun w => ⟨.here _, rfl, rfl, ?_⟩
        cases hh with
        | nil => exact .nil
        | cons _ hh => exact hh
    · have hmark' : (threadInsn insns pc x).isHandlerMark = false := by
        rcases threadInsn_eq insns pc x with heq | heq <;> rw [heq] <;> simpa using hmark
      rw [transfer_next (by simpa using hmark), transfer_next hmark']
      exact .goto fun w => ⟨.here _, rfl, rfl, hh⟩
  | jump =>
    cases hk : x.jumpOff with
    | none =>
      have hk' : (threadInsn insns pc x).jumpOff = none := by
        rcases threadInsn_eq insns pc x with heq | heq <;> rw [heq] <;> simp [hk]
      simp only [transfer, hk, hk']
      exact .finish .fault
    | some k =>
      have ht := (target_eq hr hx hk).1
      obtain ⟨k', t', hk', ht', hchain⟩ := threadInsn_target hr hx hk ht
      simp only [transfer, hk, hk', Option.bind_some, hlen, ht, ht']
      exact .goto fun w => ⟨hchain, rfl, rfl, hh⟩
  | again => exact .goto fun w => ⟨.here _, rfl, rfl, hh⟩
  | raise =>
    simp only [transfer, raiseTo, if_true]
    cases hh with
    | nil => exact .finish .escaped
    | cons h hh => exact .goto fun w => ⟨h, rfl, rfl, hh⟩
  | halt => exact .finish .returned

theorem rel_matched (hr : InRange insns) {s t : State Val World} (h : Rel insns s t) :
    Machine.Matched (frame sem numLocals ⟨insns, []⟩ (watch id))
      (frame sem numLocals ⟨passThreadJumps insns, []⟩ (watch id)) (Option.Rel (Rel insns)) lag
      (some s) (some t) := by
  obtain ⟨pc, regs, w, hs⟩ := s
  obtain ⟨pc', regs', w', hs'⟩ := t
  obtain ⟨hahead, hregs, hworld, hh⟩ := h
  obtain rfl : regs = regs' := hregs.symm
  obtain rfl : w = w' := hworld.symm
  simp only at hahead hh ⊢
  cases hahead with
  | @step _ t _ k hk ht hlt hchain =>
    -- the frame behind takes a jump that the threaded frame has skipped
    refine .left _ (frame_jump hk rfl ht) (.some ⟨hchain, rfl, rfl, hh⟩) ?_
    have hle := hchain.le
    simp only [lag]
    omega
  | here =>
    have hx' := passThreadJumps_getElem? insns pc
    cases hx : insns[pc]? with
    | none =>
      rw [hx] at hx'
      refine .both _ _ _ (frame_none hx) ?_ .none
      rw [frame_none (by exact hx'), passThreadJumps_length]
    | some x =>
      rw [hx] at hx'
      have hsame : ∀ o : Outcome Val World,
          finishRegs numLocals (threadInsn insns pc x) o regs = finishRegs numLocals x o regs := by
        intro o
        rcases threadInsn_eq insns pc x with heq | heq <;> rw [heq]
        exact finishRegs_fixOff ..
      refine frame_both hx hx' ?_ ?_ ?_ ?_
      · rcases threadInsn_eq insns pc x with heq | heq <;> simp [visitEvents, heq]
      · rcases threadInsn_eq insns pc x with heq | heq <;> simp [heq]
      · rw [hsame]
      · rw [hsame]
        exact transfer_threaded hr hx hh _ _

end runs

/-- Threading follows every chain to its end, and changes nothing but offsets. From every place
the same next instruction is reached as before, jumps that go on forever still do, every way out
of an instruction leads to the same next instruction, handlers included, and every run of the
threaded stream visits and does what the run of the stream does. -/
theorem thread_jumps_preserve {Val World : Type*} (insns : List Insn) (hr : InRange insns) :
    (∀ pc q, NextInsn (passThreadJumps insns) pc q ↔ NextInsn insns pc q) ∧
    (∀ pc, PointerChain.Ends (hop (passThreadJumps insns)) pc ↔
      PointerChain.Ends (hop insns) pc) ∧
    (∀ pc x, insns[pc]? = some x → ∃ fix, (passThreadJumps insns)[pc]? = some (x.fixOff fix) ∧
      ∀ k t, x.jumpOff = some k → target insns.length pc k = some t →
        ∃ t', target insns.length pc (fix k) = some t' ∧
          ∀ q, NextInsn (passThreadJumps insns) t' q ↔ NextInsn insns t q) ∧
    ∀ (sem : Sem Val World) (numLocals : ℕ) (regs : Regs Val) (world : World),
      (frame sem numLocals ⟨insns, []⟩ (watch id)).behaviours (State.enter regs world) =
        (frame sem numLocals ⟨passThreadJumps insns, []⟩ (watch id)).behaviours
          (State.enter regs world) := by
  have hnext := nextInsn_iff hr
  refine ⟨hnext, ?_, ?_, ?_⟩
  · intro pc
    rw [ends_iff, ends_iff]
    exact exists_congr (hnext pc)
  · intro pc x hx
    have hx' := passThreadJumps_getElem? insns pc
    rw [hx, Option.map_some] at hx'
    rcases threadInsn_eq insns pc x with heq | heq
    · refine ⟨id, by rw [hx', heq, fixOff_id], fun k t _ ht => ⟨t, ht, hnext t⟩⟩
    · refine ⟨thread insns pc, by rw [hx', heq], fun k t hk ht => ?_⟩
      obtain ⟨t', ht', hchain⟩ := target_thread hr hx hk ht
      exact ⟨t', ht', fun q => (hnext t' q).trans (nextInsn_chain hchain q)⟩
  · intro sem numLocals regs world
    apply frame_behaviours_eq (Rel insns) lag
    · intro s t
      exact rel_matched hr
    · exact ⟨.here 0, rfl, rfl, .nil⟩

/-- A branch onto two jumps in a row, and a loop that is nothing but a jump onto itself. -/
def twoHops : List Insn :=
  [.jumpIfTrue 0 1, .jump (-1), .jump 1, .returnNone, .jump 0, .ret 0]

theorem follow_twoHops : follow twoHops [] 2 = 5 := by
  have hfirst : follow twoHops [] 2 = follow twoHops [2] 4 := by
    rw [follow]
    rfl
  have hsecond : follow twoHops [2] 4 = follow twoHops [4, 2] 5 := by
    rw [follow]
    rfl
  rw [hfirst, hsecond, follow]
  rfl

theorem thread_jumps_preserve_twoHops :
    (passThreadJumps twoHops)[0]? = some (Insn.jumpIfTrue 0 4) ∧
      (∀ q, NextInsn (passThreadJumps twoHops) 2 q ↔ NextInsn twoHops 2 q) ∧
      (PointerChain.Ends (hop (passThreadJumps twoHops)) 1 ↔
        PointerChain.Ends (hop twoHops) 1) ∧
      (frame scripted 1 ⟨twoHops, []⟩ (watch id)).behaviours
          (State.enter (fun _ => some 9) [.jump]) =
        (frame scripted 1 ⟨passThreadJumps twoHops, []⟩ (watch id)).behaviours
          (State.enter (fun _ => some 9) [.jump]) := by
  obtain ⟨hnext, hends, -, hrun⟩ := thread_jumps_preserve twoHops (by decide)
  refine ⟨?_, hnext 2, hends 1, hrun scripted 1 _ _⟩
  show some (Insn.jumpIfTrue 0 ((follow twoHops [] 2 : ℕ)-0-1)) = _
  rw [follow_twoHops]
  rfl

end Pyrust.JumpThreading
