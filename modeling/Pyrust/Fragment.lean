import Pyrust.Compaction

/-!
# Forward code

Code that is emitted for an expression or a pattern jumps forward only, and it
leaves the handlers alone. A fragment of such code runs by one pass over its
instructions: a jump skips some of them, and may skip into the code behind.
-/

set_option autoImplicit false

namespace Pyrust.Fragment

open Bytecode Machine Simulation Compaction

variable {Val World : Type*}

/-- How control leaves a fragment: past its end and over some of the code behind, or at an
instruction that raised. A backward jump and a suspension are not followed. -/
inductive Exit (Val World : Type*) where
  | fall (skip : ℕ) (regs : Regs Val) (world : World)
  | raised (regs : Regs Val) (world : World)
  | lost

def Exit.bind (x : Exit Val World) (f : ℕ → Regs Val → World → Exit Val World) : Exit Val World :=
  match x with
  | .fall skip regs world => f skip regs world
  | .raised regs world => .raised regs world
  | .lost => .lost

/-- The effect of one instruction, and the code to skip behind it. -/
def stepExit (sem : Sem Val World) (numLocals : ℕ) (i : Insn) (regs : Regs Val) (world : World) :
    Exit Val World :=
  let o := perform sem numLocals i regs world
  let regs := finishRegs numLocals i o regs
  if i.isHandlerMark then .lost
  else match o.flow, i.jumpOff with
    | .next, _ => .fall 0 regs o.world
    | .jump, some k => if 0 ≤ k then .fall k.toNat regs o.world else .lost
    | .raise, _ => .raised regs o.world
    | _, _ => .lost

def run (sem : Sem Val World) (numLocals : ℕ) :
    List Insn → ℕ → Regs Val → World → Exit Val World
  | [], skip, regs, world => .fall skip regs world
  | _::rest, skip+1, regs, world => run sem numLocals rest skip regs world
  | i::rest, 0, regs, world =>
    (stepExit sem numLocals i regs world).bind (run sem numLocals rest)

variable {sem : Sem Val World} {numLocals : ℕ}

theorem Exit.bind_assoc (x : Exit Val World) (f g : ℕ → Regs Val → World → Exit Val World) :
    (x.bind f).bind g = x.bind fun k regs world => (f k regs world).bind g := by
  cases x <;> rfl

theorem run_append (a b : List Insn) (skip : ℕ) (regs : Regs Val) (world : World) :
    run sem numLocals (a ++ b) skip regs world =
      (run sem numLocals a skip regs world).bind (run sem numLocals b) := by
  induction a generalizing skip regs world with
  | nil => rfl
  | cons i a ih =>
    cases skip with
    | succ skip => exact ih skip regs world
    | zero =>
      simp only [List.cons_append, run]
      rw [Exit.bind_assoc]
      congr 1
      funext k regs world
      exact ih k regs world

/-- Code that is skipped as a whole. -/
theorem run_over (a : List Insn) (k : ℕ) (regs : Regs Val) (world : World) :
    run sem numLocals a (a.length+k) regs world = .fall k regs world := by
  induction a with
  | nil => rw [List.length_nil, Nat.zero_add, run]
  | cons i a ih =>
    rw [List.length_cons, Nat.add_right_comm, run]
    exact ih

section machine
variable {code : Code} {obs : Observer}

/-- A silent machine reaches one state from another. -/
def Reaches (sem : Sem Val World) (numLocals : ℕ) (code : Code) (s t : State Val World) : Prop :=
  ∃ n, (frame sem numLocals code fun _ _ => none).after n (some s) = some (some t)

theorem Reaches.refl (s : State Val World) : Reaches sem numLocals code s s := ⟨0, rfl⟩

theorem Reaches.step {s t u : State Val World} {es : List (Event Val World)}
    (h : (frame sem numLocals code fun _ _ => none).step (some s) = some (es, some t))
    (ht : Reaches sem numLocals code t u) : Reaches sem numLocals code s u := by
  obtain ⟨n, hn⟩ := ht
  exact ⟨n+1, by rwa [Machine.after_succ h]⟩

/-- The state is at an instruction that raises. -/
def Raising (sem : Sem Val World) (numLocals : ℕ) (code : Code) (s : State Val World)
    (regs : Regs Val) (world : World) : Prop :=
  ∃ i, code.insns[s.pc]? = some i ∧ (perform sem numLocals i s.regs s.world).flow = .raise ∧
    (perform sem numLocals i s.regs s.world).world = world ∧
    finishRegs numLocals i (perform sem numLocals i s.regs s.world) s.regs = regs

/-- What a step of a fragment is a step of. -/
theorem stepExit_cases {i : Insn} {pc : ℕ} (hi : code.insns[pc]? = some i) (regs : Regs Val)
    (world : World) (hs : List ℕ) :
    match stepExit sem numLocals i regs world with
    | .fall k regs' world' => pc+1+k ≤ code.insns.length →
        (frame sem numLocals code fun _ _ => none).step (some ⟨pc, regs, world, hs⟩) =
          some ([], some ⟨pc+1+k, regs', world', hs⟩)
    | .raised regs' world' => Raising sem numLocals code ⟨pc, regs, world, hs⟩ regs' world'
    | .lost => True := by
  cases hm : i.isHandlerMark with
  | true => simp [stepExit, hm]
  | false =>
    cases hf : (perform sem numLocals i regs world).flow with
    | next =>
      simp only [stepExit, hm, hf]
      intro _
      rw [frame_step hi]
      simp [hf, transfer_next hm, proceed, visitEvents]
    | jump =>
      cases hk : i.jumpOff with
      | none => simp [stepExit, hm, hf, hk]
      | some k =>
        by_cases h0 : 0 ≤ k
        · simp only [stepExit, hm, hf, hk, h0]
          intro hle
          have ht : target code.insns.length pc k = some (pc+1+k.toNat) := by
            simp only [target]
            rw [if_pos (by omega)]
            congr 1
            omega
          rw [frame_step hi]
          simp [hf, transfer, hk, ht, proceed, visitEvents]
        · simp [stepExit, hm, hf, hk, h0]
    | raise =>
      simp only [stepExit, hm, hf]
      exact ⟨i, hi, hf, rfl, rfl⟩
    | again => simp [stepExit, hm, hf]
    | halt => simp [stepExit, hm, hf]

/-- A fragment that is left past its end takes the machine to the code behind. -/
theorem run_fall {pre frag post : List Insn} {skip skip' : ℕ} {regs regs' : Regs Val}
    {world world' : World} (hcode : code.insns = pre ++ (frag ++ post))
    (h : run sem numLocals frag skip regs world = .fall skip' regs' world')
    (hpost : skip' ≤ post.length) (hs : List ℕ) :
    Reaches sem numLocals code ⟨pre.length+skip, regs, world, hs⟩
      ⟨pre.length+frag.length+skip', regs', world', hs⟩ := by
  induction frag generalizing pre skip regs world with
  | nil =>
    cases h
    exact .refl _
  | cons i frag ih =>
    have hcode' : code.insns = (pre ++ [i]) ++ (frag ++ post) := by simp [hcode]
    cases skip with
    | succ skip =>
      have hrest := ih hcode' h
      simp only [List.length_append, List.length_singleton] at hrest
      rw [List.length_cons, show pre.length+(skip+1) = pre.length+1+skip by omega,
        show pre.length+(frag.length+1)+skip' = pre.length+1+frag.length+skip' by omega]
      exact hrest
    | zero =>
      have hi : code.insns[pre.length]? = some i := by simp [hcode]
      have hstep := @stepExit_cases Val World sem numLocals code i _ hi regs world hs
      rw [run] at h
      cases hx : stepExit sem numLocals i regs world with
      | raised r w => simp [hx, Exit.bind] at h
      | lost => simp [hx, Exit.bind] at h
      | fall k r w =>
        simp only [hx, Exit.bind] at h hstep
        have hk : k ≤ frag.length+post.length := by
          by_contra hcon
          rw [show k = frag.length+(k-frag.length) by omega, run_over] at h
          cases h
          omega
        have hrest := ih hcode' h
        simp only [List.length_append, List.length_singleton] at hrest
        rw [List.length_cons,
          show pre.length+(frag.length+1)+skip' = pre.length+1+frag.length+skip' by omega]
        refine .step (hstep ?_) hrest
        simp only [hcode, List.length_append, List.length_cons]
        omega

/-- A fragment that raises takes the machine to the instruction that does. -/
theorem run_raised {pre frag post : List Insn} {skip : ℕ} {regs regs' : Regs Val}
    {world world' : World} (hcode : code.insns = pre ++ (frag ++ post))
    (h : run sem numLocals frag skip regs world = .raised regs' world') (hs : List ℕ) :
    ∃ t, Reaches sem numLocals code ⟨pre.length+skip, regs, world, hs⟩ t ∧ t.handlers = hs ∧
      pre.length ≤ t.pc ∧ t.pc < pre.length+frag.length ∧
      Raising sem numLocals code t regs' world' := by
  induction frag generalizing pre skip regs world with
  | nil => cases h
  | cons i frag ih =>
    have hcode' : code.insns = (pre ++ [i]) ++ (frag ++ post) := by simp [hcode]
    cases skip with
    | succ skip =>
      obtain ⟨t, hreach, hh, h1, h2, hr⟩ := ih hcode' h
      simp only [List.length_append, List.length_cons, List.length_nil, Nat.zero_add]
        at hreach h1 h2 ⊢
      rw [show pre.length+1+skip = pre.length+(skip+1) by omega] at hreach
      exact ⟨t, hreach, hh, by omega, by omega, hr⟩
    | zero =>
      have hi : code.insns[pre.length]? = some i := by simp [hcode]
      have hstep := @stepExit_cases Val World sem numLocals code i _ hi regs world hs
      rw [run] at h
      cases hx : stepExit sem numLocals i regs world with
      | lost => simp [hx, Exit.bind] at h
      | raised r w =>
        simp only [hx, Exit.bind] at h hstep
        cases h
        exact ⟨_, .refl _, rfl, le_rfl, by simp, hstep⟩
      | fall k r w =>
        simp only [hx, Exit.bind] at h hstep
        have hk : k ≤ frag.length := by
          by_contra hcon
          rw [show k = frag.length+(k-frag.length) by omega, run_over] at h
          cases h
        obtain ⟨t, hreach, hh, h1, h2, hr⟩ := ih hcode' h
        simp only [List.length_append, List.length_cons, List.length_nil, Nat.zero_add]
          at hreach h1 h2 ⊢
        refine ⟨t, .step (hstep ?_) hreach, hh, by omega, by omega, hr⟩
        simp only [hcode, List.length_append, List.length_cons]
        omega

end machine

end Pyrust.Fragment
