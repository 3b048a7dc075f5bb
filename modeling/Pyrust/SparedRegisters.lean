import Pyrust.ExpressionCorrect

/-!
# Temporaries in use

The compiler writes the named locals and the temporaries it has free. Code that
writes no other register leaves the temporaries below a bound as they are,
whatever its opcodes and the code they call do to values.
-/

set_option autoImplicit false

namespace Pyrust.SparedRegisters

open Bytecode Machine CompilerCore Expressions Fragment ExpressionCorrect

/-- A register that code may write while the temporaries below `n` are in use. -/
def Free (base n r : Reg) : Prop := r < base ∨ n ≤ r

def Spares (base n : Reg) (code : List Insn) : Prop :=
  ∀ i ∈ code, ∀ r ∈ i.collectWrites, Free base n r

section runs
variable {Val World : Type*} {sem : Sem Val World} {base n : Reg} {code code' : List Insn}
  {regs regs' : Regs Val} {w w' : World} {skip k r : ℕ}

theorem Spares.append (h : Spares base n code) (h' : Spares base n code') :
    Spares base n (code ++ code') := by
  intro i hi
  rcases List.mem_append.mp hi with hi | hi
  · exact h i hi
  · exact h' i hi

theorem finishRegs_spares {i : Insn} (h : ∀ r ∈ i.collectWrites, Free base n r)
    (o : Outcome Val World) (regs : Regs Val) (hr : base ≤ r) (hn : r < n) :
    finishRegs base i o regs r = regs r := by
  refine finishRegs_frame (fun hmem => ?_) (fun _ => hr) o regs
  rcases h r hmem with hlt | hle
  · exact Nat.not_lt.mpr hr hlt
  · exact Nat.not_lt.mpr hle hn

theorem stepExit_spares {i : Insn} (h : ∀ r ∈ i.collectWrites, Free base n r)
    (hx : stepExit sem base i regs w = .fall k regs' w') (hr : base ≤ r) (hn : r < n) :
    regs' r = regs r := by
  have hregs := finishRegs_spares h (perform sem base i regs w) regs hr hn
  unfold stepExit at hx
  simp only at hx
  split at hx
  · cases hx
  · split at hx
    · cases hx
      exact hregs
    · split at hx
      · cases hx
        exact hregs
      · cases hx
    · cases hx
    · cases hx

/-- Code keeps the temporaries it spares. -/
theorem run_spares (h : Spares base n code) (hx : run sem base code skip regs w = .fall k regs' w')
    (hr : base ≤ r) (hn : r < n) : regs' r = regs r := by
  induction code generalizing skip regs w with
  | nil =>
    cases hx
    rfl
  | cons i code ih =>
    have hrest : Spares base n code := fun j hj => h j (List.mem_cons_of_mem i hj)
    cases skip with
    | succ skip => exact ih hrest hx
    | zero =>
      rw [run] at hx
      cases hstep : stepExit sem base i regs w with
      | fall j regs₁ w₁ =>
        rw [hstep] at hx
        exact (ih hrest hx).trans
          (stepExit_spares (fun r hmem => h i List.mem_cons_self r hmem) hstep hr hn)
      | raised regs₁ w₁ =>
        rw [hstep] at hx
        cases hx
      | lost =>
        rw [hstep] at hx
        cases hx

end runs

section compiler
variable {Lit : Type} {base n : Reg}

/-- A state of the compiler in which the temporaries below `n` are in use. -/
structure At (base n : Reg) (c : Compiler Lit) : Prop where
  baseTemp : c.baseTemp = base
  bound : base ≤ n
  temp : n ≤ c.nextTemp
  locals : ∀ x r, c.localReg x = some r → r < base

/-- The compiler has appended code that spares the temporaries below `n`. -/
def Spared (base n : Reg) (c c' : Compiler Lit) : Prop :=
  ∃ code, Emits c c' code ∧ Spares base n code ∧ n ≤ c'.nextTemp

variable {c c' c'' : Compiler Lit} {r : Reg}

theorem At.refl (h : At base n c) : Spared base n c c :=
  ⟨[], .refl c, fun _ hi => absurd hi List.not_mem_nil, h.temp⟩

theorem At.next (h : At base n c) (hs : Spared base n c c') : At base n c' := by
  obtain ⟨code, he, -, ht⟩ := hs
  refine ⟨he.baseTemp.trans h.baseTemp, h.bound, ht, fun x r hr => ?_⟩
  rw [he.localReg] at hr
  exact h.locals x r hr

namespace Spared

theorem trans (h : Spared base n c c') (h' : Spared base n c' c'') : Spared base n c c'' := by
  obtain ⟨code, he, hs, -⟩ := h
  obtain ⟨code', he', hs', ht⟩ := h'
  exact ⟨code ++ code', he.trans he', hs.append hs', ht⟩

theorem emit (h : Spared base n c c') {i : Insn} (hi : ∀ r ∈ i.collectWrites, Free base n r) :
    Spared base n c (c'.emit i) := by
  obtain ⟨code, he, hs, ht⟩ := h
  refine ⟨code ++ [i], he.emit i, hs.append fun j hj => ?_, ht⟩
  rw [List.mem_singleton.mp hj]
  exact hi

/-- An instruction that writes one register. -/
theorem emit_one (h : Spared base n c c') {i : Insn} (hi : i.collectWrites = [r])
    (hr : Free base n r) : Spared base n c (c'.emit i) := by
  refine h.emit fun r' hr' => ?_
  rw [hi] at hr'
  rw [List.mem_singleton.mp hr']
  exact hr

theorem emit_none (h : Spared base n c c') {i : Insn} (hi : i.collectWrites = []) :
    Spared base n c (c'.emit i) := by
  refine h.emit fun r' hr' => ?_
  rw [hi] at hr'
  cases hr'

theorem setTemp (h : Spared base n c c') {m : Reg} (hm : n ≤ m) :
    Spared base n c { c' with nextTemp := m } := by
  obtain ⟨code, he, hs, -⟩ := h
  exact ⟨code, he.setTemp m, hs, hm⟩

theorem le (h : Spared base n c c') : n ≤ c'.nextTemp := by
  obtain ⟨-, -, -, ht⟩ := h
  exact ht

theorem alloc (h : Spared base n c c') :
    Spared base n c { c' with nextTemp := c'.nextTemp+1 } :=
  h.setTemp (Nat.le_succ_of_le h.le)

theorem freeTemp (h : Spared base n c c') (hb : c.baseTemp = base) (hr : Free base n r) :
    Spared base n c (c'.freeTemp r) := by
  obtain ⟨code, he, hs, ht⟩ := h
  refine ⟨code, he.freeTemp r, hs, le_freeTemp ht ?_⟩
  rw [he.baseTemp, hb]
  exact hr.imp_right .inl

theorem freeTempIf (h : Spared base n c c') (p : Prop) [Decidable p] (hb : c.baseTemp = base)
    (hr : Free base n r) : Spared base n c (if p then c'.freeTemp r else c') := by
  split
  · exact h.freeTemp hb hr
  · exact h

theorem ensureDst (h : Spared base n c c') (hb : c.baseTemp = base) (hr : Free base n r) :
    Spared base n c (c'.ensureDst r).2 ∧ n ≤ (c'.ensureDst r).1 := by
  obtain ⟨code, he, hs, ht⟩ := h
  have hbase : c'.baseTemp = base := he.baseTemp.trans hb
  unfold Compiler.ensureDst
  split
  case isTrue hle =>
    rw [hbase] at hle
    exact ⟨⟨code, he, hs, ht⟩, hr.resolve_left (Nat.not_lt.mpr hle)⟩
  case isFalse => exact ⟨⟨code, he.setTemp _, hs, Nat.le_succ_of_le ht⟩, ht⟩

theorem internName (h : Spared base n c c') (name : String) :
    Spared base n c (c'.internName name).2 := by
  obtain ⟨code, he, hs, ht⟩ := h
  refine ⟨code, he.internName name, hs, ht.trans_eq ?_⟩
  unfold Compiler.internName
  split <;> rfl

theorem internConst [DecidableEq Lit] (h : Spared base n c c') (v : Lit) :
    Spared base n c (c'.internConst v).2 := by
  obtain ⟨code, he, hs, ht⟩ := h
  refine ⟨code, he.internConst v, hs, ht.trans_eq ?_⟩
  unfold Compiler.internConst
  split <;> rfl

theorem markDef (h : Spared base n c c') (r : Reg) : Spared base n c (c'.markDef r) := by
  obtain ⟨code, he, hs, ht⟩ := h
  exact ⟨code, he.markDef r, hs, ht.trans_eq (markDef_nextTemp c' r).symm⟩

theorem length_le (h : Spared base n c c') : c.insns.length ≤ c'.insns.length := by
  obtain ⟨code, he, -, -⟩ := h
  rw [he.insns, List.length_append]
  exact Nat.le_add_right _ _

/-- Patching a jump changes no destination. -/
theorem patchJump (h : Spared base n c c') {idx : ℕ} (hidx : c.insns.length ≤ idx) :
    Spared base n c (c'.patchJump idx) := by
  obtain ⟨code, he, hs, ht⟩ := h
  obtain ⟨k, rfl⟩ := Nat.exists_eq_add_of_le hidx
  refine ⟨patchAt k code, he.patchJump, fun i hi => ?_, ht⟩
  obtain ⟨j, hj⟩ := List.mem_iff_getElem?.mp hi
  rw [patchAt, List.getElem?_modify] at hj
  obtain ⟨i', hi', rfl⟩ := Option.map_eq_some_iff.mp hj
  have hmem := hs i' (List.mem_of_getElem? hi')
  split
  · rw [Insn.fixOff_collectWrites]
    exact hmem
  · exact hmem

theorem patchJumps {idxs : List ℕ} (h : Spared base n c c')
    (hidx : ∀ idx ∈ idxs, c.insns.length ≤ idx) : Spared base n c (patchJumps idxs c') := by
  induction idxs generalizing c' with
  | nil => exact h
  | cons idx idxs ih =>
    exact ih (h.patchJump (hidx idx List.mem_cons_self))
      fun j hj => hidx j (List.mem_cons_of_mem idx hj)

end Spared

theorem retarget_writes {into d : Reg} {i i' : Insn} (h : retarget into i = some (d, i')) :
    i'.collectWrites = [into] := by
  cases i <;> cases h <;> rfl

/-- Bringing a value into a register writes that register. -/
theorem moveInto_spared {before : Compiler Lit} {dst : Reg} (h : Spared base n before c)
    (hd : Free base n dst) : Spared base n before (moveInto dst before r c) := by
  have hmove : Spared base n before (c.emit (.move dst r)) := h.emit_one rfl hd
  unfold moveInto
  split
  · exact h
  · split
    case isTrue hone =>
      cases hlast : c.retargetLast r dst with
      | none => exact hmove
      | some c₁ =>
        unfold Compiler.retargetLast at hlast
        split at hlast
        case h_1 d i hi =>
          split at hlast
          case isTrue =>
            cases hlast
            obtain ⟨code, he, -, ht⟩ := h
            obtain ⟨last, -, hlast⟩ := Option.bind_eq_some_iff.mp hi
            refine ⟨[i], ⟨?_, he.localReg, he.baseTemp, he.consts, he.names⟩, fun j hj => ?_,
              ht⟩
            · have hlen : code.length = 1 := by
                have hl := hone.1
                rw [he.insns, List.length_append] at hl
                omega
              obtain ⟨x, rfl⟩ := List.length_eq_one_iff.mp hlen
              show c.insns.dropLast ++ [i] = before.insns ++ [i]
              rw [he.insns, List.dropLast_concat]
            · rw [List.mem_singleton.mp hj, retarget_writes hlast]
              intro r' hr'
              rw [List.mem_singleton.mp hr']
              exact hd
          case isFalse => cases hlast
        case h_2 => cases hlast
    case isFalse => exact hmove

theorem exprInto_spared {before : Compiler Lit} {dst : Reg} {x : Reg × Compiler Lit}
    (h : Spared base n before x.2) (hn : n ≤ before.nextTemp) (hd : Free base n dst) :
    Spared base n before (exprInto dst before x) := by
  have hmove := @moveInto_spared Lit base n x.2 x.1 before dst h hd
  unfold exprInto
  simp only
  split
  · exact hmove.setTemp hn
  · exact hmove

end compiler

end Pyrust.SparedRegisters
