import Pyrust.ExpressionValues

/-!
# Compiled expressions

The code of an expression follows the evaluation of the expression as long as no
local changes between its evaluation as an operand and the operation on that
operand. When one does, the code performs another operation than the evaluation,
and the two records never agree again.
-/

set_option autoImplicit false

namespace Pyrust.ExpressionRuns

open Bytecode Machine CompilerCore Expressions Fragment ExpressionValues

section records
variable {A : Type}

/-- Two records that have come apart. -/
def Mismatch (l l' : List A) : Prop := ∃ (i : ℕ) (a b : A), l[i]? = some a ∧ l'[i]? = some b ∧ a ≠ b

theorem Mismatch.mono {l l' m m' : List A} (h : Mismatch l l') (hl : l <+: m) (hl' : l' <+: m') :
    Mismatch m m' := by
  obtain ⟨i, a, b, ha, hb, hne⟩ := h
  obtain ⟨t, rfl⟩ := hl
  obtain ⟨t', rfl⟩ := hl'
  refine ⟨i, a, b, ?_, ?_, hne⟩
  · rw [List.getElem?_append_left (List.getElem?_eq_some_iff.mp ha).1, ha]
  · rw [List.getElem?_append_left (List.getElem?_eq_some_iff.mp hb).1, hb]

theorem Mismatch.ne {l l' : List A} (h : Mismatch l l') : l ≠ l' := by
  rintro rfl
  obtain ⟨i, a, b, ha, hb, hne⟩ := h
  exact hne (Option.some.inj (ha.symm.trans hb))

theorem mismatch_of_append {l m m' : List A} {a b : A} (hab : a ≠ b) (hm : l ++ [a] <+: m)
    (hm' : l ++ [b] <+: m') : Mismatch m m' :=
  Mismatch.mono ⟨l.length, a, b, by simp, by simp, hab⟩ hm hm'

end records

section instructions
variable {Lit Val World : Type} {P : Prims Lit Val World} {names : List String}
  {consts : List Lit} {base : ℕ} {regs : Regs (Slot Val)} {st : Store Val World}

/-- The destination of the opcodes that compute a value. -/
def resultReg : Insn → Option Reg
  | .unaryOp d _ _ | .binOp d _ _ _ | .getAttr d _ _ | .getItem d _ _ | .getSlice d _ _
  | .callMethod d _ _ _ _ | .callMethodExpanded d _ _ _ _ | .buildList d _ _
  | .buildDict d _ _ _ => some d
  | _ => none

section steps
/-- The opcodes that compute a value make their act, and fall through or raise. -/
theorem perform_act {i : Insn} {dst : Reg} (hi : resultReg i = some dst) :
    perform (sem P names consts) base i regs st =
      let o := (act P names i.shape (operands base i regs) st).outcome (view base regs)
      { o with flow := settle i.shape o.flow } := by
  cases i <;> cases hi <;> rfl

theorem step_give {i : Insn} {dst : Reg} {v : Slot Val} {st' : Store Val World}
    (hi : resultReg i = some dst)
    (h : act P names i.shape (operands base i regs) st = .give v st') :
    stepExit (sem P names consts) base i regs st =
      .fall 0 (Function.update regs dst (some v)) st' := by
  have hview := @view_self _ base regs
  rw [stepExit, perform_act hi, h]
  cases i <;> cases hi <;> first
    | rfl
    | exact congrArg (fun regs => Exit.fall 0 (Function.update regs dst (some v)) st') hview

theorem step_fail {i : Insn} {dst : Reg} {st' : Store Val World}
    (hi : resultReg i = some dst)
    (h : act P names i.shape (operands base i regs) st = .fail st') :
    stepExit (sem P names consts) base i regs st = .raised regs st' := by
  have hview := @view_self _ base regs
  rw [stepExit, perform_act hi, h]
  cases i <;> cases hi <;> first
    | rfl
    | exact congrArg (fun regs => Exit.raised regs st') hview

theorem step_loadConst (dst : Reg) (idx : ℕ) :
    stepExit (sem P names consts) base (.loadConst dst idx) regs st =
      .fall 0 (Function.update regs dst (some (.obj ((consts[idx]?.map P.literal).getD P.none))))
        st := rfl

theorem step_loadNone (dst : Reg) :
    stepExit (sem P names consts) base (.loadNone dst) regs st =
      .fall 0 (Function.update regs dst (some (.obj P.none))) st := rfl

theorem step_move {dst src : Reg} {v : Slot Val} (h : regs src = some v) :
    stepExit (sem P names consts) base (.move dst src) regs st =
      .fall 0 (Function.update regs dst (some v)) st := by
  rw [stepExit, finishRegs_copied _ (.inl rfl) h, perform_copied _ (.inl rfl) h]
  rfl

theorem step_jump (k : ℕ) :
    stepExit (sem P names consts) base (.jump k) regs st = .fall k regs st :=
  congrArg (fun regs => Exit.fall k regs st) (view_self regs)

/-- An opcode that writes no register leaves the registers alone. -/
theorem step_quiet (i : Insn) (a : Act Val World) {ops : List (Operand (Slot Val))}
    (hops : operands base i regs = ops) (hwrites : i.collectWrites = [])
    (hmark : i.isHandlerMark = false)
    (hact : outcome (sem P names consts) i.shape ops (view base regs) st =
      { a.outcome (view base regs) with
        flow := settle i.shape (a.outcome (view base regs)).flow }) :
    stepExit (sem P names consts) base i regs st =
      match settle i.shape (a.outcome (view base regs)).flow, i.jumpOff with
      | .next, _ => .fall 0 regs (a.outcome (view base regs)).world
      | .jump, some k =>
        if 0 ≤ k then .fall k.toNat regs (a.outcome (view base regs)).world else .lost
      | .raise, _ => .raised regs (a.outcome (view base regs)).world
      | _, _ => .lost := by
  have hperform : perform (sem P names consts) base i regs st =
      { a.outcome (view base regs) with
        flow := settle i.shape (a.outcome (view base regs)).flow } := by
    rw [perform, hops, hact]
  have hlocals : (a.outcome (view base regs)).locals = view base regs := by cases a <;> rfl
  have hregs : finishRegs base i (perform (sem P names consts) base i regs st) regs = regs := by
    have hnone : ∀ f, writesOn i f = [] := fun f =>
      List.eq_nil_iff_forall_not_mem.mpr fun r hr => by
        have hmem := writesOn_sub hr
        rw [hwrites] at hmem
        cases hmem
    rw [hperform, finishRegs, hnone]
    split
    · rw [writeAll, hlocals]
      exact view_self regs
    · rfl
  rewrite [stepExit, hregs, hmark, if_neg Bool.false_ne_true, hperform]
  rfl

/-- The conditional jump that is taken on a truth value. -/
def jumpIf (on : Bool) (cond : Reg) (off : ℤ) : Insn :=
  if on then .jumpIfTrue cond off else .jumpIfFalse cond off

theorem step_jumpIf {on : Bool} {cond : Reg} {v : Val} (h : regs cond = some (.obj v)) (k : ℕ) :
    stepExit (sem P names consts) base (jumpIf on cond k) regs st =
      match P.truth v st.world with
      | (some t, w) => .fall (if t = on then k else 0) regs { st with world := w }
      | (none, w) => .raised regs { st with world := w } := by
  have hops : [Machine.read base regs cond] = [.value (.obj v)] := by rw [read_set h]
  cases on with
  | true =>
    rw [jumpIf, if_pos rfl, step_quiet (.jumpIfTrue cond k) (.branch P true v st) hops
      rfl rfl rfl, Act.branch]
    rcases P.truth v st.world with ⟨_ | t, w⟩
    · rfl
    · cases t <;> rfl
  | false =>
    rw [jumpIf, if_neg Bool.false_ne_true, step_quiet (.jumpIfFalse cond k)
      (.branch P false v st) hops rfl rfl rfl, Act.branch]
    rcases P.truth v st.world with ⟨_ | t, w⟩
    · rfl
    · cases t <;> rfl

theorem step_checkLocal {r : Reg} {v : Slot Val} (h : regs r = some v) (n : ℕ) :
    stepExit (sem P names consts) base (.checkLocal r n) regs st = .fall 0 regs st := by
  have hops : [Machine.read base regs r] = [.value v] := by rw [read_set h]
  rw [step_quiet (.checkLocal r n) (.go st) hops rfl rfl rfl]
  rfl

theorem step_listAppend {list val : Reg} {id : ℕ} {v : Val} (hl : regs list = some (.posList id))
    (hv : regs val = some (.obj v)) :
    stepExit (sem P names consts) base (.listAppend list val) regs st =
      .fall 0 regs { st with lists := st.lists.modify id (· ++ [v]) } := by
  have hops : [Machine.read base regs list, Machine.read base regs val] =
      [.value (.posList id), .value (.obj v)] := by
    rw [read_set hl, read_set hv]
  rw [step_quiet (.listAppend list val) (.go { st with lists := st.lists.modify id (· ++ [v]) })
    hops rfl rfl rfl]
  rfl

end steps

/-- The store an act ends in. -/
def actStore : Act Val World → Store Val World
  | .give _ st | .go st | .jump st | .fail st => st

theorem log_actApply (op : Operation Val) (st : Store Val World) :
    P.log st.world <+: P.log (actStore (Act.apply P op st)).world := by
  have h := (List.prefix_append _ _).trans (P.log_apply op st.world)
  simp only [Act.apply]
  split <;> simp_all [actStore]

theorem log_actBranch (on : Bool) (v : Val) (st : Store Val World) :
    P.log st.world <+: P.log (actStore (Act.branch P on v st)).world := by
  have h := P.log_truth v st.world
  simp only [Act.branch]
  split
  · split <;> simp_all [actStore]
  · simp_all [actStore]

variable (P names) in
theorem log_act (i : Insn) (ops : List (Operand (Slot Val))) (st : Store Val World) :
    P.log st.world <+: P.log (actStore (act P names i ops st)).world := by
  unfold act
  split
  case h_3 => split <;> first | exact log_actApply _ _ | exact List.prefix_rfl
  case h_6 => split <;> first | exact log_actApply _ _ | exact List.prefix_rfl
  case h_7 => split <;> first | exact log_actApply _ _ | exact List.prefix_rfl
  all_goals first
    | exact log_actApply _ _
    | exact log_actBranch _ _ _
    | exact List.prefix_rfl

theorem log_perform (i : Insn) (regs : Regs (Slot Val)) (st : Store Val World) :
    P.log st.world <+: P.log (perform (sem P names consts) base i regs st).world.world := by
  have hexec (ops : List (Operand (Slot Val))) (locals : Regs (Slot Val)) (i : Insn) :
      P.log st.world <+: P.log ((sem P names consts).exec i ops locals st).world.world := by
    have h := log_act P names i ops st
    simp only [sem]
    cases ha : act P names i ops st <;> rw [ha] at h <;> exact h
  unfold perform outcome
  split
  case h_4 => split <;> exact List.prefix_rfl
  case h_5 => split <;> exact List.prefix_rfl
  all_goals first
    | exact hexec _ _ _
    | exact List.prefix_rfl

/-- Called code leaves the locals alone, and an opcode that raises has written nothing. -/
theorem perform_sem (i : Insn) (regs : Regs (Slot Val)) (st : Store Val World) :
    (perform (sem P names consts) base i regs st).locals = view base regs ∧
      ∀ k, (perform (sem P names consts) base i regs st).early k = false := by
  unfold perform outcome
  split
  case h_4 => split <;> exact ⟨rfl, fun _ => rfl⟩
  case h_5 => split <;> exact ⟨rfl, fun _ => rfl⟩
  all_goals first
    | exact ⟨rfl, fun _ => rfl⟩
    | (simp only [sem]
       cases act P names _ _ st <;> exact ⟨rfl, fun _ => rfl⟩)

/-- The record of the world a fragment is left in is the record the continuation grows. -/
def ExitPast (P : Prims Lit Val World) (past : List (Operation Val)) :
    Exit (Slot Val) (Store Val World) → Prop
  | .fall _ _ st | .raised _ st => past <+: P.log st.world
  | .lost => True

theorem past_stepExit (i : Insn) (regs : Regs (Slot Val)) (st : Store Val World) :
    ExitPast P (P.log st.world) (stepExit (sem P names consts) base i regs st) := by
  have h := @log_perform Lit Val World P names consts base i regs st
  simp only [stepExit]
  split
  · trivial
  · split
    · exact h
    · split
      · exact h
      · trivial
    · exact h
    · trivial

theorem past_run (code : List Insn) (skip : ℕ) (regs : Regs (Slot Val)) (st : Store Val World) :
    ExitPast P (P.log st.world) (run (sem P names consts) base code skip regs st) := by
  induction code generalizing skip regs st with
  | nil => exact List.prefix_rfl
  | cons i code ih =>
    cases skip with
    | succ skip => exact ih skip regs st
    | zero =>
      rw [run]
      have h := @past_stepExit Lit Val World P names consts base i regs st
      cases hx : stepExit (sem P names consts) base i regs st with
      | fall k regs' st' =>
        rw [hx] at h
        have hk := ih k regs' st'
        simp only [Exit.bind]
        cases hy : run (sem P names consts) base code k regs' st' with
        | fall k regs'' st'' =>
          rw [hy] at hk
          exact h.trans hk
        | raised regs'' st'' =>
          rw [hy] at hk
          exact h.trans hk
        | lost => trivial
      | raised regs' st' =>
        rw [hx] at h
        exact h
      | lost => trivial

end instructions

section meets
variable {Lit Val World : Type} {α β : Type}

/-- The registers of the locals hold their values. -/
def Holds (base : ℕ) (ρ : Env Val) (regs : Regs (Slot Val)) : Prop :=
  ∀ r < base, regs r = (ρ r).map .obj

def Diverges (P : Prims Lit Val World) (past : List (Operation Val)) :
    Exit (Slot Val) (Store Val World) → Prop
  | .fall _ _ st | .raised _ st => Mismatch (P.log st.world) past
  | .lost => True

/-- The state a run ends in: the locals and the world of the evaluation, the private lists of
before with some more behind them, and the temporaries to keep. -/
def Ends (base : ℕ) (keep : Reg → Prop) (regs : Regs (Slot Val)) (lists : List (List Val))
    (ρ : Env Val) (w : World) (regs' : Regs (Slot Val)) (st : Store Val World) : Prop :=
  Holds base ρ regs' ∧ (∀ r, base ≤ r → keep r → regs' r = regs r) ∧ st.world = w ∧
    lists <+: st.lists

/-- An exit does what an evaluation does, when `k` holds, and parts with it when not. -/
def Meets (P : Prims Lit Val World) (base : ℕ) (keep : Reg → Prop) (regs : Regs (Slot Val))
    (lists : List (List Val)) (res : Result Val World α)
    (post : α → Regs (Slot Val) → Store Val World → Prop) (k : Prop)
    (exit : Exit (Slot Val) (Store Val World)) : Prop :=
  match res with
  | .value a ρ w =>
    (k ∧ ∃ regs' st, exit = .fall 0 regs' st ∧ Ends base keep regs lists ρ w regs' st ∧
      post a regs' st) ∨
    (¬k ∧ Diverges P (P.log w) exit)
  | .raised ρ w =>
    (k ∧ ∃ regs' st, exit = .raised regs' st ∧ Ends base keep regs lists ρ w regs' st) ∨
    (¬k ∧ Diverges P (P.log w) exit)
  | .outside => True

variable {P : Prims Lit Val World} {names : List String} {consts : List Lit} {base : ℕ}
  {keep keep' : Reg → Prop} {regs regs' : Regs (Slot Val)} {lists : List (List Val)}
  {ρ : Env Val} {w : World} {st : Store Val World}

theorem Ends.trans {ρ' : Env Val} {w' : World} {lists' : List (List Val)}
    {regs'' : Regs (Slot Val)} {st' : Store Val World}
    (h : Ends base keep regs lists ρ w regs' st)
    (h' : Ends base keep' regs' lists' ρ' w' regs'' st') (hk : ∀ r, keep' r → keep r) :
    Ends base keep' regs lists' ρ' w' regs'' st' := by
  refine ⟨h'.1, fun r hr hkr => ?_, h'.2.2⟩
  rw [h'.2.1 r hr hkr, h.2.1 r hr (hk r hkr)]

theorem Ends.mono {lists' : List (List Val)} (h : Ends base keep regs lists ρ w regs' st)
    (hkeep : ∀ r, base ≤ r → keep' r → keep r) (hl : lists' <+: lists) :
    Ends base keep' regs lists' ρ w regs' st :=
  ⟨h.1, fun r hr hkr => h.2.1 r hr (hkeep r hr hkr), h.2.2.1, hl.trans h.2.2.2⟩

theorem Diverges.mono {past past' : List (Operation Val)}
    {exit : Exit (Slot Val) (Store Val World)} (h : Diverges P past exit) (hp : past <+: past') :
    Diverges P past' exit := by
  cases exit with
  | fall k regs st => exact Mismatch.mono h List.prefix_rfl hp
  | raised regs st => exact Mismatch.mono h List.prefix_rfl hp
  | lost => trivial

theorem Diverges.bind {past : List (Operation Val)} {exit : Exit (Slot Val) (Store Val World)}
    (h : Diverges P past exit) (code : List Insn) :
    Diverges P past (exit.bind (run (sem P names consts) base code)) := by
  cases exit with
  | fall k regs st =>
    have hr := @past_run Lit Val World P names consts base code k regs st
    simp only [Exit.bind]
    cases hx : run (sem P names consts) base code k regs st with
    | fall k' regs' st' =>
      rw [hx] at hr
      exact Mismatch.mono h hr List.prefix_rfl
    | raised regs' st' =>
      rw [hx] at hr
      exact Mismatch.mono h hr List.prefix_rfl
    | lost => trivial
  | raised regs st => exact h
  | lost => trivial

theorem Meets.congr {res : Result Val World α}
    {post : α → Regs (Slot Val) → Store Val World → Prop} {k k' : Prop}
    {exit : Exit (Slot Val) (Store Val World)} (h : Meets P base keep regs lists res post k exit)
    (hk : k ↔ k') : Meets P base keep regs lists res post k' exit := by
  rwa [← propext hk]

theorem Meets.mono {res : Result Val World α} {lists' : List (List Val)}
    {post post' : α → Regs (Slot Val) → Store Val World → Prop} {k : Prop}
    {exit : Exit (Slot Val) (Store Val World)} (h : Meets P base keep regs lists res post k exit)
    (hkeep : ∀ r, base ≤ r → keep' r → keep r) (hl : lists' <+: lists)
    (hpost : ∀ a ρ w regs' st, Ends base keep regs lists ρ w regs' st → post a regs' st →
      post' a regs' st) :
    Meets P base keep' regs lists' res post' k exit := by
  cases res with
  | value a ρ w =>
    apply h.imp_left
    rintro ⟨hk, regs', st, hx, he, hp⟩
    exact ⟨hk, regs', st, hx, he.mono hkeep hl, hpost a ρ w regs' st he hp⟩
  | raised ρ w =>
    apply h.imp_left
    rintro ⟨hk, regs', st, hx, he⟩
    exact ⟨hk, regs', st, hx, he.mono hkeep hl⟩
  | outside => trivial

theorem Meets.lower {res : Result Val World α} {lists' : List (List Val)}
    {post : α → Regs (Slot Val) → Store Val World → Prop} {k : Prop}
    {exit : Exit (Slot Val) (Store Val World)} (h : Meets P base keep regs lists res post k exit)
    (hl : lists' <+: lists) : Meets P base keep regs lists' res post k exit :=
  h.mono (fun _ _ hk => hk) hl fun _ _ _ _ _ _ hp => hp

/-- Code behind code, for one computation behind another. -/
theorem Meets.bind {x : Comp P α} {f : α → Comp P β}
    {post : α → Regs (Slot Val) → Store Val World → Prop}
    {post' : β → Regs (Slot Val) → Store Val World → Prop} {k : Prop}
    (k' : α → Env Val → World → Prop)
    {exit : Exit (Slot Val) (Store Val World)} {code : List Insn}
    (hx : Meets P base keep regs lists (x.run ρ w) post k exit)
    (hkeep : ∀ r, keep' r → keep r)
    (hf : ∀ a ρ' w' regs' st, x.run ρ w = .value a ρ' w' →
      Ends base keep regs lists ρ' w' regs' st → post a regs' st →
      Meets P base keep' regs' lists ((f a).run ρ' w') post' (k' a ρ' w')
        (run (sem P names consts) base code 0 regs' st)) :
    Meets P base keep' regs lists ((x >>= f).run ρ w) post' (k ∧ x.Then k' ρ w)
      (exit.bind (run (sem P names consts) base code)) := by
  show Meets P base keep' regs lists ((x.bind f).run ρ w) post' _ _
  simp only [Comp.bind, Comp.Then]
  cases hres : x.run ρ w with
  | outside => trivial
  | raised ρ' w' =>
    rw [hres] at hx
    rcases hx with ⟨hk, regs', st, rfl, he⟩ | ⟨hk, hd⟩
    · exact .inl ⟨⟨hk, trivial⟩, regs', st, rfl, he.mono (fun r _ => hkeep r) List.prefix_rfl⟩
    · exact .inr ⟨fun h => hk h.1, hd.bind code⟩
  | value a ρ' w' =>
    rw [hres] at hx
    simp only
    rcases hx with ⟨hk, regs', st, rfl, he, hp⟩ | ⟨hk, hd⟩
    · have h := hf a ρ' w' regs' st hres he hp
      simp only [hk, true_and, Exit.bind]
      cases hres' : (f a).run ρ' w' with
      | outside => trivial
      | value b ρ'' w'' =>
        rw [hres'] at h
        apply h.imp_left
        rintro ⟨hk', regs'', st', hx, he', hp'⟩
        exact ⟨hk', regs'', st', hx, he.trans he' hkeep, hp'⟩
      | raised ρ'' w'' =>
        rw [hres'] at h
        apply h.imp_left
        rintro ⟨hk', regs'', st', hx, he'⟩
        exact ⟨hk', regs'', st', hx, he.trans he' hkeep⟩
    · -- the records have parted, and both only grow
      have hd' := @Diverges.bind Lit Val World P names consts base _ _ hd code
      have hg := (f a).grows ρ' w'
      cases hres' : (f a).run ρ' w' with
      | outside => trivial
      | value b ρ'' w'' =>
        rw [hres'] at hg
        exact .inr ⟨fun h => hk h.1, hd'.mono hg.2⟩
      | raised ρ'' w'' =>
        rw [hres'] at hg
        exact .inr ⟨fun h => hk h.1, hd'.mono hg.2⟩

/-- Code behind code that computes nothing, but may move the result. -/
theorem Meets.after {res : Result Val World α}
    {post post' : α → Regs (Slot Val) → Store Val World → Prop} {k : Prop}
    {exit : Exit (Slot Val) (Store Val World)} {code : List Insn}
    (hx : Meets P base keep regs lists res post k exit) (hkeep : ∀ r, keep' r → keep r)
    (hf : ∀ a ρ regs' st, Ends base keep regs lists ρ st.world regs' st → post a regs' st →
      ∃ regs'' st', run (sem P names consts) base code 0 regs' st = .fall 0 regs'' st' ∧
        Ends base keep' regs' lists ρ st.world regs'' st' ∧ post' a regs'' st') :
    Meets P base keep' regs lists res post' k
      (exit.bind (run (sem P names consts) base code)) := by
  cases res with
  | outside => trivial
  | raised ρ w =>
    rcases hx with ⟨hk, regs', st, rfl, he⟩ | ⟨hk, hd⟩
    · exact .inl ⟨hk, regs', st, rfl, he.mono (fun r _ => hkeep r) List.prefix_rfl⟩
    · exact .inr ⟨hk, hd.bind code⟩
  | value a ρ w =>
    rcases hx with ⟨hk, regs', st, rfl, he, hp⟩ | ⟨hk, hd⟩
    · have hw := he.2.2.1
      subst hw
      obtain ⟨regs'', st', hrun, he', hp'⟩ := hf a ρ regs' st he hp
      exact .inl ⟨hk, regs'', st', hrun, he.trans he' hkeep, hp'⟩
    · exact .inr ⟨hk, hd.bind code⟩

theorem Meets.map {x : Comp P α} (f : α → β) {post : β → Regs (Slot Val) → Store Val World → Prop}
    {k : Prop} {exit : Exit (Slot Val) (Store Val World)}
    (h : Meets P base keep regs lists (x.run ρ w) (fun a => post (f a)) k exit) :
    Meets P base keep regs lists ((x >>= fun a => pure (f a)).run ρ w) post k exit := by
  show Meets P base keep regs lists ((x.bind fun a => Comp.pure (f a)).run ρ w) post k exit
  simp only [Comp.bind]
  cases hres : x.run ρ w with
  | value a ρ' w' =>
    rw [hres] at h
    exact h
  | raised ρ' w' =>
    rw [hres] at h
    exact h
  | outside => trivial

theorem run_single {V W : Type*} (sem : Sem V W) (i : Insn) (regs : Regs V) (world : W) :
    run sem base [i] 0 regs world = stepExit sem base i regs world := by
  rw [run]
  cases stepExit sem base i regs world <;> rfl

theorem Holds.update (h : Holds base ρ regs) {dst : Reg} (hd : base ≤ dst) (v : Option (Slot Val)) :
    Holds base ρ (Function.update regs dst v) := by
  intro r hr
  have hne : r ≠ dst := Nat.ne_of_lt (Nat.lt_of_lt_of_le hr hd)
  rw [Function.update_of_ne hne, h r hr]

theorem Ends.refl (h : Holds base ρ regs) (st : Store Val World) :
    Ends base keep regs st.lists ρ st.world regs st :=
  ⟨h, fun _ _ _ => rfl, rfl, List.prefix_rfl⟩

theorem Ends.update (h : Holds base ρ regs) {dst : Reg} (hd : base ≤ dst) (hkeep : ¬keep dst)
    (v : Option (Slot Val)) (st : Store Val World) :
    Ends base keep regs st.lists ρ st.world (Function.update regs dst v) st := by
  refine ⟨h.update hd v, fun r _ hk => ?_, rfl, List.prefix_rfl⟩
  have hne : r ≠ dst := by
    rintro rfl
    exact hkeep hk
  rw [Function.update_of_ne hne]

theorem Meets.pure (h : Holds base ρ regs) {a : α}
    {post : α → Regs (Slot Val) → Store Val World → Prop}
    (st : Store Val World) (hp : post a regs st) :
    Meets P base keep regs st.lists ((pure a : Comp P α).run ρ st.world) post True
      (.fall 0 regs st) :=
  .inl ⟨trivial, regs, st, rfl, .refl h st, hp⟩

/-- An opcode that performs one operation, for a computation that performs one. -/
theorem Meets.apply (names : List String) (consts : List Lit) (op : Operation Val)
    (h : Holds base ρ regs) {i : Insn} {dst : Reg} {op' : Operation Val}
    (hi : resultReg i = some dst) (hd : base ≤ dst) (hkeep : ¬keep dst)
    (hact : act P names i.shape (operands base i regs) st = .apply P op' st) :
    Meets P base keep regs st.lists ((Comp.apply (P := P) op).run ρ st.world)
      (fun a regs' _ => regs' dst = some (.obj a)) (op' = op)
      (run (sem P names consts) base [i] 0 regs st) := by
  rw [run_single]
  by_cases hop : op' = op
  · subst hop
    simp only [Comp.apply]
    simp only [Act.apply] at hact
    rcases ha : P.apply op' st.world with ⟨_ | v, w'⟩
    · rw [ha] at hact
      rw [step_fail hi hact]
      exact .inl ⟨trivial, regs, _, rfl, .refl h { st with world := w' }⟩
    · rw [ha] at hact
      rw [step_give hi hact]
      exact .inl ⟨trivial, _, _, rfl, .update h hd hkeep _ { st with world := w' }, by simp⟩
  · -- another operation has gone on record
    have hne : ∀ w', w' = (P.apply op st.world).2 → ∀ w'', w'' = (P.apply op' st.world).2 →
        Mismatch (P.log w'') (P.log w') := by
      rintro _ rfl _ rfl
      exact mismatch_of_append hop (P.log_apply op' st.world) (P.log_apply op st.world)
    have hd : ∀ w', w' = (P.apply op st.world).2 →
        Diverges P (P.log w') (stepExit (sem P names consts) base i regs st) := by
      intro w' hw'
      simp only [Act.apply] at hact
      rcases ha : P.apply op' st.world with ⟨_ | v, w''⟩
      · rw [ha] at hact
        rw [step_fail hi hact]
        exact hne w' hw' w'' (by rw [ha])
      · rw [ha] at hact
        rw [step_give hi hact]
        exact hne w' hw' w'' (by rw [ha])
    simp only [Comp.apply]
    rcases ha : P.apply op st.world with ⟨_ | v, w'⟩
    · exact .inr ⟨hop, hd w' (by rw [ha])⟩
    · exact .inr ⟨hop, hd w' (by rw [ha])⟩

/-- A conditional jump over some code, for a computation that tests a value. -/
theorem Meets.branch (h : Holds base ρ regs) {on : Bool} {cond : Reg} {v : Val} {y z : Comp P α}
    {ky kz : Env Val → World → Prop} {post : α → Regs (Slot Val) → Store Val World → Prop}
    {a b : List Insn}
    (hv : regs cond = some (.obj v))
    (hy : ∀ w, Meets P base keep regs st.lists (y.run ρ w) post (ky ρ w)
      (run (sem P names consts) base b 0 regs { st with world := w }))
    (hz : ∀ w, Meets P base keep regs st.lists (z.run ρ w) post (kz ρ w)
      (run (sem P names consts) base (a ++ b) 0 regs { st with world := w })) :
    Meets P base keep regs st.lists
      ((Comp.truth v >>= fun t => if t = on then y else z).run ρ st.world) post
      ((Comp.truth (P := P) v).Then (fun t ρ w => if t = on then ky ρ w else kz ρ w) ρ st.world)
      (run (sem P names consts) base (jumpIf on cond a.length :: (a ++ b)) 0 regs st) := by
  show Meets P base keep regs st.lists
    (((Comp.truth v).bind fun t => if t = on then y else z).run ρ st.world) post _ _
  rw [run, step_jumpIf hv]
  simp only [Comp.bind, Comp.Then, Comp.truth]
  rcases ht : P.truth v st.world with ⟨_ | t, w'⟩
  · exact .inl ⟨trivial, regs, _, rfl, .refl h { st with world := w' }⟩
  · by_cases hon : t = on
    · have hover := @run_over _ _ (sem P names consts) base a 0 regs { st with world := w' }
      simp only [hon, if_true, Exit.bind]
      rw [Nat.add_zero] at hover
      rw [run_append, hover]
      exact hy w'
    · simp only [hon, if_false, Exit.bind]
      exact hz w'

theorem run_jump (b : List Insn) (regs : Regs (Slot Val)) (st : Store Val World) :
    run (sem P names consts) base (.jump b.length :: b) 0 regs st = .fall 0 regs st := by
  rw [run, step_jump]
  exact @run_over _ _ (sem P names consts) base b 0 regs st

end meets

end Pyrust.ExpressionRuns
