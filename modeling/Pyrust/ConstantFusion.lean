import Pyrust.RegisterLiveness

/-!
# Fusing constant loads into operators

A constant load and the operator that consumes it become one instruction when the
temporary between them is not needed again. Two coarse guards decide most pairs
on the way through the stream; what they reject the block-local scan decides at
the end. The coarse guards follow neither the edges of a raise nor the branches
of the two `except` tests; those are the hidden edges below.
-/

set_option autoImplicit false

namespace Pyrust.ConstantFusion

open Bytecode Machine Compaction ControlGraph RegisterLiveness
open DeadStores (DeletesNamed operandRegs_temp backEdgeAfter)

/-- `reg_is_read_in`. -/
def regIsReadIn (insns : List Insn) (r : Reg) : Bool := insns.any fun x => r ∈ x.collectReads

/-- The stream being rewritten, the mask and the candidates the coarse guards turned down. -/
structure Fusion where
  insns : List Insn
  keep : List Bool
  rejected : List ℕ

inductive Verdict where
  | skip
  | reject
  | fuse (insn : Insn)
  deriving DecidableEq, Repr

section pass
variable (insns : List Insn) (numLocals : ℕ)

/-- The decision of the first phase on the pair at `i` of the current stream. -/
def verdict (cur : List Insn) (i : ℕ) : Verdict :=
  match cur[i]?, cur[i+1]? with
  | some (.loadConst lc idx), some (.binOp dst lhs op rhs) =>
    let readAfter := regIsReadIn (insns.drop (i+2)) lc
    let deadAfter := scratchDeadAfter cur (i+2) lc
    if rhs = lc ∧ lhs ≠ lc ∧ numLocals ≤ lc then
      if (deadAfter || !backEdgeAfter insns (i+2)) && (dst = lc || !readAfter || deadAfter) then
        .fuse (.binOpConst dst lhs op idx false)
      else .reject
    else .skip
  | _, _ => .skip

/-- The loop of the first phase. Each turn moves on, so the length of the stream is fuel enough. -/
def fuseFrom : ℕ → ℕ → Fusion → Fusion
  | 0, _, st => st
  | fuel+1, i, st =>
    if i+1 < insns.length then
      if jumpTargets insns (i+1) then fuseFrom fuel (i+1) st
      else match verdict insns numLocals st.insns i with
        | .fuse x => fuseFrom fuel (i+2)
          { st with insns := st.insns.set (i+1) x, keep := st.keep.set i false }
        | .reject => fuseFrom fuel (i+1) { st with rejected := st.rejected ++ [i] }
        | .skip => fuseFrom fuel (i+1) st
    else st

def firstPhase : Fusion :=
  fuseFrom insns numLocals insns.length 0
    ⟨insns, List.replicate insns.length true, []⟩

/-- The second look at a rejected candidate. -/
def fuseRejected (deadDef : ℕ → Bool) (st : Fusion) (i : ℕ) : Fusion :=
  if deadDef i then
    match st.insns[i]?, st.insns[i+1]? with
    | some (.loadConst _ idx), some (.binOp dst lhs op _) =>
      { st with
        insns := st.insns.set (i+1) (.binOpConst dst lhs op idx false)
        keep := st.keep.set i false }
    | _, _ => st
  else st

def fusion : Fusion :=
  let st := firstPhase insns numLocals
  st.rejected.foldl
    (fuseRejected (loadConstDeadAfterUse numLocals (jumpTargets insns) st.insns)) st

def passBinopConstFusion : List Insn :=
  compact (fusion insns numLocals).insns (fusion insns numLocals).keep

end pass

/-! ## The pairs the pass fuses -/

section pairs
variable {insns : List Insn} {numLocals : ℕ}

/-- A load at `i` whose temporary the operator behind it consumes, entered by fall-through. -/
structure Pair (insns : List Insn) (numLocals i : ℕ) (lc : Reg) (idx : ℕ) (dst lhs : Reg)
    (op : BinaryOp) : Prop where
  load : insns[i]? = some (.loadConst lc idx)
  use : insns[i+1]? = some (.binOp dst lhs op lc)
  temp : numLocals ≤ lc
  other : lhs ≠ lc
  entry : jumpTargets insns (i+1) = false

/-- What the rewritten stream and the mask have to do with the input. -/
structure Sound (insns : List Insn) (numLocals : ℕ) (st : Fusion) : Prop where
  length : st.insns.length = insns.length
  keep_length : st.keep.length = insns.length
  same : ∀ (j : ℕ) (x : Insn), insns[j]? = some x → st.insns[j]? = some x ∨
    ∃ i lc idx dst lhs op, j = i+1 ∧ Pair insns numLocals i lc idx dst lhs op ∧
      st.insns[j]? = some (.binOpConst dst lhs op idx false)
  dropped : ∀ i, st.keep[i]? = some false → ∃ lc idx dst lhs op,
    Pair insns numLocals i lc idx dst lhs op ∧
      st.insns[i+1]? = some (.binOpConst dst lhs op idx false)
  rejected : ∀ i ∈ st.rejected, ∃ lc idx dst lhs op, Pair insns numLocals i lc idx dst lhs op

theorem sound_start : Sound insns numLocals ⟨insns, List.replicate insns.length true, []⟩ where
  length := rfl
  keep_length := by simp
  same j x hx := .inl hx
  dropped i hi := by simp [List.getElem?_replicate] at hi
  rejected i hi := by cases hi

/-- Fusing a pair of the input keeps the rewritten stream sound. -/
theorem Sound.fuse {st : Fusion} (h : Sound insns numLocals st) {i : ℕ} {lc : Reg} {idx : ℕ}
    {dst lhs : Reg} {op : BinaryOp} (hp : Pair insns numLocals i lc idx dst lhs op) :
    Sound insns numLocals { st with
      insns := st.insns.set (i+1) (.binOpConst dst lhs op idx false)
      keep := st.keep.set i false } where
  length := by simp [h.length]
  keep_length := by simp [h.keep_length]
  same j x hx := by
    by_cases hj : j = i+1
    · subst hj
      have hlt := (List.getElem?_eq_some_iff.mp hx).1
      rw [← h.length] at hlt
      exact .inr ⟨i, lc, idx, dst, lhs, op, rfl, hp, List.getElem?_set_self hlt⟩
    · rw [List.getElem?_set_ne (Ne.symm hj)]
      exact h.same j x hx
  dropped j hj := by
    by_cases hij : j = i
    · subst hij
      have hlt := (List.getElem?_eq_some_iff.mp hp.use).1
      rw [← h.length] at hlt
      exact ⟨lc, idx, dst, lhs, op, hp, List.getElem?_set_self hlt⟩
    · rw [List.getElem?_set_ne (Ne.symm hij)] at hj
      obtain ⟨lc', idx', dst', lhs', op', hp', hx⟩ := h.dropped j hj
      refine ⟨lc', idx', dst', lhs', op', hp', ?_⟩
      rw [List.getElem?_set_ne (by omega), hx]
  rejected := h.rejected

/-- An operator of the rewritten stream is the one of the input. -/
theorem Sound.of_insns {st : Fusion} (h : Sound insns numLocals st) {j : ℕ} {x : Insn}
    (hx : st.insns[j]? = some x) (hne : ∀ dst lhs op idx, x ≠ .binOpConst dst lhs op idx false) :
    insns[j]? = some x := by
  have hlt := (List.getElem?_eq_some_iff.mp hx).1
  rw [h.length] at hlt
  rcases h.same j _ (List.getElem?_eq_getElem hlt) with hsame | ⟨i, lc, idx, dst, lhs, op, -, -, hy⟩
  · rw [List.getElem?_eq_getElem hlt, ← hsame, hx]
  · exact absurd (Option.some.inj (hx.symm.trans hy)) (hne dst lhs op idx)

theorem Sound.thinned {st : Fusion} (h : Sound insns numLocals st) :
    Thinned insns st.insns := by
  refine ⟨h.length, ?_, ?_⟩
  · intro j x y hx hy
    rcases h.same j x hx with hsame | ⟨i, lc, idx, dst, lhs, op, rfl, hp, hz⟩
    · rw [Option.some.inj (hsame.symm.trans hy)]
    · obtain rfl := Option.some.inj (hz.symm.trans hy)
      obtain rfl := Option.some.inj (hp.use.symm.trans hx)
      rfl
  · intro j x y r hx hy hr
    rcases h.same j x hx with hsame | ⟨i, lc, idx, dst, lhs, op, rfl, hp, hz⟩
    · rw [Option.some.inj (hsame.symm.trans hy)] at hr
      exact .inl hr
    · obtain rfl := Option.some.inj (hz.symm.trans hy)
      obtain rfl := Option.some.inj (hp.use.symm.trans hx)
      simp only [Insn.collectReads.eq_def, List.mem_cons, List.not_mem_nil, or_false] at hr
      rcases hr with rfl | rfl
      · exact .inl (by simp [Insn.collectReads.eq_def])
      · exact .inr ⟨i, idx, rfl, hp.load, hp.entry⟩

/-- The guards under which the first phase fuses the pair at `i`. -/
structure Coarse (insns : List Insn) (i : ℕ) (lc dst : Reg) : Prop where
  flow : scratchDeadAfter insns (i+2) lc ∨ backEdgeAfter insns (i+2) = false
  read : dst = lc ∨ regIsReadIn (insns.drop (i+2)) lc = false ∨ scratchDeadAfter insns (i+2) lc

theorem scratchDeadAfter_congr {cur : List Insn} (hlen : cur.length = insns.length) {i : ℕ}
    (hdrop : cur.drop i = insns.drop i) (r : Reg) :
    scratchDeadAfter cur i r = scratchDeadAfter insns i r := by
  simp only [scratchDeadAfter, hlen, hdrop]

theorem getElem?_of_drop {cur : List Insn} {i : ℕ} (hdrop : cur.drop i = insns.drop i) (k : ℕ) :
    cur[i+k]? = insns[i+k]? := by
  rw [← List.getElem?_drop, hdrop, List.getElem?_drop]

/-- A decision is about a pair of the input, and depends on the guards. -/
theorem verdict_pair {cur : List Insn} (hlen : cur.length = insns.length) {i : ℕ}
    (hdrop : cur.drop i = insns.drop i) (ht : jumpTargets insns (i+1) = false)
    (h : verdict insns numLocals cur i ≠ .skip) :
    ∃ lc idx dst lhs op, Pair insns numLocals i lc idx dst lhs op ∧
      (verdict insns numLocals cur i = .fuse (.binOpConst dst lhs op idx false) ∧
        Coarse insns i lc dst ∨ verdict insns numLocals cur i = .reject) := by
  have hdrop' : cur.drop (i+2) = insns.drop (i+2) := by
    rw [← List.drop_drop, hdrop, List.drop_drop]
  have hload := getElem?_of_drop hdrop 0
  have huse := getElem?_of_drop hdrop 1
  rw [Nat.add_zero] at hload
  revert h
  simp only [verdict, hload, huse, scratchDeadAfter_congr hlen hdrop']
  split
  case h_2 => exact fun h => absurd rfl h
  case h_1 lc idx dst lhs op rhs hx hy =>
    split
    case isFalse => exact fun h => absurd rfl h
    case isTrue hc =>
      obtain ⟨rfl, hother, htemp⟩ := hc
      intro _
      refine ⟨rhs, idx, dst, lhs, op, ⟨hx, hy, htemp, hother, ht⟩, ?_⟩
      split
      case isFalse => exact .inr rfl
      case isTrue hg =>
        simp only [Bool.and_eq_true, Bool.or_eq_true, Bool.not_eq_true', decide_eq_true_eq] at hg
        exact .inl ⟨rfl, hg.1, by simpa [or_assoc] using hg.2⟩

/-- The loop has fused pairs whose guards hold and has not yet come to the pairs from `i` on. -/
structure Running (insns : List Insn) (numLocals i : ℕ) (st : Fusion) : Prop where
  sound : Sound insns numLocals st
  ahead : st.insns.drop i = insns.drop i
  coarse : ∀ j lc idx dst lhs op, st.keep[j]? = some false →
    Pair insns numLocals j lc idx dst lhs op → Coarse insns j lc dst

theorem Running.next {i : ℕ} {st : Fusion} (h : Running insns numLocals i st) :
    Running insns numLocals (i+1) st :=
  ⟨h.sound, by rw [← List.drop_drop, h.ahead, List.drop_drop], h.coarse⟩

theorem fuseFrom_running (fuel i : ℕ) (st : Fusion) (h : Running insns numLocals i st) :
    ∃ k, Running insns numLocals k (fuseFrom insns numLocals fuel i st) := by
  induction fuel generalizing i st with
  | zero => exact ⟨i, h⟩
  | succ fuel ih =>
    rw [fuseFrom]
    by_cases hi : i+1 < insns.length
    · rw [if_pos hi]
      by_cases ht : jumpTargets insns (i+1)
      · rw [if_pos ht]
        exact ih _ _ h.next
      · have ht : jumpTargets insns (i+1) = false := by simpa using ht
        rw [if_neg (by simp [ht])]
        have hpair := @verdict_pair insns numLocals _ h.sound.length i h.ahead ht
        cases hv : verdict insns numLocals st.insns i with
        | skip => exact ih _ _ h.next
        | reject =>
          obtain ⟨lc, idx, dst, lhs, op, hp, -⟩ := hpair (by simp [hv])
          apply ih
          refine ⟨{ h.sound with rejected := ?_ }, h.next.ahead, h.coarse⟩
          intro j hj
          rcases List.mem_append.mp hj with hj | hj
          · exact h.sound.rejected j hj
          · obtain rfl := List.mem_singleton.mp hj
            exact ⟨lc, idx, dst, lhs, op, hp⟩
        | fuse x =>
          obtain ⟨lc, idx, dst, lhs, op, hp, hcase⟩ := hpair (by simp [hv])
          rw [hv] at hcase
          simp only [Verdict.fuse.injEq, reduceCtorEq, or_false] at hcase
          obtain ⟨rfl, hg⟩ := hcase
          apply ih
          refine ⟨h.sound.fuse hp, ?_, ?_⟩
          · show (st.insns.set (i+1) _).drop (i+2) = insns.drop (i+2)
            rw [List.drop_set_of_lt (by omega), h.next.next.ahead]
          · intro j lc' idx' dst' lhs' op' hj hp'
            by_cases hij : j = i
            · subst hij
              obtain ⟨rfl, rfl⟩ := Insn.loadConst.inj (Option.some.inj (hp.load.symm.trans hp'.load))
              obtain ⟨rfl, -⟩ := Insn.binOp.inj (Option.some.inj (hp.use.symm.trans hp'.use))
              exact hg
            · apply h.coarse j lc' idx' dst' lhs' op' _ hp'
              rw [← hj]
              exact (List.getElem?_set_ne (Ne.symm hij)).symm
    · rw [if_neg hi]
      exact ⟨i, h⟩

theorem firstPhase_running : ∃ k, Running insns numLocals k (firstPhase insns numLocals) := by
  apply fuseFrom_running
  refine ⟨sound_start, rfl, ?_⟩
  intro j lc idx dst lhs op hj
  simp [List.getElem?_replicate] at hj

/-- Once the loop has run to the end, more fuel changes nothing. -/
theorem fuseFrom_fuel (fuel i : ℕ) (st : Fusion) (h : insns.length ≤ fuel+i) :
    fuseFrom insns numLocals (fuel+1) i st = fuseFrom insns numLocals fuel i st := by
  induction fuel generalizing i st with
  | zero =>
    simp only [fuseFrom]
    rw [if_neg (by omega)]
  | succ fuel ih =>
    rw [fuseFrom]
    conv_rhs => rw [fuseFrom]
    have h1 := fun st => ih (i+1) st (by omega)
    have h2 := fun st => ih (i+2) st (by omega)
    simp only [h1, h2]

/-- The second phase fuses rejected pairs that the block-local scan calls dead. -/
theorem fuseRejected_sound {st st' : Fusion} {deadDef : ℕ → Bool} {i : ℕ}
    (h : Sound insns numLocals st) {lc : Reg} {idx : ℕ} {dst lhs : Reg} {op : BinaryOp}
    (hp : Pair insns numLocals i lc idx dst lhs op) (hst : fuseRejected deadDef st i = st') :
    Sound insns numLocals st' ∧ ∀ j, st'.keep[j]? = some false →
      st.keep[j]? = some false ∨ j = i ∧ deadDef i := by
  subst hst
  rw [fuseRejected]
  split
  case isFalse => exact ⟨h, fun j hj => .inl hj⟩
  case isTrue hd =>
    split
    case h_2 => exact ⟨h, fun j hj => .inl hj⟩
    case h_1 lc' idx' dst' lhs' op' rhs' hx hy =>
      have hload := h.of_insns hx (by simp)
      have huse := h.of_insns hy (by simp)
      obtain ⟨rfl, rfl⟩ := Insn.loadConst.inj (Option.some.inj (hp.load.symm.trans hload))
      obtain ⟨rfl, rfl, rfl, rfl⟩ := Insn.binOp.inj (Option.some.inj (hp.use.symm.trans huse))
      refine ⟨h.fuse hp, ?_⟩
      intro j hj
      by_cases hij : j = i
      · exact .inr ⟨hij, hd⟩
      · left
        rw [← hj]
        exact (List.getElem?_set_ne (Ne.symm hij)).symm

theorem secondPhase_sound (deadDef : ℕ → Bool) (is : List ℕ) (st : Fusion)
    (h : Sound insns numLocals st)
    (his : ∀ i ∈ is, ∃ lc idx dst lhs op, Pair insns numLocals i lc idx dst lhs op) :
    Sound insns numLocals (is.foldl (fuseRejected deadDef) st) ∧
      ∀ j, (is.foldl (fuseRejected deadDef) st).keep[j]? = some false →
        st.keep[j]? = some false ∨ deadDef j := by
  induction is generalizing st with
  | nil => exact ⟨h, fun j hj => .inl hj⟩
  | cons i is ih =>
    obtain ⟨lc, idx, dst, lhs, op, hp⟩ := his i (by simp)
    obtain ⟨hs, hkeep⟩ := fuseRejected_sound h hp rfl
    obtain ⟨hrest, hkeep'⟩ := ih _ hs fun j hj => his j (by simp [hj])
    refine ⟨hrest, ?_⟩
    intro j hj
    rcases hkeep' j hj with hj | hd
    · rcases hkeep j hj with hj | ⟨rfl, hd⟩
      · exact .inl hj
      · exact .inr hd
    · exact .inr hd

theorem fusion_sound : Sound insns numLocals (fusion insns numLocals) ∧
    ∀ j, (fusion insns numLocals).keep[j]? = some false →
      (firstPhase insns numLocals).keep[j]? = some false ∨
        loadConstDeadAfterUse numLocals (jumpTargets insns) (firstPhase insns numLocals).insns j := by
  obtain ⟨k, h⟩ := @firstPhase_running insns numLocals
  exact secondPhase_sound _ _ _ h.sound h.sound.rejected

end pairs

/-! ## Where the coarse guards do not look -/

section hidden
variable {insns : List Insn} {numLocals : ℕ} {r : Reg}

/-- The ways out of an instruction that the coarse guards do not follow. -/
def hiddenFlow : Insn → Flow → Bool
  | _, .raise => true
  | .matchExcept _ _, .jump | .matchExceptStar _ _ _ _, .jump => true
  | _, _ => false

/-- From the place, the edges the guards follow lead past no sure write of the register to an
instruction with a hidden edge, and that edge leads to `pc'`. -/
inductive Escapes (insns : List Insn) (r : Reg) (pc' : ℕ) (hs' : List ℕ) : ℕ → List ℕ → Prop
  | here {pc : ℕ} {hs : List ℕ} {x : Insn} {f : Flow} : insns[pc]? = some x → canFlow x f →
      hiddenFlow x f → r ∉ overwritten x f → transfer ⟨insns, []⟩ pc hs x f = .goto pc' hs' →
      Escapes insns r pc' hs' pc hs
  | pass {pc q : ℕ} {hs hq : List ℕ} {x : Insn} {f : Flow} : insns[pc]? = some x → canFlow x f →
      hiddenFlow x f = false → r ∉ overwritten x f → transfer ⟨insns, []⟩ pc hs x f = .goto q hq →
      Escapes insns r pc' hs' q hq → Escapes insns r pc' hs' pc hs

/-- Some path behind the instruction at the place reads the register before it is overwritten. -/
def ReadAfter (insns : List Insn) (r : Reg) (pc : ℕ) (hs : List ℕ) : Prop :=
  ∃ x f pc' hs', insns[pc]? = some x ∧ canFlow x f ∧ r ∉ overwritten x f ∧
    transfer ⟨insns, []⟩ pc hs x f = .goto pc' hs' ∧ Live ⟨insns, []⟩ r pc' hs'

theorem Escapes.live {pc' : ℕ} {hs' : List ℕ} {pc : ℕ} {hs : List ℕ}
    (h : Escapes insns r pc' hs' pc hs) (hl : Live ⟨insns, []⟩ r pc' hs') :
    Live ⟨insns, []⟩ r pc hs := by
  induction h with
  | here hx hf _ hw ht => exact .pass hx hf hw ht hl
  | pass hx hf _ hw ht _ ih => exact .pass hx hf hw ht ih

theorem Escapes.readAfter {pc' : ℕ} {hs' : List ℕ} {pc : ℕ} {hs : List ℕ}
    (h : Escapes insns r pc' hs' pc hs) (hl : Live ⟨insns, []⟩ r pc' hs') :
    ReadAfter insns r pc hs := by
  cases h with
  | here hx hf _ hw ht => exact ⟨_, _, _, _, hx, hf, hw, ht, hl⟩
  | pass hx hf _ hw ht h => exact ⟨_, _, _, _, hx, hf, hw, ht, h.live hl⟩

/-- No hidden edge that can be reached from the place leads to a use of the register. -/
def NoHiddenUse (insns : List Insn) (r : Reg) (pc : ℕ) (hs : List ℕ) : Prop :=
  ∀ pc' hs', Escapes insns r pc' hs' pc hs → ¬Live ⟨insns, []⟩ r pc' hs'

theorem NoHiddenUse.next {pc q : ℕ} {hs hq : List ℕ} {x : Insn} {f : Flow}
    (h : NoHiddenUse insns r pc hs) (hx : insns[pc]? = some x) (hf : canFlow x f)
    (hv : hiddenFlow x f = false) (hw : r ∉ overwritten x f)
    (ht : transfer ⟨insns, []⟩ pc hs x f = .goto q hq) : NoHiddenUse insns r q hq :=
  fun pc' hs' he => h pc' hs' (.pass hx hf hv hw ht he)

/-- The only branches out of straight-line code are hidden. -/
theorem straight_flow {x : Insn} {f : Flow} (hf : canFlow x f) (hs : endsStraight x = false)
    (hlate : x.isLateStageGuardInsn = false) (hv : hiddenFlow x f = false) :
    f = .next ∨ f = .halt := by
  cases f with
  | next => exact .inl rfl
  | halt => exact .inr rfl
  | raise => cases hv
  | again =>
    obtain ⟨iterReg, sentReg, resultReg, rfl⟩ := again_yieldFrom hf
    cases hs
  | jump =>
    cases x
    case matchExcept | matchExceptStar => cases hv
    all_goals first
      | (cases hf; done)
      | (cases hs; done)
      | cases hlate

/-- A register that straight-line code overwrites first is dead there. -/
theorem straightDead_not_live {start stop : ℕ} (h : StraightDead insns r start stop)
    (hlate : ∀ x ∈ insns, x.isLateStageGuardInsn = false) (hdel : DeletesNamed insns numLocals)
    (htemp : numLocals ≤ r) {pc : ℕ} {hs : List ℕ} (hl : Live ⟨insns, []⟩ r pc hs)
    (h1 : start ≤ pc) (h2 : pc ≤ stop) (hno : NoHiddenUse insns r pc hs) : False := by
  induction hl with
  | @read pc hs x hx hread =>
    exact (h.straight pc x h1 h2 hx).2
      (operandRegs_temp hdel htemp (List.mem_of_getElem? hx) hread)
  | @pass pc pc' hs hs' x f hx hf hw ht hl ih =>
    have hlx := hlate x (List.mem_of_getElem? hx)
    obtain ⟨hstraight, hread⟩ := h.straight pc x h1 h2 hx
    cases hv : hiddenFlow x f with
    | true => exact hno pc' hs' (.here hx hf hv hw ht) hl
    | false =>
      rcases straight_flow hf hstraight hlx hv with rfl | rfl
      · obtain rfl := next_pc ht
        have hnw := (written_next hlx hw).resolve_right hread
        rcases h2.lt_or_eq with h2 | rfl
        · exact ih (by omega) (by omega) (hno.next hx hf hv hw ht)
        · exact hnw (h.overwrites x hx)
      · cases ht

/-- A branch that the guards follow and do not list as a back edge leads forward. -/
theorem visible_forward {x : Insn} {k : ℤ} (hk : x.jumpOff = some k) (hb : x.isBackEdge = false)
    (hf : canFlow x .jump) (hv : hiddenFlow x .jump = false) : 0 ≤ k := by
  cases x
  case setupExcept => cases hf
  case matchExcept => cases hv
  case matchExceptStar => cases hv
  all_goals first
    | (cases hk
       exact Int.not_lt.mp (of_decide_eq_false hb))
    | cases hk

/-- A register that nothing behind reads is dead where no listed back edge follows. -/
theorem forward_not_live {start : ℕ} (hread : regIsReadIn (insns.drop start) r = false)
    (hback : backEdgeAfter insns start = false)
    (hdel : DeletesNamed insns numLocals) (htemp : numLocals ≤ r) {pc : ℕ} {hs : List ℕ}
    (hl : Live ⟨insns, []⟩ r pc hs) (h1 : start ≤ pc) (hno : NoHiddenUse insns r pc hs) :
    False := by
  have hmem : ∀ {pc x}, start ≤ pc → insns[pc]? = some x → x ∈ insns.drop start := by
    intro pc x h1 hx
    apply List.mem_of_getElem? (i := pc-start)
    rw [List.getElem?_drop, Nat.add_sub_cancel' h1, hx]
  rw [regIsReadIn, List.any_eq_false] at hread
  rw [backEdgeAfter, List.any_eq_false] at hback
  induction hl with
  | @read pc hs x hx h =>
    have hnot := hread x (hmem h1 hx)
    exact hnot (by simpa using operandRegs_temp hdel htemp (List.mem_of_getElem? hx) h)
  | @pass pc pc' hs hs' x f hx hf hw ht hl ih =>
    cases hv : hiddenFlow x f with
    | true => exact hno pc' hs' (.here hx hf hv hw ht) hl
    | false =>
      apply ih _ (hno.next hx hf hv hw ht)
      cases f with
      | next =>
        rw [next_pc ht]
        omega
      | jump =>
        have hb := hback x (hmem h1 hx)
        simp only [transfer] at ht
        split at ht
        case h_2 => cases ht
        case h_1 t htgt =>
          cases ht
          obtain ⟨k, hk, htgt⟩ := Option.bind_eq_some_iff.mp htgt
          have hk0 := visible_forward hk (by simpa using hb) hf hv
          simp only [target] at htgt
          split at htgt <;> cases htgt
          omega
      | again =>
        cases ht
        exact h1
      | raise => simp [hiddenFlow] at hv
      | halt => cases ht

/-- Behind a pair that the coarse guards let through, the temporary is dead if no hidden edge
leads to a use of it. -/
theorem Coarse.dead {i : ℕ} {lc : Reg} {idx : ℕ} {dst lhs : Reg} {op : BinaryOp}
    (hg : Coarse insns i lc dst) (hp : Pair insns numLocals i lc idx dst lhs op)
    (hlate : ∀ x ∈ insns, x.isLateStageGuardInsn = false) (hdel : DeletesNamed insns numLocals)
    {hs : List ℕ} (hno : NoHiddenUse insns lc (i+1) hs) : ¬ReadAfter insns lc (i+1) hs := by
  rintro ⟨x, f, pc', hs', hx, hf, hw, ht, hl⟩
  obtain rfl := Option.some.inj (hp.use.symm.trans hx)
  have hlen : i+2 ≤ insns.length := (List.getElem?_eq_some_iff.mp hp.use).1
  have hflow : f = .next ∨ f = .raise := by
    cases f with
    | next => exact .inl rfl
    | raise => exact .inr rfl
    | jump | again | halt => cases hf
  rcases hflow with rfl | rfl
  · obtain rfl := next_pc ht
    have hno' := hno.next hx hf rfl hw ht
    have hdst : dst ≠ lc := by
      rintro rfl
      exact hw (by simp [overwritten, writesOn, Insn.collectWrites.eq_def])
    by_cases hscan : scratchDeadAfter insns (i+2) lc
    · obtain ⟨stop, hle, hdead⟩ := scratchDeadAfter_spec hlen hscan
      exact straightDead_not_live hdead hlate hdel hp.temp hl le_rfl hle hno'
    · have hread := (hg.read.resolve_left hdst).resolve_right hscan
      have hback := hg.flow.resolve_left hscan
      exact forward_not_live hread hback hdel hp.temp hl le_rfl hno'
  · exact hno pc' hs' (.here hx hf rfl hw ht) hl

/-- Behind a load that the block-local scan calls dead, its temporary is dead. -/
theorem blockLocal_dead {thin : List Insn} (hthin : Thinned insns thin) {i : ℕ} {r : Reg} {c : ℕ}
    (hload : thin[i]? = some (.loadConst r c)) (htemp : numLocals ≤ r)
    (huse : ∀ a b, insns[i+1]? ≠ some (.loadConst a b))
    (hplain : ∀ x f, insns[i+1]? = some x → canFlow x f → f = .next ∨ f = .raise)
    (hd : loadConstDeadAfterUse numLocals (jumpTargets insns) thin i)
    (hlate : ∀ x ∈ insns, x.isLateStageGuardInsn = false) (hdel : DeletesNamed insns numLocals)
    {hs : List ℕ} (hreach : Reach ⟨insns, []⟩ (i+1) hs) : ¬ReadAfter insns r (i+1) hs := by
  rintro ⟨x, f, pc', hs', hx, hf, hw, ht, hl⟩
  obtain ⟨hlocal, hnot⟩ := hthin.not_read hload huse hd
  obtain ⟨j, hj⟩ := hlocal.straight_of_live hlate hdel htemp hl (hreach.step hx hf ht)
  rcases hplain x f hx hf with rfl | rfl
  · obtain rfl := next_pc ht
    by_cases htarget : jumpTargets insns (i+2)
    · exact hlocal.not_read_at_target htarget hj
    · exact hnot j (by simpa using htarget) hj
  · cases hs with
    | nil => cases ht
    | cons a rest =>
      cases ht
      obtain ⟨y, hy, -⟩ := hj.reads
      have hlt := lt_of_le_of_lt hj.le (List.getElem?_eq_some_iff.mp hy).1
      exact hlocal.not_read_at_target (handlers_targets hreach _ (by simp) hlt) hj

end hidden

section whole
variable (insns : List Insn) (numLocals : ℕ)

/-- On no path behind the operator of a fused pair is the temporary read before it is
overwritten. -/
def DeadBehindUse : Prop :=
  ∀ i r c hs, (fusion insns numLocals).keep[i]? = some false →
    insns[i]? = some (.loadConst r c) → Reach ⟨insns, []⟩ (i+1) hs → ¬ReadAfter insns r (i+1) hs

/-- Behind the pairs that the coarse guards let through, no hidden edge leads to a use of the
temporary. -/
def NoHiddenUses : Prop :=
  ∀ i r c hs, (firstPhase insns numLocals).keep[i]? = some false →
    insns[i]? = some (.loadConst r c) → Reach ⟨insns, []⟩ (i+1) hs → NoHiddenUse insns r (i+1) hs

variable {insns numLocals}

theorem Pair.flow {i : ℕ} {lc : Reg} {idx : ℕ} {dst lhs : Reg} {op : BinaryOp}
    (h : Pair insns numLocals i lc idx dst lhs op) (x : Insn) (f : Flow)
    (hx : insns[i+1]? = some x) (hf : canFlow x f) : f = .next ∨ f = .raise := by
  obtain rfl := Option.some.inj (h.use.symm.trans hx)
  cases f with
  | next => exact .inl rfl
  | raise => exact .inr rfl
  | jump | again | halt => cases hf

/-- What the first phase fuses stays fused. -/
theorem secondPhase_keeps (deadDef : ℕ → Bool) (is : List ℕ) (st : Fusion) {j : ℕ}
    (h : st.keep[j]? = some false) :
    (is.foldl (fuseRejected deadDef) st).keep[j]? = some false := by
  induction is generalizing st with
  | nil => exact h
  | cons i is ih =>
    apply ih
    rw [fuseRejected]
    split
    case isFalse => exact h
    case isTrue =>
      split
      case h_2 => exact h
      case h_1 =>
        rw [List.getElem?_set]
        split
        case isTrue heq =>
          have hlt := (List.getElem?_eq_some_iff.mp h).1
          simp [heq, hlt]
        case isFalse => exact h

/-- The temporaries of the fused pairs are dead exactly when no hidden edge leads to a use. -/
theorem deadBehindUse_iff (hlate : ∀ x ∈ insns, x.isLateStageGuardInsn = false)
    (hdel : DeletesNamed insns numLocals) :
    DeadBehindUse insns numLocals ↔ NoHiddenUses insns numLocals := by
  obtain ⟨k, hrun⟩ := @firstPhase_running insns numLocals
  constructor
  · intro h i r c hs hkeep hload hreach pc' hs' hesc hl
    exact h i r c hs (secondPhase_keeps _ _ _ hkeep) hload hreach (hesc.readAfter hl)
  · intro h i r c hs hkeep hload hreach
    obtain ⟨lc, idx, dst, lhs, op, hp, -⟩ := fusion_sound.1.dropped i hkeep
    obtain ⟨rfl, rfl⟩ := Insn.loadConst.inj (Option.some.inj (hp.load.symm.trans hload))
    rcases fusion_sound.2 i hkeep with hfirst | hlater
    · exact (hrun.coarse i _ _ _ _ _ hfirst hp).dead hp hlate hdel
        (h i lc idx hs hfirst hload hreach)
    · have hthin := hrun.sound.thinned
      have hget : (firstPhase insns numLocals).insns[i]? = some (.loadConst lc idx) := by
        rcases hrun.sound.same i _ hload with hsame | ⟨j, lc', idx', dst', lhs', op', rfl, hp', -⟩
        · exact hsame
        · cases hload.symm.trans hp'.use
      have huse : ∀ a b, insns[i+1]? ≠ some (.loadConst a b) := by
        intro a b heq
        cases hp.use.symm.trans heq
      exact blockLocal_dead hthin hget hp.temp huse hp.flow hlater hlate hdel hreach

end whole

end Pyrust.ConstantFusion
