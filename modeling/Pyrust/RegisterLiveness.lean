import Pyrust.DeadStores

/-!
# Register liveness scans

Two scans answer whether the value a constant load leaves in a temporary is read
again. One looks a few instructions ahead in straight-line code. The other looks
at the whole stream: a temporary is block-local when every read of it follows a
write of it by fall-through, and then its value never crosses a jump.
-/

set_option autoImplicit false

namespace Pyrust.RegisterLiveness

open Bytecode Machine Compaction ControlGraph
open DeadStores (DeletesNamed operandRegs_temp)

/-- The positions inside the stream that some offset leads to. -/
def jumpTargets (insns : List Insn) (t : ℕ) : Bool :=
  decide (t < insns.length) &&
    insns.zipIdx.any fun x => x.1.jumpOff.any fun k => (x.2 : ℤ)+1+k = t

/-! ## The look-ahead in straight-line code -/

/-- The branches, suspensions and returns that end the straight-line region. -/
def endsStraight : Insn → Bool
  | .jump .. | .jumpIfFalse .. | .jumpIfTrue .. | .cmpJumpIfFalse .. | .cmpJumpIfTrue ..
  | .cmpJumpIfFalseConst .. | .cmpJumpIfTrueConst .. | .forIter .. | .setupExcept .. | .yield ..
  | .yieldFrom .. | .ret .. | .returnNone => true
  | _ => false

/-- The answer of the first instruction that has one, or nothing at the edge of the window. -/
def scratchScan (r : Reg) : List Insn → Option Bool
  | [] => none
  | x::xs =>
    if endsStraight x then some false
    else if r ∈ x.collectReads then some false
    else if r ∈ x.collectWrites then some true
    else scratchScan r xs

def scratchDeadAfter (insns : List Insn) (start : ℕ) (r : Reg) : Bool :=
  let last := min (start+6) insns.length
  (scratchScan r ((insns.drop start).take (last-start))).getD (last = insns.length)

theorem scratchScan_some {r : Reg} {xs : List Insn} (h : scratchScan r xs = some true) :
    ∃ (stop : ℕ) (x : Insn), xs[stop]? = some x ∧ endsStraight x = false ∧ r ∉ x.collectReads ∧
      r ∈ x.collectWrites ∧
      ∀ (k : ℕ) (y : Insn), k < stop → xs[k]? = some y →
        endsStraight y = false ∧ r ∉ y.collectReads ∧ r ∉ y.collectWrites := by
  induction xs with
  | nil => cases h
  | cons x xs ih =>
    simp only [scratchScan] at h
    by_cases he : endsStraight x
    · simp [he] at h
    · by_cases hr : r ∈ x.collectReads
      · simp [he, hr] at h
      · by_cases hw : r ∈ x.collectWrites
        · exact ⟨0, x, rfl, by simpa using he, hr, hw, by simp⟩
        · obtain ⟨stop, y, hy, hrest, hr', hw', hbefore⟩ := ih (by simpa [he, hr, hw] using h)
          refine ⟨stop+1, y, hy, hrest, hr', hw', ?_⟩
          intro k z hk hz
          cases k with
          | zero =>
            obtain rfl : x = z := by simpa using hz
            exact ⟨by simpa using he, hr, hw⟩
          | succ k => exact hbefore k z (by omega) (by simpa using hz)

theorem scratchScan_none {r : Reg} {xs : List Insn} (h : scratchScan r xs = none) {k : ℕ} {y : Insn}
    (hy : xs[k]? = some y) :
    endsStraight y = false ∧ r ∉ y.collectReads ∧ r ∉ y.collectWrites := by
  induction xs generalizing k with
  | nil => simp at hy
  | cons x xs ih =>
    simp only [scratchScan] at h
    by_cases he : endsStraight x
    · simp [he] at h
    · by_cases hr : r ∈ x.collectReads
      · simp [he, hr] at h
      · by_cases hw : r ∈ x.collectWrites
        · simp [he, hr, hw] at h
        · cases k with
          | zero =>
            obtain rfl : x = y := by simpa using hy
            exact ⟨by simpa using he, hr, hw⟩
          | succ k => exact ih (by simpa [he, hr, hw] using h) (by simpa using hy)

/-- The straight-line code from `start` on overwrites the register before it reads it, or the
stream ends first. -/
structure StraightDead (insns : List Insn) (r : Reg) (start stop : ℕ) : Prop where
  stop_le : stop ≤ insns.length
  straight : ∀ k x, start ≤ k → k ≤ stop → insns[k]? = some x →
    endsStraight x = false ∧ r ∉ x.collectReads
  keeps : ∀ k x, start ≤ k → k < stop → insns[k]? = some x → r ∉ x.collectWrites
  overwrites : ∀ x, insns[stop]? = some x → r ∈ x.collectWrites

theorem scratchDeadAfter_spec {insns : List Insn} {start : ℕ} {r : Reg}
    (hs : start ≤ insns.length) (h : scratchDeadAfter insns start r) :
    ∃ stop, start ≤ stop ∧ StraightDead insns r start stop := by
  have hwin : ∀ k, start+k < min (start+6) insns.length →
      ((insns.drop start).take (min (start+6) insns.length-start))[k]? = insns[start+k]? := by
    intro k hk
    rw [List.getElem?_take_of_lt (by omega), List.getElem?_drop]
  have hcut : ∀ {k x}, ((insns.drop start).take (min (start+6) insns.length-start))[k]? = some x →
      insns[start+k]? = some x := by
    intro k x hx
    have hlt := (List.getElem?_eq_some_iff.mp hx).1
    rw [List.length_take] at hlt
    rw [← hx, hwin k (by omega)]
  rw [scratchDeadAfter] at h
  cases hscan : scratchScan r ((insns.drop start).take (min (start+6) insns.length-start)) with
  | some b =>
    simp only [hscan, Option.getD_some] at h
    subst h
    obtain ⟨stop, x, hx, he, hr, hw, hbefore⟩ := scratchScan_some hscan
    have hstop := hcut hx
    have hlt := (List.getElem?_eq_some_iff.mp hstop).1
    have hlen := (List.getElem?_eq_some_iff.mp hx).1
    rw [List.length_take] at hlen
    have hin : ∀ k y, start ≤ k → k < start+stop → insns[k]? = some y →
        endsStraight y = false ∧ r ∉ y.collectReads ∧ r ∉ y.collectWrites := by
      intro k y h1 h2 hy
      apply hbefore (k-start) y (by omega)
      rw [hwin _ (by omega), Nat.add_sub_cancel' h1, hy]
    refine ⟨start+stop, by omega, hlt.le, ?_, ?_, ?_⟩
    · intro k y h1 h2 hy
      rcases h2.lt_or_eq with h2 | rfl
      · exact ⟨(hin k y h1 h2 hy).1, (hin k y h1 h2 hy).2.1⟩
      · obtain rfl := Option.some.inj (hstop.symm.trans hy)
        exact ⟨he, hr⟩
    · exact fun k y h1 h2 hy => (hin k y h1 h2 hy).2.2
    · intro y hy
      obtain rfl := Option.some.inj (hstop.symm.trans hy)
      exact hw
  | none =>
    simp only [hscan, Option.getD_none, decide_eq_true_eq] at h
    have hin : ∀ k y, start ≤ k → insns[k]? = some y →
        endsStraight y = false ∧ r ∉ y.collectReads ∧ r ∉ y.collectWrites := by
      intro k y h1 hy
      have hlt := (List.getElem?_eq_some_iff.mp hy).1
      apply @scratchScan_none r _ hscan (k-start)
      rw [hwin _ (by omega), Nat.add_sub_cancel' h1, hy]
    refine ⟨insns.length, hs, le_rfl, ?_, ?_, by simp⟩
    · exact fun k y h1 _ hy => ⟨(hin k y h1 hy).1, (hin k y h1 hy).2.1⟩
    · exact fun k y h1 _ hy => (hin k y h1 hy).2.2

/-! ## The scans of the whole stream -/

section scans
variable (numLocals : ℕ) (targets : ℕ → Bool)

/-- The state of the forward scan: the temporaries written since the last jump target, and those
that were read without such a write. -/
structure Locality where
  defined : Reg → Bool
  escaping : Reg → Bool

def Locality.fold (target : Bool) (x : Insn) (l : Locality) : Locality where
  defined r := (!target && l.defined r) || r ∈ x.collectWrites
  escaping r := l.escaping r || (r ∈ x.collectReads && decide (numLocals ≤ r) &&
    !(!target && l.defined r))

def localityFrom : ℕ → Locality → List Insn → Locality
  | _, l, [] => l
  | i, l, x::xs => localityFrom (i+1) (l.fold numLocals (targets i) x) xs

def escaping (insns : List Insn) (r : Reg) : Bool :=
  (localityFrom numLocals targets 0 ⟨fun _ => false, fun _ => false⟩ insns).escaping r

/-- The state of the reverse scan. The length of the stream stands for none. -/
structure Upcoming where
  nextRead : Reg → ℕ
  nextWrite : Reg → ℕ
  nextTarget : ℕ

def Upcoming.fold (i : ℕ) (target : Bool) (x : Insn) (u : Upcoming) : Upcoming where
  nextRead r := if r ∈ x.collectReads then i else u.nextRead r
  nextWrite r := if r ∈ x.collectWrites then i else u.nextWrite r
  nextTarget := if target then i else u.nextTarget

def upcomingFrom (n : ℕ) : ℕ → List Insn → Upcoming
  | _, [] => ⟨fun _ => n, fun _ => n, n⟩
  | i, x::xs => (upcomingFrom n (i+1) xs).fold i (targets i) x

/-- The running state of the positions from `i` on. -/
def upcoming (insns : List Insn) (i : ℕ) : Upcoming :=
  upcomingFrom targets insns.length i (insns.drop i)

/-- The entry of the table for a constant load at `i` that the next instruction consumes. -/
def loadConstDeadAfterUse (insns : List Insn) (i : ℕ) : Bool :=
  match insns[i]? with
  | some (.loadConst r _) =>
    if i+1 < insns.length ∧ numLocals ≤ r ∧ escaping numLocals targets insns r = false then
      let u := upcoming targets insns (i+2)
      !(decide (u.nextRead r < u.nextTarget) && decide (u.nextRead r ≤ u.nextWrite r))
    else false
  | _ => false

end scans

/-! ## What the scans have found -/

section found
variable {numLocals : ℕ} {targets : ℕ → Bool} {r : Reg}

/-- A write of the register in front of `j` that no jump target separates from `j`. -/
def WrittenBefore (targets : ℕ → Bool) (insns : List Insn) (r : Reg) (j : ℕ) : Prop :=
  ∃ q y, q < j ∧ insns[q]? = some y ∧ r ∈ y.collectWrites ∧
    ∀ t, q < t → t ≤ j → targets t = false

theorem locality_spec {insns : List Insn} (i : ℕ) (l : Locality) (xs : List Insn)
    (hxs : insns.drop i = xs)
    (hl : l.defined r → ∃ q y, q < i ∧ insns[q]? = some y ∧ r ∈ y.collectWrites ∧
      ∀ t, q < t → t < i → targets t = false)
    (h : (localityFrom numLocals targets i l xs).escaping r = false) :
    l.escaping r = false ∧ ∀ j x, i ≤ j → insns[j]? = some x → r ∈ x.collectReads →
      numLocals ≤ r → WrittenBefore targets insns r j := by
  induction xs generalizing i l with
  | nil =>
    refine ⟨h, ?_⟩
    intro j x hij hx
    have hle : insns.length ≤ i := List.drop_eq_nil_iff.mp hxs
    have hlt := (List.getElem?_eq_some_iff.mp hx).1
    omega
  | cons x xs ih =>
    have hx : insns[i]? = some x := by
      have h0 := congrArg (·[0]?) hxs
      simpa using h0
    have hdrop : insns.drop (i+1) = xs := by rw [← List.tail_drop, hxs, List.tail_cons]
    have hnext : (l.fold numLocals (targets i) x).defined r →
        ∃ q y, q < i+1 ∧ insns[q]? = some y ∧ r ∈ y.collectWrites ∧
          ∀ t, q < t → t < i+1 → targets t = false := by
      intro hd
      by_cases hw : r ∈ x.collectWrites
      · exact ⟨i, x, by omega, hx, hw, fun t h1 h2 => by omega⟩
      · simp only [Locality.fold, hw, decide_false, Bool.or_false, Bool.and_eq_true,
          Bool.not_eq_true'] at hd
        obtain ⟨q, y, hq, hy, hmem, ht⟩ := hl hd.2
        refine ⟨q, y, by omega, hy, hmem, ?_⟩
        intro t h1 h2
        rcases Nat.lt_succ_iff_lt_or_eq.mp h2 with h2 | rfl
        · exact ht t h1 h2
        · exact hd.1
    obtain ⟨hesc, hrest⟩ := ih (i+1) _ hdrop hnext h
    simp only [Locality.fold, Bool.or_eq_false_iff] at hesc
    refine ⟨hesc.1, ?_⟩
    intro j y hij hy hread htemp
    rcases hij.lt_or_eq with hlt | rfl
    · exact hrest j y hlt hy hread htemp
    · obtain rfl := Option.some.inj (hx.symm.trans hy)
      have hdef : targets i = false ∧ l.defined r := by
        simpa [hread, htemp] using hesc.2
      obtain ⟨q, y, hq, hy, hmem, ht⟩ := hl hdef.2
      refine ⟨q, y, hq, hy, hmem, ?_⟩
      intro t h1 h2
      rcases h2.lt_or_eq with h2 | rfl
      · exact ht t h1 h2
      · exact hdef.1

/-- Every read of a block-local temporary follows a write of it by fall-through. -/
theorem escaping_spec {insns : List Insn} (h : escaping numLocals targets insns r = false)
    {j : ℕ} {x : Insn} (hx : insns[j]? = some x) (hread : r ∈ x.collectReads)
    (htemp : numLocals ≤ r) : WrittenBefore targets insns r j :=
  (locality_spec 0 _ insns rfl (by simp) h).2 j x (Nat.zero_le j) hx hread htemp

theorem upcomingFrom_le {n : ℕ} (i : ℕ) (xs : List Insn) (h : i+xs.length = n) :
    i ≤ (upcomingFrom targets n i xs).nextWrite r ∧
      i ≤ (upcomingFrom targets n i xs).nextTarget := by
  induction xs generalizing i with
  | nil =>
    simp only [List.length_nil, Nat.add_zero] at h
    exact ⟨h.le, h.le⟩
  | cons x xs ih =>
    obtain ⟨hw, ht⟩ := ih (i+1) (by simp at h; omega)
    simp only [upcomingFrom, Upcoming.fold]
    constructor <;> split <;> omega

theorem upcomingFrom_spec {n : ℕ} (i : ℕ) (xs : List Insn) (h : i+xs.length = n) (j : ℕ)
    (hij : i ≤ j) (hj : j < n) :
    ((∃ x, xs[j-i]? = some x ∧ r ∈ x.collectReads) →
        (upcomingFrom targets n i xs).nextRead r ≤ j) ∧
      ((∀ k x, k < j-i → xs[k]? = some x → r ∉ x.collectWrites) →
        j ≤ (upcomingFrom targets n i xs).nextWrite r) ∧
      ((∀ t, i ≤ t → t ≤ j → targets t = false) →
        j < (upcomingFrom targets n i xs).nextTarget) := by
  induction xs generalizing i with
  | nil =>
    simp at h
    omega
  | cons x xs ih =>
    simp only [upcomingFrom, Upcoming.fold]
    rcases hij.lt_or_eq with hlt | rfl
    · obtain ⟨hread, hwrite, htarget⟩ := ih (i+1) (by simp at h; omega) hlt
      have hshift : j-i = (j-(i+1))+1 := by omega
      rw [hshift]
      refine ⟨?_, ?_, ?_⟩
      · rintro ⟨y, hy, hmem⟩
        split
        · exact hij
        · exact hread ⟨y, by simpa using hy, hmem⟩
      · intro hw
        rw [if_neg (hw 0 x (by omega) rfl)]
        exact hwrite fun k y hk hy => hw (k+1) y (by omega) (by simpa using hy)
      · intro ht
        rw [if_neg (by simp [ht i le_rfl hij])]
        exact htarget fun t h1 h2 => ht t (by omega) h2
    · refine ⟨?_, ?_, ?_⟩
      · rintro ⟨y, hy, hmem⟩
        obtain rfl : x = y := by simpa using hy
        simp [hmem]
      · intro hw
        have hle := (@upcomingFrom_le targets r n (i+1) xs
          (by simp at h; omega)).1
        split <;> omega
      · intro ht
        have hle := (@upcomingFrom_le targets r n (i+1) xs
          (by simp at h; omega)).2
        rw [if_neg (by simp [ht i le_rfl le_rfl])]
        exact hle

end found

/-! ## Block-local temporaries on every path -/

section paths
variable {insns : List Insn} {numLocals : ℕ} {r : Reg}

/-- The register is read at `j`, which fall-through reaches from `pc` without a write of it. -/
structure StraightRead (targets : ℕ → Bool) (insns : List Insn) (r : Reg) (pc j : ℕ) : Prop where
  le : pc ≤ j
  reads : ∃ x, insns[j]? = some x ∧ r ∈ x.collectReads
  unwritten : ∀ k x, pc ≤ k → k < j → insns[k]? = some x → r ∉ x.collectWrites
  inside : ∀ t, pc < t → t ≤ j → targets t = false

def BlockLocal (targets : ℕ → Bool) (insns : List Insn) (r : Reg) : Prop :=
  ∀ j x, insns[j]? = some x → r ∈ x.collectReads → WrittenBefore targets insns r j

/-- A block-local temporary carries nothing over a jump target. -/
theorem BlockLocal.not_read_at_target {targets : ℕ → Bool} (h : BlockLocal targets insns r)
    {pc j : ℕ} (ht : targets pc) : ¬StraightRead targets insns r pc j := by
  rintro ⟨hle, ⟨x, hx, hread⟩, hunwritten, hinside⟩
  obtain ⟨q, y, hq, hy, hmem, hfree⟩ := h j x hx hread
  rcases Nat.lt_or_ge q pc with hlt | hge
  · rw [hfree pc hlt hle] at ht
    cases ht
  · exact hunwritten q y hge hq hy hmem

theorem jumpTargets_of_off {pc t : ℕ} {x : Insn} {k : ℤ} (hx : insns[pc]? = some x)
    (hk : x.jumpOff = some k) (ht : target insns.length pc k = some t) (hlt : t < insns.length) :
    jumpTargets insns t := by
  have hpos : (pc : ℤ)+1+k = t := by
    simp only [target] at ht
    split at ht
    · cases ht
      omega
    · cases ht
  rw [jumpTargets, Bool.and_eq_true, List.any_eq_true]
  exact ⟨by simpa using hlt, (x, pc), List.mem_zipIdx_iff_getElem?.mpr (by simpa using hx),
    by simp [hk, hpos]⟩

/-- The handlers of a place are jump targets. -/
theorem handlers_targets {pc : ℕ} {hs : List ℕ} (h : Reach ⟨insns, []⟩ pc hs) :
    ∀ a ∈ hs, a < insns.length → jumpTargets insns a := by
  induction h with
  | start => simp
  | @step pc pc' hs hs' x f _ hx hf ht ih =>
    cases f with
    | next =>
      rcases mark_cases x with ⟨k, rfl⟩ | rfl | hmark
      · simp only [transfer] at ht
        cases htgt : target insns.length pc k with
        | none => simp [htgt] at ht
        | some a =>
          simp only [htgt, Goto.goto.injEq] at ht
          obtain ⟨-, rfl⟩ := ht
          intro b hb hlt
          rcases List.mem_cons.mp hb with rfl | hb
          · exact jumpTargets_of_off hx rfl htgt hlt
          · exact ih b hb hlt
      · cases ht
        exact fun a ha => ih a (List.mem_of_mem_tail ha)
      · rw [transfer_next hmark] at ht
        cases ht
        exact ih
    | jump =>
      simp only [transfer] at ht
      split at ht <;> cases ht
      exact ih
    | again =>
      cases ht
      exact ih
    | raise =>
      cases hs with
      | nil => cases ht
      | cons a rest =>
        cases ht
        exact fun b hb => ih b (by simp [hb])
    | halt => cases ht

/-- What falls through has written all it may write, but for the sent value of a delegation,
which it reads. -/
theorem written_next {x : Insn} (hlate : x.isLateStageGuardInsn = false)
    (hw : r ∉ overwritten x .next) : r ∉ x.collectWrites ∨ r ∈ x.collectReads := by
  cases x
  case yieldFrom iterReg sentReg resultReg =>
    by_cases hr : r = sentReg
    · exact .inr (by simp [Insn.collectReads.eq_def, hr])
    · left
      simp only [overwritten, writesOn.eq_def, List.mem_singleton] at hw
      simp [Insn.collectWrites.eq_def, hw, hr]
  case matchExceptStar type src dst k =>
    left
    simp only [overwritten, writesOn.eq_def, List.mem_cons, List.not_mem_nil, or_false,
      not_or] at hw
    simp [Insn.collectWrites.eq_def, hw.1, hw.2]
  case callInlineBinOp => cases hlate
  all_goals exact .inl hw

/-- A block-local temporary that is live is read by fall-through. -/
theorem BlockLocal.straight_of_live (h : BlockLocal (jumpTargets insns) insns r)
    (hlate : ∀ x ∈ insns, x.isLateStageGuardInsn = false) (hdel : DeletesNamed insns numLocals)
    (htemp : numLocals ≤ r) {pc : ℕ} {hs : List ℕ} (hl : Live ⟨insns, []⟩ r pc hs)
    (hreach : Reach ⟨insns, []⟩ pc hs) : ∃ j, StraightRead (jumpTargets insns) insns r pc j := by
  induction hl with
  | @read pc hs x hx hread =>
    have hread' := operandRegs_temp hdel htemp (List.mem_of_getElem? hx) hread
    exact ⟨pc, le_rfl, ⟨x, hx, hread'⟩, fun k y h1 h2 => by omega, fun t h1 h2 => by omega⟩
  | @pass pc pc' hs hs' x f hx hf hw ht hl ih =>
    obtain ⟨j, hj⟩ := ih (.step hreach hx hf ht)
    have hlt : pc' < insns.length := by
      obtain ⟨y, hy, -⟩ := hj.reads
      exact lt_of_le_of_lt hj.le (List.getElem?_eq_some_iff.mp hy).1
    have hnot : ¬jumpTargets insns pc' := fun htarget => h.not_read_at_target htarget hj
    cases f with
    | next =>
      obtain rfl := next_pc ht
      rcases written_next (hlate x (List.mem_of_getElem? hx)) hw with hnw | hread
      · refine ⟨j, by have := hj.le; omega, hj.reads, ?_, ?_⟩
        · intro k y h1 h2 hy
          rcases h1.lt_or_eq with h1 | rfl
          · exact hj.unwritten k y h1 h2 hy
          · obtain rfl := Option.some.inj (hx.symm.trans hy)
            exact hnw
        · intro t h1 h2
          rcases (Nat.succ_le_of_lt h1).lt_or_eq with h1 | rfl
          · exact hj.inside t h1 h2
          · simpa using hnot
      · exact ⟨pc, le_rfl, ⟨x, hx, hread⟩, fun k y h1 h2 => by omega, fun t h1 h2 => by omega⟩
    | jump =>
      simp only [transfer] at ht
      split at ht
      case h_1 t htgt =>
        cases ht
        obtain ⟨k, hk, htgt⟩ := Option.bind_eq_some_iff.mp htgt
        exact absurd (jumpTargets_of_off hx hk htgt hlt) hnot
      case h_2 => cases ht
    | again =>
      cases ht
      exact ⟨j, hj⟩
    | raise =>
      cases hs with
      | nil => cases ht
      | cons a rest =>
        cases ht
        exact absurd (handlers_targets hreach _ (by simp) hlt) hnot
    | halt => cases ht

/-- A stream in which some reads are gone: each was fed by the constant load right before it. -/
structure Thinned (insns thin : List Insn) : Prop where
  length : thin.length = insns.length
  writes : ∀ (j : ℕ) (x y : Insn), insns[j]? = some x → thin[j]? = some y →
    y.collectWrites = x.collectWrites
  reads : ∀ (j : ℕ) (x y : Insn) (r : Reg), insns[j]? = some x → thin[j]? = some y →
    r ∈ x.collectReads → r ∈ y.collectReads ∨ ∃ i c, j = i+1 ∧ insns[i]? = some (.loadConst r c) ∧
      jumpTargets insns j = false

theorem Thinned.get {thin : List Insn} (h : Thinned insns thin) {j : ℕ} {x : Insn}
    (hx : insns[j]? = some x) : ∃ y, thin[j]? = some y := by
  have hlt := (List.getElem?_eq_some_iff.mp hx).1
  rw [← h.length] at hlt
  exact ⟨_, List.getElem?_eq_getElem hlt⟩

theorem Thinned.get' {thin : List Insn} (h : Thinned insns thin) {j : ℕ} {y : Insn}
    (hy : thin[j]? = some y) : ∃ x, insns[j]? = some x := by
  have hlt := (List.getElem?_eq_some_iff.mp hy).1
  rw [h.length] at hlt
  exact ⟨_, List.getElem?_eq_getElem hlt⟩

theorem Thinned.refl (insns : List Insn) : Thinned insns insns := by
  refine ⟨rfl, ?_, ?_⟩
  · rintro j x y hx hy
    rw [Option.some.inj (hx.symm.trans hy)]
  · rintro j x y r hx hy hr
    rw [← Option.some.inj (hx.symm.trans hy)]
    exact .inl hr

/-- What the scan of the thinned stream calls block-local is so in the stream. -/
theorem Thinned.blockLocal {thin : List Insn} (h : Thinned insns thin) (htemp : numLocals ≤ r)
    (hesc : escaping numLocals (jumpTargets insns) thin r = false) :
    BlockLocal (jumpTargets insns) insns r := by
  intro j x hx hread
  obtain ⟨y, hy⟩ := h.get hx
  rcases h.reads j x y r hx hy hread with hr | ⟨i, c, rfl, hi, ht⟩
  · obtain ⟨q, z, hq, hz, hmem, hfree⟩ := escaping_spec hesc hy hr htemp
    obtain ⟨w, hw⟩ := h.get' hz
    exact ⟨q, w, hq, hw, by rwa [← h.writes q w z hw hz], hfree⟩
  · refine ⟨i, _, by omega, hi, by simp [Insn.collectWrites.eq_def], ?_⟩
    intro t h1 h2
    obtain rfl : t = i+1 := by omega
    exact ht

/-- A constant load that the scan calls dead is not read by fall-through from behind its use. -/
theorem Thinned.not_read {thin : List Insn} (h : Thinned insns thin) {i c : ℕ}
    (hload : thin[i]? = some (.loadConst r c)) (huse : ∀ a b, insns[i+1]? ≠ some (.loadConst a b))
    (hd : loadConstDeadAfterUse numLocals (jumpTargets insns) thin i) :
    BlockLocal (jumpTargets insns) insns r ∧
      ∀ j, jumpTargets insns (i+2) = false → ¬StraightRead (jumpTargets insns) insns r (i+2) j := by
  simp only [loadConstDeadAfterUse, hload] at hd
  split at hd
  case isFalse => cases hd
  case isTrue hc =>
    obtain ⟨hlen, htemp, hesc⟩ := hc
    refine ⟨h.blockLocal htemp hesc, ?_⟩
    rintro j hnt ⟨hle, ⟨x, hx, hread⟩, hunwritten, hinside⟩
    obtain ⟨y, hy⟩ := h.get hx
    have hjlt := (List.getElem?_eq_some_iff.mp hy).1
    have hdrop : ∀ k, (thin.drop (i+2))[k]? = thin[i+2+k]? := fun k => List.getElem?_drop
    have hspec := @upcomingFrom_spec (jumpTargets insns) r thin.length (i+2) (thin.drop (i+2))
      (by simp; omega) j hle hjlt
    rcases h.reads j x y r hx hy hread with hr | ⟨i', c', rfl, hi', -⟩
    · have h1 := hspec.1 ⟨y, by rw [hdrop, Nat.add_sub_cancel' hle, hy], hr⟩
      have h2 := hspec.2.1 (by
        intro k z hk hz
        rw [hdrop] at hz
        obtain ⟨w, hw⟩ := h.get' hz
        rw [h.writes _ w z hw hz]
        exact hunwritten _ w (by omega) (by omega) hw)
      have h3 := hspec.2.2 (by
        intro t ht1 ht2
        rcases ht1.lt_or_eq with ht1 | rfl
        · exact hinside t ht1 ht2
        · exact hnt)
      simp only [upcoming, Bool.not_eq_true'] at hd
      rcases Bool.and_eq_false_iff.mp hd with hfar | hwritten
      · exact of_decide_eq_false hfar (lt_of_le_of_lt h1 h3)
      · exact of_decide_eq_false hwritten (h1.trans h2)
    · rcases Nat.lt_or_ge i' (i+2) with hlt | hge
      · obtain rfl : i' = i+1 := by omega
        exact huse r c' hi'
      · exact hunwritten i' _ hge (by omega) hi' (by simp [Insn.collectWrites.eq_def])

end paths

end Pyrust.RegisterLiveness
