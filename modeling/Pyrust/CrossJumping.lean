import Pyrust.CompactionRuns
import Pyrust.CopyPropagation
import Pyrust.ExceptionTable

/-!
# Cross-jumping

Two blocks that end in the same instructions share one copy of them: the later
copy is dropped and its terminator becomes a jump to the earlier one. Each round
merges one pair of tails and the rounds repeat until no pair is left. Tails are
compared with their active handlers, source lines and column spans.
-/

set_option autoImplicit false

namespace Pyrust.CrossJumping

open Bytecode Machine Compaction CompactionRuns ControlGraph Simulation ExceptionTable
open CopyPropagation (targetOff isTarget isTarget_of_off targetOff_of_jump)

abbrev CaretSpan := ℕ × ℕ × ℕ × ℕ

/-- A stream with the source line and the column span of each instruction. A line of zero stands
for the last line before it. -/
structure Listing where
  insns : List Insn
  linenos : List ℕ
  cols : List CaretSpan
  deriving DecidableEq

def effLinesFrom : ℕ → List ℕ → List ℕ
  | _, [] => []
  | running, ln::rest =>
    let running := if ln = 0 then running else ln
    running::effLinesFrom running rest

/-- `eff_line`: the running line at each instruction. -/
def effLines (linenos : List ℕ) : List ℕ := effLinesFrom 0 linenos

/-- The pass's own `is_terminator`. -/
def endsBlock : Insn → Bool
  | .ret _ | .returnNone | .jump _ | .raiseValue _ | .raiseExceptStarResidual _ | .raiseFrom _ _
  | .raiseReRaise | .raiseAssert _ | .raiseAssertNoMsg => true
  | _ => false

/-- `has_jump_offset`. -/
def hasJumpOffset (x : Insn) : Bool := (targetOff x).isSome

/-- The backward comparison of two tails from their `step`-th instructions on. -/
def tailLenFrom (insns : List Insn) (tKeep tDup : ℕ) : ℕ → ℕ → ℕ
  | 0, _ => 0
  | fuel+1, step =>
    if 0 < step ∧ (isTarget insns (tKeep-step) ∨ isTarget insns (tDup-step)) then 0
    else match insns[tKeep-step]?, insns[tDup-step]? with
      | some x, some y =>
        if x = y ∧ hasJumpOffset x = false then 1+tailLenFrom insns tKeep tDup fuel (step+1) else 0
      | _, _ => 0

def tailLen (insns : List Insn) (tKeep tDup : ℕ) : ℕ := tailLenFrom insns tKeep tDup (tKeep+1) 0

def minTail : ℕ := 2

/-- A pair of equal tails: the terminators and the common length. -/
structure Merge where
  tKeep : ℕ
  tDup : ℕ
  len : ℕ
  deriving DecidableEq

def Merge.keepStart (m : Merge) : ℕ := m.tKeep+1-m.len
def Merge.dupStart (m : Merge) : ℕ := m.tDup+1-m.len

/-- The pairs of corresponding instructions have the same handlers, both known. -/
def sameHandlers (stackIn : StackIn) (m : Merge) : Bool :=
  (List.range m.len).all fun step => match stackIn[m.tKeep-step]?, stackIn[m.tDup-step]? with
    | some (some a), some (some b) => a = b
    | _, _ => false

def sameSource (L : Listing) (m : Merge) : Bool :=
  (List.range m.len).all fun step =>
    (effLines L.linenos)[m.tKeep-step]? = (effLines L.linenos)[m.tDup-step]? ∧
      L.cols[m.tKeep-step]? = L.cols[m.tDup-step]?

/-- `i32::MIN ≤ offset ≤ i32::MAX`. -/
def fitsI32 (k : ℤ) : Bool := -2^31 ≤ k ∧ k < 2^31

/-- The offset of the jump that replaces the duplicate's terminator. -/
def Merge.offset (m : Merge) : ℤ := (m.keepStart : ℤ)-m.tDup-1

def mergeable (L : Listing) (stackIn : StackIn) (tKeep tDup : ℕ) : Option Merge :=
  let m : Merge := ⟨tKeep, tDup, tailLen L.insns tKeep tDup⟩
  if tDup ≤ tKeep ∨ m.len < minTail then none
  else if (List.range' m.dupStart (tDup-m.dupStart)).any (isTarget L.insns) then none
  else if m.keepStart = m.dupStart then none
  else if sameHandlers stackIn m && sameSource L m && fitsI32 m.offset then some m
  else none

def terminators (insns : List Insn) : List ℕ :=
  (List.range insns.length).filter fun i => (insns[i]?).any endsBlock

/-- The first pair of tails to merge, in the order of the two loops. -/
def findMerge (L : Listing) : Option Merge :=
  if L.insns.length < minTail*2 then none
  else match analyzeActiveHandlerStacks L.insns with
    | none => none
    | some stackIn =>
      (terminators L.insns).findSome? fun tKeep =>
        (terminators L.insns).findSome? fun tDup => mergeable L stackIn tKeep tDup

def Merge.mask (m : Merge) (n : ℕ) : List Bool :=
  (List.range n).map fun i => !(m.dupStart ≤ i && i < m.tDup)

/-- Keep the entries of a table that the mask keeps. -/
def filterBy {α : Type} (keep : List Bool) (xs : List α) : List α :=
  ((xs.zip keep).filter Prod.snd).map Prod.fst

def Merge.transformed (m : Merge) (insns : List Insn) : List Insn :=
  insns.set m.tDup (.jump m.offset)

def Merge.apply (m : Merge) (L : Listing) : Listing where
  insns := compact (m.transformed L.insns) (m.mask L.insns.length)
  linenos := filterBy (m.mask L.insns.length) L.linenos
  cols := filterBy (m.mask L.insns.length) L.cols

def passCrossJumpOnce (L : Listing) : Listing × Bool :=
  match findMerge L with
  | some m => (m.apply L, true)
  | none => (L, false)

/-- The fixed-point loop. The fuel bounds the number of rounds. -/
def crossJumpLoop : ℕ → Listing → Listing
  | 0, L => L
  | fuel+1, L => match passCrossJumpOnce L with
    | (L', true) => crossJumpLoop fuel L'
    | (L', false) => L'

/-- `Vec::resize`. -/
def resize {α : Type} (n : ℕ) (fill : α) (xs : List α) : List α :=
  (xs ++ List.replicate n fill).take n

def listing (insns : List Insn) (linenos : List ℕ) (cols : List CaretSpan) : Listing :=
  ⟨insns, resize insns.length 0 linenos, resize insns.length (0, 0, 0, 0) cols⟩

def passCrossJump (insns : List Insn) (linenos : List ℕ) (cols : List CaretSpan) : List Insn :=
  (crossJumpLoop insns.length (listing insns linenos cols)).insns

section tails
variable {insns : List Insn} {tKeep tDup : ℕ}

theorem tailLenFrom_spec (fuel step : ℕ) {k : ℕ}
    (hk : k < tailLenFrom insns tKeep tDup fuel step) :
    k < fuel ∧ (0 < step+k → isTarget insns (tKeep-(step+k)) = false ∧
        isTarget insns (tDup-(step+k)) = false) ∧
      ∃ x, insns[tKeep-(step+k)]? = some x ∧ insns[tDup-(step+k)]? = some x ∧
        hasJumpOffset x = false := by
  induction fuel generalizing step k with
  | zero => simp [tailLenFrom] at hk
  | succ fuel ih =>
    rw [tailLenFrom] at hk
    split at hk
    case isTrue => omega
    case isFalse hno =>
      simp only [not_and, not_or, Bool.not_eq_true] at hno
      split at hk
      case h_2 => omega
      case h_1 x y hx hy =>
        split at hk
        case isFalse => omega
        case isTrue hxy =>
          obtain ⟨rfl, hoff⟩ := hxy
          cases k with
          | zero =>
            refine ⟨by omega, ?_, x, hx, hy, hoff⟩
            intro hpos
            simpa using hno hpos
          | succ k =>
            have h := ih (step+1) (show k < _ by omega)
            rw [show step+1+k = step+(k+1) by omega] at h
            exact ⟨by omega, h.2⟩

/-- What the backward comparison has checked. -/
theorem tailLen_spec {k : ℕ} (hk : k < tailLen insns tKeep tDup) :
    k ≤ tKeep ∧ (0 < k → isTarget insns (tKeep-k) = false ∧ isTarget insns (tDup-k) = false) ∧
      ∃ x, insns[tKeep-k]? = some x ∧ insns[tDup-k]? = some x ∧ hasJumpOffset x = false := by
  have h := tailLenFrom_spec (tKeep+1) 0 hk
  simp only [zero_add] at h
  exact ⟨by omega, h.2⟩

theorem tailLen_le : tailLen insns tKeep tDup ≤ tKeep+1 := by
  by_contra hcon
  have hlt : tKeep+1 < tailLen insns tKeep tDup := by omega
  have h := (tailLen_spec hlt).1
  omega

end tails

section merges
variable {L : Listing}

/-- What the pass has checked of a pair of tails it merges. -/
structure Valid (L : Listing) (m : Merge) : Prop where
  two_le : 2 ≤ m.len
  lt : m.tKeep < m.tDup
  len_le : m.len ≤ m.tKeep+1
  dup_lt : m.tDup < L.insns.length
  terminator : ∃ x, L.insns[m.tDup]? = some x ∧ endsBlock x ∧ targetOff x = none
  keep_terminator : ∃ x, L.insns[m.tKeep]? = some x ∧ endsBlock x
  same : ∀ j < m.len, ∃ x, L.insns[m.keepStart+j]? = some x ∧ L.insns[m.dupStart+j]? = some x ∧
    targetOff x = none
  entry : ∀ i, m.dupStart ≤ i → i < m.tDup → isTarget L.insns i = false
  handlers : ∃ stackIn, analyzeActiveHandlerStacks L.insns = some stackIn ∧
    ∀ j < m.len, ∃ a, Assigned stackIn (m.dupStart+j) a
  lines : ∀ j < m.len, (effLines L.linenos)[m.keepStart+j]? = (effLines L.linenos)[m.dupStart+j]? ∧
    L.cols[m.keepStart+j]? = L.cols[m.dupStart+j]?

theorem mem_terminators {insns : List Insn} {t : ℕ} (h : t ∈ terminators insns) :
    t < insns.length ∧ ∃ x, insns[t]? = some x ∧ endsBlock x := by
  rw [terminators, List.mem_filter, List.mem_range] at h
  refine ⟨h.1, insns[t], List.getElem?_eq_getElem h.1, ?_⟩
  have h2 := h.2
  rw [List.getElem?_eq_getElem h.1] at h2
  exact h2

theorem mergeable_eq {stackIn : StackIn} {tKeep tDup : ℕ} {m : Merge}
    (h : mergeable L stackIn tKeep tDup = some m) :
    m = ⟨tKeep, tDup, tailLen L.insns tKeep tDup⟩ ∧ tKeep < tDup ∧ 2 ≤ m.len ∧
      (∀ i, m.dupStart ≤ i → i < m.tDup → isTarget L.insns i = false) ∧
      sameHandlers stackIn m ∧ sameSource L m := by
  rw [mergeable] at h
  split at h
  case isTrue => cases h
  case isFalse hlt =>
    split at h
    case isTrue => cases h
    case isFalse hent =>
      split at h
      case isTrue => cases h
      case isFalse =>
        split at h
        case isFalse => cases h
        case isTrue hall =>
          cases h
          simp only [Bool.and_eq_true] at hall
          simp only [not_or, not_le, not_lt, minTail] at hlt
          refine ⟨rfl, hlt.1, hlt.2, ?_, hall.1.1, hall.1.2⟩
          intro i h1 h2
          simp only [List.any_eq_true, not_exists, not_and, Bool.not_eq_true] at hent
          apply hent i
          rw [List.mem_range'_1]
          simp only at h2 ⊢
          omega

theorem findMerge_valid {m : Merge} (h : findMerge L = some m) : Valid L m := by
  rw [findMerge] at h
  split at h
  case isTrue => cases h
  case isFalse =>
    split at h
    case h_1 => cases h
    case h_2 stackIn hst =>
      obtain ⟨tKeep, hk, h⟩ := List.exists_of_findSome?_eq_some h
      obtain ⟨tDup, hd, h⟩ := List.exists_of_findSome?_eq_some h
      obtain ⟨hm, hlt, htwo, hent, hsame, hsrc⟩ := mergeable_eq h
      obtain ⟨hdlt, x, hx, hxt⟩ := mem_terminators hd
      have hle : m.len ≤ tKeep+1 := by
        rw [hm]
        exact tailLen_le
      have hkeep : m.tKeep = tKeep := by rw [hm]
      have hdup : m.tDup = tDup := by rw [hm]
      have hlen : m.len = tailLen L.insns tKeep tDup := by rw [hm]
      -- the tails are numbered from their starts, the comparison from their ends
      have hk' : ∀ j < m.len, m.keepStart+j = tKeep-(m.len-1-j) ∧ m.dupStart+j = tDup-(m.len-1-j) ∧
          m.len-1-j < m.len := by
        intro j hj
        simp only [Merge.keepStart, Merge.dupStart]
        omega
      refine ⟨htwo, by omega, by omega, by omega, ?_, ?_, ?_, hent, ⟨stackIn, hst, ?_⟩, ?_⟩
      · have hpos : 0 < tailLen L.insns tKeep tDup := by omega
        obtain ⟨-, -, y, -, hy, hoff⟩ := tailLen_spec hpos
        rw [Nat.sub_zero, hx] at hy
        cases hy
        exact ⟨x, by rw [hdup, hx], hxt, by simpa [hasJumpOffset] using hoff⟩
      · rw [hkeep]
        exact (mem_terminators hk).2
      · intro j hj
        obtain ⟨h1, h2, h3⟩ := hk' j hj
        rw [hlen] at h3
        obtain ⟨-, -, y, hy1, hy2, hoff⟩ := tailLen_spec h3
        rw [h1, h2, hlen]
        exact ⟨y, hy1, hy2, by simpa [hasJumpOffset] using hoff⟩
      · intro j hj
        obtain ⟨h1, h2, h3⟩ := hk' j hj
        rw [sameHandlers, List.all_eq_true] at hsame
        have hstep := hsame (m.len-1-j) (List.mem_range.mpr h3)
        rw [hkeep, hdup] at hstep
        rw [h2]
        split at hstep
        case h_1 a b ha hb => exact ⟨b, hb⟩
        case h_2 => cases hstep
      · intro j hj
        obtain ⟨h1, h2, h3⟩ := hk' j hj
        rw [sameSource, List.all_eq_true] at hsrc
        have hstep := hsrc (m.len-1-j) (List.mem_range.mpr h3)
        rw [hkeep, hdup, decide_eq_true_eq] at hstep
        rw [h1, h2]
        exact hstep

end merges

section masks
variable {L : Listing} {m : Merge} {n : ℕ}

theorem Valid.starts (hv : Valid L m) :
    m.keepStart+m.len = m.tKeep+1 ∧ m.dupStart+m.len = m.tDup+1 := by
  have h1 := hv.len_le
  have h2 := hv.lt
  simp only [Merge.keepStart, Merge.dupStart]
  omega

theorem mask_length : (m.mask n).length = n := by simp [Merge.mask]

theorem mask_getElem? {i : ℕ} (hi : i < n) :
    (m.mask n)[i]? = some (!(m.dupStart ≤ i && i < m.tDup)) := by
  simp [Merge.mask, hi]

theorem mask_kept {i : ℕ} (hi : i < n) (h : i < m.dupStart ∨ m.tDup ≤ i) :
    (m.mask n)[i]? = some true := by
  rw [mask_getElem? hi]
  rcases h with h | h
  · simp [Nat.not_le.mpr h]
  · simp [Nat.not_lt.mpr h]

theorem mask_dropped {i : ℕ} (hi : i < n) (h1 : m.dupStart ≤ i) (h2 : i < m.tDup) :
    (m.mask n)[i]? = some false := by
  rw [mask_getElem? hi]
  simp [h1, h2]

theorem newPc_before {i : ℕ} (hi : i ≤ n) (h : i ≤ m.dupStart) : newPc (m.mask n) i = i := by
  induction i with
  | zero => rfl
  | succ i ih =>
    rw [newPc_succ (mask_kept (by omega) (.inl (by omega))), ih (by omega) (by omega)]
    rfl

theorem newPc_dup (hn : m.tDup < n) (hle : m.dupStart ≤ m.tDup) :
    newPc (m.mask n) m.tDup = m.dupStart := by
  rw [← newPc_skip hle fun i h1 h2 => mask_dropped (by omega) h1 h2, newPc_before (by omega) le_rfl]

theorem newPc_after (hle : m.dupStart ≤ m.tDup) {i : ℕ} (hi : i ≤ n) (h : m.tDup ≤ i)
    (hn : m.tDup < n) : newPc (m.mask n) i+(m.tDup-m.dupStart) = i := by
  induction i, h using Nat.le_induction with
  | base =>
    rw [newPc_dup hn hle]
    omega
  | succ i h ih =>
    rw [newPc_succ (mask_kept (by omega) (.inr h))]
    have := ih (by omega)
    simp only [if_true]
    omega

theorem Valid.dup_le (hv : Valid L m) : m.dupStart ≤ m.tDup := by
  have := hv.starts
  have := hv.two_le
  omega

theorem transformed_length : (m.transformed L.insns).length = L.insns.length := by
  simp [Merge.transformed]

theorem transformed_getElem? {i : ℕ} (h : i ≠ m.tDup) :
    (m.transformed L.insns)[i]? = L.insns[i]? := by
  rw [Merge.transformed, List.getElem?_set_ne h.symm]

theorem apply_length (hv : Valid L m) :
    (m.apply L).insns.length+(m.tDup-m.dupStart) = L.insns.length := by
  have hlen : (m.mask L.insns.length).length = (m.transformed L.insns).length := by
    rw [mask_length, transformed_length]
  show (compact _ _).length+_ = _
  rw [compact_length hlen, transformed_length]
  exact newPc_after hv.dup_le le_rfl hv.dup_lt.le hv.dup_lt

/-- Each round shortens the stream. -/
theorem apply_shorter (hv : Valid L m) : (m.apply L).insns.length < L.insns.length := by
  have h := apply_length hv
  have h1 := hv.starts
  have h2 := hv.two_le
  omega

/-- The loop ends where no pair of tails is left to merge. -/
theorem crossJumpLoop_fixpoint {fuel : ℕ} {L : Listing} (h : L.insns.length ≤ fuel) :
    passCrossJumpOnce (crossJumpLoop fuel L) = (crossJumpLoop fuel L, false) := by
  induction fuel generalizing L with
  | zero =>
    have hlen : L.insns.length < minTail*2 := by simp [minTail]; omega
    simp [crossJumpLoop, passCrossJumpOnce, findMerge, hlen]
  | succ fuel ih =>
    rw [crossJumpLoop]
    cases hm : findMerge L with
    | none => simp [passCrossJumpOnce, hm]
    | some m =>
      have hshort := apply_shorter (findMerge_valid hm)
      simp only [passCrossJumpOnce, hm]
      exact ih (by omega)

end masks

section overlap
variable {insns : List Insn}

/-- The instruction is the first one or at the end of an edge. -/
def Entered (insns : List Insn) (pc : ℕ) : Prop :=
  pc = 0 ∨ ∃ q x current stack, insns[q]? = some x ∧ (pc, stack) ∈ successors q current x

theorem analyzeLoop_entered {fuel : ℕ} {S S' : StackIn} {work : List ℕ}
    (hS : ∀ pc a, Assigned S pc a → Entered insns pc)
    (h : analyzeLoop insns fuel (S, work) = some S') :
    ∀ pc a, Assigned S' pc a → Entered insns pc := by
  induction fuel generalizing S work with
  | zero => cases h
  | succ fuel ih =>
    cases work with
    | nil =>
      cases h
      exact hS
    | cons q work =>
      rw [analyzeLoop] at h
      split at h
      case h_2 => cases h
      case h_1 x current hx hc =>
        cases hf : (successors q current x).foldlM propagate (S, work) with
        | none => simp [hf] at h
        | some st =>
          obtain ⟨S₁, work₁⟩ := st
          apply ih _ (by simpa [hf] using h)
          intro pc a ha
          rcases (foldlM_grown hf).fresh ha with ha | ⟨he, -⟩
          · exact hS pc a ha
          · exact .inr ⟨q, x, current, a, hx, he⟩

theorem analyze_entered {S : StackIn} (h : analyzeActiveHandlerStacks insns = some S) {pc : ℕ}
    {a : List ℕ} (ha : Assigned S pc a) : Entered insns pc := by
  cases insns with
  | nil =>
    cases h
    simp [Assigned] at ha
  | cons x rest =>
    apply analyzeLoop_entered _ h pc a ha
    intro q b hb
    cases q with
    | zero => exact .inl rfl
    | succ q => simp [Assigned, List.getElem?_replicate] at hb

theorem successors_edge {q t : ℕ} {current stack : List ℕ} {x : Insn}
    (hlate : x.isLateStageGuardInsn = false) (h : (t, stack) ∈ successors q current x) :
    t = q+1 ∧ endsBlock x = false ∨ ∃ k, targetOff x = some k ∧ jumpTarget q k = t := by
  cases x
  all_goals first
    | exact absurd h List.not_mem_nil
    | simp only [successors.eq_def, List.mem_cons, List.not_mem_nil, or_false, Prod.mk.injEq] at h
      first
        | exact .inl ⟨h.1, rfl⟩
        | exact .inr ⟨_, rfl, h.1.symm⟩
        | rcases h with h | h
          · first
              | exact .inl ⟨h.1, rfl⟩
              | exact .inr ⟨_, rfl, h.1.symm⟩
          · first
              | exact .inl ⟨h.1, rfl⟩
              | exact .inr ⟨_, rfl, h.1.symm⟩
    | cases hlate

/-- A reachable instruction that is no jump target is fallen into. -/
theorem entered_falls (hlate : ∀ x ∈ insns, x.isLateStageGuardInsn = false) {pc : ℕ}
    (h : Entered insns pc) (ht : isTarget insns pc = false) :
    ∃ q x, pc = q+1 ∧ insns[q]? = some x ∧ endsBlock x = false := by
  rcases h with rfl | ⟨q, x, current, stack, hx, he⟩
  · simp [isTarget] at ht
  · rcases successors_edge (hlate x (List.mem_of_getElem? hx)) he with ⟨rfl, hb⟩ | ⟨k, hk, hj⟩
    · exact ⟨q, x, rfl, hx, hb⟩
    · have htrue : isTarget insns pc = true := by
        rw [isTarget, Bool.or_eq_true, List.any_eq_true]
        right
        exact ⟨(x, q), List.mem_zipIdx_iff_getElem?.mpr (by simpa using hx), by simp [hk, hj]⟩
      rw [htrue] at ht
      cases ht

/-- The two tails do not overlap: the kept terminator would cut the duplicate in two. -/
theorem Valid.apart {L : Listing} {m : Merge} (hv : Valid L m)
    (hlate : ∀ x ∈ L.insns, x.isLateStageGuardInsn = false)
    (ht : isTarget L.insns m.tDup = false) : m.tKeep < m.dupStart := by
  by_contra hcon
  have hst := hv.starts
  have hlt := hv.lt
  obtain ⟨stackIn, han, hass⟩ := hv.handlers
  obtain ⟨a, ha⟩ := hass (m.tKeep+1-m.dupStart) (by omega)
  rw [show m.dupStart+(m.tKeep+1-m.dupStart) = m.tKeep+1 by omega] at ha
  have htar : isTarget L.insns (m.tKeep+1) = false := by
    by_cases hlast : m.tKeep+1 = m.tDup
    · rw [hlast, ht]
    · exact hv.entry _ (by omega) (by omega)
  obtain ⟨q, x, hq, hx, hb⟩ := entered_falls hlate (analyze_entered han ha) htar
  obtain ⟨y, hy, hyb⟩ := hv.keep_terminator
  obtain rfl : m.tKeep = q := by omega
  rw [hx] at hy
  cases hy
  rw [hyb] at hb
  cases hb

end overlap

section round
variable {L : Listing} {m : Merge}

/-- The old position of a new one. -/
def Merge.origin (m : Merge) (q : ℕ) : ℕ :=
  if q < m.dupStart then q else q+(m.tDup-m.dupStart)

/-- Away from the dropped tail. -/
def Outside (L : Listing) (m : Merge) (pc : ℕ) : Prop :=
  pc ≤ L.insns.length ∧ (pc < m.dupStart ∨ m.tDup < pc)

theorem Valid.origin_outside (hv : Valid L m) {pc : ℕ} (h : Outside L m pc) :
    m.origin (newPc (m.mask L.insns.length) pc) = pc := by
  have hle := hv.dup_le
  have hlt := hv.dup_lt
  rcases h.2 with hpc | hpc
  · rw [newPc_before h.1 hpc.le, Merge.origin, if_pos hpc]
  · have hnew := newPc_after hle h.1 hpc.le hlt
    rw [Merge.origin, if_neg (by omega), hnew]

theorem Valid.newPc_outside (hv : Valid L m) {pc : ℕ} (h : Outside L m pc) :
    newPc (m.mask L.insns.length) pc ≠ m.dupStart := by
  have hle := hv.dup_le
  have hlt := hv.dup_lt
  rcases h.2 with hpc | hpc
  · rw [newPc_before h.1 hpc.le]
    omega
  · have hnew := newPc_after hle h.1 hpc.le hlt
    omega

/-- Where the output stands while the input is at a position: at its image, at the jump that
replaces the duplicate, or at the same instruction of the kept tail. -/
inductive Place (L : Listing) (m : Merge) : ℕ → ℕ → Prop
  | outside {pc : ℕ} : Outside L m pc → Place L m pc (newPc (m.mask L.insns.length) pc)
  | entering : Place L m m.dupStart m.dupStart
  | inside {j : ℕ} : j < m.len → Place L m (m.dupStart+j) (m.keepStart+j)

/-- Every visit but that of an unconditional jump. -/
def watch (label : ℕ → ℕ) : Observer := fun pc x => match x with
  | .jump _ => none
  | _ => some (label pc)

@[simp] theorem watch_fixOff (label : ℕ → ℕ) (fix : ℤ → ℤ) (pc : ℕ) (x : Insn) :
    watch label pc (x.fixOff fix) = watch label pc x := by
  cases x <;> rfl

theorem watch_congr {label label' : ℕ → ℕ} {pc pc' : ℕ} (h : label pc = label' pc') (x : Insn) :
    watch label pc x = watch label' pc' x := by
  unfold watch
  rw [h]

/-- The conditions under which a round is sound. -/
structure Ready (L : Listing) (m : Merge) : Prop where
  valid : Valid L m
  inRange : InRange L.insns
  early : ∀ x ∈ L.insns, x.isLateStageGuardInsn = false
  terminator_free : isTarget L.insns m.tDup = false

theorem Ready.apart (h : Ready L m) : m.tKeep < m.dupStart :=
  h.valid.apart h.early h.terminator_free

theorem Ready.target_outside (h : Ready L m) {pc t : ℕ} {x : Insn} {k : ℤ}
    (hx : L.insns[pc]? = some x) (hk : x.jumpOff = some k)
    (ht : target L.insns.length pc k = some t) : Outside L m t := by
  have hoff := targetOff_of_jump (h.early x (List.mem_of_getElem? hx)) hk
  have htar := isTarget_of_off hx hoff ht
  constructor
  · have hle := (target_eq h.inRange hx hk)
    rw [ht] at hle
    rw [Option.some.inj hle.1]
    exact hle.2
  · by_contra hcon
    have hin : m.dupStart ≤ t ∧ t ≤ m.tDup := by omega
    rcases hin.2.lt_or_eq with hlt | heq
    · rw [h.valid.entry t hin.1 hlt] at htar
      cases htar
    · rw [heq, h.terminator_free] at htar
      cases htar

theorem Ready.transformed_inRange (h : Ready L m) : InRange (m.transformed L.insns) := by
  intro pc x k hx hk
  rw [transformed_length]
  by_cases hpc : pc = m.tDup
  · subst hpc
    rw [Merge.transformed, List.getElem?_set_self h.valid.dup_lt] at hx
    cases hx
    cases hk
    have h1 := h.valid.starts
    have h2 := h.valid.lt
    have h3 := h.valid.dup_lt
    have h4 := h.valid.two_le
    simp only [Merge.offset]
    omega
  · rw [transformed_getElem? hpc] at hx
    exact h.inRange pc x k hx hk

theorem mask_transformed : (m.mask L.insns.length).length = (m.transformed L.insns).length := by
  rw [mask_length, transformed_length]

/-- The output at the image of a position outside the duplicate. -/
theorem apply_outside (hv : Valid L m) {pc : ℕ} {x : Insn} (ho : Outside L m pc)
    (hx : L.insns[pc]? = some x) :
    (m.apply L).insns[newPc (m.mask L.insns.length) pc]? =
      some (rewriteOffsets x pc (toNew (m.mask L.insns.length))) := by
  have hlt : pc < L.insns.length := (List.getElem?_eq_some_iff.mp hx).1
  have hle := hv.dup_le
  have hpc := ho.2
  apply compact_getElem? mask_transformed
  · rw [transformed_getElem? (by omega), hx]
  · exact mask_kept hlt (ho.2.imp_right Nat.le_of_lt)

theorem jumpOff_of_targetOff {x : Insn} (hlate : x.isLateStageGuardInsn = false)
    (h : targetOff x = none) : x.jumpOff = none := by
  cases hk : x.jumpOff with
  | none => rfl
  | some k =>
    rw [targetOff_of_jump hlate hk] at h
    cases h

theorem rewriteOffsets_plain {x : Insn} (h : x.jumpOff = none) (pc : ℕ) (toNew : List ℕ) :
    rewriteOffsets x pc toNew = x := by
  cases x <;> first | rfl | cases h

/-- The output at an instruction of the kept tail. -/
theorem Ready.apply_inside (h : Ready L m) {j : ℕ} (hj : j < m.len) :
    ∃ x, L.insns[m.dupStart+j]? = some x ∧ L.insns[m.keepStart+j]? = some x ∧ x.jumpOff = none ∧
      (m.apply L).insns[m.keepStart+j]? = some x ∧ m.origin (m.keepStart+j) = m.keepStart+j := by
  obtain ⟨x, hk, hd, hoff⟩ := h.valid.same j hj
  have hjump := jumpOff_of_targetOff (h.early x (List.mem_of_getElem? hk)) hoff
  have hst := h.valid.starts
  have hap := h.apart
  have hlt : m.keepStart+j < L.insns.length := (List.getElem?_eq_some_iff.mp hk).1
  have hout : Outside L m (m.keepStart+j) := ⟨hlt.le, .inl (by omega)⟩
  have hnew : newPc (m.mask L.insns.length) (m.keepStart+j) = m.keepStart+j :=
    newPc_before hlt.le (by omega)
  have hget := apply_outside h.valid hout hk
  have horigin := h.valid.origin_outside hout
  rw [hnew, rewriteOffsets_plain hjump] at hget
  rw [hnew] at horigin
  exact ⟨x, hd, hk, hjump, hget, horigin⟩

variable {Val World : Type*} {sem : Sem Val World} {numLocals : ℕ}

structure Rel (L : Listing) (m : Merge) (s t : State Val World) : Prop where
  place : Place L m s.pc t.pc
  regs : t.regs = s.regs
  world : t.world = s.world
  handlers : t.handlers = s.handlers.map (newPc (m.mask L.insns.length))
  outside : ∀ h ∈ s.handlers, Outside L m h

/-- Only the jump that replaces the duplicate is an extra step. -/
def extraStep (m : Merge) (s t : Option (State Val World)) : ℕ :=
  match s, t with
  | some s, some t => if s.pc = m.dupStart ∧ t.pc = m.dupStart then 1 else 0
  | _, _ => 0

theorem endsBlock_next {x : Insn} (h : endsBlock x) : canFlow x .next = false := by
  unfold endsBlock at h
  split at h <;> first | rfl | cases h

/-- Falling through from outside leads outside or to the start of the duplicate. -/
theorem place_next {pc : ℕ} (ho : Outside L m pc) (hlt : pc < L.insns.length) :
    Place L m (pc+1) (newPc (m.mask L.insns.length) pc+1) := by
  have hkept := mask_kept hlt (ho.2.imp_right Nat.le_of_lt)
  have hsucc := newPc_succ hkept
  simp only [if_true] at hsucc
  rw [← hsucc]
  by_cases hd : pc+1 = m.dupStart
  · have hnew : newPc (m.mask L.insns.length) (pc+1) = m.dupStart := by
      rw [newPc_before (by omega) (by omega), hd]
    rw [hnew, hd]
    exact .entering
  · have hpc := ho.2
    exact .outside ⟨hlt, by omega⟩

/-- Wherever an instruction outside the duplicate leads, the output follows. -/
theorem Ready.go_outside (h : Ready L m) {pc : ℕ} {x : Insn} {f : Flow} {hs : List ℕ}
    (ho : Outside L m pc) (hx : L.insns[pc]? = some x) (hf : canFlow x f)
    (hh : ∀ a ∈ hs, Outside L m a) (regs : Regs Val) :
    Goto.Rel (fun pc hs pc' hs' => ∀ w : World, Rel L m ⟨pc, regs, w, hs⟩ ⟨pc', regs, w, hs'⟩)
      (transfer ⟨L.insns, []⟩ pc hs x f)
      (transfer ⟨(m.apply L).insns, []⟩ (newPc (m.mask L.insns.length) pc)
        (hs.map (newPc (m.mask L.insns.length)))
        (rewriteOffsets x pc (toNew (m.mask L.insns.length))) f) := by
  have hlt : pc < L.insns.length := (List.getElem?_eq_some_iff.mp hx).1
  have hkept := mask_kept hlt (ho.2.imp_right Nat.le_of_lt)
  have hsucc := newPc_succ hkept
  simp only [if_true] at hsucc
  have hxt : (m.transformed L.insns)[pc]? = some x := by
    have hpc := ho.2
    have hle := h.valid.dup_le
    rw [transformed_getElem? (by omega), hx]
  have hmap := compact_transfer mask_transformed h.transformed_inRange hxt hkept hf hs
  have hlen : (m.transformed L.insns).length = L.insns.length := transformed_length
  rw [transfer_congr hlen] at hmap
  show Goto.Rel _ _ (transfer ⟨compact _ _, []⟩ _ _ _ _)
  rw [hmap]
  have hnext : Place L m (pc+1) (newPc (m.mask L.insns.length) (pc+1)) := by
    rw [hsucc]
    exact place_next ho hlt
  cases f with
  | next =>
    rcases mark_cases x with ⟨k, rfl⟩ | rfl | hmark
    · simp only [transfer, (target_eq h.inRange hx rfl).1, Goto.map]
      refine .goto fun w => ⟨hnext, rfl, rfl, rfl, ?_⟩
      intro a ha
      rcases List.mem_cons.mp ha with rfl | ha
      · exact h.target_outside hx rfl (target_eq h.inRange hx rfl).1
      · exact hh a ha
    · refine .goto fun w => ⟨hnext, rfl, rfl, rfl, ?_⟩
      intro a ha
      exact hh a (List.mem_of_mem_tail ha)
    · rw [transfer_next hmark]
      exact .goto fun w => ⟨hnext, rfl, rfl, rfl, hh⟩
  | jump =>
    obtain ⟨k, hk⟩ := jumpOff_of_jump hf
    have htk := (target_eq h.inRange hx hk).1
    simp only [transfer, hk, Option.bind_some, htk, Goto.map]
    exact .goto fun w => ⟨.outside (h.target_outside hx hk htk), rfl, rfl, rfl, hh⟩
  | again => exact .goto fun w => ⟨.outside ho, rfl, rfl, rfl, hh⟩
  | raise =>
    cases hs with
    | nil => exact .finish .escaped
    | cons a rest =>
      exact .goto fun w => ⟨.outside (hh a (by simp)), rfl, rfl, rfl, fun b hb => hh b (by simp [hb])⟩
  | halt => exact .finish .returned

/-- An instruction of the duplicate goes on as the same instruction of the kept tail does. -/
theorem Ready.go_inside (h : Ready L m) {j : ℕ} (hj : j < m.len) {x : Insn} {f : Flow}
    {hs : List ℕ} (hx : L.insns[m.dupStart+j]? = some x) (hoff : x.jumpOff = none)
    (hf : canFlow x f) (hh : ∀ a ∈ hs, Outside L m a) (regs : Regs Val) :
    Goto.Rel (fun pc hs pc' hs' => ∀ w : World, Rel L m ⟨pc, regs, w, hs⟩ ⟨pc', regs, w, hs'⟩)
      (transfer ⟨L.insns, []⟩ (m.dupStart+j) hs x f)
      (transfer ⟨(m.apply L).insns, []⟩ (m.keepStart+j)
        (hs.map (newPc (m.mask L.insns.length))) x f) := by
  have hst := h.valid.starts
  cases f with
  | next =>
    -- the last instruction of a tail is a terminator and does not fall through
    have hnot : j+1 < m.len := by
      by_contra hcon
      obtain ⟨y, hy, hyb, -⟩ := h.valid.terminator
      rw [show m.dupStart+j = m.tDup by omega, hy] at hx
      cases hx
      rw [endsBlock_next hyb] at hf
      cases hf
    have hnext : Place L m (m.dupStart+j+1) (m.keepStart+j+1) := .inside hnot
    rcases mark_cases x with ⟨k, rfl⟩ | rfl | hmark
    · cases hoff
    · simp only [transfer, ← List.map_tail]
      refine .goto fun w => ⟨hnext, rfl, rfl, rfl, ?_⟩
      intro a ha
      exact hh a (List.mem_of_mem_tail ha)
    · rw [transfer_next hmark, transfer_next hmark]
      exact .goto fun w => ⟨hnext, rfl, rfl, rfl, hh⟩
  | jump =>
    obtain ⟨k, hk⟩ := jumpOff_of_jump hf
    rw [hoff] at hk
    cases hk
  | again => exact .goto fun w => ⟨.inside hj, rfl, rfl, rfl, hh⟩
  | raise =>
    cases hs with
    | nil => exact .finish .escaped
    | cons a rest =>
      exact .goto fun w => ⟨.outside (hh a (by simp)), rfl, rfl, rfl, fun b hb => hh b (by simp [hb])⟩
  | halt => exact .finish .returned

/-- The jump in place of the duplicate leads to the kept tail. -/
theorem Ready.entering_step (h : Ready L m) (label : ℕ → ℕ) (regs : Regs Val) (w : World)
    (hs : List ℕ) :
    (frame sem numLocals ⟨(m.apply L).insns, []⟩ (watch label)).step
      (some ⟨m.dupStart, regs, w, hs⟩) = some ([], some ⟨m.keepStart, regs, w, hs⟩) := by
  have hle := h.valid.dup_le
  have hlt := h.valid.dup_lt
  have hst := h.valid.starts
  have hap := h.apart
  have hxt : (m.transformed L.insns)[m.tDup]? = some (.jump m.offset) := by
    rw [Merge.transformed, List.getElem?_set_self hlt]
  have hkept : (m.mask L.insns.length)[m.tDup]? = some true := mask_kept hlt (.inr le_rfl)
  have hget := compact_getElem? mask_transformed hxt hkept
  have htar := compact_target mask_transformed h.transformed_inRange hxt rfl
  have hland : jumpTarget m.tDup m.offset = m.keepStart := by
    have hsum : (m.tDup : ℤ)+1+m.offset = m.keepStart := by
      rw [Merge.offset]
      omega
    simp [jumpTarget, hsum]
  rw [newPc_dup hlt hle] at hget htar
  rw [hland, newPc_before (by omega) (by omega)] at htar
  exact frame_jump hget rfl htar

theorem Ready.matched (h : Ready L m) {label label' : ℕ → ℕ}
    (hlabel : ∀ pc, pc ≠ m.dupStart → label' pc = label (m.origin pc))
    (htail : ∀ j < m.len, label (m.keepStart+j) = label (m.dupStart+j)) {s t : State Val World}
    (hr : Rel L m s t) :
    Machine.Matched (frame sem numLocals ⟨L.insns, []⟩ (watch label))
      (frame sem numLocals ⟨(m.apply L).insns, []⟩ (watch label'))
      (Option.Rel (Rel L m)) (extraStep m) (some s) (some t) := by
  obtain ⟨pc, regs, w, hs⟩ := s
  obtain ⟨pc', regs', w', hs'⟩ := t
  obtain ⟨hplace, hregs, hworld, hhand, hout⟩ := hr
  simp only at hplace hregs hworld hhand hout
  subst hregs hworld hhand
  cases hplace with
  | entering =>
    have hst := h.valid.starts
    have hap := h.apart
    have hlen := h.valid.two_le
    refine .right _ (h.entering_step label' regs' w' _) (.some ⟨?_, rfl, rfl, rfl, hout⟩) ?_
    · exact .inside (j := 0) (by omega)
    · simp only [extraStep]
      rw [if_neg (by omega), if_pos (by simp)]
      omega
  | @inside j hj =>
    obtain ⟨x, hd, hk, hoff, hget, horigin⟩ := h.apply_inside hj
    refine frame_both hd hget ?_ rfl rfl ?_
    · have hst := h.valid.starts
      have hap := h.apart
      rw [visitEvents, visitEvents]
      rw [@watch_congr label' label (m.keepStart+j) (m.dupStart+j)
        (by rw [hlabel _ (by omega), horigin, htail j hj])]
    · exact h.go_inside hj hd hoff (perform_flow sem numLocals x regs' w') hout _
  | outside ho =>
    rcases ho.1.lt_or_eq with hlt | heq
    · have hx := List.getElem?_eq_getElem hlt
      have hget := apply_outside h.valid ho hx
      refine frame_both hx hget ?_ ?_ ?_ ?_
      · simp only [visitEvents, rewriteOffsets, rewriteOffsetsWith, watch_fixOff,
          Insn.fixOff_shape, operands_fixOff]
        rw [@watch_congr label' label _ pc
          (by rw [hlabel _ (h.valid.newPc_outside ho), h.valid.origin_outside ho])]
      · simp [rewriteOffsets, rewriteOffsetsWith]
      · simp [rewriteOffsets, rewriteOffsetsWith]
      · have hgo := @Ready.go_outside L m Val World h pc L.insns[pc] _ hs ho hx
          (perform_flow sem numLocals L.insns[pc] regs' w') hout
          (finishRegs numLocals L.insns[pc] (perform sem numLocals L.insns[pc] regs' w') regs')
        simpa [rewriteOffsets, rewriteOffsetsWith] using hgo
    · have hlast : newPc (m.mask L.insns.length) pc = (m.apply L).insns.length := by
        show _ = (compact _ _).length
        rw [compact_length mask_transformed, transformed_length, heq]
      refine .both _ _ _ (frame_past heq) ?_ .none
      rw [frame_past hlast]

end round

section tables
variable {L : Listing} {m : Merge}

abbrev Attribution := Option ℕ × Option CaretSpan

/-- The effective line and the column span of an instruction. -/
def attribution (L : Listing) (pc : ℕ) : Attribution :=
  ((effLines L.linenos)[pc]?, L.cols[pc]?)

theorem mask_eq {n : ℕ} (hle : m.dupStart ≤ m.tDup) (hn : m.tDup ≤ n) :
    m.mask n = List.replicate m.dupStart true ++ (List.replicate (m.tDup-m.dupStart) false ++
      List.replicate (n-m.tDup) true) := by
  apply List.ext_getElem?
  intro i
  rcases Nat.lt_or_ge i n with hi | hi
  · rw [mask_getElem? hi]
    simp only [List.getElem?_append, List.length_replicate, List.getElem?_replicate]
    by_cases h1 : i < m.dupStart
    · simp [h1]
    · by_cases h2 : i < m.tDup
      · simp [h1, h2, Nat.not_lt.mp h1, show i-m.dupStart < m.tDup-m.dupStart by omega]
      · simp [h1, h2, show ¬ i-m.dupStart < m.tDup-m.dupStart by omega,
          show i-m.dupStart-(m.tDup-m.dupStart) < n-m.tDup by omega]
  · rw [List.getElem?_eq_none (by rw [mask_length]; exact hi), List.getElem?_eq_none]
    simp only [List.length_append, List.length_replicate]
    omega

theorem filterBy_append {α : Type} {keep keep' : List Bool} {xs ys : List α}
    (h : xs.length = keep.length) :
    filterBy (keep ++ keep') (xs ++ ys) = filterBy keep xs ++ filterBy keep' ys := by
  simp [filterBy, List.zip_append h]

theorem filterBy_replicate {α : Type} (xs : List α) :
    filterBy (List.replicate xs.length true) xs = xs ∧
      filterBy (List.replicate xs.length false) xs = [] := by
  induction xs with
  | nil => simp [filterBy]
  | cons x xs ih => simp_all [filterBy, List.replicate_succ]

theorem filterBy_middle {α : Type} (a b c : List α) :
    filterBy (List.replicate a.length true ++ (List.replicate b.length false ++
      List.replicate c.length true)) (a ++ (b ++ c)) = a ++ c := by
  rw [filterBy_append (by simp), filterBy_append (by simp), (filterBy_replicate a).1,
    (filterBy_replicate b).2, (filterBy_replicate c).1, List.nil_append]

/-- A table in the part before the dropped entries, these, and the part behind them. -/
theorem split_table {α : Type} (xs : List α) (hle : m.dupStart ≤ m.tDup) (hn : m.tDup ≤ xs.length) :
    ∃ a b c, xs = a ++ (b ++ c) ∧ a.length = m.dupStart ∧ b.length = m.tDup-m.dupStart ∧
      xs.take m.dupStart = a ∧ xs.drop m.tDup = c := by
  refine ⟨xs.take m.dupStart, (xs.take m.tDup).drop m.dupStart, xs.drop m.tDup, ?_, by simp; omega,
    by simp; omega, rfl, rfl⟩
  have h1 : (xs.take m.tDup).take m.dupStart = xs.take m.dupStart := by
    rw [List.take_take, Nat.min_eq_left hle]
  rw [← List.append_assoc, ← h1, List.take_append_drop, List.take_append_drop]

/-- The mask cuts the dropped entries out of a table. -/
theorem filterBy_mask {α : Type} (xs : List α) (hle : m.dupStart ≤ m.tDup)
    (hn : m.tDup ≤ xs.length) :
    filterBy (m.mask xs.length) xs = xs.take m.dupStart ++ xs.drop m.tDup := by
  obtain ⟨a, b, c, hxs, ha, hb, htake, hdrop⟩ := split_table xs hle hn
  have hc : c.length = xs.length-m.tDup := by
    rw [← hdrop]
    simp
  rw [mask_eq hle hn, htake, hdrop, ← hb, ← hc, ← ha]
  conv_lhs => rw [hxs]
  exact filterBy_middle a b c

theorem cut_getElem? {α : Type} (xs : List α) (hle : m.dupStart ≤ m.tDup)
    (hn : m.tDup ≤ xs.length) (q : ℕ) :
    (xs.take m.dupStart ++ xs.drop m.tDup)[q]? = xs[m.origin q]? := by
  rw [Merge.origin]
  by_cases hq : q < m.dupStart
  · rw [if_pos hq, List.getElem?_append_left (by simp; omega), List.getElem?_take_of_lt hq]
  · have hlen : (xs.take m.dupStart).length = m.dupStart := by simp; omega
    rw [if_neg hq, List.getElem?_append_right (by omega), hlen, List.getElem?_drop]
    congr 1
    omega

/-- The running line behind some entries. -/
def lastLine (running : ℕ) (linenos : List ℕ) : ℕ :=
  linenos.foldl (fun r ln => if ln = 0 then r else ln) running

theorem effLinesFrom_length (r : ℕ) (xs : List ℕ) : (effLinesFrom r xs).length = xs.length := by
  induction xs generalizing r with
  | nil => rfl
  | cons x xs ih => simp [effLinesFrom, ih]

theorem effLinesFrom_append (r : ℕ) (xs ys : List ℕ) :
    effLinesFrom r (xs ++ ys) = effLinesFrom r xs ++ effLinesFrom (lastLine r xs) ys := by
  induction xs generalizing r with
  | nil => rfl
  | cons x xs ih => simp [effLinesFrom, lastLine, ih]

/-- Lines from an entry of its own on do not depend on what is before it. -/
theorem effLinesFrom_own {rest : List ℕ} (h : rest[0]? ≠ some 0) (r r' i : ℕ) :
    (effLinesFrom r rest)[i]? = (effLinesFrom r' rest)[i]? := by
  cases rest with
  | nil => rfl
  | cons ln rest =>
    have hln : ln ≠ 0 := by simpa using h
    simp [effLinesFrom, hln]

theorem effLinesFrom_own_next {rest : List ℕ} (h : rest[1]? ≠ some 0) (r r' i : ℕ) :
    (effLinesFrom r rest)[i+1]? = (effLinesFrom r' rest)[i+1]? := by
  cases rest with
  | nil => rfl
  | cons ln rest =>
    rw [effLinesFrom, effLinesFrom, List.getElem?_cons_succ, List.getElem?_cons_succ]
    exact effLinesFrom_own (by simpa using h) _ _ _

theorem effLinesFrom_last (r x : ℕ) (xs : List ℕ) :
    (effLinesFrom r (x::xs))[xs.length]? = some (lastLine r (x::xs)) := by
  induction xs generalizing r x with
  | nil => simp [effLinesFrom, lastLine]
  | cons y xs ih =>
    rw [effLinesFrom, List.length_cons, List.getElem?_cons_succ, ih]
    simp [lastLine]

/-- No entry behind the duplicate's terminator inherits its line from a dropped one: the first of
them or that of the terminator has a line of its own, or the line before the dropped entries is
the one they would have passed on. -/
def keepsLines (L : Listing) (m : Merge) : Bool :=
  L.linenos[m.tDup]? ≠ some 0 ∨ L.linenos[m.tDup+1]? ≠ some 0 ∨
    (effLines L.linenos)[m.tDup]? = (effLines L.linenos)[m.dupStart-1]?

theorem Valid.dup_pos (hv : Valid L m) : 0 < m.dupStart := by
  have hle := hv.dup_le
  have hst := hv.starts
  have htwo := hv.two_le
  by_contra hcon
  have h := hv.entry 0 (by omega) (by omega)
  simp [isTarget] at h

theorem effLines_cut (hv : Valid L m) (hlen : L.linenos.length = L.insns.length)
    (hkeep : keepsLines L m) {q : ℕ} (hne : q ≠ m.dupStart) :
    (effLines (L.linenos.take m.dupStart ++ L.linenos.drop m.tDup))[q]? =
      (effLines L.linenos)[m.origin q]? := by
  have hle := hv.dup_le
  have hlt := hv.dup_lt
  have hpos := hv.dup_pos
  obtain ⟨a, b, rest, hxs, ha, hb, htake, hdrop⟩ := split_table L.linenos hle (by omega)
  have hc : rest.length = L.linenos.length-m.tDup := by
    rw [← hdrop]
    simp
  rw [htake, hdrop, effLines, effLines, hxs, effLinesFrom_append, effLinesFrom_append,
    effLinesFrom_append]
  have hla := effLinesFrom_length 0 a
  have hlb := effLinesFrom_length (lastLine 0 a) b
  rw [Merge.origin]
  by_cases hq : q < m.dupStart
  · rw [if_pos hq, List.getElem?_append_left (by omega), List.getElem?_append_left (by omega)]
  · rw [if_neg hq, List.getElem?_append_right (by omega), List.getElem?_append_right (by omega),
      List.getElem?_append_right (by omega), hla, hlb]
    have hidx : q+(m.tDup-m.dupStart)-a.length-b.length = q-a.length := by omega
    rw [hidx]
    -- the lines behind the cut depend on what is before it only through leading zeros
    have hent : ∀ i, L.linenos[m.tDup+i]? = rest[i]? := by
      intro i
      rw [hxs, List.getElem?_append_right (by omega), List.getElem?_append_right (by omega)]
      congr 1
      omega
    by_cases hown : rest[0]? = some 0
    · rw [keepsLines, decide_eq_true_eq, hent 1] at hkeep
      rcases hkeep with hln | hln | heff
      · exact absurd hown (hent 0 ▸ hln)
      · rw [show q-a.length = q-a.length-1+1 by omega]
        exact effLinesFrom_own_next hln _ _ _
      · have hsame : lastLine (lastLine 0 a) b = lastLine 0 a := by
          rw [effLines, hxs, effLinesFrom_append, effLinesFrom_append,
            List.getElem?_append_right (by omega), List.getElem?_append_right (by omega),
            List.getElem?_append_left (by omega), hla, hlb,
            show m.tDup-a.length-b.length = 0 by omega] at heff
          cases a with
          | nil => simp at ha; omega
          | cons x a =>
            rw [show m.dupStart-1 = a.length by simp at ha; omega, effLinesFrom_last] at heff
            cases rest with
            | nil => cases hown
            | cons ln rest =>
              have hln : ln = 0 := by simpa using hown
              simpa [effLinesFrom, hln] using heff
        rw [hsame]
    · exact effLinesFrom_own hown _ _ _

/-- What a round needs of a listing besides a safe merge. -/
structure Sound (L : Listing) : Prop where
  inRange : InRange L.insns
  early : ∀ x ∈ L.insns, x.isLateStageGuardInsn = false
  lines : L.linenos.length = L.insns.length
  columns : L.cols.length = L.insns.length

theorem attribution_apply (hs : Sound L) (hv : Valid L m) (hkeep : keepsLines L m) {q : ℕ}
    (hne : q ≠ m.dupStart) :
    attribution (m.apply L) q = attribution L (m.origin q) := by
  have hlt := hv.dup_lt
  have hle := hv.dup_le
  have hl := hs.lines
  have hc := hs.columns
  have hcols : (m.apply L).cols = L.cols.take m.dupStart ++ L.cols.drop m.tDup := by
    show filterBy (m.mask L.insns.length) L.cols = _
    rw [← hc]
    exact filterBy_mask L.cols hle (by omega)
  have hlines : (m.apply L).linenos = L.linenos.take m.dupStart ++ L.linenos.drop m.tDup := by
    show filterBy (m.mask L.insns.length) L.linenos = _
    rw [← hl]
    exact filterBy_mask L.linenos hle (by omega)
  rw [attribution, attribution, hcols, hlines, effLines_cut hv hl hkeep hne,
    cut_getElem? L.cols hle (by omega)]

theorem newPc_origin (hv : Valid L m) {q : ℕ} (hq : q ≤ (m.apply L).insns.length) :
    newPc (m.mask L.insns.length) (m.origin q) = q := by
  have hlen := apply_length hv
  have hle := hv.dup_le
  have hlt := hv.dup_lt
  rw [Merge.origin]
  by_cases hd : q < m.dupStart
  · rw [if_pos hd, newPc_before (by omega) hd.le]
  · rw [if_neg hd]
    have h := newPc_after hle (i := q+(m.tDup-m.dupStart)) (n := L.insns.length) (by omega)
      (by omega) hlt
    omega

/-- Every instruction of the output comes from one that was kept. -/
theorem apply_source (hv : Valid L m) {q : ℕ} {y : Insn} (hy : (m.apply L).insns[q]? = some y) :
    ∃ x, (m.transformed L.insns)[m.origin q]? = some x ∧
      (m.mask L.insns.length)[m.origin q]? = some true ∧
      newPc (m.mask L.insns.length) (m.origin q) = q ∧
      y = rewriteOffsets x (m.origin q) (toNew (m.mask L.insns.length)) := by
  have hq : q < (m.apply L).insns.length := (List.getElem?_eq_some_iff.mp hy).1
  have hlen := apply_length hv
  have hle := hv.dup_le
  have hlt : m.origin q < L.insns.length := by
    rw [Merge.origin]
    split <;> omega
  have hkept : (m.mask L.insns.length)[m.origin q]? = some true := by
    apply mask_kept hlt
    rw [Merge.origin]
    split <;> omega
  have hin : m.origin q < (m.transformed L.insns).length := by
    rw [transformed_length]
    exact hlt
  have hx := List.getElem?_eq_getElem hin
  have hnew := newPc_origin hv hq.le
  have hget := compact_getElem? mask_transformed hx hkept
  rw [hnew] at hget
  refine ⟨_, hx, hkept, hnew, ?_⟩
  exact Option.some.inj (hy.symm.trans hget)

theorem apply_sound (hr : Ready L m) (hs : Sound L) : Sound (m.apply L) := by
  have hv := hr.valid
  have hlt := hv.dup_lt
  have hle := hv.dup_le
  have hlen := apply_length hv
  refine ⟨?_, ?_, ?_, ?_⟩
  · intro q y k hy hk
    obtain ⟨x, hx, hkept, hnew, rfl⟩ := apply_source hv hy
    rw [rewriteOffsets, rewriteOffsetsWith, Insn.fixOff_jumpOff, Option.map_eq_some_iff] at hk
    obtain ⟨k', hk', hkk⟩ := hk
    have ht := compact_target mask_transformed hr.transformed_inRange hx hk'
    rw [hnew, rewriteOffsets, rewriteOffsetsWith, Insn.fixOff_jumpOff, hk', Option.map_some,
      Option.bind_some, hkk] at ht
    rw [target] at ht
    split at ht
    case isTrue h => exact h
    case isFalse => cases ht
  · intro y hy
    obtain ⟨q, hq, rfl⟩ := List.getElem_of_mem hy
    obtain ⟨x, hx, -, -, hxy⟩ := apply_source hv (List.getElem?_eq_getElem hq)
    rw [hxy]
    have hlate : x.isLateStageGuardInsn = false := by
      by_cases hd : m.origin q = m.tDup
      · rw [hd, Merge.transformed, List.getElem?_set_self hlt] at hx
        cases hx
        rfl
      · rw [transformed_getElem? hd] at hx
        exact hs.early x (List.mem_of_getElem? hx)
    cases x <;> first | rfl | cases hlate
  · show (filterBy (m.mask L.insns.length) L.linenos).length = _
    rw [← hs.lines, filterBy_mask L.linenos hle (by have := hs.lines; omega)]
    simp only [List.length_append, List.length_take, List.length_drop]
    have := hs.lines
    omega
  · show (filterBy (m.mask L.insns.length) L.cols).length = _
    rw [← hs.columns, filterBy_mask L.cols hle (by have := hs.columns; omega)]
    simp only [List.length_append, List.length_take, List.length_drop]
    have := hs.columns
    omega

end tables

section rounds
variable {L : Listing} {m : Merge}

/-- No jump leads to the terminator that the merge replaces, and the merge keeps the lines. -/
def safeMerge (L : Listing) (m : Merge) : Bool := !isTarget L.insns m.tDup && keepsLines L m

/-- Every merge of the rounds is safe. -/
def roundsSafe : ℕ → Listing → Bool
  | 0, _ => true
  | fuel+1, L => match findMerge L with
    | none => true
    | some m => safeMerge L m && roundsSafe fuel (m.apply L)

/-- The position in the input that a position of the output comes from. -/
def origins : ℕ → Listing → ℕ → ℕ
  | 0, _ => id
  | fuel+1, L => match findMerge L with
    | none => id
    | some m => m.origin ∘ origins fuel (m.apply L)

/-- An instruction without its jump offset. -/
def bare (x : Insn) : Insn := x.fixOff fun _ => 0

theorem bare_fixOff (fix : ℤ → ℤ) (x : Insn) : bare (x.fixOff fix) = bare x := by
  cases x <;> rfl

variable {Val World : Type*}

/-- No unconditional jump stands at the position. -/
def Plain (insns : List Insn) (q : ℕ) : Prop := ∀ k, insns[q]? ≠ some (.jump k)

/-- What the positions of a stream are traced back to: at a plain one there is a plain one of
the same attribution. -/
def Traced (L L' : Listing) (f : ℕ → ℕ) : Prop :=
  ∀ q, Plain L'.insns q → Plain L.insns (f q) ∧ attribution L' q = attribution L (f q)

/-- The output is in the state of the input, at the same instruction or at a jump on the way to
it. Handlers and attribution are those of the input. -/
structure Corresponds (L : Listing) (out : List Insn) (origin : ℕ → ℕ) (s t : State Val World) :
    Prop where
  regs : t.regs = s.regs
  world : t.world = s.world
  handlers : t.handlers.map origin = s.handlers
  insn : (∃ k, out[t.pc]? = some (.jump k)) ∨
    (out[t.pc]?).map bare = (L.insns[s.pc]?).map bare ∧ Plain L.insns (origin t.pc) ∧
      Plain L.insns s.pc ∧ attribution L (origin t.pc) = attribution L s.pc

theorem corresponds_self (s : Option (State Val World)) :
    Option.Rel (Corresponds L L.insns id) s s := by
  cases s with
  | none => exact .none
  | some s =>
    refine .some ⟨rfl, rfl, List.map_id _, ?_⟩
    by_cases hp : Plain L.insns s.pc
    · exact .inr ⟨rfl, hp, hp, rfl⟩
    · left
      simpa [Plain] using hp

theorem Corresponds.trans {L' : Listing} {out : List Insn} {f g : ℕ → ℕ} {s t u : State Val World}
    (htr : Traced L L' f) (h : Corresponds L L'.insns f s t) (h' : Corresponds L' out g t u) :
    Corresponds L out (f ∘ g) s u := by
  refine ⟨h'.regs.trans h.regs, h'.world.trans h.world, ?_, ?_⟩
  · rw [← List.map_map, h'.handlers, h.handlers]
  · rcases h'.insn with hjump | ⟨hbare, hu, ht, hat⟩
    · exact .inl hjump
    · rcases h.insn with ⟨k, hk⟩ | ⟨hbare', -, hs, hat'⟩
      · exact absurd hk (ht k)
      · right
        refine ⟨hbare.trans hbare', (htr _ hu).1, hs, ?_⟩
        rw [← hat', ← (htr _ ht).2, Function.comp_apply, ← (htr _ hu).2]
        exact hat

theorem Valid.tail_attribution (hv : Valid L m) {j : ℕ} (hj : j < m.len) :
    attribution L (m.keepStart+j) = attribution L (m.dupStart+j) := by
  ext1
  · exact (hv.lines j hj).1
  · exact (hv.lines j hj).2

theorem Ready.entering_insn (h : Ready L m) :
    ∃ k, (m.apply L).insns[m.dupStart]? = some (.jump k) := by
  have hlt := h.valid.dup_lt
  have hxt : (m.transformed L.insns)[m.tDup]? = some (.jump m.offset) := by
    rw [Merge.transformed, List.getElem?_set_self hlt]
  have hget := compact_getElem? mask_transformed hxt (mask_kept hlt (.inr le_rfl))
  rw [newPc_dup hlt h.valid.dup_le] at hget
  exact ⟨_, hget⟩

theorem Ready.corresponds (h : Ready L m) {s t : State Val World} (hr : Rel L m s t) :
    Corresponds L (m.apply L).insns m.origin s t := by
  refine ⟨hr.regs, hr.world, ?_, ?_⟩
  · rw [hr.handlers, List.map_map]
    conv_rhs => rw [← List.map_id s.handlers]
    apply List.map_congr_left
    intro a ha
    exact h.valid.origin_outside (hr.outside a ha)
  · obtain ⟨pc, regs, w, hs⟩ := s
    obtain ⟨pc', regs', w', hs'⟩ := t
    have hplace := hr.place
    simp only at hplace ⊢
    cases hplace with
    | entering =>
      left
      exact h.entering_insn
    | @inside j hj =>
      right
      obtain ⟨x, hd, hk, hoff, hget, horigin⟩ := h.apply_inside hj
      have hplain : ∀ k, some x ≠ some (.jump k) := by
        rintro k ⟨⟩
        cases hoff
      rw [hd, hget, horigin, Plain, Plain, hd, hk]
      exact ⟨rfl, hplain, hplain, h.valid.tail_attribution hj⟩
    | outside ho =>
      rw [h.valid.origin_outside ho]
      rcases ho.1.lt_or_eq with hlt | heq
      · have hx := List.getElem?_eq_getElem hlt
        rw [apply_outside h.valid ho hx]
        by_cases hp : Plain L.insns pc
        · right
          refine ⟨?_, hp, hp, rfl⟩
          rw [hx]
          simp [rewriteOffsets, rewriteOffsetsWith, bare_fixOff]
        · left
          simp only [Plain, not_forall, not_not] at hp
          obtain ⟨k, hk⟩ := hp
          rw [hx] at hk
          rw [Option.some.inj hk]
          exact ⟨_, rfl⟩
      · have hlast : newPc (m.mask L.insns.length) pc = (m.apply L).insns.length := by
          show _ = (compact _ _).length
          rw [compact_length mask_transformed, transformed_length, heq]
        right
        rw [hlast, heq]
        simp [Plain]

theorem Ready.traced (h : Ready L m) (hs : Sound L) (hkeep : keepsLines L m) :
    Traced L (m.apply L) m.origin := by
  intro q hq
  have hne : q ≠ m.dupStart := by
    rintro rfl
    obtain ⟨k, hk⟩ := h.entering_insn
    exact hq k hk
  refine ⟨?_, attribution_apply hs h.valid hkeep hne⟩
  intro k hk
  have hlt : m.origin q < L.insns.length := (List.getElem?_eq_some_iff.mp hk).1
  have hlen := apply_length h.valid
  have hle := h.valid.dup_le
  have hdup := h.valid.dup_lt
  have hout : Outside L m (m.origin q) := by
    rw [Merge.origin] at hlt ⊢
    exact ⟨hlt.le, by split <;> omega⟩
  have hq' : q ≤ (m.apply L).insns.length := by
    rw [Merge.origin] at hlt
    split at hlt <;> omega
  have hget := apply_outside h.valid hout hk
  rw [newPc_origin h.valid hq'] at hget
  exact hq _ hget

variable (sem : Sem Val World) (numLocals : ℕ) (label : Attribution → ℕ) (regs : Regs Val)
  (world : World)

/-- A run of a stream, its visits labelled by their attribution. -/
abbrev attributed (insns : List Insn) (attr : ℕ → Attribution) :
    Machine (Option (State Val World)) (Event Val World) :=
  frame sem numLocals ⟨insns, []⟩ (watch (label ∘ attr))

/-- One round. -/
theorem Ready.tracks (h : Ready L m) (hs : Sound L) (hkeep : keepsLines L m) :
    (attributed sem numLocals label L.insns (attribution L)).Tracks
      (attributed sem numLocals label (m.apply L).insns (attribution (m.apply L)))
      (Option.Rel (Corresponds L (m.apply L).insns m.origin)) (State.enter regs world)
      (State.enter regs world) := by
  have hentry : Rel L m (⟨0, regs, world, []⟩ : State Val World) ⟨0, regs, world, []⟩ := by
    refine ⟨.outside ⟨Nat.zero_le _, .inl h.valid.dup_pos⟩, rfl, rfl, rfl, ?_⟩
    simp
  apply (frame_tracks (Rel L m) (extraStep m) _ hentry).mono
  · intro s t hst
    cases hst with
    | none => exact .none
    | some hst => exact .some (h.corresponds hst)
  · intro s t hst
    apply h.matched _ _ hst
    · intro pc hpc
      simp [attribution_apply hs h.valid hkeep hpc]
    · intro j hj
      simp [h.valid.tail_attribution hj]

/-- What is known of a round that merges. -/
theorem Sound.ready (hs : Sound L) (hm : findMerge L = some m) (hsafe : safeMerge L m) :
    Ready L m ∧ keepsLines L m := by
  rw [safeMerge, Bool.and_eq_true, Bool.not_eq_true'] at hsafe
  exact ⟨⟨findMerge_valid hm, hs.inRange, hs.early, hsafe.1⟩, hsafe.2⟩

theorem crossJumpLoop_succ (fuel : ℕ) (L : Listing) :
    crossJumpLoop (fuel+1) L = match findMerge L with
      | none => L
      | some m => crossJumpLoop fuel (m.apply L) := by
  rw [crossJumpLoop, passCrossJumpOnce]
  cases findMerge L <;> rfl

theorem loop_traced (fuel : ℕ) {L : Listing} (hs : Sound L) (hsafe : roundsSafe fuel L) :
    Traced L (crossJumpLoop fuel L) (origins fuel L) := by
  induction fuel generalizing L with
  | zero => exact fun q hq => ⟨hq, rfl⟩
  | succ fuel ih =>
    rw [crossJumpLoop_succ, origins]
    rw [roundsSafe] at hsafe
    cases hm : findMerge L with
    | none => exact fun q hq => ⟨hq, rfl⟩
    | some m =>
      simp only [hm, Bool.and_eq_true] at hsafe ⊢
      obtain ⟨hready, hkeep⟩ := hs.ready hm hsafe.1
      intro q hq
      have hrest := ih (apply_sound hready hs) hsafe.2 q hq
      have hround := hready.traced hs hkeep _ hrest.1
      exact ⟨hround.1, hrest.2.trans hround.2⟩

theorem loop_tracks (fuel : ℕ) {L : Listing} (hs : Sound L) (hsafe : roundsSafe fuel L) :
    (attributed sem numLocals label L.insns (attribution L)).Tracks
      (attributed sem numLocals label (crossJumpLoop fuel L).insns
        (attribution (crossJumpLoop fuel L)))
      (Option.Rel (Corresponds L (crossJumpLoop fuel L).insns (origins fuel L)))
      (State.enter regs world) (State.enter regs world) := by
  induction fuel generalizing L with
  | zero => exact .refl corresponds_self _
  | succ fuel ih =>
    rw [crossJumpLoop_succ, origins]
    rw [roundsSafe] at hsafe
    cases hm : findMerge L with
    | none => exact .refl corresponds_self _
    | some m =>
      simp only [hm, Bool.and_eq_true] at hsafe ⊢
      obtain ⟨hready, hkeep⟩ := hs.ready hm hsafe.1
      have hround := hready.tracks sem numLocals label regs world hs hkeep
      have hrest := ih (apply_sound hready hs) hsafe.2
      apply (hround.trans hrest).mono
      rintro s u ⟨t, hst, htu⟩
      cases hst with
      | none =>
        cases htu
        exact .none
      | some hst =>
        cases htu with
        | some htu => exact .some (hst.trans (hready.traced hs hkeep) htu)

/-- The final table labels a visit as the input's table labels the position it comes from. -/
theorem attributed_congr {insns : List Insn} {attr attr' : ℕ → Attribution}
    (h : ∀ q, Plain insns q → attr q = attr' q) :
    attributed sem numLocals label insns attr = attributed sem numLocals label insns attr' := by
  have hvisit : ∀ (s : State Val World) i, insns[s.pc]? = some i →
      visitEvents numLocals (watch (label ∘ attr)) s i =
        visitEvents numLocals (watch (label ∘ attr')) s i := by
    intro s i hi
    by_cases hp : Plain insns s.pc
    · rw [visitEvents, visitEvents, @watch_congr _ (label ∘ attr') s.pc s.pc (by simp [h _ hp])]
    · simp only [Plain, not_forall, not_not] at hp
      obtain ⟨k, hk⟩ := hp
      rw [hi] at hk
      cases hk
      rfl
  rw [attributed, attributed, frame, frame]
  congr 1
  funext s
  cases s with
  | none => rfl
  | some s =>
    simp only [step]
    cases hi : insns[s.pc]? with
    | none => rfl
    | some i => simp only [hvisit s i hi]

theorem resize_length {α : Type} (n : ℕ) (fill : α) (xs : List α) :
    (resize n fill xs).length = n := by
  simp [resize]

theorem listing_sound {insns : List Insn} (hr : InRange insns)
    (hlate : ∀ x ∈ insns, x.isLateStageGuardInsn = false) (linenos : List ℕ)
    (cols : List CaretSpan) : Sound (listing insns linenos cols) :=
  ⟨hr, hlate, resize_length _ _ _, resize_length _ _ _⟩

/-- What the pass is to preserve of the runs of a stream: the instructions visited, unconditional
jumps aside, with their operands, handlers and attribution. -/
def Preserved (sem : Sem Val World) (numLocals : ℕ) (label : Attribution → ℕ) (regs : Regs Val)
    (world : World) (insns : List Insn) (linenos : List ℕ) (cols : List CaretSpan) : Prop :=
  let L := listing insns linenos cols
  (attributed sem numLocals label insns (attribution L)).Tracks
    (attributed sem numLocals label (passCrossJump insns linenos cols)
      (attribution L ∘ origins insns.length L))
    (Option.Rel (Corresponds L (passCrossJump insns linenos cols) (origins insns.length L)))
    (State.enter regs world) (State.enter regs world)

/-- The rounds end at a stream without tails to merge, and while their merges are safe the runs
are preserved. -/
theorem pass_cross_jump_preserves {insns : List Insn} (linenos : List ℕ) (cols : List CaretSpan)
    (hr : InRange insns) (hlate : ∀ x ∈ insns, x.isLateStageGuardInsn = false)
    (hsafe : roundsSafe insns.length (listing insns linenos cols)) :
    (∀ (sem : Sem Val World) (numLocals : ℕ) (label : Attribution → ℕ) (regs : Regs Val)
      (world : World), Preserved sem numLocals label regs world insns linenos cols) ∧
    findMerge (crossJumpLoop insns.length (listing insns linenos cols)) = none := by
  have hs := listing_sound hr hlate linenos cols
  constructor
  · intro sem numLocals label regs world
    have hlabel := attributed_congr sem numLocals label fun q hq => (loop_traced _ hs hsafe q hq).2
    have htracks := loop_tracks sem numLocals label regs world insns.length hs hsafe
    rw [hlabel] at htracks
    exact htracks
  · have hfix := @crossJumpLoop_fixpoint insns.length (listing insns linenos cols) le_rfl
    rw [passCrossJumpOnce] at hfix
    cases hm : findMerge (crossJumpLoop insns.length (listing insns linenos cols)) with
    | none => rfl
    | some m => simp [hm] at hfix

/-- Two blocks that set a register and return it, each entered at its start. -/
def twoReturns : List Insn :=
  [.jumpIfFalse 0 2, .loadConst 1 0, .ret 1, .loadNone 2, .loadConst 1 0, .ret 1]

theorem pass_cross_jump_preserves_returns :
    passCrossJump twoReturns [3] [] =
      [.jumpIfFalse 0 2, .loadConst 1 0, .ret 1, .loadNone 2, .jump (-4)] ∧
    Preserved scripted 3 (fun _ => 0) (fun _ => some 9) [.jump] twoReturns [3] [] :=
  ⟨by decide, (pass_cross_jump_preserves [3] [] (by decide) (by decide)
    (by decide)).1 scripted 3 (fun _ => 0) (fun _ => some 9) [.jump]⟩

/-- The second block can also be entered at its return. -/
def lateEntry : List Insn :=
  [.jumpIfFalse 0 2, .loadConst 1 0, .ret 1, .jumpIfTrue 2 1, .loadConst 1 0, .ret 1]

/-- The late entry runs the whole kept tail and returns another value. -/
theorem late_entry_not_preserved :
    ¬ Preserved scripted 3 (fun _ => 0) (fun _ => some 9) [.jump, .jump] lateEntry [3] [] := by
  intro h
  have heq := h.behaviours_eq
  revert heq
  apply Machine.behaviours_ne (fun tr => (visits tr).map Prod.snd) 3 6
  · decide
  · decide

end rounds

end Pyrust.CrossJumping
