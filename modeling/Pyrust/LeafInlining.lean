import Mathlib.Data.List.Pairwise
import Pyrust.Compaction
import Pyrust.LeafCalls

/-!
# Guarded inlining of leaf calls

A two-argument call of a leaf function is preceded by a guard. When the guard
holds it computes the leaf's value and goes on behind the call; when it does not,
the call sequence runs as it stood. No instruction of the input is removed, and a
jump to the place of a guard reaches the guard.
-/

set_option autoImplicit false

namespace Pyrust.LeafInlining

open Bytecode Machine Compaction LeafCalls

inductive ArgSrc where
  | reg (r : Reg)
  | window

/-- Where a loader of an argument slot finds the argument. -/
def argSrc (slot : Reg) : Insn → Option ArgSrc
  | .move d s => if d = slot then some (.reg s) else none
  | .loadConst d _ => if d = slot then some .window else none
  | _ => none

def pairCallBase : Insn → Option Reg
  | .call c 2 | .callMemo c 2 => some c
  | _ => none

/-- A guard to insert before instruction `pos`, with the place it resumes at. -/
structure Site where
  pos : ℕ
  callee : Reg
  dst : Reg
  a : Reg
  op : BinaryOp
  b : Reg
  proto : ℕ
  resume : ℕ
  deriving DecidableEq

/-- The first instruction of the call sequence. -/
def Site.head (s : Site) : ℕ := s.resume-4

/-- The guard before the whole sequence, which reads the argument sources. -/
def earlySite (i : ℕ) (c f x y : Reg) (op : BinaryOp) (swapped : Bool) (proto : ℕ) : Site :=
  ⟨i, f, c, if swapped then y else x, op, if swapped then x else y, proto, i+4⟩

/-- The guard right before the call, which reads the argument slots. -/
def lateSite (i : ℕ) (c : Reg) (op : BinaryOp) (swapped : Bool) (proto : ℕ) : Site :=
  ⟨i+3, c, c, if swapped then c+2 else c+1, op, if swapped then c+1 else c+2, proto, i+4⟩

def placeGuard (i : ℕ) (c f : Reg) (op : BinaryOp) (swapped : Bool) (proto : ℕ) :
    ArgSrc → ArgSrc → Site
  | .reg x, .reg y =>
    if x ≠ c ∧ y ≠ c ∧ y ≠ c+1 then earlySite i c f x y op swapped proto
    else lateSite i c op swapped proto
  | _, _ => lateSite i c op swapped proto

section pass
variable (eligible : ℕ → Option (BinaryOp × Bool))

def siteAt (regProto : Reg → Option ℕ) (i : ℕ) : List Insn → Option Site
  | .move c f::w1::w2::call::_ =>
    if pairCallBase call = some c then
      match argSrc (c+1) w1, argSrc (c+2) w2, regProto f with
      | some arg1, some arg2, some proto => match eligible proto with
        | some (op, swapped) => some (placeGuard i c f op swapped proto arg1 arg2)
        | none => none
      | _, _, _ => none
    else none
  | _ => none

/-- The prototype a register is known to hold a function of, after an instruction. -/
def rebind (regProto : Reg → Option ℕ) (x : Insn) : Reg → Option ℕ :=
  let rebound : Option (Reg × ℕ) := match x with
    | .makeFunction dst proto _ _ _ _ => (eligible proto).map fun _ => (dst, proto)
    | .move dst src | .copyReg dst src => (regProto src).map fun proto => (dst, proto)
    | _ => none
  let kept : Reg → Option ℕ := fun r => if r ∈ x.collectWrites then none else regProto r
  match rebound with
  | some (dst, proto) => Function.update kept dst (some proto)
  | none => kept

def maxInlineSites : ℕ := 64

def collectSites : List Insn → ℕ → (Reg → Option ℕ) → ℕ → List Site
  | [], _, _, _ => []
  | x::rest, i, regProto, budget =>
    let regProto := rebind eligible regProto x
    match siteAt eligible regProto i (x::rest) with
    | some site =>
      if budget = 1 then [site] else site::collectSites rest (i+1) regProto (budget-1)
    | none => collectSites rest (i+1) regProto budget

end pass

/-- Take the next site if its guard stands before instruction `i`. -/
def nextSite (i : ℕ) : List Site → Option Site × List Site
  | s::ss => if s.pos = i then (some s, ss) else (none, s::ss)
  | [] => (none, [])

/-- The new place of each old position, and where a jump to it leads. -/
def places : ℕ → ℕ → ℕ → List Site → List (ℕ × ℕ)
  | 0, _, _, _ => []
  | k+1, i, shift, sites => match nextSite i sites with
    | (some _, ss) => (i+shift+1, i+shift)::places k (i+1) (shift+1) ss
    | (none, ss) => (i+shift, i+shift)::places k (i+1) shift ss

def Site.guard (s : Site) (skip : ℤ) : Insn :=
  .callInlineBinOp s.callee s.dst s.a s.op s.b s.proto skip

def emit (placement jumpTargets : List ℕ) : List Insn → ℕ → ℕ → List Site → List Insn
  | [], _, _, _ => []
  | x::xs, i, gpos, sites =>
    let placed := rewriteOffsetsWith x i placement jumpTargets
    match nextSite i sites with
    | (some s, ss) => s.guard ((placement.getD s.resume 0 : ℕ)-(gpos : ℤ)-1)::placed::
        emit placement jumpTargets xs (i+1) (gpos+2) ss
    | (none, ss) => placed::emit placement jumpTargets xs (i+1) (gpos+1) ss

def isInlineGuard : Insn → Bool
  | .callInlineBinOp .. => true
  | _ => false

/-- The operator of each eligible prototype of a code object. -/
def eligibleOps {Obj : Type} (P : Program Obj) (fnProtos : List ℕ) (proto : ℕ) :
    Option (BinaryOp × Bool) :=
  (fnProtos[proto]?).bind fun addr => leafOp (P.protoAt addr)

def inlineSites {Obj : Type} (P : Program Obj) (insns : List Insn) (fnProtos : List ℕ) :
    List Site :=
  if fnProtos = [] ∨ insns.any isInlineGuard then []
  else collectSites (eligibleOps P fnProtos) insns 0 (fun _ => none) maxInlineSites

def placementTable (n : ℕ) (sites : List Site) : List ℕ := (places (n+1) 0 0 sites).map Prod.fst

def jumpTable (n : ℕ) (sites : List Site) : List ℕ := (places (n+1) 0 0 sites).map Prod.snd

def passInlineLeafBinop {Obj : Type} (P : Program Obj) (insns : List Insn) (fnProtos : List ℕ) :
    List Insn :=
  let sites := inlineSites P insns fnProtos
  if sites.isEmpty then insns
  else emit (placementTable insns.length sites) (jumpTable insns.length sites) insns 0 0 sites

/-- The place of an old instruction behind the guards inserted before it. -/
def placed (sites : List Site) (i : ℕ) : ℕ := i+sites.countP fun s => s.pos ≤ i

/-- Where a jump to an old position leads: to the guard, when it has one. -/
def landing (sites : List Site) (i : ℕ) : ℕ := i+sites.countP fun s => s.pos < i

section tables

/-- The sites from instruction `i` on, in the order of their guards. -/
def Ordered (i : ℕ) (sites : List Site) : Prop :=
  sites.Pairwise (fun s t => s.pos < t.pos) ∧ ∀ s ∈ sites, i ≤ s.pos

theorem nextSite_spec {i : ℕ} {sites : List Site} (h : Ordered i sites) :
    (∃ s ss, nextSite i sites = (some s, ss) ∧ sites = s::ss ∧ s.pos = i ∧ Ordered (i+1) ss) ∨
      nextSite i sites = (none, sites) ∧ Ordered (i+1) sites := by
  cases sites with
  | nil => exact .inr ⟨rfl, h.1, by simp⟩
  | cons s ss =>
    have hlt := (List.pairwise_cons.mp h.1).1
    have hrest := (List.pairwise_cons.mp h.1).2
    have hs := h.2 s (by simp)
    by_cases hi : s.pos = i
    · left
      refine ⟨s, ss, by simp [nextSite, hi], rfl, hi, hrest, ?_⟩
      intro t ht
      have := hlt t ht
      omega
    · right
      refine ⟨by simp [nextSite, hi], h.1, ?_⟩
      intro t ht
      rcases List.mem_cons.mp ht with rfl | ht
      · omega
      · have := hlt t ht
        omega

theorem countP_le_of_ordered {i j : ℕ} {sites : List Site} (h : Ordered i sites) (hj : j < i) :
    sites.countP (fun s => s.pos ≤ j) = 0 := by
  rw [List.countP_eq_zero]
  intro s hs
  have := h.2 s hs
  simp only [decide_eq_true_eq]
  omega

theorem countP_lt_of_ordered {i j : ℕ} {sites : List Site} (h : Ordered i sites) (hj : j ≤ i) :
    sites.countP (fun s => s.pos < j) = 0 := by
  rw [List.countP_eq_zero]
  intro s hs
  have := h.2 s hs
  simp only [decide_eq_true_eq]
  omega

theorem places_getElem? (k i shift : ℕ) (sites : List Site) (h : Ordered i sites) (j : ℕ)
    (hj : j < k) : (places k i shift sites)[j]? =
      some (placed sites (i+j)+shift, landing sites (i+j)+shift) := by
  induction k generalizing i shift sites j with
  | zero => omega
  | succ k ih =>
    rcases nextSite_spec h with ⟨s, ss, hn, rfl, hs, hss⟩ | ⟨hn, hss⟩
    · simp only [places, hn]
      cases j with
      | zero =>
        have h1 := countP_le_of_ordered hss (Nat.lt_succ_self i)
        have h2 := countP_lt_of_ordered hss (Nat.le_succ i)
        simp [placed, landing, hs, h1, h2]
        omega
      | succ j =>
        rw [List.getElem?_cons_succ, ih (i+1) (shift+1) ss hss j (by omega)]
        simp only [placed, landing, List.countP_cons, hs]
        have ha : i ≤ i+(j+1) := by omega
        have hb : i < i+(j+1) := by omega
        simp [ha, show i+1+j = i+(j+1) by omega]
        omega
    · simp only [places, hn]
      cases j with
      | zero =>
        have h1 := countP_le_of_ordered hss (Nat.lt_succ_self i)
        have h2 := countP_lt_of_ordered hss (Nat.le_succ i)
        simp [placed, landing, h1, h2]
      | succ j =>
        rw [List.getElem?_cons_succ, ih (i+1) shift sites hss j (by omega)]
        simp [show i+1+j = i+(j+1) by omega]

theorem emit_getElem? (placement jumpTargets : List ℕ) (xs : List Insn) (i done : ℕ)
    (sites : List Site) (h : Ordered i sites) (j : ℕ) (x : Insn) (hx : xs[j]? = some x) :
    (emit placement jumpTargets xs i (i+done) sites)[placed sites (i+j)-i]? =
        some (rewriteOffsetsWith x (i+j) placement jumpTargets) ∧
      ∀ s ∈ sites, s.pos = i+j →
        (emit placement jumpTargets xs i (i+done) sites)[landing sites (i+j)-i]? =
          some (s.guard ((placement.getD s.resume 0 : ℕ)-((landing sites (i+j)+done : ℕ) : ℤ)-1))
    := by
  induction xs generalizing i done sites j with
  | nil => simp at hx
  | cons y ys ih =>
    rcases nextSite_spec h with ⟨s, ss, hn, rfl, hs, hss⟩ | ⟨hn, hss⟩
    · simp only [emit, hn]
      cases j with
      | zero =>
        obtain rfl : y = x := by simpa using hx
        have h1 := countP_le_of_ordered hss (Nat.lt_succ_self i)
        have h2 := countP_lt_of_ordered hss (Nat.le_succ i)
        constructor
        · simp [placed, hs, h1]
        · intro t ht hpos
          have hts : t = s := by
            rcases List.mem_cons.mp ht with rfl | ht
            · rfl
            · have := hss.2 t ht
              omega
          subst hts
          simp [landing, hs, h2]
      | succ j =>
        have hih := ih (i+1) (done+1) ss hss j (by simpa using hx)
        rw [show i+1+(done+1) = i+done+2 by omega, show i+1+j = i+(j+1) by omega] at hih
        have hp : placed (s::ss) (i+(j+1))-i = placed ss (i+(j+1))-(i+1)+2 := by
          simp [placed, hs]
          omega
        have hl : landing (s::ss) (i+(j+1))-i = landing ss (i+(j+1))-(i+1)+2 := by
          simp [landing, hs]
          omega
        have hl' : landing (s::ss) (i+(j+1)) = landing ss (i+(j+1))+1 := by
          simp [landing, hs]
          omega
        constructor
        · rw [hp, List.getElem?_cons_succ, List.getElem?_cons_succ]
          exact hih.1
        · intro t ht hpos
          rw [hl, List.getElem?_cons_succ, List.getElem?_cons_succ]
          have ht' : t ∈ ss := by
            rcases List.mem_cons.mp ht with rfl | ht
            · omega
            · exact ht
          rw [hih.2 t ht' hpos, hl']
          congr 3
          push_cast
          omega
    · simp only [emit, hn]
      cases j with
      | zero =>
        obtain rfl : y = x := by simpa using hx
        have h1 := countP_le_of_ordered hss (Nat.lt_succ_self i)
        constructor
        · simp [placed, h1]
        · intro t ht hpos
          have := hss.2 t ht
          omega
      | succ j =>
        have hih := ih (i+1) done sites hss j (by simpa using hx)
        rw [show i+1+done = i+done+1 by omega, show i+1+j = i+(j+1) by omega] at hih
        have hp : placed sites (i+(j+1))-i = placed sites (i+(j+1))-(i+1)+1 := by
          simp only [placed]
          omega
        have hl : landing sites (i+(j+1))-i = landing sites (i+(j+1))-(i+1)+1 := by
          simp only [landing]
          omega
        constructor
        · rw [hp, List.getElem?_cons_succ]
          exact hih.1
        · intro t ht hpos
          rw [hl, List.getElem?_cons_succ]
          exact hih.2 t ht hpos

end tables

section sites
variable {eligible : ℕ → Option (BinaryOp × Bool)} {insns : List Insn}

/-- The call sequence a site stands for, with what was checked about it. -/
structure Sequence (eligible : ℕ → Option (BinaryOp × Bool)) (insns : List Insn) (s : Site) where
  c : Reg
  f : Reg
  w1 : Insn
  w2 : Insn
  call : Insn
  arg1 : ArgSrc
  arg2 : ArgSrc
  swapped : Bool
  load : insns[s.head]? = some (.move c f)
  first : insns[s.head+1]? = some w1
  second : insns[s.head+2]? = some w2
  last : insns[s.head+3]? = some call
  base : pairCallBase call = some c
  first_src : argSrc (c+1) w1 = some arg1
  second_src : argSrc (c+2) w2 = some arg2
  leaf : eligible s.proto = some (s.op, swapped)
  guard : s = placeGuard s.head c f s.op swapped s.proto arg1 arg2

theorem placeGuard_fields (i : ℕ) (c f : Reg) (op : BinaryOp) (swapped : Bool) (proto : ℕ)
    (arg1 arg2 : ArgSrc) :
    (placeGuard i c f op swapped proto arg1 arg2).head = i ∧
      (placeGuard i c f op swapped proto arg1 arg2).op = op ∧
      (placeGuard i c f op swapped proto arg1 arg2).proto = proto := by
  rw [placeGuard.eq_def]
  split
  · split <;> exact ⟨rfl, rfl, rfl⟩
  · exact ⟨rfl, rfl, rfl⟩

theorem siteAt_sequence {regProto : Reg → Option ℕ} {i : ℕ} {suffix : List Insn} {s : Site}
    (hs : siteAt eligible regProto i suffix = some s) (hsuf : ∀ j, suffix[j]? = insns[i+j]?) :
    s.head = i ∧ Nonempty (Sequence eligible insns s) := by
  rw [siteAt.eq_def] at hs
  split at hs
  case h_2 => cases hs
  case h_1 c f w1 w2 call rest =>
    split at hs
    case isFalse => cases hs
    case isTrue hbase =>
      split at hs
      case h_2 => cases hs
      case h_1 arg1 arg2 proto h1 h2 hf =>
        split at hs
        case h_2 => cases hs
        case h_1 op swapped hop =>
          obtain ⟨hhead, hsop, hproto⟩ := placeGuard_fields i c f op swapped proto arg1 arg2
          obtain rfl := Option.some.inj hs
          refine ⟨hhead, ⟨⟨c, f, w1, w2, call, arg1, arg2, swapped, ?_, ?_, ?_, ?_, hbase, h1, h2,
            ?_, ?_⟩⟩⟩
          · rw [hhead]
            exact (hsuf 0).symm
          · rw [hhead]
            exact (hsuf 1).symm
          · rw [hhead]
            exact (hsuf 2).symm
          · rw [hhead]
            exact (hsuf 3).symm
          · rw [hsop, hproto, hop]
          · rw [hhead, hsop, hproto]

theorem argSrc_not_call {slot : Reg} {x : Insn} {a : ArgSrc} (h : argSrc slot x = some a) :
    pairCallBase x = none := by
  rw [argSrc.eq_def] at h
  split at h
  · rfl
  · rfl
  · cases h

/-- A sequence ends in its call, so the next one cannot start inside it. -/
theorem Sequence.apart {s t : Site} (hs : Sequence eligible insns s)
    (ht : Sequence eligible insns t) (hlt : s.head < t.head) : s.head+4 ≤ t.head := by
  by_contra hcon
  have hcases : s.head+3 = t.head ∨ s.head+3 = t.head+1 ∨ s.head+3 = t.head+2 := by omega
  have hlast := hs.last
  have hbase := hs.base
  rcases hcases with h | h | h
  · rw [h, ht.load] at hlast
    rw [← Option.some.inj hlast] at hbase
    cases hbase
  · rw [h, ht.first] at hlast
    rw [← Option.some.inj hlast, argSrc_not_call ht.first_src] at hbase
    cases hbase
  · rw [h, ht.second] at hlast
    rw [← Option.some.inj hlast, argSrc_not_call ht.second_src] at hbase
    cases hbase

theorem collectSites_spec (suffix : List Insn) (i : ℕ) (regProto : Reg → Option ℕ) (budget : ℕ)
    (hsuf : ∀ j, suffix[j]? = insns[i+j]?) :
    (∀ s ∈ collectSites eligible suffix i regProto budget,
      i ≤ s.head ∧ Nonempty (Sequence eligible insns s)) ∧
      (collectSites eligible suffix i regProto budget).Pairwise (fun s t => s.head < t.head) := by
  induction suffix generalizing i regProto budget with
  | nil => simp [collectSites]
  | cons x rest ih =>
    have hrest : ∀ j, rest[j]? = insns[i+1+j]? := by
      intro j
      have h := hsuf (j+1)
      rw [List.getElem?_cons_succ] at h
      rw [h, show i+(j+1) = i+1+j by omega]
    have hih := fun budget => ih (i+1) (rebind eligible regProto x) budget hrest
    rw [collectSites]
    cases hs : siteAt eligible (rebind eligible regProto x) i (x::rest) with
    | none =>
      refine ⟨?_, (hih budget).2⟩
      intro s hmem
      have h := (hih budget).1 s hmem
      exact ⟨by omega, h.2⟩
    | some site =>
      obtain ⟨hhead, hseq⟩ := siteAt_sequence hs hsuf
      dsimp only
      by_cases hb : budget = 1
      · rw [if_pos hb]
        constructor
        · intro s hmem
          rw [List.mem_singleton] at hmem
          subst hmem
          exact ⟨hhead.ge, hseq⟩
        · exact List.pairwise_singleton _ _
      · rw [if_neg hb]
        constructor
        · intro s hmem
          rcases List.mem_cons.mp hmem with rfl | hmem
          · exact ⟨hhead.ge, hseq⟩
          · have h := (hih (budget-1)).1 s hmem
            exact ⟨by omega, h.2⟩
        · rw [List.pairwise_cons]
          refine ⟨?_, (hih (budget-1)).2⟩
          intro t ht
          have h := ((hih (budget-1)).1 t ht).1
          omega

theorem Sequence.pos_eq {s : Site} (h : Sequence eligible insns s) :
    s.pos = s.head ∨ s.pos = s.head+3 := by
  have hg := h.guard
  rw [placeGuard.eq_def] at hg
  split at hg
  · split at hg
    · exact .inl (congrArg Site.pos hg)
    · exact .inr (congrArg Site.pos hg)
  · exact .inr (congrArg Site.pos hg)

theorem Sequence.resume_eq {s : Site} (h : Sequence eligible insns s) : s.resume = s.head+4 := by
  have hg := h.guard
  rw [placeGuard.eq_def] at hg
  split at hg
  · split at hg
    · exact congrArg Site.resume hg
    · exact congrArg Site.resume hg
  · exact congrArg Site.resume hg

end sites

section output
variable {Obj : Type} {P : Program Obj} {insns : List Insn} {fnProtos : List ℕ}

theorem inlineSites_sequence {s : Site} (hs : s ∈ inlineSites P insns fnProtos) :
    Nonempty (Sequence (eligibleOps P fnProtos) insns s) := by
  rw [inlineSites] at hs
  split at hs
  · cases hs
  · have hspec := @collectSites_spec (eligibleOps P fnProtos) insns insns 0 (fun _ => none)
      maxInlineSites (by simp)
    exact (hspec.1 s hs).2

theorem inlineSites_heads :
    (inlineSites P insns fnProtos).Pairwise (fun s t => s.head < t.head) := by
  rw [inlineSites]
  split
  · exact List.Pairwise.nil
  · have hspec := @collectSites_spec (eligibleOps P fnProtos) insns insns 0 (fun _ => none)
      maxInlineSites (by simp)
    exact hspec.2

theorem inlineSites_apart :
    (inlineSites P insns fnProtos).Pairwise (fun s t => s.head+4 ≤ t.head) := by
  apply inlineSites_heads.imp_of_mem
  intro s t hs ht hlt
  obtain ⟨seq⟩ := inlineSites_sequence hs
  obtain ⟨seq'⟩ := inlineSites_sequence ht
  exact seq.apart seq' hlt

theorem inlineSites_ordered : Ordered 0 (inlineSites P insns fnProtos) := by
  refine ⟨?_, by simp⟩
  apply inlineSites_apart.imp_of_mem
  intro s t hs ht hle
  obtain ⟨seq⟩ := inlineSites_sequence hs
  obtain ⟨seq'⟩ := inlineSites_sequence ht
  have h := seq.pos_eq
  have h' := seq'.pos_eq
  omega

end output

section output
variable {Obj : Type} {P : Program Obj} {insns : List Insn} {fnProtos : List ℕ} {sites : List Site}

/-- The two tables of the output. -/
theorem table_getD (h : Ordered 0 sites) {n k : ℕ} (hk : k ≤ n) :
    (placementTable n sites).getD k 0 = placed sites k ∧
      (jumpTable n sites).getD k 0 = landing sites k := by
  have hp := places_getElem? (n+1) 0 0 sites h k (by omega)
  simp [placementTable, jumpTable, List.getD_eq_getElem?_getD, hp]

theorem pass_eq_emit (hsites : inlineSites P insns fnProtos = sites) {s : Site} (hs : s ∈ sites) :
    passInlineLeafBinop P insns fnProtos =
      emit (placementTable insns.length sites) (jumpTable insns.length sites) insns 0 0 sites := by
  have hne : sites.isEmpty = false := by
    rw [List.isEmpty_eq_false_iff]
    exact List.ne_nil_of_mem hs
  simp [passInlineLeafBinop, hsites, hne]

theorem pass_rewrite (hsites : inlineSites P insns fnProtos = sites) {s : Site} (hs : s ∈ sites)
    {k : ℕ} {x : Insn} (hx : insns[k]? = some x) :
    (passInlineLeafBinop P insns fnProtos)[placed sites k]? = some (rewriteOffsetsWith x k
      (placementTable insns.length sites) (jumpTable insns.length sites)) := by
  have hord : Ordered 0 sites := hsites ▸ inlineSites_ordered
  have h := (emit_getElem? (placementTable insns.length sites) (jumpTable insns.length sites) insns
    0 0 sites hord k x hx).1
  rw [pass_eq_emit hsites hs]
  simpa using h

/-- An instruction without an offset stands unchanged at its new place. -/
theorem pass_plain (hsites : inlineSites P insns fnProtos = sites) {s : Site} (hs : s ∈ sites)
    {k : ℕ} {x : Insn} (hx : insns[k]? = some x) (hoff : x.jumpOff = none) :
    (passInlineLeafBinop P insns fnProtos)[placed sites k]? = some x := by
  rw [pass_rewrite hsites hs hx, rewriteOffsetsWith]
  congr 1
  cases x <;> first | rfl | cases hoff

/-- The guard of a site stands where jumps to its place land, and skips to the resume point. -/
theorem pass_guard (hsites : inlineSites P insns fnProtos = sites) {s : Site} (hs : s ∈ sites) :
    (passInlineLeafBinop P insns fnProtos)[landing sites s.pos]? =
      some (s.guard ((placed sites s.resume : ℕ)-((landing sites s.pos : ℕ) : ℤ)-1)) := by
  have hord : Ordered 0 sites := hsites ▸ inlineSites_ordered
  obtain ⟨seq⟩ := inlineSites_sequence (hsites ▸ hs)
  have hlast : s.head+3 < insns.length := (List.getElem?_eq_some_iff.mp seq.last).1
  have hpos := seq.pos_eq
  have hres := seq.resume_eq
  have hx : insns[s.pos]? = some insns[s.pos] := List.getElem?_eq_getElem (by omega)
  have h := (emit_getElem? (placementTable insns.length sites) (jumpTable insns.length sites) insns
    0 0 sites hord s.pos _ hx).2 s hs (zero_add _).symm
  rw [pass_eq_emit hsites hs]
  simp only [zero_add, Nat.sub_zero, add_zero] at h
  rw [h, (table_getD hord (by omega)).1]

end output

section runs
variable {Val World : Type} (sem : Sem Val World) (numLocals : ℕ) (code : Code)

/-- Run up to `n` instructions, as long as each falls through to the next. -/
def runSequence : ℕ → State Val World → List (Event Val World) × Option (State Val World)
  | 0, s => ([], some s)
  | n+1, s => match code.insns[s.pc]? with
    | none => step sem numLocals code (fun _ _ => none) s
    | some i =>
      let o := perform sem numLocals i s.regs s.world
      match o.flow, transfer code s.pc s.handlers i o.flow with
      | .next, .goto pc handlers =>
        runSequence n ⟨pc, finishRegs numLocals i o s.regs, o.world, handlers⟩
      | _, _ => step sem numLocals code (fun _ _ => none) s

variable {sem numLocals code}

theorem runSequence_succ (n : ℕ) (s : State Val World) :
    runSequence sem numLocals code (n+1) s = match code.insns[s.pc]? with
      | none => step sem numLocals code (fun _ _ => none) s
      | some i =>
        let o := perform sem numLocals i s.regs s.world
        match o.flow, transfer code s.pc s.handlers i o.flow with
        | .next, .goto pc handlers =>
          runSequence sem numLocals code n ⟨pc, finishRegs numLocals i o s.regs, o.world, handlers⟩
        | _, _ => step sem numLocals code (fun _ _ => none) s := rfl

theorem runSequence_next {n : ℕ} {s : State Val World} {i : Insn}
    (hi : code.insns[s.pc]? = some i) (hm : i.isHandlerMark = false)
    (hf : (perform sem numLocals i s.regs s.world).flow = .next) :
    runSequence sem numLocals code (n+1) s = runSequence sem numLocals code n ⟨s.pc+1,
      finishRegs numLocals i (perform sem numLocals i s.regs s.world) s.regs,
      (perform sem numLocals i s.regs s.world).world, s.handlers⟩ := by
  simp only [runSequence_succ, hi, hf, transfer_next hm]

theorem runSequence_leave {n : ℕ} {s : State Val World} {i : Insn}
    (hi : code.insns[s.pc]? = some i)
    (hf : (perform sem numLocals i s.regs s.world).flow ≠ .next) :
    runSequence sem numLocals code (n+1) s = step sem numLocals code (fun _ _ => none) s := by
  simp only [runSequence_succ, hi]
  split
  · exact absurd ‹_› hf
  · rfl

end runs

section calls
variable {Obj Host : Type} {P : Program Obj} {E : Engine P Host} {fnProtos : List ℕ}
  {numLocals : ℕ} {regs : Regs (Val Obj)} {w : World P Host}

/-- The value the guard of a site computes, if it holds. -/
def guardValue (E : Engine P Host) (fnProtos : List ℕ) (numLocals : ℕ) (s : Site)
    (regs : Regs (Val Obj)) (w : World P Host) : Option (Val Obj) :=
  if E.callDepth w.host < E.maxCallDepth w.host then
    tryInlineLeafBinop P fnProtos (Machine.read numLocals regs s.callee)
      (Machine.read numLocals regs s.a) (Machine.read numLocals regs s.b) s.op s.proto
  else none

theorem perform_guard_some {s : Site} {k : ℤ} {v : Val Obj}
    (h : guardValue E fnProtos numLocals s regs w = some v) :
    (perform (E.sem fnProtos) numLocals (s.guard k) regs w).flow = .jump ∧
      (perform (E.sem fnProtos) numLocals (s.guard k) regs w).world = w ∧
      finishRegs numLocals (s.guard k) (perform (E.sem fnProtos) numLocals (s.guard k) regs w)
        regs = Function.update regs s.dst (some v) := by
  rw [guardValue] at h
  split at h
  case isFalse => cases h
  case isTrue hd =>
    simp [perform, outcome, Site.guard, Insn.shape.eq_def, operands, operandRegs,
      Insn.collectReads.eq_def, Engine.sem, hd, h, settle.eq_def, Insn.jumpOff.eq_def, finishRegs,
      Insn.mayInvalidateNamedLocals.eq_def, writesOn.eq_def, writeAll, view_self]

theorem perform_guard_none {s : Site} {k : ℤ}
    (h : guardValue E fnProtos numLocals s regs w = none) :
    (perform (E.sem fnProtos) numLocals (s.guard k) regs w).flow = .next ∧
      (perform (E.sem fnProtos) numLocals (s.guard k) regs w).world = w ∧
      finishRegs numLocals (s.guard k) (perform (E.sem fnProtos) numLocals (s.guard k) regs w)
        regs = regs := by
  rw [guardValue] at h
  by_cases hd : E.callDepth w.host < E.maxCallDepth w.host
  · rw [if_pos hd] at h
    simp [perform, outcome, Site.guard, Insn.shape.eq_def, operands, operandRegs,
      Insn.collectReads.eq_def, Engine.sem, hd, h, settle.eq_def, finishRegs,
      Insn.mayInvalidateNamedLocals.eq_def, writesOn.eq_def, writeAll, view_self]
  · simp [perform, outcome, Site.guard, Insn.shape.eq_def, operands, operandRegs,
      Insn.collectReads.eq_def, Engine.sem, hd, settle.eq_def, finishRegs,
      Insn.mayInvalidateNamedLocals.eq_def, writesOn.eq_def, writeAll, view_self]

theorem value_of_read {r : Reg} {v : Val Obj} (h : Machine.read numLocals regs r = .value v) :
    regs r = some v := by
  rw [Machine.read.eq_def] at h
  split at h
  case h_1 v' hv =>
    cases h
    exact hv
  case h_2 => split at h <;> cases h

/-- What a guard that holds has seen. -/
theorem guardValue_spec {s : Site} {v : Val Obj}
    (h : guardValue E fnProtos numLocals s regs w = some v) :
    E.callDepth w.host < E.maxCallDepth w.host ∧ ∃ fn addr x y a b,
      regs s.callee = some (.function fn) ∧ fnProtos[s.proto]? = some addr ∧
      P.precompiledCode fn.id = some addr ∧ regs s.a = some x ∧ regs s.b = some y ∧
      asInt P x = some a ∧ asInt P y = some b ∧ intIntFast P a b s.op = some v := by
  rw [guardValue] at h
  split at h
  case isFalse => cases h
  case isTrue hd =>
    refine ⟨hd, ?_⟩
    rw [tryInlineLeafBinop.eq_def] at h
    split at h
    case h_2 => cases h
    case h_1 fn hfn =>
      split at h
      case isFalse => cases h
      case isTrue hk =>
        split at h
        case h_2 => cases h
        case h_1 expected actual hexp hact =>
          split at h
          case isFalse => cases h
          case isTrue heq =>
            subst heq
            rw [intBinop.eq_def] at h
            split at h
            case h_2 => cases h
            case h_1 x y hx hy =>
              split at h
              case h_2 => cases h
              case h_1 a b ha hb =>
                exact ⟨fn, actual, x, y, a, b, value_of_read hfn, hexp, hact, value_of_read hx,
                  value_of_read hy, ha, hb, h⟩

/-- The call of a leaf on two integers writes its value and touches nothing else but the
result cache. -/
theorem perform_pairCall {call : Insn} {c : Reg} (hc : pairCallBase call = some c)
    {fn : UserFunction} {addr : ℕ} {op : BinaryOp} {swapped : Bool} {x y v : Val Obj} {a b : ℤ}
    (hf : regs c = some (.function fn)) (hx : regs (c+1) = some x) (hy : regs (c+2) = some y)
    (haddr : P.precompiledCode fn.id = some addr)
    (hleaf : leafOp (P.protoAt addr) = some (op, swapped)) (hfree : OwnNameFree (P.protoAt addr))
    (ha : asInt P x = some a) (hb : asInt P y = some b)
    (hv : leafValue P op swapped a b = some v)
    (hd : E.callDepth w.host < E.maxCallDepth w.host) :
    (perform (E.sem fnProtos) numLocals call regs w).flow = .next ∧
      (perform (E.sem fnProtos) numLocals call regs w).world.host = w.host ∧
      finishRegs numLocals call (perform (E.sem fnProtos) numLocals call regs w) regs =
        Function.update regs c (some v) := by
  have hops : (List.range' c 3).map (Machine.read numLocals regs) =
      [.value (.function fn), .value x, .value y] := by
    simp [List.range'_succ, read_set hf, read_set hx, read_set hy]
  rw [pairCallBase.eq_def] at hc
  split at hc
  case h_1 c' =>
    cases hc
    have h := execCall_leaf E haddr hleaf hfree ha hb hv (view numLocals regs) w hd
    simp [perform, outcome, Insn.shape.eq_def, operands, operandRegs,
      Insn.collectReads.eq_def, hops, Engine.sem, h, settle.eq_def, finishRegs,
      Insn.mayInvalidateNamedLocals.eq_def, writesOn.eq_def, Insn.collectWrites.eq_def, writeAll,
      view_self]
  case h_2 c' =>
    cases hc
    obtain ⟨memo, h⟩ := execCallMemo_leaf E haddr hleaf hfree ha hb hv (view numLocals regs) w hd
    simp [perform, outcome, Insn.shape.eq_def, operands, operandRegs,
      Insn.collectReads.eq_def, hops, Engine.sem, h, settle.eq_def, finishRegs,
      Insn.mayInvalidateNamedLocals.eq_def, writesOn.eq_def, Insn.collectWrites.eq_def, writeAll,
      view_self]
  case h_3 => cases hc

end calls

section spacing
variable {sites : List Site}

theorem landing_succ (k : ℕ) : landing sites (k+1) = placed sites k+1 := by
  simp only [landing, placed, Nat.lt_succ_iff]
  omega

theorem placed_of_free {k : ℕ} (h : ∀ s ∈ sites, s.pos ≠ k) :
    placed sites k = landing sites k := by
  rw [placed, landing]
  congr 1
  apply List.countP_congr
  intro s hs
  have := h s hs
  simp only [decide_eq_true_eq]
  omega

theorem placed_of_site (hord : Ordered 0 sites) {s : Site} (hs : s ∈ sites) :
    placed sites s.pos = landing sites s.pos+1 := by
  -- induction on the sites: the one at this place is counted once
  suffices h : sites.countP (fun t => t.pos ≤ s.pos) = sites.countP (fun t => t.pos < s.pos)+1 by
    rw [placed, landing, h, add_assoc]
  have hpw := hord.1
  clear hord
  induction sites with
  | nil => cases hs
  | cons t ts ih =>
    have hlt := (List.pairwise_cons.mp hpw).1
    have hts := (List.pairwise_cons.mp hpw).2
    rcases List.mem_cons.mp hs with rfl | hs
    · have h1 : ts.countP (fun t => t.pos ≤ s.pos) = 0 := by
        rw [List.countP_eq_zero]
        intro u hu
        have := hlt u hu
        simp only [decide_eq_true_eq]
        omega
      have h2 : ts.countP (fun t => t.pos < s.pos) = 0 := by
        rw [List.countP_eq_zero]
        intro u hu
        have := hlt u hu
        simp only [decide_eq_true_eq]
        omega
      simp [h1, h2]
    · have h := ih hs hts
      have hlt' := hlt s hs
      have h1 : t.pos ≤ s.pos := by omega
      simp [h, h1, hlt']

/-- Another site has its guard outside the sequence of this one. -/
theorem other_site {eligible : ℕ → Option (BinaryOp × Bool)} {insns : List Insn}
    (hap : sites.Pairwise (fun s t => s.head+4 ≤ t.head)) {s t : Site} (hs : s ∈ sites)
    (ht : t ∈ sites) (seq : Sequence eligible insns t) (hne : t.pos ≠ s.pos) :
    t.pos < s.head ∨ s.head+4 ≤ t.pos := by
  have hsym : sites.Pairwise (fun s t => s.head+4 ≤ t.head ∨ t.head+4 ≤ s.head) :=
    hap.imp fun h => .inl h
  have hst : s ≠ t := fun h => hne (by rw [h])
  have : Std.Symm fun s t : Site => s.head+4 ≤ t.head ∨ t.head+4 ≤ s.head := ⟨fun _ _ => Or.symm⟩
  have h := hsym.forall hs ht hst
  have hpos := seq.pos_eq
  omega

theorem emit_length (placement jumpTargets : List ℕ) (xs : List Insn) (i gpos : ℕ)
    (sites : List Site) (h : Ordered i sites) (hlast : ∀ s ∈ sites, s.pos < i+xs.length) :
    (emit placement jumpTargets xs i gpos sites).length = xs.length+sites.length := by
  induction xs generalizing i gpos sites with
  | nil =>
    cases sites with
    | nil => rfl
    | cons s ss =>
      have h1 := h.2 s (by simp)
      have h2 := hlast s (by simp)
      simp at h2
      omega
  | cons y ys ih =>
    rcases nextSite_spec h with ⟨s, ss, hn, rfl, hs, hss⟩ | ⟨hn, hss⟩
    · have hih := ih (i+1) (gpos+2) ss hss (by
        intro t ht
        have := hlast t (by simp [ht])
        simp only [List.length_cons] at this
        omega)
      simp [emit, hn, hih]
      omega
    · have hih := ih (i+1) (gpos+1) sites hss (by
        intro t ht
        have := hlast t ht
        simp only [List.length_cons] at this
        omega)
      simp [emit, hn, hih]
      omega

theorem pass_length {Obj : Type} {P : Program Obj} {insns : List Insn} {fnProtos : List ℕ}
    (hsites : inlineSites P insns fnProtos = sites) {s : Site} (hs : s ∈ sites) :
    (passInlineLeafBinop P insns fnProtos).length = insns.length+sites.length := by
  have hord : Ordered 0 sites := hsites ▸ inlineSites_ordered
  rw [pass_eq_emit hsites hs]
  apply emit_length _ _ _ _ _ _ hord
  intro u hu
  obtain ⟨seq⟩ := inlineSites_sequence (hsites ▸ hu)
  have hlast := (List.getElem?_eq_some_iff.mp seq.last).1
  have hpos := seq.pos_eq
  omega

end spacing

section exits
variable {Obj Host : Type} {P : Program Obj}

/-- Two states in which the sequence has been left: at the same point of the program, with the
same host and the same registers except the two argument slots. -/
structure Resumed (sites : List Site) (c : Reg) (s t : State (Val Obj) (World P Host)) : Prop where
  pc : t.pc = landing sites s.pc ∨ t.pc = placed sites s.pc
  handlers : t.handlers = s.handlers.map (landing sites)
  host : t.world.host = s.world.host
  regs : ∀ r, r ≠ c+1 → r ≠ c+2 → t.regs r = s.regs r

/-- Two ways out of a sequence: the same end of the frame, or resumed states. -/
def SameExit (sites : List Site) (c : Reg)
    (r r' : List (Event (Val Obj) (World P Host)) × Option (State (Val Obj) (World P Host))) :
    Prop :=
  r.1 = r'.1 ∧ Option.Rel (Resumed sites c) r.2 r'.2

variable {E : Engine P Host} {fnProtos : List ℕ} {numLocals : ℕ} {insns out : List Insn}
  {sites : List Site} {c : Reg}

/-- A raise finds the same handler in both streams, or escapes from both. -/
theorem step_raise {k k' : ℕ} {x : Insn} (hs : insns[k]? = some x) (ht : out[k']? = some x)
    {regs : Regs (Val Obj)} {w : World P Host} (handlers : List ℕ)
    (hf : (perform (E.sem fnProtos) numLocals x regs w).flow = .raise) :
    SameExit sites c
      (step (E.sem fnProtos) numLocals ⟨insns, []⟩ (fun _ _ => none) ⟨k, regs, w, handlers⟩)
      (step (E.sem fnProtos) numLocals ⟨out, []⟩ (fun _ _ => none)
        ⟨k', regs, w, handlers.map (landing sites)⟩) := by
  simp only [step, hs, ht, hf, transfer, raiseTo, visitEvents, List.nil_append]
  cases handlers with
  | nil => exact ⟨rfl, .none⟩
  | cons h rest =>
    simp only [if_true, List.map_cons, proceed, hf]
    cases (E.sem fnProtos).caught (perform (E.sem fnProtos) numLocals x regs w).world with
    | none => exact ⟨rfl, .none⟩
    | some w' => exact ⟨rfl, .some ⟨.inl rfl, rfl, rfl, fun _ _ _ => rfl⟩⟩

/-- The flows of the instructions of a call sequence. -/
def fallsOrRaises : Insn → Prop
  | .move _ _ | .loadConst _ _ | .call _ _ | .callMemo _ _ => True
  | _ => False

theorem perform_fallsOrRaises {x : Insn} (hx : fallsOrRaises x) (regs : Regs (Val Obj))
    (w : World P Host) :
    (perform (E.sem fnProtos) numLocals x regs w).flow = .next ∨
      (perform (E.sem fnProtos) numLocals x regs w).flow = .raise := by
  cases x
  case loadConst => exact .inl rfl
  case move dst src =>
    cases h : regs src with
    | none => exact .inr (perform_move_flow _ h w)
    | some v =>
      left
      rw [perform_copied _ (.inl rfl) h]
  case call f argc =>
    simp only [perform, outcome, Insn.shape.eq_def, Engine.sem]
    split <;> simp [settle.eq_def]
  case callMemo f argc =>
    simp only [perform, outcome, Insn.shape.eq_def, Engine.sem]
    split <;> simp [settle.eq_def]
  all_goals exact hx.elim

theorem fallsOrRaises_spec {x : Insn} (hx : fallsOrRaises x) :
    x.jumpOff = none ∧ x.isHandlerMark = false := by
  cases x <;> first | exact hx.elim | exact ⟨rfl, rfl⟩

/-- Both streams run an instruction of a sequence alike. -/
theorem run_together {k k' n m : ℕ} {x : Insn} (hx : fallsOrRaises x) (hs : insns[k]? = some x)
    (ht : out[k']? = some x) {handlers : List ℕ}
    (hrest : ∀ regs w, SameExit sites c
      (runSequence (E.sem fnProtos) numLocals ⟨insns, []⟩ n ⟨k+1, regs, w, handlers⟩)
      (runSequence (E.sem fnProtos) numLocals ⟨out, []⟩ m
        ⟨k'+1, regs, w, handlers.map (landing sites)⟩)) (regs : Regs (Val Obj))
    (w : World P Host) :
    SameExit sites c
      (runSequence (E.sem fnProtos) numLocals ⟨insns, []⟩ (n+1) ⟨k, regs, w, handlers⟩)
      (runSequence (E.sem fnProtos) numLocals ⟨out, []⟩ (m+1)
        ⟨k', regs, w, handlers.map (landing sites)⟩) := by
  have hm := (fallsOrRaises_spec hx).2
  rcases perform_fallsOrRaises hx regs w with hf | hf
  · rw [runSequence_next hs hm hf, runSequence_next ht hm hf]
    exact hrest _ _
  · have hne : (perform (E.sem fnProtos) numLocals x regs w).flow ≠ .next := by simp [hf]
    rw [runSequence_leave hs hne, runSequence_leave ht hne]
    exact step_raise hs ht handlers hf

/-- A guard that does not hold falls into the instruction it stands before. -/
theorem run_guard_none (hsites : inlineSites P insns fnProtos = sites) {site : Site}
    (hs : site ∈ sites) {m : ℕ} {t : State (Val Obj) (World P Host)}
    (hpc : t.pc = landing sites site.pos)
    (h : guardValue E fnProtos numLocals site t.regs t.world = none) :
    runSequence (E.sem fnProtos) numLocals ⟨passInlineLeafBinop P insns fnProtos, []⟩ (m+1) t =
      runSequence (E.sem fnProtos) numLocals ⟨passInlineLeafBinop P insns fnProtos, []⟩ m
        ⟨placed sites site.pos, t.regs, t.world, t.handlers⟩ := by
  have hget := pass_guard hsites hs
  rw [← hpc] at hget
  obtain ⟨hf, hw, hr⟩ := perform_guard_none (k := (placed sites site.resume : ℤ)-t.pc-1) h
  have hord : Ordered 0 sites := hsites ▸ inlineSites_ordered
  rw [runSequence_next hget rfl hf, hw, hr, hpc, placed_of_site hord hs]

/-- A guard that holds writes its value and goes on behind the call. -/
theorem run_guard_some (hsites : inlineSites P insns fnProtos = sites) {site : Site}
    (hs : site ∈ sites) {m : ℕ} {t : State (Val Obj) (World P Host)} {v : Val Obj}
    (hpc : t.pc = landing sites site.pos)
    (h : guardValue E fnProtos numLocals site t.regs t.world = some v) :
    runSequence (E.sem fnProtos) numLocals ⟨passInlineLeafBinop P insns fnProtos, []⟩ (m+1) t =
      ([], some ⟨placed sites site.resume, Function.update t.regs site.dst (some v), t.world,
        t.handlers⟩) := by
  have hget := pass_guard hsites hs
  rw [← hpc] at hget
  obtain ⟨hf, hw, hr⟩ := perform_guard_some (k := (placed sites site.resume : ℤ)-t.pc-1) h
  have hord : Ordered 0 sites := hsites ▸ inlineSites_ordered
  have hle : placed sites site.resume ≤ (passInlineLeafBinop P insns fnProtos).length := by
    obtain ⟨seq⟩ := inlineSites_sequence (hsites ▸ hs)
    have hlast := (List.getElem?_eq_some_iff.mp seq.last).1
    have hres := seq.resume_eq
    have hcount := List.countP_le_length (p := fun u : Site => decide (u.pos ≤ site.resume))
      (l := sites)
    rw [pass_length hsites hs, placed]
    omega
  have htr : (site.guard ((placed sites site.resume : ℤ)-t.pc-1)).jumpOff.bind
      (target (passInlineLeafBinop P insns fnProtos).length t.pc) =
        some (placed sites site.resume) := target_fix hle
  rw [runSequence_leave hget (by simp [hf])]
  simp only [step, hget, hf, transfer, htr, proceed, hw, hr, visitEvents, List.append_nil]

/-- The operands of a guard that holds, in the order of the call's arguments. -/
theorem guardValue_args {site : Site} {x y : Reg} {swapped : Bool} {regs : Regs (Val Obj)}
    {w : World P Host} {v : Val Obj} (ha : site.a = if swapped then y else x)
    (hb : site.b = if swapped then x else y)
    (h : guardValue E fnProtos numLocals site regs w = some v) :
    E.callDepth w.host < E.maxCallDepth w.host ∧ ∃ fn addr X Y a b,
      regs site.callee = some (.function fn) ∧ fnProtos[site.proto]? = some addr ∧
      P.precompiledCode fn.id = some addr ∧ regs x = some X ∧ regs y = some Y ∧
      asInt P X = some a ∧ asInt P Y = some b ∧ leafValue P site.op swapped a b = some v := by
  obtain ⟨hd, fn, addr, X, Y, a, b, hfn, hp, hc, hX, hY, hXa, hYb, hv⟩ := guardValue_spec h
  refine ⟨hd, ?_⟩
  cases swapped with
  | false =>
    rw [ha] at hX
    rw [hb] at hY
    exact ⟨fn, addr, X, Y, a, b, hfn, hp, hc, hX, hY, hXa, hYb, hv⟩
  | true =>
    rw [ha] at hX
    rw [hb] at hY
    exact ⟨fn, addr, Y, X, b, a, hfn, hp, hc, hY, hX, hYb, hXa, hv⟩

end exits

section faithful
variable {Obj Host : Type} {P : Program Obj} {E : Engine P Host} {fnProtos : List ℕ}
  {numLocals : ℕ} {insns : List Insn} {sites : List Site}

theorem pairCall_falls {call : Insn} {c : Reg} (h : pairCallBase call = some c) :
    fallsOrRaises call := by
  rw [pairCallBase.eq_def] at h
  split at h
  · trivial
  · trivial
  · cases h

theorem loader_falls {slot : Reg} {x : Insn} {a : ArgSrc} (h : argSrc slot x = some a) :
    fallsOrRaises x := by
  rw [argSrc.eq_def] at h
  split at h
  · trivial
  · trivial
  · cases h

theorem loader_reg {slot r : Reg} {x : Insn} (h : argSrc slot x = some (.reg r)) :
    x = .move slot r := by
  rw [argSrc.eq_def] at h
  split at h
  · split at h
    · rename_i hd
      cases h
      rw [hd]
    · cases h
  · split at h <;> cases h
  · cases h

/-- A site's guard stands before its sequence and reads the argument sources, or before its
call and reads the argument slots. -/
theorem Sequence.cases {eligible : ℕ → Option (BinaryOp × Bool)} {site : Site}
    (seq : Sequence eligible insns site) :
    (∃ x y, seq.w1 = .move (seq.c+1) x ∧ seq.w2 = .move (seq.c+2) y ∧ x ≠ seq.c ∧ y ≠ seq.c ∧
      y ≠ seq.c+1 ∧
      site = earlySite site.head seq.c seq.f x y site.op seq.swapped site.proto) ∨
    site = lateSite site.head seq.c site.op seq.swapped site.proto := by
  have hg := seq.guard
  rw [placeGuard.eq_def] at hg
  split at hg
  case h_2 => exact .inr hg
  case h_1 x y h1 h2 =>
    split at hg
    case isFalse => exact .inr hg
    case isTrue hne =>
      exact .inl ⟨x, y, loader_reg (h1 ▸ seq.first_src), loader_reg (h2 ▸ seq.second_src), hne.1,
        hne.2.1, hne.2.2, hg⟩

theorem placed_inside (hsites : inlineSites P insns fnProtos = sites) {site : Site}
    (hs : site ∈ sites) {k : ℕ} (hk : site.head ≤ k) (hk' : k < site.head+4) (hne : k ≠ site.pos) :
    placed sites k = landing sites k := by
  apply placed_of_free
  intro t ht hpos
  obtain ⟨seq⟩ := inlineSites_sequence (hsites ▸ ht)
  have hap : sites.Pairwise (fun s t => s.head+4 ≤ t.head) := hsites ▸ inlineSites_apart
  have h := other_site hap hs ht seq (by omega)
  omega

theorem Sequence.insn_at {eligible : ℕ → Option (BinaryOp × Bool)} {site : Site}
    (seq : Sequence eligible insns site) {j : ℕ} (h1 : site.head ≤ j) (h2 : j < site.head+4) :
    ∃ x, insns[j]? = some x ∧ fallsOrRaises x := by
  have hj : j = site.head ∨ j = site.head+1 ∨ j = site.head+2 ∨ j = site.head+3 := by omega
  rcases hj with rfl | rfl | rfl | rfl
  · exact ⟨_, seq.load, trivial⟩
  · exact ⟨_, seq.first, loader_falls seq.first_src⟩
  · exact ⟨_, seq.second, loader_falls seq.second_src⟩
  · exact ⟨_, seq.last, pairCall_falls seq.base⟩

/-- The loaders and the call of a sequence, from the instruction `j` of it on, when no guard
is left before them. -/
theorem run_tail (hsites : inlineSites P insns fnProtos = sites) {site : Site}
    (hs : site ∈ sites) (c : Reg) {k n : ℕ} (hk : site.head ≤ k) (hkn : k+n = site.head+4)
    (hguard : site.pos ≤ k) {regs : Regs (Val Obj)} {w : World P Host} {handlers : List ℕ} :
    SameExit sites c
      (runSequence (E.sem fnProtos) numLocals ⟨insns, []⟩ n ⟨k, regs, w, handlers⟩)
      (runSequence (E.sem fnProtos) numLocals ⟨passInlineLeafBinop P insns fnProtos, []⟩ n
        ⟨placed sites k, regs, w, handlers.map (landing sites)⟩) := by
  obtain ⟨seq⟩ := inlineSites_sequence (hsites ▸ hs)
  induction n generalizing k regs w with
  | zero => exact ⟨rfl, .some ⟨.inr rfl, rfl, rfl, fun _ _ _ => rfl⟩⟩
  | succ n ih =>
    obtain ⟨x, hx, hfx⟩ := seq.insn_at hk (by omega)
    have hout := pass_plain hsites hs hx (fallsOrRaises_spec hfx).1
    apply run_together hfx hx hout
    intro regs' w'
    by_cases hn : n = 0
    · subst hn
      exact ⟨rfl, .some ⟨.inl (landing_succ k).symm, rfl, rfl, fun _ _ _ => rfl⟩⟩
    · have hp : placed sites k+1 = placed sites (k+1) := by
        rw [placed_inside (k := k+1) hsites hs (by omega) (by omega) (by omega), landing_succ]
      simp only [hp]
      exact ih (by omega) (by omega) (by omega)

/-- Every prototype that is a leaf leaves the register of its own name alone. -/
def LeavesOwnNameFree (P : Program Obj) (fnProtos : List ℕ) : Prop :=
  ∀ addr ∈ fnProtos, (leafOp (P.protoAt addr)).isSome → OwnNameFree (P.protoAt addr)

theorem Sequence.leaf_addr {site : Site} (seq : Sequence (eligibleOps P fnProtos) insns site)
    (hfree : LeavesOwnNameFree P fnProtos) {addr : ℕ} (h : fnProtos[site.proto]? = some addr) :
    leafOp (P.protoAt addr) = some (site.op, seq.swapped) ∧ OwnNameFree (P.protoAt addr) := by
  have hleaf := seq.leaf
  rw [eligibleOps, h, Option.bind_some] at hleaf
  exact ⟨hleaf, hfree addr (List.mem_of_getElem? h) (by simp [hleaf])⟩

/-- The original call, where the guard would have held, gives the guard's value. -/
theorem run_call (numLocals : ℕ) {site : Site}
    (seq : Sequence (eligibleOps P fnProtos) insns site)
    (hfree : LeavesOwnNameFree P fnProtos) (regs : Regs (Val Obj)) {w : World P Host}
    {fn : UserFunction} {addr : ℕ} {X Y v : Val Obj} {a b : ℤ}
    (hd : E.callDepth w.host < E.maxCallDepth w.host)
    (hfn : regs seq.c = some (.function fn)) (hp : fnProtos[site.proto]? = some addr)
    (hcode : P.precompiledCode fn.id = some addr) (hX : regs (seq.c+1) = some X)
    (hY : regs (seq.c+2) = some Y) (ha : asInt P X = some a) (hb : asInt P Y = some b)
    (hv : leafValue P site.op seq.swapped a b = some v) (handlers : List ℕ) :
    ∃ w', w'.host = w.host ∧
      runSequence (E.sem fnProtos) numLocals ⟨insns, []⟩ 1 ⟨site.head+3, regs, w, handlers⟩ =
        ([], some ⟨site.head+4, Function.update regs seq.c (some v), w', handlers⟩) := by
  obtain ⟨hleaf, hown⟩ := seq.leaf_addr hfree hp
  have hcall : (perform (E.sem fnProtos) numLocals seq.call regs w).flow = .next ∧
      (perform (E.sem fnProtos) numLocals seq.call regs w).world.host = w.host ∧
      finishRegs numLocals seq.call (perform (E.sem fnProtos) numLocals seq.call regs w) regs =
        Function.update regs seq.c (some v) :=
    perform_pairCall seq.base hfn hX hY hcode hleaf hown ha hb hv hd
  have hm := (fallsOrRaises_spec (pairCall_falls seq.base)).2
  refine ⟨_, hcall.2.1, ?_⟩
  rw [runSequence_next seq.last hm hcall.1, hcall.2.2]
  rfl

theorem run_move {code : Code} {n k : ℕ} {dst src : Reg} {v : Val Obj} {regs : Regs (Val Obj)}
    {w : World P Host} {handlers : List ℕ} (hi : code.insns[k]? = some (.move dst src))
    (hv : regs src = some v) :
    runSequence (E.sem fnProtos) numLocals code (n+1) ⟨k, regs, w, handlers⟩ =
      runSequence (E.sem fnProtos) numLocals code n
        ⟨k+1, Function.update regs dst (some v), w, handlers⟩ := by
  have hp : perform (E.sem fnProtos) numLocals (.move dst src) regs w =
      ⟨w, view numLocals regs, .next, fun _ => some v, fun _ => false⟩ :=
    perform_copied _ (.inl rfl) hv w
  rw [runSequence_next hi rfl (by rw [hp]), perform_move _ hv, hp]

theorem late_faithful (hsites : inlineSites P insns fnProtos = sites)
    (hfree : LeavesOwnNameFree P fnProtos) {site : Site} (hs : site ∈ sites)
    (seq : Sequence (eligibleOps P fnProtos) insns site)
    (hlate : site = lateSite site.head seq.c site.op seq.swapped site.proto)
    (regs : Regs (Val Obj)) (w : World P Host) (handlers : List ℕ) :
    SameExit sites site.dst
      (runSequence (E.sem fnProtos) numLocals ⟨insns, []⟩ 4 ⟨site.head, regs, w, handlers⟩)
      (runSequence (E.sem fnProtos) numLocals ⟨passInlineLeafBinop P insns fnProtos, []⟩ 5
        ⟨landing sites site.head, regs, w, handlers.map (landing sites)⟩) := by
  have hpos : site.pos = site.head+3 := congrArg Site.pos hlate
  have hcallee : site.callee = seq.c := congrArg Site.callee hlate
  have hdst : site.dst = seq.c := congrArg Site.dst hlate
  have hres := seq.resume_eq
  have hstep : ∀ j < 3, landing sites (site.head+j) = placed sites (site.head+j) := by
    intro j hj
    exact (placed_inside hsites hs (by omega) (by omega) (by omega)).symm
  have hget : ∀ {j x}, j < 3 → insns[site.head+j]? = some x → fallsOrRaises x →
      (passInlineLeafBinop P insns fnProtos)[landing sites (site.head+j)]? = some x := by
    intro j x hj hx hfx
    rw [hstep j hj]
    exact pass_plain hsites hs hx (fallsOrRaises_spec hfx).1
  have hsucc : ∀ j < 3, landing sites (site.head+j)+1 = landing sites (site.head+j+1) := by
    intro j hj
    rw [hstep j hj, landing_succ]
  have h0 : fallsOrRaises (.move seq.c seq.f) := trivial
  have h1 := loader_falls seq.first_src
  have h2 := loader_falls seq.second_src
  apply run_together h0 seq.load (hget (j := 0) (by omega) seq.load h0)
  intro regs w
  rw [hsucc 0 (by omega)]
  apply run_together h1 seq.first (hget (j := 1) (by omega) seq.first h1)
  intro regs w
  rw [hsucc 1 (by omega)]
  apply run_together h2 seq.second (hget (j := 2) (by omega) seq.second h2)
  intro regs w
  rw [hsucc 2 (by omega)]
  -- both streams stand before the call, the output at its guard
  cases hg : guardValue E fnProtos numLocals site regs w with
  | none =>
    rw [run_guard_none hsites hs (by rw [hpos]) hg, hpos]
    exact run_tail hsites hs site.dst (by omega) (by omega) (by omega)
  | some v =>
    obtain ⟨hd, fn, addr, X, Y, a, b, hfn, hp, hcode, hX, hY, ha, hb, hv⟩ := guardValue_args
      (x := seq.c+1) (y := seq.c+2) (congrArg Site.a hlate) (congrArg Site.b hlate) hg
    rw [hcallee] at hfn
    obtain ⟨w', hw', hrun⟩ := run_call numLocals seq hfree regs hd hfn hp hcode hX hY ha hb hv handlers
    rw [run_guard_some hsites hs (by rw [hpos]) hg, hrun]
    refine ⟨rfl, .some ⟨.inr ?_, rfl, hw'.symm, ?_⟩⟩
    · rw [hres]
    · intro r _ _
      rw [hdst]

theorem early_faithful (hsites : inlineSites P insns fnProtos = sites)
    (hfree : LeavesOwnNameFree P fnProtos) {site : Site} (hs : site ∈ sites)
    (seq : Sequence (eligibleOps P fnProtos) insns site) {x y : Reg}
    (hw1 : seq.w1 = .move (seq.c+1) x) (hw2 : seq.w2 = .move (seq.c+2) y) (hxc : x ≠ seq.c)
    (hyc : y ≠ seq.c) (hyc' : y ≠ seq.c+1)
    (hearly : site = earlySite site.head seq.c seq.f x y site.op seq.swapped site.proto)
    (regs : Regs (Val Obj)) (w : World P Host) (handlers : List ℕ) :
    SameExit sites site.dst
      (runSequence (E.sem fnProtos) numLocals ⟨insns, []⟩ 4 ⟨site.head, regs, w, handlers⟩)
      (runSequence (E.sem fnProtos) numLocals ⟨passInlineLeafBinop P insns fnProtos, []⟩ 5
        ⟨landing sites site.head, regs, w, handlers.map (landing sites)⟩) := by
  have hpos : site.pos = site.head := congrArg Site.pos hearly
  have hcallee : site.callee = seq.f := congrArg Site.callee hearly
  have hdst : site.dst = seq.c := congrArg Site.dst hearly
  have hres := seq.resume_eq
  cases hg : guardValue E fnProtos numLocals site regs w with
  | none =>
    rw [run_guard_none hsites hs (by rw [hpos]) hg, hpos]
    exact run_tail hsites hs site.dst (le_refl _) rfl hpos.le
  | some v =>
    obtain ⟨hd, fn, addr, X, Y, a, b, hfn, hp, hcode, hX, hY, ha, hb, hv⟩ := guardValue_args
      (x := x) (y := y) (congrArg Site.a hearly) (congrArg Site.b hearly) hg
    rw [hcallee] at hfn
    have hfirst := seq.first
    have hsecond := seq.second
    rw [hw1] at hfirst
    rw [hw2] at hsecond
    -- the sources are read before any slot of the call window that could alias them is written
    rw [run_guard_some hsites hs (by rw [hpos]) hg, run_move seq.load hfn,
      run_move (v := X) hfirst (by rw [Function.update_of_ne hxc, hX]),
      run_move (v := Y) hsecond (by
        rw [Function.update_of_ne hyc', Function.update_of_ne hyc, hY])]
    obtain ⟨w', hw', hrun⟩ := run_call numLocals seq hfree
      (Function.update (Function.update (Function.update regs seq.c (some (.function fn)))
        (seq.c+1) (some X)) (seq.c+2) (some Y)) hd
      (by simp [Function.update_of_ne]) hp hcode (by simp [Function.update_of_ne]) (by simp) ha hb
      hv handlers
    rw [hrun]
    refine ⟨rfl, .some ⟨.inr ?_, rfl, hw'.symm, ?_⟩⟩
    · rw [hres]
    · intro r hr1 hr2
      rw [hdst] at hr1 hr2 ⊢
      by_cases hrc : r = seq.c
      · simp [hrc]
      · simp [Function.update_of_ne hrc, Function.update_of_ne hr1, Function.update_of_ne hr2]

theorem site_faithful (hsites : inlineSites P insns fnProtos = sites)
    (hfree : LeavesOwnNameFree P fnProtos) {site : Site} (hs : site ∈ sites)
    (regs : Regs (Val Obj)) (w : World P Host) (handlers : List ℕ) :
    SameExit sites site.dst
      (runSequence (E.sem fnProtos) numLocals ⟨insns, []⟩ 4 ⟨site.head, regs, w, handlers⟩)
      (runSequence (E.sem fnProtos) numLocals ⟨passInlineLeafBinop P insns fnProtos, []⟩ 5
        ⟨landing sites site.head, regs, w, handlers.map (landing sites)⟩) := by
  obtain ⟨seq⟩ := inlineSites_sequence (hsites ▸ hs)
  rcases seq.cases with ⟨x, y, hw1, hw2, hxc, hyc, hyc', hearly⟩ | hlate
  · exact early_faithful hsites hfree hs seq hw1 hw2 hxc hyc hyc' hearly regs w handlers
  · exact late_faithful hsites hfree hs seq hlate regs w handlers

/-- A jump of the input leads to the landing of its target. -/
theorem pass_jump (hsites : inlineSites P insns fnProtos = sites) {pc u : ℕ} {x : Insn}
    (hx : insns[pc]? = some x) (hu : x.jumpOff.bind (target insns.length pc) = some u) :
    ∃ y, (passInlineLeafBinop P insns fnProtos)[placed sites pc]? = some y ∧
      y.shape = x.shape ∧ y.jumpOff.bind (target (passInlineLeafBinop P insns fnProtos).length
        (placed sites pc)) = some (landing sites u) := by
  by_cases hempty : sites = []
  · have hout : passInlineLeafBinop P insns fnProtos = insns := by
      simp [passInlineLeafBinop, hsites, hempty]
    subst hempty
    rw [hout]
    exact ⟨x, by simpa [placed] using hx, rfl, by simpa [placed, landing] using hu⟩
  · obtain ⟨site, hs⟩ := List.exists_mem_of_ne_nil _ hempty
    have hord : Ordered 0 sites := hsites ▸ inlineSites_ordered
    obtain ⟨k, hk, htk⟩ := Option.bind_eq_some_iff.mp hu
    have hlt : pc < insns.length := (List.getElem?_eq_some_iff.mp hx).1
    have hju : jumpTarget pc k = u ∧ u ≤ insns.length := by
      rw [target] at htk
      split at htk
      case isFalse => cases htk
      case isTrue hr =>
        have hut := Option.some.inj htk
        simp only [jumpTarget, hr.1, if_true]
        omega
    refine ⟨_, pass_rewrite hsites hs hx, by simp [rewriteOffsetsWith], ?_⟩
    have hp := (table_getD hord (Nat.le_of_lt hlt)).1
    have hl := (table_getD hord hju.2).2
    have hlen : landing sites u ≤ (passInlineLeafBinop P insns fnProtos).length := by
      rw [pass_length hsites hs, landing]
      have hcount := List.countP_le_length (p := fun t : Site => decide (t.pos < u)) (l := sites)
      omega
    have ht := rewrite_target (passInlineLeafBinop P insns fnProtos).length pc
      (placementTable insns.length sites) (jumpTable insns.length sites) hk
      (by rw [hju.1, hl]; exact hlen)
    rwa [hp, hju.1, hl] at ht

/-- What the pass keeps of a stream. Each site runs to the same exit, sites do not overlap, a
jump leads to the landing of its old target, and a sequence keeps its instructions: only the
one that the guard stands before is entered through the guard. -/
structure Faithful (E : Engine P Host) (numLocals : ℕ) (insns : List Insn) (fnProtos : List ℕ) :
    Prop where
  exits : ∀ site ∈ inlineSites P insns fnProtos, ∀ regs w handlers,
    SameExit (inlineSites P insns fnProtos) site.dst
      (runSequence (E.sem fnProtos) numLocals ⟨insns, []⟩ 4 ⟨site.head, regs, w, handlers⟩)
      (runSequence (E.sem fnProtos) numLocals ⟨passInlineLeafBinop P insns fnProtos, []⟩ 5
        ⟨landing (inlineSites P insns fnProtos) site.head, regs, w,
          handlers.map (landing (inlineSites P insns fnProtos))⟩)
  apart : (inlineSites P insns fnProtos).Pairwise fun s t => s.head+4 ≤ t.head
  jumps : ∀ pc x u, insns[pc]? = some x → x.jumpOff.bind (target insns.length pc) = some u →
    ∃ y, (passInlineLeafBinop P insns fnProtos)[placed (inlineSites P insns fnProtos) pc]? =
        some y ∧ y.shape = x.shape ∧
      y.jumpOff.bind (target (passInlineLeafBinop P insns fnProtos).length
        (placed (inlineSites P insns fnProtos) pc)) =
          some (landing (inlineSites P insns fnProtos) u)
  kept : ∀ site ∈ inlineSites P insns fnProtos, ∀ k, site.head ≤ k → k < site.head+4 →
    (passInlineLeafBinop P insns fnProtos)[placed (inlineSites P insns fnProtos) k]? = insns[k]? ∧
      (k ≠ site.pos → landing (inlineSites P insns fnProtos) k =
        placed (inlineSites P insns fnProtos) k) ∧
      (k = site.pos → ∃ skip, (passInlineLeafBinop P insns fnProtos)[landing
        (inlineSites P insns fnProtos) k]? = some (site.guard skip))

theorem leaf_inlining_faithful (E : Engine P Host) (numLocals : ℕ) (insns : List Insn)
    (fnProtos : List ℕ) (hfree : LeavesOwnNameFree P fnProtos) :
    Faithful E numLocals insns fnProtos where
  exits site hs regs w handlers := site_faithful rfl hfree hs regs w handlers
  apart := inlineSites_apart
  jumps pc x u hx hu := pass_jump rfl hx hu
  kept site hs k hk hk' := by
    obtain ⟨seq⟩ := inlineSites_sequence hs
    obtain ⟨x, hx, hfx⟩ := seq.insn_at hk hk'
    refine ⟨?_, ?_, ?_⟩
    · rw [pass_plain rfl hs hx (fallsOrRaises_spec hfx).1, hx]
    · intro hne
      exact (placed_inside rfl hs hk hk' hne).symm
    · intro hpos
      rw [hpos]
      exact ⟨_, pass_guard rfl hs⟩

end faithful

/-- `def add(a, b): return a + b`. -/
def addProto : FnProto where
  name := "add"
  params := [⟨"a", false, false, false, false⟩, ⟨"b", false, false, false, false⟩]
  code := ⟨[.binOp 2 0 .add 1, .ret 2], false, false, []⟩
  localIndex := ["a", "b"]
  globalNames := []
  nonlocalNames := []
  isMemoPure := true
  params_first := ⟨[], rfl⟩
  nodup := by decide

def addProgram : Program Unit where
  precompiledCode _ := some 0
  protoAt _ := addProto
  bigToI64 _ := none
  isScalar _ := true
  intIntOther _ _ _ := none

/-- A runtime one frame deep in which everything but the modelled calls raises. -/
def addEngine : Engine addProgram Unit where
  callDepth _ := 1
  maxCallDepth _ := 1000
  recursionError := id
  runRest _ _ _ locals w := ⟨w, locals, none⟩
  callOther _ locals w := ⟨w, locals, none⟩
  const _ := .object ()
  none := .object ()
  exec _ _ locals w := ⟨w, locals, .raise, fun _ => none, fun _ => false⟩
  unbound _ := id
  caught := some

/-- A call `add(x, y)` with its function and arguments in registers. -/
def addCall : List Insn :=
  [.makeFunction 0 0 0 0 0 0, .move 3 0, .move 4 1, .move 5 2, .call 3 2, .ret 3]

theorem leaf_inlining_faithful_add :
    (inlineSites addProgram addCall [0]).map Site.head = [1] ∧ LeavesOwnNameFree addProgram [0] ∧
      Faithful addEngine 3 addCall [0] := by
  have hfree : LeavesOwnNameFree addProgram [0] := by
    intro addr _ _
    show OwnNameFree addProto
    decide
  exact ⟨by decide, hfree, leaf_inlining_faithful addEngine 3 addCall [0] hfree⟩

/-- No instruction outside a rewritten sequence jumps behind its first instruction. -/
def NoInnerJumps {Obj : Type} (P : Program Obj) (insns : List Insn) (fnProtos : List ℕ) : Prop :=
  let sites := inlineSites P insns fnProtos
  let out := passInlineLeafBinop P insns fnProtos
  ∀ site ∈ sites, ∀ pc x u, out[pc]? = some x → x.jumpOff.bind (target out.length pc) = some u →
    (pc < landing sites site.head ∨ placed sites (site.head+3) < pc) →
    u ≤ landing sites site.head ∨ placed sites (site.head+3) < u

/-- The branch at instruction 1 skips the load of the callee. -/
def addCallEntered : List Insn :=
  [.makeFunction 0 0 0 0 0 0, .jumpIfFalse 1 1, .move 3 0, .move 4 1, .move 5 2, .call 3 2, .ret 3]

theorem inner_jump_kept : ¬ NoInnerJumps addProgram addCallEntered [0] := by
  intro h
  have hj := h ⟨2, 0, 3, 1, .add, 2, 0, 6⟩ (by decide) 1 (.jumpIfFalse 1 2) 4 (by decide)
    (by decide) (by decide)
  exact absurd hj (by decide)

end Pyrust.LeafInlining
