import Pyrust.CopyPropagation
import Pyrust.DeadStores

/-!
# Chains of string additions

Which registers hold a string before an instruction, as the pass tracks it along
a block; the chains of additions it finds; and the rewriting of one chain into
copies of its operands and a single concatenation. The pass rewrites the first
chain it finds and starts over, until it finds none.
-/

set_option autoImplicit false

namespace Pyrust.ConcatChains

open Bytecode Machine Compaction
open CopyPropagation (targetOff isTarget)

/-- Membership in `bb_starts`. -/
def bbStart (insns : List Insn) (i : ℕ) : Bool :=
  insns.zipIdx.any fun x => (targetOff x.1).any fun k => jumpTarget x.2 k = i

section pass
variable (numLocals : ℕ) (strConst : ℕ → Bool)

/-- `apply_str_regs_transfer`; `strConst` tells which pool entries are strings. -/
def strStep (x : Insn) (strs : Reg → Bool) : Reg → Bool :=
  let strs := match x with
    | .loadConst dst c => Function.update strs dst (numLocals ≤ dst && strConst c)
    | .move dst src => Function.update strs dst (numLocals ≤ dst && strs src)
    | .binOp dst lhs .add rhs =>
      Function.update strs dst (numLocals ≤ dst && strs lhs && strs rhs)
    | .binOpConst dst lhs .add c _ =>
      Function.update strs dst (numLocals ≤ dst && strs lhs && strConst c)
    | .concat dst _ _ | .buildString dst _ _ | .formatValue dst _ | .formatValueSpec dst _ _ =>
      Function.update strs dst (decide (numLocals ≤ dst))
    | other => match other.writableDst with
      | some dst => Function.update strs dst false
      | none => strs
  if x.mayInvalidateNamedLocals then fun r => numLocals ≤ r && strs r else strs

/-- `str_regs_before[i]`. -/
def strRegsBefore (insns : List Insn) : ℕ → Reg → Bool
  | 0 => fun _ => false
  | i+1 =>
    if bbStart insns (i+1) then fun _ => false
    else match insns[i]? with
      | some x => strStep numLocals strConst x (strRegsBefore insns i)
      | none => fun _ => false

/-- `use_count`, the reads of a register in the whole stream. -/
def useCount (insns : List Insn) (r : Reg) : ℕ := (insns.flatMap Insn.collectReads).count r

/-- A chain of additions: its position, the left operand of the first of them, and for each its
destination and its right operand. -/
structure Chain where
  first : ℕ
  lhs : Reg
  links : List (Reg × Reg)
  deriving DecidableEq, Repr

namespace Chain
variable (c : Chain)

/-- `leaf_operands`. -/
def leaves : List Reg := c.lhs :: c.links.map Prod.snd

/-- `intermediate_dsts`, the last of which is the destination of the whole chain. -/
def dsts : List Reg := c.links.map Prod.fst

def finalDst : Reg := c.dsts.getLastD 0

/-- `last_pos + 1`. -/
def stop : ℕ := c.first + c.links.length

end Chain

/-- The additions that carry a chain on: each takes the result so far, which is read nowhere
else unless it is also overwritten. -/
def extendChain (insns : List Insn) : ℕ → Reg → List Insn → List (Reg × Reg)
  | j, prev, .binOp dst lhs .add rhs :: rest =>
    if bbStart insns j = false ∧ lhs = prev ∧ numLocals ≤ dst ∧
        (dst ≠ prev → useCount insns prev = 1) then
      (dst, rhs) :: extendChain insns (j+1) dst rest
    else []
  | _, _, _ => []

/-- `MAX_FRAME_REGS`. -/
def maxFrameRegs : ℕ := 2^20

/-- The tests a chain has to pass. -/
def mergeable (insns : List Insn) (numRegs : ℕ) (c : Chain) : Prop :=
  2 ≤ c.links.length ∧ (∀ r ∈ c.leaves, strRegsBefore numLocals strConst insns c.first r) ∧
    c.leaves.length ≤ 255 ∧ (∀ r ∈ c.leaves, r ∉ c.dsts.dropLast) ∧
    numRegs + c.leaves.length ≤ maxFrameRegs

instance (insns : List Insn) (numRegs : ℕ) (c : Chain) :
    Decidable (mergeable numLocals strConst insns numRegs c) := inferInstanceAs (Decidable (_ ∧ _))

/-- The chain that begins at a position, if it is one to merge. -/
def chainAt (insns : List Insn) (numRegs i : ℕ) : Option Chain :=
  match insns[i]? with
  | some (.binOp dst lhs .add rhs) =>
    let c : Chain := ⟨i, lhs, (dst, rhs) :: extendChain numLocals insns (i+1) dst
      (insns.drop (i+1))⟩
    if numLocals ≤ dst ∧ mergeable numLocals strConst insns numRegs c then some c else none
  | _ => none

/-- The first chain to merge. -/
def firstChain (insns : List Insn) (numRegs : ℕ) : Option Chain :=
  (List.range insns.length).findSome? (chainAt numLocals strConst insns numRegs)

/-- The copies of the operands into the window from `base` on, and the concatenation. -/
def Chain.window (c : Chain) (base : Reg) : List Insn :=
  (c.leaves.mapIdx fun m r => .move (base + m) r) ++ [Insn.concat c.finalDst base c.leaves.length]

/-- `old_to_new[k]`. -/
def Chain.newIdx (c : Chain) (k : ℕ) : ℕ := if k < c.stop then min k c.first else k + 2

/-- The rebuilt instruction list. -/
def rebuild (insns : List Insn) (c : Chain) (base : Reg) : List Insn :=
  insns.zipIdx.flatMap fun x =>
    if x.2 = c.first then c.window base
    else if c.first < x.2 ∧ x.2 < c.stop then []
    else [rewriteOffsets x.1 x.2 ((List.range (insns.length+1)).map c.newIdx)]

/-- An instruction list with `num_regs`. -/
structure Stream where
  insns : List Insn
  numRegs : ℕ
  deriving DecidableEq, Repr

/-- `pass_concat_merge_once`; `none` when nothing has changed. -/
def mergeOnce (s : Stream) : Option Stream :=
  (firstChain numLocals strConst s.insns s.numRegs).map fun c =>
    ⟨rebuild s.insns c s.numRegs, s.numRegs + c.leaves.length⟩

/-- The stream after some rounds. -/
def rounds (s : Stream) : ℕ → Stream
  | 0 => s
  | k+1 => (mergeOnce numLocals strConst (rounds s k)).getD (rounds s k)

/-- An addition. -/
def isAdd : Insn → Bool
  | .binOp _ _ .add _ => true
  | _ => false

/-- The loop of `pass_concat_merge`. A round removes additions, so that as many rounds as the
stream has additions are more than enough. -/
def passConcatMerge (s : Stream) : Stream :=
  rounds numLocals strConst s (s.insns.countP isAdd)

/-! ## What a chain is -/

variable {numLocals strConst} {insns : List Insn} {numRegs : ℕ} {c : Chain}

/-- A chain to merge: where its additions stand, and what the pass has tested of them. -/
structure Found (numLocals : ℕ) (strConst : ℕ → Bool) (insns : List Insn) (numRegs : ℕ)
    (c : Chain) : Prop where
  link : ∀ (a : ℕ) (p d r : Reg), (c.lhs :: c.dsts)[a]? = some p → c.links[a]? = some (d, r) →
    insns[c.first + a]? = some (.binOp d p .add r)
  temp : ∀ d ∈ c.dsts, numLocals ≤ d
  block : ∀ j, c.first < j → j < c.stop → bbStart insns j = false
  single : ∀ (a : ℕ) (d d' : Reg), c.dsts[a]? = some d → c.dsts[a+1]? = some d' → d' ≠ d →
    useCount insns d = 1
  tests : mergeable numLocals strConst insns numRegs c

attribute [local simp] extendChain in
variable (numLocals insns) in
theorem extendChain_spec (xs : List Insn) (j : ℕ) (prev : Reg) (a : ℕ) (d r : Reg)
    (h : (extendChain numLocals insns j prev xs)[a]? = some (d, r)) :
    ∃ p, (prev :: (extendChain numLocals insns j prev xs).map Prod.fst)[a]? = some p ∧
      xs[a]? = some (.binOp d p .add r) ∧ bbStart insns (j+a) = false ∧ numLocals ≤ d ∧
      (d ≠ p → useCount insns p = 1) := by
  induction xs generalizing j prev a with
  | nil => simp [extendChain] at h
  | cons x xs ih =>
    unfold extendChain at h ⊢
    split at h
    · rename_i j prev _ _ _ dst lhs rhs rest heq
      obtain ⟨rfl, rfl⟩ := List.cons.inj heq
      split_ifs at h ⊢ with hc
      · obtain ⟨hb, rfl, ht, hu⟩ := hc
        cases a with
        | zero =>
          obtain ⟨rfl, rfl⟩ : dst = d ∧ rhs = r := by simpa using h
          exact ⟨lhs, rfl, rfl, hb, ht, hu⟩
        | succ a =>
          obtain ⟨p, hp, hx, hrest⟩ := ih (j+1) dst a h
          have hpos : j+1+a = j+(a+1) := by omega
          rw [hpos] at hrest
          exact ⟨p, by simpa using hp, by simpa using hx, hrest⟩
      · simp at h
    · simp at h

theorem chainAt_found {i : ℕ} (h : chainAt numLocals strConst insns numRegs i = some c) :
    Found numLocals strConst insns numRegs c := by
  unfold chainAt at h
  split at h
  · rename_i dst lhs rhs hx
    dsimp only at h
    split_ifs at h with hc
    obtain rfl := Option.some.inj h
    have hspec := extendChain_spec numLocals insns (insns.drop (i+1)) (i+1) dst
    have hlink : ∀ (a : ℕ) (p d r : Reg),
        (lhs :: dst :: (extendChain numLocals insns (i+1) dst (insns.drop (i+1))).map
          Prod.fst)[a]? = some p →
        ((dst, rhs) :: extendChain numLocals insns (i+1) dst (insns.drop (i+1)))[a]? = some (d, r) →
        insns[i+a]? = some (.binOp d p .add r) := by
      intro a p d r hp hl
      cases a with
      | zero =>
        obtain ⟨rfl, rfl⟩ : dst = d ∧ rhs = r := by simpa using hl
        obtain rfl : lhs = p := by simpa using hp
        exact hx
      | succ a =>
        obtain ⟨p', hp', hx', -⟩ := hspec a d r hl
        obtain rfl : p' = p := Option.some.inj (hp'.symm.trans hp)
        rw [List.getElem?_drop] at hx'
        exact (by omega : i+(a+1) = i+1+a) ▸ hx'
    refine ⟨hlink, ?_, ?_, ?_, hc.2⟩
    · intro d hd
      rcases List.mem_cons.mp hd with rfl | hd
      · exact hc.1
      · obtain ⟨⟨d', r⟩, hmem, rfl⟩ := List.mem_map.mp hd
        obtain ⟨a, ha⟩ := List.mem_iff_getElem?.mp hmem
        exact (hspec a d' r ha).choose_spec.2.2.2.1
    · intro j hlt hstop
      obtain ⟨a, rfl⟩ : ∃ a, j = i+1+a := ⟨j-(i+1), by simp at hlt; omega⟩
      simp only [Chain.stop, List.length_cons] at hstop
      obtain ⟨⟨d, r⟩, ha⟩ : ∃ l, (extendChain numLocals insns (i+1) dst
          (insns.drop (i+1)))[a]? = some l :=
        ⟨_, List.getElem?_eq_getElem (by omega)⟩
      exact (hspec a d r ha).choose_spec.2.2.1
    · intro a d d' hd hd' hne
      have hd' : ((extendChain numLocals insns (i+1) dst (insns.drop (i+1))).map
          Prod.fst)[a]? = some d' := hd'
      obtain ⟨⟨d₁, r⟩, ha, rfl⟩ : ∃ l, (extendChain numLocals insns (i+1) dst
          (insns.drop (i+1)))[a]? = some l ∧ l.1 = d' := by simpa using hd'
      obtain ⟨p, hp, -, -, -, hu⟩ := hspec a d₁ r ha
      obtain rfl : p = d := Option.some.inj (hp.symm.trans hd)
      exact hu hne
  · cases h

theorem firstChain_found (h : firstChain numLocals strConst insns numRegs = some c) :
    Found numLocals strConst insns numRegs c := by
  obtain ⟨i, -, hi⟩ := List.exists_of_findSome?_eq_some h
  exact chainAt_found hi

theorem Chain.leaves_length (c : Chain) : c.leaves.length = c.links.length + 1 := by
  simp [Chain.leaves]

theorem Chain.dsts_length (c : Chain) : c.dsts.length = c.links.length := by simp [Chain.dsts]

namespace Found
variable (h : Found numLocals strConst insns numRegs c)
include h

theorem two_le : 2 ≤ c.links.length := h.tests.1

/-- An addition of the chain, by its place in it. -/
theorem link_of_lt {a : ℕ} (ha : a < c.links.length) : ∃ p d r,
    (c.lhs :: c.dsts)[a]? = some p ∧ c.dsts[a]? = some d ∧ c.leaves[a+1]? = some r ∧
      insns[c.first + a]? = some (.binOp d p .add r) := by
  obtain ⟨⟨d, r⟩, hl⟩ : ∃ l, c.links[a]? = some l := ⟨_, List.getElem?_eq_getElem ha⟩
  obtain ⟨p, hp⟩ : ∃ p, (c.lhs :: c.dsts)[a]? = some p :=
    ⟨_, List.getElem?_eq_getElem (by simp [Chain.dsts]; omega)⟩
  exact ⟨p, d, r, hp, by simp [Chain.dsts, hl], by simp [Chain.leaves, hl], h.link a p d r hp hl⟩

theorem stop_le : c.stop ≤ insns.length := by
  have h2 := h.two_le
  obtain ⟨p, d, r, -, -, -, hx⟩ := h.link_of_lt (a := c.links.length - 1) (by omega)
  have hlt := (List.getElem?_eq_some_iff.mp hx).1
  simp only [Chain.stop]
  omega

theorem leaf_not_dst {r : Reg} (hr : r ∈ c.leaves) : r ∉ c.dsts.dropLast := h.tests.2.2.2.1 r hr

end Found

/-! ## The rebuilt stream -/

theorem flatMap_single {α β : Type*} {f : α → List β} {g : α → β} {xs : List α}
    (h : ∀ x ∈ xs, f x = [g x]) : xs.flatMap f = xs.map g := by
  induction xs with
  | nil => rfl
  | cons x xs ih =>
    rw [List.flatMap_cons, h x (by simp), ih fun y hy => h y (by simp [hy]), List.map_cons,
      List.singleton_append]

theorem flatMap_nil {α β : Type*} {f : α → List β} {xs : List α} (h : ∀ x ∈ xs, f x = []) :
    xs.flatMap f = [] := by
  simpa using h

/-- The offsets of an instruction, led to the new positions. -/
def relocate (insns : List Insn) (c : Chain) (x : Insn × ℕ) : Insn :=
  rewriteOffsets x.1 x.2 ((List.range (insns.length+1)).map c.newIdx)

/-- Before the chain, its window, and behind it. -/
theorem rebuild_eq (h : Found numLocals strConst insns numRegs c) (base : Reg) :
    rebuild insns c base = (insns.take c.first).zipIdx.map (relocate insns c) ++
      (c.window base ++ ((insns.drop c.stop).zipIdx c.stop).map (relocate insns c)) := by
  have hlen := h.stop_le
  have h2 := h.two_le
  have hstop : c.stop = c.first + c.links.length := rfl
  obtain ⟨p, d, r, -, -, -, hx⟩ := h.link_of_lt (a := 0) (by omega)
  have hfirst : insns.drop c.first = .binOp d p .add r :: insns.drop (c.first+1) :=
    List.drop_eq_getElem?_toList_append.trans (by simp [show insns[c.first]? = _ from hx])
  obtain ⟨mid, hmid, hmlen⟩ : ∃ mid, insns.drop (c.first+1) = mid ++ insns.drop c.stop ∧
      c.first + 1 + mid.length = c.stop := by
    refine ⟨(insns.drop (c.first+1)).take (c.links.length-1), ?_, ?_⟩
    · have hdrop : insns.drop c.stop = (insns.drop (c.first+1)).drop (c.links.length-1) := by
        rw [List.drop_drop]
        congr 1
        omega
      rw [hdrop, List.take_append_drop]
    · rw [List.length_take, List.length_drop]
      omega
  have hsplit : insns = insns.take c.first ++ (.binOp d p .add r :: (mid ++ insns.drop c.stop)) := by
    rw [← hmid, ← hfirst, List.take_append_drop]
  have htake : (insns.take c.first).length = c.first := by
    rw [List.length_take]
    omega
  have hzip : insns.zipIdx = (insns.take c.first).zipIdx ++ ((.binOp d p .add r, c.first) ::
      (mid.zipIdx (c.first+1) ++ (insns.drop c.stop).zipIdx c.stop)) := by
    conv_lhs => rw [hsplit]
    rw [List.zipIdx_append, List.zipIdx_cons, List.zipIdx_append, htake, Nat.zero_add, hmlen]
  rw [rebuild, hzip, List.flatMap_append, List.flatMap_cons, List.flatMap_append]
  have hpre : ∀ x ∈ (insns.take c.first).zipIdx, x.2 < c.first := by
    intro x hx
    have := List.snd_lt_of_mem_zipIdx hx
    omega
  have hmid : ∀ x ∈ mid.zipIdx (c.first+1), c.first < x.2 ∧ x.2 < c.stop := by
    intro x hx
    have h1 := List.le_snd_of_mem_zipIdx hx
    have h2 := List.snd_lt_add_of_mem_zipIdx hx
    omega
  have hpost : ∀ x ∈ (insns.drop c.stop).zipIdx c.stop, c.stop ≤ x.2 := fun x hx =>
    List.le_snd_of_mem_zipIdx hx
  congr 1
  · apply flatMap_single
    intro x hx
    have := hpre x hx
    rw [if_neg (by omega), if_neg (by omega)]
    rfl
  · rw [if_pos rfl, flatMap_nil fun x hx => ?_, List.nil_append]
    · congr 1
      apply flatMap_single
      intro x hx
      have := hpost x hx
      rw [if_neg (by omega), if_neg (by omega)]
      rfl
    · have := hmid x hx
      rw [if_neg (by omega), if_pos (by omega)]

theorem Chain.window_length (c : Chain) (base : Reg) :
    (c.window base).length = c.links.length + 2 := by
  simp [Chain.window, c.leaves_length]

theorem rebuild_length (h : Found numLocals strConst insns numRegs c) (base : Reg) :
    (rebuild insns c base).length = insns.length + 2 := by
  have hlen := h.stop_le
  have hstop : c.stop = c.first + c.links.length := rfl
  rw [rebuild_eq h]
  simp only [List.length_append, List.length_map, List.length_zipIdx, List.length_take,
    List.length_drop, c.window_length]
  omega

/-- An instruction outside the chain keeps its place, relative to the ends of the stream. -/
theorem rebuild_outside (h : Found numLocals strConst insns numRegs c) (base : Reg) {k : ℕ}
    {x : Insn} (hx : insns[k]? = some x) (hk : k < c.first ∨ c.stop ≤ k) :
    (rebuild insns c base)[c.newIdx k]? = some (relocate insns c (x, k)) := by
  have hlen := h.stop_le
  have hstop : c.stop = c.first + c.links.length := rfl
  have hlt := (List.getElem?_eq_some_iff.mp hx).1
  have htake : (insns.take c.first).length = c.first := by
    rw [List.length_take]
    omega
  rw [rebuild_eq h]
  rcases hk with hk | hk
  · have hnew : c.newIdx k = k := by
      rw [Chain.newIdx, if_pos (by omega), Nat.min_eq_left (by omega)]
    rw [hnew, List.getElem?_append_left (by simpa [htake] using hk), List.getElem?_map,
      List.getElem?_zipIdx, List.getElem?_take, if_pos hk, hx]
    simp
  · have hnew : c.newIdx k = k+2 := if_neg (by omega)
    rw [hnew, List.getElem?_append_right (by simp [htake]; omega),
      List.getElem?_append_right (by simp [htake, c.window_length]; omega), List.getElem?_map,
      List.getElem?_zipIdx, List.getElem?_drop]
    simp only [List.length_map, List.length_zipIdx, htake, c.window_length]
    have hpos : c.stop + (k + 2 - c.first - (c.links.length + 2)) = k := by omega
    rw [hpos, hx]
    rfl

theorem rebuild_window (h : Found numLocals strConst insns numRegs c) (base : Reg) {b : ℕ}
    (hb : b < c.links.length + 2) :
    (rebuild insns c base)[c.first + b]? = (c.window base)[b]? := by
  have hlen := h.stop_le
  have hstop : c.stop = c.first + c.links.length := rfl
  have htake : (insns.take c.first).length = c.first := by
    rw [List.length_take]
    omega
  have hbw : b < (c.window base).length := by
    rw [c.window_length]
    exact hb
  rw [rebuild_eq h, List.getElem?_append_right (by simp [htake])]
  simp only [List.length_map, List.length_zipIdx, htake, Nat.add_sub_cancel_left]
  exact List.getElem?_append_left hbw

/-- The copy of an operand into the window. -/
theorem rebuild_move (h : Found numLocals strConst insns numRegs c) (base : Reg) {b : ℕ} {r : Reg}
    (hr : c.leaves[b]? = some r) :
    (rebuild insns c base)[c.first + b]? = some (.move (base + b) r) := by
  have hb := (List.getElem?_eq_some_iff.mp hr).1
  rw [c.leaves_length] at hb
  rw [rebuild_window h base (by omega), Chain.window, List.getElem?_append_left]
  · simp [hr]
  · simp [c.leaves_length]
    omega

theorem rebuild_concat (h : Found numLocals strConst insns numRegs c) (base : Reg) :
    (rebuild insns c base)[c.first + (c.links.length + 1)]? =
      some (.concat c.finalDst base (c.links.length + 1)) := by
  rw [rebuild_window h base (by omega), Chain.window, List.getElem?_append_right]
  · simp [c.leaves_length]
  · simp [c.leaves_length]

/-- Every instruction of the new stream is one of these. -/
theorem rebuild_cases (h : Found numLocals strConst insns numRegs c) {base : Reg} {q : ℕ} {y : Insn}
    (hy : (rebuild insns c base)[q]? = some y) :
    (∃ (k : ℕ) (x : Insn), insns[k]? = some x ∧ (k < c.first ∨ c.stop ≤ k) ∧ q = c.newIdx k ∧
        y = relocate insns c (x, k)) ∨
      (∃ (b : ℕ) (r : Reg), c.leaves[b]? = some r ∧ q = c.first + b ∧ y = .move (base + b) r) ∨
      (q = c.first + (c.links.length + 1) ∧ y = .concat c.finalDst base (c.links.length + 1)) := by
  have hstop : c.stop = c.first + c.links.length := rfl
  have hlt := (List.getElem?_eq_some_iff.mp hy).1
  have hle := h.stop_le
  rw [rebuild_length h] at hlt
  have hout : ∀ k, k < insns.length → (k < c.first ∨ c.stop ≤ k) → q = c.newIdx k →
      ∃ x, insns[k]? = some x ∧ y = relocate insns c (x, k) := by
    intro k hk hplace hq
    have hx : insns[k]? = some insns[k] := List.getElem?_eq_getElem hk
    refine ⟨_, hx, ?_⟩
    rw [hq, rebuild_outside h base hx hplace] at hy
    exact (Option.some.inj hy).symm
  rcases Nat.lt_or_ge q c.first with hbefore | hge
  · have hq : q = c.newIdx q := by
      rw [Chain.newIdx, if_pos (by omega), Nat.min_eq_left (by omega)]
    obtain ⟨x, hx, hrel⟩ := hout q (by omega) (.inl hbefore) hq
    exact .inl ⟨q, x, hx, .inl hbefore, hq, hrel⟩
  rcases Nat.lt_or_ge q (c.stop + 2) with hwindow | hbehind
  · right
    obtain ⟨b, rfl⟩ := Nat.exists_eq_add_of_le hge
    rcases Nat.lt_or_ge b c.leaves.length with hb | hb
    · have hr : c.leaves[b]? = some c.leaves[b] := List.getElem?_eq_getElem hb
      rw [rebuild_move h base hr] at hy
      exact .inl ⟨b, _, hr, rfl, (Option.some.inj hy).symm⟩
    · rw [c.leaves_length] at hb
      obtain rfl : b = c.links.length + 1 := by omega
      rw [rebuild_concat h] at hy
      exact .inr ⟨rfl, (Option.some.inj hy).symm⟩
  · have hq : q = c.newIdx (q-2) := by
      rw [Chain.newIdx, if_neg (by omega)]
      omega
    obtain ⟨x, hx, hrel⟩ := hout (q-2) (by omega) (.inr (by omega)) hq
    exact .inl ⟨q-2, x, hx, .inr (by omega), hq, hrel⟩

/-! ## Removed registers -/

/-- The intermediate results that the merge does away with. -/
def Chain.removed (c : Chain) : List Reg := c.dsts.filter (· ≠ c.finalDst)

theorem exists_last {α : Type*} [DecidableEq α] {xs : List α} {r d : α} (hr : r ∈ xs)
    (hd : xs.getLastD d ≠ r) : ∃ (a : ℕ) (d' : α), xs[a]? = some r ∧ xs[a+1]? = some d' ∧ d' ≠ r := by
  induction xs generalizing d with
  | nil => cases hr
  | cons x xs ih =>
    rw [List.getLastD_cons] at hd
    by_cases hmem : r ∈ xs
    · obtain ⟨a, d', ha, ha', hne⟩ := ih hmem hd
      exact ⟨a+1, d', by simpa using ha, by simpa using ha', hne⟩
    · obtain rfl : r = x := (List.mem_cons.mp hr).resolve_right hmem
      cases xs with
      | nil => exact absurd rfl hd
      | cons y ys => exact ⟨0, y, rfl, rfl, fun h => hmem (by simp [h])⟩

/-- A register read at two places is counted twice. -/
theorem two_le_count {α : Type*} {f : α → List Reg} {xs : List α} {i j : ℕ} {x y : α} {r : Reg}
    (hij : i < j) (hx : xs[i]? = some x) (hy : xs[j]? = some y) (hrx : r ∈ f x) (hry : r ∈ f y) :
    2 ≤ (xs.flatMap f).count r := by
  have hsplit : xs.flatMap f = (xs.take j).flatMap f ++ (xs.drop j).flatMap f := by
    rw [← List.flatMap_append, List.take_append_drop]
  have hxt : x ∈ xs.take j := by
    apply List.mem_of_getElem? (i := i)
    rw [List.getElem?_take, if_pos hij, hx]
  have hyd : y ∈ xs.drop j := by
    apply List.mem_of_getElem? (i := 0)
    rw [List.getElem?_drop, Nat.add_zero, hy]
  have h1 : 0 < ((xs.take j).flatMap f).count r :=
    List.count_pos_iff.mpr (List.mem_flatMap.mpr ⟨x, hxt, hrx⟩)
  have h2 : 0 < ((xs.drop j).flatMap f).count r :=
    List.count_pos_iff.mpr (List.mem_flatMap.mpr ⟨y, hyd, hry⟩)
  rw [hsplit, List.count_append]
  omega

/-- Outside the chain nothing reads a removed register. -/
theorem removed_unread (h : Found numLocals strConst insns numRegs c) {r : Reg}
    (hr : r ∈ c.removed) {k : ℕ} {x : Insn} (hx : insns[k]? = some x)
    (hk : k < c.first ∨ c.stop ≤ k) : r ∉ x.collectReads := by
  intro hread
  obtain ⟨hmem, hne⟩ := List.mem_filter.mp hr
  obtain ⟨a, d', ha, ha', hne'⟩ := exists_last hmem
    (of_decide_eq_true hne : r ≠ c.finalDst).symm
  have hone := h.single a r d' ha ha' hne'
  have hlt : a+1 < c.links.length := by
    rw [← c.dsts_length]
    exact (List.getElem?_eq_some_iff.mp ha').1
  obtain ⟨p, d, q, hp, -, -, hl⟩ := h.link_of_lt hlt
  obtain rfl : p = r := by
    rw [List.getElem?_cons_succ, ha] at hp
    exact (Option.some.inj hp).symm
  have hreadl : p ∈ (Insn.binOp d p .add q).collectReads := by simp [Insn.collectReads.eq_def]
  have hstop : c.stop = c.first + c.links.length := rfl
  have htwo : 2 ≤ useCount insns p := by
    rcases Nat.lt_or_ge k (c.first + (a+1)) with hlt' | hge
    · exact two_le_count hlt' hx hl hread hreadl
    · exact two_le_count (by omega : c.first + (a+1) < k) hl hx hreadl hread
  omega

theorem removed_temp (h : Found numLocals strConst insns numRegs c) {r : Reg}
    (hr : r ∈ c.removed) : numLocals ≤ r := h.temp r (List.mem_filter.mp hr).1

/-! ## Rounds -/

theorem relocate_isAdd (x : Insn × ℕ) : isAdd (relocate insns c x) = isAdd x.1 := by
  obtain ⟨x, k⟩ := x
  cases x <;> rfl

theorem countP_zipIdx_relocate (xs : List Insn) (k : ℕ) :
    ((xs.zipIdx k).map (relocate insns c)).countP isAdd = xs.countP isAdd := by
  induction xs generalizing k with
  | nil => rfl
  | cons x xs ih => simp [List.countP_cons, relocate_isAdd, ih]

/-- A round leaves fewer additions. -/
theorem mergeOnce_isAdd {s s' : Stream} (h : mergeOnce numLocals strConst s = some s') :
    s'.insns.countP isAdd < s.insns.countP isAdd := by
  obtain ⟨c, hc, rfl⟩ := Option.map_eq_some_iff.mp h
  have hf := firstChain_found hc
  have h2 := hf.two_le
  have hstop : c.stop = c.first + c.links.length := rfl
  have hwindow : (c.window s.numRegs).countP isAdd = 0 := by
    rw [List.countP_eq_zero]
    intro x hx
    rw [Chain.window, List.mem_append, List.mem_singleton, List.mem_mapIdx] at hx
    rcases hx with ⟨b, hb, rfl⟩ | rfl <;> simp [isAdd]
  obtain ⟨p, d, r, -, -, -, hx⟩ := hf.link_of_lt (a := 0) (by omega)
  have hdrop : s.insns.drop c.first = .binOp d p .add r :: s.insns.drop (c.first+1) :=
    List.drop_eq_getElem?_toList_append.trans (by simp [show s.insns[c.first]? = _ from hx])
  have hle : (s.insns.drop c.stop).countP isAdd ≤ (s.insns.drop (c.first+1)).countP isAdd := by
    have hdrop' : s.insns.drop c.stop = (s.insns.drop (c.first+1)).drop (c.links.length-1) := by
      rw [List.drop_drop]
      congr 1
      omega
    rw [hdrop']
    exact (List.drop_sublist _ _).countP_le
  have hcount : s.insns.countP isAdd = (s.insns.take c.first).countP isAdd +
      (1 + (s.insns.drop (c.first+1)).countP isAdd) := by
    conv_lhs => rw [← List.take_append_drop c.first s.insns, hdrop]
    rw [List.countP_append, List.countP_cons]
    simp [isAdd, Nat.add_comm]
  rw [rebuild_eq hf, List.countP_append, List.countP_append, countP_zipIdx_relocate,
    countP_zipIdx_relocate, hwindow, hcount]
  omega

/-- The loop ends: another round changes nothing. -/
theorem passConcatMerge_fixpoint (s : Stream) :
    mergeOnce numLocals strConst (passConcatMerge numLocals strConst s) = none := by
  have hround : ∀ k, mergeOnce numLocals strConst (rounds numLocals strConst s k) = none ∨
      (rounds numLocals strConst s k).insns.countP isAdd + k ≤ s.insns.countP isAdd := by
    intro k
    induction k with
    | zero => exact .inr (Nat.le_refl _)
    | succ k ih =>
      rw [rounds]
      cases hm : mergeOnce numLocals strConst (rounds numLocals strConst s k) with
      | none => exact .inl hm
      | some s' =>
        have hlt := mergeOnce_isAdd hm
        have hle := ih.resolve_left (by simp [hm])
        right
        show s'.insns.countP isAdd + (k+1) ≤ _
        omega
  rcases hround (s.insns.countP isAdd) with h | h
  · exact h
  · cases hm : mergeOnce numLocals strConst (passConcatMerge numLocals strConst s) with
    | none => rfl
    | some s' =>
      have hlt := mergeOnce_isAdd hm
      rw [passConcatMerge] at hlt
      omega

end pass

end Pyrust.ConcatChains
