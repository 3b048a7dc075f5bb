import Mathlib.Algebra.Order.BigOperators.Group.List
import Mathlib.Algebra.Order.Ring.Int
import Pyrust.ControlGraph

/-!
# Reaching constants

The constant a temporary is sure to hold where an instruction reads it. The last
writer ahead of the read, in stream order, must be a constant load that no forward
edge can skip, and no write may follow the read before the end of the back-edge
envelope around it. The scans are linear; each table below is the state of one of
them on reaching an instruction.
-/

set_option autoImplicit false

namespace Pyrust.ReachingConstants

open Bytecode Machine ControlGraph Simulation

section tables
variable (insns : List Insn)

/-- The jump target of an instruction, when it lies in the stream. -/
def edge (pc : ℕ) : Option ℕ :=
  match insns[pc]? with
  | some x => (x.jumpOff.bind (target insns.length pc)).filter (· < insns.length)
  | none => none

/-- What a forward edge adds to `skipped_producer_delta`: the taken edge skips every producer
between its ends. -/
def edgeDelta (pc : ℕ) : Option ℕ → ℕ → ℤ
  | some t, j => if pc+1 < t then (if j = pc+1 then 1 else 0)-(if j = t then 1 else 0) else 0
  | none, _ => 0

/-- `skipped_producer_delta`, from the edges of the given places. -/
def skippedProducerDelta : List ℕ → ℕ → ℤ
  | [], _ => 0
  | pc::pcs, j => edgeDelta pc (edge insns pc) j+skippedProducerDelta pcs j

/-- `skip_depth` behind a place. -/
def skipDepth : ℕ → ℤ
  | 0 => skippedProducerDelta insns (List.range insns.length) 0
  | pc+1 => skipDepth pc+skippedProducerDelta insns (List.range insns.length) (pc+1)

def producerCanBeSkipped (pc : ℕ) : Bool := skipDepth insns pc ≠ 0

/-- `backedge_end_at_target`, from the edges of the given places. -/
def backedgeEndAtTarget : List ℕ → ℕ → Option ℕ
  | [], _ => none
  | pc::pcs, t =>
    let farthest := backedgeEndAtTarget pcs t
    if edge insns pc = some t ∧ t ≤ pc then
      match farthest with
      | some far => some (max far pc)
      | none => some pc
    else farthest

/-- The loop over `scan`: the end of a component grows with every back edge into it. -/
def componentEnd (ends : ℕ → Option ℕ) : ℕ → ℕ → ℕ → ℕ
  | 0, _, e => e
  | fuel+1, scan, e =>
    if scan ≤ e then
      componentEnd ends fuel (scan+1) (match ends scan with
        | some nested => max e nested
        | none => e)
    else e

/-- `backedge_extent` from a place on: the end of the component each place belongs to. -/
def extentFrom (n : ℕ) (ends : ℕ → Option ℕ) : ℕ → ℕ → ℕ → Option ℕ
  | 0, _, _ => none
  | fuel+1, pc, j => match ends pc with
    | none => extentFrom n ends fuel (pc+1) j
    | some first =>
      let e := componentEnd ends n (pc+1) first
      if pc ≤ j ∧ j ≤ e then some e else extentFrom n ends fuel (e+1) j

def backedgeExtent (pc : ℕ) : Option ℕ :=
  extentFrom insns.length (backedgeEndAtTarget insns (List.range insns.length)) insns.length 0 pc

/-- `last_const` on reaching a place. -/
def lastConst : ℕ → Reg → Option (ℕ × ℕ)
  | 0, _ => none
  | pc+1, r => match insns[pc]? with
    | none => none
    | some x =>
      let kept := if r ∈ x.collectWrites then none else lastConst pc r
      match x with
      | .loadConst dst idx => if r = dst then some (pc, idx) else kept
      | _ => kept

/-- `next_write` of the backward scan: the first write in the rest of the stream. -/
def nextWrite : List Insn → ℕ → Reg → Option ℕ
  | [], _, _ => none
  | x::xs, pc, r => if r ∈ x.collectWrites then some pc else nextWrite xs (pc+1) r

/-- A write that the end of the envelope is not ahead of. -/
def carried (pc : ℕ) (r : Reg) : Bool :=
  match backedgeExtent insns pc, nextWrite (insns.drop pc) pc r with
  | some e, some w => w ≤ e
  | _, _ => false

/-- `reaching_const_reads`. -/
def reachingConstReads (numLocals pc : ℕ) (r : Reg) : Option ℕ :=
  match insns[pc]? with
  | none => none
  | some x =>
    if r ∈ x.collectReads ∧ numLocals ≤ r then
      match lastConst insns pc r with
      | some (producer, idx) =>
        if producerCanBeSkipped insns producer || carried insns pc r then none else some idx
      | none => none
    else none

end tables

/-! ## What the scans establish -/

section scans
variable {insns : List Insn}

theorem edge_some {pc t : ℕ} (h : edge insns pc = some t) :
    ∃ x k, insns[pc]? = some x ∧ x.jumpOff = some k ∧ target insns.length pc k = some t ∧
      t < insns.length ∧ pc < insns.length := by
  rw [edge] at h
  split at h
  · rename_i x hx
    obtain ⟨h, hlt⟩ := Option.filter_eq_some_iff.mp h
    obtain ⟨k, hk, ht⟩ := Option.bind_eq_some_iff.mp h
    exact ⟨x, k, hx, hk, ht, by simpa using hlt, (List.getElem?_eq_some_iff.mp hx).1⟩
  · cases h

theorem edge_of_jump {pc t : ℕ} {x : Insn} {k : ℤ} (hx : insns[pc]? = some x)
    (hk : x.jumpOff = some k) (ht : target insns.length pc k = some t) (hlt : t < insns.length) :
    edge insns pc = some t := by
  rw [edge, hx]
  simp [hk, ht, hlt]

/-- The depth contributed by one edge is one between its ends and zero elsewhere. -/
def covers (pc j : ℕ) : Option ℕ → ℤ
  | some t => if pc < j ∧ j < t then 1 else 0
  | none => 0

theorem covers_nonneg (pc j : ℕ) (o : Option ℕ) : 0 ≤ covers pc j o := by
  cases o with
  | none => exact le_refl 0
  | some t =>
    rw [covers]
    split_ifs <;> decide

theorem edgeDelta_sum (pc j : ℕ) (o : Option ℕ) :
    ((List.range (j+1)).map (edgeDelta pc o)).sum = covers pc j o := by
  cases o with
  | none =>
    have hzero : edgeDelta pc none = fun _ => 0 := rfl
    simp [hzero, covers]
  | some t =>
    induction j with
    | zero =>
      simp only [List.range_succ, List.range_zero, List.nil_append, List.map_cons, List.map_nil,
        List.sum_cons, List.sum_nil, edgeDelta, covers]
      split_ifs <;> first | contradiction | omega
    | succ j ih =>
      rw [List.range_succ, List.map_append, List.sum_append, ih]
      simp only [List.map_cons, List.map_nil, List.sum_cons, List.sum_nil, edgeDelta, covers]
      split_ifs <;> omega

theorem depth_eq (pcs : List ℕ) (j : ℕ) :
    ((List.range (j+1)).map (skippedProducerDelta insns pcs)).sum =
      (pcs.map fun pc => covers pc j (edge insns pc)).sum := by
  induction pcs with
  | nil => simp [skippedProducerDelta]
  | cons pc pcs ih =>
    rw [List.map_cons, List.sum_cons, ← ih, ← edgeDelta_sum, ← List.sum_map_add]
    rfl

theorem skipDepth_eq (j : ℕ) : skipDepth insns j =
    ((List.range (j+1)).map (skippedProducerDelta insns (List.range insns.length))).sum := by
  induction j with
  | zero => simp [skipDepth, List.range_succ]
  | succ j ih =>
    rw [skipDepth, ih, List.range_succ (n := j+1), List.map_append, List.sum_append]
    simp

/-- No edge leads over a producer that cannot be skipped. -/
theorem not_skipped {P pc t : ℕ} (h : producerCanBeSkipped insns P = false)
    (he : edge insns pc = some t) : ¬(pc < P ∧ P < t) := by
  intro hover
  have hzero : skipDepth insns P = 0 := by simpa [producerCanBeSkipped] using h
  rw [skipDepth_eq, depth_eq] at hzero
  have hmem : covers pc P (edge insns pc) ∈
      (List.range insns.length).map fun pc => covers pc P (edge insns pc) := by
    obtain ⟨_, _, _, _, _, _, hlt⟩ := edge_some he
    exact List.mem_map.mpr ⟨pc, List.mem_range.mpr hlt, rfl⟩
  have hle := List.single_le_sum (fun v hv => by
    obtain ⟨q, _, rfl⟩ := List.mem_map.mp hv
    exact covers_nonneg q P _) _ hmem
  rw [hzero, he, covers, if_pos hover] at hle
  omega

/-! ### Envelopes -/

section envelopes
variable {ends : ℕ → Option ℕ} {n : ℕ}

/-- The end of a component does not shrink, and back edges into the scanned part end in it. -/
theorem componentEnd_spec (hends : ∀ t x, ends t = some x → x < n) (fuel scan e : ℕ)
    (hfuel : n ≤ scan+fuel) (he : e < n) :
    e ≤ componentEnd ends fuel scan e ∧ componentEnd ends fuel scan e < n ∧
      ∀ j x, scan ≤ j → j ≤ componentEnd ends fuel scan e → ends j = some x →
        x ≤ componentEnd ends fuel scan e := by
  induction fuel generalizing scan e with
  | zero =>
    rw [componentEnd]
    exact ⟨le_refl e, he, fun j x h h' _ => by omega⟩
  | succ fuel ih =>
    rw [componentEnd]
    by_cases hs : scan ≤ e
    · rw [if_pos hs]
      cases hn : ends scan with
      | none =>
        obtain ⟨hle, hlt, hin⟩ := ih (scan+1) e (by omega) he
        refine ⟨hle, hlt, fun j x h h' hx => ?_⟩
        by_cases hj : j = scan
        · rw [hj, hn] at hx
          cases hx
        · exact hin j x (by omega) h' hx
      | some nested =>
        have := hends scan nested hn
        obtain ⟨hle, hlt, hin⟩ := ih (scan+1) (max e nested) (by omega) (by omega)
        dsimp only
        refine ⟨by omega, hlt, fun j x h h' hx => ?_⟩
        by_cases hj : j = scan
        · rw [hj, hn] at hx
          cases hx
          omega
        · exact hin j x (by omega) h' hx
    · rw [if_neg hs]
      exact ⟨le_refl e, he, fun j x h h' _ => by omega⟩

/-- Components are intervals, and the one around a back edge reaches its source. -/
theorem extentFrom_spec (hends : ∀ t x, ends t = some x → t ≤ x ∧ x < n) (fuel pc : ℕ)
    (hfuel : n ≤ pc+fuel) :
    (∀ j e, extentFrom n ends fuel pc j = some e →
      pc ≤ j ∧ j ≤ e ∧ e < n ∧ ∀ k, j ≤ k → k ≤ e → extentFrom n ends fuel pc k = some e) ∧
    ∀ t x j, pc ≤ t → ends t = some x → t ≤ j → j ≤ x →
      ∃ e, extentFrom n ends fuel pc j = some e ∧ x ≤ e := by
  induction fuel generalizing pc with
  | zero =>
    refine ⟨fun j e h => (by cases h), fun t x j ht hx _ _ => ?_⟩
    have := hends t x hx
    omega
  | succ fuel ih =>
    cases hpc : ends pc with
    | none =>
      have hstep : extentFrom n ends (fuel+1) pc = extentFrom n ends fuel (pc+1) := by
        funext j
        rw [extentFrom, hpc]
      rw [hstep]
      obtain ⟨hin, hout⟩ := ih (pc+1) (by omega)
      constructor
      · intro j e h
        obtain ⟨h1, h2⟩ := hin j e h
        exact ⟨by omega, h2⟩
      · intro t x j ht hx
        have hne : t ≠ pc := by
          rintro rfl
          rw [hpc] at hx
          cases hx
        exact hout t x j (by omega) hx
    | some first =>
      obtain ⟨hfirst, hlt⟩ := hends pc first hpc
      obtain ⟨hle, hend, hclosed⟩ := componentEnd_spec (fun t x h => (hends t x h).2) n (pc+1)
        first (by omega) hlt
      have hstep : ∀ j, extentFrom n ends (fuel+1) pc j =
          if pc ≤ j ∧ j ≤ componentEnd ends n (pc+1) first then
            some (componentEnd ends n (pc+1) first)
          else extentFrom n ends fuel (componentEnd ends n (pc+1) first+1) j := by
        intro j
        rw [extentFrom, hpc]
      generalize componentEnd ends n (pc+1) first = top at *
      obtain ⟨hin, hout⟩ := ih (top+1) (by omega)
      constructor
      · intro j e h
        rw [hstep] at h
        by_cases hj : pc ≤ j ∧ j ≤ top
        · rw [if_pos hj] at h
          cases h
          refine ⟨hj.1, hj.2, hend, fun k hjk hk => ?_⟩
          rw [hstep, if_pos ⟨by omega, hk⟩]
        · rw [if_neg hj] at h
          obtain ⟨h1, h2, h3, h4⟩ := hin j e h
          refine ⟨by omega, h2, h3, fun k hjk hk => ?_⟩
          rw [hstep, if_neg (by omega)]
          exact h4 k hjk hk
      · intro t x j ht hx htj hjx
        rw [hstep]
        by_cases htop : t ≤ top
        · have hx' : x ≤ top := by
            by_cases hpt : t = pc
            · rw [hpt, hpc] at hx
              cases hx
              exact hle
            · exact hclosed t x (by omega) htop hx
          exact ⟨top, if_pos ⟨by omega, by omega⟩, hx'⟩
        · rw [if_neg (by omega)]
          exact hout t x j (by omega) hx htj hjx

end envelopes

theorem backedgeEnd_some {pcs : List ℕ} {t x : ℕ}
    (h : backedgeEndAtTarget insns pcs t = some x) : t ≤ x ∧ x < insns.length := by
  induction pcs generalizing x with
  | nil => cases h
  | cons pc pcs ih =>
    rw [backedgeEndAtTarget] at h
    by_cases hc : edge insns pc = some t ∧ t ≤ pc
    · rw [if_pos hc] at h
      obtain ⟨_, _, _, _, _, _, hlt⟩ := edge_some hc.1
      cases hf : backedgeEndAtTarget insns pcs t with
      | none =>
        rw [hf] at h
        cases h
        exact ⟨hc.2, hlt⟩
      | some far =>
        rw [hf] at h
        cases h
        have := ih hf
        omega
    · rw [if_neg hc] at h
      exact ih h

theorem backedgeEnd_of_edge {pcs : List ℕ} {pc t : ℕ} (hmem : pc ∈ pcs)
    (h : edge insns pc = some t) (hle : t ≤ pc) :
    ∃ x, backedgeEndAtTarget insns pcs t = some x ∧ pc ≤ x := by
  induction pcs with
  | nil => cases hmem
  | cons q pcs ih =>
    rw [backedgeEndAtTarget]
    by_cases hq : pc = q
    · rw [if_pos ⟨hq ▸ h, hq ▸ hle⟩]
      cases backedgeEndAtTarget insns pcs t with
      | none => exact ⟨q, rfl, hq.le⟩
      | some far => exact ⟨max far q, rfl, by omega⟩
    · obtain ⟨x, hx, hpc⟩ := ih ((List.mem_cons.mp hmem).resolve_left hq)
      by_cases hc : edge insns q = some t ∧ t ≤ q
      · rw [if_pos hc, hx]
        exact ⟨max x q, rfl, by omega⟩
      · rw [if_neg hc]
        exact ⟨x, hx, hpc⟩

theorem extent_some {j e : ℕ} (h : backedgeExtent insns j = some e) :
    j ≤ e ∧ e < insns.length ∧ ∀ k, j ≤ k → k ≤ e → backedgeExtent insns k = some e :=
  ((extentFrom_spec (fun _ _ => backedgeEnd_some) _ 0 (by omega)).1 j e h).2

/-- Every place a back edge spans belongs to an envelope that reaches the edge's source. -/
theorem extent_of_edge {pc t j : ℕ} (h : edge insns pc = some t) (ht : t ≤ j) (hj : j ≤ pc) :
    ∃ e, backedgeExtent insns j = some e ∧ pc ≤ e := by
  obtain ⟨_, _, _, _, _, _, hlt⟩ := edge_some h
  obtain ⟨x, hx, hpc⟩ := backedgeEnd_of_edge (List.mem_range.mpr hlt) h (by omega)
  obtain ⟨e, he, hxe⟩ := (extentFrom_spec (fun _ _ => backedgeEnd_some) insns.length 0
    (by omega)).2 t x j (by omega) hx ht (by omega)
  exact ⟨e, he, by omega⟩

/-! ### Producers -/

theorem lastConst_some {pc P idx : ℕ} {r : Reg} (h : lastConst insns pc r = some (P, idx)) :
    P < pc ∧ insns[P]? = some (.loadConst r idx) ∧
      ∀ (j : ℕ) (x : Insn), P < j → j < pc → insns[j]? = some x → r ∉ x.collectWrites := by
  induction pc with
  | zero => cases h
  | succ pc ih =>
    rw [lastConst] at h
    cases hx : insns[pc]? with
    | none =>
      rw [hx] at h
      cases h
    | some x =>
      rw [hx] at h
      dsimp only at h
      have hkept : ∀ {o : Option (ℕ × ℕ)},
          (if r ∈ x.collectWrites then none else lastConst insns pc r) = o →
          o = some (P, idx) → P < pc+1 ∧ insns[P]? = some (.loadConst r idx) ∧
            ∀ (j : ℕ) (y : Insn), P < j → j < pc+1 → insns[j]? = some y →
              r ∉ y.collectWrites := by
        rintro o rfl ho
        split at ho
        · cases ho
        · rename_i hw
          obtain ⟨hlt, hP, hno⟩ := ih ho
          refine ⟨by omega, hP, fun j y hj hjp hy => ?_⟩
          by_cases hjpc : j = pc
          · rw [hjpc, hx] at hy
            cases hy
            exact hw
          · exact hno j y hj (by omega) hy
      split at h
      · rename_i dst idx'
        by_cases hr : r = dst
        · rw [if_pos hr] at h
          cases h
          exact ⟨by omega, by rw [hx, hr], fun j y hj hjp => by omega⟩
        · rw [if_neg hr] at h
          exact hkept rfl h
      · exact hkept rfl h

theorem nextWrite_le {xs : List Insn} {pc j : ℕ} {x : Insn} {r : Reg} (hx : xs[j]? = some x)
    (hr : r ∈ x.collectWrites) : ∃ w, nextWrite xs pc r = some w ∧ w ≤ pc+j := by
  induction xs generalizing pc j with
  | nil => simp at hx
  | cons y xs ih =>
    rw [nextWrite]
    by_cases hy : r ∈ y.collectWrites
    · exact ⟨pc, if_pos hy, by omega⟩
    · rw [if_neg hy]
      cases j with
      | zero =>
        rw [List.getElem?_cons_zero, Option.some.injEq] at hx
        exact absurd (hx ▸ hr) hy
      | succ j =>
        obtain ⟨w, hw, hle⟩ := @ih (pc+1) j (by simpa using hx)
        exact ⟨w, hw, by omega⟩

/-- The last place up to which the read value cannot be replaced. -/
def horizon (insns : List Insn) (pc : ℕ) : ℕ := (backedgeExtent insns pc).getD pc

/-- Why a constant reaches a read: where it is loaded, and that nothing skips or replaces it. -/
structure Reaches (insns : List Insn) (numLocals pc : ℕ) (r : Reg) (P idx : ℕ) : Prop where
  within : pc < insns.length
  before : P < pc
  temp : numLocals ≤ r
  loads : insns[P]? = some (.loadConst r idx)
  skip : ∀ q t, edge insns q = some t → ¬(q < P ∧ P < t)
  ahead : ∀ (j : ℕ) (x : Insn), P < j → j < pc → insns[j]? = some x → r ∉ x.collectWrites
  inside : ∀ e, backedgeExtent insns pc = some e → ∀ (j : ℕ) (x : Insn), pc ≤ j → j ≤ e →
    insns[j]? = some x → r ∉ x.collectWrites

theorem reaches_of_read {numLocals pc idx : ℕ} {r : Reg}
    (h : reachingConstReads insns numLocals pc r = some idx) :
    ∃ P, Reaches insns numLocals pc r P idx := by
  rw [reachingConstReads] at h
  split at h
  · cases h
  split at h
  swap
  · cases h
  rename_i x hx hread
  cases hl : lastConst insns pc r with
  | none =>
    rw [hl] at h
    cases h
  | some p =>
    obtain ⟨P, i⟩ := p
    rw [hl] at h
    dsimp only at h
    split at h
    · cases h
    · rename_i hc
      cases h
      simp only [Bool.or_eq_true, not_or, Bool.not_eq_true] at hc
      obtain ⟨hlt, hload, hno⟩ := lastConst_some hl
      refine ⟨P, (List.getElem?_eq_some_iff.mp hx).1, hlt, hread.2, hload,
        fun q t he => not_skipped hc.1 he, hno, ?_⟩
      intro e he j y hj hje hy hw
      obtain ⟨k, rfl⟩ := Nat.exists_eq_add_of_le hj
      have hdrop : (insns.drop pc)[k]? = some y := by rw [List.getElem?_drop]; exact hy
      obtain ⟨w, hnext, hle⟩ := @nextWrite_le _ pc _ _ _ hdrop hw
      have : carried insns pc r = true := by
        rw [carried, he, hnext]
        simp only [decide_eq_true_eq]
        omega
      rw [this] at hc
      exact absurd hc.2 (by decide)

theorem horizon_le (insns : List Insn) (pc : ℕ) : pc ≤ horizon insns pc := by
  rw [horizon]
  cases he : backedgeExtent insns pc with
  | none => exact le_refl pc
  | some e => exact (extent_some he).1

theorem horizon_lt {pc : ℕ} (h : pc < insns.length) : horizon insns pc < insns.length := by
  rw [horizon]
  cases he : backedgeExtent insns pc with
  | none => exact h
  | some e => exact (extent_some he).2.1

/-- A horizon behind the read is the end of an envelope. -/
theorem extent_of_lt {pc : ℕ} (h : pc < horizon insns pc) :
    backedgeExtent insns pc = some (horizon insns pc) := by
  rw [horizon] at h ⊢
  cases he : backedgeExtent insns pc with
  | none =>
    rw [he, Option.getD_none] at h
    omega
  | some e => rfl

/-- A back edge into the stretch ahead of the horizon starts in that stretch, and at the read only
if there is an envelope around it. -/
theorem back_into {pc q t : ℕ} (h : edge insns q = some t) (hle : t ≤ q)
    (ht : t ≤ horizon insns pc) :
    q ≤ horizon insns pc ∧ (pc ≤ q → backedgeExtent insns pc = some (horizon insns pc)) := by
  have hhor := horizon_le insns pc
  by_cases htp : t ≤ pc
  · by_cases hq : pc ≤ q
    · obtain ⟨e, he, hqe⟩ := extent_of_edge h htp hq
      have heq : horizon insns pc = e := by rw [horizon, he, Option.getD_some]
      exact ⟨by omega, fun _ => heq ▸ he⟩
    · exact ⟨by omega, fun hpq => absurd hpq hq⟩
  · have he := extent_of_lt (by omega : pc < horizon insns pc)
    obtain ⟨e', he', hqe⟩ := extent_of_edge h (le_refl t) hle
    have hsame := (extent_some he).2.2 t (by omega) ht
    rw [he', Option.some.injEq] at hsame
    exact ⟨by omega, fun _ => he⟩

/-- Nothing on the stretch writes the register; the reading instruction may unless an envelope is
around it. -/
theorem Reaches.unwritten {numLocals pc P idx j : ℕ} {r : Reg} {x : Insn}
    (h : Reaches insns numLocals pc r P idx) (hP : P < j) (hj : j ≤ horizon insns pc)
    (he : pc ≤ j → backedgeExtent insns pc = some (horizon insns pc))
    (hx : insns[j]? = some x) : r ∉ x.collectWrites := by
  by_cases hpc : j < pc
  · exact h.ahead j x hP hpc hx
  · exact h.inside _ (he (by omega)) j x (by omega) hj hx

end scans

/-! ## Runs -/

section runs
variable {Val World : Type*}

/-- An exception raised here is caught, if at all, by a handler whose protected range is around
the raising instruction. -/
def Contained (sem : Sem Val World) (numLocals : ℕ) (code : Code) :
    Option (State Val World) → Prop
  | none => True
  | some s => ∀ x h hs, code.insns[s.pc]? = some x →
      (perform sem numLocals x s.regs s.world).flow = .raise →
      raiseTo code s.pc s.handlers = .goto h hs →
      ∃ p k, code.insns[p]? = some (.setupExcept k) ∧
        target code.insns.length p k = some h ∧ p < s.pc ∧ s.pc < h

/-- Between a producer and the horizon of a read the register holds the constant. -/
def Holds (sem : Sem Val World) (numLocals : ℕ) (insns : List Insn) :
    Option (State Val World) → Prop
  | none => True
  | some s => ∀ pc r P idx, Reaches insns numLocals pc r P idx →
      (∀ a b d, insns[pc]? ≠ some (.yieldFrom a b d)) → P < s.pc → s.pc ≤ horizon insns pc →
      s.regs r = some (sem.const idx)

/-- Where an instruction can lead. -/
theorem transfer_cases {code : Code} {pc pc' : ℕ} {hs hs' : List ℕ} {x : Insn} {f : Flow}
    (hf : canFlow x f) (h : transfer code pc hs x f = .goto pc' hs') :
    (f = .next ∧ pc' = pc+1) ∨
      (f = .jump ∧ ∃ k, x.jumpOff = some k ∧ target code.insns.length pc k = some pc') ∨
      (f = .again ∧ pc' = pc ∧ ∃ a b d, x = .yieldFrom a b d) ∨
      (f = .raise ∧ raiseTo code pc hs = .goto pc' hs') := by
  cases f
  case next =>
    exact .inl ⟨rfl, Compaction.next_pc h⟩
  case jump =>
    refine .inr (.inl ⟨rfl, ?_⟩)
    simp only [transfer] at h
    cases hk : x.jumpOff with
    | none => simp [hk] at h
    | some k =>
      cases ht : target code.insns.length pc k with
      | none => simp [hk, ht] at h
      | some t =>
        simp only [hk, Option.bind_some, ht, Goto.goto.injEq] at h
        exact ⟨k, rfl, ht.trans (congrArg some h.1)⟩
  case again =>
    refine .inr (.inr (.inl ⟨rfl, ?_⟩))
    simp only [transfer, Goto.goto.injEq] at h
    exact ⟨h.1.symm, again_yieldFrom hf⟩
  case raise => exact .inr (.inr (.inr ⟨rfl, h⟩))
  case halt => cases h

variable {sem : Sem Val World} {numLocals : ℕ} {code : Code}

/-- A step from one place to another. -/
theorem frame_moves {obs : Observer} {s s' : State Val World} {es : List (Event Val World)}
    (h : (frame sem numLocals code obs).step (some s) = some (es, some s')) :
    ∃ x, code.insns[s.pc]? = some x ∧
      s'.regs = finishRegs numLocals x (perform sem numLocals x s.regs s.world) s.regs ∧
      transfer code s.pc s.handlers x (perform sem numLocals x s.regs s.world).flow =
        .goto s'.pc s'.handlers := by
  cases hx : code.insns[s.pc]? with
  | none =>
    rw [frame_none hx] at h
    cases h
  | some x =>
    rw [frame_step hx] at h
    simp only [Option.some.injEq, Prod.mk.injEq] at h
    obtain ⟨hgo, hregs⟩ := proceed_goto h.2
    exact ⟨x, rfl, hregs, hgo⟩

/-- One step keeps the constant in its register up to the horizon of the read. -/
theorem holds_step {obs : Observer} {s s' : Option (State Val World)}
    {es : List (Event Val World)} (hold : Holds sem numLocals code.insns s)
    (hc : Contained sem numLocals code s)
    (hstep : (frame sem numLocals code obs).step s = some (es, s')) :
    Holds sem numLocals code.insns s' := by
  cases s' with
  | none => trivial
  | some s' =>
  cases s with
  | none => cases hstep
  | some s =>
  intro pc r P idx hr hplain hP hhor
  obtain ⟨x, hx, hregs, hgo⟩ := frame_moves hstep
  have hflow := perform_flow sem numLocals x s.regs s.world
  have hkeep (hlt : P < s.pc) (hle : s.pc ≤ horizon code.insns pc)
      (he : pc ≤ s.pc → backedgeExtent code.insns pc = some (horizon code.insns pc)) :
      s'.regs r = some (sem.const idx) := by
    rw [hregs, finishRegs_frame (hr.unwritten hlt hle he hx) fun _ => hr.temp]
    exact hold pc r P idx hr hplain hlt hle
  have hforward (hlt : P < s.pc) (hfw : s.pc < s'.pc) : s'.regs r = some (sem.const idx) :=
    hkeep hlt (by omega) fun hpc => extent_of_lt (by omega)
  rcases transfer_cases hflow hgo with ⟨-, hpc⟩ | ⟨-, k, hk, ht⟩ | ⟨-, hpc, a, b, d, hyield⟩ |
    ⟨hf, hraise⟩
  · -- falling through: from the producer itself, or from inside the stretch
    by_cases hprod : s.pc = P
    · rw [hprod, hr.loads, Option.some.injEq] at hx
      rw [hregs, ← hx, perform_loadConst]
      exact Function.update_self ..
    · exact hforward (by omega) (by omega)
  · have hlen : s'.pc < code.insns.length := lt_of_le_of_lt hhor (horizon_lt hr.within)
    have hedge := edge_of_jump hx hk ht hlen
    by_cases hfw : s.pc < s'.pc
    · have hne : s.pc ≠ P := by
        intro heq
        rw [heq, hr.loads, Option.some.injEq] at hx
        rw [← hx] at hk
        cases hk
      have := hr.skip s.pc s'.pc hedge
      exact hforward (by omega) hfw
    · obtain ⟨hle, he⟩ := back_into hedge (by omega) hhor
      exact hkeep (by omega) hle he
  · -- a delegation is resumed where it was suspended
    apply hkeep (by omega) (by omega)
    intro hle
    by_cases heq : s.pc = pc
    · exact absurd (heq ▸ hyield ▸ hx) (hplain a b d)
    · exact extent_of_lt (by omega)
  · obtain ⟨p, k, hp, ht, hps, hsh⟩ := hc x s'.pc s'.handlers hx hf hraise
    have hlen : s'.pc < code.insns.length := lt_of_le_of_lt hhor (horizon_lt hr.within)
    have hedge := edge_of_jump hp rfl ht hlen
    have hne : s.pc ≠ P := by
      intro heq
      rw [heq, hr.loads, Option.some.injEq] at hx
      rw [← hx] at hf
      cases hf
    have := hr.skip p s'.pc hedge
    exact hforward (by omega) hsh

/-- In every run whose exceptions are contained, a reported constant is in the register whenever
control comes to the read. -/
theorem reaching_sound {obs : Observer} {regs : Regs Val} {world : World}
    (hc : (frame sem numLocals code obs).Along (Contained sem numLocals code)
      (State.enter regs world)) :
    (frame sem numLocals code obs).Along (Holds sem numLocals code.insns)
      (State.enter regs world) := by
  apply Machine.along_of_along (fun s es s' hold hcont hstep => holds_step hold hcont hstep) _ hc
  intro pc r P idx hr hplain hP hhor
  cases hP

/-- What `Holds` says at the read. -/
theorem Holds.at_read {s : State Val World} {r : Reg} {idx : ℕ}
    (h : Holds sem numLocals code.insns (some s))
    (hread : reachingConstReads code.insns numLocals s.pc r = some idx)
    (hplain : ∀ a b d, code.insns[s.pc]? ≠ some (.yieldFrom a b d)) :
    s.regs r = some (sem.const idx) := by
  obtain ⟨P, hr⟩ := reaches_of_read hread
  exact h s.pc r P idx hr hplain hr.before (horizon_le _ _)

end runs

end Pyrust.ReachingConstants
