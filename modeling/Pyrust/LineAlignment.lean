import Mathlib.Data.List.Sort
import Mathlib.Order.Bounds.Defs
import Pyrust.Bytecode
import Pyrust.PatienceSolitaire

/-!
# The alignment of the source tables

After the optimizer has run, the line of an instruction is that of the old
instruction it is aligned with. Each copy of an instruction has one candidate, the
old copy of the same rank, and a longest rising run of candidates is taken. That is
a longest common subsequence only if one exists among the candidates.
-/

set_option autoImplicit false

namespace Pyrust.LineAlignment

open Bytecode List PatienceSolitaire

/-! ## The alignment -/

section align
variable {α : Type*} [DecidableEq α]

/-- The positions of an instruction in the stream, in ascending order. -/
def occurrences (old : List α) (insn : α) : List ℕ :=
  (old.zipIdx.filter fun x => x.1 = insn).map Prod.snd

/-- The map from instructions to their positions. -/
def positions (old : List α) (insn : α) : Option (List ℕ) :=
  if occurrences old insn = [] then none else some (occurrences old insn)

/-- The loop's state: how many copies of each instruction have been seen, and the piles. -/
structure Scan (α : Type*) where
  seen : α → ℕ
  table : Table ℕ ℕ

def alignStep (old : List α) (s : Scan α) (item : α × ℕ) : Scan α :=
  match positions old item.1 with
  | none => s
  | some locs =>
    match locs[s.seen item.1]? with
    | none => s
    | some oldPos =>
      { seen := Function.update s.seen item.1 (s.seen item.1+1)
        table := place s.table (item.2, oldPos) }

/-- The alignment with the cards of a run entered. -/
def enter (aligned : List (Option ℕ)) (cards : List (ℕ × ℕ)) : List (Option ℕ) :=
  cards.foldl (fun aligned card => aligned.set card.1 (some card.2)) aligned

/-- `lcs_align`. -/
def lcsAlign (old new : List α) : List (Option ℕ) :=
  let aligned := List.replicate new.length none
  if old = [] ∨ new = [] then aligned
  else
    let scan := new.zipIdx.foldl (alignStep old) ⟨fun _ => 0, [], [], []⟩
    enter aligned scan.table.longest

/-- The lines of the instructions that are aligned. -/
def matchedLines (oldLinenos : List ℕ) (aligned : List (Option ℕ)) : List (Option ℕ) :=
  aligned.map fun matched => matched.map fun i => oldLinenos.getD i 0

end align

/-! ## What an alignment is for -/

section optimal
variable {α : Type*} [DecidableEq α]

/-- The aligned instructions are the same in both streams, at rising positions. -/
structure Sound (old new : List α) (aligned : List (Option ℕ)) : Prop where
  length : aligned.length = new.length
  same : ∀ i p : ℕ, aligned[i]? = some (some p) → ∃ x, new[i]? = some x ∧ old[p]? = some x
  rising : ∀ i j p q : ℕ, i < j → aligned[i]? = some (some p) → aligned[j]? = some (some q) → p < q

/-- The lengths of the common subsequences. -/
def commonLengths (old new : List α) : Set ℕ := {n | ∃ zs, zs <+ old ∧ zs <+ new ∧ zs.length = n}

/-- The alignment is sound and pairs as many instructions as a longest common subsequence has. -/
def AlignsOptimally (old new : List α) (aligned : List (Option ℕ)) : Prop :=
  Sound old new aligned ∧ IsGreatest (commonLengths old new) (aligned.countP Option.isSome)

/-- Pairs of new and old positions, rising in both, that stand for copies of the same rank: as
many copies of the instruction stand before the one as before the other. -/
structure RankAligned (old new : List α) (ps : List (ℕ × ℕ)) : Prop where
  rising : ps.Pairwise fun a b => a.1 < b.1 ∧ a.2 < b.2
  rank : ∀ a ∈ ps, ∃ x, new[a.1]? = some x ∧ old[a.2]? = some x ∧
    (new.take a.1).count x = (old.take a.2).count x

/-- Some longest common subsequence pairs only copies of the same rank. -/
def RankOptimal (old new : List α) : Prop :=
  ∃ ps, RankAligned old new ps ∧ ∀ zs, zs <+ old → zs <+ new → zs.length ≤ ps.length

/-- What is left of a stream, with the old positions. -/
def survivors (old : List α) (keep : ℕ → Bool) : List (α × ℕ) := old.zipIdx.filter fun x => keep x.2

/-- No copy of an instruction is deleted before one that is kept. -/
def KeepsFirst (old : List α) (keep : ℕ → Bool) : Prop :=
  ∀ p q x, p < q → old[p]? = some x → old[q]? = some x → keep q = true → keep p = true

end optimal

/-! ## Candidates -/

section candidates
variable {α : Type*} [DecidableEq α] {old new : List α} {x y : α} {i k p : ℕ}

theorem occurrences_snoc : occurrences (old ++ [y]) x =
    occurrences old x ++ if y = x then [old.length] else [] := by
  rw [occurrences, List.zipIdx_append, List.filter_append, List.map_append]
  congr 1
  by_cases h : y = x <;> simp [h]

theorem occurrences_length : (occurrences old x).length = old.count x := by
  induction old using List.reverseRecOn with
  | nil => rfl
  | append_singleton old y ih =>
    rw [occurrences_snoc, List.length_append, List.count_append, ih]
    by_cases h : y = x <;> simp [h]

theorem getElem?_snoc_iff {γ : Type*} {xs : List γ} {y z : γ} :
    (xs ++ [y])[k]? = some z ↔ xs[k]? = some z ∨ k = xs.length ∧ y = z := by
  rcases Nat.lt_trichotomy k xs.length with hk | rfl | hk
  · rw [List.getElem?_append_left hk]
    simp [hk.ne]
  · simp
  · have hlong : (xs ++ [y])[k]? = none := List.getElem?_eq_none (by simp; omega)
    simp [hlong, hk.ne', List.getElem?_eq_none hk.le]

/-- A copy of an instruction is the one of its rank. -/
theorem occurrences_getElem? :
    (occurrences old x)[k]? = some p ↔ old[p]? = some x ∧ (old.take p).count x = k := by
  induction old using List.reverseRecOn with
  | nil => simp [occurrences]
  | append_singleton old y ih =>
    have hnew : (old ++ [y])[p]? = some x ∧ ((old ++ [y]).take p).count x = k ↔
        (occurrences old x)[k]? = some p ∨ y = x ∧ k = (occurrences old x).length ∧
          p = old.length := by
      rw [getElem?_snoc_iff, ih, occurrences_length]
      constructor
      · rintro ⟨hp | ⟨rfl, hy⟩, hk⟩
        · rw [List.take_append_of_le_length (List.getElem?_eq_some_iff.mp hp).1.le] at hk
          exact .inl ⟨hp, hk⟩
        · rw [List.take_left'  rfl] at hk
          exact .inr ⟨hy, hk.symm, rfl⟩
      · rintro (⟨hp, hk⟩ | ⟨hy, hk, rfl⟩)
        · rw [List.take_append_of_le_length (List.getElem?_eq_some_iff.mp hp).1.le]
          exact ⟨.inl hp, hk⟩
        · rw [List.take_left' rfl]
          exact ⟨.inr ⟨rfl, hy⟩, hk.symm⟩
    rw [occurrences_snoc, hnew]
    by_cases h : y = x
    · rw [if_pos h, getElem?_snoc_iff]
      simp [h, eq_comm]
    · simp [h]

/-- The candidates of the new stream, in its order. -/
def candidates (old new : List α) : List (ℕ × ℕ) :=
  new.zipIdx.filterMap fun item =>
    (occurrences old item.1)[(new.take item.2).count item.1]?.map fun p => (item.2, p)

theorem candidates_snoc : candidates old (new ++ [x]) = candidates old new ++
    ((occurrences old x)[new.count x]?.map fun p => (new.length, p)).toList := by
  rw [candidates, List.zipIdx_append, List.filterMap_append]
  congr 1
  · refine List.filterMap_congr fun item hitem => ?_
    obtain ⟨-, hlt, -⟩ := List.mem_zipIdx hitem
    rw [List.take_append_of_le_length (by omega)]
  · cases h : (occurrences old x)[new.count x]? <;> simp [h]

theorem mem_candidates : (i, p) ∈ candidates old new ↔ ∃ x, new[i]? = some x ∧ old[p]? = some x ∧
    (new.take i).count x = (old.take p).count x := by
  rw [candidates, List.mem_filterMap]
  constructor
  · rintro ⟨⟨x, j⟩, hitem, hmap⟩
    obtain ⟨q, hq, hpair⟩ := Option.map_eq_some_iff.mp hmap
    obtain ⟨rfl, rfl⟩ := Prod.mk.inj hpair
    obtain ⟨hold, hrank⟩ := occurrences_getElem?.mp hq
    exact ⟨x, List.mem_zipIdx_iff_getElem?.mp hitem, hold, hrank.symm⟩
  · rintro ⟨x, hnew, hold, hrank⟩
    refine ⟨(x, i), List.mem_zipIdx_iff_getElem?.mpr hnew, ?_⟩
    rw [occurrences_getElem?.mpr ⟨hold, hrank.symm⟩]
    rfl

theorem candidates_sorted : (candidates old new).Pairwise fun a b => a.1 < b.1 := by
  induction new using List.reverseRecOn with
  | nil => exact .nil
  | append_singleton new x ih =>
    rw [candidates_snoc, List.pairwise_append]
    refine ⟨ih, ?_, fun a ha b hb => ?_⟩
    · cases (occurrences old x)[new.count x]? <;> simp
    · obtain ⟨p, -, rfl⟩ := Option.map_eq_some_iff.mp (Option.mem_toList.mp hb)
      obtain ⟨y, hy, -⟩ := mem_candidates.mp ha
      exact (List.getElem?_eq_some_iff.mp hy).1

/-- The pairs of copies of the same rank are the rising runs of candidates. -/
theorem rankAligned_iff {ps : List (ℕ × ℕ)} :
    RankAligned old new ps ↔ ps <+ candidates old new ∧ Rising ps := by
  constructor
  · intro h
    have : Std.Antisymm fun a b : ℕ × ℕ => a.1 < b.1 := ⟨fun _ _ hab hba => absurd hab hba.asymm⟩
    have hsorted := h.rising.imp fun hab => hab.1
    have hnodup : ps.Nodup := hsorted.imp fun hab heq => hab.ne (congrArg Prod.fst heq)
    refine ⟨sublist_of_subperm_of_pairwise (subperm_of_subset hnodup fun a ha => ?_) hsorted
      candidates_sorted, h.rising.imp fun hab => hab.2⟩
    exact mem_candidates.mpr (h.rank a ha)
  · rintro ⟨hsub, hrising⟩
    refine ⟨(candidates_sorted.sublist hsub).and hrising, fun a ha => ?_⟩
    exact mem_candidates.mp (hsub.subset ha)

/-- One step deals the candidate of an instruction, and counts the copies that have one. -/
theorem alignStep_spec {s : Scan α} {n c : ℕ} (hseen : s.seen x = min c (occurrences old x).length) :
    (alignStep old s (x, n)).table =
        ((occurrences old x)[c]?.map fun p => (n, p)).toList.foldl place s.table ∧
      (alignStep old s (x, n)).seen =
        Function.update s.seen x (min (c+1) (occurrences old x).length) := by
  have hsame : min (c+1) (occurrences old x).length = s.seen x →
      s.seen = Function.update s.seen x (min (c+1) (occurrences old x).length) := fun h => by
    rw [h, Function.update_eq_self]
  rw [alignStep, positions]
  by_cases hnil : occurrences old x = []
  · simp only [hnil, if_true] at hsame ⊢
    exact ⟨rfl, hsame (by simp [hseen, hnil])⟩
  · simp only [hnil, if_false]
    rcases Nat.lt_or_ge c (occurrences old x).length with hlt | hge
    · rw [hseen, Nat.min_eq_left hlt.le, Nat.min_eq_left hlt, List.getElem?_eq_getElem hlt]
      exact ⟨rfl, rfl⟩
    · rw [hseen, Nat.min_eq_right hge, List.getElem?_eq_none le_rfl, List.getElem?_eq_none hge]
      exact ⟨rfl, hsame (by omega)⟩

/-- The loop deals the candidates. -/
theorem scan_eq (old new : List α) :
    (new.zipIdx.foldl (alignStep old) ⟨fun _ => 0, [], [], []⟩).table =
        (candidates old new).foldl place ⟨[], [], []⟩ ∧
      ∀ x, (new.zipIdx.foldl (alignStep old) ⟨fun _ => 0, [], [], []⟩).seen x =
        min (new.count x) (occurrences old x).length := by
  induction new using List.reverseRecOn with
  | nil => exact ⟨rfl, fun x => (Nat.zero_min _).symm⟩
  | append_singleton new y ih =>
    obtain ⟨htable, hseen⟩ := ih
    obtain ⟨hstep, hcount⟩ := alignStep_spec (n := new.length) (hseen y)
    rw [List.zipIdx_append, List.foldl_append, candidates_snoc, List.foldl_append, ← htable]
    refine ⟨by simpa using hstep, fun x => ?_⟩
    simp only [List.zipIdx_singleton, List.foldl_cons, List.foldl_nil, Nat.zero_add, hcount]
    by_cases hx : x = y
    · rw [hx, Function.update_self, List.count_append, List.count_singleton_self]
    · rw [Function.update_of_ne hx, hseen, List.count_append, List.count_singleton,
        if_neg (by simpa using Ne.symm hx), Nat.add_zero]

end candidates

/-! ## The alignment from the longest run -/

section entered
variable {aligned : List (Option ℕ)} {cards : List (ℕ × ℕ)} {i p : ℕ}

theorem enter_length : (enter aligned cards).length = aligned.length := by
  induction cards generalizing aligned with
  | nil => rfl
  | cons card cards ih =>
    rw [enter, List.foldl_cons]
    exact ih.trans (List.length_set ..)

/-- Cards of different keys are entered at free places. -/
theorem enter_spec (hkeys : cards.Pairwise fun a b => a.1 ≠ b.1)
    (hfree : ∀ a ∈ cards, aligned[a.1]? = some none) :
    (∀ i p, (enter aligned cards)[i]? = some (some p) ↔
        (i, p) ∈ cards ∨ aligned[i]? = some (some p)) ∧
      (enter aligned cards).countP Option.isSome =
        aligned.countP Option.isSome + cards.length := by
  induction cards generalizing aligned with
  | nil => exact ⟨fun i p => by simp [enter], rfl⟩
  | cons card cards ih =>
    obtain ⟨hfirst, hrest⟩ := List.pairwise_cons.mp hkeys
    have hplace := hfree card List.mem_cons_self
    obtain ⟨hlt, hnone⟩ := List.getElem?_eq_some_iff.mp hplace
    obtain ⟨hget, hcount⟩ := @ih (aligned.set card.1 (some card.2)) hrest fun a ha => by
      rw [List.getElem?_set_ne (hfirst a ha)]
      exact hfree a (List.mem_cons_of_mem _ ha)
    constructor
    · intro i p
      refine (hget i p).trans ?_
      rw [List.mem_cons, List.getElem?_set]
      by_cases hi : card.1 = i
      · subst hi
        rw [if_pos rfl, if_pos hlt, hplace]
        simp [Prod.ext_iff, eq_comm, or_comm]
      · simp [hi, Prod.ext_iff, Ne.symm hi]
    · refine hcount.trans ?_
      rw [List.countP_set hlt, hnone, List.length_cons]
      simp
      omega

end entered

section picked
variable {α : Type*}

/-- Rising positions pick out a subsequence. -/
theorem picked_sublist {xs zs : List α} {is : List ℕ} (hrising : is.Pairwise (· < ·))
    (hzs : is.map (xs[·]?) = zs.map some) : zs <+ xs := by
  have hlt : ∀ i ∈ is, i < xs.length := fun i hi => by
    obtain ⟨z, -, hz⟩ := List.mem_map.mp (hzs ▸ List.mem_map_of_mem hi)
    exact (List.getElem?_eq_some_iff.mp hz.symm).1
  have hpicked : (is.pmap Fin.mk hlt).map (fun i => xs[i]) = zs := by
    apply List.map_injective_iff.mpr (Option.some_injective α)
    rw [← hzs, List.map_map, List.map_pmap, List.pmap_eq_map_attach]
    conv_rhs => rw [← List.attach_map_subtype_val is, List.map_map]
    refine List.map_congr_left fun i _ => ?_
    exact (List.getElem?_eq_getElem (hlt i i.2)).symm
  rw [← hpicked]
  exact List.map_getElem_sublist (hrising.pmap hlt fun _ _ _ _ hab => hab)

theorem exists_values {γ : Type*} {f g : γ → Option α} {as : List γ}
    (h : ∀ a ∈ as, ∃ x, f a = some x ∧ g a = some x) :
    ∃ zs : List α, as.map f = zs.map some ∧ as.map g = zs.map some := by
  induction as with
  | nil => exact ⟨[], rfl, rfl⟩
  | cons a as ih =>
    obtain ⟨x, hf, hg⟩ := h a List.mem_cons_self
    obtain ⟨zs, hfs, hgs⟩ := ih fun b hb => h b (List.mem_cons_of_mem _ hb)
    exact ⟨x::zs, by simp [hf, hfs], by simp [hg, hgs]⟩

end picked

section aligned
variable {α : Type*} [DecidableEq α] {old new : List α} {i p : ℕ}

theorem candidates_empty (h : old = [] ∨ new = []) : candidates old new = [] := by
  refine List.eq_nil_iff_forall_not_mem.mpr fun a ha => ?_
  obtain ⟨x, hnew, hold, -⟩ := mem_candidates.mp ha
  rcases h with rfl | rfl
  · cases hold
  · cases hnew

/-- The alignment has the pairs of a longest run of copies of the same rank. -/
theorem exists_run (old new : List α) : ∃ ps, RankAligned old new ps ∧
    (∀ qs, RankAligned old new qs → qs.length ≤ ps.length) ∧
    (lcsAlign old new).length = new.length ∧
    (∀ i p, (lcsAlign old new)[i]? = some (some p) ↔ (i, p) ∈ ps) ∧
    (lcsAlign old new).countP Option.isSome = ps.length := by
  have hfree : ∀ i < new.length, (List.replicate new.length (none : Option ℕ))[i]? = some none :=
    fun i hi => List.getElem?_replicate_of_lt hi
  have hempty : ∀ i p, (List.replicate new.length (none : Option ℕ))[i]? ≠ some (some p) :=
    fun i p h => by cases List.eq_of_mem_replicate (List.mem_of_getElem? h)
  have hzero : (List.replicate new.length (none : Option ℕ)).countP Option.isSome = 0 := by
    simp [List.countP_replicate]
  rw [lcsAlign]
  by_cases h : old = [] ∨ new = []
  · rw [if_pos h]
    refine ⟨[], rankAligned_iff.mpr ⟨List.nil_sublist _, .nil⟩, fun qs hqs => ?_,
      List.length_replicate, fun i p => by simp [hempty], hzero⟩
    have hsub := (rankAligned_iff.mp hqs).1
    rw [candidates_empty h] at hsub
    exact hsub.length_le
  · rw [if_neg h]
    have hdealt := dealt_foldl (candidates old new)
    rw [← (scan_eq old new).1] at hdealt
    obtain ⟨hsub, hrising, -⟩ := hdealt.longest_rising
    have hrank := rankAligned_iff.mpr ⟨hsub, hrising⟩
    obtain ⟨hget, hcount⟩ := @enter_spec (List.replicate new.length none) _
        (List.pairwise_reverse.mp (hrank.rising.imp fun hab => hab.1.ne')) fun a ha => by
        obtain ⟨x, hx, -⟩ := hrank.rank a (List.mem_reverse.mpr ha)
        exact hfree _ (List.getElem?_eq_some_iff.mp hx).1
    refine ⟨_, hrank, fun qs hqs => ?_, enter_length.trans List.length_replicate, fun i p => ?_, ?_⟩
    · obtain ⟨hqsub, hqrising⟩ := rankAligned_iff.mp hqs
      rw [List.length_reverse]
      exact hdealt.length_le_longest hqsub hqrising
    · rw [List.mem_reverse]
      exact (hget i p).trans (or_iff_left (hempty i p))
    · rw [List.length_reverse]
      refine hcount.trans ?_
      rw [hzero, Nat.zero_add]

theorem RankAligned.common {ps : List (ℕ × ℕ)} (h : RankAligned old new ps) :
    ps.length ∈ commonLengths old new := by
  obtain ⟨zs, hnew, hold⟩ := exists_values (f := fun a : ℕ × ℕ => new[a.1]?)
    (g := fun a => old[a.2]?) fun a ha => by
      obtain ⟨x, hx, hy, -⟩ := h.rank a ha
      exact ⟨x, hx, hy⟩
  refine ⟨zs, ?_, ?_, ?_⟩
  · refine @picked_sublist _ _ _ (ps.map Prod.snd) ?_ (by rw [List.map_map]; exact hold)
    exact List.pairwise_map.mpr (h.rising.imp fun hab => hab.2)
  · refine @picked_sublist _ _ _ (ps.map Prod.fst) ?_ (by rw [List.map_map]; exact hnew)
    exact List.pairwise_map.mpr (h.rising.imp fun hab => hab.1)
  · rw [← List.length_map some, ← hnew, List.length_map]

/-- A later new position has a later old one. -/
theorem RankAligned.snd_lt {ps : List (ℕ × ℕ)} (h : RankAligned old new ps) {a b : ℕ × ℕ}
    (ha : a ∈ ps) (hb : b ∈ ps) (hab : a.1 < b.1) : a.2 < b.2 := by
  obtain ⟨m, hm, rfl⟩ := List.mem_iff_getElem.mp ha
  obtain ⟨n, hn, rfl⟩ := List.mem_iff_getElem.mp hb
  have hpairs := List.pairwise_iff_getElem.mp h.rising
  rcases Nat.lt_trichotomy m n with hmn | rfl | hnm
  · exact (hpairs m n hm hn hmn).2
  · exact absurd hab (Nat.lt_irrefl _)
  · exact absurd hab (hpairs n m hn hm hnm).1.asymm

/-- The alignment pairs the same instructions at rising positions. -/
theorem lcsAlign_sound (old new : List α) : Sound old new (lcsAlign old new) := by
  obtain ⟨ps, hrank, -, hlen, hget, -⟩ := exists_run old new
  refine ⟨hlen, fun i p h => ?_, fun i j p q hij hp hq => ?_⟩
  · obtain ⟨x, hnew, hold, -⟩ := hrank.rank _ ((hget i p).mp h)
    exact ⟨x, hnew, hold⟩
  · exact hrank.snd_lt ((hget i p).mp hp) ((hget j q).mp hq) hij

/-- The alignment is optimal exactly when a longest common subsequence pairs only copies of the
same rank. -/
theorem alignsOptimally_iff (old new : List α) :
    AlignsOptimally old new (lcsAlign old new) ↔ RankOptimal old new := by
  obtain ⟨ps, hrank, hbest, -, -, hcount⟩ := exists_run old new
  rw [AlignsOptimally, hcount]
  constructor
  · rintro ⟨-, -, hub⟩
    exact ⟨ps, hrank, fun zs hold hnew => hub ⟨zs, hold, hnew, rfl⟩⟩
  · rintro ⟨qs, hqs, hlongest⟩
    refine ⟨lcsAlign_sound old new, hrank.common, ?_⟩
    rintro n ⟨zs, hold, hnew, rfl⟩
    exact (hlongest zs hold hnew).trans (hbest qs hqs)

end aligned

/-! ## Deleted instructions -/

section survivors
variable {α : Type*} {old : List α} {keep : ℕ → Bool} {x : α} {i q : ℕ}

theorem mem_survivors : (x, q) ∈ survivors old keep ↔ old[q]? = some x ∧ keep q = true := by
  rw [survivors, List.mem_filter, List.mem_zipIdx_iff_getElem?]

theorem survivors_sorted : (survivors old keep).Pairwise fun a b => a.2 < b.2 := by
  refine List.Pairwise.filter _ ?_
  rw [← List.pairwise_map (R := (· < ·)), List.zipIdx_map_snd]
  exact List.pairwise_lt_range'

/-- Before an instruction that is left stands what is left of those before it. -/
theorem survivors_take (h : (survivors old keep)[i]? = some (x, q)) :
    (survivors old keep).take i = survivors (old.take q) keep := by
  obtain ⟨hq, hkeep⟩ := mem_survivors.mp (List.mem_of_getElem? h)
  have hsplit : survivors old keep = survivors (old.take q) keep ++
      (x, q)::((old.drop (q+1)).zipIdx (q+1)).filter fun y => keep y.2 := by
    have hlen : (old.take q).length = q :=
      List.length_take_of_le (List.getElem?_eq_some_iff.mp hq).1.le
    have hdrop : old.drop q = x::old.drop (q+1) :=
      List.drop_eq_getElem?_toList_append.trans (by simp [hq])
    conv_lhs => rw [← List.take_append_drop q old, hdrop]
    rw [survivors, List.zipIdx_append, List.filter_append, List.zipIdx_cons, hlen, Nat.zero_add,
      List.filter_cons_of_pos (by exact hkeep), survivors]
  have hnodup : (survivors old keep).Nodup :=
    survivors_sorted.imp fun hab heq => hab.ne (congrArg Prod.snd heq)
  have hplace : (survivors old keep)[(survivors (old.take q) keep).length]? = some (x, q) := by
    rw [hsplit, List.getElem?_append_right le_rfl, Nat.sub_self]
    rfl
  obtain ⟨hi, hx⟩ := List.getElem?_eq_some_iff.mp h
  obtain ⟨hj, hy⟩ := List.getElem?_eq_some_iff.mp hplace
  obtain rfl := (@List.Nodup.getElem_inj_iff _ _ hnodup _ hi _ hj).mp (hx.trans hy.symm)
  conv_lhs => rw [hsplit]
  exact List.take_left

end survivors

section deletion
variable {α : Type*} [DecidableEq α] {old : List α} {keep : ℕ → Bool} {x : α} {i p q : ℕ}

/-- Every copy is kept when as many are left. -/
theorem count_survivors : ((survivors old keep).map Prod.fst).count x = old.count x ↔
    ∀ p, old[p]? = some x → keep p = true := by
  have hold : old.count x = (old.zipIdx.filter fun y => y.1 = x).length := by
    rw [← occurrences_length, occurrences, List.length_map]
  have hnew : ((survivors old keep).map Prod.fst).count x =
      ((old.zipIdx.filter fun y => y.1 = x).filter fun y => keep y.2).length := by
    rw [List.filter_comm, ← survivors, ← List.countP_eq_length_filter, List.count, List.countP_map]
    rfl
  rw [hold, hnew, List.length_filter_eq_length_iff]
  constructor
  · intro h p hp
    exact h (x, p) (List.mem_filter.mpr ⟨List.mem_zipIdx_iff_getElem?.mpr hp, by simp⟩)
  · intro h y hy
    obtain ⟨hmem, heq⟩ := List.mem_filter.mp hy
    obtain rfl : y.1 = x := by simpa using heq
    exact h y.2 (List.mem_zipIdx_iff_getElem?.mp hmem)

/-- An instruction that is left has its old rank when no copy was deleted before it. -/
theorem survivors_rank (h : (survivors old keep)[i]? = some (x, q)) :
    (((survivors old keep).map Prod.fst).take i).count x = (old.take q).count x ↔
      ∀ p < q, old[p]? = some x → keep p = true := by
  rw [← List.map_take, survivors_take h, count_survivors]
  refine forall_congr' fun p => ?_
  rw [List.getElem?_take]
  by_cases hp : p < q <;> simp [hp]

/-- When instructions are deleted, each that is left is aligned with itself exactly when no copy of
it was deleted before it. -/
theorem lcsAlign_survivors (old : List α) (keep : ℕ → Bool) :
    lcsAlign old ((survivors old keep).map Prod.fst) =
      (survivors old keep).map (fun y => some y.2) ↔ KeepsFirst old keep := by
  obtain ⟨ps, hrank, hbest, hlen, hget, hcount⟩ :=
    exists_run old ((survivors old keep).map Prod.fst)
  constructor
  · intro h p q x hpq hp hq hkeep
    obtain ⟨i, hi⟩ := List.mem_iff_getElem?.mp (mem_survivors.mpr ⟨hq, hkeep⟩)
    have hpair : (i, q) ∈ ps := by
      rw [← hget, h, List.getElem?_map, hi]
      rfl
    obtain ⟨y, hnew, hold, hranks⟩ := hrank.rank _ hpair
    obtain rfl : x = y := Option.some.inj (hq.symm.trans hold)
    exact (survivors_rank hi).mp hranks p hpq hp
  · intro h
    have hown : RankAligned old ((survivors old keep).map Prod.fst)
        ((survivors old keep).zipIdx.map fun y => (y.2, y.1.2)) := by
      constructor
      · refine List.pairwise_map.mpr (List.pairwise_iff_getElem.mpr fun i j hi hj hij => ?_)
        simp only [List.getElem_zipIdx, Nat.zero_add]
        refine ⟨hij, List.pairwise_iff_getElem.mp survivors_sorted i j _ _ hij⟩
      · intro a ha
        obtain ⟨⟨⟨x, q⟩, i⟩, hy, rfl⟩ := List.mem_map.mp ha
        have hi := List.mem_zipIdx_iff_getElem?.mp hy
        obtain ⟨hq, hkeep⟩ := mem_survivors.mp (List.mem_of_getElem? hi)
        refine ⟨x, by simp [hi], hq, (survivors_rank hi).mpr fun p hpq hp => ?_⟩
        exact h p q x hpq hp hq hkeep
    have hall : ∀ y ∈ lcsAlign old ((survivors old keep).map Prod.fst), y.isSome = true := by
      refine List.countP_eq_length.mp (Nat.le_antisymm List.countP_le_length ?_)
      rw [hlen, hcount]
      simpa using hbest _ hown
    refine List.ext_getElem (by simpa using hlen) fun i hi hi' => ?_
    obtain ⟨p, hp⟩ := Option.isSome_iff_exists.mp (hall _ (List.getElem_mem hi))
    obtain ⟨x, hnew, hold, hranks⟩ := hrank.rank _
      ((hget i p).mp ((List.getElem?_eq_getElem hi).trans (congrArg some hp)))
    obtain ⟨⟨y, q⟩, hq, rfl⟩ := Option.map_eq_some_iff.mp (List.getElem?_map ▸ hnew)
    obtain ⟨hyq, hkeep⟩ := mem_survivors.mp (List.mem_of_getElem? hq)
    have hsame := (survivors_rank hq).mpr fun r hr hry => h r q y hr hry hyq hkeep
    have hpq : p = q := Option.some.inj ((occurrences_getElem?.mpr ⟨hold, hranks.symm⟩).symm.trans
      (occurrences_getElem?.mpr ⟨hyq, hsame.symm⟩))
    obtain ⟨hlt, hget'⟩ := List.getElem?_eq_some_iff.mp hq
    rw [hp, hpq, List.getElem_map, hget']

end deletion

/-! ## When the alignment is optimal -/

/-- An alignment is a longest common subsequence exactly when one pairs only copies of the same
rank; when the new stream is the old one with instructions deleted, each is aligned with itself
exactly when no copy is deleted before one that is kept. -/
theorem lcsAlign_correct_iff {α : Type*} [DecidableEq α] (old : List α) :
    (∀ new, AlignsOptimally old new (lcsAlign old new) ↔ RankOptimal old new) ∧
      (∀ keep, lcsAlign old ((survivors old keep).map Prod.fst) =
        (survivors old keep).map (fun y => some y.2) ↔ KeepsFirst old keep) :=
  ⟨alignsOptimally_iff old, lcsAlign_survivors old⟩

/-- Two instructions that read attributes, the first of them again, and the first deleted: the copy
that is kept gets the line of the one deleted, and the other gets none. -/
theorem lcsAlign_deleted_copy :
    let old : List Insn := [.getAttr 1 0 0, .getAttr 1 0 1, .getAttr 1 0 0]
    let new : List Insn := [.getAttr 1 0 1, .getAttr 1 0 0]
    new = (survivors old (0 < ·)).map Prod.fst ∧
      ¬AlignsOptimally old new (lcsAlign old new) ∧
      matchedLines [1, 2, 3] (lcsAlign old new) = [none, some 1] := by
  intro old new
  have halign : lcsAlign old new = [none, some 0] := by decide
  refine ⟨by decide, fun h => ?_, by rw [halign]; rfl⟩
  have hle := h.2.2 ⟨new, by decide, List.Sublist.refl _, rfl⟩
  rw [halign] at hle
  exact absurd hle (by decide)

end Pyrust.LineAlignment
