import Mathlib.Data.List.Forall2
import Pyrust.ConstantPool

/-!
# Compaction of the constant pool

The entries that no instruction names are removed, and the indices of the others
are rewritten through a table. Marking and rewriting are two traversals, each with
its own list of opcodes.
-/

set_option autoImplicit false

namespace Pyrust.ConstantCompaction

open Bytecode ConstantPool

/-- The `mark` closure. -/
def mark (used : List Bool) (idx : ℕ) : List Bool :=
  if idx < used.length then used.set idx true else used

/-- The match of the marking traversal. -/
def markInsn (used : List Bool) : Insn → List Bool
  | .loadConst _ c => mark used c
  | .binOpConst _ _ _ c _ => mark used c
  | .cmpJumpIfFalseConst _ _ c _ => mark used c
  | .cmpJumpIfTrueConst _ _ c _ => mark used c
  | .makeTypeAlias _ nameIdx _ _ => mark used nameIdx
  | .makeTypeVar _ nameIdx => mark used nameIdx
  | .callKw _ _ _ kwnamesIdx => mark used kwnamesIdx
  | .callMethodKw _ _ _ _ _ _ kwnamesIdx => mark used kwnamesIdx
  | .callExArgs _ _ _ kwnamesIdx _ _ => mark used kwnamesIdx
  | _ => used

/-- `u16::try_from`. -/
def toU16 (n : ℕ) : Option ℕ := if n < 2^16 then some n else none

/-- The loop that fills `old_to_new` and `new_consts`; `none` is its panic. -/
def buildMap {α : Type} :
    List (α × Bool) → List (Option ℕ) → List α → Option (List (Option ℕ) × List α)
  | [], oldToNew, newConsts => some (oldToNew, newConsts)
  | (val, true)::rest, oldToNew, newConsts => do
    let idx ← toU16 newConsts.length
    buildMap rest (oldToNew ++ [some idx]) (newConsts ++ [val])
  | (_, false)::rest, oldToNew, newConsts => buildMap rest (oldToNew ++ [none]) newConsts

/-- The `remap` closure, which panics outside the table and at an unused entry. -/
def remap (oldToNew : List (Option ℕ)) (c : ℕ) : Option ℕ := oldToNew[c]?.join

/-- The match of the rewriting traversal. -/
def rewriteInsn (remap : ℕ → Option ℕ) : Insn → Option Insn
  | .loadConst r c => return .loadConst r (← remap c)
  | .binOpConst d l op c ia => return .binOpConst d l op (← remap c) ia
  | .cmpJumpIfFalseConst r op c k => return .cmpJumpIfFalseConst r op (← remap c) k
  | .cmpJumpIfTrueConst r op c k => return .cmpJumpIfTrueConst r op (← remap c) k
  | .makeTypeAlias dst nameIdx value params =>
    return .makeTypeAlias dst (← remap nameIdx) value params
  | .makeTypeVar dst nameIdx => return .makeTypeVar dst (← remap nameIdx)
  | .callKw func total nkw kwnamesIdx => return .callKw func total nkw (← remap kwnamesIdx)
  | .callMethodKw dst obj nameIdx argsBase total nkw kwnamesIdx =>
    return .callMethodKw dst obj nameIdx argsBase total nkw (← remap kwnamesIdx)
  | .callExArgs func npos nkw kwnamesIdx argsSplat kwargs =>
    return .callExArgs func npos nkw (← remap kwnamesIdx) argsSplat kwargs
  | other => some other

/-- `pass_compact_consts`. -/
def passCompactConsts {α : Type} (insns : List Insn) (consts : List α) :
    Option (List Insn × List α) :=
  if consts.isEmpty then some (insns, consts)
  else
    let used := insns.foldl markInsn (List.replicate consts.length false)
    if used.all id then some (insns, consts)
    else do
      let (oldToNew, newConsts) ← buildMap (consts.zip used) [] []
      let newInsns ← insns.mapM (rewriteInsn (remap oldToNew))
      return (newInsns, newConsts)

/-! ## What compaction is for -/

/-- The instruction without the index of its constant. -/
def eraseConst : Insn → Insn
  | .loadConst r _ => .loadConst r 0
  | .binOpConst d l op _ ia => .binOpConst d l op 0 ia
  | .cmpJumpIfFalseConst r op _ k => .cmpJumpIfFalseConst r op 0 k
  | .cmpJumpIfTrueConst r op _ k => .cmpJumpIfTrueConst r op 0 k
  | .makeTypeAlias dst _ value params => .makeTypeAlias dst 0 value params
  | .makeTypeVar dst _ => .makeTypeVar dst 0
  | .callKw func total nkw _ => .callKw func total nkw 0
  | .callMethodKw dst obj nameIdx argsBase total nkw _ =>
    .callMethodKw dst obj nameIdx argsBase total nkw 0
  | .callExArgs func npos nkw _ argsSplat kwargs => .callExArgs func npos nkw 0 argsSplat kwargs
  | other => other

/-- Some operand of the stream names the entry. -/
def named (insns : List Insn) (c : ℕ) : Bool := insns.any fun x => (constIdx x).contains c

/-- The entries that a predicate on their index keeps, in their order. -/
def kept {α : Type} (keep : ℕ → Bool) (consts : List α) : List α :=
  (consts.zipIdx.filter fun x => keep x.2).map Prod.fst

/-- The operands name the constants they named and nothing else has changed; what is left of the
pool are the named entries in their order, and each is still named. -/
structure Faithful {α : Type} (insns : List Insn) (consts : List α) (insns' : List Insn)
    (consts' : List α) : Prop where
  resolves : List.Forall₂ (fun x x' => eraseConst x' = eraseConst x ∧
    (constIdx x').map (fun c => consts'[c]?) = (constIdx x).map fun c => consts[c]?) insns insns'
  ordered : consts' = kept (named insns) consts
  needed : ∀ c < consts'.length, named insns' c = true

/-- A stream whose constant operands are words of sixteen bits and lie in the pool. -/
structure Linked (Obj : Type) where
  insns : List Insn
  consts : List (Value Obj)
  inPool : InPool insns consts
  width : ∀ x ∈ insns, ∀ c ∈ constIdx x, c < 2^16

/-! ## Marking -/

theorem mark_length (used : List Bool) (idx : ℕ) : (mark used idx).length = used.length := by
  rw [mark]
  split
  · rw [List.length_set]
  · rfl

theorem mark_getElem? (used : List Bool) (idx c : ℕ) :
    (mark used idx)[c]? = used[c]?.map fun u => u || c == idx := by
  rw [mark]
  by_cases h : idx < used.length
  · rw [if_pos h, List.getElem?_set]
    by_cases hc : idx = c
    · subst hc
      simp [h]
    · have hne : (c == idx) = false := by simpa using Ne.symm hc
      simp [hc, hne]
  · rw [if_neg h]
    by_cases hc : c < used.length
    · have hne : (c == idx) = false := by
        rw [beq_eq_false_iff_ne]
        omega
      simp [hne]
    · simp [List.getElem?_eq_none (not_lt.mp hc)]

/-- Marking lists the opcodes that carry a constant. -/
theorem markInsn_eq (used : List Bool) (x : Insn) :
    markInsn used x = (constIdx x).foldl mark used := by
  cases x <;> rfl

theorem foldl_mark_getElem? (idxs : List ℕ) (used : List Bool) (c : ℕ) :
    (idxs.foldl mark used)[c]? = used[c]?.map fun u => u || idxs.contains c := by
  induction idxs generalizing used with
  | nil => simp
  | cons idx idxs ih =>
    rw [List.foldl_cons, ih, mark_getElem?, Option.map_map]
    congr 1
    funext u
    simp [beq_eq_decide, Bool.or_assoc]

theorem marked_getElem? (insns : List Insn) (used : List Bool) (c : ℕ) :
    (insns.foldl markInsn used)[c]? = used[c]?.map fun u => u || named insns c := by
  induction insns generalizing used with
  | nil => simp [named]
  | cons x insns ih =>
    rw [List.foldl_cons, ih, markInsn_eq, foldl_mark_getElem?, Option.map_map]
    congr 1
    funext u
    simp [named, Bool.or_assoc]

theorem foldl_mark_length (idxs : List ℕ) (used : List Bool) :
    (idxs.foldl mark used).length = used.length := by
  induction idxs generalizing used with
  | nil => rfl
  | cons idx idxs ih => rw [List.foldl_cons, ih, mark_length]

theorem marked_length (insns : List Insn) (used : List Bool) :
    (insns.foldl markInsn used).length = used.length := by
  induction insns generalizing used with
  | nil => rfl
  | cons x insns ih => rw [List.foldl_cons, ih, markInsn_eq, foldl_mark_length]

/-- The flags after marking: an entry is used when an operand names it. -/
theorem used_getElem? (insns : List Insn) {n c : ℕ} (h : c < n) :
    (insns.foldl markInsn (List.replicate n false))[c]? = some (named insns c) := by
  rw [marked_getElem?, List.getElem?_replicate_of_lt h]
  rfl

/-! ## Renumbering -/

section renumber
variable {α : Type}

/-- The kept values of a flagged list. -/
def flagged (entries : List (α × Bool)) : List α := (entries.filter Prod.snd).map Prod.fst

/-- The new indices of a flagged list, counted from one on. -/
def ranks : ℕ → List (α × Bool) → List (Option ℕ)
  | _, [] => []
  | n, (_, true)::rest => some n::ranks (n+1) rest
  | n, (_, false)::rest => none::ranks n rest

theorem flagged_cons_true (val : α) (rest : List (α × Bool)) :
    flagged ((val, true)::rest) = val::flagged rest := rfl

theorem flagged_cons_false (val : α) (rest : List (α × Bool)) :
    flagged ((val, false)::rest) = flagged rest := rfl

/-- The table and the pool, unless more than a word of entries is kept. -/
theorem buildMap_eq (entries : List (α × Bool)) (oldToNew : List (Option ℕ)) (newConsts : List α)
    (h : newConsts.length+(flagged entries).length ≤ 2^16) :
    buildMap entries oldToNew newConsts =
      some (oldToNew ++ ranks newConsts.length entries, newConsts ++ flagged entries) := by
  induction entries generalizing oldToNew newConsts with
  | nil => simp [buildMap, ranks, flagged]
  | cons entry rest ih =>
    obtain ⟨val, u⟩ := entry
    cases u with
    | false =>
      rw [flagged_cons_false] at h ⊢
      rw [buildMap, ih _ _ h, ranks, List.append_assoc]
      rfl
    | true =>
      rw [flagged_cons_true, List.length_cons] at h
      have hword : toU16 newConsts.length = some newConsts.length := if_pos (by omega)
      have hlen : (newConsts ++ [val]).length = newConsts.length+1 := by simp
      rw [buildMap, hword]
      simp only [bind, Option.bind_some]
      rw [ih _ _ (by rw [hlen]; omega), hlen, ranks, flagged_cons_true]
      simp

/-- A flagged entry has a new index, and the new pool has the entry there. -/
theorem ranks_getElem? {entries : List (α × Bool)} {c : ℕ} {val : α} (n : ℕ)
    (h : entries[c]? = some (val, true)) :
    ∃ j, (ranks n entries)[c]? = some (some (n+j)) ∧ (flagged entries)[j]? = some val := by
  induction entries generalizing n c with
  | nil => cases h
  | cons entry rest ih =>
    obtain ⟨v, u⟩ := entry
    cases c with
    | zero =>
      rw [List.getElem?_cons_zero, Option.some.injEq, Prod.mk.injEq] at h
      obtain ⟨rfl, rfl⟩ := h
      exact ⟨0, rfl, rfl⟩
    | succ c =>
      rw [List.getElem?_cons_succ] at h
      cases u with
      | false =>
        obtain ⟨j, hj, hv⟩ := ih n h
        exact ⟨j, hj, hv⟩
      | true =>
        obtain ⟨j, hj, hv⟩ := ih (n+1) h
        refine ⟨j+1, ?_, hv⟩
        rw [ranks, List.getElem?_cons_succ, hj]
        congr 2
        omega

/-- Every place of the new pool is the new index of a flagged entry. -/
theorem ranks_onto {entries : List (α × Bool)} {j : ℕ} (n : ℕ)
    (h : j < (flagged entries).length) :
    ∃ (c : ℕ) (val : α), entries[c]? = some (val, true) ∧
      (ranks n entries)[c]? = some (some (n+j)) := by
  induction entries generalizing n j with
  | nil => cases h
  | cons entry rest ih =>
    obtain ⟨v, u⟩ := entry
    cases u with
    | false =>
      obtain ⟨c, val, hc, hr⟩ := ih n h
      exact ⟨c+1, val, hc, hr⟩
    | true =>
      cases j with
      | zero => exact ⟨0, v, rfl, rfl⟩
      | succ j =>
        rw [flagged_cons_true, List.length_cons] at h
        obtain ⟨c, val, hc, hr⟩ := @ih j (n+1) (by omega)
        refine ⟨c+1, val, hc, ?_⟩
        rw [ranks, List.getElem?_cons_succ, hr]
        congr 2
        omega

/-- The entries flagged by a predicate on their index are those that it keeps. -/
theorem flagged_zip {keep : ℕ → Bool} (k : ℕ) {consts : List α} {used : List Bool}
    (hlen : used.length = consts.length) (h : ∀ i < used.length, used[i]? = some (keep (k+i))) :
    flagged (consts.zip used) = ((consts.zipIdx k).filter fun x => keep x.2).map Prod.fst := by
  induction consts generalizing k used with
  | nil => rfl
  | cons val consts ih =>
    cases used with
    | nil => cases hlen
    | cons u used =>
      have hu : u = keep k := by simpa using h 0 (by simp)
      have hrest := ih (k+1) (by simpa using hlen) fun i hi => by
        have := h (i+1) (by simpa using hi)
        rw [List.getElem?_cons_succ] at this
        rw [this]
        congr 2
        omega
      rw [List.zip_cons_cons, List.zipIdx_cons]
      cases hk : keep k with
      | false =>
        rw [hu, hk, flagged_cons_false, hrest, List.filter_cons_of_neg (by simp [hk])]
      | true =>
        rw [hu, hk, flagged_cons_true, hrest, List.filter_cons_of_pos (by simp [hk]),
          List.map_cons]

/-- Only entries below the first `n` are flagged, so no more than `n` are kept. -/
theorem flagged_length_le {entries : List (α × Bool)} {n : ℕ}
    (h : ∀ (c : ℕ) (val : α), entries[c]? = some (val, true) → c < n) :
    (flagged entries).length ≤ n := by
  have hsplit : entries = entries.take n ++ entries.drop n := (List.take_append_drop n _).symm
  have hdrop : (entries.drop n).filter Prod.snd = [] := by
    refine List.filter_eq_nil_iff.mpr fun entry hmem => ?_
    obtain ⟨c, hc⟩ := List.mem_iff_getElem?.mp hmem
    rw [List.getElem?_drop] at hc
    obtain ⟨val, u⟩ := entry
    cases u with
    | false => simp
    | true =>
      have := h _ _ hc
      omega
  rw [flagged, List.length_map, hsplit, List.filter_append, hdrop, List.append_nil]
  exact (List.length_filter_le _ _).trans (List.length_take_le _ _)

end renumber

/-! ## Rewriting -/

/-- The table sends the operands of one instruction to those of the other. -/
def Rewritten (table : ℕ → Option ℕ) (x x' : Insn) : Prop :=
  eraseConst x' = eraseConst x ∧ (constIdx x').map some = (constIdx x).map table

/-- Rewriting lists the opcodes that carry a constant. -/
theorem rewriteInsn_some {table : ℕ → Option ℕ} {x : Insn}
    (h : ∀ c ∈ constIdx x, ∃ d, table c = some d) :
    ∃ x', rewriteInsn table x = some x' ∧ Rewritten table x x' := by
  cases x <;> first
    | exact ⟨_, rfl, rfl, rfl⟩
    | (obtain ⟨d, hd⟩ := h _ (List.mem_singleton_self _)
       constructor
       constructor
       · rw [rewriteInsn, hd]
         exact rfl
       · exact ⟨rfl, congrArg (fun o => [o]) hd.symm⟩)

theorem mapM_forall {α β : Type} {f : α → Option β} {R : α → β → Prop} {xs : List α}
    (h : ∀ x ∈ xs, ∃ y, f x = some y ∧ R x y) :
    ∃ ys, xs.mapM f = some ys ∧ List.Forall₂ R xs ys := by
  induction xs with
  | nil => exact ⟨[], rfl, .nil⟩
  | cons x xs ih =>
    obtain ⟨y, hy, hr⟩ := h x (by simp)
    obtain ⟨ys, hys, hrs⟩ := ih fun z hz => h z (by simp [hz])
    refine ⟨y::ys, ?_, .cons hr hrs⟩
    rw [List.mapM_cons, hy, Option.bind_eq_bind, Option.bind_some, hys]
    rfl

theorem forall₂_left {α β : Type} {R : α → β → Prop} {xs : List α} {ys : List β}
    (h : List.Forall₂ R xs ys) {x : α} (hx : x ∈ xs) : ∃ y ∈ ys, R x y := by
  induction h with
  | nil => cases hx
  | cons hr _ ih =>
    rcases List.mem_cons.mp hx with rfl | hx
    · exact ⟨_, by simp, hr⟩
    · obtain ⟨y, hy, hr⟩ := ih hx
      exact ⟨y, by simp [hy], hr⟩

/-- Both pools answer alike when the table sends every index to one of the same constant. -/
theorem resolves_of_rewritten {α : Type} {table : ℕ → Option ℕ} {consts consts' : List α}
    {x x' : Insn} (hrw : Rewritten table x x')
    (h : ∀ c ∈ constIdx x, ∃ d, table c = some d ∧ consts'[d]? = consts[c]?) :
    (constIdx x').map (fun c => consts'[c]?) = (constIdx x).map fun c => consts[c]? := by
  have hx := congrArg (List.map fun o : Option ℕ => o.bind fun d => consts'[d]?) hrw.2
  rw [List.map_map, List.map_map] at hx
  refine hx.trans (List.map_congr_left fun c hc => ?_)
  obtain ⟨d, hd, heq⟩ := h c hc
  rw [Function.comp_apply, hd, Option.bind_some, heq]

theorem named_iff {insns : List Insn} {c : ℕ} :
    named insns c = true ↔ ∃ x ∈ insns, c ∈ constIdx x := by
  simp [named]

/-- A stream and a pool that all of its entries are named in stay as they are. -/
theorem faithful_refl {α : Type} {insns : List Insn} {consts : List α}
    (h : ∀ c < consts.length, named insns c = true) :
    Faithful insns consts insns consts := by
  refine ⟨List.forall₂_same.mpr fun x _ => ⟨rfl, rfl⟩, ?_, h⟩
  have hall : consts.zipIdx.filter (fun x => named insns x.2) = consts.zipIdx := by
    refine List.filter_eq_self.mpr fun x hx => h _ ?_
    simpa using List.snd_lt_of_mem_zipIdx hx
  rw [kept, hall, List.zipIdx_map_fst]

/-- Compaction never panics and is faithful. -/
theorem passCompactConsts_faithful {Obj : Type} (l : Linked Obj) :
    ∃ insns' consts', passCompactConsts l.insns l.consts = some (insns', consts') ∧
      Faithful l.insns l.consts insns' consts' := by
  obtain ⟨insns, consts, hpool, hwidth⟩ := l
  dsimp only
  rw [passCompactConsts]
  by_cases hempty : consts.isEmpty
  · rw [if_pos hempty, List.isEmpty_iff.mp hempty]
    exact ⟨_, _, rfl, faithful_refl fun c hc => by cases hc⟩
  rw [if_neg hempty]
  have hused : ∀ c < consts.length,
      (insns.foldl markInsn (List.replicate consts.length false))[c]? = some (named insns c) :=
    fun c hc => used_getElem? insns hc
  have hlen : (insns.foldl markInsn (List.replicate consts.length false)).length =
      consts.length := by
    rw [marked_length, List.length_replicate]
  generalize insns.foldl markInsn (List.replicate consts.length false) = used at hused hlen
  dsimp only
  by_cases hall : used.all id
  · rw [if_pos hall]
    refine ⟨_, _, rfl, faithful_refl fun c hc => ?_⟩
    exact List.all_eq_true.mp hall _ (List.mem_of_getElem? (hused c hc))
  rw [if_neg hall]
  have hentry : ∀ (c : ℕ) (val : Value Obj), (consts.zip used)[c]? = some (val, true) ↔
      consts[c]? = some val ∧ named insns c = true := by
    intro c val
    rw [List.getElem?_zip_eq_some]
    refine and_congr_right fun hv => ?_
    rw [hused c (List.getElem?_eq_some_iff.mp hv).1, Option.some.injEq]
  have hshort : (flagged (consts.zip used)).length ≤ 2^16 := by
    refine flagged_length_le fun c val hc => ?_
    obtain ⟨x, hx, hcx⟩ := named_iff.mp ((hentry c val).mp hc).2
    exact hwidth x hx c hcx
  rw [buildMap_eq _ _ _ (by simpa using hshort)]
  simp only [bind, Option.bind_some, List.nil_append, List.length_nil]
  have htable : ∀ c val, consts[c]? = some val → named insns c = true →
      ∃ d, remap (ranks 0 (consts.zip used)) c = some d ∧
        (flagged (consts.zip used))[d]? = some val := by
    intro c val hv hc
    obtain ⟨j, hj, hval⟩ := ranks_getElem? 0 ((hentry c val).mpr ⟨hv, hc⟩)
    refine ⟨j, ?_, hval⟩
    rw [remap, hj, Nat.zero_add]
    rfl
  have hconst : ∀ x ∈ insns, ∀ c ∈ constIdx x, ∃ val, consts[c]? = some val := fun x hx c hc =>
    ⟨_, List.getElem?_eq_getElem (hpool x hx c hc)⟩
  have hrewrite : ∀ x ∈ insns, ∃ x',
      rewriteInsn (remap (ranks 0 (consts.zip used))) x = some x' ∧
        Rewritten (remap (ranks 0 (consts.zip used))) x x' ∧
        (constIdx x').map (fun c => (flagged (consts.zip used))[c]?) =
          (constIdx x).map fun c => consts[c]? := by
    intro x hx
    have hnew : ∀ c ∈ constIdx x, ∃ d, remap (ranks 0 (consts.zip used)) c = some d ∧
        (flagged (consts.zip used))[d]? = consts[c]? := by
      intro c hc
      obtain ⟨val, hv⟩ := hconst x hx c hc
      obtain ⟨d, hd, hval⟩ := htable c val hv (named_iff.mpr ⟨x, hx, hc⟩)
      exact ⟨d, hd, hval.trans hv.symm⟩
    obtain ⟨x', hrun, hrw⟩ := rewriteInsn_some fun c hc => (hnew c hc).imp fun d hd => hd.1
    exact ⟨x', hrun, hrw, resolves_of_rewritten hrw hnew⟩
  obtain ⟨insns', hmap, hpairs⟩ := mapM_forall hrewrite
  rw [hmap]
  refine ⟨insns', _, rfl, ?_, flagged_zip 0 hlen fun i hi => ?_, ?_⟩
  · exact hpairs.imp fun x x' h => ⟨h.1.1, h.2⟩
  · rw [hused i (by omega), Nat.zero_add]
  · intro d hd
    obtain ⟨c, val, hc, hr⟩ := ranks_onto 0 hd
    obtain ⟨x, hx, hcx⟩ := named_iff.mp ((hentry c val).mp hc).2
    obtain ⟨x', hx', hrw, -⟩ := forall₂_left hpairs hx
    refine named_iff.mpr ⟨x', hx', ?_⟩
    have hmem : remap (ranks 0 (consts.zip used)) c ∈ (constIdx x').map some := by
      rw [hrw.2]
      exact List.mem_map_of_mem hcx
    rw [remap, hr, Nat.zero_add] at hmem
    simpa using hmem

end Pyrust.ConstantCompaction
