import Mathlib.Data.Fin.VecNotation
import Mathlib.Data.List.Perm.Subperm
import Mathlib.Order.Fin.Basic
import Mathlib.Tactic.FinCases
import Pyrust.ClassLookup

/-!
# The order of classes

Where the C3 merge succeeds for every class, `object` is the last of every
linearization. The lists that the merge loop works on are those of the merge,
some of them without that last `object`, and until only `object` is left the loop
takes the same heads.
-/

set_option autoImplicit false

namespace Pyrust.ClassLookup.ClassGraph

open C3Merge

variable {Cls Name Value : Type*}

section lists
variable {object x : Cls} {l k : List Cls} {ls ks : List (List Cls)}

/-- A list of the loop: as in the merge, or without `object` at its end. -/
def Trim (object : Cls) (l k : List Cls) : Prop := k = l ∨ l = k ++ [object]

/-- Every element stands before `object` in one of the lists. -/
def Anchored (object : Cls) (ls : List (List Cls)) : Prop :=
  ∀ l ∈ ls, ∀ x ∈ l, x ≠ object → ∃ l' ∈ ls, [x, object].Sublist l'

theorem trim_nil (h : Trim object [] k) : k = [] := by
  rcases h with rfl | h
  · rfl
  · simp at h

theorem trim_cons (h : Trim object l k) : Trim object (x::l) (x::k) := by
  rcases h with rfl | rfl
  · exact .inl rfl
  · exact .inr rfl

theorem trim_head (h : Trim object l k) (hx : x ≠ object) :
    l.head? = some x ↔ k.head? = some x := by
  rcases h with rfl | rfl
  · rfl
  · cases k with
    | nil => simp [Ne.symm hx]
    | cons y k => simp

theorem trim_tail (h : Trim object l k) (hx : x ≠ object) : x ∈ l.tail ↔ x ∈ k.tail := by
  rcases h with rfl | rfl
  · rfl
  · cases k with
    | nil => simp
    | cons y k => simp [hx]

theorem retain_blocked : Blocked (retain ks) x ↔ Blocked ks x := by
  constructor
  · rintro ⟨k, hk, hx⟩
    exact ⟨k, (retain_sublist ks).subset hk, hx⟩
  · rintro ⟨k, hk, hx⟩
    refine ⟨k, ?_, hx⟩
    apply List.mem_filter.mpr ⟨hk, _⟩
    cases k with
    | nil => simp at hx
    | cons => simp

theorem trim_blocked (h : List.Forall₂ (Trim object) ls ks) (hx : x ≠ object) :
    Blocked ls x ↔ Blocked (retain ks) x := by
  rw [retain_blocked]
  induction h with
  | nil => rfl
  | cons hlk _ ih =>
    simp only [Blocked, List.mem_cons, exists_eq_or_imp, trim_tail hlk hx] at ih ⊢
    rw [ih]

theorem retain_cons : retain (k::ks) = if k = [] then retain ks else k::retain ks := by
  cases k with
  | nil => simp [retain]
  | cons y k => simp [retain]

theorem retain_eq_nil (h : ∀ k ∈ ks, k = []) : retain ks = [] := by
  simpa [retain] using h

theorem retain_ne_nil (h : k ∈ retain ks) : k ≠ [] := by
  simpa [retain] using (List.mem_filter.mp h).2

theorem trim_of_mem (h : List.Forall₂ (Trim object) ls ks) (hk : k ∈ ks) :
    ∃ l ∈ ls, Trim object l k := by
  induction h with
  | nil => simp at hk
  | cons hlk _ ih =>
    rcases List.mem_cons.mp hk with rfl | hk
    · exact ⟨_, by simp, hlk⟩
    · obtain ⟨l, hl, hlk⟩ := ih hk
      exact ⟨l, by simp [hl], hlk⟩

theorem findSome_retain {f : List Cls → Option Cls} (hf : f [] = none) :
    (retain ks).findSome? f = ks.findSome? f := by
  induction ks with
  | nil => rfl
  | cons k ks ih =>
    cases k with
    | nil => simpa [retain, hf] using ih
    | cons y k =>
      rw [retain_cons, if_neg (List.cons_ne_nil y k), List.findSome?_cons,
        List.findSome?_cons, ih]

theorem findSome_trim {f : List Cls → Option Cls} {pre post : List (List Cls)}
    (h : List.Forall₂ (Trim object) (pre ++ l::post) ks)
    (hpre : ∀ l' ∈ pre, ∀ k, Trim object l' k → f k = none)
    (hl : ∀ k, Trim object l k → f k = some x) : ks.findSome? f = some x := by
  induction pre generalizing ks with
  | nil =>
    cases h with
    | cons hlk _ => rw [List.findSome?_cons, hl _ hlk]
  | cons l' pre ih =>
    cases h with
    | cons hlk hrest =>
      rw [List.findSome?_cons, hpre l' (by simp) _ hlk]
      exact ih hrest fun l'' hl'' => hpre l'' (by simp [hl''])

end lists

variable [DecidableEq Cls]

/-- `L` gives every class its C3 linearization. -/
def IsMro (g : ClassGraph Cls Name Value) (L : Cls → List Cls) : Prop :=
  ∀ c, ∃ r, L c = c::r ∧ Merge ((g.bases c).map L ++ [g.bases c]) r

section loop
variable {object x : Cls} {l k r : List Cls} {ls ks : List (List Cls)}

theorem trim_dropHead (h : Trim object l k) (hx : x ≠ object) :
    Trim object (dropHead x l) (dropHead x k) := by
  rcases h with rfl | rfl
  · exact .inl rfl
  · right
    cases k with
    | nil => simp [dropHead, Ne.symm hx]
    | cons y k =>
      by_cases hy : y = x
      · simp [dropHead, hy]
      · simp [dropHead, hy]

theorem freeHead_eq_some : freeHead ks k = some x ↔ k.head? = some x ∧ ¬ Blocked ks x := by
  simp [freeHead, Option.filter_eq_some_iff, Blocked]

/-- As long as another head than `object` is to be taken, the loop takes it. -/
theorem chooseHead_of_picks (h : Picks ls x) (hx : x ≠ object)
    (ht : List.Forall₂ (Trim object) ls ks) : chooseHead object (retain ks) = some x := by
  obtain ⟨pre, l, post, rfl, hl, hb, hpre⟩ := h
  have hfirst : ((retain ks).findSome? fun list =>
      (freeHead (retain ks) list).filter (· ≠ object)) = some x := by
    rw [findSome_retain (by simp [freeHead])]
    apply findSome_trim ht
    · -- a head before it is blocked, or it is `object`
      intro l' hl' k hk
      apply Option.filter_eq_none_iff.mpr
      intro y hy
      obtain ⟨hy, hfree⟩ := freeHead_eq_some.mp hy
      by_contra hne
      have hne : y ≠ object := by simpa using hne
      have hhead := (trim_head hk hne).mpr hy
      exact hfree ((trim_blocked ht hne).mp (hpre l' hl' y hhead))
    · intro k hk
      apply Option.filter_eq_some_iff.mpr
      refine ⟨freeHead_eq_some.mpr ⟨(trim_head hk hx).mp hl, ?_⟩, by simpa using hx⟩
      rw [← trim_blocked ht hx]
      exact hb
  rw [chooseHead, hfirst, Option.some_or]

theorem mergeLoop_eq (object : Cls) (ks : List (List Cls)) :
    mergeLoop object ks = match chooseHead object (retain ks) with
      | none => []
      | some x => x::mergeLoop object ((retain ks).map (dropHead x)) := by
  rw [mergeLoop]
  split <;> simp_all

theorem mergeLoop_nil (h : retain ks = []) : mergeLoop object ks = [] := by
  have hnone : chooseHead object (retain ks) = none := by simp [h, chooseHead]
  rw [mergeLoop_eq, hnone]

theorem mergeLoop_cons (h : chooseHead object (retain ks) = some x) :
    mergeLoop object ks = x::mergeLoop object ((retain ks).map (dropHead x)) := by
  rw [mergeLoop_eq, h]

theorem mergeLoop_congr {ks' : List (List Cls)} (h : retain ks = retain ks') :
    mergeLoop object ks = mergeLoop object ks' := by
  rw [mergeLoop_eq, mergeLoop_eq, h]

theorem retain_dropHead :
    retain ((retain ks).map (dropHead x)) = retain (ks.map (dropHead x)) := by
  induction ks with
  | nil => rfl
  | cons k ks ih =>
    by_cases hk : k = []
    · rw [retain_cons, if_pos hk, List.map_cons, retain_cons, if_pos (by simp [hk, dropHead]), ih]
    · rw [retain_cons, if_neg hk, List.map_cons, List.map_cons, retain_cons, retain_cons, ih]

theorem anchored_dropHead (h : Anchored object ls) (hx : Picks ls x) :
    Anchored object (ls.map (dropHead x)) := by
  intro l' hl' z hz hne
  have hzx : z ≠ x := fun he => hx.gone l' hl' (he ▸ hz)
  obtain ⟨l, hl, rfl⟩ := List.mem_map.mp hl'
  obtain ⟨m, hm, hzm⟩ := h l hl z ((dropHead_sublist x l).subset hz) hne
  refine ⟨dropHead x m, List.mem_map.mpr ⟨m, hm, rfl⟩, ?_⟩
  cases hzm.trans (sublist_cons_dropHead x m) with
  | cons _ h => exact h
  | cons_cons => exact absurd rfl hzx

/-- When `object` can be taken, nothing else is left. -/
theorem only_object (h : Anchored object ls) (hfree : ¬ Blocked ls object) :
    ∀ l ∈ ls, l = [] ∨ l = [object] := by
  intro l hl
  have hall (x : Cls) (hx : x ∈ l) : x = object := by
    by_contra hne
    obtain ⟨m, hm, hxm⟩ := h l hl x hx hne
    refine hfree ⟨m, hm, ?_⟩
    cases m with
    | nil => simp at hxm
    | cons y m =>
      cases hxm with
      | cons _ hxm => exact hxm.subset (by simp)
      | cons_cons _ ho => exact ho.subset (by simp)
  cases l with
  | nil => exact .inl rfl
  | cons x t =>
    right
    cases t with
    | nil => rw [hall x (by simp)]
    | cons y t =>
      refine absurd ⟨x::y::t, hl, ?_⟩ hfree
      rw [← hall y (by simp)]
      simp

theorem chooseHead_isSome (h : retain ks ≠ []) : ∃ x, chooseHead object (retain ks) = some x := by
  obtain ⟨k, rest, hk⟩ := List.exists_cons_of_ne_nil h
  obtain ⟨y, t, hy⟩ := List.exists_cons_of_ne_nil (retain_ne_nil (hk ▸ List.mem_cons_self))
  rw [← Option.isSome_iff_exists, chooseHead, Option.isSome_or, Option.isSome_or, hk, hy]
  simp

/-- What the loop does with lists that hold nothing but `object`. -/
theorem mergeLoop_object (h : ∀ k ∈ ks, k = [] ∨ k = [object]) :
    Trim object [object] (mergeLoop object ks) := by
  by_cases hks : retain ks = []
  · rw [mergeLoop_nil hks]
    exact .inr rfl
  · have hall (k : List Cls) (hk : k ∈ retain ks) : k = [object] :=
      (h k ((retain_sublist ks).subset hk)).resolve_left (retain_ne_nil hk)
    obtain ⟨x, hx⟩ := @chooseHead_isSome _ _ object ks hks
    obtain ⟨k, hk, hhead⟩ := chooseHead_mem hx
    have hobject : x = object := by
      rw [hall k hk] at hhead
      exact (Option.some.inj hhead).symm
    rw [mergeLoop_cons hx, hobject, mergeLoop_nil]
    · exact .inl rfl
    · apply retain_eq_nil
      intro k hk
      obtain ⟨k', hk', rfl⟩ := List.mem_map.mp hk
      simp [hall k' hk', dropHead]

/-- The loop gives the merge, or the merge without `object` at its end. -/
theorem mergeLoop_trim (h : Merge ls r) (ha : Anchored object ls)
    (ht : List.Forall₂ (Trim object) ls ks) : Trim object r (mergeLoop object ks) := by
  induction h generalizing ks with
  | @done ls hnil =>
    have hks : ∀ k ∈ ks, k = [] := by
      intro k hk
      obtain ⟨l, hl, hlk⟩ := trim_of_mem ht hk
      rw [hnil l hl] at hlk
      exact trim_nil hlk
    rw [mergeLoop_nil (retain_eq_nil hks)]
    exact .inl rfl
  | @pick ls x r hp hr ih =>
    by_cases hx : x = object
    · have honly := only_object ha (hx ▸ hp.not_blocked)
      have hr : r = [] := by
        apply merge_unique hr
        apply Merge.done
        intro l hl
        obtain ⟨l', hl', rfl⟩ := List.mem_map.mp hl
        rcases honly l' hl' with rfl | rfl <;> simp [dropHead, hx]
      rw [hr, hx]
      apply mergeLoop_object
      intro k hk
      obtain ⟨l, hl, hlk⟩ := trim_of_mem ht hk
      rcases honly l hl with rfl | rfl
      · exact .inl (trim_nil hlk)
      · rcases hlk with rfl | hlk
        · exact .inr rfl
        · exact .inl (by simpa using hlk)
    · rw [mergeLoop_cons (chooseHead_of_picks hp hx ht), mergeLoop_congr retain_dropHead]
      apply trim_cons
      apply ih (anchored_dropHead ha hp)
      exact List.forall₂_map_left_iff.mpr (List.forall₂_map_right_iff.mpr
        (ht.imp fun _ _ hlk => trim_dropHead hlk hx))

end loop

section graph
variable {g : ClassGraph Cls Name Value} {L : Cls → List Cls} {b c d x : Cls} {r : List Cls}

theorem mro_cons (h : g.IsMro L) (c : Cls) : ∃ r, L c = c::r := by
  obtain ⟨r, hr, -⟩ := h c
  exact ⟨r, hr⟩

/-- What a class adds to the linearizations of its bases. -/
theorem mem_merge (h : g.IsMro L) (hm : Merge ((g.bases c).map L ++ [g.bases c]) r) :
    x ∈ r ↔ ∃ b ∈ g.bases c, x ∈ L b := by
  constructor
  · intro hx
    obtain ⟨l, hl, hxl⟩ := merge_mem hm hx
    rcases List.mem_append.mp hl with hl | hl
    · obtain ⟨b, hb, rfl⟩ := List.mem_map.mp hl
      exact ⟨b, hb, hxl⟩
    · rw [List.mem_singleton.mp hl] at hxl
      obtain ⟨r', hr'⟩ := mro_cons h x
      exact ⟨x, hxl, by simp [hr']⟩
  · rintro ⟨b, hb, hx⟩
    exact (merge_sublist hm (L b) (by simp; exact .inl ⟨b, hb, rfl⟩)).subset hx

/-- The linearization of a class lists the class and its ancestors. -/
theorem mem_mro (h : g.IsMro L) :
    x ∈ L c ↔ Relation.ReflTransGen (fun b c => b ∈ g.bases c) x c := by
  induction c using g.bases_wellFounded.induction with
  | _ c ih =>
    obtain ⟨r, hr, hm⟩ := h c
    rw [hr, List.mem_cons, mem_merge h hm, Relation.ReflTransGen.cases_tail_iff, eq_comm]
    apply or_congr Iff.rfl
    constructor
    · rintro ⟨b, hb, hx⟩
      exact ⟨b, (ih b hb).mp hx, hb⟩
    · rintro ⟨b, hx, hb⟩
      exact ⟨b, hb, (ih b hb).mpr hx⟩

theorem mro_nodup (h : g.IsMro L) (c : Cls) : (L c).Nodup := by
  obtain ⟨r, hr, hm⟩ := h c
  rw [hr]
  refine List.nodup_cons.mpr ⟨fun hc => ?_, merge_nodup hm⟩
  obtain ⟨b, hb, hcb⟩ := (mem_merge h hm).mp hc
  have hcycle : Relation.TransGen (fun b c => b ∈ g.bases c) c c :=
    Relation.TransGen.tail' ((mem_mro h).mp hcb) hb
  exact g.bases_wellFounded.transGen.irrefl.irrefl c hcycle

/-- The bases of a class of the list stand in it in their order. -/
theorem mro_bases (h : g.IsMro L) (hx : x ∈ L c) : (x::g.bases x).Sublist (L c) := by
  induction c using g.bases_wellFounded.induction with
  | _ c ih =>
    obtain ⟨r, hr, hm⟩ := h c
    rw [hr] at hx ⊢
    rcases List.mem_cons.mp hx with rfl | hx
    · exact (merge_sublist hm _ (by simp)).cons_cons x
    · obtain ⟨b, hb, hxb⟩ := (mem_merge h hm).mp hx
      have hlb : L b ∈ (g.bases c).map L ++ [g.bases c] :=
        List.mem_append_left _ (List.mem_map.mpr ⟨b, hb, rfl⟩)
      exact ((ih b hb hxb).trans (merge_sublist hm _ hlb)).cons c

theorem mro_object (h : g.IsMro L) : L g.object = [g.object] := by
  obtain ⟨r, hr, hm⟩ := h g.object
  rw [bases_object] at hm
  rw [hr, merge_unique hm (.done (by simp))]

/-- `object` stands behind every other class. -/
theorem before_object (h : g.IsMro L) (hx : x ∈ L c) (hne : x ≠ g.object) :
    [x, g.object].Sublist (L c) := by
  induction x using g.bases_wellFounded.induction with
  | _ x ih =>
    obtain ⟨b, rest, hb⟩ := List.exists_cons_of_ne_nil (g.bases_ne_nil hne)
    have hbases := mro_bases h hx
    rw [hb] at hbases
    have hxb : [x, b].Sublist (L c) :=
      (((List.nil_sublist rest).cons_cons b).cons_cons x).trans hbases
    by_cases hbo : b = g.object
    · rwa [← hbo]
    · have hbm : b ∈ g.bases x := by simp [hb]
      exact pair_trans (mro_nodup h c) hxb (ih b hbm (hxb.subset (by simp)) hbo)

theorem object_mem_mro (h : g.IsMro L) (c : Cls) : g.object ∈ L c := by
  induction c using g.bases_wellFounded.induction with
  | _ c ih =>
    by_cases hc : c = g.object
    · simp [hc, mro_object h]
    · obtain ⟨b, rest, hb⟩ := List.exists_cons_of_ne_nil (g.bases_ne_nil hc)
      have hbm : b ∈ g.bases c := by simp [hb]
      obtain ⟨r, hr, hm⟩ := h c
      rw [hr]
      exact List.mem_cons_of_mem c ((mem_merge h hm).mpr ⟨b, hbm, ih b hbm⟩)

theorem mro_last (h : g.IsMro L) (c : Cls) : ∃ k, L c = k ++ [g.object] :=
  last_of_pairs (mro_nodup h c) (object_mem_mro h c) fun _ hx hne => before_object h hx hne

theorem bases_anchored (h : g.IsMro L) (c : Cls) :
    Anchored g.object ((g.bases c).map L ++ [g.bases c]) := by
  intro l hl x hx hne
  have hlist (b : Cls) (hb : b ∈ g.bases c) : L b ∈ (g.bases c).map L ++ [g.bases c] :=
    List.mem_append_left _ (List.mem_map.mpr ⟨b, hb, rfl⟩)
  rcases List.mem_append.mp hl with hl | hl
  · obtain ⟨b, hb, rfl⟩ := List.mem_map.mp hl
    exact ⟨L b, hlist b hb, before_object h hx hne⟩
  · rw [List.mem_singleton.mp hl] at hx
    obtain ⟨r, hr⟩ := mro_cons h x
    exact ⟨L x, hlist x hx, before_object h (by simp [hr]) hne⟩

/-- A class with one base adds itself to the linearization of the base. -/
theorem mro_single (h : g.IsMro L) (hb : g.bases c = [b]) : L c = c::L b := by
  obtain ⟨r, hr, hm⟩ := h c
  have hsub : (L b).Sublist r := merge_sublist hm _ (by simp [hb])
  have hlen : r.length ≤ (L b).length := by
    apply List.Subperm.length_le (List.subperm_of_subset (merge_nodup hm) _)
    intro x hx
    obtain ⟨b', hb', hxb⟩ := (mem_merge h hm).mp hx
    rw [hb, List.mem_singleton] at hb'
    rwa [← hb']
  rw [hr, hsub.eq_of_length_le hlen]

theorem linearize_trim (h : g.IsMro L) (c : Cls) : Trim g.object (L c) (g.linearize c) := by
  induction c using g.acyclic.induction with
  | _ c ih =>
    rw [linearize]
    by_cases hb : g.allBases c = []
    · rw [if_pos hb]
      by_cases hc : c = g.object
      · exact .inl (by rw [hc, mro_object h])
      · exact .inr (by rw [mro_single h (g.bases_of_none hb hc), mro_object h]; rfl)
    · rw [if_neg hb]
      obtain ⟨r, hr, hm⟩ := h c
      have ha := bases_anchored h c
      rw [g.bases_of_allBases hb] at hm ha
      rw [hr]
      apply trim_cons
      apply mergeLoop_trim hm ha
      have hlists (bs : List Cls) (hbs : ∀ b ∈ bs, b ∈ g.allBases c) :
          List.Forall₂ (Trim g.object) (bs.map L) (bs.map g.linearize) := by
        induction bs with
        | nil => exact .nil
        | cons b bs ih' =>
          exact .cons (ih b (hbs b (by simp))) (ih' fun b hb => hbs b (by simp [hb]))
      rw [List.attach_map_val (f := g.linearize)]
      exact List.rel_append (hlists _ fun b hb => hb) (.cons (.inl rfl) .nil)

/-- The linearization of the source is the C3 linearization. -/
theorem c3LinearizeClasses_eq (h : g.IsMro L) (c : Cls) : g.c3LinearizeClasses c = L c := by
  unfold c3LinearizeClasses
  rcases linearize_trim h c with heq | heq
  · rw [heq]
    simp [object_mem_mro h c]
  · have hnd := mro_nodup h c
    rw [heq] at hnd ⊢
    have hno : g.object ∉ g.linearize c := by
      intro hmem
      exact (List.disjoint_of_nodup_append hnd) hmem (by simp)
    simp [hno]

/-- Where the walk along a single chain goes on. -/
theorem chain_cases (h : g.IsMro L) (he : g.extraBases c = []) :
    (∃ b, g.base c = some b ∧ b ∈ g.bases c ∧ L c = c::L b) ∨
    (g.base c = none ∧ g.isPrimitive c = false ∧ c ≠ g.object ∧
      g.object ∈ g.bases c ∧ L c = c::L g.object) ∨
    (g.base c = none ∧ c = g.object ∧ L c = [c]) := by
  cases hb : g.base c with
  | some b =>
    have hbases : g.bases c = [b] := by
      rw [g.bases_of_allBases (by simp [allBases, hb])]
      simp [allBases, hb, he]
    exact .inl ⟨b, rfl, g.base_mem hb, mro_single h hbases⟩
  | none =>
    right
    by_cases hc : c = g.object
    · exact .inr ⟨rfl, hc, by rw [hc, mro_object h]⟩
    · left
      have hp : g.isPrimitive c = false := by
        by_contra hp
        have hsome := g.primitive_base c (by simpa using hp)
        simp [hb] at hsome
      have hbases := g.bases_of_none (by simp [allBases, hb, he]) hc
      exact ⟨rfl, hp, hc, by simp [hbases], mro_single h hbases⟩

theorem lookupClassAttr_eq (h : g.IsMro L) (name : Name) (c : Cls) :
    g.lookupClassAttr name c = (L c).findSome? fun d => g.attrs d name := by
  induction c using g.bases_wellFounded.induction with
  | _ c ih =>
    obtain ⟨r, hr⟩ := mro_cons h c
    rw [lookupClassAttr]
    cases ha : g.attrs c name with
    | some v => simp [hr, ha]
    | none =>
      by_cases he : g.extraBases c = []
      · rcases chain_cases h he with ⟨b, hb, hmem, hL⟩ | ⟨hb, hp, hc, hmem, hL⟩ | ⟨hb, hc, hL⟩
        · rw [hL, List.findSome?_cons, ha, ← ih b hmem]
          simp only [he, dif_pos]
          split <;> simp_all
        · rw [hL, List.findSome?_cons, ha, ← ih g.object hmem]
          simp only [he, dif_pos]
          split <;> simp_all
        · rw [hL, List.findSome?_cons, ha]
          simp only [he, dif_pos]
          split <;> simp_all
      · simp only [he, dif_neg, not_false_eq_true]
        rw [c3LinearizeClasses_eq h]

theorem lookupClassAttrOwner_eq (h : g.IsMro L) (name : Name) (c : Cls) :
    g.lookupClassAttrOwner name c = (L c).find? fun d => (g.attrs d name).isSome := by
  induction c using g.bases_wellFounded.induction with
  | _ c ih =>
    obtain ⟨r, hr⟩ := mro_cons h c
    rw [lookupClassAttrOwner]
    cases ha : (g.attrs c name).isSome with
    | true => simp [hr, ha]
    | false =>
      by_cases he : g.extraBases c = []
      · rw [if_neg Bool.false_ne_true, dif_pos he]
        rcases chain_cases h he with ⟨b, hb, hmem, hL⟩ | ⟨hb, hp, hc, hmem, hL⟩ | ⟨hb, hc, hL⟩
        · simp only [hL, List.find?_cons, ha, ← ih b hmem]
          split <;> simp_all
        · simp only [hL, List.find?_cons, ha, ← ih g.object hmem]
          split <;> simp_all
        · simp only [hL, List.find?_cons, ha]
          split <;> simp_all
      · simp [he, c3LinearizeClasses_eq h]

theorem classIsSubclassOf_iff (h : g.IsMro L) (c d : Cls) :
    g.classIsSubclassOf c d = true ↔ d ∈ L c := by
  induction c using g.acyclic.induction with
  | _ c ih =>
    rw [classIsSubclassOf]
    simp only [Bool.or_eq_true, decide_eq_true_eq, List.any_eq_true, List.mem_attach,
      true_and, Subtype.exists]
    by_cases hd : d = g.object
    · simp [hd, object_mem_mro h]
    · obtain ⟨r, hr, hm⟩ := h c
      rw [hr, List.mem_cons, mem_merge h hm, @eq_comm _ c d, or_iff_left hd]
      apply or_congr Iff.rfl
      by_cases hb : g.allBases c = []
      · -- nothing but `object` can be above such a class
        by_cases hc : c = g.object
        · simp [hc, bases_object, allBases_object]
        · simp [hb, g.bases_of_none hb hc, mro_object h, hd]
      · rw [g.bases_of_allBases hb]
        constructor
        · rintro ⟨b, hmem, hsub⟩
          exact ⟨b, hmem, (ih b hmem).mp hsub⟩
        · rintro ⟨b, hmem, hdb⟩
          exact ⟨b, hmem, (ih b hmem).mpr hdb⟩

/-- The standard C3 linearization, and all that is read off it. -/
theorem class_lookup_follows_c3 (g : ClassGraph Cls Name Value) (L : Cls → List Cls)
    (h : g.IsMro L) (c : Cls) :
    g.c3LinearizeClasses c = L c ∧
    (L c).Nodup ∧ (L c).head? = some c ∧ (L c).getLast? = some g.object ∧
    (∀ x ∈ L c, (x::g.bases x).Sublist (L c)) ∧
    (∀ name, g.lookupClassAttr name c = (L c).findSome? fun d => g.attrs d name) ∧
    (∀ name, g.lookupClassAttrOwner name c =
      (L c).find? fun d => (g.attrs d name).isSome) ∧
    (∀ d, g.classIsSubclassOf c d = true ↔ d ∈ L c) := by
  refine ⟨c3LinearizeClasses_eq h c, mro_nodup h c, ?_, ?_, fun x hx => mro_bases h hx,
    fun name => lookupClassAttr_eq h name c, fun name => lookupClassAttrOwner_eq h name c,
    classIsSubclassOf_iff h c⟩
  · obtain ⟨r, hr⟩ := mro_cons h c
    rw [hr, List.head?_cons]
  · obtain ⟨k, hk⟩ := mro_last h c
    rw [hk, List.getLast?_concat]

/-- A class has one linearization at most. -/
theorem mro_unique {L' : Cls → List Cls} (h : g.IsMro L) (h' : g.IsMro L') : L = L' := by
  funext c
  rw [← c3LinearizeClasses_eq h c, c3LinearizeClasses_eq h' c]

end graph

/-- `class A: x`, `class B(A)`, `class C(A, object): x`, `class D(B, C)`. -/
def diamond : ClassGraph (Fin 5) Unit String where
  base := ![none, none, some 1, some 1, some 2]
  extraBases := ![[], [], [], [0], [3]]
  attrs c _ := ![none, some "A.x", none, some "C.x", none] c
  object := 0
  isPrimitive _ := false
  object_base := rfl
  object_extraBases := rfl
  primitive_base := by simp
  acyclic := by
    apply Subrelation.wf _ (wellFounded_lt (α := Fin 5))
    intro b c
    revert b c
    decide

def diamondMro : Fin 5 → List (Fin 5) := ![[0], [1, 0], [2, 1, 0], [3, 1, 0], [4, 2, 3, 1, 0]]

theorem diamond_isMro : diamond.IsMro diamondMro := by
  have hpick {ls : List (List (Fin 5))} {x : Fin 5} {r : List (Fin 5)}
      (h : nextHead ls = some x) (hr : Merge (ls.map (dropHead x)) r) : Merge ls (x::r) :=
    .pick (nextHead_picks h) hr
  intro c
  fin_cases c
  · exact ⟨[], rfl, .done (by decide)⟩
  · exact ⟨[0], rfl, hpick (by decide) (.done (by decide))⟩
  · exact ⟨[1, 0], rfl, hpick (by decide) (hpick (by decide) (.done (by decide)))⟩
  · exact ⟨[1, 0], rfl, hpick (by decide) (hpick (by decide) (.done (by decide)))⟩
  · exact ⟨[2, 3, 1, 0], rfl, hpick (by decide) (hpick (by decide) (hpick (by decide)
      (hpick (by decide) (.done (by decide)))))⟩

theorem diamond_lookup :
    diamond.c3LinearizeClasses 4 = [4, 2, 3, 1, 0] ∧
      diamond.lookupClassAttr () 4 = some "C.x" ∧ diamond.classIsSubclassOf 4 0 = true := by
  obtain ⟨hc3, -, -, -, -, hlookup, -, hsub⟩ :=
    class_lookup_follows_c3 diamond diamondMro diamond_isMro 4
  exact ⟨hc3, hlookup (), (hsub 0).mpr (by decide)⟩

end Pyrust.ClassLookup.ClassGraph
