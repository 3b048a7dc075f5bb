import Mathlib.Data.List.Lex
import Mathlib.Data.Set.Card
import Mathlib.Data.Set.Finite.Lattice

/-!
# Enumeration of tuples in their lexicographic order

Tuples are built from left to right, each item one of the choices behind those before it.
The least tuple, the greatest and the next one are put together from the choices. An
iterator that goes from each member of a finite set to the next one enumerates the set.
-/

set_option autoImplicit false

namespace Pyrust.LexTuples

/-- Nothing of the set lies between the two. -/
def Next {α : Type} [LinearOrder α] (K : Set α) (a b : α) : Prop := IsLeast (K ∩ Set.Ioi a) b

/-! ## Tuples -/

section tuples

/-- Tuples of `m` items that go on behind those given. -/
def Tuples (C : List ℕ → Set ℕ) : List ℕ → ℕ → Set (List ℕ)
  | _, 0 => {[]}
  | before, m+1 => {t | ∃ i u, t = i::u ∧ i ∈ C before ∧ u ∈ Tuples C (before ++ [i]) m}

variable {C : List ℕ → Set ℕ} {before : List ℕ} {m i j : ℕ} {u v : List ℕ}

theorem cons_mem_tuples :
    i::u ∈ Tuples C before (m+1) ↔ i ∈ C before ∧ u ∈ Tuples C (before ++ [i]) m := by
  constructor
  · rintro ⟨k, w, heq, hi, hu⟩
    obtain ⟨rfl, rfl⟩ := List.cons.inj heq
    exact ⟨hi, hu⟩
  · rintro ⟨hi, hu⟩
    exact ⟨i, u, rfl, hi, hu⟩

theorem length_of_mem (h : u ∈ Tuples C before m) : u.length = m := by
  induction m generalizing before u with
  | zero => rw [Set.mem_singleton_iff.mp h]; rfl
  | succ m ih =>
    obtain ⟨i, w, rfl, -, hw⟩ := h
    rw [List.length_cons, ih hw]

theorem append_mem_tuples :
    u ++ v ∈ Tuples C before (u.length + m) ↔
      u ∈ Tuples C before u.length ∧ v ∈ Tuples C (before ++ u) m := by
  induction u generalizing before with
  | nil => simp [Tuples]
  | cons i u ih =>
    have hlen : (i::u).length + m = u.length + m + 1 := by rw [List.length_cons]; omega
    rw [hlen, List.cons_append, cons_mem_tuples, ih, List.length_cons, cons_mem_tuples,
      List.append_assoc, List.singleton_append, and_assoc]

theorem tuples_finite (hC : ∀ before, (C before).Finite) (before : List ℕ) (m : ℕ) :
    (Tuples C before m).Finite := by
  induction m generalizing before with
  | zero => exact Set.finite_singleton []
  | succ m ih =>
    refine ((hC before).biUnion fun i _ => (ih (before ++ [i])).image (i :: ·)).subset ?_
    rintro _ ⟨i, u, rfl, hi, hu⟩
    exact Set.mem_biUnion hi ⟨u, hu, rfl⟩

theorem least_nil : IsLeast (Tuples C before 0) [] :=
  ⟨rfl, fun _ hu => le_of_eq (Set.mem_singleton_iff.mp hu).symm⟩

theorem greatest_nil : IsGreatest (Tuples C before 0) [] :=
  ⟨rfl, fun _ hu => le_of_eq (Set.mem_singleton_iff.mp hu)⟩

theorem cons_le_cons (i : ℕ) (h : u ≤ v) : i::u ≤ i::v := by
  rcases lt_or_eq_of_le h with hlt | rfl
  · exact le_of_lt (List.cons_lt_cons_iff.mpr (.inr ⟨rfl, hlt⟩))
  · exact le_refl _

theorem least_cons (hi : IsLeast (C before) i) (hu : IsLeast (Tuples C (before ++ [i]) m) u) :
    IsLeast (Tuples C before (m+1)) (i::u) := by
  refine ⟨cons_mem_tuples.mpr ⟨hi.1, hu.1⟩, ?_⟩
  rintro _ ⟨j, v, rfl, hj, hv⟩
  rcases lt_or_eq_of_le (hi.2 hj) with hlt | rfl
  · exact le_of_lt (List.cons_lt_cons_iff.mpr (.inl hlt))
  · exact cons_le_cons _ (hu.2 hv)

theorem greatest_cons (hi : IsGreatest (C before) i)
    (hu : IsGreatest (Tuples C (before ++ [i]) m) u) :
    IsGreatest (Tuples C before (m+1)) (i::u) := by
  refine ⟨cons_mem_tuples.mpr ⟨hi.1, hu.1⟩, ?_⟩
  rintro _ ⟨j, v, rfl, hj, hv⟩
  rcases lt_or_eq_of_le (hi.2 hj) with hlt | rfl
  · exact le_of_lt (List.cons_lt_cons_iff.mpr (.inl hlt))
  · exact cons_le_cons _ (hu.2 hv)

/-- The next tuple with the same first item. -/
theorem next_tail (hi : i ∈ C before) (h : Next (Tuples C (before ++ [i]) m) u v) :
    Next (Tuples C before (m+1)) (i::u) (i::v) := by
  obtain ⟨⟨hv, hlt⟩, hleast⟩ := h
  refine ⟨⟨cons_mem_tuples.mpr ⟨hi, hv⟩, List.cons_lt_cons_iff.mpr (.inr ⟨rfl, hlt⟩)⟩, ?_⟩
  rintro _ ⟨⟨j, w, rfl, hj, hw⟩, hgt⟩
  rcases List.cons_lt_cons_iff.mp hgt with hij | ⟨rfl, huw⟩
  · exact le_of_lt (List.cons_lt_cons_iff.mpr (.inl hij))
  · exact cons_le_cons _ (hleast ⟨hw, huw⟩)

/-- The next tuple when nothing follows with the same first item. -/
theorem next_head (hu : IsGreatest (Tuples C (before ++ [i]) m) u) (hij : Next (C before) i j)
    (hv : IsLeast (Tuples C (before ++ [j]) m) v) :
    Next (Tuples C before (m+1)) (i::u) (j::v) := by
  obtain ⟨⟨hj, hlt⟩, hleast⟩ := hij
  refine ⟨⟨cons_mem_tuples.mpr ⟨hj, hv.1⟩, List.cons_lt_cons_iff.mpr (.inl hlt)⟩, ?_⟩
  rintro _ ⟨⟨k, w, rfl, hk, hw⟩, hgt⟩
  rcases List.cons_lt_cons_iff.mp hgt with hik | ⟨rfl, huw⟩
  · rcases lt_or_eq_of_le (hleast ⟨hk, hik⟩) with hjk | rfl
    · exact le_of_lt (List.cons_lt_cons_iff.mpr (.inl hjk))
    · exact cons_le_cons _ (hv.2 hw)
  · exact absurd huw (not_lt_of_ge (hu.2 hw))

/-- The items in front stay. -/
theorem next_append {a : List ℕ} (ha : a ∈ Tuples C before a.length)
    (h : Next (Tuples C (before ++ a) m) u v) :
    Next (Tuples C before (a.length + m)) (a ++ u) (a ++ v) := by
  induction a generalizing before with
  | nil => simpa using h
  | cons i a ih =>
    obtain ⟨hi, ha⟩ := cons_mem_tuples.mp ha
    have hlen : (i::a).length + m = a.length + m + 1 := by rw [List.length_cons]; omega
    rw [hlen]
    refine next_tail hi (ih ha ?_)
    rwa [List.append_assoc]

end tuples

/-! ## Iterators -/

section iterators
variable {σ α β E : Type} (call : σ → Except E (Option β × σ))

/-- What a row of calls answers. -/
def calls : ℕ → σ → Except E (List (Option β) × σ)
  | 0, s => pure ([], s)
  | k+1, s => do
    let (o, s) ← call s
    let (os, s) ← calls k s
    pure (o::os, s)

/-- The calls answer the members of the set in order, each once, and then nothing. -/
def Enumerates [LinearOrder α] (K : Set α) (val : α → β) (s : σ) : Prop :=
  ∃ L : List α, L.Pairwise (· < ·) ∧ (∀ u, u ∈ L ↔ u ∈ K) ∧
    ∀ k, ∃ s', calls call k s = .ok ((List.range k).map fun i => L[i]?.map val, s')

/-- A state that stands at a member answers the next one, or ends. -/
structure Walks [LinearOrder α] (K : Set α) (val : α → β) (At : α → σ → Prop) (Done : σ → Prop) :
    Prop where
  step : ∀ t s, t ∈ K → At t s →
    (∃ t' s', call s = .ok (some (val t'), s') ∧ Next K t t' ∧ At t' s') ∨
      ∃ s', call s = .ok (none, s') ∧ IsGreatest K t ∧ Done s'
  done : ∀ s, Done s → ∃ s', call s = .ok (none, s') ∧ Done s'

variable {call} {Done : σ → Prop}

theorem ok_bind {γ δ : Type} (a : γ) (f : γ → Except E δ) :
    ((Except.ok a : Except E γ) >>= f) = f a := rfl

theorem calls_cons {o : Option β} {s s' : σ} {os : List (Option β)} {s'' : σ} {k : ℕ}
    (h : call s = .ok (o, s')) (hs : calls call k s' = .ok (os, s'')) :
    calls call (k+1) s = .ok (o::os, s'') := by
  rw [calls, h]
  simp only [ok_bind, hs]
  rfl

theorem calls_done (hdone : ∀ s, Done s → ∃ s', call s = .ok (none, s') ∧ Done s') (k : ℕ)
    {s : σ} (h : Done s) :
    ∃ s', calls call k s = .ok ((List.range k).map fun _ => none, s') := by
  induction k generalizing s with
  | zero => exact ⟨s, rfl⟩
  | succ k ih =>
    obtain ⟨s', heq, h'⟩ := hdone s h
    obtain ⟨s'', hs⟩ := ih h'
    refine ⟨s'', ?_⟩
    rw [calls_cons heq hs, List.range_succ_eq_map, List.map_cons, List.map_map]
    rfl

theorem calls_some {L : List α} {val : α → β} {t : α} {s s' : σ} {k : ℕ} {s'' : σ}
    (h : call s = .ok (some (val t), s'))
    (hs : calls call k s' = .ok ((List.range k).map fun i => L[i]?.map val, s'')) :
    calls call (k+1) s = .ok ((List.range (k+1)).map fun i => (t::L)[i]?.map val, s'') := by
  rw [calls_cons h hs, List.range_succ_eq_map, List.map_cons, List.map_map]
  rfl

variable [LinearOrder α] {K : Set α} {val : α → β} {At : α → σ → Prop}

/-- From a member on, the members above it are enumerated. -/
theorem Walks.above (h : Walks call K val At Done) (hfin : K.Finite) (t : α) (s : σ) (ht : t ∈ K)
    (hat : At t s) :
    ∃ L : List α, L.Pairwise (· < ·) ∧ (∀ u, u ∈ L ↔ u ∈ K ∧ t < u) ∧
      ∀ k, ∃ s', calls call k s = .ok ((List.range k).map fun i => L[i]?.map val, s') := by
  -- on the number of members above
  induction hn : (K ∩ Set.Ioi t).ncard using Nat.strongRecOn generalizing t s with
  | ind n ih =>
    rcases h.step t s ht hat with ⟨t', s', heq, hnext, hat'⟩ | ⟨s', heq, hgreatest, hd⟩
    · have hlt : (K ∩ Set.Ioi t').ncard < (K ∩ Set.Ioi t).ncard := by
        refine Set.ncard_lt_ncard ⟨fun u hu => ⟨hu.1, lt_trans hnext.1.2 hu.2⟩, fun hsub => ?_⟩
          (hfin.subset Set.inter_subset_left)
        exact lt_irrefl t' (hsub hnext.1).2
      obtain ⟨L, hsorted, hmem, hcalls⟩ := ih _ (hn ▸ hlt) t' s' hnext.1.1 hat' rfl
      refine ⟨t'::L, List.pairwise_cons.mpr ⟨fun u hu => ((hmem u).mp hu).2, hsorted⟩,
        fun u => ?_, fun k => ?_⟩
      · rw [List.mem_cons, hmem]
        constructor
        · rintro (rfl | ⟨hu, hlt⟩)
          · exact hnext.1
          · exact ⟨hu, lt_trans hnext.1.2 hlt⟩
        · rintro ⟨hu, hlt⟩
          rcases lt_or_eq_of_le (hnext.2 ⟨hu, hlt⟩) with hlt' | rfl
          · exact .inr ⟨hu, hlt'⟩
          · exact .inl rfl
      · cases k with
        | zero => exact ⟨s, rfl⟩
        | succ k =>
          obtain ⟨s'', hs⟩ := hcalls k
          exact ⟨s'', calls_some heq hs⟩
    · refine ⟨[], .nil, fun u => iff_of_false List.not_mem_nil ?_, fun k => ?_⟩
      · rintro ⟨hu, hlt⟩
        exact absurd hlt (not_lt_of_ge (hgreatest.2 hu))
      · cases k with
        | zero => exact ⟨s, rfl⟩
        | succ k =>
          obtain ⟨s'', hs⟩ := calls_done h.done k hd
          refine ⟨s'', ?_⟩
          rw [calls_cons heq hs, List.range_succ_eq_map, List.map_cons, List.map_map]
          rfl

/-- An iterator that first answers the least member enumerates the set. -/
theorem Walks.enumerates (h : Walks call K val At Done) (hfin : K.Finite) {s s' : σ} {t : α}
    (heq : call s = .ok (some (val t), s')) (ht : IsLeast K t) (hat : At t s') :
    Enumerates call K val s := by
  obtain ⟨L, hsorted, hmem, hcalls⟩ := h.above hfin t s' ht.1 hat
  refine ⟨t::L, List.pairwise_cons.mpr ⟨fun u hu => ((hmem u).mp hu).2, hsorted⟩, fun u => ?_,
    fun k => ?_⟩
  · rw [List.mem_cons, hmem]
    constructor
    · rintro (rfl | ⟨hu, -⟩)
      · exact ht.1
      · exact hu
    · intro hu
      rcases lt_or_eq_of_le (ht.2 hu) with hlt | rfl
      · exact .inr ⟨hu, hlt⟩
      · exact .inl rfl
  · cases k with
    | zero => exact ⟨s, rfl⟩
    | succ k =>
      obtain ⟨s'', hs⟩ := hcalls k
      exact ⟨s'', calls_some heq hs⟩

/-- An iterator that is done enumerates the empty set. -/
theorem enumerates_empty (hdone : ∀ s, Done s → ∃ s', call s = .ok (none, s') ∧ Done s')
    (hempty : K = ∅) {s : σ} (h : Done s) : Enumerates call K val s := by
  refine ⟨[], .nil, fun u => by rw [hempty]; simp, fun k => ?_⟩
  obtain ⟨s', hs⟩ := calls_done hdone k h
  exact ⟨s', by simpa using hs⟩

end iterators

end Pyrust.LexTuples
