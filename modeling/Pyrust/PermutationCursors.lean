import Pyrust.CombinatoricCursors

/-!
# Permutations in order

The cursor of the permutations keeps, behind each position, the positions that are not
used in rising order, and counts those of them that are still to come. It swaps in the
next one, or turns the rest back into rising order and goes on to the left.
-/

set_option autoImplicit false

namespace Pyrust.PermutationCursors

open LexTuples CombinatoricCursors

/-! ## Choices -/

/-- The position tuples of the permutations of `r` out of `n`. -/
def permutationTuples (n r : ℕ) : Set (List ℕ) := {t | t.length = r ∧ t.Nodup ∧ ∀ i ∈ t, i < n}

/-- The positions that are not used. -/
def unused (n : ℕ) (before : List ℕ) : Set ℕ := {i | i < n ∧ i ∉ before}

section choices
variable {n r m i x y : ℕ} {before a s s₁ s₂ t : List ℕ}

theorem mem_tuples_iff :
    t ∈ Tuples (unused n) before m ↔ t.length = m ∧ t.Nodup ∧ ∀ i ∈ t, i < n ∧ i ∉ before := by
  induction m generalizing before t with
  | zero =>
    rw [List.length_eq_zero_iff]
    constructor
    · rintro rfl
      simp
    · rintro ⟨rfl, -⟩
      rfl
  | succ m ih =>
    cases t with
    | nil => exact iff_of_false (fun h => by cases length_of_mem h) (fun h => by cases h.1)
    | cons i u =>
      rw [cons_mem_tuples, ih, List.length_cons, List.nodup_cons]
      constructor
      · rintro ⟨hi, hlen, hu, hafter⟩
        refine ⟨by rw [hlen], ⟨fun hmem => (hafter i hmem).2 (by simp), hu⟩, ?_⟩
        refine List.forall_mem_cons.mpr ⟨hi, fun j hj => ⟨(hafter j hj).1, fun hb => ?_⟩⟩
        exact (hafter j hj).2 (List.mem_append_left _ hb)
      · rintro ⟨hlen, ⟨hi, hu⟩, hall⟩
        refine ⟨hall i List.mem_cons_self, Nat.succ.inj hlen, hu, fun j hj => ?_⟩
        have hj' := hall j (List.mem_cons_of_mem i hj)
        refine ⟨hj'.1, fun hb => ?_⟩
        rcases List.mem_append.mp hb with hb | hb
        · exact hj'.2 hb
        · exact hi (List.mem_singleton.mp hb ▸ hj)

theorem permutationTuples_eq : permutationTuples n r = Tuples (unused n) [] r := by
  ext t
  rw [mem_tuples_iff]
  simp [permutationTuples]

theorem unused_finite (before : List ℕ) : (unused n before).Finite :=
  (Set.finite_lt_nat n).subset fun _ h => h.1

/-- Behind a prefix stand the positions it leaves. -/
theorem mem_rest (h : (a ++ s).Perm (List.range n)) : i ∈ s ↔ i ∈ unused n a := by
  have hnodup : (a ++ s).Nodup := h.nodup_iff.mpr List.nodup_range
  have hmem : i ∈ a ++ s ↔ i < n := by rw [h.mem_iff, List.mem_range]
  constructor
  · intro hi
    refine ⟨hmem.mp (List.mem_append_right _ hi), fun ha => ?_⟩
    exact List.disjoint_of_nodup_append hnodup ha hi
  · rintro ⟨hlt, ha⟩
    exact (List.mem_append.mp (hmem.mpr hlt)).resolve_left ha

theorem prefix_mem (h : (a ++ s).Perm (List.range n)) : a ∈ Tuples (unused n) [] a.length := by
  have hnodup : (a ++ s).Nodup := h.nodup_iff.mpr List.nodup_range
  refine mem_tuples_iff.mpr ⟨rfl, hnodup.of_append_left, fun i hi => ⟨?_, by simp⟩⟩
  exact List.mem_range.mp (h.mem_iff.mp (List.mem_append_left _ hi))

/-- A rest in rising order begins with the least tuple. -/
theorem rest_least (h : (a ++ s).Perm (List.range n)) (hs : s.Pairwise (· < ·))
    (hm : m ≤ s.length) : IsLeast (Tuples (unused n) a m) (s.take m) := by
  induction m generalizing a s with
  | zero => exact least_nil
  | succ m ih =>
    cases s with
    | nil => cases hm
    | cons z s =>
      obtain ⟨hz, hs'⟩ := List.pairwise_cons.mp hs
      have h' : ((a ++ [z]) ++ s).Perm (List.range n) := by rwa [List.append_assoc]
      have hleast : IsLeast (unused n a) z := by
        refine ⟨(mem_rest h).mp List.mem_cons_self, fun i hi => ?_⟩
        rcases List.mem_cons.mp ((mem_rest h).mpr hi) with rfl | hi
        · exact le_refl _
        · exact Nat.le_of_lt (hz i hi)
      exact least_cons hleast (ih h' hs' (Nat.le_of_succ_le_succ hm))

/-- A position with smaller ones behind it is the greatest of its choices. -/
theorem greatest_rest (h : (a ++ x::s).Perm (List.range n)) (hbelow : ∀ y ∈ s, y < x) :
    IsGreatest (unused n a) x := by
  refine ⟨(mem_rest h).mp List.mem_cons_self, fun i hi => ?_⟩
  rcases List.mem_cons.mp ((mem_rest h).mpr hi) with rfl | hi
  · exact le_refl _
  · exact Nat.le_of_lt (hbelow i hi)

/-- The least position above in the rest is the next of the choices. -/
theorem next_rest (h : (a ++ x::(s₁ ++ y::s₂)).Perm (List.range n)) (hbelow : ∀ z ∈ s₁, z < x)
    (hxy : x < y) (hy : ∀ z ∈ s₂, y < z) : Next (unused n a) x y := by
  refine ⟨⟨(mem_rest h).mp (by simp), hxy⟩, ?_⟩
  rintro i ⟨hi, hi'⟩
  have hlt : x < i := hi'
  rcases List.mem_cons.mp ((mem_rest h).mpr hi) with rfl | hi
  · exact absurd hlt (lt_irrefl _)
  · rcases List.mem_append.mp hi with hi | hi
    · exact absurd hlt (Nat.not_lt.mpr (Nat.le_of_lt (hbelow i hi)))
    · rcases List.mem_cons.mp hi with rfl | hi
      · exact le_refl _
      · exact Nat.le_of_lt (hy i hi)

end choices

/-! ## The cycles -/

/-- How many of the rest are above a position. -/
def above (x : ℕ) (s : List ℕ) : ℕ := s.countP (x < ·)

/-- Each cycle counts its position and those behind it that are above. -/
def Counted : List ℕ → List ℕ → Prop
  | [], _ => True
  | c::cs, x::xs => c = above x xs+1 ∧ Counted cs xs
  | _::_, [] => False

/-- The cycles of `m` positions at the front of `l` in rising order. -/
def resets (l m : ℕ) : List ℕ := (List.range m).map (l - ·)

section cycles
variable {m x y : ℕ} {a s s' s₁ s₂ ca cs cs' : List ℕ}

theorem resets_succ (l m : ℕ) : resets (l+1) (m+1) = (l+1)::resets l m := by
  rw [resets, List.range_succ_eq_map, List.map_cons, List.map_map]
  exact congrArg _ (List.map_congr_left fun i _ => Nat.succ_sub_succ l i)

theorem above_eq_length (h : ∀ y ∈ s, x < y) : above x s = s.length :=
  List.countP_eq_length.mpr fun y hy => decide_eq_true (h y hy)

theorem above_eq_zero (h : ∀ y ∈ s, y ≤ x) : above x s = 0 :=
  List.countP_eq_zero.mpr fun y hy => by simpa using h y hy

theorem counted_resets (hs : s.Pairwise (· < ·)) (hm : m ≤ s.length) :
    Counted (resets s.length m) s := by
  induction m generalizing s with
  | zero => trivial
  | succ m ih =>
    cases s with
    | nil => cases hm
    | cons z s =>
      obtain ⟨hz, hs'⟩ := List.pairwise_cons.mp hs
      rw [List.length_cons, resets_succ]
      exact ⟨by rw [above_eq_length hz], ih hs' (Nat.le_of_succ_le_succ hm)⟩

theorem Counted.drop (h : Counted (ca ++ cs) (a ++ s)) (hlen : ca.length = a.length) :
    Counted cs s := by
  induction a generalizing ca with
  | nil =>
    obtain rfl := List.length_eq_zero_iff.mp hlen
    exact h
  | cons x a ih =>
    cases ca with
    | nil => cases hlen
    | cons c ca => exact ih h.2 (Nat.succ.inj hlen)

/-- The counts in front depend on what stands behind them, not on its order. -/
theorem Counted.replace (h : Counted (ca ++ cs) (a ++ s)) (hlen : ca.length = a.length)
    (hperm : s.Perm s') (h' : Counted cs' s') : Counted (ca ++ cs') (a ++ s') := by
  induction a generalizing ca with
  | nil =>
    obtain rfl := List.length_eq_zero_iff.mp hlen
    exact h'
  | cons x a ih =>
    cases ca with
    | nil => cases hlen
    | cons c ca =>
      have hcount : above x (a ++ s) = above x (a ++ s') := (hperm.append_left a).countP_eq _
      exact ⟨h.1.trans (congrArg (·+1) hcount), ih h.2 (Nat.succ.inj hlen)⟩

/-- The least of the rest above a position, with what stands on its sides. -/
theorem split_above (hs : s.Pairwise (· < ·)) (hx : x ∉ s) (h : above x s ≠ 0) :
    ∃ s₁ y s₂, s = s₁ ++ y::s₂ ∧ (∀ z ∈ s₁, z < x) ∧ x < y ∧ above x s = s₂.length+1 := by
  induction s with
  | nil => exact absurd rfl h
  | cons z s ih =>
    obtain ⟨hz, hs'⟩ := List.pairwise_cons.mp hs
    by_cases hxz : x < z
    · have hall := above_eq_length fun y hy => hxz.trans (hz y hy)
      refine ⟨[], z, s, rfl, by simp, hxz, ?_⟩
      rw [above, List.countP_cons_of_pos (by simpa using hxz)]
      exact congrArg (·+1) hall
    · have hzx : z < x :=
        lt_of_le_of_ne (Nat.not_lt.mp hxz) fun heq => hx (heq ▸ List.mem_cons_self)
      have hskip : above x (z::s) = above x s := List.countP_cons_of_neg (by simpa using hxz)
      rw [hskip] at h ⊢
      obtain ⟨s₁, y, s₂, rfl, hlt, hy, hcount⟩ :=
        ih hs' (fun hmem => hx (List.mem_cons_of_mem z hmem)) h
      exact ⟨z::s₁, y, s₂, rfl, List.forall_mem_cons.mpr ⟨hzx, hlt⟩, hy, hcount⟩

theorem above_swapped (hbelow : ∀ z ∈ s₁, z < x) (hxy : x < y) (hy : ∀ z ∈ s₂, y < z) :
    above y (s₁ ++ x::s₂) = s₂.length := by
  have hleft : above y s₁ = 0 :=
    above_eq_zero fun z hz => Nat.le_of_lt ((hbelow z hz).trans hxy)
  rw [above, List.countP_append, List.countP_cons_of_neg (by simpa using Nat.le_of_lt hxy)]
  exact (congrArg₂ (· + ·) hleft (above_eq_length hy)).trans (Nat.zero_add _)

/-- The swap leaves the rest in rising order. -/
theorem rising_swapped (hs : (s₁ ++ y::s₂).Pairwise (· < ·)) (hbelow : ∀ z ∈ s₁, z < x)
    (hxy : x < y) : (s₁ ++ x::s₂).Pairwise (· < ·) := by
  obtain ⟨hs₁, hys₂, hsides⟩ := List.pairwise_append.mp hs
  obtain ⟨hy, hs₂⟩ := List.pairwise_cons.mp hys₂
  refine List.pairwise_append.mpr ⟨hs₁, List.pairwise_cons.mpr ⟨?_, hs₂⟩, ?_⟩
  · exact fun z hz => hxy.trans (hy z hz)
  · intro z hz w hw
    rcases List.mem_cons.mp hw with rfl | hw
    · exact hbelow z hz
    · exact hsides z hz w (List.mem_cons_of_mem y hw)

theorem rising_turned (hs : s.Pairwise (· < ·)) (hbelow : ∀ y ∈ s, y < x) :
    (s ++ [x]).Pairwise (· < ·) := by
  refine List.pairwise_append.mpr ⟨hs, List.pairwise_singleton _ _, fun y hy z hz => ?_⟩
  rw [List.mem_singleton.mp hz]
  exact hbelow y hy

end cycles

/-! ## The carry -/

section carry
variable {n r : ℕ}

theorem swapAt_append (a s₁ s₂ : List ℕ) (x y : ℕ) :
    swapAt (a ++ x::(s₁ ++ y::s₂)) a.length (a.length+1+s₁.length) =
      .ok (a ++ y::(s₁ ++ x::s₂)) := by
  have hlen (z : ℕ) : (a ++ z::s₁).length = a.length+1+s₁.length := by
    rw [List.length_append, List.length_cons]
    omega
  have hshape (z w : ℕ) : a ++ z::(s₁ ++ w::s₂) = (a ++ z::s₁) ++ w::s₂ := by simp
  have hread : readAt (a ++ x::(s₁ ++ y::s₂)) (a.length+1+s₁.length) = .ok y := by
    rw [hshape, ← hlen x, readAt_append]
  have hwrite : writeAt (a ++ y::(s₁ ++ y::s₂)) (a.length+1+s₁.length) x =
      .ok (a ++ y::(s₁ ++ x::s₂)) := by
    rw [hshape, ← hlen y, writeAt_append, hshape]
  rw [swapAt, readAt_append, ok_bind, hread, ok_bind, writeAt_append, ok_bind, hwrite]

theorem rotateFrom_append (a s : List ℕ) (x : ℕ) :
    rotateFrom (a ++ x::s) a.length = .ok (a ++ (s ++ [x])) := by
  rw [rotateFrom, if_pos (by simp), List.take_left, List.drop_left, List.rotate_cons_succ,
    List.rotate_zero]

/-- What the cursor keeps between two calls. -/
structure Standing (n r : ℕ) (cycles indices : List ℕ) : Prop where
  length : cycles.length = r
  perm : indices.Perm (List.range n)
  counted : Counted cycles indices
  rising : (indices.drop r).Pairwise (· < ·)

section swap
variable {m x y : ℕ} {a s₁ s₂ b ca : List ℕ}

theorem perm_swapped : (x::(s₁ ++ y::s₂)).Perm (y::(s₁ ++ x::s₂)) :=
  (List.perm_middle.cons x).trans ((List.Perm.swap y x _).trans (List.perm_middle.symm.cons y))

/-- Swapping in the least position above goes from the greatest tuple behind the one to the
least behind the other. -/
theorem swapped_next (hperm : (a ++ x::(s₁ ++ y::s₂)).Perm (List.range n))
    (hm : m ≤ (s₁ ++ y::s₂).length) (hs : (s₁ ++ y::s₂).Pairwise (· < ·))
    (hbelow : ∀ z ∈ s₁, z < x) (hxy : x < y)
    (hb : IsGreatest (Tuples (unused n) (a ++ [x]) m) b) :
    Next (Tuples (unused n) [] (a.length+(m+1))) (a ++ x::b)
      ((a ++ y::(s₁ ++ x::s₂)).take (a.length+(m+1))) := by
  have hy : ∀ z ∈ s₂, y < z := (List.pairwise_cons.mp (List.pairwise_append.mp hs).2.1).1
  have hperm' : (a ++ y::(s₁ ++ x::s₂)).Perm (List.range n) :=
    (perm_swapped.symm.append_left a).trans hperm
  have hsize : m ≤ (s₁ ++ x::s₂).length := by simpa using hm
  have hleast : IsLeast (Tuples (unused n) (a ++ [y]) m) ((s₁ ++ x::s₂).take m) := by
    refine rest_least ?_ (rising_swapped hs hbelow hxy) hsize
    rwa [List.append_assoc]
  rw [List.take_length_add_append, List.take_succ_cons]
  exact next_append (prefix_mem hperm) (next_head hb (next_rest hperm hbelow hxy hy) hleast)

/-- The swap keeps the cycles counted and the rest in rising order. -/
theorem swapped_standing (hlen : a.length+(m+1) = r) (hca : ca.length = a.length)
    (hperm : (a ++ x::(s₁ ++ y::s₂)).Perm (List.range n)) (hm : m ≤ (s₁ ++ y::s₂).length)
    (hs : (s₁ ++ y::s₂).Pairwise (· < ·)) (hbelow : ∀ z ∈ s₁, z < x) (hxy : x < y) {c : ℕ}
    (hcount : Counted (ca ++ c::resets (s₁ ++ y::s₂).length m) (a ++ x::(s₁ ++ y::s₂))) :
    Standing n r (ca ++ (s₂.length+1)::resets (s₁ ++ y::s₂).length m)
      (a ++ y::(s₁ ++ x::s₂)) := by
  have hy : ∀ z ∈ s₂, y < z := (List.pairwise_cons.mp (List.pairwise_append.mp hs).2.1).1
  have hrising : (s₁ ++ x::s₂).Pairwise (· < ·) := rising_swapped hs hbelow hxy
  have hlength : (s₁ ++ x::s₂).length = (s₁ ++ y::s₂).length := by simp
  refine ⟨?_, (perm_swapped.symm.append_left a).trans hperm, ?_, ?_⟩
  · rw [List.length_append, List.length_cons, hca, resets, List.length_map, List.length_range]
    exact hlen
  · refine hcount.replace hca perm_swapped ⟨by rw [above_swapped hbelow hxy hy], ?_⟩
    rw [← hlength]
    exact counted_resets hrising (hlength ▸ hm)
  · rw [← hlen, List.drop_length_add_append, List.drop_succ_cons]
    exact hrising.sublist (List.drop_sublist m _)

end swap

/-- From a position whose rest is turned back, the cursor goes to the next permutation. -/
theorem permutationsCarry_spec (a s b ca : List ℕ) {m : ℕ} (hlen : a.length+m = r)
    (hca : ca.length = a.length) (hperm : (a ++ s).Perm (List.range n)) (hm : m ≤ s.length)
    (hs : s.Pairwise (· < ·)) (hcount : Counted (ca ++ resets s.length m) (a ++ s))
    (hb : IsGreatest (Tuples (unused n) a m) b) :
    (∃ cycles indices, permutationsCarry n a.length (ca ++ resets s.length m) (a ++ s) =
        .ok (false, cycles, indices) ∧ IsGreatest (permutationTuples n r) (a ++ b)) ∨
      ∃ cycles indices, permutationsCarry n a.length (ca ++ resets s.length m) (a ++ s) =
          .ok (true, cycles, indices) ∧
        Next (permutationTuples n r) (a ++ b) (indices.take r) ∧
        Standing n r cycles indices := by
  rw [permutationTuples_eq]
  induction a using List.reverseRecOn generalizing s b ca m with
  | nil =>
    have hm' : m = r := by simpa using hlen
    rw [hm'] at hb
    exact .inl ⟨_, _, rfl, hb⟩
  | append_singleton a x ih =>
    obtain ⟨ca, c, rfl⟩ : ∃ ca' c, ca = ca' ++ [c] := by
      rcases List.eq_nil_or_concat' ca with rfl | h
      · simp at hca
      · exact h
    have hlen' : a.length+(m+1) = r := by
      rw [List.length_append, List.length_singleton] at hlen
      omega
    have hca' : ca.length = a.length := by simpa using hca
    simp only [List.append_assoc, List.singleton_append, List.length_append,
      List.length_singleton] at hperm hcount ⊢
    have hc : c = above x s+1 := (hcount.drop hca').1
    have hn : a.length+(s.length+1) = n := by simpa using hperm.length_eq
    have hnodup : (a ++ x::s).Nodup := hperm.nodup_iff.mpr List.nodup_range
    have hx : x ∉ s := (List.nodup_cons.mp hnodup.of_append_right).1
    have hread : readAt (ca ++ c::resets s.length m) a.length = .ok c := by
      rw [← hca', readAt_append]
    have hwrite (c k : ℕ) : writeAt (ca ++ c::resets s.length m) a.length k =
        .ok (ca ++ k::resets s.length m) := by
      rw [← hca', writeAt_append]
    have hminus : minus c 1 = .ok (above x s) := by
      rw [hc, minus, if_pos (by omega)]
      rfl
    rw [permutationsCarry, hread, ok_bind, hminus, ok_bind, hwrite, ok_bind]
    by_cases hzero : above x s = 0
    · have hbelow : ∀ y ∈ s, y < x := by
        intro y hy
        have hnot : y ≤ x := by simpa using List.countP_eq_zero.mp hzero y hy
        exact lt_of_le_of_ne hnot fun heq => hx (heq ▸ hy)
      have hreset : minus n a.length = .ok (s.length+1) := by
        rw [minus, if_pos (by omega), show n-a.length = s.length+1 by omega]
      have hrising : (s ++ [x]).Pairwise (· < ·) := rising_turned hs hbelow
      have hturn : (s ++ [x]).Perm (x::s) := List.perm_append_singleton x s
      have hsize : m+1 ≤ (s ++ [x]).length := by
        rw [List.length_append, List.length_singleton]
        omega
      have hresets : resets (s ++ [x]).length (m+1) = (s.length+1)::resets s.length m := by
        rw [List.length_append, List.length_singleton, resets_succ]
      have hnext := ih (s ++ [x]) (x::b) ca hlen' hca' ((hturn.append_left a).trans hperm) hsize
        hrising (hcount.replace hca' hturn.symm (counted_resets hrising hsize))
        (greatest_cons (greatest_rest hperm hbelow) hb)
      rw [hresets] at hnext
      rw [if_pos hzero, rotateFrom_append, ok_bind, hreset, ok_bind, hwrite, ok_bind]
      exact hnext
    · obtain ⟨s₁, y, s₂, rfl, hbelow, hxy, habove⟩ := split_above hs hx hzero
      rw [List.length_append, List.length_cons] at hn
      have hindex : minus n (above x (s₁ ++ y::s₂)) = .ok (a.length+1+s₁.length) := by
        rw [habove, minus, if_pos (by omega),
          show n-(s₂.length+1) = a.length+1+s₁.length by omega]
      have hnext := swapped_next hperm hm hs hbelow hxy hb
      rw [hlen'] at hnext
      have hstanding := swapped_standing hlen' hca' hperm hm hs hbelow hxy hcount
      rw [if_neg hzero, hindex, ok_bind, swapAt_append, ok_bind, habove]
      exact .inr ⟨_, _, rfl, hnext, hstanding⟩

end carry

/-! ## The cursor -/

section cursor
variable {V : Type} {pool : List V} {r : ℕ} {grants : ℕ → Bool}

/-- A cursor that last answered the tuple; without positions the arrays are empty. -/
structure PermutationsAt (pool : List V) (r : ℕ) (t : List ℕ) (cursor : PermutationsCursor V) :
    Prop where
  kept : cursor.pool = pool
  size : cursor.r = r
  started : cursor.started = true
  going : cursor.exhausted = false
  first : cursor.indices.take r = t
  standing : 0 < r → Standing pool.length r cursor.cycles cursor.indices

theorem permutation_le {n : ℕ} {t : List ℕ} (h : t ∈ permutationTuples n r) : r ≤ n := by
  obtain ⟨hlen, hnodup, hlt⟩ := h
  have hsub : t ⊆ List.range n := fun i hi => List.mem_range.mpr (hlt i hi)
  have hle := (hnodup.subperm hsub).length_le
  rwa [hlen, List.length_range] at hle

theorem permutations_walks (hgrant : grants r = true) :
    Walks (PermutationsCursor.nextTuple grants) (permutationTuples pool.length r)
      (valuesAt pool) (PermutationsAt pool r) (fun cursor => cursor.exhausted = true) where
  step t cursor ht hat := by
    have hle := permutation_le ht
    obtain ⟨pool, r, indices, cycles, started, exhausted⟩ := cursor
    obtain ⟨rfl, rfl, rfl, rfl, rfl, hstanding⟩ := hat
    simp only [PermutationsCursor.nextTuple, Bool.false_eq_true, if_false, if_true]
    rcases Nat.eq_zero_or_pos r with rfl | hpos
    · refine .inr ⟨_, rfl, ?_, rfl⟩
      rw [permutationTuples_eq]
      exact greatest_nil
    · obtain ⟨hlength, hperm, hcount, hrising⟩ := hstanding hpos
      have hsize : indices.length = pool.length := by rw [hperm.length_eq, List.length_range]
      have htake : (indices.take r).length = r := List.length_take_of_le (by rw [hsize]; exact hle)
      have hcarry := permutationsCarry_spec (r := r) (m := 0) (indices.take r) (indices.drop r) []
        cycles (by rw [htake, Nat.add_zero]) (by rw [htake, hlength])
        (by rwa [List.take_append_drop]) (Nat.zero_le _) hrising
        (by simpa [resets] using hcount) greatest_nil
      simp only [resets, List.range_zero, List.map_nil, List.append_nil, List.take_append_drop,
        htake] at hcarry
      rcases hcarry with ⟨cycles', indices', heq, hgreatest⟩ | ⟨cycles', indices', heq, hnext, hs⟩
      · exact .inr ⟨_, by rw [heq]; rfl, hgreatest, rfl⟩
      · have hfirst : firstIndices indices' r = .ok (indices'.take r) := by
          rw [firstIndices, if_pos]
          rw [hs.perm.length_eq, List.length_range]
          exact hle
        have htuple : tupleFromPool grants pool (indices'.take r) =
            .ok (valuesAt pool (indices'.take r)) :=
          tupleFromPool_ok (hnext.1.1.1.symm ▸ hgrant) hnext.1.1.2.2
        refine .inl ⟨_, ⟨pool, r, indices', cycles', true, false⟩, ?_, hnext,
          ⟨rfl, rfl, rfl, rfl, rfl, fun _ => hs⟩⟩
        rw [heq, ok_bind]
        simp only [if_true, Bool.not_true, PermutationsCursor.tuple, hfirst, htuple, ok_bind]
        rfl
  done cursor h := ⟨cursor, if_pos h, h⟩

theorem cycles_start {n : ℕ} {l : List ℕ} (h : ∀ i ∈ l, i ≤ n) :
    l.mapM (minus n) = .ok (l.map (n - ·)) := by
  induction l with
  | nil => rfl
  | cons i l ih =>
    have hi : minus n i = .ok (n-i) := if_pos (h i List.mem_cons_self)
    rw [List.mapM_cons, hi, ih fun j hj => h j (List.mem_cons_of_mem i hj)]
    rfl

theorem tryNew_positions (hpos : 0 < r) (hle : r ≤ pool.length) (hr : grants r = true)
    (hpool : grants pool.length = true) :
    PermutationsCursor.tryNew grants pool r =
      .ok ⟨pool, r, List.range pool.length, resets pool.length r, false, false⟩ := by
  have hgoing : decide (pool.length < r) = false := decide_eq_false (Nat.not_lt.mpr hle)
  have hcycles : (List.range r).mapM (minus pool.length) = .ok (resets pool.length r) :=
    cycles_start fun i hi => Nat.le_of_lt ((List.mem_range.mp hi).trans_le hle)
  rw [PermutationsCursor.tryNew]
  simp only [hgoing, Bool.false_or, beq_iff_eq, Nat.ne_of_gt hpos, if_false, tryReserve,
    hpool, hr, if_true, ok_bind]
  rw [hcycles]
  rfl

/-- The first call answers the positions as they stand. -/
theorem nextTuple_first {indices cycles : List ℕ} (hle : r ≤ indices.length)
    (htuple : tupleFromPool grants pool (indices.take r) = .ok (valuesAt pool (indices.take r))) :
    PermutationsCursor.nextTuple grants ⟨pool, r, indices, cycles, false, false⟩ =
      .ok (some (valuesAt pool (indices.take r)), ⟨pool, r, indices, cycles, true, false⟩) := by
  have hfirst : firstIndices indices r = .ok (indices.take r) := by
    rw [firstIndices, if_pos hle]
  simp only [PermutationsCursor.nextTuple, Bool.false_eq_true, if_false,
    PermutationsCursor.tuple, hfirst, htuple, ok_bind]
  rfl

/-- The permutations are answered once each and in order. -/
theorem permutations_enumerates (grants : ℕ → Bool) (pool : List V) (r : ℕ)
    (hgrant : r ≤ pool.length → grants r = true ∧ (0 < r → grants pool.length = true)) :
    ∃ cursor, PermutationsCursor.tryNew grants pool r = .ok cursor ∧
      Enumerates (PermutationsCursor.nextTuple grants) (permutationTuples pool.length r)
        (valuesAt pool) cursor := by
  rcases Nat.lt_or_ge pool.length r with hlt | hle
  · have hdone : ∀ cursor : PermutationsCursor V, cursor.exhausted = true →
        ∃ cursor', cursor.nextTuple grants = .ok (none, cursor') ∧ cursor'.exhausted = true :=
      fun cursor h => ⟨cursor, if_pos h, h⟩
    have hempty : permutationTuples pool.length r = ∅ := by
      refine Set.eq_empty_of_forall_notMem fun t ht => ?_
      exact absurd (permutation_le ht) (Nat.not_le.mpr hlt)
    refine ⟨⟨pool, r, [], [], false, true⟩, ?_, enumerates_empty hdone hempty rfl⟩
    simp [PermutationsCursor.tryNew, hlt]
  · obtain ⟨hr, hpool⟩ := hgrant hle
    have hfin : (permutationTuples pool.length r).Finite := by
      rw [permutationTuples_eq]
      exact tuples_finite unused_finite [] r
    have hrange : ([] ++ List.range pool.length).Perm (List.range pool.length) := .refl _
    have hsorted : (List.range pool.length).Pairwise (· < ·) := List.pairwise_lt_range
    have hleast : IsLeast (permutationTuples pool.length r) ((List.range pool.length).take r) := by
      rw [permutationTuples_eq]
      exact rest_least hrange hsorted (by rwa [List.length_range])
    have htuple : tupleFromPool grants pool ((List.range pool.length).take r) =
        .ok (valuesAt pool ((List.range pool.length).take r)) :=
      tupleFromPool_ok (hleast.1.1.symm ▸ hr) hleast.1.2.2
    rcases Nat.eq_zero_or_pos r with rfl | hpos
    · refine ⟨⟨pool, 0, [], [], false, false⟩, by simp [PermutationsCursor.tryNew], ?_⟩
      have hat : PermutationsAt pool 0 ((List.range pool.length).take 0)
          ⟨pool, 0, [], [], true, false⟩ :=
        ⟨rfl, rfl, rfl, rfl, rfl, fun h => absurd h (lt_irrefl 0)⟩
      exact (permutations_walks hr).enumerates hfin (nextTuple_first (Nat.zero_le _) htuple)
        hleast hat
    · have hnew := tryNew_positions hpos hle hr (hpool hpos)
      have hcounted : Counted (resets pool.length r) (List.range pool.length) := by
        have := counted_resets (m := r) hsorted (by rwa [List.length_range])
        rwa [List.length_range] at this
      have hstanding : Standing pool.length r (resets pool.length r) (List.range pool.length) :=
        ⟨by rw [resets, List.length_map, List.length_range], .refl _, hcounted,
          hsorted.sublist (List.drop_sublist r _)⟩
      have hat : PermutationsAt pool r ((List.range pool.length).take r)
          ⟨pool, r, List.range pool.length, resets pool.length r, true, false⟩ :=
        ⟨rfl, rfl, rfl, rfl, rfl, fun _ => hstanding⟩
      exact ⟨_, hnew, (permutations_walks hr).enumerates hfin
        (nextTuple_first (by rwa [List.length_range]) htuple) hleast hat⟩

/-- The pairs of three values. -/
theorem permutations_enumerates_pairs :
    ∃ cursor, PermutationsCursor.tryNew (fun _ => true) [1, 2, 3] 2 = .ok cursor ∧
      Enumerates (PermutationsCursor.nextTuple fun _ => true) (permutationTuples 3 2)
        (valuesAt [1, 2, 3]) cursor :=
  permutations_enumerates (fun _ => true) [1, 2, 3] 2 fun _ => ⟨rfl, fun _ => rfl⟩

end cursor

end Pyrust.PermutationCursors
