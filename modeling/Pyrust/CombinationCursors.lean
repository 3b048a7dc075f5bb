import Pyrust.CombinatoricCursors

/-!
# Combinations in order

The cursor of the combinations, with and without replacement, raises the last position
that is below its largest value and refills the ones behind it with the least that may
follow.
-/

set_option autoImplicit false

namespace Pyrust.CombinationCursors

open LexTuples CombinatoricCursors

/-! ## Choices -/

/-- The order of two positions of a combination. -/
def Follows (withReplacement : Bool) (j i : ℕ) : Prop := if withReplacement then j ≤ i else j < i

/-- The position tuples of the combinations of `r` out of `n`. -/
def combinationTuples (withReplacement : Bool) (n r : ℕ) : Set (List ℕ) :=
  {t | t.length = r ∧ t.Pairwise (Follows withReplacement) ∧ ∀ i ∈ t, i < n}

/-- What may follow, with room for the positions that are still to come. -/
def combinationChoices (withReplacement : Bool) (n r : ℕ) (before : List ℕ) : Set ℕ :=
  {i | (∀ j ∈ before, Follows withReplacement j i) ∧ i < n ∧
    (withReplacement = false → i+r ≤ n+before.length)}

/-- The least that may follow a position, `m` times. -/
def fill (withReplacement : Bool) (x m : ℕ) : List ℕ :=
  if withReplacement then List.replicate m x else List.range' (x+1) m

section choices
variable {wr : Bool} {n r m i j k x : ℕ} {before t u : List ℕ}

theorem Follows.le (h : Follows wr j i) : j ≤ i := by
  cases wr
  · exact Nat.le_of_lt h
  · exact h

theorem Follows.trans (h : Follows wr i j) (h' : Follows wr j k) : Follows wr i k := by
  cases wr
  · exact Nat.lt_trans h h'
  · exact Nat.le_trans h h'

theorem Follows.mono (h : Follows wr i j) (h' : j ≤ k) : Follows wr i k := by
  cases wr
  · exact Nat.lt_of_lt_of_le h h'
  · exact Nat.le_trans h h'

/-- Rising positions leave room for those behind. -/
theorem room (h : (i::u).Pairwise (Follows false)) (hlt : ∀ j ∈ i::u, j < n) :
    i+(u.length+1) ≤ n := by
  induction u generalizing i with
  | nil => exact hlt i List.mem_cons_self
  | cons k u ih =>
    obtain ⟨hik, hu⟩ := List.pairwise_cons.mp h
    have hstep : i < k := hik k List.mem_cons_self
    have hrest := ih hu fun j hj => hlt j (List.mem_cons_of_mem i hj)
    rw [List.length_cons]
    omega

theorem mem_tuples_iff (hm : before.length+m = r) :
    t ∈ Tuples (combinationChoices wr n r) before m ↔
      t.length = m ∧ t.Pairwise (Follows wr) ∧ (∀ i ∈ t, i < n) ∧
        ∀ j ∈ before, ∀ i ∈ t, Follows wr j i := by
  induction m generalizing before t with
  | zero =>
    rw [List.length_eq_zero_iff]
    constructor
    · rintro rfl
      simp
    · rintro ⟨rfl, -⟩
      rfl
  | succ m ih =>
    cases t with
    | nil => exact iff_of_false (fun h => by cases length_of_mem h) (fun h => by cases h.1)
    | cons i u =>
      have hm' : (before ++ [i]).length+m = r := by
        rw [List.length_append, List.length_singleton]
        omega
      rw [cons_mem_tuples, ih hm', List.length_cons, List.pairwise_cons]
      constructor
      · rintro ⟨⟨hbefore, hi, -⟩, hlen, hu, hlt, hafter⟩
        refine ⟨by rw [hlen], ⟨fun k hk => hafter i (by simp) k hk, hu⟩, ?_, ?_⟩
        · exact List.forall_mem_cons.mpr ⟨hi, hlt⟩
        · intro j hj
          exact List.forall_mem_cons.mpr
            ⟨hbefore j hj, hafter j (List.mem_append_left _ hj)⟩
      · rintro ⟨hlen, ⟨hi, hu⟩, hlt, hbefore⟩
        have hlen' : u.length = m := Nat.succ.inj hlen
        refine ⟨⟨fun j hj => hbefore j hj i List.mem_cons_self, hlt i List.mem_cons_self, ?_⟩,
          hlen', hu, fun k hk => hlt k (List.mem_cons_of_mem i hk), ?_⟩
        · rintro rfl
          have := room (List.pairwise_cons.mpr ⟨hi, hu⟩) hlt
          omega
        · intro j hj k hk
          rcases List.mem_append.mp hj with hj | hj
          · exact hbefore j hj k (List.mem_cons_of_mem i hk)
          · rw [List.mem_singleton.mp hj]
            exact hi k hk

theorem combinationTuples_eq :
    combinationTuples wr n r = Tuples (combinationChoices wr n r) [] r := by
  ext t
  rw [mem_tuples_iff (Nat.zero_add r)]
  simp [combinationTuples]

theorem combinationChoices_finite (before : List ℕ) :
    (combinationChoices wr n r before).Finite :=
  (Set.finite_lt_nat n).subset fun _ h => h.2.1

theorem fill_succ :
    fill wr x (m+1) = (if wr then x else x+1)::fill wr (if wr then x else x+1) m := by
  cases wr <;> rfl

/-- The refilled positions are the least that may follow. -/
theorem fill_least (hx : x ∈ combinationChoices wr n r before) (hm : before.length+1+m = r) :
    IsLeast (Tuples (combinationChoices wr n r) (before ++ [x]) m) (fill wr x m) := by
  induction m generalizing before x with
  | zero => cases wr <;> exact least_nil
  | succ m ih =>
    obtain ⟨hbefore, hlt, hroom⟩ := hx
    have hlen : (before ++ [x]).length = before.length+1 := by
      rw [List.length_append, List.length_singleton]
    have hnext : IsLeast (combinationChoices wr n r (before ++ [x])) (if wr then x else x+1) := by
      cases wr with
      | true =>
        refine ⟨⟨?_, hlt, by simp⟩, fun i hi => hi.1 x (by simp)⟩
        intro j hj
        rcases List.mem_append.mp hj with hj | hj
        · exact hbefore j hj
        · exact Nat.le_of_eq (List.mem_singleton.mp hj)
      | false =>
        have hroom' := hroom rfl
        refine ⟨⟨?_, show x+1 < n by omega, fun _ => show x+1+r ≤ _ by omega⟩,
          fun i hi => hi.1 x (by simp)⟩
        intro j hj
        rcases List.mem_append.mp hj with hj | hj
        · exact Nat.lt_succ_of_lt (hbefore j hj)
        · exact Nat.lt_succ_of_le (Nat.le_of_eq (List.mem_singleton.mp hj))
    rw [fill_succ]
    exact least_cons hnext (ih hnext.1 (by omega))

end choices

/-! ## The carry -/

section carry
variable {wr : Bool} {n r : ℕ}

theorem refill_true {front b : List ℕ} {position y : ℕ} (hc : front[position]? = some y) :
    (List.range' front.length b.length).foldlM (refill true position) (front ++ b) =
      .ok (front ++ List.replicate b.length y) := by
  induction b generalizing front with
  | nil => rfl
  | cons z b ih =>
    have hlt : position < front.length := (List.getElem?_eq_some_iff.mp hc).1
    have hread : readAt (front ++ z::b) position = .ok y := by
      rw [readAt, List.getElem?_append_left hlt, hc]
    have hc' : (front ++ [y])[position]? = some y := by rw [List.getElem?_append_left hlt, hc]
    have hrest := ih hc'
    rw [List.length_append, List.length_singleton, List.append_assoc] at hrest
    rw [List.length_cons, List.range'_succ, List.foldlM_cons, refill]
    simp only [if_true, hread, ok_bind, writeAt_append]
    rw [List.singleton_append] at hrest
    rw [hrest, List.append_assoc, List.replicate_succ]
    rfl

theorem refill_false {a b : List ℕ} {position y : ℕ} :
    (List.range' (a.length+1) b.length).foldlM (refill false position) (a ++ y::b) =
      .ok (a ++ y::List.range' (y+1) b.length) := by
  induction b generalizing a y with
  | nil => rfl
  | cons z b ih =>
    have hwrite : writeAt (a ++ y::z::b) (a.length+1) (y+1) = .ok (a ++ y::(y+1)::b) := by
      have := writeAt_append (a ++ [y]) b z (y+1)
      simpa using this
    have hrest := ih (a := a ++ [y]) (y := y+1)
    rw [List.length_append, List.length_singleton, List.append_assoc, List.singleton_append]
      at hrest
    rw [List.length_cons, List.range'_succ, List.foldlM_cons, refill]
    simp only [Bool.false_eq_true, if_false, minus, Nat.le_add_left, if_true,
      Nat.add_sub_cancel, ok_bind, readAt_append, pure_bind, hwrite]
    rw [hrest, List.append_assoc]
    rfl

theorem refill_spec {a b : List ℕ} {y : ℕ} :
    (List.range' (a.length+1) b.length).foldlM (refill wr a.length) (a ++ y::b) =
      .ok (a ++ y::fill wr y b.length) := by
  cases wr with
  | false => exact refill_false
  | true =>
    have hy : (a ++ [y])[a.length]? = some y := by simp
    have := refill_true (b := b) hy
    simpa [fill] using this

/-- The largest value at a position, and what it means there. -/
theorem maxValue_spec (hr : wr = false → r ≤ n) {a : List ℕ} {x : ℕ} (hpos : a.length < r)
    (hx : x ∈ combinationChoices wr n r a) :
    ∃ largest, maxValue wr n r a.length = .ok largest ∧
      ∀ i, i ∈ combinationChoices wr n r a ↔ (∀ j ∈ a, Follows wr j i) ∧ i ≤ largest := by
  obtain ⟨-, hlt, -⟩ := hx
  cases wr with
  | true =>
    have hn : 1 ≤ n := by omega
    refine ⟨n-1, by rw [maxValue, if_pos rfl, minus, if_pos hn], fun i => ?_⟩
    refine and_congr_right fun _ => ?_
    simp only [Bool.true_eq_false, false_implies, and_true]
    omega
  | false =>
    have hle := hr rfl
    refine ⟨n-r+a.length, ?_, fun i => ?_⟩
    · rw [maxValue, if_neg Bool.false_ne_true, minus, if_pos hle]
      rfl
    · refine and_congr_right fun _ => ?_
      simp only [forall_const]
      omega

/-- From a position whose rest is at its end, the cursor goes to the next combination. -/
theorem combinationsCarry_spec (hr : wr = false → r ≤ n) (a b : List ℕ)
    (hlen : a.length+b.length = r) (ha : a ∈ Tuples (combinationChoices wr n r) [] a.length)
    (hb : IsGreatest (Tuples (combinationChoices wr n r) a b.length) b) :
    (combinationsCarry wr n r a.length (a ++ b) = .ok (false, a ++ b) ∧
        IsGreatest (combinationTuples wr n r) (a ++ b)) ∨
      ∃ t', combinationsCarry wr n r a.length (a ++ b) = .ok (true, t') ∧
        Next (combinationTuples wr n r) (a ++ b) t' := by
  rw [combinationTuples_eq]
  induction a using List.reverseRecOn generalizing b with
  | nil =>
    have hb' : b.length = r := by simpa using hlen
    rw [hb'] at hb
    exact .inl ⟨rfl, hb⟩
  | append_singleton a x ih =>
    have hlen' : a.length+(b.length+1) = r := by
      rw [List.length_append, List.length_singleton] at hlen
      omega
    obtain ⟨ha, hx⟩ : a ∈ Tuples (combinationChoices wr n r) [] a.length ∧
        [x] ∈ Tuples (combinationChoices wr n r) a 1 := by
      rw [List.length_append, List.length_singleton, append_mem_tuples, List.nil_append] at ha
      exact ha
    have hxmem := (cons_mem_tuples.mp hx).1
    obtain ⟨largest, hlargest, hchoices⟩ := maxValue_spec hr (by omega) hxmem
    rw [List.length_append, List.length_singleton, List.append_assoc, List.singleton_append,
      combinationsCarry, hlargest, ok_bind, readAt_append, ok_bind]
    by_cases hnext : x < largest
    · have hsucc : x+1 ∈ combinationChoices wr n r a :=
        (hchoices _).mpr ⟨fun j hj => (hxmem.1 j hj).mono (Nat.le_succ x), hnext⟩
      have hcount : r-(a.length+1) = b.length := by omega
      rw [if_pos hnext, writeAt_append, ok_bind, hcount, refill_spec, ok_bind]
      have hleast : IsLeast (Tuples (combinationChoices wr n r) (a ++ [x+1]) b.length)
          (fill wr (x+1) b.length) := fill_least hsucc (by omega)
      have hnext' : Next (Tuples (combinationChoices wr n r) [] (a.length+(b.length+1)))
          (a ++ x::b) (a ++ (x+1)::fill wr (x+1) b.length) :=
        next_append ha (next_head hb ⟨⟨hsucc, Nat.lt_succ_self x⟩, fun y hy => hy.2⟩ hleast)
      rw [hlen'] at hnext'
      exact .inr ⟨_, rfl, hnext'⟩
    · rw [if_neg hnext]
      have hgreatest : IsGreatest (combinationChoices wr n r a) x :=
        ⟨hxmem, fun i hi => Nat.le_trans ((hchoices i).mp hi).2 (Nat.not_lt.mp hnext)⟩
      exact ih (x::b) hlen' ha (greatest_cons hgreatest hb)

end carry

/-! ## The cursor -/

section cursor
variable {V : Type} {wr : Bool} {pool : List V} {r : ℕ} {grants : ℕ → Bool}

/-- A cursor that last answered the tuple. -/
structure CombinationsAt (wr : Bool) (pool : List V) (t : List ℕ) (cursor : CombinationsCursor V) :
    Prop where
  pool : cursor.pool = pool
  indices : cursor.indices = t
  withReplacement : cursor.withReplacement = wr
  started : cursor.started = true
  going : cursor.exhausted = false

theorem combinations_walks (hr : wr = false → r ≤ pool.length) (hgrant : grants r = true) :
    Walks (CombinationsCursor.nextTuple grants) (combinationTuples wr pool.length r)
      (valuesAt pool) (CombinationsAt wr pool) (fun cursor => cursor.exhausted = true) where
  step t cursor ht hat := by
    have hlen : t.length = r := ht.1
    have hmem : t ∈ Tuples (combinationChoices wr pool.length r) [] t.length := by
      rw [hlen, ← combinationTuples_eq]
      exact ht
    have hcarry := combinationsCarry_spec hr t [] (by simpa using hlen) hmem greatest_nil
    obtain ⟨pool, indices, withReplacement, started, exhausted⟩ := cursor
    obtain ⟨rfl, rfl, rfl, rfl, rfl⟩ := hat
    rw [List.append_nil, hlen] at hcarry
    simp only [CombinationsCursor.nextTuple, Bool.false_eq_true, if_false, if_true, hlen]
    rcases hcarry with ⟨heq, hgreatest⟩ | ⟨t', heq, hnext⟩
    · exact .inr ⟨_, by rw [heq]; rfl, hgreatest, rfl⟩
    · have htuple : tupleFromPool grants pool t' = .ok (valuesAt pool t') :=
        tupleFromPool_ok (hnext.1.1.1 ▸ hgrant) hnext.1.1.2.2
      refine .inl ⟨t', ⟨pool, t', withReplacement, true, false⟩, ?_, hnext,
        ⟨rfl, rfl, rfl, rfl, rfl⟩⟩
      rw [heq, ok_bind]
      simp only [if_true, Bool.not_true, htuple, ok_bind]
      rfl
  done cursor h := ⟨cursor, if_pos h, h⟩

/-- Nothing to combine: fewer items than positions, or none. -/
def noCombinations (wr : Bool) (n r : ℕ) : Bool :=
  if wr then decide (n = 0 ∧ 0 < r) else decide (n < r)

theorem combinationTuples_empty {n : ℕ} (h : noCombinations wr n r = true) :
    combinationTuples wr n r = ∅ := by
  refine Set.eq_empty_of_forall_notMem fun t ⟨hlen, hpair, hlt⟩ => ?_
  cases wr with
  | true =>
    obtain ⟨rfl, hpos⟩ := of_decide_eq_true h
    cases t with
    | nil => exact absurd hlen (Nat.ne_of_lt hpos)
    | cons i t => exact Nat.not_lt_zero i (hlt i List.mem_cons_self)
  | false =>
    have hn : n < r := of_decide_eq_true h
    cases t with
    | nil =>
      rw [← hlen] at hn
      exact absurd hn (Nat.not_lt_zero n)
    | cons i t =>
      have := room hpair hlt
      rw [List.length_cons] at hlen
      omega

/-- The indices of a new cursor are the least combination. -/
theorem first_least {n : ℕ} (h : noCombinations wr n r = false) :
    IsLeast (combinationTuples wr n r) (if wr then List.replicate r 0 else List.range r) := by
  rw [combinationTuples_eq]
  cases r with
  | zero => cases wr <;> exact least_nil
  | succ m =>
    have hzero : IsLeast (combinationChoices wr n (m+1) []) 0 := by
      refine ⟨⟨by simp, ?_, ?_⟩, fun i _ => Nat.zero_le i⟩
      · cases wr
        · have : ¬n < m+1 := of_decide_eq_false h
          omega
        · have : ¬(n = 0 ∧ 0 < m+1) := of_decide_eq_false h
          omega
      · rintro rfl
        have : ¬n < m+1 := of_decide_eq_false h
        rw [List.length_nil]
        omega
    have hfirst : (if wr then List.replicate (m+1) 0 else List.range (m+1)) = 0::fill wr 0 m := by
      cases wr
      · exact List.range_eq_range'.trans List.range'_succ
      · rfl
    rw [hfirst]
    exact least_cons hzero (fill_least hzero.1 (by simp [Nat.add_comm]))

/-- The combinations are answered once each and in order. -/
theorem combinations_enumerates (grants : ℕ → Bool) (wr : Bool) (pool : List V) (r : ℕ)
    (hgrant : noCombinations wr pool.length r = false → grants r = true) :
    ∃ cursor, CombinationsCursor.tryNew grants pool r wr = .ok cursor ∧
      Enumerates (CombinationsCursor.nextTuple grants) (combinationTuples wr pool.length r)
        (valuesAt pool) cursor := by
  have hnew : CombinationsCursor.tryNew grants pool r wr =
      if noCombinations wr pool.length r || r == 0 then
        .ok ⟨pool, [], wr, false, noCombinations wr pool.length r⟩
      else (do
        tryReserve grants r
        pure ⟨pool, if wr then List.replicate r 0 else List.range r, wr, false,
          noCombinations wr pool.length r⟩) := rfl
  cases hempty : noCombinations wr pool.length r with
  | true =>
    have hdone : ∀ cursor : CombinationsCursor V, cursor.exhausted = true →
        ∃ cursor', cursor.nextTuple grants = .ok (none, cursor') ∧ cursor'.exhausted = true :=
      fun cursor h => ⟨cursor, if_pos h, h⟩
    rw [hnew, hempty]
    exact ⟨_, rfl, enumerates_empty hdone (combinationTuples_empty hempty) rfl⟩
  | false =>
    have hr : wr = false → r ≤ pool.length := by
      rintro rfl
      exact Nat.not_lt.mp (of_decide_eq_false hempty)
    have hg := hgrant hempty
    have hleast := first_least hempty
    have hcursor : CombinationsCursor.tryNew grants pool r wr = .ok
        ⟨pool, if wr then List.replicate r 0 else List.range r, wr, false, false⟩ := by
      rw [hnew, hempty]
      by_cases hzero : r = 0
      · subst hzero
        cases wr <;> rfl
      · rw [if_neg (by simpa using hzero), tryReserve, if_pos hg]
        rfl
    have hat : CombinationsAt wr pool (if wr then List.replicate r 0 else List.range r)
        ⟨pool, if wr then List.replicate r 0 else List.range r, wr, true, false⟩ :=
      ⟨rfl, rfl, rfl, rfl, rfl⟩
    refine ⟨_, hcursor, (combinations_walks hr hg).enumerates ?_ ?_ hleast hat⟩
    · rw [combinationTuples_eq]
      exact tuples_finite combinationChoices_finite [] r
    · have htuple : tupleFromPool grants pool _ = .ok (valuesAt pool _) :=
        tupleFromPool_ok (hleast.1.1.symm ▸ hg) hleast.1.2.2
      simp only [CombinationsCursor.nextTuple, Bool.false_eq_true, if_false, htuple, ok_bind]
      rfl

/-- The pairs out of three values. -/
theorem combinations_enumerates_pairs :
    ∃ cursor, CombinationsCursor.tryNew (fun _ => true) [1, 2, 3] 2 false = .ok cursor ∧
      Enumerates (CombinationsCursor.nextTuple fun _ => true) (combinationTuples false 3 2)
        (valuesAt [1, 2, 3]) cursor :=
  combinations_enumerates (fun _ => true) false [1, 2, 3] 2 fun _ => rfl

end cursor

end Pyrust.CombinationCursors
