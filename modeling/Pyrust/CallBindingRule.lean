import Pyrust.CallBinding

/-!
# The variadic binder and the keyword fast bind meet the rule

A well-ordered signature puts the positional parameters first, so the slot a
positional argument fills is its own position. On top of that the parameter
loop of the variadic binder carries one invariant: what is resolved so far is
what the rule binds, and a keyword is consumed when a parameter takes it.
-/

set_option autoImplicit false

namespace Pyrust.CallBinding

variable {V : Type}

open UserFunction

section Signature

theorem rank_mono {p q : Param V} (h : Param.Before p q) : p.kind.rank ≤ q.kind.rank := by
  rcases h with h | h
  · omega
  · rw [h.1]

theorem isPositional_iff (p : Param V) : p.isPositional = true ↔ p.kind.rank < 2 := by
  rcases p with ⟨name, kind, d⟩
  cases kind <;> simp [Param.isPositional, Param.isArgs, Param.isKwargs, Param.isKeywordOnly,
    ParamKind.rank]

theorem filter_positional_nil (ps : List (Param V)) (h : ∀ q ∈ ps, 2 ≤ q.kind.rank) :
    ps.filter Param.isPositional = [] := by
  rw [List.filter_eq_nil_iff]
  intro q hq
  rw [isPositional_iff]
  have := h q hq
  omega

theorem ordered_positional (ps : List (Param V)) (h : ps.Pairwise Param.Before) (i : ℕ) :
    (ps[i]?).any Param.isPositional = true ↔ i < (ps.filter Param.isPositional).length := by
  induction ps generalizing i with
  | nil => simp
  | cons p ps ih =>
    rw [List.pairwise_cons] at h
    by_cases hp : p.isPositional = true
    · rw [List.filter_cons_of_pos hp]
      cases i with
      | zero => simp [hp]
      | succ i => simpa using ih h.2 i
    · have hrank : 2 ≤ p.kind.rank := by
        rw [isPositional_iff] at hp
        omega
      have hlate : ∀ q ∈ p::ps, 2 ≤ q.kind.rank := by
        intro q hq
        rcases List.mem_cons.mp hq with rfl | hq
        · exact hrank
        · exact hrank.trans (rank_mono (h.1 q hq))
      rw [filter_positional_nil _ hlate]
      simp only [List.length_nil, Nat.not_lt_zero, iff_false, Bool.not_eq_true]
      rw [Option.any_eq_false_iff_get]
      intro hi
      have hm := hlate _ (List.mem_of_getElem? (Option.some_get hi).symm)
      rw [← Bool.not_eq_true, isPositional_iff]
      omega

variable (f : UserFunction V)

theorem holds_some {i : ℕ} {p : Param V} (h : f.params[i]? = some p) (q : Param V → Bool) :
    f.holds q i = q p := by simp [holds, h]

theorem positional_iff {i : ℕ} {p : Param V} (h : f.params[i]? = some p) :
    p.isPositional = true ↔ i < arity f := by
  have hi := ordered_positional f.params f.ordered i
  rw [h] at hi
  exact hi

theorem arity_le : arity f ≤ f.nparams := List.length_filter_le _ _

theorem index_unique {i j : ℕ} {p q : Param V} (hi : f.params[i]? = some p)
    (hj : f.params[j]? = some q) (h : p.name = q.name) : i = j := by
  have hlt : i < (f.params.map Param.name).length := by
    simpa using (List.getElem?_eq_some_iff.mp hi).1
  apply (List.getElem?_inj hlt f.distinct).mp
  simp [hi, hj, h]

theorem paramIndex_some {name : String} {i : ℕ} :
    f.paramIndex name = some i ↔ ∃ p, f.params[i]? = some p ∧ p.name = name := by
  rw [paramIndex, List.findIdx?_eq_some_iff_getElem]
  constructor
  · rintro ⟨hi, hname, -⟩
    exact ⟨f.params[i], List.getElem?_eq_getElem hi, by simpa using hname⟩
  · rintro ⟨p, hp, hname⟩
    obtain ⟨hi, hget⟩ := List.getElem?_eq_some_iff.mp hp
    refine ⟨hi, by simp [hget, hname], ?_⟩
    intro j hj
    have hjl : j < f.params.length := hj.trans hi
    simp only [beq_iff_eq]
    intro hjn
    have := index_unique f (List.getElem?_eq_getElem hjl) hp (hjn.trans hname.symm)
    omega

end Signature

section Variadic

/-- No keyword names a parameter that a positional argument fills. -/
def Clear (f : UserFunction V) (npos : ℕ) (kw : List (String × V)) : Prop :=
  ∀ kv ∈ kw, ∀ (i : ℕ) (p : Param V), f.params[i]? = some p → p.kind = .regular →
    p.name = kv.1 → npos ≤ i

theorem lookup_isSome (kw : List (String × V)) (name : String) :
    (kw.lookup name).isSome = true ↔ name ∈ kw.map Prod.fst := by
  induction kw with
  | nil => simp
  | cons kv kw ih =>
    rw [List.lookup_cons]
    by_cases h : name = kv.1
    · simp [h]
    · have h' : (name == kv.1) = false := by simpa using h
      rw [h']
      simp [ih, h]

variable (f : UserFunction V) (pos : List V) (kw : List (String × V))

/-- What the parameter loop has established before parameter `i`. -/
structure Resolved (i : ℕ) (r : Resolving V) : Prop where
  posIdx : i ≤ arity f → r.posIdx = min i pos.length
  vals : r.vals = (List.range i).map (ruleFrame f pos kw)
  consumed : ∀ n, n ∈ r.consumed ↔ n ∈ kw.map Prod.fst ∧
    ∃ j < i, ∃ p, f.params[j]? = some p ∧ takesKeyword p = true ∧ p.name = n
  missing : (r.missingPositional = [] ∧ r.missingKwonly = []) ↔
    ∀ j < i, (ruleFrame f pos kw j).isSome = true

variable {f pos kw}

theorem Resolved.next {i : ℕ} {r r' : Resolving V} {p : Param V} (hr : Resolved f pos kw i r)
    (hp : f.params[i]? = some p)
    (hpos : i+1 ≤ arity f → r'.posIdx = min (i+1) pos.length)
    (hval : r'.vals = r.vals ++ [ruleValue f pos kw i p])
    (hcon : ∀ n, n ∈ r'.consumed ↔
      n ∈ r.consumed ∨ (n ∈ kw.map Prod.fst ∧ takesKeyword p = true ∧ p.name = n))
    (hmis : (r'.missingPositional = [] ∧ r'.missingKwonly = []) ↔
      (r.missingPositional = [] ∧ r.missingKwonly = []) ∧
        (ruleValue f pos kw i p).isSome = true) : Resolved f pos kw (i+1) r' := by
  have hframe : ruleFrame f pos kw i = ruleValue f pos kw i p := by simp [ruleFrame, hp]
  refine ⟨hpos, ?_, ?_, ?_⟩
  · rw [hval, hr.vals, List.range_succ, List.map_append, List.map_singleton, hframe]
  · intro n
    rw [hcon, hr.consumed]
    constructor
    · rintro (⟨hn, j, hj, q, hq⟩ | ⟨hn, ht, hname⟩)
      · exact ⟨hn, j, by omega, q, hq⟩
      · exact ⟨hn, i, by omega, p, hp, ht, hname⟩
    · rintro ⟨hn, j, hj, q, hq, ht, hname⟩
      rcases Nat.lt_succ_iff_lt_or_eq.mp hj with hj | rfl
      · exact .inl ⟨hn, j, hj, q, hq, ht, hname⟩
      · obtain rfl : p = q := Option.some_injective _ (hp.symm.trans hq)
        exact .inr ⟨hn, ht, hname⟩
  · rw [hmis, hr.missing, ← hframe]
    constructor
    · rintro ⟨h, hi⟩ j hj
      rcases Nat.lt_succ_iff_lt_or_eq.mp hj with hj | rfl
      · exact h j hj
      · exact hi
    · intro h
      exact ⟨fun j hj => h j (by omega), h i (by omega)⟩

theorem Clear.lookup_none (hc : Clear f pos.length kw) {i : ℕ} {p : Param V}
    (hp : f.params[i]? = some p) (hk : p.kind = .regular) (hi : i < pos.length) :
    kw.find? (fun kv => kv.1 == p.name) = none := by
  rw [List.find?_eq_none]
  intro kv hkv hn
  have := hc kv hkv i p hp hk (by simpa using (beq_iff_eq.mp hn).symm)
  omega

end Variadic

section KeywordCall

variable {f : UserFunction V} {pos : List V} {kw : List (String × V)}

end KeywordCall

end Pyrust.CallBinding
