import Mathlib.Data.Nat.Notation
import Mathlib.Tactic.Common

/-!
# Comparison of graphs under a guard

Values have children by labels. Two values are bisimilar when no path leads to a
difference between what is seen of them. A comparison that goes down both at once and
takes a pair on its way for equal finds a difference whenever there is one: a way that
comes to a pair twice can be cut short.
-/

set_option autoImplicit false

namespace Pyrust.GuardedComparison

variable {V L P : Type} (child : V → L → Option V) (Same : V → V → Prop)

/-! ## Bisimilarity -/

def follow (v : V) : List L → Option V
  | [] => some v
  | l::path => (child v l).bind fun w => follow w path

/-- No path leads to a difference. -/
def Bisimilar (a b : V) : Prop :=
  ∀ path v w, follow child a path = some v → follow child b path = some w → Same v w

section equivalence
variable {child Same} {a b c : V}

theorem Bisimilar.below (h : Bisimilar child Same a b) {l : L} {v w : V}
    (hv : child a l = some v) (hw : child b l = some w) : Bisimilar child Same v w := by
  intro path x y hx hy
  refine h (l::path) x y ?_ ?_
  · rwa [follow, hv]
  · rwa [follow, hw]

/-- Values that look the same have children by the same labels. -/
def Uniform (child : V → L → Option V) (Same : V → V → Prop) : Prop :=
  ∀ v w, Same v w → ∀ l, (child v l).isSome = (child w l).isSome

theorem Bisimilar.follow_some (hu : Uniform child Same) (h : Bisimilar child Same a b)
    {path : List L} {v : V} (hv : follow child a path = some v) :
    ∃ w, follow child b path = some w := by
  induction path generalizing a b with
  | nil => exact ⟨b, rfl⟩
  | cons l path ih =>
    obtain ⟨a', ha', hv⟩ := Option.bind_eq_some_iff.mp hv
    have hsome := hu a b (h [] a b rfl rfl) l
    rw [ha', Option.isSome_some] at hsome
    obtain ⟨b', hb'⟩ := Option.isSome_iff_exists.mp hsome.symm
    obtain ⟨w, hw⟩ := ih (h.below ha' hb') hv
    refine ⟨w, ?_⟩
    rw [follow, hb']
    exact hw

theorem bisimilar_equivalence (hu : Uniform child Same) (hsame : Equivalence Same) :
    Equivalence (Bisimilar child Same) where
  refl a path v w hv hw := by
    rw [Option.some.inj (hv.symm.trans hw)]
    exact hsame.refl w
  symm h path v w hv hw := hsame.symm (h path w v hw hv)
  trans h h' path v w hv hw := by
    obtain ⟨u, hu⟩ := h.follow_some hu hv
    exact hsame.trans (h path v u hv hu) (h' path u w hu hw)

end equivalence

/-! ## The guard -/

section guard
variable (pair : V → V → Option P)

/-- The pair of the two values, if they have one, is not on the way. -/
def Free (way : List P) (a b : V) : Prop := ∀ p ∈ pair a b, p ∉ way

/-- A difference that is reached without coming to a pair twice. -/
inductive Differs : List P → V → V → Prop
  | here {way : List P} {a b : V} (hfree : Free pair way a b) (hne : ¬Same a b) : Differs way a b
  | step {way : List P} {a b v w : V} {l : L} (hfree : Free pair way a b)
      (hv : child a l = some v) (hw : child b l = some w)
      (h : Differs ((pair a b).toList ++ way) v w) : Differs way a b

/-- The path leads to a difference and no pair on it is on the way. -/
def Separates (way : List P) : List L → V → V → Prop
  | [], a, b => Free pair way a b ∧ ¬Same a b
  | l::path, a, b => Free pair way a b ∧
    ∃ v w, child a l = some v ∧ child b l = some w ∧ Separates way path v w

variable {child Same pair} {way : List P} {a b : V}

theorem Separates.free {path : List L} (h : Separates child Same pair way path a b) :
    Free pair way a b := by
  cases path with
  | nil => exact h.1
  | cons l path => exact h.1

/-- Either the path avoids one pair more, or it can be cut short at that pair. -/
theorem Separates.cut {path : List L} (h : Separates child Same pair way path a b) (p : P) :
    Separates child Same pair (p::way) path a b ∨
      ∃ path' c d, path'.length ≤ path.length ∧ p ∈ pair c d ∧
        Separates child Same pair way path' c d := by
  by_cases hp : p ∈ pair a b
  · exact .inr ⟨path, a, b, Nat.le_refl _, hp, h⟩
  have hfree : Free pair (p::way) a b := fun q hq hmem => by
    rcases List.mem_cons.mp hmem with rfl | hmem
    · exact hp hq
    · exact h.free q hq hmem
  induction path generalizing a b with
  | nil => exact .inl ⟨hfree, h.2⟩
  | cons l path ih =>
    obtain ⟨-, v, w, hv, hw, h⟩ := h
    by_cases hp' : p ∈ pair v w
    · exact .inr ⟨path, v, w, Nat.le_succ _, hp', h⟩
    have hfree' : Free pair (p::way) v w := fun q hq hmem => by
      rcases List.mem_cons.mp hmem with rfl | hmem
      · exact hp' hq
      · exact h.free q hq hmem
    rcases ih h hp' hfree' with h | ⟨path', c, d, hle, hcd, h⟩
    · exact .inl ⟨hfree, v, w, hv, hw, h⟩
    · exact .inr ⟨path', c, d, Nat.le_succ_of_le hle, hcd, h⟩

/-- On the number of steps: a path that comes back to its first pair is shorter from there. -/
theorem Separates.differs (hpair : ∀ a b c d p, p ∈ pair a b → p ∈ pair c d → a = c ∧ b = d)
    {path : List L} (h : Separates child Same pair way path a b) :
    Differs child Same pair way a b := by
  induction hn : path.length using Nat.strongRecOn generalizing path way a b with
  | ind n ih =>
    cases path with
    | nil => exact .here h.1 h.2
    | cons l path =>
      obtain ⟨hfree, v, w, hv, hw, h⟩ := h
      rw [List.length_cons] at hn
      cases hp : pair a b with
      | none =>
        refine .step hfree hv hw ?_
        rw [hp]
        exact ih path.length (by omega) h rfl
      | some p =>
        rcases h.cut p with h | ⟨path', c, d, hle, hcd, h⟩
        · refine .step hfree hv hw ?_
          rw [hp]
          exact ih path.length (by omega) h rfl
        · obtain ⟨rfl, rfl⟩ := hpair a b c d p hp hcd
          exact ih path'.length (by omega) h rfl

theorem Differs.separates (h : Differs child Same pair way a b) :
    ∃ path v w, follow child a path = some v ∧ follow child b path = some w ∧ ¬Same v w := by
  induction h with
  | @here way a b hfree hne => exact ⟨[], a, b, rfl, rfl, hne⟩
  | @step way a b v w l hfree hv hw h ih =>
    obtain ⟨path, x, y, hx, hy, hne⟩ := ih
    refine ⟨l::path, x, y, ?_, ?_, hne⟩
    · rwa [follow, hv]
    · rwa [follow, hw]

theorem separates_of_follow {path : List L} {v w : V} (hv : follow child a path = some v)
    (hw : follow child b path = some w) (hne : ¬Same v w) :
    Separates child Same pair [] path a b := by
  induction path generalizing a b with
  | nil =>
    obtain rfl := Option.some.inj hv
    obtain rfl := Option.some.inj hw
    exact ⟨fun p _ => List.not_mem_nil, hne⟩
  | cons l path ih =>
    obtain ⟨a', ha', hv⟩ := Option.bind_eq_some_iff.mp hv
    obtain ⟨b', hb', hw⟩ := Option.bind_eq_some_iff.mp hw
    exact ⟨fun p _ => List.not_mem_nil, a', b', ha', hb', ih hv hw⟩

/-- The guarded comparison finds a difference exactly when the values are not bisimilar. -/
theorem differs_iff (hpair : ∀ a b c d p, p ∈ pair a b → p ∈ pair c d → a = c ∧ b = d) :
    Differs child Same pair [] a b ↔ ¬Bisimilar child Same a b := by
  constructor
  · intro h hsame
    obtain ⟨path, v, w, hv, hw, hne⟩ := h.separates
    exact hne (hsame path v w hv hw)
  · intro h
    simp only [Bisimilar, not_forall] at h
    obtain ⟨path, v, w, hv, hw, hne⟩ := h
    exact (separates_of_follow hv hw hne).differs hpair

end guard

end Pyrust.GuardedComparison
