import Mathlib.Logic.Function.Basic
import Mathlib.Data.Nat.Notation
import Mathlib.Tactic.Linarith

/-!
# Chains of optional pointers

A node points to at most one other node. A chain ends when some number of
pointers leads to a node without one. Redirecting one pointer keeps every
chain finite exactly when the new target does not lead back to the node.
-/

set_option autoImplicit false

namespace Pyrust.PointerChain

variable {Node : Type*}

/-- The node that `n` pointers lead to. -/
def follow (next : Node → Option Node) : ℕ → Node → Option Node
  | 0, x => some x
  | n+1, x => (next x).bind (follow next n)

attribute [local simp] follow

def Ends (next : Node → Option Node) (x : Node) : Prop := ∃ n, follow next n x = none

def OnChain (next : Node → Option Node) (x y : Node) : Prop := ∃ n, follow next n x = some y

/-- No chain runs on forever. -/
def Finite (next : Node → Option Node) : Prop := ∀ x, Ends next x

variable {next : Node → Option Node}

theorem follow_add (m n : ℕ) (x : Node) :
    follow next (m+n) x = (follow next m x).bind (follow next n) := by
  induction m generalizing x with
  | zero => rw [Nat.zero_add]; rfl
  | succ m ih =>
    rw [Nat.add_right_comm, follow, follow, Option.bind_assoc]
    congr 1
    funext y
    exact ih y

theorem onChain_self (x : Node) : OnChain next x x := ⟨0, rfl⟩

theorem ends_of_none {x : Node} (h : next x = none) : Ends next x := ⟨1, by simp [follow, h]⟩

theorem ends_next {x y : Node} (h : next x = some y) : Ends next x ↔ Ends next y := by
  constructor
  · rintro ⟨n, hn⟩
    cases n with
    | zero => simp [follow] at hn
    | succ n => exact ⟨n, by simpa [follow, h] using hn⟩
  · rintro ⟨n, hn⟩
    exact ⟨n+1, by simpa [follow, h] using hn⟩

/-- A node that its own pointer leads back to has no end. -/
theorem not_ends_of_cycle {x y : Node} (h : next x = some y) (hc : OnChain next y x) :
    ¬ Ends next x := by
  obtain ⟨k, hk⟩ := hc
  have hstep (n : ℕ) : follow next (k+1+n) x = follow next n x := by
    rw [follow_add, follow, h, Option.bind_some, hk, Option.bind_some]
  rintro ⟨n, hn⟩
  induction n using Nat.strong_induction_on with
  | _ n ih =>
    by_cases hle : k+1 ≤ n
    · apply ih (n-(k+1)) (by omega)
      rw [← hstep, Nat.add_sub_cancel' hle]
      exact hn
    · -- the chain is still on its first way round
      have hsplit : k+1 = n+(k+1-n) := by omega
      have hround := hstep 0
      rw [Nat.add_zero, hsplit, follow_add, hn] at hround
      simp [follow] at hround

section update
variable [DecidableEq Node] {d : Node}

theorem onChain_update {x : Node} (v : Option Node) (h : OnChain next x d) :
    OnChain (Function.update next d v) x d := by
  obtain ⟨n, hn⟩ := h
  induction n generalizing x with
  | zero => exact ⟨0, hn⟩
  | succ n ih =>
    by_cases hx : x = d
    · exact ⟨0, by rw [follow, hx]⟩
    · cases hz : next x with
      | none => simp [follow, hz] at hn
      | some z =>
        obtain ⟨k, hk⟩ := ih (x := z) (by simpa [follow, hz] using hn)
        exact ⟨k+1, by simpa [follow, hx, hz] using hk⟩

/-- A chain that misses the redirected node ends as before. -/
theorem ends_update_of_miss {x : Node} (v : Option Node) (hx : Ends next x)
    (h : ¬ OnChain next x d) : Ends (Function.update next d v) x := by
  obtain ⟨n, hn⟩ := hx
  induction n generalizing x with
  | zero => simp [follow] at hn
  | succ n ih =>
    have hne : x ≠ d := fun he => h (he ▸ onChain_self x)
    cases hz : next x with
    | none => exact ends_of_none (by simp [hne, hz])
    | some z =>
      have hmiss : ¬ OnChain next z d := by
        rintro ⟨k, hk⟩
        exact h ⟨k+1, by simpa [follow, hz] using hk⟩
      have hz' : Function.update next d v x = some z := by simp [hne, hz]
      exact (ends_next hz').mpr (ih hmiss (by simpa [follow, hz] using hn))

/-- Where the redirected node has an end, every chain has. -/
theorem finite_update_of_ends {v : Option Node} (hfin : Finite next)
    (hd : Ends (Function.update next d v) d) : Finite (Function.update next d v) := by
  intro x
  obtain ⟨n, hn⟩ := hfin x
  induction n generalizing x with
  | zero => simp [follow] at hn
  | succ n ih =>
    by_cases hx : x = d
    · rw [hx]
      exact hd
    · cases hz : next x with
      | none => exact ends_of_none (by simp [hx, hz])
      | some z =>
        exact (ends_next (by simp [hx, hz])).mpr (ih z (by simpa [follow, hz] using hn))

theorem finite_update_none (hfin : Finite next) : Finite (Function.update next d none) :=
  finite_update_of_ends hfin (ends_of_none (by simp))

theorem finite_update_some {x : Node} (hfin : Finite next) :
    Finite (Function.update next d (some x)) ↔ ¬ OnChain next x d := by
  constructor
  · intro h hc
    exact not_ends_of_cycle (by simp) (onChain_update (some x) hc) (h d)
  · intro h
    apply finite_update_of_ends hfin
    exact (ends_next (by simp)).mpr (ends_update_of_miss _ (hfin x) h)

end update

end Pyrust.PointerChain
