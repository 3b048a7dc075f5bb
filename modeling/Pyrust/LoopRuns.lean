import Pyrust.ScanLoop

/-!
# Runs of a loop that ends with a value

A loop that returns a value comes to the round that stops with it, and no round
on the way reports an error. What every round keeps holds wherever the loop
comes to.
-/

set_option autoImplicit false

namespace Pyrust.ScanLoop

universe u v
variable {ε : Type*} {β σ : Type u} {step : ℕ → σ → Scan ε (Move σ β)} {fuel pos pos' : ℕ}
  {s s' : σ} {b b' : β}

/-- A scan that goes on behind another one and returns. -/
theorem bind_ok {α γ : Type v} {x : Scan ε α} {f : α → Scan ε γ} {c : γ}
    (h : (x >>= f) = .ok c) : ∃ a, x = .ok a ∧ f a = .ok c := by
  cases x with
  | error e => cases h
  | ok a => exact ⟨a, rfl, h⟩

theorem lift_ok {α : Type*} {x : Except ε α} {a : α} (h : (lift x : Scan ε α) = .ok a) :
    x = .ok a := by
  cases x with
  | error e => cases h
  | ok b =>
    cases h
    rfl

/-- The loop from here on returns the value. -/
def Returns (step : ℕ → σ → Scan ε (Move σ β)) (pos : ℕ) (s : σ) (b : β) : Prop :=
  ∃ fuel, run step fuel pos s = .ok b

theorem Reaches.trans {pos'' : ℕ} {s'' : σ} (h : Reaches step pos s pos' s')
    (h' : Reaches step pos' s' pos'' s'') : Reaches step pos s pos'' s'' := by
  induction h with
  | here => exact h'
  | move hstep _ ih => exact .move hstep (ih h')

theorem Reaches.snoc {pos'' : ℕ} {s'' : σ} (h : Reaches step pos s pos' s')
    (hstep : step pos' s' = .ok (.on pos'' s'')) : Reaches step pos s pos'' s'' :=
  h.trans (.move hstep (.here _ _))

/-- The invariant rule for what the loop comes to. -/
theorem Reaches.keeps {inv : ℕ → σ → Prop} (h : Reaches step pos s pos' s')
    (hstep : ∀ pos s pos' s', inv pos s → step pos s = .ok (.on pos' s') → inv pos' s')
    (hinv : inv pos s) : inv pos' s' := by
  induction h with
  | here => exact hinv
  | move hmove _ ih => exact ih (hstep _ _ _ _ hinv hmove)

/-- A round of a loop that returns either stops with the value or goes on to return it. -/
theorem Returns.round (h : Returns step pos s b) :
    step pos s = .ok (.stop b) ∨
      ∃ pos' s', step pos s = .ok (.on pos' s') ∧ Returns step pos' s' b := by
  obtain ⟨fuel, hrun⟩ := h
  cases fuel with
  | zero => cases hrun
  | succ fuel =>
    rw [run] at hrun
    cases hstep : step pos s with
    | error e =>
      rw [hstep] at hrun
      cases hrun
    | ok move =>
      rw [hstep] at hrun
      cases move with
      | stop b' =>
        cases hrun
        exact Or.inl rfl
      | on pos' s' => exact Or.inr ⟨pos', s', rfl, fuel, hrun⟩

theorem Returns.reaches (h : Returns step pos s b) (hr : Reaches step pos s pos' s') :
    Returns step pos' s' b := by
  induction hr with
  | here => exact h
  | move hmove _ ih =>
    rcases h.round with hstop | ⟨pos₁, s₁, hon, hrest⟩
    · cases hmove.symm.trans hstop
    · cases hmove.symm.trans hon
      exact ih hrest

/-- A loop that returns comes to the round that stops. -/
theorem Returns.stops (h : Returns step pos s b) :
    ∃ pos' s', Reaches step pos s pos' s' ∧ step pos' s' = .ok (.stop b) := by
  obtain ⟨fuel, hrun⟩ := h
  induction fuel generalizing pos s with
  | zero => cases hrun
  | succ fuel ih =>
    rcases Returns.round ⟨fuel+1, hrun⟩ with hstop | ⟨pos₁, s₁, hon, -⟩
    · exact ⟨pos, s, .here _ _, hstop⟩
    · rw [run_on hon] at hrun
      obtain ⟨pos', s', hr, hstop⟩ := ih hrun
      exact ⟨pos', s', .move hon hr, hstop⟩

theorem Returns.of_stop (h : Returns step pos s b) (hr : Reaches step pos s pos' s')
    (hstop : step pos' s' = .ok (.stop b')) : b' = b := by
  rcases (h.reaches hr).round with hsame | ⟨pos₁, s₁, hon, -⟩
  · cases hstop.symm.trans hsame
    rfl
  · cases hstop.symm.trans hon

end Pyrust.ScanLoop
