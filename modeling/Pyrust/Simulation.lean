import Mathlib.Data.Set.Image
import Mathlib.Order.WellFounded

/-!
# Observed runs of deterministic machines

A machine takes one step at a time and emits a list of events with it, possibly
none. Two states behave alike when every finite observation of one is a finite
observation of the other. A relation under which the two machines move together,
or one of them moves silently while a rank falls, shows that.
-/

set_option autoImplicit false

namespace Pyrust.Simulation

structure Machine (σ ε : Type*) where
  step : σ → Option (List ε × σ)

namespace Machine

variable {σ τ υ ε : Type*} (M : Machine σ ε)

def trace : ℕ → σ → List ε
  | 0, _ => []
  | n+1, s => match M.step s with
    | none => []
    | some (es, s') => es ++ trace n s'

def behaviours (s : σ) : Set (List ε) := Set.range fun n => M.trace n s

/-- The state after `n` steps, if the machine has not stopped before. -/
def after : ℕ → σ → Option σ
  | 0, s => some s
  | n+1, s => match M.step s with
    | none => none
    | some (_, s') => after n s'

/-- `P` holds of every state of the run from `s`. -/
def Along (P : σ → Prop) (s : σ) : Prop := ∀ n s', M.after n s = some s' → P s'

variable {M}

theorem after_stop {s : σ} (hs : M.step s = none) (n : ℕ) : M.after (n+1) s = none := by
  show (match M.step s with | none => none | some (_, s') => M.after n s') = none
  rw [hs]

theorem after_succ {s s' : σ} {es : List ε} (hs : M.step s = some (es, s')) (n : ℕ) :
    M.after (n+1) s = M.after n s' := by
  show (match M.step s with | none => none | some (_, s') => M.after n s') = _
  rw [hs]

theorem Along.here {P : σ → Prop} {s : σ} (h : M.Along P s) : P s := h 0 s rfl

theorem Along.next {P : σ → Prop} {s s' : σ} {es : List ε} (h : M.Along P s)
    (hs : M.step s = some (es, s')) : M.Along P s' := by
  intro n t ht
  apply h (n+1) t
  rwa [after_succ hs]

theorem along_of_step {P : σ → Prop} (hP : ∀ s es s', P s → M.step s = some (es, s') → P s')
    {s : σ} (h : P s) : M.Along P s := by
  intro n
  induction n generalizing s with
  | zero =>
    intro t ht
    cases ht
    exact h
  | succ n ih =>
    intro t ht
    cases hs : M.step s with
    | none =>
      rw [after_stop hs] at ht
      cases ht
    | some x =>
      rw [after_succ hs] at ht
      exact ih (hP s x.1 x.2 h hs) t ht

theorem after_stopped {k : ℕ} {s : σ} (h : (M.after k s).isNone) (j : ℕ) :
    M.after (k+j) s = none := by
  induction k generalizing s with
  | zero => cases h
  | succ k ih =>
    rw [Nat.add_right_comm]
    cases hs : M.step s with
    | none => exact after_stop hs _
    | some x =>
      rw [after_succ hs] at h ⊢
      exact ih h

/-- A run that stops need only be followed up to there. -/
theorem along_of_stopped {P : σ → Prop} {s : σ} (k : ℕ) (hstop : (M.after k s).isNone)
    (h : ∀ m < k, ∀ s', M.after m s = some s' → P s') : M.Along P s := by
  intro n s' hn
  rcases Nat.lt_or_ge n k with hlt | hge
  · exact h n hlt s' hn
  · obtain ⟨j, rfl⟩ := Nat.exists_eq_add_of_le hge
    rw [after_stopped hstop j] at hn
    cases hn

/-- The invariant need only be kept at states that the run can reach. -/
theorem along_of_along {P Q : σ → Prop}
    (h : ∀ s es s', Q s → P s → M.step s = some (es, s') → Q s') {s : σ} (hs : Q s)
    (ha : M.Along P s) : M.Along Q s := by
  have hboth : M.Along (fun s => Q s ∧ M.Along P s) s := by
    refine along_of_step (P := fun s => Q s ∧ M.Along P s) ?_ ⟨hs, ha⟩
    intro s es s' hq hstep
    exact ⟨h s es s' hq.1 hq.2.here hstep, hq.2.next hstep⟩
  intro n s' hn
  exact (hboth n s' hn).1

theorem trace_stop {s : σ} (hs : M.step s = none) (n : ℕ) : M.trace n s = [] := by
  cases n with
  | zero => rfl
  | succ n =>
    show (match M.step s with | none => [] | some (es, s') => es ++ M.trace n s') = []
    rw [hs]

theorem trace_succ {s s' : σ} {es : List ε} (hs : M.step s = some (es, s')) (n : ℕ) :
    M.trace (n+1) s = es ++ M.trace n s' := by
  show (match M.step s with | none => [] | some (es, s') => es ++ M.trace n s') = _
  rw [hs]

variable {N : Machine τ ε}

/-- One move of two related states: together, both stopped, or one of them silently. -/
inductive Matched (M : Machine σ ε) (N : Machine τ ε) (R : σ → τ → Prop) (rank : σ → τ → ℕ)
    (s : σ) (t : τ) : Prop
  | both (es : List ε) (s' : σ) (t' : τ) : M.step s = some (es, s') → N.step t = some (es, t') →
      R s' t' → Matched M N R rank s t
  | stop : M.step s = none → N.step t = none → Matched M N R rank s t
  | left (s' : σ) : M.step s = some ([], s') → R s' t → rank s' t < rank s t →
      Matched M N R rank s t
  | right (t' : τ) : N.step t = some ([], t') → R s t' → rank s t' < rank s t →
      Matched M N R rank s t

theorem Matched.swap {R : σ → τ → Prop} {rank : σ → τ → ℕ} {s : σ} {t : τ}
    (h : Matched M N R rank s t) :
    Matched N M (fun t s => R s t) (fun t s => rank s t) t s := by
  cases h with
  | both es s' t' hs ht hr => exact .both es t' s' ht hs hr
  | stop hs ht => exact .stop ht hs
  | left s' hs hr hlt => exact .right s' hs hr hlt
  | right t' ht hr hlt => exact .left t' ht hr hlt

/-- Each finite part of the run from `s` shows what a finite part of the run from `t` shows, and
they lead to states that `Q` relates. -/
def Follows (M : Machine σ ε) (N : Machine τ ε) (Q : σ → τ → Prop) (s : σ) (t : τ) : Prop :=
  ∀ n s', M.after n s = some s' →
    ∃ m t', N.after m t = some t' ∧ M.trace n s = N.trace m t ∧ Q s' t'

/-- Two runs that follow each other. -/
structure Tracks (M : Machine σ ε) (N : Machine τ ε) (Q : σ → τ → Prop) (s : σ) (t : τ) : Prop where
  forth : M.Follows N Q s t
  back : N.Follows M (fun t s => Q s t) t s

theorem follows_of_matched {R : σ → τ → Prop} {rank : σ → τ → ℕ}
    (h : ∀ s t, R s t → Matched M N R rank s t) {s : σ} {t : τ} (hst : R s t) :
    M.Follows N R s t := by
  intro n
  -- outer induction on the steps of `M`, inner one on the rank for the silent moves of `N`
  induction n generalizing s t with
  | zero =>
    intro s' hs
    cases hs
    exact ⟨0, t, rfl, rfl, hst⟩
  | succ n ih =>
    intro s' hs
    induction hk : rank s t using Nat.strong_induction_on generalizing t with
    | _ k ihk =>
      cases h s t hst with
      | both es s₁ t₁ hs₁ ht₁ hr =>
        obtain ⟨m, t', ht', htr, hr'⟩ := ih hr s' (by rwa [after_succ hs₁] at hs)
        exact ⟨m+1, t', by rwa [after_succ ht₁],
          by rw [trace_succ hs₁, trace_succ ht₁, htr], hr'⟩
      | stop hs₁ ht₁ =>
        rw [after_stop hs₁] at hs
        cases hs
      | left s₁ hs₁ hr hlt =>
        obtain ⟨m, t', ht', htr, hr'⟩ := ih hr s' (by rwa [after_succ hs₁] at hs)
        exact ⟨m, t', ht', by rw [trace_succ hs₁, htr]; rfl, hr'⟩
      | right t₁ ht₁ hr hlt =>
        obtain ⟨m, t', ht', htr, hr'⟩ := ihk _ (hk ▸ hlt) hr rfl
        exact ⟨m+1, t', by rwa [after_succ ht₁], by rw [htr, trace_succ ht₁]; rfl, hr'⟩

theorem tracks_of_matched {R : σ → τ → Prop} {rank : σ → τ → ℕ}
    (h : ∀ s t, R s t → Matched M N R rank s t) {s : σ} {t : τ} (hst : R s t) :
    M.Tracks N R s t :=
  ⟨follows_of_matched h hst,
    follows_of_matched (R := fun t s => R s t) (fun t s hts => (h s t hts).swap) hst⟩

theorem Tracks.refl {Q : σ → σ → Prop} (hq : ∀ s, Q s s) (s : σ) : M.Tracks M Q s s :=
  ⟨fun n s' h => ⟨n, s', h, rfl, hq s'⟩, fun n s' h => ⟨n, s', h, rfl, hq s'⟩⟩

theorem Follows.mono {Q Q' : σ → τ → Prop} (hq : ∀ s t, Q s t → Q' s t) {s : σ} {t : τ}
    (h : M.Follows N Q s t) : M.Follows N Q' s t := by
  intro n s' hs
  obtain ⟨m, t', ht, htr, hr⟩ := h n s' hs
  exact ⟨m, t', ht, htr, hq s' t' hr⟩

theorem Tracks.mono {Q Q' : σ → τ → Prop} (hq : ∀ s t, Q s t → Q' s t) {s : σ} {t : τ}
    (h : M.Tracks N Q s t) : M.Tracks N Q' s t :=
  ⟨h.forth.mono hq, h.back.mono fun t s => hq s t⟩

theorem Follows.trans {P : Machine υ ε} {Q : σ → τ → Prop} {Q' : τ → υ → Prop} {s : σ} {t : τ}
    {u : υ} (h : M.Follows N Q s t) (h' : N.Follows P Q' t u) :
    M.Follows P (Relation.Comp Q Q') s u := by
  intro n s' hs
  obtain ⟨m, t', ht, htr, hr⟩ := h n s' hs
  obtain ⟨k, u', hu, htr', hr'⟩ := h' m t' ht
  exact ⟨k, u', hu, htr.trans htr', t', hr, hr'⟩

theorem Tracks.trans {P : Machine υ ε} {Q : σ → τ → Prop} {Q' : τ → υ → Prop} {s : σ} {t : τ}
    {u : υ} (h : M.Tracks N Q s t) (h' : N.Tracks P Q' t u) :
    M.Tracks P (Relation.Comp Q Q') s u := by
  refine ⟨h.forth.trans h'.forth, (h'.back.trans h.back).mono ?_⟩
  rintro u s ⟨t, hu, ht⟩
  exact ⟨t, ht, hu⟩

/-- What a run shows, it shows before it stops. -/
theorem trace_after (n : ℕ) (s : σ) :
    ∃ k s', M.after k s = some s' ∧ M.trace n s = M.trace k s := by
  induction n generalizing s with
  | zero => exact ⟨0, s, rfl, rfl⟩
  | succ n ih =>
    cases hs : M.step s with
    | none => exact ⟨0, s, rfl, trace_stop hs _⟩
    | some x =>
      obtain ⟨k, s', hk, htr⟩ := ih x.2
      exact ⟨k+1, s', by rwa [after_succ hs], by rw [trace_succ hs, trace_succ hs, htr]⟩

theorem Follows.behaviours_sub {Q : σ → τ → Prop} {s : σ} {t : τ} (h : M.Follows N Q s t) :
    M.behaviours s ⊆ N.behaviours t := by
  rintro _ ⟨n, rfl⟩
  obtain ⟨k, s', hs, htr⟩ := trace_after (M := M) n s
  obtain ⟨m, t', -, hm, -⟩ := h k s' hs
  exact ⟨m, hm.symm.trans htr.symm⟩

theorem Tracks.behaviours_eq {Q : σ → τ → Prop} {s : σ} {t : τ} (h : M.Tracks N Q s t) :
    M.behaviours s = N.behaviours t :=
  Set.Subset.antisymm h.forth.behaviours_sub h.back.behaviours_sub

theorem Matched.along {R : σ → τ → Prop} {rank : σ → τ → ℕ} {P : σ → Prop} {s : σ} {t : τ}
    (h : Matched M N R rank s t) (ha : M.Along P s) :
    Matched M N (fun s t => R s t ∧ M.Along P s) rank s t := by
  cases h with
  | both es s' t' hs ht hr => exact .both es s' t' hs ht ⟨hr, ha.next hs⟩
  | stop hs ht => exact .stop hs ht
  | left s' hs hr hlt => exact .left s' hs ⟨hr, ha.next hs⟩ hlt
  | right t' ht hr hlt => exact .right t' ht ⟨hr, ha⟩ hlt

/-- The relation need only be kept at states that the run from `s` can reach. -/
theorem tracks_along {R : σ → τ → Prop} {rank : σ → τ → ℕ} {P : σ → Prop}
    (h : ∀ s t, R s t → P s → Matched M N R rank s t) {s : σ} {t : τ} (hst : R s t)
    (ha : M.Along P s) : M.Tracks N R s t := by
  have htracks : M.Tracks N (fun s t => R s t ∧ M.Along P s) s t := by
    have hmatched : ∀ s t, R s t ∧ M.Along P s →
        Matched M N (fun s t => R s t ∧ M.Along P s) rank s t := by
      intro s t hst
      exact (h s t hst.1 hst.2.here).along hst.2
    exact tracks_of_matched hmatched ⟨hst, ha⟩
  exact htracks.mono fun s t hst => hst.1

theorem behaviours_eq_along {R : σ → τ → Prop} {rank : σ → τ → ℕ} {P : σ → Prop}
    (h : ∀ s t, R s t → P s → Matched M N R rank s t) {s : σ} {t : τ} (hst : R s t)
    (ha : M.Along P s) : M.behaviours s = N.behaviours t :=
  (tracks_along h hst ha).behaviours_eq

theorem trace_stopped {k : ℕ} {s : σ} (h : (M.after (k+1) s).isNone) (j : ℕ) :
    M.trace (k+j) s = M.trace k s := by
  induction k generalizing s with
  | zero =>
    cases hs : M.step s with
    | none => rw [trace_stop hs, trace_stop hs]
    | some x =>
      rw [after_succ hs] at h
      cases h
  | succ k ih =>
    cases hs : M.step s with
    | none => rw [trace_stop hs, trace_stop hs]
    | some x =>
      have h' : (M.after (k+1) x.2).isNone := by
        rwa [after_succ hs] at h
      rw [Nat.add_right_comm, trace_succ hs, trace_succ hs, ih h']

/-- The same machine, with its events seen through `f`. -/
def mapEvents {ε' : Type*} (f : ε → ε') (M : Machine σ ε) : Machine σ ε' where
  step s := (M.step s).map fun r => (r.1.map f, r.2)

theorem mapEvents_step {ε' : Type*} (f : ε → ε') {s s' : σ} {es : List ε}
    (h : M.step s = some (es, s')) : (M.mapEvents f).step s = some (es.map f, s') := by
  simp [mapEvents, h]

theorem after_mapEvents {ε' : Type*} (f : ε → ε') (n : ℕ) (s : σ) :
    (M.mapEvents f).after n s = M.after n s := by
  induction n generalizing s with
  | zero => rfl
  | succ n ih =>
    cases hs : M.step s with
    | none => rw [after_stop hs, after_stop (by simp [mapEvents, hs])]
    | some x => rw [after_succ hs, after_succ (mapEvents_step f hs), ih]

theorem Matched.mapEvents {ε' : Type*} (f : ε → ε') {R : σ → τ → Prop} {rank : σ → τ → ℕ}
    {s : σ} {t : τ} (h : Matched M N R rank s t) :
    Matched (M.mapEvents f) (N.mapEvents f) R rank s t := by
  cases h with
  | both es s' t' hs ht hr =>
    exact .both (es.map f) s' t' (mapEvents_step f hs) (mapEvents_step f ht) hr
  | stop hs ht => exact .stop (by simp [Machine.mapEvents, hs]) (by simp [Machine.mapEvents, ht])
  | left s' hs hr hlt => exact .left s' (mapEvents_step f hs) hr hlt
  | right t' ht hr hlt => exact .right t' (mapEvents_step f ht) hr hlt

/-- A trace of one machine that a stopping run of the other never shows. -/
theorem behaviours_ne {β : Type*} (f : List ε → β) (n k : ℕ) {s : σ} {t : τ}
    (hstop : (N.after (k+1) t).isNone)
    (h : ∀ m ∈ List.range (k+1), f (M.trace n s) ≠ f (N.trace m t)) :
    M.behaviours s ≠ N.behaviours t := by
  intro heq
  have hmem : M.trace n s ∈ N.behaviours t := by
    rw [← heq]
    exact ⟨n, rfl⟩
  obtain ⟨m, hm⟩ := hmem
  rcases Nat.lt_or_ge m (k+1) with hlt | hge
  · exact h m (List.mem_range.mpr hlt) (congrArg f hm.symm)
  · obtain ⟨j, rfl⟩ := Nat.exists_eq_add_of_le (Nat.le_of_succ_le hge)
    apply h k (by simp)
    rw [← trace_stopped hstop j]
    exact congrArg f hm.symm

end Machine

end Pyrust.Simulation
