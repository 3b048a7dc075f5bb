import Mathlib.Data.Nat.Notation
import Mathlib.Tactic.Common

/-!
# Loops over a text

A loop looks at a position and ends, goes on at another one, or stops. Counters
and slices are checked: a counter below zero and a slice that leaves the text
stop the scan, as does a loop that has used up its rounds. A loop whose rounds
all go forward inside the text never does the last, and the rule for it says
exactly when a counter falls below zero.
-/

set_option autoImplicit false

namespace Pyrust.ScanLoop

/-- Why a scan ends without a value: an error it reports, a counter below zero, an index outside
the text, or rounds used up. -/
inductive Stop (ε : Type*) where
  | error (e : ε)
  | underflow
  | range
  | spin
  deriving DecidableEq, Repr

abbrev Scan (ε α : Type*) := Except (Stop ε) α

section checks
variable {ε α : Type*}

def fail (e : ε) : Scan ε α := .error (.error e)

def lift : Except ε α → Scan ε α
  | .ok a => .ok a
  | .error e => fail e

/-- Subtraction on a counter without sign. -/
def sub (a b : ℕ) : Scan ε ℕ := if b ≤ a then .ok (a-b) else .error .underflow

/-- `xs[first..last]`. -/
def sliceOf (xs : List α) (first last : ℕ) : Scan ε (List α) :=
  if first ≤ last ∧ last ≤ xs.length then .ok ((xs.take last).drop first) else .error .range

/-- `xs[i]`. -/
def index (xs : List α) (i : ℕ) : Scan ε α :=
  match xs[i]? with
  | some x => .ok x
  | none => .error .range

theorem sub_of_le {a b : ℕ} (h : b ≤ a) : (sub a b : Scan ε ℕ) = .ok (a-b) := if_pos h

theorem sliceOf_of_le {xs : List α} {first last : ℕ} (h : first ≤ last) (hl : last ≤ xs.length) :
    (sliceOf xs first last : Scan ε (List α)) = .ok ((xs.take last).drop first) :=
  if_pos ⟨h, hl⟩

theorem index_of_some {xs : List α} {i : ℕ} {x : α} (h : xs[i]? = some x) :
    (index xs i : Scan ε α) = .ok x := by
  simp [index, h]

end checks

section spans
variable {α : Type*} (p : α → Bool) (xs : List α)

/-- Where the run of matching elements from `pos` on ends. -/
def spanEnd (pos : ℕ) : ℕ := pos + ((xs.drop pos).takeWhile p).length

theorem le_spanEnd (pos : ℕ) : pos ≤ spanEnd p xs pos := Nat.le_add_right _ _

theorem spanEnd_le {pos : ℕ} (h : pos ≤ xs.length) : spanEnd p xs pos ≤ xs.length := by
  have hle := (List.takeWhile_prefix p (l := xs.drop pos)).length_le
  rw [List.length_drop] at hle
  unfold spanEnd
  omega

theorem lt_spanEnd {p xs} {pos : ℕ} {x : α} (hx : xs[pos]? = some x) (hp : p x) :
    pos < spanEnd p xs pos := by
  have hdrop : xs.drop pos = x :: xs.drop (pos+1) :=
    List.drop_eq_getElem?_toList_append.trans (by simp [hx])
  simp [spanEnd, hdrop, hp]

theorem getElem?_spanEnd {p xs} {pos : ℕ} {x : α} (hx : xs[spanEnd p xs pos]? = some x) :
    p x = false := by
  rw [spanEnd, ← List.getElem?_drop] at hx
  have hsplit := List.takeWhile_append_dropWhile (p := p) (l := xs.drop pos)
  rw [← hsplit, List.getElem?_append_right (by simp)] at hx
  simp only [hsplit, Nat.sub_self] at hx
  cases hd : (xs.drop pos).dropWhile p with
  | nil => simp [hd] at hx
  | cons y ys =>
    have := List.head_dropWhile_not p (l := xs.drop pos) (by simp [hd])
    simp_all

/-- Inside the run every element matches. -/
theorem getElem?_span {p xs} {pos i : ℕ} {x : α} (hle : pos ≤ i) (hlt : i < spanEnd p xs pos)
    (hx : xs[i]? = some x) : p x := by
  obtain ⟨k, rfl⟩ := Nat.exists_eq_add_of_le hle
  have hk : k < ((xs.drop pos).takeWhile p).length := by
    unfold spanEnd at hlt
    omega
  rw [← List.getElem?_drop, ← List.takeWhile_append_dropWhile (p := p) (l := xs.drop pos),
    List.getElem?_append_left hk] at hx
  exact List.all_eq_true.mp List.all_takeWhile x (List.mem_of_getElem? hx)

end spans

section loops
universe u
variable {ε : Type*} {α β σ : Type u}

/-- The end of a round. -/
inductive Move (σ β : Type*) where
  | stop (b : β)
  | on (pos : ℕ) (s : σ)

/-- The loop, for so many rounds. -/
def run (step : ℕ → σ → Scan ε (Move σ β)) : ℕ → ℕ → σ → Scan ε β
  | 0, _, _ => .error .spin
  | fuel+1, pos, s => match step pos s with
    | .error e => .error e
    | .ok (.stop b) => .ok b
    | .ok (.on pos' s') => run step fuel pos' s'

section equations
variable {step : ℕ → σ → Scan ε (Move σ β)} {fuel pos : ℕ} {s : σ}

theorem run_succ : run step (fuel+1) pos s = match step pos s with
    | .error e => .error e
    | .ok (.stop b) => .ok b
    | .ok (.on pos' s') => run step fuel pos' s' := rfl

theorem run_stop {b : β} (h : step pos s = .ok (.stop b)) : run step (fuel+1) pos s = .ok b := by
  rw [run_succ, h]

theorem run_on {pos' : ℕ} {s' : σ} (h : step pos s = .ok (.on pos' s')) :
    run step (fuel+1) pos s = run step fuel pos' s' := by
  rw [run_succ, h]

theorem run_error {e : Stop ε} (h : step pos s = .error e) :
    run step (fuel+1) pos s = .error e := by
  rw [run_succ, h]

end equations

/-- The loop comes to a position and a state. -/
inductive Reaches (step : ℕ → σ → Scan ε (Move σ β)) : ℕ → σ → ℕ → σ → Prop
  | here (pos : ℕ) (s : σ) : Reaches step pos s pos s
  | move {pos pos₁ pos' : ℕ} {s s₁ s' : σ} : step pos s = .ok (.on pos₁ s₁) →
      Reaches step pos₁ s₁ pos' s' → Reaches step pos s pos' s'

/-- The scan ends with a value as `post` says or with an error it reports; where `bad` holds, and
only there, a counter falls below zero instead. -/
def Gives (bad : Prop) (post : α → Prop) : Scan ε α → Prop
  | .ok a => ¬bad ∧ post a
  | .error (.error _) => ¬bad
  | .error .underflow => bad
  | .error _ => False

variable {bad : Prop} {post : α → Prop}

theorem gives_ok {a : α} (h : post a) : Gives False post (.ok a : Scan ε α) := ⟨id, h⟩

theorem gives_pure {a : α} (h : post a) : Gives False post (pure a : Scan ε α) := ⟨id, h⟩

theorem gives_fail (e : ε) : Gives False post (fail e : Scan ε α) := id

theorem gives_ite {c : Prop} [Decidable c] {x y : Scan ε α} (hx : c → Gives bad post x)
    (hy : ¬c → Gives bad post y) : Gives bad post (if c then x else y) := by
  by_cases h : c
  · rw [if_pos h]
    exact hx h
  · rw [if_neg h]
    exact hy h

theorem Gives.iff {bad' : Prop} {x : Scan ε α} (h : Gives bad post x) (hb : bad ↔ bad') :
    Gives bad' post x := by
  rwa [propext hb] at h

theorem Gives.mono {post' : α → Prop} {x : Scan ε α} (h : Gives bad post x)
    (hp : ∀ a, post a → post' a) : Gives bad post' x := by
  match x with
  | .ok a => exact ⟨h.1, hp a h.2⟩
  | .error (.error _) => exact h
  | .error .underflow => exact h
  | .error .range | .error .spin => exact h

/-- What is done with a value cannot fail a counter. -/
theorem Gives.bind {f : α → Scan ε β} {post' : β → Prop} {x : Scan ε α} (h : Gives bad post x)
    (hf : ∀ a, post a → Gives False post' (f a)) : Gives bad post' (x >>= f) := by
  match x with
  | .ok a =>
    have hbad : False ↔ bad := (iff_false_intro h.1).symm
    exact (hf a h.2).iff hbad
  | .error (.error _) => exact h
  | .error .underflow => exact h
  | .error .range | .error .spin => exact h

/-- Only what is done with a value can fail a counter. -/
theorem Gives.bind_bad {f : α → Scan ε β} {post' : β → Prop} {x : Scan ε α} {bad' : α → Prop}
    (h : Gives False post x) (hf : ∀ a, post a → Gives (bad' a) post' (f a)) :
    Gives (∃ a, x = .ok a ∧ bad' a) post' (x >>= f) := by
  match x with
  | .ok a =>
    refine (hf a h.2).iff ⟨fun hb => ⟨a, rfl, hb⟩, ?_⟩
    rintro ⟨b, heq, hb⟩
    cases heq
    exact hb
  | .error (.error _) =>
    rintro ⟨b, heq, -⟩
    cases heq
  | .error .underflow => exact h.elim
  | .error .range | .error .spin => exact h

theorem gives_lift {x : Except ε α} (h : ∀ a, x = .ok a → post a) :
    Gives False post (lift x) := by
  cases x with
  | ok a => exact gives_ok (h a rfl)
  | error e => exact gives_fail e

theorem gives_sub {a b : ℕ} (h : b ≤ a) : Gives False (· = a-b) (sub a b : Scan ε ℕ) := by
  rw [sub_of_le h]
  exact gives_ok rfl

theorem gives_slice {xs : List α} {first last : ℕ} (h : first ≤ last) (hl : last ≤ xs.length) :
    Gives False (· = (xs.take last).drop first) (sliceOf xs first last : Scan ε (List α)) := by
  rw [sliceOf_of_le h hl]
  exact gives_ok rfl

theorem exists_reaches_iff {step : ℕ → σ → Scan ε (Move σ β)} {pos : ℕ} {s : σ}
    {bad : ℕ → σ → Prop} : (∃ pos' s', Reaches step pos s pos' s' ∧ bad pos' s') ↔
      bad pos s ∨ ∃ pos₁ s₁, step pos s = .ok (.on pos₁ s₁) ∧
        ∃ pos' s', Reaches step pos₁ s₁ pos' s' ∧ bad pos' s' := by
  constructor
  · rintro ⟨pos', s', hr, hb⟩
    cases hr with
    | here => exact .inl hb
    | move hstep hr => exact .inr ⟨_, _, hstep, _, _, hr, hb⟩
  · rintro (hb | ⟨pos₁, s₁, hstep, pos', s', hr, hb⟩)
    · exact ⟨pos, s, .here _ _, hb⟩
    · exact ⟨pos', s', .move hstep hr, hb⟩

/-- A round that ends the loop as `post` says, or goes forward up to `n` and keeps `inv`. -/
def Forward (n : ℕ) (inv : ℕ → σ → Prop) (post : β → Prop) (pos : ℕ) : Move σ β → Prop
  | .stop b => post b
  | .on pos' s' => pos < pos' ∧ pos' ≤ n ∧ inv pos' s'

/-- The rule for loops: rounds that go forward end, and a counter falls below zero exactly when
the loop comes to a round in which it does. -/
theorem run_gives {step : ℕ → σ → Scan ε (Move σ β)} {n : ℕ} {bad inv : ℕ → σ → Prop}
    {post : β → Prop} (hstep : ∀ pos s, pos ≤ n → inv pos s →
      Gives (bad pos s) (Forward n inv post pos) (step pos s))
    {fuel pos : ℕ} {s : σ} (hpos : pos ≤ n) (hinv : inv pos s) (hfuel : n < pos + fuel) :
    Gives (∃ pos' s', Reaches step pos s pos' s' ∧ bad pos' s') post (run step fuel pos s) := by
  induction fuel generalizing pos s with
  | zero => omega
  | succ fuel ih =>
    have h := hstep pos s hpos hinv
    refine Gives.iff ?_ exists_reaches_iff.symm
    rw [run_succ]
    match heq : step pos s with
    | .ok (.stop b) =>
      rw [heq] at h
      refine ⟨?_, h.2⟩
      rintro (hb | ⟨pos₁, s₁, hcontra, -⟩)
      · exact h.1 hb
      · cases hcontra
    | .ok (.on pos' s') =>
      rw [heq] at h
      obtain ⟨hlt, hle, hinv'⟩ := h.2
      refine (ih hle hinv' (by omega)).iff ⟨fun hr => .inr ⟨pos', s', rfl, hr⟩, ?_⟩
      rintro (hb | ⟨pos₁, s₁, hsame, hr⟩)
      · exact absurd hb h.1
      · cases hsame
        exact hr
    | .error (.error _) =>
      rw [heq] at h
      rintro (hb | ⟨pos₁, s₁, hcontra, -⟩)
      · exact h hb
      · cases hcontra
    | .error .underflow =>
      rw [heq] at h
      exact .inl h
    | .error .range | .error .spin =>
      rw [heq] at h
      exact h

/-- A loop none of whose rounds can fail a counter. -/
theorem run_gives_sound {step : ℕ → σ → Scan ε (Move σ β)} {n : ℕ} {inv : ℕ → σ → Prop}
    {post : β → Prop} (hstep : ∀ pos s, pos ≤ n → inv pos s →
      Gives False (Forward n inv post pos) (step pos s))
    {fuel pos : ℕ} {s : σ} (hpos : pos ≤ n) (hinv : inv pos s) (hfuel : n < pos + fuel) :
    Gives False post (run step fuel pos s) := by
  have hgives := @run_gives _ _ _ step n (fun _ _ => False) inv post hstep fuel pos s hpos hinv
    hfuel
  refine hgives.iff ?_
  simp

end loops

end Pyrust.ScanLoop
