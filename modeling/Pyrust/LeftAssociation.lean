import Mathlib.Data.List.Basic
import Mathlib.Tactic.Common

/-!
# Parsers for left-associative levels

A level of a recursive-descent parser reads one item with the parser of the
next level and then, as long as an operator of its own follows, another item,
nesting to the left. Nothing here knows the tokens, the operators or the trees.
-/

set_option autoImplicit false

namespace Pyrust.LeftAssociation

universe u
variable {τ α ο ε : Type u}

/-- A parser answers with a tree and the tokens after it, or fails. -/
abbrev Parse (τ α ε : Type u) := List τ → Except ε (α × List τ)

/-- What a parser that reads exactly `ts` and finds `r` answers before `rest`. -/
def result (r : Except ε α) (rest : List τ) : Except ε (α × List τ) :=
  r.map fun e => (e, rest)

/-- In front of `rest` the parser reads exactly `ts`, with outcome `r`. -/
def Reads (p : Parse τ α ε) (ts : List τ) (r : Except ε α) (rest : List τ) : Prop :=
  p (ts ++ rest) = result r rest

@[simp] theorem result_ok (e : α) (rest : List τ) :
    result (.ok e : Except ε α) rest = .ok (e, rest) := rfl

@[simp] theorem result_error (m : ε) (rest : List τ) :
    result (.error m : Except ε α) rest = .error m := rfl

theorem result_eq_ok {r : Except ε α} {e : α} {rest : List τ} :
    result r rest = .ok (e, rest) ↔ r = .ok e := by
  cases r <;> simp

section
variable (stuck : ε) (combine : α → ο → α → α) (op : τ → Option ο) (next : Parse τ α ε)

/-- `while let Some(o) = op(current) { bump; right = next()?; expr = combine(expr, o, right) }`,
for at most as many rounds as the fuel says. -/
def loop : ℕ → α → Parse τ α ε
  | 0, _, _ => .error stuck
  | _ + 1, expr, [] => .ok (expr, [])
  | fuel + 1, expr, t :: ts =>
    match op t with
    | none => .ok (expr, t :: ts)
    | some o => do
      let (right, ts) ← next ts
      loop fuel (combine expr o right) ts

/-- `expr = next()?` and then the loop; each round reads a token, so there are
at most as many rounds as tokens. -/
def level : Parse τ α ε := fun ts => do
  let (expr, ts) ← next ts
  loop stuck combine op next (ts.length + 1) expr ts

/-- The level reads `ts` and reaches its loop in front of `rest`, with fuel for
all that is left. -/
def Reaches (ts : List τ) (r : Except ε α) (rest : List τ) : Prop :=
  ∃ fuel, rest.length ≤ fuel ∧ level stuck combine op next (ts ++ rest) =
    r.bind fun e => loop stuck combine op next (fuel + 1) e rest

end

section
variable {stuck : ε} {combine : α → ο → α → α} {op : τ → Option ο} {next : Parse τ α ε}

attribute [local simp] loop in
theorem loop_stop (fuel : ℕ) (e : α) {rest : List τ}
    (h : ∀ t ∈ rest.head?, op t = none) :
    loop stuck combine op next (fuel + 1) e rest = .ok (e, rest) := by
  cases rest with
  | nil => rfl
  | cons t rest =>
    have ht : op t = none := h t (by simp)
    simp [loop, ht]

theorem loop_step {fuel : ℕ} {e : α} {t : τ} {o : ο} {ts rest : List τ} {r : Except ε α}
    (ho : op t = some o) (h : Reads next ts r rest) :
    loop stuck combine op next (fuel + 1) e (t :: (ts ++ rest)) =
      r.bind fun x => loop stuck combine op next fuel (combine e o x) rest := by
  have hn : next (ts ++ rest) = result r rest := h
  cases r <;> simp [loop, ho, hn, bind, Except.bind]

/-- What the next level reads, the level reads as its first item. -/
theorem Reaches.first {ts rest : List τ} {r : Except ε α} (h : Reads next ts r rest) :
    Reaches stuck combine op next ts r rest := by
  have hn : next (ts ++ rest) = result r rest := h
  refine ⟨rest.length, Nat.le_refl _, ?_⟩
  cases r <;> simp [level, hn, bind, Except.bind]

/-- One round of the loop: an operator of the level and one more item. -/
theorem Reaches.item {ts us rest : List τ} {l r : Except ε α} {t : τ} {o : ο}
    (h : Reaches stuck combine op next ts l (t :: (us ++ rest))) (ho : op t = some o)
    (hr : Reads next us r rest) :
    Reaches stuck combine op next (ts ++ t :: us)
      (l.bind fun a => r.bind fun b => .ok (combine a o b)) rest := by
  obtain ⟨fuel, hfuel, h⟩ := h
  have hpos : rest.length + 1 ≤ fuel := by
    simp only [List.length_cons, List.length_append] at hfuel
    omega
  obtain ⟨k, rfl⟩ : ∃ k, fuel = k + 1 := ⟨fuel - 1, by omega⟩
  refine ⟨k, by omega, ?_⟩
  rw [List.append_assoc, List.cons_append, h]
  cases l with
  | error m => rfl
  | ok a =>
    simp only [Except.bind, loop_step ho hr]
    cases r <;> rfl

/-- In front of a token that is no operator of the level the loop ends. -/
theorem Reaches.reads {ts rest : List τ} {r : Except ε α}
    (h : Reaches stuck combine op next ts r rest) (hrest : ∀ t ∈ rest.head?, op t = none) :
    Reads (level stuck combine op next) ts r rest := by
  obtain ⟨fuel, -, h⟩ := h
  show level stuck combine op next (ts ++ rest) = result r rest
  rw [h]
  cases r with
  | error m => rfl
  | ok e => exact loop_stop fuel e hrest

/-- What the next level reads, the level reads too, unless one of its operators follows. -/
theorem Reads.level {ts rest : List τ} {r : Except ε α} (h : Reads next ts r rest)
    (hrest : ∀ t ∈ rest.head?, op t = none) :
    Reads (level stuck combine op next) ts r rest :=
  (Reaches.first h).reads hrest

end

end Pyrust.LeftAssociation
