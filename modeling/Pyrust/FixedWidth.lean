import Mathlib.Algebra.Group.Int.Defs
import Mathlib.Algebra.Group.Nat.Defs

/-!
# Fixed-width arithmetic over the integers

A computation on machine words stops for one of two reasons. It declines, because
a checked operation has no result in its type, or an operation that is not
checked leaves its type, which is what a debug build reports as an overflow.
-/

set_option autoImplicit false

namespace Pyrust.FixedWidth

inductive Stop where
  | declined | overflow
  deriving DecidableEq, Repr

/-- The values of the signed type of width `w`. -/
def Fits (w : ℕ) (v : ℤ) : Prop := -2^(w-1) ≤ v ∧ v < 2^(w-1)

instance (w : ℕ) (v : ℤ) : Decidable (Fits w v) := inferInstanceAs (Decidable (_ ∧ _))

theorem fits_64 {v : ℤ} :
    Fits 64 v ↔ -9223372036854775808 ≤ v ∧ v < 9223372036854775808 := by
  simp [Fits]

theorem fits_128 {v : ℤ} :
    Fits 128 v ↔ -170141183460469231731687303715884105728 ≤ v ∧
      v < 170141183460469231731687303715884105728 := by
  simp [Fits]

/-- A checked operation of the signed type of width `w`. -/
def checked (w : ℕ) (v : ℤ) : Option ℤ := if Fits w v then some v else none

/-- An operation of the signed type of width `w` that is not checked. -/
def native (w : ℕ) (v : ℤ) : Except Stop ℤ := if Fits w v then .ok v else .error .overflow

/-- An operation of `u64` that is not checked. -/
def unsigned (v : ℤ) : Except Stop ℤ :=
  if 0 ≤ v ∧ v < 2^64 then .ok v else .error .overflow

/-- The `?` of the source. -/
def orDecline {α : Type} : Option α → Except Stop α
  | some a => .ok a
  | none => .error .declined

theorem checked_some {w : ℕ} {v x : ℤ} (h : checked w v = some x) : x = v ∧ Fits w v := by
  rw [checked] at h
  by_cases hf : Fits w v
  · simp only [hf, if_true, Option.some.injEq] at h
    exact ⟨h.symm, hf⟩
  · simp [hf] at h

theorem native_ok {w : ℕ} {v : ℤ} (h : Fits w v) : native w v = .ok v := by
  simp [native, h]

theorem unsigned_ok {v : ℤ} (h : 0 ≤ v) (hlt : v < 2^64) : unsigned v = .ok v := by
  exact if_pos ⟨h, hlt⟩

section binds
variable {α β : Type}

theorem orDecline_ok {o : Option α} {a : α} : orDecline o = .ok a ↔ o = some a := by
  cases o <;> simp [orDecline]

theorem orDecline_ne_overflow (o : Option α) : orDecline o ≠ .error .overflow := by
  cases o <;> simp [orDecline]

@[simp] theorem ok_bind (a : α) (f : α → Except Stop β) :
    ((Except.ok a : Except Stop α) >>= f) = f a := rfl

theorem bind_ok {x : Except Stop α} {f : α → Except Stop β} {b : β} (h : x >>= f = .ok b) :
    ∃ a, x = .ok a ∧ f a = .ok b := by
  cases x with
  | error e => cases h
  | ok a => exact ⟨a, rfl, h⟩

theorem bind_ne_overflow {x : Except Stop α} {f : α → Except Stop β}
    (hx : x ≠ .error .overflow) (hf : ∀ a, x = .ok a → f a ≠ .error .overflow) :
    x >>= f ≠ .error .overflow := by
  cases x with
  | error e =>
    intro h
    apply hx
    cases h
    rfl
  | ok a => exact hf a rfl

theorem orDecline_bind_ne_overflow {o : Option α} {f : α → Except Stop β}
    (hf : ∀ a, o = some a → f a ≠ .error .overflow) :
    orDecline o >>= f ≠ .error .overflow :=
  bind_ne_overflow (orDecline_ne_overflow o) fun a h => hf a (orDecline_ok.mp h)

/-- A computation that neither overflows nor succeeds has declined. -/
theorem declined_of {x : Except Stop α} (ho : x ≠ .error .overflow) (hn : ∀ a, x ≠ .ok a) :
    x = .error .declined := by
  cases x with
  | ok a => exact absurd rfl (hn a)
  | error e =>
    cases e with
    | declined => rfl
    | overflow => exact absurd rfl ho

end binds

end Pyrust.FixedWidth
