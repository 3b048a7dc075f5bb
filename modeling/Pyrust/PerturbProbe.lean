import Mathlib.NumberTheory.Multiplicity
import Mathlib.Data.Fintype.Card
import Mathlib.Tactic.Ring
import Mathlib.RingTheory.Coprime.Lemmas
import Mathlib.Tactic.Linarith
import Mathlib.Tactic.LinearCombination

/-!
# Open addressing with a perturbed linear congruential probe

A probe cursor is a slot together with the hash bits not consumed so far.
Each move shifts five bits out of the perturbation and multiplies the slot by
five. Once the perturbation of a 64-bit hash is used up the slots follow a
full-period congruential sequence, so a table whose size is a power of two is
covered by one sweep. Searches therefore carry an explicit budget that is
proved sufficient here and nowhere assumed.
-/

set_option autoImplicit false

namespace Pyrust.PerturbProbe

def perturbShift : ℕ := 5

/-- One move of the probe loop: shift the perturbation, then step the slot. -/
def advance (size : ℕ) (c : ℕ × ℕ) : ℕ × ℕ :=
  ((c.1*5+c.2/2^perturbShift+1)%size, c.2/2^perturbShift)

def start (size h : ℕ) : ℕ × ℕ := (h%size, h)

def cursor (size h : ℕ) : ℕ → ℕ × ℕ
  | 0 => start size h
  | n+1 => advance size (cursor size h n)

def slotAt (size h n : ℕ) : ℕ := (cursor size h n).1

/-- Run a probe loop until the visited slot settles it. -/
def search {β : Type*} (size : ℕ) (settle : ℕ → Option β) : ℕ → ℕ × ℕ → Option β
  | 0, _ => none
  | fuel+1, c =>
    match settle c.1 with
    | some b => some b
    | none => search size settle fuel (advance size c)

/-- Moves after which a 64-bit perturbation is zero. -/
def settleMoves : ℕ := 13

def budget (size : ℕ) : ℕ := size+settleMoves

/-- Double the size until it passes the test. -/
def doubleUntil (enough : ℕ → Bool) : ℕ → ℕ → ℕ
  | 0, size => size
  | fuel+1, size => if enough size then size else doubleUntil enough fuel (size*2)

theorem doubleUntil_spec (target fuel a : ℕ) (hf : target ≤ 2^a+fuel) :
    ∃ b, doubleUntil (fun size => target ≤ size) fuel (2^a) = 2^b ∧ target ≤ 2^b ∧
      (b = a ∨ 2^b < 2*target) := by
  induction fuel generalizing a with
  | zero => exact ⟨a, rfl, by simpa using hf, Or.inl rfl⟩
  | succ fuel ih =>
    by_cases ht : target ≤ 2^a
    · exact ⟨a, by simp [doubleUntil, ht], ht, Or.inl rfl⟩
    · have hpos := Nat.two_pow_pos a
      obtain ⟨b, hb, hle, hor⟩ := ih (a+1) (by rw [pow_succ]; omega)
      refine ⟨b, ?_, hle, Or.inr ?_⟩
      · rw [doubleUntil, if_neg (by simpa using ht), ← pow_succ, hb]
      · rcases hor with rfl | hlt
        · rw [pow_succ]
          omega
        · exact hlt

theorem slotAt_lt (size h n : ℕ) (hs : 0 < size) : slotAt size h n < size := by
  cases n with
  | zero => exact Nat.mod_lt _ hs
  | succ n => exact Nat.mod_lt _ hs

theorem cursor_perturb (size h n : ℕ) : (cursor size h n).2 = h/2^(perturbShift*n) := by
  induction n with
  | zero => simp [cursor, start]
  | succ n ih =>
    rw [cursor, advance, ih, Nat.div_div_eq_div_mul, ← pow_add]
    congr 2

theorem cursor_perturb_zero (size h n : ℕ) (hh : h < 2^64) (hn : settleMoves ≤ n) :
    (cursor size h n).2 = 0 := by
  rw [cursor_perturb]
  apply Nat.div_eq_of_lt
  have hexp : 64 ≤ perturbShift*n := by
    simp only [settleMoves, perturbShift] at *
    omega
  exact lt_of_lt_of_le hh (Nat.pow_le_pow_right (by decide) hexp)

def geometric : ℕ → ℕ
  | 0 => 0
  | n+1 => 5*geometric n+1

theorem four_geometric (n : ℕ) : 4*geometric n+1 = 5^n := by
  induction n with
  | zero => rfl
  | succ n ih =>
    simp only [geometric, pow_succ]
    omega

theorem slotAt_tail (size h n : ℕ) (hh : h < 2^64) :
    slotAt size h (settleMoves+n) ≡
      5^n*slotAt size h settleMoves+geometric n [MOD size] := by
  induction n with
  | zero => simp [geometric]; rfl
  | succ n ih =>
    have hz := cursor_perturb_zero size h (settleMoves+n) hh (by omega)
    have hstep : slotAt size h (settleMoves+(n+1)) =
        (slotAt size h (settleMoves+n)*5+1)%size := by
      change (advance size (cursor size h (settleMoves+n))).1 = _
      simp [advance, hz, slotAt]
    rw [hstep]
    calc (slotAt size h (settleMoves+n)*5+1)%size
        ≡ slotAt size h (settleMoves+n)*5+1 [MOD size] := Nat.mod_modEq _ _
      _ ≡ (5^n*slotAt size h settleMoves+geometric n)*5+1 [MOD size] :=
          (ih.mul_right 5).add_right 1
      _ = 5^(n+1)*slotAt size h settleMoves+geometric (n+1) := by
          simp only [geometric, pow_succ]
          ring

/-- The multiplier five has full order, by lifting the exponent at two. -/
theorem order_of_five (k d : ℕ) (h : (2:ℤ)^(k+2) ∣ 5^d-1) : (2:ℤ)^k ∣ d := by
  have hl := Int.two_pow_sub_pow' (x := 5) (y := 1) d (by norm_num) (by norm_num)
  have h4 : emultiplicity (2:ℤ) (5-1) = 2 := by
    have h22 : (5-1:ℤ) = 2^2 := by norm_num
    rw [h22]
    exact emultiplicity_pow_self_of_prime Int.prime_two 2
  rw [one_pow, h4] at hl
  have hle := le_emultiplicity_of_pow_dvd h
  rw [hl] at hle
  apply pow_dvd_of_le_emultiplicity
  have hk : ((k+2 : ℕ) : ℕ∞) = 2+k := by
    push_cast
    exact add_comm _ _
  rw [hk] at hle
  exact (ENat.add_le_add_iff_left (by decide)).mp hle

theorem slotAt_tail_injective (k h : ℕ) (hh : h < 2^64) (n m : ℕ) (hnm : n < m)
    (heq : slotAt (2^k) h (settleMoves+n) = slotAt (2^k) h (settleMoves+m)) :
    2^k ≤ m-n := by
  set s := slotAt (2^k) h settleMoves
  have hc := ((slotAt_tail (2^k) h n hh).symm.trans (heq ▸ slotAt_tail (2^k) h m hh)).dvd
  obtain ⟨d, rfl⟩ : ∃ d, m = n+d := ⟨m-n, by omega⟩
  have hn4 : (4*(geometric n:ℤ)) = 5^n-1 := by
    have h : (4*(geometric n:ℤ)+1) = 5^n := by exact_mod_cast four_geometric n
    linarith
  have hm4 : (4*(geometric (n+d):ℤ)) = 5^(n+d)-1 := by
    have h : (4*(geometric (n+d):ℤ)+1) = 5^(n+d) := by exact_mod_cast four_geometric (n+d)
    linarith
  have hdvd : (2:ℤ)^(k+2) ∣ (5^n*(4*s+1))*(5^d-1) := by
    obtain ⟨c, hc⟩ := hc
    push_cast at hc
    refine ⟨c, ?_⟩
    calc (5^n*(4*(s:ℤ)+1))*(5^d-1)
        = 4*((5^(n+d)*s+geometric (n+d))-(5^n*s+geometric n)) := by
          rw [pow_add] at hm4 ⊢
          linear_combination hn4-hm4
      _ = 4*(2^k*c) := by rw [hc]
      _ = 2^(k+2)*c := by ring
  have hcop : IsCoprime ((2:ℤ)^(k+2)) (5^n*(4*s+1)) := by
    apply IsCoprime.pow_left
    apply IsCoprime.mul_right
    · exact IsCoprime.pow_right ⟨-2, 1, by norm_num⟩
    · exact ⟨-2*s, 1, by ring⟩
  have h5 := hcop.dvd_of_dvd_mul_left hdvd
  have hd := order_of_five k d h5
  have hdn : 2^k ∣ d := by exact_mod_cast hd
  have := Nat.le_of_dvd (by omega) hdn
  omega

/-- One sweep after the perturbation is spent visits every slot. -/
theorem slotAt_covers (k h s : ℕ) (hh : h < 2^64) (hs : s < 2^k) :
    ∃ n < budget (2^k), slotAt (2^k) h n = s := by
  have hpos : 0 < 2^k := Nat.two_pow_pos k
  let f : Fin (2^k) → Fin (2^k) :=
    fun i => ⟨slotAt (2^k) h (settleMoves+i.val), slotAt_lt _ _ _ hpos⟩
  have hinj : Function.Injective f := by
    intro i j hij
    have hv : slotAt (2^k) h (settleMoves+i.val) = slotAt (2^k) h (settleMoves+j.val) :=
      congrArg Fin.val hij
    have hi := i.isLt
    have hj := j.isLt
    rcases lt_trichotomy i.val j.val with hlt | he | hlt
    · have := slotAt_tail_injective k h hh _ _ hlt hv
      omega
    · exact Fin.ext he
    · have := slotAt_tail_injective k h hh _ _ hlt hv.symm
      omega
  obtain ⟨i, hi⟩ := (Finite.injective_iff_surjective.mp hinj) ⟨s, hs⟩
  refine ⟨settleMoves+i.val, ?_, congrArg Fin.val hi⟩
  have := i.isLt
  simp only [budget]
  omega

section search
variable {β : Type*} {size : ℕ} {settle : ℕ → Option β}

theorem search_some_iff (h fuel n : ℕ) (b : β) :
    search size settle fuel (cursor size h n) = some b ↔
      ∃ m < fuel, settle (slotAt size h (n+m)) = some b ∧
        ∀ j < m, settle (slotAt size h (n+j)) = none := by
  induction fuel generalizing n with
  | zero => simp [search]
  | succ fuel ih =>
    rw [search]
    cases hs : settle (cursor size h n).1 with
    | some b' =>
      constructor
      · intro hb
        exact ⟨0, by omega, by simpa [slotAt, hs] using hb, by simp⟩
      · rintro ⟨m, -, hm, hj⟩
        cases m with
        | zero => simpa [slotAt, hs] using hm
        | succ m =>
          have := hj 0 (by omega)
          simp [slotAt, hs] at this
    | none =>
      change search size settle fuel (cursor size h (n+1)) = some b ↔ _
      rw [ih]
      constructor
      · rintro ⟨m, hm, hb, hj⟩
        refine ⟨m+1, by omega, by rwa [show n+(m+1) = n+1+m by omega], ?_⟩
        intro j hjm
        cases j with
        | zero => exact hs
        | succ j =>
          rw [show n+(j+1) = n+1+j by omega]
          exact hj j (by omega)
      · rintro ⟨m, hm, hb, hj⟩
        cases m with
        | zero => simp [slotAt, hs] at hb
        | succ m =>
          refine ⟨m, by omega, by rwa [show n+1+m = n+(m+1) by omega], ?_⟩
          intro j hjm
          rw [show n+1+j = n+(j+1) by omega]
          exact hj (j+1) (by omega)

theorem search_start_some_iff (h fuel : ℕ) (b : β) :
    search size settle fuel (start size h) = some b ↔
      ∃ m < fuel, settle (slotAt size h m) = some b ∧
        ∀ j < m, settle (slotAt size h j) = none := by
  have := @search_some_iff β size settle h fuel 0 b
  simpa [cursor] using this

/-- The budget always suffices when some slot settles the search. -/
theorem search_start_isSome (k h s : ℕ) (hk : size = 2^k) (hh : h < 2^64) (hs : s < size)
    (hset : (settle s).isSome) :
    (search size settle (budget size) (start size h)).isSome := by
  subst hk
  obtain ⟨n, hn, rfl⟩ := slotAt_covers k h s hh hs
  have hex : ∃ n, (settle (slotAt (2^k) h n)).isSome := ⟨n, hset⟩
  classical
  have hm := Nat.find_spec hex
  obtain ⟨b, hb⟩ := Option.isSome_iff_exists.mp hm
  have hsome : search (2^k) settle (budget (2^k)) (start (2^k) h) = some b := by
    rw [search_start_some_iff]
    refine ⟨Nat.find hex, lt_of_le_of_lt (Nat.find_min' hex hset) hn, hb, ?_⟩
    intro j hj
    simpa using Nat.find_min hex hj
  simp [hsome]

/-- A probe settles at the first position whose slot settles it. -/
theorem search_start_first (k h n : ℕ) (b : β) (hk : size = 2^k) (hh : h < 2^64)
    (hb : settle (slotAt size h n) = some b) (hj : ∀ j < n, settle (slotAt size h j) = none) :
    search size settle (budget size) (start size h) = some b := by
  have hs : slotAt size h n < size := slotAt_lt _ _ _ (hk ▸ Nat.two_pow_pos k)
  have hset : (settle (slotAt size h n)).isSome := by rw [hb]; rfl
  have hsome := search_start_isSome k h _ hk hh hs hset
  obtain ⟨c, hc⟩ := Option.isSome_iff_exists.mp hsome
  obtain ⟨m, -, hm, hmin⟩ := (search_start_some_iff h _ c).mp hc
  rcases lt_trichotomy m n with hlt | rfl | hlt
  · rw [hj m hlt] at hm
    simp at hm
  · rw [hc, ← hm, hb]
  · rw [hmin n hlt] at hb
    simp at hb

end search

end Pyrust.PerturbProbe
