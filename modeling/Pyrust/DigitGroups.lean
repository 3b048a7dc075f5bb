import Mathlib.Data.Nat.Digits.Lemmas

/-!
# Regrouping digits

A stream of digits of one width is read into an accumulator and written out in
digits of another width. What has been read is, at every moment, the number that
has been written followed by the bits that are pending.
-/

set_option autoImplicit false

namespace Pyrust.DigitGroups

/-- The number that digits of `w` bits spell, the first one on top. -/
def value (w : ℕ) (l : List ℕ) : ℕ := Nat.ofDigits (2^w) l.reverse

@[simp] theorem value_nil (w : ℕ) : value w [] = 0 := rfl

theorem value_concat (w : ℕ) (l : List ℕ) (d : ℕ) : value w (l ++ [d]) = value w l*2^w+d := by
  rw [value, List.reverse_append, List.reverse_singleton, List.singleton_append,
    Nat.ofDigits_cons, value, Nat.mul_comm, Nat.add_comm]

theorem value_injective {w : ℕ} {l l' : List ℕ} (hw : 0 < w) (hlen : l.length = l'.length)
    (hl : ∀ d ∈ l, d < 2^w) (hl' : ∀ d ∈ l', d < 2^w) (h : value w l = value w l') : l = l' := by
  have hrev : l.reverse = l'.reverse := by
    apply Nat.ofDigits_inj_of_len_eq (Nat.one_lt_two_pow hw.ne') (by simpa using hlen) _ _ h
    · simpa using hl
    · simpa using hl'
  simpa using congrArg List.reverse hrev

/-- The digits that are out, and `nbits` bits of the accumulator that are not. -/
def total (w : ℕ) (out : List ℕ) (acc nbits : ℕ) : ℕ := value w out*2^nbits+acc % 2^nbits

/-- Writing the topmost pending bits. -/
theorem total_emit {w nbits : ℕ} (out : List ℕ) (acc : ℕ) (h : w ≤ nbits) :
    total w (out ++ [acc/2^(nbits-w) % 2^w]) acc (nbits-w) = total w out acc nbits := by
  have hpow : 2^nbits = 2^w*2^(nbits-w) := by rw [← pow_add, Nat.add_sub_cancel' h]
  have hmod : acc % 2^nbits = acc/2^(nbits-w) % 2^w*2^(nbits-w)+acc % 2^(nbits-w) := by
    rw [hpow, Nat.mul_comm (2^w), Nat.mod_mul, Nat.mul_comm (2^(nbits-w)), Nat.add_comm]
  rw [total, total, value_concat, hmod, hpow]
  ring

/-- Reading a digit of `v` bits into an accumulator of `m` bits that has room for it. -/
theorem total_push {w v nbits m : ℕ} (out : List ℕ) (acc d : ℕ) (hd : d < 2^v)
    (hm : nbits+v ≤ m) :
    total w out ((acc*2^v+d) % 2^m) (nbits+v) = total w out acc nbits*2^v+d := by
  have hdvd : 2^(nbits+v) ∣ 2^m := pow_dvd_pow 2 hm
  have hmod : (acc*2^v+d) % 2^(nbits+v) = acc % 2^nbits*2^v+d := by
    rw [pow_add, Nat.mul_comm (2^nbits), Nat.mod_mul, Nat.mul_comm acc, Nat.mul_add_mod,
      Nat.mod_eq_of_lt hd, Nat.mul_add_div (by positivity), Nat.div_eq_of_lt hd, Nat.add_zero]
    ring
  rw [total, total, Nat.mod_mod_of_dvd _ hdvd, hmod, pow_add]
  ring

/-- Two readings of one number with fewer pending bits than a digit has are the same digits. -/
theorem value_pending {w nbits p v : ℕ} {l l' : List ℕ} (hw : 0 < w)
    (hl : ∀ d ∈ l, d < 2^w) (hl' : ∀ d ∈ l', d < 2^w)
    (hlen : w*l.length+nbits = w*l'.length+p) (hn : nbits < w) (hp : p < w) (hv : v < 2^nbits)
    (h : value w l*2^nbits+v = value w l'*2^p) : l = l' ∧ nbits = p ∧ v = 0 := by
  have hlength : l.length = l'.length := by
    have hdiv := congrArg (· / w) hlen
    simpa [Nat.mul_add_div hw, Nat.div_eq_of_lt hn, Nat.div_eq_of_lt hp] using hdiv
  have hbits : nbits = p := by
    rw [hlength] at hlen
    omega
  subst hbits
  have hv0 : v = 0 := by
    have hmod := congrArg (· % 2^nbits) h
    simpa only [Nat.mul_add_mod', Nat.mul_mod_left, Nat.mod_eq_of_lt hv] using hmod
  have hval : value w l = value w l' := by
    rw [hv0, Nat.add_zero] at h
    exact Nat.eq_of_mul_eq_mul_right (by positivity) h
  exact ⟨value_injective hw hlength hl hl' hval, rfl, hv0⟩

end Pyrust.DigitGroups
