import Pyrust.ExtendedEuclid
import Pyrust.SizedIntegers

/-!
# Modular exponentiation and inverse

Both computations on machine integers take their products in the signed type of width
128. Each operation there is one that is not checked, so that a result outside the type
would stop the computation. The inverse on big integers runs the same rounds without a
type to leave.
-/

set_option autoImplicit false

namespace Pyrust.ModularArithmetic

open FixedWidth ExtendedEuclid SizedIntegers

/-! ## Operations -/

section operations
variable (width : Option ℕ)

/-- `((value % m) + m) % m`. -/
def normalise (value m : ℤ) : Except Stop ℤ := do
  let reduced ← remainder width value m
  let shifted ← arith width (reduced + m)
  remainder width shifted m

/-- `as i64`. -/
def asI64 (v : ℤ) : ℤ := v.bmod (2^64)

end operations

/-! ## Exponentiation -/

/-- The body of the loop of the exponentiation. -/
def powRound (m : ℤ) (exp : ℕ) (result base : ℤ) : Except Stop (ℤ × ℤ) := do
  let result ← (if exp % 2 = 1 then do
      let product ← arith (some 128) (result*base)
      remainder (some 128) product m
    else pure result)
  let square ← arith (some 128) (base*base)
  let base ← remainder (some 128) square m
  pure (result, base)

def powLoop (m : ℤ) (exp : ℕ) (result base : ℤ) : Except Stop ℤ :=
  if 0 < exp then do
    let (result, base) ← powRound m exp result base
    powLoop m (exp/2) result base
  else pure result
termination_by exp

def modpowI64 (base : ℤ) (exp : ℕ) (modulus : ℤ) : Except Stop ℤ :=
  if modulus = 1 then pure 0
  else do
    let base ← normalise (some 128) base modulus
    let result ← powLoop modulus exp 1 base
    pure (asI64 result)

/-! ## Inverse -/

section inverse
variable (width : Option ℕ)

/-- The body of the loop of the inverse. -/
def euclidRound (x : Row) : Except Stop Row := do
  let q ← quotient width x.oldR x.r
  let product ← arith width (q*x.r)
  let tmpR ← arith width (x.oldR - product)
  let product ← arith width (q*x.s)
  let tmpS ← arith width (x.oldS - product)
  pure ⟨x.r, tmpR, x.s, tmpS⟩

variable {width}

/-- Whatever the type, the rounds make the remainder smaller. -/
theorem euclidRound_r {x y : Row} (h : euclidRound width x = .ok y) :
    y.r = x.oldR.tmod x.r := by
  obtain ⟨q, hq, h⟩ := bind_ok h
  obtain ⟨product, hproduct, h⟩ := bind_ok h
  obtain ⟨tmpR, htmpR, h⟩ := bind_ok h
  obtain ⟨product', -, h⟩ := bind_ok h
  obtain ⟨tmpS, -, h⟩ := bind_ok h
  obtain rfl := Except.ok.inj h
  have hdiv : q = x.oldR.tdiv x.r := by
    rw [quotient] at hq
    by_cases hr : x.r = 0
    · rw [if_pos hr] at hq
      cases hq
    · rw [if_neg hr] at hq
      exact arith_eq hq
  rw [arith_eq htmpR, arith_eq hproduct, hdiv, Int.tmod_def, mul_comm]

theorem euclidRound_lt {x y : Row} (hr : x.r ≠ 0) (h : euclidRound width x = .ok y) :
    y.r.natAbs < x.r.natAbs := by
  rw [euclidRound_r h, Int.natAbs_tmod]
  exact Nat.mod_lt _ (Int.natAbs_pos.mpr hr)

variable (width)

def euclidLoop (x : Row) : Except Stop Row :=
  if _hr : x.r = 0 then .ok x
  else
    match _hround : euclidRound width x with
    | .error e => .error e
    | .ok y => euclidLoop y
termination_by x.r.natAbs
decreasing_by exact euclidRound_lt _hr _hround

/-- The inverse of the value modulo a positive number. -/
def modinv (value m : ℤ) : Except Stop (Option ℤ) := do
  let v ← normalise width value m
  let last ← euclidLoop width (Row.start v m)
  if last.oldR = 1 then do
    let result ← normalise width last.oldS m
    pure (some result)
  else pure none

end inverse

def modinvBigint (value modulus : ℤ) : Except Stop (Option ℤ) :=
  modinv none value (if modulus < 0 then -modulus else modulus)

def modinvI64 (value modulus : ℤ) : Except Stop (Option ℤ) :=
  let m : ℤ := modulus.natAbs
  if m = 0 then pure none
  else do
    let result ← modinv (some 128) value m
    pure (result.map asI64)

/-! ## Operations that stay in their type -/

section exact
variable {width : Option ℕ} {m bound : ℤ}

theorem abs_le_of_nonneg {a : ℤ} (ha : 0 ≤ a) (h : a ≤ bound) : |a| ≤ bound := by
  rwa [abs_of_nonneg ha]

theorem remainder_of_nonneg (h : Holds width bound) (hm : 0 < m) {a : ℤ} (ha : 0 ≤ a)
    (hle : a ≤ bound) : remainder width a m = .ok (a % m) := by
  rw [remainder_eq h hm.ne' (abs_le_of_nonneg ha hle), Int.tmod_eq_emod_of_nonneg ha]

/-- Two remainders with an addition between them give the one of the same sign as the divisor. -/
theorem normalise_eq (h : Holds width bound) (hm : 0 < m) (hle : 2*m ≤ bound) {value : ℤ}
    (hvalue : |value| ≤ bound) : normalise width value m = .ok (value % m) := by
  have hlo := Int.lt_tmod_of_pos value hm
  have hhi := Int.tmod_lt_of_pos value hm
  have hshift : arith width (value.tmod m + m) = .ok (value.tmod m + m) :=
    h _ (abs_le.mpr ⟨by linarith, by linarith⟩)
  have hmod : (value.tmod m + m) % m = value % m := by
    rw [Int.add_emod_right, Int.tmod_eq_emod]
    split
    · rw [Nat.cast_zero, sub_zero, Int.emod_emod_of_dvd value (dvd_refl m)]
    · rw [Int.natAbs_of_nonneg hm.le, Int.sub_emod_right, Int.emod_emod_of_dvd value (dvd_refl m)]
  rw [normalise, remainder_eq h hm.ne' hvalue, ok_bind, hshift, ok_bind,
    remainder_of_nonneg h hm (by linarith) (by linarith), hmod]

theorem asI64_eq {v : ℤ} (hv : 0 ≤ v) (hlt : v < 2^63) : asI64 v = v :=
  Int.bmod_eq_of_le (by norm_num; linarith) (by norm_num at hlt ⊢; linarith)

end exact

/-! ## Exponentiation is exact -/

section power
variable {m : ℤ}

theorem powRound_eq (hpos : 0 < m) (hlt : m < 2^63) (exp : ℕ) {result base : ℤ}
    (hr : 0 ≤ result) (hrm : result ≤ m) (hb : 0 ≤ base) (hbm : base < m) :
    powRound m exp result base =
      .ok (if exp % 2 = 1 then result*base % m else result, base*base % m) := by
  have hbound : m*m ≤ 2^126 := by nlinarith
  have hle : ∀ x y, 0 ≤ x → x ≤ m → 0 ≤ y → y ≤ m → x*y ≤ 2^126 := fun x y hx hxm hy hym =>
    (mul_le_mul hxm hym hy hpos.le).trans hbound
  have hproduct : ∀ x y, 0 ≤ x → x ≤ m → 0 ≤ y → y ≤ m →
      arith (some 128) (x*y) = .ok (x*y) ∧
        remainder (some 128) (x*y) m = .ok (x*y % m) := fun x y hx hxm hy hym =>
    ⟨holds_128 _ (abs_le_of_nonneg (mul_nonneg hx hy) (hle x y hx hxm hy hym)),
      remainder_of_nonneg holds_128 hpos (mul_nonneg hx hy) (hle x y hx hxm hy hym)⟩
  rw [powRound, (hproduct base base hb hbm.le hb hbm.le).1]
  by_cases hodd : exp % 2 = 1
  · rw [if_pos hodd, if_pos hodd, (hproduct result base hr hrm hb hbm.le).1, ok_bind,
      (hproduct result base hr hrm hb hbm.le).2, ok_bind, ok_bind,
      (hproduct base base hb hbm.le hb hbm.le).2]
    rfl
  · rw [if_neg hodd, if_neg hodd]
    simp only [pure, Except.pure, ok_bind, (hproduct base base hb hbm.le hb hbm.le).2]

/-- One round keeps the product of the result with the power that is left. -/
theorem power_step (exp : ℕ) (result base : ℤ) :
    (if exp % 2 = 1 then result*base % m else result)*(base*base % m)^(exp/2) ≡
      result*base^exp [ZMOD m] := by
  have hsquare : (base*base % m)^(exp/2) ≡ base^(2*(exp/2)) [ZMOD m] := by
    rw [pow_mul, pow_two]
    exact (Int.mod_modEq _ _).pow _
  by_cases hodd : exp % 2 = 1
  · have hexp : base*base^(2*(exp/2)) = base^exp := by
      rw [← pow_succ', show 2*(exp/2)+1 = exp by omega]
    rw [if_pos hodd, ← hexp, ← mul_assoc]
    exact (Int.mod_modEq _ _).mul hsquare
  · have hexp : 2*(exp/2) = exp := by omega
    rw [if_neg hodd]
    rw [hexp] at hsquare
    exact hsquare.mul_left result

theorem powLoop_eq (hm : 1 < m) (hlt : m < 2^63) (exp : ℕ) {result base : ℤ}
    (hr : 0 ≤ result) (hrm : result < m) (hb : 0 ≤ base) (hbm : base < m) :
    powLoop m exp result base = .ok (result*base^exp % m) := by
  induction exp using Nat.strongRecOn generalizing result base with
  | ind exp ih =>
    have hpos : 0 < m := by linarith
    rw [powLoop]
    by_cases hexp : 0 < exp
    · have hresult : 0 ≤ (if exp % 2 = 1 then result*base % m else result) ∧
          (if exp % 2 = 1 then result*base % m else result) < m := by
        split
        · exact ⟨Int.emod_nonneg _ hpos.ne', Int.emod_lt_of_pos _ hpos⟩
        · exact ⟨hr, hrm⟩
      rw [if_pos hexp, powRound_eq hpos hlt exp hr hrm.le hb hbm, ok_bind]
      exact (ih (exp/2) (Nat.div_lt_self hexp one_lt_two) hresult.1 hresult.2
        (Int.emod_nonneg _ hpos.ne') (Int.emod_lt_of_pos _ hpos)).trans
          (congrArg _ (power_step exp result base))
    · obtain rfl : exp = 0 := by omega
      rw [if_neg hexp, pow_zero, mul_one, Int.emod_eq_of_lt hr hrm]
      rfl

theorem abs_le_of_fits {v : ℤ} (h : Fits 64 v) : |v| ≤ 2^126 :=
  (abs_le.mpr ⟨h.1, h.2.le⟩ : |v| ≤ 2^63).trans (by norm_num)

theorem modpowI64_eq {base : ℤ} (hbase : Fits 64 base) (exp : ℕ) (hm : 1 ≤ m) (hlt : m < 2^63) :
    modpowI64 base exp m = .ok (base^exp % m) := by
  rw [modpowI64]
  by_cases hone : m = 1
  · rw [if_pos hone, hone, Int.emod_one]
    rfl
  · have hpos : 0 < m := by linarith
    have hgt : 1 < m := lt_of_le_of_ne hm (Ne.symm hone)
    have hpower : (1*(base % m)^exp) % m = base^exp % m := by
      rw [one_mul]
      exact (Int.mod_modEq base m).pow exp
    rw [if_neg hone, normalise_eq holds_128 hpos (by linarith) (abs_le_of_fits hbase), ok_bind,
      powLoop_eq hgt hlt exp zero_le_one hgt (Int.emod_nonneg _ hpos.ne')
        (Int.emod_lt_of_pos _ hpos), ok_bind, hpower,
      asI64_eq (Int.emod_nonneg _ hpos.ne') ((Int.emod_lt_of_pos _ hpos).trans hlt)]
    rfl

end power

/-! ## The inverse is exact -/

section inverse
variable {width : Option ℕ} {v m : ℤ} {x : Row}

theorem euclidRound_eq (h : Holds width m) (hx : Invariant v m x) (hr : x.r ≠ 0) :
    euclidRound width x = .ok x.next := by
  have hm : 0 ≤ m := hx.oldR_nonneg.trans hx.oldR_le
  have hquotient : quotient width x.oldR x.r = .ok (x.oldR/x.r) := by
    rw [quotient_eq h hr (abs_le_of_nonneg hx.oldR_nonneg hx.oldR_le),
      Int.tdiv_eq_ediv_of_nonneg hx.oldR_nonneg]
  have hproduct := hx.product_mem hr
  have hnext : 0 ≤ x.next.r ∧ x.next.r ≤ m := ⟨(hx.next hr).r_nonneg, (hx.next hr).r_le⟩
  rw [euclidRound, hquotient, ok_bind, h _ (abs_le_of_nonneg hproduct.1 hproduct.2), ok_bind,
    h (x.oldR - x.oldR/x.r*x.r) (abs_le_of_nonneg hnext.1 hnext.2), ok_bind,
    h _ (hx.abs_product_le hr), ok_bind, h (x.oldS - x.oldR/x.r*x.s) (hx.abs_next_s_le hr)]
  rfl

/-- The loop ends, and its last row has the greatest common divisor of the two numbers. -/
theorem euclidLoop_spec (h : Holds width m) (hx : Invariant v m x) :
    ∃ last, euclidLoop width x = .ok last ∧ Invariant v m last ∧ last.r = 0 := by
  induction hsize : x.r.natAbs using Nat.strongRecOn generalizing x with
  | ind n ih =>
    by_cases hr : x.r = 0
    · refine ⟨x, ?_, hx, hr⟩
      rw [euclidLoop, dif_pos hr]
    · obtain ⟨last, hloop, hlast⟩ := ih _ (hsize ▸ next_r_lt hr) (hx.next hr) rfl
      refine ⟨last, ?_, hlast⟩
      rw [euclidLoop, dif_neg hr, euclidRound_eq h hx hr]
      exact hloop

/-- The answer of an inverse: the number from zero up to the modulus, where there is one. -/
structure IsInverse (value m : ℤ) (answer : Option ℤ) : Prop where
  isSome_iff : answer.isSome ↔ Int.gcd value m = 1
  range : ∀ y ∈ answer, 0 ≤ y ∧ y < m
  mul_modEq : ∀ y ∈ answer, value*y ≡ 1 [ZMOD m]

theorem IsInverse.unique {value : ℤ} {answer answer' : Option ℤ} (h : IsInverse value m answer)
    (h' : IsInverse value m answer') : answer = answer' := by
  have hsome := h.isSome_iff.trans h'.isSome_iff.symm
  cases answer with
  | none =>
    cases answer' with
    | none => rfl
    | some y' => simp at hsome
  | some y =>
    cases answer' with
    | none => simp at hsome
    | some y' =>
      have hmodEq : y ≡ y' [ZMOD m] := by
        calc y = y*1 := (mul_one y).symm
          _ ≡ y*(value*y') [ZMOD m] := (h'.mul_modEq y' rfl).symm.mul_left y
          _ = value*y*y' := by ring
          _ ≡ 1*y' [ZMOD m] := (h.mul_modEq y rfl).mul_right y'
          _ = y' := one_mul y'
      have hy := h.range y rfl
      have hy' := h'.range y' rfl
      rw [← Int.emod_eq_of_lt hy.1 hy.2, ← Int.emod_eq_of_lt hy'.1 hy'.2]
      exact congrArg some hmodEq

theorem modinv_spec {bound : ℤ} (h : Holds width bound) (hm : 0 < m) (hle : 2*m ≤ bound)
    {value : ℤ} (hvalue : |value| ≤ bound) :
    ∃ answer, modinv width value m = .ok answer ∧ IsInverse value m answer := by
  have hlt := Int.emod_lt_of_pos value hm
  obtain ⟨last, hloop, hx, hr⟩ := euclidLoop_spec (h.mono (by linarith))
    (start_invariant (Int.emod_nonneg value hm.ne') hlt)
  obtain ⟨hgcd, hmodEq⟩ := hx.finish hr
  rw [Int.gcd_emod] at hgcd hmodEq
  rw [modinv, normalise_eq h hm hle hvalue, ok_bind, hloop, ok_bind]
  by_cases hone : last.oldR = 1
  · rw [if_pos hone, normalise_eq h hm hle (hx.oldS_le.trans (by linarith))]
    refine ⟨some (last.oldS % m), rfl, iff_of_true rfl (by omega), fun y hy => ?_, fun y hy => ?_⟩
      <;> obtain rfl := Option.mem_some.mp hy
    · exact ⟨Int.emod_nonneg _ hm.ne', Int.emod_lt_of_pos _ hm⟩
    · calc value*(last.oldS % m) ≡ value % m*last.oldS [ZMOD m] :=
            (Int.mod_modEq value m).symm.mul (Int.mod_modEq _ _)
        _ = last.oldS*(value % m) := mul_comm _ _
        _ ≡ Int.gcd value m [ZMOD m] := hmodEq
        _ = 1 := by rw [← hgcd, hone]
  · rw [if_neg hone]
    exact ⟨none, rfl, iff_of_false (by simp) (by omega), fun y hy => (by cases hy),
      fun y hy => (by cases hy)⟩

theorem modinvBigint_eq (value modulus : ℤ) :
    modinvBigint value modulus = modinv none value |modulus| := by
  rw [modinvBigint]
  split
  · rw [abs_of_neg (by assumption)]
  · rw [abs_of_nonneg (by omega)]

theorem modinvBigint_spec (value : ℤ) {modulus : ℤ} (h0 : modulus ≠ 0) :
    ∃ answer, modinvBigint value modulus = .ok answer ∧ IsInverse value |modulus| answer := by
  rw [modinvBigint_eq]
  exact modinv_spec (holds_none (|value| + 2*|modulus|)) (abs_pos.mpr h0)
    (by linarith [abs_nonneg value]) (by linarith [abs_nonneg modulus])

theorem modinvI64_spec {value modulus : ℤ} (hvalue : Fits 64 value) (hmodulus : Fits 64 modulus)
    (h0 : modulus ≠ 0) :
    ∃ answer, modinvI64 value modulus = .ok answer ∧ IsInverse value |modulus| answer := by
  have hle : |modulus| ≤ 2^63 := abs_le.mpr ⟨hmodulus.1, hmodulus.2.le⟩
  obtain ⟨answer, heq, h⟩ := modinv_spec holds_128 (abs_pos.mpr h0) (by linarith)
    (abs_le_of_fits hvalue)
  have hcast : answer.map asI64 = answer := by
    cases answer with
    | none => rfl
    | some y =>
      have hy := h.range y rfl
      rw [Option.map_some, asI64_eq hy.1 (hy.2.trans_le hle)]
  refine ⟨answer, ?_, h⟩
  rw [modinvI64, Int.natCast_natAbs, if_neg (abs_ne_zero.mpr h0), heq, ok_bind, hcast]
  rfl

end inverse

/-- The power of two integers is exact for every modulus of the type. The inverse answers exactly
for the numbers that have one, and the inverse on machine integers is the one on big integers. -/
theorem modular_exact :
    (∀ (base : ℤ) (exp : ℕ) (m : ℤ), Fits 64 base → 1 ≤ m → m < 2^63 →
      modpowI64 base exp m = .ok (base^exp % m) ∧ 0 ≤ base^exp % m ∧ base^exp % m < m) ∧
    (∀ value modulus : ℤ, modulus ≠ 0 →
      ∃ answer, modinvBigint value modulus = .ok answer ∧ IsInverse value |modulus| answer) ∧
    ∀ value modulus : ℤ, Fits 64 value → Fits 64 modulus → modulus ≠ 0 →
      modinvI64 value modulus = modinvBigint value modulus := by
  refine ⟨fun base exp m hbase hm hlt => ⟨modpowI64_eq hbase exp hm hlt,
    Int.emod_nonneg _ (by omega), Int.emod_lt_of_pos _ (by omega)⟩,
    fun value modulus h0 => modinvBigint_spec value h0, fun value modulus hvalue hmodulus h0 => ?_⟩
  obtain ⟨answer, heq, h⟩ := modinvI64_spec hvalue hmodulus h0
  obtain ⟨answer', heq', h'⟩ := modinvBigint_spec value h0
  rw [heq, heq', h.unique h']

theorem modular_exact_small :
    modpowI64 (-3) 5 7 = .ok ((-3)^5 % 7) ∧ modinvI64 5 (-2^63) = modinvBigint 5 (-2^63) ∧
      ∃ answer, modinvBigint 5 (-2^63) = .ok answer ∧ IsInverse 5 |-2^63| answer := by
  obtain ⟨hpower, hinverse, hagree⟩ := modular_exact
  exact ⟨(hpower (-3) 5 7 (by decide) (by decide) (by decide)).1,
    hagree 5 (-2^63) (by decide) (by decide) (by decide), hinverse 5 (-2^63) (by decide)⟩

end Pyrust.ModularArithmetic
