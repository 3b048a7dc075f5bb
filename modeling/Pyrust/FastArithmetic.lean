import Mathlib.Algebra.BigOperators.Group.List.Basic
import Mathlib.Algebra.Order.Group.Int
import Pyrust.ConcatRounds
import Pyrust.WordBits

/-!
# Arithmetic on machine integers

The operations of two machine integers that are done without the general
protocol, and the sum of a chain of additions. Whatever the fast path returns is
what the integers without bounds give, and it declines where they leave the word.
-/

set_option autoImplicit false

namespace Pyrust.FastArithmetic

open Bytecode FixedWidth WordBits

/-! ## The fast path -/

/-- The values the fast paths tell apart. A machine integer and a big one are both `int`. -/
inductive Value (F O : Type) where
  | int (v : ℤ)
  | bool (b : Bool)
  | float (x : F)
  | str (s : String)
  | obj (o : O)

section fast

/-- `wrapping_rem`, which divides by zero or leaves a remainder in the word. -/
def wrappingRem (a b : ℤ) : Except Stop ℤ := if b = 0 then .error .overflow else .ok (a.tmod b)

/-- `checked_div`. -/
def checkedDiv (a b : ℤ) : Option ℤ := if b = 0 then none else checked 64 (a.tdiv b)

/-- `py_mod_i64`. -/
def pyModI64 (a b : ℤ) : Except Stop ℤ := do
  let remainder ← wrappingRem a b
  if (0 < remainder ∧ b < 0) ∨ (remainder < 0 ∧ 0 < b) then native 64 (remainder+b)
  else pure remainder

variable {F O : Type} (divide : ℤ → ℤ → F)

/-- `int_int_fast`. `divide` is the quotient of two integers that are exact as floats. -/
def intIntFast (a b : ℤ) : BinaryOp → Except Stop (Value F O)
  | .add => .int <$> orDecline (checked 64 (a+b))
  | .sub => .int <$> orDecline (checked 64 (a-b))
  | .mul => .int <$> orDecline (checked 64 (a*b))
  | .mod => if b ≠ 0 then .int <$> pyModI64 a b else .error .declined
  | .floorDiv =>
    if b ≠ 0 then do
      let m ← pyModI64 a b
      let multiple ← orDecline (checked 64 (a-m))
      .int <$> orDecline (checkedDiv multiple b)
    else .error .declined
  | .div =>
    if b ≠ 0 ∧ a.natAbs < 2^53 ∧ b.natAbs < 2^53 then pure (.float (divide a b))
    else .error .declined
  | .bitAnd => pure (.int (word 64 a &&& word 64 b).toInt)
  | .bitOr => pure (.int (word 64 a ||| word 64 b).toInt)
  | .bitXor => pure (.int (word 64 a ^^^ word 64 b).toInt)
  | .lShift =>
    if b < 0 then .error .declined
    else if 64 ≤ b then .error .declined
    else
      let r := word 64 a <<< b.toNat
      if (r.sshiftRight b.toNat).toInt = a then pure (.int r.toInt) else .error .declined
  | .rShift =>
    if b < 0 then .error .declined
    else if 64 ≤ b then pure (.int (if a < 0 then -1 else 0))
    else pure (.int ((word 64 a).sshiftRight b.toNat).toInt)
  | .eq => pure (.bool (a = b))
  | .ne => pure (.bool (a ≠ b))
  | .lt => pure (.bool (a < b))
  | .le => pure (.bool (a ≤ b))
  | .gt => pure (.bool (b < a))
  | .ge => pure (.bool (b ≤ a))
  | _ => .error .declined

end fast

/-! ## The integers of the language -/

section exact
variable {F O : Type}

/-- What an operator gives on two integers without bounds; `none` where it raises, and for the
operators whose result is no integer or truth value of the two numbers alone. -/
def exact (a b : ℤ) : BinaryOp → Option (Value F O)
  | .add => some (.int (a+b))
  | .sub => some (.int (a-b))
  | .mul => some (.int (a*b))
  | .mod => if b = 0 then none else some (.int (a.fmod b))
  | .floorDiv => if b = 0 then none else some (.int (a.fdiv b))
  | .pow => if b < 0 then none else some (.int (a^b.toNat))
  | .bitAnd => some (.int (Int.land a b))
  | .bitOr => some (.int (Int.lor a b))
  | .bitXor => some (.int (Int.xor a b))
  | .lShift => if b < 0 then none else some (.int (a*2^b.toNat))
  | .rShift => if b < 0 then none else some (.int (a.fdiv (2^b.toNat)))
  | .eq => some (.bool (a = b))
  | .ne => some (.bool (a ≠ b))
  | .lt => some (.bool (a < b))
  | .le => some (.bool (a ≤ b))
  | .gt => some (.bool (b < a))
  | .ge => some (.bool (b ≤ a))
  | _ => none

/-- A value that a machine integer or a truth value can hold. -/
def Holdable : Option (Value F O) → Prop
  | some (.int v) => Fits 64 v
  | some (.bool _) => True
  | _ => False

end exact

/-! ## The fast path is exact -/

section agreement
variable {F O : Type} {a b : ℤ}

/-- An outcome that is declined, or a value that can be held and is the exact one. -/
def Agrees (x : Except Stop (Value F O)) (e : Option (Value F O)) : Prop :=
  x = .error .declined ∨ ∃ r, x = .ok r ∧ e = some r ∧ Holdable (some r)

theorem pyModI64_eq (hb : b ≠ 0) (hfit : Fits 64 b) : pyModI64 a b = .ok (a.fmod b) := by
  rw [fits_64] at hfit
  have habs : (a.tmod b).natAbs < b.natAbs := by
    rw [Int.natAbs_tmod]
    exact Nat.mod_lt _ (Int.natAbs_pos.mpr hb)
  have hneg : a < 0 → a.tmod b ≤ 0 := fun h => by
    have := Int.tmod_nonneg b (show 0 ≤ -a by omega)
    rw [Int.neg_tmod] at this
    omega
  have hpos : 0 ≤ a → 0 ≤ a.tmod b := Int.tmod_nonneg b
  have hfmod := @Int.fmod_eq_tmod a b
  rw [pyModI64, wrappingRem, if_neg hb, ok_bind]
  by_cases hsign : (0 < a.tmod b ∧ b < 0) ∨ (a.tmod b < 0 ∧ 0 < b)
  · have hdvd : ¬b ∣ a := fun h => by
      have := Int.tmod_eq_zero_of_dvd h
      omega
    rw [if_pos hsign, native_ok (by rw [fits_64]; omega), hfmod, if_neg hdvd]
    congr 1
    split <;> split <;> omega
  · rw [if_neg hsign, hfmod]
    by_cases hdvd : b ∣ a
    · rw [if_pos hdvd, Int.add_zero]
      rfl
    · have hne : a.tmod b ≠ 0 := fun h => hdvd (Int.dvd_of_tmod_eq_zero h)
      rw [if_neg hdvd]
      congr 1
      split <;> split <;> omega

theorem fits_fmod (hb : b ≠ 0) (hfit : Fits 64 b) : Fits 64 (a.fmod b) := by
  rw [fits_64] at hfit ⊢
  have hlow := Int.emod_nonneg a hb
  have hhigh := Int.emod_lt_abs a hb
  rw [abs_eq_max_neg] at hhigh
  rw [Int.fmod_eq_emod]
  by_cases hdvd : b ∣ a
  · have := Int.emod_eq_zero_of_dvd hdvd
    split <;> omega
  · have : a % b ≠ 0 := fun h => hdvd (Int.dvd_of_emod_eq_zero h)
    split <;> omega

/-- What is left after the remainder is taken away is divided exactly. -/
theorem sub_fmod_tdiv (hb : b ≠ 0) : (a-a.fmod b).tdiv b = a.fdiv b := by
  rw [← Int.mul_fdiv_self, Int.mul_tdiv_cancel_left _ hb]

theorem agrees_checked {v : ℤ} :
    Agrees (F := F) (O := O) (.int <$> orDecline (checked 64 v)) (some (.int v)) := by
  rw [checked]
  by_cases h : Fits 64 v
  · rw [if_pos h]
    exact Or.inr ⟨_, rfl, rfl, h⟩
  · rw [if_neg h]
    exact Or.inl rfl

theorem agrees_floorDiv (hb : b ≠ 0) (hfit : Fits 64 b) :
    Agrees (F := F) (O := O) (do
      let m ← pyModI64 a b
      let multiple ← orDecline (checked 64 (a-m))
      .int <$> orDecline (checkedDiv multiple b)) (some (.int (a.fdiv b))) := by
  rw [pyModI64_eq hb hfit, ok_bind, checked]
  by_cases h : Fits 64 (a-a.fmod b)
  · rw [if_pos h, orDecline, ok_bind, checkedDiv, if_neg hb, sub_fmod_tdiv hb]
    exact agrees_checked
  · rw [if_neg h]
    exact Or.inl rfl

theorem shiftLeft_agrees :
    Agrees (F := F) (O := O)
      (if b < 0 then .error .declined
      else if 64 ≤ b then .error .declined
      else
        let r := word 64 a <<< b.toNat
        if (r.sshiftRight b.toNat).toInt = a then pure (.int r.toInt) else .error .declined)
      (if b < 0 then none else some (.int (a*2^b.toNat))) := by
  by_cases hb : b < 0
  · simp only [hb, if_true]
    exact Or.inl rfl
  · by_cases hlong : 64 ≤ b
    · simp only [hb, hlong, if_true, if_false]
      exact Or.inl rfl
    · simp only [hb, hlong, if_false, shiftLeft_back_iff (w := 64) (by omega)
        (show b.toNat ≤ 64 by omega)]
      by_cases hfit : Fits 64 (a*2^b.toNat)
      · rw [if_pos hfit, word_shiftLeft, toInt_word (by omega) hfit]
        exact Or.inr ⟨_, rfl, rfl, hfit⟩
      · rw [if_neg hfit]
        exact Or.inl rfl

/-- A shift by the word or more leaves the sign alone. -/
theorem fdiv_pow_long (ha : Fits 64 a) {n : ℕ} (hn : 64 ≤ n) :
    a.fdiv (2^n) = if a < 0 then -1 else 0 := by
  have hpow : (2 : ℤ)^64 ≤ 2^n := pow_le_pow_right₀ (by omega) hn
  rw [fits_64] at ha
  rw [Int.fdiv_eq_ediv_of_nonneg _ (by positivity)]
  by_cases hneg : a < 0
  · rw [if_pos hneg, Int.ediv_eq_iff_of_pos (by positivity)]
    omega
  · rw [if_neg hneg, Int.ediv_eq_iff_of_pos (by positivity)]
    omega

theorem fits_ediv_pow (ha : Fits 64 a) (n : ℕ) : Fits 64 (a / 2^n) := by
  rw [← toInt_shiftRight (by omega) ha]
  exact fits_toInt _

theorem shiftRight_agrees (ha : Fits 64 a) :
    Agrees (F := F) (O := O)
      (if b < 0 then .error .declined
      else if 64 ≤ b then pure (.int (if a < 0 then -1 else 0))
      else pure (.int ((word 64 a).sshiftRight b.toNat).toInt))
      (if b < 0 then none else some (.int (a.fdiv (2^b.toNat)))) := by
  by_cases hb : b < 0
  · simp only [hb, if_true]
    exact Or.inl rfl
  · by_cases hlong : 64 ≤ b
    · simp only [hb, hlong, if_true, if_false, fdiv_pow_long ha (show 64 ≤ b.toNat by omega)]
      refine Or.inr ⟨_, rfl, rfl, ?_⟩
      rw [Holdable, fits_64]
      split <;> omega
    · simp only [hb, hlong, if_false, toInt_shiftRight (w := 64) (by omega) ha]
      refine Or.inr ⟨_, rfl, ?_, fits_ediv_pow ha _⟩
      rw [Int.fdiv_eq_ediv_of_nonneg _ (by positivity)]

theorem agrees_pure (r : Value F O) (h : Holdable (some r)) :
    Agrees (pure r) (some r) := Or.inr ⟨r, rfl, rfl, h⟩

theorem intIntFast_agrees (divide : ℤ → ℤ → F) (ha : Fits 64 a) (hb : Fits 64 b)
    {op : BinaryOp} (hop : op ≠ .div) :
    Agrees (intIntFast (O := O) divide a b op) (exact a b op) := by
  cases op with
  | add | sub | mul => exact agrees_checked
  | mod =>
    rw [intIntFast, exact]
    by_cases h : b = 0
    · rw [if_neg (not_not.mpr h)]
      exact Or.inl rfl
    · rw [if_pos h, if_neg h, pyModI64_eq h hb]
      exact agrees_pure _ (fits_fmod h hb)
  | floorDiv =>
    rw [intIntFast, exact]
    by_cases h : b = 0
    · rw [if_neg (not_not.mpr h)]
      exact Or.inl rfl
    · rw [if_pos h, if_neg h]
      exact agrees_floorDiv h hb
  | bitAnd =>
    rw [intIntFast, exact, toInt_and (by omega) ha hb]
    refine agrees_pure _ ?_
    rw [← Int.bitwise_and]
    exact fits_bitwise and ha hb
  | bitOr =>
    rw [intIntFast, exact, toInt_or (by omega) ha hb]
    refine agrees_pure _ ?_
    rw [← Int.bitwise_or]
    exact fits_bitwise or ha hb
  | bitXor =>
    rw [intIntFast, exact, toInt_xor (by omega) ha hb]
    refine agrees_pure _ ?_
    rw [← Int.bitwise_xor]
    exact fits_bitwise xor ha hb
  | lShift => exact shiftLeft_agrees
  | rShift => exact shiftRight_agrees ha
  | eq | ne | lt | le | gt | ge => exact agrees_pure _ trivial
  | div => exact absurd rfl hop
  | _ => exact Or.inl rfl

end agreement

/-! ## The sum of a chain -/

section concat
variable {F O E : Type}

namespace Value

/-- `as_int`. -/
def asInt : Value F O → Option ℤ
  | .int v => checked 64 v
  | _ => none

/-- `as_str`. -/
def asStr : Value F O → Option String
  | .str s => some s
  | _ => none

end Value

/-- The registers; `none` is one that is not set. -/
abbrev Registers (F O : Type) := ℕ → Option (Value F O)

variable (unset : ℕ → E) (evalBinary : Value F O → Value F O → Except E (Value F O))
variable (regs : Registers F O)

/-- `vm_read`. -/
def vmRead (reg : ℕ) : Except E (Value F O) :=
  match regs reg with
  | some v => .ok v
  | none => .error (unset reg)

/-- The additions from some operand on, by the general protocol. -/
def addFrom (base index count : ℕ) (result : Value F O) : Except E (Value F O) :=
  (List.range' index (count-index)).foldlM (fun result index => do
    let next ← vmRead unset regs (base+index)
    evalBinary result next) result

/-- The loop over machine integers: the index it stops at and the sum so far. -/
def sumFrom (base count : ℕ) : ℕ → ℕ → ℤ → ℕ × ℤ
  | 0, index, accumulator => (index, accumulator)
  | fuel+1, index, accumulator =>
    if index < count then
      match (regs (base+index)).bind Value.asInt with
      | none => (index, accumulator)
      | some value =>
        match checked 64 (accumulator+value) with
        | none => (index, accumulator)
        | some sum => sumFrom base count fuel (index+1) sum
    else (index, accumulator)

/-- `eval_concat_fast`; the addition of the general protocol is a parameter. -/
def evalConcatFast (base count : ℕ) : Except E (Value F O) :=
  let strings := (List.range count).map fun index => (regs (base+index)).bind Value.asStr
  if strings.all Option.isSome then .ok (.str (String.join strings.reduceOption))
  else
    match (regs base).bind Value.asInt, (regs (base+1)).bind Value.asInt with
    | some first, some second =>
      match checked 64 (first+second) with
      | some sum =>
        let (index, accumulator) := sumFrom regs base count count 2 sum
        if index = count then .ok (.int accumulator)
        else addFrom unset evalBinary regs base index count (.int accumulator)
      | none => vmRead unset regs base >>= addFrom unset evalBinary regs base 1 count
    | _, _ => vmRead unset regs base >>= addFrom unset evalBinary regs base 1 count

end concat

/-! ## The sum is exact -/

section exactSum
variable {F O E : Type} {unset : ℕ → E}
variable {evalBinary : Value F O → Value F O → Except E (Value F O)}
variable {regs : Registers F O} {base : ℕ} {vs : List ℤ}
variable (hregs : ∀ i (h : i < vs.length), regs (base+i) = some (.int vs[i]))
include hregs

/-- The loop stops at an index up to which it has the sum. -/
theorem sumFrom_spec (fuel index : ℕ) (hi : index ≤ vs.length) :
    (sumFrom regs base vs.length fuel index (vs.take index).sum).1 ≤ vs.length ∧
      (sumFrom regs base vs.length fuel index (vs.take index).sum).2 =
        (vs.take (sumFrom regs base vs.length fuel index (vs.take index).sum).1).sum := by
  induction fuel generalizing index with
  | zero => exact ⟨hi, rfl⟩
  | succ fuel ih =>
    rw [sumFrom]
    by_cases hlt : index < vs.length
    · rw [if_pos hlt, hregs index hlt, Option.bind_some, Value.asInt]
      cases hvalue : checked 64 vs[index] with
      | none =>
        exact ⟨hi, by simp⟩
      | some value =>
        obtain ⟨rfl, -⟩ := checked_some hvalue
        cases hsum : checked 64 ((vs.take index).sum+vs[index]) with
        | none =>
          simp only [hsum]
          exact ⟨hi, trivial⟩
        | some sum =>
          simp only [hsum]
          obtain ⟨rfl, -⟩ := checked_some hsum
          rw [← List.sum_take_succ _ _ hlt]
          exact ih (index+1) hlt
    · rw [if_neg hlt]
      exact ⟨hi, rfl⟩

variable (hadd : ∀ m n : ℤ, evalBinary (.int m) (.int n) = .ok (.int (m+n)))
include hadd

/-- The general additions from any prefix on. -/
theorem addFrom_exact {index : ℕ} (hi : index ≤ vs.length) :
    addFrom unset evalBinary regs base index vs.length (.int (vs.take index).sum) =
      .ok (.int vs.sum) := by
  obtain ⟨k, hk⟩ : ∃ k, vs.length-index = k := ⟨_, rfl⟩
  rw [addFrom, hk]
  induction k generalizing index with
  | zero =>
    rw [List.take_of_length_le (by omega)]
    rfl
  | succ k ih =>
    have hlt : index < vs.length := by omega
    rw [List.range'_succ, List.foldlM_cons, vmRead, hregs index hlt]
    have hstep : (do
        let next ← Except.ok (Value.int vs[index])
        evalBinary (.int (vs.take index).sum) next) = .ok (.int (vs.take (index+1)).sum) := by
      rw [List.sum_take_succ _ _ hlt]
      exact hadd _ _
    rw [hstep]
    exact ih hlt (by omega)

theorem evalConcatFast_exact (hlen : 2 ≤ vs.length) :
    evalConcatFast unset evalBinary regs base vs.length = .ok (.int vs.sum) := by
  have hfirst := hregs 0 (by omega)
  have hsecond := hregs 1 (by omega)
  rw [Nat.add_zero] at hfirst
  have hnone : ((List.range vs.length).map fun index =>
      (regs (base+index)).bind Value.asStr).all Option.isSome = false := by
    rw [List.all_eq_false]
    refine ⟨none, List.mem_map.mpr ⟨0, List.mem_range.mpr (by omega), ?_⟩, by simp⟩
    rw [Nat.add_zero, hfirst]
    rfl
  have hgeneral : vmRead unset regs base >>= addFrom unset evalBinary regs base 1 vs.length =
      .ok (.int vs.sum) := by
    have hone : (vs.take 1).sum = vs[0] := by
      rw [List.sum_take_succ _ _ (by omega)]
      simp
    rw [vmRead, hfirst, ← @addFrom_exact _ _ _ unset _ _ _ _ hregs hadd 1 (by omega), hone]
    rfl
  rw [evalConcatFast, hnone, hfirst, hsecond, Option.bind_some, Option.bind_some, Value.asInt,
    Value.asInt]
  cases hx : checked 64 vs[0] with
  | none => exact hgeneral
  | some first =>
    cases hy : checked 64 vs[1] with
    | none => exact hgeneral
    | some second =>
      obtain ⟨rfl, -⟩ := checked_some hx
      obtain ⟨rfl, -⟩ := checked_some hy
      cases hsum : checked 64 (vs[0]+vs[1]) with
      | none => simpa [hsum] using hgeneral
      | some sum =>
        simp only [hsum]
        obtain ⟨rfl, -⟩ := checked_some hsum
        have htwo : vs[0]+vs[1] = (vs.take 2).sum := by
          rw [List.sum_take_succ _ _ (by omega), List.sum_take_succ _ _ (by omega)]
          simp
        obtain ⟨hle, heq⟩ := sumFrom_spec hregs vs.length 2 (by omega)
        rw [htwo]
        by_cases hend : (sumFrom regs base vs.length vs.length 2 (vs.take 2).sum).1 = vs.length
        · rw [hend, List.take_length] at heq
          simp [hend, heq]
        · simp only [hend, if_false, heq]
          exact addFrom_exact hregs hadd hle

end exactSum

/-! ## The chains of the compiler -/

section chains
variable {numLocals : ℕ} {strConst : ℕ → Bool}

/-- Every fused chain has three operands or more. -/
def ChainsLong (insns : List Insn) : Prop :=
  ∀ dst base count, Insn.concat dst base count ∈ insns → 3 ≤ count

theorem mergeOnce_chainsLong {s s' : ConcatChains.Stream}
    (h : ConcatChains.mergeOnce numLocals strConst s = some s') (hs : ChainsLong s.insns) :
    ChainsLong s'.insns := by
  obtain ⟨c, hc, rfl⟩ := Option.map_eq_some_iff.mp h
  have hf := ConcatChains.firstChain_found hc
  intro dst base count hmem
  obtain ⟨q, hq⟩ := List.mem_iff_getElem?.mp hmem
  rcases ConcatChains.rebuild_cases hf hq with ⟨k, x, hx, -, -, hrel⟩ | ⟨b, r, -, -, hmove⟩ |
    ⟨-, hconcat⟩
  · obtain rfl := ConcatRounds.relocate_plain (s := s) hrel.symm rfl
    exact hs dst base count (List.mem_of_getElem? hx)
  · cases hmove
  · cases hconcat
    have := hf.two_le
    omega

/-- A chain that `eval_concat_fast` gets has at least three operands. -/
theorem passConcatMerge_chainsLong {s : ConcatChains.Stream} (hs : ChainsLong s.insns) :
    ChainsLong (ConcatChains.passConcatMerge numLocals strConst s).insns := by
  have hround : ∀ k, ChainsLong (ConcatChains.rounds numLocals strConst s k).insns := by
    intro k
    induction k with
    | zero => exact hs
    | succ k ih =>
      rw [ConcatChains.rounds]
      cases hm : ConcatChains.mergeOnce numLocals strConst
          (ConcatChains.rounds numLocals strConst s k) with
      | none => exact ih
      | some s' => exact mergeOnce_chainsLong hm ih
  exact hround _

end chains

/-! ## Arithmetic on machine integers is exact -/

section main
variable {F O E : Type}

/-- What the fast path returns is exact, it never leaves the word and it declines where the
exact result does or where there is none. The pass that fuses additions leaves only chains of
three operands or more, and the sum of a chain of integers is exact. -/
theorem machine_integers_exact (divide : ℤ → ℤ → F) (unset : ℕ → E) :
    (∀ (a b : ℤ) (op : BinaryOp), Fits 64 a → Fits 64 b → op ≠ .div →
      intIntFast (O := O) divide a b op ≠ .error .overflow ∧
      (∀ r, intIntFast (O := O) divide a b op = .ok r → exact a b op = some r) ∧
      (¬Holdable (exact (F := F) (O := O) a b op) →
        intIntFast (O := O) divide a b op = .error .declined)) ∧
    (∀ numLocals strConst (s : ConcatChains.Stream), ChainsLong s.insns →
      ChainsLong (ConcatChains.passConcatMerge numLocals strConst s).insns) ∧
    (∀ (evalBinary : Value F O → Value F O → Except E (Value F O)) (regs : Registers F O)
      (base : ℕ) (vs : List ℤ), 2 ≤ vs.length →
      (∀ i (h : i < vs.length), regs (base+i) = some (.int vs[i])) →
      (∀ m n : ℤ, evalBinary (.int m) (.int n) = .ok (.int (m+n))) →
      evalConcatFast unset evalBinary regs base vs.length = .ok (.int vs.sum)) := by
  refine ⟨fun a b op ha hb hop => ?_, fun _ _ _ hs => passConcatMerge_chainsLong hs,
    fun _ _ _ _ hlen hregs hadd => evalConcatFast_exact hregs hadd hlen⟩
  rcases intIntFast_agrees (O := O) divide ha hb hop with h | ⟨r, h, hexact, hhold⟩
  · rw [h]
    exact ⟨by simp, by simp, fun _ => rfl⟩
  · rw [h, hexact]
    refine ⟨by simp, fun r' hr' => ?_, fun hn => absurd hhold hn⟩
    cases hr'
    rfl

/-- An addition of two integers, and of nothing else. -/
def addInts : Value F O → Value F O → Except Unit (Value F O)
  | .int m, .int n => .ok (.int (m+n))
  | _, _ => .error ()

/-- The smallest machine integer does not fit when its sign is changed, and a running sum leaves
the word and comes back. -/
theorem machine_integers_exact_min :
    intIntFast (F := Unit) (O := Unit) (fun _ _ => ()) (-2^63) (-1) .floorDiv =
        .error .declined ∧
      evalConcatFast (F := Unit) (O := Unit) (fun _ => ()) addInts
        (fun r => [2^63-1, 1, -2][r]?.map .int) 0 3 = .ok (.int (2^63-2)) := by
  obtain ⟨hfast, -, hconcat⟩ := machine_integers_exact (F := Unit) (O := Unit) (E := Unit)
    (fun _ _ => ()) (fun _ => ())
  constructor
  · refine (hfast (-2^63) (-1) .floorDiv (by decide) (by decide) (by decide)).2.2 ?_
    show ¬Fits 64 ((-2^63 : ℤ).fdiv (-1))
    decide
  · refine hconcat addInts _ 0 [2^63-1, 1, -2] (by decide) (fun i h => ?_) fun m n => rfl
    rw [Nat.zero_add, List.getElem?_eq_getElem h]
    rfl

end main

end Pyrust.FastArithmetic
