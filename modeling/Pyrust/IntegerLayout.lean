import Mathlib.Data.Nat.Digits.Defs
import Mathlib.Data.Nat.Size
import Mathlib.Tactic.IntervalCases
import Mathlib.Tactic.SplitIfs
import Pyrust.FixedWidth
import Pyrust.FormatSpecs
import Pyrust.SeparatedLists

/-!
# Layout of formatted integers

An integer is written as a sign, a prefix for the base and its digits, with separators
when the specification asks for them, and is padded to the width. Zeros between the
prefix and the digits take part in the grouping. Machine integers and big integers are
written by two functions.
-/

set_option autoImplicit false

namespace Pyrust.IntegerLayout

open FormatSpecs SeparatedLists

/-! ## Grouping and padding -/

/-- An error that is raised, or an index that is out of range. -/
inductive FormatError where
  | valueErr (message : String)
  | overflowErr (message : String)
  | panicked
  deriving DecidableEq, Repr

def signPrefixFor (negative : Bool) (sign : Option Char) : List Char :=
  if negative then ['-']
  else if sign = some '+' then ['+']
  else if sign = some ' ' then [' ']
  else []

/-- `dst -= 1; out[dst] = c;` -/
def putBefore (s : ℕ × List Char) (c : Char) : Except FormatError (ℕ × List Char) :=
  if 0 < s.1 ∧ s.1 - 1 < s.2.length then .ok (s.1 - 1, s.2.set (s.1 - 1) c)
  else .error .panicked

/-- The step of the loop for the digit of number `i` from the right. -/
def groupStep (sep : Char) (groupSize : ℕ) (s : ℕ × List Char) (digit : Char × ℕ) :
    Except FormatError (ℕ × List Char) := do
  let s ← (if 0 < digit.2 ∧ digit.2 % groupSize = 0 then putBefore s sep else .ok s)
  putBefore s digit.1

def groupDigits (digits : List Char) (sep : Char) (groupSize : ℕ) :
    Except FormatError (List Char) := do
  let sepCount := (digits.length - 1) / groupSize
  let out := List.replicate (digits.length + sepCount) (Char.ofNat 0)
  let s ← digits.reverse.zipIdx.foldlM (groupStep sep groupSize) (out.length, out)
  pure s.2

/-- The length of `n` digits with their separators. -/
def groupedLen (groupSize n : ℕ) : ℕ := if n = 0 then 0 else n + (n-1) / groupSize

/-- The digits that are needed to reach the length, counted up from `n`. -/
def growDigits (groupSize targetIntLen n : ℕ) : ℕ :=
  if groupedLen groupSize n < targetIntLen then growDigits groupSize targetIntLen (n+1) else n
termination_by targetIntLen - n
decreasing_by
  have := le_separatedLen (k := groupSize) n
  simp only [groupedLen, separatedLen] at *
  omega

/-- The buffer is filled from the right, and the digits in it are counted. -/
def pushDigit (sepByte : Char) (groupSize : ℕ) (s : List Char × ℕ) (d : Char) : List Char × ℕ :=
  let outRev := if 0 < s.2 ∧ s.2 % groupSize = 0 then s.1 ++ [sepByte] else s.1
  (outRev ++ [d], s.2 + 1)

def regroupWithZeroPad (body : List Char) (pad : ℕ) (sep : Char) (groupSize : ℕ) : List Char :=
  let ends := fun c => c == '.' || c == 'e' || c == 'E' || c == '%'
  let (intPart, rest) :=
    if groupSize = 3 then (body.takeWhile fun c => !ends c, body.dropWhile fun c => !ends c)
    else (body, [])
  let bareLen := (intPart.filter (· != sep)).length
  let targetIntLen := intPart.length + pad
  let n := growDigits groupSize targetIntLen bareLen
  let zeros := n - bareLen
  let s := (intPart.reverse.filter (· != sep)).foldl (pushDigit sep groupSize) ([], 0)
  let s := (List.replicate zeros '0').foldl (pushDigit sep groupSize) s
  s.1.reverse ++ rest

def effectiveAlign (fs : FormatSpec) (defaultAlign : Char) : Char :=
  match fs.align with
  | some a => a
  | none => if fs.zeroPad then '=' else defaultAlign

def effectiveFill (fs : FormatSpec) : Char :=
  if fs.zeroPad && !fs.fillExplicit then '0' else fs.fill

def assembleNumeric (signPrefix altPrefix body : List Char) (fs : FormatSpec)
    (defaultAlign : Char) (groupSize : ℕ) : List Char :=
  let rawLen := signPrefix.length + altPrefix.length + body.length
  if fs.width = 0 ∨ fs.width ≤ rawLen then signPrefix ++ altPrefix ++ body
  else
    let pad := fs.width - rawLen
    let fillStr := List.replicate pad (effectiveFill fs)
    match effectiveAlign fs defaultAlign with
    | '=' =>
      let bodyGrouped :=
        match fs.grouping with
        | some grouping =>
          if effectiveFill fs = '0' then regroupWithZeroPad body pad grouping groupSize
          else fillStr ++ body
        | none => fillStr ++ body
      signPrefix ++ altPrefix ++ bodyGrouped
    | '>' => fillStr ++ signPrefix ++ altPrefix ++ body
    | '<' => signPrefix ++ altPrefix ++ body ++ fillStr
    | '^' =>
      let left := pad / 2
      let right := pad - left
      List.replicate left (effectiveFill fs) ++ signPrefix ++ altPrefix ++ body ++
        List.replicate right (effectiveFill fs)
    | _ => signPrefix ++ altPrefix ++ body

/-- Pad a string-typed value. -/
def padValue (raw : List Char) (fs : FormatSpec) (defaultAlign fill : Char) : List Char :=
  if fs.width = 0 ∨ fs.width ≤ raw.length then raw
  else
    let pad := fs.width - raw.length
    match fs.align.getD defaultAlign with
    | '>' => List.replicate pad fill ++ raw
    | '<' => raw ++ List.replicate pad fill
    | '^' => List.replicate (pad / 2) fill ++ raw ++ List.replicate (pad - pad / 2) fill
    | _ => raw ++ List.replicate pad fill

/-! ## Machine integers and big integers -/

/-- The digits of a `u64`. -/
def intBody (magnitude : ℕ) (typeChar : Char) : List Char :=
  match typeChar with
  | 'd' => Nat.toDigits 10 magnitude
  | 'b' => Nat.toDigits 2 magnitude
  | 'o' => Nat.toDigits 8 magnitude
  | 'x' => Nat.toDigits 16 magnitude
  | 'X' => (Nat.toDigits 16 magnitude).map Char.toUpper
  | _ => Nat.toDigits 10 magnitude

def bigintBody (magnitude : ℕ) (typeChar : Char) : List Char :=
  let radix := if typeChar = 'b' then 2 else if typeChar = 'o' then 8
    else if typeChar = 'x' ∨ typeChar = 'X' then 16 else 10
  let s := Nat.toDigits radix magnitude
  if typeChar = 'X' then s.map Char.toUpper else s

def prefixFor (typeChar : Char) (alt : Bool) : List Char :=
  if !alt then []
  else
    match typeChar with
    | 'b' => ['0', 'b']
    | 'o' => ['0', 'o']
    | 'x' => ['0', 'x']
    | 'X' => ['0', 'X']
    | _ => []

/-- The separators that an integer type allows. -/
def groupingAllowed (g effectiveT : Char) : Bool :=
  if g = ',' then effectiveT == 'd'
  else if g = '_' then
    effectiveT == 'd' || effectiveT == 'b' || effectiveT == 'o' || effectiveT == 'x' ||
      effectiveT == 'X'
  else false

def precisionError : FormatError := .valueErr "Precision not allowed in integer format specifier"

def charOptionsError : FormatError :=
  .valueErr "Cannot specify ',' or '_', sign, or '#' with 'c'."

def cannotSpecify (g t : Char) : FormatError :=
  .valueErr ("Cannot specify '" ++ g.toString ++ "' with '" ++ t.toString ++ "'.")

/-- 'n' is the same as 'd', without a separator of its own. -/
def effectiveType (grouping : Option Char) (t : Char) : Except FormatError Char :=
  match grouping with
  | some g => if t = 'n' then .error (cannotSpecify g 'n') else .ok t
  | none => .ok (if t = 'n' then 'd' else t)

def validateGrouping (grouping : Option Char) (effectiveT : Char) : Except FormatError Unit :=
  match grouping with
  | some g => if groupingAllowed g effectiveT then .ok () else .error (cannotSpecify g effectiveT)
  | none => .ok ()

/-- The digits with the separators of the specification, laid out. -/
def layOut (negative : Bool) (body : List Char) (fs : FormatSpec) (effectiveT : Char) :
    Except FormatError (List Char) := do
  let groupSize := if effectiveT = 'd' then 3 else 4
  let body ← (match fs.grouping with
    | some g => groupDigits body g groupSize
    | none => .ok body)
  pure (assembleNumeric (signPrefixFor negative fs.sign) (prefixFor effectiveT fs.alt) body fs
    '>' groupSize)

/-- The values that the formatter tells apart. -/
inductive Value where
  | int (n : ℤ)
  | bool (b : Bool)
  | bigInt (b : ℤ)
  | other
  deriving DecidableEq, Repr

/-- The decimal digits of a big integer are more than the limit; a limit of zero is none. -/
def bigintStrDigitsExceedLimit (limit : ℕ) (b : ℤ) : Bool :=
  if limit = 0 then false
  else
    -- a bound on the digits by the bits spares the conversion
    let upper := min (b.natAbs.size * 30103) (2^64 - 1) / 100000 + 1
    if upper ≤ limit then false else decide (limit < (Nat.toDigits 10 b.natAbs).length)

def formatBigintValue (limit : ℕ) (b : ℤ) (fs : FormatSpec) (typeChar : Option Char) :
    Except FormatError (List Char) :=
  if fs.precision.isSome then .error precisionError
  else
    let t := typeChar.getD 'd'
    if t = 'c' then
      if fs.sign.isSome || fs.alt || fs.grouping.isSome then .error charOptionsError
      else .error (.overflowErr "Python int too large to convert to C long")
    else do
      let effectiveT ← effectiveType fs.grouping t
      if effectiveT = 'd' ∧ bigintStrDigitsExceedLimit limit b then
        .error (.valueErr ("Exceeds the limit (" ++ toString limit ++
          " digits) for integer string conversion; use sys.set_int_max_str_digits()" ++
          " to increase the limit"))
      else do
        validateGrouping fs.grouping effectiveT
        layOut (decide (b < 0)) (bigintBody b.natAbs effectiveT) fs effectiveT

/-- The machine integer of a value, as an `i128`. -/
def formatMachineInt (n : ℤ) (fs : FormatSpec) (typeChar : Option Char) :
    Except FormatError (List Char) :=
  if fs.precision.isSome then .error precisionError
  else
    let t := typeChar.getD 'd'
    if t = 'c' then
      if fs.sign.isSome || fs.alt || fs.grouping.isSome then .error charOptionsError
      else if 0 ≤ n ∧ n ≤ 0x10FFFF ∧ n.toNat.isValidChar then
        .ok (padValue [Char.ofNat n.toNat] fs '<' fs.fill)
      else .error (.overflowErr "%c arg not in range(0x110000)")
    else do
      let effectiveT ← effectiveType fs.grouping t
      validateGrouping fs.grouping effectiveT
      let negative := decide (n < 0)
      -- `as u64` keeps the low bits
      let magnitude := if negative then ((-n) % 2^64).toNat else (n % 2^64).toNat
      layOut negative (intBody magnitude effectiveT) fs effectiveT

def formatIntValue (limit : ℕ) (value : Value) (fs : FormatSpec) (typeChar : Option Char)
    (typeName : String) : Except FormatError (List Char) :=
  match value with
  | .bigInt b => formatBigintValue limit b fs typeChar
  | .int n => formatMachineInt n fs typeChar
  | .bool b => formatMachineInt (if b then 1 else 0) fs typeChar
  | .other => .error (.valueErr ("Unknown format code '" ++
      formatCodeRepr (typeChar.getD 'd') ++ "' for object of type '" ++ typeName ++ "'"))

/-! ## The loops -/

section loops
variable {k : ℕ} {sep : Char}

theorem ok_bind {α β : Type} (a : α) (f : α → Except FormatError β) :
    ((Except.ok a : Except FormatError α) >>= f) = f a := rfl

/-- A character is put before the filled part of the buffer. -/
theorem putBefore_replicate (n : ℕ) (z c : Char) (filled : List Char) :
    putBefore (n+1, List.replicate (n+1) z ++ filled) c =
      .ok (n, List.replicate n z ++ c::filled) := by
  have hlen : n < (List.replicate (n+1) z ++ filled).length := by
    rw [List.length_append, List.length_replicate]
    omega
  have hset : (List.replicate (n+1) z ++ filled).set n c = List.replicate n z ++ c::filled := by
    rw [List.replicate_succ', List.append_assoc, List.set_append_right _ _ (by simp)]
    simp
  rw [putBefore, if_pos ⟨Nat.succ_pos n, hlen⟩, Nat.add_sub_cancel, hset]

/-- The loop fills the buffer from the right and needs exactly the room for the rest. -/
theorem foldlM_groupStep (xs : List Char) (i free : ℕ) (z : Char) (filled : List Char) :
    (xs.zipIdx i).foldlM (groupStep sep k)
        ((separate k sep i xs).length + free,
          List.replicate ((separate k sep i xs).length + free) z ++ filled) =
      .ok (free, List.replicate free z ++ ((separate k sep i xs).reverse ++ filled)) := by
  induction xs generalizing i filled with
  | nil => simp [separate, pure, Except.pure]
  | cons x xs ih =>
    rw [List.zipIdx_cons, List.foldlM_cons, groupStep, separate]
    split
    · rename_i hgroup
      have hlen : (sep::x::separate k sep (i+1) xs).length + free =
          (separate k sep (i+1) xs).length + free + 1 + 1 := by
        simp only [List.length_cons]
        omega
      rw [hlen, putBefore_replicate, ok_bind, putBefore_replicate, ok_bind, ih]
      simp
    · rename_i hgroup
      have hlen : (x::separate k sep (i+1) xs).length + free =
          (separate k sep (i+1) xs).length + free + 1 := by
        simp only [List.length_cons]
        omega
      rw [hlen, ok_bind, putBefore_replicate, ok_bind, ih]
      simp

/-- No index of the loop is out of range. -/
theorem groupDigits_ok (digits : List Char) :
    groupDigits digits sep k = .ok (grouped k sep digits) := by
  have hlen : digits.length + (digits.length - 1) / k =
      (separate k sep 0 digits.reverse).length := by
    have hsep := @length_grouped _ k sep digits
    rw [grouped, List.length_reverse] at hsep
    rw [hsep, separatedLen]
    split
    · rename_i hzero
      rw [hzero, Nat.zero_sub, Nat.zero_div]
    · rfl
  have hloop := @foldlM_groupStep k sep digits.reverse 0 0 (Char.ofNat 0) []
  rw [Nat.add_zero, List.append_nil] at hloop
  simp only [groupDigits, List.length_replicate, hlen, hloop, ok_bind]
  simp [grouped, pure, Except.pure]

theorem growDigits_spec (target n : ℕ) :
    n ≤ growDigits k target n ∧ target ≤ separatedLen k (growDigits k target n) ∧
      ∀ m, n ≤ m → target ≤ separatedLen k m → growDigits k target n ≤ m := by
  fun_induction growDigits k target n with
  | case1 n hlt ih =>
    obtain ⟨hle, hreach, hleast⟩ := ih
    refine ⟨by omega, hreach, fun m hm htarget => hleast m ?_ htarget⟩
    rcases Nat.lt_or_ge n m with h | h
    · exact h
    · obtain rfl : n = m := by omega
      exact absurd hlt (Nat.not_lt.mpr htarget)
  | case2 n hge => exact ⟨le_rfl, Nat.not_lt.mp hge, fun m hm _ => hm⟩

theorem foldl_pushDigit (xs out : List Char) (i : ℕ) :
    xs.foldl (pushDigit sep k) (out, i) = (out ++ separate k sep i xs, i + xs.length) := by
  induction xs generalizing out i with
  | nil => simp [separate]
  | cons x xs ih =>
    rw [List.foldl_cons, pushDigit, ih, separate, List.length_cons]
    split <;> simp <;> omega

/-- Zeros are put before the digits and grouped with them. -/
theorem regroupWithZeroPad_eq {digits : List Char} (hsep : sep ∉ digits)
    (hends : k = 3 → ∀ c ∈ grouped k sep digits,
      (c == '.' || c == 'e' || c == 'E' || c == '%') = false) (pad : ℕ) :
    regroupWithZeroPad (grouped k sep digits) pad sep k =
      grouped k sep (List.replicate (growDigits k ((grouped k sep digits).length + pad)
        digits.length - digits.length) '0' ++ digits) := by
  have hfilter := filter_grouped (k := k) hsep
  have hsplit : (if k = 3 then
      ((grouped k sep digits).takeWhile fun c => !(c == '.' || c == 'e' || c == 'E' || c == '%'),
        (grouped k sep digits).dropWhile fun c => !(c == '.' || c == 'e' || c == 'E' || c == '%'))
      else (grouped k sep digits, [])) = (grouped k sep digits, []) := by
    split
    · rename_i hk
      have hall : ∀ c ∈ grouped k sep digits,
          (!(c == '.' || c == 'e' || c == 'E' || c == '%')) = true := fun c hc => by
        rw [hends hk c hc]
        rfl
      rw [List.takeWhile_eq_self_iff.mpr hall, List.dropWhile_eq_nil_iff.mpr hall]
    · rfl
  simp only [regroupWithZeroPad, hsplit, hfilter, List.filter_reverse, foldl_pushDigit,
    List.nil_append, Nat.zero_add, List.append_nil]
  rw [grouped_append, List.reverse_replicate, List.length_reverse, List.reverse_append]
  rfl

end loops

/-! ## Digits -/

section digits

/-- The base of an integer type. -/
def baseOf (t : Char) : ℕ := if t = 'b' then 2 else if t = 'o' then 8
  else if t = 'x' ∨ t = 'X' then 16 else 10

def digitSymbol (upper : Bool) (v : ℕ) : Char :=
  if upper then v.digitChar.toUpper else v.digitChar

/-- The text has the digits of the number in the base, without leading zeros. -/
def Spells (base : ℕ) (upper : Bool) (n : ℕ) (text : List Char) : Prop :=
  ∃ values : List ℕ, text = values.map (digitSymbol upper) ∧ (∀ v ∈ values, v < base) ∧
    Nat.ofDigits base values.reverse = n ∧ values ≠ [] ∧ (values.head? = some 0 → values = [0])

theorem toDigits_spells {base : ℕ} (hbase : 1 < base) (n : ℕ) :
    ∃ values : List ℕ, Nat.toDigits base n = values.map Nat.digitChar ∧ (∀ v ∈ values, v < base) ∧
      Nat.ofDigits base values.reverse = n ∧ values ≠ [] ∧
      (values.head? = some 0 → values = [0]) := by
  induction n using Nat.strongRecOn with
  | ind n ih =>
    rcases Nat.lt_or_ge n base with hlt | hge
    · refine ⟨[n], Nat.toDigits_of_lt_base hlt, by simpa using hlt, by simp, by simp, ?_⟩
      intro hzero
      obtain rfl := Option.some.inj hzero
      rfl
    · obtain ⟨values, htext, hdigits, hvalue, hne, hhead⟩ := ih (n/base)
        (Nat.div_lt_self (by omega) hbase)
      have hmod := Nat.mod_lt n (by omega : 0 < base)
      refine ⟨values ++ [n % base], ?_, ?_, ?_, by simp, fun hzero => ?_⟩
      · rw [Nat.toDigits_of_base_le hbase hge, htext, List.map_append]
        rfl
      · intro v hv
        rcases List.mem_append.mp hv with hv | hv
        · exact hdigits v hv
        · rw [List.mem_singleton.mp hv]
          exact hmod
      · rw [List.reverse_append, List.reverse_singleton, List.singleton_append,
          Nat.ofDigits_cons, hvalue]
        exact Nat.mod_add_div n base
      · -- the quotient is not zero
        obtain ⟨v, vs, rfl⟩ := List.exists_cons_of_ne_nil hne
        obtain rfl : v = 0 := by simpa using hzero
        have hall := hhead rfl
        rw [hall] at hvalue
        have hpos := Nat.div_pos hge (by omega : 0 < base)
        simp at hvalue
        omega

theorem bigintBody_eq (n : ℕ) (t : Char) : bigintBody n t =
    if t = 'X' then (Nat.toDigits (baseOf t) n).map Char.toUpper
    else Nat.toDigits (baseOf t) n := rfl

theorem one_lt_baseOf (t : Char) : 1 < baseOf t ∧ baseOf t ≤ 16 := by
  rw [baseOf]
  split_ifs <;> decide

theorem bigintBody_spells (n : ℕ) (t : Char) :
    Spells (baseOf t) (t == 'X') n (bigintBody n t) := by
  obtain ⟨values, htext, hrest⟩ := toDigits_spells (one_lt_baseOf t).1 n
  refine ⟨values, ?_, hrest⟩
  rw [bigintBody_eq, htext]
  by_cases hupper : t = 'X'
  · rw [if_pos hupper, hupper, List.map_map]
    rfl
  · rw [if_neg hupper, beq_eq_false_iff_ne.mpr hupper]
    rfl

/-- The machine word is written as the big integer is. -/
theorem intBody_eq {t : Char} (ht : t ∈ ['b', 'o', 'd', 'x', 'X']) (n : ℕ) :
    intBody n t = bigintBody n t := by
  simp only [List.mem_cons, List.not_mem_nil, or_false] at ht
  rcases ht with rfl | rfl | rfl | rfl | rfl <;> rfl

theorem digitSymbol_ne {v : ℕ} (h : v < 16) (upper : Bool) :
    isGrouping (digitSymbol upper v) = false := by
  interval_cases v <;> cases upper <;> decide

theorem digitSymbol_decimal {v : ℕ} (h : v < 10) :
    (digitSymbol false v == '.' || digitSymbol false v == 'e' || digitSymbol false v == 'E' ||
      digitSymbol false v == '%') = false := by
  interval_cases v <;> decide

variable {base n : ℕ} {upper : Bool} {text : List Char}

theorem Spells.not_mem (h : Spells base upper n text) (hbase : base ≤ 16) {sep : Char}
    (hsep : isGrouping sep = true) : sep ∉ text := by
  obtain ⟨values, rfl, hdigits, -⟩ := h
  intro hmem
  obtain ⟨v, hv, rfl⟩ := List.mem_map.mp hmem
  rw [digitSymbol_ne (Nat.lt_of_lt_of_le (hdigits v hv) hbase)] at hsep
  cases hsep

theorem mem_separate {k i : ℕ} {sep c : Char} {xs : List Char} (h : c ∈ separate k sep i xs) :
    c = sep ∨ c ∈ xs := by
  induction xs generalizing i with
  | nil => cases h
  | cons x xs ih =>
    rw [separate] at h
    split at h
    · rcases List.mem_cons.mp h with rfl | h
      · exact .inl rfl
      · rcases List.mem_cons.mp h with rfl | h
        · exact .inr List.mem_cons_self
        · exact (ih h).imp id (List.mem_cons_of_mem _)
    · rcases List.mem_cons.mp h with rfl | h
      · exact .inr List.mem_cons_self
      · exact (ih h).imp id (List.mem_cons_of_mem _)

/-- Nothing in a grouped decimal text looks like the end of an integer part. -/
theorem Spells.no_end (h : Spells 10 false n text) {sep c : Char} {k : ℕ}
    (hsep : isGrouping sep = true) (hc : c ∈ grouped k sep text) :
    (c == '.' || c == 'e' || c == 'E' || c == '%') = false := by
  obtain ⟨values, rfl, hdigits, -⟩ := h
  rcases mem_separate (List.mem_reverse.mp hc) with rfl | hc
  · simp only [isGrouping, Bool.or_eq_true, beq_iff_eq] at hsep
    rcases hsep with rfl | rfl <;> decide
  · obtain ⟨v, hv, rfl⟩ := List.mem_map.mp (List.mem_reverse.mp hc)
    exact digitSymbol_decimal (hdigits v hv)

end digits

/-! ## The layout -/

section layout

/-- Padding around and inside a text that is too short, at the places of the alignment. -/
def Padded (align fill : Char) (width : ℕ) (sign pre body out : List Char) : Prop :=
  ∃ left mid right : ℕ, out = List.replicate left fill ++ sign ++ pre ++
      List.replicate mid fill ++ body ++ List.replicate right fill ∧
    left + mid + right = width - (sign ++ pre ++ body).length ∧
    (align = '>' → mid = 0 ∧ right = 0) ∧ (align = '<' → left = 0 ∧ mid = 0) ∧
    (align = '=' → left = 0 ∧ right = 0) ∧
    (align = '^' → mid = 0 ∧ left = (left + mid + right) / 2)

/-- Zeros are padded between the prefix and the digits, which are grouped. -/
def ZeroGrouped (fs : FormatSpec) : Prop :=
  effectiveAlign fs '>' = '=' ∧ effectiveFill fs = '0' ∧ fs.grouping ≠ none

instance (fs : FormatSpec) : Decidable (ZeroGrouped fs) := inferInstanceAs (Decidable (_ ∧ _ ∧ _))

def groupSizeOf (t : Char) : ℕ := if t = 'd' then 3 else 4

/-- The text of an integer: its sign, the prefix of the base and its digits, padded to the width. -/
def Layout (fs : FormatSpec) (t : Char) (n : ℤ) (out : List Char) : Prop :=
  ∃ digits, Spells (baseOf t) (t == 'X') n.natAbs digits ∧ fs.width ≤ out.length ∧
    match fs.grouping with
    | none => Padded (effectiveAlign fs '>') (effectiveFill fs) fs.width
        (signPrefixFor (n < 0) fs.sign) (prefixFor t fs.alt) digits out
    | some sep =>
      if ZeroGrouped fs then
        ∃ zeros, GroupedAs (groupSizeOf t) sep (List.replicate zeros '0' ++ digits)
            (grouped (groupSizeOf t) sep (List.replicate zeros '0' ++ digits)) ∧
          out = signPrefixFor (n < 0) fs.sign ++ prefixFor t fs.alt ++
            grouped (groupSizeOf t) sep (List.replicate zeros '0' ++ digits) ∧
          ∀ fewer < zeros, (signPrefixFor (n < 0) fs.sign ++ prefixFor t fs.alt ++
            grouped (groupSizeOf t) sep (List.replicate fewer '0' ++ digits)).length < fs.width
      else GroupedAs (groupSizeOf t) sep digits (grouped (groupSizeOf t) sep digits) ∧
        Padded (effectiveAlign fs '>') (effectiveFill fs) fs.width
          (signPrefixFor (n < 0) fs.sign) (prefixFor t fs.alt)
          (grouped (groupSizeOf t) sep digits) out

variable {fs : FormatSpec} {sign pre body : List Char} {k : ℕ}

theorem Padded.width_le {align fill : Char} {width : ℕ} {out : List Char}
    (h : Padded align fill width sign pre body out) : width ≤ out.length := by
  obtain ⟨left, mid, right, rfl, hpad, -⟩ := h
  simp only [List.length_append, List.length_replicate] at hpad ⊢
  omega

/-- The padding of an integer whose zeros are not grouped. -/
theorem assembleNumeric_padded (halign : isAlign (effectiveAlign fs '>') = true)
    (hnot : ¬ ZeroGrouped fs) :
    Padded (effectiveAlign fs '>') (effectiveFill fs) fs.width sign pre body
      (assembleNumeric sign pre body fs '>' k) := by
  rw [assembleNumeric]
  split
  · rename_i hlong
    refine ⟨0, 0, 0, by simp, ?_, by simp, by simp, by simp, by simp⟩
    simp only [List.length_append]
    omega
  · rename_i hshort
    rw [Padded, List.length_append, List.length_append]
    generalize fs.width - (sign.length + pre.length + body.length) = pad
    simp only [isAlign, Bool.or_eq_true, beq_iff_eq] at halign
    rcases halign with ((heq | heq) | heq) | heq <;> rw [heq]
    · exact ⟨0, 0, pad, by simp, by simp, by simp, by simp, by simp, by simp⟩
    · exact ⟨pad, 0, 0, by simp, by simp, by simp, by simp, by simp, by simp⟩
    · refine ⟨0, pad, 0, ?_, by simp, by simp, by simp, by simp, by simp⟩
      cases hg : fs.grouping with
      | none => simp
      | some sep =>
        have hfill : effectiveFill fs ≠ '0' := fun hfill => hnot ⟨heq, hfill, by simp [hg]⟩
        simp [hfill]
    · refine ⟨pad/2, 0, pad - pad/2, by simp, by omega, by simp, by simp, by simp, fun _ => ?_⟩
      exact ⟨rfl, by omega⟩

/-- Zeros that are grouped with the digits, as few as reach the width. -/
theorem assembleNumeric_zeroGrouped {sep : Char} {digits : List Char} (hzero : ZeroGrouped fs)
    (hg : fs.grouping = some sep) (hsep : sep ∉ digits)
    (hends : k = 3 → ∀ c ∈ grouped k sep digits,
      (c == '.' || c == 'e' || c == 'E' || c == '%') = false) :
    ∃ zeros, assembleNumeric sign pre (grouped k sep digits) fs '>' k =
        sign ++ pre ++ grouped k sep (List.replicate zeros '0' ++ digits) ∧
      fs.width ≤ (sign ++ pre ++ grouped k sep (List.replicate zeros '0' ++ digits)).length ∧
      ∀ fewer < zeros,
        (sign ++ pre ++ grouped k sep (List.replicate fewer '0' ++ digits)).length < fs.width := by
  rw [assembleNumeric]
  split
  · rename_i hlong
    refine ⟨0, by simp, ?_, by simp⟩
    simp only [List.replicate_zero, List.nil_append, List.length_append]
    omega
  · rename_i hshort
    obtain ⟨pad, hpad⟩ : ∃ pad,
        pad = fs.width - (sign.length + pre.length + (grouped k sep digits).length) := ⟨_, rfl⟩
    obtain ⟨hle, hreach, hleast⟩ := growDigits_spec (k := k)
      ((grouped k sep digits).length + pad) digits.length
    rw [← hpad]
    refine ⟨growDigits k ((grouped k sep digits).length + pad) digits.length - digits.length,
      ?_, ?_, fun fewer hfewer => ?_⟩
    · rw [hzero.1, hg]
      simp only [hzero.2.1, if_true, regroupWithZeroPad_eq hsep hends]
    · rw [List.length_append, List.length_append, length_grouped, List.length_append,
        List.length_replicate, Nat.sub_add_cancel hle]
      omega
    · by_contra hwide
      rw [List.length_append, List.length_append, length_grouped, List.length_append,
        List.length_replicate] at hwide
      have hgrow := hleast (fewer + digits.length) (Nat.le_add_left _ _) (by omega)
      omega

/-- The parts of an accepted specification that lay an integer out. -/
structure Accepted (fs : FormatSpec) (t : Char) : Prop where
  align : isAlign (effectiveAlign fs '>') = true
  grouping : ∀ sep ∈ fs.grouping, isGrouping sep = true ∧ groupingAllowed sep t = true
  type : t ∈ ['b', 'o', 'd', 'x', 'X']

variable {t : Char}

theorem layOut_layout (h : Accepted fs t) (n : ℤ) :
    ∃ out, layOut (decide (n < 0)) (bigintBody n.natAbs t) fs t = .ok out ∧ Layout fs t n out := by
  have hspells := bigintBody_spells n.natAbs t
  have hk : 0 < groupSizeOf t := by
    rw [groupSizeOf]
    split <;> decide
  change ∃ out, ((match fs.grouping with
    | some g => groupDigits (bigintBody n.natAbs t) g (groupSizeOf t)
    | none => .ok (bigintBody n.natAbs t)) >>= fun body =>
      pure (assembleNumeric (signPrefixFor (decide (n < 0)) fs.sign) (prefixFor t fs.alt) body fs
        '>' (groupSizeOf t))) = Except.ok out ∧ Layout fs t n out
  cases hg : fs.grouping with
  | none =>
    have hnot : ¬ ZeroGrouped fs := fun hzero => hzero.2.2 hg
    have hpadded := @assembleNumeric_padded _ (signPrefixFor (decide (n < 0)) fs.sign)
      (prefixFor t fs.alt) (bigintBody n.natAbs t) (groupSizeOf t) h.align hnot
    refine ⟨_, rfl, _, hspells, hpadded.width_le, ?_⟩
    rw [hg]
    exact hpadded
  | some sep =>
    obtain ⟨hsep, -⟩ := h.grouping sep hg
    have hmem := hspells.not_mem (one_lt_baseOf t).2 hsep
    simp only [groupDigits_ok, ok_bind]
    by_cases hzero : ZeroGrouped fs
    · have hends : groupSizeOf t = 3 → ∀ c ∈ grouped (groupSizeOf t) sep (bigintBody n.natAbs t),
          (c == '.' || c == 'e' || c == 'E' || c == '%') = false := by
        intro hthree c hc
        obtain rfl : t = 'd' := by
          by_contra hne
          rw [groupSizeOf, if_neg hne] at hthree
          omega
        exact hspells.no_end hsep hc
      obtain ⟨zeros, heq, hwidth, hfewer⟩ :=
        @assembleNumeric_zeroGrouped _ (signPrefixFor (decide (n < 0)) fs.sign) (prefixFor t fs.alt)
          _ _ _ hzero hg hmem hends
      refine ⟨_, rfl, _, hspells, heq ▸ hwidth, ?_⟩
      rw [hg]
      simp only [hzero, if_true]
      refine ⟨zeros, grouped_groupedAs hk fun hin => ?_, heq, hfewer⟩
      rcases List.mem_append.mp hin with hin | hin
      · rw [(List.mem_replicate.mp hin).2] at hsep
        exact absurd hsep (by decide)
      · exact hmem hin
    · have hpadded := @assembleNumeric_padded _ (signPrefixFor (decide (n < 0)) fs.sign)
        (prefixFor t fs.alt) (grouped (groupSizeOf t) sep (bigintBody n.natAbs t)) (groupSizeOf t)
        h.align hzero
      refine ⟨_, rfl, _, hspells, hpadded.width_le, ?_⟩
      rw [hg]
      simp only [hzero, if_false]
      exact ⟨grouped_groupedAs hk hmem, hpadded⟩

theorem accepted_of_parse {spec : List Char} {typeName : String}
    (hparse : parseFormatSpec spec typeName = .ok fs)
    (htype : ∀ t ∈ fs.typeChar, t ∈ ['b', 'o', 'd', 'x', 'X']) :
    Accepted fs (fs.typeChar.getD 'd') := by
  obtain ⟨d, hwf, -, -, rfl⟩ := parseFormatSpec_ok_iff.mp hparse
  refine ⟨?_, fun sep hsep => ⟨(hwf.grouping sep hsep).1, ?_⟩, ?_⟩
  · rw [effectiveAlign]
    split
    · rename_i a ha
      exact hwf.align a ha
    · split <;> decide
  · obtain ⟨hsep, hok⟩ := hwf.grouping sep hsep
    simp only [isGrouping, Bool.or_eq_true, beq_iff_eq] at hsep
    change groupingAllowed sep (d.typeChar.getD 'd') = true
    cases ht : d.typeChar with
    | none => rcases hsep with rfl | rfl <;> decide
    | some t =>
      have hmem := htype t ht
      have hok := hok t ht
      simp only [List.mem_cons, List.not_mem_nil, or_false] at hmem
      rcases hsep with rfl | rfl <;> rcases hmem with rfl | rfl | rfl | rfl | rfl <;>
        first | rfl | cases hok
  · change d.typeChar.getD 'd' ∈ _
    cases ht : d.typeChar with
    | none => decide
    | some t => exact htype t ht

/-- The checks of an accepted specification pass. -/
theorem Accepted.checks (h : Accepted fs t) : t ≠ 'c' ∧
    effectiveType fs.grouping t = .ok t ∧ validateGrouping fs.grouping t = .ok () := by
  have hnot : t ≠ 'c' ∧ t ≠ 'n' := by
    have hmem := h.type
    simp only [List.mem_cons, List.not_mem_nil, or_false] at hmem
    rcases hmem with rfl | rfl | rfl | rfl | rfl <;> decide
  refine ⟨hnot.1, ?_, ?_⟩
  · cases fs.grouping with
    | none => exact congrArg Except.ok (if_neg hnot.2)
    | some g => exact if_neg hnot.2
  · cases hg : fs.grouping with
    | none => rfl
    | some g => exact if_pos (h.grouping g hg).2

/-- A machine integer is laid out as the big integer of the same value. -/
theorem formatMachineInt_eq {typeChar : Option Char} (h : Accepted fs (typeChar.getD 'd'))
    (hprec : fs.precision = none) {n : ℤ} (hn : FixedWidth.Fits 64 n) :
    formatMachineInt n fs typeChar = layOut (decide (n < 0))
      (bigintBody n.natAbs (typeChar.getD 'd')) fs (typeChar.getD 'd') := by
  obtain ⟨hc, heffective, hvalid⟩ := h.checks
  obtain ⟨hlo, hhi⟩ := FixedWidth.fits_64.mp hn
  have hmagnitude : (if decide (n < 0) = true then ((-n) % 2^64).toNat else (n % 2^64).toNat) =
      n.natAbs := by
    by_cases hneg : n < 0
    · rw [if_pos (decide_eq_true hneg), Int.emod_eq_of_lt (by omega) (by omega)]
      omega
    · rw [if_neg (by simpa using hneg), Int.emod_eq_of_lt (by omega) (by omega)]
      omega
  rw [formatMachineInt, hprec]
  simp only [Option.isSome_none, Bool.false_eq_true, if_false, hc, heffective, ok_bind, hvalid,
    hmagnitude, intBody_eq h.type]

theorem formatBigintValue_eq {typeChar : Option Char} (h : Accepted fs (typeChar.getD 'd'))
    (hprec : fs.precision = none) (limit : ℕ) (n : ℤ)
    (hlimit : ¬ (typeChar.getD 'd' = 'd' ∧ bigintStrDigitsExceedLimit limit n = true)) :
    formatBigintValue limit n fs typeChar = layOut (decide (n < 0))
      (bigintBody n.natAbs (typeChar.getD 'd')) fs (typeChar.getD 'd') := by
  obtain ⟨hc, heffective, hvalid⟩ := h.checks
  rw [formatBigintValue, hprec]
  simp only [Option.isSome_none, Bool.false_eq_true, if_false, hc, heffective, ok_bind, hlimit,
    hvalid]

theorem formatBigintValue_limit {typeChar : Option Char} (h : Accepted fs (typeChar.getD 'd'))
    (hprec : fs.precision = none) (limit : ℕ) (n : ℤ)
    (hlimit : typeChar.getD 'd' = 'd' ∧ bigintStrDigitsExceedLimit limit n = true) :
    ∃ e, formatBigintValue limit n fs typeChar = .error e := by
  obtain ⟨hc, heffective, -⟩ := h.checks
  rw [formatBigintValue, hprec]
  simp only [Option.isSome_none, Bool.false_eq_true, if_false, hc, heffective, ok_bind]
  rw [if_pos hlimit]
  exact ⟨_, rfl⟩

/-- Every accepted specification of an integer type lays out every integer, and on the integers of
the machine the two functions give the same text. A big integer is only refused for the number of
its decimal digits. -/
theorem format_integer_exact {spec : List Char} {typeName : String}
    (hparse : parseFormatSpec spec typeName = .ok fs) (hprec : fs.precision = none)
    (htype : ∀ t ∈ fs.typeChar, t ∈ ['b', 'o', 'd', 'x', 'X']) (limit : ℕ) :
    (∀ n, FixedWidth.Fits 64 n → ∃ out,
      formatIntValue limit (.int n) fs fs.typeChar typeName = .ok out ∧
        Layout fs (fs.typeChar.getD 'd') n out) ∧
    (∀ n, ¬ (fs.typeChar.getD 'd' = 'd' ∧ bigintStrDigitsExceedLimit limit n = true) →
      ∃ out, formatIntValue limit (.bigInt n) fs fs.typeChar typeName = .ok out ∧
        Layout fs (fs.typeChar.getD 'd') n out) ∧
    ∀ n out out', FixedWidth.Fits 64 n →
      formatIntValue limit (.int n) fs fs.typeChar typeName = .ok out →
      formatIntValue limit (.bigInt n) fs fs.typeChar typeName = .ok out' → out = out' := by
  have haccepted := accepted_of_parse hparse htype
  refine ⟨fun n hn => ?_, fun n hlimit => ?_, fun n out out' hn hint hbig => ?_⟩
  · rw [formatIntValue, formatMachineInt_eq haccepted hprec hn]
    exact layOut_layout haccepted n
  · rw [formatIntValue, formatBigintValue_eq haccepted hprec limit n hlimit]
    exact layOut_layout haccepted n
  · rw [formatIntValue, formatMachineInt_eq haccepted hprec hn] at hint
    have hlimit : ¬ (fs.typeChar.getD 'd' = 'd' ∧ bigintStrDigitsExceedLimit limit n = true) := by
      intro hlimit
      obtain ⟨e, he⟩ := formatBigintValue_limit haccepted hprec limit n hlimit
      rw [formatIntValue, he] at hbig
      cases hbig
    rw [formatIntValue, formatBigintValue_eq haccepted hprec limit n hlimit, hint] at hbig
    exact Except.ok.inj hbig

/-- `+#012_x` -/
def hexSpec : FormatSpec where
  fill := ' '
  align := none
  fillExplicit := false
  sign := some '+'
  alt := true
  zeroPad := true
  width := 12
  grouping := some '_'
  precision := none
  typeChar := some 'x'

theorem format_integer_exact_hex :
    (∀ n, FixedWidth.Fits 64 n → ∃ out,
      formatIntValue 4300 (.int n) hexSpec hexSpec.typeChar "int" = .ok out ∧
        Layout hexSpec (hexSpec.typeChar.getD 'd') n out) ∧
    (∀ n, ¬ (hexSpec.typeChar.getD 'd' = 'd' ∧ bigintStrDigitsExceedLimit 4300 n = true) →
      ∃ out, formatIntValue 4300 (.bigInt n) hexSpec hexSpec.typeChar "int" = .ok out ∧
        Layout hexSpec (hexSpec.typeChar.getD 'd') n out) ∧
    ∀ n out out', FixedWidth.Fits 64 n →
      formatIntValue 4300 (.int n) hexSpec hexSpec.typeChar "int" = .ok out →
      formatIntValue 4300 (.bigInt n) hexSpec hexSpec.typeChar "int" = .ok out' → out = out' :=
  @format_integer_exact _ ['+', '#', '0', '1', '2', '_', 'x'] _ rfl rfl
    (fun t ht => by obtain rfl := Option.some.inj ht; decide) 4300

end layout

end Pyrust.IntegerLayout
