import Mathlib.Data.List.Induction
import Mathlib.Data.List.TakeWhile

/-!
# Cursors over the characters of a text

A text is read from left to right with the byte position of each character in hand.
A slice between two byte positions exists when both are boundaries of characters.
The digits of a number are read from such a slice with a bound on the value.
-/

set_option autoImplicit false

namespace Pyrust.TextCursor

/-- The bytes of a text in UTF-8. -/
def byteLen : List Char → ℕ
  | [] => 0
  | c::cs => c.utf8Size + byteLen cs

/-- The characters with their positions, the first at `i`. -/
def charIndices : ℕ → List Char → List (ℕ × Char)
  | _, [] => []
  | i, c::cs => (i, c) :: charIndices (i + c.utf8Size) cs

/-- What follows the first `n` bytes, when they are whole characters. -/
def dropBytes : List Char → ℕ → Option (List Char)
  | cs, 0 => some cs
  | [], _+1 => none
  | c::cs, n+1 => if c.utf8Size ≤ n+1 then dropBytes cs (n+1 - c.utf8Size) else none

/-- The first `n` bytes, when they are whole characters. -/
def takeBytes : List Char → ℕ → Option (List Char)
  | _, 0 => some []
  | [], _+1 => none
  | c::cs, n+1 =>
    if c.utf8Size ≤ n+1 then (takeBytes cs (n+1 - c.utf8Size)).map (c :: ·) else none

/-- The bytes from `a` to `b`, when both are boundaries. -/
def slice (text : List Char) (a b : ℕ) : Option (List Char) :=
  if a ≤ b then (dropBytes text a).bind (takeBytes · (b - a)) else none

theorem byteLen_nil : byteLen [] = 0 := rfl

theorem byteLen_cons (c : Char) (cs : List Char) : byteLen (c::cs) = c.utf8Size + byteLen cs := rfl

theorem byteLen_append (cs ds : List Char) : byteLen (cs ++ ds) = byteLen cs + byteLen ds := by
  induction cs with
  | nil => rw [List.nil_append, byteLen_nil, Nat.zero_add]
  | cons c cs ih => rw [List.cons_append, byteLen_cons, ih, byteLen_cons, Nat.add_assoc]

theorem dropBytes_append (cs ds : List Char) : dropBytes (cs ++ ds) (byteLen cs) = some ds := by
  induction cs with
  | nil => rw [byteLen_nil, dropBytes, List.nil_append]
  | cons c cs ih =>
    obtain ⟨k, hk⟩ := Nat.exists_eq_add_of_lt c.utf8Size_pos
    have hlen : byteLen (c::cs) = k + byteLen cs + 1 := by rw [byteLen_cons]; omega
    have hrest : k + byteLen cs + 1 - c.utf8Size = byteLen cs := by omega
    rw [List.cons_append, hlen, dropBytes, if_pos (by omega), hrest, ih]

theorem takeBytes_append (cs ds : List Char) : takeBytes (cs ++ ds) (byteLen cs) = some cs := by
  induction cs with
  | nil => rw [byteLen_nil, takeBytes]
  | cons c cs ih =>
    obtain ⟨k, hk⟩ := Nat.exists_eq_add_of_lt c.utf8Size_pos
    have hlen : byteLen (c::cs) = k + byteLen cs + 1 := by rw [byteLen_cons]; omega
    have hrest : k + byteLen cs + 1 - c.utf8Size = byteLen cs := by omega
    rw [List.cons_append, hlen, takeBytes, if_pos (by omega), hrest, ih, Option.map_some]

/-- The slice between two boundaries. -/
theorem slice_append (pre mid post : List Char) :
    slice (pre ++ (mid ++ post)) (byteLen pre) (byteLen pre + byteLen mid) = some mid := by
  rw [slice, if_pos (Nat.le_add_right _ _), dropBytes_append, Option.bind_some,
    Nat.add_sub_cancel_left, takeBytes_append]

/-! ## Reading -/

/-- The next character, if it is one of those looked for. -/
def nextIf (p : Char → Bool) : List (ℕ × Char) → Option Char × List (ℕ × Char)
  | [] => (none, [])
  | (i, c)::chars => if p c then (some c, chars) else (none, (i, c)::chars)

/-- The position of the cursor in a text of `len` bytes. -/
def position (len : ℕ) : List (ℕ × Char) → ℕ
  | [] => len
  | (i, _)::_ => i

/-- The end of a run of digits that starts at `stop`, and the cursor behind it. -/
def digitRun : ℕ → List (ℕ × Char) → ℕ × List (ℕ × Char)
  | stop, [] => (stop, [])
  | stop, (i, c)::chars =>
    if c.isDigit then digitRun (i + 1) chars else (stop, (i, c)::chars)

/-- The characters that are left to read. -/
def At (text : List Char) (chars : List (ℕ × Char)) (rest : List Char) : Prop :=
  ∃ pre, text = pre ++ rest ∧ chars = charIndices (byteLen pre) rest

/-- The first character when it satisfies the test, and what follows. -/
def headIf (p : Char → Bool) : List Char → Option Char × List Char
  | [] => (none, [])
  | c::cs => if p c then (some c, cs) else (none, c::cs)

section reading
variable {text rest : List Char} {chars : List (ℕ × Char)} {p : Char → Bool} {c : Char}

theorem At.start (text : List Char) : At text (charIndices 0 text) text := ⟨[], rfl, rfl⟩

theorem At.nil_iff (h : At text chars rest) : chars = [] ↔ rest = [] := by
  obtain ⟨pre, -, rfl⟩ := h
  cases rest <;> simp [charIndices]

theorem At.cons (h : At text chars (c::rest)) :
    ∃ i chars', chars = (i, c)::chars' ∧ At text chars' rest := by
  obtain ⟨pre, rfl, rfl⟩ := h
  refine ⟨byteLen pre, charIndices (byteLen pre + c.utf8Size) rest, rfl, pre ++ [c], ?_, ?_⟩
  · rw [List.append_assoc, List.singleton_append]
  · rw [byteLen_append, byteLen_cons, byteLen_nil, Nat.add_zero]

theorem At.nextIf (h : At text chars rest) :
    ∃ chars', nextIf p chars = ((headIf p rest).1, chars') ∧ At text chars' (headIf p rest).2 := by
  cases rest with
  | nil =>
    obtain rfl := h.nil_iff.mpr rfl
    exact ⟨[], rfl, h⟩
  | cons c rest =>
    obtain ⟨i, chars', rfl, h'⟩ := h.cons
    rw [TextCursor.nextIf, headIf]
    split
    · exact ⟨chars', rfl, h'⟩
    · exact ⟨_, rfl, h⟩

/-- A part of one character, which is there when what stands at its place can begin it. -/
structure Taken (p : Char → Bool) (o : Option Char) (rest : List Char) : Prop where
  begins : ∀ c ∈ o, p c = true
  absent : o = none → ∀ c ∈ rest.head?, p c = false

theorem headIf_taken {o : Option Char} (h : Taken p o rest) :
    headIf p (o.toList ++ rest) = (o, rest) := by
  cases o with
  | some c => rw [Option.toList_some, List.singleton_append, headIf, if_pos (h.begins c rfl)]
  | none =>
    cases rest with
    | nil => rfl
    | cons c rest =>
      rw [Option.toList_none, List.nil_append, headIf, if_neg]
      rw [h.absent rfl c rfl]
      exact Bool.false_ne_true

theorem headIf_spec (p : Char → Bool) (rest : List Char) :
    rest = (headIf p rest).1.toList ++ (headIf p rest).2 ∧
      Taken p (headIf p rest).1 (headIf p rest).2 := by
  cases rest with
  | nil => exact ⟨rfl, fun c hc => (by cases hc), fun _ c hc => by cases hc⟩
  | cons c rest =>
    rw [headIf]
    split
    · rename_i hp
      refine ⟨rfl, fun d hd => ?_, fun hnone => by cases hnone⟩
      obtain rfl := Option.some.inj hd
      exact hp
    · rename_i hp
      refine ⟨rfl, fun d hd => (by cases hd), fun _ d hd => ?_⟩
      obtain rfl := Option.some.inj hd
      exact Bool.eq_false_iff.mpr hp

/-- Digits are one byte long. -/
theorem utf8Size_digit (h : c.isDigit = true) : c.utf8Size = 1 := by
  have hval : c.val ≥ 48 ∧ c.val ≤ 57 := by simpa [Char.isDigit] using h
  have hle : c.val ≤ 127 := UInt32.le_trans hval.2 (by decide)
  simp [Char.utf8Size, hle]

theorem byteLen_digits {ds : List Char} (h : ∀ c ∈ ds, c.isDigit = true) :
    byteLen ds = ds.length := by
  induction ds with
  | nil => rfl
  | cons d ds ih =>
    rw [byteLen_cons, utf8Size_digit (h d List.mem_cons_self),
      ih fun c hc => h c (List.mem_cons_of_mem _ hc), List.length_cons, Nat.add_comm]

theorem digitRun_charIndices (stop : ℕ) (rest : List Char) :
    digitRun stop (charIndices stop rest) =
      (stop + (rest.takeWhile Char.isDigit).length,
        charIndices (stop + (rest.takeWhile Char.isDigit).length)
          (rest.dropWhile Char.isDigit)) := by
  induction rest generalizing stop with
  | nil => rfl
  | cons c rest ih =>
    rw [charIndices, digitRun]
    split
    · rename_i hd
      rw [utf8Size_digit hd, ih, List.takeWhile_cons_of_pos hd, List.dropWhile_cons_of_pos hd,
        List.length_cons, Nat.add_assoc, Nat.add_comm 1]
    · rename_i hd
      rw [List.takeWhile_cons_of_neg hd, List.dropWhile_cons_of_neg hd]
      rfl

/-- A run of digits can be sliced out of the text. -/
theorem At.digitRun (h : At text chars rest) :
    ∃ stop chars', digitRun (TextCursor.position (byteLen text) chars) chars = (stop, chars') ∧
      slice text (TextCursor.position (byteLen text) chars) stop =
        some (rest.takeWhile Char.isDigit) ∧
      stop = TextCursor.position (byteLen text) chars +
        (rest.takeWhile Char.isDigit).length ∧
      At text chars' (rest.dropWhile Char.isDigit) := by
  obtain ⟨pre, rfl, rfl⟩ := h
  have hpos : TextCursor.position (byteLen (pre ++ rest)) (charIndices (byteLen pre) rest) =
      byteLen pre := by
    cases rest with
    | nil => rw [charIndices, TextCursor.position, List.append_nil]
    | cons c rest => rfl
  have hdigits : ∀ c ∈ rest.takeWhile Char.isDigit, c.isDigit = true := fun c hc =>
    List.mem_takeWhile_imp hc
  have hsplit := List.takeWhile_append_dropWhile (p := Char.isDigit) (l := rest)
  rw [hpos]
  refine ⟨_, _, digitRun_charIndices (byteLen pre) rest, ?_, rfl,
    pre ++ rest.takeWhile Char.isDigit, ?_, ?_⟩
  · have hslice := slice_append pre (rest.takeWhile Char.isDigit) (rest.dropWhile Char.isDigit)
    rwa [hsplit, byteLen_digits hdigits] at hslice
  · rw [List.append_assoc, hsplit]
  · rw [byteLen_append, byteLen_digits hdigits]

end reading

/-! ## Decimal numbers -/

/-- A checked operation of an unsigned type with values below the bound. -/
def below (bound n : ℕ) : Option ℕ := if n < bound then some n else none

/-- One digit more, with a checked product and a checked sum. -/
def parseDigit (bound n : ℕ) (c : Char) : Option ℕ := do
  let scaled ← below bound (n*10)
  below bound (scaled + (c.toNat - '0'.toNat))

/-- The value of the digits, when each step of the loop stays below the bound. -/
def parseDigits (bound : ℕ) (ds : List Char) : Option ℕ := ds.foldlM (parseDigit bound) 0

def digitsValue (ds : List Char) : ℕ := Nat.ofDigitChars 10 ds 0

section numbers
variable {bound n : ℕ} {c : Char} {ds : List Char}

theorem parseDigit_eq : parseDigit bound n c =
    if 10*n + (c.toNat - '0'.toNat) < bound then some (10*n + (c.toNat - '0'.toNat))
    else none := by
  rw [parseDigit, below, Nat.mul_comm n 10]
  by_cases hn : 10*n < bound
  · rw [if_pos hn]
    rfl
  · rw [if_neg hn, if_neg (by omega)]
    rfl

theorem foldlM_parseDigit (ds : List Char) (n : ℕ) (hn : n < bound) :
    ds.foldlM (parseDigit bound) n =
      if Nat.ofDigitChars 10 ds n < bound then some (Nat.ofDigitChars 10 ds n) else none := by
  induction ds generalizing n with
  | nil => rw [List.foldlM_nil, Nat.ofDigitChars_nil, if_pos hn]; rfl
  | cons c ds ih =>
    rw [List.foldlM_cons, parseDigit_eq, Nat.ofDigitChars_cons]
    by_cases hstep : 10*n + (c.toNat - '0'.toNat) < bound
    · rw [if_pos hstep]
      exact ih _ hstep
    · -- the value only grows with the digits that follow
      have hgrow : 10*n + (c.toNat - '0'.toNat) ≤
          Nat.ofDigitChars 10 ds (10*n + (c.toNat - '0'.toNat)) := by
        rw [Nat.ofDigitChars_eq_ofDigitChars_zero]
        have hpow := Nat.le_mul_of_pos_left (10*n + (c.toNat - '0'.toNat))
          (Nat.pow_pos (n := ds.length) (by omega : 0 < 10))
        omega
      rw [if_neg hstep, if_neg (by omega)]
      rfl

theorem parseDigits_eq (hbound : 0 < bound) (ds : List Char) :
    parseDigits bound ds = if digitsValue ds < bound then some (digitsValue ds) else none :=
  foldlM_parseDigit ds 0 hbound

theorem digit_char (h : c.isDigit = true) : ∃ d < 10, c = d.digitChar := by
  have hval : c.val ≥ 48 ∧ c.val ≤ 57 := by simpa [Char.isDigit] using h
  have hlo : 48 ≤ c.toNat := UInt32.le_iff_toNat_le.mp hval.1
  have hhi : c.toNat ≤ 57 := UInt32.le_iff_toNat_le.mp hval.2
  refine ⟨c.toNat - 48, by omega, Char.toNat_inj.mp ?_⟩
  rw [Nat.toNat_digitChar_of_lt_ten (by omega)]
  omega

/-- Without its leading zeros a run of digits is the numeral of its value, or nothing. -/
theorem dropZeros_eq (h : ∀ c ∈ ds, c.isDigit = true) :
    ds.dropWhile (· == '0') =
      if digitsValue ds = 0 then [] else Nat.toDigits 10 (digitsValue ds) := by
  induction ds using List.reverseRecOn with
  | nil => rfl
  | append_singleton ds c ih =>
    have ih := ih fun d hd => h d (List.mem_append_left _ hd)
    obtain ⟨d, hd, rfl⟩ := digit_char (h c (by simp))
    have hvalue : digitsValue (ds ++ [d.digitChar]) = 10 * digitsValue ds + d := by
      rw [digitsValue, Nat.ofDigitChars_append, Nat.ofDigitChars_cons_digitChar_of_lt_ten hd,
        Nat.ofDigitChars_nil]
      rfl
    rw [List.dropWhile_append, ih, hvalue]
    by_cases hzero : digitsValue ds = 0
    · rw [if_pos hzero, List.isEmpty_nil, if_pos rfl, hzero, Nat.mul_zero, Nat.zero_add]
      by_cases hd0 : d = 0
      · subst hd0
        rfl
      · have hne : ¬ (fun x => x == '0') d.digitChar = true := by simpa using hd0
        rw [List.dropWhile_cons_of_neg (p := fun x => x == '0') hne, if_neg hd0,
          Nat.toDigits_of_lt_base hd]
    · rw [if_neg hzero, if_neg (by simp), if_neg (by omega),
        ← Nat.toDigits_append_toDigits (by omega) (Nat.pos_of_ne_zero hzero) hd,
        Nat.toDigits_of_lt_base hd]

end numbers

end Pyrust.TextCursor
