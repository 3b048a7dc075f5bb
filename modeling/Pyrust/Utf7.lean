import Pyrust.DigitGroups
import Pyrust.WideCodecs

/-!
# The UTF-7 codec

A run of characters that are not direct is written as base64 digits of its
UTF-16 units. The encoder regroups sixteen bits into six and the decoder six
into sixteen, both in an accumulator of thirty-two bits.
-/

set_option autoImplicit false

namespace Pyrust.Utf7
open Pyrust.Cesu8 Pyrust.WideCodecs Pyrust.DigitGroups

def utf7B64 : List ℕ :=
  "ABCDEFGHIJKLMNOPQRSTUVWXYZabcdefghijklmnopqrstuvwxyz0123456789+/".toList.map Char.toNat

def base64Digit (v : ℕ) : ℕ := utf7B64.getD v 0

def utf7IsDirect (cp : ℕ) : Bool :=
  cp == 0x09 || cp == 0x0A || cp == 0x0D ||
    0x20 ≤ cp && cp ≤ 0x7E && cp != 0x2B && cp != 0x5C && cp != 0x7E

def utf7IsB64 (cp : ℕ) : Bool :=
  0x41 ≤ cp && cp ≤ 0x5A || 0x61 ≤ cp && cp ≤ 0x7A || 0x30 ≤ cp && cp ≤ 0x39 || cp == 0x2B ||
    cp == 0x2F

/-! ## Encoding -/

structure Encoder where
  out : List ℕ
  acc : ℕ
  nbits : ℕ
  shifted : Bool

/-- Whole digits leave the accumulator. -/
def emitDigits (e : Encoder) : Encoder :=
  if 6 ≤ e.nbits then
    emitDigits { e with
      nbits := e.nbits-6
      out := e.out ++ [base64Digit (e.acc/2^(e.nbits-6) % 64)] }
  else e
termination_by e.nbits

def pushUnit (e : Encoder) (unit : ℕ) : Encoder :=
  emitDigits { e with acc := (e.acc*2^16+unit) % 2^32, nbits := e.nbits+16 }

/-- The section ends before `next`, or at the end of the string. -/
def closeShift (e : Encoder) (next : Option ℕ) : Encoder :=
  let out :=
    if 0 < e.nbits then e.out ++ [base64Digit (e.acc*2^(6-e.nbits) % 2^32 % 64)] else e.out
  let emitDash :=
    match next with
    | none => true
    | some c => c == 0x2D || utf7IsB64 c
  { e with out := if emitDash then out ++ [0x2D] else out, acc := 0, nbits := 0 }

/-- The units of a code point; a surrogate is its own unit. -/
def utf7Units (cp : ℕ) : List ℕ :=
  if isSurrogate cp then [cp]
  else if isChar cp then encodeUtf16 cp
  else []

def encodeUtf7Codepoint (e : Encoder) (cp : ℕ) : Encoder :=
  if utf7IsDirect cp then
    let e := if e.shifted then { closeShift e (some cp) with shifted := false } else e
    { e with out := e.out ++ [cp] }
  else if cp == 0x2B && !e.shifted then { e with out := e.out ++ [0x2B, 0x2D] }
  else
    -- inside a section `+` is one more unit
    let e := if !e.shifted then { e with out := e.out ++ [0x2B], shifted := true } else e
    (utf7Units cp).foldl pushUnit e

def encodeUtf7 (source : List ℕ) : List ℕ :=
  let e := (cesu8Codepoints source).foldl encodeUtf7Codepoint ⟨[], 0, 0, false⟩
  (if e.shifted then closeShift e none else e).out

/-! ## Decoding -/

def utf7Base64Value (b : ℕ) : Option ℕ :=
  if 0x41 ≤ b ∧ b ≤ 0x5A then some (b-0x41)
  else if 0x61 ≤ b ∧ b ≤ 0x7A then some (b-0x61+26)
  else if 0x30 ≤ b ∧ b ≤ 0x39 then some (b-0x30+52)
  else if b = 0x2B then some 62
  else if b = 0x2F then some 63
  else none

/-- What is wrong with the bits that fill no unit. -/
def paddingError (acc nbits : ℕ) : Option String :=
  if 6 ≤ nbits then some "partial character in shift sequence"
  else if 0 < nbits ∧ acc % 2^nbits ≠ 0 then some "non-zero padding bits in shift sequence"
  else none

def decodeDigits (acc nbits : ℕ) (units : List ℕ) : List ℕ → List ℕ × Option String
  | [] => (units, paddingError acc nbits)
  | c::b64 =>
    match utf7Base64Value c with
    | none => (units, some "partial character in shift sequence")
    | some v =>
      let acc := (acc*2^6+v) % 2^32
      if 16 ≤ nbits+6 then
        decodeDigits acc (nbits+6-16) (units ++ [acc/2^(nbits+6-16) % 2^16]) b64
      else decodeDigits acc (nbits+6) units b64

def utf7Base64Decode (b64 : List ℕ) : List ℕ × Option String := decodeDigits 0 0 [] b64

def utf7UnitsToCodepoints : List ℕ → List ℕ
  | [] => []
  | u::units =>
    match units with
    | [] => [u]
    | low::rest =>
      if isHighSurrogate u && isLowSurrogate low then
        joinSurrogates u low::utf7UnitsToCodepoints rest
      else u::utf7UnitsToCodepoints (low::rest)

def startsWithDash (bytes : List ℕ) : Bool := bytes.head? == some 0x2D

def decodeSections (bytes : List ℕ) (i : ℕ) : List ℕ → List ℕ → Except PyError (List ℕ)
  | [], cps => .ok cps
  | b::rest, cps =>
    if b ≠ 0x2B then decodeSections bytes (i+1) rest (cps ++ [b])
    else if startsWithDash rest then decodeSections bytes (i+2) (rest.drop 1) (cps ++ [0x2B])
    else
      let b64 := rest.takeWhile fun c => (utf7Base64Value c).isSome
      let tail := rest.drop b64.length
      let dash := if startsWithDash tail then 1 else 0
      match utf7Base64Decode b64 with
      | (_, some reason) =>
        .error (.unicodeDecodeError "utf7" bytes i (i+1+b64.length+dash) reason)
      | (units, none) =>
        decodeSections bytes (i+1+b64.length+dash) (tail.drop dash)
          (cps ++ utf7UnitsToCodepoints units)
termination_by rest => rest.length
decreasing_by all_goals grind

def decodeUtf7 (bytes : List ℕ) : Except PyError (List ℕ) :=
  (decodeSections bytes 0 bytes []).map stringBytes

/-! ## The base64 alphabet -/

theorem utf7Base64Value_digit {v : ℕ} (h : v < 64) :
    utf7Base64Value (base64Digit v) = some v := by
  have hdigits : utf7B64.map utf7Base64Value = (List.range 64).map some := by decide +kernel
  obtain ⟨a, ha, hv⟩ := Option.map_eq_some_iff.mp (show utf7B64[v]?.map _ = some (some v) by
    rw [← List.getElem?_map, hdigits, List.getElem?_map, List.getElem?_range h]
    rfl)
  rw [base64Digit, List.getD_eq_getElem?_getD, ha]
  exact hv

theorem utf7IsB64_eq (c : ℕ) : utf7IsB64 c = (utf7Base64Value c).isSome := by
  unfold utf7IsB64 utf7Base64Value
  split_ifs
  all_goals simp
  all_goals omega

/-! ## Decoding the digits -/

attribute [local simp] decodeDigits in
/-- The decoder's accumulator holds what the digits spell. -/
theorem decodeDigits_total {digits : List ℕ} (hdigits : ∀ d ∈ digits, d < 64)
    {done : List ℕ} {acc nbits : ℕ} {units : List ℕ} (hn : nbits < 16)
    (hunits : ∀ u ∈ units, u < 2^16) (htotal : total 16 units acc nbits = value 6 done)
    (hlength : 16*units.length+nbits = 6*done.length) :
    ∃ acc' nbits' units', decodeDigits acc nbits units (digits.map base64Digit) =
        (units', paddingError acc' nbits') ∧ nbits' < 16 ∧ (∀ u ∈ units', u < 2^16) ∧
      total 16 units' acc' nbits' = value 6 (done ++ digits) ∧
      16*units'.length+nbits' = 6*(done ++ digits).length := by
  induction digits generalizing done acc nbits units with
  | nil =>
    rw [List.append_nil]
    exact ⟨acc, nbits, units, rfl, hn, hunits, htotal, hlength⟩
  | cons d digits ih =>
    have hd : d < 2^6 := hdigits d List.mem_cons_self
    have hrest : ∀ c ∈ digits, c < 64 := fun c hc => hdigits c (List.mem_cons_of_mem d hc)
    have hpush : total 16 units ((acc*2^6+d) % 2^32) (nbits+6) = value 6 (done ++ [d]) := by
      rw [total_push units acc d hd (by omega), htotal, value_concat]
    rw [List.map_cons, decodeDigits, utf7Base64Value_digit hd, List.append_cons]
    by_cases h : 16 ≤ nbits+6
    · simp only [if_pos h]
      apply ih hrest (by omega)
      · intro u hu
        rcases List.mem_append.mp hu with hu | hu
        · exact hunits u hu
        · rw [List.mem_singleton.mp hu]
          exact Nat.mod_lt _ (by positivity)
      · rw [total_emit units _ h, hpush]
      · rw [List.length_append, List.length_append, List.length_singleton, List.length_singleton]
        omega
    · simp only [if_neg h]
      apply ih hrest (by omega) hunits hpush
      rw [List.length_append, List.length_singleton]
      omega

/-- Digits that spell units and fewer than six zero bits are decoded to the units. -/
theorem utf7Base64Decode_units {digits units : List ℕ} {p : ℕ} (hdigits : ∀ d ∈ digits, d < 64)
    (hunits : ∀ u ∈ units, u < 2^16) (hp : p < 6) (hvalue : value 6 digits = value 16 units*2^p)
    (hlength : 6*digits.length = 16*units.length+p) :
    utf7Base64Decode (digits.map base64Digit) = (units, none) := by
  obtain ⟨acc, nbits, units', hdecode, hn, hunits', htotal, hlength'⟩ :=
    @decodeDigits_total digits hdigits [] 0 0 [] (by omega) (by simp) (by simp [total]) rfl
  rw [List.nil_append, hvalue] at htotal
  rw [List.nil_append, hlength] at hlength'
  obtain ⟨rfl, rfl, hzero⟩ := value_pending (by omega) hunits' hunits hlength' hn (by omega)
    (Nat.mod_lt acc (by positivity)) htotal
  rw [utf7Base64Decode, hdecode, paddingError, if_neg (by omega), if_neg (by simp [hzero])]

/-! ## Surrogate pairs -/

/-- No high surrogate is directly followed by a low one. -/
def NoPair (cps : List ℕ) : Prop :=
  cps.IsChain fun u low => ¬(isHighSurrogate u = true ∧ isLowSurrogate low = true)

theorem utf7Units_cases {cp : ℕ} (h : cp < 0x110000) :
    (cp < 2^16 ∧ utf7Units cp = [cp]) ∨
      ∃ u low, u < 2^16 ∧ low < 2^16 ∧ isHighSurrogate u = true ∧ isLowSurrogate low = true ∧
        utf7Units cp = [u, low] ∧ joinSurrogates u low = cp := by
  rw [utf7Units]
  by_cases hs : isSurrogate cp = true
  · rw [if_pos hs]
    simp only [isSurrogate, Bool.and_eq_true, decide_eq_true_eq] at hs
    exact Or.inl ⟨by omega, rfl⟩
  have hchar : isChar cp = true := by simpa [isChar, hs] using h
  rw [if_neg hs, if_pos hchar, encodeUtf16]
  by_cases hcp : cp < 0x10000
  · exact Or.inl ⟨hcp, if_pos hcp⟩
  · refine Or.inr ⟨_, _, ?_, ?_, ?_, ?_, if_neg hcp, joinSurrogates_split (by omega)⟩
    · omega
    · omega
    · simp only [isHighSurrogate, Bool.and_eq_true, decide_eq_true_eq]
      omega
    · simp only [isLowSurrogate, Bool.and_eq_true, decide_eq_true_eq]
      omega

theorem utf7Units_lt {cp : ℕ} (h : cp < 0x110000) : ∀ u ∈ utf7Units cp, u < 2^16 := by
  intro u hu
  rcases utf7Units_cases h with ⟨hcp, hunits⟩ | ⟨v, low, hv, hlow, _, _, hunits, _⟩
  · rw [hunits, List.mem_singleton] at hu
    rwa [hu]
  · rw [hunits] at hu
    rcases List.mem_pair.mp hu with hu | hu
    · rwa [hu]
    · rwa [hu]

/-- A unit that starts no pair is a code point. -/
theorem utf7UnitsToCodepoints_cons {u : ℕ} {units : List ℕ}
    (h : ∀ low ∈ units.head?, ¬(isHighSurrogate u = true ∧ isLowSurrogate low = true)) :
    utf7UnitsToCodepoints (u::units) = u::utf7UnitsToCodepoints units := by
  cases units with
  | nil => rfl
  | cons low rest =>
    rw [utf7UnitsToCodepoints, if_neg]
    rw [Bool.and_eq_true]
    exact h low rfl

theorem utf7UnitsToCodepoints_units {run : List ℕ} (hvalid : ∀ cp ∈ run, cp < 0x110000)
    (hpair : NoPair run) : utf7UnitsToCodepoints (run.flatMap utf7Units) = run := by
  induction run with
  | nil => rfl
  | cons cp run ih =>
    have hrest := ih (fun c hc => hvalid c (List.mem_cons_of_mem cp hc)) hpair.tail
    rw [List.flatMap_cons]
    rcases utf7Units_cases (hvalid cp List.mem_cons_self) with
      ⟨_, hunits⟩ | ⟨u, low, _, _, hu, hlow, hunits, hjoin⟩
    · rw [hunits, List.singleton_append, utf7UnitsToCodepoints_cons, hrest]
      -- the next unit is a code point or the first of a pair
      intro next hnext
      cases run with
      | nil => simp at hnext
      | cons c run =>
        rw [List.flatMap_cons] at hnext
        rcases utf7Units_cases (hvalid c (by simp)) with
          ⟨_, hc⟩ | ⟨v, low, _, _, hv, _, hc, _⟩
        · rw [hc, List.singleton_append, List.head?_cons, Option.mem_some_iff] at hnext
          rw [← hnext]
          exact (List.isChain_cons_cons.mp hpair).1
        · rw [hc, List.cons_append, List.head?_cons, Option.mem_some_iff] at hnext
          simp only [isHighSurrogate, isLowSurrogate, Bool.and_eq_true, decide_eq_true_eq] at hv ⊢
          omega
    · rw [hunits, List.cons_append, List.singleton_append, utf7UnitsToCodepoints, hu, hlow]
      rw [Bool.and_self, if_pos rfl, hjoin, hrest]

/-! ## The open section of the encoder -/

/-- After `before` came `+` and digits that, with the pending bits, spell `units`. -/
structure Shifted (e : Encoder) (before units : List ℕ) : Prop where
  shifted : e.shifted = true
  pending : e.nbits < 6
  digits : ∃ digits, (∀ d ∈ digits, d < 64) ∧ e.out = before ++ 0x2B::digits.map base64Digit ∧
    total 6 digits e.acc e.nbits = value 16 units ∧
    6*digits.length+e.nbits = 16*units.length

theorem emitDigits_total (e : Encoder) :
    ∃ (digits : List ℕ) (nbits : ℕ), nbits < 6 ∧ (∀ d ∈ digits, d < 64) ∧
    emitDigits e = { e with out := e.out ++ digits.map base64Digit, nbits := nbits } ∧
    (∀ done, total 6 (done ++ digits) e.acc nbits = total 6 done e.acc e.nbits) ∧
    6*digits.length+nbits = e.nbits := by
  induction e using emitDigits.induct with
  | case1 e h ih =>
    obtain ⟨digits, nbits, hn, hdigits, hemit, htotal, hlength⟩ := ih
    refine ⟨e.acc/2^(e.nbits-6) % 64::digits, nbits, hn, ?_, ?_, ?_, ?_⟩
    · intro d hd
      rcases List.mem_cons.mp hd with hd | hd
      · rw [hd]
        exact Nat.mod_lt _ (by omega)
      · exact hdigits d hd
    · rw [emitDigits, if_pos h, hemit]
      simp
    · intro done
      rw [List.append_cons, htotal]
      exact total_emit done e.acc h
    · rw [List.length_cons]
      dsimp only at hlength
      omega
  | case2 e h =>
    refine ⟨[], e.nbits, by omega, by simp, ?_, by simp, by simp⟩
    rw [emitDigits, if_neg h]
    simp

theorem shifted_pushUnit {e : Encoder} {before units : List ℕ} (h : Shifted e before units)
    {u : ℕ} (hu : u < 2^16) : Shifted (pushUnit e u) before (units ++ [u]) := by
  obtain ⟨hshifted, hpending, digits, hdigits, hout, htotal, hlength⟩ := h
  obtain ⟨new, nbits, hn, hnew, hemit, hnewTotal, hnewLength⟩ :=
    emitDigits_total { e with acc := (e.acc*2^16+u) % 2^32, nbits := e.nbits+16 }
  rw [pushUnit, hemit]
  refine ⟨hshifted, hn, digits ++ new, ?_, ?_, ?_, ?_⟩
  · intro d hd
    rcases List.mem_append.mp hd with hd | hd
    · exact hdigits d hd
    · exact hnew d hd
  · simp [hout]
  · rw [hnewTotal, total_push digits e.acc u hu (by omega), htotal, value_concat]
  · rw [List.length_append, List.length_append, List.length_singleton]
    dsimp only at hnewLength ⊢
    omega

theorem shifted_pushUnits {e : Encoder} {before units : List ℕ} (h : Shifted e before units)
    {us : List ℕ} (hus : ∀ u ∈ us, u < 2^16) :
    Shifted (us.foldl pushUnit e) before (units ++ us) := by
  induction us generalizing e units with
  | nil => simpa using h
  | cons u us ih =>
    rw [List.foldl_cons, List.append_cons]
    exact ih (shifted_pushUnit h (hus u List.mem_cons_self))
      fun v hv => hus v (List.mem_cons_of_mem u hv)

/-- The digits of a section that is closed decode to its units. -/
theorem shifted_closeShift {e : Encoder} {before units : List ℕ} (h : Shifted e before units)
    (hunits : ∀ u ∈ units, u < 2^16) (next : Option ℕ) :
    ∃ digits : List ℕ, (∀ d ∈ digits, d < 64) ∧ 16*units.length ≤ 6*digits.length ∧
      utf7Base64Decode (digits.map base64Digit) = (units, none) ∧
      (closeShift e next).out = before ++ 0x2B::digits.map base64Digit ++
        if next.all (fun c => c == 0x2D || utf7IsB64 c) then [0x2D] else [] := by
  obtain ⟨hshifted, hpending, digits, hdigits, hout, htotal, hlength⟩ := h
  have hdash : ∀ out : List ℕ, (if (match next with
      | none => true
      | some c => c == 0x2D || utf7IsB64 c) then out ++ [0x2D] else out) =
      out ++ if next.all (fun c => c == 0x2D || utf7IsB64 c) then [0x2D] else [] := by
    intro out
    cases next with
    | none => rfl
    | some c =>
      simp only [Option.all_some]
      split_ifs
      · rfl
      · rw [List.append_nil]
  by_cases hn : 0 < e.nbits
  · have hpad : e.acc*2^(6-e.nbits) % 2^32 % 64 = e.acc % 2^e.nbits*2^(6-e.nbits) := by
      have hpow : 2^6 = 2^e.nbits*2^(6-e.nbits) := by
        rw [← pow_add, Nat.add_sub_cancel' (by omega)]
      rw [Nat.mod_mod_of_dvd _ (by norm_num), show 64 = 2^6 from rfl, hpow, Nat.mul_mod_mul_right]
    have hvalue : value 6 (digits ++ [e.acc*2^(6-e.nbits) % 2^32 % 64]) =
        value 16 units*2^(6-e.nbits) := by
      rw [value_concat, hpad, ← htotal, total, Nat.add_mul, Nat.mul_assoc, ← pow_add,
        Nat.add_sub_cancel' (by omega)]
    have hall : ∀ d ∈ digits ++ [e.acc*2^(6-e.nbits) % 2^32 % 64], d < 64 := by
      intro d hd
      rcases List.mem_append.mp hd with hd | hd
      · exact hdigits d hd
      · rw [List.mem_singleton.mp hd]
        exact Nat.mod_lt _ (by omega)
    refine ⟨digits ++ [e.acc*2^(6-e.nbits) % 2^32 % 64], hall, ?_, ?_, ?_⟩
    · rw [List.length_append, List.length_singleton]
      omega
    · apply utf7Base64Decode_units hall hunits (by omega) hvalue
      rw [List.length_append, List.length_singleton]
      omega
    · simp only [closeShift.eq_def, if_pos hn, hdash, hout]
      simp
  · have hzero : e.nbits = 0 := by omega
    rw [hzero, Nat.add_zero] at hlength
    rw [hzero, total, pow_zero, Nat.mod_one, Nat.add_zero] at htotal
    refine ⟨digits, hdigits, hlength.ge, ?_, ?_⟩
    · apply utf7Base64Decode_units hdigits hunits hpending
      · rw [hzero, pow_zero, Nat.mul_one, ← htotal, Nat.mul_one]
      · rw [hlength, hzero, Nat.add_zero]
    · simp only [closeShift.eq_def, if_neg hn, hdash, hout]

/-! ## Reading what was written -/

/-- The decoder walks over `out` and has read `cps`, whatever follows. -/
def Reads (bytes out cps : List ℕ) : Prop :=
  ∃ i, ∀ rest, decodeSections bytes 0 (out ++ rest) [] = decodeSections bytes i rest cps

theorem reads_append {bytes out cps piece new : List ℕ} (h : Reads bytes out cps)
    (hpiece : ∀ i, ∃ i', ∀ rest, decodeSections bytes i (piece ++ rest) cps =
      decodeSections bytes i' rest (cps ++ new)) : Reads bytes (out ++ piece) (cps ++ new) := by
  obtain ⟨i, hi⟩ := h
  obtain ⟨i', hi'⟩ := hpiece i
  refine ⟨i', fun rest => ?_⟩
  rw [List.append_assoc, hi, hi']

theorem decodeSections_direct {b : ℕ} (h : b ≠ 0x2B) (bytes : List ℕ) (i : ℕ)
    (rest cps : List ℕ) :
    decodeSections bytes i (b::rest) cps = decodeSections bytes (i+1) rest (cps ++ [b]) := by
  rw [decodeSections, if_pos h]

theorem takeWhile_digits {digits tail : List ℕ} (hdigits : ∀ d ∈ digits, d < 64)
    (htail : ∀ b ∈ tail.head?, utf7Base64Value b = none) :
    ((digits.map base64Digit ++ tail).takeWhile fun c => (utf7Base64Value c).isSome) =
      digits.map base64Digit := by
  rw [List.takeWhile_append_of_pos]
  · cases tail with
    | nil => simp
    | cons b tail =>
      rw [List.takeWhile_cons_of_neg, List.append_nil]
      simp [htail b rfl]
  · intro c hc
    obtain ⟨d, hd, rfl⟩ := List.mem_map.mp hc
    rw [utf7Base64Value_digit (hdigits d hd)]
    rfl

theorem decodeSections_section {digits units tail : List ℕ} (hne : digits ≠ [])
    (hdigits : ∀ d ∈ digits, d < 64)
    (hdecode : utf7Base64Decode (digits.map base64Digit) = (units, none))
    (htail : ∀ b ∈ tail.head?, utf7Base64Value b = none) (bytes : List ℕ) (i : ℕ)
    (cps : List ℕ) :
    decodeSections bytes i (0x2B::(digits.map base64Digit ++ tail)) cps =
      decodeSections bytes (i+1+digits.length+if startsWithDash tail then 1 else 0)
        (tail.drop (if startsWithDash tail then 1 else 0)) (cps ++ utf7UnitsToCodepoints units) := by
  have hopen : startsWithDash (digits.map base64Digit ++ tail) = false := by
    cases digits with
    | nil => exact absurd rfl hne
    | cons d digits =>
      have hd := utf7Base64Value_digit (hdigits d List.mem_cons_self)
      have hdash : base64Digit d ≠ 0x2D := by
        intro h
        rw [h] at hd
        exact Option.some_ne_none d hd.symm
      simpa [startsWithDash] using hdash
  have hdrop : (digits.map base64Digit ++ tail).drop digits.length = tail :=
    List.drop_left' (List.length_map base64Digit)
  rw [decodeSections, if_neg (by simp), if_neg (by simp [hopen]), takeWhile_digits hdigits htail]
  simp only [hdecode, List.length_map, hdrop]

/-! ## Round trip -/

/-- What the encoder keeps: outside a section all is read back, inside one the run is pending. -/
inductive Encoded (bytes : List ℕ) : Encoder → List ℕ → Prop
  | direct {out cps : List ℕ} (h : Reads bytes out cps) : Encoded bytes ⟨out, 0, 0, false⟩ cps
  | shifted {e : Encoder} {before done run : List ℕ} (h : Reads bytes before done)
      (hrun : run ≠ []) (hopen : Shifted e before (run.flatMap utf7Units)) :
      Encoded bytes e (done ++ run)

/-- A section that is closed before `next` or at the end is read as its run. -/
theorem reads_closeShift {bytes before done run : List ℕ} {e : Encoder}
    (h : Reads bytes before done) (hrun : run ≠ [])
    (hopen : Shifted e before (run.flatMap utf7Units)) (hvalid : ∀ cp ∈ run, cp < 0x110000)
    (hpair : NoPair run) (next : Option ℕ) :
    ∃ i, ∀ rest, (∀ c ∈ next, ∃ rest', rest = c::rest') →
      decodeSections bytes 0 ((closeShift e next).out ++ rest) [] =
        decodeSections bytes i rest (done ++ run) := by
  obtain ⟨i, hi⟩ := h
  have hunits : ∀ u ∈ run.flatMap utf7Units, u < 2^16 := by
    intro u hu
    obtain ⟨cp, hcp, hu⟩ := List.mem_flatMap.mp hu
    exact utf7Units_lt (hvalid cp hcp) u hu
  obtain ⟨digits, hdigits, hlength, hdecode, hout⟩ := shifted_closeShift hopen hunits next
  have hne : digits ≠ [] := by
    rintro rfl
    obtain ⟨cp, run, rfl⟩ := List.exists_cons_of_ne_nil hrun
    rw [List.flatMap_cons, List.length_append] at hlength
    rcases utf7Units_cases (hvalid cp List.mem_cons_self) with ⟨_, hu⟩ | ⟨_, _, _, _, _, _, hu, _⟩
    all_goals
      rw [hu] at hlength
      simp at hlength
  have hread := fun tail htail => @decodeSections_section digits _ tail hne hdigits hdecode htail
    bytes i done
  rw [utf7UnitsToCodepoints_units hvalid hpair] at hread
  by_cases hdash : next.all (fun c => c == 0x2D || utf7IsB64 c) = true
  · refine ⟨i+1+digits.length+1, fun rest _ => ?_⟩
    rw [hout, if_pos hdash]
    simp only [List.append_assoc, List.cons_append, List.nil_append]
    rw [hi, hread (0x2D::rest) (by simp [utf7Base64Value])]
    rfl
  · refine ⟨i+1+digits.length, fun rest hrest => ?_⟩
    cases next with
    | none => simp at hdash
    | some c =>
      obtain ⟨rest', rfl⟩ := hrest c rfl
      simp only [Option.all_some, Bool.or_eq_true, beq_iff_eq, not_or, utf7IsB64_eq] at hdash
      have hhead : startsWithDash (c::rest') = false := by simp [startsWithDash, hdash.1]
      rw [hout, if_neg (by simp [utf7IsB64_eq, hdash.1, hdash.2]), List.append_nil,
        List.append_assoc, List.cons_append, hi, hread (c::rest') (by simpa using hdash.2), hhead]
      rfl

theorem utf7IsDirect_plus {cp : ℕ} (h : utf7IsDirect cp = true) : cp ≠ 0x2B := by
  rintro rfl
  exact Bool.false_ne_true h

theorem encoded_step {bytes cps : List ℕ} {e : Encoder} (h : Encoded bytes e cps) {cp : ℕ}
    (hvalid : ∀ c ∈ cps ++ [cp], c < 0x110000) (hpair : NoPair (cps ++ [cp])) :
    Encoded bytes (encodeUtf7Codepoint e cp) (cps ++ [cp]) := by
  have hcp : cp < 0x110000 := hvalid cp (by simp)
  by_cases hdirect : utf7IsDirect cp = true
  · have hplus := utf7IsDirect_plus hdirect
    cases h with
    | direct h =>
      simp only [encodeUtf7Codepoint, hdirect, if_true, Bool.false_eq_true, if_false]
      exact .direct (reads_append h fun i =>
        ⟨i+1, fun rest => decodeSections_direct hplus bytes i rest cps⟩)
    | @shifted e before done run h hrun hopen =>
      obtain ⟨i, hi⟩ := reads_closeShift h hrun hopen
        (fun c hc => hvalid c (by simp [hc])) (hpair.left_of_append.right_of_append) (some cp)
      have hclosed : encodeUtf7Codepoint e cp =
          ⟨(closeShift e (some cp)).out ++ [cp], 0, 0, false⟩ := by
        simp only [encodeUtf7Codepoint, hdirect, if_true, hopen.shifted]
        rfl
      rw [hclosed]
      refine .direct ⟨i+1, fun rest => ?_⟩
      rw [List.append_assoc, List.singleton_append, hi _ (by simp),
        decodeSections_direct hplus bytes i rest]
  · have hunits := utf7Units_lt hcp
    cases h with
    | @direct out _ h =>
      by_cases hplus : cp = 0x2B
      · have hbare : encodeUtf7Codepoint ⟨out, 0, 0, false⟩ cp =
            ⟨out ++ [0x2B, 0x2D], 0, 0, false⟩ := by
          simp [encodeUtf7Codepoint, hplus, utf7IsDirect]
        rw [hbare, hplus]
        refine .direct (reads_append h fun i => ⟨i+2, fun rest => ?_⟩)
        rw [List.cons_append, decodeSections]
        simp [startsWithDash]
      · have hstart : Shifted ⟨out ++ [0x2B], 0, 0, true⟩ out [] :=
          ⟨rfl, by simp, [], by simp, rfl, rfl, rfl⟩
        have hpush : encodeUtf7Codepoint ⟨out, 0, 0, false⟩ cp =
            (utf7Units cp).foldl pushUnit ⟨out ++ [0x2B], 0, 0, true⟩ := by
          simp [encodeUtf7Codepoint, hdirect, hplus]
        rw [hpush]
        refine .shifted h (List.cons_ne_nil cp []) ?_
        rw [List.flatMap_singleton]
        exact shifted_pushUnits hstart hunits
    | @shifted e before done run h hrun hopen =>
      have hpush : encodeUtf7Codepoint e cp = (utf7Units cp).foldl pushUnit e := by
        simp [encodeUtf7Codepoint, hdirect, hopen.shifted]
      rw [hpush, List.append_assoc]
      refine .shifted h (by simp) ?_
      rw [List.flatMap_append, List.flatMap_singleton]
      exact shifted_pushUnits hopen hunits

theorem encoded_run {bytes cps source : List ℕ} {e : Encoder} (h : Encoded bytes e cps)
    (hvalid : ∀ c ∈ cps ++ source, c < 0x110000) (hpair : NoPair (cps ++ source)) :
    Encoded bytes (source.foldl encodeUtf7Codepoint e) (cps ++ source) := by
  induction source generalizing e cps with
  | nil => simpa using h
  | cons cp source ih =>
    rw [List.append_cons] at hvalid hpair ⊢
    rw [List.foldl_cons]
    exact ih (encoded_step h (fun c hc => hvalid c (List.mem_append_left _ hc))
      hpair.left_of_append) hvalid hpair

theorem decodeUtf7_encode (s : PyStr) (hpair : NoPair s.codepoints) :
    decodeUtf7 (encodeUtf7 s.bytes) = .ok s.bytes := by
  have hread : ∀ bytes, Reads bytes (encodeUtf7 s.bytes) s.codepoints := by
    intro bytes
    have hrun := @encoded_run bytes [] s.codepoints ⟨[], 0, 0, false⟩
      (.direct ⟨0, fun _ => rfl⟩) s.valid hpair
    rw [List.nil_append] at hrun
    rw [encodeUtf7, cesu8Codepoints_bytes]
    generalize s.codepoints.foldl encodeUtf7Codepoint ⟨[], 0, 0, false⟩ = e at hrun
    obtain ⟨cps, hvalid⟩ := s
    dsimp only at hrun hpair ⊢
    cases hrun with
    | direct h => exact h
    | @shifted e before done run h hrun hopen =>
      obtain ⟨i, hi⟩ := reads_closeShift h hrun hopen (fun c hc => hvalid c (by simp [hc]))
        hpair.right_of_append none
      simp only [hopen.shifted, if_true]
      exact ⟨i, fun rest => hi rest (by simp)⟩
  obtain ⟨i, hi⟩ := hread (encodeUtf7 s.bytes)
  have hall := hi []
  rw [List.append_nil, decodeSections] at hall
  rw [decodeUtf7, hall]
  rfl

end Pyrust.Utf7
