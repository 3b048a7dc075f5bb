import Mathlib.Data.List.Basic
import Mathlib.Data.Nat.Notation
import Mathlib.Tactic.Common

/-!
# Strings as code points and as bytes

A `str` is stored as UTF-8 in which lone surrogates keep their three-byte form.
Bytes and code points are natural numbers; shifts and masks of the source are
divisions and remainders, and a disjunction of disjoint bits is a sum.
-/

set_option autoImplicit false

namespace Pyrust.Cesu8

def isSurrogate (cp : ℕ) : Bool := 0xD800 ≤ cp && cp ≤ 0xDFFF

def isHighSurrogate (cp : ℕ) : Bool := 0xD800 ≤ cp && cp ≤ 0xDBFF

def isLowSurrogate (cp : ℕ) : Bool := 0xDC00 ≤ cp && cp ≤ 0xDFFF

/-- `char::encode_utf8` of a scalar value. -/
def encodeUtf8 (cp : ℕ) : List ℕ :=
  if cp < 0x80 then [cp]
  else if cp < 0x800 then [0xC0+cp/64, 0x80+cp % 64]
  else if cp < 0x10000 then [0xE0+cp/4096, 0x80+cp/64 % 64, 0x80+cp % 64]
  else [0xF0+cp/262144, 0x80+cp/4096 % 64, 0x80+cp/64 % 64, 0x80+cp % 64]

def cesu8EncodeCodepoint (cp : ℕ) : List ℕ :=
  if isSurrogate cp then [0xE0+cp/4096, 0x80+cp/64 % 64, 0x80+cp % 64]
  else encodeUtf8 cp

/-- A string value, by its code points. -/
structure PyStr where
  codepoints : List ℕ
  valid : ∀ cp ∈ codepoints, cp < 0x110000

/-- How the code points of a string are stored. -/
def stringBytes (cps : List ℕ) : List ℕ := cps.flatMap cesu8EncodeCodepoint

def PyStr.bytes (s : PyStr) : List ℕ := stringBytes s.codepoints

def cesu8Codepoints : List ℕ → List ℕ
  | [] => []
  | b0::rest =>
    if b0 < 0x80 then b0::cesu8Codepoints rest
    else if b0 < 0xE0 then
      match rest with
      | b1::rest => (b0 % 32*64+b1 % 64)::cesu8Codepoints rest
      | _ => []
    else if b0 < 0xF0 then
      match rest with
      | b1::b2::rest => (b0 % 16*4096+b1 % 64*64+b2 % 64)::cesu8Codepoints rest
      | _ => []
    else
      match rest with
      | b1::b2::b3::rest =>
        (b0 % 8*262144+b1 % 64*4096+b2 % 64*64+b3 % 64)::cesu8Codepoints rest
      | _ => []

attribute [local simp] cesu8Codepoints in
theorem cesu8Codepoints_ascii {b : ℕ} (h : b < 0x80) (rest : List ℕ) :
    cesu8Codepoints (b::rest) = b::cesu8Codepoints rest := by
  rcases rest with _ | ⟨b1, _ | ⟨b2, _ | ⟨b3, rest⟩⟩⟩
  all_goals simp only [cesu8Codepoints, if_pos h]

theorem cesu8EncodeCodepoint_three {cp : ℕ} (h : isSurrogate cp = true) :
    cesu8EncodeCodepoint cp = [0xE0+cp/4096, 0x80+cp/64 % 64, 0x80+cp % 64] := if_pos h

theorem cesu8EncodeCodepoint_scalar {cp : ℕ} (h : isSurrogate cp = false) :
    cesu8EncodeCodepoint cp = encodeUtf8 cp := by
  rw [cesu8EncodeCodepoint, h, if_neg Bool.false_ne_true]

/-- The cursor reads one stored code point. -/
theorem cesu8Codepoints_encode {cp : ℕ} (h : cp < 0x110000) (rest : List ℕ) :
    cesu8Codepoints (cesu8EncodeCodepoint cp ++ rest) = cp::cesu8Codepoints rest := by
  have three : 0x800 ≤ cp → cp < 0x10000 →
      cesu8Codepoints ([0xE0+cp/4096, 0x80+cp/64 % 64, 0x80+cp % 64] ++ rest) =
        cp::cesu8Codepoints rest := by
    intro hlow hhigh
    have hvalue : (0xE0+cp/4096) % 16*4096+(0x80+cp/64 % 64) % 64*64+(0x80+cp % 64) % 64 = cp := by
      omega
    simp only [List.cons_append, List.nil_append, cesu8Codepoints]
    rw [if_neg (by omega), if_neg (by omega), if_pos (by omega), hvalue]
  by_cases hs : isSurrogate cp = true
  · rw [cesu8EncodeCodepoint_three hs]
    simp only [isSurrogate, Bool.and_eq_true, decide_eq_true_eq] at hs
    exact three (by omega) (by omega)
  rw [cesu8EncodeCodepoint_scalar (Bool.eq_false_iff.mpr hs), encodeUtf8]
  by_cases h1 : cp < 0x80
  · rw [if_pos h1, List.singleton_append, cesu8Codepoints_ascii h1]
  rw [if_neg h1]
  by_cases h2 : cp < 0x800
  · have hvalue : (0xC0+cp/64) % 32*64+(0x80+cp % 64) % 64 = cp := by omega
    rw [if_pos h2]
    simp only [List.cons_append, List.nil_append, cesu8Codepoints]
    rw [if_neg (by omega), if_pos (by omega), hvalue]
  rw [if_neg h2]
  by_cases h3 : cp < 0x10000
  · rw [if_pos h3]
    exact three (by omega) h3
  · have hvalue : (0xF0+cp/262144) % 8*262144+(0x80+cp/4096 % 64) % 64*4096+
        (0x80+cp/64 % 64) % 64*64+(0x80+cp % 64) % 64 = cp := by
      have htail (x : ℕ) : (0x80+x % 64) % 64 = x % 64 := by
        rw [Nat.add_mod_mod, show 0x80 = 64*2 from rfl, Nat.mul_add_mod]
      have hlead : (0xF0+cp/262144) % 8 = cp/262144 := by omega
      have h64 := Nat.mod_add_div cp 64
      have h4096 := Nat.mod_add_div (cp/64) 64
      have hrest := Nat.mod_add_div (cp/4096) 64
      rw [Nat.div_div_eq_div_mul] at h4096 hrest
      rw [htail, htail, htail, hlead]
      omega
    rw [if_neg h3]
    simp only [List.cons_append, List.nil_append, cesu8Codepoints]
    rw [if_neg (by omega), if_neg (by omega), if_neg (by omega), hvalue]

/-- The cursor is the inverse of the storage. -/
theorem cesu8Codepoints_bytes (s : PyStr) : cesu8Codepoints s.bytes = s.codepoints := by
  obtain ⟨cps, hvalid⟩ := s
  show cesu8Codepoints (stringBytes cps) = cps
  induction cps with
  | nil => rfl
  | cons cp cps ih =>
    rw [stringBytes, List.flatMap_cons, cesu8Codepoints_encode (hvalid cp List.mem_cons_self)]
    exact congrArg (cp::·) (ih fun c hc => hvalid c (List.mem_cons_of_mem cp hc))

structure Utf8Error where
  validUpTo : ℕ
  errorLen : Option ℕ

/-- The ranges that `str::from_utf8` allows after a lead byte. -/
def tailRanges (first : ℕ) : Option (List (ℕ × ℕ)) :=
  if 0xC2 ≤ first ∧ first ≤ 0xDF then some [(0x80, 0xBF)]
  else if first = 0xE0 then some [(0xA0, 0xBF), (0x80, 0xBF)]
  else if 0xE1 ≤ first ∧ first ≤ 0xEC then some [(0x80, 0xBF), (0x80, 0xBF)]
  else if first = 0xED then some [(0x80, 0x9F), (0x80, 0xBF)]
  else if 0xEE ≤ first ∧ first ≤ 0xEF then some [(0x80, 0xBF), (0x80, 0xBF)]
  else if first = 0xF0 then some [(0x90, 0xBF), (0x80, 0xBF), (0x80, 0xBF)]
  else if 0xF1 ≤ first ∧ first ≤ 0xF3 then some [(0x80, 0xBF), (0x80, 0xBF), (0x80, 0xBF)]
  else if first = 0xF4 then some [(0x80, 0x8F), (0x80, 0xBF), (0x80, 0xBF)]
  else none

/-- `str::from_utf8` at byte `i`, in the character that began at `start`. -/
def utf8Scan (start i : ℕ) : List (ℕ × ℕ) → List ℕ → Except Utf8Error Unit
  | [], [] => .ok ()
  | _::_, [] => .error ⟨start, none⟩
  | [], first::rest =>
    if first < 0x80 then utf8Scan (i+1) (i+1) [] rest
    else
      match tailRanges first with
      | some ranges => utf8Scan i (i+1) ranges rest
      | none => .error ⟨i, some 1⟩
  | range::ranges, b::rest =>
    if range.1 ≤ b ∧ b ≤ range.2 then utf8Scan start (i+1) ranges rest
    else .error ⟨start, some (i-start)⟩

def fromUtf8 (bytes : List ℕ) : Except Utf8Error (List ℕ) :=
  (utf8Scan 0 0 [] bytes).map fun _ => bytes

attribute [local simp] utf8Scan in
theorem utf8Scan_tail {start i : ℕ} {ranges : List (ℕ × ℕ)} {tail : List ℕ}
    (h : List.Forall₂ (fun r b => r.1 ≤ b ∧ b ≤ r.2) ranges tail) (rest : List ℕ) :
    utf8Scan start i ranges (tail ++ rest) = utf8Scan start (i+tail.length) [] rest := by
  induction h generalizing i with
  | nil => rfl
  | cons hb _ ih =>
    rw [List.cons_append, utf8Scan, if_pos hb, ih, List.length_cons, Nat.add_right_comm,
      Nat.add_assoc]

theorem utf8Scan_char {start i first : ℕ} {ranges : List (ℕ × ℕ)} {tail : List ℕ}
    (hfirst : 0x80 ≤ first) (hranges : tailRanges first = some ranges)
    (h : List.Forall₂ (fun r b => r.1 ≤ b ∧ b ≤ r.2) ranges tail) (rest : List ℕ) :
    utf8Scan start i [] (first::tail ++ rest) = utf8Scan i (i+1+tail.length) [] rest := by
  rw [List.cons_append, utf8Scan, if_neg (by omega), hranges]
  exact utf8Scan_tail h rest

/-- The second byte of a three-byte character, by its high bits `a` and the six bits `m` below. -/
theorem tailRanges_three {a m : ℕ} (ha : a < 16) (hm : m < 64) (hlow : 32 ≤ 64*a+m)
    (hs : 64*a+m < 864 ∨ 896 ≤ 64*a+m) :
    ∃ lo hi, tailRanges (0xE0+a) = some [(lo, hi), (0x80, 0xBF)] ∧ lo ≤ 0x80+m ∧ 0x80+m ≤ hi := by
  obtain rfl | h | rfl | h : a = 0 ∨ (1 ≤ a ∧ a ≤ 12) ∨ a = 13 ∨ 14 ≤ a := by omega
  · exact ⟨0xA0, 0xBF, rfl, by omega, by omega⟩
  · refine ⟨0x80, 0xBF, ?_, by omega, by omega⟩
    rw [tailRanges, if_neg (by omega), if_neg (by omega), if_pos (by omega)]
  · exact ⟨0x80, 0x9F, rfl, by omega, by omega⟩
  · refine ⟨0x80, 0xBF, ?_, by omega, by omega⟩
    rw [tailRanges, if_neg (by omega), if_neg (by omega), if_neg (by omega), if_neg (by omega),
      if_pos (by omega)]

/-- The second byte of a four-byte character. -/
theorem tailRanges_four {a m : ℕ} (hm : m < 64) (hlow : 16 ≤ 64*a+m) (hhigh : 64*a+m < 272) :
    ∃ lo hi, tailRanges (0xF0+a) = some [(lo, hi), (0x80, 0xBF), (0x80, 0xBF)] ∧
      lo ≤ 0x80+m ∧ 0x80+m ≤ hi := by
  obtain rfl | h | rfl : a = 0 ∨ (1 ≤ a ∧ a ≤ 3) ∨ a = 4 := by omega
  · exact ⟨0x90, 0xBF, rfl, by omega, by omega⟩
  · refine ⟨0x80, 0xBF, ?_, by omega, by omega⟩
    rw [tailRanges, if_neg (by omega), if_neg (by omega), if_neg (by omega), if_neg (by omega),
      if_neg (by omega), if_neg (by omega), if_pos (by omega)]
  · exact ⟨0x80, 0x8F, rfl, by omega, by omega⟩

/-- `str::from_utf8` walks over the encoding of a scalar value. -/
theorem utf8Scan_encode {start i cp : ℕ} (h : cp < 0x110000) (hs : isSurrogate cp = false)
    (rest : List ℕ) : ∃ start' i',
    utf8Scan start i [] (encodeUtf8 cp ++ rest) = utf8Scan start' i' [] rest := by
  rw [encodeUtf8]
  by_cases h1 : cp < 0x80
  · refine ⟨i+1, i+1, ?_⟩
    rw [if_pos h1, List.singleton_append, utf8Scan, if_pos h1]
  rw [if_neg h1]
  by_cases h2 : cp < 0x800
  · rw [if_pos h2]
    refine ⟨i, i+2, utf8Scan_char (by omega) (if_pos (by omega)) ?_ rest⟩
    simp
    omega
  rw [if_neg h2]
  simp only [isSurrogate, Bool.and_eq_false_iff, decide_eq_false_iff_not] at hs
  by_cases h3 : cp < 0x10000
  · rw [if_pos h3]
    have hbits : 64*(cp/4096)+cp/64 % 64 = cp/64 := by omega
    obtain ⟨lo, hi, hranges, hlo, hhi⟩ := @tailRanges_three (cp/4096) (cp/64 % 64) (by omega)
      (Nat.mod_lt _ (by omega)) (by omega) (by omega)
    refine ⟨i, i+3, utf8Scan_char (by omega) hranges ?_ rest⟩
    simp [hlo, hhi]
    omega
  · rw [if_neg h3]
    have hbits : 64*(cp/262144)+cp/4096 % 64 = cp/4096 := by omega
    obtain ⟨lo, hi, hranges, hlo, hhi⟩ := @tailRanges_four (cp/262144) (cp/4096 % 64)
      (Nat.mod_lt _ (by omega)) (by omega) (by omega)
    refine ⟨i, i+4, utf8Scan_char (by omega) hranges ?_ rest⟩
    simp [hlo, hhi]
    omega

/-- Without surrogates the stored form is UTF-8. -/
theorem fromUtf8_bytes {cps : List ℕ}
    (hvalid : ∀ cp ∈ cps, cp < 0x110000) (hs : ∀ cp ∈ cps, isSurrogate cp = false) :
    fromUtf8 (stringBytes cps) = .ok (stringBytes cps) := by
  have scan : ∀ start i, utf8Scan start i [] (stringBytes cps) = .ok () := by
    induction cps with
    | nil => exact fun _ _ => rfl
    | cons cp cps ih =>
      intro start i
      have hcp := hs cp List.mem_cons_self
      rw [stringBytes, List.flatMap_cons, cesu8EncodeCodepoint_scalar hcp]
      obtain ⟨start', i', hscan⟩ :=
        @utf8Scan_encode start i cp (hvalid cp List.mem_cons_self) hcp (stringBytes cps)
      refine hscan.trans (ih ?_ ?_ start' i')
      · exact fun c hc => hvalid c (List.mem_cons_of_mem cp hc)
      · exact fun c hc => hs c (List.mem_cons_of_mem cp hc)
  rw [fromUtf8, scan]
  rfl

end Pyrust.Cesu8
