import Pyrust.WideWords

/-!
# The first error of a strict decoder

A strict decoder of UTF-16 or UTF-32 should stop where the longest well-formed
beginning ends. The decoder of UTF-32 takes whole chunks first and looks for a
remainder behind them. The decoder of UTF-16 looks at the length before anything
else, and reports an odd byte at the end even where a unit ahead of it is ill
formed.
-/

set_option autoImplicit false

namespace Pyrust.StrictDecoding

open Cesu8 WideCodecs WordStream WideWords

/-- The result of a strict decoder that reports the first error of `bytes`, which stand in
`object` behind `offset` other bytes. -/
def ReportsFirst (wellFormed : List ℕ → Prop) (bytes object : List ℕ) (offset : ℕ) :
    Except PyError (List ℕ) → Prop
  | .ok _ => wellFormed bytes
  | .error (.unicodeDecodeError _ obj start _ _) =>
    obj = object ∧ ∃ k, start = offset+k ∧ FailsAt wellFormed bytes k
  | .error _ => False

/-! ## Chunks -/

section chunks
variable {n : ℕ} {bytes chunk : List ℕ}

theorem asChunks_cons (hn : 0 < n) (h : chunk.length = n) (rest : List ℕ) :
    asChunks n (chunk ++ rest) = (chunk::(asChunks n rest).1, (asChunks n rest).2) := by
  have hdiv : (chunk ++ rest).length/n = rest.length/n+1 := by
    rw [List.length_append, h, Nat.add_div_left _ hn]
  rw [asChunks, hdiv, List.range_succ_eq_map, List.map_cons, List.map_map, asChunks]
  refine Prod.ext ?_ ?_
  · refine congrArg₂ List.cons ?_ (List.map_congr_left fun i _ => ?_)
    · rw [Nat.zero_mul, List.drop_zero, ← h, List.take_left]
    · show ((chunk ++ rest).drop ((i+1)*n)).take n = _
      rw [Nat.add_mul, Nat.one_mul, Nat.add_comm, ← List.drop_drop, ← h, List.drop_left]
  · show (chunk ++ rest).drop ((rest.length/n+1)*n) = rest.drop (rest.length/n*n)
    rw [Nat.add_mul, Nat.one_mul, Nat.add_comm, ← List.drop_drop, ← h, List.drop_left]

theorem asChunks_short (h : bytes.length < n) : asChunks n bytes = ([], bytes) := by
  rw [asChunks, Nat.div_eq_of_lt h, Nat.zero_mul, List.drop_zero]
  rfl

end chunks

/-- The code units of a byte sequence, without an odd byte at the end. -/
def units16 (bigEndian : Bool) (bytes : List ℕ) : List ℕ :=
  (asChunks 2 bytes).1.map (fromBytes bigEndian)

theorem units16_cons (bigEndian : Bool) (b0 b1 : ℕ) (rest : List ℕ) :
    units16 bigEndian (b0::b1::rest) = fromBytes bigEndian [b0, b1]::units16 bigEndian rest := by
  have h := @asChunks_cons 2 [b0, b1] (by decide) rfl rest
  rw [List.cons_append, List.cons_append, List.nil_append] at h
  rw [units16, h]
  rfl

theorem units16_short (bigEndian : Bool) {bytes : List ℕ} (h : bytes.length < 2) :
    units16 bigEndian bytes = [] := by
  rw [units16, asChunks_short h]
  rfl

/-! ## The two decoders -/

section decoders
variable {bigEndian : Bool} {rawBytes bytes : List ℕ} {bomOffset i : ℕ} {codecName : String}
  {out : List ℕ}

/-- How a decoder ends that begins at byte `start` of the object: it comes to the end of its bytes,
or reports the place where no further word begins. -/
inductive EndsAt (W : WordCode ℕ) (object bytes : List ℕ) (start : ℕ) :
    Except PyError (List ℕ) → Prop
  | whole (text : List ℕ) : W.stop bytes = bytes.length → EndsAt W object bytes start (.ok text)
  | stopped (encoding : String) (stop : ℕ) (reason : String) : W.stop bytes < bytes.length →
      EndsAt W object bytes start
        (.error (.unicodeDecodeError encoding object (start+W.stop bytes) stop reason))

theorem EndsAt.word {W : WordCode ℕ} {object : List ℕ} {start n : ℕ}
    {r : Except PyError (List ℕ)} (h : W.wordLength bytes = some n)
    (hr : EndsAt W object (bytes.drop n) (start+n) r) : EndsAt W object bytes start r := by
  have hstop := WordCode.stop_word h
  have hle := W.le h
  cases hr with
  | whole text heq =>
    rw [List.length_drop] at heq
    exact .whole text (by omega)
  | stopped encoding stop reason hlt =>
    rw [List.length_drop] at hlt
    rw [Nat.add_assoc, ← hstop]
    exact .stopped encoding stop reason (by omega)

theorem EndsAt.here {W : WordCode ℕ} {object : List ℕ} {start : ℕ} (encoding : String)
    (stop : ℕ) (reason : String) (h : W.wordLength bytes = none) (hne : bytes ≠ []) :
    EndsAt W object bytes start
      (.error (.unicodeDecodeError encoding object start stop reason)) := by
  have hstop := WordCode.stop_none h
  have hlen := List.length_pos_iff.mpr hne
  have hends : EndsAt W object bytes start _ := .stopped encoding stop reason (by omega)
  rwa [hstop] at hends

/-- The units after the first word of a byte sequence. -/
theorem decodeUtf16Units_ends (heven : bytes.length % 2 = 0) :
    EndsAt (utf16Words bigEndian) rawBytes bytes (bomOffset+i*2)
      (decodeUtf16Units rawBytes bomOffset codecName i (units16 bigEndian bytes) out) := by
  induction bytes using WordCode.word_induction (W := utf16Words bigEndian) generalizing i out with
  | hnone bytes hnone =>
    rcases bytes with _ | ⟨b0, _ | ⟨b1, rest⟩⟩
    · rw [units16_short _ (by decide), decodeUtf16Units]
      exact .whole out (WordCode.stop_none hnone)
    · simp at heven
    · rw [units16_cons, decodeUtf16Units.eq_def]
      dsimp only
      by_cases hhigh : isHighSurrogate (fromBytes bigEndian [b0, b1]) = true
      · rw [if_pos hhigh]
        rcases rest with _ | ⟨c0, _ | ⟨c1, rest⟩⟩
        · rw [units16_short _ (by decide)]
          exact .here _ _ _ hnone (List.cons_ne_nil _ _)
        · simp at heven
        · have hlow : ¬ isLowSurrogate (fromBytes bigEndian [c0, c1]) = true := by
            intro hlow
            have hpair := utf16Length_pair rest hhigh hlow
            cases hnone.symm.trans hpair
          rw [units16_cons]
          dsimp only
          rw [if_neg hlow]
          exact .here _ _ _ hnone (List.cons_ne_nil _ _)
      · have hlow : isLowSurrogate (fromBytes bigEndian [b0, b1]) = true := by
          by_contra hlow
          have hsingle := utf16Length_single rest (Bool.eq_false_iff.mpr hhigh)
            (Bool.eq_false_iff.mpr hlow)
          cases hnone.symm.trans hsingle
        rw [if_neg hhigh, if_pos hlow]
        exact .here _ _ _ hnone (List.cons_ne_nil _ _)
  | hword bytes n hword ih =>
    refine .word hword ?_
    obtain ⟨b0, b1, rest, rfl, rfl, hhigh, hlow⟩ |
      ⟨b0, b1, c0, c1, rest, rfl, rfl, hhigh, hlow⟩ := utf16Length_cases hword
    · have hrest : rest.length % 2 = 0 := by simp at heven; omega
      rw [units16_cons, decodeUtf16Units.eq_def]
      simp only [hhigh, hlow, Bool.false_eq_true, if_false]
      have := @ih (i+1) (out ++ encodeUtf8 (fromBytes bigEndian [b0, b1])) hrest
      rwa [Nat.add_mul, Nat.one_mul, ← Nat.add_assoc] at this
    · have hrest : rest.length % 2 = 0 := by simp at heven; omega
      rw [units16_cons, units16_cons, decodeUtf16Units, if_pos hhigh, if_pos hlow]
      have := @ih (i+2) (out ++ encodeUtf8 (joinSurrogates (fromBytes bigEndian [b0, b1])
        (fromBytes bigEndian [c0, c1]))) hrest
      rwa [Nat.add_mul, ← Nat.add_assoc] at this

/-- What is left behind the whole chunks. -/
def finishUtf32 (rawBytes : List ℕ) (codecName : String) (start stop : ℕ)
    (remainder out : List ℕ) : Except PyError (List ℕ) :=
  if !remainder.isEmpty then
    .error (.unicodeDecodeError codecName rawBytes start stop "truncated data")
  else .ok out

theorem decodeUtf32Chunks_ends {stop : ℕ} :
    EndsAt (utf32Words bigEndian) rawBytes bytes (bomOffset+i*4)
      (decodeUtf32Chunks rawBytes bomOffset codecName bigEndian i (asChunks 4 bytes).1 out >>=
        finishUtf32 rawBytes codecName
          (bomOffset+i*4+(bytes.length-(asChunks 4 bytes).2.length)) stop
          (asChunks 4 bytes).2) := by
  induction bytes using WordCode.word_induction (W := utf32Words bigEndian) generalizing i out with
  | hnone bytes hnone =>
    by_cases hlen : bytes.length < 4
    · rw [asChunks_short hlen, decodeUtf32Chunks, Nat.sub_self, Nat.add_zero]
      show EndsAt _ _ _ _ (finishUtf32 _ _ _ _ _ _)
      rcases bytes with _ | ⟨b, rest⟩
      · exact .whole out (WordCode.stop_none hnone)
      · exact .here _ _ _ hnone (List.cons_ne_nil _ _)
    · obtain ⟨b0, b1, b2, b3, rest, rfl⟩ : ∃ b0 b1 b2 b3 rest, bytes = b0::b1::b2::b3::rest := by
        rcases bytes with _ | ⟨b0, _ | ⟨b1, _ | ⟨b2, _ | ⟨b3, rest⟩⟩⟩⟩
        · simp at hlen
        · simp at hlen
        · simp at hlen
        · simp at hlen
        · exact ⟨b0, b1, b2, b3, rest, rfl⟩
      have hchar : ¬ isChar (fromBytes bigEndian [b0, b1, b2, b3]) = true := fun hchar => by
        cases hnone.symm.trans (utf32Length_chunk rest hchar)
      have hchunks := @asChunks_cons 4 [b0, b1, b2, b3] (by decide) rfl rest
      rw [show b0::b1::b2::b3::rest = [b0, b1, b2, b3] ++ rest from rfl, hchunks,
        decodeUtf32Chunks, if_neg hchar]
      exact .here _ _ _ hnone (List.cons_ne_nil _ _)
  | hword bytes n hword ih =>
    refine .word hword ?_
    obtain ⟨b0, b1, b2, b3, rest, rfl, rfl, hchar⟩ := utf32Length_cases hword
    have hchunks := @asChunks_cons 4 [b0, b1, b2, b3] (by decide) rfl rest
    have hrem : (asChunks 4 rest).2.length ≤ rest.length := by
      rw [asChunks, List.length_drop]
      omega
    have hstart : bomOffset+i*4+((b0::b1::b2::b3::rest).length-(asChunks 4 rest).2.length) =
        bomOffset+(i+1)*4+(rest.length-(asChunks 4 rest).2.length) := by
      simp only [List.length_cons]
      omega
    rw [show asChunks 4 (b0::b1::b2::b3::rest) = _ from hchunks, hstart, decodeUtf32Chunks,
      if_pos hchar, Nat.add_assoc, ← Nat.succ_mul]
    exact ih

theorem decodeUtf32_ends :
    EndsAt (utf32Words bigEndian) rawBytes bytes bomOffset
      (decodeUtf32 bytes rawBytes bomOffset bigEndian) := by
  have hends := @decodeUtf32Chunks_ends bigEndian rawBytes bytes bomOffset 0
    (if bigEndian then "utf-32-be" else "utf-32-le") [] (bomOffset+bytes.length)
  rwa [Nat.zero_mul, Nat.add_zero] at hends

/-! ## Which failure is reported -/

theorem reportsFirst_of_ends {W : WordCode ℕ} {wellFormed : List ℕ → Prop} {object : List ℕ}
    {start : ℕ} {r : Except PyError (List ℕ)} (hb : ∀ b ∈ bytes, b < 256)
    (hW : ∀ xs, (∀ b ∈ xs, b < 256) → (W.Stream xs ↔ wellFormed xs))
    (h : EndsAt W object bytes start r) : ReportsFirst wellFormed bytes object start r := by
  cases h with
  | whole text hstop => exact (hW bytes hb).mp (WordCode.stream_iff_stop.mpr hstop)
  | stopped encoding stop reason hlt =>
    have hcongr : FailsAt W.Stream bytes (W.stop bytes) ↔ FailsAt wellFormed bytes (W.stop bytes) :=
      failsAt_congr fun m => hW _ fun b hmem => hb b (List.mem_of_mem_take hmem)
    exact ⟨rfl, _, rfl, hcongr.mp (failsAt_stop hlt)⟩

/-- No byte sequence of odd length is well-formed UTF-16. -/
theorem even_of_wellFormed16 (h : WellFormed16 bigEndian bytes) : bytes.length % 2 = 0 := by
  obtain ⟨cps, -, rfl⟩ := h
  induction cps with
  | nil => rfl
  | cons cp cps ih =>
    have hcp : (encodeCpUtf16 bigEndian cp).length % 2 = 0 := by
      rw [encodeCpUtf16, List.length_flatMap]
      simp
    rw [List.flatMap_cons, List.length_append]
    omega

/-- Of an odd length the decoder reports the last byte. -/
theorem reportsFirst_odd (hodd : bytes.length % 2 ≠ 0) :
    ReportsFirst (WellFormed16 bigEndian) bytes rawBytes bomOffset
        (decodeUtf16 bytes rawBytes bomOffset bigEndian) ↔
      WellFormed16 bigEndian bytes.dropLast := by
  have hlast : bytes.take (bytes.length-1) = bytes.dropLast := (List.dropLast_eq_take).symm
  have hfails : FailsAt (WellFormed16 bigEndian) bytes (bytes.length-1) ↔
      WellFormed16 bigEndian bytes.dropLast := by
    constructor
    · intro h
      rw [← hlast]
      exact h.holds
    · intro h
      refine ⟨by omega, hlast ▸ h, fun m hm hle hwf => hodd ?_⟩
      rw [show m = bytes.length by omega, List.take_length] at hwf
      exact even_of_wellFormed16 hwf
  rw [← hfails, decodeUtf16, if_pos hodd]
  constructor
  · rintro ⟨-, k, hstart, hk⟩
    have hk1 := hk.lt
    rwa [show bytes.length-1 = k by omega]
  · intro h
    exact ⟨rfl, _, by have := h.lt; omega, h⟩

theorem reportsFirst16_iff (hb : ∀ b ∈ bytes, b < 256) :
    ReportsFirst (WellFormed16 bigEndian) bytes rawBytes bomOffset
        (decodeUtf16 bytes rawBytes bomOffset bigEndian) ↔
      (bytes.length % 2 = 0 ∨ WellFormed16 bigEndian bytes.dropLast) := by
  by_cases hodd : bytes.length % 2 = 0
  · have hends := @decodeUtf16Units_ends bigEndian rawBytes bytes bomOffset 0
      (if bigEndian then "utf-16-be" else "utf-16-le") [] hodd
    rw [Nat.zero_mul, Nat.add_zero] at hends
    have hreports := reportsFirst_of_ends hb (fun _ h => stream16_iff h) hends
    rw [decodeUtf16, if_neg (not_not.mpr hodd)]
    exact ⟨fun _ => Or.inl hodd, fun _ => hreports⟩
  · rw [reportsFirst_odd hodd]
    exact ⟨Or.inr, fun h => h.resolve_left hodd⟩

theorem reportsFirst32 (hb : ∀ b ∈ bytes, b < 256) :
    ReportsFirst (WellFormed32 bigEndian) bytes rawBytes bomOffset
      (decodeUtf32 bytes rawBytes bomOffset bigEndian) :=
  reportsFirst_of_ends hb (fun _ h => stream32_iff h) decodeUtf32_ends

end decoders

/-! ## Byte order marks -/

/-- The length of the mark and the byte order it gives. -/
def utf16Mark (bytes : List ℕ) : ℕ × Bool :=
  if [0xFF, 0xFE].isPrefixOf bytes then (2, false)
  else if [0xFE, 0xFF].isPrefixOf bytes then (2, true)
  else (0, false)

def utf32Mark (bytes : List ℕ) : ℕ × Bool :=
  if [0xFF, 0xFE, 0, 0].isPrefixOf bytes then (4, false)
  else if [0, 0, 0xFE, 0xFF].isPrefixOf bytes then (4, true)
  else (0, false)

theorem decodeUtf16Bom_mark (bytes : List ℕ) :
    decodeUtf16Bom bytes =
      decodeUtf16 (bytes.drop (utf16Mark bytes).1) bytes (utf16Mark bytes).1
        (utf16Mark bytes).2 := by
  unfold decodeUtf16Bom utf16Mark
  split_ifs <;> rfl

theorem decodeUtf32Bom_mark (bytes : List ℕ) :
    decodeUtf32Bom bytes =
      decodeUtf32 (bytes.drop (utf32Mark bytes).1) bytes (utf32Mark bytes).1
        (utf32Mark bytes).2 := by
  unfold decodeUtf32Bom utf32Mark
  split_ifs <;> rfl

/-- The payload of UTF-16 has whole units, or is well formed up to its odd last byte. -/
def WholeOrTail16 (bigEndian : Bool) (payload : List ℕ) : Prop :=
  payload.length % 2 = 0 ∨ WellFormed16 bigEndian payload.dropLast

/-- Strict UTF-32 reports the first error; strict UTF-16 does unless the payload is of odd length
and ill formed ahead of its last byte. The byte order is given, or read from a mark. -/
theorem strict_decoding_first_error_iff (bytes : List ℕ) (hb : ∀ b ∈ bytes, b < 256) :
    (∀ bigEndian, ReportsFirst (WellFormed16 bigEndian) bytes bytes 0
        (decodeUtf16 bytes bytes 0 bigEndian) ↔ WholeOrTail16 bigEndian bytes) ∧
    (ReportsFirst (WellFormed16 (utf16Mark bytes).2) (bytes.drop (utf16Mark bytes).1) bytes
        (utf16Mark bytes).1 (decodeUtf16Bom bytes) ↔
      WholeOrTail16 (utf16Mark bytes).2 (bytes.drop (utf16Mark bytes).1)) ∧
    (∀ bigEndian, ReportsFirst (WellFormed32 bigEndian) bytes bytes 0
      (decodeUtf32 bytes bytes 0 bigEndian)) ∧
    ReportsFirst (WellFormed32 (utf32Mark bytes).2) (bytes.drop (utf32Mark bytes).1) bytes
      (utf32Mark bytes).1 (decodeUtf32Bom bytes) := by
  have hdrop : ∀ k, ∀ b ∈ bytes.drop k, b < 256 := fun k b h => hb b (List.mem_of_mem_drop h)
  rw [decodeUtf16Bom_mark, decodeUtf32Bom_mark]
  exact ⟨fun _ => reportsFirst16_iff hb, reportsFirst16_iff (hdrop _), fun _ => reportsFirst32 hb,
    reportsFirst32 (hdrop _)⟩

/-- A lone high surrogate behind a mark. -/
theorem strict_decoding_first_error_iff_samples :
    (∀ bigEndian, ReportsFirst (WellFormed16 bigEndian) [0xFF, 0xFE, 0x00, 0xD8]
        [0xFF, 0xFE, 0x00, 0xD8] 0
        (decodeUtf16 [0xFF, 0xFE, 0x00, 0xD8] [0xFF, 0xFE, 0x00, 0xD8] 0 bigEndian) ↔
      WholeOrTail16 bigEndian [0xFF, 0xFE, 0x00, 0xD8]) ∧
    (ReportsFirst (WellFormed16 false) [0x00, 0xD8] [0xFF, 0xFE, 0x00, 0xD8] 2
        (decodeUtf16Bom [0xFF, 0xFE, 0x00, 0xD8]) ↔ WholeOrTail16 false [0x00, 0xD8]) ∧
    (∀ bigEndian, ReportsFirst (WellFormed32 bigEndian) [0xFF, 0xFE, 0x00, 0xD8]
      [0xFF, 0xFE, 0x00, 0xD8] 0
      (decodeUtf32 [0xFF, 0xFE, 0x00, 0xD8] [0xFF, 0xFE, 0x00, 0xD8] 0 bigEndian)) ∧
    ReportsFirst (WellFormed32 false) [0xFF, 0xFE, 0x00, 0xD8] [0xFF, 0xFE, 0x00, 0xD8] 0
      (decodeUtf32Bom [0xFF, 0xFE, 0x00, 0xD8]) :=
  strict_decoding_first_error_iff [0xFF, 0xFE, 0x00, 0xD8] (by decide)

/-- A lone low surrogate with an odd byte behind it is reported as truncated data. -/
theorem odd_byte_reported_first :
    ¬ ReportsFirst (WellFormed16 false) [0x00, 0xDC, 0x41] [0x00, 0xDC, 0x41] 0
      (decodeUtf16 [0x00, 0xDC, 0x41] [0x00, 0xDC, 0x41] 0 false) := by
  rintro ⟨-, k, hstart, hk⟩
  have hk2 : k = 2 := by simpa using hstart.symm
  subst hk2
  have hstream : (utf16Words false).Stream [0x00, 0xDC] :=
    (stream16_iff (by decide)).mpr hk.holds
  have hstop : (utf16Words false).stop [0x00, 0xDC] = 0 := WordCode.stop_none rfl
  have hlen := WordCode.stream_iff_stop.mp hstream
  rw [hstop] at hlen
  cases hlen

end Pyrust.StrictDecoding
