import Pyrust.WideCodecs
import Pyrust.WordStream

/-!
# UTF-16 and UTF-32 as streams of words

A word of UTF-16 is a unit that is no surrogate, or a high and a low surrogate;
a word of UTF-32 is four bytes that spell a scalar value. A byte sequence is an
encoded text exactly when it is a stream of words.
-/

set_option autoImplicit false

namespace Pyrust.WideWords

open Cesu8 WideCodecs WordStream

/-! ## Words -/

def utf16Length (bigEndian : Bool) : List ℕ → Option ℕ
  | b0::b1::rest =>
    let u := fromBytes bigEndian [b0, b1]
    if isHighSurrogate u then
      match rest with
      | c0::c1::_ => if isLowSurrogate (fromBytes bigEndian [c0, c1]) then some 4 else none
      | _ => none
    else if isLowSurrogate u then none
    else some 2
  | _ => none

def utf32Length (bigEndian : Bool) : List ℕ → Option ℕ
  | b0::b1::b2::b3::_ => if isChar (fromBytes bigEndian [b0, b1, b2, b3]) then some 4 else none
  | _ => none

attribute [local simp] utf16Length in
/-- What a list that begins with a UTF-16 word looks like. -/
theorem utf16Length_cases {bigEndian : Bool} {xs : List ℕ} {n : ℕ}
    (h : utf16Length bigEndian xs = some n) :
    (∃ b0 b1 rest, xs = b0::b1::rest ∧ n = 2 ∧
      isHighSurrogate (fromBytes bigEndian [b0, b1]) = false ∧
      isLowSurrogate (fromBytes bigEndian [b0, b1]) = false) ∨
    (∃ b0 b1 c0 c1 rest, xs = b0::b1::c0::c1::rest ∧ n = 4 ∧
      isHighSurrogate (fromBytes bigEndian [b0, b1]) = true ∧
      isLowSurrogate (fromBytes bigEndian [c0, c1]) = true) := by
  rcases xs with _ | ⟨b0, _ | ⟨b1, rest⟩⟩
  · cases h
  · cases h
  · unfold utf16Length at h
    dsimp only at h
    split_ifs at h with hhigh hlow
    · rcases rest with _ | ⟨c0, _ | ⟨c1, rest⟩⟩
      · cases h
      · cases h
      · dsimp only at h
        split_ifs at h with hpair
        cases h
        exact Or.inr ⟨b0, b1, c0, c1, rest, rfl, rfl, hhigh, hpair⟩
    · cases h
      exact Or.inl ⟨b0, b1, rest, rfl, rfl, Bool.eq_false_iff.mpr hhigh, Bool.eq_false_iff.mpr hlow⟩

theorem utf16Length_single {bigEndian : Bool} {b0 b1 : ℕ} (rest : List ℕ)
    (hhigh : isHighSurrogate (fromBytes bigEndian [b0, b1]) = false)
    (hlow : isLowSurrogate (fromBytes bigEndian [b0, b1]) = false) :
    utf16Length bigEndian (b0::b1::rest) = some 2 := by
  simp [utf16Length, hhigh, hlow]

theorem utf16Length_pair {bigEndian : Bool} {b0 b1 c0 c1 : ℕ} (rest : List ℕ)
    (hhigh : isHighSurrogate (fromBytes bigEndian [b0, b1]) = true)
    (hlow : isLowSurrogate (fromBytes bigEndian [c0, c1]) = true) :
    utf16Length bigEndian (b0::b1::c0::c1::rest) = some 4 := by
  simp [utf16Length, hhigh, hlow]

theorem utf32Length_cases {bigEndian : Bool} {xs : List ℕ} {n : ℕ}
    (h : utf32Length bigEndian xs = some n) :
    ∃ b0 b1 b2 b3 rest, xs = b0::b1::b2::b3::rest ∧ n = 4 ∧
      isChar (fromBytes bigEndian [b0, b1, b2, b3]) = true := by
  unfold utf32Length at h
  split at h
  · rename_i b0 b1 b2 b3 rest
    split_ifs at h with hchar
    cases h
    exact ⟨b0, b1, b2, b3, rest, rfl, rfl, hchar⟩
  · cases h

theorem utf32Length_chunk {bigEndian : Bool} {b0 b1 b2 b3 : ℕ} (rest : List ℕ)
    (hchar : isChar (fromBytes bigEndian [b0, b1, b2, b3]) = true) :
    utf32Length bigEndian (b0::b1::b2::b3::rest) = some 4 := by
  simp [utf32Length, hchar]

def utf16Words (bigEndian : Bool) : WordCode ℕ where
  wordLength := utf16Length bigEndian
  unit := 2
  unit_pos := by decide
  pos h := by
    obtain ⟨_, _, _, -, rfl, -⟩ | ⟨_, _, _, _, _, -, rfl, -⟩ := utf16Length_cases h <;> decide
  le h := by
    obtain ⟨_, _, _, rfl, rfl, -⟩ | ⟨_, _, _, _, _, rfl, rfl, -⟩ := utf16Length_cases h <;> simp
  extend ys h := by
    obtain ⟨_, _, _, rfl, rfl, h1, h2⟩ | ⟨_, _, _, _, _, rfl, rfl, h1, h2⟩ := utf16Length_cases h
    · exact utf16Length_single _ h1 h2
    · exact utf16Length_pair _ h1 h2
  restrict h := by
    obtain ⟨_, _, _, rfl, rfl, h1, h2⟩ | ⟨_, _, _, _, _, rfl, rfl, h1, h2⟩ := utf16Length_cases h
    · exact utf16Length_single _ h1 h2
    · exact utf16Length_pair _ h1 h2

def utf32Words (bigEndian : Bool) : WordCode ℕ where
  wordLength := utf32Length bigEndian
  unit := 4
  unit_pos := by decide
  pos h := by
    obtain ⟨_, _, _, _, _, -, rfl, -⟩ := utf32Length_cases h
    decide
  le h := by
    obtain ⟨_, _, _, _, _, rfl, rfl, -⟩ := utf32Length_cases h
    simp
  extend ys h := by
    obtain ⟨_, _, _, _, _, rfl, rfl, hchar⟩ := utf32Length_cases h
    exact utf32Length_chunk _ hchar
  restrict h := by
    obtain ⟨_, _, _, _, _, rfl, rfl, hchar⟩ := utf32Length_cases h
    exact utf32Length_chunk _ hchar

/-! ## Encoded texts -/

def WellFormed16 (bigEndian : Bool) (bytes : List ℕ) : Prop :=
  ∃ cps, Scalars cps ∧ bytes = cps.flatMap (encodeCpUtf16 bigEndian)

def WellFormed32 (bigEndian : Bool) (bytes : List ℕ) : Prop :=
  ∃ cps, Scalars cps ∧ bytes = cps.flatMap (toBytes bigEndian 4)

section texts
variable {bigEndian : Bool} {cp : ℕ} {bytes : List ℕ}

theorem Scalars.cons {cps : List ℕ} (h : cp < 0x110000) (hs : isSurrogate cp = false)
    (hcps : Scalars cps) : Scalars (cp::cps) := by
  intro c hc
  rcases List.mem_cons.mp hc with rfl | hc
  · exact ⟨h, hs⟩
  · exact hcps c hc

theorem two_bytes {v : ℕ} : ∃ b0 b1, toBytes bigEndian 2 v = [b0, b1] := by
  have hlen := toBytes_length bigEndian 2 v
  generalize toBytes bigEndian 2 v = xs at hlen
  rcases xs with _ | ⟨b0, _ | ⟨b1, _ | ⟨b2, rest⟩⟩⟩
  · cases hlen
  · cases hlen
  · exact ⟨b0, b1, rfl⟩
  · simp at hlen

theorem not_surrogate (h : isSurrogate cp = false) :
    isHighSurrogate cp = false ∧ isLowSurrogate cp = false := by
  simp only [isSurrogate, isHighSurrogate, isLowSurrogate, Bool.and_eq_false_iff,
    decide_eq_false_iff_not] at *
  omega

/-- The encoding of a scalar value is a word. -/
theorem utf16Length_encode (h : cp < 0x110000) (hs : isSurrogate cp = false) (rest : List ℕ) :
    utf16Length bigEndian (encodeCpUtf16 bigEndian cp ++ rest) =
      some (encodeCpUtf16 bigEndian cp).length := by
  unfold encodeCpUtf16 encodeUtf16
  split_ifs with hcp
  · obtain ⟨b0, b1, hb⟩ := @two_bytes bigEndian cp
    have hval : fromBytes bigEndian [b0, b1] = cp := by
      rw [← hb, fromBytes_toBytes bigEndian (by omega)]
    obtain ⟨hhigh, hlow⟩ := not_surrogate hs
    rw [List.flatMap_singleton, hb]
    exact utf16Length_single rest (hval ▸ hhigh) (hval ▸ hlow)
  · obtain ⟨b0, b1, hb⟩ := @two_bytes bigEndian (0xD800+(cp-0x10000)/1024)
    obtain ⟨c0, c1, hc⟩ := @two_bytes bigEndian (0xDC00+(cp-0x10000) % 1024)
    have hval : fromBytes bigEndian [b0, b1] = 0xD800+(cp-0x10000)/1024 := by
      rw [← hb, fromBytes_toBytes bigEndian (by omega)]
    have hval2 : fromBytes bigEndian [c0, c1] = 0xDC00+(cp-0x10000) % 1024 := by
      rw [← hc, fromBytes_toBytes bigEndian (by omega)]
    rw [List.flatMap_cons, List.flatMap_singleton, hb, hc]
    refine utf16Length_pair rest ?_ ?_
    · rw [hval]
      simp only [isHighSurrogate, Bool.and_eq_true, decide_eq_true_eq]
      omega
    · rw [hval2]
      simp only [isLowSurrogate, Bool.and_eq_true, decide_eq_true_eq]
      omega

/-- Every word is the encoding of a scalar value. -/
theorem exists_scalar16 {n : ℕ} (hb : ∀ b ∈ bytes, b < 256)
    (h : utf16Length bigEndian bytes = some n) :
    ∃ cp, cp < 0x110000 ∧ isSurrogate cp = false ∧ bytes.take n = encodeCpUtf16 bigEndian cp := by
  obtain ⟨b0, b1, rest, rfl, rfl, hhigh, hlow⟩ | ⟨b0, b1, c0, c1, rest, rfl, rfl, hhigh, hlow⟩ :=
    utf16Length_cases h
  · have hbs : ∀ b ∈ [b0, b1], b < 256 := fun b hmem => hb b (by simp at hmem ⊢; tauto)
    have hlt := fromBytes_lt bigEndian hbs
    have hbytes := toBytes_fromBytes bigEndian hbs
    refine ⟨fromBytes bigEndian [b0, b1], ?_, ?_, ?_⟩
    · simp at hlt
      omega
    · simp only [isSurrogate, isHighSurrogate, isLowSurrogate, Bool.and_eq_false_iff,
        decide_eq_false_iff_not] at *
      omega
    · rw [encodeCpUtf16, encodeUtf16, if_pos (by simpa using hlt), List.flatMap_singleton]
      exact hbytes.symm
  · have hbs : ∀ b ∈ [b0, b1], b < 256 := fun b hmem => hb b (by simp at hmem ⊢; tauto)
    have hcs : ∀ b ∈ [c0, c1], b < 256 := fun b hmem => hb b (by simp at hmem ⊢; tauto)
    have hbytes := toBytes_fromBytes bigEndian hbs
    have hcytes := toBytes_fromBytes bigEndian hcs
    simp only [List.length_cons, List.length_nil] at hbytes hcytes
    simp only [isHighSurrogate, isLowSurrogate, Bool.and_eq_true, decide_eq_true_eq] at hhigh hlow
    have hjoin : joinSurrogates (fromBytes bigEndian [b0, b1]) (fromBytes bigEndian [c0, c1]) =
        0x10000+(fromBytes bigEndian [b0, b1]-0xD800)*1024+(fromBytes bigEndian [c0, c1]-0xDC00) :=
      rfl
    refine ⟨joinSurrogates (fromBytes bigEndian [b0, b1]) (fromBytes bigEndian [c0, c1]),
      ?_, ?_, ?_⟩
    · omega
    · simp only [isSurrogate, Bool.and_eq_false_iff, decide_eq_false_iff_not]
      omega
    · rw [encodeCpUtf16, encodeUtf16, if_neg (by omega), List.flatMap_cons, List.flatMap_singleton,
        show 0xD800+(joinSurrogates (fromBytes bigEndian [b0, b1])
          (fromBytes bigEndian [c0, c1])-0x10000)/1024 = fromBytes bigEndian [b0, b1] by omega,
        show 0xDC00+(joinSurrogates (fromBytes bigEndian [b0, b1])
          (fromBytes bigEndian [c0, c1])-0x10000) % 1024 = fromBytes bigEndian [c0, c1] by omega,
        hbytes, hcytes]
      rfl

theorem stream16_iff (hb : ∀ b ∈ bytes, b < 256) :
    (utf16Words bigEndian).Stream bytes ↔ WellFormed16 bigEndian bytes := by
  constructor
  · intro h
    induction h with
    | nil => exact ⟨[], by simp [Scalars], rfl⟩
    | word hword _ ih =>
      obtain ⟨cp, hcp, hs, htake⟩ := exists_scalar16 hb hword
      obtain ⟨cps, hcps, hrest⟩ := ih fun b hmem => hb b (List.mem_of_mem_drop hmem)
      refine ⟨cp::cps, Scalars.cons hcp hs hcps, ?_⟩
      rw [List.flatMap_cons, ← htake, ← hrest, List.take_append_drop]
  · rintro ⟨cps, hcps, rfl⟩
    clear hb
    induction cps with
    | nil => exact .nil
    | cons cp cps ih =>
      obtain ⟨hcp, hs⟩ := hcps cp List.mem_cons_self
      rw [List.flatMap_cons]
      refine .word (utf16Length_encode hcp hs _) ?_
      rw [List.drop_left]
      exact ih hcps.tail

theorem isChar_iff : isChar cp = true ↔ cp < 0x110000 ∧ isSurrogate cp = false := by
  simp [isChar]

theorem stream32_iff (hb : ∀ b ∈ bytes, b < 256) :
    (utf32Words bigEndian).Stream bytes ↔ WellFormed32 bigEndian bytes := by
  constructor
  · intro h
    induction h with
    | nil => exact ⟨[], by simp [Scalars], rfl⟩
    | word hword _ ih =>
      obtain ⟨b0, b1, b2, b3, rest, rfl, rfl, hchar⟩ := utf32Length_cases hword
      obtain ⟨hcp, hs⟩ := isChar_iff.mp hchar
      obtain ⟨cps, hcps, hrest⟩ := ih fun b hmem => hb b (List.mem_of_mem_drop hmem)
      have hbs : ∀ b ∈ [b0, b1, b2, b3], b < 256 :=
        fun b hmem => hb b (by simp at hmem ⊢; tauto)
      refine ⟨fromBytes bigEndian [b0, b1, b2, b3]::cps, Scalars.cons hcp hs hcps, ?_⟩
      have hbytes := toBytes_fromBytes bigEndian hbs
      simp only [List.length_cons, List.length_nil] at hbytes
      rw [List.flatMap_cons, hbytes, ← hrest]
      rfl
  · rintro ⟨cps, hcps, rfl⟩
    clear hb
    induction cps with
    | nil => exact .nil
    | cons cp cps ih =>
      obtain ⟨hcp, hs⟩ := hcps cp List.mem_cons_self
      have hval : fromBytes bigEndian (toBytes bigEndian 4 cp) = cp :=
        fromBytes_toBytes bigEndian (by omega)
      have hlen := toBytes_length bigEndian 4 cp
      rw [List.flatMap_cons]
      generalize toBytes bigEndian 4 cp = chunk at hval hlen
      rcases chunk with _ | ⟨b0, _ | ⟨b1, _ | ⟨b2, _ | ⟨b3, _ | ⟨b4, rest⟩⟩⟩⟩⟩ <;> simp at hlen
      have hword := @utf32Length_chunk bigEndian b0 b1 b2 b3
        (cps.flatMap (toBytes bigEndian 4)) (hval ▸ isChar_iff.mpr ⟨hcp, hs⟩)
      exact .word hword (ih hcps.tail)

end texts
end Pyrust.WideWords
