import Pyrust.LexerTokens

/-!
# Numeric escapes

The characters behind `\x`, `\u` and `\U` are collected unseen and handed to
`from_str_radix`, which takes a plus sign in the place of the first digit.
-/

set_option autoImplicit false

namespace Pyrust.NumericEscapes

open Cesu8 EscapeCodec StringLiterals LexerTokens

/-- The code point that the next `n` characters spell, if they are hexadecimal digits. -/
def spelled (n : ℕ) (chars : List ℕ) (pos : ℕ) : Option ℕ :=
  let digits := (chars.drop pos).take n
  if digits.length = n ∧ digits.all isHexDigit ∧ radixValue 16 digits ≤ 0x10FFFF then
    some (radixValue 16 digits)
  else none

/-- The letters of the numeric escapes and the number of digits each asks for. -/
def digitCount (c : ℕ) : Option ℕ :=
  if c = 0x78 then some 2 else if c = 0x75 then some 4 else if c = 0x55 then some 8 else none

/-- A plus sign and one digit less than asked for. -/
def PlusSigned (n : ℕ) (chars : List ℕ) (pos : ℕ) : Prop :=
  chars[pos]? = some 0x2B ∧ (spelled (n-1) chars (pos+1)).isSome

instance (n : ℕ) (chars : List ℕ) (pos : ℕ) : Decidable (PlusSigned n chars pos) := by
  unfold PlusSigned
  infer_instance

/-- `parse_escape` at the letter accepts the digits it asks for, and nothing else. -/
def StringEscapeExact (namedCharacter : List ℕ → Option ℕ) (chars : List ℕ)
    (pos contentStart n : ℕ) : Prop :=
  ∀ frag extra, parseEscape namedCharacter chars pos contentStart = .ok (frag, extra) ↔
    ∃ v, spelled n chars (pos+1) = some v ∧ frag = cesu8EncodeCodepoint v ∧ extra = n

/-- The same of the `\x` branch of `lex_bytes`, which leaves the next position. -/
def BytesEscapeExact (chars : List ℕ) (pos : ℕ) : Prop :=
  ∀ frag next, bytesEscape chars pos = .ok (frag, next) ↔
    ∃ v, spelled 2 chars (pos+1) = some v ∧ frag = [v] ∧ next = pos+3

/-! ## The integer parser -/

theorem hexValue_isSome (c : ℕ) : (hexValue c).isSome = isHexDigit c := by
  unfold hexValue isHexDigit isDigit
  split_ifs with h1 h2 h3
  · simp [h1]
  · simp [h2]
  · simp [h3]
  · simp only [not_and_or, not_le] at h1 h2 h3
    simp
    omega

theorem hexValue_lt {c v : ℕ} (h : hexValue c = some v) : v < 16 := by
  unfold hexValue at h
  split_ifs at h <;> cases h <;> omega

/-- Digits are read to the number they spell, and anything else stops the reading. -/
theorem foldlM_digits (digits : List ℕ) (v : ℕ) :
    digits.foldlM (fun v d => (hexValue d).map fun x => v*16+x) v =
      if digits.all isHexDigit then
        some (digits.foldl (fun v d => v*16 + (hexValue d).getD 0) v) else none := by
  induction digits generalizing v with
  | nil => rfl
  | cons d ds ih =>
    have hd := hexValue_isSome d
    rw [List.foldlM_cons, List.foldl_cons, List.all_cons]
    cases hval : hexValue d with
    | none =>
      rw [hval] at hd
      rw [← hd]
      rfl
    | some x =>
      rw [hval] at hd
      rw [← hd]
      exact ih _

theorem skipPlus_cons (c d : ℕ) (ds : List ℕ) :
    skipPlus (c::d::ds) = if c = 0x2B then d::ds else c::d::ds := by
  unfold skipPlus
  split
  · rename_i h
    cases h
    rfl
  · rename_i h
    rw [if_neg]
    rintro rfl
    exact h d ds rfl

theorem fromStrRadix16_two (c d : ℕ) (ds : List ℕ) :
    fromStrRadix16 (c::d::ds) =
      if c = 0x2B then
        if (d::ds).all isHexDigit then some (radixValue 16 (d::ds)) else none
      else if (c::d::ds).all isHexDigit then some (radixValue 16 (c::d::ds)) else none := by
  rw [fromStrRadix16, if_neg (List.cons_ne_nil _ _), skipPlus_cons]
  split_ifs with hplus hall hall
  · rw [foldlM_digits, if_pos hall]
    rfl
  · rw [foldlM_digits, if_neg hall]
  · rw [foldlM_digits, if_pos hall]
    rfl
  · rw [foldlM_digits, if_neg hall]

theorem foldl_digits_lt (digits : List ℕ) (v : ℕ) (k : ℕ) (hv : v < 16^k) :
    digits.foldl (fun v d => v*16 + (hexValue d).getD 0) v < 16^(k+digits.length) := by
  induction digits generalizing v k with
  | nil => exact hv
  | cons d ds ih =>
    have hd : (hexValue d).getD 0 < 16 := by
      cases hval : hexValue d with
      | none => simp
      | some x => exact hexValue_lt hval
    have hstep : v*16 + (hexValue d).getD 0 < 16^(k+1) := by
      rw [pow_succ]
      omega
    have := ih _ _ hstep
    rwa [List.length_cons, Nat.add_comm ds.length 1, ← Nat.add_assoc]

theorem radixValue_lt (digits : List ℕ) : radixValue 16 digits < 16^digits.length := by
  have := foldl_digits_lt digits 0 0 (by decide)
  rwa [Nat.zero_add] at this

theorem fromStrRadix16_lt {digits : List ℕ} {v : ℕ} (h : fromStrRadix16 digits = some v) :
    v < 16^digits.length := by
  rcases digits with _ | ⟨c, _ | ⟨d, ds⟩⟩
  · simp [fromStrRadix16] at h
  · have hc : hexValue c = some v := by simpa [fromStrRadix16, skipPlus] using h
    simpa using hexValue_lt hc
  · rw [fromStrRadix16_two] at h
    split_ifs at h
    · cases h
      have hlt := radixValue_lt (d::ds)
      have hpow : 16^(d::ds).length ≤ 16^(c::d::ds).length :=
        Nat.pow_le_pow_right (by decide) (by simp)
      omega
    · cases h
      exact radixValue_lt _

/-- Up to four digits stay in range. -/
theorem filter_fromStrRadix16 {digits : List ℕ} (h : digits.length ≤ 4) :
    (fromStrRadix16 digits).filter (· ≤ 0x10FFFF) = fromStrRadix16 digits := by
  cases hval : fromStrRadix16 digits with
  | none => rfl
  | some v =>
    have hlt := fromStrRadix16_lt hval
    have hpow : 16^digits.length ≤ 16^4 := Nat.pow_le_pow_right (by decide) h
    simp [Option.filter, show v ≤ 0x10FFFF by omega]

/-! ## What is accepted -/

/-- The code point that `from_str_radix` reads in the next `n` characters. -/
def accepted (n : ℕ) (chars : List ℕ) (pos : ℕ) : Option ℕ :=
  let digits := (chars.drop pos).take n
  if digits.length = n then (fromStrRadix16 digits).filter (· ≤ 0x10FFFF) else none

section accepted
variable {chars : List ℕ} {pos n : ℕ}

theorem two_of_length {digits : List ℕ} (hn : 2 ≤ n) (h : digits.length = n) :
    ∃ c d ds, digits = c::d::ds := by
  rcases digits with _ | ⟨c, _ | ⟨d, ds⟩⟩
  · simp at h; omega
  · simp at h; omega
  · exact ⟨c, d, ds, rfl⟩

theorem take_of_drop {c : ℕ} {ds : List ℕ} (h : (chars.drop pos).take n = c::ds) :
    chars[pos]? = some c ∧ (chars.drop (pos+1)).take (n-1) = ds := by
  rcases n with _ | n
  · simp at h
  cases hdrop : chars.drop pos with
  | nil => rw [hdrop] at h; simp at h
  | cons c' rest =>
    rw [hdrop, List.take_succ_cons] at h
    obtain ⟨rfl, rfl⟩ := List.cons.inj h
    have hc : chars[pos]? = some c' := by
      have := @List.getElem?_drop _ chars pos 0
      rwa [hdrop, Nat.add_zero, List.getElem?_cons_zero, eq_comm] at this
    have hrest : chars.drop (pos+1) = rest := by rw [← List.drop_drop, hdrop]; rfl
    exact ⟨hc, by rw [hrest, Nat.add_sub_cancel]⟩

theorem accepted_signed (hn : 2 ≤ n) (h : chars[pos]? = some 0x2B) :
    accepted n chars pos = spelled (n-1) chars (pos+1) := by
  have hsplit : (chars.drop pos).take n = 0x2B::(chars.drop (pos+1)).take (n-1) := by
    obtain ⟨m, rfl⟩ : ∃ m, n = m+1 := ⟨n-1, by omega⟩
    rw [List.drop_eq_getElem?_toList_append, h]
    rfl
  unfold accepted spelled
  dsimp only
  rw [hsplit, List.length_cons]
  by_cases hlen : ((chars.drop (pos+1)).take (n-1)).length = n-1
  · have hpos : 0 < ((chars.drop (pos+1)).take (n-1)).length := by omega
    obtain ⟨d, ds, hd⟩ := List.exists_cons_of_length_pos hpos
    rw [hlen, if_pos (by omega), hd, fromStrRadix16_two, if_pos rfl]
    by_cases hall : (d::ds).all isHexDigit
    · simp only [hall, if_true, true_and, Option.filter, decide_eq_true_eq]
    · simp [hall]
  · rw [if_neg (by omega), if_neg (by tauto)]

theorem accepted_unsigned (hn : 2 ≤ n) (h : chars[pos]? ≠ some 0x2B) :
    accepted n chars pos = spelled n chars pos := by
  unfold accepted spelled
  dsimp only
  by_cases hlen : ((chars.drop pos).take n).length = n
  · obtain ⟨c, d, ds, hcd⟩ := two_of_length hn hlen
    have hc : c ≠ 0x2B := by
      rintro rfl
      exact h (take_of_drop hcd).1
    rw [if_pos hlen, hcd, fromStrRadix16_two, if_neg hc]
    rw [hcd] at hlen
    by_cases hall : (c::d::ds).all isHexDigit
    · simp only [hlen, hall, if_true, true_and, Option.filter, decide_eq_true_eq]
    · simp [hall]
  · rw [if_neg hlen, if_neg (by tauto)]

/-- A plus sign is no digit. -/
theorem spelled_plus (hn : 0 < n) (h : chars[pos]? = some 0x2B) : spelled n chars pos = none := by
  obtain ⟨m, rfl⟩ : ∃ m, n = m+1 := ⟨n-1, by omega⟩
  have hsplit : (chars.drop pos).take (m+1) = 0x2B::(chars.drop (pos+1)).take m := by
    rw [List.drop_eq_getElem?_toList_append, h]
    rfl
  unfold spelled
  dsimp only
  rw [hsplit, if_neg]
  rintro ⟨-, hall, -⟩
  rw [List.all_cons, Bool.and_eq_true] at hall
  exact absurd hall.1 (by decide)

theorem accepted_eq_iff (hn : 2 ≤ n) :
    accepted n chars pos = spelled n chars pos ↔ ¬ PlusSigned n chars pos := by
  by_cases hplus : chars[pos]? = some 0x2B
  · rw [accepted_signed hn hplus, spelled_plus (by omega) hplus, PlusSigned,
      Option.isSome_iff_ne_none]
    tauto
  · rw [accepted_unsigned hn hplus, PlusSigned]
    tauto

end accepted

/-! ## The escapes -/

section escapes
variable {namedCharacter : List ℕ → Option ℕ} {chars : List ℕ} {pos contentStart n c v : ℕ}

theorem take_two : (chars.drop pos).take 2 = (chars[pos]?).toList ++ (chars[pos+1]?).toList := by
  rw [List.drop_eq_getElem?_toList_append]
  cases h : chars[pos]? with
  | none =>
    have hlen : chars.length ≤ pos := List.getElem?_eq_none_iff.mp h
    rw [List.drop_eq_nil_of_le (by omega), List.getElem?_eq_none_iff.mpr (by omega)]
    rfl
  | some c =>
    rw [List.drop_eq_getElem?_toList_append]
    cases hnext : chars[pos+1]? with
    | none =>
      have hlen : chars.length ≤ pos+1 := List.getElem?_eq_none_iff.mp hnext
      rw [List.drop_eq_nil_of_le (by omega)]
      rfl
    | some d => simp [List.take_succ_cons]

theorem accepted_two :
    accepted 2 chars pos = match chars[pos]?, chars[pos+1]? with
      | some hi, some lo => fromStrRadix16 [hi, lo]
      | _, _ => none := by
  unfold accepted
  dsimp only
  rw [take_two]
  cases chars[pos]? with
  | none => cases chars[pos+1]? <;> rfl
  | some hi =>
    cases chars[pos+1]? with
    | none => rfl
    | some lo => exact filter_fromStrRadix16 (by simp : [hi, lo].length ≤ 4)

theorem codepointToStringFragment_of_le (h : v ≤ 0x10FFFF) :
    codepointToStringFragment v = some (cesu8EncodeCodepoint v) := by
  rw [codepointToStringFragment, cesu8EncodeCodepoint, if_pos (by omega : v < 0x110000)]
  split <;> rfl

theorem wideEscape_ok {letter : String} {frag : List ℕ} {extra : ℕ} (hn : n = 4 ∨ n = 8) :
    wideEscape letter n chars pos = .ok (frag, extra) ↔
      ∃ v, accepted n chars (pos+1) = some v ∧ frag = cesu8EncodeCodepoint v ∧ extra = n := by
  unfold wideEscape accepted
  dsimp only
  have hle : ((chars.drop (pos+1)).take n).length ≤ n := List.length_take_le _ _
  by_cases hlen : ((chars.drop (pos+1)).take n).length = n
  · rw [if_neg (by omega), if_pos hlen]
    cases hval : fromStrRadix16 ((chars.drop (pos+1)).take n) with
    | none => simp
    | some v =>
      have hlt := fromStrRadix16_lt hval
      rw [hlen] at hlt
      rcases hn with rfl | rfl
      · have hle : v ≤ 0x10FFFF := by omega
        simp [Option.filter, hle, codepointToStringFragment_of_le hle, eq_comm]
      · by_cases hle : v ≤ 0x10FFFF
        · simp [Option.filter, hle, not_lt.mpr hle, codepointToStringFragment_of_le hle, eq_comm]
        · simp [Option.filter, hle, not_le.mp hle]
  · rw [if_pos (by omega), if_neg hlen]
    simp

theorem parseEscape_x {frag : List ℕ} {extra : ℕ} (h : chars[pos]? = some 0x78) :
    parseEscape namedCharacter chars pos contentStart = .ok (frag, extra) ↔
      ∃ v, accepted 2 chars (pos+1) = some v ∧ frag = cesu8EncodeCodepoint v ∧ extra = 2 := by
  have hs : singleEscape 0x78 = none := rfl
  have ho : isOctal 0x78 = false := rfl
  rw [parseEscape, h]
  simp only [hs, ho]
  rw [accepted_two]
  cases chars[pos+1]? with
  | none => simp
  | some hi =>
    cases chars[pos+2]? with
    | none => simp
    | some lo =>
      cases hval : fromStrRadix16 [hi, lo] with
      | none => simp [hval]
      | some v =>
        have hlt : v < 16^2 := fromStrRadix16_lt hval
        have henc : cesu8EncodeCodepoint v = encodeUtf8 v := by
          rw [cesu8EncodeCodepoint, if_neg]
          simp only [isSurrogate, Bool.and_eq_true, decide_eq_true_eq]
          omega
        simp [hval, henc, eq_comm]

theorem parseEscape_wide {frag : List ℕ} {extra : ℕ} (h : chars[pos]? = some c)
    (hc : c = 0x75 ∧ n = 4 ∨ c = 0x55 ∧ n = 8) :
    parseEscape namedCharacter chars pos contentStart = .ok (frag, extra) ↔
      ∃ v, accepted n chars (pos+1) = some v ∧ frag = cesu8EncodeCodepoint v ∧ extra = n := by
  rcases hc with ⟨rfl, rfl⟩ | ⟨rfl, rfl⟩
  · have hs : singleEscape 0x75 = none := rfl
    have ho : isOctal 0x75 = false := rfl
    rw [parseEscape, h]
    simp only [hs, ho]
    exact wideEscape_ok (Or.inl rfl)
  · have hs : singleEscape 0x55 = none := rfl
    have ho : isOctal 0x55 = false := rfl
    rw [parseEscape, h]
    simp only [hs, ho]
    exact wideEscape_ok (Or.inr rfl)

/-- Every numeric escape of a string literal takes what `from_str_radix` reads. -/
theorem parseEscape_numeric {frag : List ℕ} {extra : ℕ} (h : chars[pos]? = some c)
    (hn : digitCount c = some n) :
    parseEscape namedCharacter chars pos contentStart = .ok (frag, extra) ↔
      ∃ v, accepted n chars (pos+1) = some v ∧ frag = cesu8EncodeCodepoint v ∧ extra = n := by
  unfold digitCount at hn
  split_ifs at hn with hx hu hU
  · cases hn
    exact parseEscape_x (hx ▸ h)
  · cases hn
    exact parseEscape_wide h (Or.inl ⟨hu, rfl⟩)
  · cases hn
    exact parseEscape_wide h (Or.inr ⟨hU, rfl⟩)

theorem bytesEscape_x {frag : List ℕ} {next : ℕ} (h : chars[pos]? = some 0x78) :
    bytesEscape chars pos = .ok (frag, next) ↔
      ∃ v, accepted 2 chars (pos+1) = some v ∧ frag = [v] ∧ next = pos+3 := by
  have hs : singleEscape 0x78 = none := rfl
  have ho : isOctal 0x78 = false := rfl
  rw [bytesEscape, h]
  simp only [hs, ho]
  rw [accepted_two]
  cases chars[pos+1]? with
  | none => simp
  | some hi =>
    cases chars[pos+2]? with
    | none => simp
    | some lo =>
      cases hval : fromStrRadix16 [hi, lo] with
      | none => simp [hval]
      | some v => simp [hval, eq_comm]

theorem two_le_digitCount (hn : digitCount c = some n) : 2 ≤ n := by
  unfold digitCount at hn
  split_ifs at hn <;> cases hn <;> decide

theorem stringEscapeExact_iff (h : chars[pos]? = some c) (hn : digitCount c = some n) :
    StringEscapeExact namedCharacter chars pos contentStart n ↔ ¬ PlusSigned n chars (pos+1) := by
  have htwo := two_le_digitCount hn
  constructor
  · rintro hexact ⟨hplus, hdigits⟩
    obtain ⟨v, hv⟩ := Option.isSome_iff_exists.mp hdigits
    have haccepted : accepted n chars (pos+1) = some v := by
      rw [accepted_signed htwo hplus, hv]
    have hparse : parseEscape namedCharacter chars pos contentStart =
        .ok (cesu8EncodeCodepoint v, n) :=
      (parseEscape_numeric h hn).mpr ⟨v, haccepted, rfl, rfl⟩
    obtain ⟨w, hw, -⟩ := (hexact _ _).mp hparse
    rw [spelled_plus (by omega) hplus] at hw
    cases hw
  · intro hplus frag extra
    rw [parseEscape_numeric h hn, (accepted_eq_iff htwo).mpr hplus]

theorem bytesEscapeExact_iff (h : chars[pos]? = some 0x78) :
    BytesEscapeExact chars pos ↔ ¬ PlusSigned 2 chars (pos+1) := by
  constructor
  · rintro hexact ⟨hplus, hdigits⟩
    obtain ⟨v, hv⟩ := Option.isSome_iff_exists.mp hdigits
    have haccepted : accepted 2 chars (pos+1) = some v := by
      rw [accepted_signed (by decide) hplus, hv]
    have hparse : bytesEscape chars pos = .ok ([v], pos+3) :=
      (bytesEscape_x h).mpr ⟨v, haccepted, rfl, rfl⟩
    obtain ⟨w, hw, -⟩ := (hexact _ _).mp hparse
    rw [spelled_plus (by decide) hplus] at hw
    cases hw
  · intro hplus frag next
    rw [bytesEscape_x h, (accepted_eq_iff (by decide)).mpr hplus]

end escapes

/-- A numeric escape accepts exactly its hexadecimal digits unless a plus sign with one digit less
stands in their place. -/
theorem numeric_escapes_exact_iff (namedCharacter : List ℕ → Option ℕ) (chars : List ℕ)
    (pos contentStart c n : ℕ) (h : chars[pos]? = some c) (hn : digitCount c = some n) :
    (StringEscapeExact namedCharacter chars pos contentStart n ↔
        ¬ PlusSigned n chars (pos+1)) ∧
      (c = 0x78 → (BytesEscapeExact chars pos ↔ ¬ PlusSigned 2 chars (pos+1))) :=
  ⟨stringEscapeExact_iff h hn, fun hc => bytesEscapeExact_iff (hc ▸ h)⟩

/-- `\x41`: a letter in two digits. -/
theorem numeric_escapes_exact_iff_letter :
    (StringEscapeExact (fun _ => none) [0x78, 0x34, 0x31] 0 0 2 ↔
        ¬ PlusSigned 2 [0x78, 0x34, 0x31] 1) ∧
      (0x78 = 0x78 → (BytesEscapeExact [0x78, 0x34, 0x31] 0 ↔
        ¬ PlusSigned 2 [0x78, 0x34, 0x31] 1)) :=
  numeric_escapes_exact_iff (fun _ => none) [0x78, 0x34, 0x31] 0 0 0x78 2 rfl rfl

/-- `\x+1` is read as a character, in a string and in a bytes literal. -/
theorem plus_sign_accepted :
    ¬ StringEscapeExact (fun _ => none) [0x78, 0x2B, 0x31] 0 0 2 ∧
      ¬ BytesEscapeExact [0x78, 0x2B, 0x31] 0 := by
  have hnone : spelled 2 [0x78, 0x2B, 0x31] 1 = none := by decide
  constructor
  · intro h
    obtain ⟨v, hv, -⟩ := (h [1] 2).mp rfl
    exact absurd (hnone.symm.trans hv) (by simp)
  · intro h
    obtain ⟨v, hv, -⟩ := (h [1] 3).mp rfl
    exact absurd (hnone.symm.trans hv) (by simp)

end Pyrust.NumericEscapes
