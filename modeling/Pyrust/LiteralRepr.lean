import Pyrust.StringLiterals

/-!
# Literals that are read back

The `repr` of a string quotes it, escapes the quote, the backslash and three line
characters, and writes everything that is not printable as a hexadecimal escape.
The `repr` of a byte string does the same with bytes. Both are texts of scalar
values, and the lexer reads each of them back to the value it was made from,
whatever the category table calls printable.
-/

set_option autoImplicit false

namespace Pyrust.LiteralRepr

open Cesu8 EscapeCodec StringLiterals

/-- The general categories that are told apart. -/
inductive GeneralCategory where
  | control | format | surrogate | privateUse | unassigned
  | spaceSeparator | lineSeparator | paragraphSeparator | other
  deriving DecidableEq, Repr

/-- `repr_quote`. -/
def reprQuote (s : List ℕ) : ℕ := if s.contains 0x27 ∧ ¬s.contains 0x22 then 0x22 else 0x27

section writer
variable (category : ℕ → GeneralCategory)

/-- `cp_is_printable`. -/
def cpIsPrintable (n : ℕ) : Bool :=
  if n = 0x20 then true
  else if isSurrogate n then false
  else if 0x110000 ≤ n then false
  else match category n with
    | .other => true
    | _ => false

/-- One code point of `escape_str`. -/
def escapeOne (quote n : ℕ) : List ℕ :=
  if n = 0x5C then [0x5C, 0x5C]
  else if n = 0x0A then [0x5C, 0x6E]
  else if n = 0x09 then [0x5C, 0x74]
  else if n = 0x0D then [0x5C, 0x72]
  else if n = quote then [0x5C, quote]
  else if cpIsPrintable category n = false then
    if n ≤ 0xFF then [0x5C, 0x78] ++ lowerHex 2 n
    else if n ≤ 0xFFFF then [0x5C, 0x75] ++ lowerHex 4 n
    else [0x5C, 0x55] ++ lowerHex 8 n
  else if n < 0x110000 ∧ isSurrogate n = false then [n]
  else [0x5C, 0x75] ++ lowerHex 4 n

def escapeStr (s : List ℕ) (quote : ℕ) : List ℕ :=
  (cesu8Codepoints s).flatMap (escapeOne category quote)

def strRepr (s : List ℕ) : List ℕ :=
  reprQuote s::(escapeStr category s (reprQuote s) ++ [reprQuote s])

end writer

/-- One byte of `bytes_repr`. -/
def escapeByte (quote b : ℕ) : List ℕ :=
  if b = 0x09 then [0x5C, 0x74]
  else if b = 0x0A then [0x5C, 0x6E]
  else if b = 0x0D then [0x5C, 0x72]
  else if b = 0x5C then [0x5C, 0x5C]
  else if b = 0x27 ∧ quote = 0x27 then [0x5C, 0x27]
  else if b = 0x22 ∧ quote = 0x22 then [0x5C, 0x22]
  else if 0x20 ≤ b ∧ b ≤ 0x7E then [b]
  else [0x5C, 0x78] ++ lowerHex 2 b

def bytesRepr (bytes : List ℕ) : List ℕ :=
  0x62::reprQuote bytes::(bytes.flatMap (escapeByte (reprQuote bytes)) ++ [reprQuote bytes])

theorem reprQuote_cases (s : List ℕ) : reprQuote s = 0x27 ∨ reprQuote s = 0x22 := by
  rw [reprQuote]
  split
  · exact .inr rfl
  · exact .inl rfl

/-! ## Hexadecimal escapes -/

theorem hexDigit_range (d : ℕ) (h : d < 16) :
    hexDigit d < 0x80 ∧ hexDigit d ≠ 0x2B ∧ hexDigit d ≠ 0x5C := by
  rw [hexDigit]
  split <;> omega

theorem lowerHex_range (n v : ℕ) :
    ∀ c ∈ lowerHex n v, c < 0x80 ∧ c ≠ 0x2B ∧ c ≠ 0x5C := by
  induction n generalizing v with
  | zero =>
    intro c hc
    cases hc
  | succ n ih =>
    intro c hc
    rw [lowerHex, List.mem_append, List.mem_singleton] at hc
    rcases hc with hc | rfl
    · exact ih _ c hc
    · exact hexDigit_range _ (Nat.mod_lt v (by omega))

theorem foldl_lowerHex (n v w : ℕ) (h : v < 16^n) :
    (lowerHex n v).foldlM (fun v d => (hexValue d).map fun x => v*16+x) w =
      some (w*16^n+v) := by
  induction n generalizing v with
  | zero =>
    have hv : v = 0 := by rwa [pow_zero, Nat.lt_one_iff] at h
    simp [hv, lowerHex]
  | succ n ih =>
    have hdiv : v/16 < 16^n := Nat.div_lt_of_lt_mul (by rwa [pow_succ, Nat.mul_comm] at h)
    have hvalue : (w*16^n+v/16)*16+v % 16 = w*16^(n+1)+v := by
      rw [Nat.add_mul, Nat.mul_assoc, ← pow_succ, Nat.add_assoc, Nat.div_add_mod']
    rw [lowerHex, List.foldlM_append, ih _ hdiv]
    simp [hexValue_hexDigit (Nat.mod_lt v (by omega : 0 < 16)), hvalue]

theorem fromStrRadix16_lowerHex (n v : ℕ) (hn : 0 < n) (h : v < 16^n) :
    fromStrRadix16 (lowerHex n v) = some v := by
  have hne : lowerHex n v ≠ [] := by
    intro hnil
    have := congrArg List.length hnil
    rw [lowerHex_length, List.length_nil] at this
    omega
  have hfold := foldl_lowerHex n v 0 h
  rw [Nat.zero_mul, Nat.zero_add] at hfold
  have hplus : skipPlus (lowerHex n v) = lowerHex n v := by
    unfold skipPlus
    split
    · rename_i d ds heq
      exact absurd rfl (lowerHex_range n v 0x2B (heq ▸ List.mem_cons_self)).2.1
    · rfl
  rw [fromStrRadix16, if_neg hne, hplus]
  exact hfold

theorem codepointToStringFragment_some {cp : ℕ} (h : cp < 0x110000) :
    codepointToStringFragment cp = some (cesu8EncodeCodepoint cp) := by
  rw [codepointToStringFragment, cesu8EncodeCodepoint, if_pos h]
  split <;> rfl

/-! ## Reading an escape back -/

section positions
variable {chars xs ys : List ℕ} {pos : ℕ}

theorem getElem?_of_drop (h : chars.drop pos = xs) (k : ℕ) : chars[pos+k]? = xs[k]? := by
  rw [← h, List.getElem?_drop]

theorem drop_append (h : chars.drop pos = xs ++ ys) : chars.drop (pos+xs.length) = ys := by
  rw [← List.drop_drop, h, List.drop_left]

end positions

section escapes
variable {namedCharacter : List ℕ → Option ℕ} {chars rest : List ℕ} {pos contentStart : ℕ}

theorem parseEscape_single {c b : ℕ} (h : chars.drop pos = c::rest) (hc : singleEscape c = some b) :
    parseEscape namedCharacter chars pos contentStart = .ok ([b], 0) := by
  have h0 : chars[pos]? = some c := getElem?_of_drop h 0
  rw [parseEscape, h0]
  simp only [hc]

theorem parseEscape_hex {v : ℕ} (hv : v < 0x100)
    (h : chars.drop pos = 0x78::(lowerHex 2 v ++ rest)) :
    parseEscape namedCharacter chars pos contentStart = .ok (encodeUtf8 v, 2) := by
  have hdigits : lowerHex 2 v = [hexDigit (v/16 % 16), hexDigit (v % 16)] := rfl
  have h0 : chars[pos]? = some 0x78 := getElem?_of_drop h 0
  have h1 : chars[pos+1]? = some (hexDigit (v/16 % 16)) := getElem?_of_drop h 1
  have h2 : chars[pos+2]? = some (hexDigit (v % 16)) := getElem?_of_drop h 2
  have hvalue := fromStrRadix16_lowerHex 2 v (by decide) (by omega)
  rw [hdigits] at hvalue
  have hs : singleEscape 0x78 = none := rfl
  have ho : isOctal 0x78 = false := rfl
  rw [parseEscape, h0]
  simp only [hs, ho, h1, h2, hvalue]
  rfl

theorem wideEscape_hex {letter : String} {n c v : ℕ} (hn : 0 < n) (hv : v < 16^n)
    (hcp : v < 0x110000) (h : chars.drop pos = c::(lowerHex n v ++ rest)) :
    wideEscape letter n chars pos = .ok (cesu8EncodeCodepoint v, n) := by
  have hdrop : chars.drop (pos+1) = lowerHex n v ++ rest := @drop_append chars [c] _ pos h
  have htake : (chars.drop (pos+1)).take n = lowerHex n v := by
    rw [hdrop, List.take_left' (lowerHex_length n v)]
  have hfull : ¬(lowerHex n v).length < n := by
    rw [lowerHex_length]
    omega
  have hrange : ¬(n = 8 ∧ 0x10FFFF < v) := by omega
  simp only [wideEscape, htake, hfull, if_false, fromStrRadix16_lowerHex n v hn hv, hrange,
    codepointToStringFragment_some hcp]

theorem parseEscape_u {v : ℕ} (hv : v < 0x10000)
    (h : chars.drop pos = 0x75::(lowerHex 4 v ++ rest)) :
    parseEscape namedCharacter chars pos contentStart = .ok (cesu8EncodeCodepoint v, 4) := by
  have h0 : chars[pos]? = some 0x75 := getElem?_of_drop h 0
  have hs : singleEscape 0x75 = none := rfl
  have ho : isOctal 0x75 = false := rfl
  rw [parseEscape, h0]
  simp only [hs, ho]
  exact wideEscape_hex (by decide) hv (by omega) h

theorem parseEscape_U {v : ℕ} (hv : v < 0x110000)
    (h : chars.drop pos = 0x55::(lowerHex 8 v ++ rest)) :
    parseEscape namedCharacter chars pos contentStart = .ok (cesu8EncodeCodepoint v, 8) := by
  have h0 : chars[pos]? = some 0x55 := getElem?_of_drop h 0
  have hs : singleEscape 0x55 = none := rfl
  have ho : isOctal 0x55 = false := rfl
  rw [parseEscape, h0]
  simp only [hs, ho]
  exact wideEscape_hex (by decide) (by omega) hv h

end escapes

/-! ## Reading a string back -/

section strings
variable {namedCharacter : List ℕ → Option ℕ} {chars rest : List ℕ} {quote pos contentStart : ℕ}

theorem lexEscape_of_parse {eof : String} {c extra : ℕ} {frag : List ℕ}
    (h : chars[pos]? = some c) (hn : c ≠ 0x0A) (hr : c ≠ 0x0D)
    (hp : parseEscape namedCharacter chars pos contentStart = .ok (frag, extra)) :
    lexEscape namedCharacter eof chars pos contentStart = .ok (frag, pos+1+extra) := by
  rw [lexEscape, h]
  simp only [hn, hr, if_false, hp]

theorem body_quote (h : chars[pos]? = some quote) (out : List ℕ) :
    lexStringBody namedCharacter chars quote false contentStart pos out = .ok (out, pos+1) := by
  rw [lexStringBody]
  split
  · rename_i hnone
    rw [h] at hnone
    cases hnone
  · rename_i c hc
    rw [h, Option.some.injEq] at hc
    rw [if_pos hc.symm]

theorem body_plain {c : ℕ} (h : chars[pos]? = some c) (hq : c ≠ quote) (hb : c ≠ 0x5C)
    (out : List ℕ) :
    lexStringBody namedCharacter chars quote false contentStart pos out =
      lexStringBody namedCharacter chars quote false contentStart (pos+1)
        (out ++ encodeUtf8 c) := by
  rw [lexStringBody]
  split
  · rename_i hnone
    rw [h] at hnone
    cases hnone
  · rename_i d hd
    rw [h, Option.some.injEq] at hd
    subst hd
    rw [if_neg hq, if_neg hb]

theorem body_escape {c extra : ℕ} {frag : List ℕ} (h : chars[pos]? = some 0x5C)
    (hq : 0x5C ≠ quote) (hc : chars[pos+1]? = some c) (hn : c ≠ 0x0A) (hr : c ≠ 0x0D)
    (hp : parseEscape namedCharacter chars (pos+1) contentStart = .ok (frag, extra))
    (out : List ℕ) :
    lexStringBody namedCharacter chars quote false contentStart pos out =
      lexStringBody namedCharacter chars quote false contentStart (pos+2+extra)
        (out ++ frag) := by
  rw [lexStringBody]
  split
  · rename_i hnone
    rw [h] at hnone
    cases hnone
  · rename_i d hd
    rw [h, Option.some.injEq] at hd
    subst hd
    rw [if_neg hq, if_pos rfl, if_neg Bool.false_ne_true]
    have hl : lexEscape namedCharacter "EOL while scanning string literal" chars (pos+1)
        contentStart = _ := lexEscape_of_parse hc hn hr hp
    split
    · rename_i e he
      rw [hl] at he
      cases he
    · rename_i frag' next hnext
      rw [hl] at hnext
      cases hnext
      rfl

theorem encode_ascii {n : ℕ} (h : n < 0x80) : cesu8EncodeCodepoint n = [n] := by
  have hs : isSurrogate n = false := by
    simp only [isSurrogate, Bool.and_eq_false_iff, decide_eq_false_iff_not]
    omega
  rw [cesu8EncodeCodepoint_scalar hs, encodeUtf8, if_pos h]

/-- A backslash, the character behind it and the digits that belong to it. -/
theorem body_written {e : ℕ} {digits frag : List ℕ} (hb : 0x5C ≠ quote) (hn : e ≠ 0x0A)
    (hr : e ≠ 0x0D) (h : chars.drop pos = 0x5C::e::digits ++ rest)
    (hp : chars.drop (pos+1) = e::(digits ++ rest) →
      parseEscape namedCharacter chars (pos+1) contentStart = .ok (frag, digits.length))
    (out : List ℕ) :
    lexStringBody namedCharacter chars quote false contentStart pos out =
      lexStringBody namedCharacter chars quote false contentStart
        (pos+(0x5C::e::digits).length) (out ++ frag) := by
  have h0 : chars[pos]? = some 0x5C := getElem?_of_drop h 0
  have h1 : chars[pos+1]? = some e := getElem?_of_drop h 1
  rw [body_escape h0 hb h1 hn hr (hp (@drop_append chars [0x5C] _ pos h))]
  simp only [List.length_cons]
  rw [Nat.add_assoc pos, Nat.add_comm 2]

/-- The lexer reads an escaped code point and goes on behind it. -/
theorem body_escapeOne (category : ℕ → GeneralCategory) {n : ℕ}
    (hquote : quote = 0x27 ∨ quote = 0x22) (hn : n < 0x110000)
    (h : chars.drop pos = escapeOne category quote n ++ rest) (out : List ℕ) :
    lexStringBody namedCharacter chars quote false contentStart pos out =
      lexStringBody namedCharacter chars quote false contentStart
        (pos+(escapeOne category quote n).length) (out ++ cesu8EncodeCodepoint n) := by
  have hb : 0x5C ≠ quote := by omega
  have hsingle : ∀ e, singleEscape e = some n → n < 0x80 → e ≠ 0x0A → e ≠ 0x0D →
      escapeOne category quote n = [0x5C, e] →
      lexStringBody namedCharacter chars quote false contentStart pos out =
        lexStringBody namedCharacter chars quote false contentStart
          (pos+(escapeOne category quote n).length) (out ++ cesu8EncodeCodepoint n) := by
    intro e he hlt hline hret heq
    rw [heq] at h ⊢
    rw [encode_ascii hlt]
    exact body_written hb hline hret h (fun hd => parseEscape_single hd he) out
  by_cases h1 : n = 0x5C
  · exact hsingle 0x5C (by rw [h1]; rfl) (by omega) (by decide) (by decide) (by simp [escapeOne, h1])
  by_cases h2 : n = 0x0A
  · exact hsingle 0x6E (by rw [h2]; rfl) (by omega) (by decide) (by decide) (by simp [escapeOne, h2])
  by_cases h3 : n = 0x09
  · exact hsingle 0x74 (by rw [h3]; rfl) (by omega) (by decide) (by decide) (by simp [escapeOne, h3])
  by_cases h4 : n = 0x0D
  · exact hsingle 0x72 (by rw [h4]; rfl) (by omega) (by decide) (by decide) (by simp [escapeOne, h4])
  by_cases h5 : n = quote
  · apply hsingle quote _ (by omega) (by omega) (by omega)
    · rw [escapeOne, if_neg h1, if_neg h2, if_neg h3, if_neg h4, if_pos h5]
    · rw [h5]
      rcases hquote with rfl | rfl <;> rfl
  rw [escapeOne, if_neg h1, if_neg h2, if_neg h3, if_neg h4, if_neg h5] at h ⊢
  by_cases h6 : cpIsPrintable category n = false
  · rw [if_pos h6] at h ⊢
    by_cases h7 : n ≤ 0xFF
    · rw [if_pos h7] at h ⊢
      have hs : isSurrogate n = false := by
        simp only [isSurrogate, Bool.and_eq_false_iff, decide_eq_false_iff_not]
        omega
      rw [cesu8EncodeCodepoint_scalar hs]
      exact body_written hb (by decide) (by decide) h (fun hd => parseEscape_hex (by omega) hd) out
    rw [if_neg h7] at h ⊢
    by_cases h8 : n ≤ 0xFFFF
    · rw [if_pos h8] at h ⊢
      exact body_written hb (by decide) (by decide) h (fun hd => parseEscape_u (by omega) hd) out
    · rw [if_neg h8] at h ⊢
      exact body_written hb (by decide) (by decide) h (fun hd => parseEscape_U hn hd) out
  · have hs : isSurrogate n = false := by
      by_cases hs : isSurrogate n = true
      · have hspace : n ≠ 0x20 := by
          rintro rfl
          cases hs
        exact absurd (by rw [cpIsPrintable, if_neg hspace, if_pos hs]) h6
      · exact Bool.eq_false_iff.mpr hs
    rw [if_neg h6, if_pos ⟨hn, hs⟩] at h ⊢
    have h0 : chars[pos]? = some n := getElem?_of_drop h 0
    rw [body_plain h0 h5 h1, cesu8EncodeCodepoint_scalar hs]
    rfl

theorem body_escapeAll (category : ℕ → GeneralCategory)
    (hquote : quote = 0x27 ∨ quote = 0x22) (cps : List ℕ) (hcps : ∀ n ∈ cps, n < 0x110000)
    (h : chars.drop pos = cps.flatMap (escapeOne category quote) ++ [quote]) (out : List ℕ) :
    lexStringBody namedCharacter chars quote false contentStart pos out =
      .ok (out ++ stringBytes cps, pos+(cps.flatMap (escapeOne category quote)).length+1) := by
  induction cps generalizing pos out with
  | nil =>
    have h0 : chars[pos]? = some quote := getElem?_of_drop h 0
    rw [body_quote h0]
    simp [stringBytes]
  | cons n cps ih =>
    rw [List.flatMap_cons, List.append_assoc] at h
    rw [body_escapeOne category hquote (hcps n List.mem_cons_self) h,
      ih (fun m hm => hcps m (List.mem_cons_of_mem n hm)) (drop_append h)]
    simp only [stringBytes, List.flatMap_cons, List.append_assoc, List.length_append,
      Nat.add_assoc]

/-- What is written for one character: a backslash, a letter and hexadecimal digits, or the
character itself. -/
theorem escapeOne_forms (category : ℕ → GeneralCategory) (quote n : ℕ) :
    (∃ e k, (e < 0x80 ∨ e = quote) ∧ escapeOne category quote n = [0x5C, e] ++ lowerHex k n) ∨
      escapeOne category quote n = [n] ∧ n ≠ quote ∧ n < 0x110000 ∧ isSurrogate n = false := by
  rw [escapeOne]
  by_cases h1 : n = 0x5C
  · exact .inl ⟨0x5C, 0, .inl (by decide), if_pos h1⟩
  rw [if_neg h1]
  by_cases h2 : n = 0x0A
  · exact .inl ⟨0x6E, 0, .inl (by decide), if_pos h2⟩
  rw [if_neg h2]
  by_cases h3 : n = 0x09
  · exact .inl ⟨0x74, 0, .inl (by decide), if_pos h3⟩
  rw [if_neg h3]
  by_cases h4 : n = 0x0D
  · exact .inl ⟨0x72, 0, .inl (by decide), if_pos h4⟩
  rw [if_neg h4]
  by_cases hq : n = quote
  · exact .inl ⟨quote, 0, .inr rfl, if_pos hq⟩
  rw [if_neg hq]
  by_cases hprint : cpIsPrintable category n = false
  · rw [if_pos hprint]
    by_cases h5 : n ≤ 0xFF
    · exact .inl ⟨0x78, 2, .inl (by decide), if_pos h5⟩
    rw [if_neg h5]
    by_cases h6 : n ≤ 0xFFFF
    · exact .inl ⟨0x75, 4, .inl (by decide), if_pos h6⟩
    · exact .inl ⟨0x55, 8, .inl (by decide), if_neg h6⟩
  rw [if_neg hprint]
  by_cases hscalar : n < 0x110000 ∧ isSurrogate n = false
  · exact .inr ⟨if_pos hscalar, hq, hscalar⟩
  · exact .inl ⟨0x75, 4, .inl (by decide), if_neg hscalar⟩

/-- What is written for a code point does not begin with the quote. -/
theorem escapeOne_head (category : ℕ → GeneralCategory) (hquote : quote = 0x27 ∨ quote = 0x22)
    (n : ℕ) : ∃ c cs, escapeOne category quote n = c::cs ∧ c ≠ quote := by
  have hb : 0x5C ≠ quote := by omega
  rcases escapeOne_forms category quote n with ⟨e, k, -, hcs⟩ | ⟨hn, hne, -⟩
  · exact ⟨_, _, hcs, hb⟩
  · exact ⟨_, _, hn, hne⟩

theorem lexString_repr (namedCharacter : List ℕ → Option ℕ) (category : ℕ → GeneralCategory)
    (s : PyStr) : lexString namedCharacter (strRepr category s.bytes) 0 false =
      .ok (s.bytes, (strRepr category s.bytes).length) := by
  have hquote := reprQuote_cases s.bytes
  have htext : strRepr category s.bytes = reprQuote s.bytes::
      (s.codepoints.flatMap (escapeOne category (reprQuote s.bytes)) ++ [reprQuote s.bytes]) := by
    rw [strRepr, escapeStr, cesu8Codepoints_bytes]
  rw [htext]
  generalize reprQuote s.bytes = quote at hquote ⊢
  have hsingle : ¬((quote::(s.codepoints.flatMap (escapeOne category quote) ++ [quote]))[0+1]? =
      some quote ∧ (quote::(s.codepoints.flatMap (escapeOne category quote) ++ [quote]))[0+2]? =
        some quote) := by
    cases s.codepoints with
    | nil => simp
    | cons n cps =>
      obtain ⟨c, cs, hc, hne⟩ := escapeOne_head category hquote n
      rw [List.flatMap_cons, hc]
      simp [hne]
  have hbody : lexStringBody namedCharacter (quote::(s.codepoints.flatMap
      (escapeOne category quote) ++ [quote])) quote false 1 1 [] = _ :=
    body_escapeAll category hquote s.codepoints s.valid rfl []
  rw [lexString]
  simp only [List.getD_cons_zero]
  rw [if_neg hsingle, hbody, PyStr.bytes]
  simp [Nat.add_comm]

end strings

/-! ## Reading bytes back -/

section bytes
variable {chars rest : List ℕ} {quote pos : ℕ}

theorem bytes_quote (h : chars[pos]? = some quote) (out : List ℕ) :
    lexBytesBody chars quote false pos out = .ok (out, pos+1) := by
  rw [lexBytesBody]
  split
  · rename_i hnone
    rw [h] at hnone
    cases hnone
  · rename_i c hc
    rw [h, Option.some.injEq] at hc
    rw [if_pos hc.symm]

theorem bytes_plain {c : ℕ} (h : chars[pos]? = some c) (hq : c ≠ quote) (hb : c ≠ 0x5C)
    (ha : c ≤ 0x7F) (out : List ℕ) :
    lexBytesBody chars quote false pos out =
      lexBytesBody chars quote false (pos+1) (out ++ [c]) := by
  rw [lexBytesBody]
  split
  · rename_i hnone
    rw [h] at hnone
    cases hnone
  · rename_i d hd
    rw [h, Option.some.injEq] at hd
    subst hd
    rw [if_neg hq, if_neg hb, if_neg (by omega)]

theorem bytes_escape {next : ℕ} {frag : List ℕ} (h : chars[pos]? = some 0x5C)
    (hq : 0x5C ≠ quote) (he : bytesEscape chars (pos+1) = .ok (frag, next)) (out : List ℕ) :
    lexBytesBody chars quote false pos out =
      lexBytesBody chars quote false next (out ++ frag) := by
  rw [lexBytesBody]
  split
  · rename_i hnone
    rw [h] at hnone
    cases hnone
  · rename_i d hd
    rw [h, Option.some.injEq] at hd
    subst hd
    rw [if_neg hq, if_pos rfl, if_neg Bool.false_ne_true]
    split
    · rename_i e herr
      rw [he] at herr
      cases herr
    · rename_i frag' next' hnext
      rw [he] at hnext
      cases hnext
      rfl

theorem bytesEscape_single {c b : ℕ} (h : chars[pos]? = some c) (hc : singleEscape c = some b) :
    bytesEscape chars pos = .ok ([b], pos+1) := by
  rw [bytesEscape, h]
  simp only [hc]

theorem bytesEscape_hex {v : ℕ} (hv : v < 0x100)
    (h : chars.drop pos = 0x78::(lowerHex 2 v ++ rest)) :
    bytesEscape chars pos = .ok ([v], pos+3) := by
  have hdigits : lowerHex 2 v = [hexDigit (v/16 % 16), hexDigit (v % 16)] := rfl
  have h0 : chars[pos]? = some 0x78 := getElem?_of_drop h 0
  have h1 : chars[pos+1]? = some (hexDigit (v/16 % 16)) := getElem?_of_drop h 1
  have h2 : chars[pos+2]? = some (hexDigit (v % 16)) := getElem?_of_drop h 2
  have hvalue := fromStrRadix16_lowerHex 2 v (by decide) (by omega)
  rw [hdigits] at hvalue
  have hs : singleEscape 0x78 = none := rfl
  have ho : isOctal 0x78 = false := rfl
  rw [bytesEscape, h0]
  simp only [hs, ho, h1, h2, hvalue]
  rfl

/-- The lexer reads an escaped byte and goes on behind it. -/
theorem bytes_escapeByte {b : ℕ} (hquote : quote = 0x27 ∨ quote = 0x22) (hb : b < 0x100)
    (h : chars.drop pos = escapeByte quote b ++ rest) (out : List ℕ) :
    lexBytesBody chars quote false pos out =
      lexBytesBody chars quote false (pos+(escapeByte quote b).length) (out ++ [b]) := by
  have hq : 0x5C ≠ quote := by omega
  have hsingle : ∀ e, singleEscape e = some b → escapeByte quote b = [0x5C, e] →
      lexBytesBody chars quote false pos out =
        lexBytesBody chars quote false (pos+(escapeByte quote b).length) (out ++ [b]) := by
    intro e he heq
    rw [heq] at h ⊢
    have h0 : chars[pos]? = some 0x5C := getElem?_of_drop h 0
    have h1 : chars[pos+1]? = some e := getElem?_of_drop h 1
    exact bytes_escape h0 hq (bytesEscape_single h1 he) out
  by_cases h1 : b = 0x09
  · exact hsingle 0x74 (by rw [h1]; rfl) (by simp [escapeByte, h1])
  by_cases h2 : b = 0x0A
  · exact hsingle 0x6E (by rw [h2]; rfl) (by simp [escapeByte, h2])
  by_cases h3 : b = 0x0D
  · exact hsingle 0x72 (by rw [h3]; rfl) (by simp [escapeByte, h3])
  by_cases h4 : b = 0x5C
  · exact hsingle 0x5C (by rw [h4]; rfl) (by simp [escapeByte, h4])
  by_cases h5 : b = 0x27 ∧ quote = 0x27
  · exact hsingle 0x27 (by rw [h5.1]; rfl) (by simp [escapeByte, h5])
  by_cases h6 : b = 0x22 ∧ quote = 0x22
  · exact hsingle 0x22 (by rw [h6.1]; rfl) (by simp [escapeByte, h6])
  rw [escapeByte, if_neg h1, if_neg h2, if_neg h3, if_neg h4, if_neg h5, if_neg h6] at h ⊢
  by_cases h7 : 0x20 ≤ b ∧ b ≤ 0x7E
  · rw [if_pos h7] at h ⊢
    have h0 : chars[pos]? = some b := getElem?_of_drop h 0
    exact bytes_plain h0 (by omega) h4 (by omega) out
  · rw [if_neg h7] at h ⊢
    have h0 : chars[pos]? = some 0x5C := getElem?_of_drop h 0
    have hdrop : chars.drop (pos+1) = 0x78::(lowerHex 2 b ++ rest) :=
      @drop_append chars [0x5C] _ pos h
    exact bytes_escape h0 hq (bytesEscape_hex hb hdrop) out

theorem bytes_escapeAll (hquote : quote = 0x27 ∨ quote = 0x22) (bytes : List ℕ)
    (hbytes : ∀ b ∈ bytes, b < 0x100)
    (h : chars.drop pos = bytes.flatMap (escapeByte quote) ++ [quote]) (out : List ℕ) :
    lexBytesBody chars quote false pos out =
      .ok (out ++ bytes, pos+(bytes.flatMap (escapeByte quote)).length+1) := by
  induction bytes generalizing pos out with
  | nil =>
    have h0 : chars[pos]? = some quote := getElem?_of_drop h 0
    rw [bytes_quote h0]
    simp
  | cons b bytes ih =>
    rw [List.flatMap_cons, List.append_assoc] at h
    rw [bytes_escapeByte hquote (hbytes b List.mem_cons_self) h,
      ih (fun m hm => hbytes m (List.mem_cons_of_mem b hm)) (drop_append h)]
    simp only [List.flatMap_cons, List.append_assoc, List.length_append, Nat.add_assoc,
      List.singleton_append]

/-- What is written for a byte does not begin with the quote. -/
theorem escapeByte_head (hquote : quote = 0x27 ∨ quote = 0x22) (b : ℕ) :
    ∃ c cs, escapeByte quote b = c::cs ∧ c ≠ quote := by
  have hq : 0x5C ≠ quote := by omega
  have hescaped : ∀ {bytes : List ℕ} {cs : List ℕ}, bytes = 0x5C::cs →
      ∃ c cs, bytes = c::cs ∧ c ≠ quote := fun heq => ⟨_, _, heq, hq⟩
  rw [escapeByte]
  by_cases h1 : b = 0x09
  · exact hescaped (if_pos h1)
  rw [if_neg h1]
  by_cases h2 : b = 0x0A
  · exact hescaped (if_pos h2)
  rw [if_neg h2]
  by_cases h3 : b = 0x0D
  · exact hescaped (if_pos h3)
  rw [if_neg h3]
  by_cases h4 : b = 0x5C
  · exact hescaped (if_pos h4)
  rw [if_neg h4]
  by_cases h5 : b = 0x27 ∧ quote = 0x27
  · exact hescaped (if_pos h5)
  rw [if_neg h5]
  by_cases h6 : b = 0x22 ∧ quote = 0x22
  · exact hescaped (if_pos h6)
  rw [if_neg h6]
  by_cases hplain : 0x20 ≤ b ∧ b ≤ 0x7E
  · have hne : b ≠ quote := by omega
    exact ⟨b, [], if_pos hplain, hne⟩
  · exact hescaped (if_neg hplain)

theorem lexBytes_repr (bytes : List ℕ) (hbytes : ∀ b ∈ bytes, b < 0x100) :
    lexBytes (bytesRepr bytes) 1 false = .ok (bytes, (bytesRepr bytes).length) := by
  have hquote := reprQuote_cases bytes
  rw [bytesRepr]
  generalize reprQuote bytes = quote at hquote ⊢
  have hsingle : ¬((0x62::quote::(bytes.flatMap (escapeByte quote) ++ [quote]))[1+1]? =
      some quote ∧ (0x62::quote::(bytes.flatMap (escapeByte quote) ++ [quote]))[1+2]? =
        some quote) := by
    cases bytes with
    | nil => simp
    | cons b bytes =>
      obtain ⟨c, cs, hc, hne⟩ := escapeByte_head hquote b
      rw [List.flatMap_cons, hc]
      simp [hne]
  have hbody : lexBytesBody (0x62::quote::(bytes.flatMap (escapeByte quote) ++ [quote])) quote
      false 2 [] = _ := bytes_escapeAll hquote bytes hbytes rfl []
  rw [lexBytes]
  simp only [List.getD_cons_succ, List.getD_cons_zero]
  rw [if_neg hsingle, hbody]
  simp only [List.nil_append, List.length_cons, List.length_append, List.length_nil]
  congr 2
  omega

end bytes

/-! ## The texts -/

/-- A character of a text. -/
def IsChar (c : ℕ) : Prop := c < 0x110000 ∧ isSurrogate c = false

theorem isChar_ascii {c : ℕ} (h : c < 0x80) : IsChar c := by
  simp only [IsChar, isSurrogate, Bool.and_eq_false_iff, decide_eq_false_iff_not]
  omega

theorem escapeOne_isChar (category : ℕ → GeneralCategory) {quote : ℕ}
    (hquote : quote = 0x27 ∨ quote = 0x22) (n : ℕ) :
    ∀ c ∈ escapeOne category quote n, IsChar c := by
  rcases escapeOne_forms category quote n with ⟨e, k, he, hcs⟩ | ⟨hn, -, hplain⟩
  · intro c hc
    have he' : e < 0x80 := by omega
    rw [hcs] at hc
    simp only [List.cons_append, List.nil_append, List.mem_cons] at hc
    rcases hc with rfl | rfl | hc
    · exact isChar_ascii (by decide)
    · exact isChar_ascii he'
    · exact isChar_ascii (lowerHex_range k n c hc).1
  · intro c hc
    rw [hn] at hc
    rw [List.mem_singleton.mp hc]
    exact hplain

theorem strRepr_isChar (category : ℕ → GeneralCategory) (s : List ℕ) :
    ∀ c ∈ strRepr category s, IsChar c := by
  have hquote := reprQuote_cases s
  have hq : IsChar (reprQuote s) := isChar_ascii (by omega)
  intro c hc
  rw [strRepr, List.mem_cons, List.mem_append, List.mem_singleton] at hc
  rcases hc with rfl | hc | rfl
  · exact hq
  · obtain ⟨n, _, hn⟩ := List.mem_flatMap.mp hc
    exact escapeOne_isChar category hquote n c hn
  · exact hq

/-- The `repr` of every string and of every byte string is a text that the lexer reads back to
that value, consuming all of it, whatever the category table says. -/
theorem repr_read_back (namedCharacter : List ℕ → Option ℕ) (category : ℕ → GeneralCategory) :
    (∀ s : PyStr, (∀ c ∈ strRepr category s.bytes, IsChar c) ∧
      lexString namedCharacter (strRepr category s.bytes) 0 false =
        .ok (s.bytes, (strRepr category s.bytes).length)) ∧
    ∀ bytes : List (Fin 256), (∀ c ∈ bytesRepr (bytes.map Fin.val), c < 0x80) ∧
      lexBytes (bytesRepr (bytes.map Fin.val)) 1 false =
        .ok (bytes.map Fin.val, (bytesRepr (bytes.map Fin.val)).length) := by
  refine ⟨fun s => ⟨strRepr_isChar category _, lexString_repr namedCharacter category s⟩,
    fun bytes => ⟨?_, lexBytes_repr _ ?_⟩⟩
  · have hquote := reprQuote_cases (bytes.map Fin.val)
    intro c hc
    simp only [bytesRepr, List.mem_cons, List.mem_append, List.not_mem_nil, or_false] at hc
    rcases hc with rfl | rfl | hc | rfl
    · decide
    · omega
    · obtain ⟨b, _, hb⟩ := List.mem_flatMap.mp hc
      unfold escapeByte at hb
      split_ifs at hb
      all_goals simp only [List.mem_cons, List.not_mem_nil, or_false, List.cons_append,
        List.nil_append] at hb
      all_goals rcases hb with rfl | rfl | hb <;> first
        | omega
        | exact (lowerHex_range 2 b c hb).1
    · omega
  · intro b hb
    obtain ⟨x, _, rfl⟩ := List.mem_map.mp hb
    exact x.isLt

end Pyrust.LiteralRepr
