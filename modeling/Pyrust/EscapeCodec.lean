import Pyrust.WideCodecs

/-!
# The unicode-escape codec

`namedCharacter` stands for the table of character names that the decoder asks
for `\N{...}`; the encoder never writes that escape.
-/

set_option autoImplicit false

namespace Pyrust.EscapeCodec
open Pyrust.Cesu8 Pyrust.WideCodecs

/-! ## Hexadecimal digits -/

/-- The lower-case digit of `format!("{:x}")`. -/
def hexDigit (d : ℕ) : ℕ := if d < 10 then 48+d else 87+d

/-- `format!` with a width of `n` digits. -/
def lowerHex : ℕ → ℕ → List ℕ
  | 0, _ => []
  | n+1, v => lowerHex n (v/16) ++ [hexDigit (v % 16)]

/-- `char::to_digit(16)`. -/
def hexValue (b : ℕ) : Option ℕ :=
  if 48 ≤ b ∧ b ≤ 57 then some (b-48)
  else if 97 ≤ b ∧ b ≤ 102 then some (b-97+10)
  else if 65 ≤ b ∧ b ≤ 70 then some (b-65+10)
  else none

/-- `n` more digits after `k`, or the number of digits that there were. -/
def parseHexDigits (v k : ℕ) : ℕ → List ℕ → Except ℕ ℕ
  | 0, _ => .ok v
  | _+1, [] => .error k
  | n+1, b::bytes =>
    match hexValue b with
    | some d => parseHexDigits (v*16+d) (k+1) n bytes
    | none => .error k

def parseHexEscape (bytes : List ℕ) (n : ℕ) : Except ℕ ℕ := parseHexDigits 0 0 n bytes

theorem hexValue_hexDigit {d : ℕ} (h : d < 16) : hexValue (hexDigit d) = some d := by
  decide +revert

theorem lowerHex_length (n v : ℕ) : (lowerHex n v).length = n := by
  induction n generalizing v with
  | zero => rfl
  | succ n ih => rw [lowerHex, List.length_append, ih, List.length_singleton]

theorem parseHexDigits_lowerHex (n v w k m : ℕ) (rest : List ℕ) (h : v < 16^n) :
    parseHexDigits w k (n+m) (lowerHex n v ++ rest) =
      parseHexDigits (w*16^n+v) (k+n) m rest := by
  induction n generalizing v m rest with
  | zero =>
    have hv : v = 0 := by rwa [pow_zero, Nat.lt_one_iff] at h
    simp [hv, lowerHex]
  | succ n ih =>
    have hdiv : v/16 < 16^n := Nat.div_lt_of_lt_mul (by rwa [pow_succ, Nat.mul_comm] at h)
    have hvalue : (w*16^n+v/16)*16+v % 16 = w*16^(n+1)+v := by
      rw [Nat.add_mul, Nat.mul_assoc, ← pow_succ, Nat.add_assoc, Nat.div_add_mod']
    rw [lowerHex, List.append_assoc, List.singleton_append,
      show n+1+m = n+(m+1) by omega, ih _ _ _ hdiv, parseHexDigits,
      hexValue_hexDigit (Nat.mod_lt v (by omega))]
    simp only
    rw [hvalue, Nat.add_assoc k]

theorem parseHexEscape_lowerHex {n v : ℕ} (rest : List ℕ) (h : v < 16^n) :
    parseHexEscape (lowerHex n v ++ rest) n = .ok v := by
  have hdigits := parseHexDigits_lowerHex n v 0 0 0 rest h
  rwa [Nat.zero_mul, Nat.zero_add, Nat.zero_add, Nat.add_zero, parseHexDigits] at hdigits

/-! ## Encoding -/

def escapeCodepointBackslash (cp : ℕ) : List ℕ :=
  if cp < 0x100 then [0x5C, 0x78] ++ lowerHex 2 cp
  else if cp < 0x10000 then [0x5C, 0x75] ++ lowerHex 4 cp
  else [0x5C, 0x55] ++ lowerHex 8 cp

def escapeCodepoint (cp : ℕ) : List ℕ :=
  if cp = 0x5C then [0x5C, 0x5C]
  else if cp = 0x0A then [0x5C, 0x6E]
  else if cp = 0x09 then [0x5C, 0x74]
  else if cp = 0x0D then [0x5C, 0x72]
  else if 0x20 ≤ cp ∧ cp ≤ 0x7E then [cp]
  else escapeCodepointBackslash cp

def encodeUnicodeEscape (source : List ℕ) : List ℕ :=
  (cesu8Codepoints source).flatMap escapeCodepoint

/-! ## Decoding -/

/-- The escapes of one character: `\\ \' \" \a \b \f \n \r \t \v`. -/
def simpleEscape (c : ℕ) : Option ℕ :=
  if c = 0x5C then some 0x5C
  else if c = 0x27 then some 0x27
  else if c = 0x22 then some 0x22
  else if c = 0x61 then some 0x07
  else if c = 0x62 then some 0x08
  else if c = 0x66 then some 0x0C
  else if c = 0x6E then some 0x0A
  else if c = 0x72 then some 0x0D
  else if c = 0x74 then some 0x09
  else if c = 0x76 then some 0x0B
  else none

def isOctal (b : ℕ) : Bool := 0x30 ≤ b && b ≤ 0x37

/-- Up to three octal digits. -/
def octalDigits (bytes : List ℕ) : List ℕ := (bytes.take 3).takeWhile isOctal

def octalValue (digits : List ℕ) : ℕ := digits.foldl (fun val b => val*8+(b-0x30)) 0

/-- The width and the error text of `\x`, `\u` and `\U`. -/
def hexEscape (c : ℕ) : Option (ℕ × String) :=
  if c = 0x78 then some (2, "truncated \\xXX escape")
  else if c = 0x75 then some (4, "truncated \\uXXXX escape")
  else if c = 0x55 then some (8, "truncated \\UXXXXXXXX escape")
  else none

def unicodeEscapeError (bytes : List ℕ) (start stop : ℕ) (reason : String) : PyError :=
  .unicodeDecodeError "unicodeescape" bytes start stop reason

/-- The name between braces after `\N`, with the number of bytes up to the closing brace. -/
def namedEscape (namedCharacter : List ℕ → Option ℕ) (bytes : List ℕ) (i : ℕ) (rest : List ℕ) :
    Except PyError (ℕ × ℕ) :=
  match rest with
  | 0x7B::rest =>
    match rest.findIdx? (· == 0x7D) with
    | none =>
      .error (unicodeEscapeError bytes i bytes.length "malformed \\N character escape")
    | some rel =>
      match (fromUtf8 (rest.take rel)).toOption.bind namedCharacter with
      | some ch => .ok (ch, rel+2)
      | none =>
        .error (unicodeEscapeError bytes i (i+3+rel+1) "unknown Unicode character name")
  | _ => .error (unicodeEscapeError bytes i (i+2) "malformed \\N character escape")

/-- The walk of the decoder over the bytes from `i`. -/
def decodeEscapes (namedCharacter : List ℕ → Option ℕ) (bytes : List ℕ) (i : ℕ) :
    List ℕ → List ℕ → Except PyError (List ℕ)
  | [], cps => .ok cps
  | b::rest, cps =>
    if b ≠ 0x5C then decodeEscapes namedCharacter bytes (i+1) rest (cps ++ [b])
    else
      match rest with
      | [] => .error (unicodeEscapeError bytes i (i+1) "\\ at end of string")
      | c::rest =>
        -- a continued line
        if c = 0x0A then decodeEscapes namedCharacter bytes (i+2) rest cps
        else
          match simpleEscape c with
          | some cp => decodeEscapes namedCharacter bytes (i+2) rest (cps ++ [cp])
          | none =>
            if isOctal c then
              let digits := octalDigits (c::rest)
              decodeEscapes namedCharacter bytes (i+1+digits.length)
                (rest.drop (digits.length-1)) (cps ++ [octalValue digits])
            else
              match hexEscape c with
              | some (n, truncated) =>
                match parseHexEscape rest n with
                | .ok cp =>
                  -- only eight digits can exceed the last code point
                  if 0x10FFFF < cp then
                    .error (unicodeEscapeError bytes i (i+10) "illegal Unicode character")
                  else decodeEscapes namedCharacter bytes (i+2+n) (rest.drop n) (cps ++ [cp])
                | .error consumed =>
                  .error (unicodeEscapeError bytes i (i+2+consumed) truncated)
              | none =>
                if c = 0x4E then
                  match namedEscape namedCharacter bytes i rest with
                  | .ok (ch, n) =>
                    decodeEscapes namedCharacter bytes (i+2+n) (rest.drop n) (cps ++ [ch])
                  | .error e => .error e
                -- an unknown escape keeps its backslash
                else decodeEscapes namedCharacter bytes (i+2) rest (cps ++ [0x5C, c])
termination_by rest => rest.length
decreasing_by all_goals grind

/-- `string_from_codepoints` of the decoded code points. -/
def decodeUnicodeEscape (namedCharacter : List ℕ → Option ℕ) (bytes : List ℕ) :
    Except PyError (List ℕ) :=
  (decodeEscapes namedCharacter bytes 0 bytes []).map stringBytes

/-! ## Round trip -/

section
variable (namedCharacter : List ℕ → Option ℕ) (bytes : List ℕ)

theorem decodeEscapes_literal {b : ℕ} (h : b ≠ 0x5C) (i : ℕ) (rest cps : List ℕ) :
    decodeEscapes namedCharacter bytes i (b::rest) cps =
      decodeEscapes namedCharacter bytes (i+1) rest (cps ++ [b]) := by
  rw [decodeEscapes.eq_def]
  simp only
  rw [if_pos h]

theorem decodeEscapes_simple {c cp : ℕ} (hline : c ≠ 0x0A) (h : simpleEscape c = some cp) (i : ℕ)
    (rest cps : List ℕ) : decodeEscapes namedCharacter bytes i (0x5C::c::rest) cps =
      decodeEscapes namedCharacter bytes (i+2) rest (cps ++ [cp]) := by
  rw [decodeEscapes.eq_def]
  simp only [ne_eq, not_true_eq_false, if_false, if_neg hline, h]

theorem decodeEscapes_hex {c n cp : ℕ} {truncated : String} (hc : hexEscape c = some (n, truncated))
    (hlast : cp < 0x110000) (hcp : cp < 16^n) (i : ℕ) (rest cps : List ℕ) :
    decodeEscapes namedCharacter bytes i ([0x5C, c] ++ lowerHex n cp ++ rest) cps =
      decodeEscapes namedCharacter bytes (i+2+n) rest (cps ++ [cp]) := by
  have hkind : c = 0x78 ∨ c = 0x75 ∨ c = 0x55 := by
    unfold hexEscape at hc
    split_ifs at hc <;> omega
  have hline : c ≠ 0x0A := by omega
  have hsimple : simpleEscape c = none := by
    rcases hkind with h | h | h
    all_goals rw [h]; rfl
  have hoctal : isOctal c = false := by
    rcases hkind with h | h | h
    all_goals rw [h]; rfl
  have hdrop : (lowerHex n cp ++ rest).drop n = rest := by
    rw [← lowerHex_length n cp, lowerHex_length, List.drop_left' (lowerHex_length n cp)]
  show decodeEscapes namedCharacter bytes i (0x5C::c::(lowerHex n cp ++ rest)) cps = _
  rw [decodeEscapes.eq_def]
  simp only [ne_eq, not_true_eq_false, if_false, if_neg hline, hsimple, hoctal,
    Bool.false_eq_true, hc, parseHexEscape_lowerHex rest hcp]
  rw [if_neg (by omega), hdrop]

/-- Each escape that the encoder writes is read back as its code point. -/
theorem decodeEscapes_escape {cp : ℕ} (h : cp < 0x110000) (i : ℕ) (rest cps : List ℕ) :
    ∃ i', decodeEscapes namedCharacter bytes i (escapeCodepoint cp ++ rest) cps =
      decodeEscapes namedCharacter bytes i' rest (cps ++ [cp]) := by
  unfold escapeCodepoint
  split_ifs with hback hline htab hreturn hprint
  · rw [hback]
    exact ⟨_, @decodeEscapes_simple namedCharacter bytes 0x5C 0x5C (by decide) rfl i rest cps⟩
  · rw [hline]
    exact ⟨_, @decodeEscapes_simple namedCharacter bytes 0x6E 0x0A (by decide) rfl i rest cps⟩
  · rw [htab]
    exact ⟨_, @decodeEscapes_simple namedCharacter bytes 0x74 0x09 (by decide) rfl i rest cps⟩
  · rw [hreturn]
    exact ⟨_, @decodeEscapes_simple namedCharacter bytes 0x72 0x0D (by decide) rfl i rest cps⟩
  · exact ⟨_, decodeEscapes_literal _ _ hback i rest cps⟩
  · unfold escapeCodepointBackslash
    split_ifs with h2 h4
    · exact ⟨_, decodeEscapes_hex _ _ rfl h (by omega) i rest cps⟩
    · exact ⟨_, decodeEscapes_hex _ _ rfl h (by omega) i rest cps⟩
    · exact ⟨_, decodeEscapes_hex _ _ rfl h (by omega) i rest cps⟩

theorem decodeEscapes_encode {source : List ℕ} (h : ∀ cp ∈ source, cp < 0x110000) (i : ℕ)
    (cps : List ℕ) : decodeEscapes namedCharacter bytes i (source.flatMap escapeCodepoint) cps =
      .ok (cps ++ source) := by
  induction source generalizing i cps with
  | nil => rw [List.flatMap_nil, decodeEscapes, List.append_nil]
  | cons cp source ih =>
    obtain ⟨i', hescape⟩ := decodeEscapes_escape namedCharacter bytes (h cp List.mem_cons_self) i
      (source.flatMap escapeCodepoint) cps
    rw [List.flatMap_cons, hescape, ih fun c hc => h c (List.mem_cons_of_mem cp hc),
      List.append_assoc, List.singleton_append]

end

theorem decodeUnicodeEscape_encode (namedCharacter : List ℕ → Option ℕ) (s : PyStr) :
    decodeUnicodeEscape namedCharacter (encodeUnicodeEscape s.bytes) = .ok s.bytes := by
  rw [decodeUnicodeEscape, encodeUnicodeEscape, cesu8Codepoints_bytes,
    decodeEscapes_encode namedCharacter _ s.valid]
  rfl

end Pyrust.EscapeCodec
