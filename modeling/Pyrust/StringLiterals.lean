import Pyrust.EscapeCodec

/-!
# Lexing string and bytes literals

The source text is a list of characters, each a number, and positions index into
it. A string value is built as its stored bytes. `namedCharacter` stands for the
table of character names that `\N{...}` asks for.
-/

set_option autoImplicit false

namespace Pyrust.StringLiterals

open Cesu8 EscapeCodec

/-- The message of a lexing error. Only the display of a refused character is left out. -/
inductive LexError where
  | lex (text : String)
  | nonAscii (char : ℕ)
  deriving DecidableEq, Repr

def text (chars : List ℕ) : String := String.ofList (chars.map Char.ofNat)

/-- `{:X}` with a least width. -/
def upperHex (width n : ℕ) : String :=
  let digits := (Nat.toDigits 16 n).map Char.toUpper
  String.ofList (List.replicate (width-digits.length) '0' ++ digits)

/-- A leading plus sign with something behind it is skipped. -/
def skipPlus : List ℕ → List ℕ
  | 0x2B::d::ds => d::ds
  | ds => ds

/-- `from_str_radix(.., 16)` for digit strings that fit the type. -/
def fromStrRadix16 (digits : List ℕ) : Option ℕ :=
  if digits = [] then none
  else (skipPlus digits).foldlM (fun v d => (hexValue d).map fun x => v*16+x) 0

/-- `codepoint_to_string_fragment`. -/
def codepointToStringFragment (cp : ℕ) : Option (List ℕ) :=
  if isSurrogate cp then some [0xE0+cp/4096, 0x80+cp/64 % 64, 0x80+cp % 64]
  else if cp < 0x110000 then some (encodeUtf8 cp)
  else none

/-- `len_utf8`, summed. -/
def utf8Length (chars : List ℕ) : ℕ := (chars.map fun c => (encodeUtf8 c).length).sum

/-- The characters of a slice. -/
def slice (chars : List ℕ) (first last : ℕ) : List ℕ := (chars.take last).drop first

/-- The one-character escapes `\n \t \r \\ \' \" \a \b \f \v`. -/
def singleEscape (c : ℕ) : Option ℕ :=
  if c = 0x6E then some 0x0A
  else if c = 0x74 then some 0x09
  else if c = 0x72 then some 0x0D
  else if c = 0x5C then some 0x5C
  else if c = 0x27 then some 0x27
  else if c = 0x22 then some 0x22
  else if c = 0x61 then some 0x07
  else if c = 0x62 then some 0x08
  else if c = 0x66 then some 0x0C
  else if c = 0x76 then some 0x0B
  else none

/-- The octal digits behind the first one, at most two. -/
def octalTail (chars : List ℕ) (pos : ℕ) : List ℕ :=
  ((chars.drop (pos+1)).take 2).takeWhile isOctal

/-- `\uNNNN` and `\UNNNNNNNN`; `n` is the number of digits. -/
def wideEscape (letter : String) (n : ℕ) (chars : List ℕ) (pos : ℕ) :
    Except LexError (List ℕ × ℕ) :=
  let digits := (chars.drop (pos+1)).take n
  if digits.length < n then
    .error (.lex s!"incomplete \\{letter} escape (need {n} hex digits)")
  else match fromStrRadix16 digits with
    | none => .error (.lex s!"invalid \\{letter} escape: \\{letter}{text digits}")
    | some codepoint =>
      if n = 8 ∧ 0x10FFFF < codepoint then
        .error (.lex s!"invalid \\U escape: codepoint U+{upperHex 8 codepoint} out of range")
      else match codepointToStringFragment codepoint with
        | none => .error (.lex s!"invalid \\{letter} escape: U+{upperHex n codepoint}")
        | some frag => .ok (frag, n)

/-- `\N{name}`. The positions of its messages count bytes from the start of the content. -/
def namedEscape (namedCharacter : List ℕ → Option ℕ) (chars : List ℕ) (pos contentStart : ℕ) :
    Except LexError (List ℕ × ℕ) :=
  let bsByte := utf8Length (slice chars contentStart (pos-1))
  let at0 := "(unicode error) 'unicodeescape' codec can't decode bytes in position "
  let malformed (last : ℕ) :=
    LexError.lex s!"{at0}{bsByte}-{last}: malformed \\N character escape"
  if chars[pos+1]? ≠ some 0x7B then .error (malformed (bsByte+1))
  else
    let name := (chars.drop (pos+2)).takeWhile (· ≠ 0x7D)
    let close := pos+2+name.length
    if chars.length ≤ close then
      let shown := (chars.drop (pos+2)).takeWhile fun c =>
        c ≠ 0x7D ∧ c ≠ 0x27 ∧ c ≠ 0x22 ∧ c ≠ 0x0A ∧ c ≠ 0x0D
      .error (malformed (bsByte+2+utf8Length shown))
    else if name = [] then .error (malformed (bsByte+2))
    else
      let endByte := utf8Length (slice chars contentStart close)
      match namedCharacter name with
      | none => .error (.lex s!"{at0}{bsByte}-{endByte}: unknown Unicode character name")
      | some ch => .ok (encodeUtf8 ch, name.length+2)

/-- `parse_escape` at the character behind the backslash, with the number of characters it
consumes after that one. -/
def parseEscape (namedCharacter : List ℕ → Option ℕ) (chars : List ℕ) (pos contentStart : ℕ) :
    Except LexError (List ℕ × ℕ) :=
  match chars[pos]? with
  | none => .error (.lex "unterminated escape sequence")
  | some c =>
    match singleEscape c with
    | some b => .ok ([b], 0)
    | none =>
      if isOctal c then
        let tail := octalTail chars pos
        .ok (encodeUtf8 (octalValue (c::tail)), tail.length)
      else if c = 0x78 then
        match chars[pos+1]?, chars[pos+2]? with
        | some hi, some lo => match fromStrRadix16 [hi, lo] with
          | some v => .ok (encodeUtf8 v, 2)
          | none => .error (.lex s!"invalid \\x escape: \\x{text [hi, lo]}")
        | _, _ => .error (.lex "incomplete \\x escape (need 2 hex digits)")
      else if c = 0x75 then wideEscape "u" 4 chars pos
      else if c = 0x55 then wideEscape "U" 8 chars pos
      else if c = 0x4E then namedEscape namedCharacter chars pos contentStart
      else .ok (0x5C::encodeUtf8 c, 0)

/-- A backslash in a literal: the fragment it stands for and the next position. A backslash ahead
of a line end stands for nothing. -/
def lexEscape (namedCharacter : List ℕ → Option ℕ) (eof : String) (chars : List ℕ)
    (pos contentStart : ℕ) : Except LexError (List ℕ × ℕ) :=
  match chars[pos]? with
  | none => .error (.lex eof)
  | some escaped =>
    if escaped = 0x0A then .ok ([], pos+1)
    else if escaped = 0x0D then
      .ok ([], if chars[pos+1]? = some 0x0A then pos+2 else pos+1)
    else match parseEscape namedCharacter chars pos contentStart with
      | .error e => .error e
      | .ok (frag, extra) => .ok (frag, pos+1+extra)

theorem lexEscape_next {namedCharacter : List ℕ → Option ℕ} {eof : String} {chars : List ℕ}
    {pos contentStart next : ℕ} {frag : List ℕ}
    (h : lexEscape namedCharacter eof chars pos contentStart = .ok (frag, next)) : pos < next := by
  unfold lexEscape at h
  split at h
  · cases h
  · split at h
    · cases h
      omega
    · split at h
      · cases h
        split <;> omega
      · split at h
        · cases h
        · cases h
          omega

section strings
variable (namedCharacter : List ℕ → Option ℕ) (chars : List ℕ) (quote : ℕ) (raw : Bool)
  (contentStart : ℕ)

/-- The loop of a literal in single quotes. -/
def lexStringBody (pos : ℕ) (out : List ℕ) : Except LexError (List ℕ × ℕ) :=
  match _hpos : chars[pos]? with
  | none => .error (.lex "unterminated string literal")
  | some c =>
    if c = quote then .ok (out, pos+1)
    else if c = 0x5C then
      if raw then match chars[pos+1]? with
        | none => .error (.lex
            "EOL while scanning string literal (trailing backslash in raw string)")
        | some next => lexStringBody (pos+2) (out ++ 0x5C::encodeUtf8 next)
      else match _hesc : lexEscape namedCharacter "EOL while scanning string literal" chars (pos+1)
          contentStart with
        | .error e => .error e
        | .ok (frag, next) => lexStringBody next (out ++ frag)
    else lexStringBody (pos+1) (out ++ encodeUtf8 c)
termination_by chars.length-pos
decreasing_by
  all_goals
    have hlt := (List.getElem?_eq_some_iff.mp _hpos).1
    first
      | omega
      | have := lexEscape_next _hesc
        omega

def tripleQuoted (pos : ℕ) : Bool :=
  chars[pos]? = some quote && chars[pos+1]? = some quote && chars[pos+2]? = some quote

/-- The loop of a literal in triple quotes. -/
def lexStringTriple (pos : ℕ) (out : List ℕ) : Except LexError (List ℕ × ℕ) :=
  if tripleQuoted chars quote pos then .ok (out, pos+3)
  else match _hpos : chars[pos]? with
    | none => .error (.lex "unterminated triple-quoted string")
    | some c =>
      if c = 0x5C then
        if raw then match chars[pos+1]? with
          | none => .error (.lex
              "EOL while scanning string literal (trailing backslash in raw string)")
          | some next => lexStringTriple (pos+2) (out ++ 0x5C::encodeUtf8 next)
        else match _hesc : lexEscape namedCharacter "unterminated escape" chars (pos+1)
            contentStart with
          | .error e => .error e
          | .ok (frag, next) => lexStringTriple next (out ++ frag)
      else if c = 0x0D then
        lexStringTriple (if chars[pos+1]? = some 0x0A then pos+2 else pos+1) (out ++ [0x0A])
      else lexStringTriple (pos+1) (out ++ encodeUtf8 c)
termination_by chars.length-pos
decreasing_by
  all_goals
    have hlt := (List.getElem?_eq_some_iff.mp _hpos).1
    first
      | omega
      | have := lexEscape_next _hesc
        omega
      | split <;> omega

end strings

/-! ## Bytes literals -/

/-- An escape of a bytes literal: the bytes it stands for and the next position. -/
def bytesEscape (chars : List ℕ) (pos : ℕ) : Except LexError (List ℕ × ℕ) :=
  match chars[pos]? with
  | none => .error (.lex "unterminated bytes escape")
  | some esc =>
    match singleEscape esc with
    | some b => .ok ([b], pos+1)
    | none =>
      if isOctal esc then
        let tail := octalTail chars pos
        .ok ([octalValue (esc::tail) % 256], pos+1+tail.length)
      else if esc = 0x78 then
        match chars[pos+1]?, chars[pos+2]? with
        | some hi, some lo => match fromStrRadix16 [hi, lo] with
          | some v => .ok ([v], pos+3)
          | none => .error (.lex "invalid \\x escape")
        | _, _ => .error (.lex "incomplete \\x escape")
      else if esc = 0x0A then .ok ([], pos+1)
      else if esc = 0x0D then .ok ([], if chars[pos+1]? = some 0x0A then pos+2 else pos+1)
      else if 0x7F < esc then .error (.nonAscii esc)
      else .ok ([0x5C, esc], pos+1)

theorem bytesEscape_next {chars : List ℕ} {pos next : ℕ} {frag : List ℕ}
    (h : bytesEscape chars pos = .ok (frag, next)) : pos < next := by
  unfold bytesEscape at h
  split at h
  · cases h
  split at h
  · cases h
    omega
  split at h
  · cases h
    omega
  split at h
  · split at h
    · split at h
      · cases h
        omega
      · cases h
    · cases h
  split at h
  · cases h
    omega
  split at h
  · cases h
    split <;> omega
  split at h
  · cases h
  · cases h
    omega

section bytes
variable (chars : List ℕ) (quote : ℕ) (raw : Bool)

/-- A backslash of a raw literal stays, with the character behind it. -/
def rawPair (pos : ℕ) : Except LexError (List ℕ) :=
  match chars[pos+1]? with
  | none => .error (.lex "EOL while scanning bytes literal (trailing backslash in raw bytes)")
  | some next => if 0x7F < next then .error (.nonAscii next) else .ok [0x5C, next]

/-- The loop of a bytes literal in single quotes. -/
def lexBytesBody (pos : ℕ) (out : List ℕ) : Except LexError (List ℕ × ℕ) :=
  match _hpos : chars[pos]? with
  | none => .error (.lex "unterminated bytes literal")
  | some c =>
    if c = quote then .ok (out, pos+1)
    else if c = 0x5C then
      if raw then match rawPair chars pos with
        | .error e => .error e
        | .ok pair => lexBytesBody (pos+2) (out ++ pair)
      else match _hesc : bytesEscape chars (pos+1) with
        | .error e => .error e
        | .ok (frag, next) => lexBytesBody next (out ++ frag)
    else if 0x7F < c then .error (.nonAscii c)
    else lexBytesBody (pos+1) (out ++ [c])
termination_by chars.length-pos
decreasing_by
  all_goals
    have hlt := (List.getElem?_eq_some_iff.mp _hpos).1
    first
      | omega
      | have := bytesEscape_next _hesc
        omega

/-- The loop of a bytes literal in triple quotes. -/
def lexBytesTriple (pos : ℕ) (out : List ℕ) : Except LexError (List ℕ × ℕ) :=
  if tripleQuoted chars quote pos then .ok (out, pos+3)
  else match _hpos : chars[pos]? with
    | none => .error (.lex "unterminated triple-quoted bytes literal")
    | some c =>
      if c = 0x5C then
        if raw then match rawPair chars pos with
          | .error e => .error e
          | .ok pair => lexBytesTriple (pos+2) (out ++ pair)
        else match _hesc : bytesEscape chars (pos+1) with
          | .error e => .error e
          | .ok (frag, next) => lexBytesTriple next (out ++ frag)
      else if c = 0x0D then
        lexBytesTriple (if chars[pos+1]? = some 0x0A then pos+2 else pos+1) (out ++ [0x0A])
      else if 0x7F < c then .error (.nonAscii c)
      else lexBytesTriple (pos+1) (out ++ [c])
termination_by chars.length-pos
decreasing_by
  all_goals
    have hlt := (List.getElem?_eq_some_iff.mp _hpos).1
    first
      | omega
      | have := bytesEscape_next _hesc
        omega
      | split <;> omega

end bytes

/-- `lex_bytes`, from the opening quote on. -/
def lexBytes (chars : List ℕ) (start : ℕ) (raw : Bool) : Except LexError (List ℕ × ℕ) :=
  let quote := chars.getD start 0
  if chars[start+1]? = some quote ∧ chars[start+2]? = some quote then
    lexBytesTriple chars quote raw (start+3) []
  else lexBytesBody chars quote raw (start+1) []

/-- `lex_string`: the bytes of the literal and the position behind it. -/
def lexString (namedCharacter : List ℕ → Option ℕ) (chars : List ℕ) (start : ℕ) (raw : Bool) :
    Except LexError (List ℕ × ℕ) :=
  let quote := chars.getD start 0
  if chars[start+1]? = some quote ∧ chars[start+2]? = some quote then
    lexStringTriple namedCharacter chars quote raw (start+3) (start+3) []
  else lexStringBody namedCharacter chars quote raw (start+1) (start+1) []

end Pyrust.StringLiterals
