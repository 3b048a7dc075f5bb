import Mathlib.Data.List.DropRight
import Pyrust.ScanLoop
import Pyrust.StringLiterals

/-!
# Tokens, numbers and identifiers

The tokens of the lexer and the scanners that look at one run of characters.
Reading a float, asking whether a character outside ASCII is alphabetic and the
limit on decimal digits are given by tables.
-/

set_option autoImplicit false

namespace Pyrust.LexerTokens

open ScanLoop StringLiterals EscapeCodec

/-- What the lexer asks of others: the names of characters, which characters outside ASCII are
alphabetic, `parse::<f64>`, and the digit limit in force, `0` for none. -/
structure Tables (F : Type*) where
  namedCharacter : List ℕ → Option ℕ
  alphabetic : ℕ → Bool
  parseFloat : List ℕ → Option F
  intMaxStrDigits : ℕ

/-- A part of an f-string. A literal is stored as its bytes. -/
inductive FStringPart where
  | literal (bytes : List ℕ)
  | expr (src : List ℕ) (conversion : Option ℕ) (formatSpec : Option (List FStringPart))
      (debugText : Option (List ℕ)) (fieldCols : Option (ℕ × ℕ)) (lineOffset : ℕ)

inductive Token (F : Type) where
  | int (value : ℕ) | bigInt (decimal : String) | float (value : F) | imag (value : F)
  | str (bytes : List ℕ) | bytes (bytes : List ℕ) | fstring (parts : List FStringPart)
  | ident (name : List ℕ)
  | plus | minus | star | starStar | slash | slashSlash | percent | atSign
  | plusAssign | minusAssign | starAssign | starStarAssign | slashAssign | slashSlashAssign
  | percentAssign | atAssign | ampersandAssign | pipeAssign | caretAssign | lShiftAssign
  | rShiftAssign
  | ampersand | pipe | caret | tilde | lShift | rShift
  | lParen | rParen | lBracket | rBracket | lBrace | rBrace
  | comma | colon | walrus | semicolon | dot | ellipsis | arrow
  | assign | eq | ne | lt | le | gt | ge
  | kwAnd | kwOr | kwNot | kwIf | kwElif | kwElse | kwWhile | kwFor | kwIn | kwDef | kwClass
  | kwWith | kwTry | kwExcept | kwFinally | kwRaise | kwAs | kwImport | kwFrom | kwGlobal
  | kwNonlocal | kwReturn | kwYield | kwBreak | kwContinue | kwPass | kwDel | kwAssert
  | kwLambda | kwIs | kwTrue | kwFalse | kwNone
  | newline | indent | dedent | eof

/-- The characters of a source spelling. -/
def codes (s : String) : List ℕ := s.toList.map Char.toNat

def isDigit (c : ℕ) : Bool := 0x30 ≤ c && c ≤ 0x39

def asciiLetter (c : ℕ) : Bool := (0x41 ≤ c && c ≤ 0x5A) || (0x61 ≤ c && c ≤ 0x7A)

/-- `char::is_whitespace`. -/
def isWhitespace (c : ℕ) : Bool :=
  (0x09 ≤ c && c ≤ 0x0D) || c = 0x20 || c = 0x85 || c = 0xA0 || c = 0x1680 ||
    (0x2000 ≤ c && c ≤ 0x200A) || c = 0x2028 || c = 0x2029 || c = 0x202F || c = 0x205F || c = 0x3000

/-- `str::trim`. -/
def trim (xs : List ℕ) : List ℕ := (xs.dropWhile isWhitespace).rdropWhile isWhitespace

section scanners
variable {F : Type} (T : Tables F)

/-- `char::is_alphabetic`. -/
def isAlphabetic (c : ℕ) : Bool := if c < 0x80 then asciiLetter c else T.alphabetic c

/-- A character that carries a name on. -/
def isNameChar (c : ℕ) : Bool := isAlphabetic T c || isDigit c || c = 0x5F

variable (F) in
def keywords : List (String × Token F) :=
  [("and", .kwAnd), ("or", .kwOr), ("not", .kwNot), ("if", .kwIf), ("elif", .kwElif),
    ("else", .kwElse), ("while", .kwWhile), ("for", .kwFor), ("in", .kwIn), ("def", .kwDef),
    ("class", .kwClass), ("try", .kwTry), ("except", .kwExcept), ("finally", .kwFinally),
    ("raise", .kwRaise), ("as", .kwAs), ("import", .kwImport), ("from", .kwFrom),
    ("global", .kwGlobal), ("nonlocal", .kwNonlocal), ("return", .kwReturn), ("yield", .kwYield),
    ("break", .kwBreak), ("continue", .kwContinue), ("pass", .kwPass), ("del", .kwDel),
    ("assert", .kwAssert), ("lambda", .kwLambda), ("with", .kwWith), ("is", .kwIs),
    ("True", .kwTrue), ("False", .kwFalse), ("None", .kwNone)]

/-- `lex_ident_or_keyword`. -/
def lexIdentOrKeyword (chars : List ℕ) (start : ℕ) : Scan LexError (Token F × ℕ) := do
  let pos := spanEnd (isNameChar T) chars start
  let text ← sliceOf chars start pos
  match (keywords F).find? fun k => codes k.1 = text with
  | some k => pure (k.2, pos)
  | none => pure (.ident text, pos)

/-- `count_indent_chars`. -/
def countIndentChars (chars : List ℕ) (start : ℕ) : Except LexError ℕ :=
  let pos := spanEnd (· = 0x20) chars start
  if chars[pos]? = some 0x09 then .error (.lex "tabs are not supported; use spaces")
  else .ok (pos-start)

/-! ## Numbers -/

/-- `validate_underscores`. -/
def validateUnderscores (kind : String) : List ℕ → Bool → Except LexError Unit
  | [], under => if under then .error (.lex s!"invalid {kind} literal") else .ok ()
  | c::cs, under =>
    if c = 0x5F then
      if under then .error (.lex s!"invalid {kind} literal") else validateUnderscores kind cs true
    else validateUnderscores kind cs false

/-- `validate_decimal_underscores`: an underscore stands between two digits. -/
def validateDecimalUnderscores (raw : List ℕ) : Except LexError Unit :=
  if raw.zipIdx.all fun x => x.1 ≠ 0x5F ∨ (0 < x.2 ∧ (raw[x.2-1]?).any isDigit) ∧
      (raw[x.2+1]?).any isDigit then .ok ()
  else .error (.lex "invalid decimal literal")

/-- `check_leading_zero`. -/
def checkLeadingZero (raw : List ℕ) : Except LexError Unit :=
  if raw.head? = some 0x30 ∧ raw.any (fun c => isDigit c && c ≠ 0x30) then
    .error (.lex ("leading zeros in decimal integer literals are not permitted; " ++
      "use an 0o prefix for octal integers"))
  else .ok ()

def withoutUnderscores (raw : List ℕ) : List ℕ := raw.filter (· ≠ 0x5F)

/-- `from_str_radix` on digits. -/
def radixValue (radix : ℕ) (digits : List ℕ) : ℕ :=
  digits.foldl (fun v d => v*radix + (hexValue d).getD 0) 0

/-- An integer that fits `i64`, or its decimal digits. -/
def intToken (v : ℕ) : Token F := if v < 2^63 then .int v else .bigInt (toString v)

def isDigitOrUnderscore (c : ℕ) : Bool := isDigit c || c = 0x5F

/-- The digits of a literal behind its base prefix. -/
def lexPrefixed (kind : String) (radix : ℕ) (digit : ℕ → Bool) (chars : List ℕ) (start : ℕ) :
    Scan LexError (Token F × ℕ) := do
  let pos := spanEnd (fun c => digit c || c = 0x5F) chars (start+2)
  let raw ← sliceOf chars (start+2) pos
  if raw.all (· = 0x5F) then fail (.lex s!"invalid {kind} literal")
  else
    lift (validateUnderscores kind raw false)
    pure (intToken (radixValue radix (withoutUnderscores raw)), pos)

def isHexDigit (c : ℕ) : Bool :=
  isDigit c || (0x61 ≤ c && c ≤ 0x66) || (0x41 ≤ c && c ≤ 0x46)

/-- Behind an exponent mark: its sign, and its digits. -/
def skipSign (chars : List ℕ) (pos : ℕ) : ℕ :=
  if chars[pos]? = some 0x2B ∨ chars[pos]? = some 0x2D then pos+1 else pos

def skipExponent (chars : List ℕ) (pos : ℕ) : ℕ :=
  spanEnd isDigitOrUnderscore chars (skipSign chars pos)

def exponentMark (chars : List ℕ) (pos : ℕ) : Bool :=
  chars[pos]? = some 0x65 || chars[pos]? = some 0x45

/-- Behind the exponent that may follow. -/
def behindExponent (chars : List ℕ) (pos : ℕ) : ℕ :=
  if exponentMark chars pos then skipExponent chars (pos+1) else pos

def imaginarySuffix (chars : List ℕ) (pos : ℕ) : Bool :=
  chars[pos]? = some 0x6A || chars[pos]? = some 0x4A

/-- The float in a slice, and the imaginary suffix behind it. -/
def finishFloat (chars : List ℕ) (start pos : ℕ) : Scan LexError (Token F × ℕ) := do
  let raw ← sliceOf chars start pos
  lift (validateDecimalUnderscores raw)
  let digits := withoutUnderscores raw
  match T.parseFloat digits with
  | none => fail (.lex s!"invalid float '{text digits}'")
  | some value =>
    if imaginarySuffix chars pos then pure (.imag value, pos+1) else pure (.float value, pos)

/-- `lex_leading_dot_float`. -/
def lexLeadingDotFloat (chars : List ℕ) (start : ℕ) : Scan LexError (Token F × ℕ) :=
  let pos := spanEnd isDigitOrUnderscore chars (start+1)
  finishFloat T chars start (behindExponent chars pos)

/-- A decimal integer, whose digits the limit may forbid. -/
def finishInt (chars : List ℕ) (start intEnd pos : ℕ) : Scan LexError (Token F × ℕ) := do
  let raw ← sliceOf chars start intEnd
  lift (validateDecimalUnderscores raw)
  lift (checkLeadingZero raw)
  let digits := withoutUnderscores raw
  let v := radixValue 10 digits
  let limit := T.intMaxStrDigits
  if v < 2^63 then pure (.int v, pos)
  else if limit ≠ 0 ∧ limit < digits.length then
    fail (.lex (s!"Exceeds the limit ({limit} digits) for integer string conversion: " ++
      s!"value has {digits.length} digits; use sys.set_int_max_str_digits() to increase the limit" ++
      " - Consider hexadecimal for huge integer literals to avoid decimal conversion limits."))
  else pure (.bigInt (toString v), pos)

/-- An imaginary literal without point and exponent. -/
def finishImaginary (chars : List ℕ) (start pos : ℕ) : Scan LexError (Token F × ℕ) := do
  let raw ← sliceOf chars start pos
  lift (validateDecimalUnderscores raw)
  let digits := withoutUnderscores raw
  match T.parseFloat digits with
  | none => fail (.lex s!"invalid imaginary literal '{text digits}j'")
  | some value => pure (.imag value, pos+1)

/-- A base prefix: a zero and one of two letters. -/
def basePrefix (chars : List ℕ) (start lower upper : ℕ) : Bool :=
  chars[start]? = some 0x30 && (chars[start+1]? = some lower || chars[start+1]? = some upper)

/-- `lex_number`. -/
def lexNumber (chars : List ℕ) (start : ℕ) : Scan LexError (Token F × ℕ) :=
  if basePrefix chars start 0x78 0x58 then lexPrefixed "hexadecimal" 16 isHexDigit chars start
  else if basePrefix chars start 0x6F 0x4F then
    lexPrefixed "octal" 8 (fun c => 0x30 ≤ c && c ≤ 0x37) chars start
  else if basePrefix chars start 0x62 0x42 then
    lexPrefixed "binary" 2 (fun c => 0x30 ≤ c && c ≤ 0x31) chars start
  else
    let intEnd := spanEnd isDigitOrUnderscore chars start
    if chars[intEnd]? = some 0x2E then
      let pos := spanEnd isDigitOrUnderscore chars (intEnd+1)
      finishFloat T chars start (behindExponent chars pos)
    else
      let pos := behindExponent chars intEnd
      if exponentMark chars intEnd ∧ skipSign chars (intEnd+1) < pos then
        finishFloat T chars start pos
      else if imaginarySuffix chars pos then finishImaginary T chars start pos
      else finishInt T chars start intEnd pos

/-! ## What they leave -/

/-- The scanner ends behind where it began, inside the text. -/
def Within {α : Type} (chars : List ℕ) (start : ℕ) (r : α × ℕ) : Prop :=
  start < r.2 ∧ r.2 ≤ chars.length

variable {T} {chars : List ℕ} {start pos c : ℕ}

/-- A check reports its error or lets the scan go on. -/
theorem gives_check {α : Type} {x : Except LexError Unit} {f : Unit → Scan LexError α}
    {post : α → Prop} (h : Gives False post (f ())) : Gives False post (lift x >>= f) :=
  Gives.bind (@gives_lift _ _ (fun _ => True) _ fun _ _ => trivial) fun _ _ => h

theorem lt_length (h : chars[pos]? = some c) : pos < chars.length :=
  (List.getElem?_eq_some_iff.mp h).1

theorem lexIdentOrKeyword_gives (hc : chars[start]? = some c) (hname : isNameChar T c) :
    Gives False (Within chars start) (lexIdentOrKeyword T chars start) := by
  have hlt := lt_spanEnd hc hname
  have hle := spanEnd_le (isNameChar T) chars (lt_length hc).le
  refine (gives_slice hlt.le hle).bind fun name _ => ?_
  split
  · exact gives_pure ⟨hlt, hle⟩
  · exact gives_pure ⟨hlt, hle⟩

theorem skipSign_bounds (h : pos < chars.length) :
    pos+1 ≤ skipSign chars (pos+1) ∧ skipSign chars (pos+1) ≤ chars.length := by
  unfold skipSign
  split_ifs with hsign
  · rcases hsign with hs | hs <;> exact ⟨by omega, lt_length hs⟩
  · exact ⟨Nat.le_refl _, h⟩

theorem skipExponent_bounds (h : pos < chars.length) :
    pos < skipExponent chars (pos+1) ∧ skipExponent chars (pos+1) ≤ chars.length := by
  obtain ⟨hle, hlen⟩ := skipSign_bounds h
  have := le_spanEnd isDigitOrUnderscore chars (skipSign chars (pos+1))
  exact ⟨by unfold skipExponent; omega, spanEnd_le _ _ hlen⟩

theorem exponentMark_lt (h : exponentMark chars pos) : pos < chars.length := by
  simp only [exponentMark, Bool.or_eq_true, decide_eq_true_eq] at h
  rcases h with h | h <;> exact lt_length h

theorem behindExponent_bounds (hpos : pos ≤ chars.length) :
    pos ≤ behindExponent chars pos ∧ behindExponent chars pos ≤ chars.length := by
  unfold behindExponent
  split_ifs with hmark
  · have := skipExponent_bounds (exponentMark_lt hmark)
    omega
  · exact ⟨Nat.le_refl _, hpos⟩

theorem imaginarySuffix_lt (h : imaginarySuffix chars pos) : pos < chars.length := by
  simp only [imaginarySuffix, Bool.or_eq_true, decide_eq_true_eq] at h
  rcases h with h | h <;> exact lt_length h

theorem finishFloat_gives (hlt : start < pos) (hle : pos ≤ chars.length) :
    Gives False (Within chars start) (finishFloat T chars start pos) := by
  refine (gives_slice hlt.le hle).bind fun raw _ => ?_
  apply gives_check
  dsimp only
  split
  · exact gives_fail _
  · split_ifs with himag
    · have := imaginarySuffix_lt himag
      exact gives_pure ⟨by simp only; omega, this⟩
    · exact gives_pure ⟨hlt, hle⟩

theorem finishImaginary_gives (hle : start ≤ pos) (himag : imaginarySuffix chars pos) :
    Gives False (Within chars start) (finishImaginary T chars start pos) := by
  have hlt := imaginarySuffix_lt himag
  refine (gives_slice hle hlt.le).bind fun raw _ => ?_
  apply gives_check
  dsimp only
  split
  · exact gives_fail _
  · exact gives_pure ⟨by simp only; omega, hlt⟩

theorem finishInt_gives {intEnd : ℕ} (hlt : start < intEnd) (hle : intEnd ≤ pos)
    (hlen : pos ≤ chars.length) :
    Gives False (Within chars start) (finishInt T chars start intEnd pos) := by
  refine (gives_slice hlt.le (by omega)).bind fun raw _ => ?_
  apply gives_check
  apply gives_check
  have hwithin : ∀ tok : Token F, Within chars start (tok, pos) :=
    fun _ => ⟨by simp only; omega, hlen⟩
  dsimp only
  split_ifs
  · exact gives_pure (hwithin _)
  · exact gives_fail _
  · exact gives_pure (hwithin _)

theorem basePrefix_lt {lower upper : ℕ} (h : basePrefix chars start lower upper) :
    start+2 ≤ chars.length := by
  simp only [basePrefix, Bool.and_eq_true, Bool.or_eq_true, decide_eq_true_eq] at h
  rcases h.2 with h | h <;> exact lt_length h

theorem lexPrefixed_gives {kind : String} {radix : ℕ} {digit : ℕ → Bool}
    (h : start+2 ≤ chars.length) :
    Gives False (Within chars start)
      (lexPrefixed kind radix digit chars start : Scan LexError (Token F × ℕ)) := by
  have hle := le_spanEnd (fun c => digit c || c = 0x5F) chars (start+2)
  have hlen := spanEnd_le (fun c => digit c || c = 0x5F) chars h
  refine (gives_slice hle hlen).bind fun raw _ => ?_
  split_ifs
  · exact gives_fail _
  · apply gives_check
    exact gives_pure ⟨by simp only; omega, hlen⟩

theorem lexNumber_gives (hc : chars[start]? = some c) (hdigit : isDigit c) :
    Gives False (Within chars start) (lexNumber T chars start) := by
  have hlt : start < spanEnd isDigitOrUnderscore chars start :=
    lt_spanEnd hc (by simp [isDigitOrUnderscore, hdigit])
  have hle := spanEnd_le isDigitOrUnderscore chars (lt_length hc).le
  have hexp := behindExponent_bounds hle
  unfold lexNumber
  dsimp only
  split_ifs with hx ho hb hpoint hexponent himag
  · exact lexPrefixed_gives (basePrefix_lt hx)
  · exact lexPrefixed_gives (basePrefix_lt ho)
  · exact lexPrefixed_gives (basePrefix_lt hb)
  · have hfrac := le_spanEnd isDigitOrUnderscore chars
      (spanEnd isDigitOrUnderscore chars start+1)
    have hbehind : spanEnd isDigitOrUnderscore chars start + 1 ≤ chars.length := lt_length hpoint
    have hbounds := behindExponent_bounds (spanEnd_le isDigitOrUnderscore chars hbehind)
    exact finishFloat_gives (by omega) hbounds.2
  · exact finishFloat_gives (by omega) hexp.2
  · exact finishImaginary_gives (by omega) himag
  · exact finishInt_gives hlt hexp.1 hexp.2

theorem lexLeadingDotFloat_gives (hc : chars[start]? = some c) :
    Gives False (Within chars start) (lexLeadingDotFloat T chars start) := by
  have hfrac := le_spanEnd isDigitOrUnderscore chars (start+1)
  have hbehind : start+1 ≤ chars.length := lt_length hc
  have hbounds := behindExponent_bounds (spanEnd_le isDigitOrUnderscore chars hbehind)
  exact finishFloat_gives (by omega) hbounds.2

end scanners

end Pyrust.LexerTokens
