import Pyrust.LexerFields

/-!
# The lexer

The source is lexed line by line: the indentation of a line first, then its
tokens up to a line end outside brackets. Both are loops over one position. The
line counter wraps at `2^32`, as in the release profile.
-/

set_option autoImplicit false

namespace Pyrust.LexerMachine

open ScanLoop StringLiterals LexerTokens LexerLiterals LexerFields

/-- A token with its line and its columns. -/
structure Spelled (F : Type) where
  tok : Token F
  line : ℕ
  col : ℕ
  colEnd : ℕ

/-- The fields of `Lexer`. -/
structure LexState (F : Type) where
  tokens : List (Spelled F)
  line : ℕ
  lineStartPos : ℕ
  curCol : ℕ

section lexer
variable {F : Type} (T : Tables F) (chars : List ℕ)

namespace LexState
variable (st : LexState F)

def emit (tok : Token F) : LexState F :=
  { st with tokens := st.tokens ++ [⟨tok, st.line, st.curCol, 0⟩] }

def countLine : LexState F := { st with line := (st.line+1) % 2^32 }

/-- The end column of the last token. -/
def fillEnd (pos : ℕ) : LexState F :=
  { st with tokens := st.tokens.modifyLast fun t =>
      { t with colEnd := (pos-st.lineStartPos) % 2^32 } }

end LexState

/-- `advance_line_over`. -/
def advanceLineOver (first last : ℕ) (st : LexState F) : Scan LexError (LexState F) := do
  let span ← sliceOf chars first last
  pure (span.zipIdx.foldl (fun st x =>
    if x.1 = 0x0A then { st.countLine with lineStartPos := first+x.2+1 } else st) st)

/-! ## One token -/

variable (F) in
/-- The operators, each behind those it begins. -/
def operators : List (List Char × Token F) :=
  [(['+', '='], .plusAssign), (['+'], .plus), (['-', '='], .minusAssign), (['-', '>'], .arrow),
    (['-'], .minus), (['@', '='], .atAssign), (['@'], .atSign), ([';'], .semicolon),
    (['*', '*', '='], .starStarAssign), (['*', '*'], .starStar), (['*', '='], .starAssign),
    (['*'], .star), (['/', '/', '='], .slashSlashAssign), (['/', '/'], .slashSlash),
    (['/', '='], .slashAssign), (['/'], .slash), (['%', '='], .percentAssign), (['%'], .percent),
    (['&', '='], .ampersandAssign), (['&'], .ampersand), (['|', '='], .pipeAssign), (['|'], .pipe),
    (['^', '='], .caretAssign), (['^'], .caret), (['~'], .tilde), (['<', '<', '='], .lShiftAssign),
    (['<', '<'], .lShift), (['<', '='], .le), (['<'], .lt), (['>', '>', '='], .rShiftAssign),
    (['>', '>'], .rShift), (['>', '='], .ge), (['>'], .gt), (['('], .lParen), ([')'], .rParen),
    (['['], .lBracket), ([']'], .rBracket), (['{'], .lBrace), (['}'], .rBrace), ([','], .comma),
    ([':', '='], .walrus), ([':'], .colon), (['.', '.', '.'], .ellipsis), (['.'], .dot),
    (['=', '='], .eq), (['='], .assign), (['!', '='], .ne)]

variable (F) in
def lexOperator (pos : ℕ) : Option (Token F × ℕ) :=
  ((operators F).find? fun o => (o.1.map Char.toNat).isPrefixOf (chars.drop pos)).map fun o =>
    (o.2, pos + o.1.length)

/-- A literal with a prefix; `k` is the number of characters before its quote. -/
inductive Prefixed where
  | fstring (k : ℕ) (raw : Bool)
  | bytes (k : ℕ) (raw : Bool)
  | string (k : ℕ) (raw : Bool)

/-- A letter in one of its cases. -/
def letterAt (pos lower : ℕ) : Bool :=
  chars[pos]? = some lower || chars[pos]? = some (lower-0x20)

def quoteAt (pos : ℕ) : Bool := (chars[pos]?).any quotes

/-- The prefixes of literals, in the order they are looked for. -/
def literalPrefix (pos : ℕ) : Option Prefixed :=
  if (letterAt chars pos 0x72 && letterAt chars (pos+1) 0x66 ||
      letterAt chars pos 0x66 && letterAt chars (pos+1) 0x72) && quoteAt chars (pos+2) then
    some (.fstring 2 true)
  else if letterAt chars pos 0x66 && quoteAt chars (pos+1) then some (.fstring 1 false)
  else if letterAt chars pos 0x62 && quoteAt chars (pos+1) then some (.bytes 1 false)
  else if letterAt chars pos 0x62 && letterAt chars (pos+1) 0x72 && quoteAt chars (pos+2) then
    some (.bytes 2 true)
  else if letterAt chars pos 0x72 && quoteAt chars (pos+1) then some (.string 1 true)
  else if letterAt chars pos 0x72 && letterAt chars (pos+1) 0x62 && quoteAt chars (pos+2) then
    some (.bytes 2 true)
  else if letterAt chars pos 0x75 && quoteAt chars (pos+1) then some (.string 1 false)
  else none

/-- A word, or the literal whose prefix it is. -/
def wordAt (lineStartPos pos : ℕ) : Scan LexError (Token F × ℕ) :=
  match literalPrefix chars pos with
  | some (.fstring k raw) => do
    let quote ← index chars (pos+k)
    lexFstring T chars (pos+k+1) quote raw lineStartPos
  | some (.bytes k raw) => lexBytesAt F chars (pos+k) raw
  | some (.string k raw) => lexStringAt T chars (pos+k) raw
  | none => lexIdentOrKeyword T chars pos

/-- A token that is emitted. -/
def emitted (x : Scan LexError (Token F × ℕ)) : Scan LexError (Option (Token F) × ℕ) := do
  let r ← x
  pure (some r.1, r.2)

/-- The arms of `lex_line_tokens` for a character other than a line end. -/
def tokenAt (lineStartPos pos c : ℕ) : Scan LexError (Option (Token F) × ℕ) :=
  if c = 0x0D ∨ c = 0x20 ∨ c = 0x09 then pure (none, pos+1)
  else if c = 0x23 then pure (none, spanEnd (· ≠ 0x0A) chars pos)
  else if isDigit c then emitted (lexNumber T chars pos)
  else if asciiLetter c || c = 0x5F then emitted (wordAt T chars lineStartPos pos)
  else if quotes c then emitted (lexStringAt T chars pos false)
  else if c = 0x2E ∧ (chars[pos+1]?).any isDigit then emitted (lexLeadingDotFloat T chars pos)
  else match lexOperator F chars pos with
    | some r => pure (some r.1, r.2)
    | none =>
      if c = 0x21 then fail (.lex "expected '=' after '!'")
      else if c = 0x5C then pure (none, pos+1)
      else if isAlphabetic T c then emitted (lexIdentOrKeyword T chars pos)
      else fail (.lex "invalid syntax")

/-! ## One line -/

structure LineState (F : Type) where
  lex : LexState F
  parenDepth : ℕ
  lineContinued : Bool

def depthAfter (depth : ℕ) : Option (Token F) → ℕ
  | some .lParen | some .lBracket | some .lBrace => depth+1
  | some .rParen | some .rBracket | some .rBrace => depth-1
  | _ => depth

/-- Behind a token: its end column, and the line ends inside it. -/
def finishToken (start pos : ℕ) (tok : Option (Token F)) (lex : LexState F) :
    Scan LexError (LexState F) := do
  let span ← sliceOf chars start pos
  let lex := match tok with
    | some tok => if 0x0A ∈ span then lex.emit tok else (lex.emit tok).fillEnd pos
    | none => lex
  advanceLineOver chars start pos lex

/-- A round of `lex_line_tokens`. -/
def lineStep (pos : ℕ) (s : LineState F) :
    Scan LexError (Move (LineState F) ((LexState F × ℕ) × ℕ)) :=
  let lex := { s.lex with curCol := (pos-s.lex.lineStartPos) % 2^32 }
  match chars[pos]? with
  | none =>
    let lex := if s.parenDepth = 0 ∧ s.lineContinued = false then lex.emit .newline else lex
    pure (.stop ((lex, s.parenDepth), chars.length+1))
  | some c =>
    if c = 0x0A then
      if s.lineContinued then
        pure (.on (spanEnd (fun c => c = 0x20 || c = 0x09) chars (pos+1))
          ⟨{ lex.countLine with lineStartPos := pos+1 }, s.parenDepth, false⟩)
      else
        let lex := if s.parenDepth = 0 then lex.emit .newline else lex
        pure (.stop ((lex.countLine, s.parenDepth), pos+1))
    else do
      let r ← tokenAt T chars lex.lineStartPos pos c
      let lex ← finishToken chars pos r.2 r.1 lex
      pure (.on r.2 ⟨lex, depthAfter s.parenDepth r.1, s.lineContinued || c = 0x5C⟩)

/-- `lex_line_tokens`. -/
def lexLineTokens (start : ℕ) (lex : LexState F) (parenDepth : ℕ) :
    Scan LexError ((LexState F × ℕ) × ℕ) :=
  run (lineStep T chars) (chars.length+2) start ⟨lex, parenDepth, false⟩

/-! ## Indentation -/

def maxIndentLevels : ℕ := 100

/-- The dedents down to a column; the stack is never empty. -/
def dedentTo (indent : ℕ) : LexState F → List ℕ → Scan LexError (LexState F × List ℕ)
  | _, [] => .error .range
  | lex, top::rest =>
    if indent < top then dedentTo indent (lex.emit .dedent) rest else .ok (lex, top::rest)

/-- `handle_indent`, with the innermost level of the stack first. -/
def handleIndent (indent : ℕ) (lex : LexState F) (stack : List ℕ) :
    Scan LexError (LexState F × List ℕ) := do
  let current ← index stack 0
  if current < indent then
    if maxIndentLevels ≤ stack.length then fail (.lex "too many levels of indentation")
    else pure (lex.emit .indent, indent::stack)
  else
    let r ← dedentTo indent lex stack
    let after ← index r.2 0
    if indent ≠ after then fail (.lex "inconsistent indentation") else pure r

/-! ## The source -/

structure SourceState (F : Type) where
  lex : LexState F
  indentStack : List ℕ
  parenDepth : ℕ

/-- What a line begins with: nothing to lex, or tokens from a position on. -/
inductive LineHead (F : Type) where
  | blank (pos : ℕ) (lex : LexState F)
  | code (contentStart : ℕ) (lex : LexState F) (indentStack : List ℕ)

/-- The end of a line without a carriage return. -/
def lineEndAt (eol : ℕ) : Scan LexError ℕ :=
  if 0 < eol then do
    let last ← index chars (eol-1)
    pure (if last = 0x0D then eol-1 else eol)
  else pure eol

/-- Blank lines and comments. -/
def blankOrComment (visible : List ℕ) : Bool :=
  match visible.dropWhile isWhitespace with
  | [] => true
  | c::_ => c = 0x23

/-- A round of `lex_source` up to the tokens of the line. -/
def lineHead (pos : ℕ) (s : SourceState F) : Scan LexError (LineHead F) := do
  let lex := { s.lex with lineStartPos := pos }
  let indent ← lift (countIndentChars chars pos)
  let contentStart := pos+indent
  let eol := spanEnd (· ≠ 0x0A) chars contentStart
  let lineEnd ← lineEndAt chars eol
  let visible ← sliceOf chars contentStart lineEnd
  if blankOrComment visible then
    let lex := if s.parenDepth = 0 then lex.emit .newline else lex
    if eol < chars.length then pure (.blank (eol+1) lex.countLine)
    else pure (.blank (chars.length+1) lex)
  else if s.parenDepth = 0 then
    let r ← handleIndent indent lex s.indentStack
    pure (.code contentStart r.1 r.2)
  else pure (.code contentStart lex s.indentStack)

/-- A round of `lex_source`. -/
def sourceStep (pos : ℕ) (s : SourceState F) :
    Scan LexError (Move (SourceState F) (SourceState F)) :=
  if chars.length < pos then pure (.stop s)
  else do
    let head ← lineHead chars pos s
    match head with
    | .blank next lex => pure (.on next { s with lex })
    | .code contentStart lex indentStack =>
      let r ← lexLineTokens T chars contentStart lex s.parenDepth
      pure (.on r.2 ⟨r.1.1, indentStack, r.1.2⟩)

variable (F) in
def SourceState.start : SourceState F := ⟨⟨[], 1, 0, 0⟩, [0], 0⟩

/-- `Lexer::new`: the tokens with their places. -/
def lexSource : Scan LexError (List (Spelled F)) := do
  let s ← run (sourceStep T chars) (chars.length+2) 0 (SourceState.start F)
  let lex := (List.replicate (s.indentStack.length-1) Token.dedent).foldl LexState.emit s.lex
  pure (lex.emit .eof).tokens

end lexer

end Pyrust.LexerMachine
