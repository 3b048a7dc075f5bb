import Pyrust.LexerLiterals

/-!
# F-strings

The scanners of an f-string, its replacement fields and their format specs. The
brace depth of a field is decremented without a check, which is the one place
where a counter of the lexer can fall below zero.
-/

set_option autoImplicit false

namespace Pyrust.LexerFields

open ScanLoop StringLiterals Cesu8 LexerTokens LexerLiterals

section fields
variable {F : Type} (T : Tables F) (chars : List ℕ)

/-- `count_newlines`. -/
def countNewlines (first last : ℕ) : Scan LexError ℕ := do
  let between ← sliceOf chars first (min last chars.length)
  pure (between.count 0x0A % 2^32)

/-- `lex_conversion_segment`. -/
def lexConversionSegment (pos : ℕ) : List ℕ :=
  match chars[pos]? with
  | some c =>
    if isAlphabetic T c || c = 0x5F then c :: (chars.drop (pos+1)).takeWhile (isNameChar T) else []
  | none => []

/-- `fstring_conversion_error`. -/
def fstringConversionError (pos : ℕ) (segment : List ℕ) : LexError :=
  if segment = [] then
    match chars[pos]? with
    | some c =>
      if c = 0x7D ∨ c = 0x3A ∨ isWhitespace c then .lex "f-string: missing conversion character"
      else .lex "f-string: invalid conversion character"
    | none => .lex "f-string: missing conversion character"
  else .lex s!"f-string: invalid conversion character '{text segment}': expected 's', 'r', or 'a'"

/-- The conversion character behind `!`. -/
def conversionAt (pos : ℕ) : Scan LexError ℕ :=
  let segment := lexConversionSegment T chars pos
  if segment = [0x73] ∨ segment = [0x72] ∨ segment = [0x61] then pure (segment.headD 0)
  else fail (fstringConversionError chars pos segment)

/-- A round of `consume_string_literal`; `triple` tells how the literal is closed. -/
def consumeStep (quote : ℕ) (triple : Bool) (pos : ℕ) (src : List ℕ) :
    Scan LexError (Move (List ℕ) (List ℕ × ℕ)) :=
  match chars[pos]? with
  | none => pure (.stop (src, pos))
  | some c =>
    if triple ∧ tripleQuoted chars quote pos then pure (.stop (src ++ [quote, quote, quote], pos+3))
    else if triple = false ∧ c = quote then pure (.stop (src ++ [quote], pos+1))
    else if c = 0x5C then match chars[pos+1]? with
      | some esc => pure (.on (pos+2) (src ++ [0x5C, esc]))
      | none => pure (.on (pos+1) (src ++ [0x5C]))
    else pure (.on (pos+1) (src ++ [c]))

/-- `consume_string_literal`. -/
def consumeStringLiteral (pos : ℕ) (src : List ℕ) (quote : ℕ) : Scan LexError (List ℕ × ℕ) :=
  if opensTriple chars pos quote then
    run (consumeStep chars quote true) (chars.length+2) (pos+3) (src ++ [quote, quote, quote])
  else run (consumeStep chars quote false) (chars.length+2) (pos+1) (src ++ [quote])

/-- The source of a field so far, and what is open in it. -/
structure Nesting where
  src : List ℕ
  parens : ℕ
  braces : ℕ

def opens (c : ℕ) : Bool := c = 0x28 || c = 0x5B

def closes (c : ℕ) : Bool := c = 0x29 || c = 0x5D

def quotes (c : ℕ) : Bool := c = 0x22 || c = 0x27

namespace Nesting

def push (s : Nesting) (c : ℕ) : Nesting := { s with src := s.src ++ [c] }

/-- Nothing is open. -/
def top (s : Nesting) : Bool := s.parens = 0 && s.braces = 0

end Nesting

/-- A round of a field inside a format spec. Its counters are saturating. -/
def nestedStep (pos : ℕ) (s : Nesting) :
    Scan LexError (Move Nesting ((List ℕ × Option ℕ) × ℕ)) :=
  match chars[pos]? with
  | none => fail (.lex "unterminated nested expression in f-string format spec")
  | some c =>
    if c = 0x7D ∧ s.top then pure (.stop ((s.src, none), pos+1))
    else if c = 0x7B then pure (.on (pos+1) { s.push c with braces := s.braces+1 })
    else if c = 0x7D then pure (.on (pos+1) { s.push c with braces := s.braces-1 })
    else if opens c then pure (.on (pos+1) { s.push c with parens := s.parens+1 })
    else if closes c then pure (.on (pos+1) { s.push c with parens := s.parens-1 })
    else if quotes c then do
      let r ← consumeStringLiteral chars pos s.src c
      pure (.on r.2 { s with src := r.1 })
    else if c = 0x21 ∧ s.top ∧ chars[pos+1]? ≠ some 0x3D then do
      let conversion ← conversionAt T chars (pos+1)
      if chars[pos+2]? ≠ some 0x7D then
        fail (.lex "expected '\x7d' to close nested f-string expression")
      else pure (.stop ((s.src, some conversion), pos+3))
    else pure (.on (pos+1) (s.push c))

/-- The parts of an f-string so far, and the literal that follows them. -/
structure Parts where
  parts : List FStringPart
  literal : List ℕ

/-- The literal becomes a part, if there is one. -/
def Parts.flush (s : Parts) : List FStringPart :=
  if s.literal = [] then s.parts else s.parts ++ [FStringPart.literal s.literal]

/-- A round of `lex_format_spec`. -/
def specStep (base pos : ℕ) (s : Parts) :
    Scan LexError (Move Parts (List FStringPart × ℕ)) :=
  match chars[pos]? with
  | none => fail (.lex "unterminated f-string format spec")
  | some c =>
    if c = 0x7D then pure (.stop (s.flush, pos))
    else if c = 0x7B then do
      let lineOffset ← countNewlines chars base pos
      let r ← run (nestedStep T chars) (chars.length+2) (pos+1) ⟨[], 0, 0⟩
      pure (.on r.2 ⟨s.flush ++ [.expr (trim r.1.1) r.1.2 none none none lineOffset], []⟩)
    else pure (.on (pos+1) { s with literal := s.literal ++ encodeUtf8 c })

/-- `lex_format_spec`. -/
def lexFormatSpec (base pos : ℕ) : Scan LexError (List FStringPart × ℕ) :=
  run (specStep T chars base) (chars.length+2) pos ⟨[], []⟩

/-- What a replacement field is made of. -/
structure Field where
  exprSrc : List ℕ
  conversion : Option ℕ
  formatSpec : Option (List FStringPart)
  debugText : Option (List ℕ)

/-- The format spec that may follow. -/
def optionalSpec (base pos : ℕ) : Scan LexError (Option (List FStringPart) × ℕ) :=
  if chars[pos]? = some 0x3A then do
    let r ← lexFormatSpec T chars base (pos+1)
    pure (some r.1, r.2)
  else pure (none, pos)

/-- The format spec that may follow, and the closing brace. -/
def closeField (base pos : ℕ) (exprSrc : List ℕ) (conversion : Option ℕ)
    (debugText : Option (List ℕ)) : Scan LexError (Move Nesting (Field × ℕ)) := do
  let r ← optionalSpec T chars base pos
  if chars[r.2]? ≠ some 0x7D then fail (.lex "expected '\x7d' to close f-string expression")
  else pure (.stop (⟨exprSrc, conversion, r.1, debugText⟩, r.2+1))

/-- The source so far can be followed by the `=` of the debug form. -/
def takesDebug (src : List ℕ) : Bool :=
  match (src.rdropWhile fun c => c = 0x20 || c = 0x09).getLast? with
  | some c => !(c = 0x21 || c = 0x3C || c = 0x3E || c = 0x3D)
  | none => src ≠ []

/-- A round of `lex_fstring_expr`. -/
def fieldStep (base pos : ℕ) (s : Nesting) : Scan LexError (Move Nesting (Field × ℕ)) :=
  match chars[pos]? with
  | none => fail (.lex "unterminated f-string expression")
  | some c =>
    if c = 0x7D ∧ s.top then pure (.stop (⟨trim s.src, none, none, none⟩, pos+1))
    else if c = 0x7B then pure (.on (pos+1) { s.push c with braces := s.braces+1 })
    else if c = 0x7D then do
      let braces ← sub s.braces 1
      pure (.on (pos+1) { s.push c with braces })
    else if opens c then pure (.on (pos+1) { s.push c with parens := s.parens+1 })
    else if closes c then pure (.on (pos+1) { s.push c with parens := s.parens-1 })
    else if c = 0x3D ∧ s.top ∧ chars[pos+1]? ≠ some 0x3D ∧ takesDebug s.src then do
      let blankEnd := spanEnd (fun c => c = 0x20 || c = 0x09) chars (pos+1)
      let blanks ← sliceOf chars (pos+1) blankEnd
      let debugText := s.src ++ 0x3D::blanks
      if chars[blankEnd]? = some 0x21 then do
        let conversion ← conversionAt T chars (blankEnd+1)
        closeField T chars base (blankEnd+2) (trim s.src) (some conversion) (some debugText)
      else closeField T chars base blankEnd (trim s.src) none (some debugText)
    else if c = 0x21 ∧ s.top ∧ chars[pos+1]? ≠ some 0x3D then do
      let conversion ← conversionAt T chars (pos+1)
      closeField T chars base (pos+2) (trim s.src) (some conversion) none
    else if c = 0x3A ∧ s.top then closeField T chars base pos (trim s.src) none none
    else if quotes c then do
      let r ← consumeStringLiteral chars pos s.src c
      pure (.on r.2 { s with src := r.1 })
    else pure (.on (pos+1) (s.push c))

/-- `lex_fstring_expr`. -/
def lexFstringExpr (start base : ℕ) : Scan LexError (Field × ℕ) :=
  run (fieldStep T chars base) (chars.length+2) start ⟨[], 0, 0⟩

/-- The columns of a field, when it stands on one physical line. -/
def fieldColumns (lineStartPos openIdx next : ℕ) : Scan LexError (Option (ℕ × ℕ)) :=
  if lineStartPos ≤ openIdx then do
    let closeIdx := next-1
    let field ← sliceOf chars lineStartPos (min closeIdx (chars.length-1) + 1)
    if 0x0A ∈ field then pure none
    else
      let openCol ← sub openIdx lineStartPos
      let closeCol ← sub (closeIdx+1) lineStartPos
      pure (some (openCol % 2^32, closeCol % 2^32))
  else pure none

section body
variable (quote : ℕ) (raw triple : Bool) (contentStart lineStartPos : ℕ)

/-- A round of `lex_fstring`. -/
def fstringStep (pos : ℕ) (s : Parts) : Scan LexError (Move Parts (List FStringPart × ℕ)) :=
  match chars[pos]? with
  | none => fail (.lex "unterminated f-string")
  | some c =>
    if c = quote then
      if triple then
        if tripleQuoted chars quote pos then pure (.stop (s.flush, pos+3))
        else pure (.on (pos+1) { s with literal := s.literal ++ encodeUtf8 c })
      else pure (.stop (s.flush, pos+1))
    else if c = 0x7B then
      if chars[pos+1]? = some 0x7B then pure (.on (pos+2) { s with literal := s.literal ++ [0x7B] })
      else do
        let lineOffset ← countNewlines chars contentStart pos
        let r ← lexFstringExpr T chars (pos+1) contentStart
        let fieldCols ← fieldColumns chars lineStartPos pos r.2
        pure (.on r.2 ⟨s.flush ++ [.expr r.1.exprSrc r.1.conversion r.1.formatSpec r.1.debugText
          fieldCols lineOffset], []⟩)
    else if c = 0x7D then
      if chars[pos+1]? = some 0x7D then pure (.on (pos+2) { s with literal := s.literal ++ [0x7D] })
      else fail (.lex "single '\x7d' in f-string")
    else if c = 0x5C then
      if raw then match chars[pos+1]? with
        | none => fail (.lex "unterminated escape in f-string")
        | some next =>
          pure (.on (pos+2) { s with literal := s.literal ++ 0x5C::encodeUtf8 next })
      else do
        let r ← lexEscapeAt T chars "unterminated escape in f-string" (pos+1) contentStart
        pure (.on r.2 { s with literal := s.literal ++ r.1 })
    else pure (.on (pos+1) { s with literal := s.literal ++ encodeUtf8 c })

end body

/-- Two more quotes follow the opening one. -/
def fstringTriple (start quote : ℕ) : Bool :=
  chars[start]? = some quote && chars[start+1]? = some quote

def fstringContent (start quote : ℕ) : ℕ :=
  if fstringTriple chars start quote then start+2 else start

/-- `lex_fstring`, from behind the opening quote on. -/
def lexFstring (start quote : ℕ) (raw : Bool) (lineStartPos : ℕ) :
    Scan LexError (Token F × ℕ) := do
  let contentStart := fstringContent chars start quote
  let r ← run (fstringStep T chars quote raw (fstringTriple chars start quote) contentStart
    lineStartPos) (chars.length+2) contentStart ⟨[], []⟩
  pure (.fstring r.1, r.2)

/-! ## What the scanners leave -/

/-- The scanner ends at a position from `lo` on, inside the text. -/
def From {α : Type} (lo : ℕ) (r : α × ℕ) : Prop := lo ≤ r.2 ∧ r.2 ≤ chars.length

variable {T chars} {pos lo base start quote c : ℕ}

theorem countNewlines_ok (hle : lo ≤ pos) (hpos : pos ≤ chars.length) :
    countNewlines chars lo pos = .ok (((chars.take pos).drop lo).count 0x0A % 2^32) := by
  rw [countNewlines, Nat.min_eq_left hpos, sliceOf_of_le hle hpos]
  rfl

theorem lexConversionSegment_lt (h : lexConversionSegment T chars pos ≠ []) :
    pos < chars.length := by
  unfold lexConversionSegment at h
  split at h
  case h_1 c hc => exact lt_length hc
  case h_2 => exact absurd rfl h

theorem conversionAt_gives :
    Gives False (fun _ => pos < chars.length) (conversionAt T chars pos) := by
  unfold conversionAt
  dsimp only
  split
  case isTrue hsegment =>
    refine gives_pure (lexConversionSegment_lt (T := T) ?_)
    rcases hsegment with h | h | h <;> simp [h]
  case isFalse => exact gives_fail _

theorem consumeStep_gives {triple : Bool} {src : List ℕ} (hlo : lo ≤ pos)
    (hpos : pos ≤ chars.length) :
    Gives False (Forward chars.length (fun p _ => lo ≤ p) (From chars lo) pos)
      (consumeStep chars quote triple pos src) := by
  unfold consumeStep
  split
  · exact gives_pure ⟨hlo, hpos⟩
  case h_2 c hc =>
    have hlt := lt_length hc
    split
    case isTrue hclose =>
      exact gives_pure ⟨by simp only; omega, tripleQuoted_le hclose.2⟩
    split
    · exact gives_pure ⟨by simp only; omega, hlt⟩
    split
    · split
      case h_1 hesc =>
        have hbehind : pos+1 < chars.length := lt_length hesc
        exact gives_pure ⟨by omega, hbehind, by omega⟩
      case h_2 => exact gives_pure ⟨by omega, hlt, by omega⟩
    · exact gives_pure ⟨by omega, hlt, by omega⟩

theorem consumeStringLiteral_gives {src : List ℕ} (hpos : pos < chars.length) :
    Gives False (Within chars pos) (consumeStringLiteral chars pos src quote) := by
  unfold consumeStringLiteral
  split
  case isTrue hopen =>
    simp only [opensTriple, Bool.and_eq_true, decide_eq_true_eq] at hopen
    have hle : pos+3 ≤ chars.length := lt_length hopen.2
    exact (run_gives_sound (fun p src hp hinv => consumeStep_gives hinv hp) hle (Nat.le_refl _)
      (by omega)).mono fun r hr => ⟨Nat.lt_of_lt_of_le (by omega) hr.1, hr.2⟩
  case isFalse =>
    exact (run_gives_sound (fun p src hp hinv => consumeStep_gives hinv hp) hpos (Nat.le_refl _)
      (by omega)).mono fun r hr => ⟨Nat.lt_of_lt_of_le (Nat.lt_succ_self _) hr.1, hr.2⟩

theorem nestedStep_gives {s : Nesting} (hlo : lo ≤ pos) :
    Gives False (Forward chars.length (fun p _ => lo ≤ p) (From chars lo) pos)
      (nestedStep T chars pos s) := by
  unfold nestedStep
  split
  · exact gives_fail _
  case h_2 c hc =>
    have hlt := lt_length hc
    have hon : ∀ s' : Nesting, Gives False (Forward chars.length (fun p _ => lo ≤ p)
        (From chars lo) pos) (pure (.on (pos+1) s') :
          Scan LexError (Move Nesting ((List ℕ × Option ℕ) × ℕ))) :=
      fun s' => gives_pure ⟨Nat.lt_succ_self _, hlt, by omega⟩
    refine gives_ite (fun _ => gives_pure ⟨by simp only; omega, hlt⟩) fun _ => ?_
    refine gives_ite (fun _ => hon _) fun _ => ?_
    refine gives_ite (fun _ => hon _) fun _ => ?_
    refine gives_ite (fun _ => hon _) fun _ => ?_
    refine gives_ite (fun _ => hon _) fun _ => ?_
    refine gives_ite (fun _ => ?_) fun _ => ?_
    · refine (consumeStringLiteral_gives hlt).bind fun r hr => ?_
      exact gives_pure ⟨hr.1, hr.2, by have := hr.1; omega⟩
    refine gives_ite (fun _ => ?_) fun _ => hon _
    refine conversionAt_gives.bind fun conversion _ => ?_
    refine gives_ite (fun _ => gives_fail _) fun hclose => ?_
    have hbehind : pos+2 < chars.length := lt_length (not_not.mp hclose)
    exact gives_pure ⟨by simp only; omega, hbehind⟩

theorem specStep_gives {s : Parts} (hbase : base ≤ lo) (hlo : lo ≤ pos) :
    Gives False (Forward chars.length (fun p _ => lo ≤ p) (From chars lo) pos)
      (specStep T chars base pos s) := by
  unfold specStep
  split
  · exact gives_fail _
  case h_2 c hc =>
    have hlt := lt_length hc
    split
    · exact gives_pure ⟨hlo, hlt.le⟩
    split
    · rw [countNewlines_ok (by omega) hlt.le]
      have hnested : Gives False (From chars (pos+1))
          (run (nestedStep T chars) (chars.length+2) (pos+1) ⟨[], 0, 0⟩) :=
        run_gives_sound (fun p s _ hinv => nestedStep_gives hinv) hlt (Nat.le_refl _) (by omega)
      refine hnested.bind fun r hr => ?_
      exact gives_pure ⟨hr.1, hr.2, by have := hr.1; omega⟩
    · exact gives_pure ⟨by omega, hlt, by omega⟩

theorem lexFormatSpec_gives (hbase : base ≤ pos) (hpos : pos ≤ chars.length) :
    Gives False (From chars pos) (lexFormatSpec T chars base pos) :=
  run_gives_sound (fun _ _ _ hinv => specStep_gives hbase hinv) hpos (Nat.le_refl _) (by omega)

theorem optionalSpec_gives (hbase : base ≤ pos) (hpos : pos ≤ chars.length) :
    Gives False (From chars pos) (optionalSpec T chars base pos) := by
  unfold optionalSpec
  split
  case isTrue hcolon =>
    have hlt := lt_length hcolon
    refine (lexFormatSpec_gives (by omega) hlt).bind fun r hr => ?_
    exact gives_pure ⟨by have := hr.1; simp only; omega, hr.2⟩
  case isFalse => exact gives_pure ⟨Nat.le_refl _, hpos⟩

theorem closeField_gives {inv : ℕ → Nesting → Prop} {p : ℕ} {exprSrc : List ℕ}
    {conversion : Option ℕ} {debugText : Option (List ℕ)} (hbase : base ≤ pos) (hlo : lo ≤ pos)
    (hpos : pos ≤ chars.length) :
    Gives False (Forward chars.length inv (From chars lo) p)
      (closeField T chars base pos exprSrc conversion debugText) := by
  refine (optionalSpec_gives hbase hpos).bind fun r hr => ?_
  split
  · exact gives_fail _
  case isFalse hclose =>
    have hlt := lt_length (not_not.mp hclose)
    exact gives_pure ⟨by have := hr.1; simp only; omega, hlt⟩

/-! ## Replacement fields -/

/-- A closing brace while a bracket is open and no brace is. -/
def Stray (chars : List ℕ) (pos : ℕ) (s : Nesting) : Prop :=
  chars[pos]? = some 0x7D ∧ s.braces = 0 ∧ 0 < s.parens

variable (T chars) in
/-- The field that begins at `start` comes to a stray brace. -/
def StrayBrace (base start : ℕ) : Prop :=
  ∃ pos s, Reaches (fieldStep T chars base) start ⟨[], 0, 0⟩ pos s ∧ Stray chars pos s

theorem fieldStep_gives {s : Nesting} (hbase : base ≤ lo) (hlo : lo ≤ pos) :
    Gives (Stray chars pos s) (Forward chars.length (fun p _ => lo ≤ p) (From chars lo) pos)
      (fieldStep T chars base pos s) := by
  unfold fieldStep
  split
  case h_1 hnone =>
    rintro ⟨hc, -⟩
    simp [hnone] at hc
  case h_2 c hc =>
    have hlt := lt_length hc
    have hstray : ∀ {r : Scan LexError (Move Nesting (Field × ℕ))}, c ≠ 0x7D →
        Gives False (Forward chars.length (fun p _ => lo ≤ p) (From chars lo) pos) r →
        Gives (Stray chars pos s)
          (Forward chars.length (fun p _ => lo ≤ p) (From chars lo) pos) r := by
      intro r hne hr
      refine hr.iff (iff_of_false id ?_)
      rintro ⟨hbrace, -⟩
      exact hne (Option.some.inj (hc.symm.trans hbrace))
    have hon : ∀ s' : Nesting, Gives False (Forward chars.length (fun p _ => lo ≤ p)
        (From chars lo) pos) (pure (.on (pos+1) s') :
          Scan LexError (Move Nesting (Field × ℕ))) :=
      fun s' => gives_pure ⟨Nat.lt_succ_self _, hlt, by omega⟩
    refine gives_ite (fun hclose => ?_) fun hopen => ?_
    · refine ⟨?_, by simp only; omega, hlt⟩
      rintro ⟨-, -, hparens⟩
      simp [Nesting.top] at hclose
      omega
    refine gives_ite (fun hbrace => hstray (by omega) (hon _)) fun _ => ?_
    refine gives_ite (fun hbrace => ?_) fun hbrace => ?_
    · subst hbrace
      by_cases hzero : s.braces = 0
      · rw [hzero]
        have hparens : s.parens ≠ 0 := by simpa [Nesting.top, hzero] using hopen
        exact ⟨hc, hzero, by omega⟩
      · rw [sub_of_le (by omega)]
        exact ⟨fun h => hzero h.2.1, Nat.lt_succ_self _, hlt, by omega⟩
    apply hstray hbrace
    refine gives_ite (fun _ => hon _) fun _ => ?_
    refine gives_ite (fun _ => hon _) fun _ => ?_
    refine gives_ite (fun _ => ?_) fun _ => ?_
    · have hle := le_spanEnd (fun c => c = 0x20 || c = 0x09) chars (pos+1)
      have hend := spanEnd_le (fun c => c = 0x20 || c = 0x09) chars (show pos+1 ≤ _ from hlt)
      refine (gives_slice hle hend).bind fun blanks _ => ?_
      refine gives_ite (fun _ => ?_) fun _ => closeField_gives (by omega) (by omega) hend
      refine conversionAt_gives.bind fun conversion hconv => ?_
      exact closeField_gives (by omega) (by omega) hconv
    refine gives_ite (fun _ => ?_) fun _ => ?_
    · refine conversionAt_gives.bind fun conversion hconv => ?_
      exact closeField_gives (by omega) (by omega) hconv
    refine gives_ite (fun _ => closeField_gives (by omega) hlo hlt.le) fun _ => ?_
    refine gives_ite (fun _ => ?_) fun _ => hon _
    refine (consumeStringLiteral_gives hlt).bind fun r hr => ?_
    exact gives_pure ⟨hr.1, hr.2, by have := hr.1; omega⟩

theorem lexFstringExpr_gives (hbase : base ≤ start) (hstart : start ≤ chars.length) :
    Gives (StrayBrace T chars base start) (From chars start) (lexFstringExpr T chars start base) :=
  run_gives (fun _ _ _ hinv => fieldStep_gives hbase hinv) hstart (Nat.le_refl _) (by omega)

theorem fieldColumns_gives {lineStartPos openIdx next : ℕ} (hopen : openIdx < next)
    (hnext : next ≤ chars.length) :
    Gives False (fun _ => True) (fieldColumns chars lineStartPos openIdx next) := by
  unfold fieldColumns
  split
  · dsimp only
    refine (gives_slice (by omega) (by omega)).bind fun field _ => ?_
    split
    · exact gives_pure trivial
    · refine (gives_sub (by assumption)).bind fun _ _ => ?_
      exact (gives_sub (by omega)).bind fun _ _ => gives_pure trivial
  · exact gives_pure trivial

/-! ## The body of an f-string -/

/-- A replacement field begins here. -/
def OpensField (chars : List ℕ) (quote pos : ℕ) : Prop :=
  chars[pos]? = some 0x7B ∧ quote ≠ 0x7B ∧ chars[pos+1]? ≠ some 0x7B

variable (T chars) in
/-- The f-string behind `start` has a field that comes to a stray brace. -/
def StrayField (start quote : ℕ) (raw : Bool) (lineStartPos : ℕ) : Prop :=
  ∃ pos s, Reaches (fstringStep T chars quote raw (fstringTriple chars start quote)
      (fstringContent chars start quote) lineStartPos) (fstringContent chars start quote) ⟨[], []⟩
      pos s ∧
    OpensField chars quote pos ∧ StrayBrace T chars (fstringContent chars start quote) (pos+1)

theorem fstringStep_gives {raw triple : Bool} {contentStart lineStartPos : ℕ} {s : Parts}
    (hpos : contentStart ≤ pos) :
    Gives (OpensField chars quote pos ∧ StrayBrace T chars contentStart (pos+1))
      (Forward chars.length (fun p _ => contentStart ≤ p) (From chars contentStart) pos)
      (fstringStep T chars quote raw triple contentStart lineStartPos pos s) := by
  unfold fstringStep
  split
  case h_1 hnone =>
    rintro ⟨⟨hc, -⟩, -⟩
    simp [hnone] at hc
  case h_2 c hc =>
    have hlt := lt_length hc
    have hno : ∀ {r : Scan LexError (Move Parts (List FStringPart × ℕ))},
        ¬OpensField chars quote pos →
        Gives False (Forward chars.length (fun p _ => contentStart ≤ p)
          (From chars contentStart) pos) r →
        Gives (OpensField chars quote pos ∧ StrayBrace T chars contentStart (pos+1))
          (Forward chars.length (fun p _ => contentStart ≤ p) (From chars contentStart) pos) r :=
      fun hfield hr => hr.iff (iff_of_false id fun h => hfield h.1)
    have hon : ∀ s' : Parts, Gives False (Forward chars.length (fun p _ => contentStart ≤ p)
        (From chars contentStart) pos) (pure (.on (pos+1) s') :
          Scan LexError (Move Parts (List FStringPart × ℕ))) :=
      fun s' => gives_pure ⟨Nat.lt_succ_self _, hlt, by omega⟩
    have hdoubled : ∀ {d : ℕ} (s' : Parts), chars[pos+1]? = some d →
        Gives False (Forward chars.length (fun p _ => contentStart ≤ p)
          (From chars contentStart) pos) (pure (.on (pos+2) s') :
            Scan LexError (Move Parts (List FStringPart × ℕ))) := by
      intro d s' hd
      have hbehind : pos+1 < chars.length := lt_length hd
      exact gives_pure ⟨by omega, hbehind, by omega⟩
    split
    case isTrue hq =>
      subst hq
      refine hno (fun h => h.2.1 (Option.some.inj (hc.symm.trans h.1))) ?_
      split
      · split
        case isTrue hclose => exact gives_pure ⟨by simp only; omega, tripleQuoted_le hclose⟩
        case isFalse => exact hon _
      · exact gives_pure ⟨by simp only; omega, hlt⟩
    case isFalse hq =>
    split
    case isTrue hbrace =>
      subst hbrace
      split
      case isTrue hdouble => exact hno (fun h => h.2.2 hdouble) (hdoubled _ hdouble)
      case isFalse hsingle =>
        have hfield : OpensField chars quote pos := ⟨hc, fun h => hq h.symm, hsingle⟩
        rw [countNewlines_ok hpos hlt.le]
        have hexpr := lexFstringExpr_gives (T := T) (Nat.le_succ_of_le hpos) hlt
        refine (hexpr.iff (and_iff_right hfield).symm).bind fun r hr => ?_
        refine (fieldColumns_gives hr.1 hr.2).bind fun cols _ => ?_
        exact gives_pure ⟨hr.1, hr.2, by have := hr.1; omega⟩
    case isFalse hbrace =>
    refine hno (fun h => hbrace (Option.some.inj (hc.symm.trans h.1))) ?_
    split
    · split
      case isTrue hdouble => exact hdoubled _ hdouble
      case isFalse => exact gives_fail _
    split
    · split
      · split
        case h_1 => exact gives_fail _
        case h_2 next hnext => exact hdoubled _ hnext
      · refine (lexEscapeAt_gives hlt (by omega)).bind fun r hr => ?_
        have hgo := hr.1
        exact gives_pure ⟨by omega, hr.2, by omega⟩
    · exact hon _

theorem lexFstring_gives {raw : Bool} {lineStartPos : ℕ} (hstart : start ≤ chars.length) :
    Gives (StrayField T chars start quote raw lineStartPos) (From chars start)
      (lexFstring T chars start quote raw lineStartPos) := by
  have hcontent : start ≤ fstringContent chars start quote ∧
      fstringContent chars start quote ≤ chars.length := by
    unfold fstringContent
    split
    case isTrue hopen =>
      simp only [fstringTriple, Bool.and_eq_true, decide_eq_true_eq] at hopen
      exact ⟨by omega, lt_length hopen.2⟩
    case isFalse => exact ⟨Nat.le_refl _, hstart⟩
  refine @Gives.bind _ _ _ _ (From chars start) _ _ _ ?_ fun r hr => gives_pure hr
  refine (run_gives (fun p s _ hinv => fstringStep_gives hinv) hcontent.2 (Nat.le_refl _)
    (by omega)).mono fun r hr => ⟨Nat.le_trans hcontent.1 hr.1, hr.2⟩

end fields

end Pyrust.LexerFields
