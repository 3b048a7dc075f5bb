import Pyrust.LexerTotality
import Pyrust.LoopRuns

/-!
# What a round of the lexer can do

A token that is read is none of those that stand for the lines. A round inside a
line and the head of a line each have four outcomes, and a round over the source
three.
-/

set_option autoImplicit false

namespace Pyrust.LexerRounds

open ScanLoop StringLiterals LexerTokens LexerLiterals LexerFields LexerMachine LexerTotality

/-! ## Tokens with characters of their own -/

section kinds
variable {F : Type} {T : Tables F} {chars : List ℕ}

/-- The tokens that stand for the lines and not for characters. -/
def structural : Token F → Bool
  | .newline | .indent | .dedent | .eof => true
  | _ => false

/-- A scan whose token has characters of its own. -/
def Real (x : Scan LexError (Token F × ℕ)) : Prop :=
  ∀ tok next, x = .ok (tok, next) → structural tok = false

theorem real_pure {tok : Token F} {next : ℕ} (h : structural tok = false) :
    Real (pure (tok, next)) := by
  rintro _ _ ⟨⟩
  exact h

theorem real_fail (e : LexError) : Real (fail e : Scan LexError (Token F × ℕ)) := by
  rintro _ _ ⟨⟩

theorem Real.bind {α : Type} {x : Scan LexError α} {f : α → Scan LexError (Token F × ℕ)}
    (h : ∀ a, Real (f a)) : Real (x >>= f) := by
  intro tok next hok
  cases x with
  | error e => cases hok
  | ok a => exact h a tok next hok

theorem real_ite {c : Prop} [Decidable c] {x y : Scan LexError (Token F × ℕ)} (hx : Real x)
    (hy : Real y) : Real (if c then x else y) := by
  split
  · exact hx
  · exact hy

theorem structural_intToken (v : ℕ) : structural (intToken v : Token F) = false := by
  unfold intToken
  split <;> rfl

theorem lexPrefixed_real {kind : String} {radix start : ℕ} {digit : ℕ → Bool} :
    Real (lexPrefixed kind radix digit chars start : Scan LexError (Token F × ℕ)) :=
  Real.bind fun _ => real_ite (real_fail _)
    (Real.bind fun _ => real_pure (structural_intToken _))

theorem finishFloat_real {start pos : ℕ} : Real (finishFloat T chars start pos) := by
  refine Real.bind fun raw => Real.bind fun _ => ?_
  dsimp only
  split
  · exact real_fail _
  · exact real_ite (real_pure rfl) (real_pure rfl)

theorem finishInt_real {start intEnd pos : ℕ} : Real (finishInt T chars start intEnd pos) := by
  refine Real.bind fun raw => Real.bind fun _ => Real.bind fun _ => ?_
  exact real_ite (real_pure rfl) (real_ite (real_fail _) (real_pure rfl))

theorem finishImaginary_real {start pos : ℕ} : Real (finishImaginary T chars start pos) := by
  refine Real.bind fun raw => Real.bind fun _ => ?_
  dsimp only
  split
  · exact real_fail _
  · exact real_pure rfl

theorem lexNumber_real {start : ℕ} : Real (lexNumber T chars start) := by
  refine real_ite lexPrefixed_real (real_ite lexPrefixed_real (real_ite lexPrefixed_real ?_))
  refine real_ite finishFloat_real (real_ite finishFloat_real ?_)
  exact real_ite finishImaginary_real finishInt_real

theorem keywords_real : ∀ k ∈ keywords F, structural k.2 = false := by
  intro k hk
  simp only [keywords, List.mem_cons, List.not_mem_nil, or_false] at hk
  rcases hk with rfl | rfl | rfl | rfl | rfl | rfl | rfl | rfl | rfl | rfl | rfl | rfl | rfl |
    rfl | rfl | rfl | rfl | rfl | rfl | rfl | rfl | rfl | rfl | rfl | rfl | rfl | rfl | rfl |
    rfl | rfl | rfl | rfl | rfl <;> rfl

theorem lexIdentOrKeyword_real {start : ℕ} : Real (lexIdentOrKeyword T chars start) := by
  refine Real.bind fun text => ?_
  split
  case h_1 k hk => exact real_pure (keywords_real k (List.mem_of_find?_eq_some hk))
  case h_2 => exact real_pure rfl

theorem lexStringAt_real {start : ℕ} {raw : Bool} : Real (lexStringAt T chars start raw) :=
  Real.bind fun _ => Real.bind fun _ => real_pure rfl

theorem lexBytesAt_real {start : ℕ} {raw : Bool} : Real (lexBytesAt F chars start raw) :=
  Real.bind fun _ => Real.bind fun _ => real_pure rfl

theorem lexFstring_real {start quote lineStartPos : ℕ} {raw : Bool} :
    Real (lexFstring T chars start quote raw lineStartPos) :=
  Real.bind fun _ => real_pure rfl

theorem wordAt_real {lineStartPos pos : ℕ} : Real (wordAt T chars lineStartPos pos) := by
  unfold wordAt
  split
  · exact Real.bind fun _ => lexFstring_real
  · exact lexBytesAt_real
  · exact lexStringAt_real
  · exact lexIdentOrKeyword_real

theorem operators_real : ∀ o ∈ operators F, structural o.2 = false := by
  intro o ho
  simp only [operators, List.mem_cons, List.not_mem_nil, or_false] at ho
  rcases ho with rfl | rfl | rfl | rfl | rfl | rfl | rfl | rfl | rfl | rfl | rfl | rfl | rfl |
    rfl | rfl | rfl | rfl | rfl | rfl | rfl | rfl | rfl | rfl | rfl | rfl | rfl | rfl | rfl |
    rfl | rfl | rfl | rfl | rfl | rfl | rfl | rfl | rfl | rfl | rfl | rfl | rfl | rfl | rfl |
    rfl | rfl | rfl | rfl <;> rfl

theorem emitted_token {x : Scan LexError (Token F × ℕ)} {tok : Token F} {next : ℕ} (hx : Real x)
    (h : emitted x = .ok (some tok, next)) : structural tok = false := by
  cases x with
  | error e => cases h
  | ok r =>
    cases h
    exact hx _ _ rfl

theorem tokenAt_real {lineStartPos pos c next : ℕ} {tok : Token F}
    (h : tokenAt T chars lineStartPos pos c = .ok (some tok, next)) : structural tok = false := by
  unfold tokenAt at h
  cases hop : lexOperator F chars pos with
  | none =>
    simp only [hop] at h
    split_ifs at h
    · cases h
    · cases h
    · exact emitted_token lexNumber_real h
    · exact emitted_token wordAt_real h
    · exact emitted_token lexStringAt_real h
    · exact emitted_token finishFloat_real h
    · cases h
    · cases h
    · exact emitted_token lexIdentOrKeyword_real h
    · cases h
  | some r =>
    obtain ⟨o, ho, rfl⟩ := Option.map_eq_some_iff.mp hop
    simp only [hop] at h
    split_ifs at h
    · cases h
    · cases h
    · exact emitted_token lexNumber_real h
    · exact emitted_token wordAt_real h
    · exact emitted_token lexStringAt_real h
    · exact emitted_token finishFloat_real h
    · cases h
      exact operators_real o (List.mem_of_find?_eq_some ho)

end kinds

/-! ## What a round can do -/

section rounds
variable {F : Type} {T : Tables F} {chars : List ℕ} {pos : ℕ}

/-- The state of a round, with its column. -/
def atColumn (pos : ℕ) (lex : LexState F) : LexState F :=
  { lex with curCol := (pos-lex.lineStartPos) % 2^32 }

theorem lineStep_cases {s : LineState F} {m : Move (LineState F) ((LexState F × ℕ) × ℕ)}
    (h : lineStep T chars pos s = .ok m) :
    chars[pos]? = none ∧ m = .stop ((if s.parenDepth = 0 ∧ s.lineContinued = false then
        (atColumn pos s.lex).emit .newline else atColumn pos s.lex, s.parenDepth),
          chars.length+1) ∨
      chars[pos]? = some 0x0A ∧ s.lineContinued = true ∧
        m = .on (spanEnd (fun c => c = 0x20 || c = 0x09) chars (pos+1))
          ⟨{ (atColumn pos s.lex).countLine with lineStartPos := pos+1 }, s.parenDepth, false⟩ ∨
      chars[pos]? = some 0x0A ∧ s.lineContinued = false ∧
        m = .stop (((if s.parenDepth = 0 then (atColumn pos s.lex).emit .newline
          else atColumn pos s.lex).countLine, s.parenDepth), pos+1) ∨
      ∃ c tok next lex, chars[pos]? = some c ∧ c ≠ 0x0A ∧
        tokenAt T chars s.lex.lineStartPos pos c = .ok (tok, next) ∧
        finishToken chars pos next tok (atColumn pos s.lex) = .ok lex ∧
        m = .on next ⟨lex, depthAfter s.parenDepth tok, s.lineContinued || c = 0x5C⟩ := by
  unfold lineStep at h
  dsimp only at h
  cases hc : chars[pos]? with
  | none =>
    rw [hc] at h
    cases h
    exact Or.inl ⟨rfl, rfl⟩
  | some c =>
    rw [hc] at h
    dsimp only at h
    split_ifs at h with hfeed hjoined hdepth
    · cases h
      exact Or.inr (Or.inl ⟨congrArg some hfeed, hjoined, rfl⟩)
    · cases h
      refine Or.inr (Or.inr (Or.inl ⟨congrArg some hfeed, by simpa using hjoined, ?_⟩))
      rw [if_pos hdepth]
      rfl
    · cases h
      refine Or.inr (Or.inr (Or.inl ⟨congrArg some hfeed, by simpa using hjoined, ?_⟩))
      rw [if_neg hdepth]
      rfl
    · obtain ⟨⟨tok, next⟩, htok, h⟩ := bind_ok h
      obtain ⟨lex, hfin, h⟩ := bind_ok h
      cases h
      exact Or.inr (Or.inr (Or.inr ⟨c, tok, next, lex, rfl, hfeed, htok, hfin, rfl⟩))

def contentAt (chars : List ℕ) (pos : ℕ) : ℕ := spanEnd (· = 0x20) chars pos

def feedAt (chars : List ℕ) (pos : ℕ) : ℕ := spanEnd (· ≠ 0x0A) chars (contentAt chars pos)

/-- Whether the line that begins here is blank or a comment. -/
def blankLine (chars : List ℕ) (pos : ℕ) : Scan LexError Bool := do
  let lineEnd ← lineEndAt chars (feedAt chars pos)
  let visible ← sliceOf chars (contentAt chars pos) lineEnd
  pure (blankOrComment visible)

/-- The state at the head of a line. -/
def atLine (pos : ℕ) (lex : LexState F) : LexState F := { lex with lineStartPos := pos }

/-- A blank line yields a `Newline` outside brackets. -/
def blankLex (pos depth : ℕ) (lex : LexState F) : LexState F :=
  if depth = 0 then (atLine pos lex).emit .newline else atLine pos lex

theorem lineHead_cases {s : SourceState F} {head : LineHead F}
    (h : lineHead chars pos s = .ok head) :
    (blankLine chars pos = .ok true ∧ feedAt chars pos < chars.length ∧
        head = .blank (feedAt chars pos+1) (blankLex pos s.parenDepth s.lex).countLine) ∨
      (blankLine chars pos = .ok true ∧ chars.length ≤ feedAt chars pos ∧
        head = .blank (chars.length+1) (blankLex pos s.parenDepth s.lex)) ∨
      (blankLine chars pos = .ok false ∧ s.parenDepth = 0 ∧ ∃ r,
        handleIndent (contentAt chars pos-pos) (atLine pos s.lex) s.indentStack = .ok r ∧
          head = .code (contentAt chars pos) r.1 r.2) ∨
      (blankLine chars pos = .ok false ∧ s.parenDepth ≠ 0 ∧
        head = .code (contentAt chars pos) (atLine pos s.lex) s.indentStack) := by
  unfold lineHead at h
  dsimp only at h
  obtain ⟨indent, hcount, h⟩ := bind_ok h
  have hcontent : pos+indent = contentAt chars pos := countIndentChars_eq (lift_ok hcount)
  have hindent : indent = contentAt chars pos-pos := by omega
  have hfeed : spanEnd (· ≠ 0x0A) chars (contentAt chars pos) = feedAt chars pos := rfl
  rw [hcontent, hfeed] at h
  obtain ⟨lineEnd, hend, h⟩ := bind_ok h
  obtain ⟨visible, hslice, h⟩ := bind_ok h
  have hblank : blankLine chars pos = .ok (blankOrComment visible) := by
    rw [blankLine, hend]
    change (sliceOf chars (contentAt chars pos) lineEnd >>= _) = _
    rw [hslice]
    rfl
  by_cases hvisible : blankOrComment visible = true
  · rw [hvisible] at hblank
    rw [if_pos hvisible] at h
    by_cases hlast : feedAt chars pos < chars.length
    · rw [if_pos hlast] at h
      cases h
      exact Or.inl ⟨hblank, hlast, rfl⟩
    · rw [if_neg hlast] at h
      cases h
      exact Or.inr (Or.inl ⟨hblank, Nat.le_of_not_lt hlast, rfl⟩)
  · rw [Bool.eq_false_of_not_eq_true hvisible] at hblank
    rw [if_neg hvisible] at h
    by_cases hdepth : s.parenDepth = 0
    · rw [if_pos hdepth, hindent] at h
      obtain ⟨r, hhandle, h⟩ := bind_ok h
      cases h
      exact Or.inr (Or.inr (Or.inl ⟨hblank, hdepth, r, hhandle, rfl⟩))
    · rw [if_neg hdepth] at h
      cases h
      exact Or.inr (Or.inr (Or.inr ⟨hblank, hdepth, rfl⟩))

theorem sourceStep_cases {s : SourceState F} {m : Move (SourceState F) (SourceState F)}
    (h : sourceStep T chars pos s = .ok m) :
    (chars.length < pos ∧ m = .stop s) ∨
      (pos ≤ chars.length ∧ ∃ next lex, lineHead chars pos s = .ok (.blank next lex) ∧
        m = .on next { s with lex }) ∨
      (pos ≤ chars.length ∧ ∃ content lex stack r,
        lineHead chars pos s = .ok (.code content lex stack) ∧
          lexLineTokens T chars content lex s.parenDepth = .ok r ∧
            m = .on r.2 ⟨r.1.1, stack, r.1.2⟩) := by
  unfold sourceStep at h
  by_cases hlast : chars.length < pos
  · rw [if_pos hlast] at h
    cases h
    exact Or.inl ⟨hlast, rfl⟩
  · rw [if_neg hlast] at h
    obtain ⟨head, hhead, h⟩ := bind_ok h
    cases head with
    | blank next lex =>
      cases h
      exact Or.inr (Or.inl ⟨Nat.le_of_not_lt hlast, next, lex, hhead, rfl⟩)
    | code content lex stack =>
      obtain ⟨r, hline, h⟩ := bind_ok h
      cases h
      exact Or.inr (Or.inr ⟨Nat.le_of_not_lt hlast, content, lex, stack, r, hhead, hline, rfl⟩)

end rounds

end Pyrust.LexerRounds
