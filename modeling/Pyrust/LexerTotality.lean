import Pyrust.LexerMachine

/-!
# The lexer ends

Every scanner goes forward and stays inside the text, so that every loop of the
lexer ends, no slice leaves the text and the indentation stack keeps its first
level. A counter falls below zero exactly when the lexer comes to a replacement
field with a stray closing brace.
-/

set_option autoImplicit false

namespace Pyrust.LexerTotality

open ScanLoop StringLiterals LexerTokens LexerLiterals LexerFields LexerMachine

section tokens
variable {F : Type} {T : Tables F} {chars : List ℕ} {pos lineStartPos c : ℕ}

/-- The number of characters before the quote. -/
def width : Prefixed → ℕ
  | .fstring k _ | .bytes k _ | .string k _ => k

theorem quoteAt_some (h : quoteAt chars pos) : ∃ q, chars[pos]? = some q := by
  rw [quoteAt, Option.any_eq_true] at h
  exact ⟨h.choose, h.choose_spec.1⟩

theorem literalPrefix_quote {p : Prefixed} (h : literalPrefix chars pos = some p) :
    ∃ q, chars[pos + width p]? = some q := by
  unfold literalPrefix at h
  split_ifs at h with h1 h2 h3 h4 h5 h6 h7 <;> cases h <;>
    simp only [Bool.and_eq_true] at * <;> apply quoteAt_some
  · exact h1.2
  · exact h2.2
  · exact h3.2
  · exact h4.2
  · exact h5.2
  · exact h6.2
  · exact h7.2

theorem letterAt_ascii {lower : ℕ} (h : letterAt chars pos lower) (hl : 0x61 ≤ lower)
    (hu : lower ≤ 0x7A) (hc : chars[pos]? = some c) : asciiLetter c := by
  simp only [letterAt, hc, Bool.or_eq_true, decide_eq_true_eq, Option.some.injEq] at h
  simp only [asciiLetter, Bool.or_eq_true, Bool.and_eq_true, decide_eq_true_eq]
  omega

theorem literalPrefix_letter {p : Prefixed} (h : literalPrefix chars pos = some p)
    (hc : chars[pos]? = some c) : asciiLetter c := by
  unfold literalPrefix at h
  have hletter : ∀ {lower : ℕ}, 0x61 ≤ lower → lower ≤ 0x7A → letterAt chars pos lower →
      asciiLetter c := fun hl hu h => letterAt_ascii h hl hu hc
  split_ifs at h with h1 h2 h3 h4 h5 h6 h7 <;> simp only [Bool.and_eq_true, Bool.or_eq_true] at *
  · rcases h1.1 with h | h
    · exact hletter (by omega) (by omega) h.1
    · exact hletter (by omega) (by omega) h.1
  · exact hletter (by omega) (by omega) h2.1
  · exact hletter (by omega) (by omega) h3.1
  · exact hletter (by omega) (by omega) h4.1.1
  · exact hletter (by omega) (by omega) h5.1
  · exact hletter (by omega) (by omega) h6.1.1
  · exact hletter (by omega) (by omega) h7.1

variable (T chars) in
/-- The token is an f-string with a field that comes to a stray brace. -/
def StrayToken (lineStartPos pos : ℕ) : Prop :=
  ∃ k raw quote, literalPrefix chars pos = some (.fstring k raw) ∧
    chars[pos+k]? = some quote ∧ StrayField T chars (pos+k+1) quote raw lineStartPos

theorem StrayToken.letter (h : StrayToken T chars lineStartPos pos) (hc : chars[pos]? = some c) :
    asciiLetter c := by
  obtain ⟨k, raw, quote, hp, -, -⟩ := h
  exact literalPrefix_letter hp hc

theorem wordAt_gives (hc : chars[pos]? = some c) (hword : asciiLetter c || c = 0x5F) :
    Gives (StrayToken T chars lineStartPos pos) (Within chars pos)
      (wordAt T chars lineStartPos pos) := by
  have hback : ∀ {k : ℕ} {r : Token F × ℕ}, Within chars (pos+k) r → Within chars pos r :=
    fun h => ⟨Nat.lt_of_le_of_lt (Nat.le_add_right _ _) h.1, h.2⟩
  have hno : ∀ {r : Scan LexError (Token F × ℕ)},
      (∀ k raw, literalPrefix chars pos ≠ some (.fstring k raw)) →
      Gives False (Within chars pos) r → Gives (StrayToken T chars lineStartPos pos)
        (Within chars pos) r := by
    intro r hne hr
    refine hr.iff (iff_of_false id ?_)
    rintro ⟨k, raw, quote, hp, -, -⟩
    exact hne k raw hp
  unfold wordAt
  cases hp : literalPrefix chars pos with
  | none =>
    refine hno (by simp [hp]) (lexIdentOrKeyword_gives hc ?_)
    simp only [Bool.or_eq_true, decide_eq_true_eq] at hword
    rcases hword with hl | rfl
    · have hascii : c < 0x80 := by
        simp only [asciiLetter, Bool.or_eq_true, Bool.and_eq_true, decide_eq_true_eq] at hl
        omega
      simp [isNameChar, isAlphabetic, hascii, hl]
    · simp [isNameChar]
  | some p =>
    obtain ⟨q, hq⟩ := literalPrefix_quote hp
    cases p with
    | fstring k raw =>
      have hq : chars[pos+k]? = some q := hq
      dsimp only
      rw [index_of_some hq]
      have hbad : StrayField T chars (pos+k+1) q raw lineStartPos ↔
          StrayToken T chars lineStartPos pos := by
        refine ⟨fun h => ⟨k, raw, q, hp, hq, h⟩, ?_⟩
        rintro ⟨k', raw', quote, hp', hq', h⟩
        cases hp.symm.trans hp'
        cases hq.symm.trans hq'
        exact h
      exact ((lexFstring_gives (lt_length hq)).iff hbad).mono fun r hr =>
        ⟨Nat.lt_of_lt_of_le (by omega) hr.1, hr.2⟩
    | bytes k raw => exact hno (by simp [hp]) ((lexBytesAt_gives hq).mono fun r hr => hback hr)
    | string k raw => exact hno (by simp [hp]) ((lexStringAt_gives hq).mono fun r hr => hback hr)

theorem operators_nonempty : ∀ o ∈ operators F, 0 < o.1.length := by
  simp [operators]

theorem lexOperator_within {r : Token F × ℕ} (h : lexOperator F chars pos = some r) :
    Within chars pos r := by
  obtain ⟨o, ho, rfl⟩ := Option.map_eq_some_iff.mp h
  have hlen := operators_nonempty o (List.mem_of_find?_eq_some ho)
  have hpre := List.find?_some ho
  have hle := (List.isPrefixOf_iff_prefix.mp hpre).length_le
  rw [List.length_map, List.length_drop] at hle
  exact ⟨by simp only; omega, by simp only; omega⟩

theorem emitted_gives {bad : Prop} {x : Scan LexError (Token F × ℕ)}
    (h : Gives bad (Within chars pos) x) : Gives bad (Within chars pos) (emitted x) :=
  h.bind fun _ hr => gives_pure hr

theorem tokenAt_gives (hc : chars[pos]? = some c) :
    Gives (StrayToken T chars lineStartPos pos) (Within chars pos)
      (tokenAt T chars lineStartPos pos c) := by
  have hlt := lt_length hc
  have hno : ∀ {r : Scan LexError (Option (Token F) × ℕ)}, asciiLetter c = false →
      Gives False (Within chars pos) r →
      Gives (StrayToken T chars lineStartPos pos) (Within chars pos) r :=
    fun hletter hr => hr.iff (iff_of_false id fun h => by simp [h.letter hc] at hletter)
  have hstep : Gives False (Within chars pos)
      (pure (none, pos+1) : Scan LexError (Option (Token F) × ℕ)) :=
    gives_pure ⟨Nat.lt_succ_self _, hlt⟩
  unfold tokenAt
  refine gives_ite (fun hblank => ?_) fun _ => ?_
  · refine hno ?_ hstep
    rcases hblank with rfl | rfl | rfl <;> rfl
  refine gives_ite (fun hhash => ?_) fun _ => ?_
  · subst hhash
    exact hno rfl (gives_pure ⟨lt_spanEnd hc rfl, spanEnd_le _ _ hlt.le⟩)
  refine gives_ite (fun hdigit => ?_) fun _ => ?_
  · refine hno ?_ (emitted_gives (lexNumber_gives hc hdigit))
    simp only [isDigit, Bool.and_eq_true, decide_eq_true_eq] at hdigit
    simp only [asciiLetter, Bool.or_eq_false_iff, Bool.and_eq_false_iff, decide_eq_false_iff_not]
    omega
  refine gives_ite (fun hword => emitted_gives (wordAt_gives hc hword)) fun hword => ?_
  refine hno (by simp at hword; exact hword.1) ?_
  refine gives_ite (fun _ => emitted_gives (lexStringAt_gives hc)) fun _ => ?_
  refine gives_ite (fun _ => emitted_gives (lexLeadingDotFloat_gives hc)) fun _ => ?_
  split
  case h_1 r hr => exact gives_pure (lexOperator_within hr)
  case h_2 =>
    refine gives_ite (fun _ => gives_fail _) fun _ => ?_
    refine gives_ite (fun _ => hstep) fun _ => ?_
    refine gives_ite (fun halpha => ?_) fun _ => gives_fail _
    exact emitted_gives (lexIdentOrKeyword_gives hc (by simp [isNameChar, halpha]))

end tokens

/-! ## Lines -/

section lines
variable {F : Type} {T : Tables F} {chars : List ℕ} {pos lo : ℕ}

theorem finishToken_gives {start : ℕ} {tok : Option (Token F)} {lex : LexState F}
    (hle : start ≤ pos) (hpos : pos ≤ chars.length) :
    Gives False (fun _ => True) (finishToken chars start pos tok lex) := by
  refine (gives_slice hle hpos).bind fun span _ => ?_
  exact (gives_slice hle hpos).bind fun _ _ => gives_pure trivial

variable (chars) in
/-- A position at which a line begins, or the one behind the source. -/
def LineStart (pos : ℕ) : Prop :=
  pos = 0 ∨ pos = chars.length+1 ∨ (pos ≤ chars.length ∧ chars[pos-1]? = some 0x0A)

theorem lineStart_behind (h : chars[pos]? = some 0x0A) : LineStart chars (pos+1) :=
  .inr (.inr ⟨lt_length h, h⟩)

theorem LineStart.le (h : LineStart chars pos) : pos ≤ chars.length+1 := by
  rcases h with h | h | h
  · omega
  · omega
  · exact Nat.le_succ_of_le h.1

theorem lineStep_gives {s : LineState F} (hlo : lo ≤ pos) (hpos : pos ≤ chars.length) :
    Gives (StrayToken T chars s.lex.lineStartPos pos)
      (Forward chars.length (fun p _ => lo ≤ p) (fun r => lo < r.2 ∧ LineStart chars r.2) pos)
      (lineStep T chars pos s) := by
  unfold lineStep
  dsimp only
  split
  case h_1 hnone =>
    refine ⟨?_, by simp only; omega, .inr (.inl rfl)⟩
    rintro ⟨k, raw, quote, hp, -, -⟩
    simp [literalPrefix, letterAt, hnone] at hp
  case h_2 c hc =>
    have hlt := lt_length hc
    split
    case isTrue hfeed =>
      subst hfeed
      have hbad : ¬StrayToken T chars s.lex.lineStartPos pos := fun h => by
        have := h.letter hc
        simp [asciiLetter] at this
      split
      · have hbehind : pos+1 ≤ chars.length := hlt
        have hle := le_spanEnd (fun c => c = 0x20 || c = 0x09) chars (pos+1)
        exact ⟨hbad, by omega, spanEnd_le _ _ hbehind, by omega⟩
      · exact ⟨hbad, Nat.lt_succ_of_le hlo, lineStart_behind hc⟩
    case isFalse =>
      refine (tokenAt_gives hc).bind fun r hr => ?_
      refine (finishToken_gives hr.1.le hr.2).bind fun lex _ => ?_
      exact gives_pure ⟨hr.1, hr.2, by have := hr.1; omega⟩

variable (T chars) in
/-- The tokens of the line from `start` on come to a stray brace. -/
def StrayLine (start : ℕ) (lex : LexState F) (parenDepth : ℕ) : Prop :=
  ∃ pos s, Reaches (lineStep T chars) start ⟨lex, parenDepth, false⟩ pos s ∧
    StrayToken T chars s.lex.lineStartPos pos

theorem lexLineTokens_gives {start parenDepth : ℕ} {lex : LexState F}
    (hstart : start ≤ chars.length) :
    Gives (StrayLine T chars start lex parenDepth) (fun r => start < r.2 ∧ LineStart chars r.2)
      (lexLineTokens T chars start lex parenDepth) :=
  run_gives (fun _ _ hp hinv => lineStep_gives hinv hp) hstart (Nat.le_refl _) (by omega)

/-! ## Indentation -/

/-- The outermost level is the first column. -/
def Based (stack : List ℕ) : Prop := stack.getLast? = some 0

theorem Based.head {stack : List ℕ} (h : Based stack) : ∃ top, stack[0]? = some top := by
  cases stack with
  | nil => cases h
  | cons top rest => exact ⟨top, rfl⟩

theorem Based.push {stack : List ℕ} (h : Based stack) (level : ℕ) : Based (level::stack) := by
  cases stack with
  | nil => cases h
  | cons top rest => exact h

theorem dedentTo_gives {indent : ℕ} {stack : List ℕ} (h : Based stack) (lex : LexState F) :
    Gives False (fun r => Based r.2) (dedentTo indent lex stack) := by
  induction stack generalizing lex with
  | nil => cases h
  | cons top rest ih =>
    rw [dedentTo]
    split
    case isTrue hlt =>
      cases rest with
      | nil =>
        obtain rfl : top = 0 := Option.some.inj h
        omega
      | cons next rest => exact ih h _
    case isFalse => exact gives_ok h

theorem handleIndent_gives {indent : ℕ} {stack : List ℕ} (h : Based stack) (lex : LexState F) :
    Gives False (fun r => Based r.2) (handleIndent indent lex stack) := by
  obtain ⟨top, htop⟩ := h.head
  rw [handleIndent, index_of_some htop]
  show Gives False _ (if top < indent then _ else _)
  split
  · split
    · exact gives_fail _
    · exact gives_pure (h.push indent)
  · refine (dedentTo_gives h lex).bind fun r hr => ?_
    obtain ⟨after, hafter⟩ := hr.head
    rw [index_of_some hafter]
    show Gives False _ (if indent ≠ after then _ else _)
    split
    · exact gives_fail _
    · exact gives_pure hr

/-! ## The source -/

theorem countIndentChars_eq {indent : ℕ} (h : countIndentChars chars pos = .ok indent) :
    pos + indent = spanEnd (· = 0x20) chars pos := by
  unfold countIndentChars at h
  dsimp only at h
  split at h
  · cases h
  · cases h
    have := le_spanEnd (· = 0x20) chars pos
    omega

/-- A carriage return in front of the content would have to end the line before. -/
theorem lineEndAt_gives {content : ℕ} (hstart : LineStart chars pos) (hpos : pos ≤ chars.length)
    (hcontent : content = spanEnd (· = 0x20) chars pos) :
    Gives False (fun lineEnd => content ≤ lineEnd ∧ lineEnd ≤ chars.length)
      (lineEndAt chars (spanEnd (· ≠ 0x0A) chars content)) := by
  have hle := spanEnd_le (· = 0x20) chars hpos
  rw [← hcontent] at hle
  have heol := spanEnd_le (· ≠ 0x0A) chars hle
  have hfrom := le_spanEnd (· ≠ 0x0A) chars content
  unfold lineEndAt
  split
  case isTrue hpositive =>
    obtain ⟨last, hlast⟩ : ∃ last, chars[spanEnd (· ≠ 0x0A) chars content - 1]? = some last :=
      ⟨_, List.getElem?_eq_getElem (by omega)⟩
    rw [index_of_some hlast]
    refine gives_pure ?_
    split
    case isTrue hreturn =>
      subst hreturn
      refine ⟨?_, by omega⟩
      by_contra hno
      have hsame : spanEnd (· ≠ 0x0A) chars content = content := by omega
      rw [hsame] at hlast hpositive
      rcases Nat.lt_or_eq_of_le (le_spanEnd (· = 0x20) chars pos) with hlt | heq
      · have hin : content-1 < spanEnd (· = 0x20) chars pos := by omega
        have hspace := getElem?_span (by omega : pos ≤ content-1) hin hlast
        simp at hspace
      · obtain rfl : content = pos := hcontent.trans heq.symm
        rcases hstart with h | h | h
        · omega
        · omega
        · simp [h.2] at hlast
    case isFalse => exact ⟨hfrom, heol⟩
  case isFalse => exact gives_pure ⟨hfrom, heol⟩

/-- What the head of a line leaves. -/
def HeadDone (chars : List ℕ) (pos : ℕ) : LineHead F → Prop
  | .blank next _ => pos < next ∧ LineStart chars next
  | .code contentStart _ stack => pos ≤ contentStart ∧ contentStart ≤ chars.length ∧ Based stack

theorem lineHead_gives {s : SourceState F} (hstart : LineStart chars pos)
    (hpos : pos ≤ chars.length) (hbased : Based s.indentStack) :
    Gives False (HeadDone chars pos) (lineHead chars pos s) := by
  unfold lineHead
  dsimp only
  refine Gives.bind (gives_lift fun indent h => countIndentChars_eq h) fun indent hindent => ?_
  have hle := le_spanEnd (· = 0x20) chars pos
  have hcontent := spanEnd_le (· = 0x20) chars hpos
  have hfrom := le_spanEnd (· ≠ 0x0A) chars (pos+indent)
  refine (lineEndAt_gives hstart hpos hindent).bind fun lineEnd hend => ?_
  refine (gives_slice hend.1 hend.2).bind fun visible _ => ?_
  split
  · split
    case isTrue hlt =>
      obtain ⟨c, hc⟩ : ∃ c, chars[spanEnd (· ≠ 0x0A) chars (pos+indent)]? = some c :=
        ⟨_, List.getElem?_eq_getElem hlt⟩
      have hfeed := getElem?_spanEnd hc
      obtain rfl : c = 0x0A := by simpa using hfeed
      exact gives_pure ⟨by omega, lineStart_behind hc⟩
    case isFalse => exact gives_pure ⟨by omega, .inr (.inl rfl)⟩
  · split
    · refine (handleIndent_gives hbased _).bind fun r hr => ?_
      exact gives_pure ⟨by omega, by omega, hr⟩
    · exact gives_pure ⟨by omega, by omega, hbased⟩

/-- The tokens of the line that begins here come to a stray brace. -/
def StrayHead (T : Tables F) (chars : List ℕ) (parenDepth : ℕ) : LineHead F → Prop
  | .blank _ _ => False
  | .code contentStart lex _ => StrayLine T chars contentStart lex parenDepth

theorem sourceStep_gives {s : SourceState F} (hstart : LineStart chars pos)
    (hbased : Based s.indentStack) :
    Gives (pos ≤ chars.length ∧ ∃ head, lineHead chars pos s = .ok head ∧
        StrayHead T chars s.parenDepth head)
      (Forward (chars.length+1) (fun p s => LineStart chars p ∧ Based s.indentStack)
        (fun _ => True) pos) (sourceStep T chars pos s) := by
  unfold sourceStep
  split
  case isTrue hlt =>
    refine ⟨?_, trivial⟩
    rintro ⟨hle, -⟩
    omega
  case isFalse hge =>
    have hpos : pos ≤ chars.length := Nat.le_of_not_lt hge
    refine Gives.iff ?_ (and_iff_right hpos).symm
    refine (lineHead_gives hstart hpos hbased).bind_bad fun head hhead => ?_
    cases head with
    | blank next lex => exact gives_pure ⟨hhead.1, hhead.2.le, hhead.2, hbased⟩
    | code contentStart lex stack =>
      refine (lexLineTokens_gives hhead.2.1).bind fun r hr => ?_
      exact gives_pure ⟨Nat.lt_of_le_of_lt hhead.1 hr.1, hr.2.le, hr.2, hhead.2.2⟩

end lines

section total
variable {F : Type} (T : Tables F) (chars : List ℕ)

/-- The lexer comes to a line whose tokens begin at `start`. -/
def LineAt (start : ℕ) (lex : LexState F) (parenDepth : ℕ) : Prop :=
  ∃ pos s stack, Reaches (sourceStep T chars) 0 (SourceState.start F) pos s ∧
    pos ≤ chars.length ∧ lineHead chars pos s = .ok (.code start lex stack) ∧
    s.parenDepth = parenDepth

/-- The lexer comes to an f-string; `start` is behind its opening quote. -/
def FStringAt (start quote : ℕ) (raw : Bool) (lineStartPos : ℕ) : Prop :=
  ∃ content lex parenDepth pos s k, LineAt T chars content lex parenDepth ∧
    Reaches (lineStep T chars) content ⟨lex, parenDepth, false⟩ pos s ∧
    literalPrefix chars pos = some (.fstring k raw) ∧ chars[pos+k]? = some quote ∧
    pos+k+1 = start ∧ s.lex.lineStartPos = lineStartPos

/-- The lexer comes to a replacement field; `start` is behind its brace, and `base` the content of
its f-string. -/
def FieldAt (base start : ℕ) : Prop :=
  ∃ fstart quote raw lineStartPos pos s, FStringAt T chars fstart quote raw lineStartPos ∧
    Reaches (fstringStep T chars quote raw (fstringTriple chars fstart quote)
      (fstringContent chars fstart quote) lineStartPos) (fstringContent chars fstart quote) ⟨[], []⟩
      pos s ∧
    OpensField chars quote pos ∧ fstringContent chars fstart quote = base ∧ pos+1 = start

theorem field_stray_iff : (∃ pos s, Reaches (sourceStep T chars) 0 (SourceState.start F) pos s ∧
      pos ≤ chars.length ∧ ∃ head, lineHead chars pos s = .ok head ∧
        StrayHead T chars s.parenDepth head) ↔
    ∃ base start, FieldAt T chars base start ∧ StrayBrace T chars base start := by
  constructor
  · rintro ⟨pos, s, hr, hpos, head, hhead, hstray⟩
    cases head with
    | blank _ _ => cases hstray
    | code content lex stack =>
      obtain ⟨p, s₁, hline, k, raw, quote, hp, hquote, p₁, s₂, hbody, hopen, hbrace⟩ := hstray
      exact ⟨_, _, ⟨_, _, _, _, _, _, ⟨_, _, _, _, _, _, ⟨_, _, _, hr, hpos, hhead, rfl⟩, hline, hp,
        hquote, rfl, rfl⟩, hbody, hopen, rfl, rfl⟩, hbrace⟩
  · rintro ⟨_, _, ⟨_, _, _, _, _, _, ⟨_, _, _, _, _, _, ⟨pos, s, _, hr, hpos, hhead, rfl⟩, hline, hp,
      hquote, rfl, rfl⟩, hbody, hopen, rfl, rfl⟩, hbrace⟩
    exact ⟨pos, s, hr, hpos, _, hhead, _, _, hline, _, _, _, hp, hquote, _, _, hbody, hopen, hbrace⟩

theorem lexSource_gives :
    Gives (∃ base start, FieldAt T chars base start ∧ StrayBrace T chars base start)
      (fun _ => True) (lexSource T chars) := by
  refine Gives.iff ?_ (field_stray_iff T chars)
  refine @Gives.bind _ _ _ _ (fun _ => True) _ _ _ ?_ fun s _ => gives_pure trivial
  exact run_gives (fun _ _ _ hinv => sourceStep_gives hinv.1 hinv.2) (Nat.zero_le _)
    ⟨.inl rfl, rfl⟩ (by omega)

/-- For every source text the lexer ends, no loop of it stands still and no slice leaves the text;
it returns tokens or a lexing error, exactly when no replacement field it comes to has a closing
brace that stands where a bracket of the field is open and no brace is. -/
theorem lexer_total_iff :
    lexSource T chars ≠ .error .spin ∧ lexSource T chars ≠ .error .range ∧
      (((∃ tokens, lexSource T chars = .ok tokens) ∨
          ∃ e, lexSource T chars = .error (.error e)) ↔
        ∀ base start, FieldAt T chars base start → ¬StrayBrace T chars base start) := by
  have hgives := lexSource_gives T chars
  have hnone : (∀ base start, FieldAt T chars base start → ¬StrayBrace T chars base start) ↔
      ¬∃ base start, FieldAt T chars base start ∧ StrayBrace T chars base start := by
    simp
  rw [hnone]
  match heq : lexSource T chars with
  | .ok tokens =>
    rw [heq] at hgives
    exact ⟨nofun, nofun, iff_of_true (.inl ⟨tokens, rfl⟩) hgives.1⟩
  | .error (.error e) =>
    rw [heq] at hgives
    exact ⟨nofun, nofun, iff_of_true (.inr ⟨e, rfl⟩) hgives⟩
  | .error .underflow =>
    rw [heq] at hgives
    refine ⟨nofun, nofun, iff_of_false ?_ (not_not.mpr hgives)⟩
    rintro (⟨tokens, h⟩ | ⟨e, h⟩)
    · cases h
    · cases h
  | .error .range | .error .spin =>
    rw [heq] at hgives
    exact hgives.elim

end total

/-- Tables that know no name, no letter outside ASCII and no float. -/
def bareTables : Tables ℕ := ⟨fun _ => none, fun _ => false, fun _ => none, 4300⟩

/-- The source `f"{(}"`: the closing brace stands where a parenthesis is open. -/
def openParen : List ℕ := [0x66, 0x22, 0x7B, 0x28, 0x7D, 0x22]

theorem lexer_underflows : lexSource bareTables openParen = .error .underflow := by
  rfl

/-- Closed in its own text the parenthesis does no harm. -/
example : (lexSource bareTables [0x66, 0x22, 0x7B, 0x28, 0x29, 0x7D, 0x22]).isOk := by
  rfl

end Pyrust.LexerTotality
