import Mathlib.Data.List.ModifyLast
import Pyrust.LexerRounds
import Pyrust.TextLines

/-!
# A walk over the source

The places the lexer comes to, told by the text alone: where its lines begin,
which tokens are read from where to where, and whether a backslash has been
passed since the last line end. Wherever the lexer comes to, its lines, columns,
bracket depth and tokens are those the walk tells.
-/

set_option autoImplicit false

namespace Pyrust.LexerWalk

open ScanLoop StringLiterals LexerTokens LexerLiterals LexerFields LexerMachine LexerTotality
open LexerRounds TextLines

/-! ## The walk -/

/-- A token and the characters it is read from. -/
structure Extent (F : Type) where
  tok : Token F
  first : ℕ
  last : ℕ

/-- The bracket depth behind some tokens. -/
def depthOf {F : Type} (toks : List (Token F)) : ℕ :=
  toks.foldl (fun depth tok => depthAfter depth (some tok)) 0

/-- At the head of a line of source, or inside a logical line. -/
inductive Place where
  | head
  | inside

/-- The places a text is read at, with the tokens read so far; `passed` says that a backslash has
been passed since the last line end. -/
inductive Walk {F : Type} (T : Tables F) (chars : List ℕ) :
    Place → ℕ → List (Extent F) → Bool → Prop
  | start : Walk T chars .head 0 [] false
  | blank {pos : ℕ} {es : List (Extent F)} : Walk T chars .head pos es false →
      blankLine chars pos = .ok true → feedAt chars pos < chars.length →
      Walk T chars .head (feedAt chars pos+1) es false
  | blankEnd {pos : ℕ} {es : List (Extent F)} : Walk T chars .head pos es false →
      pos ≤ chars.length → blankLine chars pos = .ok true → chars.length ≤ feedAt chars pos →
      Walk T chars .head (chars.length+1) es false
  | code {pos : ℕ} {es : List (Extent F)} : Walk T chars .head pos es false →
      pos ≤ chars.length → blankLine chars pos = .ok false →
      Walk T chars .inside (contentAt chars pos) es false
  | skip {pos c next : ℕ} {es : List (Extent F)} {passed : Bool} :
      Walk T chars .inside pos es passed → chars[pos]? = some c → c ≠ 0x0A →
      tokenAt T chars (lineStart chars pos) pos c = .ok (none, next) →
      Walk T chars .inside next es (passed || c = 0x5C)
  | token {pos c next : ℕ} {tok : Token F} {es : List (Extent F)} {passed : Bool} :
      Walk T chars .inside pos es passed → chars[pos]? = some c → c ≠ 0x0A →
      tokenAt T chars (lineStart chars pos) pos c = .ok (some tok, next) →
      Walk T chars .inside next (es ++ [⟨tok, pos, next⟩]) (passed || c = 0x5C)
  | join {pos : ℕ} {es : List (Extent F)} : Walk T chars .inside pos es true →
      chars[pos]? = some 0x0A →
      Walk T chars .inside (spanEnd (fun c => c = 0x20 || c = 0x09) chars (pos+1)) es false
  | feed {pos : ℕ} {es : List (Extent F)} : Walk T chars .inside pos es false →
      chars[pos]? = some 0x0A → Walk T chars .head (pos+1) es false
  | done {pos : ℕ} {es : List (Extent F)} {passed : Bool} : Walk T chars .inside pos es passed →
      chars[pos]? = none → Walk T chars .head (chars.length+1) es false

/-- The token as it is to be spelled out, its line and columns counted by `wrap`. -/
def spell {F : Type} (wrap : ℕ → ℕ) (chars : List ℕ) (e : Extent F) : Spelled F where
  tok := e.tok
  line := wrap (lineNumber chars e.first)
  col := wrap (column chars e.first)
  colEnd := if 0x0A ∈ (chars.take e.last).drop e.first then 0
    else wrap (e.last-lineStart chars e.first)

/-- The tokens with characters of their own. -/
def realTokens {F : Type} (toks : List (Spelled F)) : List (Spelled F) :=
  toks.filter fun t => !structural t.tok

/-! ## The lexer follows the walk -/

section follows
variable {F : Type} {T : Tables F} {chars : List ℕ} {pos : ℕ}

theorem fold_lines {first : ℕ} (span : List ℕ) (k : ℕ) (st : LexState F)
    (hspan : span <+: chars.drop (first+k))
    (hline : st.line = lineNumber chars (first+k) % 2^32)
    (hstart : st.lineStartPos = lineStart chars (first+k)) :
    ∀ st' : LexState F, st' = (span.zipIdx k).foldl (fun st x => if x.1 = 0x0A then
        { st.countLine with lineStartPos := first+x.2+1 } else st) st →
      st'.line = lineNumber chars (first+k+span.length) % 2^32 ∧
        st'.lineStartPos = lineStart chars (first+k+span.length) ∧ st'.tokens = st.tokens := by
  induction span generalizing k st with
  | nil =>
    rintro _ rfl
    exact ⟨hline, hstart, rfl⟩
  | cons c span ih =>
    intro st' hst'
    obtain ⟨rest, hrest⟩ := hspan
    have hc : chars[first+k]? = some c := by
      rw [← List.head?_drop, ← hrest]
      rfl
    have hspan' : span <+: chars.drop (first+(k+1)) := by
      refine ⟨rest, ?_⟩
      rw [← Nat.add_assoc, ← List.tail_drop, ← hrest]
      rfl
    rw [List.zipIdx_cons, List.foldl_cons] at hst'
    have hlen : first+k+(c::span).length = first+(k+1)+span.length := by
      rw [List.length_cons]
      omega
    rw [hlen]
    by_cases hfeed : c = 0x0A
    · subst hfeed
      rw [if_pos rfl] at hst'
      refine ih (k+1) { st.countLine with lineStartPos := first+k+1 } hspan' ?_ ?_ st' hst'
      · rw [← Nat.add_assoc, lineNumber_feed hc]
        simp only [LexState.countLine, hline]
        omega
      · rw [← Nat.add_assoc, lineStart_feed hc]
    · have hne : chars[first+k]? ≠ some 0x0A := by
        rw [hc]
        exact fun heq => hfeed (Option.some.inj heq)
      rw [if_neg hfeed] at hst'
      refine ih (k+1) st hspan' ?_ ?_ st' hst'
      · rw [← Nat.add_assoc, lineNumber_other hne, hline]
      · rw [← Nat.add_assoc, lineStart_other hne, hstart]

theorem advanceLineOver_ok {first last : ℕ} {lex lex' : LexState F} (hle : first ≤ last)
    (hlast : last ≤ chars.length) (hline : lex.line = lineNumber chars first % 2^32)
    (hstart : lex.lineStartPos = lineStart chars first)
    (h : advanceLineOver chars first last lex = .ok lex') :
    lex'.line = lineNumber chars last % 2^32 ∧ lex'.lineStartPos = lineStart chars last ∧
      lex'.tokens = lex.tokens := by
  rw [advanceLineOver, sliceOf_of_le hle hlast] at h
  have hspan : (chars.take last).drop first <+: chars.drop (first+0) := by
    rw [Nat.add_zero, List.drop_take]
    exact List.take_prefix _ _
  have hlen : first+0+((chars.take last).drop first).length = last := by
    rw [List.length_drop, List.length_take]
    omega
  have hfold := fold_lines _ 0 lex hspan hline hstart lex' (Except.ok.inj h).symm
  rwa [hlen] at hfold

/-- What a token that is read does to the state. -/
theorem finishToken_ok {next : ℕ} {tok : Option (Token F)} {lex lex' : LexState F}
    (hle : pos ≤ next) (hnext : next ≤ chars.length)
    (hline : lex.line = lineNumber chars pos % 2^32)
    (hstart : lex.lineStartPos = lineStart chars pos)
    (h : finishToken chars pos next tok (atColumn pos lex) = .ok lex') :
    lex'.line = lineNumber chars next % 2^32 ∧ lex'.lineStartPos = lineStart chars next ∧
      lex'.tokens = lex.tokens ++
        (tok.map fun tok => spell (· % 2^32) chars ⟨tok, pos, next⟩).toList := by
  obtain ⟨span, hspan, h⟩ := bind_ok h
  rw [sliceOf_of_le hle hnext] at hspan
  obtain rfl := Except.ok.inj hspan
  cases tok with
  | none =>
    obtain ⟨hline', hstart', htokens⟩ := advanceLineOver_ok hle hnext (by exact hline)
      (by exact hstart) h
    refine ⟨hline', hstart', ?_⟩
    rw [htokens]
    exact (List.append_nil _).symm
  | some tok =>
    dsimp only at h
    split at h
    case isTrue hfeed =>
      obtain ⟨hline', hstart', htokens⟩ := advanceLineOver_ok hle hnext (by exact hline)
        (by exact hstart) h
      refine ⟨hline', hstart', ?_⟩
      rw [htokens]
      simp [LexState.emit, atColumn, spell, hfeed, hline, hstart, column]
    case isFalse hfeed =>
      obtain ⟨hline', hstart', htokens⟩ := advanceLineOver_ok hle hnext (by exact hline)
        (by exact hstart) h
      refine ⟨hline', hstart', ?_⟩
      rw [htokens]
      simp [LexState.emit, LexState.fillEnd, List.modifyLast_concat, atColumn, spell, hfeed, hline,
        hstart, column]

theorem realTokens_append (xs ys : List (Spelled F)) :
    realTokens (xs ++ ys) = realTokens xs ++ realTokens ys := List.filter_append _ _

theorem realTokens_emit {lex : LexState F} {tok : Token F} (h : structural tok = true) :
    realTokens (lex.emit tok).tokens = realTokens lex.tokens := by
  rw [LexState.emit, realTokens_append]
  simp [realTokens, h]

/-- What the walk tells of the state of the lexer. -/
structure Agrees (T : Tables F) (chars : List ℕ) (place : Place) (pos : ℕ) (lex : LexState F)
    (depth : ℕ) (passed : Bool) (es : List (Extent F)) : Prop where
  walk : Walk T chars place pos es passed
  depth : depth = depthOf (es.map Extent.tok)
  line : pos ≤ chars.length → lex.line = lineNumber chars pos % 2^32
  tokens : realTokens lex.tokens = es.map (spell (· % 2^32) chars)

/-- Inside a logical line the state also knows where the line begins. -/
structure Inside (T : Tables F) (chars : List ℕ) (pos : ℕ) (s : LineState F)
    (es : List (Extent F)) : Prop where
  agrees : Agrees T chars .inside pos s.lex s.parenDepth s.lineContinued es
  start : s.lex.lineStartPos = lineStart chars pos
  le : pos ≤ chars.length

theorem depthOf_snoc (toks : List (Token F)) (tok : Token F) :
    depthOf (toks ++ [tok]) = depthAfter (depthOf toks) (some tok) := by
  rw [depthOf, List.foldl_append]
  rfl

theorem Inside.token {s : LineState F} {es : List (Extent F)} {c next : ℕ} {tok : Option (Token F)}
    {lex : LexState F} (h : Inside T chars pos s es) (hc : chars[pos]? = some c) (hne : c ≠ 0x0A)
    (htok : tokenAt T chars s.lex.lineStartPos pos c = .ok (tok, next))
    (hfin : finishToken chars pos next tok (atColumn pos s.lex) = .ok lex) :
    Inside T chars next ⟨lex, depthAfter s.parenDepth tok, s.lineContinued || c = 0x5C⟩
      (es ++ (tok.map fun tok => ⟨tok, pos, next⟩).toList) := by
  have hwithin := @tokenAt_gives _ T _ _ s.lex.lineStartPos _ hc
  rw [htok] at hwithin
  obtain ⟨-, hlt, hle⟩ := hwithin
  obtain ⟨hline, hstart, htokens⟩ := finishToken_ok (Nat.le_of_lt hlt) hle
    (h.agrees.line h.le) h.start hfin
  rw [h.start] at htok
  cases tok with
  | none =>
    refine ⟨⟨?_, ?_, fun _ => hline, ?_⟩, hstart, hle⟩
    · rw [Option.map_none, Option.toList_none, List.append_nil]
      exact .skip h.agrees.walk hc hne htok
    · rw [Option.map_none, Option.toList_none, List.append_nil]
      exact h.agrees.depth
    · rw [htokens, Option.map_none, Option.toList_none, List.append_nil, Option.map_none,
        Option.toList_none, List.append_nil]
      exact h.agrees.tokens
  | some tok =>
    refine ⟨⟨.token h.agrees.walk hc hne htok, ?_, fun _ => hline, ?_⟩, hstart, hle⟩
    · rw [Option.map_some, Option.toList_some, List.map_append, List.map_singleton, depthOf_snoc,
        ← h.agrees.depth]
    · rw [htokens, realTokens_append, h.agrees.tokens, List.map_append]
      congr 1
      simp [realTokens, spell, tokenAt_real htok]

/-- A run that has no line feed stays on its line. -/
theorem span_same_line {p : ℕ → Bool} (hp : p 0x0A = false) (pos : ℕ) :
    lineStart chars (spanEnd p chars pos) = lineStart chars pos ∧
      lineNumber chars (spanEnd p chars pos) = lineNumber chars pos := by
  refine same_line (le_spanEnd p chars pos) fun i hle hlt hfeed => ?_
  have := getElem?_span hle hlt hfeed
  simp [hp] at this

theorem Inside.join {s : LineState F} {es : List (Extent F)} (h : Inside T chars pos s es)
    (hfeed : chars[pos]? = some 0x0A) (hcont : s.lineContinued = true) :
    Inside T chars (spanEnd (fun c => c = 0x20 || c = 0x09) chars (pos+1))
      ⟨{ (atColumn pos s.lex).countLine with lineStartPos := pos+1 }, s.parenDepth, false⟩ es := by
  obtain ⟨hstart, hnumber⟩ := @span_same_line chars (fun c => c = 0x20 || c = 0x09) rfl (pos+1)
  have hwalk := h.agrees.walk
  rw [hcont] at hwalk
  refine ⟨⟨.join hwalk hfeed, h.agrees.depth, fun _ => ?_, h.agrees.tokens⟩, ?_,
    spanEnd_le _ _ (lt_length hfeed)⟩
  · rw [hnumber, lineNumber_feed hfeed]
    have hline := h.agrees.line h.le
    simp only [LexState.countLine, atColumn, hline]
    omega
  · rw [hstart, lineStart_feed hfeed]

/-- The head of a line of source. -/
structure AtHead (T : Tables F) (chars : List ℕ) (pos : ℕ) (lex : LexState F) (depth : ℕ)
    (es : List (Extent F)) : Prop where
  agrees : Agrees T chars .head pos lex depth false es
  start : pos ≤ chars.length → lineStart chars pos = pos

theorem Inside.feed {s : LineState F} {es : List (Extent F)} (h : Inside T chars pos s es)
    (hfeed : chars[pos]? = some 0x0A) (hcont : s.lineContinued = false) {lex : LexState F}
    (hline : lex.line = s.lex.line) (htokens : realTokens lex.tokens = realTokens s.lex.tokens) :
    AtHead T chars (pos+1) lex.countLine s.parenDepth es := by
  have hwalk := h.agrees.walk
  rw [hcont] at hwalk
  refine ⟨⟨.feed hwalk hfeed, h.agrees.depth, fun _ => ?_, htokens.trans h.agrees.tokens⟩,
    fun _ => lineStart_feed hfeed⟩
  have hnow := h.agrees.line h.le
  rw [lineNumber_feed hfeed]
  simp only [LexState.countLine, hline, hnow]
  omega

/-- A round inside a line goes on inside it. -/
theorem Inside.on {s s' : LineState F} {es : List (Extent F)} {pos' : ℕ}
    (h : Inside T chars pos s es) (hstep : lineStep T chars pos s = .ok (.on pos' s')) :
    ∃ es', Inside T chars pos' s' es' := by
  rcases lineStep_cases hstep with ⟨-, hm⟩ | ⟨hfeed, hcont, hm⟩ | ⟨-, -, hm⟩ |
    ⟨c, tok, next, lex, hc, hne, htok, hfin, hm⟩
  · cases hm
  · cases hm
    exact ⟨es, h.join hfeed hcont⟩
  · cases hm
  · cases hm
    exact ⟨_, h.token hc hne htok hfin⟩

theorem emit_newline_if {c : Prop} [Decidable c] (lex : LexState F) :
    (if c then lex.emit .newline else lex).line = lex.line ∧
      realTokens (if c then lex.emit .newline else lex).tokens = realTokens lex.tokens := by
  split
  · exact ⟨rfl, realTokens_emit rfl⟩
  · exact ⟨rfl, rfl⟩

/-- A round that ends a line leaves the lexer at the head of the next, or behind the source. -/
theorem Inside.stop {s : LineState F} {es : List (Extent F)} {r : (LexState F × ℕ) × ℕ}
    (h : Inside T chars pos s es) (hstep : lineStep T chars pos s = .ok (.stop r)) :
    AtHead T chars r.2 r.1.1 r.1.2 es := by
  rcases lineStep_cases hstep with ⟨hnone, hm⟩ | ⟨-, -, hm⟩ | ⟨hfeed, hcont, hm⟩ |
    ⟨c, tok, next, lex, -, -, -, -, hm⟩
  · cases hm
    obtain ⟨-, htokens⟩ := @emit_newline_if _ (s.parenDepth = 0 ∧ s.lineContinued = false) _
      (atColumn pos s.lex)
    exact ⟨⟨.done h.agrees.walk hnone, h.agrees.depth, fun hle => absurd hle (by simp),
      htokens.trans h.agrees.tokens⟩, fun hle => absurd hle (by simp)⟩
  · cases hm
  · cases hm
    obtain ⟨hline, htokens⟩ := @emit_newline_if _ (s.parenDepth = 0) _ (atColumn pos s.lex)
    exact h.feed hfeed hcont hline htokens
  · cases hm

/-- The rounds of a line keep what the walk tells. -/
theorem Inside.reaches {s s' : LineState F} {es : List (Extent F)} {pos' : ℕ}
    (h : Inside T chars pos s es) (hr : Reaches (lineStep T chars) pos s pos' s') :
    ∃ es', Inside T chars pos' s' es' := by
  refine @Reaches.keeps _ _ _ _ _ _ _ _ (fun pos s => ∃ es, Inside T chars pos s es) hr ?_ ⟨es, h⟩
  rintro pos₁ s₁ pos₂ s₂ ⟨es₁, hin⟩ hstep
  exact hin.on hstep

theorem Inside.line {s : LineState F} {es : List (Extent F)} {r : (LexState F × ℕ) × ℕ}
    (h : Inside T chars pos s es) (hreturns : Returns (lineStep T chars) pos s r) :
    ∃ es', AtHead T chars r.2 r.1.1 r.1.2 es' := by
  obtain ⟨pos', s', hr, hstop⟩ := hreturns.stops
  obtain ⟨es', hin⟩ := h.reaches hr
  exact ⟨es', hin.stop hstop⟩

theorem dedentTo_keeps {indent : ℕ} {stack : List ℕ} {lex : LexState F} {r : LexState F × List ℕ}
    (h : dedentTo indent lex stack = .ok r) :
    r.1.line = lex.line ∧ r.1.lineStartPos = lex.lineStartPos ∧
      realTokens r.1.tokens = realTokens lex.tokens := by
  induction stack generalizing lex with
  | nil => cases h
  | cons top rest ih =>
    rw [dedentTo] at h
    split at h
    · obtain ⟨hline, hstart, htokens⟩ := ih h
      exact ⟨hline, hstart, htokens.trans (realTokens_emit rfl)⟩
    · cases h
      exact ⟨rfl, rfl, rfl⟩

theorem handleIndent_keeps {indent : ℕ} {stack : List ℕ} {lex : LexState F}
    {r : LexState F × List ℕ} (h : handleIndent indent lex stack = .ok r) :
    r.1.line = lex.line ∧ r.1.lineStartPos = lex.lineStartPos ∧
      realTokens r.1.tokens = realTokens lex.tokens := by
  obtain ⟨current, -, h⟩ := bind_ok h
  split at h
  · split at h
    · cases h
    · cases h
      exact ⟨rfl, rfl, realTokens_emit rfl⟩
  · obtain ⟨r', hdedent, h⟩ := bind_ok h
    obtain ⟨after, -, h⟩ := bind_ok h
    split at h
    · cases h
    · cases h
      exact dedentTo_keeps hdedent

theorem AtHead.code {lex lex' : LexState F} {depth : ℕ} {es : List (Extent F)}
    (h : AtHead T chars pos lex depth es) (hpos : pos ≤ chars.length)
    (hblank : blankLine chars pos = .ok false) (hline : lex'.line = lex.line)
    (hstart : lex'.lineStartPos = pos) (htokens : realTokens lex'.tokens = realTokens lex.tokens) :
    Inside T chars (contentAt chars pos) ⟨lex', depth, false⟩ es := by
  obtain ⟨hsame, hnumber⟩ := @span_same_line chars (· = 0x20) rfl pos
  refine ⟨⟨.code h.agrees.walk hpos hblank, h.agrees.depth, fun _ => ?_,
    htokens.trans h.agrees.tokens⟩, ?_, spanEnd_le _ _ hpos⟩
  · rw [contentAt, hnumber]
    exact hline.trans (h.agrees.line hpos)
  · rw [contentAt, hsame, h.start hpos]
    exact hstart

theorem AtHead.blank {lex : LexState F} {depth : ℕ} {es : List (Extent F)}
    (h : AtHead T chars pos lex depth es) (hblank : blankLine chars pos = .ok true)
    (hlast : feedAt chars pos < chars.length) :
    AtHead T chars (feedAt chars pos+1) (blankLex pos depth lex).countLine depth es := by
  have hle := (le_spanEnd (· = 0x20) chars pos).trans (le_spanEnd (· ≠ 0x0A) chars _)
  have hpos : pos ≤ chars.length := hle.trans hlast.le
  have hfeed : chars[feedAt chars pos]? = some 0x0A := by
    obtain ⟨c, hc⟩ : ∃ c, chars[feedAt chars pos]? = some c :=
      ⟨_, List.getElem?_eq_getElem hlast⟩
    have hfeed := getElem?_spanEnd hc
    obtain rfl : c = 0x0A := by simpa using hfeed
    exact hc
  have hnumber : lineNumber chars (feedAt chars pos) = lineNumber chars pos := by
    rw [feedAt, (@span_same_line chars (· ≠ 0x0A) rfl _).2, contentAt,
      (@span_same_line chars (· = 0x20) rfl _).2]
  obtain ⟨hline, htokens⟩ := @emit_newline_if _ (depth = 0) _ (atLine pos lex)
  refine ⟨⟨.blank h.agrees.walk hblank hlast, h.agrees.depth, fun _ => ?_,
    htokens.trans h.agrees.tokens⟩, fun _ => lineStart_feed hfeed⟩
  have hnow := h.agrees.line hpos
  rw [lineNumber_feed hfeed, hnumber]
  change ((blankLex pos depth lex).line+1) % 2^32 = _
  rw [blankLex, hline]
  simp only [atLine, hnow]
  omega

theorem AtHead.blankEnd {lex : LexState F} {depth : ℕ} {es : List (Extent F)}
    (h : AtHead T chars pos lex depth es) (hpos : pos ≤ chars.length)
    (hblank : blankLine chars pos = .ok true) (hlast : chars.length ≤ feedAt chars pos) :
    AtHead T chars (chars.length+1) (blankLex pos depth lex) depth es := by
  obtain ⟨-, htokens⟩ := @emit_newline_if _ (depth = 0) _ (atLine pos lex)
  exact ⟨⟨.blankEnd h.agrees.walk hpos hblank hlast, h.agrees.depth,
    fun hle => absurd hle (by simp), htokens.trans h.agrees.tokens⟩,
    fun hle => absurd hle (by simp)⟩

/-- The line that begins at a head. -/
theorem AtHead.inside {s : SourceState F} {es : List (Extent F)} {content : ℕ} {lex : LexState F}
    {stack : List ℕ} (h : AtHead T chars pos s.lex s.parenDepth es) (hpos : pos ≤ chars.length)
    (hhead : lineHead chars pos s = .ok (.code content lex stack)) :
    Inside T chars content ⟨lex, s.parenDepth, false⟩ es := by
  rcases lineHead_cases hhead with ⟨-, -, hm⟩ | ⟨-, -, hm⟩ | ⟨hblank, -, r, hindent, hm⟩ |
    ⟨hblank, -, hm⟩
  · cases hm
  · cases hm
  · cases hm
    obtain ⟨hline, hstart, htokens⟩ := handleIndent_keeps hindent
    exact h.code hpos hblank hline hstart htokens
  · cases hm
    exact h.code hpos hblank rfl rfl rfl

theorem AtHead.on {s s' : SourceState F} {es : List (Extent F)} {pos' : ℕ}
    (h : AtHead T chars pos s.lex s.parenDepth es)
    (hstep : sourceStep T chars pos s = .ok (.on pos' s')) :
    ∃ es', AtHead T chars pos' s'.lex s'.parenDepth es' := by
  rcases sourceStep_cases hstep with ⟨-, hm⟩ | ⟨hpos, next, lex, hhead, hm⟩ |
    ⟨hpos, content, lex, stack, r, hhead, hline, hm⟩
  · cases hm
  · cases hm
    rcases lineHead_cases hhead with ⟨hblank, hlast, hm⟩ | ⟨hblank, hlast, hm⟩ |
      ⟨-, -, r, -, hm⟩ | ⟨-, -, hm⟩
    · cases hm
      exact ⟨es, h.blank hblank hlast⟩
    · cases hm
      exact ⟨es, h.blankEnd hpos hblank hlast⟩
    · cases hm
    · cases hm
  · cases hm
    exact (h.inside hpos hhead).line ⟨_, hline⟩

/-- Where the source is read from. -/
theorem atHead_start : AtHead T chars 0 (SourceState.start F).lex 0 [] :=
  ⟨⟨.start, rfl, fun _ => rfl, rfl⟩, fun _ => rfl⟩

theorem reaches_head {s : SourceState F}
    (hr : Reaches (sourceStep T chars) 0 (SourceState.start F) pos s) :
    ∃ es, AtHead T chars pos s.lex s.parenDepth es := by
  refine @Reaches.keeps _ _ _ _ _ _ _ _
    (fun pos (s : SourceState F) => ∃ es, AtHead T chars pos s.lex s.parenDepth es) hr ?_
    ⟨[], atHead_start⟩
  rintro pos₁ s₁ pos₂ s₂ ⟨es₁, hhead⟩ hstep
  exact hhead.on hstep

/-- The lexer returns at a head behind the source. -/
theorem lexSource_ok {toks : List (Spelled F)} (h : lexSource T chars = .ok toks) :
    ∃ s pos, Returns (sourceStep T chars) 0 (SourceState.start F) s ∧
      Reaches (sourceStep T chars) 0 (SourceState.start F) pos s ∧ chars.length < pos ∧
      toks = (((List.replicate (s.indentStack.length-1) Token.dedent).foldl LexState.emit
        s.lex).emit .eof).tokens := by
  obtain ⟨s, hrun, h⟩ := bind_ok h
  have hreturns : Returns (sourceStep T chars) 0 (SourceState.start F) s := ⟨_, hrun⟩
  obtain ⟨pos, s', hr, hstop⟩ := hreturns.stops
  rcases sourceStep_cases hstop with ⟨hlast, hm⟩ | ⟨-, next, lex, -, hm⟩ |
    ⟨-, content, lex, stack, r, -, -, hm⟩
  · cases hm
    exact ⟨s, pos, hreturns, hr, hlast, (Except.ok.inj h).symm⟩
  · cases hm
  · cases hm

end follows

end Pyrust.LexerWalk
