import Pyrust.LexerWalk

/-!
# Source positions

Every token that has characters of its own carries the line and the column of its
first one and the column behind its last one, counted modulo `2^32`.
-/

set_option autoImplicit false

namespace Pyrust.LexerPositions

open ScanLoop StringLiterals LexerTokens LexerLiterals LexerFields LexerMachine LexerTotality
open LexerRounds LexerWalk TextLines

section positions
variable {F : Type} {T : Tables F} {chars : List ℕ} {place : Place} {pos : ℕ}
  {es : List (Extent F)} {passed : Bool}

/-- The token is read from its characters. -/
def ReadAt (T : Tables F) (chars : List ℕ) (e : Extent F) : Prop :=
  e.first < e.last ∧ e.last ≤ chars.length ∧ ∃ c, chars[e.first]? = some c ∧
    tokenAt T chars (lineStart chars e.first) e.first c = .ok (some e.tok, e.last)

/-- The tokens of a walk are read one behind the other. -/
theorem walk_ordered (h : Walk T chars place pos es passed) :
    (∀ e ∈ es, ReadAt T chars e ∧ e.last ≤ pos) ∧
      es.Pairwise fun e e' => e.last ≤ e'.first := by
  have hlater : ∀ {es : List (Extent F)} {pos pos' : ℕ}, pos ≤ pos' →
      (∀ e ∈ es, ReadAt T chars e ∧ e.last ≤ pos) → ∀ e ∈ es, ReadAt T chars e ∧ e.last ≤ pos' :=
    fun hle h e he => ⟨(h e he).1, (h e he).2.trans hle⟩
  have hspan := fun (p : ℕ → Bool) pos => le_spanEnd p chars pos
  induction h with
  | start => exact ⟨by simp, .nil⟩
  | @blank pos es _ _ _ ih =>
    have hle : pos ≤ feedAt chars pos := (hspan _ pos).trans (hspan _ _)
    exact ⟨hlater (by omega) ih.1, ih.2⟩
  | blankEnd _ hpos _ _ ih => exact ⟨hlater (by omega) ih.1, ih.2⟩
  | code _ _ _ ih => exact ⟨hlater (hspan _ _) ih.1, ih.2⟩
  | @skip pos c next es passed _ hc _ htok ih =>
    have hwithin := @tokenAt_gives _ T _ _ (lineStart chars pos) _ hc
    rw [htok] at hwithin
    exact ⟨hlater hwithin.2.1.le ih.1, ih.2⟩
  | @token pos c next tok es passed _ hc _ htok ih =>
    have hwithin := @tokenAt_gives _ T _ _ (lineStart chars pos) _ hc
    rw [htok] at hwithin
    obtain ⟨-, hlt, hle⟩ := hwithin
    constructor
    · intro e he
      rcases List.mem_append.mp he with he | he
      · exact hlater (Nat.le_of_lt hlt) ih.1 e he
      · obtain rfl := List.mem_singleton.mp he
        exact ⟨⟨hlt, hle, c, hc, htok⟩, Nat.le_refl _⟩
    · refine List.pairwise_append.mpr ⟨ih.2, List.pairwise_singleton _ _, ?_⟩
      intro e he e' he'
      obtain rfl := List.mem_singleton.mp he'
      exact (ih.1 e he).2
  | join _ _ ih => exact ⟨hlater ((Nat.le_succ _).trans (hspan _ _)) ih.1, ih.2⟩
  | feed _ _ ih => exact ⟨hlater (Nat.le_succ _) ih.1, ih.2⟩
  | done _ _ ih =>
    refine ⟨fun e he => ⟨(ih.1 e he).1, ?_⟩, ih.2⟩
    exact Nat.le_succ_of_le (ih.1 e he).1.2.1

/-- The tokens that have characters of their own are those a walk over the whole text reads, one
behind the other; each is spelled out with the line and column of its first character and the
column behind its last, or 0 where a line feed is between them, all counted by `wrap`. -/
def Positioned (wrap : ℕ → ℕ) (T : Tables F) (chars : List ℕ) (toks : List (Spelled F)) : Prop :=
  ∃ es pos, Walk T chars .head pos es false ∧ chars.length < pos ∧
    es.Pairwise (fun e e' => e.last ≤ e'.first) ∧ (∀ e ∈ es, ReadAt T chars e) ∧
    realTokens toks = es.map (spell wrap chars)

theorem realTokens_dedents (n : ℕ) (lex : LexState F) :
    realTokens ((List.replicate n Token.dedent).foldl LexState.emit lex).tokens =
      realTokens lex.tokens := by
  induction n generalizing lex with
  | zero => rfl
  | succ n ih => exact (ih _).trans (realTokens_emit rfl)

/-- `into_tokens_with_pos`: the tokens, their lines, their columns and the columns behind them. -/
def intoTokensWithPos (toks : List (Spelled F)) :
    List (Token F) × List ℕ × List ℕ × List ℕ :=
  (toks.map Spelled.tok, toks.map Spelled.line, toks.map Spelled.col, toks.map Spelled.colEnd)

/-- The four vectors are as long as one another. -/
def Parallel (v : List (Token F) × List ℕ × List ℕ × List ℕ) : Prop :=
  v.2.1.length = v.1.length ∧ v.2.2.1.length = v.1.length ∧ v.2.2.2.length = v.1.length

/-- For every source text that is lexed, positions are exact modulo `2^32`. -/
theorem positions_exact {toks : List (Spelled F)} (h : lexSource T chars = .ok toks) :
    Parallel (intoTokensWithPos toks) ∧ Positioned (· % 2^32) T chars toks := by
  refine ⟨by simp [Parallel, intoTokensWithPos], ?_⟩
  obtain ⟨s, pos, -, hr, hlast, rfl⟩ := lexSource_ok h
  obtain ⟨es, hhead⟩ := reaches_head hr
  obtain ⟨hread, hordered⟩ := walk_ordered hhead.agrees.walk
  refine ⟨es, pos, hhead.agrees.walk, hlast, hordered, fun e he => (hread e he).1, ?_⟩
  rw [realTokens_emit rfl, realTokens_dedents]
  exact hhead.agrees.tokens

theorem positions_exact_brackets : ∃ toks, lexSource bareTables
    [0x28, 0x78, 0x2C, 0x0D, 0x0A, 0x20, 0x79, 0x29, 0x0A] = .ok toks ∧
      Positioned (· % 2^32) bareTables [0x28, 0x78, 0x2C, 0x0D, 0x0A, 0x20, 0x79, 0x29, 0x0A]
        toks :=
  ⟨_, rfl, (positions_exact rfl).2⟩

end positions

/-! ## A column that does not fit -/

section wide
variable {n : ℕ}

/-- A name behind some spaces. -/
def indented (n : ℕ) : List ℕ := List.replicate n 0x20 ++ [0x78]

theorem indented_length (n : ℕ) : (indented n).length = n+1 := by simp [indented]

theorem indented_space {i : ℕ} (h : i < n) : (indented n)[i]? = some 0x20 := by
  rw [indented, List.getElem?_append_left (by simpa using h), List.getElem?_replicate_of_lt h]

theorem indented_name (n : ℕ) : (indented n)[n]? = some 0x78 := by
  rw [indented, List.getElem?_append_right (by simp)]
  simp

theorem indented_drop (n : ℕ) : (indented n).drop n = [0x78] := by
  rw [indented, List.drop_left' (by simp)]

theorem indented_content (n : ℕ) : contentAt (indented n) 0 = n := by
  have hspaces : ∀ c ∈ List.replicate n 0x20, decide (c = 0x20) = true := by simp
  rw [contentAt, spanEnd, List.drop_zero, indented, List.takeWhile_append_of_pos hspaces]
  simp

theorem indented_lineStart (n i : ℕ) : lineStart (indented n) i = 0 := by
  refine (same_line (Nat.zero_le i) fun k _ _ hfeed => ?_).1
  have hmem := List.mem_of_getElem? hfeed
  simp [indented] at hmem

theorem indented_slice (n : ℕ) :
    (sliceOf (indented n) n (n+1) : Scan LexError (List ℕ)) = .ok [0x78] := by
  rw [sliceOf_of_le (Nat.le_add_right n 1) (indented_length n).ge, ← indented_length n,
    List.take_length, indented_drop]

/-- The state behind the indentation. -/
def indentedLex : LexState ℕ := ⟨[⟨.indent, 1, 0, 0⟩], 1, 0, 0⟩

theorem indented_head (hn : 0 < n) : lineHead (indented n) 0 (SourceState.start ℕ) =
    .ok (.code n indentedLex [n, 0]) := by
  have hcontent : spanEnd (· = 0x20) (indented n) 0 = n := indented_content n
  have hcount : countIndentChars (indented n) 0 = .ok n := by
    have htab : (indented n)[n]? ≠ some 0x09 := by
      rw [indented_name]
      decide
    rw [countIndentChars, hcontent]
    simp only [if_neg htab, Nat.sub_zero]
  have heol : spanEnd (· ≠ 0x0A) (indented n) n = n+1 := by
    rw [spanEnd, indented_drop]
    rfl
  have hend : lineEndAt (indented n) (n+1) = .ok (n+1) := by
    rw [lineEndAt, if_pos (Nat.succ_pos n), Nat.add_sub_cancel, index_of_some (indented_name n)]
    rfl
  have hhandle : handleIndent n (⟨[], 1, 0, 0⟩ : LexState ℕ) [0] =
      .ok (indentedLex, [n, 0]) := by
    rw [handleIndent, index_of_some rfl]
    exact if_pos hn
  rw [lineHead, hcount]
  change (lineEndAt (indented n) (spanEnd (· ≠ 0x0A) (indented n) (0+n)) >>= _) = _
  rw [Nat.zero_add, heol, hend]
  change ((sliceOf (indented n) n (n+1) : Scan LexError (List ℕ)) >>= _) = _
  rw [indented_slice]
  change (handleIndent n (⟨[], 1, 0, 0⟩ : LexState ℕ) [0] >>= _) = _
  rw [hhandle]
  rfl

theorem indented_token (n : ℕ) : tokenAt bareTables (indented n) 0 n 0x78 =
    .ok (some (.ident [0x78]), n+1) := by
  have hletter : ∀ lower, letterAt (indented n) n lower =
      decide (0x78 = lower ∨ 0x78 = lower-0x20) := by
    intro lower
    simp [letterAt, indented_name]
  have hnone : literalPrefix (indented n) n = none := by
    simp [literalPrefix, hletter]
  have hspan : spanEnd (isNameChar bareTables) (indented n) n = n+1 := by
    rw [spanEnd, indented_drop]
    rfl
  have hword : wordAt bareTables (indented n) 0 n = .ok (.ident [0x78], n+1) := by
    rw [wordAt, hnone]
    change lexIdentOrKeyword bareTables (indented n) n = _
    rw [lexIdentOrKeyword, hspan, indented_slice]
    rfl
  change emitted (wordAt bareTables (indented n) 0 n) = _
  rw [hword]
  rfl

/-- The line of the name. -/
theorem indented_line (n : ℕ) : lexLineTokens bareTables (indented n) n indentedLex 0 =
    .ok ((⟨[⟨.indent, 1, 0, 0⟩, ⟨.ident [0x78], 1, n % 2^32, (n+1) % 2^32⟩,
      ⟨.newline, 1, (n+1) % 2^32, 0⟩], 1, 0, (n+1) % 2^32⟩, 0), n+2) := by
  have hbehind : (indented n)[n+1]? = none := List.getElem?_eq_none (indented_length n).le
  have hadvance : ∀ lex : LexState ℕ, advanceLineOver (indented n) n (n+1) lex = .ok lex := by
    intro lex
    rw [advanceLineOver, indented_slice]
    rfl
  have hname : lineStep bareTables (indented n) n ⟨indentedLex, 0, false⟩ =
      .ok (.on (n+1) ⟨⟨[⟨.indent, 1, 0, 0⟩, ⟨.ident [0x78], 1, n % 2^32, (n+1) % 2^32⟩], 1, 0,
        n % 2^32⟩, 0, false⟩) := by
    have hfin : finishToken (indented n) n (n+1) (some (.ident [0x78])) (atColumn n indentedLex) =
        .ok ⟨[⟨.indent, 1, 0, 0⟩, ⟨.ident [0x78], 1, n % 2^32, (n+1) % 2^32⟩], 1, 0,
          n % 2^32⟩ := by
      rw [finishToken, indented_slice]
      exact hadvance _
    rw [lineStep, indented_name]
    change (tokenAt bareTables (indented n) 0 n 0x78 >>= _) = _
    rw [indented_token]
    change (finishToken (indented n) n (n+1) (some (.ident [0x78])) (atColumn n indentedLex) >>=
      _) = _
    rw [hfin]
    rfl
  rw [lexLineTokens, run_on hname, indented_length]
  refine run_stop ?_
  rw [lineStep, hbehind, indented_length]
  rfl

theorem indented_lex (hn : 0 < n) : ∃ rest, (∀ t ∈ rest, structural t.tok = true) ∧
    lexSource bareTables (indented n) = .ok ([⟨.indent, 1, 0, 0⟩,
      ⟨.ident [0x78], 1, n % 2^32, (n+1) % 2^32⟩] ++ rest) := by
  have hfirst : sourceStep bareTables (indented n) 0 (SourceState.start ℕ) =
      .ok (.on (n+2) ⟨⟨[⟨.indent, 1, 0, 0⟩, ⟨.ident [0x78], 1, n % 2^32, (n+1) % 2^32⟩,
        ⟨.newline, 1, (n+1) % 2^32, 0⟩], 1, 0, (n+1) % 2^32⟩, [n, 0], 0⟩) := by
    rw [sourceStep, if_neg (Nat.not_lt_zero _), indented_head hn]
    change (lexLineTokens bareTables (indented n) n indentedLex 0 >>= _) = _
    rw [indented_line]
    rfl
  have hlast : ∀ s, sourceStep bareTables (indented n) (n+2) s = .ok (.stop s) := by
    intro s
    rw [sourceStep, if_pos (by rw [indented_length]; omega)]
    rfl
  refine ⟨[⟨.newline, 1, (n+1) % 2^32, 0⟩, ⟨.dedent, 1, (n+1) % 2^32, 0⟩,
    ⟨.eof, 1, (n+1) % 2^32, 0⟩], by simp [structural], ?_⟩
  rw [lexSource, run_on hfirst, indented_length, run_stop (hlast _)]
  rfl

theorem indented_misplaced (hn : 0 < n) (hwrap : n % 2^32 = 0) :
    ∃ toks, lexSource bareTables (indented n) = .ok toks ∧
      ¬ Positioned id bareTables (indented n) toks := by
  obtain ⟨rest, hrest, hlex⟩ := indented_lex hn
  refine ⟨_, hlex, ?_⟩
  rintro ⟨es, pos, -, -, -, hread, htokens⟩
  have hreal : realTokens rest = [] := List.filter_eq_nil_iff.mpr fun t ht => by simp [hrest t ht]
  have hone : realTokens ([⟨.indent, 1, 0, 0⟩,
      ⟨.ident [0x78], 1, n % 2^32, (n+1) % 2^32⟩] ++ rest) =
      [⟨.ident [0x78], 1, n % 2^32, (n+1) % 2^32⟩] := by
    rw [realTokens_append, hreal, List.append_nil]
    rfl
  rw [hone] at htokens
  rcases es with _ | ⟨e, es⟩
  · cases htokens
  · have hcol : n % 2^32 = column (indented n) e.first :=
      congrArg Spelled.col (List.cons.inj htokens).1
    rw [hwrap, column, indented_lineStart, Nat.sub_zero] at hcol
    obtain ⟨-, -, c, hc, htok⟩ := hread e List.mem_cons_self
    rw [← hcol, indented_space hn] at hc
    cases hc
    cases htok

/-- The name begins at column `2^32`, which does not fit its field. -/
theorem wide_column : ∃ toks, lexSource bareTables (indented (2^32)) = .ok toks ∧
    ¬ Positioned id bareTables (indented (2^32)) toks :=
  indented_misplaced (by decide) (by decide)

end wide

end Pyrust.LexerPositions
