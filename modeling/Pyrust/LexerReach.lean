import Pyrust.LexerWalk

/-!
# The walk is the lexer's

A source that is lexed is lexed along the walk: to every place of the walk the
lexer comes, with the same bracket depth and the same backslash behind it.
-/

set_option autoImplicit false

namespace Pyrust.LexerReach

open ScanLoop StringLiterals LexerTokens LexerLiterals LexerFields LexerMachine LexerTotality
open LexerRounds LexerWalk TextLines

section reach
variable {F : Type} {T : Tables F} {chars : List ℕ} {pos : ℕ}

/-- The lexer comes to a position inside a line. -/
def LineReached (T : Tables F) (chars : List ℕ) (pos : ℕ) (ls : LineState F) : Prop :=
  ∃ p s content lex stack, Reaches (sourceStep T chars) 0 (SourceState.start F) p s ∧
    p ≤ chars.length ∧ lineHead chars p s = .ok (.code content lex stack) ∧
    Reaches (lineStep T chars) content ⟨lex, s.parenDepth, false⟩ pos ls

theorem LineReached.inside {ls : LineState F} (h : LineReached T chars pos ls) :
    ∃ es, Inside T chars pos ls es := by
  obtain ⟨p, s, content, lex, stack, hr, hp, hhead, hline⟩ := h
  obtain ⟨es, hat⟩ := reaches_head hr
  exact (hat.inside hp hhead).reaches hline

theorem LineReached.on {ls ls' : LineState F} {pos' : ℕ} (h : LineReached T chars pos ls)
    (hstep : lineStep T chars pos ls = .ok (.on pos' ls')) : LineReached T chars pos' ls' := by
  obtain ⟨p, s, content, lex, stack, hr, hp, hhead, hline⟩ := h
  exact ⟨p, s, content, lex, stack, hr, hp, hhead, hline.snoc hstep⟩

variable {final : SourceState F}

/-- What a line leaves behind in a source that is lexed. -/
theorem LineReached.returns {ls : LineState F} (h : LineReached T chars pos ls)
    (hreturns : Returns (sourceStep T chars) 0 (SourceState.start F) final) :
    ∃ r, Returns (lineStep T chars) pos ls r ∧ ∃ stack,
      Reaches (sourceStep T chars) 0 (SourceState.start F) r.2 ⟨r.1.1, stack, r.1.2⟩ := by
  obtain ⟨p, s, content, lex, stack, hr, hp, hhead, hline⟩ := h
  have hgo : ∀ m, sourceStep T chars p s = .ok m → ∃ r,
      lexLineTokens T chars content lex s.parenDepth = .ok r ∧
        m = .on r.2 ⟨r.1.1, stack, r.1.2⟩ := by
    intro m hm
    rcases sourceStep_cases hm with ⟨hlast, -⟩ | ⟨-, next, lex', hblank, -⟩ |
      ⟨-, content', lex', stack', r, hcode, htokens, hmove⟩
    · omega
    · cases hhead.symm.trans hblank
    · cases hhead.symm.trans hcode
      exact ⟨r, htokens, hmove⟩
  rcases (hreturns.reaches hr).round with hstop | ⟨pos', s', hon, -⟩
  · obtain ⟨r, -, hm⟩ := hgo _ hstop
    cases hm
  · obtain ⟨r, htokens, hm⟩ := hgo _ hon
    cases hm
    exact ⟨r, Returns.reaches ⟨_, htokens⟩ hline, stack, hr.snoc hon⟩

/-- A round inside a line of a source that is lexed. -/
theorem LineReached.round {ls : LineState F} (h : LineReached T chars pos ls)
    (hreturns : Returns (sourceStep T chars) 0 (SourceState.start F) final) :
    ∃ m, lineStep T chars pos ls = .ok m := by
  obtain ⟨r, hline, -⟩ := h.returns hreturns
  rcases hline.round with hstop | ⟨pos', ls', hon, -⟩
  · exact ⟨_, hstop⟩
  · exact ⟨_, hon⟩

theorem LineReached.stop {ls : LineState F} (h : LineReached T chars pos ls)
    (hreturns : Returns (sourceStep T chars) 0 (SourceState.start F) final)
    {r : (LexState F × ℕ) × ℕ} (hstop : lineStep T chars pos ls = .ok (.stop r)) :
    ∃ stack, Reaches (sourceStep T chars) 0 (SourceState.start F) r.2 ⟨r.1.1, stack, r.1.2⟩ := by
  obtain ⟨r', hline, hnext⟩ := h.returns hreturns
  obtain rfl := hline.of_stop (.here _ _) hstop
  exact hnext

/-- The lexer reads what the walk reads. -/
theorem LineReached.token {ls : LineState F} {c next : ℕ} {tok : Option (Token F)}
    (h : LineReached T chars pos ls)
    (hreturns : Returns (sourceStep T chars) 0 (SourceState.start F) final)
    (hc : chars[pos]? = some c) (hne : c ≠ 0x0A)
    (htok : tokenAt T chars (lineStart chars pos) pos c = .ok (tok, next)) :
    ∃ lex, LineReached T chars next
      ⟨lex, depthAfter ls.parenDepth tok, ls.lineContinued || c = 0x5C⟩ := by
  obtain ⟨m, hm⟩ := h.round hreturns
  obtain ⟨es, hin⟩ := h.inside
  rcases lineStep_cases hm with ⟨hnone, -⟩ | ⟨hfeed, -, -⟩ | ⟨hfeed, -, -⟩ |
    ⟨c', tok', next', lex, hc', -, htok', -, hmove⟩
  · cases hc.symm.trans hnone
  · cases hc.symm.trans hfeed
    exact absurd rfl hne
  · cases hc.symm.trans hfeed
    exact absurd rfl hne
  · cases hc.symm.trans hc'
    rw [hin.start, htok] at htok'
    cases htok'
    subst hmove
    exact ⟨lex, h.on hm⟩

/-- The lexer has come to a place of the walk. -/
def Matched (T : Tables F) (chars : List ℕ) (pos : ℕ) (es : List (Extent F)) (passed : Bool) :
    Place → Prop
  | .head => ∃ s, Reaches (sourceStep T chars) 0 (SourceState.start F) pos s ∧
      s.parenDepth = depthOf (es.map Extent.tok)
  | .inside => ∃ ls, LineReached T chars pos ls ∧ ls.lineContinued = passed ∧
      ls.parenDepth = depthOf (es.map Extent.tok)

/-- A round at the head of a line of a source that is lexed. -/
theorem head_round {s : SourceState F} (hpos : pos ≤ chars.length)
    (hreturns : Returns (sourceStep T chars) 0 (SourceState.start F) final)
    (hr : Reaches (sourceStep T chars) 0 (SourceState.start F) pos s) :
    (∃ next lex, lineHead chars pos s = .ok (.blank next lex) ∧
        Reaches (sourceStep T chars) 0 (SourceState.start F) next { s with lex }) ∨
      ∃ content lex stack, lineHead chars pos s = .ok (.code content lex stack) := by
  have hgo : ∀ m, sourceStep T chars pos s = .ok m →
      (∃ next lex, lineHead chars pos s = .ok (.blank next lex) ∧ m = .on next { s with lex }) ∨
        ∃ content lex stack, lineHead chars pos s = .ok (.code content lex stack) := by
    intro m hm
    rcases sourceStep_cases hm with ⟨hlast, -⟩ | ⟨-, next, lex, hblank, hmove⟩ |
      ⟨-, content, lex, stack, r, hcode, -, -⟩
    · omega
    · exact Or.inl ⟨next, lex, hblank, hmove⟩
    · exact Or.inr ⟨content, lex, stack, hcode⟩
  rcases (hreturns.reaches hr).round with hstop | ⟨pos', s', hon, -⟩
  · rcases hgo _ hstop with ⟨next, lex, -, hm⟩ | hcode
    · cases hm
    · exact Or.inr hcode
  · rcases hgo _ hon with ⟨next, lex, hblank, hm⟩ | hcode
    · cases hm
      exact Or.inl ⟨_, lex, hblank, hr.snoc hon⟩
    · exact Or.inr hcode

/-- A blank line is passed to its end. -/
theorem head_blank {s : SourceState F} (hpos : pos ≤ chars.length)
    (hreturns : Returns (sourceStep T chars) 0 (SourceState.start F) final)
    (hr : Reaches (sourceStep T chars) 0 (SourceState.start F) pos s)
    (hblank : blankLine chars pos = .ok true) :
    ∃ lex, Reaches (sourceStep T chars) 0 (SourceState.start F)
      (if feedAt chars pos < chars.length then feedAt chars pos+1 else chars.length+1)
      { s with lex } := by
  rcases head_round hpos hreturns hr with ⟨next, lex, hhead, hnext⟩ |
    ⟨content, lex, stack, hhead⟩
  · rcases lineHead_cases hhead with ⟨-, hlt, hm⟩ | ⟨-, hend, hm⟩ | ⟨hcode, -⟩ | ⟨hcode, -⟩
    · cases hm
      rw [if_pos hlt]
      exact ⟨_, hnext⟩
    · cases hm
      rw [if_neg (Nat.not_lt.mpr hend)]
      exact ⟨_, hnext⟩
    · cases hblank.symm.trans hcode
    · cases hblank.symm.trans hcode
  · rcases lineHead_cases hhead with ⟨-, -, hm⟩ | ⟨-, -, hm⟩ | ⟨hcode, -⟩ | ⟨hcode, -⟩
    · cases hm
    · cases hm
    · cases hblank.symm.trans hcode
    · cases hblank.symm.trans hcode

/-- A line of code is entered behind its indentation. -/
theorem head_code {s : SourceState F} (hpos : pos ≤ chars.length)
    (hreturns : Returns (sourceStep T chars) 0 (SourceState.start F) final)
    (hr : Reaches (sourceStep T chars) 0 (SourceState.start F) pos s)
    (hcode : blankLine chars pos = .ok false) :
    ∃ lex stack, lineHead chars pos s = .ok (.code (contentAt chars pos) lex stack) := by
  rcases head_round hpos hreturns hr with ⟨next, lex, hhead, -⟩ | ⟨content, lex, stack, hhead⟩
  · rcases lineHead_cases hhead with ⟨hblank, -⟩ | ⟨hblank, -⟩ | ⟨-, -, r, -, hm⟩ | ⟨-, -, hm⟩
    · cases hblank.symm.trans hcode
    · cases hblank.symm.trans hcode
    · cases hm
    · cases hm
  · have hcontent : content = contentAt chars pos := by
      rcases lineHead_cases hhead with ⟨-, -, hm⟩ | ⟨-, -, hm⟩ | ⟨-, -, r, -, hm⟩ | ⟨-, -, hm⟩ <;>
        cases hm <;> rfl
    exact ⟨lex, stack, hcontent ▸ hhead⟩

theorem walk_matched {place : Place} {es : List (Extent F)} {passed : Bool}
    (hreturns : Returns (sourceStep T chars) 0 (SourceState.start F) final)
    (h : Walk T chars place pos es passed) : Matched T chars pos es passed place := by
  induction h with
  | start => exact ⟨SourceState.start F, .here _ _, rfl⟩
  | @blank pos es _ hblank hlast ih =>
    obtain ⟨s, hr, hdepth⟩ := ih
    have hle : pos ≤ feedAt chars pos := (le_spanEnd _ _ _).trans (le_spanEnd _ _ _)
    obtain ⟨lex, hnext⟩ := head_blank (hle.trans hlast.le) hreturns hr hblank
    rw [if_pos hlast] at hnext
    exact ⟨_, hnext, hdepth⟩
  | @blankEnd pos es _ hpos hblank hlast ih =>
    obtain ⟨s, hr, hdepth⟩ := ih
    obtain ⟨lex, hnext⟩ := head_blank hpos hreturns hr hblank
    rw [if_neg (Nat.not_lt.mpr hlast)] at hnext
    exact ⟨_, hnext, hdepth⟩
  | @code pos es _ hpos hcode ih =>
    obtain ⟨s, hr, hdepth⟩ := ih
    obtain ⟨lex, stack, hhead⟩ := head_code hpos hreturns hr hcode
    exact ⟨_, ⟨pos, s, _, lex, stack, hr, hpos, hhead, .here _ _⟩, rfl, hdepth⟩
  | skip _ hc hne htok ih =>
    obtain ⟨ls, hls, rfl, hdepth⟩ := ih
    obtain ⟨lex, hnext⟩ := hls.token hreturns hc hne htok
    exact ⟨_, hnext, rfl, hdepth⟩
  | token _ hc hne htok ih =>
    obtain ⟨ls, hls, rfl, hdepth⟩ := ih
    obtain ⟨lex, hnext⟩ := hls.token hreturns hc hne htok
    refine ⟨_, hnext, rfl, ?_⟩
    rw [List.map_append, List.map_singleton, depthOf_snoc, ← hdepth]
  | join _ hfeed ih =>
    obtain ⟨ls, hls, hcont, hdepth⟩ := ih
    obtain ⟨m, hm⟩ := hls.round hreturns
    rcases lineStep_cases hm with ⟨hnone, -⟩ | ⟨-, -, hmove⟩ | ⟨-, hno, -⟩ |
      ⟨c, -, -, -, hc, hne, -, -, -⟩
    · cases hfeed.symm.trans hnone
    · subst hmove
      exact ⟨_, hls.on hm, rfl, hdepth⟩
    · cases hcont.symm.trans hno
    · cases hfeed.symm.trans hc
      exact absurd rfl hne
  | feed _ hfeed ih =>
    obtain ⟨ls, hls, hcont, hdepth⟩ := ih
    obtain ⟨m, hm⟩ := hls.round hreturns
    rcases lineStep_cases hm with ⟨hnone, -⟩ | ⟨-, hyes, -⟩ | ⟨-, -, hmove⟩ |
      ⟨c, -, -, -, hc, hne, -, -, -⟩
    · cases hfeed.symm.trans hnone
    · cases hcont.symm.trans hyes
    · subst hmove
      obtain ⟨stack, hnext⟩ := hls.stop hreturns hm
      exact ⟨_, hnext, hdepth⟩
    · cases hfeed.symm.trans hc
      exact absurd rfl hne
  | done _ hnone ih =>
    obtain ⟨ls, hls, rfl, hdepth⟩ := ih
    obtain ⟨m, hm⟩ := hls.round hreturns
    rcases lineStep_cases hm with ⟨-, hmove⟩ | ⟨hfeed, -, -⟩ | ⟨hfeed, -, -⟩ |
      ⟨c, -, -, -, hc, -, -, -, -⟩
    · subst hmove
      obtain ⟨stack, hnext⟩ := hls.stop hreturns hm
      exact ⟨_, hnext, hdepth⟩
    · cases hfeed.symm.trans hnone
    · cases hfeed.symm.trans hnone
    · cases hc.symm.trans hnone

end reach

end Pyrust.LexerReach
