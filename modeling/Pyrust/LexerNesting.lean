import Pyrust.LexerReach

/-!
# Indentation tokens are well nested

Every stream of tokens has as many dedents as indents, never more on the way, at
most 99 indents open, its end once and last, and nothing for the lines between a
bracket and the one that closes it. A line feed outside brackets, strings and
comments yields its `Newline` unless a backslash stands before it; a backslash
that stands elsewhere on the line takes it away too.
-/

set_option autoImplicit false

namespace Pyrust.LexerNesting

open ScanLoop StringLiterals LexerTokens LexerLiterals LexerFields LexerMachine LexerTotality
open LexerRounds LexerWalk LexerReach TextLines

/-! ## Streams -/

section streams
variable {F : Type} {toks : List (Token F)} {tok : Token F} {n depth : ℕ}

def isIndent : Token F → Bool
  | .indent => true
  | _ => false

def isDedent : Token F → Bool
  | .dedent => true
  | _ => false

def isEof : Token F → Bool
  | .eof => true
  | _ => false

def opensBracket : Token F → Bool
  | .lParen | .lBracket | .lBrace => true
  | _ => false

def closesBracket : Token F → Bool
  | .rParen | .rBracket | .rBrace => true
  | _ => false

def indents (toks : List (Token F)) : ℕ := toks.countP isIndent

def dedents (toks : List (Token F)) : ℕ := toks.countP isDedent

/-- As many brackets close as open, and on the way no more. -/
def Balanced (toks : List (Token F)) : Prop :=
  toks.countP closesBracket = toks.countP opensBracket ∧
    ∀ p, p <+: toks → p.countP closesBracket ≤ p.countP opensBracket

/-- So many indents are open behind the tokens, and never more than 99. -/
structure Levels (toks : List (Token F)) (n : ℕ) : Prop where
  balance : indents toks = dedents toks+n
  prefixes : ∀ p, p <+: toks → dedents p ≤ indents p ∧ indents p ≤ dedents p+99

theorem Levels.snoc {m : ℕ} (h : Levels toks n)
    (hbalance : indents (toks ++ [tok]) = dedents (toks ++ [tok])+m) (hm : m ≤ 99) :
    Levels (toks ++ [tok]) m := by
  refine ⟨hbalance, fun p hp => ?_⟩
  rcases List.prefix_concat_iff.mp hp with rfl | hp
  · omega
  · exact h.prefixes p hp

theorem Levels.bound (h : Levels toks n) : n ≤ 99 := by
  have := (h.prefixes toks (List.prefix_refl _)).2
  have := h.balance
  omega

theorem indents_snoc (toks : List (Token F)) (tok : Token F) :
    indents (toks ++ [tok]) = indents toks+(if isIndent tok then 1 else 0) ∧
      dedents (toks ++ [tok]) = dedents toks+(if isDedent tok then 1 else 0) := by
  simp [indents, dedents, List.countP_append, List.countP_singleton]

theorem Levels.other (h : Levels toks n) (hin : isIndent tok = false) (hde : isDedent tok = false) :
    Levels (toks ++ [tok]) n := by
  refine h.snoc ?_ h.bound
  obtain ⟨hi, hd⟩ := indents_snoc toks tok
  have := h.balance
  rw [hi, hd, hin, hde]
  simpa using this

theorem Levels.indent (h : Levels toks n) (hn : n < 99) :
    Levels (toks ++ [Token.indent]) (n+1) := by
  refine h.snoc ?_ hn
  obtain ⟨hi, hd⟩ := indents_snoc toks .indent
  have := h.balance
  rw [hi, hd]
  simp only [isIndent, isDedent, if_true, Bool.false_eq_true, if_false]
  omega

theorem Levels.dedent (h : Levels toks (n+1)) : Levels (toks ++ [Token.dedent]) n := by
  refine h.snoc ?_ (Nat.le_of_succ_le h.bound)
  obtain ⟨hi, hd⟩ := indents_snoc toks .dedent
  have := h.balance
  rw [hi, hd]
  simp only [isIndent, isDedent, if_true, Bool.false_eq_true, if_false]
  omega

/-- The tokens that stand for the lines come outside brackets, and the end does not come. -/
structure Quiet (toks : List (Token F)) : Prop where
  outside : ∀ pre t post, toks = pre ++ t::post → structural t = true → depthOf pre = 0
  noEof : ∀ t ∈ toks, isEof t = false

theorem Quiet.snoc (h : Quiet toks) (hout : structural tok = true → depthOf toks = 0)
    (heof : isEof tok = false) : Quiet (toks ++ [tok]) := by
  constructor
  · intro pre t post heq ht
    rcases List.eq_nil_or_concat post with rfl | ⟨post, last, rfl⟩
    · obtain ⟨rfl, hsame⟩ := List.append_inj' heq rfl
      obtain rfl : tok = t := by simpa using hsame
      exact hout ht
    · rw [List.concat_eq_append, ← List.cons_append, ← List.append_assoc] at heq
      obtain ⟨rfl, -⟩ := List.append_inj' heq rfl
      exact h.outside pre t post rfl ht
  · intro t ht
    rcases List.mem_append.mp ht with ht | ht
    · exact h.noEof t ht
    · obtain rfl := List.mem_singleton.mp ht
      exact heof

/-- What holds of the tokens between two rounds. -/
structure Shaped (toks : List (Token F)) (depth n : ℕ) : Prop where
  levels : Levels toks n
  quiet : Quiet toks
  depth : depthOf toks = depth

theorem Shaped.real (h : Shaped toks depth n) (htok : structural tok = false) :
    Shaped (toks ++ [tok]) (depthAfter depth (some tok)) n := by
  have hkinds : isIndent tok = false ∧ isDedent tok = false ∧ isEof tok = false := by
    cases tok <;> first | exact ⟨rfl, rfl, rfl⟩ | cases htok
  refine ⟨h.levels.other hkinds.1 hkinds.2.1, h.quiet.snoc ?_ hkinds.2.2, ?_⟩
  · rw [htok]
    rintro ⟨⟩
  · rw [depthOf_snoc, h.depth]

theorem Shaped.newline (h : Shaped toks 0 n) : Shaped (toks ++ [Token.newline]) 0 n :=
  ⟨h.levels.other rfl rfl, h.quiet.snoc (fun _ => h.depth) rfl, by rw [depthOf_snoc, h.depth]; rfl⟩

theorem Shaped.indent (h : Shaped toks 0 n) (hn : n < 99) :
    Shaped (toks ++ [Token.indent]) 0 (n+1) :=
  ⟨h.levels.indent hn, h.quiet.snoc (fun _ => h.depth) rfl, by rw [depthOf_snoc, h.depth]; rfl⟩

theorem Shaped.dedent (h : Shaped toks 0 (n+1)) : Shaped (toks ++ [Token.dedent]) 0 n :=
  ⟨h.levels.dedent, h.quiet.snoc (fun _ => h.depth) rfl, by rw [depthOf_snoc, h.depth]; rfl⟩

theorem depthAfter_eq (d : ℕ) (t : Token F) : depthAfter d (some t) =
    if opensBracket t then d+1 else if closesBracket t then d-1 else d := by
  cases t <;> rfl

theorem opens_not_closes {t : Token F} (h : opensBracket t = true) : closesBracket t = false := by
  cases t <;> first | rfl | cases h

/-- The depth, counted from the brackets. -/
theorem depth_count (toks : List (Token F)) (d : ℕ)
    (h : ∀ p, p <+: toks → p.countP closesBracket ≤ p.countP opensBracket+d) :
    toks.foldl (fun depth tok => depthAfter depth (some tok)) d+toks.countP closesBracket =
      d+toks.countP opensBracket := by
  induction toks generalizing d with
  | nil => rfl
  | cons t toks ih =>
    have hrest : ∀ p, p <+: toks → (t::p).countP closesBracket ≤ (t::p).countP opensBracket+d :=
      fun p hp => h (t::p) (List.cons_prefix_cons.mpr ⟨rfl, hp⟩)
    rw [List.foldl_cons, depthAfter_eq]
    by_cases hopen : opensBracket t = true
    · have hclose := opens_not_closes hopen
      rw [if_pos hopen, List.countP_cons_of_pos hopen,
        List.countP_cons_of_neg (by simp [hclose])]
      have hgo := ih (d+1) fun p hp => by
        have := hrest p hp
        rw [List.countP_cons_of_pos hopen, List.countP_cons_of_neg (by simp [hclose])] at this
        omega
      omega
    · rw [if_neg hopen, List.countP_cons_of_neg hopen]
      by_cases hclose : closesBracket t = true
      · have hd := hrest [] List.nil_prefix
        rw [List.countP_cons_of_pos hclose, List.countP_cons_of_neg hopen] at hd
        rw [if_pos hclose, List.countP_cons_of_pos hclose]
        have hgo := ih (d-1) fun p hp => by
          have := hrest p hp
          rw [List.countP_cons_of_pos hclose, List.countP_cons_of_neg hopen] at this
          simp only [List.countP_nil] at hd
          omega
        simp only [List.countP_nil] at hd
        omega
      · rw [if_neg hclose, List.countP_cons_of_neg hclose]
        refine ih d fun p hp => ?_
        have := hrest p hp
        rwa [List.countP_cons_of_neg hclose, List.countP_cons_of_neg hopen] at this

/-- Behind an opening bracket nothing comes outside brackets until it is closed. -/
theorem depth_inside {pre p inner : List (Token F)} {o : Token F} (ho : opensBracket o = true)
    (hinner : Balanced inner) (hp : p <+: inner) : 0 < depthOf (pre ++ o::p) := by
  have hcount := depth_count p (depthOf pre+1) fun q hq => by
    have := hinner.2 q (hq.trans hp)
    omega
  have hle := hinner.2 p hp
  rw [depthOf, List.foldl_append, List.foldl_cons, depthAfter_eq, if_pos ho]
  rw [depthOf] at hcount
  omega

/-- The properties of a whole stream. -/
structure WellNested (toks : List (Token F)) : Prop where
  balanced : indents toks = dedents toks
  prefixes : ∀ p, p <+: toks → dedents p ≤ indents p ∧ indents p ≤ dedents p+99
  eof : ∃ rest, toks = rest ++ [Token.eof] ∧ ∀ t ∈ rest, isEof t = false
  brackets : ∀ pre o inner c post, toks = pre ++ o::(inner ++ c::post) → opensBracket o = true →
    closesBracket c = true → Balanced inner → ∀ t ∈ inner, structural t = false

theorem Levels.dedents (h : Levels toks n) :
    Levels (toks ++ List.replicate n Token.dedent) 0 := by
  induction n generalizing toks with
  | zero => rwa [List.replicate_zero, List.append_nil]
  | succ n ih =>
    rw [List.replicate_succ, List.append_cons]
    exact ih h.dedent

theorem closes_not_end {c : Token F} (hc : closesBracket c = true) (n : ℕ) :
    c ∉ List.replicate n Token.dedent ++ [Token.eof] := by
  intro hmem
  rcases List.mem_append.mp hmem with hmem | hmem
  · rw [List.eq_of_mem_replicate hmem] at hc
    cases hc
  · rw [List.mem_singleton.mp hmem] at hc
    cases hc

/-- The dedents at the end and the end close every stream. -/
theorem Shaped.closed (h : Shaped toks depth n) :
    WellNested (toks ++ List.replicate n Token.dedent ++ [Token.eof]) := by
  have hlevels := @Levels.other _ _ .eof _ h.levels.dedents rfl rfl
  refine ⟨hlevels.balance, hlevels.prefixes, ⟨_, rfl, ?_⟩, ?_⟩
  · intro t ht
    rcases List.mem_append.mp ht with ht | ht
    · exact h.quiet.noEof t ht
    · rw [List.eq_of_mem_replicate ht]
      rfl
  · intro pre o inner c post heq ho hc hinner t ht
    by_contra hstructural
    have hsplit : toks ++ (List.replicate n Token.dedent ++ [Token.eof]) =
        (pre ++ o::inner) ++ c::post := by
      rw [← List.append_assoc, heq]
      simp
    -- the closing bracket is none of the tokens at the end
    have hpost : ∃ post', toks = (pre ++ o::inner) ++ c::post' := by
      rcases List.append_eq_append_iff.mp hsplit with ⟨as, hpre, hend⟩ | ⟨bs, htoks, hrest⟩
      · exact absurd (by rw [hend]; simp) (closes_not_end hc n)
      · rcases bs with _ | ⟨b, bs⟩
        · rw [List.nil_append] at hrest
          exact absurd (by rw [← hrest]; simp) (closes_not_end hc n)
        · obtain ⟨rfl, -⟩ := List.cons.inj hrest
          exact ⟨bs, htoks⟩
    obtain ⟨post', htoks⟩ := hpost
    obtain ⟨p, q, rfl⟩ := List.append_of_mem ht
    have hzero := h.quiet.outside (pre ++ o::p) t (q ++ c::post') (by rw [htoks]; simp)
      (by simpa using hstructural)
    have hpos := @depth_inside _ pre p (p ++ t::q) o ho hinner (List.prefix_append _ _)
    omega

end streams

/-! ## What the lexer keeps -/

section lexer
variable {F : Type} {T : Tables F} {chars : List ℕ} {pos : ℕ}

/-- The tokens without their places. -/
def kinds (lex : LexState F) : List (Token F) := lex.tokens.map Spelled.tok

theorem kinds_emit (lex : LexState F) (tok : Token F) :
    kinds (lex.emit tok) = kinds lex ++ [tok] := by
  rw [kinds, LexState.emit, List.map_append]
  rfl

theorem newline_shaped {lex : LexState F} {depth n : ℕ} (h : Shaped (kinds lex) depth n) {c : Prop}
    [Decidable c] (hc : c → depth = 0) :
    Shaped (kinds (if c then lex.emit .newline else lex)) depth n := by
  split
  case isTrue hyes =>
    obtain rfl := hc hyes
    rw [kinds_emit]
    exact h.newline
  case isFalse => exact h

/-- A round inside a line. -/
theorem line_shaped {ls : LineState F} {es : List (Extent F)} {n : ℕ}
    {m : Move (LineState F) ((LexState F × ℕ) × ℕ)} (hin : Inside T chars pos ls es)
    (h : Shaped (kinds ls.lex) ls.parenDepth n) (hstep : lineStep T chars pos ls = .ok m) :
    (∀ pos' ls', m = .on pos' ls' → Shaped (kinds ls'.lex) ls'.parenDepth n) ∧
      ∀ r, m = .stop r → Shaped (kinds r.1.1) r.1.2 n := by
  rcases lineStep_cases hstep with ⟨-, rfl⟩ | ⟨-, -, rfl⟩ | ⟨-, -, rfl⟩ |
    ⟨c, tok, next, lex, hc, hne, htok, hfin, rfl⟩
  · refine ⟨by rintro _ _ ⟨⟩, ?_⟩
    rintro _ ⟨⟩
    exact newline_shaped (by exact h) And.left
  · refine ⟨?_, by rintro _ ⟨⟩⟩
    rintro _ _ ⟨⟩
    exact h
  · refine ⟨by rintro _ _ ⟨⟩, ?_⟩
    rintro _ ⟨⟩
    exact newline_shaped (by exact h) id
  · refine ⟨?_, by rintro _ ⟨⟩⟩
    rintro _ _ ⟨⟩
    have hwithin := @tokenAt_gives _ T _ _ ls.lex.lineStartPos _ hc
    rw [htok] at hwithin
    obtain ⟨-, hlt, hle⟩ := hwithin
    obtain ⟨-, -, htokens⟩ := finishToken_ok (Nat.le_of_lt hlt) hle (hin.agrees.line hin.le)
      hin.start hfin
    change Shaped (lex.tokens.map Spelled.tok) (depthAfter ls.parenDepth tok) n
    rw [htokens, List.map_append]
    cases tok with
    | none =>
      rw [Option.map_none, Option.toList_none, List.map_nil, List.append_nil]
      exact h
    | some tok => exact h.real (tokenAt_real htok)

theorem line_run_shaped {ls : LineState F} {es : List (Extent F)} {n : ℕ}
    {r : (LexState F × ℕ) × ℕ} (hin : Inside T chars pos ls es)
    (h : Shaped (kinds ls.lex) ls.parenDepth n) (hreturns : Returns (lineStep T chars) pos ls r) :
    Shaped (kinds r.1.1) r.1.2 n := by
  obtain ⟨pos', ls', hr, hstop⟩ := hreturns.stops
  have hkeeps := @Reaches.keeps _ _ _ _ _ _ _ _ (fun pos (ls : LineState F) =>
    (∃ es, Inside T chars pos ls es) ∧ Shaped (kinds ls.lex) ls.parenDepth n) hr
    (fun _ _ _ _ hinv hstep => by
      obtain ⟨⟨es, hin⟩, hshaped⟩ := hinv
      exact ⟨hin.on hstep, (line_shaped hin hshaped hstep).1 _ _ rfl⟩) ⟨⟨es, hin⟩, h⟩
  obtain ⟨⟨es', hin'⟩, hshaped⟩ := hkeeps
  exact (line_shaped hin' hshaped hstop).2 _ rfl

/-- What the lexer keeps at the head of a line: one level for each indent that is open. -/
def HeadShaped (s : SourceState F) : Prop :=
  ∃ n, s.indentStack.length = n+1 ∧ Shaped (kinds s.lex) s.parenDepth n

theorem dedentTo_shaped {indent n : ℕ} {stack : List ℕ} {lex : LexState F}
    {r : LexState F × List ℕ} (h : dedentTo indent lex stack = .ok r)
    (hstack : stack.length = n+1) (hshaped : Shaped (kinds lex) 0 n) :
    ∃ m, r.2.length = m+1 ∧ Shaped (kinds r.1) 0 m := by
  induction stack generalizing lex n with
  | nil => cases h
  | cons top rest ih =>
    rw [dedentTo] at h
    split at h
    · rcases n with _ | n
      · rcases rest with _ | ⟨next, rest⟩
        · cases h
        · simp at hstack
      · refine ih h (by simpa using hstack) ?_
        rw [kinds_emit]
        exact hshaped.dedent
    · cases h
      exact ⟨n, hstack, hshaped⟩

theorem handleIndent_shaped {indent n : ℕ} {stack : List ℕ} {lex : LexState F}
    {r : LexState F × List ℕ} (h : handleIndent indent lex stack = .ok r)
    (hstack : stack.length = n+1) (hshaped : Shaped (kinds lex) 0 n) :
    ∃ m, r.2.length = m+1 ∧ Shaped (kinds r.1) 0 m := by
  obtain ⟨current, -, h⟩ := bind_ok h
  split at h
  · split at h
    case isTrue => cases h
    case isFalse hmax =>
      cases h
      refine ⟨n+1, by simp [hstack], ?_⟩
      rw [kinds_emit]
      exact hshaped.indent (by unfold maxIndentLevels at hmax; omega)
  · obtain ⟨r', hdedent, h⟩ := bind_ok h
    obtain ⟨after, -, h⟩ := bind_ok h
    split at h
    · cases h
    · cases h
      exact dedentTo_shaped hdedent hstack hshaped

theorem source_shaped {s s' : SourceState F} {es : List (Extent F)} {pos' : ℕ}
    (hat : AtHead T chars pos s.lex s.parenDepth es) (h : HeadShaped s)
    (hstep : sourceStep T chars pos s = .ok (.on pos' s')) : HeadShaped s' := by
  obtain ⟨n, hstack, hshaped⟩ := h
  rcases sourceStep_cases hstep with ⟨-, hm⟩ | ⟨hpos, next, lex, hhead, hm⟩ |
    ⟨hpos, content, lex, stack, r, hhead, hline, hm⟩
  · cases hm
  · cases hm
    refine ⟨n, hstack, ?_⟩
    rcases lineHead_cases hhead with ⟨-, -, hm⟩ | ⟨-, -, hm⟩ | ⟨-, -, r, -, hm⟩ | ⟨-, -, hm⟩
    · cases hm
      exact newline_shaped (by exact hshaped) id
    · cases hm
      exact newline_shaped (by exact hshaped) id
    · cases hm
    · cases hm
  · cases hm
    have hin := hat.inside hpos hhead
    rcases lineHead_cases hhead with ⟨-, -, hm⟩ | ⟨-, -, hm⟩ | ⟨-, hdepth, r', hindent, hm⟩ |
      ⟨-, -, hm⟩
    · cases hm
    · cases hm
    · cases hm
      rw [hdepth] at hshaped
      obtain ⟨m, hlen, hafter⟩ := handleIndent_shaped hindent hstack (by exact hshaped)
      refine ⟨m, hlen, line_run_shaped hin ?_ ⟨_, hline⟩⟩
      rw [hdepth]
      exact hafter
    · cases hm
      exact ⟨n, hstack, line_run_shaped hin (by exact hshaped) ⟨_, hline⟩⟩

theorem start_shaped : HeadShaped (SourceState.start F) := by
  refine ⟨0, rfl, ⟨rfl, fun p hp => ?_⟩, ⟨fun pre t post heq => ?_, fun t ht => ?_⟩, rfl⟩
  · rw [List.prefix_nil.mp hp]
    exact ⟨Nat.le_refl _, Nat.zero_le _⟩
  · rcases pre with _ | ⟨x, pre⟩ <;> cases heq
  · cases ht

theorem reached_shaped {s : SourceState F}
    (hr : Reaches (sourceStep T chars) 0 (SourceState.start F) pos s) : HeadShaped s := by
  have hkeeps := @Reaches.keeps _ _ _ _ _ _ _ _ (fun pos (s : SourceState F) =>
    (∃ es, AtHead T chars pos s.lex s.parenDepth es) ∧ HeadShaped s) hr
    (fun _ _ _ _ hinv hstep => by
      obtain ⟨⟨es, hat⟩, hshaped⟩ := hinv
      exact ⟨hat.on hstep, source_shaped hat hshaped hstep⟩) ⟨⟨[], atHead_start⟩, start_shaped⟩
  exact hkeeps.2

theorem kinds_dedents (n : ℕ) (lex : LexState F) :
    kinds ((List.replicate n Token.dedent).foldl LexState.emit lex) =
      kinds lex ++ List.replicate n Token.dedent := by
  induction n generalizing lex with
  | zero => rw [List.replicate_zero, List.append_nil]; rfl
  | succ n ih =>
    rw [List.replicate_succ, List.foldl_cons, ih, kinds_emit, ← List.append_cons]

theorem lexed_nested {toks : List (Spelled F)} (h : lexSource T chars = .ok toks) :
    WellNested (toks.map Spelled.tok) := by
  obtain ⟨s, p, -, hr, -, rfl⟩ := lexSource_ok h
  obtain ⟨n, hstack, hshaped⟩ := reached_shaped hr
  change WellNested (kinds _)
  rw [kinds_emit, kinds_dedents, hstack, Nat.add_sub_cancel]
  exact hshaped.closed

/-- The line a head begins, before its first token. -/
theorem head_shaped {s : SourceState F} {content : ℕ} {lex : LexState F} {stack : List ℕ}
    (h : HeadShaped s) (hhead : lineHead chars pos s = .ok (.code content lex stack)) :
    ∃ m, stack.length = m+1 ∧ Shaped (kinds lex) s.parenDepth m := by
  obtain ⟨n, hstack, hshaped⟩ := h
  rcases lineHead_cases hhead with ⟨-, -, hm⟩ | ⟨-, -, hm⟩ | ⟨-, hdepth, r', hindent, hm⟩ |
    ⟨-, -, hm⟩
  · cases hm
  · cases hm
  · cases hm
    rw [hdepth] at hshaped ⊢
    exact handleIndent_shaped hindent hstack (by exact hshaped)
  · cases hm
    exact ⟨n, hstack, by exact hshaped⟩

theorem LineReached.shaped {ls : LineState F} (h : LineReached T chars pos ls) :
    depthOf (kinds ls.lex) = ls.parenDepth := by
  obtain ⟨p, s, content, lex, stack, hr, hp, hhead, hline⟩ := h
  obtain ⟨es, hat⟩ := reaches_head hr
  obtain ⟨m, -, hshaped⟩ := head_shaped (reached_shaped hr) hhead
  have hkeeps := @Reaches.keeps _ _ _ _ _ _ _ _ (fun pos (ls : LineState F) =>
    (∃ es, Inside T chars pos ls es) ∧ Shaped (kinds ls.lex) ls.parenDepth m) hline
    (fun _ _ _ _ hinv hstep => by
      obtain ⟨⟨es, hin⟩, hshaped⟩ := hinv
      exact ⟨hin.on hstep, (line_shaped hin hshaped hstep).1 _ _ rfl⟩)
    ⟨⟨es, hat.inside hp hhead⟩, hshaped⟩
  exact hkeeps.2.depth

/-! ## Line feeds -/

/-- A backslash stands before the line end, which may be a carriage return and a line feed. -/
def BackslashBefore (chars : List ℕ) (pos : ℕ) : Prop :=
  (0 < pos ∧ chars[pos-1]? = some 0x5C) ∨
    (1 < pos ∧ chars[pos-1]? = some 0x0D ∧ chars[pos-2]? = some 0x5C)

/-- The tokens have grown by a `Newline`. -/
def YieldsNewline (before after : LexState F) : Prop :=
  kinds after = kinds before ++ [Token.newline]

/-- The state a round of a line leaves. -/
def lexOf : Move (LineState F) ((LexState F × ℕ) × ℕ) → LexState F
  | .on _ ls => ls.lex
  | .stop r => r.1.1

/-- Every line feed outside brackets, strings and comments yields a `Newline` unless a backslash
stands before it; so do those of blank lines and comments. -/
structure NewlinesKept (T : Tables F) (chars : List ℕ) : Prop where
  line : ∀ pos ls, LineReached T chars pos ls → chars[pos]? = some 0x0A →
    depthOf (kinds ls.lex) = 0 → ¬ BackslashBefore chars pos →
    ∃ m, lineStep T chars pos ls = .ok m ∧ YieldsNewline ls.lex (lexOf m)
  blank : ∀ pos s next lex, Reaches (sourceStep T chars) 0 (SourceState.start F) pos s →
    pos ≤ chars.length → lineHead chars pos s = .ok (.blank next lex) →
    depthOf (kinds s.lex) = 0 → YieldsNewline s.lex lex

/-- Outside brackets a line ends on which a backslash has been passed, and not right before the
line end. -/
def StrayBackslash (T : Tables F) (chars : List ℕ) : Prop :=
  ∃ pos es, Walk T chars .inside pos es true ∧ chars[pos]? = some 0x0A ∧
    depthOf (es.map Extent.tok) = 0 ∧ ¬ BackslashBefore chars pos

theorem blank_kept {s : SourceState F} {next : ℕ} {lex : LexState F}
    (hr : Reaches (sourceStep T chars) 0 (SourceState.start F) pos s)
    (hhead : lineHead chars pos s = .ok (.blank next lex)) (hdepth : depthOf (kinds s.lex) = 0) :
    YieldsNewline s.lex lex := by
  obtain ⟨n, -, hshaped⟩ := reached_shaped hr
  have hzero : s.parenDepth = 0 := hshaped.depth.symm.trans hdepth
  rcases lineHead_cases hhead with ⟨-, -, hm⟩ | ⟨-, -, hm⟩ | ⟨-, -, r, -, hm⟩ | ⟨-, -, hm⟩
  · cases hm
    rw [blankLex, if_pos hzero]
    exact kinds_emit _ _
  · cases hm
    rw [blankLex, if_pos hzero]
    exact kinds_emit _ _
  · cases hm
  · cases hm

theorem newlines_kept_iff {final : SourceState F}
    (hreturns : Returns (sourceStep T chars) 0 (SourceState.start F) final) :
    NewlinesKept T chars ↔ ¬ StrayBackslash T chars := by
  constructor
  · rintro hkept ⟨pos, es, hwalk, hfeed, hdepth, hno⟩
    obtain ⟨ls, hls, hcont, hsame⟩ := walk_matched hreturns hwalk
    have hzero : depthOf (kinds ls.lex) = 0 :=
      (LineReached.shaped hls).trans (hsame.trans hdepth)
    obtain ⟨m, hm, hyields⟩ := hkept.line pos ls hls hfeed hzero hno
    rcases lineStep_cases hm with ⟨hnone, -⟩ | ⟨-, -, rfl⟩ | ⟨-, hstop, -⟩ |
      ⟨c, -, -, -, hc, hne, -, -, -⟩
    · cases hfeed.symm.trans hnone
    · have hlen := congrArg List.length hyields
      rw [List.length_append] at hlen
      exact absurd hlen (by simp [kinds, lexOf, atColumn, LexState.countLine])
    · cases hcont.symm.trans hstop
    · cases hfeed.symm.trans hc
      exact absurd rfl hne
  · intro hnone
    refine ⟨fun pos ls hls hfeed hzero hno => ?_, fun pos s next lex hr _ hhead hdepth =>
      blank_kept hr hhead hdepth⟩
    obtain ⟨m, hm⟩ := hls.round hreturns
    refine ⟨m, hm, ?_⟩
    have hdepth : ls.parenDepth = 0 := (LineReached.shaped hls).symm.trans hzero
    rcases lineStep_cases hm with ⟨hend, -⟩ | ⟨-, hcont, -⟩ | ⟨-, -, rfl⟩ |
      ⟨c, -, -, -, hc, hne, -, -, -⟩
    · cases hfeed.symm.trans hend
    · obtain ⟨es, hin⟩ := hls.inside
      have hwalk := hin.agrees.walk
      rw [hcont] at hwalk
      exact absurd ⟨pos, es, hwalk, hfeed, hin.agrees.depth.symm.trans hdepth, hno⟩ hnone
    · change kinds (LexState.countLine _) = _
      rw [if_pos hdepth]
      exact kinds_emit _ _
    · cases hfeed.symm.trans hc
      exact absurd rfl hne

/-- For every source text that is lexed, the tokens of the lines are well nested; every line feed
outside brackets, strings and comments yields its token exactly when no line that ends there has a
backslash elsewhere. -/
theorem indentation_nested_iff {toks : List (Spelled F)} (h : lexSource T chars = .ok toks) :
    (WellNested (toks.map Spelled.tok) ∧ NewlinesKept T chars) ↔ ¬ StrayBackslash T chars := by
  obtain ⟨s, p, hreturns, -, -, -⟩ := lexSource_ok h
  rw [newlines_kept_iff hreturns]
  exact and_iff_right (lexed_nested h)

theorem indentation_nested_block : ∃ toks, lexSource bareTables
    [0x69, 0x66, 0x20, 0x78, 0x3A, 0x0A, 0x20, 0x79, 0x0A] = .ok toks ∧
      ((WellNested (toks.map Spelled.tok) ∧
        NewlinesKept bareTables [0x69, 0x66, 0x20, 0x78, 0x3A, 0x0A, 0x20, 0x79, 0x0A]) ↔
          ¬ StrayBackslash bareTables [0x69, 0x66, 0x20, 0x78, 0x3A, 0x0A, 0x20, 0x79, 0x0A]) :=
  ⟨_, rfl, indentation_nested_iff rfl⟩

/-- A backslash, a name and a line feed: `x \ y` and `z` come out as one line. -/
def strayLine : List ℕ := [0x78, 0x20, 0x5C, 0x20, 0x79, 0x0A, 0x7A]

theorem stray_newline_lost : ∃ toks, lexSource bareTables strayLine = .ok toks ∧
    ¬ (WellNested (toks.map Spelled.tok) ∧ NewlinesKept bareTables strayLine) := by
  refine ⟨_, rfl, ?_⟩
  rintro ⟨-, hkept⟩
  obtain ⟨s, p, hreturns, -, -, -⟩ := @lexSource_ok _ bareTables strayLine _ rfl
  refine (newlines_kept_iff hreturns).mp hkept ?_
  have hx : Walk bareTables strayLine .inside 1 [⟨.ident [0x78], 0, 1⟩] false :=
    .token (c := 0x78) (.code .start (Nat.zero_le _) rfl) rfl (by decide) rfl
  have hslash : Walk bareTables strayLine .inside 3 [⟨.ident [0x78], 0, 1⟩] true :=
    .skip (c := 0x5C) (.skip (c := 0x20) hx rfl (by decide) rfl) rfl (by decide) rfl
  have hy : Walk bareTables strayLine .inside 5 [⟨.ident [0x78], 0, 1⟩, ⟨.ident [0x79], 4, 5⟩]
      true :=
    .token (c := 0x79) (.skip (c := 0x20) hslash rfl (by decide) rfl) rfl (by decide) rfl
  refine ⟨5, _, hy, rfl, rfl, ?_⟩
  unfold BackslashBefore strayLine
  decide

end lexer

end Pyrust.LexerNesting
