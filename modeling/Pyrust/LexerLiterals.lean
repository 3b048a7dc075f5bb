import Pyrust.LexerTokens

/-!
# Literals, with their slices checked

The loops of `lex_string` once more, this time with every slice and subtraction
of `parse_escape` checked. None of them fails, and the literal is the one that
the unchecked loops read.
-/

set_option autoImplicit false

namespace Pyrust.LexerLiterals

open ScanLoop StringLiterals Cesu8 EscapeCodec LexerTokens

/-- The slices that `parse_escape` takes for `\N`. -/
def escapeSlices (chars : List ℕ) (pos contentStart : ℕ) : Scan LexError Unit :=
  if chars[pos]? = some 0x4E then do
    let backslash ← sub pos 1
    let _ ← sliceOf chars contentStart backslash
    if chars[pos+1]? = some 0x7B then
      let close := spanEnd (· ≠ 0x7D) chars (pos+2)
      if chars.length ≤ close then
        let _ ← sliceOf chars (pos+2) chars.length
        pure ()
      else
        let name ← sliceOf chars (pos+2) close
        if name = [] then pure ()
        else
          let _ ← sliceOf chars contentStart close
          pure ()
    else pure ()
  else pure ()

section literals
variable {F : Type} (T : Tables F) (chars : List ℕ)

def lexEscapeAt (eof : String) (pos contentStart : ℕ) : Scan LexError (List ℕ × ℕ) := do
  escapeSlices chars pos contentStart
  lift (lexEscape T.namedCharacter eof chars pos contentStart)

section strings
variable (quote : ℕ) (raw : Bool) (contentStart : ℕ)

/-- A round of a literal in single quotes. -/
def stringStep (pos : ℕ) (out : List ℕ) : Scan LexError (Move (List ℕ) (List ℕ × ℕ)) :=
  match chars[pos]? with
  | none => fail (.lex "unterminated string literal")
  | some c =>
    if c = quote then pure (.stop (out, pos+1))
    else if c = 0x5C then
      if raw then match chars[pos+1]? with
        | none => fail (.lex
            "EOL while scanning string literal (trailing backslash in raw string)")
        | some next => pure (.on (pos+2) (out ++ 0x5C::encodeUtf8 next))
      else do
        let (frag, next) ← lexEscapeAt T chars "EOL while scanning string literal" (pos+1)
          contentStart
        pure (.on next (out ++ frag))
    else pure (.on (pos+1) (out ++ encodeUtf8 c))

/-- A round of a literal in triple quotes. -/
def tripleStep (pos : ℕ) (out : List ℕ) : Scan LexError (Move (List ℕ) (List ℕ × ℕ)) :=
  if tripleQuoted chars quote pos then pure (.stop (out, pos+3))
  else match chars[pos]? with
    | none => fail (.lex "unterminated triple-quoted string")
    | some c =>
      if c = 0x5C then
        if raw then match chars[pos+1]? with
          | none => fail (.lex
              "EOL while scanning string literal (trailing backslash in raw string)")
          | some next => pure (.on (pos+2) (out ++ 0x5C::encodeUtf8 next))
        else do
          let (frag, next) ← lexEscapeAt T chars "unterminated escape" (pos+1) contentStart
          pure (.on next (out ++ frag))
      else if c = 0x0D then
        pure (.on (if chars[pos+1]? = some 0x0A then pos+2 else pos+1) (out ++ [0x0A]))
      else pure (.on (pos+1) (out ++ encodeUtf8 c))

end strings

/-- Two more quotes follow the opening one. -/
def opensTriple (start quote : ℕ) : Bool :=
  chars[start+1]? = some quote && chars[start+2]? = some quote

/-- The loops of `lex_string`. -/
def lexStringFrom (start quote : ℕ) (raw : Bool) : Scan LexError (List ℕ × ℕ) :=
  if opensTriple chars start quote then
    run (tripleStep T chars quote raw (start+3)) (chars.length+2) (start+3) []
  else run (stringStep T chars quote raw (start+1)) (chars.length+2) (start+1) []

/-- `lex_string`. -/
def lexStringAt (start : ℕ) (raw : Bool) : Scan LexError (Token F × ℕ) := do
  let quote ← index chars start
  let r ← lexStringFrom T chars start quote raw
  pure (.str r.1, r.2)

variable (F) in
/-- `lex_bytes`, which indexes the opening quote and slices nothing. -/
def lexBytesAt (start : ℕ) (raw : Bool) : Scan LexError (Token F × ℕ) := do
  let _ ← index chars start
  let r ← lift (lexBytes chars start raw)
  pure (.bytes r.1, r.2)

/-! ## Escapes -/

variable {T chars} {pos contentStart next start c : ℕ}

/-- Behind the start of the content every slice lies in the text. -/
theorem escapeSlices_ok (hpos : pos ≤ chars.length) (hstart : contentStart < pos) :
    escapeSlices chars pos contentStart = .ok () := by
  have hle := le_spanEnd (· ≠ 0x7D) chars (pos+2)
  unfold escapeSlices
  split
  · rw [sub_of_le (by omega)]
    show (sliceOf chars contentStart (pos-1) >>= fun _ => _) = _
    rw [sliceOf_of_le (by omega) (by omega)]
    show (if chars[pos+1]? = some 0x7B then _ else _) = _
    split
    case isTrue hbrace =>
      have hbehind : pos+2 ≤ chars.length := lt_length hbrace
      split
      · rw [sliceOf_of_le hbehind (Nat.le_refl _)]
        rfl
      · rw [sliceOf_of_le hle (by omega), sliceOf_of_le (by omega) (by omega)]
        exact ite_self _
    case isFalse => rfl
  · rfl

theorem lexEscapeAt_eq {eof : String} (hpos : pos ≤ chars.length) (hstart : contentStart < pos) :
    lexEscapeAt T chars eof pos contentStart =
      lift (lexEscape T.namedCharacter eof chars pos contentStart) := by
  rw [lexEscapeAt, escapeSlices_ok hpos hstart]
  rfl

theorem octalTail_le (h : pos < chars.length) : pos+1+(octalTail chars pos).length ≤ chars.length := by
  have hle : (octalTail chars pos).length ≤ ((chars.drop (pos+1)).take 2).length :=
    (List.takeWhile_prefix _).length_le
  rw [List.length_take, List.length_drop] at hle
  omega

theorem wideEscape_le {letter : String} {n extra : ℕ} {frag : List ℕ}
    (h : wideEscape letter n chars pos = .ok (frag, extra)) (hpos : pos < chars.length) :
    pos+1+extra ≤ chars.length := by
  unfold wideEscape at h
  dsimp only at h
  split at h
  · cases h
  case isFalse hlen =>
    rw [List.length_take, List.length_drop] at hlen
    split at h
    · cases h
    · split at h
      · cases h
      · split at h
        · cases h
        · cases h
          omega

theorem namedEscape_le {namedCharacter : List ℕ → Option ℕ} {extra : ℕ} {frag : List ℕ}
    (h : StringLiterals.namedEscape namedCharacter chars pos contentStart = .ok (frag, extra)) :
    pos+1+extra ≤ chars.length := by
  unfold StringLiterals.namedEscape at h
  dsimp only at h
  split at h
  · cases h
  · split at h
    · cases h
    · split at h
      · cases h
      · split at h
        · cases h
        · cases h
          omega

theorem parseEscape_le {namedCharacter : List ℕ → Option ℕ} {extra : ℕ} {frag : List ℕ}
    (h : parseEscape namedCharacter chars pos contentStart = .ok (frag, extra)) :
    pos+1+extra ≤ chars.length := by
  unfold parseEscape at h
  split at h
  · cases h
  case h_2 c hc =>
    have hpos := lt_length hc
    split at h
    · cases h
      exact hpos
    · split at h
      · cases h
        exact octalTail_le hpos
      split at h
      · split at h
        case h_1 hi lo _ hlo =>
          have hend : pos+2 < chars.length := lt_length hlo
          split at h
          · cases h
            omega
          · cases h
        case h_2 => cases h
      split at h
      · exact wideEscape_le h hpos
      split at h
      · exact wideEscape_le h hpos
      split at h
      · exact namedEscape_le h
      · cases h
        exact hpos

/-- A line end that is consumed, of one or two characters. -/
theorem lineEnd_bounds (h : pos < chars.length) :
    pos < (if chars[pos+1]? = some 0x0A then pos+2 else pos+1) ∧
      (if chars[pos+1]? = some 0x0A then pos+2 else pos+1) ≤ chars.length := by
  split_ifs with hfeed
  · exact ⟨by omega, lt_length hfeed⟩
  · exact ⟨by omega, h⟩

theorem lexEscape_le {namedCharacter : List ℕ → Option ℕ} {eof : String} {frag : List ℕ}
    (h : lexEscape namedCharacter eof chars pos contentStart = .ok (frag, next)) :
    next ≤ chars.length := by
  unfold lexEscape at h
  split at h
  · cases h
  case h_2 c hc =>
    have hpos := lt_length hc
    split at h
    · cases h
      exact hpos
    · split at h
      · cases h
        exact (lineEnd_bounds hpos).2
      · split at h
        · cases h
        case h_2 hparse =>
          cases h
          exact parseEscape_le hparse

theorem lexEscapeAt_gives {eof : String} (hpos : pos ≤ chars.length) (hstart : contentStart < pos) :
    Gives False (Within chars pos) (lexEscapeAt T chars eof pos contentStart) := by
  rw [lexEscapeAt_eq hpos hstart]
  apply gives_lift
  rintro ⟨frag, next⟩ h
  exact ⟨lexEscape_next h, lexEscape_le h⟩

/-! ## Strings -/

section rounds
variable {quote : ℕ} {raw : Bool} {out : List ℕ}

theorem stringStep_gives (hstart : contentStart ≤ pos) :
    Gives False (Forward chars.length (fun p _ => contentStart ≤ p) (Within chars contentStart) pos)
      (stringStep T chars quote raw contentStart pos out) := by
  unfold stringStep
  split
  · exact gives_fail _
  case h_2 c hc =>
    have hlt := lt_length hc
    split
    · exact gives_pure ⟨Nat.lt_succ_of_le hstart, hlt⟩
    split
    · split
      · split
        · exact gives_fail _
        case h_2 hnext =>
          have hbehind : pos+1 < chars.length := lt_length hnext
          exact gives_pure ⟨by omega, hbehind, by omega⟩
      · refine (lexEscapeAt_gives hlt (by omega)).bind ?_
        rintro ⟨frag, next⟩ hnext
        have hgo : pos+1 < next := hnext.1
        exact gives_pure ⟨by omega, hnext.2, by omega⟩
    · exact gives_pure ⟨by omega, hlt, by omega⟩

theorem tripleQuoted_le (h : tripleQuoted chars quote pos) : pos+3 ≤ chars.length := by
  simp only [tripleQuoted, Bool.and_eq_true, decide_eq_true_eq] at h
  exact lt_length h.2

theorem tripleStep_gives (hstart : contentStart ≤ pos) :
    Gives False (Forward chars.length (fun p _ => contentStart ≤ p) (Within chars contentStart) pos)
      (tripleStep T chars quote raw contentStart pos out) := by
  unfold tripleStep
  split
  case isTrue hclose =>
    exact gives_pure ⟨by simp only; omega, tripleQuoted_le hclose⟩
  split
  · exact gives_fail _
  case h_2 c hc =>
    have hlt := lt_length hc
    split
    · split
      · split
        · exact gives_fail _
        case h_2 hnext =>
          have hbehind : pos+1 < chars.length := lt_length hnext
          exact gives_pure ⟨by omega, hbehind, by omega⟩
      · refine (lexEscapeAt_gives hlt (by omega)).bind ?_
        rintro ⟨frag, next⟩ hnext
        have hgo : pos+1 < next := hnext.1
        exact gives_pure ⟨by omega, hnext.2, by omega⟩
    split
    · have hend := lineEnd_bounds hlt
      exact gives_pure ⟨hend.1, hend.2, by omega⟩
    · exact gives_pure ⟨by omega, hlt, by omega⟩

theorem lexStringFrom_gives {raw : Bool} (hc : chars[start]? = some c) :
    Gives False (Within chars start) (lexStringFrom T chars start quote raw) := by
  unfold lexStringFrom
  split
  case isTrue hopen =>
    simp only [opensTriple, Bool.and_eq_true, decide_eq_true_eq] at hopen
    have hle : start+3 ≤ chars.length := lt_length hopen.2
    exact (run_gives_sound (fun pos out _ hinv => tripleStep_gives hinv) hle (Nat.le_refl _)
      (by omega)).mono fun r hr => ⟨Nat.lt_trans (by omega) hr.1, hr.2⟩
  case isFalse =>
    have hle : start+1 ≤ chars.length := lt_length hc
    exact (run_gives_sound (fun pos out _ hinv => stringStep_gives hinv) hle (Nat.le_refl _)
      (by omega)).mono fun r hr => ⟨Nat.lt_trans (by omega) hr.1, hr.2⟩

theorem lexStringAt_gives {raw : Bool} (hc : chars[start]? = some c) :
    Gives False (Within chars start) (lexStringAt T chars start raw) := by
  rw [lexStringAt, index_of_some hc]
  exact (lexStringFrom_gives hc).bind fun r hr => gives_pure hr

/-- The checked loop reads what the unchecked one reads. -/
theorem stringLoop_eq {fuel : ℕ} (hstart : contentStart ≤ pos) (hle : pos ≤ chars.length)
    (hfuel : chars.length < pos + fuel) :
    run (stringStep T chars quote raw contentStart) fuel pos out =
      lift (lexStringBody T.namedCharacter chars quote raw contentStart pos out) := by
  induction fuel generalizing pos out with
  | zero => omega
  | succ fuel ih =>
    rw [lexStringBody]
    split
    case h_1 hnone => exact run_error (by simp [stringStep, hnone, fail])
    case h_2 c hc =>
      have hlt := lt_length hc
      split
      case isTrue hq => exact run_stop (by simp [stringStep, hc, hq, pure, Except.pure])
      case isFalse hq =>
      split
      case isTrue hb =>
        subst hb
        split
        case isTrue hraw =>
          split
          case h_1 hnone => exact run_error (by simp [stringStep, hc, hq, hraw, hnone, fail])
          case h_2 next hnext =>
            have hbehind : pos+1 < chars.length := lt_length hnext
            rw [← ih (by omega) hbehind (by omega)]
            exact run_on (by simp [stringStep, hc, hq, hraw, hnext, pure, Except.pure])
        case isFalse hraw =>
          have hescape : lexEscapeAt T chars "EOL while scanning string literal" (pos+1)
              contentStart = _ := lexEscapeAt_eq hlt (Nat.lt_succ_of_le hstart)
          split
          case h_1 hesc =>
            refine run_error ?_
            simp [stringStep, hc, hq, hraw, hescape, hesc, lift, fail, bind, Except.bind]
          case h_2 frag next hesc =>
            have hnext := lexEscape_next hesc
            rw [← ih (by omega) (lexEscape_le hesc) (by omega)]
            refine run_on ?_
            simp [stringStep, hc, hq, hraw, hescape, hesc, lift, pure, Except.pure, bind,
              Except.bind]
      case isFalse hb =>
        rw [← ih (by omega) hlt (by omega)]
        exact run_on (by simp [stringStep, hc, hq, hb, pure, Except.pure])

theorem tripleLoop_eq {fuel : ℕ} (hstart : contentStart ≤ pos) (hle : pos ≤ chars.length)
    (hfuel : chars.length < pos + fuel) :
    run (tripleStep T chars quote raw contentStart) fuel pos out =
      lift (lexStringTriple T.namedCharacter chars quote raw contentStart pos out) := by
  induction fuel generalizing pos out with
  | zero => omega
  | succ fuel ih =>
    rw [lexStringTriple]
    split
    case isTrue hclose => exact run_stop (by simp [tripleStep, hclose, pure, Except.pure])
    case isFalse hopen =>
    split
    case h_1 hnone => exact run_error (by simp [tripleStep, hopen, hnone, fail])
    case h_2 c hc =>
      have hlt := lt_length hc
      split
      case isTrue hb =>
        subst hb
        split
        case isTrue hraw =>
          split
          case h_1 hnone => exact run_error (by simp [tripleStep, hopen, hc, hraw, hnone, fail])
          case h_2 next hnext =>
            have hbehind : pos+1 < chars.length := lt_length hnext
            rw [← ih (by omega) hbehind (by omega)]
            exact run_on (by simp [tripleStep, hopen, hc, hraw, hnext, pure, Except.pure])
        case isFalse hraw =>
          have hescape : lexEscapeAt T chars "unterminated escape" (pos+1) contentStart = _ :=
            lexEscapeAt_eq hlt (Nat.lt_succ_of_le hstart)
          split
          case h_1 hesc =>
            refine run_error ?_
            simp [tripleStep, hopen, hc, hraw, hescape, hesc, lift, fail, bind, Except.bind]
          case h_2 frag next hesc =>
            have hnext := lexEscape_next hesc
            rw [← ih (by omega) (lexEscape_le hesc) (by omega)]
            refine run_on ?_
            simp [tripleStep, hopen, hc, hraw, hescape, hesc, lift, pure, Except.pure, bind,
              Except.bind]
      case isFalse hb =>
        split
        case isTrue hr =>
          have hend := lineEnd_bounds hlt
          rw [← ih (by omega) hend.2 (by omega)]
          exact run_on (by simp [tripleStep, hopen, hc, hr, pure, Except.pure])
        case isFalse hr =>
          rw [← ih (by omega) hlt (by omega)]
          exact run_on (by simp [tripleStep, hopen, hc, hb, hr, pure, Except.pure])

/-- `lex_string` with its slices checked is `lex_string`. -/
theorem lexStringAt_eq {raw : Bool} (hc : chars[start]? = some c) :
    lexStringAt T chars start raw =
      lift (lexString T.namedCharacter chars start raw) >>= fun r => pure (.str r.1, r.2) := by
  have hquote : chars.getD start 0 = c := by simp [List.getD_eq_getElem?_getD, hc]
  have hloops : lexStringFrom T chars start c raw =
      lift (lexString T.namedCharacter chars start raw) := by
    simp only [lexStringFrom, opensTriple, lexString, hquote, Bool.and_eq_true, decide_eq_true_eq]
    split
    case isTrue hopen =>
      have hle : start+3 ≤ chars.length := lt_length hopen.2
      exact tripleLoop_eq (Nat.le_refl _) hle (by omega)
    case isFalse => exact stringLoop_eq (Nat.le_refl _) (lt_length hc) (by omega)
  rw [lexStringAt, index_of_some hc, ← hloops]
  rfl

end rounds

/-! ## Bytes -/

theorem bytesEscape_le {frag : List ℕ} (h : bytesEscape chars pos = .ok (frag, next)) :
    next ≤ chars.length := by
  unfold bytesEscape at h
  split at h
  · cases h
  case h_2 esc hesc =>
    have hpos := lt_length hesc
    split at h
    · cases h
      exact hpos
    split at h
    · cases h
      exact octalTail_le hpos
    split at h
    · split at h
      case h_1 hi lo _ hlo =>
        have hend : pos+2 < chars.length := lt_length hlo
        split at h
        · cases h
          exact hend
        · cases h
      case h_2 => cases h
    split at h
    · cases h
      exact hpos
    split at h
    · cases h
      exact (lineEnd_bounds hpos).2
    split at h
    · cases h
    · cases h
      exact hpos

theorem rawPair_le {pair : List ℕ} (h : rawPair chars pos = .ok pair) : pos+2 ≤ chars.length := by
  unfold rawPair at h
  split at h
  · cases h
  case h_2 hnext => exact lt_length hnext

section bytesLoops
variable {quote : ℕ} {raw : Bool} {out : List ℕ} {r : List ℕ × ℕ}

theorem lexBytesBody_within (h : lexBytesBody chars quote raw pos out = .ok r) :
    Within chars pos r := by
  induction hk : chars.length-pos using Nat.strong_induction_on generalizing pos out with
  | _ k ih =>
    have hgo : ∀ {next out'}, pos < next → next ≤ chars.length →
        lexBytesBody chars quote raw next out' = .ok r → Within chars pos r := by
      intro next out' hlt hle hrest
      have hwithin := ih _ (by omega) hrest rfl
      exact ⟨Nat.lt_trans hlt hwithin.1, hwithin.2⟩
    rw [lexBytesBody] at h
    split at h
    · cases h
    case h_2 c hc =>
      have hpos := lt_length hc
      split at h
      · cases h
        exact ⟨Nat.lt_succ_self _, hpos⟩
      split at h
      · split at h
        · split at h
          · cases h
          case h_2 hpair => exact hgo (by omega) (rawPair_le hpair) h
        · split at h
          · cases h
          case h_2 hesc =>
            have hnext := bytesEscape_next hesc
            exact hgo (by omega) (bytesEscape_le hesc) h
      split at h
      · cases h
      · exact hgo (Nat.lt_succ_self _) hpos h

theorem lexBytesTriple_within (h : lexBytesTriple chars quote raw pos out = .ok r) :
    Within chars pos r := by
  induction hk : chars.length-pos using Nat.strong_induction_on generalizing pos out with
  | _ k ih =>
    have hgo : ∀ {next out'}, pos < next → next ≤ chars.length →
        lexBytesTriple chars quote raw next out' = .ok r → Within chars pos r := by
      intro next out' hlt hle hrest
      have hwithin := ih _ (by omega) hrest rfl
      exact ⟨Nat.lt_trans hlt hwithin.1, hwithin.2⟩
    rw [lexBytesTriple] at h
    split at h
    case isTrue hclose =>
      cases h
      exact ⟨by simp only; omega, tripleQuoted_le hclose⟩
    split at h
    · cases h
    case h_2 c hc =>
      have hpos := lt_length hc
      split at h
      · split at h
        · split at h
          · cases h
          case h_2 hpair => exact hgo (by omega) (rawPair_le hpair) h
        · split at h
          · cases h
          case h_2 hesc =>
            have hnext := bytesEscape_next hesc
            exact hgo (by omega) (bytesEscape_le hesc) h
      split at h
      · exact hgo (lineEnd_bounds hpos).1 (lineEnd_bounds hpos).2 h
      split at h
      · cases h
      · exact hgo (Nat.lt_succ_self _) hpos h

end bytesLoops

theorem lexBytes_within {raw : Bool} {r : List ℕ × ℕ} (h : lexBytes chars start raw = .ok r) :
    Within chars start r := by
  unfold lexBytes at h
  dsimp only at h
  split at h
  · have hwithin := lexBytesTriple_within h
    exact ⟨Nat.lt_trans (by omega) hwithin.1, hwithin.2⟩
  · have hwithin := lexBytesBody_within h
    exact ⟨Nat.lt_trans (Nat.lt_succ_self _) hwithin.1, hwithin.2⟩

theorem lexBytesAt_gives {raw : Bool} (hc : chars[start]? = some c) :
    Gives False (Within chars start) (lexBytesAt F chars start raw) := by
  rw [lexBytesAt, index_of_some hc]
  have hbytes : Gives False (Within chars start) (lift (lexBytes chars start raw)) := by
    apply gives_lift
    intro r hr
    exact lexBytes_within hr
  exact hbytes.bind fun r hr => gives_pure hr

end literals

end Pyrust.LexerLiterals
