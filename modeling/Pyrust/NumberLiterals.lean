import Pyrust.NumberTexts

/-!
# The number scanner takes a literal

What the scanner of numbers takes is the literal the text begins with, with one
exception: an exponent mark that no digits follow is taken with the decimal
integer before it.
-/

set_option autoImplicit false

namespace Pyrust.NumberLiterals

open ScanLoop StringLiterals LexerTokens NumberGrammar NumberTexts

/-! ## What each ending accepts -/

/-- `parse::<f64>` reads no text that ends in an exponent mark or in its sign. -/
def ExponentNeedsDigits {F : Type} (T : Tables F) : Prop :=
  ∀ m e s, IsExponentMark e → IsSign s → T.parseFloat (m ++ e::s) = none

section endings
variable {F : Type} {T : Tables F} {chars t : List ℕ} {start next : ℕ} {token : Token F}

theorem taken (hstart : start ≤ chars.length) (ht : t <+: chars.drop start) :
    start+t.length ≤ chars.length ∧ (chars.take (start+t.length)).drop start = t := by
  have hlen := ht.length_le
  rw [List.length_drop] at hlen
  refine ⟨by omega, ?_⟩
  rw [List.drop_take, Nat.add_sub_cancel_left]
  exact (List.prefix_iff_eq_take.mp ht).symm

theorem slice_taken (hstart : start ≤ chars.length) (ht : t <+: chars.drop start) :
    (sliceOf chars start (start+t.length) : Scan LexError (List ℕ)) = .ok t := by
  obtain ⟨hle, hslice⟩ := taken hstart ht
  rw [sliceOf_of_le (Nat.le_add_right _ _) hle, hslice]

/-- A check that a scan passes has passed. -/
theorem check_ok {α : Type} {x : Except LexError Unit} {f : Unit → Scan LexError α} {a : α} :
    (lift x >>= f) = .ok a ↔ x = .ok () ∧ f () = .ok a := by
  cases x with
  | error e => simp [lift, fail, bind, Except.bind]
  | ok u => simp [lift, bind, Except.bind]

theorem finishFloat_ok (hstart : start ≤ chars.length) (ht : t <+: chars.drop start)
    (h : finishFloat T chars start (start+t.length) = .ok (token, next)) :
    placed false t ∧ ∃ v, T.parseFloat (withoutUnderscores t) = some v ∧
      (token, next) = if suffixText (behind (chars.drop start) t) ≠ [] then
        (.imag v, start+t.length+1) else (.float v, start+t.length) := by
  rw [finishFloat, slice_taken hstart ht] at h
  obtain ⟨hplaced, h⟩ := check_ok.mp (h : (lift _ >>= _) = _)
  dsimp only at h
  refine ⟨(validate_placed t).mp hplaced, ?_⟩
  cases hv : T.parseFloat (withoutUnderscores t) with
  | none =>
    rw [hv] at h
    cases h
  | some v =>
    refine ⟨v, rfl, ?_⟩
    rw [hv] at h
    simp only [imaginarySuffix_behind] at h
    split_ifs at h ⊢ with hs
    · exact (Except.ok.inj h).symm
    · exact (Except.ok.inj h).symm

theorem finishImaginary_ok (hstart : start ≤ chars.length) (ht : t <+: chars.drop start)
    (h : finishImaginary T chars start (start+t.length) = .ok (token, next)) :
    placed false t ∧ ∃ v, T.parseFloat (withoutUnderscores t) = some v ∧
      token = .imag v ∧ next = start+t.length+1 := by
  rw [finishImaginary, slice_taken hstart ht] at h
  obtain ⟨hplaced, h⟩ := check_ok.mp (h : (lift _ >>= _) = _)
  dsimp only at h
  refine ⟨(validate_placed t).mp hplaced, ?_⟩
  cases hv : T.parseFloat (withoutUnderscores t) with
  | none =>
    rw [hv] at h
    cases h
  | some v =>
    rw [hv] at h
    cases h
    exact ⟨v, rfl, rfl, rfl⟩

/-- The digits of a decimal integer are within the limit in force. -/
def WithinLimit (T : Tables F) (ds : List ℕ) : Prop :=
  radixValue 10 (withoutUnderscores ds) < 2^63 ∨ T.intMaxStrDigits = 0 ∨
    (withoutUnderscores ds).length ≤ T.intMaxStrDigits

theorem checkLeadingZero_ok {ds : List ℕ} (hds : AllDigits ds) :
    checkLeadingZero ds = .ok () ↔ NoLeadingZero ds := by
  have hany : ds.any (fun c => isDigit c && c ≠ 0x30) = true ↔
      ¬ ∀ d ∈ ds, d = 0x30 ∨ d = 0x5F := by
    rw [List.any_eq_true]
    push Not
    refine exists_congr fun c => and_congr_right fun hc => ?_
    have hdu := hds c hc
    simp only [isDigitOrUnderscore, Bool.or_eq_true, decide_eq_true_eq] at hdu
    simp only [Bool.and_eq_true, decide_eq_true_eq]
    constructor
    · exact fun h => ⟨h.2, digit_ne_underscore h.1⟩
    · exact fun h => ⟨hdu.resolve_right h.2, h.1⟩
  unfold checkLeadingZero NoLeadingZero
  split_ifs with h
  · simp only [false_iff]
    rintro (hne | hall)
    · exact hne h.1
    · exact hany.mp h.2 hall
  · simp only [true_iff]
    by_cases hzero : ds.head? = some 0x30
    · exact Or.inr (by_contra fun hne => h ⟨hzero, hany.mpr hne⟩)
    · exact Or.inl hzero

theorem finishInt_eq (hstart : start ≤ chars.length) (ht : t <+: chars.drop start)
    (hds : AllDigits t) (pos : ℕ) :
    finishInt T chars start (start+t.length) pos = .ok (token, next) ↔
      placed false t ∧ NoLeadingZero t ∧ WithinLimit T t ∧
        token = intToken (radixValue 10 (withoutUnderscores t)) ∧ next = pos := by
  have hpair : ∀ u : Token F, (pure (u, pos) : Scan LexError (Token F × ℕ)) = .ok (token, next) ↔
      token = u ∧ next = pos := by
    intro u
    change Except.ok _ = Except.ok _ ↔ _
    rw [Except.ok.injEq, Prod.mk.injEq, eq_comm, @eq_comm _ pos]
  rw [finishInt, slice_taken hstart ht]
  change (lift _ >>= _) = _ ↔ _
  rw [check_ok, validate_placed]
  refine and_congr_right fun _ => ?_
  rw [check_ok, checkLeadingZero_ok hds]
  refine and_congr_right fun _ => ?_
  dsimp only
  unfold intToken WithinLimit
  split_ifs with hsmall hlimit
  · rw [hpair]
    simp only [hsmall, true_or, true_and]
  · obtain ⟨hnonzero, hlong⟩ := hlimit
    have hnot : ¬ (radixValue 10 (withoutUnderscores t) < 2^63 ∨ T.intMaxStrDigits = 0 ∨
        (withoutUnderscores t).length ≤ T.intMaxStrDigits) := by
      omega
    simp only [hnot, false_and, iff_false]
    rintro ⟨⟩
  · rw [hpair]
    have hwithin : radixValue 10 (withoutUnderscores t) < 2^63 ∨ T.intMaxStrDigits = 0 ∨
        (withoutUnderscores t).length ≤ T.intMaxStrDigits := by
      omega
    simp only [hwithin, true_and]

/-- A float of some text is no bare exponent mark's. -/
theorem exponent_full {m r : List ℕ} {v : F} {before : Bool} (hT : ExponentNeedsDigits T)
    (hx : placed before (exponentText r))
    (hparse : T.parseFloat (withoutUnderscores (m ++ exponentText r)) = some v) :
    exponentText r = [] ∨ Exponent (exponentText r) ∧ powerDigits r ≠ [] := by
  rcases exponent_legal hx with hnone | ⟨e, s, htext, he, hs, hdigits⟩
  · exact Or.inl hnone
  · right
    rcases hdigits with hbare | hdigits
    · have hmark : e ≠ 0x5F := by rcases he with rfl | rfl <;> decide
      have hsign : s.filter (· ≠ 0x5F) = s := by rcases hs with rfl | rfl | rfl <;> rfl
      rw [htext, hbare, List.append_nil, withoutUnderscores, List.filter_append,
        List.filter_cons_of_pos (by simpa using hmark), hsign] at hparse
      rw [hT _ _ _ he hs] at hparse
      cases hparse
    · refine ⟨htext ▸ .mk he hs hdigits, ?_⟩
      obtain ⟨d, rest, hcons, -⟩ := hdigits.head
      rw [hcons]
      exact List.cons_ne_nil _ _

end endings

/-! ## What is taken in base ten -/

section decimal
variable {F : Type} {T : Tables F} {chars L : List ℕ} {start next c : ℕ} {token : Token F}

theorem wholeText_ne_nil (hc : chars[start]? = some c) (hdigit : isDigit c) :
    wholeText (chars.drop start) ≠ [] := by
  have hdrop : chars.drop start = c::chars.drop (start+1) :=
    List.drop_eq_getElem?_toList_append.trans (by simp [hc])
  rw [wholeText, hdrop, List.takeWhile_cons_of_pos (by simp [isDigitOrUnderscore, hdigit])]
  exact List.cons_ne_nil _ _

/-- A body with a point or an exponent, read as a float. -/
theorem body_float {v : F} (hT : ExponentNeedsDigits T)
    (hwhole : wholeText (chars.drop start) ≠ [])
    (hplaced : placed false (partsOf (chars.drop start)).body)
    (hparse : T.parseFloat (withoutUnderscores (partsOf (chars.drop start)).body) = some v)
    (hsome : (partsOf (chars.drop start)).point ≠ [] ∨
      (partsOf (chars.drop start)).exponent ≠ []) :
    FloatNumber (partsOf (chars.drop start)).body := by
  have hdigits := (whole_legal hplaced).resolve_left hwhole
  rw [Parts.body] at hplaced hparse ⊢
  have hexp := exponent_full hT (placed_behind hplaced).choose_spec hparse
  rw [List.append_assoc] at hplaced
  have hpoint := point_legal (placed_behind hplaced).choose_spec
  change (partsOf (chars.drop start)).exponent = [] ∨ _ at hexp
  change (partsOf (chars.drop start)).point = [] ∨ _ at hpoint
  rcases hpoint with hpoint | ⟨b, hb, hfraction⟩
  · have hx := (hexp.resolve_left (hsome.resolve_left (not_not_intro hpoint))).1
    rw [hpoint, List.append_nil]
    exact .exponent hdigits hx
  · have hm : PointFloat ((partsOf (chars.drop start)).whole ++
        (partsOf (chars.drop start)).point) := by
      change (partsOf (chars.drop start)).point = _ at hb
      rw [hb]
      rcases hfraction with rfl | hfraction
      · exact .front hdigits
      · exact .both hdigits hfraction
    rcases hexp with hnone | ⟨hx, -⟩
    · rw [hnone, List.append_nil]
      exact .point hm
    · exact .pointExponent hm hx

/-- No literal the text begins with is longer than what is scanned. -/
theorem decimal_longest (hdecimal : Decimal chars start) (hc : chars[start]? = some c)
    (hdigit : isDigit c) (h : NumberText L) (hpre : L <+: chars.drop start) :
    L.length ≤ (partsOf (chars.drop start)).text.length := by
  have hhead : (chars.drop start).head? = some c := by rw [List.head?_drop, hc]
  have hdot : ∀ m t : List ℕ, m ++ t <+: chars.drop start → m.head? ≠ some 0x2E := by
    intro m t hm heq
    obtain ⟨rest, hrest⟩ := hm
    rw [← hrest] at hhead
    rcases m with _ | ⟨d, m⟩
    · cases heq
    · obtain rfl : d = 0x2E := by simpa using heq
      obtain rfl : 0x2E = c := by simpa using hhead
      exact absurd hdigit (by decide)
  have hnumber : ∀ m t, FloatNumber m ∨ Digits isDigit m → SuffixTail t →
      m ++ t <+: chars.drop start →
        (m ++ t).length ≤ (partsOf (chars.drop start)).text.length := by
    intro m t hm ht hpre
    obtain ⟨a, v, hsplit, ha, hv⟩ := number_split hm ht (hdot m t hpre)
    rw [hsplit] at hpre ⊢
    exact whole_le ha hv hpre
  cases h with
  | @based base letter under ds hbase hletter hunder hds =>
    obtain ⟨rest, hrest⟩ := hpre
    have h0 : chars[start]? = some 0x30 := by
      rw [← Nat.add_zero start, ← List.getElem?_drop, ← hrest]
      rfl
    have h1 : chars[start+1]? = some letter := by
      rw [← List.getElem?_drop, ← hrest]
      rfl
    have hbp := hdecimal base hbase
    rw [basePrefix, h0, h1] at hbp
    rcases hletter with rfl | rfl <;> simp at hbp
  | decimal hds _ =>
    have := hnumber _ [] (Or.inr hds) (Or.inl rfl) (by rwa [List.append_nil])
    rwa [List.append_nil] at this
  | float hds =>
    have := hnumber _ [] (Or.inl hds) (Or.inl rfl) (by rwa [List.append_nil])
    rwa [List.append_nil] at this
  | imaginary hds hj => exact hnumber _ _ hds (Or.inr ⟨_, hj, rfl⟩) hpre

/-- A decimal integer within the limit, an exponent mark with at most one sign, and behind them
neither a digit, an underscore nor an imaginary suffix. -/
def DanglingExponent (T : Tables F) (chars : List ℕ) (start : ℕ) : Prop :=
  ∃ ds e s tail, chars.drop start = ds ++ e::(s ++ tail) ∧ Digits isDigit ds ∧ NoLeadingZero ds ∧
    WithinLimit T ds ∧ IsExponentMark e ∧ IsSign s ∧
    (s = [] → tail.head? ≠ some 0x2B ∧ tail.head? ≠ some 0x2D) ∧
    ∀ c ∈ tail.head?, isDigitOrUnderscore c = false ∧ ¬ IsSuffix c

theorem suffixText_eq_nil {r : List ℕ} : suffixText r = [] ↔ ∀ c ∈ r.head?, ¬ IsSuffix c := by
  rcases r with _ | ⟨c, r⟩
  · simp [suffixText]
  · simp [suffixText, IsSuffix]

theorem suffixText_cases (r : List ℕ) :
    suffixText r = [] ∨ ∃ j, IsSuffix j ∧ suffixText r = [j] := by
  rcases r with _ | ⟨c, r⟩
  · exact Or.inl rfl
  · by_cases h : IsSuffix c
    · refine Or.inr ⟨c, h, ?_⟩
      rw [suffixText, if_pos (by simpa [IsSuffix] using h)]
      rfl
    · exact Or.inl (if_neg (by simpa [IsSuffix] using h))

theorem takeWhile_eq_nil {p : ℕ → Bool} {r : List ℕ} :
    r.takeWhile p = [] ↔ ∀ c ∈ r.head?, p c = false := by
  rcases r with _ | ⟨c, r⟩
  · simp
  · cases h : p c <;> simp [h]

theorem split_behind {r t : List ℕ} (h : t <+: r) : r = t ++ behind r t := by
  obtain ⟨rest, rfl⟩ := h
  rw [behind, List.drop_left]

theorem text_eq_behind (r : List ℕ) :
    (partsOf r).suffix = suffixText (behind r (partsOf r).body) := by
  rw [Parts.body, ← behind_append, ← behind_append]
  rfl

/-- Behind a bare exponent mark. -/
theorem bare_tail {r : List ℕ} {e : ℕ} (hbare : powerDigits r = [])
    (htext : exponentText r = e::(signText r.tail ++ powerDigits r)) :
    r = e::(signText r.tail ++ behind r.tail (signText r.tail)) ∧
      behind r (exponentText r) = behind r.tail (signText r.tail) ∧
      (signText r.tail = [] → (behind r.tail (signText r.tail)).head? ≠ some 0x2B ∧
        (behind r.tail (signText r.tail)).head? ≠ some 0x2D) ∧
      ∀ c ∈ (behind r.tail (signText r.tail)).head?, isDigitOrUnderscore c = false := by
  rw [hbare, List.append_nil] at htext
  have hall := split_behind (exponentText_begins r)
  have hcons : r = e::(signText r.tail ++ behind r (exponentText r)) :=
    hall.trans (congrArg (· ++ behind r (exponentText r)) htext)
  have htail : r.tail = signText r.tail ++ behind r (exponentText r) := by
    conv_lhs => rw [hcons]
    rfl
  have hbehind : behind r (exponentText r) = behind r.tail (signText r.tail) :=
    List.append_cancel_left (htail.symm.trans (split_behind (signText_begins r.tail)))
  refine ⟨?_, ?_, ?_, takeWhile_eq_nil.mp hbare⟩
  · rwa [hbehind] at hcons
  · exact hbehind
  · intro hnil
    have hrest' : behind r.tail (signText r.tail) = r.tail := by rw [hnil]; rfl
    rw [hrest']
    constructor <;> intro hhead <;>
      · have hsome : signText r.tail = r.tail.take 1 := by simp [signText, hhead]
        rw [hnil] at hsome
        rcases hr : r.tail with _ | ⟨c, t⟩
        · simp [hr] at hhead
        · simp [hr] at hsome

/-- A number with a point or an exponent. -/
theorem decimal_float (hT : ExponentNeedsDigits T) (hstart : start ≤ chars.length)
    (hwhole : wholeText (chars.drop start) ≠ [])
    (hsome : (partsOf (chars.drop start)).point ≠ [] ∨ (partsOf (chars.drop start)).exponent ≠ [])
    (h : finishFloat T chars start (start+(partsOf (chars.drop start)).body.length) =
      .ok (token, next)) :
    Literal T (partsOf (chars.drop start)).text token ∧
      next = start+(partsOf (chars.drop start)).text.length := by
  have hsuffix := text_eq_behind (chars.drop start)
  obtain ⟨hplaced, v, hparse, htoken⟩ := finishFloat_ok hstart (body_begins _) h
  have hnumber := body_float hT hwhole hplaced hparse hsome
  rw [← hsuffix] at htoken
  rcases suffixText_cases (behind (chars.drop start) (partsOf (chars.drop start)).body)
    with hnone | ⟨j, hj, hone⟩
  · rw [← hsuffix] at hnone
    rw [if_neg (by simp [hnone]), Prod.mk.injEq] at htoken
    rw [Parts.text, hnone, List.append_nil, htoken.1, htoken.2]
    exact ⟨.float hnumber hparse, rfl⟩
  · rw [← hsuffix] at hone
    rw [if_pos (by simp [hone]), Prod.mk.injEq] at htoken
    rw [Parts.text, hone, htoken.1, htoken.2, List.length_append]
    exact ⟨.imaginary (Or.inl hnumber) hj hparse, rfl⟩

/-- A whole number with an imaginary suffix; the exponent mark of a bare exponent is none. -/
theorem decimal_imaginary (hT : ExponentNeedsDigits T) (hstart : start ≤ chars.length)
    (hwhole : wholeText (chars.drop start) ≠ [])
    (hpoint : (partsOf (chars.drop start)).point = [])
    (hfull : ¬ (exponentText (fractionRest chars start) ≠ [] ∧
      powerDigits (fractionRest chars start) ≠ []))
    (hj : (partsOf (chars.drop start)).suffix ≠ [])
    (h : finishImaginary T chars start (start+(partsOf (chars.drop start)).body.length) =
      .ok (token, next)) :
    Literal T (partsOf (chars.drop start)).text token ∧
      next = start+(partsOf (chars.drop start)).text.length := by
  have hsuffix := text_eq_behind (chars.drop start)
  have hbodyEq := (plain_body hpoint).2
  obtain ⟨hplaced, v, hparse, rfl, rfl⟩ := finishImaginary_ok hstart (body_begins _) h
  have hnone : exponentText (fractionRest chars start) = [] := by
    rw [hbodyEq] at hplaced hparse
    rcases exponent_full hT (placed_behind hplaced).choose_spec hparse with hnone | hsome
    · exact hnone
    · by_contra hne
      exact hfull ⟨hne, hsome.2⟩
  rw [hnone, List.append_nil] at hbodyEq
  have hdigits := (whole_legal hplaced).resolve_left hwhole
  rcases suffixText_cases (behind (chars.drop start) (partsOf (chars.drop start)).body)
    with hnil | ⟨j, hsuf, hone⟩
  · exact absurd (hsuffix.trans hnil) hj
  · rw [← hsuffix] at hone
    rw [Parts.text, hone, List.length_append, hbodyEq]
    rw [hbodyEq] at hparse
    exact ⟨.imaginary (Or.inr hdigits) hsuf hparse, rfl⟩

/-- A whole number, and what may have been taken behind it. -/
theorem decimal_int (hstart : start ≤ chars.length) (hwhole : wholeText (chars.drop start) ≠ [])
    (hpoint : (partsOf (chars.drop start)).point = [])
    (hfull : ¬ (exponentText (fractionRest chars start) ≠ [] ∧
      powerDigits (fractionRest chars start) ≠ []))
    (hnil : (partsOf (chars.drop start)).suffix = [])
    (h : finishInt T chars start (start+(wholeText (chars.drop start)).length)
      (start+(partsOf (chars.drop start)).body.length) = .ok (token, next)) :
    DanglingExponent T chars start ∨ Literal T (partsOf (chars.drop start)).text token ∧
      next = start+(partsOf (chars.drop start)).text.length := by
  have hsuffix := text_eq_behind (chars.drop start)
  have hbodyEq := (plain_body hpoint).2
  obtain ⟨hplaced, hzero, hlimit, rfl, rfl⟩ := (finishInt_eq hstart (wholeText_begins _)
    (takeWhile_digits _) _).mp h
  have hdigits : Digits isDigit (wholeText (chars.drop start)) :=
    (@digits_of_placed_fresh _ [] (takeWhile_digits _) (by simp)
      (by rwa [List.append_nil])).resolve_left hwhole
  rcases exponentText_shape (fractionRest chars start) with hnone | ⟨e, he, htext⟩
  · right
    rw [hnone, List.append_nil] at hbodyEq
    rw [Parts.text, hnil, List.append_nil, hbodyEq]
    exact ⟨.decimal hdigits hzero, rfl⟩
  · left
    have hbare : powerDigits (fractionRest chars start) = [] := by
      by_contra hne
      exact hfull ⟨by rw [htext]; exact List.cons_ne_nil _ _, hne⟩
    obtain ⟨hsplit, hrest, hsign, hhead⟩ := bare_tail hbare htext
    refine ⟨wholeText (chars.drop start), e, signText (fractionRest chars start).tail, _, ?_,
      hdigits, hzero, hlimit, he, signText_sign _, hsign, fun d hd => ⟨hhead d hd, ?_⟩⟩
    · conv_lhs => rw [split_behind (wholeText_begins (chars.drop start))]
      exact congrArg _ hsplit
    · rw [hsuffix, hbodyEq, ← behind_append] at hnil
      rw [← hrest] at hd
      exact suffixText_eq_nil.mp hnil d hd

/-- What a decimal scan accepts is the literal the text begins with, or the exception. -/
theorem decimal_exact (hT : ExponentNeedsDigits T) (hdecimal : Decimal chars start)
    (hc : chars[start]? = some c) (hdigit : isDigit c)
    (h : lexNumber T chars start = .ok (token, next)) :
    DanglingExponent T chars start ∨ Literal T (partsOf (chars.drop start)).text token ∧
      next = start+(partsOf (chars.drop start)).text.length := by
  have hstart : start ≤ chars.length := (lt_length hc).le
  have hwhole := wholeText_ne_nil hc hdigit
  by_cases hpoint : (partsOf (chars.drop start)).point = []
  · rw [lexNumber_plain hdecimal hpoint] at h
    by_cases hfull : exponentText (fractionRest chars start) ≠ [] ∧
        powerDigits (fractionRest chars start) ≠ []
    · rw [if_pos hfull] at h
      have hexp : (partsOf (chars.drop start)).exponent ≠ [] := by
        rw [(plain_body hpoint).1]
        exact hfull.1
      exact Or.inr (decimal_float hT hstart hwhole (Or.inr hexp) h)
    · rw [if_neg hfull] at h
      by_cases hj : (partsOf (chars.drop start)).suffix ≠ []
      · rw [if_pos hj] at h
        exact Or.inr (decimal_imaginary hT hstart hwhole hpoint hfull hj h)
      · rw [if_neg hj] at h
        exact decimal_int hstart hwhole hpoint hfull (not_not.mp hj) h
  · rw [lexNumber_point hdecimal hpoint] at h
    exact Or.inr (decimal_float hT hstart hwhole (Or.inl hpoint) h)

end decimal

/-! ## What is taken in another base -/

section based
variable {F : Type} {T : Tables F} {chars L raw : List ℕ} {start next : ℕ} {token : Token F}
  {base : Base} {p : ℕ → Bool} {kind : String}

theorem digits_mem {ds : List ℕ} (h : Digits p ds) : ∀ c ∈ ds, (p c || c = 0x5F) = true := by
  induction h with
  | one hd => simp [hd]
  | digit hd _ ih =>
    intro c hc
    rcases List.mem_cons.mp hc with rfl | hc
    · simp [hd]
    · exact ih c hc
  | underscore hd _ ih =>
    intro c hc
    rcases List.mem_cons.mp hc with rfl | hc
    · simp [hd]
    · rcases List.mem_cons.mp hc with rfl | hc
      · simp
      · exact ih c hc

theorem digits_of_validate {under : Bool} (hraw : ∀ c ∈ raw, p c ∨ c = 0x5F)
    (h : validateUnderscores kind raw under = .ok ()) :
    (under = true → Digits p raw) ∧
      (under = false → raw = [] ∨ ∃ lead ds, raw = lead ++ ds ∧ (lead = [] ∨ lead = [0x5F]) ∧
        Digits p ds) := by
  induction raw generalizing under with
  | nil =>
    refine ⟨?_, fun _ => Or.inl rfl⟩
    rintro rfl
    simp [validateUnderscores] at h
  | cons c cs ih =>
    have hcs := fun d hd => hraw d (List.mem_cons_of_mem _ hd)
    by_cases hc : c = 0x5F
    · subst hc
      cases under with
      | true => simp [validateUnderscores] at h
      | false =>
        simp only [validateUnderscores, if_true, Bool.false_eq_true, if_false] at h
        exact ⟨by simp, fun _ => Or.inr ⟨[0x5F], cs, rfl, Or.inr rfl, (ih hcs h).1 rfl⟩⟩
    · have hp : p c := (hraw c List.mem_cons_self).resolve_right hc
      simp only [validateUnderscores, if_neg hc] at h
      have hdigits : Digits p (c::cs) := by
        rcases (ih hcs h).2 rfl with rfl | ⟨lead, ds, rfl, hlead, hds⟩
        · exact .one hp
        · rcases hlead with rfl | rfl
          · exact .digit hp hds
          · exact .underscore hp hds
      exact ⟨fun _ => hdigits, fun _ => Or.inr ⟨[], c::cs, rfl, Or.inl rfl, hdigits⟩⟩

theorem basePrefix_iff {lower upper : ℕ} :
    basePrefix chars start lower upper = true ↔
      ∃ letter rest, chars.drop start = 0x30::letter::rest ∧ (letter = lower ∨ letter = upper) := by
  have h0 : chars[start]? = (chars.drop start)[0]? := by rw [List.getElem?_drop]; rfl
  have h1 : chars[start+1]? = (chars.drop start)[1]? := by rw [List.getElem?_drop]
  rw [basePrefix, h0, h1]
  rcases chars.drop start with _ | ⟨a, _ | ⟨b, r⟩⟩
  · simp
  · simp
  · simp only [List.getElem?_cons_zero, List.getElem?_cons_succ, Option.some.injEq,
      Bool.and_eq_true, Bool.or_eq_true, decide_eq_true_eq, List.cons.injEq]
    constructor
    · rintro ⟨rfl, hb⟩
      exact ⟨b, r, ⟨rfl, rfl, rfl⟩, hb⟩
    · rintro ⟨letter, rest, ⟨rfl, rfl, rfl⟩, hb⟩
      exact ⟨rfl, hb⟩

/-- The digits of another base. -/
def baseDigits (base : Base) (r : List ℕ) : List ℕ :=
  (r.drop 2).takeWhile fun c => base.digit c || c = 0x5F

theorem based_exact (hbase : base ∈ bases) (hstart : start+2 ≤ chars.length)
    (hannounced : basePrefix chars start base.lower base.upper = true)
    (h : lexPrefixed kind base.radix base.digit chars start = .ok (token, next)) :
    Literal T ((chars.drop start).take 2 ++ baseDigits base (chars.drop start)) token ∧
      next = start+2+(baseDigits base (chars.drop start)).length := by
  obtain ⟨letter, rest, hsplit, hletter⟩ := basePrefix_iff.mp hannounced
  have hpre : baseDigits base (chars.drop start) <+: chars.drop (start+2) := by
    rw [baseDigits, List.drop_drop]
    exact List.takeWhile_prefix _
  have hend : spanEnd (fun c => base.digit c || c = 0x5F) chars (start+2) =
      start+2+(baseDigits base (chars.drop start)).length := by
    rw [spanEnd, baseDigits, List.drop_drop]
  rw [lexPrefixed, hend] at h
  rw [slice_taken hstart hpre] at h
  change (if (baseDigits base (chars.drop start)).all (· = 0x5F) then _ else _) = _ at h
  split_ifs at h with hall
  · cases h
  · obtain ⟨hcheck, hok⟩ := check_ok.mp h
    have hraw : ∀ c ∈ baseDigits base (chars.drop start), base.digit c ∨ c = 0x5F := by
      intro c hc
      simpa using List.all_eq_true.mp List.all_takeWhile c hc
    rcases (digits_of_validate hraw hcheck).2 rfl with hnil | ⟨lead, ds, hraw, hlead, hds⟩
    · rw [hnil] at hall
      exact absurd rfl hall
    · have hstrip : withoutUnderscores (lead ++ ds) = withoutUnderscores ds := by
        rcases hlead with rfl | rfl <;> rfl
      cases hok
      rw [hraw, hstrip, hsplit]
      exact ⟨.based hbase hletter hlead hds, rfl⟩

theorem base_letters {b b' : Base} {letter : ℕ} (hb : b ∈ bases) (hb' : b' ∈ bases)
    (h : letter = b.lower ∨ letter = b.upper) (h' : letter = b'.lower ∨ letter = b'.upper) :
    b = b' ∧ isDigitOrUnderscore letter = false ∧ letter ≠ 0x2E ∧ ¬ IsExponentMark letter ∧
      ¬ IsSuffix letter := by
  simp only [bases, List.mem_cons, List.not_mem_nil, or_false] at hb hb'
  rcases hb with rfl | rfl | rfl <;> rcases hb' with rfl | rfl | rfl <;>
    rcases h with rfl | rfl <;> simp_all [IsExponentMark, IsSuffix, isDigitOrUnderscore, isDigit]

/-- A zero that a letter of a base follows is all that a decimal scan takes. -/
theorem zero_text {letter : ℕ} {rest : List ℕ} (hdu : isDigitOrUnderscore letter = false)
    (hdot : letter ≠ 0x2E) (hmark : ¬ IsExponentMark letter) (hsuffix : ¬ IsSuffix letter) :
    (partsOf (0x30::letter::rest)).text = [0x30] := by
  have hwhole : wholeText (0x30::letter::rest) = [0x30] := by
    rw [wholeText, List.takeWhile_cons_of_pos (by decide),
      List.takeWhile_cons_of_neg (by simp [hdu])]
  have hbehind : behind (0x30::letter::rest) [0x30] = letter::rest := rfl
  have hpoint : pointText (letter::rest) = [] := if_neg (by simpa using hdot)
  have hexp : exponentText (letter::rest) = [] := if_neg (by simpa [IsExponentMark] using hmark)
  have hsuf : suffixText (letter::rest) = [] := if_neg (by simpa [IsSuffix] using hsuffix)
  have hnil : behind (letter::rest) [] = letter::rest := rfl
  simp only [Parts.text, Parts.body, partsOf, hwhole, hbehind, hpoint, hnil, hexp, hsuf,
    List.append_nil]

theorem based_longest (hbase : base ∈ bases)
    (hannounced : basePrefix chars start base.lower base.upper = true) (h : NumberText L)
    (hpre : L <+: chars.drop start) :
    L.length ≤ 2+(baseDigits base (chars.drop start)).length := by
  obtain ⟨letter, rest, hsplit, hletter⟩ := basePrefix_iff.mp hannounced
  obtain ⟨-, hdu, hdot, hmark, hsuffix⟩ := base_letters hbase hbase hletter hletter
  rw [hsplit] at hpre ⊢
  have hnumber : ∀ m t, FloatNumber m ∨ Digits isDigit m → SuffixTail t →
      m ++ t <+: 0x30::letter::rest → (m ++ t).length ≤ 2 := by
    intro m t hm ht hmt
    have hhead : m.head? ≠ some 0x2E := by
      rcases m with _ | ⟨d, m⟩
      · simp
      · obtain ⟨hd, -⟩ := List.cons_prefix_cons.mp hmt
        simp [hd]
    obtain ⟨a, v, heq, ha, hv⟩ := number_split hm ht hhead
    rw [heq] at hmt ⊢
    have hle := whole_le ha hv hmt
    rw [zero_text hdu hdot hmark hsuffix, List.length_singleton] at hle
    omega
  cases h with
  | @based base' letter' under ds hbase' hletter' hunder hds =>
    obtain ⟨-, htail⟩ := List.cons_prefix_cons.mp hpre
    obtain ⟨rfl, hdigits⟩ := List.cons_prefix_cons.mp htail
    obtain ⟨rfl, -⟩ := base_letters hbase hbase' hletter hletter'
    have hall : ∀ c ∈ under ++ ds, (base.digit c || c = 0x5F) = true := by
      intro c hc
      rcases List.mem_append.mp hc with hc | hc
      · rcases hunder with rfl | rfl
        · cases hc
        · simpa using Or.inr (List.mem_singleton.mp hc)
      · exact digits_mem hds c hc
    have hle := span_le hall hdigits
    simp only [List.length_cons] at hle ⊢
    have hraw : baseDigits base (0x30::letter'::rest) =
        rest.takeWhile fun c => base.digit c || c = 0x5F := rfl
    rw [hraw]
    omega
  | decimal hds _ =>
    have := hnumber _ [] (Or.inr hds) (Or.inl rfl) (by rwa [List.append_nil])
    rw [List.append_nil] at this
    omega
  | float hds =>
    have := hnumber _ [] (Or.inl hds) (Or.inl rfl) (by rwa [List.append_nil])
    rw [List.append_nil] at this
    omega
  | imaginary hds hj =>
    have := hnumber _ _ hds (Or.inr ⟨_, hj, rfl⟩) hpre
    omega

theorem lexNumber_based (h : ¬ Decimal chars start) :
    ∃ base kind, base ∈ bases ∧ basePrefix chars start base.lower base.upper = true ∧
      lexNumber T chars start = lexPrefixed kind base.radix base.digit chars start := by
  unfold lexNumber
  split_ifs with hx ho hb
  · exact ⟨⟨0x78, 0x58, isHexDigit, 16⟩, _, by simp [bases], hx, rfl⟩
  · exact ⟨⟨0x6F, 0x4F, fun c => 0x30 ≤ c && c ≤ 0x37, 8⟩, _, by simp [bases], ho, rfl⟩
  · exact ⟨⟨0x62, 0x42, fun c => 0x30 ≤ c && c ≤ 0x31, 2⟩, _, by simp [bases], hb, rfl⟩
  · refine absurd ?_ h
    intro base hbase
    simp only [bases, List.mem_cons, List.not_mem_nil, or_false] at hbase
    rcases hbase with rfl | rfl | rfl
    · exact Bool.eq_false_of_not_eq_true hx
    · exact Bool.eq_false_of_not_eq_true ho
    · exact Bool.eq_false_of_not_eq_true hb

end based

/-! ## The exception -/

section exception
variable {F : Type} {T : Tables F} {chars ds s tail m L : List ℕ} {start e c : ℕ}

theorem digits_last {p : ℕ → Bool} (h : Digits p ds) : ∃ pre d, ds = pre ++ [d] ∧ p d := by
  induction h with
  | one hd => exact ⟨[], _, rfl, hd⟩
  | digit _ _ ih =>
    obtain ⟨pre, x, rfl, hx⟩ := ih
    exact ⟨_::pre, x, rfl, hx⟩
  | underscore _ _ ih =>
    obtain ⟨pre, x, rfl, hx⟩ := ih
    exact ⟨_::0x5F::pre, x, rfl, hx⟩

theorem exponent_last {x : List ℕ} (h : Exponent x) : ∃ pre d, x = pre ++ [d] ∧ isDigit d := by
  cases h with
  | @mk e s ds _ _ hds =>
    obtain ⟨pre, d, rfl, hd⟩ := digits_last hds
    exact ⟨e::(s ++ pre), d, by simp, hd⟩

/-- A float ends in a digit or its point. -/
theorem float_last (h : FloatNumber m) : ∃ pre d, m = pre ++ [d] ∧ (isDigit d ∨ d = 0x2E) := by
  have hexp : ∀ {m x : List ℕ}, Exponent x → ∃ pre d, m ++ x = pre ++ [d] ∧
      (isDigit d ∨ d = 0x2E) := by
    intro m x hx
    obtain ⟨pre, d, rfl, hd⟩ := exponent_last hx
    exact ⟨m ++ pre, d, (List.append_assoc _ _ _).symm, Or.inl hd⟩
  cases h with
  | point hm =>
    cases hm with
    | @both a b _ hb =>
      obtain ⟨pre, d, rfl, hd⟩ := digits_last hb
      exact ⟨a ++ 0x2E::pre, d, by simp, Or.inl hd⟩
    | @front a _ => exact ⟨a, 0x2E, rfl, Or.inr rfl⟩
    | @back b hb =>
      obtain ⟨pre, d, rfl, hd⟩ := digits_last hb
      exact ⟨0x2E::pre, d, rfl, Or.inl hd⟩
  | pointExponent _ hx => exact hexp hx
  | exponent _ hx => exact hexp hx

/-- Digits with a bare exponent mark are no literal. -/
theorem bare_no_literal (hds : Digits isDigit ds) (he : IsExponentMark e) (hs : IsSign s) :
    ¬ NumberText (ds ++ e::s) := by
  obtain ⟨pre, x, hlast, hx⟩ : ∃ pre x, ds ++ e::s = pre ++ [x] ∧
      (IsExponentMark x ∨ x = 0x2B ∨ x = 0x2D) := by
    rcases hs with rfl | rfl | rfl
    · exact ⟨ds, e, rfl, Or.inl he⟩
    · exact ⟨ds ++ [e], 0x2B, by simp, Or.inr (Or.inl rfl)⟩
    · exact ⟨ds ++ [e], 0x2D, by simp, Or.inr (Or.inr rfl)⟩
  have hx' : isDigitOrUnderscore x = false ∧ x ≠ 0x2E ∧ ¬ IsSuffix x := by
    rcases hx with (rfl | rfl) | rfl | rfl <;> simp [isDigitOrUnderscore, isDigit, IsSuffix]
  have hclash : ∀ {pre' d}, ds ++ e::s = pre' ++ [d] →
      ¬ (isDigit d ∨ d = 0x2E ∨ IsSuffix d) := by
    intro pre' d heq hd
    obtain ⟨-, hsame⟩ := List.append_inj' (hlast.symm.trans heq) rfl
    obtain rfl : x = d := by simpa using hsame
    rcases hd with hd | hd | hd
    · simp [isDigitOrUnderscore, hd] at hx'
    · exact hx'.2.1 hd
    · exact hx'.2.2 hd
  intro h
  generalize hL : ds ++ e::s = L at h
  cases h with
  | @based base letter under ds' hbase hletter hunder hds' =>
    obtain ⟨-, hdu, -, hmark, -⟩ := base_letters hbase hbase hletter hletter
    obtain ⟨d, rest, rfl, -⟩ := hds.head
    rcases rest with _ | ⟨b, rest⟩
    · obtain rfl : e = letter := (List.cons.inj (List.cons.inj hL).2).1
      exact hmark he
    · obtain rfl : b = letter := (List.cons.inj (List.cons.inj hL).2).1
      have := hds.du b (by simp)
      simp [hdu] at this
  | decimal hds' _ =>
    obtain ⟨pre', d, rfl, hd⟩ := digits_last hds'
    exact hclash hL (Or.inl hd)
  | float hm =>
    obtain ⟨pre', d, rfl, hd⟩ := float_last hm
    exact hclash hL (hd.imp_right Or.inl)
  | imaginary _ hj => exact hclash hL (Or.inr (Or.inr hj))

/-- On the exception the scanner returns the integer and takes the mark with it. -/
theorem dangling_ok (hsplit : chars.drop start = ds ++ e::(s ++ tail))
    (hds : Digits isDigit ds) (hzero : NoLeadingZero ds) (hlimit : WithinLimit T ds)
    (he : IsExponentMark e) (hs : IsSign s)
    (hsign : s = [] → tail.head? ≠ some 0x2B ∧ tail.head? ≠ some 0x2D)
    (hhead : ∀ c ∈ tail.head?, isDigitOrUnderscore c = false ∧ ¬ IsSuffix c)
    (hstart : start ≤ chars.length) :
    lexNumber T chars start =
      .ok (intToken (radixValue 10 (withoutUnderscores ds)), start+(ds ++ e::s).length) := by
  have hdu : isDigitOrUnderscore e = false := by rcases he with rfl | rfl <;> decide
  have hwhole : wholeText (chars.drop start) = ds := by
    rw [hsplit, wholeText, List.takeWhile_append_of_pos hds.du,
      List.takeWhile_cons_of_neg (by simp [hdu]), List.append_nil]
  have hrest : fractionRest chars start = e::(s ++ tail) := by
    rw [fractionRest, hwhole, hsplit, behind, List.drop_left]
  have hpoint : (partsOf (chars.drop start)).point = [] := by
    change pointText (fractionRest chars start) = []
    rw [hrest]
    rcases he with rfl | rfl <;> rfl
  have hsignText : signText (s ++ tail) = s := by
    rcases hs with rfl | rfl | rfl
    · exact if_neg (by simpa using hsign rfl)
    · rfl
    · rfl
  have hpower : powerDigits (e::(s ++ tail)) = [] := by
    rw [powerDigits, List.tail_cons, hsignText, List.drop_left, takeWhile_eq_nil]
    exact fun c hc => (hhead c hc).1
  have hexp : exponentText (fractionRest chars start) = e::s := by
    rcases exponentText_shape (fractionRest chars start) with hnil | ⟨e', -, htext⟩
    · rw [hrest] at hnil
      rcases he with rfl | rfl <;> cases hnil
    · rw [hrest, exponentText, if_pos (by rcases he with rfl | rfl <;> simp), powerText,
        List.tail_cons, hsignText, List.drop_left,
        takeWhile_eq_nil.mpr fun c hc => (hhead c hc).1, List.append_nil]
      rfl
  obtain ⟨-, hbody⟩ := plain_body hpoint
  rw [hwhole, hexp] at hbody
  have hsuffix : (partsOf (chars.drop start)).suffix = [] := by
    have hall : ds ++ e::(s ++ tail) = (ds ++ e::s) ++ tail := by simp
    rw [text_eq_behind, hbody, behind, hsplit, hall, List.drop_left, suffixText_eq_nil]
    exact fun c hc => (hhead c hc).2
  have hdecimal : Decimal chars start := by
    intro base hbase
    by_contra hne
    obtain ⟨letter, rest, hbased, hletter⟩ := basePrefix_iff.mp (eq_true_of_ne_false hne)
    obtain ⟨-, hlettterDu, -, hmark, -⟩ := base_letters hbase hbase hletter hletter
    rw [hsplit] at hbased
    obtain ⟨d, more, rfl, -⟩ := hds.head
    rcases more with _ | ⟨b, more⟩
    · obtain rfl : e = letter := (List.cons.inj (List.cons.inj hbased).2).1
      exact hmark he
    · obtain rfl : b = letter := (List.cons.inj (List.cons.inj hbased).2).1
      have := hds.du b (by simp)
      simp [hlettterDu] at this
  rw [lexNumber_plain hdecimal hpoint, if_neg (by rw [hrest, hpower]; simp),
    if_neg (by rw [hsuffix]; simp), hbody]
  refine (finishInt_eq hstart (wholeText_begins _) (takeWhile_digits _) _).mpr ?_
  rw [hwhole]
  exact ⟨digits_placed hds, hzero, hlimit, rfl, rfl⟩

/-- The scan from a place on takes a literal, with its value, and none that the text begins with
is longer. -/
def ExactNumber (T : Tables F) (chars : List ℕ) (start : ℕ) : Prop :=
  ∀ token next, lexNumber T chars start = .ok (token, next) → next ≤ chars.length ∧
    Literal T ((chars.take next).drop start) token ∧
    ∀ L, NumberText L → L <+: chars.drop start → start+L.length ≤ next

theorem number_scan_exact_iff (hT : ExponentNeedsDigits T) (hc : chars[start]? = some c)
    (hdigit : isDigit c) : ExactNumber T chars start ↔ ¬ DanglingExponent T chars start := by
  have hstart : start ≤ chars.length := (lt_length hc).le
  constructor
  · rintro hexact ⟨ds, e, s, tail, hsplit, hds, hzero, hlimit, he, hs, hsign, hhead⟩
    obtain ⟨-, hliteral, -⟩ := hexact _ _
      (dangling_ok hsplit hds hzero hlimit he hs hsign hhead hstart)
    have hpre : ds ++ e::s <+: chars.drop start := ⟨tail, by rw [hsplit]; simp⟩
    rw [(taken hstart hpre).2] at hliteral
    exact bare_no_literal hds he hs hliteral.text
  · intro hdangling token next hok
    by_cases hdecimal : Decimal chars start
    · obtain ⟨hliteral, rfl⟩ :=
        (decimal_exact hT hdecimal hc hdigit hok).resolve_left hdangling
      obtain ⟨hle, hslice⟩ := taken hstart (text_begins (chars.drop start))
      rw [hslice]
      refine ⟨hle, hliteral, fun L hL hpre => ?_⟩
      exact Nat.add_le_add_left (decimal_longest hdecimal hc hdigit hL hpre) start
    · obtain ⟨base, kind, hbase, hannounced, hscan⟩ := lexNumber_based (T := T) hdecimal
      rw [hscan] at hok
      obtain ⟨letter, rest, hsplit, -⟩ := basePrefix_iff.mp hannounced
      have hlen : start+2 ≤ chars.length := by
        have := congrArg List.length hsplit
        simp only [List.length_drop, List.length_cons] at this
        omega
      obtain ⟨hliteral, rfl⟩ := based_exact (T := T) hbase hlen hannounced hok
      have hpre : (chars.drop start).take 2 ++ baseDigits base (chars.drop start) <+:
          chars.drop start := by
        have hbehind := @List.takeWhile_prefix _ ((chars.drop start).drop 2)
          (fun c => base.digit c || c = 0x5F)
        have := (List.prefix_append_right_inj ((chars.drop start).take 2)).mpr hbehind
        rwa [List.take_append_drop] at this
      have htwo : ((chars.drop start).take 2 ++ baseDigits base (chars.drop start)).length =
          2+(baseDigits base (chars.drop start)).length := by
        rw [List.length_append, hsplit]
        rfl
      obtain ⟨hle, hslice⟩ := taken hstart hpre
      rw [htwo, ← Nat.add_assoc] at hle hslice
      rw [hslice]
      refine ⟨hle, hliteral, fun L hL hpreL => ?_⟩
      have := based_longest hbase hannounced hL hpreL
      omega

/-- Tables that read one float. -/
def oneFloat : Tables ℚ where
  namedCharacter := fun _ => none
  alphabetic := fun _ => false
  parseFloat := fun ds => if ds = [0x31, 0x32, 0x2E, 0x35] then some (25/2) else none
  intMaxStrDigits := 4300

theorem number_scan_exact_float : ExactNumber oneFloat [0x31, 0x32, 0x2E, 0x35, 0x2B] 0 := by
  have hneeds : ExponentNeedsDigits oneFloat := by
    intro m e s he hs
    refine if_neg fun h => ?_
    have hlast := congrArg List.getLast? h
    rcases he with rfl | rfl <;> rcases hs with rfl | rfl | rfl <;> simp at hlast
  refine (number_scan_exact_iff (c := 0x31) hneeds rfl rfl).mpr ?_
  rintro ⟨ds, e, s, tail, hsplit, -, -, -, he, -⟩
  have hmem : e ∈ [0x31, 0x32, 0x2E, 0x35, 0x2B] := by
    rw [List.drop_zero] at hsplit
    simp [hsplit]
  rcases he with rfl | rfl <;> simp at hmem

/-- The mark of `1e` is taken with the integer. -/
theorem bare_mark_taken : ¬ ExactNumber oneFloat [0x31, 0x65] 0 := by
  intro h
  obtain ⟨-, hliteral, -⟩ := h (.int 1) 2 rfl
  exact bare_no_literal (.one (d := 0x31) rfl) (Or.inl rfl) (Or.inl rfl) hliteral.text

end exception

end Pyrust.NumberLiterals
