import Pyrust.NumberGrammar

/-!
# The number scanner by its texts

The check of underscores lets through digit sequences. Where the scanner stands
after each of its loops is the length of the texts it has taken.
-/

set_option autoImplicit false

namespace Pyrust.NumberTexts

open ScanLoop StringLiterals LexerTokens NumberGrammar

/-! ## Underscores -/

/-- Every underscore follows a digit and comes before one. -/
def placed : Bool → List ℕ → Bool
  | _, [] => true
  | before, c::cs => (c ≠ 0x5F || (before && cs.head?.any isDigit)) && placed (isDigit c) cs

section underscores
variable {ds post xs ys : List ℕ} {before : Bool}

theorem placed_behind (h : placed before (xs ++ ys)) : ∃ b, placed b ys := by
  induction xs generalizing before with
  | nil => exact ⟨before, h⟩
  | cons c cs ih =>
    rw [List.cons_append, placed, Bool.and_eq_true] at h
    exact ih h.2

theorem placed_cons {c : ℕ} (h : placed before (c::ys)) : placed (isDigit c) ys := by
  rw [placed, Bool.and_eq_true] at h
  exact h.2

/-- The check looks at each place with the one before it and the one behind it. -/
theorem zipIdx_placed (done rest : List ℕ) :
    ((rest.zipIdx done.length).all fun x => x.1 ≠ 0x5F ∨
        (0 < x.2 ∧ ((done ++ rest)[x.2-1]?).any isDigit) ∧ ((done ++ rest)[x.2+1]?).any isDigit) =
      placed (done.getLast?.any isDigit) rest := by
  induction rest generalizing done with
  | nil => rfl
  | cons c cs ih =>
    have hnext : (done ++ c::cs)[done.length+1]? = cs.head? := by
      rw [List.getElem?_append_right (by omega), Nat.add_sub_cancel_left, List.getElem?_cons_succ,
        List.head?_eq_getElem?]
    have hbefore : (decide (0 < done.length) && ((done ++ c::cs)[done.length-1]?).any isDigit) =
        done.getLast?.any isDigit := by
      rcases List.eq_nil_or_concat done with rfl | ⟨d, x, rfl⟩
      · rfl
      · simp
    have hstep := ih (done ++ [c])
    rw [List.append_assoc, List.length_append, List.length_singleton, List.getLast?_concat] at hstep
    rw [List.zipIdx_cons, List.all_cons, placed]
    congr 1
    rw [← hbefore, ← hnext]
    simp [Bool.decide_or, Bool.decide_and]

theorem validate_placed (raw : List ℕ) :
    validateDecimalUnderscores raw = .ok () ↔ placed false raw := by
  have h := zipIdx_placed [] raw
  simp only [List.length_nil, List.nil_append] at h
  rw [validateDecimalUnderscores, h]
  split <;> simp_all

/-- A run that no digit follows is a digit sequence, if anything. -/
theorem digits_of_placed (hds : ∀ c ∈ ds, isDigitOrUnderscore c)
    (hpost : ∀ c ∈ post.head?, isDigit c = false) (h : placed before (ds ++ post)) :
    ds = [] ∨ Digits isDigit ds ∨
      before = true ∧ ∃ rest, ds = 0x5F::rest ∧ Digits isDigit rest := by
  induction ds generalizing before with
  | nil => exact Or.inl rfl
  | cons c cs ih =>
    rw [List.cons_append, placed, Bool.and_eq_true] at h
    obtain ⟨hc, hrest⟩ := h
    have hbehind := ih (fun d hd => hds d (List.mem_cons_of_mem _ hd)) hrest
    by_cases hunder : c = 0x5F
    · subst hunder
      simp only [ne_eq, not_true_eq_false, decide_false, Bool.false_or, Bool.and_eq_true] at hc
      rcases hbehind with rfl | hdigits | ⟨hfalse, -⟩
      · -- an underscore at the end would need a digit behind the run
        obtain ⟨d, hd, hdigit⟩ := Option.any_eq_true _ _ |>.mp hc.2
        exact absurd hdigit (by simp [hpost d hd])
      · exact Or.inr (Or.inr ⟨hc.1, cs, rfl, hdigits⟩)
      · exact absurd hfalse (by decide)
    · have hdigit : isDigit c := by
        have := hds c List.mem_cons_self
        simpa [isDigitOrUnderscore, hunder] using this
      refine Or.inr (Or.inl ?_)
      rcases hbehind with rfl | hdigits | ⟨-, rest, rfl, hdigits⟩
      · exact .one hdigit
      · exact .digit hdigit hdigits
      · exact .underscore hdigit hdigits

theorem digits_of_placed_fresh (hds : ∀ c ∈ ds, isDigitOrUnderscore c)
    (hpost : ∀ c ∈ post.head?, isDigit c = false) (h : placed false (ds ++ post)) :
    ds = [] ∨ Digits isDigit ds := by
  rcases digits_of_placed hds hpost h with h | h | ⟨hfalse, -⟩
  · exact Or.inl h
  · exact Or.inr h
  · exact absurd hfalse (by decide)

theorem digit_ne_underscore {c : ℕ} (h : isDigit c) : c ≠ 0x5F := by
  rintro rfl
  exact absurd h (by decide)

theorem digits_placed (h : Digits isDigit ds) : placed before ds := by
  induction h generalizing before with
  | one hd => simp [placed, digit_ne_underscore hd]
  | digit hd _ ih => simp [placed, digit_ne_underscore hd, ih]
  | @underscore d ds hd hds ih =>
    obtain ⟨e, rest, rfl, he⟩ := hds.head
    have hrest : NumberTexts.placed (isDigit 0x5F) (e::rest) := ih
    have hd' := digit_ne_underscore hd
    simp_all [NumberTexts.placed]

end underscores

/-! ## The shape of what is scanned -/

section shapes
variable {r : List ℕ}

def AllDigits (ds : List ℕ) : Prop := ∀ c ∈ ds, isDigitOrUnderscore c

theorem takeWhile_digits (r : List ℕ) : AllDigits (r.takeWhile isDigitOrUnderscore) :=
  fun c hc => List.all_eq_true.mp List.all_takeWhile c hc

theorem pointText_shape (r : List ℕ) :
    pointText r = [] ∨ ∃ b, pointText r = 0x2E::b ∧ AllDigits b := by
  unfold pointText
  split_ifs
  · exact Or.inr ⟨_, rfl, takeWhile_digits _⟩
  · exact Or.inl rfl

theorem signText_sign (r : List ℕ) : IsSign (signText r) := by
  unfold signText
  split_ifs with h
  · rcases r with _ | ⟨c, r⟩
    · simp at h
    · rcases h with h | h
      · exact Or.inr (Or.inl (by simpa using h))
      · exact Or.inr (Or.inr (by simpa using h))
  · exact Or.inl rfl

/-- The digits of an exponent. -/
def powerDigits (r : List ℕ) : List ℕ :=
  (r.tail.drop (signText r.tail).length).takeWhile isDigitOrUnderscore

theorem exponentText_shape (r : List ℕ) :
    exponentText r = [] ∨ ∃ e, IsExponentMark e ∧
      exponentText r = e::(signText r.tail ++ powerDigits r) := by
  unfold exponentText
  split_ifs with h
  · rcases r with _ | ⟨c, r⟩
    · simp at h
    · refine Or.inr ⟨c, ?_, rfl⟩
      rcases h with h | h
      · exact Or.inl (by simpa using h)
      · exact Or.inr (by simpa using h)
  · exact Or.inl rfl

theorem exponentText_head (r : List ℕ) : ∀ c ∈ (exponentText r).head?, isDigit c = false := by
  rcases exponentText_shape r with h | ⟨e, he, h⟩
  · simp [h]
  · rw [h]
    rintro c ⟨⟩
    rcases he with rfl | rfl <;> decide

theorem pointText_head (r t : List ℕ) :
    ∀ c ∈ (pointText r ++ exponentText t).head?, isDigit c = false := by
  rcases pointText_shape r with h | ⟨b, h, -⟩
  · rw [h]
    exact exponentText_head t
  · rw [h]
    rintro c ⟨⟩
    decide

theorem exponent_legal {before : Bool} (h : placed before (exponentText r)) :
    exponentText r = [] ∨ ∃ e s, exponentText r = e::(s ++ powerDigits r) ∧ IsExponentMark e ∧
      IsSign s ∧ (powerDigits r = [] ∨ Digits isDigit (powerDigits r)) := by
  rcases exponentText_shape r with hnone | ⟨e, he, htext⟩
  · exact Or.inl hnone
  · refine Or.inr ⟨e, signText r.tail, htext, he, signText_sign _, ?_⟩
    rw [htext] at h
    have hbehind := placed_cons h
    have hmark : isDigit e = false := by rcases he with rfl | rfl <;> decide
    have hfresh : placed false (powerDigits r) := by
      rcases signText_sign r.tail with hs | hs | hs
      · rwa [hs, hmark] at hbehind
      · rw [hs] at hbehind
        exact placed_cons hbehind
      · rw [hs] at hbehind
        exact placed_cons hbehind
    exact @digits_of_placed_fresh (powerDigits r) [] (takeWhile_digits _) (by simp)
      (by rwa [List.append_nil])

theorem point_legal {t : List ℕ} {before : Bool}
    (h : placed before (pointText r ++ exponentText t)) :
    pointText r = [] ∨ ∃ b, pointText r = 0x2E::b ∧ (b = [] ∨ Digits isDigit b) := by
  rcases pointText_shape r with hnone | ⟨b, htext, hb⟩
  · exact Or.inl hnone
  · rw [htext, List.cons_append] at h
    exact Or.inr ⟨b, htext, digits_of_placed_fresh hb (exponentText_head t) (placed_cons h)⟩

theorem whole_legal (h : placed false (partsOf r).body) :
    wholeText r = [] ∨ Digits isDigit (wholeText r) := by
  rw [Parts.body, List.append_assoc] at h
  exact digits_of_placed_fresh (takeWhile_digits r) (pointText_head _ _) h

end shapes

/-! ## The scanner by its texts -/

section positions
variable {chars t : List ℕ} {start : ℕ} (p : ℕ → Bool)

theorem getElem?_behind (chars t : List ℕ) (start : ℕ) :
    chars[start+t.length]? = (behind (chars.drop start) t).head? := by
  rw [behind, List.drop_drop, List.head?_drop]

theorem spanEnd_behind (chars t : List ℕ) (start : ℕ) :
    spanEnd p chars (start+t.length) =
      start+(t ++ (behind (chars.drop start) t).takeWhile p).length := by
  rw [spanEnd, behind, List.drop_drop, List.length_append]
  omega

theorem skipSign_behind (chars t : List ℕ) (start : ℕ) :
    skipSign chars (start+t.length) =
      start+(t ++ signText (behind (chars.drop start) t)).length := by
  unfold skipSign signText
  rw [getElem?_behind]
  split_ifs with h
  · rcases hr : behind (chars.drop start) t with _ | ⟨c, r⟩
    · simp [hr] at h
    · simp [Nat.add_assoc]
  · simp

theorem exponentMark_behind (chars t : List ℕ) (start : ℕ) :
    exponentMark chars (start+t.length) = true ↔ (behind (chars.drop start) t).head? = some 0x65 ∨
      (behind (chars.drop start) t).head? = some 0x45 := by
  rw [exponentMark, getElem?_behind]
  simp

theorem imaginarySuffix_behind (chars t : List ℕ) (start : ℕ) :
    imaginarySuffix chars (start+t.length) = true ↔
      suffixText (behind (chars.drop start) t) ≠ [] := by
  rw [imaginarySuffix, getElem?_behind, suffixText]
  rcases behind (chars.drop start) t with _ | ⟨c, r⟩
  · simp
  · simp [or_iff_not_imp_left]

/-- Behind an exponent mark, as the scanner counts it and as the text has it. -/
theorem exponent_behind {e : ℕ} {r : List ℕ} (h : behind (chars.drop start) t = e::r) :
    skipSign chars (start+t.length+1) = start+(t ++ e::signText r).length ∧
      skipExponent chars (start+t.length+1) =
        start+(t ++ e::(signText r ++ powerDigits (e::r))).length := by
  have hone : start+t.length+1 = start+(t ++ [e]).length := by simp [Nat.add_assoc]
  have hr : behind (chars.drop start) (t ++ [e]) = r := by
    rw [← behind_append, h]
    rfl
  have hsign : skipSign chars (start+t.length+1) = start+(t ++ e::signText r).length := by
    rw [hone, skipSign_behind, hr, List.append_assoc]
    rfl
  refine ⟨hsign, ?_⟩
  have hdigits : behind (chars.drop start) (t ++ e::signText r) =
      r.drop (signText r).length := by
    rw [List.append_cons, ← behind_append, hr]
    rfl
  rw [skipExponent, hsign, spanEnd_behind, hdigits, List.append_assoc]
  rfl

theorem behindExponent_behind (chars t : List ℕ) (start : ℕ) :
    behindExponent chars (start+t.length) =
      start+(t ++ exponentText (behind (chars.drop start) t)).length := by
  unfold behindExponent
  split_ifs with h
  · have hmark := (exponentMark_behind chars t start).mp h
    rcases hr : behind (chars.drop start) t with _ | ⟨e, r⟩
    · simp [hr] at hmark
    · rw [(exponent_behind hr).2, exponentText, if_pos (hr ▸ hmark)]
      rfl
  · rw [exponentText, if_neg (mt (exponentMark_behind chars t start).mpr h), List.append_nil]

end positions

section scanner
variable {F : Type} {T : Tables F} {chars : List ℕ} {start : ℕ}

/-- No base other than ten is announced. -/
def Decimal (chars : List ℕ) (start : ℕ) : Prop :=
  ∀ base ∈ bases, basePrefix chars start base.lower base.upper = false

theorem lexNumber_decimal (h : Decimal chars start) :
    lexNumber T chars start =
      let intEnd := spanEnd isDigitOrUnderscore chars start
      if chars[intEnd]? = some 0x2E then
        finishFloat T chars start
          (behindExponent chars (spanEnd isDigitOrUnderscore chars (intEnd+1)))
      else
        let pos := behindExponent chars intEnd
        if exponentMark chars intEnd ∧ skipSign chars (intEnd+1) < pos then
          finishFloat T chars start pos
        else if imaginarySuffix chars pos then finishImaginary T chars start pos
        else finishInt T chars start intEnd pos := by
  have hx := h ⟨0x78, 0x58, isHexDigit, 16⟩ (by simp [bases])
  have ho := h ⟨0x6F, 0x4F, fun c => 0x30 ≤ c && c ≤ 0x37, 8⟩ (by simp [bases])
  have hb := h ⟨0x62, 0x42, fun c => 0x30 ≤ c && c ≤ 0x31, 2⟩ (by simp [bases])
  simp only at hx ho hb
  unfold lexNumber
  simp only [hx, ho, hb, Bool.false_eq_true, if_false]

/-- The text behind the whole number. -/
def fractionRest (chars : List ℕ) (start : ℕ) : List ℕ :=
  behind (chars.drop start) (wholeText (chars.drop start))

/-- With a point or an exponent the body is read as a float. -/
theorem lexNumber_point (h : Decimal chars start)
    (hpoint : (partsOf (chars.drop start)).point ≠ []) :
    lexNumber T chars start =
      finishFloat T chars start (start+(partsOf (chars.drop start)).body.length) := by
  have hwhole : spanEnd isDigitOrUnderscore chars start =
      start+(wholeText (chars.drop start)).length := rfl
  have hdot : (behind (chars.drop start) (wholeText (chars.drop start))).head? = some 0x2E := by
    by_contra hne
    exact hpoint (if_neg hne)
  rw [lexNumber_decimal h, hwhole]
  dsimp only
  have hpos : start+(wholeText (chars.drop start)).length+1 =
      start+(wholeText (chars.drop start) ++ [0x2E]).length := by simp [Nat.add_assoc]
  have hfraction : spanEnd isDigitOrUnderscore chars
      (start+(wholeText (chars.drop start)).length+1) = start+(wholeText (chars.drop start) ++
        pointText (behind (chars.drop start) (wholeText (chars.drop start)))).length := by
    rcases hr : behind (chars.drop start) (wholeText (chars.drop start)) with _ | ⟨c, r⟩
    · simp [hr] at hdot
    · obtain rfl : c = 0x2E := by simpa [hr] using hdot
      rw [hpos, spanEnd_behind, ← behind_append, hr, List.append_assoc]
      rfl
  rw [if_pos (by rw [getElem?_behind, hdot]), hfraction, behindExponent_behind, ← behind_append]
  rfl

theorem plain_body (hpoint : (partsOf (chars.drop start)).point = []) :
    (partsOf (chars.drop start)).exponent = exponentText (fractionRest chars start) ∧
      (partsOf (chars.drop start)).body =
        wholeText (chars.drop start) ++ exponentText (fractionRest chars start) := by
  have hnone : pointText (fractionRest chars start) = [] := hpoint
  have hexp : (partsOf (chars.drop start)).exponent = exponentText (fractionRest chars start) := by
    change exponentText (behind (fractionRest chars start)
      (pointText (fractionRest chars start))) = _
    rw [hnone]
    rfl
  refine ⟨hexp, ?_⟩
  rw [Parts.body, hpoint, hexp, List.append_nil]
  rfl

/-- Without a point, the digits behind an exponent mark decide. -/
theorem lexNumber_plain (h : Decimal chars start)
    (hpoint : (partsOf (chars.drop start)).point = []) :
    lexNumber T chars start =
      if exponentText (fractionRest chars start) ≠ [] ∧ powerDigits (fractionRest chars start) ≠ []
        then finishFloat T chars start (start+(partsOf (chars.drop start)).body.length)
      else if (partsOf (chars.drop start)).suffix ≠ [] then
        finishImaginary T chars start (start+(partsOf (chars.drop start)).body.length)
      else finishInt T chars start (start+(wholeText (chars.drop start)).length)
        (start+(partsOf (chars.drop start)).body.length) := by
  obtain ⟨hexp, hbody⟩ := plain_body hpoint
  have hwhole : spanEnd isDigitOrUnderscore chars start =
      start+(wholeText (chars.drop start)).length := rfl
  have hdot : (behind (chars.drop start) (wholeText (chars.drop start))).head? ≠ some 0x2E := by
    intro hdot
    have hsome : (partsOf (chars.drop start)).point ≠ [] := by
      change pointText _ ≠ []
      rw [pointText, if_pos hdot]
      exact List.cons_ne_nil _ _
    exact hsome hpoint
  have hsuffix : suffixText (behind (chars.drop start) (partsOf (chars.drop start)).body) =
      (partsOf (chars.drop start)).suffix := by
    rw [Parts.body, hpoint, List.append_nil, ← behind_append]
    change suffixText _ = suffixText (behind (behind _ (partsOf (chars.drop start)).point) _)
    rw [hpoint]
    rfl
  have hpower : (exponentMark chars (start+(wholeText (chars.drop start)).length) = true ∧
      skipSign chars (start+(wholeText (chars.drop start)).length+1) <
        start+(partsOf (chars.drop start)).body.length) ↔
      exponentText (fractionRest chars start) ≠ [] ∧
        powerDigits (fractionRest chars start) ≠ [] := by
    rw [exponentMark_behind, hbody]
    rcases hr : behind (chars.drop start) (wholeText (chars.drop start)) with _ | ⟨e, r⟩
    · simp [fractionRest, hr, exponentText]
    · have hrest : fractionRest chars start = e::r := hr
      rw [(exponent_behind hr).1, hrest]
      by_cases hmark : e = 0x65 ∨ e = 0x45
      · have htext : exponentText (e::r) = e::(signText r ++ powerDigits (e::r)) := by
          rw [exponentText, if_pos (by simpa using hmark)]
          rfl
        rw [htext]
        have hlen : ∀ a b d : List ℕ, (start+(a ++ e::b).length < start+(a ++ e::(b ++ d)).length) ↔
            d ≠ [] := by
          intro a b d
          rw [ne_eq, ← List.length_eq_zero_iff]
          simp only [List.length_append, List.length_cons]
          omega
        simp only [List.head?_cons, Option.some.injEq, hmark, true_and, hlen, ne_eq,
          List.cons_ne_nil, not_false_eq_true]
      · simp [exponentText, hmark]
  rw [lexNumber_decimal h, hwhole]
  dsimp only
  rw [if_neg (by rwa [getElem?_behind]), behindExponent_behind]
  have hpos : start+(wholeText (chars.drop start) ++ exponentText (behind (chars.drop start)
      (wholeText (chars.drop start)))).length = start+(partsOf (chars.drop start)).body.length := by
    rw [hbody]
    rfl
  rw [hpos]
  have hsuffix' := imaginarySuffix_behind chars (partsOf (chars.drop start)).body start
  rw [hsuffix] at hsuffix'
  simp only [hpower, hsuffix']

end scanner

end Pyrust.NumberTexts
