import Pyrust.LexerTokens

/-!
# Numeric literals

The grammar of Python's numeric literals, and what a scan over a text takes for
one: a run of digits and underscores, a point with the run behind it, an exponent
and an imaginary suffix, each only if it is there. No literal that the text
begins with is longer than what the scan takes.
-/

set_option autoImplicit false

namespace Pyrust.NumberGrammar

open ScanLoop StringLiterals LexerTokens

/-! ## The grammar -/

/-- Digits with single underscores between them. -/
inductive Digits (p : ℕ → Bool) : List ℕ → Prop
  | one {d : ℕ} : p d → Digits p [d]
  | digit {d : ℕ} {ds : List ℕ} : p d → Digits p ds → Digits p (d::ds)
  | underscore {d : ℕ} {ds : List ℕ} : p d → Digits p ds → Digits p (d::0x5F::ds)

def IsExponentMark (e : ℕ) : Prop := e = 0x65 ∨ e = 0x45

def IsSuffix (j : ℕ) : Prop := j = 0x6A ∨ j = 0x4A

/-- At most one sign. -/
def IsSign (s : List ℕ) : Prop := s = [] ∨ s = [0x2B] ∨ s = [0x2D]

inductive Exponent : List ℕ → Prop
  | mk {e : ℕ} {s ds : List ℕ} : IsExponentMark e → IsSign s → Digits isDigit ds →
      Exponent (e::(s ++ ds))

inductive PointFloat : List ℕ → Prop
  | both {a b : List ℕ} : Digits isDigit a → Digits isDigit b → PointFloat (a ++ 0x2E::b)
  | front {a : List ℕ} : Digits isDigit a → PointFloat (a ++ [0x2E])
  | back {b : List ℕ} : Digits isDigit b → PointFloat (0x2E::b)

inductive FloatNumber : List ℕ → Prop
  | point {m : List ℕ} : PointFloat m → FloatNumber m
  | pointExponent {m x : List ℕ} : PointFloat m → Exponent x → FloatNumber (m ++ x)
  | exponent {a x : List ℕ} : Digits isDigit a → Exponent x → FloatNumber (a ++ x)

/-- A base other than ten: its two letters, its digits and its size. -/
structure Base where
  lower : ℕ
  upper : ℕ
  digit : ℕ → Bool
  radix : ℕ

def bases : List Base :=
  [⟨0x78, 0x58, isHexDigit, 16⟩, ⟨0x6F, 0x4F, fun c => 0x30 ≤ c && c ≤ 0x37, 8⟩,
    ⟨0x62, 0x42, fun c => 0x30 ≤ c && c ≤ 0x31, 2⟩]

/-- No leading zeros, unless all digits are zero. -/
def NoLeadingZero (ds : List ℕ) : Prop :=
  ds.head? ≠ some 0x30 ∨ ∀ d ∈ ds, d = 0x30 ∨ d = 0x5F

/-- A literal and the token that carries its value. -/
inductive Literal {F : Type} (T : Tables F) : List ℕ → Token F → Prop
  | based {base : Base} {letter : ℕ} {under ds : List ℕ} : base ∈ bases →
      letter = base.lower ∨ letter = base.upper → under = [] ∨ under = [0x5F] →
      Digits base.digit ds →
      Literal T (0x30::letter::(under ++ ds))
        (intToken (radixValue base.radix (withoutUnderscores ds)))
  | decimal {ds : List ℕ} : Digits isDigit ds → NoLeadingZero ds →
      Literal T ds (intToken (radixValue 10 (withoutUnderscores ds)))
  | float {ds : List ℕ} {v : F} : FloatNumber ds → T.parseFloat (withoutUnderscores ds) = some v →
      Literal T ds (.float v)
  | imaginary {ds : List ℕ} {v : F} {j : ℕ} : FloatNumber ds ∨ Digits isDigit ds → IsSuffix j →
      T.parseFloat (withoutUnderscores ds) = some v → Literal T (ds ++ [j]) (.imag v)

/-- The text of a literal. -/
inductive NumberText : List ℕ → Prop
  | based {base : Base} {letter : ℕ} {under ds : List ℕ} : base ∈ bases →
      letter = base.lower ∨ letter = base.upper → under = [] ∨ under = [0x5F] →
      Digits base.digit ds → NumberText (0x30::letter::(under ++ ds))
  | decimal {ds : List ℕ} : Digits isDigit ds → NoLeadingZero ds → NumberText ds
  | float {ds : List ℕ} : FloatNumber ds → NumberText ds
  | imaginary {ds : List ℕ} {j : ℕ} : FloatNumber ds ∨ Digits isDigit ds → IsSuffix j →
      NumberText (ds ++ [j])

theorem Literal.text {F : Type} {T : Tables F} {ds : List ℕ} {token : Token F}
    (h : Literal T ds token) : NumberText ds := by
  cases h with
  | based hbase hletter hunder hds => exact .based hbase hletter hunder hds
  | decimal hds hzero => exact .decimal hds hzero
  | float hds _ => exact .float hds
  | imaginary hds hj _ => exact .imaginary hds hj

/-! ## What a scan takes -/

def pointText (r : List ℕ) : List ℕ :=
  if r.head? = some 0x2E then 0x2E::r.tail.takeWhile isDigitOrUnderscore else []

def signText (r : List ℕ) : List ℕ :=
  if r.head? = some 0x2B ∨ r.head? = some 0x2D then r.take 1 else []

/-- The sign and the digits behind an exponent mark. -/
def powerText (r : List ℕ) : List ℕ :=
  signText r ++ (r.drop (signText r).length).takeWhile isDigitOrUnderscore

def exponentText (r : List ℕ) : List ℕ :=
  if r.head? = some 0x65 ∨ r.head? = some 0x45 then r.take 1 ++ powerText r.tail else []

def suffixText (r : List ℕ) : List ℕ :=
  if r.head? = some 0x6A ∨ r.head? = some 0x4A then r.take 1 else []

def wholeText (r : List ℕ) : List ℕ := r.takeWhile isDigitOrUnderscore

/-- Behind a number of texts. -/
def behind (r t : List ℕ) : List ℕ := r.drop t.length

/-- The whole number, its fraction, its exponent and its suffix. -/
structure Parts where
  whole : List ℕ
  point : List ℕ
  exponent : List ℕ
  suffix : List ℕ

def partsOf (r : List ℕ) : Parts :=
  let whole := wholeText r
  let r1 := behind r whole
  let point := pointText r1
  let r2 := behind r1 point
  let exponent := exponentText r2
  ⟨whole, point, exponent, suffixText (behind r2 exponent)⟩

/-- The number without its suffix. -/
def Parts.body (p : Parts) : List ℕ := p.whole ++ p.point ++ p.exponent

def Parts.text (p : Parts) : List ℕ := p.body ++ p.suffix

/-! ## Each text begins what it is taken from -/

section beginnings
variable {r : List ℕ}

theorem wholeText_begins (r : List ℕ) : wholeText r <+: r := List.takeWhile_prefix _

theorem take_one_begins (r : List ℕ) : r.take 1 <+: r := List.take_prefix 1 r

theorem pointText_begins (r : List ℕ) : pointText r <+: r := by
  unfold pointText
  split_ifs with h
  · rcases r with _ | ⟨c, r⟩
    · cases h
    · obtain rfl : c = 0x2E := by simpa using h
      exact List.cons_prefix_cons.mpr ⟨rfl, List.takeWhile_prefix _⟩
  · exact List.nil_prefix

theorem signText_begins (r : List ℕ) : signText r <+: r := by
  unfold signText
  split_ifs
  · exact take_one_begins r
  · exact List.nil_prefix

/-- A beginning, and a beginning of what is behind it. -/
theorem begins_append {a t : List ℕ} (ha : a <+: r) (ht : t <+: behind r a) : a ++ t <+: r := by
  obtain ⟨rest, rfl⟩ := ha
  rw [behind, List.drop_left] at ht
  exact List.prefix_append_right_inj a |>.mpr ht

theorem powerText_begins (r : List ℕ) : powerText r <+: r :=
  begins_append (signText_begins r) (List.takeWhile_prefix _)

theorem exponentText_begins (r : List ℕ) : exponentText r <+: r := by
  unfold exponentText
  split_ifs
  · refine begins_append (take_one_begins r) ?_
    rcases r with _ | ⟨c, r⟩
    · exact List.nil_prefix
    · exact powerText_begins r
  · exact List.nil_prefix

theorem suffixText_begins (r : List ℕ) : suffixText r <+: r := by
  unfold suffixText
  split_ifs
  · exact take_one_begins r
  · exact List.nil_prefix

theorem behind_append (r a t : List ℕ) : behind (behind r a) t = behind r (a ++ t) := by
  rw [behind, behind, behind, List.drop_drop, List.length_append]

theorem body_begins (r : List ℕ) : (partsOf r).body <+: r := by
  refine begins_append (begins_append (wholeText_begins r) (pointText_begins _)) ?_
  rw [← behind_append]
  exact exponentText_begins _

theorem text_begins (r : List ℕ) : (partsOf r).text <+: r := by
  refine begins_append (body_begins r) ?_
  have hbehind : behind r (partsOf r).body = behind (behind (behind r (partsOf r).whole)
      (partsOf r).point) (partsOf r).exponent := by
    rw [behind_append, behind_append, ← List.append_assoc]
    rfl
  rw [hbehind]
  exact suffixText_begins _

end beginnings

/-! ## The scan takes the longest literal -/

theorem Digits.du {ds : List ℕ} (h : Digits isDigit ds) : ∀ c ∈ ds, isDigitOrUnderscore c := by
  induction h with
  | one hd => simp [isDigitOrUnderscore, hd]
  | digit hd _ ih =>
    intro c hc
    rcases List.mem_cons.mp hc with rfl | hc
    · simp [isDigitOrUnderscore, hd]
    · exact ih c hc
  | underscore hd _ ih =>
    intro c hc
    rcases List.mem_cons.mp hc with rfl | hc
    · simp [isDigitOrUnderscore, hd]
    · rcases List.mem_cons.mp hc with rfl | hc
      · rfl
      · exact ih c hc

theorem Digits.head {p : ℕ → Bool} {ds : List ℕ} (h : Digits p ds) :
    ∃ d rest, ds = d::rest ∧ p d := by
  cases h with
  | one hd => exact ⟨_, _, rfl, hd⟩
  | digit hd _ => exact ⟨_, _, rfl, hd⟩
  | underscore hd _ => exact ⟨_, _, rfl, hd⟩

/-- An imaginary suffix or nothing. -/
def SuffixTail (t : List ℕ) : Prop := t = [] ∨ ∃ j, IsSuffix j ∧ t = [j]

/-- What may follow the digits before or behind a point. -/
def ExponentTail (u : List ℕ) : Prop :=
  ∃ x t, u = x ++ t ∧ (x = [] ∨ Exponent x) ∧ SuffixTail t

/-- What may follow the whole number. -/
def PointTail (v : List ℕ) : Prop :=
  ∃ q u, v = q ++ u ∧ (q = [] ∨ ∃ b, q = 0x2E::b ∧ ∀ c ∈ b, isDigitOrUnderscore c) ∧
    ExponentTail u

section longest
variable {r a t u v ds : List ℕ} {c : ℕ} {p : ℕ → Bool}

theorem span_le (ha : ∀ x ∈ a, p x) (h : a <+: r) : a.length ≤ (r.takeWhile p).length := by
  obtain ⟨rest, rfl⟩ := h
  rw [List.takeWhile_append_of_pos ha, List.length_append]
  exact Nat.le_add_right _ _

/-- A run that something else follows is the whole run. -/
theorem span_exact (ha : ∀ x ∈ a, p x) (hc : p c = false) (h : a ++ c::t <+: r) :
    r.takeWhile p = a ∧ c::t <+: behind r a := by
  obtain ⟨rest, rfl⟩ := h
  constructor
  · rw [List.append_assoc, List.takeWhile_append_of_pos ha, List.cons_append,
      List.takeWhile_cons_of_neg (by simp [hc]), List.append_nil]
  · rw [behind, List.append_assoc, List.drop_left]
    exact List.prefix_append _ _

theorem head_of_begins (h : c::t <+: r) : r.head? = some c ∧ t <+: r.tail := by
  obtain ⟨rest, rfl⟩ := h
  exact ⟨rfl, List.prefix_append _ _⟩

theorem SuffixTail.head (h : SuffixTail t) : t = [] ∨ ∃ c, t = [c] ∧ IsSuffix c ∧
    isDigitOrUnderscore c = false := by
  rcases h with h | ⟨j, hj, rfl⟩
  · exact Or.inl h
  · refine Or.inr ⟨j, rfl, hj, ?_⟩
    rcases hj with rfl | rfl <;> decide

theorem ExponentTail.head (h : ExponentTail u) : u = [] ∨ ∃ c u', u = c::u' ∧
    isDigitOrUnderscore c = false ∧ c ≠ 0x2E := by
  obtain ⟨x, t, rfl, hx, ht⟩ := h
  rcases hx with rfl | hx
  · rcases ht with rfl | ⟨j, hj, rfl⟩
    · exact Or.inl rfl
    · refine Or.inr ⟨j, [], rfl, ?_⟩
      rcases hj with rfl | rfl <;> decide
  · cases hx with
    | mk he hs hds =>
      refine Or.inr ⟨_, _, rfl, ?_⟩
      rcases he with rfl | rfl <;> decide

theorem PointTail.head (h : PointTail v) : v = [] ∨ ∃ c v', v = c::v' ∧
    isDigitOrUnderscore c = false := by
  obtain ⟨q, u, rfl, hq, hu⟩ := h
  rcases hq with rfl | ⟨b, rfl, -⟩
  · rcases hu.head with rfl | ⟨c, u', rfl, hc, -⟩
    · exact Or.inl rfl
    · exact Or.inr ⟨c, u', rfl, hc⟩
  · exact Or.inr ⟨0x2E, _, rfl, by decide⟩

theorem suffix_le (h : SuffixTail t) (hpre : t <+: r) : t.length ≤ (suffixText r).length := by
  rcases h with rfl | ⟨j, hj, rfl⟩
  · exact Nat.zero_le _
  · have hhead := (head_of_begins hpre).1
    have hif : r.head? = some 0x6A ∨ r.head? = some 0x4A := by
      rcases hj with rfl | rfl
      · exact Or.inl hhead
      · exact Or.inr hhead
    rw [suffixText, if_pos hif]
    rcases r with _ | ⟨d, r⟩
    · cases hhead
    · simp

/-- A sign, and the digits that follow it. -/
theorem signText_eq {s : List ℕ} (hs : IsSign s) (hds : Digits isDigit ds)
    (h : s ++ ds ++ t <+: r) : signText r = s := by
  obtain ⟨d, rest, rfl, hd⟩ := hds.head
  obtain ⟨more, rfl⟩ := h
  rcases hs with rfl | rfl | rfl
  · have hne : d ≠ 0x2B ∧ d ≠ 0x2D := by
      constructor <;> rintro rfl <;> exact absurd hd (by decide)
    simp [signText, hne]
  · rfl
  · rfl

theorem exponent_le (h : ExponentTail u) (hpre : u <+: r) :
    u.length ≤ (exponentText r).length+(suffixText (behind r (exponentText r))).length := by
  obtain ⟨x, t, rfl, hx, ht⟩ := h
  rcases hx with rfl | hx
  · have hnone : exponentText r = [] ∨ t = [] := by
      rcases ht with rfl | ⟨j, hj, rfl⟩
      · exact Or.inr rfl
      · have hhead := (head_of_begins hpre).1
        rw [exponentText, hhead]
        rcases hj with rfl | rfl
        · exact Or.inl rfl
        · exact Or.inl rfl
    rcases hnone with hnone | rfl
    · rw [hnone]
      have := suffix_le ht hpre
      simpa [behind] using this
    · exact Nat.zero_le _
  · cases hx with
    | @mk e s ds he hs hds =>
      obtain ⟨hhead, htail⟩ := head_of_begins hpre
      have hmark : r.head? = some 0x65 ∨ r.head? = some 0x45 := by
        rcases he with rfl | rfl
        · exact Or.inl hhead
        · exact Or.inr hhead
      have hsign := signText_eq hs hds htail
      have hrest : ds ++ t <+: r.tail.drop s.length := by
        have htail' : (s ++ ds) ++ t <+: r.tail := htail
        rw [List.append_assoc] at htail'
        obtain ⟨more, hmore⟩ := htail'
        rw [← hmore, List.append_assoc, List.drop_left]
        exact List.prefix_append _ _
      have hone : r = e::r.tail := by
        rcases r with _ | ⟨d, r⟩
        · cases hhead
        · obtain rfl : d = e := by simpa using hhead
          rfl
      have hexp : exponentText r =
          e::(s ++ (r.tail.drop s.length).takeWhile isDigitOrUnderscore) := by
        rw [exponentText, if_pos hmark, powerText, hsign]
        conv_lhs => rw [hone]
        rfl
      rcases ht.head with rfl | ⟨j, rfl, hj, hjdu⟩
      · rw [List.append_nil] at hrest ⊢
        have hle := span_le hds.du hrest
        rw [hexp]
        simp only [List.length_cons, List.length_append] at hle ⊢
        omega
      · obtain ⟨hspan, hnext⟩ := span_exact hds.du hjdu hrest
        have hbehind : behind r (exponentText r) = behind (r.tail.drop s.length) ds := by
          have hlen : (e::(s ++ ds)).length = s.length+ds.length+1 := by simp
          rw [hexp, hspan, behind, behind, List.drop_drop, hlen, ← List.drop_one, List.drop_drop]
          congr 1
          omega
        have hle := suffix_le (Or.inr ⟨j, hj, rfl⟩) (hbehind ▸ hnext)
        rw [hexp, hspan] at hle ⊢
        simp only [List.length_cons, List.length_append, List.length_nil] at hle ⊢
        omega

theorem point_le (h : PointTail v) (hpre : v <+: r) :
    v.length ≤ (pointText r).length+(exponentText (behind r (pointText r))).length+
      (suffixText (behind (behind r (pointText r))
        (exponentText (behind r (pointText r))))).length := by
  obtain ⟨q, u, rfl, hq, hu⟩ := h
  rcases hq with rfl | ⟨b, rfl, hb⟩
  · rcases hu.head with rfl | ⟨c, u', rfl, hc, hdot⟩
    · exact Nat.zero_le _
    · have hhead := (head_of_begins hpre).1
      have hnone : pointText r = [] := by
        rw [pointText, hhead]
        exact if_neg (by simpa using hdot)
      have hle := exponent_le hu hpre
      rw [hnone]
      simpa [behind] using hle
  · obtain ⟨hhead, htail⟩ := head_of_begins hpre
    have hpoint : pointText r = 0x2E::r.tail.takeWhile isDigitOrUnderscore := by
      rw [pointText, if_pos hhead]
    have hdrop : ∀ w : List ℕ, behind r (0x2E::w) = behind r.tail w := by
      intro w
      rw [behind, behind, List.length_cons, ← List.drop_one, List.drop_drop, Nat.add_comm 1]
    rcases hu.head with rfl | ⟨c, u', rfl, hc, -⟩
    · have htail' : b ++ [] <+: r.tail := htail
      rw [List.append_nil] at htail'
      have hle := span_le hb htail'
      rw [hpoint]
      simp only [List.length_cons, List.length_append, List.length_nil] at hle ⊢
      omega
    · obtain ⟨hspan, hnext⟩ := span_exact hb hc htail
      have hle := exponent_le hu hnext
      rw [hpoint, hspan, hdrop]
      simp only [List.length_cons, List.length_append] at hle ⊢
      omega

/-- A number that begins with a run of digits. -/
theorem whole_le (ha : ∀ x ∈ a, isDigitOrUnderscore x) (h : PointTail v) (hpre : a ++ v <+: r) :
    (a ++ v).length ≤ (partsOf r).text.length := by
  have htext : (partsOf r).text.length = (wholeText r).length+
      ((pointText (behind r (wholeText r))).length+
        (exponentText (behind (behind r (wholeText r))
          (pointText (behind r (wholeText r))))).length+
        (partsOf r).suffix.length) := by
    simp only [Parts.text, Parts.body, List.length_append, partsOf]
    omega
  rcases h.head with rfl | ⟨c, v', rfl, hc⟩
  · rw [List.append_nil] at hpre ⊢
    have hle := span_le ha hpre
    rw [htext, wholeText]
    omega
  · obtain ⟨hspan, hnext⟩ := span_exact ha hc hpre
    have hle := point_le h hnext
    have hwhole : wholeText r = a := hspan
    rw [htext, hwhole, List.length_append]
    simp only [partsOf, hwhole] at hle ⊢
    omega

theorem suffixTail_exponent {t : List ℕ} (h : SuffixTail t) : ExponentTail t :=
  ⟨[], t, rfl, Or.inl rfl, h⟩

theorem exponentTail_point {u : List ℕ} (h : ExponentTail u) : PointTail u :=
  ⟨[], u, rfl, Or.inl rfl, h⟩

/-- A number in base ten, with or without a suffix, splits into its digits and what follows. -/
theorem number_split {m : List ℕ} (h : FloatNumber m ∨ Digits isDigit m) (ht : SuffixTail t)
    (hdot : m.head? ≠ some 0x2E) :
    ∃ a v, m ++ t = a ++ v ∧ (∀ x ∈ a, isDigitOrUnderscore x) ∧ PointTail v := by
  have hpoint : ∀ {m x : List ℕ}, PointFloat m → m.head? ≠ some 0x2E → x = [] ∨ Exponent x →
      ∃ a v, m ++ x ++ t = a ++ v ∧ (∀ x ∈ a, isDigitOrUnderscore x) ∧ PointTail v := by
    intro m x hm hdot hx
    have htail : ExponentTail (x ++ t) := ⟨x, t, rfl, hx, ht⟩
    cases hm with
    | @both a b ha hb =>
      exact ⟨a, 0x2E::b ++ (x ++ t), by simp, ha.du, _, _, rfl, Or.inr ⟨b, rfl, hb.du⟩, htail⟩
    | @front a ha =>
      exact ⟨a, [0x2E] ++ (x ++ t), by simp, ha.du, _, _, rfl, Or.inr ⟨[], rfl, by simp⟩, htail⟩
    | back => exact absurd rfl hdot
  rcases h with h | h
  · cases h with
    | point hm => simpa using hpoint hm hdot (Or.inl rfl)
    | @pointExponent m x hm hx =>
      refine hpoint hm ?_ (Or.inr hx)
      cases hm with
      | both ha hb =>
        obtain ⟨d, rest, rfl, hd⟩ := ha.head
        exact hdot
      | front ha =>
        obtain ⟨d, rest, rfl, hd⟩ := ha.head
        exact hdot
      | back hb => exact absurd rfl hdot
    | @exponent a x ha hx =>
      refine ⟨a, x ++ t, List.append_assoc _ _ _, ha.du, exponentTail_point ?_⟩
      exact ⟨x, t, rfl, Or.inr hx, ht⟩
  · exact ⟨m, t, rfl, h.du, exponentTail_point (suffixTail_exponent ht)⟩

end longest

end Pyrust.NumberGrammar
