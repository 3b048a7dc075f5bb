import Mathlib.Tactic.IntervalCases
import Pyrust.TextCursor

/-!
# Format specifications

A format specification is a row of optional parts, each read when its first character
stands at the cursor. What the reader accepts and which parts it finds are compared with
the grammar of the specifications.
-/

set_option autoImplicit false

namespace Pyrust.FormatSpecs

open TextCursor

/-! ## The reader -/

structure FormatSpec where
  fill : Char
  align : Option Char
  /-- The two-character form gave the fill character. -/
  fillExplicit : Bool
  sign : Option Char
  alt : Bool
  zeroPad : Bool
  width : ℕ
  grouping : Option Char
  precision : Option ℕ
  typeChar : Option Char
  deriving DecidableEq, Repr

/-- A `ValueError`, or a slice that is not at the boundaries of characters. -/
inductive SpecError where
  | valueErr (message : String)
  | panicked
  deriving DecidableEq, Repr

def isAlign (c : Char) : Bool := c == '<' || c == '>' || c == '=' || c == '^'

def isBrace (c : Char) : Bool := c == '{' || c == '}'

def isSign (c : Char) : Bool := c == '+' || c == '-' || c == ' '

def isGrouping (c : Char) : Bool := c == ',' || c == '_'

/-- Fill and alignment, from the first two characters. -/
def takeFillAlign (spec : List Char) (chars : List (ℕ × Char)) :
    (Char × Option Char × Bool) × List (ℕ × Char) :=
  match spec with
  | c0::c1::_ =>
    if isAlign c1 && !isBrace c0 then ((c0, some c1, true), chars.drop 2)
    else if isAlign c0 then ((' ', some c0, false), chars.drop 1)
    else ((' ', none, false), chars)
  | [c0] =>
    if isAlign c0 then ((' ', some c0, false), chars.drop 1) else ((' ', none, false), chars)
  | [] => ((' ', none, false), chars)

def tooManyDigits : SpecError := .valueErr "Too many decimal digits in format string"

/-- An ASCII digit run, parsed from the slice of the specification that it spans. -/
def takeNumber (spec : List Char) (chars : List (ℕ × Char)) :
    Except SpecError (Option ℕ × List (ℕ × Char)) :=
  let start := position (byteLen spec) chars
  let (stop, chars) := digitRun start chars
  if start < stop then
    match slice spec start stop with
    | none => .error .panicked
    | some digits =>
      match parseDigits (2^64) digits with
      | some n => .ok (some n, chars)
      | none => .error tooManyDigits
  else .ok (none, chars)

def takePrecision (spec : List Char) (chars : List (ℕ × Char)) :
    Except SpecError (Option ℕ × List (ℕ × Char)) :=
  match nextIf (· == '.') chars with
  | (none, chars) => .ok (none, chars)
  | (some _, chars) => do
    let (number, chars) ← takeNumber spec chars
    match number with
    | some n => .ok (some n, chars)
    -- '.' with no digits is a syntax error in CPython
    | none => .error (.valueErr "Format specifier missing precision")

def formatCodeRepr (c : Char) : String :=
  if 0x20 ≤ c.toNat && c.toNat ≤ 0x7f then c.toString
  else "\\x" ++ String.ofList (Nat.toDigits 16 c.toNat)

/-- The types that may follow a separator. -/
def groupingOk (g t : Char) : Bool :=
  t == 'd' || t == 'e' || t == 'E' || t == 'f' || t == 'F' || t == 'g' || t == 'G' || t == '%' ||
    g == '_' && (t == 'b' || t == 'o' || t == 'x' || t == 'X')

def checkGrouping (grouping typeChar : Option Char) : Except SpecError Unit :=
  match grouping, typeChar with
  | some g, some t =>
    if t == ',' || t == '_' then
      if t == g then
        .error (.valueErr ("Cannot specify '" ++ g.toString ++ "' with '" ++ g.toString ++ "'."))
      else .error (.valueErr "Cannot specify both ',' and '_'.")
    else if groupingOk g t then .ok ()
    else .error (.valueErr
      ("Cannot specify '" ++ g.toString ++ "' with '" ++ formatCodeRepr t ++ "'."))
  | _, _ => .ok ()

def invalidSpecifier (spec : List Char) (typeName : String) : SpecError :=
  .valueErr ("Invalid format specifier '" ++ String.ofList spec ++ "' for object of type '" ++
    typeName ++ "'")

def parseFormatSpec (spec : List Char) (typeName : String) : Except SpecError FormatSpec := do
  let ((fill, align, fillExplicit), chars) := takeFillAlign spec (charIndices 0 spec)
  let (sign, chars) := nextIf isSign chars
  let (alt, chars) := nextIf (· == '#') chars
  let (zeroPad, chars) := nextIf (· == '0') chars
  let (width, chars) ← takeNumber spec chars
  let (grouping, chars) := nextIf isGrouping chars
  let (precision, chars) ← takePrecision spec chars
  let (typeChar, chars) := nextIf (fun _ => true) chars
  if !chars.isEmpty then .error (invalidSpecifier spec typeName)
  else do
    checkGrouping grouping typeChar
    pure { fill, align, fillExplicit, sign, alt := alt.isSome, zeroPad := zeroPad.isSome,
           width := width.getD 0, grouping, precision, typeChar }

/-! ## The grammar -/

/-- The parts of a specification, each as it is written. -/
structure Derivation where
  fill : Option Char
  align : Option Char
  sign : Option Char
  alt : Option Char
  zero : Option Char
  width : List Char
  grouping : Option Char
  precision : Option (List Char)
  typeChar : Option Char
  deriving DecidableEq, Repr

def precisionText : Option (List Char) → List Char
  | none => []
  | some digits => '.' :: digits

/-- What follows does not begin a precision, or does not continue the one that is there. -/
def PrecisionEnds : Option (List Char) → List Char → Prop
  | none, rest => ∀ c ∈ rest.head?, c ≠ '.'
  | some _, rest => ∀ c ∈ rest.head?, c.isDigit = false

namespace Derivation
variable (d : Derivation)

def fromType : List Char := d.typeChar.toList
def fromPrecision : List Char := precisionText d.precision ++ d.fromType
def fromGrouping : List Char := d.grouping.toList ++ d.fromPrecision
def fromWidth : List Char := d.width ++ d.fromGrouping
def fromZero : List Char := d.zero.toList ++ d.fromWidth
def fromAlt : List Char := d.alt.toList ++ d.fromZero
def fromSign : List Char := d.sign.toList ++ d.fromAlt

/-- The parts in their order. -/
def text : List Char := d.fill.toList ++ (d.align.toList ++ d.fromSign)

/-- Each part is one that its place in the grammar allows. -/
structure WellFormed : Prop where
  fill : ∀ c ∈ d.fill, isBrace c = false ∧ d.align ≠ none
  align : ∀ c ∈ d.align, isAlign c = true
  sign : ∀ c ∈ d.sign, isSign c = true
  alt : ∀ c ∈ d.alt, c = '#'
  zero : ∀ c ∈ d.zero, c = '0'
  width : (∀ c ∈ d.width, c.isDigit = true) ∧ digitsValue d.width < 2^64
  grouping : ∀ g ∈ d.grouping, isGrouping g = true ∧ ∀ t ∈ d.typeChar, groupingOk g t = true
  precision : ∀ ds ∈ d.precision, ds ≠ [] ∧ (∀ c ∈ ds, c.isDigit = true) ∧ digitsValue ds < 2^64

/-- The type is no digit, and a point only behind a precision. -/
def PlainType : Prop :=
  ∀ t ∈ d.typeChar, t.isDigit = false ∧ (t = '.' → d.precision ≠ none)

/-- Each part is there when the character at its place can begin it, the fill before the alignment,
and runs of digits reach as far as they can. -/
structure Prefers : Prop where
  fill : d.fill = none → ∀ c0 c1 cs, d.text = c0::c1::cs → isAlign c1 = true → isBrace c0 = true
  align : d.align = none → ∀ c ∈ d.text.head?, isAlign c = false
  sign : d.sign = none → ∀ c ∈ d.fromAlt.head?, isSign c = false
  alt : d.alt = none → ∀ c ∈ d.fromZero.head?, c ≠ '#'
  zero : d.zero = none → ∀ c ∈ d.fromWidth.head?, c ≠ '0'
  width : ∀ c ∈ d.fromGrouping.head?, c.isDigit = false
  grouping : d.grouping = none → ∀ c ∈ d.fromPrecision.head?, isGrouping c = false
  precision : PrecisionEnds d.precision d.fromType

/-- What the reader returns for the parts. -/
def fields : FormatSpec where
  fill := d.fill.getD ' '
  align := d.align
  fillExplicit := d.fill.isSome
  sign := d.sign
  alt := d.alt.isSome
  zeroPad := d.zero.isSome
  width := digitsValue d.width
  grouping := d.grouping
  precision := d.precision.map digitsValue
  typeChar := d.typeChar

/-- The numbers without their leading zeros; a width of zero is not written. -/
def stripped : Derivation :=
  { d with
    width := d.width.dropWhile (· == '0')
    precision := d.precision.map fun ds =>
      if (ds.dropWhile (· == '0')).isEmpty then ['0'] else ds.dropWhile (· == '0') }

end Derivation

/-- The fields of a specification in their order. -/
def FormatSpec.written (fs : FormatSpec) : List Char :=
  (if fs.fillExplicit then [fs.fill] else []) ++ fs.align.toList ++ fs.sign.toList ++
    (if fs.alt then ['#'] else []) ++ (if fs.zeroPad then ['0'] else []) ++
    (if fs.width = 0 then [] else Nat.toDigits 10 fs.width) ++ fs.grouping.toList ++
    precisionText (fs.precision.map (Nat.toDigits 10)) ++ fs.typeChar.toList

/-! ## Reading without positions -/

section read

def readHead : List Char → (Option Char × Option Char) × List Char
  | c0::c1::cs =>
    if isAlign c1 && !isBrace c0 then ((some c0, some c1), cs)
    else if isAlign c0 then ((none, some c0), c1::cs) else ((none, none), c0::c1::cs)
  | [c0] => if isAlign c0 then ((none, some c0), []) else ((none, none), [c0])
  | [] => ((none, none), [])

def readPrecision (s : List Char) : Option (List Char) × List Char :=
  match headIf (· == '.') s with
  | (none, s) => (none, s)
  | (some _, s) => (some (s.takeWhile Char.isDigit), s.dropWhile Char.isDigit)

/-- The parts that the characters begin, and what is left behind them. -/
def read (s : List Char) : Derivation × List Char :=
  let head := readHead s
  let sign := headIf isSign head.2
  let alt := headIf (· == '#') sign.2
  let zero := headIf (· == '0') alt.2
  let grouping := headIf isGrouping (zero.2.dropWhile Char.isDigit)
  let precision := readPrecision grouping.2
  let type := headIf (fun _ => true) precision.2
  ({ fill := head.1.1, align := head.1.2, sign := sign.1, alt := alt.1, zero := zero.1,
     width := zero.2.takeWhile Char.isDigit, grouping := grouping.1,
     precision := precision.1, typeChar := type.1 }, type.2)

/-- The value of a run of digits; there is none in an empty one. -/
def runValue (digits : List Char) : Except SpecError (Option ℕ) :=
  if digits = [] then .ok none
  else if digitsValue digits < 2^64 then .ok (some (digitsValue digits)) else .error tooManyDigits

def precisionValue : Option (List Char) → Except SpecError (Option ℕ)
  | none => .ok none
  | some digits => do
    match ← runValue digits with
    | some n => .ok (some n)
    | none => .error (.valueErr "Format specifier missing precision")

/-- What is checked of the parts. -/
def check (spec : List Char) (typeName : String) (d : Derivation) (rest : List Char) :
    Except SpecError FormatSpec := do
  let _ ← runValue d.width
  let _ ← precisionValue d.precision
  if !rest.isEmpty then .error (invalidSpecifier spec typeName)
  else do
    checkGrouping d.grouping d.typeChar
    pure d.fields

variable {spec rest : List Char} {chars : List (ℕ × Char)}

theorem ok_bind {α β : Type} (a : α) (f : α → Except SpecError β) :
    ((Except.ok a : Except SpecError α) >>= f) = f a := rfl

theorem takeFillAlign_eq (spec : List Char) : ∃ chars,
    takeFillAlign spec (charIndices 0 spec) =
        (((readHead spec).1.1.getD ' ', (readHead spec).1.2, (readHead spec).1.1.isSome), chars) ∧
      At spec chars (readHead spec).2 := by
  have hstart := At.start spec
  match spec, hstart with
  | [], hstart => exact ⟨_, rfl, hstart⟩
  | [c0], hstart =>
    obtain ⟨i, chars, hchars, htail⟩ := hstart.cons
    rw [takeFillAlign, readHead, hchars]
    split
    · exact ⟨chars, rfl, htail⟩
    · exact ⟨_, rfl, hchars ▸ hstart⟩
  | c0::c1::cs, hstart =>
    obtain ⟨i, chars, hchars, htail⟩ := hstart.cons
    obtain ⟨j, chars', rfl, htail'⟩ := htail.cons
    rw [takeFillAlign, readHead, hchars]
    split
    · exact ⟨chars', rfl, htail'⟩
    · split
      · exact ⟨_, rfl, htail⟩
      · exact ⟨_, rfl, hchars ▸ hstart⟩

/-- A number that is read is the value of a run of digits of the text. -/
theorem takeNumber_eq (h : At spec chars rest) :
    ∃ chars', takeNumber spec chars =
        (runValue (rest.takeWhile Char.isDigit)).map (·, chars') ∧
      At spec chars' (rest.dropWhile Char.isDigit) := by
  obtain ⟨stop, chars', hrun, hslice, hstop, hat⟩ := h.digitRun
  refine ⟨chars', ?_, hat⟩
  simp only [takeNumber, hrun]
  rw [runValue, hslice]
  by_cases hempty : rest.takeWhile Char.isDigit = []
  · rw [if_neg (by rw [hstop, hempty]; simp), if_pos hempty]
    rfl
  · have hpos := List.length_pos_iff.mpr hempty
    rw [if_pos (by omega), if_neg hempty]
    simp only [parseDigits_eq (by decide : 0 < 2^64)]
    by_cases hfit : digitsValue (rest.takeWhile Char.isDigit) < 2^64
    · rw [if_pos hfit, if_pos hfit]
      rfl
    · rw [if_neg hfit, if_neg hfit]
      rfl

theorem takePrecision_eq (h : At spec chars rest) :
    ∃ chars', takePrecision spec chars = (precisionValue (readPrecision rest).1).map (·, chars') ∧
      At spec chars' (readPrecision rest).2 := by
  obtain ⟨chars₁, hnext, hat⟩ := h.nextIf (p := (· == '.'))
  rw [takePrecision, readPrecision, hnext]
  cases hhead : headIf (· == '.') rest with
  | mk point rest₁ =>
    rw [hhead] at hat
    cases point with
    | none => exact ⟨chars₁, rfl, hat⟩
    | some c =>
      obtain ⟨chars₂, hnumber, hat₂⟩ := takeNumber_eq hat
      refine ⟨chars₂, ?_, hat₂⟩
      simp only [hnumber, precisionValue]
      rcases runValue (rest₁.takeWhile Char.isDigit) with e | (_ | n) <;> rfl

theorem runValue_ok_iff {digits : List Char} {o : Option ℕ} :
    runValue digits = .ok o ↔
      digitsValue digits < 2^64 ∧ o = if digits = [] then none else some (digitsValue digits) := by
  rw [runValue]
  by_cases hempty : digits = []
  · subst hempty
    rw [if_pos rfl, if_pos rfl, Except.ok.injEq, eq_comm]
    exact (and_iff_right (by decide : digitsValue [] < 2^64)).symm
  · rw [if_neg hempty, if_neg hempty]
    by_cases hfit : digitsValue digits < 2^64
    · rw [if_pos hfit, Except.ok.injEq, eq_comm]
      exact (and_iff_right hfit).symm
    · rw [if_neg hfit]
      exact iff_of_false (by simp) fun h => hfit h.1

theorem precisionValue_ok_iff {p : Option (List Char)} {o : Option ℕ} :
    precisionValue p = .ok o ↔
      (∀ ds ∈ p, ds ≠ [] ∧ digitsValue ds < 2^64) ∧ o = p.map digitsValue := by
  cases p with
  | none => simp [precisionValue, eq_comm]
  | some digits =>
    rw [precisionValue]
    cases hrun : runValue digits with
    | error e =>
      refine iff_of_false (by rintro ⟨⟩) fun h => ?_
      rw [runValue_ok_iff.mpr ⟨(h.1 digits rfl).2, rfl⟩] at hrun
      cases hrun
    | ok v =>
      obtain ⟨hfit, rfl⟩ := runValue_ok_iff.mp hrun
      by_cases hempty : digits = []
      · rw [if_pos hempty]
        exact iff_of_false (by rintro ⟨⟩) fun h => (h.1 digits rfl).1 hempty
      · have hall : ∀ ds ∈ some digits, ds ≠ [] ∧ digitsValue ds < 2^64 :=
          fun ds hds => Option.some.inj hds ▸ ⟨hempty, hfit⟩
        rw [if_neg hempty, and_iff_right hall]
        exact ⟨fun h => (Except.ok.inj h).symm, fun h => congrArg Except.ok h.symm⟩

/-- The reader makes the checks on the parts. -/
theorem parseFormatSpec_eq (spec : List Char) (typeName : String) :
    parseFormatSpec spec typeName = check spec typeName (read spec).1 (read spec).2 := by
  obtain ⟨chars₀, hhead, hat₀⟩ := takeFillAlign_eq spec
  obtain ⟨chars₁, hsign, hat₁⟩ := hat₀.nextIf (p := isSign)
  obtain ⟨chars₂, halt, hat₂⟩ := hat₁.nextIf (p := (· == '#'))
  obtain ⟨chars₃, hzero, hat₃⟩ := hat₂.nextIf (p := (· == '0'))
  obtain ⟨chars₄, hwidth, hat₄⟩ := takeNumber_eq hat₃
  obtain ⟨chars₅, hgrouping, hat₅⟩ := hat₄.nextIf (p := isGrouping)
  obtain ⟨chars₆, hprecision, hat₆⟩ := takePrecision_eq hat₅
  obtain ⟨chars₇, htype, hat₇⟩ := hat₆.nextIf (p := fun _ => true)
  change takeNumber spec chars₃ = (runValue (read spec).1.width).map (·, chars₄) at hwidth
  change nextIf isGrouping chars₄ = ((read spec).1.grouping, chars₅) at hgrouping
  change takePrecision spec chars₅ =
    (precisionValue (read spec).1.precision).map (·, chars₆) at hprecision
  change nextIf (fun _ => true) chars₆ = ((read spec).1.typeChar, chars₇) at htype
  change At spec chars₇ (read spec).2 at hat₇
  have hempty : chars₇.isEmpty = (read spec).2.isEmpty := by
    rw [Bool.eq_iff_iff, List.isEmpty_iff, List.isEmpty_iff]
    exact hat₇.nil_iff
  simp only [parseFormatSpec, hhead, hsign, halt, hzero, hwidth, check]
  cases hw : runValue (read spec).1.width with
  | error e => rfl
  | ok w =>
    simp only [Except.map, ok_bind, hgrouping, hprecision]
    cases hp : precisionValue (read spec).1.precision with
    | error e => rfl
    | ok p =>
      simp only [ok_bind, htype, hempty]
      obtain ⟨-, rfl⟩ := precisionValue_ok_iff.mp hp
      have hwidth : w.getD 0 = digitsValue (read spec).1.width := by
        obtain ⟨-, rfl⟩ := runValue_ok_iff.mp hw
        split
        · rename_i hnil
          rw [hnil]
          rfl
        · rfl
      rw [hwidth]
      rfl

/-- A fill and an alignment in front of the rest. -/
structure HeadTaken (fill align : Option Char) (rest : List Char) : Prop where
  isFill : ∀ c ∈ fill, isBrace c = false ∧ align ≠ none
  aligns : ∀ c ∈ align, isAlign c = true
  noFill : fill = none → ∀ c0 c1 cs, align.toList ++ rest = c0::c1::cs →
    isAlign c1 = true → isBrace c0 = true
  noAlign : align = none → ∀ c ∈ rest.head?, isAlign c = false

theorem readHead_spec (s : List Char) :
    s = (readHead s).1.1.toList ++ ((readHead s).1.2.toList ++ (readHead s).2) ∧
      HeadTaken (readHead s).1.1 (readHead s).1.2 (readHead s).2 := by
  match s with
  | [] => exact ⟨rfl, ⟨by simp [readHead], by simp [readHead], by simp [readHead],
      by simp [readHead]⟩⟩
  | [c0] =>
    by_cases h0 : isAlign c0 = true
    · simp only [readHead, h0, if_true]
      exact ⟨rfl, ⟨by simp, by simpa using h0, by simp, by simp⟩⟩
    · simp only [readHead, h0]
      exact ⟨rfl, ⟨by simp, by simp, by simp, by simpa using h0⟩⟩
  | c0::c1::cs =>
    by_cases h1 : (isAlign c1 && !isBrace c0) = true
    · obtain ⟨h1, h0⟩ : isAlign c1 = true ∧ isBrace c0 = false := by simpa using h1
      simp only [readHead, h1, h0]
      exact ⟨rfl, ⟨by simp [h0], by simp [h1], by simp, by simp⟩⟩
    · have hfill : isAlign c1 = true → isBrace c0 = true := by simpa using h1
      by_cases h0 : isAlign c0 = true
      · simp only [readHead, h1, h0]
        refine ⟨rfl, ⟨by simp, by simp [h0], fun _ d0 d1 ds heq => ?_, by simp⟩⟩
        cases heq
        exact hfill
      · simp only [readHead, h1, h0]
        refine ⟨rfl, ⟨by simp, by simp, fun _ d0 d1 ds heq => ?_, by simpa using h0⟩⟩
        cases heq
        exact hfill

theorem readHead_taken {fill align : Option Char} (h : HeadTaken fill align rest) :
    readHead (fill.toList ++ (align.toList ++ rest)) = ((fill, align), rest) := by
  cases fill with
  | some c0 =>
    obtain ⟨hbrace, hsome⟩ := h.isFill c0 rfl
    obtain ⟨c1, rfl⟩ := Option.ne_none_iff_exists'.mp hsome
    have h1 := h.aligns c1 rfl
    simp [readHead, h1, hbrace]
  | none =>
    have hpair : ∀ c0 c1 cs, align.toList ++ rest = c0::c1::cs →
        ¬ (isAlign c1 && !isBrace c0) = true := by
      intro c0 c1 cs heq hboth
      obtain ⟨h1, h0⟩ : isAlign c1 = true ∧ isBrace c0 = false := by simpa using hboth
      rw [h.noFill rfl c0 c1 cs heq h1] at h0
      cases h0
    cases align with
    | some c0 =>
      have h0 := h.aligns c0 rfl
      cases rest with
      | nil => simp [readHead, h0]
      | cons c1 cs => simp [readHead, h0, hpair c0 c1 cs rfl]
    | none =>
      cases rest with
      | nil => rfl
      | cons c0 cs =>
        have h0 := h.noAlign rfl c0 rfl
        cases cs with
        | nil => simp [readHead, h0]
        | cons c1 cs => simp [readHead, h0, hpair c0 c1 cs rfl]

theorem run_append {ds : List Char} (h : ∀ c ∈ ds, c.isDigit = true)
    (hrest : ∀ c ∈ rest.head?, c.isDigit = false) :
    (ds ++ rest).takeWhile Char.isDigit = ds ∧ (ds ++ rest).dropWhile Char.isDigit = rest := by
  rw [List.takeWhile_append_of_pos h, List.dropWhile_append_of_pos h]
  cases rest with
  | nil => exact ⟨List.append_nil _, rfl⟩
  | cons c rest =>
    have hc : ¬ c.isDigit = true := Bool.eq_false_iff.mp (hrest c rfl)
    rw [List.takeWhile_cons_of_neg hc, List.dropWhile_cons_of_neg hc, List.append_nil]
    exact ⟨rfl, rfl⟩

theorem readPrecision_text {d : Derivation} (hwf : d.WellFormed) (hpref : d.Prefers) :
    readPrecision d.fromPrecision = (d.precision, d.fromType) := by
  have hprec := hpref.precision
  rw [Derivation.fromPrecision, readPrecision]
  cases hd : d.precision with
  | none =>
    rw [hd] at hprec
    have hhead : headIf (· == '.') d.fromType = (none, d.fromType) :=
      headIf_taken (o := none) ⟨fun c hc => (by cases hc),
        fun _ c hc => beq_eq_false_iff_ne.mpr (hprec c hc)⟩
    rw [precisionText, List.nil_append, hhead]
  | some ds =>
    rw [hd] at hprec
    obtain ⟨htake, hdrop⟩ := run_append (hwf.precision ds hd).2.1 hprec
    rw [precisionText, List.cons_append, headIf, if_pos (beq_self_eq_true _)]
    simp only [htake, hdrop]

/-- Parts that are well formed and preferred are read back. -/
theorem read_text {d : Derivation} (hwf : d.WellFormed) (hpref : d.Prefers) :
    read d.text = (d, []) := by
  have hhead : readHead d.text = ((d.fill, d.align), d.fromSign) := by
    refine readHead_taken ⟨hwf.fill, hwf.align, fun hnone c0 c1 cs heq => ?_, fun hnone c hc => ?_⟩
    · exact hpref.fill hnone c0 c1 cs (by rw [Derivation.text, hnone]; exact heq)
    · have hfill : d.fill = none := by
        by_contra hsome
        obtain ⟨f, hf⟩ := Option.ne_none_iff_exists'.mp hsome
        exact (hwf.fill f hf).2 hnone
      exact hpref.align hnone c (by rw [Derivation.text, hfill, hnone]; exact hc)
  have hsign : headIf isSign d.fromSign = (d.sign, d.fromAlt) :=
    headIf_taken ⟨hwf.sign, hpref.sign⟩
  have halt : headIf (· == '#') d.fromAlt = (d.alt, d.fromZero) :=
    headIf_taken ⟨fun c hc => beq_iff_eq.mpr (hwf.alt c hc),
      fun hnone c hc => beq_eq_false_iff_ne.mpr (hpref.alt hnone c hc)⟩
  have hzero : headIf (· == '0') d.fromZero = (d.zero, d.fromWidth) :=
    headIf_taken ⟨fun c hc => beq_iff_eq.mpr (hwf.zero c hc),
      fun hnone c hc => beq_eq_false_iff_ne.mpr (hpref.zero hnone c hc)⟩
  obtain ⟨htake, hdrop⟩ := run_append hwf.width.1 hpref.width
  have hgrouping : headIf isGrouping d.fromGrouping = (d.grouping, d.fromPrecision) :=
    headIf_taken ⟨fun c hc => (hwf.grouping c hc).1, hpref.grouping⟩
  have hprecision : readPrecision d.fromPrecision = (d.precision, d.fromType) :=
    readPrecision_text hwf hpref
  have htype : headIf (fun _ => true) d.fromType = (d.typeChar, []) := by
    rw [Derivation.fromType, ← List.append_nil d.typeChar.toList]
    exact headIf_taken ⟨fun _ _ => rfl, fun _ c hc => by cases hc⟩
  simp only [read, hhead, hsign, halt, hzero]
  rw [Derivation.fromWidth, htake, hdrop, hgrouping, hprecision, htype]

theorem digit_head_dropWhile {s : List Char} {c : Char}
    (h : c ∈ (s.dropWhile Char.isDigit).head?) : c.isDigit = false := by
  have hnot := List.head?_dropWhile_not Char.isDigit s
  rw [Option.mem_def.mp h] at hnot
  exact hnot

theorem readPrecision_spec {s : List Char} {p : Option (List Char)}
    (h : readPrecision s = (p, rest)) :
    s = precisionText p ++ rest ∧ (∀ ds ∈ p, ∀ c ∈ ds, c.isDigit = true) ∧
      PrecisionEnds p rest := by
  obtain ⟨hs, htaken⟩ := headIf_spec (· == '.') s
  rw [readPrecision] at h
  cases hhead : headIf (· == '.') s with
  | mk point s₁ =>
    rw [hhead] at hs htaken h
    cases point with
    | none =>
      obtain ⟨rfl, rfl⟩ : none = p ∧ s₁ = rest := by simpa using h
      exact ⟨hs, fun ds hds => (by cases hds),
        fun c hc => beq_eq_false_iff_ne.mp (htaken.absent rfl c hc)⟩
    | some c =>
      obtain ⟨rfl, rfl⟩ : some (s₁.takeWhile Char.isDigit) = p ∧
        s₁.dropWhile Char.isDigit = rest := by simpa using h
      obtain rfl : c = '.' := beq_iff_eq.mp (htaken.begins c rfl)
      refine ⟨?_, fun ds hds d hd => ?_, fun d hd => ?_⟩
      · rw [precisionText, List.cons_append, List.takeWhile_append_dropWhile]
        exact hs
      · obtain rfl := Option.some.inj hds
        exact List.mem_takeWhile_imp hd
      · exact digit_head_dropWhile hd

/-- The parts that are read, in their order, with what is left behind them. -/
theorem read_spec {s : List Char} {d : Derivation} (h : read s = (d, [])) :
    d.text = s ∧ d.Prefers ∧ HeadTaken d.fill d.align d.fromSign ∧
      (∀ c ∈ d.sign, isSign c = true) ∧ (∀ c ∈ d.alt, c = '#') ∧ (∀ c ∈ d.zero, c = '0') ∧
      (∀ c ∈ d.width, c.isDigit = true) ∧ (∀ c ∈ d.grouping, isGrouping c = true) ∧
      ∀ ds ∈ d.precision, ∀ c ∈ ds, c.isDigit = true := by
  obtain ⟨s₀, s₁, s₂, s₃, s₄, s₅, h₀, h₁, h₂, h₃, hw, h₄, h₅, h₆⟩ : ∃ s₀ s₁ s₂ s₃ s₄ s₅,
      readHead s = ((d.fill, d.align), s₀) ∧ headIf isSign s₀ = (d.sign, s₁) ∧
      headIf (· == '#') s₁ = (d.alt, s₂) ∧ headIf (· == '0') s₂ = (d.zero, s₃) ∧
      d.width = s₃.takeWhile Char.isDigit ∧
      headIf isGrouping (s₃.dropWhile Char.isDigit) = (d.grouping, s₄) ∧
      readPrecision s₄ = (d.precision, s₅) ∧ headIf (fun _ => true) s₅ = (d.typeChar, []) := by
    obtain ⟨rfl, hrest⟩ := Prod.ext_iff.mp h
    exact ⟨_, _, _, _, _, _, rfl, rfl, rfl, rfl, rfl, rfl, rfl, Prod.ext rfl hrest⟩
  obtain ⟨hs₀, ht₀⟩ := readHead_spec s
  obtain ⟨hs₁, ht₁⟩ := headIf_spec isSign s₀
  obtain ⟨hs₂, ht₂⟩ := headIf_spec (· == '#') s₁
  obtain ⟨hs₃, ht₃⟩ := headIf_spec (· == '0') s₂
  obtain ⟨hs₄, ht₄⟩ := headIf_spec isGrouping (s₃.dropWhile Char.isDigit)
  obtain ⟨hs₅, hdigits, ht₅⟩ := readPrecision_spec h₅
  obtain ⟨hs₆, -⟩ := headIf_spec (fun _ => true) s₅
  rw [h₀] at hs₀ ht₀
  rw [h₁] at hs₁ ht₁
  rw [h₂] at hs₂ ht₂
  rw [h₃] at hs₃ ht₃
  rw [h₄] at hs₄ ht₄
  rw [h₆, List.append_nil] at hs₆
  have htype : d.fromType = s₅ := hs₆.symm
  have hprecision : d.fromPrecision = s₄ := by
    rw [Derivation.fromPrecision, htype]
    exact hs₅.symm
  have hgrouping : d.fromGrouping = s₃.dropWhile Char.isDigit := by
    rw [Derivation.fromGrouping, hprecision]
    exact hs₄.symm
  have hwidth : d.fromWidth = s₃ := by
    rw [Derivation.fromWidth, hgrouping, hw, List.takeWhile_append_dropWhile]
  have hzero : d.fromZero = s₂ := by
    rw [Derivation.fromZero, hwidth]
    exact hs₃.symm
  have halt : d.fromAlt = s₁ := by
    rw [Derivation.fromAlt, hzero]
    exact hs₂.symm
  have hsign : d.fromSign = s₀ := by
    rw [Derivation.fromSign, halt]
    exact hs₁.symm
  have htext : d.text = s := by
    rw [Derivation.text, hsign]
    exact hs₀.symm
  rw [← hsign] at ht₀
  rw [← halt] at ht₁
  rw [← hzero] at ht₂
  rw [← hwidth] at ht₃
  rw [← hprecision] at ht₄
  rw [← htype] at ht₅
  refine ⟨htext, ⟨fun hnone c0 c1 cs heq => ht₀.noFill hnone c0 c1 cs ?_, fun hnone c hc => ?_,
    ht₁.absent, fun hnone c hc => beq_eq_false_iff_ne.mp (ht₂.absent hnone c hc),
    fun hnone c hc => beq_eq_false_iff_ne.mp (ht₃.absent hnone c hc), fun c hc => ?_,
    ht₄.absent, ht₅⟩, ht₀, ht₁.begins, fun c hc => beq_iff_eq.mp (ht₂.begins c hc),
    fun c hc => beq_iff_eq.mp (ht₃.begins c hc), fun c hc => ?_, ht₄.begins, hdigits⟩
  · rw [← heq, Derivation.text, hnone]
    rfl
  · have hfill : d.fill = none := by
      by_contra hsome
      obtain ⟨f, hf⟩ := Option.ne_none_iff_exists'.mp hsome
      exact (ht₀.isFill f hf).2 hnone
    refine ht₀.noAlign hnone c ?_
    rw [Derivation.text, hfill, hnone] at hc
    exact hc
  · rw [hgrouping] at hc
    exact digit_head_dropWhile hc
  · rw [hw] at hc
    exact List.mem_takeWhile_imp hc

theorem checkGrouping_ok_iff {g t : Option Char} :
    checkGrouping g t = .ok () ↔ ∀ c ∈ g, ∀ u ∈ t, groupingOk c u = true := by
  cases g with
  | none => exact iff_of_true (by cases t <;> rfl) fun c hc => by cases hc
  | some g =>
    cases t with
    | none => exact iff_of_true rfl fun c _ u hu => by cases hu
    | some t =>
      simp only [checkGrouping, Option.mem_def, Option.some.injEq, forall_eq']
      by_cases hsep : (t == ',' || t == '_') = true
      · -- no separator is a type
        have hnot : groupingOk g t = false := by
          rcases Bool.or_eq_true_iff.mp hsep with h | h <;>
            (rw [beq_iff_eq] at h; subst h; simp [groupingOk])
        rw [if_pos hsep, hnot]
        split <;> simp
      · rw [if_neg hsep]
        cases groupingOk g t <;> simp

theorem check_ok_iff {spec rest : List Char} {typeName : String} {d : Derivation}
    {fs : FormatSpec} :
    check spec typeName d rest = .ok fs ↔ digitsValue d.width < 2^64 ∧
      (∀ ds ∈ d.precision, ds ≠ [] ∧ digitsValue ds < 2^64) ∧ rest = [] ∧
      (∀ g ∈ d.grouping, ∀ t ∈ d.typeChar, groupingOk g t = true) ∧ d.fields = fs := by
  rw [check]
  cases hw : runValue d.width with
  | error e =>
    refine iff_of_false (by rintro ⟨⟩) fun h => ?_
    rw [runValue_ok_iff.mpr ⟨h.1, rfl⟩] at hw
    cases hw
  | ok w =>
    rw [ok_bind, and_iff_right (runValue_ok_iff.mp hw).1]
    cases hp : precisionValue d.precision with
    | error e =>
      refine iff_of_false (by rintro ⟨⟩) fun h => ?_
      rw [precisionValue_ok_iff.mpr ⟨h.1, rfl⟩] at hp
      cases hp
    | ok p =>
      rw [ok_bind, and_iff_right (precisionValue_ok_iff.mp hp).1]
      cases rest with
      | cons c rest => exact iff_of_false (by rintro ⟨⟩) fun h => by cases h.1
      | nil =>
        rw [and_iff_right rfl, ← checkGrouping_ok_iff]
        cases hg : checkGrouping d.grouping d.typeChar with
        | error e => exact iff_of_false (by rintro ⟨⟩) fun h => by cases h.1
        | ok u => simp

/-- What is accepted are the texts of well formed and preferred parts. -/
theorem parseFormatSpec_ok_iff {spec : List Char} {typeName : String} {fs : FormatSpec} :
    parseFormatSpec spec typeName = .ok fs ↔
      ∃ d : Derivation, d.WellFormed ∧ d.Prefers ∧ d.text = spec ∧ d.fields = fs := by
  rw [parseFormatSpec_eq, check_ok_iff]
  constructor
  · rintro ⟨hwidth, hprecision, hrest, hgrouping, hfields⟩
    obtain ⟨htext, hpref, hhead, hsign, halt, hzero, hdigits, hsep, hpdigits⟩ :=
      read_spec (s := spec) (Prod.ext rfl hrest)
    exact ⟨(read spec).1, ⟨hhead.isFill, hhead.aligns, hsign, halt, hzero, ⟨hdigits, hwidth⟩,
      fun g hg => ⟨hsep g hg, hgrouping g hg⟩,
      fun ds hds => ⟨(hprecision ds hds).1, hpdigits ds hds, (hprecision ds hds).2⟩⟩,
      hpref, htext, hfields⟩
  · rintro ⟨d, hwf, hpref, rfl, hfields⟩
    rw [read_text hwf hpref]
    exact ⟨hwf.width.2, fun ds hds => ⟨(hwf.precision ds hds).1, (hwf.precision ds hds).2.2⟩, rfl,
      fun g hg => (hwf.grouping g hg).2, hfields⟩

/-- Parts that are well formed and preferred are determined by their text. -/
theorem prefers_unique {d d' : Derivation} (hwf : d.WellFormed) (hpref : d.Prefers)
    (hwf' : d'.WellFormed) (hpref' : d'.Prefers) (h : d.text = d'.text) : d = d' := by
  have heq := read_text hwf hpref
  rw [h, read_text hwf' hpref'] at heq
  exact (Prod.ext_iff.mp heq).1.symm

theorem runValue_error {digits : List Char} {e : SpecError} (h : runValue digits = .error e) :
    e = tooManyDigits := by
  rw [runValue] at h
  split_ifs at h
  exact (Except.error.inj h).symm

theorem precisionValue_error {p : Option (List Char)} {e : SpecError}
    (h : precisionValue p = .error e) : ∃ message, e = .valueErr message := by
  cases p with
  | none => cases h
  | some digits =>
    rw [precisionValue] at h
    cases hrun : runValue digits with
    | error e' =>
      rw [hrun] at h
      obtain rfl : e' = e := Except.error.inj h
      exact ⟨_, runValue_error hrun⟩
    | ok v =>
      rw [hrun, ok_bind] at h
      cases v with
      | none => exact ⟨_, (Except.error.inj h).symm⟩
      | some n => cases h

theorem checkGrouping_error {g t : Option Char} {e : SpecError}
    (h : checkGrouping g t = .error e) : ∃ message, e = .valueErr message := by
  cases g with
  | none => cases t <;> cases h
  | some g =>
    cases t with
    | none => cases h
    | some t =>
      rw [checkGrouping] at h
      split_ifs at h
      all_goals exact ⟨_, (Except.error.inj h).symm⟩

/-- Every refusal is a `ValueError`: no slice is taken inside a character. -/
theorem parseFormatSpec_error {spec : List Char} {typeName : String} {e : SpecError}
    (h : parseFormatSpec spec typeName = .error e) : ∃ message, e = .valueErr message := by
  rw [parseFormatSpec_eq, check] at h
  cases hw : runValue (read spec).1.width with
  | error e' =>
    rw [hw] at h
    obtain rfl : e' = e := Except.error.inj h
    exact ⟨_, runValue_error hw⟩
  | ok w =>
    rw [hw, ok_bind] at h
    cases hp : precisionValue (read spec).1.precision with
    | error e' =>
      rw [hp] at h
      obtain rfl : e' = e := Except.error.inj h
      exact precisionValue_error hp
    | ok p =>
      rw [hp, ok_bind] at h
      split at h
      · exact ⟨_, (Except.error.inj h).symm⟩
      · cases hg : checkGrouping (read spec).1.grouping (read spec).1.typeChar with
        | error e' =>
          rw [hg] at h
          obtain rfl : e' = e := Except.error.inj h
          exact checkGrouping_error hg
        | ok u =>
          rw [hg] at h
          cases h

end read

/-! ## All derivations -/

section derivations
variable {d : Derivation} {c t : Char}

theorem digit_classes (h : c.isDigit = true) : isAlign c = false ∧ isBrace c = false ∧
    isSign c = false ∧ c ≠ '#' := by
  obtain ⟨n, hn, rfl⟩ := digit_char h
  interval_cases n <;> decide

theorem grouping_classes (h : isGrouping c = true) : isAlign c = false ∧ isBrace c = false ∧
    isSign c = false ∧ c ≠ '#' ∧ c ≠ '0' ∧ c.isDigit = false := by
  simp only [isGrouping, Bool.or_eq_true, beq_iff_eq] at h
  rcases h with rfl | rfl <;> decide

theorem sign_classes (h : isSign c = true) : isAlign c = false ∧ isBrace c = false := by
  simp only [isSign, Bool.or_eq_true, beq_iff_eq] at h
  rcases h with (rfl | rfl) | rfl <;> decide

namespace Derivation

/-- The parts without the type. -/
def body (d : Derivation) : Derivation := { d with typeChar := none }

theorem fromPrecision_body (d : Derivation) :
    d.fromPrecision = d.body.fromPrecision ++ d.typeChar.toList := by
  simp [fromPrecision, fromType, body]

theorem fromGrouping_body (d : Derivation) :
    d.fromGrouping = d.body.fromGrouping ++ d.typeChar.toList := by
  rw [fromGrouping, fromPrecision_body, ← List.append_assoc]
  rfl

theorem fromWidth_body (d : Derivation) : d.fromWidth = d.body.fromWidth ++ d.typeChar.toList := by
  rw [fromWidth, fromGrouping_body, ← List.append_assoc]
  rfl

theorem fromZero_body (d : Derivation) : d.fromZero = d.body.fromZero ++ d.typeChar.toList := by
  rw [fromZero, fromWidth_body, ← List.append_assoc]
  rfl

theorem fromAlt_body (d : Derivation) : d.fromAlt = d.body.fromAlt ++ d.typeChar.toList := by
  rw [fromAlt, fromZero_body, ← List.append_assoc]
  rfl

theorem fromSign_body (d : Derivation) : d.fromSign = d.body.fromSign ++ d.typeChar.toList := by
  rw [fromSign, fromAlt_body, ← List.append_assoc]
  rfl

theorem mem_body_fromPrecision (hwf : d.WellFormed) (h : c ∈ d.body.fromPrecision) :
    c = '.' ∨ c.isDigit = true := by
  rw [fromPrecision, fromType, body, Option.toList_none, List.append_nil] at h
  cases hp : d.precision with
  | none => simp [hp, precisionText] at h
  | some ds =>
    simp only [hp, precisionText] at h
    rcases List.mem_cons.mp h with rfl | h
    · exact .inl rfl
    · exact .inr ((hwf.precision ds hp).2.1 c h)

theorem mem_body_fromGrouping (hwf : d.WellFormed) (h : c ∈ d.body.fromGrouping) :
    isGrouping c = true ∨ c = '.' ∨ c.isDigit = true := by
  rcases List.mem_append.mp h with h | h
  · exact .inl (hwf.grouping c (Option.mem_toList.mp h)).1
  · exact .inr (mem_body_fromPrecision hwf h)

theorem mem_body_fromZero (hwf : d.WellFormed) (h : c ∈ d.body.fromZero) :
    isGrouping c = true ∨ c = '.' ∨ c.isDigit = true := by
  rcases List.mem_append.mp h with h | h
  · exact .inr (.inr (hwf.zero c (Option.mem_toList.mp h) ▸ rfl))
  · rcases List.mem_append.mp h with h | h
    · exact .inr (.inr (hwf.width.1 c h))
    · exact mem_body_fromGrouping hwf h

theorem mem_body_fromZero_classes (hwf : d.WellFormed) (h : c ∈ d.body.fromZero) :
    isAlign c = false ∧ isBrace c = false ∧ isSign c = false ∧ c ≠ '#' := by
  rcases mem_body_fromZero hwf h with h | rfl | h
  · have hc := grouping_classes h
    exact ⟨hc.1, hc.2.1, hc.2.2.1, hc.2.2.2.1⟩
  · decide
  · exact digit_classes h

theorem mem_body_fromAlt_classes (hwf : d.WellFormed) (h : c ∈ d.body.fromAlt) :
    isAlign c = false ∧ isBrace c = false ∧ isSign c = false := by
  rcases List.mem_append.mp h with h | h
  · rw [hwf.alt c (Option.mem_toList.mp h)]
    decide
  · have hc := mem_body_fromZero_classes hwf h
    exact ⟨hc.1, hc.2.1, hc.2.2.1⟩

theorem mem_body_fromSign_classes (hwf : d.WellFormed) (h : c ∈ d.body.fromSign) :
    isAlign c = false ∧ isBrace c = false := by
  rcases List.mem_append.mp h with h | h
  · exact sign_classes (hwf.sign c (Option.mem_toList.mp h))
  · have hc := mem_body_fromAlt_classes hwf h
    exact ⟨hc.1, hc.2.1⟩

/-- A width does not begin with the zero that is a part of its own. -/
def ZeroFirst (d : Derivation) : Prop := d.zero = none → ∀ c ∈ d.width.head?, c ≠ '0'

/-- The type stands where no other part could begin with it. -/
structure Settled (d : Derivation) (t : Char) : Prop where
  grouping : d.grouping = none → d.body.fromPrecision = [] → isGrouping t = false
  alt : d.alt = none → d.body.fromZero = [] → t ≠ '#'
  sign : d.sign = none → d.body.fromAlt = [] → isSign t = false
  align : d.align = none → d.body.fromSign = [] → isAlign t = false
  fill : d.fill = none → ∀ c0, d.align.toList ++ d.body.fromSign = [c0] →
    isAlign t = true → isBrace c0 = true

theorem mem_head_append {xs : List Char} {o : Option Char}
    (h : c ∈ (xs ++ o.toList).head?) : c ∈ xs ∨ xs = [] ∧ o = some c := by
  cases xs with
  | nil => exact .inr ⟨rfl, by simpa using h⟩
  | cons x xs => exact .inl (List.mem_of_mem_head? h)

theorem head_fromPrecision (h : c ∈ d.fromPrecision.head?) :
    c = '.' ∨ d.precision = none ∧ d.typeChar = some c := by
  rw [fromPrecision] at h
  cases hp : d.precision with
  | some ds =>
    simp only [hp, precisionText, List.cons_append, List.head?_cons, Option.mem_def,
      Option.some.injEq] at h
    exact .inl h.symm
  | none =>
    simp only [hp, precisionText, List.nil_append, fromType, Option.head?_toList] at h
    exact .inr ⟨rfl, h⟩

theorem head_fromGrouping (hwf : d.WellFormed) (hplain : d.PlainType)
    (h : c ∈ d.fromGrouping.head?) : c.isDigit = false := by
  rw [fromGrouping] at h
  cases hg : d.grouping with
  | some g =>
    simp only [hg, Option.toList_some, List.singleton_append, List.head?_cons, Option.mem_def,
      Option.some.injEq] at h
    exact h ▸ (grouping_classes (hwf.grouping g hg).1).2.2.2.2.2
  | none =>
    rw [hg, Option.toList_none, List.nil_append] at h
    rcases head_fromPrecision h with rfl | ⟨-, ht⟩
    · decide
    · exact (hplain c ht).1

theorem text_noFill (h : d.fill = none) :
    d.text = d.align.toList ++ d.body.fromSign ++ d.typeChar.toList := by
  rw [text, h, fromSign_body, Option.toList_none, List.nil_append, List.append_assoc]

/-- A second character that is an alignment is the type. -/
theorem second_align (hwf : d.WellFormed) (hfill : d.fill = none) {c0 c1 : Char} {cs : List Char}
    (h : d.text = c0::c1::cs) (h1 : isAlign c1 = true) :
    d.align.toList ++ d.body.fromSign = [c0] ∧ d.typeChar = some c1 ∧ cs = [] := by
  rw [text_noFill hfill] at h
  cases hxs : d.align.toList ++ d.body.fromSign with
  | nil =>
    rw [hxs, List.nil_append] at h
    cases ht : d.typeChar <;> simp [ht] at h
  | cons x xs =>
    rw [hxs, List.cons_append] at h
    obtain ⟨rfl, htail⟩ := List.cons.inj h
    cases xs with
    | nil =>
      cases ht : d.typeChar with
      | none => simp [ht] at htail
      | some t =>
        obtain ⟨rfl, rfl⟩ : t = c1 ∧ [] = cs := by simpa [ht] using htail
        exact ⟨rfl, rfl, rfl⟩
    | cons y ys =>
      obtain ⟨rfl, -⟩ := List.cons.inj htail
      have hmem : y ∈ d.body.fromSign := by
        cases ha : d.align with
        | none =>
          rw [ha, Option.toList_none, List.nil_append] at hxs
          rw [hxs]
          exact List.mem_cons_of_mem _ List.mem_cons_self
        | some a =>
          rw [ha, Option.toList_some, List.singleton_append] at hxs
          rw [(List.cons.inj hxs).2]
          exact List.mem_cons_self
      rw [(mem_body_fromSign_classes hwf hmem).1] at h1
      cases h1

/-- When no part could begin with the type, the parts are preferred. -/
theorem prefers_of_settled (hwf : d.WellFormed) (hplain : d.PlainType) (hzero : d.ZeroFirst)
    (h : ∀ t ∈ d.typeChar, d.Settled t) : d.Prefers where
  fill hnone c0 c1 cs heq h1 := by
    obtain ⟨hone, ht, -⟩ := second_align hwf hnone heq h1
    exact (h c1 ht).fill hnone c0 hone h1
  align hnone c hc := by
    have hfill : d.fill = none := by
      by_contra hsome
      obtain ⟨f, hf⟩ := Option.ne_none_iff_exists'.mp hsome
      exact (hwf.fill f hf).2 hnone
    rw [text_noFill hfill, hnone, Option.toList_none, List.nil_append] at hc
    rcases mem_head_append hc with hc | ⟨hnil, ht⟩
    · exact (mem_body_fromSign_classes hwf hc).1
    · exact (h c ht).align hnone hnil
  sign hnone c hc := by
    rw [fromAlt_body] at hc
    rcases mem_head_append hc with hc | ⟨hnil, ht⟩
    · exact (mem_body_fromAlt_classes hwf hc).2.2
    · exact (h c ht).sign hnone hnil
  alt hnone c hc := by
    rw [fromZero_body] at hc
    rcases mem_head_append hc with hc | ⟨hnil, ht⟩
    · exact (mem_body_fromZero_classes hwf hc).2.2.2
    · exact (h c ht).alt hnone hnil
  zero hnone c hc := by
    rw [fromWidth] at hc
    cases hw : d.width with
    | nil =>
      rw [hw, List.nil_append] at hc
      rintro rfl
      exact absurd (head_fromGrouping hwf hplain hc) (by decide)
    | cons w ws =>
      rw [hw] at hc
      exact hzero hnone c (by rw [hw]; exact hc)
  width c hc := head_fromGrouping hwf hplain hc
  grouping hnone c hc := by
    rcases head_fromPrecision hc with rfl | ⟨hp, ht⟩
    · decide
    · refine (h c ht).grouping hnone ?_
      rw [fromPrecision, fromType, body, hp]
      rfl
  precision := by
    cases hp : d.precision with
    | none => exact fun c hc => fun hdot => (hplain c (by simpa [fromType] using hc)).2 hdot hp
    | some ds => exact fun c hc => (hplain c (by simpa [fromType] using hc)).1

theorem prefers_of_untyped (hwf : d.WellFormed) (hzero : d.ZeroFirst) (ht : d.typeChar = none) :
    d.Prefers :=
  prefers_of_settled hwf (fun t h => by rw [ht] at h; cases h) hzero
    fun t h => by rw [ht] at h; cases h

theorem exists_zeroFirst (hwf : d.WellFormed) (hplain : d.PlainType) :
    ∃ d' : Derivation, d'.WellFormed ∧ d'.PlainType ∧ d'.ZeroFirst ∧ d'.text = d.text := by
  by_cases hfirst : d.ZeroFirst
  · exact ⟨d, hwf, hplain, hfirst, rfl⟩
  · obtain ⟨hzero, hhead⟩ : d.zero = none ∧ '0' ∈ d.width.head? := by
      simpa [ZeroFirst] using hfirst
    obtain ⟨w, hw⟩ : ∃ w, d.width = '0'::w := by
      cases hd : d.width with
      | nil => rw [hd] at hhead; cases hhead
      | cons c w =>
        rw [hd] at hhead
        exact ⟨w, congrArg (· :: w) (Option.some.inj hhead)⟩
    obtain ⟨hdigits, hfit⟩ := hw ▸ hwf.width
    refine ⟨{ d with zero := some '0', width := w }, { hwf with
      zero := fun c hc => (Option.some.inj hc).symm
      width := ⟨fun c hc => hdigits c (List.mem_cons_of_mem _ hc), ?_⟩ }, hplain,
      fun hnone => (by cases hnone), ?_⟩
    · simpa [digitsValue, Nat.ofDigitChars_cons] using hfit
    · simp [text, fromSign, fromAlt, fromZero, fromWidth, hzero, hw]
      rfl

/-- Well formed parts with a plain type have the text of preferred ones. -/
theorem exists_prefers (hwf : d.WellFormed) (hplain : d.PlainType) :
    ∃ d' : Derivation, d'.WellFormed ∧ d'.Prefers ∧ d'.text = d.text := by
  obtain ⟨d, hwf, hplain, hzero, htext⟩ := exists_zeroFirst hwf hplain
  rw [← htext]
  by_contra hno
  have hsettled : ∀ t ∈ d.typeChar, d.Settled t := by
    intro t ht
    -- a part that could begin with the type takes it over
    refine ⟨fun hnone hnil => ?_, fun hnone hnil => ?_, fun hnone hnil => ?_,
      fun hnone hnil => ?_, fun hnone c0 hone halign => ?_⟩
    · by_contra hsep
      have hwf' : { d.body with grouping := some t }.WellFormed := { hwf with
        grouping := fun g hg => ⟨?_, fun u hu => by cases hu⟩ }
      · refine hno ⟨_, hwf', prefers_of_untyped hwf' hzero rfl, ?_⟩
        rw [text, text, fromSign_body d, ht]
        show _ ++ (_ ++ (_ ++ (_ ++ (_ ++ (_ ++ ([t] ++ d.body.fromPrecision)))))) =
          _ ++ (_ ++ ((_ ++ (_ ++ (_ ++ (_ ++ (d.grouping.toList ++
            d.body.fromPrecision))))) ++ [t]))
        simp only [hnone, hnil, Option.toList_none, List.append_nil, List.append_assoc]
        rfl
      · obtain rfl := Option.some.inj hg
        simpa using hsep
    · rintro rfl
      have hwf' : { d.body with alt := some '#' }.WellFormed := { hwf with
        alt := fun c hc => (Option.some.inj hc).symm
        grouping := fun g hg => ⟨(hwf.grouping g hg).1, fun u hu => by cases hu⟩ }
      refine hno ⟨_, hwf', prefers_of_untyped hwf' hzero rfl, ?_⟩
      rw [text, text, fromSign_body d, ht]
      show _ ++ (_ ++ (_ ++ (['#'] ++ d.body.fromZero))) =
        _ ++ (_ ++ ((_ ++ (d.alt.toList ++ d.body.fromZero)) ++ ['#']))
      simp only [hnone, hnil, Option.toList_none, List.append_nil]
      rfl
    · by_contra hsign
      have hwf' : { d.body with sign := some t }.WellFormed := { hwf with
        sign := fun c hc => ?_
        grouping := fun g hg => ⟨(hwf.grouping g hg).1, fun u hu => by cases hu⟩ }
      · refine hno ⟨_, hwf', prefers_of_untyped hwf' hzero rfl, ?_⟩
        rw [text, text, fromSign_body d, ht]
        show _ ++ (_ ++ ([t] ++ d.body.fromAlt)) =
          _ ++ (_ ++ ((d.sign.toList ++ d.body.fromAlt) ++ [t]))
        simp only [hnone, hnil, Option.toList_none, List.nil_append, List.append_nil]
        rfl
      · obtain rfl := Option.some.inj hc
        simpa using hsign
    · by_contra halign
      have hwf' : { d.body with align := some t }.WellFormed := { hwf with
        fill := fun c hc => ⟨(hwf.fill c hc).1, by simp⟩
        align := fun c hc => ?_
        grouping := fun g hg => ⟨(hwf.grouping g hg).1, fun u hu => by cases hu⟩ }
      · refine hno ⟨_, hwf', prefers_of_untyped hwf' hzero rfl, ?_⟩
        rw [text, text, fromSign_body d, ht]
        show _ ++ ([t] ++ d.body.fromSign) = _ ++ (d.align.toList ++ (d.body.fromSign ++ [t]))
        simp only [hnone, hnil, Option.toList_none, List.nil_append, List.append_nil]
        rfl
      · obtain rfl := Option.some.inj hc
        simpa using halign
    · by_contra hbrace
      let d' : Derivation := ⟨some c0, some t, none, none, none, [], none, none, none⟩
      have hwf' : d'.WellFormed := {
        fill := fun c hc => ⟨?_, by simp [d']⟩
        align := fun c hc => Option.some.inj hc ▸ halign
        sign := fun c hc => by cases hc
        alt := fun c hc => by cases hc
        zero := fun c hc => by cases hc
        width := ⟨fun c hc => (by cases hc), (by decide : digitsValue [] < 2^64)⟩
        grouping := fun c hc => by cases hc
        precision := fun c hc => by cases hc }
      · refine hno ⟨d', hwf', prefers_of_untyped hwf' (fun _ c hc => by cases hc) rfl, ?_⟩
        rw [text_noFill hnone, hone, ht]
        rfl
      · obtain rfl := Option.some.inj hc
        simpa using hbrace
  exact hno ⟨d, hwf, prefers_of_settled hwf hplain hzero hsettled, rfl⟩

/-- The type behind preferred parts is plain. -/
theorem plainType_of_prefers (hwf : d.WellFormed) (hpref : d.Prefers) : d.PlainType := by
  intro t ht
  have htype : t ∈ d.fromType.head? := by rw [fromType, Option.mem_def.mp ht]; rfl
  have hprec := hpref.precision
  cases hp : d.precision with
  | some ds =>
    rw [hp] at hprec
    exact ⟨hprec t htype, fun _ => by simp⟩
  | none =>
    rw [hp] at hprec
    refine ⟨?_, fun hdot => absurd hdot (hprec t htype)⟩
    cases hg : d.grouping with
    | none =>
      refine hpref.width t ?_
      rw [fromGrouping, fromPrecision, hg, hp]
      exact htype
    | some g =>
      -- no digit goes with a separator
      have hok := (hwf.grouping g hg).2 t ht
      by_contra hdigit
      obtain ⟨n, hn, rfl⟩ := digit_char (Bool.not_eq_false _ ▸ hdigit)
      interval_cases n <;> simp [groupingOk] at hok

/-- Writing the fields gives the parts without leading zeros. -/
theorem written_fields (hwf : d.WellFormed) : d.fields.written = d.stripped.text := by
  have hwidth := dropZeros_eq hwf.width.1
  have hflag : ∀ (o : Option Char) (c : Char), (∀ x ∈ o, x = c) →
      (if o.isSome then [c] else []) = o.toList := by
    intro o c h
    cases o with
    | none => rfl
    | some x => rw [h x rfl]; rfl
  have hfill : (if d.fill.isSome then [d.fill.getD ' '] else []) = d.fill.toList := by
    cases d.fill <;> rfl
  have hprecision : (d.precision.map digitsValue).map (Nat.toDigits 10) = d.stripped.precision := by
    cases hp : d.precision with
    | none => rw [stripped, hp]; rfl
    | some ds =>
      rw [stripped, hp, Option.map_some, Option.map_some, Option.map_some]
      rw [dropZeros_eq (hwf.precision ds hp).2.1]
      by_cases hzero : digitsValue ds = 0
      · rw [hzero]
        rfl
      · simp [hzero]
  rw [FormatSpec.written, fields]
  simp only [hfill, hflag d.alt '#' hwf.alt, hflag d.zero '0' hwf.zero, ← hwidth, hprecision]
  simp only [text, fromSign, fromAlt, fromZero, fromWidth, fromGrouping, fromPrecision, fromType,
    stripped, List.append_assoc]

end Derivation

end derivations

/-! ## What is accepted -/

/-- The reader accepts the texts of the grammar whose type is no digit and no bare point. It
returns the fields of the only parts that are preferred, from which the text is written back
without leading zeros, and what it refuses it refuses with a `ValueError`. -/
theorem parseFormatSpec_grammar (spec : List Char) (typeName : String) :
    ((∃ fs, parseFormatSpec spec typeName = .ok fs) ↔
      ∃ d : Derivation, d.WellFormed ∧ d.PlainType ∧ d.text = spec) ∧
    (∀ fs, parseFormatSpec spec typeName = .ok fs →
      (∃! d : Derivation, d.WellFormed ∧ d.PlainType ∧ d.Prefers ∧ d.text = spec) ∧
      ∀ d : Derivation, d.WellFormed → d.PlainType → d.Prefers → d.text = spec →
        d.fields = fs ∧ fs.written = d.stripped.text) ∧
    ∀ e, parseFormatSpec spec typeName = .error e → ∃ message, e = .valueErr message := by
  refine ⟨⟨?_, ?_⟩, fun fs h => ?_, fun e => parseFormatSpec_error⟩
  · rintro ⟨fs, h⟩
    obtain ⟨d, hwf, hpref, htext, -⟩ := parseFormatSpec_ok_iff.mp h
    exact ⟨d, hwf, Derivation.plainType_of_prefers hwf hpref, htext⟩
  · rintro ⟨d, hwf, hplain, rfl⟩
    obtain ⟨d', hwf', hpref', htext⟩ := Derivation.exists_prefers hwf hplain
    exact ⟨d'.fields, parseFormatSpec_ok_iff.mpr ⟨d', hwf', hpref', htext, rfl⟩⟩
  · obtain ⟨d, hwf, hpref, htext, hfields⟩ := parseFormatSpec_ok_iff.mp h
    refine ⟨⟨d, ⟨hwf, Derivation.plainType_of_prefers hwf hpref, hpref, htext⟩, ?_⟩, ?_⟩
    · rintro d' ⟨hwf', -, hpref', htext'⟩
      exact prefers_unique hwf' hpref' hwf hpref (htext'.trans htext.symm)
    · intro d' hwf' _ hpref' htext'
      obtain rfl := prefers_unique hwf' hpref' hwf hpref (htext'.trans htext.symm)
      exact ⟨hfields, hfields ▸ Derivation.written_fields hwf'⟩

/-- A point alone is a type of the grammar but is refused, and a sign alone has two readings. -/
theorem parseFormatSpec_not_grammar :
    ¬ (∀ spec typeName, (∃ fs, parseFormatSpec spec typeName = .ok fs) ↔
        ∃ d : Derivation, d.WellFormed ∧ d.text = spec) ∧
      ¬ ∀ spec typeName, (∃ fs, parseFormatSpec spec typeName = .ok fs) →
        ∃! d : Derivation, d.WellFormed ∧ d.text = spec ∧ (d.fill = none → ∀ c0 c1 cs,
          d.text = c0::c1::cs → isAlign c1 = true → isBrace c0 = true) := by
  have hwf : ∀ (sign type : Option Char), (∀ c ∈ sign, isSign c = true) →
      (⟨none, none, sign, none, none, [], none, none, type⟩ : Derivation).WellFormed :=
    fun sign type h => {
      fill := fun c hc => by cases hc
      align := fun c hc => by cases hc
      sign := h
      alt := fun c hc => by cases hc
      zero := fun c hc => by cases hc
      width := ⟨fun c hc => (by cases hc), (by decide : digitsValue [] < 2^64)⟩
      grouping := fun c hc => by cases hc
      precision := fun c hc => by cases hc }
  constructor
  · intro h
    obtain ⟨fs, hfs⟩ := (h ['.'] "int").mpr
      ⟨⟨none, none, none, none, none, [], none, none, some '.'⟩,
        hwf none _ (fun c hc => by cases hc), rfl⟩
    cases hfs
  · intro h
    obtain ⟨d, -, hunique⟩ := h ['+'] "int" ⟨_, rfl⟩
    have hsign := hunique ⟨none, none, some '+', none, none, [], none, none, none⟩
      ⟨hwf _ _ (fun c hc => Option.some.inj hc ▸ rfl), rfl, fun _ c0 c1 cs heq => by cases heq⟩
    have htype := hunique ⟨none, none, none, none, none, [], none, none, some '+'⟩
      ⟨hwf _ _ (fun c hc => by cases hc), rfl, fun _ c0 c1 cs heq => by cases heq⟩
    cases hsign.trans htype.symm

end Pyrust.FormatSpecs
