import Pyrust.EscapeCodec
import Pyrust.ScanLoop
import Pyrust.StrictDecoding

/-!
# UTF-16 with an error handler

The decoder takes the unit behind a high surrogate off its iterator before it
knows whether it is the other half. Where it is not, the unit is decoded in place
or the remaining units are decoded by a call of their own, whose offsets count
from a later base. The handlers see the same as in a scan that takes one unit
after another.
-/

set_option autoImplicit false

namespace Pyrust.LenientUtf16

open Cesu8 WideCodecs EscapeCodec ScanLoop WordStream WideWords StrictDecoding

/-- `char::from_u32` with `expect`. -/
def charBytes (cp : ℕ) : Scan PyError (List ℕ) :=
  if isChar cp then .ok (encodeUtf8 cp) else .error .range

/-- `\u{FFFD}`. -/
def replacementChar : List ℕ := encodeUtf8 0xFFFD

/-- `\x{b:02x}`. -/
def hexByte (b : ℕ) : List ℕ := 0x5C::0x78::lowerHex 2 b

def unknownHandler (errors : String) : PyError :=
  .lookupError s!"unknown error handler name '{errors}'"

def isStrict (errors : String) : Bool := errors = "strict" || errors = "surrogateescape"

/-- The handler for the unit whose bytes begin at `start`. -/
def handleUnit (rawBytes : List ℕ) (codecName errors : String) (start : ℕ) (reason : String) :
    Scan PyError (List ℕ) :=
  if errors = "replace" then pure replacementChar
  else if errors = "ignore" then pure []
  else if errors = "backslashreplace" then do
    let unitBytes ← sliceOf rawBytes start (start+2)
    pure (unitBytes.flatMap hexByte)
  else if isStrict errors then
    fail (.unicodeDecodeError codecName rawBytes start (start+2) reason)
  else fail (unknownHandler errors)

/-- `decode_utf16_units_to_string`; `i` counts the units that are done. -/
def decodeUtf16UnitsToString (rawBytes : List ℕ) (codecName errors : String) (bomOffset i : ℕ) :
    List ℕ → List ℕ → Scan PyError (List ℕ)
  | [], out => pure out
  | u::units, out =>
    if isHighSurrogate u then
      match units with
      | [] => do
        let s ← handleUnit rawBytes codecName errors (bomOffset+i*2) "unexpected end of data"
        pure (out ++ s)
      | next::rest =>
        if isLowSurrogate next then do
          let c ← charBytes (joinSurrogates u next)
          decodeUtf16UnitsToString rawBytes codecName errors bomOffset (i+2) rest (out ++ c)
        else if errors = "replace" then
          if isHighSurrogate next then do
            let sub ← decodeUtf16UnitsToString rawBytes codecName errors (bomOffset+(i+1)*2) 0
              (next::rest) []
            pure (out ++ replacementChar ++ sub)
          else if isLowSurrogate next then
            decodeUtf16UnitsToString rawBytes codecName errors bomOffset (i+2) rest
              (out ++ replacementChar ++ replacementChar)
          else do
            let c ← charBytes next
            decodeUtf16UnitsToString rawBytes codecName errors bomOffset (i+2) rest
              (out ++ replacementChar ++ c)
        else if errors = "ignore" then
          if isSurrogate next then do
            let sub ← decodeUtf16UnitsToString rawBytes codecName errors (bomOffset+(i+1)*2) 0
              (next::rest) []
            pure (out ++ sub)
          else do
            let c ← charBytes next
            decodeUtf16UnitsToString rawBytes codecName errors bomOffset (i+2) rest (out ++ c)
        else do
          let s ← handleUnit rawBytes codecName errors (bomOffset+i*2) "illegal UTF-16 surrogate"
          let sub ← decodeUtf16UnitsToString rawBytes codecName errors (bomOffset+(i+1)*2) 0
            (next::rest) []
          pure (out ++ s ++ sub)
    else if isLowSurrogate u then do
      let s ← handleUnit rawBytes codecName errors (bomOffset+i*2) "illegal encoding"
      decodeUtf16UnitsToString rawBytes codecName errors bomOffset (i+1) units (out ++ s)
    else do
      let c ← charBytes u
      decodeUtf16UnitsToString rawBytes codecName errors bomOffset (i+1) units (out ++ c)

/-- `decode_utf16`. -/
def decodeUtf16With (bytes originalBytes : List ℕ) (bomOffset : ℕ) (errors : String)
    (bigEndian : Bool) : Scan PyError (List ℕ) :=
  let codecName := if bigEndian then "utf-16-be" else "utf-16-le"
  let decode (bytes : List ℕ) := decodeUtf16UnitsToString originalBytes codecName errors bomOffset 0
    (units16 bigEndian bytes) []
  if bytes.length % 2 ≠ 0 then
    if errors = "ignore" then decode bytes.dropLast
    else if errors = "replace" then do
      let s ← decode bytes.dropLast
      pure (s ++ replacementChar)
    else if errors = "backslashreplace" then do
      let s ← decode bytes.dropLast
      let last ← index bytes (bytes.length-1)
      pure (s ++ hexByte last)
    else if isStrict errors then
      fail (.unicodeDecodeError codecName originalBytes (bomOffset+bytes.length-1)
        (bomOffset+bytes.length) "truncated data")
    else fail (unknownHandler errors)
  else decode bytes

/-! ## The rule -/

/-- The handlers that go on behind an error. -/
inductive Lenient where
  | replace | ignore | backslashreplace

def Lenient.name : Lenient → String
  | .replace => "replace"
  | .ignore => "ignore"
  | .backslashreplace => "backslashreplace"

/-- What stands for the bytes of an ill-formed unit. -/
def Lenient.handle : Lenient → List ℕ → List ℕ
  | .replace, _ => replacementChar
  | .ignore, _ => []
  | .backslashreplace, unitBytes => unitBytes.flatMap hexByte

/-- The scalar value of a word, as text. -/
def wordText (bigEndian : Bool) : List ℕ → List ℕ
  | [b0, b1, c0, c1] =>
    encodeUtf8 (joinSurrogates (fromBytes bigEndian [b0, b1]) (fromBytes bigEndian [c0, c1]))
  | word => encodeUtf8 (fromBytes bigEndian word)

/-- The unit-by-unit rule: a word stands for its scalar value, and a unit that begins none, or an
odd byte at the end, goes to the handler by itself. -/
def decodeByUnits (h : Lenient) (bigEndian : Bool) (bytes : List ℕ) : List ℕ :=
  (utf16Words bigEndian).scan (wordText bigEndian) h.handle bytes

section rule
variable {h : Lenient} {bigEndian : Bool} {b0 b1 c0 c1 : ℕ} {rest : List ℕ}

theorem byUnits_word {bytes : List ℕ} {n : ℕ} (hword : utf16Length bigEndian bytes = some n) :
    decodeByUnits h bigEndian bytes =
      wordText bigEndian (bytes.take n) ++ decodeByUnits h bigEndian (bytes.drop n) :=
  @WordCode.scan_word _ _ (utf16Words bigEndian) bytes n _ _ hword

theorem byUnits_unit (hnone : utf16Length bigEndian (b0::b1::rest) = none) :
    decodeByUnits h bigEndian (b0::b1::rest) =
      h.handle [b0, b1] ++ decodeByUnits h bigEndian rest :=
  @WordCode.scan_unit _ _ (utf16Words bigEndian) (b0::b1::rest) _ _ hnone (List.cons_ne_nil _ _)

theorem byUnits_single (hhigh : isHighSurrogate (fromBytes bigEndian [b0, b1]) = false)
    (hlow : isLowSurrogate (fromBytes bigEndian [b0, b1]) = false) :
    decodeByUnits h bigEndian (b0::b1::rest) =
      encodeUtf8 (fromBytes bigEndian [b0, b1]) ++ decodeByUnits h bigEndian rest := by
  rw [byUnits_word (utf16Length_single rest hhigh hlow)]
  rfl

theorem byUnits_pair (hhigh : isHighSurrogate (fromBytes bigEndian [b0, b1]) = true)
    (hlow : isLowSurrogate (fromBytes bigEndian [c0, c1]) = true) :
    decodeByUnits h bigEndian (b0::b1::c0::c1::rest) =
      encodeUtf8 (joinSurrogates (fromBytes bigEndian [b0, b1]) (fromBytes bigEndian [c0, c1])) ++
        decodeByUnits h bigEndian rest := by
  rw [byUnits_word (utf16Length_pair rest hhigh hlow)]
  rfl

theorem byUnits_low (hlow : isLowSurrogate (fromBytes bigEndian [b0, b1]) = true) :
    decodeByUnits h bigEndian (b0::b1::rest) =
      h.handle [b0, b1] ++ decodeByUnits h bigEndian rest := by
  have hhigh : isHighSurrogate (fromBytes bigEndian [b0, b1]) = false := by
    simp only [isHighSurrogate, isLowSurrogate, Bool.and_eq_true, Bool.and_eq_false_iff,
      decide_eq_true_eq, decide_eq_false_iff_not] at *
    omega
  exact byUnits_unit (by simp [utf16Length, hhigh, hlow])

theorem byUnits_high_end (hhigh : isHighSurrogate (fromBytes bigEndian [b0, b1]) = true) :
    decodeByUnits h bigEndian [b0, b1] = h.handle [b0, b1] := by
  rw [byUnits_unit (by simp [utf16Length, hhigh])]
  simp [decodeByUnits]

theorem byUnits_high_bad (hhigh : isHighSurrogate (fromBytes bigEndian [b0, b1]) = true)
    (hlow : isLowSurrogate (fromBytes bigEndian [c0, c1]) = false) :
    decodeByUnits h bigEndian (b0::b1::c0::c1::rest) =
      h.handle [b0, b1] ++ decodeByUnits h bigEndian (c0::c1::rest) :=
  byUnits_unit (by simp [utf16Length, hhigh, hlow])

theorem utf16Length_odd {bytes : List ℕ} (b : ℕ) (heven : bytes.length % 2 = 0) :
    utf16Length bigEndian (bytes ++ [b]) = utf16Length bigEndian bytes := by
  rcases bytes with _ | ⟨b0, _ | ⟨b1, _ | ⟨c0, _ | ⟨c1, rest⟩⟩⟩⟩
  · rfl
  · simp at heven
  · rfl
  · simp at heven
  · rfl

theorem even_word {bytes : List ℕ} {n : ℕ} (h : utf16Length bigEndian bytes = some n) :
    n % 2 = 0 ∧ 0 < n ∧ n ≤ bytes.length := by
  refine ⟨?_, (utf16Words bigEndian).pos h, (utf16Words bigEndian).le h⟩
  obtain ⟨_, _, _, -, rfl, -⟩ | ⟨_, _, _, _, _, -, rfl, -⟩ := utf16Length_cases h
  · rfl
  · rfl

/-- An odd byte at the end changes nothing ahead of it. -/
theorem byUnits_odd {bytes : List ℕ} {b : ℕ} (heven : bytes.length % 2 = 0) :
    decodeByUnits h bigEndian (bytes ++ [b]) = decodeByUnits h bigEndian bytes ++ h.handle [b] := by
  induction hlen : bytes.length using Nat.strongRecOn generalizing bytes with
  | _ len ih =>
    have hodd := @utf16Length_odd bigEndian bytes b heven
    cases hword : utf16Length bigEndian bytes with
    | some n =>
      obtain ⟨hn, hpos, hle⟩ := even_word hword
      have hrest := @ih (bytes.drop n).length (by rw [List.length_drop]; omega) (bytes.drop n)
        (by rw [List.length_drop]; omega) rfl
      rw [byUnits_word (hodd.trans hword), byUnits_word hword, List.take_append_of_le_length hle,
        List.drop_append_of_le_length hle, hrest, List.append_assoc]
    | none =>
      rcases bytes with _ | ⟨b0, _ | ⟨b1, rest⟩⟩
      · have hunit := @WordCode.scan_unit _ _ (utf16Words bigEndian) [b] (wordText bigEndian)
          h.handle rfl (List.cons_ne_nil _ _)
        simpa [decodeByUnits, utf16Words] using hunit
      · simp at heven
      · simp only [List.length_cons] at hlen heven
        have hrest := @ih rest.length (by omega) rest (by omega) rfl
        have hnone : utf16Length bigEndian (b0::b1::(rest ++ [b])) = none := hodd.trans hword
        rw [List.cons_append, List.cons_append, byUnits_unit hnone, byUnits_unit hword, hrest,
          List.append_assoc]

end rule

/-! ## The decoder follows the rule -/

@[simp] theorem scan_ok_bind {α β : Type} (a : α) (f : α → Scan PyError β) :
    ((Except.ok a : Scan PyError α) >>= f) = f a := rfl

section decoder
variable {h : Lenient} {bigEndian : Bool} {rawBytes bytes post out : List ℕ} {codecName : String}
  {bomOffset i start : ℕ}

theorem slice_of_drop {b0 b1 : ℕ} {rest : List ℕ} (hraw : rawBytes.drop start = b0::b1::rest) :
    (sliceOf rawBytes start (start+2) : Scan PyError (List ℕ)) = .ok [b0, b1] := by
  have hlen := congrArg List.length hraw
  simp only [List.length_drop, List.length_cons] at hlen
  rw [sliceOf_of_le (by omega) (by omega), List.drop_take, Nat.add_sub_cancel_left, hraw]
  rfl

theorem handleUnit_lenient {b0 b1 : ℕ} {rest : List ℕ} (reason : String)
    (hraw : rawBytes.drop start = b0::b1::rest) :
    handleUnit rawBytes codecName h.name start reason = .ok (h.handle [b0, b1]) := by
  have hslice := slice_of_drop hraw
  cases h with
  | replace => rfl
  | ignore => rfl
  | backslashreplace =>
    show (sliceOf rawBytes start (start+2) >>= fun unitBytes => _) = _
    rw [hslice]
    rfl

theorem charBytes_bmp {u : ℕ} (hu : u < 0x10000) (hhigh : isHighSurrogate u = false)
    (hlow : isLowSurrogate u = false) : charBytes u = .ok (encodeUtf8 u) := by
  rw [charBytes, if_pos]
  simp only [isChar, isSurrogate, isHighSurrogate, isLowSurrogate, Bool.and_eq_false_iff,
    decide_eq_false_iff_not, Bool.and_eq_true, decide_eq_true_eq, Bool.not_eq_true'] at *
  omega

theorem charBytes_pair {u low : ℕ} (hhigh : isHighSurrogate u = true)
    (hlow : isLowSurrogate low = true) :
    charBytes (joinSurrogates u low) = .ok (encodeUtf8 (joinSurrogates u low)) := by
  have hvalue : joinSurrogates u low = 0x10000+(u-0xD800)*1024+(low-0xDC00) := rfl
  simp only [isHighSurrogate, isLowSurrogate, Bool.and_eq_true, decide_eq_true_eq] at hhigh hlow
  rw [charBytes, if_pos]
  simp only [isChar, isSurrogate, Bool.and_eq_false_iff, decide_eq_false_iff_not,
    Bool.and_eq_true, decide_eq_true_eq, Bool.not_eq_true']
  omega

theorem drop_units {xs ys : List ℕ} (k : ℕ) (hlen : xs.length = k*2)
    (hraw : rawBytes.drop (bomOffset+i*2) = xs ++ ys) :
    rawBytes.drop (bomOffset+(i+k)*2) = ys := by
  rw [Nat.add_mul, ← Nat.add_assoc, ← hlen, ← List.drop_drop, hraw, List.drop_left]

attribute [local simp] decodeUtf16UnitsToString in
/-- A high surrogate without its low one. Whichever way the unit behind it is read, the handler's
text comes out and then what the units behind it give. -/
theorem decodeUnits_high_bad {b0 b1 u next : ℕ} {units sub tail : List ℕ}
    (hhigh : isHighSurrogate u = true) (hlow : isLowSurrogate next = false) (hnext : next < 0x10000)
    (hunit : handleUnit rawBytes codecName h.name (bomOffset+i*2) "illegal UTF-16 surrogate" =
      .ok (h.handle [b0, b1]))
    (hsub : decodeUtf16UnitsToString rawBytes codecName h.name (bomOffset+(i+1)*2) 0
      (next::units) [] = .ok sub)
    (htwo : ∀ out, decodeUtf16UnitsToString rawBytes codecName h.name bomOffset (i+2) units out =
      .ok (out ++ tail))
    (hsingle : isHighSurrogate next = false → sub = encodeUtf8 next ++ tail) :
    decodeUtf16UnitsToString rawBytes codecName h.name bomOffset i (u::next::units) out =
      .ok (out ++ (h.handle [b0, b1] ++ sub)) := by
  rw [decodeUtf16UnitsToString.eq_def]
  dsimp only
  rw [if_pos hhigh, if_neg (Bool.eq_false_iff.mp hlow), hsub, hunit]
  by_cases hnexthigh : isHighSurrogate next = true
  · have hsurrogate : isSurrogate next = true := by
      simp only [isSurrogate, isHighSurrogate, Bool.and_eq_true, decide_eq_true_eq] at *
      omega
    rw [if_pos hnexthigh, if_pos hsurrogate]
    cases h <;> simp [Lenient.name, Lenient.handle, pure, Except.pure]
  · have hnexthigh := Bool.eq_false_iff.mpr hnexthigh
    have hsurrogate : isSurrogate next = false := by
      simp only [isSurrogate, isHighSurrogate, isLowSurrogate, Bool.and_eq_false_iff,
        decide_eq_false_iff_not] at *
      omega
    rw [charBytes_bmp hnext hnexthigh hlow, hnexthigh, hsurrogate, hlow, hsingle hnexthigh]
    have hfalse := Bool.false_ne_true
    cases h with
    | replace =>
      rw [if_pos (show Lenient.replace.name = "replace" from rfl), if_neg hfalse, if_neg hfalse,
        scan_ok_bind, htwo, List.append_assoc, List.append_assoc]
      rfl
    | ignore =>
      rw [if_neg (show Lenient.ignore.name ≠ "replace" by decide),
        if_pos (show Lenient.ignore.name = "ignore" from rfl), if_neg hfalse, scan_ok_bind, htwo,
        List.append_assoc]
      rfl
    | backslashreplace =>
      rw [if_neg (show Lenient.backslashreplace.name ≠ "replace" by decide),
        if_neg (show Lenient.backslashreplace.name ≠ "ignore" by decide), scan_ok_bind,
        scan_ok_bind, List.append_assoc]
      rfl

/-- The decoder from some unit on. The induction is on the number of bytes that are left, since a
bad high surrogate is left behind together with its follower or alone. -/
theorem decodeUnits_lenient (hb : ∀ b ∈ bytes, b < 256) (heven : bytes.length % 2 = 0)
    (hraw : rawBytes.drop (bomOffset+i*2) = bytes ++ post) :
    decodeUtf16UnitsToString rawBytes codecName h.name bomOffset i (units16 bigEndian bytes) out =
      .ok (out ++ decodeByUnits h bigEndian bytes) := by
  induction hlen : bytes.length using Nat.strongRecOn generalizing bytes bomOffset i out with
  | _ len ih =>
    rcases bytes with _ | ⟨b0, _ | ⟨b1, rest⟩⟩
    · rw [units16_short _ (by decide), decodeUtf16UnitsToString]
      simp [decodeByUnits, pure, Except.pure]
    · simp at heven
    have hrest : ∀ b ∈ rest, b < 256 := fun b hmem => hb b (by simp [hmem])
    have hu := fromBytes_lt bigEndian (fun b hmem => hb b (by simp at hmem ⊢; tauto) :
      ∀ b ∈ [b0, b1], b < 256)
    simp only [List.length_cons, List.length_nil, Nat.zero_add] at hu hlen heven
    have hraw1 : rawBytes.drop (bomOffset+(i+1)*2) = rest ++ post :=
      @drop_units _ _ i [b0, b1] (rest ++ post) 1 rfl hraw
    have hone : ∀ out, decodeUtf16UnitsToString rawBytes codecName h.name bomOffset (i+1)
        (units16 bigEndian rest) out = .ok (out ++ decodeByUnits h bigEndian rest) := fun out =>
      ih rest.length (by omega) hrest (by omega) hraw1 rfl
    rw [units16_cons]
    by_cases hhigh : isHighSurrogate (fromBytes bigEndian [b0, b1]) = true
    · rcases rest with _ | ⟨c0, _ | ⟨c1, rest⟩⟩
      · rw [units16_short _ (by decide), byUnits_high_end hhigh, decodeUtf16UnitsToString.eq_def]
        dsimp only
        rw [if_pos hhigh, handleUnit_lenient _ hraw]
        rfl
      · simp at heven
      have hnext := fromBytes_lt bigEndian (fun b hmem => hrest b (by simp at hmem ⊢; tauto) :
        ∀ b ∈ [c0, c1], b < 256)
      have hrest2 : ∀ b ∈ rest, b < 256 := fun b hmem => hrest b (by simp [hmem])
      simp only [List.length_cons, List.length_nil, Nat.zero_add] at hnext hlen heven
      have hraw2 : rawBytes.drop (bomOffset+(i+2)*2) = rest ++ post :=
        @drop_units _ _ i [b0, b1, c0, c1] (rest ++ post) 2 rfl hraw
      have htwo : ∀ out, decodeUtf16UnitsToString rawBytes codecName h.name bomOffset (i+2)
          (units16 bigEndian rest) out = .ok (out ++ decodeByUnits h bigEndian rest) := fun out =>
        ih rest.length (by omega) hrest2 (by omega) hraw2 rfl
      -- the call on the remaining units, whose offsets count from the follower
      have hsub : decodeUtf16UnitsToString rawBytes codecName h.name (bomOffset+(i+1)*2) 0
          (fromBytes bigEndian [c0, c1]::units16 bigEndian rest) [] =
            .ok (decodeByUnits h bigEndian (c0::c1::rest)) := by
        have hcall := @ih (c0::c1::rest).length (by simp only [List.length_cons]; omega)
          (c0::c1::rest) [] (bomOffset+(i+1)*2) 0 hrest (by simp only [List.length_cons]; omega)
          (by rwa [Nat.zero_mul, Nat.add_zero]) rfl
        rwa [units16_cons, List.nil_append] at hcall
      rw [units16_cons]
      by_cases hpair : isLowSurrogate (fromBytes bigEndian [c0, c1]) = true
      · rw [decodeUtf16UnitsToString.eq_def]
        dsimp only
        rw [if_pos hhigh, if_pos hpair, charBytes_pair hhigh hpair, byUnits_pair hhigh hpair,
          scan_ok_bind, htwo, List.append_assoc]
      have hlow := Bool.eq_false_iff.mpr hpair
      rw [decodeUnits_high_bad hhigh hlow hnext (handleUnit_lenient _ hraw) hsub htwo fun hsingle =>
        byUnits_single hsingle hlow, byUnits_high_bad hhigh hlow]
    · have hhigh := Bool.eq_false_iff.mpr hhigh
      rw [decodeUtf16UnitsToString.eq_def]
      dsimp only
      rw [if_neg (Bool.eq_false_iff.mp hhigh)]
      by_cases hlow : isLowSurrogate (fromBytes bigEndian [b0, b1]) = true
      · rw [if_pos hlow, handleUnit_lenient _ hraw, byUnits_low hlow, scan_ok_bind, hone,
          List.append_assoc]
      · have hlow := Bool.eq_false_iff.mpr hlow
        rw [if_neg (Bool.eq_false_iff.mp hlow), charBytes_bmp hu hhigh hlow,
          byUnits_single hhigh hlow, scan_ok_bind, hone, List.append_assoc]

theorem decodeUtf16With_even {original : List ℕ} (heven : bytes.length % 2 = 0)
    (hb : ∀ b ∈ bytes, b < 256) (hraw : original.drop bomOffset = bytes ++ post) :
    decodeUtf16With bytes original bomOffset h.name bigEndian =
      .ok (decodeByUnits h bigEndian bytes) := by
  rw [decodeUtf16With, if_neg (not_not.mpr heven)]
  exact decodeUnits_lenient hb heven (by rwa [Nat.zero_mul, Nat.add_zero])

theorem decodeUtf16With_odd {original : List ℕ} {last : ℕ} (heven : bytes.length % 2 = 0)
    (hb : ∀ b ∈ bytes, b < 256) (hraw : original.drop bomOffset = bytes ++ last::post) :
    decodeUtf16With (bytes ++ [last]) original bomOffset h.name bigEndian =
      .ok (decodeByUnits h bigEndian bytes ++ h.handle [last]) := by
  have hodd : (bytes ++ [last]).length % 2 ≠ 0 := by
    rw [List.length_append, List.length_singleton]
    omega
  have hunits : ∀ codecName, decodeUtf16UnitsToString original codecName h.name bomOffset 0
      (units16 bigEndian bytes) [] = .ok (decodeByUnits h bigEndian bytes) := fun codecName =>
    decodeUnits_lenient hb heven (by rwa [Nat.zero_mul, Nat.add_zero])
  rw [decodeUtf16With]
  dsimp only
  rw [if_pos hodd, List.dropLast_concat, hunits]
  cases h with
  | replace => rfl
  | ignore => exact congrArg Except.ok (List.append_nil _).symm
  | backslashreplace =>
    have hlast : (bytes ++ [last])[(bytes ++ [last]).length-1]? = some last := by simp
    rw [index_of_some hlast]
    show Except.ok (decodeByUnits _ bigEndian bytes ++ hexByte last) = _
    rw [Lenient.handle, List.flatMap_singleton]

end decoder

/-- Lenient decoding of UTF-16 is the unit-by-unit rule, and every byte range that is read lies
inside the original bytes. -/
theorem lenient_utf16_by_units (h : Lenient) (bigEndian : Bool) (bom bytes : List ℕ)
    (hb : ∀ b ∈ bytes, b < 256) :
    decodeUtf16With bytes (bom ++ bytes) bom.length h.name bigEndian =
      .ok (decodeByUnits h bigEndian bytes) := by
  by_cases heven : bytes.length % 2 = 0
  · exact decodeUtf16With_even heven hb (by rw [List.drop_left, List.append_nil])
  · obtain ⟨last, init, rfl⟩ : ∃ last init, bytes = init ++ [last] := by
      rcases List.eq_nil_or_concat bytes with rfl | ⟨init, last, rfl⟩
      · exact absurd rfl heven
      · exact ⟨last, init, List.concat_eq_append⟩
    have hinit : init.length % 2 = 0 := by
      rw [List.length_append, List.length_singleton] at heven
      omega
    rw [byUnits_odd hinit]
    exact decodeUtf16With_odd hinit (fun b hmem => hb b (List.mem_append_left _ hmem))
      (List.drop_left)

/-- Two high surrogates, a pair, and an odd byte behind a mark. -/
theorem lenient_utf16_by_units_sample :
    decodeUtf16With [0x00, 0xD8, 0x00, 0xD8, 0x00, 0xDC, 0x41]
        ([0xFF, 0xFE] ++ [0x00, 0xD8, 0x00, 0xD8, 0x00, 0xDC, 0x41]) 2
        Lenient.backslashreplace.name false =
      .ok (decodeByUnits .backslashreplace false [0x00, 0xD8, 0x00, 0xD8, 0x00, 0xDC, 0x41]) :=
  lenient_utf16_by_units .backslashreplace false [0xFF, 0xFE]
    [0x00, 0xD8, 0x00, 0xD8, 0x00, 0xDC, 0x41] (by decide)

/-! ## The strict decoder -/

section strict
variable {rawBytes units out : List ℕ} {codecName : String} {bomOffset i : ℕ}

theorem handleUnit_strict (start : ℕ) (reason : String) :
    handleUnit rawBytes codecName "strict" start reason =
      fail (.unicodeDecodeError codecName rawBytes start (start+2) reason) := rfl

theorem decodeUnits_strict (hunits : ∀ u ∈ units, u < 0x10000) :
    decodeUtf16UnitsToString rawBytes codecName "strict" bomOffset i units out =
      lift (decodeUtf16Units rawBytes bomOffset codecName i units out) := by
  have hreplace : ("strict" : String) ≠ "replace" := by decide
  have hignore : ("strict" : String) ≠ "ignore" := by decide
  fun_induction decodeUtf16Units rawBytes bomOffset codecName i units out with
  | case1 => rfl
  | case2 i u out hhigh =>
    rw [decodeUtf16UnitsToString.eq_def]
    dsimp only
    rw [if_pos hhigh, handleUnit_strict]
    rfl
  | case3 i u out hhigh low units hlow ih =>
    rw [decodeUtf16UnitsToString.eq_def]
    dsimp only
    rw [if_pos hhigh, if_pos hlow, charBytes_pair hhigh hlow, scan_ok_bind]
    exact ih fun v hv => hunits v (by simp [hv])
  | case4 i u out hhigh low units hlow =>
    rw [decodeUtf16UnitsToString.eq_def]
    dsimp only
    rw [if_pos hhigh, if_neg hlow, if_neg hreplace, if_neg hignore, handleUnit_strict]
    rfl
  | case5 i u units out hhigh hlow =>
    rw [decodeUtf16UnitsToString.eq_def]
    dsimp only
    rw [if_neg hhigh, if_pos hlow, handleUnit_strict]
    rfl
  | case6 i u units out hhigh hlow ih =>
    rw [decodeUtf16UnitsToString.eq_def]
    dsimp only
    rw [if_neg hhigh, if_neg hlow, charBytes_bmp (hunits u List.mem_cons_self)
      (Bool.eq_false_iff.mpr hhigh) (Bool.eq_false_iff.mpr hlow), scan_ok_bind]
    exact ih fun v hv => hunits v (List.mem_cons_of_mem u hv)

/-- Under `'strict'` this is the decoder whose first error was settled before. -/
theorem decodeUtf16With_strict (bytes original : List ℕ) (bomOffset : ℕ) (bigEndian : Bool)
    (hb : ∀ b ∈ bytes, b < 256) :
    decodeUtf16With bytes original bomOffset "strict" bigEndian =
      lift (decodeUtf16 bytes original bomOffset bigEndian) := by
  by_cases heven : bytes.length % 2 = 0
  · have hunits : ∀ u ∈ units16 bigEndian bytes, u < 0x10000 := by
      intro u hu
      obtain ⟨chunk, hmem, rfl⟩ := List.mem_map.mp hu
      obtain ⟨k, -, rfl⟩ := List.mem_map.mp hmem
      have hchunk : ∀ b ∈ (bytes.drop (k*2)).take 2, b < 256 := fun b hmem =>
        hb b (List.mem_of_mem_drop (List.mem_of_mem_take hmem))
      have hlt := fromBytes_lt bigEndian hchunk
      have hpow : 256^((bytes.drop (k*2)).take 2).length ≤ 256^2 :=
        Nat.pow_le_pow_right (by decide) (List.length_take_le _ _)
      omega
    rw [decodeUtf16With, decodeUtf16, if_neg (not_not.mpr heven), if_neg (not_not.mpr heven)]
    exact decodeUnits_strict hunits
  · rw [decodeUtf16With, decodeUtf16, if_pos heven, if_pos heven]
    rfl

end strict
end Pyrust.LenientUtf16
