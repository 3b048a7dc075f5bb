import Pyrust.EscapeCodec
import Pyrust.Utf7

/-!
# Encoding a string and decoding it again

The encoder and the decoder each normalise the name of the codec in their own
way. The codecs of one byte a character are not modelled: `byteEncoder` and
`byteDecoder` stand for those arms, under the names that select them.
-/

set_option autoImplicit false

namespace Pyrust.CodecDispatch
open Pyrust.Cesu8 Pyrust.WideCodecs Pyrust.EscapeCodec Pyrust.Utf7

/-- The arms of the two dispatches that are not modelled, and the table of character names. -/
structure Environment where
  byteEncoder : String → List ℕ → Except PyError (List ℕ)
  byteDecoder : String → List ℕ → Except PyError (List ℕ)
  namedCharacter : List ℕ → Option ℕ

/-- Lower case with hyphens. -/
def canonicalEncoding (encoding : String) : String :=
  String.ofList (encoding.toList.map fun c => if c.toLower = '_' then '-' else c.toLower)

/-- Lower case without hyphens and underscores. -/
def normalizedEncoding (encoding : String) : String :=
  String.ofList ((encoding.toList.map Char.toLower).filter fun c => c ≠ '-' && c ≠ '_')

/-- `encode_str_to_bytes(source, encoding, 'strict')`. -/
def encodeStrToBytes (env : Environment) (source : List ℕ) (encoding : String) :
    Except PyError (List ℕ) :=
  match canonicalEncoding encoding with
  | "utf-8" | "utf8" | "u8" | "utf" => encodeUtf8Codec source "utf-8" []
  | "utf-8-sig" => encodeUtf8Codec source "utf-8-sig" [0xEF, 0xBB, 0xBF]
  | "ascii" | "us-ascii" | "646" => env.byteEncoder "ascii" source
  | "latin-1" | "iso-8859-1" | "8859" | "cp819" | "latin1" | "l1" =>
    env.byteEncoder "latin-1" source
  | "cp1252" | "windows-1252" => env.byteEncoder "cp1252" source
  | "unicode-escape" => .ok (encodeUnicodeEscape source)
  | "raw-unicode-escape" => env.byteEncoder "raw-unicode-escape" source
  | "utf-7" => .ok (encodeUtf7 source)
  | "utf-16" | "utf16" =>
    encodeUtfSurrogateAware source "utf-16" [0xFF, 0xFE] (encodeCpUtf16 false)
  | "utf-16-le" => encodeUtfSurrogateAware source "utf-16-le" [] (encodeCpUtf16 false)
  | "utf-16-be" => encodeUtfSurrogateAware source "utf-16-be" [] (encodeCpUtf16 true)
  | "utf-32" | "utf32" =>
    encodeUtfSurrogateAware source "utf-32" [0xFF, 0xFE, 0, 0] (toBytes false 4)
  | "utf-32-le" => encodeUtfSurrogateAware source "utf-32-le" [] (toBytes false 4)
  | "utf-32-be" => encodeUtfSurrogateAware source "utf-32-be" [] (toBytes true 4)
  | _ => .error (.lookupError ("unknown encoding: " ++ encoding))

/-- `decode_bytes(bytes, encoding, 'strict')`. -/
def decodeBytes (env : Environment) (bytes : List ℕ) (encoding : String) :
    Except PyError (List ℕ) :=
  match normalizedEncoding encoding with
  | "utf8" => decodeUtf8 bytes "utf-8"
  | "utf8sig" => decodeUtf8Sig bytes
  | "latin1" | "iso88591" | "iso8859" | "l1" | "cp819" | "latin" =>
    env.byteDecoder "latin-1" bytes
  | "ascii" => env.byteDecoder "ascii" bytes
  | "utf16" => decodeUtf16Bom bytes
  | "utf16le" => decodeUtf16 bytes bytes 0 false
  | "utf16be" => decodeUtf16 bytes bytes 0 true
  | "utf32" => decodeUtf32Bom bytes
  | "utf32le" => decodeUtf32 bytes bytes 0 false
  | "utf32be" => decodeUtf32 bytes bytes 0 true
  | "cp1252" | "windows1252" => env.byteDecoder "cp1252" bytes
  | "unicodeescape" => decodeUnicodeEscape env.namedCharacter bytes
  | "rawunicodeescape" => env.byteDecoder "raw-unicode-escape" bytes
  | "utf7" => decodeUtf7 bytes
  | _ => .error (.lookupError ("unknown encoding: " ++ encoding))

/-- A string through the encoder and the decoder of one codec. -/
def encodeDecode (env : Environment) (s : PyStr) (encoding : String) : Except PyError (List ℕ) :=
  (encodeStrToBytes env s.bytes encoding).bind fun bytes => decodeBytes env bytes encoding

section
variable (env : Environment)

theorem encodeDecode_ok {s : PyStr} {encoding : String} {bytes : List ℕ}
    (he : encodeStrToBytes env s.bytes encoding = .ok bytes)
    (hd : decodeBytes env bytes encoding = .ok s.bytes) :
    encodeDecode env s encoding = .ok s.bytes := by
  rw [encodeDecode, he]
  exact hd

theorem encodeDecode_utf8 (s : PyStr) (h : Scalars s.codepoints) :
    encodeDecode env s "utf-8" = .ok s.bytes ∧ encodeDecode env s "utf-8-sig" = .ok s.bytes := by
  constructor
  · exact encodeDecode_ok env (encodeUtf8Codec_scalars s h "utf-8" [])
      (decodeUtf8_scalars h "utf-8")
  · exact encodeDecode_ok env (encodeUtf8Codec_scalars s h "utf-8-sig" [0xEF, 0xBB, 0xBF])
      (decodeUtf8Sig_scalars h)

theorem encodeDecode_utf16 (s : PyStr) (h : Scalars s.codepoints) :
    encodeDecode env s "utf-16" = .ok s.bytes ∧ encodeDecode env s "utf-16-le" = .ok s.bytes ∧
      encodeDecode env s "utf-16-be" = .ok s.bytes := by
  refine ⟨?_, ?_, ?_⟩
  · exact encodeDecode_ok env (encodeUtfSurrogateAware_scalars s h "utf-16" [0xFF, 0xFE] _)
      (decodeUtf16Bom_encode h)
  · exact encodeDecode_ok env (encodeUtfSurrogateAware_scalars s h "utf-16-le" [] _)
      (decodeUtf16_encode _ 0 false h)
  · exact encodeDecode_ok env (encodeUtfSurrogateAware_scalars s h "utf-16-be" [] _)
      (decodeUtf16_encode _ 0 true h)

theorem encodeDecode_utf32 (s : PyStr) (h : Scalars s.codepoints) :
    encodeDecode env s "utf-32" = .ok s.bytes ∧ encodeDecode env s "utf-32-le" = .ok s.bytes ∧
      encodeDecode env s "utf-32-be" = .ok s.bytes := by
  refine ⟨?_, ?_, ?_⟩
  · exact encodeDecode_ok env (encodeUtfSurrogateAware_scalars s h "utf-32" [0xFF, 0xFE, 0, 0] _)
      (decodeUtf32Bom_encode h)
  · exact encodeDecode_ok env (encodeUtfSurrogateAware_scalars s h "utf-32-le" [] _)
      (decodeUtf32_encode _ 0 false h)
  · exact encodeDecode_ok env (encodeUtfSurrogateAware_scalars s h "utf-32-be" [] _)
      (decodeUtf32_encode _ 0 true h)

theorem encodeDecode_escape (s : PyStr) : encodeDecode env s "unicode_escape" = .ok s.bytes :=
  @encodeDecode_ok env s "unicode_escape" (encodeUnicodeEscape s.bytes) rfl
    (decodeUnicodeEscape_encode env.namedCharacter s)

theorem encodeDecode_utf7 (s : PyStr) (h : NoPair s.codepoints) :
    encodeDecode env s "utf-7" = .ok s.bytes :=
  @encodeDecode_ok env s "utf-7" (encodeUtf7 s.bytes) rfl (decodeUtf7_encode s h)

end

/-- The codecs that refuse surrogates. -/
def wideEncodings : List String :=
  ["utf-8", "utf-8-sig", "utf-16", "utf-16-le", "utf-16-be", "utf-32", "utf-32-le", "utf-32-be"]

/-- What is encoded is decoded to the string it came from. -/
theorem decode_of_encode (env : Environment) (s : PyStr) :
    ((∀ cp ∈ s.codepoints, isSurrogate cp = false) →
      ∀ encoding ∈ wideEncodings, encodeDecode env s encoding = .ok s.bytes) ∧
    encodeDecode env s "unicode_escape" = .ok s.bytes ∧
    (NoPair s.codepoints → encodeDecode env s "utf-7" = .ok s.bytes) := by
  refine ⟨?_, encodeDecode_escape env s, encodeDecode_utf7 env s⟩
  intro hsurrogate encoding hencoding
  have hscalars : Scalars s.codepoints := fun cp hcp => ⟨s.valid cp hcp, hsurrogate cp hcp⟩
  have h8 := encodeDecode_utf8 env s hscalars
  have h16 := encodeDecode_utf16 env s hscalars
  have h32 := encodeDecode_utf32 env s hscalars
  simp only [wideEncodings, List.mem_cons, List.not_mem_nil, or_false] at hencoding
  rcases hencoding with rfl | rfl | rfl | rfl | rfl | rfl | rfl | rfl
  · exact h8.1
  · exact h8.2
  · exact h16.1
  · exact h16.2.1
  · exact h16.2.2
  · exact h32.1
  · exact h32.2.1
  · exact h32.2.2

def plainEnvironment : Environment :=
  ⟨fun name _ => .error (.lookupError name), fun name _ => .error (.lookupError name), fun _ => none⟩

/-- `'+é😀'`, and a string with two surrogates that form no pair. -/
theorem decode_of_encode_samples :
    (∀ encoding ∈ wideEncodings, encodeDecode plainEnvironment
        ⟨[0x2B, 0xE9, 0x1F600], by decide⟩ encoding =
      .ok (stringBytes [0x2B, 0xE9, 0x1F600])) ∧
    encodeDecode plainEnvironment ⟨[0xDC00, 0x2B, 0xD800], by decide⟩ "utf-7" =
      .ok (stringBytes [0xDC00, 0x2B, 0xD800]) := by
  constructor
  · exact (decode_of_encode plainEnvironment ⟨[0x2B, 0xE9, 0x1F600], by decide⟩).1 (by decide)
  · refine (decode_of_encode plainEnvironment ⟨[0xDC00, 0x2B, 0xD800], by decide⟩).2.2 ?_
    simp [NoPair, isHighSurrogate, isLowSurrogate]

end Pyrust.CodecDispatch
