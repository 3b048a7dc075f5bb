import Pyrust.Cesu8
import Mathlib.Tactic.Ring

/-!
# The UTF-8, UTF-16 and UTF-32 codecs

The encoders walk the code points of a string and refuse surrogates, the decoders
walk byte chunks. The `errors` argument is `'strict'` throughout.
-/

set_option autoImplicit false

namespace Pyrust.WideCodecs
open Pyrust.Cesu8

inductive PyError where
  | unicodeEncodeError (encoding : String) (object : List ℕ) (start stop : ℕ) (reason : String)
  | unicodeDecodeError (encoding : String) (object : List ℕ) (start stop : ℕ) (reason : String)
  | lookupError (message : String)

/-! ## Chunks of bytes -/

def toLeBytes : ℕ → ℕ → List ℕ
  | 0, _ => []
  | n+1, v => (v % 256)::toLeBytes n (v/256)

def toBeBytes (n v : ℕ) : List ℕ := (toLeBytes n v).reverse

def fromLeBytes (bytes : List ℕ) : ℕ := bytes.foldr (fun b v => b+v*256) 0

def fromBeBytes (bytes : List ℕ) : ℕ := fromLeBytes bytes.reverse

def toBytes (bigEndian : Bool) (n v : ℕ) : List ℕ :=
  if bigEndian then toBeBytes n v else toLeBytes n v

def fromBytes (bigEndian : Bool) (bytes : List ℕ) : ℕ :=
  if bigEndian then fromBeBytes bytes else fromLeBytes bytes

/-- `slice::as_chunks`: the whole chunks of `n` bytes, and the remainder. -/
def asChunks (n : ℕ) (bytes : List ℕ) : List (List ℕ) × List ℕ :=
  ((List.range (bytes.length/n)).map fun i => (bytes.drop (i*n)).take n,
    bytes.drop (bytes.length/n*n))

theorem toLeBytes_length (n v : ℕ) : (toLeBytes n v).length = n := by
  induction n generalizing v with
  | zero => rfl
  | succ n ih => rw [toLeBytes, List.length_cons, ih]

@[simp] theorem toBytes_length (bigEndian : Bool) (n v : ℕ) :
    (toBytes bigEndian n v).length = n := by
  cases bigEndian
  · exact toLeBytes_length n v
  · exact List.length_reverse.trans (toLeBytes_length n v)

theorem fromLeBytes_toLeBytes {n v : ℕ} (h : v < 256^n) : fromLeBytes (toLeBytes n v) = v := by
  induction n generalizing v with
  | zero =>
    have hv : v = 0 := by rwa [pow_zero, Nat.lt_one_iff] at h
    exact hv.symm
  | succ n ih =>
    have hdiv : v/256 < 256^n := Nat.div_lt_of_lt_mul (by rwa [pow_succ, Nat.mul_comm] at h)
    show v % 256+fromLeBytes (toLeBytes n (v/256))*256 = v
    rw [ih hdiv, Nat.mul_comm, Nat.mod_add_div]

theorem fromLeBytes_lt {bytes : List ℕ} (h : ∀ b ∈ bytes, b < 256) :
    fromLeBytes bytes < 256^bytes.length := by
  induction bytes with
  | nil => decide
  | cons b bytes ih =>
    have hb := h b List.mem_cons_self
    have hrest := ih fun c hc => h c (List.mem_cons_of_mem b hc)
    show b+fromLeBytes bytes*256 < 256^(bytes.length+1)
    rw [pow_succ]
    omega

theorem toLeBytes_fromLeBytes {bytes : List ℕ} (h : ∀ b ∈ bytes, b < 256) :
    toLeBytes bytes.length (fromLeBytes bytes) = bytes := by
  induction bytes with
  | nil => rfl
  | cons b bytes ih =>
    have hb := h b List.mem_cons_self
    have hmod : (b+fromLeBytes bytes*256) % 256 = b := by omega
    have hdiv : (b+fromLeBytes bytes*256)/256 = fromLeBytes bytes := by omega
    show ((b+fromLeBytes bytes*256) % 256)::
      toLeBytes bytes.length ((b+fromLeBytes bytes*256)/256) = _
    rw [hmod, hdiv, ih fun c hc => h c (List.mem_cons_of_mem b hc)]

theorem fromBytes_lt (bigEndian : Bool) {bytes : List ℕ} (h : ∀ b ∈ bytes, b < 256) :
    fromBytes bigEndian bytes < 256^bytes.length := by
  cases bigEndian
  · exact fromLeBytes_lt h
  · have := fromLeBytes_lt fun b hb => h b (List.mem_reverse.mp hb)
    rwa [List.length_reverse] at this

theorem toBytes_fromBytes (bigEndian : Bool) {bytes : List ℕ} (h : ∀ b ∈ bytes, b < 256) :
    toBytes bigEndian bytes.length (fromBytes bigEndian bytes) = bytes := by
  cases bigEndian
  · exact toLeBytes_fromLeBytes h
  · have := toLeBytes_fromLeBytes fun b hb => h b (List.mem_reverse.mp hb)
    rw [List.length_reverse] at this
    show (toLeBytes bytes.length (fromLeBytes bytes.reverse)).reverse = bytes
    rw [this, List.reverse_reverse]

theorem fromBytes_toBytes (bigEndian : Bool) {n v : ℕ} (h : v < 256^n) :
    fromBytes bigEndian (toBytes bigEndian n v) = v := by
  cases bigEndian
  · exact fromLeBytes_toLeBytes h
  · show fromLeBytes (toLeBytes n v).reverse.reverse = v
    rw [List.reverse_reverse, fromLeBytes_toLeBytes h]

theorem asChunks_flatten {n : ℕ} (hn : 0 < n) {chunks : List (List ℕ)}
    (h : ∀ chunk ∈ chunks, chunk.length = n) : asChunks n chunks.flatten = (chunks, []) := by
  have hlength : chunks.flatten.length = chunks.length*n := by
    rw [List.length_flatten, List.map_congr_left h]
    simp
  have hdiv : chunks.flatten.length/n = chunks.length := by rw [hlength, Nat.mul_div_cancel _ hn]
  rw [asChunks, hdiv, ← hlength, List.drop_length, Prod.mk.injEq]
  refine ⟨?_, rfl⟩
  clear hlength hdiv
  induction chunks with
  | nil => rfl
  | cons chunk chunks ih =>
    have hchunk := h chunk List.mem_cons_self
    rw [List.length_cons, List.range_succ_eq_map, List.map_cons, List.map_map]
    congr 1
    · simp [← hchunk]
    · refine (List.map_congr_left ?_).trans (ih fun c hc => h c (List.mem_cons_of_mem chunk hc))
      intro i hi
      show (List.drop ((i+1)*n) (chunk::chunks).flatten).take n = _
      rw [List.flatten_cons, Nat.add_mul, Nat.one_mul, Nat.add_comm, ← List.drop_drop, ← hchunk,
        List.drop_left]

/-! ## Encoding -/

/-- The walk of the encoder from code point `idx`. -/
def encodeCodepoints (source : List ℕ) (codecName : String) (encodeCp : ℕ → List ℕ) (idx : ℕ) :
    List ℕ → List ℕ → Except PyError (List ℕ)
  | [], out => .ok out
  | cp::cps, out =>
    if !isSurrogate cp then
      encodeCodepoints source codecName encodeCp (idx+1) cps (out ++ encodeCp cp)
    else
      -- consecutive surrogates are one error
      .error (.unicodeEncodeError codecName source idx
        (idx+1+(cps.takeWhile isSurrogate).length) "surrogates not allowed")

def encodeUtfSurrogateAware (source : List ℕ) (codecName : String) (bom : List ℕ)
    (encodeCp : ℕ → List ℕ) : Except PyError (List ℕ) :=
  encodeCodepoints source codecName encodeCp 0 (cesu8Codepoints source) bom

/-- The arms of `encode_str_to_bytes` for `utf-8` and `utf-8-sig`. -/
def encodeUtf8Codec (source : List ℕ) (codecName : String) (bom : List ℕ) :
    Except PyError (List ℕ) :=
  -- a string with no `0xED` byte holds no surrogate
  if !source.contains 0xED then .ok (bom ++ source)
  else encodeUtfSurrogateAware source codecName bom encodeUtf8

/-- `char::encode_utf16`. -/
def encodeUtf16 (cp : ℕ) : List ℕ :=
  if cp < 0x10000 then [cp] else [0xD800+(cp-0x10000)/1024, 0xDC00+(cp-0x10000) % 1024]

def encodeCpUtf16 (bigEndian : Bool) (cp : ℕ) : List ℕ :=
  (encodeUtf16 cp).flatMap (toBytes bigEndian 2)

/-! ## Decoding -/

def decodeUtf8WithErrors (bytes : List ℕ) (e : Utf8Error) (codecName : String) : PyError :=
  let start := e.validUpTo
  let stop := start+e.errorLen.getD (bytes.length-start)
  let b := bytes.getD start 0
  let reason :=
    if e.errorLen.isNone then "unexpected end of data"
    else if 0xC2 ≤ b ∧ b ≤ 0xF4 then "invalid continuation byte"
    else "invalid start byte"
  .unicodeDecodeError codecName bytes start stop reason

def decodeUtf8 (bytes : List ℕ) (codecName : String) : Except PyError (List ℕ) :=
  match fromUtf8 bytes with
  | .ok s => .ok s
  | .error e => .error (decodeUtf8WithErrors bytes e codecName)

def decodeUtf8Sig (bytes : List ℕ) : Except PyError (List ℕ) :=
  let payload := if [0xEF, 0xBB, 0xBF].isPrefixOf bytes then bytes.drop 3 else bytes
  decodeUtf8 payload "utf-8-sig"

/-- The scalar value of a surrogate pair. -/
def joinSurrogates (u low : ℕ) : ℕ := 0x10000+(u-0xD800)*1024+(low-0xDC00)

def decodeUtf16Units (rawBytes : List ℕ) (bomOffset : ℕ) (codecName : String) (i : ℕ) :
    List ℕ → List ℕ → Except PyError (List ℕ)
  | [], out => .ok out
  | u::units, out =>
    if isHighSurrogate u then
      match units with
      | [] => .error (.unicodeDecodeError codecName rawBytes (bomOffset+i*2) (bomOffset+i*2+2)
          "unexpected end of data")
      | low::units =>
        if isLowSurrogate low then
          decodeUtf16Units rawBytes bomOffset codecName (i+2) units
            (out ++ encodeUtf8 (joinSurrogates u low))
        else .error (.unicodeDecodeError codecName rawBytes (bomOffset+i*2) (bomOffset+i*2+2)
          "illegal UTF-16 surrogate")
    else if isLowSurrogate u then
      .error (.unicodeDecodeError codecName rawBytes (bomOffset+i*2) (bomOffset+i*2+2)
        "illegal encoding")
    else decodeUtf16Units rawBytes bomOffset codecName (i+1) units (out ++ encodeUtf8 u)

def decodeUtf16 (bytes originalBytes : List ℕ) (bomOffset : ℕ) (bigEndian : Bool) :
    Except PyError (List ℕ) :=
  let codecName := if bigEndian then "utf-16-be" else "utf-16-le"
  if bytes.length % 2 ≠ 0 then
    .error (.unicodeDecodeError codecName originalBytes (bomOffset+bytes.length-1)
      (bomOffset+bytes.length) "truncated data")
  else
    decodeUtf16Units originalBytes bomOffset codecName 0
      ((asChunks 2 bytes).1.map (fromBytes bigEndian)) []

/-- `utf-16` with the byte order that the mark gives, little-endian without one. -/
def decodeUtf16Bom (bytes : List ℕ) : Except PyError (List ℕ) :=
  if [0xFF, 0xFE].isPrefixOf bytes then decodeUtf16 (bytes.drop 2) bytes 2 false
  else if [0xFE, 0xFF].isPrefixOf bytes then decodeUtf16 (bytes.drop 2) bytes 2 true
  else decodeUtf16 bytes bytes 0 false

/-- `char::from_u32`. -/
def isChar (cp : ℕ) : Bool := cp < 0x110000 && !isSurrogate cp

def decodeUtf32Chunks (originalBytes : List ℕ) (bomOffset : ℕ) (codecName : String)
    (bigEndian : Bool) (i : ℕ) : List (List ℕ) → List ℕ → Except PyError (List ℕ)
  | [], out => .ok out
  | chunk::chunks, out =>
    let cp := fromBytes bigEndian chunk
    if isChar cp then
      decodeUtf32Chunks originalBytes bomOffset codecName bigEndian (i+1) chunks
        (out ++ encodeUtf8 cp)
    else .error (.unicodeDecodeError codecName originalBytes (bomOffset+i*4) (bomOffset+i*4+4)
      "code point not in range(0x110000)")

def decodeUtf32 (bytes originalBytes : List ℕ) (bomOffset : ℕ) (bigEndian : Bool) :
    Except PyError (List ℕ) := do
  let codecName := if bigEndian then "utf-32-be" else "utf-32-le"
  let (chunks, remainder) := asChunks 4 bytes
  let out ← decodeUtf32Chunks originalBytes bomOffset codecName bigEndian 0 chunks []
  -- whole chunks are reported first
  if !remainder.isEmpty then
    .error (.unicodeDecodeError codecName originalBytes (bomOffset+(bytes.length-remainder.length))
      (bomOffset+bytes.length) "truncated data")
  else .ok out

def decodeUtf32Bom (bytes : List ℕ) : Except PyError (List ℕ) :=
  if [0xFF, 0xFE, 0, 0].isPrefixOf bytes then decodeUtf32 (bytes.drop 4) bytes 4 false
  else if [0, 0, 0xFE, 0xFF].isPrefixOf bytes then decodeUtf32 (bytes.drop 4) bytes 4 true
  else decodeUtf32 bytes bytes 0 false

/-! ## Round trips -/

/-- A string without surrogates, as `str::chars` may walk it. -/
def Scalars (cps : List ℕ) : Prop := ∀ cp ∈ cps, cp < 0x110000 ∧ isSurrogate cp = false

theorem Scalars.tail {cp : ℕ} {cps : List ℕ} (h : Scalars (cp::cps)) : Scalars cps :=
  fun c hc => h c (List.mem_cons_of_mem cp hc)

theorem Scalars.bytes_cons {cp : ℕ} {cps : List ℕ} (h : Scalars (cp::cps)) :
    stringBytes (cp::cps) = encodeUtf8 cp ++ stringBytes cps := by
  rw [stringBytes, List.flatMap_cons, cesu8EncodeCodepoint_scalar (h cp List.mem_cons_self).2]
  rfl

theorem Scalars.bytes {cps : List ℕ} (h : Scalars cps) :
    cps.flatMap encodeUtf8 = stringBytes cps := by
  induction cps with
  | nil => rfl
  | cons cp cps ih => rw [List.flatMap_cons, h.bytes_cons, ih h.tail]

theorem encodeCodepoints_scalars (source : List ℕ) (codecName : String) (encodeCp : ℕ → List ℕ)
    (idx : ℕ) {cps : List ℕ} (h : Scalars cps) (out : List ℕ) :
    encodeCodepoints source codecName encodeCp idx cps out =
      .ok (out ++ cps.flatMap encodeCp) := by
  induction cps generalizing idx out with
  | nil => rw [encodeCodepoints, List.flatMap_nil, List.append_nil]
  | cons cp cps ih =>
    have hcp := (h cp List.mem_cons_self).2
    rw [encodeCodepoints, hcp, Bool.not_false, if_pos rfl, ih _ h.tail, List.flatMap_cons,
      List.append_assoc]

theorem encodeUtfSurrogateAware_scalars (s : PyStr) (h : Scalars s.codepoints)
    (codecName : String) (bom : List ℕ) (encodeCp : ℕ → List ℕ) :
    encodeUtfSurrogateAware s.bytes codecName bom encodeCp =
      .ok (bom ++ s.codepoints.flatMap encodeCp) := by
  rw [encodeUtfSurrogateAware, cesu8Codepoints_bytes]
  exact encodeCodepoints_scalars s.bytes codecName encodeCp 0 h bom

/-- Both arms of the UTF-8 encoder copy the stored bytes. -/
theorem encodeUtf8Codec_scalars (s : PyStr) (h : Scalars s.codepoints) (codecName : String)
    (bom : List ℕ) : encodeUtf8Codec s.bytes codecName bom = .ok (bom ++ s.bytes) := by
  rw [encodeUtf8Codec]
  by_cases hfast : (!s.bytes.contains 0xED) = true
  · rw [if_pos hfast]
  · rw [if_neg hfast, encodeUtfSurrogateAware_scalars s h, h.bytes]
    rfl

theorem decodeUtf8_scalars {cps : List ℕ} (h : Scalars cps) (codecName : String) :
    decodeUtf8 (stringBytes cps) codecName = .ok (stringBytes cps) := by
  rw [decodeUtf8, fromUtf8_bytes (fun cp hcp => (h cp hcp).1) (fun cp hcp => (h cp hcp).2)]

theorem isPrefixOf_append (bom bytes : List ℕ) : bom.isPrefixOf (bom ++ bytes) = true :=
  List.isPrefixOf_iff_prefix.mpr (List.prefix_append bom bytes)

theorem decodeUtf8Sig_scalars {cps : List ℕ} (h : Scalars cps) :
    decodeUtf8Sig ([0xEF, 0xBB, 0xBF] ++ stringBytes cps) = .ok (stringBytes cps) := by
  rw [decodeUtf8Sig, if_pos (isPrefixOf_append _ _)]
  exact decodeUtf8_scalars h "utf-8-sig"

theorem encodeUtf16_length {cp : ℕ} (h : cp < 0x110000) :
    ∀ u ∈ encodeUtf16 cp, u < 256^2 := by
  intro u hu
  rw [encodeUtf16] at hu
  split_ifs at hu with hcp
  · rw [List.mem_singleton] at hu
    omega
  · rcases List.mem_pair.mp hu with hu | hu
    all_goals omega

/-- A pair is joined by the arithmetic that split it. -/
theorem joinSurrogates_split {cp : ℕ} (hcp : 0x10000 ≤ cp) :
    joinSurrogates (0xD800+(cp-0x10000)/1024) (0xDC00+(cp-0x10000) % 1024) = cp := by
  unfold joinSurrogates
  omega

theorem decodeUtf16Units_encode (rawBytes : List ℕ) (bomOffset : ℕ) (codecName : String) (i : ℕ)
    {cps : List ℕ} (h : Scalars cps) (out : List ℕ) :
    decodeUtf16Units rawBytes bomOffset codecName i (cps.flatMap encodeUtf16) out =
      .ok (out ++ stringBytes cps) := by
  induction cps generalizing i out with
  | nil => rw [List.flatMap_nil, decodeUtf16Units, stringBytes, List.flatMap_nil, List.append_nil]
  | cons cp cps ih =>
    obtain ⟨hmax, hs⟩ := h cp List.mem_cons_self
    rw [h.bytes_cons, ← List.append_assoc, List.flatMap_cons, encodeUtf16]
    by_cases hcp : cp < 0x10000
    · have hhigh : isHighSurrogate cp = false := by
        simp only [isSurrogate, isHighSurrogate, Bool.and_eq_false_iff,
          decide_eq_false_iff_not] at hs ⊢
        omega
      have hlow : isLowSurrogate cp = false := by
        simp only [isSurrogate, isLowSurrogate, Bool.and_eq_false_iff,
          decide_eq_false_iff_not] at hs ⊢
        omega
      rw [if_pos hcp, List.singleton_append, decodeUtf16Units.eq_def]
      simp only [hhigh, hlow, Bool.false_eq_true, if_false]
      exact ih (i+1) h.tail (out ++ encodeUtf8 cp)
    · have hhigh : isHighSurrogate (0xD800+(cp-0x10000)/1024) = true := by
        simp only [isHighSurrogate, Bool.and_eq_true, decide_eq_true_eq]
        omega
      have hlow : isLowSurrogate (0xDC00+(cp-0x10000) % 1024) = true := by
        simp only [isLowSurrogate, Bool.and_eq_true, decide_eq_true_eq]
        omega
      rw [if_neg hcp, List.cons_append, List.singleton_append, decodeUtf16Units, if_pos hhigh,
        if_pos hlow, joinSurrogates_split (by omega)]
      exact ih (i+2) h.tail (out ++ encodeUtf8 cp)

theorem decodeUtf16_encode (originalBytes : List ℕ) (bomOffset : ℕ) (bigEndian : Bool)
    {cps : List ℕ} (h : Scalars cps) :
    decodeUtf16 (cps.flatMap (encodeCpUtf16 bigEndian)) originalBytes bomOffset bigEndian =
      .ok (stringBytes cps) := by
  have hchunks : cps.flatMap (encodeCpUtf16 bigEndian) =
      ((cps.flatMap encodeUtf16).map (toBytes bigEndian 2)).flatten := by
    rw [← List.flatMap_def, List.flatMap_assoc]
    rfl
  have hmod : (cps.flatMap (encodeCpUtf16 bigEndian)).length % 2 = 0 := by
    rw [hchunks, List.length_flatten]
    simp [Function.comp_def]
  have hwhole : asChunks 2 ((cps.flatMap encodeUtf16).map (toBytes bigEndian 2)).flatten = _ :=
    asChunks_flatten (by omega) fun chunk hchunk => by
      obtain ⟨u, _, rfl⟩ := List.mem_map.mp hchunk
      exact toBytes_length bigEndian 2 u
  rw [decodeUtf16, if_neg (by omega), hchunks, hwhole, List.map_map]
  rw [show (cps.flatMap encodeUtf16).map (fromBytes bigEndian ∘ toBytes bigEndian 2) =
    cps.flatMap encodeUtf16 from ?_]
  · exact decodeUtf16Units_encode originalBytes bomOffset _ 0 h []
  · refine (List.map_congr_left fun u hu => ?_).trans (List.map_id _)
    obtain ⟨cp, hcp, hu⟩ := List.mem_flatMap.mp hu
    exact fromBytes_toBytes bigEndian (encodeUtf16_length (h cp hcp).1 u hu)

theorem decodeUtf16Bom_encode {cps : List ℕ} (h : Scalars cps) :
    decodeUtf16Bom ([0xFF, 0xFE] ++ cps.flatMap (encodeCpUtf16 false)) =
      .ok (stringBytes cps) := by
  rw [decodeUtf16Bom, if_pos (isPrefixOf_append _ _)]
  exact decodeUtf16_encode _ 2 false h

theorem decodeUtf32Chunks_encode (originalBytes : List ℕ) (bomOffset : ℕ) (codecName : String)
    (bigEndian : Bool) (i : ℕ) {cps : List ℕ} (h : Scalars cps) (out : List ℕ) :
    decodeUtf32Chunks originalBytes bomOffset codecName bigEndian i
        (cps.map (toBytes bigEndian 4)) out = .ok (out ++ stringBytes cps) := by
  induction cps generalizing i out with
  | nil => rw [List.map_nil, decodeUtf32Chunks, stringBytes, List.flatMap_nil, List.append_nil]
  | cons cp cps ih =>
    obtain ⟨hmax, hs⟩ := h cp List.mem_cons_self
    have hchar : isChar cp = true := by simp [isChar, hmax, hs]
    rw [h.bytes_cons, ← List.append_assoc, List.map_cons, decodeUtf32Chunks,
      fromBytes_toBytes bigEndian (by omega)]
    simp only [hchar, if_true]
    exact ih (i+1) h.tail (out ++ encodeUtf8 cp)

theorem decodeUtf32_encode (originalBytes : List ℕ) (bomOffset : ℕ) (bigEndian : Bool)
    {cps : List ℕ} (h : Scalars cps) :
    decodeUtf32 (cps.flatMap (toBytes bigEndian 4)) originalBytes bomOffset bigEndian =
      .ok (stringBytes cps) := by
  have hwhole := @asChunks_flatten 4 (by omega) (cps.map (toBytes bigEndian 4)) (by simp)
  rw [decodeUtf32, List.flatMap_def, hwhole]
  simp only [decodeUtf32Chunks_encode originalBytes bomOffset _ bigEndian 0 h []]
  rfl

theorem decodeUtf32Bom_encode {cps : List ℕ} (h : Scalars cps) :
    decodeUtf32Bom ([0xFF, 0xFE, 0, 0] ++ cps.flatMap (toBytes false 4)) =
      .ok (stringBytes cps) := by
  rw [decodeUtf32Bom, if_pos (isPrefixOf_append _ _)]
  exact decodeUtf32_encode _ 4 false h

end Pyrust.WideCodecs
