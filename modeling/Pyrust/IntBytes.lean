import Pyrust.TwosComplement
import Pyrust.WideCodecs

/-!
# `int.to_bytes` and `int.from_bytes`

A machine integer is converted by its eight bytes, with range limits computed by
shifts for fewer bytes. An integer of any size is converted by the shortest bytes
that the big-integer library gives for it. `BigIntBytes` is what the code relies
on of that library.
-/

set_option autoImplicit false

namespace Pyrust.IntBytes

open TwosComplement WideCodecs

/-- The byte conversions of the big-integer library: the shortest non-empty bytes, least
significant first, of a magnitude and of a two's complement, and the value of bytes in either
order. -/
structure BigIntBytes where
  toBytesLe : ℤ → List ℕ
  toSignedBytesLe : ℤ → List ℕ
  fromBytesLe : List ℕ → ℤ
  fromBytesBe : List ℕ → ℤ
  fromSignedBytesLe : List ℕ → ℤ
  fromSignedBytesBe : List ℕ → ℤ
  toBytesLe_byte : ∀ n, ∀ b ∈ toBytesLe n, b < 256
  toBytesLe_value : ∀ n, unsignedValue (toBytesLe n) = |n|
  toBytesLe_shortest : ∀ n bs, bs ≠ [] → (∀ b ∈ bs, b < 256) → unsignedValue bs = |n| →
    (toBytesLe n).length ≤ bs.length
  toSignedBytesLe_byte : ∀ n, ∀ b ∈ toSignedBytesLe n, b < 256
  toSignedBytesLe_value : ∀ n, signedValue (toSignedBytesLe n) = n
  toSignedBytesLe_shortest : ∀ n bs, bs ≠ [] → (∀ b ∈ bs, b < 256) → signedValue bs = n →
    (toSignedBytesLe n).length ≤ bs.length
  fromBytesLe_value : ∀ bs, (∀ b ∈ bs, b < 256) → fromBytesLe bs = unsignedValue bs
  fromBytesBe_value : ∀ bs, (∀ b ∈ bs, b < 256) → fromBytesBe bs = unsignedValue bs.reverse
  fromSignedBytesLe_value : ∀ bs, (∀ b ∈ bs, b < 256) → fromSignedBytesLe bs = signedValue bs
  fromSignedBytesBe_value : ∀ bs, (∀ b ∈ bs, b < 256) →
    fromSignedBytesBe bs = signedValue bs.reverse

/-- `OverflowError` with its message. -/
structure OverflowError where
  message : String
  deriving DecidableEq

def negativeUnsigned : OverflowError := ⟨"can't convert negative int to unsigned"⟩

def tooBig : OverflowError := ⟨"int too big to convert"⟩

abbrev I64 := {n : ℤ // -2^63 ≤ n ∧ n < 2^63}

/-- The two representations of an integer. -/
inductive PyInt where
  | int (n : I64)
  | bigInt (n : ℤ)

def PyInt.value : PyInt → ℤ
  | .int n => n.1
  | .bigInt n => n

/-! ## The code -/

/-- The buffer: the bytes as far as they go, and the filling byte behind them. -/
def fillBuf (bytes : List ℕ) (length fill : ℕ) : List ℕ :=
  (List.range length).map fun i => if h : i < bytes.length then bytes[i] else fill

def ordered (bigEndian : Bool) (buf : List ℕ) : List ℕ := if bigEndian then buf.reverse else buf

/-- `sign_fill`. -/
def signFill (n : ℤ) : ℕ := if n < 0 then 0xFF else 0

/-- `n as u64`. -/
def asU64 (n : ℤ) : ℕ := (n % 2^64).toNat

/-- `int_i64_to_bytes`. -/
def intI64ToBytes (n : I64) (length : ℕ) (bigEndian signed : Bool) :
    Except OverflowError (List ℕ) :=
  if signed = false ∧ n.1 < 0 then .error negativeUnsigned
  else if n.1 = 0 then .ok (List.replicate length 0)
  else if signed then
    if length = 0 then .error tooBig
    else if length < 8 ∧ (2^(8*length-1)-1 < n.1 ∨ n.1 < -2^(8*length-1)) then .error tooBig
    else .ok (ordered bigEndian
      (fillBuf (toLeBytes 8 (asU64 n.1)) length (signFill n.1)))
  else if length = 0 ∨ (length < 8 ∧ 2^(8*length) ≤ asU64 n.1) then .error tooBig
  else .ok (ordered bigEndian (fillBuf (toLeBytes 8 (asU64 n.1)) length 0))

section conversions
variable (B : BigIntBytes)

/-- `bigint_to_bytes`. -/
def bigintToBytes (n : ℤ) (length : ℕ) (bigEndian signed : Bool) :
    Except OverflowError (List ℕ) :=
  if signed = false ∧ n < 0 then .error negativeUnsigned
  else if n = 0 then .ok (List.replicate length 0)
  else if signed then
    let leBytes := B.toSignedBytesLe n
    if length < leBytes.length then .error tooBig
    else .ok (ordered bigEndian (fillBuf leBytes length (signFill n)))
  else
    let leBytes := B.toBytesLe n
    if length < leBytes.length then .error tooBig
    else .ok (ordered bigEndian (fillBuf leBytes length 0))

/-- The dispatch of `int_to_bytes` on the receiver. -/
def intToBytes (n : PyInt) (length : ℕ) (bigEndian signed : Bool) :
    Except OverflowError (List ℕ) :=
  match n with
  | .int n => intI64ToBytes n length bigEndian signed
  | .bigInt n => bigintToBytes B n length bigEndian signed

/-- An `i64` where the integer fits. -/
def ofBigInt (n : ℤ) : PyInt := if h : -2^63 ≤ n ∧ n < 2^63 then .int ⟨n, h⟩ else .bigInt n

/-- `int_from_bytes`. -/
def intFromBytes (data : List ℕ) (bigEndian signed : Bool) : PyInt :=
  if data.isEmpty then ofBigInt 0
  else ofBigInt
    (if signed then if bigEndian then B.fromSignedBytesBe data else B.fromSignedBytesLe data
    else if bigEndian then B.fromBytesBe data else B.fromBytesLe data)

end conversions

/-! ## One specification of both -/

/-- The lowest bytes of an integer that fits, and otherwise the reason why it does not. -/
def toBytesSpec (n : ℤ) (length : ℕ) (bigEndian signed : Bool) : Except OverflowError (List ℕ) :=
  if Fits signed length n then .ok (ordered bigEndian (intBytes length n))
  else if signed = false ∧ n < 0 then .error negativeUnsigned
  else .error tooBig

section buffers
variable {bytes : List ℕ} {length fill k : ℕ} {n : ℤ}

theorem fillBuf_short (h : length ≤ bytes.length) :
    fillBuf bytes length fill = bytes.take length := by
  refine List.ext_getElem (by simp [fillBuf, h]) fun i hi _ => ?_
  have hlt : i < length := by simpa [fillBuf] using hi
  simp [fillBuf, Nat.lt_of_lt_of_le hlt h]

theorem fillBuf_long (h : bytes.length ≤ length) :
    fillBuf bytes length fill = bytes ++ List.replicate (length-bytes.length) fill := by
  refine List.ext_getElem (by simp [fillBuf, h]) fun i hi _ => ?_
  by_cases hlt : i < bytes.length
  · simp [fillBuf, hlt]
  · simp [fillBuf, hlt, List.getElem_append_right (Nat.le_of_not_lt hlt)]

theorem toLeBytes_eq (k : ℕ) (v : ℕ) : toLeBytes k v = intBytes k v := by
  induction k generalizing v with
  | zero => rfl
  | succ k ih =>
    rw [toLeBytes, intBytes, ih]
    congr 1

theorem toLeBytes_asU64 (n : ℤ) : toLeBytes 8 (asU64 n) = intBytes 8 n := by
  have hmod : ((asU64 n : ℕ) : ℤ) = n % 2^64 := Int.toNat_of_nonneg (by omega)
  have hsplit : n = n % 2^64+(n/2^64)*256^8 := by omega
  rw [toLeBytes_eq, hmod]
  exact (intBytes_add_mul 8 (n % 2^64) (n/2^64)).symm.trans (congrArg _ hsplit.symm)

/-- The buffer of a machine integer. -/
theorem fillBuf_machine (hlo : -2^63 ≤ n) (hhi : n < 2^63) :
    fillBuf (toLeBytes 8 (asU64 n)) length (signFill n) = intBytes length n := by
  rw [toLeBytes_asU64]
  rcases Nat.le_total length 8 with hle | hle
  · rw [fillBuf_short (by rwa [length_intBytes]), take_intBytes hle]
  · obtain ⟨j, rfl⟩ := Nat.exists_eq_add_of_le hle
    rw [fillBuf_long (by rwa [length_intBytes]), length_intBytes, Nat.add_sub_cancel_left,
      intBytes_extend (by omega) (by omega), signFill]

theorem fillBuf_machine_unsigned (hlo : 0 ≤ n) (hhi : n < 2^63) :
    fillBuf (toLeBytes 8 (asU64 n)) length 0 = intBytes length n := by
  have h := @fillBuf_machine length n (by omega) hhi
  rwa [signFill, if_neg (by omega)] at h

/-- The buffer of the shortest bytes of an integer. -/
theorem fillBuf_shortest (h : bytes.length ≤ length) (hbytes : intBytes bytes.length n = bytes)
    (hlo : -256^bytes.length ≤ n) (hhi : n < 256^bytes.length) :
    fillBuf bytes length (signFill n) = intBytes length n := by
  obtain ⟨j, rfl⟩ := Nat.exists_eq_add_of_le h
  rw [fillBuf_long h, intBytes_extend hlo hhi, hbytes,
    Nat.add_sub_cancel_left, signFill]

theorem ordered_ordered (bigEndian : Bool) (buf : List ℕ) :
    ordered bigEndian (ordered bigEndian buf) = buf := by
  cases bigEndian
  · rfl
  · exact List.reverse_reverse buf

theorem pow_shift (k : ℕ) : (2 : ℤ)^(8*k) = 256^k := by
  rw [pow_mul]
  norm_num

theorem pow_shift_half (hk : k ≠ 0) : 2*(2 : ℤ)^(8*k-1) = 256^k := by
  rw [← pow_shift, ← pow_succ', Nat.sub_add_cancel (by omega)]

theorem fits_zero (signed : Bool) (length : ℕ) : Fits signed length 0 := by
  have hpos := pow_pos_256 length
  cases signed with
  | false => simp [Fits]
  | true =>
    by_cases h : length = 0
    · rw [h]
      rfl
    · rw [fits_signed_iff h]
      omega

theorem toBytesSpec_zero (length : ℕ) (bigEndian signed : Bool) :
    toBytesSpec 0 length bigEndian signed = .ok (List.replicate length 0) := by
  rw [toBytesSpec, if_pos (fits_zero signed length), intBytes_zero]
  cases bigEndian
  · rfl
  · exact congrArg Except.ok List.reverse_replicate

theorem fits_length_zero (signed : Bool) : Fits signed 0 n ↔ n = 0 := by
  cases signed with
  | false =>
    simp only [Fits, Bool.false_eq_true, if_false, pow_zero]
    omega
  | true => simp [Fits]

theorem not_fits_negative (h : n < 0) : ¬ Fits false length n := by
  simp only [Fits, Bool.false_eq_true, if_false]
  omega

theorem toBytesSpec_negative (bigEndian : Bool) (h : n < 0) :
    toBytesSpec n length bigEndian false = .error negativeUnsigned := by
  rw [toBytesSpec, if_neg (not_fits_negative h), if_pos ⟨rfl, h⟩]

theorem toBytesSpec_tooBig {bigEndian signed : Bool} (h : ¬ Fits signed length n)
    (hsign : ¬ (signed = false ∧ n < 0)) :
    toBytesSpec n length bigEndian signed = .error tooBig := by
  rw [toBytesSpec, if_neg h, if_neg hsign]

end buffers

/-! ## Both implementations meet it -/

section implementations
variable {length : ℕ} {bigEndian signed : Bool}

/-- The shifted limits of a machine integer in fewer than eight bytes are those of its range. -/
theorem fits_signed_machine (n : I64) (hl : length ≠ 0) : Fits true length n.1 ↔
    ¬ (length < 8 ∧ (2^(8*length-1)-1 < n.1 ∨ n.1 < -2^(8*length-1))) := by
  obtain ⟨n, hlo, hhi⟩ := n
  have hhalf := pow_shift_half hl
  rw [fits_signed_iff hl]
  dsimp only
  by_cases hshort : length < 8
  · omega
  · have hpow : (256 : ℤ)^8 ≤ 256^length := pow_le_pow_right₀ (by decide) (by omega)
    omega

theorem fits_unsigned_machine (n : I64) (hn : 0 ≤ n.1) :
    Fits false length n.1 ↔ ¬ (length < 8 ∧ 2^(8*length) ≤ asU64 n.1) := by
  obtain ⟨n, hlo, hhi⟩ := n
  dsimp only at hn ⊢
  have hvalue : ((asU64 n : ℕ) : ℤ) = n := by
    rw [asU64, Int.toNat_of_nonneg (by omega), Int.emod_eq_of_lt hn (by omega)]
  have hlimit : 2^(8*length) ≤ asU64 n ↔ 256^length ≤ n := by
    have hcast : 2^(8*length) ≤ asU64 n ↔ ((2^(8*length) : ℕ) : ℤ) ≤ asU64 n := Int.ofNat_le.symm
    rw [hcast, hvalue, ← pow_shift]
    norm_cast
  rw [hlimit]
  simp only [Fits, Bool.false_eq_true, if_false]
  by_cases hshort : length < 8
  · omega
  · have hpow : (256 : ℤ)^8 ≤ 256^length := pow_le_pow_right₀ (by decide) (by omega)
    omega

theorem intI64ToBytes_eq (n : I64) :
    intI64ToBytes n length bigEndian signed = toBytesSpec n.1 length bigEndian signed := by
  rw [intI64ToBytes]
  split_ifs with hsign hzero hs hl hlimits hlimits
  · rw [hsign.1, toBytesSpec_negative bigEndian hsign.2]
  · rw [hzero, toBytesSpec_zero]
  · rw [hl, toBytesSpec_tooBig (mt (fits_length_zero signed).mp hzero) hsign]
  · have hfits : ¬ Fits true length n.1 := fun h => (fits_signed_machine n hl).mp h hlimits
    rw [hs, toBytesSpec_tooBig hfits (by simp)]
  · have hfits := (fits_signed_machine n hl).mpr hlimits
    rw [hs, toBytesSpec, if_pos hfits, fillBuf_machine n.2.1 n.2.2]
  · have hunsigned : signed = false := Bool.eq_false_iff.mpr hs
    have hnonneg : 0 ≤ n.1 := by
      by_contra hneg
      exact hsign ⟨hunsigned, by omega⟩
    have hfits : ¬ Fits signed length n.1 := by
      rcases hlimits with hl | hlimits
      · rw [hl]
        exact mt (fits_length_zero signed).mp hzero
      · rw [hunsigned]
        exact fun h => (fits_unsigned_machine n hnonneg).mp h hlimits
    rw [toBytesSpec_tooBig hfits hsign]
  · have hunsigned : signed = false := Bool.eq_false_iff.mpr hs
    have hnonneg : 0 ≤ n.1 := by
      by_contra hneg
      exact hsign ⟨hunsigned, by omega⟩
    have hfits : Fits false length n.1 :=
      (fits_unsigned_machine n hnonneg).mpr fun h => hlimits (Or.inr h)
    rw [hunsigned, toBytesSpec, if_pos hfits, fillBuf_machine_unsigned hnonneg n.2.2]

/-- The shortest signed bytes are as many as the integer needs. -/
theorem toSignedBytesLe_length (B : BigIntBytes) {n : ℤ} (hn : n ≠ 0) :
    (B.toSignedBytesLe n).length ≤ length ↔ Fits true length n := by
  have hbytes := B.toSignedBytesLe_byte n
  have hvalue := B.toSignedBytesLe_value n
  constructor
  · intro h
    have hfits := fits_signedValue hbytes
    rw [hvalue] at hfits
    exact hfits.mono h
  · intro h
    have hl : length ≠ 0 := fun hl => hn ((fits_length_zero true).mp (hl ▸ h))
    have hne : intBytes length n ≠ [] := by
      intro hnil
      have hlen := length_intBytes length n
      rw [hnil] at hlen
      exact hl hlen.symm
    have := B.toSignedBytesLe_shortest n (intBytes length n) hne intBytes_lt
      (signedValue_intBytes h)
    rwa [length_intBytes] at this

theorem toBytesLe_length (B : BigIntBytes) {n : ℤ} (hn : 0 < n) :
    (B.toBytesLe n).length ≤ length ↔ Fits false length n := by
  have hbytes := B.toBytesLe_byte n
  have hvalue := B.toBytesLe_value n
  rw [abs_of_pos hn] at hvalue
  constructor
  · intro h
    have hfits := fits_unsignedValue hbytes
    rw [hvalue] at hfits
    exact hfits.mono h
  · intro h
    have hl : length ≠ 0 := fun hl => by
      have := (fits_length_zero false).mp (hl ▸ h)
      omega
    have hne : intBytes length n ≠ [] := by
      intro hnil
      have hlen := length_intBytes length n
      rw [hnil] at hlen
      exact hl hlen.symm
    have := B.toBytesLe_shortest n (intBytes length n) hne intBytes_lt
      ((unsignedValue_intBytes h).trans (abs_of_pos hn).symm)
    rwa [length_intBytes] at this

theorem fillBuf_signed (B : BigIntBytes) {n : ℤ} (hn : n ≠ 0)
    (h : (B.toSignedBytesLe n).length ≤ length) :
    fillBuf (B.toSignedBytesLe n) length (signFill n) = intBytes length n := by
  have hbytes := B.toSignedBytesLe_byte n
  have hvalue := B.toSignedBytesLe_value n
  have hsame := intBytes_signedValue hbytes
  have hfits := (toSignedBytesLe_length B hn).mp (Nat.le_refl (B.toSignedBytesLe n).length)
  have hl : (B.toSignedBytesLe n).length ≠ 0 := fun hl =>
    hn ((fits_length_zero true).mp (hl ▸ hfits))
  have hbounds := signed_bounds hl hfits
  have hpos := pow_pos_256 (B.toSignedBytesLe n).length
  rw [hvalue] at hsame
  exact fillBuf_shortest h hsame (by omega) (by omega)

theorem fillBuf_unsigned (B : BigIntBytes) {n : ℤ} (hn : 0 < n)
    (h : (B.toBytesLe n).length ≤ length) :
    fillBuf (B.toBytesLe n) length 0 = intBytes length n := by
  have hbytes := B.toBytesLe_byte n
  have hvalue := B.toBytesLe_value n
  rw [abs_of_pos hn] at hvalue
  have hsame := intBytes_unsigned hbytes
  have hlt := unsignedValue_lt hbytes
  rw [hvalue] at hsame hlt
  have hfill := fillBuf_shortest h hsame (by omega) hlt
  rwa [signFill, if_neg (by omega)] at hfill

theorem bigintToBytes_eq (B : BigIntBytes) (n : ℤ) :
    bigintToBytes B n length bigEndian signed = toBytesSpec n length bigEndian signed := by
  rw [bigintToBytes]
  dsimp only
  split_ifs with hsign hzero hs hlen hlen
  · rw [hsign.1, toBytesSpec_negative bigEndian hsign.2]
  · rw [hzero, toBytesSpec_zero]
  · have hfits : ¬ Fits true length n := fun h => by
      have := (toSignedBytesLe_length B hzero).mpr h
      omega
    rw [hs, toBytesSpec_tooBig hfits (by simp)]
  · have hle := Nat.le_of_not_lt hlen
    rw [hs, toBytesSpec, if_pos ((toSignedBytesLe_length B hzero).mp hle),
      fillBuf_signed B hzero hle]
  · have hunsigned : signed = false := Bool.eq_false_iff.mpr hs
    have hpos : 0 < n := by
      by_contra hle
      exact hsign ⟨hunsigned, by omega⟩
    have hfits : ¬ Fits false length n := fun h => by
      have := (toBytesLe_length B hpos).mpr h
      omega
    rw [hunsigned, toBytesSpec_tooBig hfits (by omega)]
  · have hunsigned : signed = false := Bool.eq_false_iff.mpr hs
    have hpos : 0 < n := by
      by_contra hle
      exact hsign ⟨hunsigned, by omega⟩
    have hle := Nat.le_of_not_lt hlen
    rw [hunsigned, toBytesSpec, if_pos ((toBytesLe_length B hpos).mp hle),
      fillBuf_unsigned B hpos hle]

theorem intToBytes_eq (B : BigIntBytes) (n : PyInt) :
    intToBytes B n length bigEndian signed = toBytesSpec n.value length bigEndian signed := by
  cases n with
  | int n => exact intI64ToBytes_eq n
  | bigInt n => exact bigintToBytes_eq B n

/-! ## The way back -/

/-- The value of bytes, least significant first. -/
def valueOf (signed : Bool) (bs : List ℕ) : ℤ :=
  if signed then signedValue bs else unsignedValue bs

theorem value_ofBigInt (n : ℤ) : (ofBigInt n).value = n := by
  rw [ofBigInt]
  split_ifs <;> rfl

theorem value_intFromBytes (B : BigIntBytes) {data : List ℕ} (h : ∀ b ∈ data, b < 256) :
    (intFromBytes B data bigEndian signed).value = valueOf signed (ordered bigEndian data) := by
  rcases data with _ | ⟨b, rest⟩
  · show (ofBigInt 0).value = _
    rw [value_ofBigInt]
    cases bigEndian <;> cases signed <;> rfl
  · rw [intFromBytes, if_neg (by simp), value_ofBigInt]
    cases bigEndian <;> cases signed
    · exact B.fromBytesLe_value _ h
    · exact B.fromSignedBytesLe_value _ h
    · exact B.fromBytesBe_value _ h
    · exact B.fromSignedBytesBe_value _ h

theorem valueOf_intBytes {n : ℤ} (h : Fits signed length n) :
    valueOf signed (intBytes length n) = n := by
  cases signed
  · exact unsignedValue_intBytes h
  · exact signedValue_intBytes h

theorem fits_valueOf {bs : List ℕ} (h : ∀ b ∈ bs, b < 256) :
    Fits signed bs.length (valueOf signed bs) := by
  cases signed
  · exact fits_unsignedValue h
  · exact fits_signedValue h

theorem intBytes_valueOf {bs : List ℕ} (h : ∀ b ∈ bs, b < 256) :
    intBytes bs.length (valueOf signed bs) = bs := by
  cases signed
  · exact intBytes_unsigned h
  · exact intBytes_signedValue h

theorem mem_ordered {buf : List ℕ} {b : ℕ} : b ∈ ordered bigEndian buf ↔ b ∈ buf := by
  cases bigEndian
  · exact Iff.rfl
  · exact List.mem_reverse

theorem length_ordered {buf : List ℕ} : (ordered bigEndian buf).length = buf.length := by
  cases bigEndian
  · rfl
  · exact List.length_reverse

end implementations

/-- The conversions are inverse to each other, accept exactly the integers in range, and do not
depend on the representation. -/
theorem to_bytes_from_bytes (B : BigIntBytes) (bigEndian signed : Bool) :
    (∀ (n : PyInt) (length : ℕ),
      (∃ data, intToBytes B n length bigEndian signed = .ok data) ↔
        Fits signed length n.value) ∧
    (∀ (n : PyInt) (length : ℕ) (data : List ℕ),
      intToBytes B n length bigEndian signed = .ok data →
        data.length = length ∧ (intFromBytes B data bigEndian signed).value = n.value) ∧
    (∀ data : List ℕ, (∀ b ∈ data, b < 256) →
      intToBytes B (intFromBytes B data bigEndian signed) data.length bigEndian signed =
        .ok data) ∧
    (∀ (n : I64) (length : ℕ),
      intI64ToBytes n length bigEndian signed = bigintToBytes B n.1 length bigEndian signed) := by
  refine ⟨fun n length => ?_, fun n length data h => ?_, fun data h => ?_, fun n length => ?_⟩
  · rw [intToBytes_eq, toBytesSpec]
    split_ifs with hfits <;> simp [hfits]
  · rw [intToBytes_eq, toBytesSpec] at h
    split_ifs at h with hfits
    cases h
    have hbytes : ∀ b ∈ ordered bigEndian (intBytes length n.value), b < 256 :=
      fun b hb => intBytes_lt b (mem_ordered.mp hb)
    rw [value_intFromBytes B hbytes, ordered_ordered, valueOf_intBytes hfits, length_ordered,
      length_intBytes]
    exact ⟨rfl, rfl⟩
  · have hbytes : ∀ b ∈ ordered bigEndian data, b < 256 := fun b hb => h b (mem_ordered.mp hb)
    have hfits := @fits_valueOf signed _ hbytes
    have hsame := @intBytes_valueOf signed _ hbytes
    rw [length_ordered] at hfits hsame
    rw [intToBytes_eq, value_intFromBytes B h, toBytesSpec, if_pos hfits, hsame, ordered_ordered]
  · rw [intI64ToBytes_eq, bigintToBytes_eq]

/-! ## The library exists -/

theorem exists_fits (signed : Bool) (n : ℤ) (hn : signed = false → 0 ≤ n) :
    ∃ k, 0 < k ∧ Fits signed k n := by
  have hpow : (n.natAbs+1 : ℤ) ≤ 256^n.natAbs := by
    have hlt : n.natAbs < 256^n.natAbs := Nat.lt_pow_self (by decide)
    exact_mod_cast hlt
  have hstep : (256 : ℤ)^(n.natAbs+1) = 256*256^n.natAbs := by rw [pow_succ, Int.mul_comm]
  refine ⟨n.natAbs+1, Nat.succ_pos _, ?_⟩
  cases signed with
  | false =>
    have := hn rfl
    simp only [Fits, Bool.false_eq_true, if_false]
    omega
  | true =>
    rw [fits_signed_iff (Nat.succ_ne_zero _)]
    omega

/-- The least number of bytes that holds an integer. -/
def shortestLength (signed : Bool) (n : ℤ) (hn : signed = false → 0 ≤ n) : ℕ :=
  Nat.find (exists_fits signed n hn)

theorem fits_shortestLength {signed : Bool} {n : ℤ} (hn : signed = false → 0 ≤ n) :
    Fits signed (shortestLength signed n hn) n := (Nat.find_spec (exists_fits signed n hn)).2

theorem shortestLength_le {signed : Bool} {n : ℤ} (hn : signed = false → 0 ≤ n) {bs : List ℕ}
    (hne : bs ≠ []) (hfits : Fits signed bs.length n) : shortestLength signed n hn ≤ bs.length :=
  Nat.find_min' _ ⟨List.length_pos_iff.mpr hne, hfits⟩

/-- Conversions as the library documents them. -/
def shortestBytes : BigIntBytes where
  toBytesLe n := intBytes (shortestLength false |n| fun _ => abs_nonneg n) |n|
  toSignedBytesLe n := intBytes (shortestLength true n fun h => by cases h) n
  fromBytesLe bs := unsignedValue bs
  fromBytesBe bs := unsignedValue bs.reverse
  fromSignedBytesLe bs := signedValue bs
  fromSignedBytesBe bs := signedValue bs.reverse
  toBytesLe_byte _ _ hb := intBytes_lt _ hb
  toBytesLe_value _ := unsignedValue_intBytes (fits_shortestLength _)
  toBytesLe_shortest n bs hne hb hv := by
    rw [length_intBytes]
    exact shortestLength_le _ hne (hv ▸ fits_unsignedValue hb)
  toSignedBytesLe_byte _ _ hb := intBytes_lt _ hb
  toSignedBytesLe_value _ := signedValue_intBytes (fits_shortestLength _)
  toSignedBytesLe_shortest n bs hne hb hv := by
    rw [length_intBytes]
    exact shortestLength_le _ hne (hv ▸ fits_signedValue hb)
  fromBytesLe_value _ _ := rfl
  fromBytesBe_value _ _ := rfl
  fromSignedBytesLe_value _ _ := rfl
  fromSignedBytesBe_value _ _ := rfl

/-- Two's complement, most significant byte first. -/
theorem to_bytes_from_bytes_shortest :
    (∀ (n : PyInt) (length : ℕ),
      (∃ data, intToBytes shortestBytes n length true true = .ok data) ↔
        Fits true length n.value) ∧
    (∀ (n : PyInt) (length : ℕ) (data : List ℕ),
      intToBytes shortestBytes n length true true = .ok data →
        data.length = length ∧ (intFromBytes shortestBytes data true true).value = n.value) ∧
    (∀ data : List ℕ, (∀ b ∈ data, b < 256) →
      intToBytes shortestBytes (intFromBytes shortestBytes data true true) data.length true true =
        .ok data) ∧
    (∀ (n : I64) (length : ℕ),
      intI64ToBytes n length true true = bigintToBytes shortestBytes n.1 length true true) :=
  to_bytes_from_bytes shortestBytes true true

end Pyrust.IntBytes
