import Pyrust.Binary64

/-!
# Dictionary keys

Keys with the equality and the two hashes the source gives them: the input
fed to the container's hasher, as a list of typed words, and the Python-level
hash. Floats are bit patterns. Strings are the bytes of their backing buffer.
Instances and their precomputed hashes are left out; the stable per-process
hashes of `None` and `Ellipsis` are parameters.
-/

set_option autoImplicit false

namespace Pyrust.Keys
open Pyrust.Binary64

inductive PyKey where
  | int (v : Int64)
  | bigInt (n : ℤ)
  | float (bits : UInt64)
  | str (bytes : List UInt8)
  | bool (b : Bool)
  | none
  | ellipsis
  | frozenSet (items : List PyKey)
  | tuple (items : List PyKey)
  | bytes (b : List UInt8)
  | complex (re im : UInt64)

/-- One call of the hasher. -/
inductive Word where
  | u8 (v : UInt8)
  | i64 (v : Int64)
  | u64 (v : UInt64)
  | usize (v : ℕ)
  | str (bytes : List UInt8)
  | slice (bytes : List UInt8)
  deriving DecidableEq

/-- Hashes derived from the addresses of two statics. -/
structure Sentinels where
  none : Int64
  ellipsis : Int64

def pyHashModulus : ℕ := 2^61-1

def fitsI64 (n : ℤ) : Bool := -2^63 ≤ n && n < 2^63

def avoidMinusOne (h : Int64) : Int64 := if h = -1 then -2 else h

def floatBitsAsExactI64 (bits : UInt64) : Option Int64 :=
  if !isFinite bits || !isIntegral bits then .none
  else if -2^63*one ≤ scaled bits ∧ scaled bits < 2^63*one then some (Int64.ofInt (trunc bits))
  else .none

def pykeyHashBigint (n : ℤ) : Int64 := avoidMinusOne (Int64.ofInt (n.tmod pyHashModulus))

def hashInt (v : Int64) : Int64 := avoidMinusOne (v%Int64.ofNat pyHashModulus)

/-- The identity word rotated right by four bits. -/
def pyHashNan (bits : UInt64) : Int64 := avoidMinusOne (bits >>> 4 ||| bits <<< 60).toInt64

/-- The Mersenne-prime reduction of a finite float: significand, then a power
of two whose exponent counts modulo 61. -/
def reduceFinite (bits : UInt64) : Int64 :=
  let e : ℤ := if biasedExponent bits = 0 then -1074 else biasedExponent bits-1023-52
  let h : ℕ :=
    if 0 ≤ e then significand bits*2^(e.toNat%61)%pyHashModulus
    else
      let negEMod := (-e).toNat%61
      significand bits*2^(if negEMod = 0 then 0 else 61-negEMod)%pyHashModulus
  avoidMinusOne (Int64.ofNat h*(if negative bits then -1 else 1))

def hashFloatAsU64 (bits : UInt64) : UInt64 :=
  if isNan bits then (pyHashNan bits).toUInt64
  else if isInfinite bits then (if negative bits then (-314159 : Int64).toUInt64 else 314159)
  else if isZero bits then 0
  else (reduceFinite bits).toUInt64

def pyHashComplex (re im : UInt64) : Int64 :=
  avoidMinusOne (hashFloatAsU64 re+1000003*hashFloatAsU64 im).toInt64

def hashFloatBits (bits : UInt64) : List Word :=
  match floatBitsAsExactI64 bits with
  | some i => [.u8 0, .i64 i]
  | .none =>
    if isFinite bits && isIntegral bits then [.u8 1, .i64 (pykeyHashBigint (trunc bits))]
    else [.u8 1, .u64 bits]

def hashComplexKey (re im : UInt64) : List Word :=
  if isZero im then hashFloatBits re else [.u64 (pyHashComplex re im).toUInt64]

def pyHashFloat (bits : UInt64) : Int64 :=
  if isNan bits then pyHashNan bits
  else if isInfinite bits then (if negative bits then -314159 else 314159)
  else if isZero bits then 0
  else
    match floatBitsAsExactI64 bits with
    | some i => hashInt i
    | .none => reduceFinite bits

def fnv1a (bytes : List UInt8) : UInt64 :=
  bytes.foldl (fun h b => (h ^^^ b.toUInt64)*1099511628211) 14695981039346656037

def frozensetShuffleBits (h : UInt64) : UInt64 :=
  let shuffled : UInt64 := (h ^^^ (89869747 : UInt64)) ^^^ (h <<< (16 : UInt64))
  shuffled*3644798167

def pyHashFrozensetItems (hashes : List Int64) : Int64 :=
  let h := hashes.foldl (fun h item => h ^^^ frozensetShuffleBits item.toUInt64) 0
  let h := h ^^^ (UInt64.ofNat hashes.length+1)*1927868237
  let h := h ^^^ ((h >>> 11) ^^^ (h >>> 25))
  let result := (h*69069+907133923).toInt64
  if result = -1 then 590923713 else result

def prime1 : UInt64 := 11400714785074694791
def prime2 : UInt64 := 14029467366897019727
def prime5 : UInt64 := 2870177450012600261

def xxstep (acc lane : UInt64) : UInt64 :=
  let acc := acc+lane*prime2
  (acc <<< 31 ||| acc >>> 33)*prime1

def tupleHash (hashes : List Int64) : Int64 :=
  let acc := hashes.foldl (fun acc item => xxstep acc item.toUInt64) prime5
  let acc := acc+(UInt64.ofNat hashes.length ^^^ (prime5 ^^^ 3527539))
  (if acc = 18446744073709551615 then 1546275796 else acc).toInt64

section hashes
variable (sentinels : Sentinels)

mutual

def pyHashPykey : PyKey → Int64
  | .int v => hashInt v
  | .bool b => if b then 1 else 0
  | .bigInt n => pykeyHashBigint n
  | .float bits => pyHashFloat bits
  | .str s => (fnv1a s).toInt64
  | .none => sentinels.none
  | .ellipsis => sentinels.ellipsis
  | .tuple items => tupleHash (pyHashItems items)
  | .frozenSet items => pyHashFrozensetItems (pyHashItems items)
  | .bytes b => avoidMinusOne (fnv1a b).toInt64
  | .complex re im => if isZero im then pyHashFloat re else pyHashComplex re im

def pyHashItems : List PyKey → List Int64
  | [] => []
  | key::items => pyHashPykey key::pyHashItems items

end

mutual

/-- What the key feeds to the hasher of its container. -/
def PyKey.hash : PyKey → List Word
  | .int v => [.u8 0, .i64 v]
  | .bool b => [.u8 0, .i64 (if b then 1 else 0)]
  | .float bits => hashFloatBits bits
  | .bigInt n =>
    if fitsI64 n then [.u8 0, .i64 (Int64.ofInt n)] else [.u8 1, .i64 (pykeyHashBigint n)]
  | .str s => [.u8 2, .str s]
  | .none => [.u64 sentinels.none.toUInt64]
  | .ellipsis => [.u64 sentinels.ellipsis.toUInt64]
  | .frozenSet items =>
    [.u8 4, .i64 (pyHashFrozensetItems (pyHashItems sentinels items))]
  | .tuple items => .u8 5::.usize items.length::PyKey.hashItems items
  | .bytes b => [.u8 6, .slice b]
  | .complex re im => hashComplexKey re im

def PyKey.hashItems : List PyKey → List Word
  | [] => []
  | key::items => PyKey.hash key++PyKey.hashItems items

end

end hashes

def bigintFloatEq (big : ℤ) (bits : UInt64) : Bool :=
  isFinite bits && isIntegral bits && trunc bits == big

def boolAsI64 (b : Bool) : Int64 := if b then 1 else 0

def realValuedComplexEq (re im : UInt64) : PyKey → Bool
  | .float bits => isZero im && feq re bits
  | .int i => isZero im && floatBitsAsExactI64 re == some i
  | .bool b => isZero im && floatBitsAsExactI64 re == some (boolAsI64 b)
  | .bigInt n => isZero im && bigintFloatEq n re
  | _ => false

section equality
variable (sentinels : Sentinels) (hasher : List Word → UInt64)

mutual

/-- Equality of keys. Lookups in a frozenset compare hashes before keys. -/
def PyKey.eq : PyKey → PyKey → Bool
  | .int a, .int b => a == b
  | .int a, .bool b => a == boolAsI64 b
  | .int a, .float b => floatBitsAsExactI64 b == some a
  | .int a, .bigInt b => b == a.toInt
  | .int a, .complex re im => realValuedComplexEq re im (.int a)
  | .bool a, .bool b => a == b
  | .bool a, .int b => b == boolAsI64 a
  | .bool a, .float b => floatBitsAsExactI64 b == some (boolAsI64 a)
  | .bool a, .complex re im => realValuedComplexEq re im (.bool a)
  | .float a, .float b => a == b || feq a b
  | .float a, .int b => floatBitsAsExactI64 a == some b
  | .float a, .bool b => floatBitsAsExactI64 a == some (boolAsI64 b)
  | .float a, .bigInt b => bigintFloatEq b a
  | .float a, .complex re im => realValuedComplexEq re im (.float a)
  | .bigInt a, .bigInt b => a == b
  | .bigInt a, .int b => a == b.toInt
  | .bigInt a, .float b => bigintFloatEq a b
  | .bigInt a, .complex re im => realValuedComplexEq re im (.bigInt a)
  | .complex re im, .complex re' im' =>
    (feq re re' || re == re') && (feq im im' || im == im')
  | .complex re im, .int b => realValuedComplexEq re im (.int b)
  | .complex re im, .bool b => realValuedComplexEq re im (.bool b)
  | .complex re im, .float b => realValuedComplexEq re im (.float b)
  | .complex re im, .bigInt b => realValuedComplexEq re im (.bigInt b)
  | .str a, .str b => a == b
  | .none, .none => true
  | .ellipsis, .ellipsis => true
  | .frozenSet a, .frozenSet b => a.length == b.length && containedIn a b
  | .tuple a, .tuple b => eqItems a b
  | .bytes a, .bytes b => a == b
  | _, _ => false

def eqItems : List PyKey → List PyKey → Bool
  | [], [] => true
  | x::xs, y::ys => PyKey.eq x y && eqItems xs ys
  | _, _ => false

def containedIn : List PyKey → List PyKey → Bool
  | [], _ => true
  | x::xs, ys =>
    ys.any (fun y => hasher (PyKey.hash sentinels y) == hasher (PyKey.hash sentinels x) && PyKey.eq x y) &&
      containedIn xs ys

end

mutual

/-- Big integers are out of `i64` range and no frozenset holds a key twice. -/
def PyKey.Wf : PyKey → Prop
  | .bigInt n => fitsI64 n = false
  | .tuple items => WfItems items
  | .frozenSet items =>
    WfItems items ∧ items.Pairwise (fun x y => PyKey.eq sentinels hasher x y = false)
  | _ => True

def WfItems : List PyKey → Prop
  | [] => True
  | key::items => PyKey.Wf key ∧ WfItems items

end

end equality

end Pyrust.Keys
