import Mathlib.Data.List.DropRight
import Mathlib.Data.List.ReduceOption
import Pyrust.PerturbProbe

/-!
# The combined-dict key table

The shadow of the compact key table keeps a sparse array of slots and an
append-only list of entries. Slots point into the list; a deleted entry
leaves a dummy slot and a hole. The table has two modes in the source: stored
keys, and placeholders while a deferred journal is replayed. The two modes
differ in the payload of an entry and in the test that identifies it, so the
table is generic in the payload and a lookup takes its test as an argument.
Slot arithmetic wraps at 64 bits in the source, which a power-of-two mask
does not see.
-/

set_option autoImplicit false

namespace Pyrust.DictProbeIndex
open Pyrust.PerturbProbe

universe u

/-- A slot of the sparse array: `-1`, `-2` or an entry index in the source. -/
inductive DictIndex where
  | empty
  | dummy
  | entry (i : ℕ)
  deriving DecidableEq, Repr

def DictIndex.isNegative : DictIndex → Bool
  | .entry _ => false
  | _ => true

def DictIndex.isFilled : DictIndex → Bool
  | .empty => false
  | _ => true

/-- What the table reads of an entry payload. -/
class DictEntry (α : Type u) where
  pythonHash : α → UInt64
  isStr : α → Bool

export DictEntry (pythonHash isStr)

structure DictPythonHashIndex (α : Type u) where
  indices : List DictIndex := []
  entryKeys : List (Option α) := []
  usable : ℕ := 0
  liveLen : ℕ := 0
  unicodeOnly : Bool := true
  deriving DecidableEq, Repr

/-- A key given by its kind and hash alone. -/
structure PlainKey where
  str : Bool
  hash : UInt64
  deriving DecidableEq, Repr

instance : DictEntry PlainKey where
  pythonHash := PlainKey.hash
  isStr := PlainKey.str

def dictProbeUsableFraction (tableSize : ℕ) : ℕ := tableSize*2/3

def bitLength (n : ℕ) : ℕ := if n = 0 then 0 else Nat.log2 n+1

/-- The minimum-size bit trick: small nonzero targets select 16, not 8. -/
def tableSizeForTarget (target : ℕ) : ℕ := 2^bitLength ((target ||| 8)-1)

section table
variable {α : Type u}

def withTableSize (tableSize : ℕ) : DictPythonHashIndex α where
  indices := List.replicate tableSize .empty
  usable := dictProbeUsableFraction tableSize

def freshTable (tableSize : ℕ) (unicodeOnly : Bool) : DictPythonHashIndex α :=
  { withTableSize tableSize with unicodeOnly := unicodeOnly }

def DictPythonHashIndex.slot (index : DictPythonHashIndex α) (s : ℕ) : DictIndex :=
  index.indices.getD s .empty

def DictPythonHashIndex.size (index : DictPythonHashIndex α) : ℕ := index.indices.length

def DictPythonHashIndex.liveKeys (index : DictPythonHashIndex α) : List α :=
  index.entryKeys.reduceOption

/-- The first negative slot, empty or dummy, is reused. -/
def insertionSlot (index : DictPythonHashIndex α) (hash : UInt64) : Option ℕ :=
  search index.size (fun s => if (index.slot s).isNegative then some s else none)
    (budget index.size) (start index.size hash.toNat)

/-- A probe that never settles leaves no result in the source; the table is
returned as it was and `insertionSlot_isSome` excludes the case. -/
def placeWithoutResize [DictEntry α] (index : DictPythonHashIndex α) (key : α) :
    DictPythonHashIndex α :=
  match insertionSlot index (pythonHash key) with
  | none => index
  | some s =>
    { index with
      indices := index.indices.set s (.entry index.entryKeys.length)
      entryKeys := index.entryKeys++[some key]
      usable := index.usable-1
      liveLen := index.liveLen+1 }

def resize [DictEntry α] (index : DictPythonHashIndex α) (target : ℕ) :
    DictPythonHashIndex α :=
  index.liveKeys.foldl placeWithoutResize
    (freshTable (tableSizeForTarget target) index.unicodeOnly)

def prepareGeneralInsert [DictEntry α] (index : DictPythonHashIndex α) :
    DictPythonHashIndex α :=
  if index.unicodeOnly then
    { resize index (index.liveLen*3) with unicodeOnly := false }
  else index

def makeRoom [DictEntry α] (index : DictPythonHashIndex α) : DictPythonHashIndex α :=
  if index.usable = 0 then resize index (index.liveLen*3) else index

def convertFor [DictEntry α] (index : DictPythonHashIndex α) (key : α) :
    DictPythonHashIndex α :=
  if index.unicodeOnly && !isStr key then prepareGeneralInsert index else index

def recordInserted [DictEntry α] (index : DictPythonHashIndex α) (key : α) :
    DictPythonHashIndex α :=
  placeWithoutResize (makeRoom (convertFor index key)) key

/-- Follow the probe sequence of `hash` to the entry that passes the test. -/
def lookupSlot (index : DictPythonHashIndex α) (test : α → Bool) (hash : UInt64) : Option ℕ :=
  (search index.size
    (fun s => match index.slot s with
      | .empty => some none
      | .dummy => none
      | .entry i => if ((index.entryKeys.getD i none).any test) then some (some s) else none)
    (budget index.size) (start index.size hash.toNat)).join

def markSlotRemoved (index : DictPythonHashIndex α) (s : ℕ) : DictPythonHashIndex α :=
  match index.slot s with
  | .entry i =>
    { index with
      indices := index.indices.set s .dummy
      entryKeys := index.entryKeys.set i none
      liveLen := index.liveLen-1 }
  | _ => index

/-- Deletion does not restore `usable`; a lost key leaves the table alone. -/
def removeMatching (index : DictPythonHashIndex α) (test : α → Bool) (hash : UInt64) :
    DictPythonHashIndex α :=
  match lookupSlot index test hash with
  | none => index
  | some s => markSlotRemoved index s

/-- `popitem` shortens the entry list past every trailing hole. -/
def truncatePoppedEntries (index : DictPythonHashIndex α) : DictPythonHashIndex α :=
  { index with entryKeys := index.entryKeys.rdropWhile Option.isNone }

end table

section keys
variable {α : Type u} [DictEntry α]

def fromKeys (keys : List α) (initialTableSize : ℕ)
    (initialUnicodeOnly currentUnicodeOnly : Bool) : DictPythonHashIndex α :=
  let index := keys.foldl recordInserted (freshTable initialTableSize initialUnicodeOnly)
  if !currentUnicodeOnly && index.unicodeOnly then prepareGeneralInsert index else index

def copyPreservesLayout (index : DictPythonHashIndex α) : Bool :=
  index.entryKeys.length*2/3 ≤ index.liveLen

def sparseCopyTableSize (liveLen : ℕ) : ℕ := tableSizeForTarget ((liveLen*3+1)/2)

def compactedCopy (index : DictPythonHashIndex α) : DictPythonHashIndex α :=
  index.liveKeys.foldl placeWithoutResize
    (freshTable (sparseCopyTableSize index.liveLen) index.unicodeOnly)

variable [BEq α]

def exactSlot (index : DictPythonHashIndex α) (key : α) : Option ℕ :=
  lookupSlot index (fun stored => stored == key) (pythonHash key)

def recordRemoved (index : DictPythonHashIndex α) (key : α) : DictPythonHashIndex α :=
  removeMatching index (fun stored => stored == key) (pythonHash key)

def recordPopped (index : DictPythonHashIndex α) (key : α) : DictPythonHashIndex α :=
  truncatePoppedEntries (recordRemoved index key)

/-- Walk the chain of `hash` to its end and keep the live keys of that hash. -/
def collectCandidates (index : DictPythonHashIndex α) (hash : UInt64) :
    ℕ → ℕ × ℕ → Option (List α)
  | 0, _ => none
  | fuel+1, c =>
    match index.slot c.1 with
    | .empty => some []
    | .dummy => collectCandidates index hash fuel (advance index.size c)
    | .entry i =>
      let here := (index.entryKeys.getD i none).toList.filter (fun k => pythonHash k == hash)
      (collectCandidates index hash fuel (advance index.size c)).map (here++·)

def candidates (index : DictPythonHashIndex α) (hash : UInt64) : Option (List α) :=
  if index.indices.isEmpty then some []
  else collectCandidates index hash (budget index.size) (start index.size hash.toNat)

end keys

end Pyrust.DictProbeIndex
