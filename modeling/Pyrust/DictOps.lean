import Pyrust.DictReplay

/-!
# The dict and its lazy probe table

A dict owns its entries in insertion order and, on demand, the probe table.
While no probe has asked for the table it is represented by a baseline size
and kind, and after a removal by a journal. Raw mutable access to the entry
map, which poisons the key counts, is outside this model: the counts are
exact throughout. A `retain` callback may carry state, so it sees the
position of the entry it decides.
-/

set_option autoImplicit false

namespace Pyrust.DictOps
open Pyrust.DictProbeIndex Pyrust.DictJournal

universe u v

inductive DictKeyTableKind where
  | unknown
  | unicode
  | general
  deriving DecidableEq, Repr

def DictKeyTableKind.isUnicode (kind : DictKeyTableKind) : Bool := kind = .unicode

/-- What the dict reads of a key beyond its hash and string flag. -/
class DictKey (K : Type u) extends BEq K, DictEntry K where
  isObject : K → Bool
  containsObject : K → Bool

export DictKey (isObject containsObject)

structure PyDict (K : Type u) (V : Type v) where
  entries : List (K × V) := []
  liveObjectKeyCount : ℕ := 0
  liveDynamicKeyCount : ℕ := 0
  structuralVersion : UInt64 := 0
  pythonHashIndex : Option (DictPythonHashIndex K) := none
  mutationJournal : Option DictMutationJournal := none
  initialTableSize : ℕ := 0
  initialTableKind : DictKeyTableKind := .unicode
  keyTableKind : DictKeyTableKind := .unicode

section operations
variable {K : Type u} {V : Type v}

def PyDict.keys (d : PyDict K V) : List K := d.entries.map Prod.fst

def requiresPythonHashIndex (d : PyDict K V) : Bool :=
  d.liveObjectKeyCount < d.liveDynamicKeyCount ||
    (d.liveObjectKeyCount != 0 && d.liveObjectKeyCount < d.entries.length)

variable [DictKey K]

/-- The table the dict stands for when none is installed. -/
def reconstruct (d : PyDict K V) : DictPythonHashIndex K :=
  match d.mutationJournal with
  | some journal => materialize journal d.keys d.initialTableSize
      d.initialTableKind.isUnicode d.keyTableKind.isUnicode
  | none => fromKeys d.keys d.initialTableSize
      d.initialTableKind.isUnicode d.keyTableKind.isUnicode

def ensurePythonHashIndex (d : PyDict K V) : PyDict K V :=
  match d.pythonHashIndex with
  | some _ => d
  | none => { d with pythonHashIndex := some (reconstruct d), mutationJournal := none }

def preparePythonInsert (d : PyDict K V) (key : K) : PyDict K V :=
  match d.keyTableKind with
  | .general => d
  | .unknown =>
    let kind := if isStr key then .unicode else .general
    { d with keyTableKind := kind, initialTableKind := kind }
  | .unicode =>
    if isStr key then d
    else
      let d := { d with keyTableKind := .general }
      if d.entries.isEmpty then { d with initialTableSize := 8 }
      else
        let d := ensurePythonHashIndex d
        { d with
          pythonHashIndex := d.pythonHashIndex.map prepareGeneralInsert
          structuralVersion := d.structuralVersion+1 }

/-- A deferred insertion may rebase the journal on a new table size. -/
def journalInserted (d : PyDict K V) : PyDict K V :=
  match d.mutationJournal with
  | none => d
  | some journal =>
    match journal.recordInserted d.entries.length with
    | (journal, none) => { d with mutationJournal := some journal }
    | (journal, some tableSize) =>
      { d with
        mutationJournal := some journal
        initialTableSize := tableSize
        initialTableKind := d.keyTableKind }

def recordInsertedIndex (d : PyDict K V) (key : K) : PyDict K V :=
  let d := { d with
    liveObjectKeyCount := d.liveObjectKeyCount+(isObject key).toNat
    liveDynamicKeyCount := d.liveDynamicKeyCount+(containsObject key).toNat
    structuralVersion := d.structuralVersion+1 }
  match d.pythonHashIndex with
  | some index => { d with pythonHashIndex := some (DictProbeIndex.recordInserted index key) }
  | none =>
    let d := journalInserted d
    if containsObject key || d.liveObjectKeyCount != 0 then
      if !requiresPythonHashIndex d then d else ensurePythonHashIndex d
    else d

def indexOf (d : PyDict K V) (key : K) : Option ℕ :=
  d.entries.findIdx? (fun entry => entry.1 == key)

/-- An equal key keeps its stored key and takes the new value. -/
def insert (d : PyDict K V) (key : K) (value : V) : Option V × PyDict K V :=
  let d := preparePythonInsert d key
  match indexOf d key with
  | some i =>
    ((d.entries[i]?).map Prod.snd,
      { d with entries := d.entries.modify i (fun entry => (entry.1, value)) })
  | none => (none, recordInsertedIndex { d with entries := d.entries++[(key, value)] } key)

omit [DictKey K] in
theorem modify_keys (entries : List (K × V)) (i : ℕ) (value : V) :
    (entries.modify i (fun entry => (entry.1, value))).map Prod.fst = entries.map Prod.fst := by
  induction entries generalizing i with
  | nil => simp
  | cons entry entries ih =>
    cases i with
    | zero => simp
    | succ i => simp [ih]

def prepareRemovalHistory (d : PyDict K V) : PyDict K V :=
  match d.pythonHashIndex, d.mutationJournal with
  | none, none =>
    { d with
      mutationJournal := some (fromCurrentEntries d.initialTableSize d.entries.length) }
  | _, _ => d

def recordRemovedMetadata (d : PyDict K V) (key : K) : PyDict K V :=
  { d with
    liveObjectKeyCount := d.liveObjectKeyCount-(isObject key).toNat
    liveDynamicKeyCount := d.liveDynamicKeyCount-(containsObject key).toNat
    structuralVersion := d.structuralVersion+1 }

def recordRemovedKey (d : PyDict K V) (entryIndex : ℕ) (key : K) (popped : Bool) :
    PyDict K V :=
  let d := match d.pythonHashIndex with
    | some index =>
      { d with
        pythonHashIndex :=
          some (if popped then recordPopped index key else DictProbeIndex.recordRemoved index key) }
    | none =>
      { d with
        mutationJournal :=
          d.mutationJournal.map (fun journal => journal.recordRemoved entryIndex key popped) }
  recordRemovedMetadata d key

def shiftRemove (d : PyDict K V) (key : K) : Option V × PyDict K V :=
  match indexOf d key with
  | none => (none, d)
  | some i =>
    match d.entries[i]? with
    | none => (none, d)
    | some (stored, value) =>
      let d := prepareRemovalHistory d
      (some value, recordRemovedKey { d with entries := d.entries.eraseIdx i } i stored false)

def pop (d : PyDict K V) : Option (K × V) × PyDict K V :=
  match d.entries.getLast? with
  | none => (none, d)
  | some (stored, value) =>
    let i := d.entries.length-1
    let d := prepareRemovalHistory d
    (some (stored, value),
      recordRemovedKey { d with entries := d.entries.dropLast } i stored true)

/-- One pass of the callback: kept entries with their values, removed keys. -/
def sift (keep : ℕ → K → V → Bool × V) : ℕ → List (K × V) → List (K × V) × List K
  | _, [] => ([], [])
  | i, (key, value)::rest =>
    let decision := keep i key value
    let sifted := sift keep (i+1) rest
    if decision.1 then ((key, decision.2)::sifted.1, sifted.2)
    else (sifted.1, key::sifted.2)

def retain (d : PyDict K V) (keep : ℕ → K → V → Bool × V) : PyDict K V :=
  let hadHistory := d.pythonHashIndex.isSome || d.mutationJournal.isSome
  let d := ensurePythonHashIndex d
  let sifted := sift keep 0 d.entries
  let d := { d with entries := sifted.1 }
  if sifted.2.isEmpty then
    if hadHistory then d else { d with pythonHashIndex := none }
  else
    { d with
      pythonHashIndex := d.pythonHashIndex.map
        (fun index => sifted.2.foldl DictProbeIndex.recordRemoved index)
      liveObjectKeyCount := d.liveObjectKeyCount-sifted.2.countP isObject
      liveDynamicKeyCount := d.liveDynamicKeyCount-sifted.2.countP containsObject
      structuralVersion := d.structuralVersion+1 }

def clear (d : PyDict K V) : PyDict K V :=
  { structuralVersion :=
      if d.entries.isEmpty then d.structuralVersion else d.structuralVersion+1 }

/-- How a copy represents the probe table of its source. -/
structure CopiedTable (K : Type u) where
  index : Option (DictPythonHashIndex K) := none
  journal : Option DictMutationJournal := none
  compactedSize : Option ℕ := none

def copyTable (d : PyDict K V) : CopiedTable K :=
  match d.pythonHashIndex with
  | some index => { index := some index }
  | none =>
    match d.mutationJournal with
    | some journal =>
      if journal.copyDefinitelyPreservesLayout d.entries.length then
        { journal := some journal }
      else if journal.copyDefinitelyCompactsLayout d.entries.length then
        { compactedSize := some (sparseCopyTableSize d.entries.length) }
      else { index := some (reconstruct d) }
    | none => if requiresPythonHashIndex d then { index := some (reconstruct d) } else {}

def copyIndex (index : DictPythonHashIndex K) : DictPythonHashIndex K :=
  if copyPreservesLayout index then index else compactedCopy index

def clone (d : PyDict K V) : PyDict K V :=
  if d.entries.isEmpty then { structuralVersion := d.structuralVersion }
  else
    let copied := copyTable d
    let index := copied.index.map copyIndex
    let kind := match index with
      | some index => if index.unicodeOnly then .unicode else .general
      | none => d.keyTableKind
    { d with
      pythonHashIndex := index
      mutationJournal := copied.journal
      initialTableSize := copied.compactedSize.getD d.initialTableSize
      initialTableKind := if copied.compactedSize.isSome then kind else d.initialTableKind
      keyTableKind := kind }

inductive Op (K : Type u) (V : Type v) where
  | insert (key : K) (value : V)
  | shiftRemove (key : K)
  | pop
  | retain (keep : ℕ → K → V → Bool × V)
  | clear
  | clone

def step (d : PyDict K V) : Op K V → PyDict K V
  | .insert key value => (insert d key value).2
  | .shiftRemove key => (shiftRemove d key).2
  | .pop => (pop d).2
  | .retain keep => retain d keep
  | .clear => clear d
  | .clone => clone d

/-- The lazy dict: the table is asked for once, after the last operation. -/
def lazyRun (ops : List (Op K V)) : PyDict K V :=
  ensurePythonHashIndex (ops.foldl step {})

/-- The eager dict: the table exists before and after every operation. -/
def eagerRun (ops : List (Op K V)) : PyDict K V :=
  ops.foldl (fun d op => ensurePythonHashIndex (step d op)) (ensurePythonHashIndex {})

end operations

end Pyrust.DictOps
