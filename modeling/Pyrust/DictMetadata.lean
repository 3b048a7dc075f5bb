import Pyrust.DictOps

/-!
# The key metadata of a dict

A dict counts its object keys and its keys that hold an object anywhere. Raw
mutable access to the entry map sets both counts to `usize::MAX`, the poison, and
the next operation recounts. An operation that would panic says which panic it is:
the entry map is full or asked for an entry that it does not have, a count falls
below zero, or a table or journal is missing that the code takes for granted.
-/

set_option autoImplicit false

namespace Pyrust.DictMetadata
open Pyrust.DictProbeIndex Pyrust.DictProbeInvariant Pyrust.DictJournal Pyrust.DictOps

universe u v

/-! ## Keys -/

/-- What `pykey_contains_object` sees of a key. -/
inductive PyKeyShape where
  | scalar
  | object
  | tuple (items : List PyKeyShape)
  | frozenSet (items : List PyKeyShape)

mutual
def pykeyContainsObject : PyKeyShape → Bool
  | .object => true
  | .tuple items => anyContainsObject items
  | .frozenSet items => anyContainsObject items
  | .scalar => false

def anyContainsObject : List PyKeyShape → Bool
  | [] => false
  | item::items => pykeyContainsObject item || anyContainsObject items
end

def isObjectShape : PyKeyShape → Bool
  | .object => true
  | _ => false

/-- An object, or an aggregate with an item that contains an object. -/
inductive ContainsObject : PyKeyShape → Prop
  | object : ContainsObject .object
  | tuple {items : List PyKeyShape} {item : PyKeyShape} (hitem : item ∈ items)
      (h : ContainsObject item) : ContainsObject (.tuple items)
  | frozenSet {items : List PyKeyShape} {item : PyKeyShape} (hitem : item ∈ items)
      (h : ContainsObject item) : ContainsObject (.frozenSet items)

theorem anyContainsObject_of_mem {items : List PyKeyShape} {item : PyKeyShape}
    (hitem : item ∈ items) (h : pykeyContainsObject item = true) :
    anyContainsObject items = true := by
  induction items with
  | nil => cases hitem
  | cons first items ih =>
    rw [anyContainsObject, Bool.or_eq_true]
    cases hitem with
    | head => exact .inl h
    | tail _ hitem => exact .inr (ih hitem)

mutual
theorem contains_of_pykey (shape : PyKeyShape) (h : pykeyContainsObject shape = true) :
    ContainsObject shape := by
  cases shape with
  | scalar => simp [pykeyContainsObject] at h
  | object => exact .object
  | tuple items =>
    obtain ⟨item, hitem, hcontains⟩ := contains_of_any items h
    exact .tuple hitem hcontains
  | frozenSet items =>
    obtain ⟨item, hitem, hcontains⟩ := contains_of_any items h
    exact .frozenSet hitem hcontains

theorem contains_of_any (items : List PyKeyShape) (h : anyContainsObject items = true) :
    ∃ item ∈ items, ContainsObject item := by
  cases items with
  | nil => simp [anyContainsObject] at h
  | cons item items =>
    rw [anyContainsObject, Bool.or_eq_true] at h
    cases h with
    | inl h => exact ⟨item, List.mem_cons_self, contains_of_pykey item h⟩
    | inr h =>
      obtain ⟨other, hother, hcontains⟩ := contains_of_any items h
      exact ⟨other, List.mem_cons_of_mem _ hother, hcontains⟩
end

theorem pykeyContainsObject_iff (shape : PyKeyShape) :
    pykeyContainsObject shape = true ↔ ContainsObject shape := by
  constructor
  · exact contains_of_pykey shape
  · intro h
    induction h with
    | object => rfl
    | tuple hitem _ ih => exact anyContainsObject_of_mem hitem ih
    | frozenSet hitem _ ih => exact anyContainsObject_of_mem hitem ih

instance : DecidablePred ContainsObject :=
  fun shape => decidable_of_iff _ (pykeyContainsObject_iff shape)

class ShapedKey (K : Type u) extends BEq K, DictEntry K where
  shape : K → PyKeyShape

export ShapedKey (shape)

instance {K : Type u} [ShapedKey K] : DictKey K where
  isObject key := isObjectShape (shape key)
  containsObject key := pykeyContainsObject (shape key)

theorem object_contains {K : Type u} [ShapedKey K] (key : K) (h : isObject key = true) :
    containsObject key = true := by
  change isObjectShape (shape key) = true at h
  change pykeyContainsObject (shape key) = true
  cases hshape : shape key with
  | object => rfl
  | scalar | tuple | frozenSet => simp [hshape, isObjectShape] at h

/-! ## Operations -/

/-- `usize::MAX`. -/
def poisonedObjectKeyCount : ℕ := 2^64-1

inductive Panic where
  | capacityOverflow
  | indexOutOfBounds
  | counterUnderflow
  | missingHistory
  deriving DecidableEq, Repr

section operations
variable {K : Type u} {V : Type v}

def metadataIsPrecise (d : PyDict K V) : Bool :=
  d.liveObjectKeyCount != poisonedObjectKeyCount &&
    d.liveDynamicKeyCount != poisonedObjectKeyCount

def requiresPythonHashIndex (d : PyDict K V) : Bool :=
  metadataIsPrecise d && DictOps.requiresPythonHashIndex d

/-- The content of an entry map: no two keys are equal, and it fits. -/
structure EntryMap (K : Type u) (V : Type v) [BEq K] (maxEntries : ℕ) where
  entries : List (K × V)
  distinct : Distinct (entries.map Prod.fst)
  fits : entries.length ≤ maxEntries

variable [ShapedKey K]

/-- Only a mixed dict has its table rebuilt: the history of another is lost. -/
def repairPoisonedMetadata (d : PyDict K V) : PyDict K V :=
  if metadataIsPrecise d then d
  else
    let d := { d with
      liveObjectKeyCount := d.keys.countP isObject
      liveDynamicKeyCount := d.keys.countP containsObject
      mutationJournal := none }
    { d with
      pythonHashIndex :=
        if requiresPythonHashIndex d then
          some (fromKeys d.keys 0 d.initialTableKind.isUnicode d.keyTableKind.isUnicode)
        else none }

def ensurePythonHashIndex (d : PyDict K V) : PyDict K V :=
  DictOps.ensurePythonHashIndex (repairPoisonedMetadata d)

/-- After the repair nothing is left to repair where the table is asked for. -/
def preparePythonInsert (d : PyDict K V) (key : K) : PyDict K V :=
  DictOps.preparePythonInsert (repairPoisonedMetadata d) key

def saturatingAdd (a b : ℕ) : ℕ := min (a+b) poisonedObjectKeyCount

def recordInsertedIndex (d : PyDict K V) (key : K) : PyDict K V :=
  let d := { d with
    liveObjectKeyCount := saturatingAdd d.liveObjectKeyCount (isObject key).toNat
    liveDynamicKeyCount := saturatingAdd d.liveDynamicKeyCount (containsObject key).toNat
    structuralVersion := d.structuralVersion+1 }
  match d.pythonHashIndex with
  | some index => { d with pythonHashIndex := some (DictProbeIndex.recordInserted index key) }
  | none =>
    let d := journalInserted d
    if containsObject key || d.liveObjectKeyCount != 0 then
      if !requiresPythonHashIndex d then d else ensurePythonHashIndex d
    else d

def insert (maxEntries : ℕ) (d : PyDict K V) (key : K) (value : V) :
    Except Panic (Option V × PyDict K V) :=
  let d := preparePythonInsert d key
  match indexOf d key with
  | some i =>
    .ok ((d.entries[i]?).map Prod.snd,
      { d with entries := d.entries.modify i (fun entry => (entry.1, value)) })
  | none =>
    if d.entries.length < maxEntries then
      .ok (none, recordInsertedIndex { d with entries := d.entries++[(key, value)] } key)
    else .error .capacityOverflow

def extend (maxEntries : ℕ) : PyDict K V → List (K × V) → Except Panic (PyDict K V)
  | d, [] => .ok d
  | d, (key, value)::entries => do
    let inserted ← insert maxEntries d key value
    extend maxEntries inserted.2 entries

/-- Both checked subtractions, and the new version that goes with them. -/
def subtractCounts (d : PyDict K V) (objects dynamics : ℕ) : Except Panic (PyDict K V) :=
  if d.liveObjectKeyCount < objects || d.liveDynamicKeyCount < dynamics then
    .error .counterUnderflow
  else
    .ok { d with
      liveObjectKeyCount := d.liveObjectKeyCount-objects
      liveDynamicKeyCount := d.liveDynamicKeyCount-dynamics
      structuralVersion := d.structuralVersion+1 }

def recordRemovedMetadata (d : PyDict K V) (key : K) : Except Panic (PyDict K V) :=
  subtractCounts d (isObject key).toNat (containsObject key).toNat

def recordRemovedKey (d : PyDict K V) (entryIndex : ℕ) (key : K) (popped : Bool) :
    Except Panic (PyDict K V) :=
  match d.pythonHashIndex with
  | some index =>
    recordRemovedMetadata { d with
      pythonHashIndex :=
        some (if popped then recordPopped index key else DictProbeIndex.recordRemoved index key) }
      key
  | none =>
    match d.mutationJournal with
    | some journal =>
      recordRemovedMetadata { d with
        mutationJournal := some (journal.recordRemoved entryIndex key popped) } key
    | none => .error .missingHistory

/-- Both shifting removals, after the entry was found. -/
def shiftRemoveEntry (d : PyDict K V) (i : ℕ) : Except Panic (Option (K × V) × PyDict K V) :=
  match d.entries[i]? with
  | none => .ok (none, d)
  | some (stored, value) => do
    let d := prepareRemovalHistory d
    let d ← recordRemovedKey { d with entries := d.entries.eraseIdx i } i stored false
    return (some (stored, value), d)

/-- A query is given by its test on the stored keys. -/
def getIndexOf (d : PyDict K V) (query : K → Bool) : Option ℕ :=
  d.entries.findIdx? fun entry => query entry.1

def shiftRemove (d : PyDict K V) (query : K → Bool) : Except Panic (Option V × PyDict K V) :=
  let d := repairPoisonedMetadata d
  match getIndexOf d query with
  | none => .ok (none, d)
  | some i => do
    let removed ← shiftRemoveEntry d i
    return (removed.1.map Prod.snd, removed.2)

def shiftRemoveIndex (d : PyDict K V) (i : ℕ) : Except Panic (Option (K × V) × PyDict K V) :=
  shiftRemoveEntry (repairPoisonedMetadata d) i

/-- The last entry takes the place of the removed one. -/
def swapRemove (d : PyDict K V) (query : K → Bool) : Except Panic (Option V × PyDict K V) :=
  let d := repairPoisonedMetadata d
  match getIndexOf d query with
  | none => .ok (none, d)
  | some i =>
    let d := ensurePythonHashIndex d
    match d.entries[i]?, d.entries.getLast? with
    | some (stored, value), some last => do
      let d ← recordRemovedKey { d with entries := (d.entries.set i last).dropLast } i stored false
      return (some value, d)
    | _, _ => .ok (none, d)

def pop (d : PyDict K V) : Except Panic (Option (K × V) × PyDict K V) :=
  let d := repairPoisonedMetadata d
  match d.entries.getLast? with
  | none => .ok (none, d)
  | some (stored, value) => do
    let i := d.entries.length-1
    let d := prepareRemovalHistory d
    let d ← recordRemovedKey { d with entries := d.entries.dropLast } i stored true
    return (some (stored, value), d)

def retain (d : PyDict K V) (keep : ℕ → K → V → Bool × V) : Except Panic (PyDict K V) :=
  let d := repairPoisonedMetadata d
  let hadHistory := d.pythonHashIndex.isSome || d.mutationJournal.isSome
  let d := ensurePythonHashIndex d
  let sifted := sift keep 0 d.entries
  let d := { d with entries := sifted.1 }
  if sifted.2.isEmpty then
    .ok (if hadHistory then d else { d with pythonHashIndex := none })
  else
    match d.pythonHashIndex with
    | none => .error .missingHistory
    | some index =>
      subtractCounts { d with
        pythonHashIndex := some (sifted.2.foldl DictProbeIndex.recordRemoved index) }
        (sifted.2.countP isObject) (sifted.2.countP containsObject)

def moveIndex (d : PyDict K V) (source target : ℕ) : Except Panic (PyDict K V) :=
  let d := ensurePythonHashIndex d
  match d.entries[source]? with
  | none => .error .indexOutOfBounds
  | some entry =>
    if target < d.entries.length then
      let rest := d.entries.eraseIdx source
      .ok { d with entries := rest.take target ++ entry::rest.drop target }
    else .error .indexOutOfBounds

/-- A poisoned dict is recounted for its copy, and stays poisoned itself. -/
def clone (d : PyDict K V) : PyDict K V :=
  if d.entries.isEmpty then { structuralVersion := d.structuralVersion }
  else if d.liveObjectKeyCount != poisonedObjectKeyCount then DictOps.clone d
  else
    let objects := d.keys.countP isObject
    let dynamics := d.keys.countP containsObject
    let shadowRequired := objects < dynamics || (objects != 0 && objects < d.entries.length)
    { entries := d.entries
      liveObjectKeyCount := objects
      liveDynamicKeyCount := dynamics
      structuralVersion := d.structuralVersion
      pythonHashIndex :=
        if shadowRequired then some (copyIndex (fromKeys d.keys 0 false false)) else none
      initialTableKind := .general
      keyTableKind := .general }

/-- `deref_mut`, and what the caller makes of the entry map. -/
def derefMut {maxEntries : ℕ} (d : PyDict K V) (result : EntryMap K V maxEntries) :
    PyDict K V where
  entries := result.entries
  liveObjectKeyCount := poisonedObjectKeyCount
  liveDynamicKeyCount := poisonedObjectKeyCount
  structuralVersion := d.structuralVersion+1
  initialTableKind := .general
  keyTableKind := .general

/-- Values change in place, keys do not. -/
def iterMut (d : PyDict K V) (change : K → V → V) : PyDict K V :=
  { d with entries := d.entries.map fun entry => (entry.1, change entry.1 entry.2) }

end operations

/-! ## Runs -/

/-- Double a table until it holds the capacity; `None` stands for the overflow. -/
def tableSizeFrom (capacity : ℕ) : ℕ → ℕ → Option ℕ
  | 0, _ => none
  | doublings+1, tableSize =>
    if dictProbeUsableFraction tableSize < capacity then
      tableSizeFrom capacity doublings (tableSize*2)
    else some tableSize

/-- Sixty doublings lead from 8 to `2^63`, the largest table size of 64 bits. -/
def tableSizeForCapacity (capacity : ℕ) : Option ℕ :=
  if capacity = 0 then some 0 else tableSizeFrom capacity 61 8

section construction
variable {K : Type u} {V : Type v}

def withCapacityAndHasher (capacity : ℕ) : Except Panic (PyDict K V) :=
  match tableSizeForCapacity capacity with
  | none => .error .capacityOverflow
  | some tableSize =>
    let kind := if capacity = 0 then .unicode else .unknown
    .ok { initialTableSize := tableSize, initialTableKind := kind, keyTableKind := kind }

def knownKind (unicodeOnly : Bool) : DictKeyTableKind :=
  if unicodeOnly then .unicode else .general

def withCapacityAndKnownKeyKind (capacity : ℕ) (unicodeOnly : Bool) :
    Except Panic (PyDict K V) := do
  let d ← withCapacityAndHasher capacity
  if capacity ≤ dictProbeUsableFraction 8 then return d
  else
    return { d with
      initialTableKind := knownKind unicodeOnly
      keyTableKind := knownKind unicodeOnly }

def withFromkeysFastPath (capacity : ℕ) (unicodeOnly : Bool) : Except Panic (PyDict K V) := do
  let d ← withCapacityAndHasher capacity
  return { d with
    initialTableSize := tableSizeForTarget
      (saturatingAdd (min (capacity*3) poisonedObjectKeyCount) 1/2)
    initialTableKind := knownKind unicodeOnly
    keyTableKind := knownKind unicodeOnly }

inductive Constructor where
  | withCapacityAndHasher (capacity : ℕ)
  | withCapacityAndKnownKeyKind (capacity : ℕ) (unicodeOnly : Bool)
  | withFromkeysFastPath (capacity : ℕ) (unicodeOnly : Bool)

def construct : Constructor → Except Panic (PyDict K V)
  | .withCapacityAndHasher capacity => withCapacityAndHasher capacity
  | .withCapacityAndKnownKeyKind capacity unicodeOnly =>
    withCapacityAndKnownKeyKind capacity unicodeOnly
  | .withFromkeysFastPath capacity unicodeOnly => withFromkeysFastPath capacity unicodeOnly

end construction

section runs
variable {K : Type u} {V : Type v} [ShapedKey K]

inductive Op (K : Type u) (V : Type v) [BEq K] (maxEntries : ℕ) where
  | insert (key : K) (value : V)
  | extend (entries : List (K × V))
  | shiftRemove (query : K → Bool)
  | shiftRemoveIndex (i : ℕ)
  | swapRemove (query : K → Bool)
  | pop
  | retain (keep : ℕ → K → V → Bool × V)
  | moveIndex (source target : ℕ)
  | clear
  | clone
  | derefMut (result : EntryMap K V maxEntries)
  | iterMut (change : K → V → V)
  | ensurePythonHashIndex
  | preparePythonInsert (key : K)

variable {maxEntries : ℕ}

def step (d : PyDict K V) : Op K V maxEntries → Except Panic (PyDict K V)
  | .insert key value => do return (← insert maxEntries d key value).2
  | .extend entries => extend maxEntries d entries
  | .shiftRemove query => do return (← shiftRemove d query).2
  | .shiftRemoveIndex i => do return (← shiftRemoveIndex d i).2
  | .swapRemove query => do return (← swapRemove d query).2
  | .pop => do return (← pop d).2
  | .retain keep => retain d keep
  | .moveIndex source target => moveIndex d source target
  | .clear => .ok (clear d)
  | .clone => .ok (clone d)
  | .derefMut result => .ok (derefMut d result)
  | .iterMut change => .ok (iterMut d change)
  | .ensurePythonHashIndex => .ok (ensurePythonHashIndex d)
  | .preparePythonInsert key => .ok (preparePythonInsert d key)

def run (d : PyDict K V) (ops : List (Op K V maxEntries)) : Except Panic (PyDict K V) :=
  ops.foldlM step d

end runs

end Pyrust.DictMetadata
