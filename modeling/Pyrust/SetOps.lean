import Pyrust.SetProbe

/-!
# The set and its deferred journal

A set owns its keys in insertion order and a baseline table size. From the
first removal on it records one word per mutation; a snapshot of the probe
table undoes the journal against the final order, gives placeholders to the
keys that are gone and replays it. The eager set beside it applies the same
table operations at every step and remembers which identity each key got.
-/

set_option autoImplicit false

namespace Pyrust.SetOps
open Pyrust.DictProbeIndex Pyrust.DictJournal Pyrust.SetProbe

universe u

def setMutationInsert : ℕ := 0
def setMutationRemove : ℕ := 1
def setMutationMerge : ℕ := 2
def setMutationDifferenceCleanup : ℕ := 3

structure SetDeferredMutation where
  pythonHash : UInt64
  positionAndKind : ℕ
  deriving DecidableEq, Repr

namespace SetDeferredMutation

def inserted : SetDeferredMutation := ⟨0, setMutationInsert⟩

def removedHash (position : ℕ) (hash : UInt64) : SetDeferredMutation :=
  ⟨hash, position <<< 2 ||| setMutationRemove⟩

def merge (additionalUsed : UInt64) : SetDeferredMutation := ⟨additionalUsed, setMutationMerge⟩

def differenceCleanup : SetDeferredMutation := ⟨0, setMutationDifferenceCleanup⟩

def kind (m : SetDeferredMutation) : ℕ := m.positionAndKind &&& 3

def position (m : SetDeferredMutation) : ℕ := m.positionAndKind >>> 2

end SetDeferredMutation

structure PySet (K : Type u) where
  entries : List K := []
  initialTableSize : ℕ := setProbeMinsize
  mutationJournal : Option (List SetDeferredMutation) := none

/-- Journal annotations recovered by the undo walk: the key an insertion
brought, the identity a removal took away. -/
structure SetUndone (K : Type u) where
  state : List (DictReplayKey K)
  known : List (Option (DictReplayKey K) × Option ℕ) := []
  nextReplayId : ℕ

section journal
variable {K : Type u} [DictEntry K]

def undoStep (m : SetDeferredMutation) (u : SetUndone K) : SetUndone K :=
  if m.kind = setMutationInsert then
    ⟨u.state.dropLast, (u.state.getLast?, none)::u.known, u.nextReplayId⟩
  else if m.kind = setMutationRemove then
    ⟨u.state.insertIdx m.position ⟨none, m.pythonHash, false, u.nextReplayId⟩,
      (none, some u.nextReplayId)::u.known, u.nextReplayId+1⟩
  else ⟨u.state, (none, none)::u.known, u.nextReplayId⟩

def setReplayKeys : List K → ℕ → List (DictReplayKey K)
  | [], _ => []
  | key::keys, id => ⟨some key, pythonHash key, false, id⟩::setReplayKeys keys (id+1)

def insertReplay (table : PySetProbeSnapshot) (key : DictReplayKey K) :
    Option PySetProbeSnapshot :=
  table.insert ⟨key.pythonHash, key.replayId⟩

def redoStep (table : PySetProbeSnapshot)
    (m : SetDeferredMutation × (Option (DictReplayKey K) × Option ℕ)) :
    Option PySetProbeSnapshot :=
  if m.1.kind = setMutationInsert then m.2.1.bind (insertReplay table)
  else if m.1.kind = setMutationRemove then
    m.2.2.bind (fun id => table.remove m.1.pythonHash id)
  else if m.1.kind = setMutationMerge then table.prepareMerge m.1.pythonHash.toNat
  else table.finishDifferenceUpdate

def hasOnlyTailRemovals (mutations : List SetDeferredMutation) (liveLen : ℕ) : Bool :=
  !mutations.isEmpty && mutations.zipIdx.all (fun m =>
    m.1.kind = setMutationRemove && m.1.position = liveLen+mutations.length-m.2-1)

def placeholders (mutations : List SetDeferredMutation) (liveLen : ℕ) : List SetProbeEntry :=
  mutations.reverse.zipIdx.map (fun m => ⟨m.1.pythonHash, liveLen+m.2⟩)

def materializeTailRemovals (mutations : List SetDeferredMutation) (entries : List K)
    (initialTableSize : ℕ) : Option PySetProbeSnapshot := do
  let table ← entries.zipIdx.foldlM
    (fun table key => table.insert ⟨pythonHash key.1, key.2⟩)
    (PySetProbeSnapshot.withTableSize initialTableSize)
  let table ← (placeholders mutations entries.length).foldlM PySetProbeSnapshot.insert table
  mutations.zipIdx.foldlM
    (fun table m => table.remove m.1.pythonHash (entries.length+(mutations.length-m.2-1))) table

def materialize (mutations : List SetDeferredMutation) (entries : List K)
    (initialTableSize : ℕ) : Option PySetProbeSnapshot :=
  if hasOnlyTailRemovals mutations entries.length then
    materializeTailRemovals mutations entries initialTableSize
  else do
    let undone := mutations.foldr undoStep
      { state := setReplayKeys entries 0, nextReplayId := entries.length }
    let table ← undone.state.foldlM insertReplay
      (PySetProbeSnapshot.withTableSize initialTableSize)
    (mutations.zip undone.known).foldlM redoStep table

def pythonHashSnapshot (s : PySet K) : Option PySetProbeSnapshot :=
  match s.mutationJournal with
  | some mutations => materialize mutations s.entries s.initialTableSize
  | none => s.entries.zipIdx.foldlM
      (fun table key => table.insert ⟨pythonHash key.1, key.2⟩)
      (PySetProbeSnapshot.withTableSize s.initialTableSize)

end journal

inductive Op (K : Type u) where
  | insert (key : K)
  | shiftRemove (key : K)
  | pop
  | retain (keep : ℕ → K → Bool)
  | prepareCpythonMerge (additionalUsed : UInt64)
  | finishCpythonDifferenceUpdate
  | clear

/-- A set whose table follows every operation at once. -/
structure EagerSet (K : Type u) where
  entries : List K := []
  ids : List ℕ := []
  nextId : ℕ := 0
  table : PySetProbeSnapshot

/-- The key an eager set gave an identity to. -/
def EagerSet.keyOf {K : Type u} (e : EagerSet K) (id : ℕ) : Option K := e.entries[e.ids.idxOf id]?

section operations
variable {K : Type u} [BEq K] [DictEntry K]

/-- Destination layout of the exact-dict constructor path. -/
def withCpythonDictCapacity (capacity : ℕ) : PySet K where
  initialTableSize :=
    max (if (setProbeMinsize-1)*3 ≤ capacity*5 then tableSizeForMinused (capacity*2)
      else setProbeMinsize) setProbeMinsize

def record (s : PySet K) (m : SetDeferredMutation) : PySet K :=
  { s with mutationJournal := some (s.mutationJournal.getD []++[m]) }

def insertFull (s : PySet K) (key : K) : (ℕ × Bool) × PySet K :=
  match s.entries.findIdx? (fun stored => stored == key) with
  | some i => ((i, false), s)
  | none =>
    ((s.entries.length, true),
      { s with
        entries := s.entries++[key]
        mutationJournal := s.mutationJournal.map (·++[SetDeferredMutation.inserted]) })

def shiftRemoveIndex (s : PySet K) (i : ℕ) : Option K × PySet K :=
  match s.entries[i]? with
  | none => (none, s)
  | some stored =>
    (some stored,
      record { s with entries := s.entries.eraseIdx i }
        (SetDeferredMutation.removedHash i (pythonHash stored)))

def shiftRemove (s : PySet K) (key : K) : Bool × PySet K :=
  match s.entries.findIdx? (fun stored => stored == key) with
  | none => (false, s)
  | some i => ((shiftRemoveIndex s i).1.isSome, (shiftRemoveIndex s i).2)

def pop (s : PySet K) : Option K × PySet K :=
  if s.entries.isEmpty then (none, s) else shiftRemoveIndex s (s.entries.length-1)

def removals (keep : ℕ → K → Bool) (entries : List K) : List (ℕ × UInt64) :=
  entries.zipIdx.filterMap (fun key =>
    if keep key.2 key.1 then none else some (key.2, pythonHash key.1))

/-- One linear pass over the entries; removals are recorded last first. -/
def retain (s : PySet K) (keep : ℕ → K → Bool) : PySet K :=
  let removed := removals keep s.entries
  if removed.isEmpty then s
  else
    { s with
      entries := (s.entries.zipIdx.filter (fun key => keep key.2 key.1)).map Prod.fst
      mutationJournal := some (s.mutationJournal.getD []++
        removed.reverse.map (fun r => SetDeferredMutation.removedHash r.1 r.2)) }

def prepareCpythonMerge (s : PySet K) (additionalUsed : UInt64) : PySet K :=
  if additionalUsed = 0 then s else record s (SetDeferredMutation.merge additionalUsed)

def step (s : PySet K) : Op K → PySet K
  | .insert key => (insertFull s key).2
  | .shiftRemove key => (shiftRemove s key).2
  | .pop => (pop s).2
  | .retain keep => retain s keep
  | .prepareCpythonMerge n => prepareCpythonMerge s n
  | .finishCpythonDifferenceUpdate => record s SetDeferredMutation.differenceCleanup
  | .clear => {}

def eagerStart (initialTableSize : ℕ) : EagerSet K :=
  { table := PySetProbeSnapshot.withTableSize initialTableSize }

def eagerRemoveIndex (e : EagerSet K) (i : ℕ) : Option (EagerSet K) :=
  match e.entries[i]?, e.ids[i]? with
  | some stored, some id =>
    (e.table.remove (pythonHash stored) id).map (fun table =>
      { e with entries := e.entries.eraseIdx i, ids := e.ids.eraseIdx i, table := table })
  | _, _ => none

def eagerStep (e : EagerSet K) : Op K → Option (EagerSet K)
  | .insert key =>
    match e.entries.findIdx? (fun stored => stored == key) with
    | some _ => some e
    | none =>
      (e.table.insert ⟨pythonHash key, e.nextId⟩).map (fun table =>
        ⟨e.entries++[key], e.ids++[e.nextId], e.nextId+1, table⟩)
  | .shiftRemove key =>
    match e.entries.findIdx? (fun stored => stored == key) with
    | none => some e
    | some i => eagerRemoveIndex e i
  | .pop => if e.entries.isEmpty then some e else eagerRemoveIndex e (e.entries.length-1)
  | .retain keep => (removals keep e.entries).reverse.foldlM (fun e r => eagerRemoveIndex e r.1) e
  | .prepareCpythonMerge n =>
    if n = 0 then some e
    else (e.table.prepareMerge n.toNat).map (fun table => { e with table := table })
  | .finishCpythonDifferenceUpdate =>
    e.table.finishDifferenceUpdate.map (fun table => { e with table := table })
  | .clear => some (eagerStart setProbeMinsize)

end operations

end Pyrust.SetOps
