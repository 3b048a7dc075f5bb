import Pyrust.DictMirror

/-!
# The deferred mutation journal of a dict

Between a removal and the first probe the dict records one word per mutation.
An insertion is a bare mark, a removal keeps its position and the hash and
kind of the key. Materializing undoes the journal against the current order,
with placeholders for keys that are gone, and replays it on a fresh table.
The order-statistic tree of the source is a list here.
-/

set_option autoImplicit false

namespace Pyrust.DictJournal
open Pyrust.DictProbeIndex Pyrust.DictProbeInvariant Pyrust.DictMirror Pyrust.HoleyList

universe u

structure DictReplayKey (K : Type u) where
  key : Option K
  pythonHash : UInt64
  isStr : Bool
  replayId : ℕ
  deriving DecidableEq, Repr

instance {K : Type u} : DictEntry (DictReplayKey K) where
  pythonHash := DictReplayKey.pythonHash
  isStr := DictReplayKey.isStr

def dictMutationInsert : ℕ := 0
def dictMutationRemove : ℕ := 1
def dictMutationPop : ℕ := 2
def dictMutationIsStr : ℕ := 4

structure DictDeferredMutation where
  pythonHash : UInt64
  positionAndFlags : ℕ
  deriving DecidableEq, Repr

namespace DictDeferredMutation

def inserted : DictDeferredMutation := ⟨0, dictMutationInsert⟩

def removed {K : Type u} [DictEntry K] (index : ℕ) (key : K) (popped : Bool) :
    DictDeferredMutation :=
  let kind := if popped then dictMutationPop else dictMutationRemove
  let isStr := (DictEntry.isStr key).toNat*dictMutationIsStr
  ⟨DictEntry.pythonHash key, index <<< 3 ||| isStr ||| kind⟩

def kind (m : DictDeferredMutation) : ℕ := m.positionAndFlags &&& 3

def position (m : DictDeferredMutation) : ℕ := m.positionAndFlags >>> 3

def isStr (m : DictDeferredMutation) : Bool := m.positionAndFlags &&& dictMutationIsStr != 0

end DictDeferredMutation

structure DictMutationJournal where
  mutations : List DictDeferredMutation
  nonPopRemovals : ℕ
  hasPop : Bool
  usable : ℕ
  deriving DecidableEq, Repr

/-- Capacity after a table has grown from `placed` live entries. -/
def regrown (placed : ℕ) : ℕ :=
  dictProbeUsableFraction (tableSizeForTarget (placed*3))-placed

/-- Resize epochs: fill the remaining capacity in one batch, then grow. -/
def epochs (liveLen : ℕ) : ℕ → ℕ → ℕ → ℕ
  | 0, _, usable => usable
  | fuel+1, placed, usable =>
    if placed < liveLen then
      let usable := if usable = 0 then regrown placed else usable
      let batch := min usable (liveLen-placed)
      epochs liveLen fuel (placed+batch) (usable-batch)
    else usable

def fromCurrentEntries (initialTableSize liveLen : ℕ) : DictMutationJournal where
  mutations := []
  nonPopRemovals := 0
  hasPop := false
  usable := epochs liveLen liveLen 0 (dictProbeUsableFraction initialTableSize)

namespace DictMutationJournal

/-- A resize drops the history; its table size becomes the new baseline. -/
def recordInserted (j : DictMutationJournal) (liveLenAfter : ℕ) :
    DictMutationJournal × Option ℕ :=
  let liveLenBefore := liveLenAfter-1
  if j.usable = 0 then
    (⟨[], 0, false, regrown liveLenBefore-1⟩, some (tableSizeForTarget (liveLenBefore*3)))
  else
    ({ j with
      mutations := j.mutations++[DictDeferredMutation.inserted]
      usable := j.usable-1 }, none)

def recordRemoved {K : Type u} [DictEntry K] (j : DictMutationJournal) (index : ℕ) (key : K)
    (popped : Bool) : DictMutationJournal :=
  { j with
    mutations := j.mutations++[DictDeferredMutation.removed index key popped]
    nonPopRemovals := if popped then j.nonPopRemovals else j.nonPopRemovals+1
    hasPop := j.hasPop || popped }

def copyDefinitelyPreservesLayout (j : DictMutationJournal) (liveLen : ℕ) : Bool :=
  (liveLen+j.nonPopRemovals)*2/3 ≤ liveLen

def copyDefinitelyCompactsLayout (j : DictMutationJournal) (liveLen : ℕ) : Bool :=
  !j.hasPop && liveLen < (liveLen+j.nonPopRemovals)*2/3

end DictMutationJournal

section materialize
variable {K : Type u} [DictEntry K]

def replayKeys : List K → ℕ → List (DictReplayKey K)
  | [], _ => []
  | key::keys, id => ⟨some key, pythonHash key, isStr key, id⟩::replayKeys keys (id+1)

/-- The undo walk: live order, the keys taken back so far, the next identity. -/
structure Undone (K : Type u) where
  state : List (DictReplayKey K)
  insertedKeys : List (Option (DictReplayKey K))
  nextReplayId : ℕ

def placeholder (m : DictDeferredMutation) (id : ℕ) : DictReplayKey K :=
  ⟨none, m.pythonHash, m.isStr, id⟩

def undoStep (m : DictDeferredMutation) (u : Undone K) : Undone K :=
  if m.kind = dictMutationInsert then
    ⟨u.state.dropLast, u.state.getLast?::u.insertedKeys, u.nextReplayId⟩
  else if m.kind = dictMutationRemove then
    ⟨u.state.insertIdx m.position (placeholder m u.nextReplayId), none::u.insertedKeys,
      u.nextReplayId+1⟩
  else if m.kind = dictMutationPop then
    ⟨u.state++[placeholder m u.nextReplayId], none::u.insertedKeys, u.nextReplayId+1⟩
  else u

/-- Mutations are undone last first. -/
def undo (mutations : List DictDeferredMutation) (u : Undone K) : Undone K :=
  mutations.foldr undoStep u

def replaySlot (index : DictPythonHashIndex (DictReplayKey K)) (key : DictReplayKey K) :
    Option ℕ :=
  lookupSlot index (fun stored => stored.replayId == key.replayId) key.pythonHash

def recordRemovedReplay (index : DictPythonHashIndex (DictReplayKey K)) (key : DictReplayKey K)
    (popped : Bool) : DictPythonHashIndex (DictReplayKey K) :=
  match replaySlot index key with
  | none => index
  | some s =>
    if popped then truncatePoppedEntries (markSlotRemoved index s) else markSlotRemoved index s

structure Replay (K : Type u) where
  state : List (DictReplayKey K)
  index : DictPythonHashIndex (DictReplayKey K)

def redoStep (r : Replay K) (m : DictDeferredMutation × Option (DictReplayKey K)) : Replay K :=
  if m.1.kind = dictMutationInsert then
    match m.2 with
    | none => r
    | some key => ⟨r.state++[key], DictProbeIndex.recordInserted r.index key⟩
  else if m.1.kind = dictMutationRemove then
    match r.state[m.1.position]? with
    | none => r
    | some key => ⟨r.state.eraseIdx m.1.position, recordRemovedReplay r.index key false⟩
  else if m.1.kind = dictMutationPop then
    match r.state.getLast? with
    | none => r
    | some key => ⟨r.state.dropLast, recordRemovedReplay r.index key true⟩
  else r

def redo (mutations : List DictDeferredMutation) (insertedKeys : List (Option (DictReplayKey K)))
    (r : Replay K) : Replay K :=
  (mutations.zip insertedKeys).foldl redoStep r

/-- Leaving replay mode keeps the stored keys and drops the identities. -/
def finishReplay (index : DictPythonHashIndex (DictReplayKey K)) : DictPythonHashIndex K where
  indices := index.indices
  entryKeys := index.entryKeys.map (fun entry => entry.bind DictReplayKey.key)
  usable := index.usable
  liveLen := index.liveLen
  unicodeOnly := index.unicodeOnly

def materialize (j : DictMutationJournal) (keys : List K) (initialTableSize : ℕ)
    (initialUnicodeOnly currentUnicodeOnly : Bool) : DictPythonHashIndex K :=
  let undone := undo j.mutations ⟨replayKeys keys 0, [], keys.length⟩
  let index := undone.state.foldl DictProbeIndex.recordInserted
    (freshTable initialTableSize initialUnicodeOnly)
  let replayed := (redo j.mutations undone.insertedKeys ⟨undone.state, index⟩).index
  finishReplay
    (if !currentUnicodeOnly && replayed.unicodeOnly then prepareGeneralInsert replayed
    else replayed)

end materialize

end Pyrust.DictJournal
