import Pyrust.DictJournal

/-!
# The probe table of a set

A set table probes nine neighbours of each slot before it jumps, so the probe
order of a hash is one list of slots. Insertion takes the first empty slot of
that list, or the last dummy before it. The source keeps replay identities in
the slots and their hashes beside them; the table is generic in what a slot
holds and takes the hash of a payload as an argument. Loops of the source
that would not end, and the panic of a removal that meets an empty slot, are
`none`.
-/

set_option autoImplicit false

namespace Pyrust.SetProbe
open Pyrust.PerturbProbe Pyrust.DictProbeIndex Pyrust.DictJournal

universe u v

inductive SetSlot (α : Type u) where
  | empty
  | dummy
  | entry (a : α)
  deriving DecidableEq, Repr

namespace SetSlot
variable {α : Type u} {β : Type v}

def isEmpty : SetSlot α → Bool
  | .empty => true
  | _ => false

def payload : SetSlot α → Option α
  | .entry a => some a
  | _ => none

def map (f : α → β) : SetSlot α → SetSlot β
  | .empty => .empty
  | .dummy => .dummy
  | .entry a => .entry (f a)

end SetSlot

structure SetTable (α : Type u) where
  slots : List (SetSlot α)
  fill : ℕ := 0
  used : ℕ := 0
  deriving DecidableEq, Repr

def setProbeMinsize : ℕ := 8
def setProbeLinearProbes : ℕ := 9

/-- A slot with its neighbours, unless they would leave the table. -/
def linearRun (size slot : ℕ) : List ℕ :=
  if slot+setProbeLinearProbes ≤ size-1 then List.range' slot (setProbeLinearProbes+1)
  else [slot]

def visits (size : ℕ) : ℕ → ℕ × ℕ → List ℕ
  | 0, _ => []
  | fuel+1, c => linearRun size c.1++visits size fuel (advance size c)

def probeOrder (size : ℕ) (hash : UInt64) : List ℕ :=
  visits size (budget size) (start size hash.toNat)

def tableSizeForMinused (minused : ℕ) : ℕ :=
  doubleUntil (fun size => minused < size) minused setProbeMinsize

def minusedFor (used : ℕ) : ℕ := if 50000 < used then used*2 else used*4

namespace SetTable
variable {α : Type u}

def size (t : SetTable α) : ℕ := t.slots.length

def slot (t : SetTable α) (s : ℕ) : SetSlot α := t.slots.getD s .empty

def live (t : SetTable α) : List α := t.slots.filterMap SetSlot.payload

def withTableSize (tableSize : ℕ) : SetTable α :=
  { slots := List.replicate (max tableSize setProbeMinsize) .empty }

def hasDummies (t : SetTable α) : Bool := t.fill != t.used

/-- The slot an insertion takes and whether it was empty. -/
def scanInsert (t : SetTable α) : List ℕ → Option ℕ → Option (ℕ × Bool)
  | [], _ => none
  | s::rest, reusableDummy =>
    match t.slot s with
    | .empty =>
      match reusableDummy with
      | none => some (s, true)
      | some dummy => some (dummy, false)
    | .dummy => scanInsert t rest (some s)
    | .entry _ => scanInsert t rest reusableDummy

def insertionSlot (t : SetTable α) (hash : UInt64) : Option (ℕ × Bool) :=
  scanInsert t (probeOrder t.size hash) none

def insertClean (hashOf : α → UInt64) (t : SetTable α) (a : α) : Option (SetTable α) :=
  match (probeOrder t.size (hashOf a)).find? (fun s => (t.slot s).isEmpty) with
  | none => none
  | some s =>
    some { slots := t.slots.set s (.entry a), fill := t.fill+1, used := t.used+1 }

def resize (hashOf : α → UInt64) (t : SetTable α) (minused : ℕ) : Option (SetTable α) :=
  let newSize := tableSizeForMinused minused
  if newSize = setProbeMinsize ∧ t.size = setProbeMinsize ∧ t.hasDummies = false then some t
  else t.live.foldlM (insertClean hashOf) { slots := List.replicate newSize .empty }

def insert (hashOf : α → UInt64) (t : SetTable α) (a : α) (hash : UInt64) :
    Option (SetTable α) :=
  match insertionSlot t hash with
  | none => none
  | some (s, false) =>
    some { t with slots := t.slots.set s (.entry a), used := t.used+1 }
  | some (s, true) =>
    let t : SetTable α :=
      { slots := t.slots.set s (.entry a), fill := t.fill+1, used := t.used+1 }
    if t.fill*5 < (t.size-1)*3 then some t else resize hashOf t (minusedFor t.used)

def prepareMerge (hashOf : α → UInt64) (t : SetTable α) (additionalUsed : ℕ) :
    Option (SetTable α) :=
  if (t.size-1)*3 ≤ (t.fill+additionalUsed)*5 then
    resize hashOf t ((t.used+additionalUsed)*2)
  else some t

def finishDifferenceUpdate (hashOf : α → UInt64) (t : SetTable α) : Option (SetTable α) :=
  if t.fill-t.used ≤ (t.size-1)/4 then some t else resize hashOf t (minusedFor t.used)

def scanRemove (t : SetTable α) (test : α → Bool) : List ℕ → Option ℕ
  | [] => none
  | s::rest =>
    match t.slot s with
    | .empty => none
    | .dummy => scanRemove t test rest
    | .entry a => if test a then some s else scanRemove t test rest

def remove (t : SetTable α) (test : α → Bool) (hash : UInt64) : Option (SetTable α) :=
  (scanRemove t test (probeOrder t.size hash)).map
    (fun s => { t with slots := t.slots.set s .dummy, used := t.used-1 })

end SetTable

structure SetProbeEntry where
  pythonHash : UInt64
  replayId : ℕ
  deriving DecidableEq, Repr

/-- Slots hold replay identities; `hashes` is indexed by identity. -/
structure PySetProbeSnapshot extends SetTable ℕ where
  hashes : List UInt64 := []
  deriving DecidableEq, Repr

namespace PySetProbeSnapshot

def withTableSize (tableSize : ℕ) : PySetProbeSnapshot :=
  { SetTable.withTableSize tableSize with hashes := [] }

def hashOf (hashes : List UInt64) (id : ℕ) : UInt64 := hashes.getD id 0

def registerEntry (hashes : List UInt64) (entry : SetProbeEntry) : List UInt64 :=
  (hashes++List.replicate (entry.replayId+1-hashes.length) 0).set entry.replayId entry.pythonHash

def insert (s : PySetProbeSnapshot) (entry : SetProbeEntry) : Option PySetProbeSnapshot :=
  let hashes := registerEntry s.hashes entry
  (s.toSetTable.insert (hashOf hashes) entry.replayId entry.pythonHash).map
    (fun t => { t with hashes := hashes })

def prepareMerge (s : PySetProbeSnapshot) (additionalUsed : ℕ) : Option PySetProbeSnapshot :=
  (s.toSetTable.prepareMerge (hashOf s.hashes) additionalUsed).map
    (fun t => { t with hashes := s.hashes })

def finishDifferenceUpdate (s : PySetProbeSnapshot) : Option PySetProbeSnapshot :=
  (s.toSetTable.finishDifferenceUpdate (hashOf s.hashes)).map
    (fun t => { t with hashes := s.hashes })

def remove (s : PySetProbeSnapshot) (hash : UInt64) (replayId : ℕ) : Option PySetProbeSnapshot :=
  (s.toSetTable.remove (fun id => id == replayId) hash).map
    (fun t => { t with hashes := s.hashes })

/-- The keys of the live slots in table order; `none` is the failed lookup. -/
def activeKeys {K : Type u} (s : PySetProbeSnapshot) (source : List K) : Option (List K) :=
  s.live.mapM (fun id => source[id]?)

end PySetProbeSnapshot

end Pyrust.SetProbe
