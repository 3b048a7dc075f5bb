import Pyrust.OrderedMaps

/-!
# Instance attributes

The attributes of an instance are a list of names and values. More than sixteen
of them have a hash index at their side, which shares a box with two stores of
slots; the box is dropped when all three are empty. The instance is not backed by
a dict of its own, so that the public operations are the inline ones.
-/

set_option autoImplicit false

namespace Pyrust.AttrStorage

open OrderedMaps

universe u v w

section storage
variable {K : Type u} {I : Type v} {V : Type w}

/-- `InstanceAttrsAux`. -/
structure InstanceAttrsAux (K : Type u) (I : Type v) (V : Type w) where
  index : Option (K → Option ℕ)
  nativeSlots : List (K × V)
  memberSlots : List (I × V)

structure InstanceAttrs (K : Type u) (I : Type v) (V : Type w) where
  entries : List (K × V)
  aux : Option (InstanceAttrsAux K I V)

def indexThreshold : ℕ := 16

def InstanceAttrsAux.default : InstanceAttrsAux K I V := ⟨none, [], []⟩

/-! ## Stores of slots -/

section cells
variable {A : Type u} [DecidableEq A]

/-- A cell is overwritten where it is found, or pushed. -/
def putCell (cells : List (A × V)) (a : A) (value : V) : List (A × V) × Option V :=
  match position cells a with
  | some i => (cells.modify i fun e => (e.1, value), lookup cells a)
  | none => (cells ++ [(a, value)], none)

def setCell (cells : List (A × V)) (a : A) (value : V) : List (A × V) × Option V :=
  match position cells a with
  | some i => (cells.modify i fun e => (e.1, value), lookup cells a)
  | none => (cells, none)

def takeCell (cells : List (A × V)) (a : A) : List (A × V) × Option V :=
  match position cells a with
  | some i => (cells.eraseIdx i, lookup cells a)
  | none => (cells, none)

def remapCells (remaps : List (A × A)) (cells : List (A × V)) : List (A × V) :=
  cells.map fun e => match remaps.find? fun r => r.1 = e.1 with
    | some r => (r.2, e.2)
    | none => e

end cells

namespace InstanceAttrs
variable [DecidableEq K] [DecidableEq I] (a : InstanceAttrs K I V)

def new : InstanceAttrs K I V := ⟨[], none⟩

def withSlotCapacity : InstanceAttrs K I V := ⟨[], some .default⟩

/-- The side index, when there is one. -/
def index : Option (K → Option ℕ) := a.aux.bind InstanceAttrsAux.index

/-- `drop_empty_aux`. -/
def dropEmptyAux : InstanceAttrs K I V :=
  match a.aux with
  | some aux =>
    if aux.index.isNone && aux.nativeSlots.isEmpty && aux.memberSlots.isEmpty then
      { a with aux := none }
    else a
  | none => a

/-! ## Slots -/

/-- `get_slot`, and `get_cloned_or_slot`. -/
def getSlot (name : K) : Option V := a.aux.bind fun aux => lookup aux.nativeSlots name

/-- `get_slot_mut`, and the value that is written there. -/
def setSlot (name : K) (value : V) : InstanceAttrs K I V × Option V :=
  match a.aux with
  | some aux =>
    let r := setCell aux.nativeSlots name value
    ({ a with aux := some { aux with nativeSlots := r.1 } }, r.2)
  | none => (a, none)

/-- `insert_slot`. -/
def insertSlot (name : K) (value : V) : InstanceAttrs K I V × Option V :=
  let aux := a.aux.getD .default
  let r := putCell aux.nativeSlots name value
  ({ a with aux := some { aux with nativeSlots := r.1 } }, r.2)

/-- `shift_remove_slot`. -/
def shiftRemoveSlot (name : K) : InstanceAttrs K I V × Option V :=
  match a.aux with
  | some aux =>
    if (position aux.nativeSlots name).isSome then
      let r := takeCell aux.nativeSlots name
      (dropEmptyAux { a with aux := some { aux with nativeSlots := r.1 } }, r.2)
    else (a, none)
  | none => (a, none)

def slotLen : ℕ := (a.aux.map fun aux => aux.nativeSlots.length).getD 0

/-- `get_member_slot`. -/
def getMemberSlot (id : I) : Option V := a.aux.bind fun aux => lookup aux.memberSlots id

/-- `insert_member_slot`. -/
def insertMemberSlot (id : I) (value : V) : InstanceAttrs K I V × Option V :=
  let aux := a.aux.getD .default
  let r := putCell aux.memberSlots id value
  ({ a with aux := some { aux with memberSlots := r.1 } }, r.2)

/-- `shift_remove_member_slot`. -/
def shiftRemoveMemberSlot (id : I) : InstanceAttrs K I V × Option V :=
  match a.aux with
  | some aux =>
    if (position aux.memberSlots id).isSome then
      let r := takeCell aux.memberSlots id
      (dropEmptyAux { a with aux := some { aux with memberSlots := r.1 } }, r.2)
    else (a, none)
  | none => (a, none)

/-- `remap_member_slots`. -/
def remapMemberSlots (remaps : List (I × I)) : InstanceAttrs K I V :=
  { a with aux := a.aux.map fun aux =>
      { aux with memberSlots := remapCells remaps aux.memberSlots } }

def memberSlotLen : ℕ := (a.aux.map fun aux => aux.memberSlots.length).getD 0

/-! ## The visible mapping -/

/-- `position`. -/
def position (name : K) : Option ℕ :=
  match a.index with
  | some index => index name
  | none => OrderedMaps.position a.entries name

/-- `build_index`. -/
def buildIndex : InstanceAttrs K I V :=
  let index : K → Option ℕ := a.entries.zipIdx.foldl
    (fun index e => Function.update index e.1.1 (some e.2)) fun _ => none
  { a with aux := some { a.aux.getD .default with index := some index } }

/-- `get`, which indexes the entries behind a hit of the index. -/
def get (name : K) : Option (Option V) :=
  match a.index with
  | some index => match index name with
    | some i => (a.entries[i]?).map fun e => some e.2
    | none => some none
  | none => some (lookup a.entries name)

/-- `get_mut`, and the value that is written there. -/
def setMut (name : K) (value : V) : Option (InstanceAttrs K I V × Option V) :=
  match a.position name with
  | some pos => (a.entries[pos]?).map fun e =>
      ({ a with entries := a.entries.modify pos fun e => (e.1, value) }, some e.2)
  | none => some (a, none)

/-- `inline_contains_key`. -/
def containsKey (name : K) : Bool :=
  match a.index with
  | some index => (index name).isSome
  | none => a.entries.any fun e => e.1 = name

/-- The index, told where a new name stands. -/
def tellIndex (name : K) (slot : ℕ) : InstanceAttrs K I V :=
  { a with aux := a.aux.map fun aux =>
      { aux with index := aux.index.map fun index => Function.update index name (some slot) } }

/-- `insert_inline`. -/
def insert (name : K) (value : V) : Option (InstanceAttrs K I V × Option V) :=
  match a.position name with
  | some pos => (a.entries[pos]?).map fun e =>
      ({ a with entries := a.entries.modify pos fun e => (e.1, value) }, some e.2)
  | none =>
    let a := a.tellIndex name a.entries.length
    let a := { a with entries := a.entries ++ [(name, value)] }
    some (if a.index.isNone ∧ indexThreshold < a.entries.length then a.buildIndex else a, none)

def dropIndex : InstanceAttrs K I V :=
  dropEmptyAux { a with aux := a.aux.map fun aux => { aux with index := none } }

/-- `shift_remove_inline`. -/
def shiftRemove (name : K) : Option (InstanceAttrs K I V × Option V) :=
  match a.position name with
  | some pos => (a.entries[pos]?).map fun e =>
    let a := { a with entries := a.entries.eraseIdx pos }
    (if a.index.isSome then
      if indexThreshold < a.entries.length then a.buildIndex else a.dropIndex
    else a, some e.2)
  | none => some (a, none)

/-- `clear_inline`. -/
def clear : InstanceAttrs K I V := dropIndex { a with entries := [] }

end InstanceAttrs

end storage

end Pyrust.AttrStorage
