import Pyrust.AttrStorage

/-!
# Instance attributes are an ordered map

Three stores that know nothing of each other, an ordered map and two lists of
slots, are what the storage of an instance stands for. Every operation on the
storage answers as they do, whether there is an index or not, and the index tells
the place of every name and of no other.
-/

set_option autoImplicit false

namespace Pyrust.AttrStorageRuns

open OrderedMaps AttrStorage
open AttrStorage.InstanceAttrs (dropEmptyAux buildIndex tellIndex dropIndex)

universe u v w

section runs
variable {K : Type u} {I : Type v} {V : Type w} [DecidableEq K] [DecidableEq I]

/-! ## Operations -/

/-- The operations on the visible mapping; `write` is what `get_mut` is used for. -/
inductive VisibleOp (K : Type u) (V : Type w) where
  | insert (name : K) (value : V)
  | shiftRemove (name : K)
  | clear
  | write (name : K) (value : V)
  | get (name : K)
  | containsKey (name : K)
  | len
  | isEmpty
  | items
  | getIndex (i : ℕ)
  | inlineIndexOf (name : K)

/-- The operations on a store of slots. -/
inductive SlotOp (A : Type u) (V : Type w) where
  | get (a : A)
  | insert (a : A) (value : V)
  | shiftRemove (a : A)
  | len

inductive Op (K : Type u) (I : Type v) (V : Type w) where
  | visible (op : VisibleOp K V)
  | native (op : SlotOp K V)
  | writeNative (name : K) (value : V)
  | member (op : SlotOp I V)
  | remapMember (remaps : List (I × I))

inductive Reply (K : Type u) (V : Type w) where
  | value (v : Option V)
  | entry (e : Option (K × V))
  | items (es : List (K × V))
  | place (i : Option ℕ)
  | count (n : ℕ)
  | flag (b : Bool)
  | done

/-- An operation on the storage; `none` is a panic. -/
def step (a : InstanceAttrs K I V) : Op K I V → Option (InstanceAttrs K I V × Reply K V)
  | .visible (.insert name value) => (a.insert name value).map fun r => (r.1, .value r.2)
  | .visible (.shiftRemove name) => (a.shiftRemove name).map fun r => (r.1, .value r.2)
  | .visible .clear => some (a.clear, .done)
  | .visible (.write name value) => (a.setMut name value).map fun r => (r.1, .value r.2)
  | .visible (.get name) => (a.get name).map fun r => (a, .value r)
  | .visible (.containsKey name) => some (a, .flag (a.containsKey name))
  | .visible .len => some (a, .count a.entries.length)
  | .visible .isEmpty => some (a, .flag a.entries.isEmpty)
  | .visible .items => some (a, .items a.entries)
  | .visible (.getIndex i) => some (a, .entry a.entries[i]?)
  | .visible (.inlineIndexOf name) => some (a, .place (a.position name))
  | .native (.get name) => some (a, .value (a.getSlot name))
  | .native (.insert name value) =>
    let r := a.insertSlot name value
    some (r.1, .value r.2)
  | .native (.shiftRemove name) =>
    let r := a.shiftRemoveSlot name
    some (r.1, .value r.2)
  | .native .len => some (a, .count a.slotLen)
  | .writeNative name value =>
    let r := a.setSlot name value
    some (r.1, .value r.2)
  | .member (.get id) => some (a, .value (a.getMemberSlot id))
  | .member (.insert id value) =>
    let r := a.insertMemberSlot id value
    some (r.1, .value r.2)
  | .member (.shiftRemove id) =>
    let r := a.shiftRemoveMemberSlot id
    some (r.1, .value r.2)
  | .member .len => some (a, .count a.memberSlotLen)
  | .remapMember remaps => some (a.remapMemberSlots remaps, .done)

/-- The operations one behind the other, with their replies. -/
def run (a : InstanceAttrs K I V) :
    List (Op K I V) → Option (InstanceAttrs K I V × List (Reply K V))
  | [] => some (a, [])
  | op::ops => do
    let r ← step a op
    let s ← run r.1 ops
    some (s.1, r.2::s.2)

/-! ## Three stores -/

/-- What an instance stores: its mapping, its native slots and its member slots. -/
structure Stores (K : Type u) (I : Type v) (V : Type w) where
  mapping : OrderedMap K V
  native : List (K × V)
  member : List (I × V)

def Stores.empty : Stores K I V := ⟨.empty, [], []⟩

/-- The operations on an insertion-ordered map. -/
def mappingStep (m : OrderedMap K V) : VisibleOp K V → OrderedMap K V × Reply K V
  | .insert name value => (m.put name value, .value (m.value name))
  | .shiftRemove name => (m.take name, .value (m.value name))
  | .clear => (.empty, .done)
  | .write name value => (if name ∈ m.order then m.put name value else m, .value (m.value name))
  | .get name => (m, .value (m.value name))
  | .containsKey name => (m, .flag (decide (name ∈ m.order)))
  | .len => (m, .count m.order.length)
  | .isEmpty => (m, .flag m.order.isEmpty)
  | .items => (m, .items m.entries)
  | .getIndex i => (m, .entry m.entries[i]?)
  | .inlineIndexOf name => (m, .place (m.order.idxOf? name))

def slotStep {A : Type u} {B : Type v} [DecidableEq B] (cells : List (B × V)) :
    SlotOp B V → List (B × V) × Reply A V
  | .get a => (cells, .value (lookup cells a))
  | .insert a value =>
    let r := putCell cells a value
    (r.1, .value r.2)
  | .shiftRemove a =>
    let r := takeCell cells a
    (r.1, .value r.2)
  | .len => (cells, .count cells.length)

/-- Each operation reads and changes one store. -/
def Stores.step (s : Stores K I V) : Op K I V → Stores K I V × Reply K V
  | .visible op =>
    let r := mappingStep s.mapping op
    ({ s with mapping := r.1 }, r.2)
  | .native op =>
    let r := slotStep s.native op
    ({ s with native := r.1 }, r.2)
  | .writeNative name value =>
    let r := setCell s.native name value
    ({ s with native := r.1 }, .value r.2)
  | .member op =>
    let r := slotStep s.member op
    ({ s with member := r.1 }, r.2)
  | .remapMember remaps => ({ s with member := remapCells remaps s.member }, .done)

def Stores.run (s : Stores K I V) : List (Op K I V) → Stores K I V × List (Reply K V)
  | [] => (s, [])
  | op::ops =>
    let r := s.step op
    let t := Stores.run r.1 ops
    (t.1, r.2::t.2)

end runs

/-! ## What the storage stands for -/

section boxes
variable {K : Type u} {I : Type v} {V : Type w} (a : InstanceAttrs K I V)

def nativeCells : List (K × V) := (a.aux.map InstanceAttrsAux.nativeSlots).getD []

def memberCells : List (I × V) := (a.aux.map InstanceAttrsAux.memberSlots).getD []

/-- The index tells the place of every name that is stored and of no other, and
there is one where there are many names. -/
def Indexed [DecidableEq K] : Prop :=
  (∀ index, a.index = some index → ∀ k, index k = OrderedMaps.position a.entries k) ∧
    (a.index.isSome ↔ indexThreshold < a.entries.length)

/-- The storage without its index. -/
def unindexed : InstanceAttrs K I V :=
  { a with aux := a.aux.map fun aux => { aux with index := none } }

/-- The storage stands for the stores. -/
structure Represents [DecidableEq K] (a : InstanceAttrs K I V) (s : Stores K I V) : Prop where
  mapping : Holds a.entries s.mapping
  indexed : Indexed a
  native : nativeCells a = s.native
  member : memberCells a = s.member

/-! ## The box and the index -/

@[simp] theorem dropEmptyAux_entries (a : InstanceAttrs K I V) :
    a.dropEmptyAux.entries = a.entries := by
  unfold dropEmptyAux
  split
  case h_1 => split <;> rfl
  case h_2 => rfl

/-- Only a box that holds nothing is dropped. -/
theorem dropEmptyAux_aux (a : InstanceAttrs K I V) :
    a.dropEmptyAux.aux = a.aux ∨
      a.dropEmptyAux.aux = none ∧ a.index = none ∧ nativeCells a = [] ∧ memberCells a = [] := by
  unfold dropEmptyAux
  split
  case h_1 aux haux =>
    split
    case isTrue hempty =>
      simp only [Bool.and_eq_true, Option.isNone_iff_eq_none, List.isEmpty_iff] at hempty
      obtain ⟨⟨hindex, hnative⟩, hmember⟩ := hempty
      exact .inr ⟨rfl, by simp [InstanceAttrs.index, haux, hindex],
        by simp [nativeCells, haux, hnative], by simp [memberCells, haux, hmember]⟩
    case isFalse => exact .inl rfl
  case h_2 => exact .inl rfl

@[simp] theorem dropEmptyAux_index (a : InstanceAttrs K I V) :
    a.dropEmptyAux.index = a.index := by
  rcases dropEmptyAux_aux a with haux | ⟨haux, hindex, -, -⟩
  · rw [InstanceAttrs.index, haux, InstanceAttrs.index]
  · rw [hindex, InstanceAttrs.index, haux]
    rfl

@[simp] theorem dropEmptyAux_native (a : InstanceAttrs K I V) :
    nativeCells a.dropEmptyAux = nativeCells a := by
  rcases dropEmptyAux_aux a with haux | ⟨haux, -, hnative, -⟩
  · rw [nativeCells, haux, nativeCells]
  · rw [hnative, nativeCells, haux]
    rfl

@[simp] theorem dropEmptyAux_member (a : InstanceAttrs K I V) :
    memberCells a.dropEmptyAux = memberCells a := by
  rcases dropEmptyAux_aux a with haux | ⟨haux, -, -, hmember⟩
  · rw [memberCells, haux, memberCells]
  · rw [hmember, memberCells, haux]
    rfl

@[simp] theorem dropIndex_entries (a : InstanceAttrs K I V) : a.dropIndex.entries = a.entries :=
  dropEmptyAux_entries _

@[simp] theorem dropIndex_index (a : InstanceAttrs K I V) : a.dropIndex.index = none := by
  rw [dropIndex, dropEmptyAux_index, InstanceAttrs.index]
  cases a.aux <;> rfl

@[simp] theorem dropIndex_native (a : InstanceAttrs K I V) :
    nativeCells a.dropIndex = nativeCells a := by
  rw [dropIndex, dropEmptyAux_native]
  unfold nativeCells
  cases a.aux <;> rfl

@[simp] theorem dropIndex_member (a : InstanceAttrs K I V) :
    memberCells a.dropIndex = memberCells a := by
  rw [dropIndex, dropEmptyAux_member]
  unfold memberCells
  cases a.aux <;> rfl

end boxes

section places
variable {K : Type u} {I : Type v} {V : Type w} [DecidableEq K]
variable {a b : InstanceAttrs K I V} {s : Stores K I V} {k : K} {i : ℕ}

/-- The fold that builds the index finds the place of each name. -/
theorem fold_position {es : List (K × V)} (h : (es.map Prod.fst).Nodup) (n : ℕ)
    (index : K → Option ℕ) (k : K) :
    (es.zipIdx n).foldl (fun (index : K → Option ℕ) e =>
      Function.update index e.1.1 (some e.2)) index k =
      ((OrderedMaps.position es k).map (· + n)).or (index k) := by
  induction es generalizing n index with
  | nil => rfl
  | cons e es ih =>
    rw [List.map_cons, List.nodup_cons] at h
    rw [List.zipIdx_cons, List.foldl_cons, ih h.2, position_cons]
    by_cases hk : e.1 = k
    · subst hk
      simp [position_none.mpr h.1]
    · rw [if_neg hk, Function.update_of_ne (Ne.symm hk), Option.map_map]
      congr 2
      funext i
      simp only [Function.comp_apply]
      omega

theorem buildIndex_index (h : (a.entries.map Prod.fst).Nodup) :
    a.buildIndex.index = some (OrderedMaps.position a.entries) := by
  have hfold := fold_position h 0 fun _ => none
  refine congrArg some (funext fun k => (hfold k).trans ?_)
  simp

@[simp] theorem buildIndex_native (a : InstanceAttrs K I V) :
    nativeCells a.buildIndex = nativeCells a := by
  unfold nativeCells buildIndex
  cases a.aux <;> rfl

@[simp] theorem buildIndex_member (a : InstanceAttrs K I V) :
    memberCells a.buildIndex = memberCells a := by
  unfold memberCells buildIndex
  cases a.aux <;> rfl

@[simp] theorem tellIndex_index (a : InstanceAttrs K I V) (k : K) (i : ℕ) :
    (a.tellIndex k i).index = a.index.map fun index => Function.update index k (some i) := by
  unfold tellIndex InstanceAttrs.index
  cases a.aux <;> rfl

@[simp] theorem tellIndex_native (a : InstanceAttrs K I V) (k : K) (i : ℕ) :
    nativeCells (a.tellIndex k i) = nativeCells a := by
  unfold nativeCells tellIndex
  cases a.aux <;> rfl

@[simp] theorem tellIndex_member (a : InstanceAttrs K I V) (k : K) (i : ℕ) :
    memberCells (a.tellIndex k i) = memberCells a := by
  unfold memberCells tellIndex
  cases a.aux <;> rfl

/-- Slots are written beside the mapping. -/
theorem Represents.slots (h : Represents a s) (he : b.entries = a.entries)
    (hi : b.index = a.index) {native : List (K × V)} {member : List (I × V)}
    (hn : nativeCells b = native) (hm : memberCells b = member) :
    Represents b ⟨s.mapping, native, member⟩ where
  mapping := by
    rw [he]
    exact h.mapping
  indexed := by
    rw [Indexed, he, hi]
    exact h.indexed
  native := hn
  member := hm

/-- The mapping is written beside the slots. -/
theorem Represents.visible (h : Represents a s) {m : OrderedMap K V}
    (hm : Holds b.entries m) (hi : Indexed b) (hnative : nativeCells b = nativeCells a)
    (hmember : memberCells b = memberCells a) : Represents b { s with mapping := m } where
  mapping := hm
  indexed := hi
  native := hnative.trans h.native
  member := hmember.trans h.member

/-- An empty box is dropped unseen. -/
theorem Represents.dropEmptyAux (h : Represents a s) : Represents a.dropEmptyAux s where
  mapping := by
    rw [dropEmptyAux_entries]
    exact h.mapping
  indexed := by
    rw [Indexed, dropEmptyAux_entries, dropEmptyAux_index]
    exact h.indexed
  native := (dropEmptyAux_native a).trans h.native
  member := (dropEmptyAux_member a).trans h.member

end places

/-! ## The visible mapping -/

section visible
variable {K : Type u} {I : Type v} {V : Type w} [DecidableEq K]
variable {a b : InstanceAttrs K I V} {s : Stores K I V} {k : K} {i : ℕ}

theorem Indexed.position (h : Indexed a) (k : K) :
    a.position k = OrderedMaps.position a.entries k := by
  unfold InstanceAttrs.position
  split
  case h_1 index hindex => exact h.1 index hindex k
  case h_2 => rfl

/-- A name the index holds is an entry, so that a read does not panic. -/
theorem Indexed.get (h : Indexed a) (k : K) : a.get k = some (lookup a.entries k) := by
  unfold InstanceAttrs.get
  split
  case h_1 index hindex =>
    rw [h.1 index hindex k]
    cases hi : OrderedMaps.position a.entries k with
    | none => rw [lookup_none hi]
    | some i =>
      obtain ⟨v, he, hv⟩ := position_some hi
      simp [he, hv]
  case h_2 => rfl

theorem Indexed.containsKey (h : Indexed a) (k : K) :
    a.containsKey k = (OrderedMaps.position a.entries k).isSome := by
  unfold InstanceAttrs.containsKey
  split
  case h_1 index hindex => rw [h.1 index hindex k]
  case h_2 => rw [OrderedMaps.position, List.findIdx?_isSome]

theorem buildIndex_indexed (h : (a.entries.map Prod.fst).Nodup)
    (hwide : indexThreshold < a.entries.length) : Indexed a.buildIndex := by
  have hindex := buildIndex_index h
  refine ⟨fun index hi k => ?_, ?_⟩
  · rw [hindex, Option.some.injEq] at hi
    rw [← hi]
    rfl
  · rw [hindex]
    exact iff_of_true rfl hwide

/-- The value of a name that is stored changes in its place. -/
theorem Represents.overwrite (h : Represents a s)
    (hi : OrderedMaps.position a.entries k = some i) (v : V) :
    Represents { a with entries := a.entries.modify i fun e => (e.1, v) }
      { s with mapping := s.mapping.put k v } := by
  refine h.visible (h.mapping.overwrite hi v) ⟨fun index hindex x => ?_, ?_⟩ rfl rfl
  · exact (h.indexed.1 index hindex x).trans (position_modify _ _ _ x).symm
  · rw [List.length_modify]
    exact h.indexed.2

/-- What is replaced at the place of a name is its value. -/
theorem Represents.replaced (h : Represents a s)
    (hi : OrderedMaps.position a.entries k = some i) :
    ∃ v, a.entries[i]? = some (k, v) ∧ s.mapping.value k = some v := by
  obtain ⟨v, he, hv⟩ := position_some hi
  exact ⟨v, he, (h.mapping.2 k).symm.trans hv⟩

theorem Represents.insert (h : Represents a s) (k : K) (v : V) :
    ∃ b, a.insert k v = some (b, s.mapping.value k) ∧
      Represents b { s with mapping := s.mapping.put k v } := by
  unfold InstanceAttrs.insert
  rw [h.indexed.position k]
  cases hk : OrderedMaps.position a.entries k with
  | some i =>
    obtain ⟨old, he, hold⟩ := h.replaced hk
    refine ⟨_, ?_, h.overwrite hk v⟩
    rw [hold]
    simp only [he, Option.map_some]
  | none =>
    have hnone : s.mapping.value k = none := (h.mapping.2 k).symm.trans (lookup_none hk)
    rw [hnone]
    refine ⟨_, rfl, ?_⟩
    have hheld := h.mapping.append hk v
    split
    case isTrue hbuild =>
      have hdistinct := hheld.distinct
      refine h.visible hheld (buildIndex_indexed hdistinct hbuild.2) ?_ ?_
      · exact (buildIndex_native _).trans (tellIndex_native a k _)
      · exact (buildIndex_member _).trans (tellIndex_member a k _)
    case isFalse hkeep =>
      refine h.visible hheld ⟨fun index hindex x => ?_, ?_⟩
        (tellIndex_native a k _) (tellIndex_member a k _)
      · obtain ⟨index', hindex', rfl⟩ :=
          Option.map_eq_some_iff.mp ((tellIndex_index a k _).symm.trans hindex)
        rw [Function.update_apply, h.indexed.1 index' hindex' x]
        exact (position_append hk v x).symm
      · have hsome : a.index.isSome = (a.tellIndex k a.entries.length).index.isSome := by
          rw [tellIndex_index, Option.isSome_map]
        have hwide := h.indexed.2
        rw [hsome] at hwide
        refine ⟨fun hi => ?_, fun hlen => ?_⟩
        · refine Nat.lt_of_lt_of_le (hwide.mp hi) ?_
          rw [List.length_append]
          exact Nat.le_add_right _ _
        · by_contra hi
          exact hkeep ⟨Option.not_isSome_iff_eq_none.mp hi ▸ rfl, hlen⟩

theorem Represents.setMut (h : Represents a s) (k : K) (v : V) :
    ∃ b, a.setMut k v = some (b, s.mapping.value k) ∧
      Represents b { s with mapping := if k ∈ s.mapping.order then s.mapping.put k v
        else s.mapping } := by
  unfold InstanceAttrs.setMut
  rw [h.indexed.position k]
  cases hk : OrderedMaps.position a.entries k with
  | some i =>
    obtain ⟨old, he, hold⟩ := h.replaced hk
    have hmem : k ∈ s.mapping.order := (h.mapping.mem k).mpr (by rw [hk]; rfl)
    rw [if_pos hmem, hold]
    refine ⟨_, ?_, h.overwrite hk v⟩
    simp only [he, Option.map_some]
  | none =>
    have hnone : s.mapping.value k = none := (h.mapping.2 k).symm.trans (lookup_none hk)
    have hmem : k ∉ s.mapping.order := by simp [h.mapping.mem k, hk]
    rw [if_neg hmem, hnone]
    exact ⟨_, rfl, h⟩

theorem Represents.shiftRemove (h : Represents a s) (k : K) :
    ∃ b, a.shiftRemove k = some (b, s.mapping.value k) ∧
      Represents b { s with mapping := s.mapping.take k } := by
  unfold InstanceAttrs.shiftRemove
  rw [h.indexed.position k]
  cases hk : OrderedMaps.position a.entries k with
  | some i =>
    obtain ⟨old, he, hold⟩ := h.replaced hk
    have hheld := h.mapping.remove hk
    rw [hold]
    refine ⟨_, by simp only [he, Option.map_some]; rfl, ?_⟩
    split
    case isTrue =>
      split
      case isTrue hwide =>
        exact h.visible hheld (buildIndex_indexed hheld.distinct hwide)
          (buildIndex_native _) (buildIndex_member _)
      case isFalse hnarrow =>
        have hindex : Indexed { a with entries := a.entries.eraseIdx i }.dropIndex := by
          refine ⟨fun index hindex => ?_, ?_⟩
          · rw [dropIndex_index] at hindex
            cases hindex
          · rw [dropIndex_index, dropIndex_entries]
            exact iff_of_false (by simp) hnarrow
        refine h.visible ?_ hindex (dropIndex_native _) (dropIndex_member _)
        rw [dropIndex_entries]
        exact hheld
    case isFalse hnone =>
      refine h.visible hheld ⟨fun index hindex => ?_, ?_⟩ rfl rfl
      · exact absurd (Option.isSome_iff_exists.mpr ⟨index, hindex⟩) hnone
      · refine iff_of_false hnone fun hwide => hnone (h.indexed.2.mpr ?_)
        exact Nat.lt_of_lt_of_le hwide (List.length_eraseIdx_le _ _)
  | none =>
    have hnone : s.mapping.value k = none := (h.mapping.2 k).symm.trans (lookup_none hk)
    rw [hnone]
    exact ⟨_, rfl, h.visible (h.mapping.absent hk) h.indexed rfl rfl⟩

theorem Represents.clear (h : Represents a s) :
    Represents a.clear { s with mapping := .empty } := by
  have hentries : a.clear.entries = [] := dropIndex_entries _
  have hindex : a.clear.index = none := dropIndex_index _
  refine h.visible ?_ ⟨fun index hi => ?_, ?_⟩ (dropIndex_native _) (dropIndex_member _)
  · rw [hentries]
    exact .nil
  · rw [hindex] at hi
    cases hi
  · rw [hindex, hentries]
    exact iff_of_false (by simp) (by simp [indexThreshold])

end visible

/-! ## Slots -/

section slots
variable {K : Type u} {I : Type v} {V : Type w} [DecidableEq K]
variable {a : InstanceAttrs K I V} {s : Stores K I V}

theorem getSlot_eq (a : InstanceAttrs K I V) (k : K) :
    a.getSlot k = lookup (nativeCells a) k := by
  unfold InstanceAttrs.getSlot nativeCells
  cases a.aux <;> rfl

omit [DecidableEq K] in
theorem slotLen_eq (a : InstanceAttrs K I V) : a.slotLen = (nativeCells a).length := by
  unfold InstanceAttrs.slotLen nativeCells
  cases a.aux <;> rfl

theorem Represents.setSlot (h : Represents a s) (k : K) (v : V) :
    (a.setSlot k v).2 = (setCell s.native k v).2 ∧
      Represents (a.setSlot k v).1 { s with native := (setCell s.native k v).1 } := by
  rw [← h.native]
  rcases a with ⟨entries, - | aux⟩
  · refine ⟨rfl, h.slots ?_ ?_ ?_ h.member⟩ <;> rfl
  · refine ⟨rfl, h.slots ?_ ?_ ?_ h.member⟩ <;> rfl

theorem Represents.insertSlot (h : Represents a s) (k : K) (v : V) :
    (a.insertSlot k v).2 = (putCell s.native k v).2 ∧
      Represents (a.insertSlot k v).1 { s with native := (putCell s.native k v).1 } := by
  rw [← h.native]
  rcases a with ⟨entries, - | aux⟩
  · refine ⟨rfl, h.slots ?_ ?_ ?_ h.member⟩ <;> rfl
  · refine ⟨rfl, h.slots ?_ ?_ ?_ h.member⟩ <;> rfl

/-- A cell that is not found is not taken. -/
theorem takeCell_absent {A : Type u} [DecidableEq A] {cells : List (A × V)} {x : A}
    (h : ¬ (position cells x).isSome) : takeCell cells x = (cells, none) := by
  rw [takeCell, Option.not_isSome_iff_eq_none.mp h]

theorem Represents.shiftRemoveSlot (h : Represents a s) (k : K) :
    (a.shiftRemoveSlot k).2 = (takeCell s.native k).2 ∧
      Represents (a.shiftRemoveSlot k).1 { s with native := (takeCell s.native k).1 } := by
  rw [← h.native]
  unfold InstanceAttrs.shiftRemoveSlot
  split
  case h_1 aux haux =>
    have hcells : nativeCells a = aux.nativeSlots := by rw [nativeCells, haux]; rfl
    rw [hcells]
    split
    case isTrue =>
      have htaken : Represents
          { a with aux := some { aux with nativeSlots := (takeCell aux.nativeSlots k).1 } }
          { s with native := (takeCell aux.nativeSlots k).1 } := by
        refine h.slots ?_ ?_ ?_ ?_
        · rfl
        · rw [InstanceAttrs.index, InstanceAttrs.index, haux]
          rfl
        · rfl
        · rw [← h.member, memberCells, memberCells, haux]
          rfl
      exact ⟨rfl, htaken.dropEmptyAux⟩
    case isFalse hno =>
      rw [takeCell_absent hno, ← hcells, h.native]
      exact ⟨rfl, h⟩
  case h_2 haux =>
    have hcells : nativeCells a = [] := by rw [nativeCells, haux]; rfl
    rw [hcells, takeCell_absent (by simp [position]), ← hcells, h.native]
    exact ⟨rfl, h⟩

omit [DecidableEq K] in
theorem memberSlotLen_eq (a : InstanceAttrs K I V) :
    a.memberSlotLen = (memberCells a).length := by
  unfold InstanceAttrs.memberSlotLen memberCells
  cases a.aux <;> rfl

variable [DecidableEq I]

omit [DecidableEq K] in
theorem getMemberSlot_eq (a : InstanceAttrs K I V) (id : I) :
    a.getMemberSlot id = lookup (memberCells a) id := by
  unfold InstanceAttrs.getMemberSlot memberCells
  cases a.aux <;> rfl

theorem Represents.insertMemberSlot (h : Represents a s) (id : I) (v : V) :
    (a.insertMemberSlot id v).2 = (putCell s.member id v).2 ∧
      Represents (a.insertMemberSlot id v).1 { s with member := (putCell s.member id v).1 } := by
  rw [← h.member]
  rcases a with ⟨entries, - | aux⟩
  · refine ⟨rfl, h.slots ?_ ?_ h.native ?_⟩ <;> rfl
  · refine ⟨rfl, h.slots ?_ ?_ h.native ?_⟩ <;> rfl

theorem Represents.shiftRemoveMemberSlot (h : Represents a s) (id : I) :
    (a.shiftRemoveMemberSlot id).2 = (takeCell s.member id).2 ∧
      Represents (a.shiftRemoveMemberSlot id).1
        { s with member := (takeCell s.member id).1 } := by
  rw [← h.member]
  unfold InstanceAttrs.shiftRemoveMemberSlot
  split
  case h_1 aux haux =>
    have hcells : memberCells a = aux.memberSlots := by rw [memberCells, haux]; rfl
    rw [hcells]
    split
    case isTrue =>
      have htaken : Represents
          { a with aux := some { aux with memberSlots := (takeCell aux.memberSlots id).1 } }
          { s with member := (takeCell aux.memberSlots id).1 } := by
        refine h.slots ?_ ?_ ?_ ?_
        · rfl
        · rw [InstanceAttrs.index, InstanceAttrs.index, haux]
          rfl
        · rw [← h.native, nativeCells, nativeCells, haux]
          rfl
        · rfl
      exact ⟨rfl, htaken.dropEmptyAux⟩
    case isFalse hno =>
      rw [takeCell_absent hno, ← hcells, h.member]
      exact ⟨rfl, h⟩
  case h_2 haux =>
    have hcells : memberCells a = [] := by rw [memberCells, haux]; rfl
    rw [hcells, takeCell_absent (by simp [position]), ← hcells, h.member]
    exact ⟨rfl, h⟩

theorem Represents.remapMemberSlots (h : Represents a s) (remaps : List (I × I)) :
    Represents (a.remapMemberSlots remaps) { s with member := remapCells remaps s.member } := by
  rw [← h.member]
  rcases a with ⟨entries, - | aux⟩
  · refine h.slots ?_ ?_ h.native ?_ <;> rfl
  · refine h.slots ?_ ?_ h.native ?_ <;> rfl

end slots

/-! ## Steps and runs -/

section results
variable {K : Type u} {I : Type v} {V : Type w} [DecidableEq K] [DecidableEq I]
variable {a : InstanceAttrs K I V} {s : Stores K I V}

theorem Represents.visibleStep (h : Represents a s) (op : VisibleOp K V) :
    ∃ b, step a (.visible op) = some (b, (s.step (.visible op)).2) ∧
      Represents b (s.step (.visible op)).1 := by
  cases op with
  | insert k v =>
    obtain ⟨b, hb, hrep⟩ := h.insert k v
    exact ⟨b, by rw [step, hb]; rfl, hrep⟩
  | shiftRemove k =>
    obtain ⟨b, hb, hrep⟩ := h.shiftRemove k
    exact ⟨b, by rw [step, hb]; rfl, hrep⟩
  | clear => exact ⟨a.clear, rfl, h.clear⟩
  | write k v =>
    obtain ⟨b, hb, hrep⟩ := h.setMut k v
    exact ⟨b, by rw [step, hb]; rfl, hrep⟩
  | get k =>
    refine ⟨a, ?_, h⟩
    rw [step, h.indexed.get, h.mapping.2 k]
    rfl
  | containsKey k =>
    refine ⟨a, ?_, h⟩
    rw [step, h.indexed.containsKey]
    have hmem := h.mapping.mem k
    simp only [Stores.step, mappingStep, hmem, Bool.decide_eq_true]
  | len =>
    refine ⟨a, ?_, h⟩
    rw [step, ← List.length_map Prod.fst, h.mapping.1]
    rfl
  | isEmpty =>
    refine ⟨a, ?_, h⟩
    rw [step, ← List.isEmpty_map (f := Prod.fst), h.mapping.1]
    rfl
  | items =>
    refine ⟨a, ?_, h⟩
    rw [step, h.mapping.entries]
    rfl
  | getIndex i =>
    refine ⟨a, ?_, h⟩
    rw [step, h.mapping.entries]
    rfl
  | inlineIndexOf k =>
    refine ⟨a, ?_, h⟩
    rw [step, h.indexed.position, h.mapping.position]
    rfl

/-- Every operation answers as the stores do. -/
theorem Represents.step (h : Represents a s) (op : Op K I V) :
    ∃ b, step a op = some (b, (s.step op).2) ∧ Represents b (s.step op).1 := by
  cases op with
  | visible op => exact h.visibleStep op
  | native op =>
    cases op with
    | get k =>
      refine ⟨a, ?_, h⟩
      rw [AttrStorageRuns.step, getSlot_eq, h.native]
      rfl
    | insert k v =>
      obtain ⟨hreply, hrep⟩ := h.insertSlot k v
      exact ⟨_, by simp [AttrStorageRuns.step, Stores.step, slotStep, hreply], hrep⟩
    | shiftRemove k =>
      obtain ⟨hreply, hrep⟩ := h.shiftRemoveSlot k
      exact ⟨_, by simp [AttrStorageRuns.step, Stores.step, slotStep, hreply], hrep⟩
    | len =>
      refine ⟨a, ?_, h⟩
      rw [AttrStorageRuns.step, slotLen_eq, h.native]
      rfl
  | writeNative k v =>
    obtain ⟨hreply, hrep⟩ := h.setSlot k v
    exact ⟨_, by simp [AttrStorageRuns.step, Stores.step, hreply], hrep⟩
  | member op =>
    cases op with
    | get id =>
      refine ⟨a, ?_, h⟩
      rw [AttrStorageRuns.step, getMemberSlot_eq, h.member]
      rfl
    | insert id v =>
      obtain ⟨hreply, hrep⟩ := h.insertMemberSlot id v
      exact ⟨_, by simp [AttrStorageRuns.step, Stores.step, slotStep, hreply], hrep⟩
    | shiftRemove id =>
      obtain ⟨hreply, hrep⟩ := h.shiftRemoveMemberSlot id
      exact ⟨_, by simp [AttrStorageRuns.step, Stores.step, slotStep, hreply], hrep⟩
    | len =>
      refine ⟨a, ?_, h⟩
      rw [AttrStorageRuns.step, memberSlotLen_eq, h.member]
      rfl
  | remapMember remaps => exact ⟨_, rfl, h.remapMemberSlots remaps⟩

theorem Represents.run (h : Represents a s) (ops : List (Op K I V)) :
    ∃ b, run a ops = some (b, (s.run ops).2) ∧ Represents b (s.run ops).1 := by
  induction ops generalizing a s with
  | nil => exact ⟨a, rfl, h⟩
  | cons op ops ih =>
    obtain ⟨b, hb, hrep⟩ := h.step op
    obtain ⟨c, hc, hend⟩ := ih hrep
    refine ⟨c, ?_, hend⟩
    simp only [AttrStorageRuns.run, hb, Option.bind_eq_bind, Option.bind_some, hc]
    rfl

/-- How an instance starts. -/
inductive Start where
  | new
  | withCapacity (cap : ℕ)
  | withSlotCapacity (cap : ℕ)

def Start.build : Start → InstanceAttrs K I V
  | .new => .new
  | .withCapacity _ => .new
  | .withSlotCapacity _ => .withSlotCapacity

omit [DecidableEq I] in
theorem Represents.start (start : Start) :
    Represents (start.build : InstanceAttrs K I V) Stores.empty := by
  have hentries : (start.build : InstanceAttrs K I V).entries = [] := by cases start <;> rfl
  have hindex : (start.build : InstanceAttrs K I V).index = none := by cases start <;> rfl
  refine ⟨hentries ▸ .nil, ⟨fun index hi => ?_, ?_⟩, ?_, ?_⟩
  · rw [hindex] at hi
    cases hi
  · rw [hindex, hentries]
    exact iff_of_false (by simp) (by simp [indexThreshold])
  · cases start <;> rfl
  · cases start <;> rfl

omit [DecidableEq I] in
/-- The answers without the index. -/
theorem Indexed.unindexed (h : Indexed a) (k : K) :
    a.position k = (unindexed a).position k ∧ a.get k = (unindexed a).get k ∧
      a.containsKey k = (unindexed a).containsKey k := by
  have hnone : (AttrStorageRuns.unindexed a).index = none := by
    unfold AttrStorageRuns.unindexed InstanceAttrs.index
    cases a.aux <;> rfl
  refine ⟨?_, ?_, ?_⟩
  · rw [h.position, InstanceAttrs.position, hnone]
    rfl
  · rw [h.get, InstanceAttrs.get, hnone]
    rfl
  · rw [h.containsKey, InstanceAttrs.containsKey, hnone, OrderedMaps.position,
      List.findIdx?_isSome]
    rfl

/-- However an instance starts and whatever is done to it, no operation panics and
each answers as an ordered map and two stores of slots would, an index tells the
places of the names, and the answers are those without it. -/
theorem storage_ordered_map (start : Start) (ops : List (Op K I V)) :
    ∃ a, run start.build ops = some (a, (Stores.empty.run ops).2) ∧
      Represents a (Stores.empty.run ops).1 ∧
      ∀ k, a.position k = (unindexed a).position k ∧ a.get k = (unindexed a).get k ∧
        a.containsKey k = (unindexed a).containsKey k := by
  obtain ⟨a, ha, hrep⟩ := (Represents.start start).run ops
  exact ⟨a, ha, hrep, hrep.indexed.unindexed⟩

end results

end Pyrust.AttrStorageRuns
