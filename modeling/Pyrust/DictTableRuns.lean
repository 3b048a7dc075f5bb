import Pyrust.DictLazy

/-!
# Runs of operations on a dict table

A dict table may take any operation in any order: a key that it holds already is
entered once more, and a key that it has lost leaves it alone. Every slot of an
entry leads to a live entry throughout, and every loop comes to an empty slot. An
unallocated table has no slots at all, and its loops return before they probe.
-/

set_option autoImplicit false

namespace Pyrust.DictTableRuns
open Pyrust.PerturbProbe Pyrust.DictProbeIndex Pyrust.DictProbeInvariant Pyrust.DictLazy

universe u
variable {α : Type u} [DictEntry α]

/-- Insertion, removal and tail pop of the entry that a test tells, and the three rebuilds: the
growth of a full table, the conversion to the general layout and the compacting copy. -/
inductive TableOp (α : Type u) where
  | insert (key : α)
  | remove (test : α → Bool) (hash : UInt64)
  | pop (test : α → Bool) (hash : UInt64)
  | grow
  | prepareGeneralInsert
  | compactedCopy

def tableStep (index : DictPythonHashIndex α) : TableOp α → DictPythonHashIndex α
  | .insert key => recordInserted index key
  | .remove test hash => removeMatching index test hash
  | .pop test hash => truncatePoppedEntries (removeMatching index test hash)
  | .grow => resize index (index.liveLen*3)
  | .prepareGeneralInsert => prepareGeneralInsert index
  | .compactedCopy => compactedCopy index

/-- The slots and the live entries answer to each other, and every loop ends. -/
structure Exact (index : DictPythonHashIndex α) : Prop where
  slotLive : ∀ s i, index.slot s = .entry i → ∃ a, index.entryKeys[i]? = some (some a)
  slotUnique : ∀ s t i, index.slot s = .entry i → index.slot t = .entry i → s = t
  entrySlot : ∀ (i : ℕ) (a : α), index.entryKeys[i]? = some (some a) →
    ∃ s < index.size, index.slot s = .entry i
  emptySlot : 0 < index.size → ∃ s < index.size, index.slot s = .empty
  reach : ∀ (i : ℕ) (a : α), index.entryKeys[i]? = some (some a) →
    ∃ n, index.slot (slotAt index.size (pythonHash a).toNat n) = .entry i ∧
      ∀ m < n, index.slot (slotAt index.size (pythonHash a).toNat m) ≠ .empty
  insertion : 0 < index.size → ∀ hash, (insertionSlot index hash).isSome = true
  lookup : ∀ (test : α → Bool) (hash : UInt64), (search index.size (lookupSettle index test)
    (budget index.size) (start index.size hash.toNat)).isSome = true
  enumerates : ∀ hash, ∃ keys, candidates index hash = some keys ∧
    ∀ key, key ∈ keys ↔ key ∈ index.liveKeys ∧ pythonHash key = hash

section step
variable {index : DictPythonHashIndex α}

theorem removeMatching_sound (hs : Sound index) (test : α → Bool) (hash : UInt64) :
    Sound (removeMatching index test hash) := by
  rw [removeMatching]
  cases h : lookupSlot index test hash with
  | none => exact hs
  | some s =>
    obtain ⟨i, -, hslot, -⟩ := lookupSlot_some index test hash s h
    exact markSlotRemoved_sound hs s i hslot

theorem compactedCopy_sound (hs : Sound index) : Sound (compactedCopy index) := by
  have hfit := sparseCopy_fits index.liveLen
  rw [hs.liveCount] at hfit
  rw [compactedCopy, hs.liveCount]
  exact (fold_place (fresh_sound _ index.unicodeOnly (.inr ⟨_, rfl⟩)) index.liveKeys hfit).1

theorem tableStep_sound (hs : Sound index) (op : TableOp α) : Sound (tableStep index op) := by
  cases op with
  | insert key => exact recordInserted_sound hs key
  | remove test hash => exact removeMatching_sound hs test hash
  | pop test hash => exact truncatePoppedEntries_sound (removeMatching_sound hs test hash)
  | grow => exact (grow_spec hs).1
  | prepareGeneralInsert => exact prepareGeneralInsert_sound hs
  | compactedCopy => exact compactedCopy_sound hs

theorem run_sound (ops : List (TableOp α)) (hs : Sound index) :
    Sound (ops.foldl tableStep index) := by
  induction ops generalizing index with
  | nil => exact hs
  | cons op ops ih => exact ih (tableStep_sound hs op)

end step

section sound
variable {index : DictPythonHashIndex α}

/-- A lookup settles at the latest at the empty slot. -/
theorem lookup_isSome (hs : Sound index) (test : α → Bool) (hash : UInt64) :
    (search index.size (lookupSettle index test) (budget index.size)
      (start index.size hash.toNat)).isSome = true := by
  by_cases hpos : 0 < index.size
  · obtain ⟨k, hk⟩ := hs.pow hpos
    obtain ⟨s, hlt, he⟩ := hs.empty_slot hpos
    apply search_start_isSome k hash.toNat s hk hash.toNat_lt hlt
    rw [lookupSettle, he]
    rfl
  · have hempty : index.slot (start index.size hash.toNat).1 = .empty :=
      slot_of_size_le _ _ (by omega)
    have hbudget : budget index.size = index.size+12+1 := rfl
    rw [hbudget, search, lookupSettle, hempty]
    rfl

/-- A walk collects live keys of its hash. -/
theorem collectCandidates_live (index : DictPythonHashIndex α) (hash : UInt64) (fuel : ℕ)
    (c : ℕ × ℕ) {keys : List α} (h : collectCandidates index hash fuel c = some keys) :
    ∀ key ∈ keys, key ∈ index.liveKeys ∧ pythonHash key = hash := by
  induction fuel generalizing c keys with
  | zero => cases h
  | succ fuel ih =>
    rw [collectCandidates] at h
    cases hslot : index.slot c.1 with
    | empty =>
      rw [hslot] at h
      cases h
      simp
    | dummy =>
      rw [hslot] at h
      exact ih _ h
    | entry i =>
      rw [hslot] at h
      obtain ⟨tail, htail, rfl⟩ := Option.map_eq_some_iff.mp h
      intro key hkey
      rcases List.mem_append.mp hkey with hkey | hkey
      · rw [List.mem_filter, Option.mem_toList, beq_iff_eq] at hkey
        refine ⟨?_, hkey.2⟩
        rw [DictPythonHashIndex.liveKeys, List.reduceOption_mem_iff]
        rw [List.getD_eq_getElem?_getD] at hkey
        cases hget : index.entryKeys[i]? with
        | none =>
          rw [hget] at hkey
          cases hkey.1
        | some o =>
          rw [hget, Option.getD_some] at hkey
          exact List.mem_of_getElem? (hget.trans (congrArg some hkey.1))
      · exact ih _ htail key hkey

theorem candidates_iff (hs : Sound index) (hash : UInt64) : ∃ keys,
    candidates index hash = some keys ∧
      ∀ key, key ∈ keys ↔ key ∈ index.liveKeys ∧ pythonHash key = hash := by
  obtain ⟨keys, hkeys⟩ := Option.isSome_iff_exists.mp (candidates_isSome hs hash)
  refine ⟨keys, hkeys, fun key => ⟨?_, ?_⟩⟩
  · intro hkey
    rw [candidates] at hkeys
    split at hkeys
    · cases hkeys
      cases hkey
    · exact collectCandidates_live index hash _ _ hkeys key hkey
  · rintro ⟨hlive, rfl⟩
    have := mem_candidates hs hlive
    rw [hkeys] at this
    exact this

theorem exact_of_sound (hs : Sound index) : Exact index := by
  refine ⟨hs.entryLive, hs.slotUnique, ?_, hs.empty_slot, hs.onPath,
    fun hpos hash => insertionSlot_isSome hs hpos hash, lookup_isSome hs, candidates_iff hs⟩
  intro i a ha
  obtain ⟨n, hn, -⟩ := hs.onPath i a ha
  exact ⟨_, slot_lt index _ (by simp [hn]), hn⟩

end sound

/-- After every run on a fresh table, allocated or not, the table is exact. -/
theorem dict_table_exact (tableSize : ℕ) (unicodeOnly : Bool)
    (h : tableSize = 0 ∨ ∃ k, tableSize = 2^k) (ops : List (TableOp α)) :
    Exact (ops.foldl tableStep (freshTable tableSize unicodeOnly)) :=
  exact_of_sound (run_sound ops (fresh_sound tableSize unicodeOnly h))

/-- Two keys of one hash, of which the last is popped, and a key that is no string. -/
theorem dict_table_exact_run : Exact ([.insert ⟨true, 9⟩, .insert ⟨true, 9⟩,
    .pop (fun key => key.str) 9, .insert ⟨false, 1⟩, .compactedCopy].foldl tableStep
      (freshTable 0 true : DictPythonHashIndex PlainKey)) :=
  dict_table_exact 0 true (.inl rfl) _

/-- An unallocated table has no empty slot. -/
theorem unallocated_no_empty : ¬∃ s < (([] : List (TableOp PlainKey)).foldl tableStep
    (freshTable 0 true)).size, (([] : List (TableOp PlainKey)).foldl tableStep
      (freshTable 0 true)).slot s = .empty := by
  rintro ⟨s, hs, -⟩
  cases hs

end Pyrust.DictTableRuns
