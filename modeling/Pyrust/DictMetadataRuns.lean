import Pyrust.DictMetadata
import Pyrust.DictTableRuns

/-!
# Runs of a dict with its metadata

The table of a dict, once it is there, holds the keys in an order of its own, for
`swap_remove` and `move_index` reorder the entries alone. Without a table the entries
keep their insertion order, and the journal is a history that leads to it. A removal
leaves a dict that is not mixed as it is: all its keys are objects, or none holds one.
-/

set_option autoImplicit false

namespace Pyrust.DictMetadataRuns
open Pyrust.DictProbeIndex Pyrust.DictProbeInvariant Pyrust.DictJournal Pyrust.DictReplay
open Pyrust.HoleyList
open Pyrust.DictOps (PyDict sift reconstruct journalInserted prepareRemovalHistory copyIndex
  isObject containsObject modify_keys)
open Pyrust.DictMetadata

universe u v

/-! ## Tables and histories -/

section table
variable {K : Type u} [ShapedKey K] [EquivBEq K]

theorem distinct_perm {l l' : List K} (h : l.Perm l') : Distinct l ↔ Distinct l' :=
  h.pairwise_iff fun {_ _} hab => Bool.eq_false_iff.mpr fun hba =>
    Bool.eq_false_iff.mp hab (BEq.symm hba)

theorem recordRemoved_perm {index : DictPythonHashIndex K} {stored : K} {rest : List K}
    (hs : Sound index) (hd : Distinct index.liveKeys) (h : index.liveKeys.Perm (stored::rest)) :
    Sound (recordRemoved index stored) ∧ (recordRemoved index stored).liveKeys.Perm rest := by
  have hmem : stored ∈ index.liveKeys := h.mem_iff.mpr List.mem_cons_self
  obtain ⟨r, hlt, hr⟩ := List.getElem_of_mem hmem
  obtain ⟨hsound, hlive, -⟩ := recordRemoved_spec index hs hd r stored
    (List.getElem?_eq_some_iff.mpr ⟨hlt, hr⟩)
  refine ⟨hsound, ?_⟩
  rw [hlive]
  have hcons := List.getElem_cons_eraseIdx_perm hlt
  rw [hr] at hcons
  exact (hcons.trans h).cons_inv

theorem recordRemoved_all {index : DictPythonHashIndex K} {kept removed : List K}
    (hs : Sound index) (hd : Distinct index.liveKeys)
    (h : index.liveKeys.Perm (removed ++ kept)) :
    Sound (removed.foldl recordRemoved index) ∧
      (removed.foldl recordRemoved index).liveKeys.Perm kept := by
  induction removed generalizing index with
  | nil => exact ⟨hs, h⟩
  | cons stored removed ih =>
    obtain ⟨hsound, hlive⟩ := recordRemoved_perm hs hd h
    have hrest : Distinct (removed ++ kept) := ((distinct_perm h).mp hd).of_cons
    exact ih hsound ((distinct_perm hlive).mpr hrest) hlive

/-- A mutation does to the table what it does to the keys. -/
theorem indexStep_live {index : DictPythonHashIndex K} (m : Mutation K) (hs : Sound index)
    (hd : Distinct index.liveKeys) (hv : Valid index.liveKeys m) :
    Sound (indexStep index m) ∧ (indexStep index m).liveKeys = keysStep index.liveKeys m := by
  cases m with
  | insert key => exact ⟨recordInserted_sound hs key, recordInserted_liveKeys hs key⟩
  | remove p key =>
    obtain ⟨hsound, hlive, -⟩ := recordRemoved_spec index hs hd p key hv
    exact ⟨hsound, hlive⟩
  | pop p key =>
    have hlast : index.liveKeys[index.liveKeys.length-1]? = some key := by
      rw [← List.getLast?_eq_getElem?]
      exact hv
    obtain ⟨hsound, hlive, -⟩ := recordRemoved_spec index hs hd _ key hlast
    rw [List.eraseIdx_length_sub_one] at hlive
    exact ⟨truncatePoppedEntries_sound hsound, (truncatePoppedEntries_liveKeys _).trans hlive⟩

theorem history_live {index : DictPythonHashIndex K} (hist : List (Mutation K))
    (hs : Sound index) (hd : Distinct index.liveKeys) (hv : ValidAlong hist index.liveKeys) :
    Sound (hist.foldl indexStep index) ∧
      (hist.foldl indexStep index).liveKeys = hist.foldl keysStep index.liveKeys := by
  induction hist generalizing index with
  | nil => exact ⟨hs, rfl⟩
  | cons m hist ih =>
    obtain ⟨hsound, hlive⟩ := indexStep_live m hs hd hv.1
    have hstep := keysStep_distinct index.liveKeys m hd hv.1
    rw [← hlive] at hstep
    obtain ⟨hsound', hlive'⟩ := ih hsound hstep (hlive ▸ hv.2)
    refine ⟨hsound', ?_⟩
    rw [List.foldl_cons, List.foldl_cons, hlive', hlive]

omit [EquivBEq K] in
theorem baseIndex_live (keys : List K) (tableSize : ℕ) (unicodeOnly : Bool)
    (hsize : tableSize = 0 ∨ ∃ k, tableSize = 2^k) :
    Sound (baseIndex keys tableSize unicodeOnly) ∧
      (baseIndex keys tableSize unicodeOnly).liveKeys = keys := by
  obtain ⟨hsound, hlive⟩ := fold_recordInserted
    (fresh_sound (α := K) tableSize unicodeOnly hsize) keys
  refine ⟨hsound, hlive.trans ?_⟩
  simp [DictPythonHashIndex.liveKeys, freshTable, withTableSize]

omit [EquivBEq K] in
theorem convertTo_live {index : DictPythonHashIndex K} (hs : Sound index) (current : Bool) :
    Sound (convertTo current index) ∧ (convertTo current index).liveKeys = index.liveKeys := by
  rw [convertTo]
  split
  · exact ⟨prepareGeneralInsert_sound hs, prepareGeneralInsert_liveKeys hs⟩
  · exact ⟨hs, rfl⟩

omit [EquivBEq K] in
theorem fromKeys_live (keys : List K) (tableSize : ℕ) (unicodeOnly current : Bool)
    (hsize : tableSize = 0 ∨ ∃ k, tableSize = 2^k) :
    Sound (fromKeys keys tableSize unicodeOnly current) ∧
      (fromKeys keys tableSize unicodeOnly current).liveKeys = keys := by
  obtain ⟨hsound, hlive⟩ := baseIndex_live keys tableSize unicodeOnly hsize
  rw [fromKeys_eq]
  obtain ⟨hsound', hlive'⟩ := convertTo_live hsound current
  exact ⟨hsound', hlive'.trans hlive⟩

/-- The journal is a history from some keys to these. -/
def Recorded (j : DictMutationJournal) (keys : List K) : Prop :=
  ∃ (base : List K) (hist : List (Mutation K)), j.mutations = hist.map encode ∧
    ValidAlong hist base ∧ Distinct base ∧ keys = hist.foldl keysStep base

theorem materialize_live {j : DictMutationJournal} {keys : List K} (h : Recorded j keys)
    (tableSize : ℕ) (unicodeOnly current : Bool)
    (hsize : tableSize = 0 ∨ ∃ k, tableSize = 2^k) :
    Sound (materialize j keys tableSize unicodeOnly current) ∧
      (materialize j keys tableSize unicodeOnly current).liveKeys = keys := by
  obtain ⟨base, hist, hj, hv, hd, rfl⟩ := h
  rw [materialize_eq j hist base tableSize unicodeOnly current hsize hj hv hd]
  obtain ⟨hbase, hlive⟩ := baseIndex_live base tableSize unicodeOnly hsize
  obtain ⟨hsound, hkeys⟩ := history_live hist hbase (hlive.symm ▸ hd) (hlive.symm ▸ hv)
  obtain ⟨hsound', hkeys'⟩ := convertTo_live hsound current
  rw [hlive] at hkeys
  exact ⟨hsound', hkeys'.trans hkeys⟩

omit [EquivBEq K] in
/-- A journal goes on with a mutation of the keys that it leads to. -/
theorem Recorded.concat {j : DictMutationJournal} {keys : List K} (h : Recorded j keys)
    (j' : DictMutationJournal) (m : Mutation K) (hv : Valid keys m)
    (hj : j'.mutations = j.mutations ++ [encode m]) :
    Recorded j' (keysStep keys m) := by
  obtain ⟨base, hist, hmutations, hvalid, hd, rfl⟩ := h
  refine ⟨base, hist ++ [m], ?_, DictLazy.validAlong_concat hist base m hvalid hv, hd, ?_⟩
  · rw [hj, hmutations, List.map_append]
    rfl
  · rw [List.foldl_append]
    rfl

omit [EquivBEq K] in
theorem recorded_nil {j : DictMutationJournal} {keys : List K} (hj : j.mutations = [])
    (hd : Distinct keys) : Recorded j keys :=
  ⟨keys, [], hj, trivial, hd, rfl⟩

omit [EquivBEq K] in
theorem copyIndex_live {index : DictPythonHashIndex K} (hs : Sound index) :
    Sound (copyIndex index) ∧ (copyIndex index).liveKeys = index.liveKeys := by
  rw [copyIndex]
  split
  · exact ⟨hs, rfl⟩
  · obtain ⟨hsound, hentries, -⟩ := DictLazy.compactedCopy_spec index hs
    refine ⟨hsound, ?_⟩
    rw [DictPythonHashIndex.liveKeys, hentries, reduceOption_map_some]

end table

/-! ## The invariant -/

/-- A dict needs its table as soon as an object has to be told from another kind of key. -/
def Mixed (objects dynamics length : ℕ) : Prop :=
  objects < dynamics ∨ objects ≠ 0 ∧ objects < length

section invariant
variable {K : Type u} {V : Type v} [ShapedKey K]

/-- The entries, the table and the journal agree. -/
structure Tracked (maxEntries : ℕ) (d : PyDict K V) : Prop where
  distinct : Distinct d.keys
  fits : d.entries.length ≤ maxEntries
  size : d.initialTableSize = 0 ∨ ∃ k, d.initialTableSize = 2^k
  table : ∀ index, d.pythonHashIndex = some index → Sound index ∧ index.liveKeys.Perm d.keys
  history : d.pythonHashIndex = none → ∀ j, d.mutationJournal = some j → Recorded j d.keys

variable {maxEntries : ℕ} {d : PyDict K V}

/-- A dict with a table needs no journal. -/
theorem Tracked.indexed {index : DictPythonHashIndex K} (hd : Distinct d.keys)
    (hfits : d.entries.length ≤ maxEntries)
    (hsize : d.initialTableSize = 0 ∨ ∃ k, d.initialTableSize = 2^k)
    (hindex : d.pythonHashIndex = some index)
    (hlive : Sound index ∧ index.liveKeys.Perm d.keys) : Tracked maxEntries d := by
  refine ⟨hd, hfits, hsize, ?_, ?_⟩
  · intro index' hsome
    rw [hindex] at hsome
    cases hsome
    exact hlive
  · intro hnone
    rw [hindex] at hnone
    cases hnone

/-- A dict without a table has at most a journal, and that leads to its keys. -/
theorem Tracked.unindexed (hd : Distinct d.keys) (hfits : d.entries.length ≤ maxEntries)
    (hsize : d.initialTableSize = 0 ∨ ∃ k, d.initialTableSize = 2^k)
    (hindex : d.pythonHashIndex = none)
    (hjournal : ∀ j, d.mutationJournal = some j → Recorded j d.keys) : Tracked maxEntries d := by
  refine ⟨hd, hfits, hsize, ?_, fun _ => hjournal⟩
  intro index hsome
  rw [hindex] at hsome
  cases hsome

theorem unrecorded {journal : Option DictMutationJournal} (hnone : journal = none) (keys : List K) :
    ∀ j, journal = some j → Recorded j keys := by
  intro j hj
  rw [hnone] at hj
  cases hj

structure Counted (maxEntries : ℕ) (d : PyDict K V) : Prop extends Tracked maxEntries d where
  objects : d.liveObjectKeyCount = d.keys.countP isObject
  dynamics : d.liveDynamicKeyCount = d.keys.countP containsObject

structure Precise (maxEntries : ℕ) (d : PyDict K V) : Prop extends Counted maxEntries d where
  plain : d.pythonHashIndex = none →
    ¬Mixed d.liveObjectKeyCount d.liveDynamicKeyCount d.entries.length

structure Poisoned (maxEntries : ℕ) (d : PyDict K V) : Prop extends Tracked maxEntries d where
  objects : d.liveObjectKeyCount = poisonedObjectKeyCount
  dynamics : d.liveDynamicKeyCount = poisonedObjectKeyCount
  index : d.pythonHashIndex = none
  journal : d.mutationJournal = none

def Kept (maxEntries : ℕ) (d : PyDict K V) : Prop :=
  Precise maxEntries d ∨ Poisoned maxEntries d

/-- The operation ends in such a dict, unless the map is full or lacks the entry. -/
def Ends (P : PyDict K V → Prop) : Except Panic (PyDict K V) → Prop
  | .ok d => P d
  | .error panic => panic = .capacityOverflow ∨ panic = .indexOutOfBounds

theorem Counted.indexed (h : Counted maxEntries d) (hindex : d.pythonHashIndex.isSome = true) :
    Precise maxEntries d := by
  refine ⟨h, fun hnone => ?_⟩
  rw [hnone] at hindex
  cases hindex

omit [ShapedKey K] in
theorem length_keys (d : PyDict K V) : d.keys.length = d.entries.length := by
  rw [PyDict.keys, List.length_map]

omit [ShapedKey K] in
theorem requires_iff (d : PyDict K V) : DictOps.requiresPythonHashIndex d = true ↔
    Mixed d.liveObjectKeyCount d.liveDynamicKeyCount d.entries.length := by
  simp only [DictOps.requiresPythonHashIndex, Mixed, Bool.or_eq_true, decide_eq_true_eq,
    Bool.and_eq_true, bne_iff_ne]

theorem objects_le_dynamics (keys : List K) : keys.countP isObject ≤ keys.countP containsObject :=
  List.countP_mono_left fun key _ => object_contains key

theorem Counted.is_precise (hmax : maxEntries < poisonedObjectKeyCount)
    (h : Counted maxEntries d) : metadataIsPrecise d = true := by
  have hfits := h.fits
  have ho := List.countP_le_length (p := isObject) (l := d.keys)
  have hd := List.countP_le_length (p := containsObject) (l := d.keys)
  rw [length_keys] at ho hd
  rw [metadataIsPrecise, h.objects, h.dynamics, Bool.and_eq_true, bne_iff_ne, bne_iff_ne]
  omega

theorem Counted.requires_iff (hmax : maxEntries < poisonedObjectKeyCount)
    (h : Counted maxEntries d) : requiresPythonHashIndex d = true ↔
      Mixed d.liveObjectKeyCount d.liveDynamicKeyCount d.entries.length := by
  rw [requiresPythonHashIndex, h.is_precise hmax, Bool.true_and]
  exact DictMetadataRuns.requires_iff d

theorem Counted.repaired (hmax : maxEntries < poisonedObjectKeyCount)
    (h : Counted maxEntries d) : repairPoisonedMetadata d = d := by
  rw [repairPoisonedMetadata, h.is_precise hmax, if_pos rfl]

theorem Poisoned.repaired (hmax : maxEntries < poisonedObjectKeyCount)
    (h : Poisoned maxEntries d) :
    Precise maxEntries (repairPoisonedMetadata d) ∧ (repairPoisonedMetadata d).keys = d.keys := by
  have hpoison : metadataIsPrecise d = false := by simp [metadataIsPrecise, h.objects]
  rw [repairPoisonedMetadata, hpoison, if_neg Bool.false_ne_true]
  dsimp only
  set recounted : PyDict K V := { d with
    liveObjectKeyCount := d.keys.countP isObject
    liveDynamicKeyCount := d.keys.countP containsObject
    mutationJournal := none } with hrecounted
  have hcounted : Counted maxEntries recounted :=
    ⟨.unindexed h.distinct h.fits h.size h.index (unrecorded rfl _), rfl, rfl⟩
  have hrequires := hcounted.requires_iff hmax
  split
  · obtain ⟨hsound, hlive⟩ := fromKeys_live d.keys 0 d.initialTableKind.isUnicode
      d.keyTableKind.isUnicode (.inl rfl)
    exact ⟨Counted.indexed ⟨.indexed h.distinct h.fits h.size rfl ⟨hsound, .of_eq hlive⟩, rfl, rfl⟩
      rfl, rfl⟩
  · rename_i hplain
    exact ⟨⟨⟨.unindexed h.distinct h.fits h.size rfl (unrecorded rfl _), rfl, rfl⟩,
      fun _ hmixed => hplain (hrequires.mpr hmixed)⟩, rfl⟩

theorem Kept.repaired (hmax : maxEntries < poisonedObjectKeyCount) (h : Kept maxEntries d) :
    Precise maxEntries (repairPoisonedMetadata d) ∧ (repairPoisonedMetadata d).keys = d.keys := by
  cases h with
  | inl h =>
    rw [h.repaired hmax]
    exact ⟨h, rfl⟩
  | inr h => exact h.repaired hmax

end invariant

/-! ## Insertions -/

section insertion
variable {K : Type u} {V : Type v} [ShapedKey K] [EquivBEq K]
variable {maxEntries : ℕ} {d : PyDict K V}

theorem reconstruct_live (h : Tracked maxEntries d) (hnone : d.pythonHashIndex = none) :
    Sound (reconstruct d) ∧ (reconstruct d).liveKeys = d.keys := by
  rw [reconstruct]
  cases hj : d.mutationJournal with
  | none => exact fromKeys_live d.keys _ _ _ h.size
  | some j => exact materialize_live (h.history hnone j hj) _ _ _ h.size

theorem ensured (h : Tracked maxEntries d) :
    Tracked maxEntries (DictOps.ensurePythonHashIndex d) ∧
      (DictOps.ensurePythonHashIndex d).keys = d.keys ∧
      (DictOps.ensurePythonHashIndex d).pythonHashIndex.isSome = true := by
  rw [DictOps.ensurePythonHashIndex]
  cases hi : d.pythonHashIndex with
  | some index => exact ⟨h, rfl, by rw [hi]; rfl⟩
  | none =>
    obtain ⟨hsound, hlive⟩ := reconstruct_live h hi
    exact ⟨.indexed h.distinct h.fits h.size rfl ⟨hsound, .of_eq hlive⟩, rfl, rfl⟩

theorem ensured_precise (h : Counted maxEntries d) :
    Precise maxEntries (DictOps.ensurePythonHashIndex d) := by
  obtain ⟨htracked, hkeys, hsome⟩ := ensured h.toTracked
  have hcounts : (DictOps.ensurePythonHashIndex d).liveObjectKeyCount = d.liveObjectKeyCount ∧
      (DictOps.ensurePythonHashIndex d).liveDynamicKeyCount = d.liveDynamicKeyCount := by
    rw [DictOps.ensurePythonHashIndex]
    split <;> exact ⟨rfl, rfl⟩
  refine Counted.indexed ⟨htracked, ?_, ?_⟩ hsome
  · rw [hcounts.1, hkeys, h.objects]
  · rw [hcounts.2, hkeys, h.dynamics]

omit [EquivBEq K] in
/-- The table kind and the baseline are no part of the counts or of the keys. -/
theorem Precise.rebase (h : Precise maxEntries d) (tableSize : ℕ)
    (initialKind kind : DictOps.DictKeyTableKind)
    (hsize : tableSize = 0 ∨ ∃ k, tableSize = 2^k) :
    Precise maxEntries { d with
      initialTableSize := tableSize
      initialTableKind := initialKind
      keyTableKind := kind } :=
  ⟨⟨⟨h.distinct, h.fits, hsize, h.table, h.history⟩, h.objects, h.dynamics⟩, h.plain⟩

theorem prepared_precise (h : Precise maxEntries d) (key : K) :
    Precise maxEntries (DictOps.preparePythonInsert d key) ∧
      (DictOps.preparePythonInsert d key).entries = d.entries := by
  rw [DictOps.preparePythonInsert]
  split
  · exact ⟨h, rfl⟩
  · exact ⟨h.rebase _ _ _ h.size, rfl⟩
  · split
    · exact ⟨h, rfl⟩
    · dsimp only
      split
      · exact ⟨h.rebase _ _ _ (.inr ⟨3, rfl⟩), rfl⟩
      · have hensured := ensured_precise (h.rebase _ d.initialTableKind .general h.size).toCounted
        obtain ⟨-, hkeys, -⟩ := ensured (h.rebase _ d.initialTableKind .general h.size).toTracked
        refine ⟨⟨⟨⟨hensured.distinct, hensured.fits, hensured.size, ?_, ?_⟩, hensured.objects,
          hensured.dynamics⟩, ?_⟩, ?_⟩
        · intro index hindex
          obtain ⟨old, hold, rfl⟩ := Option.map_eq_some_iff.mp hindex
          obtain ⟨hsound, hlive⟩ := hensured.table old hold
          exact ⟨prepareGeneralInsert_sound hsound,
            (List.Perm.of_eq (prepareGeneralInsert_liveKeys hsound)).trans hlive⟩
        · intro hnone
          exact hensured.history (Option.map_eq_none_iff.mp hnone)
        · intro hnone
          exact hensured.plain (Option.map_eq_none_iff.mp hnone)
        · change (DictOps.ensurePythonHashIndex _).entries = d.entries
          rw [DictOps.ensurePythonHashIndex]
          split <;> rfl

omit [EquivBEq K] in
/-- With a journal, an insertion is recorded or starts a new baseline. -/
theorem journalInserted_tracked {d' : PyDict K V} {key : K} {value : V}
    (h : Tracked maxEntries d) (hnone : d.pythonHashIndex = none)
    (hnew : ∀ stored ∈ d.keys, (stored == key) = false) (hroom : d.entries.length < maxEntries)
    (hentries : d'.entries = d.entries ++ [(key, value)])
    (hindex : d'.pythonHashIndex = d.pythonHashIndex)
    (hjournal : d'.mutationJournal = d.mutationJournal)
    (hsize : d'.initialTableSize = d.initialTableSize) :
    Tracked maxEntries (journalInserted d') := by
  have hkeys : d'.keys = keysStep d.keys (.insert key) := by
    rw [PyDict.keys, hentries, List.map_append]
    rfl
  have hdistinct := keysStep_distinct d.keys (.insert key) h.distinct hnew
  have hfits : d'.entries.length ≤ maxEntries := by
    rw [hentries, List.length_append, List.length_singleton]
    omega
  have hindex' : d'.pythonHashIndex = none := hindex.trans hnone
  have hdistinct' : Distinct d'.keys := hkeys ▸ hdistinct
  have hsize' : d'.initialTableSize = 0 ∨ ∃ k, d'.initialTableSize = 2^k := hsize ▸ h.size
  rw [journalInserted]
  cases hj : d'.mutationJournal with
  | none => exact .unindexed hdistinct' hfits hsize' hindex' (unrecorded hj _)
  | some j =>
    have hrecorded := h.history hnone j (hjournal ▸ hj)
    simp only [DictMutationJournal.recordInserted]
    by_cases hfull : j.usable = 0
    · simp only [if_pos hfull]
      refine .unindexed hdistinct' hfits (.inr ⟨_, rfl⟩) hindex' ?_
      intro j' hsome
      cases hsome
      exact recorded_nil rfl hdistinct'
    · simp only [if_neg hfull]
      refine .unindexed hdistinct' hfits hsize' hindex' ?_
      intro j' hsome
      cases hsome
      have hstep := hrecorded.concat { j with
        mutations := j.mutations ++ [DictDeferredMutation.inserted]
        usable := j.usable-1 } (.insert key) hnew rfl
      exact hkeys ▸ hstep

omit [ShapedKey K] [EquivBEq K] in
theorem journalInserted_same (d : PyDict K V) : (journalInserted d).keys = d.keys ∧
    (journalInserted d).liveObjectKeyCount = d.liveObjectKeyCount ∧
    (journalInserted d).liveDynamicKeyCount = d.liveDynamicKeyCount ∧
    (journalInserted d).pythonHashIndex = d.pythonHashIndex := by
  rw [journalInserted]
  split
  · exact ⟨rfl, rfl, rfl, rfl⟩
  · split <;> exact ⟨rfl, rfl, rfl, rfl⟩

omit [ShapedKey K] [EquivBEq K] in
theorem countP_concat (p : K → Bool) (keys : List K) (key : K) :
    (keys ++ [key]).countP p = keys.countP p+(p key).toNat := by
  rw [List.countP_append, List.countP_singleton]
  cases p key <;> rfl

omit [ShapedKey K] [EquivBEq K] in
theorem saturatingAdd_count (hmax : maxEntries < poisonedObjectKeyCount) (p : K → Bool)
    {keys : List K} (key : K) (hroom : keys.length < maxEntries) :
    saturatingAdd (keys.countP p) (p key).toNat = (keys ++ [key]).countP p := by
  have hle := List.countP_le_length (p := p) (l := keys ++ [key])
  rw [List.length_append, List.length_singleton] at hle
  rw [saturatingAdd, ← countP_concat]
  omega

/-- A key that is neither a new dynamic key nor beside an object leaves the dict plain. -/
theorem recorded_precise (hmax : maxEntries < poisonedObjectKeyCount)
    (h : Precise maxEntries d) {key : K} (value : V)
    (hnew : ∀ stored ∈ d.keys, (stored == key) = false) (hroom : d.entries.length < maxEntries) :
    Precise maxEntries
      (recordInsertedIndex { d with entries := d.entries ++ [(key, value)] } key) := by
  have hroomKeys : d.keys.length < maxEntries := by rwa [length_keys]
  have hkeys : (d.entries ++ [(key, value)]).map Prod.fst = d.keys ++ [key] := by
    rw [List.map_append]
    rfl
  have hobjects := saturatingAdd_count hmax isObject key hroomKeys
  have hdynamics := saturatingAdd_count hmax containsObject key hroomKeys
  rw [recordInsertedIndex]
  dsimp only
  rw [h.objects, h.dynamics, hobjects, hdynamics]
  cases hindex : d.pythonHashIndex with
  | some index =>
    obtain ⟨hsound, hlive⟩ := h.table index hindex
    have hfits : (d.entries ++ [(key, value)]).length ≤ maxEntries := by
      rw [List.length_append, List.length_singleton]
      omega
    have hdistinct := keysStep_distinct d.keys (.insert key) h.distinct hnew
    dsimp only
    set inserted : PyDict K V := { d with
      entries := d.entries ++ [(key, value)]
      liveObjectKeyCount := (d.keys ++ [key]).countP isObject
      liveDynamicKeyCount := (d.keys ++ [key]).countP containsObject
      structuralVersion := d.structuralVersion+1
      pythonHashIndex := some (recordInserted index key) } with hinserted
    have hsame : inserted.keys = d.keys ++ [key] := hkeys
    have hlive' : (recordInserted index key).liveKeys.Perm inserted.keys := by
      rw [hsame, recordInserted_liveKeys hsound]
      exact hlive.append_right [key]
    refine Counted.indexed ⟨.indexed (hsame ▸ hdistinct) hfits h.size rfl
      ⟨recordInserted_sound hsound key, hlive'⟩, ?_, ?_⟩ rfl
    · rw [hsame]
    · rw [hsame]
  | none =>
    dsimp only
    set inserted : PyDict K V := { d with
      entries := d.entries ++ [(key, value)]
      liveObjectKeyCount := (d.keys ++ [key]).countP isObject
      liveDynamicKeyCount := (d.keys ++ [key]).countP containsObject
      structuralVersion := d.structuralVersion+1
      pythonHashIndex := none } with hinserted
    have htracked : Tracked maxEntries (journalInserted inserted) :=
      journalInserted_tracked h.toTracked hindex hnew hroom rfl hindex.symm rfl rfl
    obtain ⟨hsame, hobjects', hdynamics', hindex'⟩ := journalInserted_same inserted
    have hsame' : (journalInserted inserted).keys = d.keys ++ [key] := hsame.trans hkeys
    have hcounted : Counted maxEntries (journalInserted inserted) := by
      refine ⟨htracked, ?_, ?_⟩
      · rw [hobjects', hsame']
      · rw [hdynamics', hsame']
    have hrequires := hcounted.requires_iff hmax
    split
    · split
      · rename_i hplain
        refine ⟨hcounted, fun _ hmixed => ?_⟩
        rw [hrequires.mpr hmixed] at hplain
        cases hplain
      · rw [ensurePythonHashIndex, hcounted.repaired hmax]
        exact ensured_precise hcounted
    · rename_i hplain
      refine ⟨hcounted, fun _ hmixed => ?_⟩
      have hbefore := h.plain hindex
      have hafter : ∀ p : K → Bool, (journalInserted inserted).keys.countP p =
          d.keys.countP p+(p key).toNat := fun p => by rw [hsame', countP_concat]
      rw [Bool.or_eq_true, bne_iff_ne, not_or, not_not, hcounted.objects, hafter] at hplain
      rw [hcounted.objects, hcounted.dynamics, hafter, hafter, Mixed] at hmixed
      rw [h.objects, h.dynamics, Mixed] at hbefore
      have hnot : (containsObject key).toNat = 0 := by
        rw [Bool.eq_false_iff.mpr hplain.1]
        rfl
      omega

omit [EquivBEq K] in
theorem replaced_precise (h : Precise maxEntries d) {entries : List (K × V)}
    (hkeys : entries.map Prod.fst = d.keys) :
    Precise maxEntries { d with entries := entries } := by
  have hlength : entries.length = d.entries.length := by
    rw [← length_keys d, ← hkeys, List.length_map]
  have hkeys' : ({ d with entries := entries } : PyDict K V).keys = d.keys := hkeys
  refine ⟨⟨⟨hkeys' ▸ h.distinct, hlength ▸ h.fits, h.size, hkeys' ▸ h.table,
    hkeys' ▸ h.history⟩, hkeys' ▸ h.objects, hkeys' ▸ h.dynamics⟩, ?_⟩
  intro hnone
  dsimp only
  rw [hlength]
  exact h.plain hnone

theorem insert_kept (hmax : maxEntries < poisonedObjectKeyCount) (h : Kept maxEntries d)
    (key : K) (value : V) :
    (∃ replaced d', insert maxEntries d key value = .ok (replaced, d') ∧ Precise maxEntries d') ∨
      insert maxEntries d key value = .error .capacityOverflow := by
  obtain ⟨hrepaired, -⟩ := h.repaired hmax
  obtain ⟨hprepared, -⟩ := prepared_precise hrepaired key
  rw [DictMetadata.insert, preparePythonInsert]
  set prepared := DictOps.preparePythonInsert (repairPoisonedMetadata d) key
  cases hindex : DictOps.indexOf prepared key with
  | some i => exact .inl ⟨_, _, rfl, replaced_precise hprepared (modify_keys _ _ _)⟩
  | none =>
    dsimp only
    by_cases hroom : prepared.entries.length < maxEntries
    · rw [if_pos hroom]
      exact .inl ⟨_, _, rfl, recorded_precise hmax hprepared value
        (DictLazy.indexOf_none _ key hindex) hroom⟩
    · rw [if_neg hroom]
      exact .inr rfl

theorem extend_kept (hmax : maxEntries < poisonedObjectKeyCount) (entries : List (K × V))
    (h : Kept maxEntries d) : Ends (Kept maxEntries) (extend maxEntries d entries) := by
  induction entries generalizing d with
  | nil => exact h
  | cons entry entries ih =>
    obtain ⟨key, value⟩ := entry
    rw [extend]
    rcases insert_kept hmax h key value with ⟨replaced, d', heq, hprecise⟩ | heq
    · rw [heq]
      exact ih (.inl hprecise)
    · rw [heq]
      exact .inl rfl

end insertion

/-! ## Removals -/

section removal
variable {K : Type u} {V : Type v} [ShapedKey K] [EquivBEq K]
variable {maxEntries : ℕ} {d : PyDict K V}

omit [EquivBEq K] in
/-- No count falls below zero when removed keys are counted off, and a plain dict stays plain. -/
theorem subtractCounts_precise {removed : List K} (h : Tracked maxEntries d)
    (hobjects : d.liveObjectKeyCount = d.keys.countP isObject+removed.countP isObject)
    (hdynamics : d.liveDynamicKeyCount = d.keys.countP containsObject+
      removed.countP containsObject)
    (hplain : d.pythonHashIndex = none → ¬Mixed d.liveObjectKeyCount d.liveDynamicKeyCount
      (d.entries.length+removed.length)) :
    ∃ d', subtractCounts d (removed.countP isObject) (removed.countP containsObject) = .ok d' ∧
      Precise maxEntries d' := by
  have hroom : (d.liveObjectKeyCount < removed.countP isObject ||
      d.liveDynamicKeyCount < removed.countP containsObject) = false := by
    rw [Bool.or_eq_false_iff, decide_eq_false_iff_not, decide_eq_false_iff_not]
    omega
  rw [subtractCounts, hroom, if_neg Bool.false_ne_true]
  refine ⟨_, rfl, ⟨⟨h.distinct, h.fits, h.size, h.table, h.history⟩, ?_, ?_⟩, ?_⟩
  · change d.liveObjectKeyCount-_ = d.keys.countP isObject
    omega
  · change d.liveDynamicKeyCount-_ = d.keys.countP containsObject
    omega
  · intro hnone
    have hbefore := hplain hnone
    have hle := objects_le_dynamics removed
    have hkeys := List.countP_le_length (p := isObject) (l := d.keys)
    have hremoved := List.countP_le_length (p := isObject) (l := removed)
    rw [length_keys] at hkeys
    rw [Mixed] at hbefore ⊢
    dsimp only
    omega

/-- The history that a removal at this place adds. -/
def removal (i : ℕ) (stored : K) (popped : Bool) : Mutation K :=
  if popped then .pop i stored else .remove i stored

theorem removed_precise (entries : List (K × V)) (i : ℕ) (stored : K) (popped : Bool)
    (h : Precise maxEntries d) (hperm : d.keys.Perm (stored::entries.map Prod.fst))
    (hhistory : d.pythonHashIndex = none → d.mutationJournal.isSome = true ∧
      Valid d.keys (removal i stored popped) ∧
      entries.map Prod.fst = keysStep d.keys (removal i stored popped)) :
    ∃ d', recordRemovedKey { d with entries := entries } i stored popped = .ok d' ∧
      Precise maxEntries d' := by
  have hdistinct : Distinct (entries.map Prod.fst) := ((distinct_perm hperm).mp h.distinct).of_cons
  have hlength := hperm.length_eq
  rw [length_keys, List.length_cons, List.length_map] at hlength
  have hfits := h.fits
  have hcount : ∀ p : K → Bool, d.keys.countP p =
      (entries.map Prod.fst).countP p+[stored].countP p := fun p => by
    rw [hperm.countP_eq, ← List.singleton_append, List.countP_append, Nat.add_comm]
  have hsingle : ∀ p : K → Bool, (p stored).toNat = [stored].countP p := fun p => by
    rw [List.countP_singleton]
    cases p stored <;> rfl
  have hplain : d.pythonHashIndex = none → ¬Mixed d.liveObjectKeyCount d.liveDynamicKeyCount
      (entries.length+[stored].length) := fun hnone => by
    have := h.plain hnone
    rwa [hlength] at this
  rw [recordRemovedKey]
  cases hindex : d.pythonHashIndex with
  | some index =>
    obtain ⟨hsound, hlive⟩ := h.table index hindex
    obtain ⟨hsound', hlive'⟩ := recordRemoved_perm hsound ((distinct_perm hlive).mpr h.distinct)
      (hlive.trans hperm)
    dsimp only
    rw [recordRemovedMetadata, hsingle, hsingle]
    apply subtractCounts_precise
    · refine .indexed hdistinct (by dsimp only; omega) h.size rfl ?_
      cases popped with
      | true => exact ⟨truncatePoppedEntries_sound hsound',
          (List.Perm.of_eq (truncatePoppedEntries_liveKeys _)).trans hlive'⟩
      | false => exact ⟨hsound', hlive'⟩
    · exact h.objects.trans (hcount isObject)
    · exact h.dynamics.trans (hcount containsObject)
    · intro hnone
      cases hnone
  | none =>
    obtain ⟨hsome, hvalid, hkeys⟩ := hhistory hindex
    obtain ⟨j, hj⟩ := Option.isSome_iff_exists.mp hsome
    dsimp only
    rw [hj]
    dsimp only
    rw [recordRemovedMetadata, hsingle, hsingle]
    apply subtractCounts_precise
    · refine .unindexed hdistinct (by dsimp only; omega) h.size rfl ?_
      intro j' hsome'
      cases hsome'
      have hstep := (h.history hindex j hj).concat (j.recordRemoved i stored popped)
        (removal i stored popped) hvalid (by cases popped <;> rfl)
      rw [← hkeys] at hstep
      exact hstep
    · exact h.objects.trans (hcount isObject)
    · exact h.dynamics.trans (hcount containsObject)
    · intro _
      exact hplain hindex

omit [EquivBEq K] in
/-- Before a removal there is a table or a journal. -/
theorem prepareRemovalHistory_precise (h : Precise maxEntries d) :
    Precise maxEntries (prepareRemovalHistory d) ∧
      (prepareRemovalHistory d).entries = d.entries ∧
      ((prepareRemovalHistory d).pythonHashIndex = none →
        (prepareRemovalHistory d).mutationJournal.isSome = true) := by
  rw [prepareRemovalHistory]
  split
  · rename_i hindex hjournal
    refine ⟨⟨⟨⟨h.distinct, h.fits, h.size, h.table, ?_⟩, h.objects, h.dynamics⟩, h.plain⟩, rfl,
      fun _ => rfl⟩
    intro _ j hj
    cases hj
    exact recorded_nil rfl h.distinct
  · rename_i hsome
    refine ⟨h, rfl, fun hnone => ?_⟩
    cases hj : d.mutationJournal with
    | none => exact absurd hj (hsome hnone)
    | some j => rfl

omit [ShapedKey K] [EquivBEq K] in
theorem eraseIdx_perm {α : Type u} {l : List α} {i : ℕ} {a : α} (hi : l[i]? = some a) :
    l.Perm (a::l.eraseIdx i) := by
  obtain ⟨hlt, rfl⟩ := List.getElem?_eq_some_iff.mp hi
  exact (List.getElem_cons_eraseIdx_perm hlt).symm

theorem shiftRemoveEntry_kept (h : Precise maxEntries d) (i : ℕ) :
    ∃ removed d', shiftRemoveEntry d i = .ok (removed, d') ∧ Precise maxEntries d' := by
  rw [shiftRemoveEntry]
  cases hi : d.entries[i]? with
  | none => exact ⟨none, d, rfl, h⟩
  | some entry =>
    obtain ⟨stored, value⟩ := entry
    obtain ⟨hprepared, hentries, hsome⟩ := prepareRemovalHistory_precise h
    have hkey : (prepareRemovalHistory d).keys[i]? = some stored := by
      rw [PyDict.keys, hentries, List.getElem?_map, hi]
      rfl
    have hkeys : ((prepareRemovalHistory d).entries.eraseIdx i).map Prod.fst =
        (prepareRemovalHistory d).keys.eraseIdx i :=
      (List.eraseIdx_map ..).symm
    obtain ⟨d', heq, hprecise⟩ := removed_precise
      ((prepareRemovalHistory d).entries.eraseIdx i) i stored false hprepared
      (hkeys ▸ eraseIdx_perm hkey) fun hnone => ⟨hsome hnone, hkey, hkeys⟩
    refine ⟨some (stored, value), d', ?_, hprecise⟩
    dsimp only
    rw [heq]
    rfl

theorem shiftRemove_kept (hmax : maxEntries < poisonedObjectKeyCount) (h : Kept maxEntries d)
    (query : K → Bool) :
    ∃ removed d', shiftRemove d query = .ok (removed, d') ∧ Precise maxEntries d' := by
  obtain ⟨hrepaired, -⟩ := h.repaired hmax
  rw [shiftRemove]
  cases getIndexOf (repairPoisonedMetadata d) query with
  | none => exact ⟨none, _, rfl, hrepaired⟩
  | some i =>
    obtain ⟨removed, d', heq, hprecise⟩ := shiftRemoveEntry_kept hrepaired i
    refine ⟨removed.map Prod.snd, d', ?_, hprecise⟩
    dsimp only
    rw [heq]
    rfl

theorem pop_kept (hmax : maxEntries < poisonedObjectKeyCount) (h : Kept maxEntries d) :
    ∃ removed d', pop d = .ok (removed, d') ∧ Precise maxEntries d' := by
  obtain ⟨hrepaired, -⟩ := h.repaired hmax
  rw [DictMetadata.pop]
  dsimp only
  set repaired := repairPoisonedMetadata d
  cases hlast : repaired.entries.getLast? with
  | none => exact ⟨none, repaired, rfl, hrepaired⟩
  | some entry =>
    obtain ⟨stored, value⟩ := entry
    obtain ⟨hprepared, hentries, hsome⟩ := prepareRemovalHistory_precise hrepaired
    have hkey : (prepareRemovalHistory repaired).keys.getLast? = some stored := by
      rw [PyDict.keys, hentries, List.getLast?_map, hlast]
      rfl
    have hkeys : (prepareRemovalHistory repaired).entries.dropLast.map Prod.fst =
        (prepareRemovalHistory repaired).keys.dropLast := by
      rw [PyDict.keys, List.map_dropLast]
    have hperm : (prepareRemovalHistory repaired).keys.Perm
        (stored::(prepareRemovalHistory repaired).keys.dropLast) := by
      have hget := hkey
      rw [List.getLast?_eq_getElem?] at hget
      have := eraseIdx_perm hget
      rwa [List.eraseIdx_length_sub_one] at this
    obtain ⟨d', heq, hprecise⟩ := removed_precise
      (prepareRemovalHistory repaired).entries.dropLast (repaired.entries.length-1) stored true
      hprepared
      (hkeys ▸ hperm) fun hnone => ⟨hsome hnone, hkey, hkeys⟩
    refine ⟨some (stored, value), d', ?_, hprecise⟩
    dsimp only
    rw [heq]
    rfl

omit [ShapedKey K] [EquivBEq K] in
/-- The last entry moves into the gap. -/
theorem swapped_perm {α : Type u} {l : List α} {i : ℕ} {a last : α} (hi : l[i]? = some a)
    (hlast : l.getLast? = some last) : l.Perm (a::(l.set i last).dropLast) := by
  obtain ⟨init, rfl⟩ := List.getLast?_eq_some_iff.mp hlast
  obtain ⟨hlt, hget⟩ := List.getElem?_eq_some_iff.mp hi
  rw [List.length_append, List.length_singleton] at hlt
  have hmove : (init ++ [last]).Perm (last::init) := List.perm_append_singleton last init
  by_cases hinit : i < init.length
  · rw [List.set_append_left _ _ hinit, List.dropLast_concat]
    rw [List.getElem?_append_left hinit] at hi
    have hset := List.set_perm_cons_eraseIdx hinit last
    have herase := eraseIdx_perm hi
    have hswap : (last::init).Perm (a::last::init.eraseIdx i) :=
      (herase.cons last).trans (.swap a last _)
    exact hmove.trans (hswap.trans (hset.symm.cons a))
  · have hend : i = init.length := by omega
    subst hend
    rw [List.getElem?_concat_length] at hi
    cases hi
    have hset : (init ++ [a]).set init.length a = init ++ [a] := by simp
    rw [hset, List.dropLast_concat]
    exact hmove

theorem swapRemove_kept (hmax : maxEntries < poisonedObjectKeyCount) (h : Kept maxEntries d)
    (query : K → Bool) :
    ∃ removed d', swapRemove d query = .ok (removed, d') ∧ Precise maxEntries d' := by
  obtain ⟨hrepaired, -⟩ := h.repaired hmax
  rw [swapRemove]
  dsimp only
  set repaired := repairPoisonedMetadata d
  cases getIndexOf repaired query with
  | none => exact ⟨none, repaired, rfl, hrepaired⟩
  | some i =>
    dsimp only
    rw [ensurePythonHashIndex, hrepaired.repaired hmax]
    have hensured := ensured_precise hrepaired.toCounted
    obtain ⟨-, -, hsome⟩ := ensured hrepaired.toTracked
    set d' := DictOps.ensurePythonHashIndex repaired
    split
    · rename_i stored value last hi hlast
      have hperm := (swapped_perm hi hlast).map Prod.fst
      obtain ⟨d'', heq, hprecise⟩ := removed_precise
        (d'.entries.set i last).dropLast i stored false hensured hperm fun hnone => by
          rw [hnone] at hsome
          cases hsome
      refine ⟨some value, d'', ?_, hprecise⟩
      rw [heq]
      rfl
    · exact ⟨none, d', rfl, hensured⟩

omit [ShapedKey K] [EquivBEq K] in
theorem sift_perm (keep : ℕ → K → V → Bool × V) (i : ℕ) (entries : List (K × V)) :
    (entries.map Prod.fst).Perm
      ((sift keep i entries).2 ++ (sift keep i entries).1.map Prod.fst) := by
  induction entries generalizing i with
  | nil => exact .nil
  | cons entry rest ih =>
    obtain ⟨key, value⟩ := entry
    simp only [sift]
    split
    · exact ((ih (i+1)).cons key).trans List.perm_middle.symm
    · exact (ih (i+1)).cons key

/-- Without a removal the table that `retain` asked for may go again. -/
theorem retain_kept (hmax : maxEntries < poisonedObjectKeyCount) (h : Kept maxEntries d)
    (keep : ℕ → K → V → Bool × V) :
    ∃ d', retain d keep = .ok d' ∧ Precise maxEntries d' := by
  obtain ⟨hrepaired, -⟩ := h.repaired hmax
  rw [DictMetadata.retain]
  dsimp only
  rw [ensurePythonHashIndex, hrepaired.repaired hmax]
  set repaired := repairPoisonedMetadata d
  have hensured := ensured_precise hrepaired.toCounted
  obtain ⟨-, hkeys, hsome⟩ := ensured hrepaired.toTracked
  have hperm := sift_perm keep 0 (DictOps.ensurePythonHashIndex repaired).entries
  have hsame := DictLazy.sift_nil_keys keep 0 (DictOps.ensurePythonHashIndex repaired).entries
  by_cases hnil : (sift keep 0 (DictOps.ensurePythonHashIndex repaired).entries).2 = []
  · have hreplaced := replaced_precise hensured (hsame hnil)
    rw [hnil, List.isEmpty_nil, if_pos rfl]
    split
    · exact ⟨_, rfl, hreplaced⟩
    · rename_i hhistory
      rw [Bool.or_eq_true, not_or] at hhistory
      have hindex : repaired.pythonHashIndex = none := by simpa using hhistory.1
      have hplain := hrepaired.plain hindex
      have hlength := congrArg List.length ((hsame hnil).trans hkeys)
      rw [List.length_map, length_keys] at hlength
      have hnoJournal : (DictOps.ensurePythonHashIndex repaired).mutationJournal = none := by
        rw [DictOps.ensurePythonHashIndex, hindex]
      refine ⟨_, rfl, ⟨.unindexed hreplaced.distinct hreplaced.fits hreplaced.size rfl
        (unrecorded hnoJournal _), hreplaced.objects, hreplaced.dynamics⟩, ?_⟩
      intro _
      dsimp only
      rw [hlength, DictOps.ensurePythonHashIndex, hindex]
      exact hplain
  · rw [List.isEmpty_eq_false_iff.mpr hnil, if_neg Bool.false_ne_true]
    obtain ⟨index, hindex⟩ := Option.isSome_iff_exists.mp hsome
    rw [hindex]
    dsimp only
    obtain ⟨hsound, hlive⟩ := hensured.table index hindex
    obtain ⟨hsound', hlive'⟩ := recordRemoved_all hsound
      ((distinct_perm hlive).mpr hensured.distinct) (hlive.trans hperm)
    have hlength := hperm.length_eq
    rw [List.length_map, List.length_append, List.length_map] at hlength
    have hfits := hensured.fits
    have hcount : ∀ p : K → Bool, (DictOps.ensurePythonHashIndex repaired).keys.countP p =
        ((sift keep 0 (DictOps.ensurePythonHashIndex repaired).entries).1.map Prod.fst).countP p+
          (sift keep 0 (DictOps.ensurePythonHashIndex repaired).entries).2.countP p := fun p => by
      rw [PyDict.keys, hperm.countP_eq, List.countP_append, Nat.add_comm]
    apply subtractCounts_precise
    · exact .indexed (List.pairwise_append.mp ((distinct_perm hperm).mp hensured.distinct)).2.1
        (by dsimp only; omega) hensured.size rfl ⟨hsound', hlive'⟩
    · exact hensured.objects.trans (hcount isObject)
    · exact hensured.dynamics.trans (hcount containsObject)
    · intro hnone
      cases hnone

end removal

/-! ## Reordering, copies and raw access -/

section reordering
variable {K : Type u} {V : Type v} [ShapedKey K] [EquivBEq K]
variable {maxEntries : ℕ} {d : PyDict K V}

theorem moveIndex_kept (hmax : maxEntries < poisonedObjectKeyCount) (h : Kept maxEntries d)
    (source target : ℕ) : Ends (Kept maxEntries) (moveIndex d source target) := by
  obtain ⟨hrepaired, -⟩ := h.repaired hmax
  have hensured := ensured_precise hrepaired.toCounted
  obtain ⟨-, -, hsome⟩ := ensured hrepaired.toTracked
  rw [moveIndex, ensurePythonHashIndex]
  set d' := DictOps.ensurePythonHashIndex (repairPoisonedMetadata d)
  dsimp only
  cases hi : d'.entries[source]? with
  | none => exact .inr rfl
  | some entry =>
    dsimp only
    split
    · set rest := d'.entries.eraseIdx source
      have hmoved : (rest.take target ++ entry::rest.drop target).Perm d'.entries := by
        have hmiddle : (rest.take target ++ entry::rest.drop target).Perm (entry::rest) := by
          have hsplit := @List.perm_middle _ entry (rest.take target) (rest.drop target)
          rwa [List.take_append_drop] at hsplit
        exact hmiddle.trans (eraseIdx_perm hi).symm
      have hkeys := hmoved.map Prod.fst
      have hlength := hmoved.length_eq
      have hfits := hensured.fits
      obtain ⟨index, hindex⟩ := Option.isSome_iff_exists.mp hsome
      obtain ⟨hsound, hlive⟩ := hensured.table index hindex
      refine .inl (Counted.indexed ⟨.indexed ((distinct_perm hkeys).mpr hensured.distinct)
        (by dsimp only; omega) hensured.size hindex ⟨hsound, hlive.trans hkeys.symm⟩, ?_, ?_⟩ hsome)
      · exact hensured.objects.trans (hkeys.countP_eq _).symm
      · exact hensured.dynamics.trans (hkeys.countP_eq _).symm
    · exact .inr rfl

/-- A copied table holds the keys, a copied journal leads to them. -/
structure Copies (d : PyDict K V) (copied : DictOps.CopiedTable K) : Prop where
  index : ∀ index, copied.index = some index → Sound index ∧ index.liveKeys.Perm d.keys
  journal : ∀ j, copied.journal = some j → Recorded j d.keys
  plain : copied.index = none →
    ¬Mixed d.liveObjectKeyCount d.liveDynamicKeyCount d.entries.length
  size : ∀ tableSize, copied.compactedSize = some tableSize → ∃ k, tableSize = 2^k

omit [EquivBEq K] in
theorem Copies.table {index : DictPythonHashIndex K} (hsound : Sound index)
    (hlive : index.liveKeys.Perm d.keys) : Copies d { index := some index } := by
  constructor
  · intro index' hsome
    cases hsome
    exact ⟨hsound, hlive⟩
  · intro j hj
    cases hj
  · intro hnone
    cases hnone
  · intro tableSize hsize
    cases hsize

omit [EquivBEq K] in
theorem Copies.deferred {journal : Option DictMutationJournal} {compactedSize : Option ℕ}
    (hplain : ¬Mixed d.liveObjectKeyCount d.liveDynamicKeyCount d.entries.length)
    (hjournal : ∀ j, journal = some j → Recorded j d.keys)
    (hsize : ∀ tableSize, compactedSize = some tableSize → ∃ k, tableSize = 2^k) :
    Copies d { journal := journal, compactedSize := compactedSize } := by
  refine ⟨?_, hjournal, fun _ => hplain, hsize⟩
  intro index hsome
  cases hsome

theorem copyTable_copies (h : Precise maxEntries d) : Copies d (DictOps.copyTable d) := by
  rw [DictOps.copyTable]
  cases hindex : d.pythonHashIndex with
  | some index =>
    obtain ⟨hsound, hlive⟩ := h.table index hindex
    exact .table hsound hlive
  | none =>
    have hplain := h.plain hindex
    obtain ⟨hsound, hlive⟩ := reconstruct_live h.toTracked hindex
    have hnoSize : ∀ tableSize, (none : Option ℕ) = some tableSize → ∃ k, tableSize = 2^k := by
      intro tableSize hsize
      cases hsize
    cases hj : d.mutationJournal with
    | some j =>
      dsimp only
      split
      · refine .deferred hplain ?_ hnoSize
        intro j' hsome
        cases hsome
        exact h.history hindex j hj
      · split
        · refine .deferred hplain (unrecorded rfl _) ?_
          intro tableSize hsize
          cases hsize
          exact ⟨_, rfl⟩
        · exact .table hsound (.of_eq hlive)
    | none =>
      dsimp only
      split
      · exact .table hsound (.of_eq hlive)
      · exact .deferred hplain (unrecorded rfl _) hnoSize

omit [EquivBEq K] in
theorem emptied_precise (structuralVersion : UInt64) :
    Precise maxEntries ({ structuralVersion := structuralVersion } : PyDict K V) := by
  refine ⟨⟨.unindexed .nil (Nat.zero_le _) (.inl rfl) rfl (unrecorded rfl _), rfl, rfl⟩, ?_⟩
  rintro - (hless | ⟨hne, -⟩)
  · exact absurd hless (lt_irrefl 0)
  · exact hne rfl

theorem clone_precise (h : Precise maxEntries d) : Precise maxEntries (DictOps.clone d) := by
  rw [DictOps.clone]
  split
  · exact emptied_precise _
  · have hcopies := copyTable_copies h
    dsimp only
    refine ⟨⟨⟨h.distinct, h.fits, ?_, ?_, ?_⟩, h.objects, h.dynamics⟩, ?_⟩
    · change (DictOps.copyTable d).compactedSize.getD _ = 0 ∨
        ∃ k, (DictOps.copyTable d).compactedSize.getD _ = 2^k
      cases hcompacted : (DictOps.copyTable d).compactedSize with
      | none => exact h.size
      | some tableSize => exact .inr (hcopies.size tableSize hcompacted)
    · intro index hsome
      obtain ⟨copied, hcopied, rfl⟩ := Option.map_eq_some_iff.mp hsome
      obtain ⟨hsound, hlive⟩ := hcopies.index copied hcopied
      obtain ⟨hsound', hlive'⟩ := copyIndex_live hsound
      exact ⟨hsound', (List.Perm.of_eq hlive').trans hlive⟩
    · intro _ j hj
      exact hcopies.journal j hj
    · intro hnone
      exact hcopies.plain (Option.map_eq_none_iff.mp hnone)

/-- The copy of a poisoned dict is counted and has the table that a mixed dict needs. -/
theorem clone_kept (h : Kept maxEntries d) :
    Precise maxEntries (clone d) := by
  rw [DictMetadata.clone]
  split
  · exact emptied_precise _
  · split
    · rename_i hcount
      cases h with
      | inl h => exact clone_precise h
      | inr h => simp [h.objects] at hcount
    · rename_i hcount
      have htracked : Tracked maxEntries d := by
        cases h with
        | inl h => exact h.toTracked
        | inr h => exact h.toTracked
      dsimp only
      split
      · obtain ⟨hsound, hlive⟩ := fromKeys_live d.keys 0 false false (.inl rfl)
        obtain ⟨hsound', hlive'⟩ := copyIndex_live hsound
        exact Counted.indexed ⟨.indexed htracked.distinct htracked.fits (.inl rfl) rfl
          ⟨hsound', .of_eq (hlive'.trans hlive)⟩, rfl, rfl⟩ rfl
      · rename_i hplain
        rw [Bool.or_eq_true, decide_eq_true_eq, Bool.and_eq_true, bne_iff_ne,
          decide_eq_true_eq] at hplain
        exact ⟨⟨.unindexed htracked.distinct htracked.fits (.inl rfl) rfl (unrecorded rfl _), rfl,
          rfl⟩, fun _ => hplain⟩

omit [EquivBEq K] in
theorem derefMut_kept (d : PyDict K V) (result : EntryMap K V maxEntries) :
    Kept maxEntries (derefMut d result) := by
  exact .inr ⟨.unindexed result.distinct result.fits (.inl rfl) rfl (unrecorded rfl _), rfl, rfl,
    rfl, rfl⟩

omit [EquivBEq K] in
theorem iterMut_kept (h : Kept maxEntries d) (change : K → V → V) :
    Kept maxEntries (iterMut d change) := by
  have hkeys : (d.entries.map fun entry => (entry.1, change entry.1 entry.2)).map Prod.fst =
      d.keys := by
    rw [List.map_map]
    rfl
  cases h with
  | inl h => exact .inl (replaced_precise h hkeys)
  | inr h =>
    have hkeys' : (iterMut d change).keys = d.keys := hkeys
    refine .inr ⟨⟨hkeys' ▸ h.distinct, ?_, h.size, hkeys' ▸ h.table, hkeys' ▸ h.history⟩,
      h.objects, h.dynamics, h.index, h.journal⟩
    rw [iterMut, List.length_map]
    exact h.fits

end reordering

/-! ## Every run -/

section runs
variable {K : Type u} {V : Type v} [ShapedKey K] [EquivBEq K]
variable {maxEntries : ℕ} {d : PyDict K V}

theorem step_kept (hmax : maxEntries < poisonedObjectKeyCount) (h : Kept maxEntries d)
    (op : Op K V maxEntries) : Ends (Kept maxEntries) (step d op) := by
  cases op with
  | insert key value =>
    rw [step]
    rcases insert_kept hmax h key value with ⟨replaced, d', heq, hprecise⟩ | heq
    · rw [heq]
      exact .inl hprecise
    · rw [heq]
      exact .inl rfl
  | extend entries => exact extend_kept hmax entries h
  | shiftRemove query =>
    obtain ⟨removed, d', heq, hprecise⟩ := shiftRemove_kept hmax h query
    rw [step, heq]
    exact .inl hprecise
  | shiftRemoveIndex i =>
    obtain ⟨removed, d', heq, hprecise⟩ := shiftRemoveEntry_kept (h.repaired hmax).1 i
    rw [step, shiftRemoveIndex, heq]
    exact .inl hprecise
  | swapRemove query =>
    obtain ⟨removed, d', heq, hprecise⟩ := swapRemove_kept hmax h query
    rw [step, heq]
    exact .inl hprecise
  | pop =>
    obtain ⟨removed, d', heq, hprecise⟩ := pop_kept hmax h
    rw [step, heq]
    exact .inl hprecise
  | retain keep =>
    obtain ⟨d', heq, hprecise⟩ := retain_kept hmax h keep
    rw [step, heq]
    exact .inl hprecise
  | moveIndex source target => exact moveIndex_kept hmax h source target
  | clear => exact .inl (emptied_precise _)
  | clone => exact .inl (clone_kept h)
  | derefMut result => exact derefMut_kept d result
  | iterMut change => exact iterMut_kept h change
  | ensurePythonHashIndex => exact .inl (ensured_precise (h.repaired hmax).1.toCounted)
  | preparePythonInsert key => exact .inl (prepared_precise (h.repaired hmax).1 key).1

theorem run_kept (hmax : maxEntries < poisonedObjectKeyCount) (ops : List (Op K V maxEntries))
    (h : Kept maxEntries d) : Ends (Kept maxEntries) (run d ops) := by
  induction ops generalizing d with
  | nil => exact h
  | cons op ops ih =>
    have hstep := step_kept hmax h op
    rw [run, List.foldlM_cons]
    cases heq : step d op with
    | error panic =>
      rw [heq] at hstep
      exact hstep
    | ok d' =>
      rw [heq] at hstep
      exact ih hstep

theorem tableSizeFrom_pow {capacity doublings k tableSize : ℕ}
    (h : tableSizeFrom capacity doublings (2^k) = some tableSize) : ∃ k, tableSize = 2^k := by
  induction doublings generalizing k with
  | zero => cases h
  | succ doublings ih =>
    rw [tableSizeFrom] at h
    split at h
    · rw [← pow_succ] at h
      exact ih h
    · cases h
      exact ⟨k, rfl⟩

theorem tableSizeForCapacity_pow {capacity tableSize : ℕ}
    (h : tableSizeForCapacity capacity = some tableSize) :
    tableSize = 0 ∨ ∃ k, tableSize = 2^k := by
  rw [tableSizeForCapacity] at h
  split at h
  · cases h
    exact .inl rfl
  · exact .inr (tableSizeFrom_pow (k := 3) h)

omit [EquivBEq K] in
theorem constructed_precise (c : Constructor) :
    Ends (Precise (K := K) (V := V) maxEntries) (construct c) := by
  have hcapacity : ∀ capacity,
      Ends (Precise (K := K) (V := V) maxEntries) (withCapacityAndHasher capacity) := by
    intro capacity
    rw [withCapacityAndHasher]
    split
    · exact .inl rfl
    · rename_i tableSize hsize
      exact (emptied_precise 0).rebase _ _ _ (tableSizeForCapacity_pow hsize)
  cases c with
  | withCapacityAndHasher capacity => exact hcapacity capacity
  | withCapacityAndKnownKeyKind capacity unicodeOnly =>
    have h := hcapacity capacity
    rw [construct, withCapacityAndKnownKeyKind]
    cases heq : withCapacityAndHasher (K := K) (V := V) capacity with
    | error panic =>
      rw [heq] at h
      exact h
    | ok d =>
      rw [heq] at h
      change Ends _ (if _ then _ else _)
      split
      · exact h
      · exact h.rebase _ _ _ h.size
  | withFromkeysFastPath capacity unicodeOnly =>
    have h := hcapacity capacity
    rw [construct, withFromkeysFastPath]
    cases heq : withCapacityAndHasher (K := K) (V := V) capacity with
    | error panic =>
      rw [heq] at h
      exact h
    | ok d =>
      rw [heq] at h
      exact h.rebase _ _ _ (.inr ⟨_, rfl⟩)

omit [EquivBEq K] in
/-- A counted dict is mixed if it holds an object somewhere, and not only objects. -/
theorem mixed_iff (keys : List K) :
    Mixed (keys.countP isObject) (keys.countP containsObject) keys.length ↔
      (∃ key ∈ keys, containsObject key = true) ∧ ∃ key ∈ keys, isObject key = false := by
  have hall : keys.countP isObject < keys.length ↔ ∃ key ∈ keys, isObject key = false := by
    rw [lt_iff_le_and_ne, and_iff_right List.countP_le_length, Ne, List.countP_eq_length]
    simp
  rw [Mixed, hall]
  constructor
  · rintro (hless | ⟨hobjects, hother⟩)
    · have hstrict : ∃ key ∈ keys, containsObject key = true ∧ isObject key = false := by
        by_contra hnone
        have hle := List.countP_mono_left (p := containsObject) (q := isObject) (l := keys)
          fun key hkey hcontains => by
            by_contra hobject
            exact hnone ⟨key, hkey, hcontains, Bool.eq_false_iff.mpr hobject⟩
        omega
      obtain ⟨key, hkey, hcontains, hobject⟩ := hstrict
      exact ⟨⟨key, hkey, hcontains⟩, key, hkey, hobject⟩
    · obtain ⟨key, hkey, hobject⟩ := List.countP_pos_iff.mp (Nat.pos_of_ne_zero hobjects)
      exact ⟨⟨key, hkey, object_contains key hobject⟩, hother⟩
  · rintro ⟨⟨key, hkey, hcontains⟩, hother⟩
    cases hobject : isObject key with
    | true => exact .inr ⟨(List.countP_pos_iff.mpr ⟨key, hkey, hobject⟩).ne', hother⟩
    | false =>
      obtain ⟨front, back, rfl⟩ := List.append_of_mem hkey
      have hfront := objects_le_dynamics front
      have hback := objects_le_dynamics back
      rw [List.countP_append, List.countP_append, List.countP_cons_of_neg (by simp [hobject]),
        List.countP_cons_of_pos hcontains]
      exact .inl (by omega)

/-- Both counts are the poison or both are right, and a mixed dict has its table. -/
structure MetadataExact (d : PyDict K V) : Prop where
  counts : d.liveObjectKeyCount = poisonedObjectKeyCount ∧
      d.liveDynamicKeyCount = poisonedObjectKeyCount ∨
    d.liveObjectKeyCount = d.keys.countP (fun key => isObjectShape (shape key)) ∧
      d.liveDynamicKeyCount = d.keys.countP (fun key => decide (ContainsObject (shape key)))
  mixed : metadataIsPrecise d = true → (requiresPythonHashIndex d = true ↔
    (∃ key ∈ d.keys, ContainsObject (shape key)) ∧
      ∃ key ∈ d.keys, isObjectShape (shape key) = false)
  indexed : requiresPythonHashIndex d = true → ∃ index, d.pythonHashIndex = some index ∧
    index.liveKeys.Perm d.keys ∧ ∀ hash, ∃ keys, candidates index hash = some keys ∧
      ∀ key, key ∈ keys ↔ key ∈ d.keys ∧ pythonHash key = hash

omit [EquivBEq K] in
theorem kept_exact (hmax : maxEntries < poisonedObjectKeyCount) (h : Kept maxEntries d) :
    MetadataExact d := by
  cases h with
  | inr h =>
    have hpoison : metadataIsPrecise d = false := by simp [metadataIsPrecise, h.objects]
    refine ⟨.inl ⟨h.objects, h.dynamics⟩, ?_, ?_⟩
    · intro hprecise
      rw [hpoison] at hprecise
      cases hprecise
    · intro hrequires
      rw [requiresPythonHashIndex, hpoison] at hrequires
      cases hrequires
  | inl h =>
    have hcontains : ∀ key : K, decide (ContainsObject (shape key)) = containsObject key :=
      fun key => by
        rw [Bool.eq_iff_iff, decide_eq_true_iff]
        exact (pykeyContainsObject_iff (shape key)).symm
    refine ⟨.inr ⟨h.objects, ?_⟩, ?_, ?_⟩
    · simp only [hcontains]
      exact h.dynamics
    · intro _
      have hmixed := mixed_iff d.keys
      rw [← h.objects, ← h.dynamics, length_keys] at hmixed
      rw [h.requires_iff hmax, hmixed]
      have hexists : (∃ key ∈ d.keys, containsObject key = true) ↔
          ∃ key ∈ d.keys, ContainsObject (shape key) :=
        exists_congr fun key => and_congr_right fun _ => pykeyContainsObject_iff (shape key)
      rw [hexists]
      rfl
    · intro hrequires
      cases hindex : d.pythonHashIndex with
      | none => exact absurd ((h.requires_iff hmax).mp hrequires) (h.plain hindex)
      | some index =>
        obtain ⟨hsound, hlive⟩ := h.table index hindex
        refine ⟨index, rfl, hlive, fun hash => ?_⟩
        obtain ⟨keys, hkeys, hmem⟩ := DictTableRuns.candidates_iff hsound hash
        refine ⟨keys, hkeys, fun key => ?_⟩
        rw [hmem, hlive.mem_iff]

/-- Whatever a dict was created for, and whatever was done to it since, its metadata is exact. -/
theorem key_metadata_exact (hmax : maxEntries < poisonedObjectKeyCount) (c : Constructor)
    (ops : List (Op K V maxEntries)) :
    Ends MetadataExact (construct c >>= fun d => run d ops) := by
  have hends : ∀ result : Except Panic (PyDict K V), Ends (Kept maxEntries) result →
      Ends MetadataExact result := by
    intro result h
    cases result with
    | error panic => exact h
    | ok d => exact kept_exact hmax h
  apply hends
  have hconstructed : Ends (Precise maxEntries) (construct c : Except Panic (PyDict K V)) :=
    constructed_precise c
  cases heq : (construct c : Except Panic (PyDict K V)) with
  | error panic =>
    rw [heq] at hconstructed
    exact hconstructed
  | ok d =>
    rw [heq] at hconstructed
    exact run_kept hmax ops (.inl hconstructed)

end runs

/-! ## An example -/

/-- A string, an instance of a class, and a pair of the two. -/
inductive SampleKey where
  | name
  | widget
  | pair
  deriving DecidableEq

instance : ShapedKey SampleKey where
  beq a b := decide (a = b)
  pythonHash
    | .name => 1
    | .widget => 2
    | .pair => 3
  isStr key := decide (key = .name)
  shape
    | .name => .scalar
    | .widget => .object
    | .pair => .tuple [.scalar, .object]

instance : LawfulBEq SampleKey where
  eq_of_beq h := of_decide_eq_true h
  rfl {a} := decide_eq_true (rfl : a = a)

/-- Raw access leaves a mixed dict behind, and the next removal repairs it. -/
theorem key_metadata_exact_repair : Ends MetadataExact
    ((construct (.withCapacityAndHasher 3) : Except Panic (PyDict SampleKey ℕ)) >>= fun d =>
      run d [.insert .widget 0, .clone,
        .derefMut (⟨[(.name, 1), (.pair, 2), (.widget, 3)], by unfold Distinct; decide, by decide⟩ :
          EntryMap SampleKey ℕ (2^63-1)),
        .swapRemove fun key => decide (key = .name), .moveIndex 0 1, .pop]) :=
  key_metadata_exact (by decide) _ _

end Pyrust.DictMetadataRuns
