import Pyrust.DictOps

/-!
# Lazy and eager dicts

The abstract dict is its entries together with the probe table that every
operation keeps up to date. A concrete dict stands for an abstract one in
three ways: with the table installed, by a baseline from which the table is
rebuilt, or by a baseline and a journal. Every operation respects this
correspondence, with one exception: a non-string key inserted into an empty
unicode dict whose journal is still pending.
-/

set_option autoImplicit false

namespace Pyrust.DictLazy
open Pyrust.DictProbeIndex Pyrust.DictProbeInvariant Pyrust.HoleyList
open Pyrust.DictJournal Pyrust.DictReplay Pyrust.DictOps

universe u v

section capacity

/-- Remaining capacity after `n` unique insertions into a table of this size. -/
def usableAfter (tableSize : ℕ) : ℕ → ℕ
  | 0 => dictProbeUsableFraction tableSize
  | n+1 => (if usableAfter tableSize n = 0 then regrown n else usableAfter tableSize n)-1

theorem regrown_pos (n : ℕ) : 0 < regrown n := by
  have := usableFraction_grow n
  simp only [regrown]
  omega

theorem usableAfter_batch (tableSize n b : ℕ) (hb : 1 ≤ b)
    (hle : b ≤ if usableAfter tableSize n = 0 then regrown n else usableAfter tableSize n) :
    usableAfter tableSize (n+b) =
      (if usableAfter tableSize n = 0 then regrown n else usableAfter tableSize n)-b := by
  induction b with
  | zero => omega
  | succ b ih =>
    cases b with
    | zero => rfl
    | succ b =>
      have hprev := ih (by omega) (by omega)
      rw [show n+(b+1+1) = (n+(b+1))+1 by omega, usableAfter, hprev, if_neg (by omega)]
      omega

theorem epochs_eq (tableSize liveLen fuel placed : ℕ) (hp : placed ≤ liveLen)
    (hf : liveLen ≤ placed+fuel) :
    epochs liveLen fuel placed (usableAfter tableSize placed) = usableAfter tableSize liveLen := by
  induction fuel generalizing placed with
  | zero =>
    rw [show placed = liveLen by omega]
    rfl
  | succ fuel ih =>
    rw [epochs]
    by_cases hlt : placed < liveLen
    · rw [if_pos hlt]
      have hpos : 0 < if usableAfter tableSize placed = 0 then regrown placed
          else usableAfter tableSize placed := by
        split
        · exact regrown_pos placed
        · omega
      have hbatch := usableAfter_batch tableSize placed
        (min (if usableAfter tableSize placed = 0 then regrown placed
          else usableAfter tableSize placed) (liveLen-placed)) (by omega) (by omega)
      simp only
      rw [← hbatch]
      exact ih _ (by omega) (by omega)
    · rw [if_neg hlt, show placed = liveLen by omega]

theorem fromCurrentEntries_usable (tableSize liveLen : ℕ) :
    (fromCurrentEntries tableSize liveLen).usable = usableAfter tableSize liveLen :=
  epochs_eq tableSize liveLen liveLen 0 (by omega) (by omega)

theorem usableAfter_fit (tableSize n : ℕ) (h : n ≤ dictProbeUsableFraction tableSize) :
    usableAfter tableSize n = dictProbeUsableFraction tableSize-n := by
  induction n with
  | zero => rfl
  | succ n ih =>
    rw [usableAfter, ih (by omega), if_neg (by omega)]
    omega

theorem sparseCopy_fits (liveLen : ℕ) :
    liveLen ≤ dictProbeUsableFraction (sparseCopyTableSize liveLen) := by
  obtain ⟨hle, -⟩ := or_eight_le ((liveLen*3+1)/2)
  obtain ⟨hlow, -⟩ := tableSizeForTarget_bounds ((liveLen*3+1)/2)
  simp only [sparseCopyTableSize, dictProbeUsableFraction]
  omega

end capacity

/-- The dict with its table always at hand. -/
structure Table (K : Type u) (V : Type v) where
  entries : List (K × V) := []
  index : DictPythonHashIndex K := {}

section refinement
variable {K : Type u} {V : Type v} [DictKey K]

def Table.keys (t : Table K V) : List K := t.entries.map Prod.fst

def tableStep (t : Table K V) : Op K V → Table K V
  | .insert key value =>
    match t.entries.findIdx? (fun entry => entry.1 == key) with
    | some i => ⟨t.entries.modify i (fun entry => (entry.1, value)), convertFor t.index key⟩
    | none => ⟨t.entries++[(key, value)],
        DictProbeIndex.recordInserted (convertFor t.index key) key⟩
  | .shiftRemove key =>
    match t.entries.findIdx? (fun entry => entry.1 == key) with
    | none => t
    | some i =>
      match t.entries[i]? with
      | none => t
      | some (stored, _) =>
        ⟨t.entries.eraseIdx i, DictProbeIndex.recordRemoved t.index stored⟩
  | .pop =>
    match t.entries.getLast? with
    | none => t
    | some (stored, _) => ⟨t.entries.dropLast, recordPopped t.index stored⟩
  | .retain keep =>
    ⟨(sift keep 0 t.entries).1,
      (sift keep 0 t.entries).2.foldl DictProbeIndex.recordRemoved t.index⟩
  | .clear => {}
  | .clone => if t.entries.isEmpty then {} else ⟨t.entries, copyIndex t.index⟩

structure Wf (t : Table K V) : Prop where
  sound : Sound t.index
  live : t.index.liveKeys = t.keys
  distinct : Distinct t.keys
  strings : t.index.unicodeOnly = true → ∀ key ∈ t.keys, isStr key = true

/-- No mutation since the baseline but unique insertions. -/
structure Baseline (d : PyDict K V) (t : Table K V) : Prop where
  size : d.initialTableSize = 0 ∨ ∃ k, d.initialTableSize = 2^k
  index : t.index = baseIndex t.keys d.initialTableSize d.initialTableKind.isUnicode
  dense : t.index.entryKeys = t.keys.map some
  usable : t.index.usable = usableAfter d.initialTableSize t.keys.length

/-- The journal encodes a history that leads from a baseline to the table. -/
structure Journalled (d : PyDict K V) (j : DictMutationJournal) (t : Table K V)
    (base : List K) (hist : List (Mutation K)) : Prop where
  size : d.initialTableSize = 0 ∨ ∃ k, d.initialTableSize = 2^k
  mutations : j.mutations = hist.map encode
  valid : ValidAlong hist base
  distinct : Distinct base
  keys : t.keys = hist.foldl keysStep base
  index : t.index =
    hist.foldl indexStep (baseIndex base d.initialTableSize d.initialTableKind.isUnicode)
  usable : j.usable = t.index.usable
  holes : t.index.entryKeys.length ≤ t.keys.length+j.nonPopRemovals
  exactHoles : j.hasPop = false → t.index.entryKeys.length = t.keys.length+j.nonPopRemovals

def Holds (d : PyDict K V) (t : Table K V) : Prop :=
  match d.pythonHashIndex with
  | some index => index = t.index
  | none =>
    match d.mutationJournal with
    | none => Baseline d t
    | some j => ∃ base hist, Journalled d j t base hist

def tableKind (t : Table K V) : DictKeyTableKind :=
  if t.index.unicodeOnly then .unicode else .general

structure Represents (d : PyDict K V) (t : Table K V) : Prop where
  entries : d.entries = t.entries
  kind : d.keyTableKind = tableKind t
  holds : Holds d t

theorem indexOf_none (entries : List (K × V)) (key : K)
    (h : entries.findIdx? (fun entry => entry.1 == key) = none) :
    ∀ stored ∈ entries.map Prod.fst, (stored == key) = false := by
  intro stored hs
  obtain ⟨entry, he, rfl⟩ := List.mem_map.mp hs
  exact List.findIdx?_eq_none_iff.mp h entry he

theorem insert_new_wf (t : Table K V) (key : K) (value : V) (h : Wf t)
    (hf : t.entries.findIdx? (fun entry => entry.1 == key) = none) :
    Wf (⟨t.entries++[(key, value)],
      DictProbeIndex.recordInserted (convertFor t.index key) key⟩ : Table K V) := by
  have hc := convertFor_sound h.sound key
  constructor
  · exact recordInserted_sound hc key
  · rw [recordInserted_liveKeys hc, convertFor_liveKeys h.sound, h.live]
    simp [Table.keys]
  · have := keysStep_distinct t.keys (.insert key) h.distinct (indexOf_none t.entries key hf)
    simpa [Table.keys, keysStep] using this
  · intro hu k hk
    rw [recordInserted_unicodeOnly hc, convertFor_unicodeOnly] at hu
    simp only [Bool.and_eq_true] at hu
    simp only [Table.keys, List.map_append, List.map_cons, List.map_nil, List.mem_append,
      List.mem_singleton] at hk
    rcases hk with hk | rfl
    · exact h.strings hu.1.1 k hk
    · exact hu.2

/-- Changing values, not keys, keeps an abstract dict well formed. -/
theorem values_wf (t : Table K V) (entries : List (K × V)) (h : Wf t)
    (hk : entries.map Prod.fst = t.keys) : Wf (⟨entries, t.index⟩ : Table K V) :=
  ⟨h.sound, by rw [h.live, ← hk]; rfl, by rw [Table.keys, hk]; exact h.distinct,
    fun hu k hmem => h.strings hu k (hk ▸ hmem)⟩

theorem convertFor_wf (t : Table K V) (key : K) (h : Wf t) :
    Wf (⟨t.entries, convertFor t.index key⟩ : Table K V) := by
  constructor
  · exact convertFor_sound h.sound key
  · rw [convertFor_liveKeys h.sound, h.live]
    rfl
  · exact h.distinct
  · intro hu
    rw [convertFor_unicodeOnly, Bool.and_eq_true] at hu
    exact h.strings hu.1

theorem removed_wf [EquivBEq K] (t : Table K V) (i : ℕ) (stored : K) (value : V) (h : Wf t)
    (hi : t.entries[i]? = some (stored, value)) :
    Wf (⟨t.entries.eraseIdx i, DictProbeIndex.recordRemoved t.index stored⟩ : Table K V) := by
  have hkey : t.keys[i]? = some stored := by simp [Table.keys, hi]
  have hl := h.live
  obtain ⟨h1, h2, -, h4, -⟩ := recordRemoved_spec t.index h.sound (hl ▸ h.distinct) i stored
    (hl ▸ hkey)
  have hkeys : (⟨t.entries.eraseIdx i, DictProbeIndex.recordRemoved t.index stored⟩ :
      Table K V).keys = t.keys.eraseIdx i := by
    simp [Table.keys, List.eraseIdx_map]
  constructor
  · exact h1
  · rw [hkeys, h2, hl]
  · rw [hkeys]
    exact h.distinct.sublist (List.eraseIdx_sublist _ _)
  · intro hu k hk
    rw [hkeys] at hk
    exact h.strings (h4 ▸ hu) k (List.mem_of_mem_eraseIdx hk)

theorem popped_wf [EquivBEq K] (t : Table K V) (stored : K) (value : V) (h : Wf t)
    (hi : t.entries.getLast? = some (stored, value)) :
    Wf (⟨t.entries.dropLast, recordPopped t.index stored⟩ : Table K V) := by
  rw [List.getLast?_eq_getElem?] at hi
  have hr := removed_wf t _ stored value h hi
  rw [List.eraseIdx_length_sub_one] at hr
  constructor
  · exact truncatePoppedEntries_sound hr.sound
  · rw [recordPopped, truncatePoppedEntries_liveKeys, hr.live]
    rfl
  · exact hr.distinct
  · exact hr.strings

omit [DictKey K] in
theorem sift_keys (keep : ℕ → K → V → Bool × V) (i : ℕ) (entries : List (K × V)) :
    ((sift keep i entries).1.map Prod.fst).Sublist (entries.map Prod.fst) := by
  induction entries generalizing i with
  | nil => simp [sift]
  | cons entry rest ih =>
    obtain ⟨key, value⟩ := entry
    simp only [sift]
    split
    · simpa using ih (i+1)
    · exact (ih (i+1)).cons key

/-- Removing the sifted keys one by one leaves the kept keys in order. -/
theorem sift_removed [EquivBEq K] (keep : ℕ → K → V → Bool × V) (entries : List (K × V))
    (i : ℕ) (front : List K) (index : DictPythonHashIndex K) (hs : Sound index)
    (hl : index.liveKeys = front++entries.map Prod.fst) (hd : Distinct index.liveKeys) :
    Sound ((sift keep i entries).2.foldl DictProbeIndex.recordRemoved index) ∧
    ((sift keep i entries).2.foldl DictProbeIndex.recordRemoved index).liveKeys =
      front++(sift keep i entries).1.map Prod.fst ∧
    ((sift keep i entries).2.foldl DictProbeIndex.recordRemoved index).unicodeOnly =
      index.unicodeOnly := by
  induction entries generalizing i front index with
  | nil => exact ⟨hs, hl, rfl⟩
  | cons entry rest ih =>
    obtain ⟨key, value⟩ := entry
    simp only [sift]
    by_cases hk : (keep i key value).1 = true
    · simp only [if_pos hk]
      obtain ⟨h1, h2, h3⟩ := ih (i+1) (front++[key]) index hs (by simpa using hl) hd
      exact ⟨h1, by simpa using h2, h3⟩
    · simp only [if_neg hk, List.foldl_cons]
      have hget : index.liveKeys[front.length]? = some key := by simp [hl]
      obtain ⟨h1, h2, -, h4, -⟩ := recordRemoved_spec index hs hd front.length key hget
      have hl' : (DictProbeIndex.recordRemoved index key).liveKeys =
          front++rest.map Prod.fst := by
        rw [h2, hl, List.eraseIdx_append_of_length_le le_rfl]
        simp
      have hd' : Distinct (DictProbeIndex.recordRemoved index key).liveKeys := by
        rw [h2]
        exact hd.sublist (List.eraseIdx_sublist _ _)
      rw [← h4]
      exact ih (i+1) front _ h1 hl' hd'

theorem retained_wf [EquivBEq K] (t : Table K V) (keep : ℕ → K → V → Bool × V) (h : Wf t) :
    Wf (tableStep t (.retain keep)) := by
  have hl := h.live
  obtain ⟨h1, h2, h3⟩ := sift_removed keep t.entries 0 [] t.index h.sound
    (by simpa [Table.keys] using hl) (hl ▸ h.distinct)
  have hsub := sift_keys keep 0 t.entries
  constructor
  · exact h1
  · simpa [Table.keys, tableStep] using h2
  · exact h.distinct.sublist hsub
  · intro hu k hk
    exact h.strings (h3 ▸ hu) k (hsub.subset hk)

theorem empty_wf : Wf ({} : Table K V) := by
  constructor
  · exact fresh_sound 0 true (Or.inl rfl)
  · rfl
  · exact List.Pairwise.nil
  · intro _ k hk
    simp [Table.keys] at hk

theorem compactedCopy_spec (index : DictPythonHashIndex K) (hs : Sound index) :
    Sound (compactedCopy index) ∧
    (compactedCopy index).entryKeys = index.liveKeys.map some ∧
    (compactedCopy index).usable =
      dictProbeUsableFraction (sparseCopyTableSize index.liveLen)-index.liveKeys.length ∧
    (compactedCopy index).unicodeOnly = index.unicodeOnly := by
  have hf := fresh_sound (α := K) (sparseCopyTableSize index.liveLen) index.unicodeOnly
    (Or.inr ⟨_, rfl⟩)
  have hfit := sparseCopy_fits index.liveLen
  obtain ⟨h1, h2, h3, -, h5⟩ := fold_place hf index.liveKeys (by
    rw [← hs.liveCount]
    exact hfit)
  exact ⟨h1, h2, h3, h5⟩

theorem copied_wf (t : Table K V) (h : Wf t) : Wf (⟨t.entries, copyIndex t.index⟩ : Table K V) := by
  obtain ⟨h1, h2, -, h4⟩ := compactedCopy_spec t.index h.sound
  simp only [copyIndex]
  split
  · exact h
  · constructor
    · exact h1
    · rw [DictPythonHashIndex.liveKeys, h2, reduceOption_map_some]
      exact h.live
    · exact h.distinct
    · intro hu
      exact h.strings (h4 ▸ hu)

/-- Every operation keeps the abstract dict well formed. -/
theorem tableStep_wf [EquivBEq K] (t : Table K V) (op : Op K V) (h : Wf t) :
    Wf (tableStep t op) := by
  cases op with
  | insert key value =>
    simp only [tableStep]
    split
    · exact values_wf _ _ (convertFor_wf t key h) (modify_keys _ _ _)
    · rename_i hf
      exact insert_new_wf t key value h hf
  | shiftRemove key =>
    simp only [tableStep]
    split
    · exact h
    · split
      · exact h
      · rename_i hi
        exact removed_wf t _ _ _ h hi
  | pop =>
    simp only [tableStep]
    split
    · exact h
    · rename_i hi
      exact popped_wf t _ _ h hi
  | retain keep => exact retained_wf t keep h
  | clear => exact empty_wf
  | clone =>
    simp only [tableStep]
    split
    · exact empty_wf
    · exact copied_wf t h

theorem Represents.keys {d : PyDict K V} {t : Table K V} (h : Represents d t) :
    d.keys = t.keys := by
  rw [PyDict.keys, Table.keys, h.entries]

omit [DictKey K] in
theorem tableKind_isUnicode (t : Table K V) : (tableKind t).isUnicode = t.index.unicodeOnly := by
  cases hu : t.index.unicodeOnly <;> simp [tableKind, hu, DictKeyTableKind.isUnicode]

/-- A dict without a table rebuilds the abstract one, converted to its kind. -/
theorem reconstruct_eq [EquivBEq K] (d : PyDict K V) (t : Table K V) (h : Represents d t)
    (hi : d.pythonHashIndex = none) (kind : DictKeyTableKind) :
    reconstruct { d with keyTableKind := kind } = convertTo kind.isUnicode t.index := by
  have hk := h.keys
  have hh := h.holds
  simp only [Holds, hi] at hh
  simp only [PyDict.keys] at hk
  cases hj : d.mutationJournal with
  | none =>
    simp only [hj] at hh
    simp only [reconstruct, PyDict.keys, hk, fromKeys_eq, hh.index]
  | some j =>
    simp only [hj] at hh
    obtain ⟨base, hist, hjr⟩ := hh
    simp only [reconstruct, PyDict.keys, hk, hjr.keys]
    rw [materialize_eq j hist base _ _ _ hjr.size hjr.mutations hjr.valid hjr.distinct, hjr.index]

theorem reconstruct_self [EquivBEq K] (d : PyDict K V) (t : Table K V) (h : Represents d t)
    (hi : d.pythonHashIndex = none) : reconstruct d = t.index := by
  have hr := reconstruct_eq d t h hi d.keyTableKind
  rw [h.kind, tableKind_isUnicode, convertTo_self, ← h.kind] at hr
  exact hr

/-- Asking for the table installs exactly the abstract one. -/
theorem ensure_index [EquivBEq K] (d : PyDict K V) (t : Table K V) (h : Represents d t) :
    (ensurePythonHashIndex d).pythonHashIndex = some t.index := by
  cases hi : d.pythonHashIndex with
  | some index =>
    have hh := h.holds
    simp only [Holds, hi] at hh
    simp [ensurePythonHashIndex, hi, hh]
  | none => simp [ensurePythonHashIndex, hi, reconstruct_self d t h hi]

theorem represents_of_index (d : PyDict K V) (t : Table K V) (he : d.entries = t.entries)
    (hk : d.keyTableKind = tableKind t) (hi : d.pythonHashIndex = some t.index) :
    Represents d t := by
  refine ⟨he, hk, ?_⟩
  simp [Holds, hi]

theorem ensure_represents [EquivBEq K] (d : PyDict K V) (t : Table K V) (h : Represents d t) :
    Represents (ensurePythonHashIndex d) t := by
  apply represents_of_index
  · simp only [ensurePythonHashIndex]
    split <;> exact h.entries
  · simp only [ensurePythonHashIndex]
    split <;> exact h.kind
  · exact ensure_index d t h

theorem insert_tableKind (t : Table K V) (key : K) (value : V) (hw : Wf t)
    (hk : (t.index.unicodeOnly && !isStr key) = false) :
    tableKind (⟨t.entries++[(key, value)], DictProbeIndex.recordInserted t.index key⟩ :
      Table K V) = tableKind t := by
  simp only [tableKind, recordInserted_unicodeOnly hw.sound]
  cases hu : t.index.unicodeOnly <;> cases hs : isStr key <;> simp_all

theorem baseline_insert (d : PyDict K V) (t : Table K V) (key : K) (value : V) (hw : Wf t)
    (hk : (t.index.unicodeOnly && !isStr key) = false) (h : Baseline d t) :
    Baseline d ⟨t.entries++[(key, value)], DictProbeIndex.recordInserted t.index key⟩ := by
  have hkeys : (⟨t.entries++[(key, value)], DictProbeIndex.recordInserted t.index key⟩ :
      Table K V).keys = t.keys++[key] := by simp [Table.keys]
  have hlive := hw.live
  have hlen : t.index.liveLen = t.keys.length := by rw [hw.sound.liveCount, hlive]
  constructor
  · exact h.size
  · rw [hkeys, baseIndex_concat, ← h.index]
  · rw [hkeys, recordInserted_entryKeys hw.sound key hk, hlive, h.dense]
    split <;> simp
  · rw [hkeys, (recordInserted_capacity hw.sound key hk).1, hlen, List.length_append,
      List.length_singleton, usableAfter, h.usable]
    rfl

/-- The resize an insertion makes is the baseline of the keys at the new size. -/
theorem resize_eq_baseIndex (t : Table K V) (hw : Wf t) :
    resize t.index (t.index.liveLen*3) =
      baseIndex t.keys (tableSizeForTarget (t.keys.length*3)) t.index.unicodeOnly := by
  have hlen : t.index.liveLen = t.keys.length := by rw [hw.sound.liveCount, hw.live]
  rw [baseIndex_eq_place t.keys (tableSizeForTarget (t.keys.length*3)) _ (Or.inr ⟨_, rfl⟩)
    (usableFraction_grow t.keys.length).le hw.strings, resize, hw.live, hlen]

theorem full_insert_eq (t : Table K V) (key : K) (hw : Wf t)
    (hk : (t.index.unicodeOnly && !isStr key) = false) (hfull : t.index.usable = 0) :
    DictProbeIndex.recordInserted t.index key =
      baseIndex (t.keys++[key]) (tableSizeForTarget (t.keys.length*3)) t.index.unicodeOnly := by
  obtain ⟨-, -, -, -, hpos, huni⟩ := grow_spec hw.sound
  rw [baseIndex_concat, ← resize_eq_baseIndex t hw,
    recordInserted_eq_place key hpos (by rw [huni]; exact hk)]
  simp [DictProbeIndex.recordInserted, convertFor, makeRoom, hk, hfull]

theorem journalled_rebase (d : PyDict K V) (j : DictMutationJournal) (t : Table K V) (key : K)
    (value : V) (hw : Wf t) (hk : (t.index.unicodeOnly && !isStr key) = false)
    (hd : Distinct (t.keys++[key])) (hfull : t.index.usable = 0)
    (hsize : d.initialTableSize = tableSizeForTarget (t.keys.length*3))
    (hkind : d.initialTableKind.isUnicode = t.index.unicodeOnly)
    (hj : j = ⟨[], 0, false, regrown t.keys.length-1⟩) :
    Journalled d j ⟨t.entries++[(key, value)], DictProbeIndex.recordInserted t.index key⟩
      (t.keys++[key]) [] := by
  have hlen : t.index.liveLen = t.keys.length := by rw [hw.sound.liveCount, hw.live]
  obtain ⟨hcap, hel⟩ := recordInserted_capacity hw.sound key hk
  rw [if_pos hfull, hlen] at hcap hel
  have hkeys : (⟨t.entries++[(key, value)], DictProbeIndex.recordInserted t.index key⟩ :
      Table K V).keys = t.keys++[key] := by simp [Table.keys]
  constructor
  · rw [hsize]
    exact Or.inr ⟨_, rfl⟩
  · simp [hj]
  · trivial
  · exact hd
  · exact hkeys
  · rw [hsize, hkind]
    exact full_insert_eq t key hw hk hfull
  · rw [hj, hcap]
    rfl
  · simp [hj, hkeys, hel]
  · simp [hj, hkeys, hel]

theorem validAlong_concat (hist : List (Mutation K)) (base : List K) (m : Mutation K)
    (hv : ValidAlong hist base) (hm : Valid (hist.foldl keysStep base) m) :
    ValidAlong (hist++[m]) base := by
  induction hist generalizing base with
  | nil => exact ⟨hm, trivial⟩
  | cons n hist ih => exact ⟨hv.1, ih _ hv.2 hm⟩

theorem journalled_insert (d : PyDict K V) (j : DictMutationJournal) (t : Table K V)
    (base : List K) (hist : List (Mutation K)) (key : K) (value : V) (hw : Wf t)
    (hk : (t.index.unicodeOnly && !isStr key) = false)
    (hnew : ∀ stored ∈ t.keys, (stored == key) = false) (hroom : t.index.usable ≠ 0)
    (h : Journalled d j t base hist) :
    Journalled d { j with mutations := j.mutations++[DictDeferredMutation.inserted]
                          usable := j.usable-1 }
      ⟨t.entries++[(key, value)], DictProbeIndex.recordInserted t.index key⟩ base
      (hist++[Mutation.insert key]) := by
  obtain ⟨hcap, hel⟩ := recordInserted_capacity hw.sound key hk
  rw [if_neg hroom] at hcap hel
  have hkeys : (⟨t.entries++[(key, value)], DictProbeIndex.recordInserted t.index key⟩ :
      Table K V).keys = t.keys++[key] := by simp [Table.keys]
  have hholes := h.holes
  constructor
  · exact h.size
  · simp [h.mutations, encode]
  · exact validAlong_concat hist base _ h.valid (h.keys ▸ hnew)
  · exact h.distinct
  · rw [hkeys, List.foldl_append, ← h.keys]
    rfl
  · rw [List.foldl_append, ← h.index]
    rfl
  · simp [hcap, h.usable]
  · simp only [hkeys, hel, List.length_append, List.length_singleton]
    omega
  · intro hp
    have := h.exactHoles hp
    simp only [hkeys, hel, List.length_append, List.length_singleton]
    omega

theorem journalInserted_represents (d : PyDict K V) (t : Table K V) (key : K) (value : V)
    (hw : Wf t) (hk : (t.index.unicodeOnly && !isStr key) = false)
    (hnew : ∀ stored ∈ t.keys, (stored == key) = false) (h : Represents d t)
    (hi : d.pythonHashIndex = none) (d' : PyDict K V)
    (he : d'.entries = d.entries++[(key, value)]) (hi' : d'.pythonHashIndex = none)
    (hj' : d'.mutationJournal = d.mutationJournal)
    (hs' : d'.initialTableSize = d.initialTableSize)
    (hk' : d'.initialTableKind = d.initialTableKind) (hkind : d'.keyTableKind = d.keyTableKind) :
    Represents (journalInserted d')
      ⟨t.entries++[(key, value)], DictProbeIndex.recordInserted t.index key⟩ := by
  have hh := h.holds
  have hlen : d'.entries.length-1 = t.keys.length := by
    simp [he, h.entries, Table.keys]
  have htk := insert_tableKind t key value hw hk
  simp only [Holds, hi] at hh
  cases hj : d.mutationJournal with
  | none =>
    simp only [hj] at hh
    have hb := baseline_insert d t key value hw hk hh
    have hnone : journalInserted d' = d' := by simp [journalInserted, hj', hj]
    rw [hnone]
    refine ⟨by rw [he, h.entries], by rw [hkind, h.kind, htk], ?_⟩
    simp only [Holds, hi', hj', hj]
    exact ⟨by rw [hs']; exact hb.size, by rw [hs', hk']; exact hb.index, hb.dense,
      by rw [hs']; exact hb.usable⟩
  | some j =>
    simp only [hj] at hh
    obtain ⟨base, hist, hjr⟩ := hh
    by_cases hfull : t.index.usable = 0
    · have hstep : journalInserted d' =
          { d' with
            mutationJournal := some ⟨[], 0, false, regrown t.keys.length-1⟩
            initialTableSize := tableSizeForTarget (t.keys.length*3)
            initialTableKind := d'.keyTableKind } := by
        simp [journalInserted, hj', hj, DictMutationJournal.recordInserted, hjr.usable, hfull,
          hlen]
      rw [hstep]
      refine ⟨by rw [← h.entries, ← he], by rw [htk, ← h.kind, ← hkind], ?_⟩
      simp only [Holds, hi']
      have hd := keysStep_distinct t.keys (.insert key) hw.distinct hnew
      refine ⟨_, _, journalled_rebase _ _ t key value hw hk hd hfull rfl ?_ rfl⟩
      simp only [hkind, h.kind, tableKind_isUnicode]
    · have hstep : journalInserted d' =
          { d' with
            mutationJournal := some { j with
              mutations := j.mutations++[DictDeferredMutation.inserted]
              usable := j.usable-1 } } := by
        simp [journalInserted, hj', hj, DictMutationJournal.recordInserted, hjr.usable, hfull]
      rw [hstep]
      refine ⟨by rw [← h.entries, ← he], by rw [htk, ← h.kind, ← hkind], ?_⟩
      simp only [Holds, hi']
      have hjn := journalled_insert d j t base hist key value hw hk hnew hfull hjr
      exact ⟨_, _, by rw [hs']; exact hjn.size, hjn.mutations, hjn.valid, hjn.distinct, hjn.keys,
        by rw [hs', hk']; exact hjn.index, hjn.usable, hjn.holes, hjn.exactHoles⟩

theorem recordInsertedIndex_represents [EquivBEq K] (d : PyDict K V) (t : Table K V) (key : K)
    (value : V) (hw : Wf t) (hk : (t.index.unicodeOnly && !isStr key) = false)
    (hnew : ∀ stored ∈ t.keys, (stored == key) = false) (h : Represents d t) :
    Represents (recordInsertedIndex { d with entries := d.entries++[(key, value)] } key)
      ⟨t.entries++[(key, value)], DictProbeIndex.recordInserted t.index key⟩ := by
  have htk := insert_tableKind t key value hw hk
  cases hi : d.pythonHashIndex with
  | some index =>
    have hh := h.holds
    simp only [Holds, hi] at hh
    apply represents_of_index
    · simp [recordInsertedIndex, h.entries]
    · rw [htk, ← h.kind]
      simp [recordInsertedIndex]
    · simp [recordInsertedIndex, hh]
  | none =>
    simp only [recordInsertedIndex]
    have hr := journalInserted_represents d t key value hw hk hnew h hi
      { d with
        entries := d.entries++[(key, value)]
        liveObjectKeyCount := d.liveObjectKeyCount+(isObject key).toNat
        liveDynamicKeyCount := d.liveDynamicKeyCount+(containsObject key).toNat
        structuralVersion := d.structuralVersion+1 } rfl hi rfl rfl rfl rfl
    rw [hi] at hr
    split
    · split
      · exact hr
      · exact ensure_represents _ _ hr
    · exact hr

/-- The step that loses the table: a non-string key enters an empty unicode
dict while its journal is pending. -/
def Strands (d : PyDict K V) : Op K V → Prop
  | .insert key _ => isStr key = false ∧ d.keyTableKind = .unicode ∧ d.entries = [] ∧
      d.pythonHashIndex = none ∧ d.mutationJournal.isSome = true
  | _ => False

theorem represents_known (d : PyDict K V) (t : Table K V) (h : Represents d t) :
    (d.keyTableKind = .general ∧ t.index.unicodeOnly = false) ∨
      (d.keyTableKind = .unicode ∧ t.index.unicodeOnly = true) := by
  rw [h.kind, tableKind]
  cases hu : t.index.unicodeOnly <;> simp

theorem prepareGeneralInsert_idem (index : DictPythonHashIndex K) :
    prepareGeneralInsert (prepareGeneralInsert index) = prepareGeneralInsert index := by
  cases hu : index.unicodeOnly <;> simp [prepareGeneralInsert, hu]

/-- Preparing an insertion converts the table, unless the dict is empty. -/
theorem prepare_represents [EquivBEq K] (d : PyDict K V) (t : Table K V) (key : K)
    (h : Represents d t)
    (hne : d.keyTableKind = .unicode → isStr key = false → d.entries ≠ []) :
    Represents (preparePythonInsert d key) ⟨t.entries, convertFor t.index key⟩ := by
  rcases represents_known d t h with ⟨hg, hu⟩ | ⟨hun, hu⟩
  · have hc : convertFor t.index key = t.index := by simp [convertFor, hu]
    rw [hc]
    simpa [preparePythonInsert, hg] using h
  · cases hs : isStr key with
    | true =>
      have hc : convertFor t.index key = t.index := by simp [convertFor, hs]
      rw [hc]
      simpa [preparePythonInsert, hun, hs] using h
    | false =>
      have hc : convertFor t.index key = prepareGeneralInsert t.index := by
        simp [convertFor, hu, hs]
      have hemp : d.entries.isEmpty = false := by simpa using hne hun hs
      have hind : (ensurePythonHashIndex { d with keyTableKind := .general }).pythonHashIndex.map
          prepareGeneralInsert = some (prepareGeneralInsert t.index) := by
        cases hi : d.pythonHashIndex with
        | some index =>
          have hh := h.holds
          simp only [Holds, hi] at hh
          simp [ensurePythonHashIndex, hh]
        | none =>
          have hr := reconstruct_eq d t h hi .general
          have hct : convertTo DictKeyTableKind.general.isUnicode t.index =
              prepareGeneralInsert t.index := by
            simp [convertTo, DictKeyTableKind.isUnicode, hu]
          rw [hct, hi] at hr
          simp [ensurePythonHashIndex, hr, prepareGeneralInsert_idem]
      rw [hc]
      apply represents_of_index
      · simp only [preparePythonInsert, hun, hs, hemp, ensurePythonHashIndex]
        cases hi : d.pythonHashIndex <;> simp [h.entries]
      · simp only [preparePythonInsert, hun, hs, hemp, ensurePythonHashIndex]
        cases hi : d.pythonHashIndex <;> simp [tableKind, prepareGeneralInsert, hu]
      · simpa [preparePythonInsert, hun, hs, hemp] using hind

theorem values_represents (d : PyDict K V) (t : Table K V) (entries : List (K × V))
    (h : Represents d t) (hk : entries.map Prod.fst = t.keys) :
    Represents { d with entries := entries } ⟨entries, t.index⟩ := by
  have hkeys : (⟨entries, t.index⟩ : Table K V).keys = t.keys := hk
  refine ⟨rfl, h.kind, ?_⟩
  have hh := h.holds
  simp only [Holds] at hh ⊢
  cases hi : d.pythonHashIndex with
  | some index => simpa [hi] using hh
  | none =>
    simp only [hi] at hh ⊢
    cases hj : d.mutationJournal with
    | none =>
      simp only [hj] at hh ⊢
      exact ⟨hh.size, by rw [hkeys]; exact hh.index, by rw [hkeys]; exact hh.dense,
        by rw [hkeys]; exact hh.usable⟩
    | some j =>
      simp only [hj] at hh ⊢
      obtain ⟨base, hist, hjr⟩ := hh
      exact ⟨base, hist, hjr.size, hjr.mutations, hjr.valid, hjr.distinct,
        by rw [hkeys]; exact hjr.keys, hjr.index, hjr.usable, by rw [hkeys]; exact hjr.holes,
        by rw [hkeys]; exact hjr.exactHoles⟩

theorem convertFor_settled (index : DictPythonHashIndex K) (key : K) :
    ((convertFor index key).unicodeOnly && !isStr key) = false := by
  rw [convertFor_unicodeOnly]
  cases isStr key <;> simp

theorem recordInserted_convertFor (index : DictPythonHashIndex K) (key : K) :
    DictProbeIndex.recordInserted (convertFor index key) key =
      DictProbeIndex.recordInserted index key := by
  have hset := convertFor_settled index key
  have hc : convertFor (convertFor index key) key = convertFor index key := by
    rw [convertFor, if_neg (by simp [hset])]
  rw [DictProbeIndex.recordInserted, hc, DictProbeIndex.recordInserted]

theorem prepareGeneralInsert_fresh (tableSize : ℕ) :
    prepareGeneralInsert (freshTable tableSize true : DictPythonHashIndex K) =
      freshTable 8 false := by
  have h8 : tableSizeForTarget 0 = 8 := by decide
  simp [prepareGeneralInsert, resize, freshTable, withTableSize, DictPythonHashIndex.liveKeys, h8]

/-- The first non-string key of an empty unicode dict with no history. -/
theorem first_general_represents [EquivBEq K] (d : PyDict K V) (t : Table K V) (key : K)
    (value : V) (hw : Wf t) (h : Represents d t) (hun : d.keyTableKind = .unicode)
    (hs : isStr key = false) (hemp : d.entries = []) (hi : d.pythonHashIndex = none)
    (hj : d.mutationJournal = none) :
    Represents (DictOps.insert d key value).2
      ⟨[(key, value)], DictProbeIndex.recordInserted t.index key⟩ := by
  have hh := h.holds
  simp only [Holds, hi, hj] at hh
  have hkeys : t.keys = [] := by rw [← h.keys, PyDict.keys, hemp]; rfl
  have hu : t.index.unicodeOnly = true := by
    rw [← tableKind_isUnicode, ← h.kind, hun]
    rfl
  have hidx : t.index = freshTable d.initialTableSize true := by
    have hb := hh.index
    rw [hkeys] at hb
    have hik : d.initialTableKind.isUnicode = true := by
      rw [hb] at hu
      exact hu
    rw [hb, hik]
    rfl
  have hconv : ∀ size, convertFor (freshTable size true : DictPythonHashIndex K) key =
      freshTable 8 false := by
    intro size
    simp only [convertFor, hs]
    exact prepareGeneralInsert_fresh size
  have hfresh : Sound (freshTable 8 false : DictPythonHashIndex K) :=
    fresh_sound 8 false (Or.inr ⟨3, rfl⟩)
  have hnew : DictProbeIndex.recordInserted t.index key =
      DictProbeIndex.recordInserted (freshTable 8 false) key := by
    rw [← recordInserted_convertFor, hidx, hconv]
  have hbase : baseIndex [key] 8 true = DictProbeIndex.recordInserted (freshTable 8 false) key := by
    change DictProbeIndex.recordInserted (freshTable 8 true) key = _
    rw [← recordInserted_convertFor, hconv]
  have hik : d.initialTableKind.isUnicode = true := by
    have hb := hh.index
    rw [hkeys] at hb
    rw [hb] at hu
    exact hu
  have hdict : ∀ d' : PyDict K V, d'.entries = [(key, value)] → d'.keyTableKind = .general →
      d'.pythonHashIndex = none → d'.mutationJournal = none → d'.initialTableSize = 8 →
      d'.initialTableKind = d.initialTableKind →
      Represents d' ⟨[(key, value)], DictProbeIndex.recordInserted t.index key⟩ := by
    intro d' h1 h2 h3 h4 h5 h6
    refine ⟨h1, ?_, ?_⟩
    · rw [h2, tableKind, recordInserted_unicodeOnly hw.sound, hs]
      simp
    · simp only [Holds, h3, h4]
      constructor
      · exact Or.inr ⟨3, h5⟩
      · rw [h5, h6, hik, hnew]
        exact hbase.symm
      · simp only [hnew]
        rw [recordInserted_entryKeys hfresh key (by simp [freshTable])]
        simp [freshTable, withTableSize, dictProbeUsableFraction, Table.keys]
      · simp only [hnew]
        rw [(recordInserted_capacity hfresh key (by simp [freshTable])).1, h5]
        rfl
  have hins : (DictOps.insert d key value).2 = recordInsertedIndex
      { d with entries := [(key, value)], keyTableKind := .general, initialTableSize := 8 }
      key := by
    simp [DictOps.insert, preparePythonInsert, hun, hs, hemp, indexOf]
  rw [hins]
  simp only [recordInsertedIndex, hi, journalInserted, hj]
  split
  · split
    · exact hdict _ rfl rfl rfl rfl rfl rfl
    · exact ensure_represents _ _ (hdict _ rfl rfl rfl rfl rfl rfl)
  · exact hdict _ rfl rfl rfl rfl rfl rfl

theorem insert_represents [EquivBEq K] (d : PyDict K V) (t : Table K V) (key : K) (value : V)
    (hw : Wf t) (h : Represents d t) (hn : ¬ Strands d (.insert key value)) :
    Represents (step d (.insert key value)) (tableStep t (.insert key value)) := by
  by_cases hempty : d.keyTableKind = .unicode ∧ isStr key = false ∧ d.entries = []
  · obtain ⟨hun, hs, hemp⟩ := hempty
    have ht : t.entries = [] := by rw [← h.entries, hemp]
    have htab : tableStep t (.insert key value) =
        ⟨[(key, value)], DictProbeIndex.recordInserted t.index key⟩ := by
      simp [tableStep, ht, recordInserted_convertFor]
    rw [htab]
    cases hi : d.pythonHashIndex with
    | none =>
      have hj : d.mutationJournal = none := by
        cases hj : d.mutationJournal with
        | none => rfl
        | some j => exact absurd ⟨hs, hun, hemp, hi, by simp [hj]⟩ hn
      exact first_general_represents d t key value hw h hun hs hemp hi hj
    | some index =>
      have hh := h.holds
      simp only [Holds, hi] at hh
      apply represents_of_index
      · simp [step, DictOps.insert, preparePythonInsert, hun, hs, hemp, indexOf,
          recordInsertedIndex, hi]
      · rw [tableKind, recordInserted_unicodeOnly hw.sound, hs]
        simp [step, DictOps.insert, preparePythonInsert, hun, hs, hemp, indexOf,
          recordInsertedIndex, hi]
      · simp [step, DictOps.insert, preparePythonInsert, hun, hs, hemp, indexOf,
          recordInsertedIndex, hi, hh]
  · have hp := prepare_represents d t key h
      (fun hun hs hemp => hempty ⟨hun, hs, hemp⟩)
    have hw' := convertFor_wf t key hw
    have he := hp.entries
    simp only [step, DictOps.insert, tableStep, indexOf, he]
    cases hf : t.entries.findIdx? (fun entry => entry.1 == key) with
    | some i => exact values_represents _ _ _ hp (modify_keys _ _ _)
    | none =>
      have hr := recordInsertedIndex_represents _ _ key value hw' (convertFor_settled _ key)
        (indexOf_none t.entries key hf) hp
      rw [he] at hr
      exact hr

theorem prepareRemovalHistory_represents (d : PyDict K V) (t : Table K V) (hw : Wf t)
    (h : Represents d t) : Represents (prepareRemovalHistory d) t ∧
      ((prepareRemovalHistory d).pythonHashIndex = none →
        (prepareRemovalHistory d).mutationJournal.isSome = true) := by
  have hh := h.holds
  simp only [Holds] at hh
  cases hi : d.pythonHashIndex with
  | some index => simpa [prepareRemovalHistory, hi] using h
  | none =>
    cases hj : d.mutationJournal with
    | some j => simpa [prepareRemovalHistory, hi, hj] using h
    | none =>
      simp only [hi, hj] at hh
      simp only [prepareRemovalHistory, hi, hj]
      refine ⟨⟨h.entries, h.kind, ?_⟩, by simp⟩
      have hlen : d.entries.length = t.keys.length := by simp [Table.keys, h.entries]
      have hel : t.index.entryKeys.length = t.keys.length := by simp [hh.dense]
      simp only [Holds]
      refine ⟨t.keys, [], hh.size, rfl, trivial, hw.distinct, rfl, hh.index, ?_, ?_, ?_⟩
      · rw [fromCurrentEntries_usable, hlen, hh.usable]
      · simp [hel]
      · simp [hel, fromCurrentEntries]

/-- A removal extends the journal by its position and key. -/
theorem journalled_remove [EquivBEq K] (d : PyDict K V) (j : DictMutationJournal)
    (t : Table K V) (base : List K) (hist : List (Mutation K)) (i : ℕ) (stored : K) (value : V)
    (hw : Wf t) (hi : t.entries[i]? = some (stored, value)) (h : Journalled d j t base hist) :
    Journalled d (j.recordRemoved i stored false)
      ⟨t.entries.eraseIdx i, DictProbeIndex.recordRemoved t.index stored⟩ base
      (hist++[Mutation.remove i stored]) := by
  have hkey : t.keys[i]? = some stored := by simp [Table.keys, hi]
  have hl := hw.live
  obtain ⟨-, -, h3, -, e, -, -, h5⟩ := recordRemoved_spec t.index hw.sound (hl ▸ hw.distinct)
    i stored (hl ▸ hkey)
  have hkeys : (⟨t.entries.eraseIdx i, DictProbeIndex.recordRemoved t.index stored⟩ :
      Table K V).keys = t.keys.eraseIdx i := by simp [Table.keys, List.eraseIdx_map]
  have hlen := List.length_eraseIdx_of_lt (List.getElem?_eq_some_iff.mp hkey).1
  have hpos := (List.getElem?_eq_some_iff.mp hkey).1
  have hholes := h.holes
  constructor
  · exact h.size
  · simp [DictMutationJournal.recordRemoved, h.mutations, encode]
  · exact validAlong_concat hist base _ h.valid (h.keys ▸ hkey)
  · exact h.distinct
  · rw [hkeys, List.foldl_append, ← h.keys]
    rfl
  · rw [List.foldl_append, ← h.index]
    rfl
  · simp [DictMutationJournal.recordRemoved, h.usable, h3]
  · simp only [hkeys, h5, hlen, DictMutationJournal.recordRemoved, List.length_set]
    simp only [Bool.false_eq_true, if_false]
    omega
  · intro hp
    have := h.exactHoles (by simpa [DictMutationJournal.recordRemoved] using hp)
    simp only [hkeys, h5, hlen, DictMutationJournal.recordRemoved, List.length_set]
    simp only [Bool.false_eq_true, if_false]
    omega

omit [DictKey K] in
/-- Trimming after the last live entry is gone drops at least that entry. -/
theorem trim_length (l : List (Option K)) (i : ℕ) (a : K) (hi : l[i]? = some (some a))
    (hr : rank l i+1 = l.reduceOption.length) :
    ((l.set i none).rdropWhile Option.isNone).length < l.length := by
  have hlt := (List.getElem?_eq_some_iff.mp hi).1
  have hs := split_at l i a hi
  have hnil : (l.drop (i+1)).reduceOption = [] := by
    have hlen : l.reduceOption.length =
        (l.take i).reduceOption.length+((l.drop (i+1)).reduceOption.length+1) := by
      nth_rewrite 1 [hs]
      simp [List.reduceOption_append]
    rw [rank] at hr
    rw [← List.length_eq_zero_iff]
    omega
  obtain ⟨n, hn⟩ := (List.reduceOption_eq_nil_iff _).mp hnil
  have hset : l.set i none = l.take i++List.replicate (n+1) none := by
    rw [List.set_eq_take_append_cons_drop, if_pos hlt, hn, List.replicate_succ]
  have htrim : ∀ (front : List (Option K)) (m : ℕ),
      ((front++List.replicate m none).rdropWhile Option.isNone).length ≤ front.length := by
    intro front m
    induction m with
    | zero =>
      have hle := (List.dropWhile_sublist (l := front.reverse) Option.isNone).length_le
      simpa [List.rdropWhile] using hle
    | succ m ih =>
      rw [List.replicate_succ', ← List.append_assoc, List.rdropWhile_concat_pos _ _ _ rfl]
      exact ih
  rw [hset]
  have := htrim (l.take i) (n+1)
  rw [List.length_take] at this
  omega

theorem journalled_pop [EquivBEq K] (d : PyDict K V) (j : DictMutationJournal) (t : Table K V)
    (base : List K) (hist : List (Mutation K)) (stored : K) (value : V) (hw : Wf t)
    (hi : t.entries.getLast? = some (stored, value)) (h : Journalled d j t base hist) :
    Journalled d (j.recordRemoved (t.entries.length-1) stored true)
      ⟨t.entries.dropLast, recordPopped t.index stored⟩ base
      (hist++[Mutation.pop (t.entries.length-1) stored]) := by
  have hlast : t.keys.getLast? = some stored := by simp [Table.keys, hi]
  have hkey : t.keys[t.keys.length-1]? = some stored := by
    rw [← List.getLast?_eq_getElem?]
    exact hlast
  have hl := hw.live
  obtain ⟨-, -, h3, -, e, he, hrank, h5⟩ := recordRemoved_spec t.index hw.sound
    (hl ▸ hw.distinct) (t.keys.length-1) stored (hl ▸ hkey)
  have hkeys : (⟨t.entries.dropLast, recordPopped t.index stored⟩ :
      Table K V).keys = t.keys.dropLast := by simp [Table.keys, List.map_dropLast]
  have hpos := (List.getElem?_eq_some_iff.mp hkey).1
  have hshort : (recordPopped t.index stored).entryKeys.length < t.index.entryKeys.length := by
    simp only [recordPopped, truncatePoppedEntries, h5]
    apply trim_length _ e stored he
    rw [hrank]
    change _ = t.index.liveKeys.length
    rw [hl]
    omega
  have hholes := h.holes
  constructor
  · exact h.size
  · simp [DictMutationJournal.recordRemoved, h.mutations, encode]
  · exact validAlong_concat hist base _ h.valid (h.keys ▸ hlast)
  · exact h.distinct
  · rw [hkeys, List.foldl_append, ← h.keys]
    rfl
  · rw [List.foldl_append, ← h.index]
    rfl
  · simp [DictMutationJournal.recordRemoved, h.usable, recordPopped, truncatePoppedEntries, h3]
  · simp only [hkeys, List.length_dropLast, DictMutationJournal.recordRemoved, if_true]
    omega
  · simp [DictMutationJournal.recordRemoved]

theorem recordRemoved_kind [EquivBEq K] (t : Table K V) (i : ℕ) (stored : K) (value : V)
    (hw : Wf t) (hi : t.entries[i]? = some (stored, value)) :
    (DictProbeIndex.recordRemoved t.index stored).unicodeOnly = t.index.unicodeOnly := by
  have hkey : t.keys[i]? = some stored := by simp [Table.keys, hi]
  have hl := hw.live
  exact (recordRemoved_spec t.index hw.sound (hl ▸ hw.distinct) i stored (hl ▸ hkey)).2.2.2.1

theorem shiftRemove_represents [EquivBEq K] (d : PyDict K V) (t : Table K V) (key : K)
    (hw : Wf t) (h : Represents d t) :
    Represents (step d (.shiftRemove key)) (tableStep t (.shiftRemove key)) := by
  simp only [step, shiftRemove, tableStep, indexOf, h.entries]
  cases hf : t.entries.findIdx? (fun entry => entry.1 == key) with
  | none => exact h
  | some i =>
    simp only
    cases hi : t.entries[i]? with
    | none => exact h
    | some entry =>
      obtain ⟨stored, value⟩ := entry
      obtain ⟨hp, hsome⟩ := prepareRemovalHistory_represents d t hw h
      have hkind := recordRemoved_kind t i stored value hw hi
      have he := hp.entries
      simp only [he, recordRemovedKey]
      set d1 := prepareRemovalHistory d
      have hh := hp.holds
      cases hx : d1.pythonHashIndex with
      | some index =>
        simp only [Holds, hx] at hh
        apply represents_of_index
        · simp [recordRemovedMetadata]
        · simp [recordRemovedMetadata, hp.kind, tableKind, hkind]
        · simp [recordRemovedMetadata, hh]
      | none =>
        simp only [Holds, hx] at hh
        obtain ⟨j, hj⟩ := Option.isSome_iff_exists.mp (hsome hx)
        simp only [hj] at hh
        obtain ⟨base, hist, hjr⟩ := hh
        have hn := journalled_remove d1 j t base hist i stored value hw hi hjr
        refine ⟨rfl, by simp [recordRemovedMetadata, hp.kind, tableKind, hkind], ?_⟩
        simp only [Holds, recordRemovedMetadata, hj, Option.map_some]
        exact ⟨_, _, hn.size, hn.mutations, hn.valid, hn.distinct, hn.keys, hn.index, hn.usable,
          hn.holes, hn.exactHoles⟩

theorem pop_represents [EquivBEq K] (d : PyDict K V) (t : Table K V) (hw : Wf t)
    (h : Represents d t) : Represents (step d .pop) (tableStep t .pop) := by
  simp only [step, DictOps.pop, tableStep, h.entries]
  cases hi : t.entries.getLast? with
  | none => exact h
  | some entry =>
    obtain ⟨stored, value⟩ := entry
    obtain ⟨hp, hsome⟩ := prepareRemovalHistory_represents d t hw h
    have hkind := recordRemoved_kind t (t.entries.length-1) stored value hw
      (by rw [← List.getLast?_eq_getElem?]; exact hi)
    have hkind' : (recordPopped t.index stored).unicodeOnly = t.index.unicodeOnly := hkind
    have he := hp.entries
    simp only [he, recordRemovedKey]
    set d1 := prepareRemovalHistory d
    have hh := hp.holds
    cases hx : d1.pythonHashIndex with
    | some index =>
      simp only [Holds, hx] at hh
      apply represents_of_index
      · simp [recordRemovedMetadata]
      · simp [recordRemovedMetadata, hp.kind, tableKind, hkind']
      · simp [recordRemovedMetadata, hh]
    | none =>
      simp only [Holds, hx] at hh
      obtain ⟨j, hj⟩ := Option.isSome_iff_exists.mp (hsome hx)
      simp only [hj] at hh
      obtain ⟨base, hist, hjr⟩ := hh
      have hn := journalled_pop d1 j t base hist stored value hw hi hjr
      refine ⟨rfl, by simp [recordRemovedMetadata, hp.kind, tableKind, hkind'], ?_⟩
      simp only [Holds, recordRemovedMetadata, hj, Option.map_some]
      exact ⟨_, _, hn.size, hn.mutations, hn.valid, hn.distinct, hn.keys, hn.index, hn.usable,
        hn.holes, hn.exactHoles⟩

omit [DictKey K] in
theorem sift_nil_keys (keep : ℕ → K → V → Bool × V) (i : ℕ) (entries : List (K × V))
    (h : (sift keep i entries).2 = []) :
    (sift keep i entries).1.map Prod.fst = entries.map Prod.fst := by
  induction entries generalizing i with
  | nil => rfl
  | cons entry rest ih =>
    obtain ⟨key, value⟩ := entry
    simp only [sift] at h ⊢
    by_cases hk : (keep i key value).1 = true
    · simp only [if_pos hk] at h ⊢
      simp [ih (i+1) h]
    · simp [if_neg hk] at h

theorem retain_represents [EquivBEq K] (d : PyDict K V) (t : Table K V)
    (keep : ℕ → K → V → Bool × V) (hw : Wf t) (h : Represents d t) :
    Represents (step d (.retain keep)) (tableStep t (.retain keep)) := by
  have hens := ensure_represents d t h
  have hidx := ensure_index d t h
  simp only [step, retain, tableStep, hens.entries]
  by_cases hnil : (sift keep 0 t.entries).2 = []
  · have hv := values_represents _ _ (sift keep 0 t.entries).1 hens (sift_nil_keys keep 0 _ hnil)
    simp only [hnil, List.isEmpty_nil, if_true, List.foldl_nil]
    by_cases hhad : (d.pythonHashIndex.isSome || d.mutationJournal.isSome) = true
    · rw [if_pos hhad]
      exact hv
    · -- a dict without history goes back to its baseline
      rw [if_neg hhad]
      simp only [Bool.or_eq_true, not_or, Bool.not_eq_true, Option.isSome_eq_false_iff,
        Option.isNone_iff_eq_none] at hhad
      have hback := values_represents _ _ (sift keep 0 t.entries).1 h
        (sift_nil_keys keep 0 _ hnil)
      have hd : { ensurePythonHashIndex d with
          entries := (sift keep 0 t.entries).1, pythonHashIndex := none } =
          { d with entries := (sift keep 0 t.entries).1 } := by
        simp [ensurePythonHashIndex, hhad.1, hhad.2]
      rw [hd]
      exact hback
  · have hemp : (sift keep 0 t.entries).2.isEmpty = false := by simpa using hnil
    have hl := hw.live
    obtain ⟨-, -, hu⟩ := sift_removed keep t.entries 0 [] t.index hw.sound
      (by simpa [Table.keys] using hl) (hl ▸ hw.distinct)
    simp only [hemp]
    apply represents_of_index
    · rfl
    · simp [hens.kind, tableKind, hu]
    · simp [hidx]

theorem empty_represents (d : PyDict K V) (he : d.entries = []) (hk : d.keyTableKind = .unicode)
    (hi : d.pythonHashIndex = none) (hj : d.mutationJournal = none)
    (hs : d.initialTableSize = 0) (hik : d.initialTableKind = .unicode) :
    Represents d {} := by
  refine ⟨he, hk, ?_⟩
  simp only [Holds, hi, hj]
  exact ⟨Or.inl hs, by rw [hs, hik]; rfl, rfl, by rw [hs]; rfl⟩

theorem copyIndex_kind (t : Table K V) (hw : Wf t) :
    (copyIndex t.index).unicodeOnly = t.index.unicodeOnly := by
  simp only [copyIndex]
  split
  · rfl
  · exact (compactedCopy_spec t.index hw.sound).2.2.2

theorem copyTable_none (d : PyDict K V) (hi : d.pythonHashIndex = none) (j : DictMutationJournal)
    (hj : d.mutationJournal = some j) :
    copyTable d =
      if j.copyDefinitelyPreservesLayout d.entries.length then { journal := some j }
      else if j.copyDefinitelyCompactsLayout d.entries.length then
        { compactedSize := some (sparseCopyTableSize d.entries.length) }
      else { index := some (reconstruct d) } := by
  simp [copyTable, hi, hj]

theorem journal_preserves (d : PyDict K V) (t : Table K V) (j : DictMutationJournal)
    (base : List K) (hist : List (Mutation K)) (hw : Wf t) (h : Journalled d j t base hist)
    (hp : j.copyDefinitelyPreservesLayout t.keys.length = true) :
    copyIndex t.index = t.index := by
  have hlen : t.index.liveLen = t.keys.length := by rw [hw.sound.liveCount, hw.live]
  have hholes := h.holes
  have hc : copyPreservesLayout t.index = true := by
    simp only [DictMutationJournal.copyDefinitelyPreservesLayout, decide_eq_true_eq] at hp
    simp only [copyPreservesLayout, decide_eq_true_eq, hlen]
    omega
  simp [copyIndex, hc]

theorem journal_compacts (d : PyDict K V) (t : Table K V) (j : DictMutationJournal)
    (base : List K) (hist : List (Mutation K)) (hw : Wf t) (h : Journalled d j t base hist)
    (hp : j.copyDefinitelyCompactsLayout t.keys.length = true) :
    copyIndex t.index = compactedCopy t.index := by
  have hlen : t.index.liveLen = t.keys.length := by rw [hw.sound.liveCount, hw.live]
  simp only [DictMutationJournal.copyDefinitelyCompactsLayout, Bool.and_eq_true,
    Bool.not_eq_true', decide_eq_true_eq] at hp
  have hholes := h.exactHoles hp.1
  have hc : copyPreservesLayout t.index = false := by
    simp only [copyPreservesLayout, decide_eq_false_iff_not, hlen]
    omega
  simp [copyIndex, hc]

theorem compactedCopy_baseline (d : PyDict K V) (t : Table K V) (hw : Wf t)
    (hs : d.initialTableSize = sparseCopyTableSize t.keys.length)
    (hk : d.initialTableKind.isUnicode = t.index.unicodeOnly) :
    Baseline d ⟨t.entries, compactedCopy t.index⟩ := by
  have hlen : t.index.liveLen = t.keys.length := by rw [hw.sound.liveCount, hw.live]
  have hfit := sparseCopy_fits t.keys.length
  obtain ⟨-, h2, h3, -⟩ := compactedCopy_spec t.index hw.sound
  rw [hw.live] at h2 h3
  rw [hlen] at h3
  constructor
  · rw [hs]
    exact Or.inr ⟨_, rfl⟩
  · rw [hs, hk]
    change _ = baseIndex t.keys _ _
    rw [baseIndex_eq_place t.keys (sparseCopyTableSize t.keys.length) _ (Or.inr ⟨_, rfl⟩) hfit
      hw.strings, compactedCopy, hw.live, hlen]
  · exact h2
  · rw [hs]
    change _ = usableAfter _ t.keys.length
    rw [usableAfter_fit _ _ hfit]
    exact h3

theorem baseline_copy (d : PyDict K V) (t : Table K V) (hw : Wf t) (h : Baseline d t) :
    copyIndex t.index = t.index := by
  have hlen : t.index.liveLen = t.keys.length := by rw [hw.sound.liveCount, hw.live]
  have hc : copyPreservesLayout t.index = true := by
    simp only [copyPreservesLayout, decide_eq_true_eq, hlen, h.dense, List.length_map]
    omega
  simp [copyIndex, hc]

theorem clone_represents [EquivBEq K] (d : PyDict K V) (t : Table K V) (hw : Wf t)
    (h : Represents d t) : Represents (step d .clone) (tableStep t .clone) := by
  simp only [step, clone, tableStep, h.entries]
  by_cases hemp : t.entries.isEmpty = true
  · rw [if_pos hemp, if_pos hemp]
    exact empty_represents _ rfl rfl rfl rfl rfl rfl
  rw [if_neg hemp, if_neg hemp]
  have hkind := copyIndex_kind t hw
  have hlen : d.entries.length = t.keys.length := by simp [Table.keys, h.entries]
  have hh := h.holds
  have hinstalled : ∀ index, copyTable d = { index := some index } → index = t.index →
      Represents (step d .clone) ⟨t.entries, copyIndex t.index⟩ := by
    intro index hcopy heq
    apply represents_of_index
    · simp [step, clone, h.entries, hemp]
    · simp [step, clone, h.entries, hemp, hcopy, heq, tableKind]
    · simp [step, clone, h.entries, hemp, hcopy, heq]
  simp only [step, clone, h.entries, if_neg hemp] at hinstalled
  cases hi : d.pythonHashIndex with
  | some index =>
    simp only [Holds, hi] at hh
    exact hinstalled index (by simp [copyTable, hi]) hh
  | none =>
    simp only [Holds, hi] at hh
    cases hj : d.mutationJournal with
    | none =>
      simp only [hj] at hh
      have hcopy : copyTable d = if requiresPythonHashIndex d then
          { index := some (reconstruct d) } else {} := by simp [copyTable, hi, hj]
      by_cases hreq : requiresPythonHashIndex d = true
      · exact hinstalled _ (by rw [hcopy, if_pos hreq]) (reconstruct_self d t h hi)
      · rw [if_neg hreq] at hcopy
        rw [baseline_copy d t hw hh]
        refine ⟨rfl, by simp [hcopy, h.kind], ?_⟩
        simp only [Holds, hcopy, Option.map_none]
        exact ⟨hh.size, hh.index, hh.dense, hh.usable⟩
    | some j =>
      simp only [hj] at hh
      obtain ⟨base, hist, hjr⟩ := hh
      have hcopy := copyTable_none d hi j hj
      rw [hlen] at hcopy
      by_cases hpre : j.copyDefinitelyPreservesLayout t.keys.length = true
      · rw [if_pos hpre] at hcopy
        rw [journal_preserves d t j base hist hw hjr hpre]
        refine ⟨rfl, by simp [hcopy, h.kind], ?_⟩
        simp only [Holds, hcopy, Option.map_none]
        exact ⟨base, hist, hjr.size, hjr.mutations, hjr.valid, hjr.distinct, hjr.keys, hjr.index,
          hjr.usable, hjr.holes, hjr.exactHoles⟩
      · rw [if_neg hpre] at hcopy
        by_cases hcom : j.copyDefinitelyCompactsLayout t.keys.length = true
        · rw [if_pos hcom] at hcopy
          have hcc := journal_compacts d t j base hist hw hjr hcom
          rw [hcc] at hkind ⊢
          refine ⟨rfl, by simp [hcopy, h.kind, tableKind, hkind], ?_⟩
          simp only [Holds, hcopy, Option.map_none]
          apply compactedCopy_baseline _ t hw
          · simp
          · simp [h.kind, tableKind_isUnicode]
        · rw [if_neg hcom] at hcopy
          exact hinstalled _ hcopy (reconstruct_self d t h hi)

/-- One operation of a dict is one operation of the dict with its table. -/
theorem step_represents [EquivBEq K] (d : PyDict K V) (t : Table K V) (op : Op K V) (hw : Wf t)
    (h : Represents d t) (hn : ¬ Strands d op) : Represents (step d op) (tableStep t op) := by
  cases op with
  | insert key value => exact insert_represents d t key value hw h hn
  | shiftRemove key => exact shiftRemove_represents d t key hw h
  | pop => exact pop_represents d t hw h
  | retain keep => exact retain_represents d t keep hw h
  | clear => exact empty_represents _ rfl rfl rfl rfl rfl rfl
  | clone => exact clone_represents d t hw h

/-- No operation of the lazy run is of the kind that loses the table. -/
def NeverStrands : List (Op K V) → PyDict K V → Prop
  | [], _ => True
  | op::ops, d => ¬ Strands d op ∧ NeverStrands ops (step d op)

theorem lazy_represents [EquivBEq K] (ops : List (Op K V)) (d : PyDict K V) (t : Table K V)
    (hw : Wf t) (h : Represents d t) (hn : NeverStrands ops d) :
    Represents (ops.foldl step d) (ops.foldl tableStep t) := by
  induction ops generalizing d t with
  | nil => exact h
  | cons op ops ih =>
    exact ih _ _ (tableStep_wf t op hw) (step_represents d t op hw h hn.1) hn.2

theorem installed_never_strands (d : PyDict K V) (op : Op K V)
    (hi : d.pythonHashIndex.isSome = true) : ¬ Strands d op := by
  cases op with
  | insert key value =>
    rintro ⟨-, -, -, hnone, -⟩
    simp [hnone] at hi
  | _ => exact id

theorem eager_represents [EquivBEq K] (ops : List (Op K V)) (d : PyDict K V) (t : Table K V)
    (hw : Wf t) (h : Represents d t) (hi : d.pythonHashIndex.isSome = true) :
    Represents (ops.foldl (fun d op => ensurePythonHashIndex (step d op)) d)
      (ops.foldl tableStep t) ∧
    (ops.foldl (fun d op => ensurePythonHashIndex (step d op)) d).pythonHashIndex =
      some (ops.foldl tableStep t).index := by
  induction ops generalizing d t with
  | nil =>
    have hh := h.holds
    obtain ⟨index, hidx⟩ := Option.isSome_iff_exists.mp hi
    simp only [Holds, hidx] at hh
    exact ⟨h, by simp [hidx, hh]⟩
  | cons op ops ih =>
    have hs := step_represents d t op hw h (installed_never_strands d op hi)
    apply ih _ _ (tableStep_wf t op hw) (ensure_represents _ _ hs)
    rw [ensure_index _ _ hs]
    rfl

theorem run_wf [EquivBEq K] (ops : List (Op K V)) (t : Table K V) (hw : Wf t) :
    Wf (ops.foldl tableStep t) := by
  induction ops generalizing t with
  | nil => exact hw
  | cons op ops ih => exact ih _ (tableStep_wf t op hw)

/-- In every run that never strands its journal, asking for the probe table at
the end gives the table that was kept up to date from the start, and the
candidates of every hash are found in the same order. -/
theorem lazy_eq_eager [EquivBEq K] (ops : List (Op K V))
    (hn : NeverStrands ops ({} : PyDict K V)) :
    ∃ index, (lazyRun ops).pythonHashIndex = some index ∧
      (eagerRun ops).pythonHashIndex = some index ∧
      (∀ hash, (candidates index hash).isSome = true) := by
  have h0 : Represents ({} : PyDict K V) {} := empty_represents _ rfl rfl rfl rfl rfl rfl
  have hl := lazy_represents ops _ _ empty_wf h0 hn
  have he := eager_represents ops _ _ empty_wf (ensure_represents _ _ h0)
    (by rw [ensure_index _ _ h0]; rfl)
  refine ⟨(ops.foldl tableStep {}).index, ensure_index _ _ hl, he.2, ?_⟩
  intro hash
  exact candidates_isSome (run_wf ops {} empty_wf).sound hash

instance : DictKey PlainKey where
  isObject _ := false
  containsObject _ := false

/-- The dict is emptied, receives a non-string key and fills up again. -/
def strandedRun : List (Op PlainKey Unit) :=
  [Op.insert ⟨true, 1⟩ (), Op.shiftRemove ⟨true, 1⟩]++
    [1, 2, 3, 4, 5].map (fun h => .insert ⟨false, h⟩ ())

theorem lazy_ne_eager : ((lazyRun strandedRun).pythonHashIndex.map fun index =>
      (index.size, index.usable)) = some (16, 5) ∧
    ((eagerRun strandedRun).pythonHashIndex.map fun index =>
      (index.size, index.usable)) = some (8, 0) := by
  decide

/-- A colliding key removed, another popped, and the rest of the chain kept. -/
def collidingRun : List (Op PlainKey Unit) :=
  [.insert ⟨true, 1⟩ (), .insert ⟨true, 9⟩ (), .shiftRemove ⟨true, 1⟩, .insert ⟨true, 17⟩ (),
    .pop, .insert ⟨true, 25⟩ ()]

theorem lazy_eq_eager_colliding : NeverStrands collidingRun ({} : PyDict PlainKey Unit) ∧
    ∃ index, (lazyRun collidingRun).pythonHashIndex = some index ∧
      (eagerRun collidingRun).pythonHashIndex = some index ∧
      (∀ hash, (candidates index hash).isSome = true) := by
  have hn : NeverStrands collidingRun ({} : PyDict PlainKey Unit) := by
    simp [NeverStrands, collidingRun, Strands, DictEntry.isStr]
  exact ⟨hn, lazy_eq_eager collidingRun hn⟩

end refinement

end Pyrust.DictLazy
