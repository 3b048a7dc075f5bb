import Pyrust.HoleyList
import Pyrust.DictProbeIndex

/-!
# Probe invariants of the key table

Every live entry sits on the probe sequence of its own hash with no empty
slot before it, slots name live entries only, and the entry capacity keeps an
empty slot in reach of every probe. The conditions hold of the empty table
and are kept by every operation, so a stored key is always found and no probe
runs without end.
-/

set_option autoImplicit false

namespace Pyrust.DictProbeInvariant
open Pyrust.PerturbProbe Pyrust.HoleyList Pyrust.DictProbeIndex

universe u
variable {α : Type u}

structure Sound [DictEntry α] (index : DictPythonHashIndex α) : Prop where
  sizePow : index.size = 0 ∨ ∃ k, index.size = 2^k
  filled : index.indices.countP DictIndex.isFilled+index.usable ≤
    dictProbeUsableFraction index.size
  entryLive : ∀ s i, index.slot s = .entry i → ∃ a, index.entryKeys[i]? = some (some a)
  onPath : ∀ i a, index.entryKeys[i]? = some (some a) →
    ∃ n, index.slot (slotAt index.size (pythonHash a).toNat n) = .entry i ∧
      ∀ m < n, index.slot (slotAt index.size (pythonHash a).toNat m) ≠ .empty
  slotUnique : ∀ s t i, index.slot s = .entry i → index.slot t = .entry i → s = t
  liveCount : index.liveLen = index.liveKeys.length

theorem usableFraction_lt (n : ℕ) (hn : 0 < n) : dictProbeUsableFraction n < n := by
  simp only [dictProbeUsableFraction]
  omega

theorem or_eight_le (target : ℕ) : target ≤ target ||| 8 ∧ 8 ≤ target ||| 8 :=
  ⟨Nat.left_le_or, Nat.right_le_or⟩

/-- The selected size is the least power of two holding the adjusted target. -/
theorem tableSizeForTarget_bounds (target : ℕ) :
    target ||| 8 ≤ tableSizeForTarget target ∧
      tableSizeForTarget target < 2*(target ||| 8) := by
  obtain ⟨-, h8⟩ := or_eight_le target
  have hne : (target ||| 8)-1 ≠ 0 := by omega
  have hlow := Nat.log2_self_le hne
  have hhigh := Nat.lt_log2_self (n := (target ||| 8)-1)
  simp only [tableSizeForTarget, bitLength, if_neg hne, pow_succ] at *
  omega

theorem usableFraction_grow (live : ℕ) :
    live < dictProbeUsableFraction (tableSizeForTarget (live*3)) := by
  obtain ⟨ht, h8⟩ := or_eight_le (live*3)
  obtain ⟨hlow, -⟩ := tableSizeForTarget_bounds (live*3)
  simp only [dictProbeUsableFraction]
  omega

theorem getD_set (l : List DictIndex) (s t : ℕ) (v : DictIndex) :
    (l.set s v).getD t .empty = if s = t ∧ t < l.length then v else l.getD t .empty := by
  by_cases hst : s = t
  · subst hst
    by_cases hs : s < l.length <;> simp [List.getD_eq_getElem?_getD, hs]
  · simp [List.getD_eq_getElem?_getD, hst]

theorem slot_of_size_le (index : DictPythonHashIndex α) (s : ℕ) (h : index.size ≤ s) :
    index.slot s = .empty := by
  have hn : index.indices[s]? = none := List.getElem?_eq_none h
  simp [DictPythonHashIndex.slot, List.getD_eq_getElem?_getD, hn]

theorem slot_lt (index : DictPythonHashIndex α) (s : ℕ) (h : index.slot s ≠ .empty) :
    s < index.size := by
  by_contra hs
  exact h (slot_of_size_le index s (by omega))

theorem isFilled_iff (d : DictIndex) : d.isFilled = true ↔ d ≠ .empty := by
  cases d <;> simp [DictIndex.isFilled]

theorem isNegative_iff (d : DictIndex) : d.isNegative = true ↔ ∀ i, d ≠ .entry i := by
  cases d <;> simp [DictIndex.isNegative]

/-- Fewer filled slots than the table has leaves one empty. -/
theorem exists_empty (index : DictPythonHashIndex α)
    (h : index.indices.countP DictIndex.isFilled < index.size) :
    ∃ s < index.size, index.slot s = .empty := by
  by_contra hne
  have hall : ∀ d ∈ index.indices, DictIndex.isFilled d = true := by
    intro d hd
    obtain ⟨s, hs, hget⟩ := List.getElem_of_mem hd
    rw [isFilled_iff]
    intro he
    refine hne ⟨s, hs, ?_⟩
    simp [DictPythonHashIndex.slot, List.getD_eq_getElem?_getD, hs, hget, he]
  have hc := List.countP_eq_length.mpr hall
  simp only [DictPythonHashIndex.size] at h
  omega

theorem insertionSlot_some (index : DictPythonHashIndex α) (hash : UInt64) (s : ℕ)
    (h : insertionSlot index hash = some s) :
    (∀ i, index.slot s ≠ .entry i) ∧ ∃ n, slotAt index.size hash.toNat n = s ∧
      ∀ m < n, index.slot (slotAt index.size hash.toNat m) ≠ .empty := by
  obtain ⟨n, -, hn, hj⟩ := (search_start_some_iff _ _ _).mp h
  split at hn
  · rename_i hneg
    simp only [Option.some.injEq] at hn
    subst hn
    refine ⟨(isNegative_iff _).mp hneg, n, rfl, ?_⟩
    intro m hm he
    have := hj m hm
    simp [he, DictIndex.isNegative] at this
  · simp at hn

/-- The outcome of one probed slot of a lookup. -/
def lookupSettle (index : DictPythonHashIndex α) (test : α → Bool) (s : ℕ) :
    Option (Option ℕ) :=
  match index.slot s with
  | .empty => some none
  | .dummy => none
  | .entry i => if ((index.entryKeys.getD i none).any test) then some (some s) else none

theorem lookupSlot_eq (index : DictPythonHashIndex α) (test : α → Bool) (hash : UInt64) :
    lookupSlot index test hash =
      (search index.size (lookupSettle index test) (budget index.size)
        (start index.size hash.toNat)).join := rfl

theorem lookupSlot_some (index : DictPythonHashIndex α) (test : α → Bool) (hash : UInt64)
    (s : ℕ) (h : lookupSlot index test hash = some s) :
    ∃ i a, index.slot s = .entry i ∧ index.entryKeys[i]? = some (some a) ∧ test a = true := by
  rw [lookupSlot_eq, Option.join_eq_some_iff, search_start_some_iff] at h
  obtain ⟨n, -, hn, -⟩ := h
  simp only [lookupSettle] at hn
  split at hn
  · simp at hn
  · simp at hn
  · rename_i i hi
    split at hn
    · rename_i hany
      simp only [Option.some.injEq] at hn
      subst hn
      rw [Option.any_eq_true] at hany
      obtain ⟨a, ha, ht⟩ := hany
      refine ⟨i, a, hi, ?_, ht⟩
      rw [List.getD_eq_getElem?_getD] at ha
      cases hg : index.entryKeys[i]? with
      | none => simp [hg] at ha
      | some x => simpa [hg] using ha
    · simp at hn

theorem markSlotRemoved_entry (index : DictPythonHashIndex α) (s i : ℕ)
    (h : index.slot s = .entry i) :
    markSlotRemoved index s =
      { index with
        indices := index.indices.set s .dummy
        entryKeys := index.entryKeys.set i none
        liveLen := index.liveLen-1 } := by
  simp [markSlotRemoved, h]

theorem truncatePoppedEntries_liveKeys (index : DictPythonHashIndex α) :
    (truncatePoppedEntries index).liveKeys = index.liveKeys :=
  reduceOption_trim _

section sound
variable [DictEntry α] {index : DictPythonHashIndex α}

theorem Sound.pow (hs : Sound index) (hpos : 0 < index.size) : ∃ k, index.size = 2^k := by
  rcases hs.sizePow with h0 | hk
  · omega
  · exact hk

theorem Sound.empty_slot (hs : Sound index) (hpos : 0 < index.size) :
    ∃ s < index.size, index.slot s = .empty := by
  apply exists_empty
  have := hs.filled
  have := usableFraction_lt index.size hpos
  omega

theorem Sound.size_pos (hs : Sound index) (hu : 0 < index.usable) : 0 < index.size := by
  by_contra h0
  have hf := hs.filled
  have hz : index.size = 0 := by omega
  rw [hz] at hf
  simp only [dictProbeUsableFraction] at hf
  omega

/-- Insertion always finds a negative slot. -/
theorem insertionSlot_isSome (hs : Sound index) (hpos : 0 < index.size) (hash : UInt64) :
    (insertionSlot index hash).isSome := by
  obtain ⟨k, hk⟩ := hs.pow hpos
  obtain ⟨s, hlt, he⟩ := hs.empty_slot hpos
  apply search_start_isSome k hash.toNat s hk hash.toNat_lt hlt
  simp [he, DictIndex.isNegative]

theorem place_some (key : α) (s : ℕ) (h : insertionSlot index (pythonHash key) = some s) :
    placeWithoutResize index key =
      { index with
        indices := index.indices.set s (.entry index.entryKeys.length)
        entryKeys := index.entryKeys++[some key]
        usable := index.usable-1
        liveLen := index.liveLen+1 } := by
  simp [placeWithoutResize, h]

/-- Placing a key keeps the table sound while there is capacity. -/
theorem place_sound (hs : Sound index) (hu : 0 < index.usable) (key : α) :
    Sound (placeWithoutResize index key) := by
  have hpos := hs.size_pos hu
  obtain ⟨s, hslot⟩ := Option.isSome_iff_exists.mp
    (insertionSlot_isSome hs hpos (pythonHash key))
  obtain ⟨hneg, n, hn, hpath⟩ := insertionSlot_some index _ s hslot
  have hlt : s < index.indices.length := hn ▸ slotAt_lt _ _ _ hpos
  rw [place_some key s hslot]
  set new : DictPythonHashIndex α :=
    { index with
      indices := index.indices.set s (.entry index.entryKeys.length)
      entryKeys := index.entryKeys++[some key]
      usable := index.usable-1
      liveLen := index.liveLen+1 }
  have hsize : new.size = index.size := by simp [new, DictPythonHashIndex.size]
  have hat : ∀ t, new.slot t = if s = t then .entry index.entryKeys.length else index.slot t := by
    intro t
    simp only [new, DictPythonHashIndex.slot, getD_set]
    by_cases hst : s = t
    · subst hst
      simp [hlt]
    · simp [hst]
  have hkeep : ∀ t, index.slot t ≠ .empty → new.slot t ≠ .empty := by
    intro t ht
    rw [hat]
    split
    · simp
    · exact ht
  have hfresh : ∀ t, index.slot t ≠ .entry index.entryKeys.length := by
    intro t ht
    obtain ⟨a, ha⟩ := hs.entryLive t _ ht
    simp at ha
  constructor
  · rw [hsize]
    exact hs.sizePow
  · rw [hsize]
    have hc := List.countP_set (p := DictIndex.isFilled) (a := .entry index.entryKeys.length) hlt
    have := hs.filled
    simp only [new, hc, DictIndex.isFilled, if_true]
    omega
  · intro t i ht
    rw [hat] at ht
    split at ht
    · injection ht with hi
      subst hi
      exact ⟨key, by simp [new]⟩
    · obtain ⟨a, ha⟩ := hs.entryLive t i ht
      refine ⟨a, ?_⟩
      simp only [new]
      rw [List.getElem?_append_left (List.getElem?_eq_some_iff.mp ha).1]
      exact ha
  · intro i a ha
    rw [hsize]
    rcases getElem?_append_some _ key a i ha with hold | ⟨rfl, rfl⟩
    · obtain ⟨m, hm, hbefore⟩ := hs.onPath i a hold
      refine ⟨m, ?_, fun j hj => hkeep _ (hbefore j hj)⟩
      rw [hat, if_neg]
      · exact hm
      · intro he
        exact hneg i (he ▸ hm)
    · exact ⟨n, by rw [hat, if_pos hn.symm], fun j hj => hkeep _ (hpath j hj)⟩
  · intro t t' i ht ht'
    rw [hat] at ht ht'
    split at ht <;> split at ht'
    · omega
    · injection ht with hi
      exact absurd (hi ▸ ht') (hfresh t')
    · injection ht' with hi
      exact absurd (hi ▸ ht) (hfresh t)
    · exact hs.slotUnique t t' i ht ht'
  · simp [new, DictPythonHashIndex.liveKeys, List.reduceOption_append, hs.liveCount]

theorem place_effect (hs : Sound index) (hu : 0 < index.usable) (key : α) :
    (placeWithoutResize index key).entryKeys = index.entryKeys++[some key] ∧
    (placeWithoutResize index key).usable = index.usable-1 ∧
    (placeWithoutResize index key).size = index.size ∧
    (placeWithoutResize index key).unicodeOnly = index.unicodeOnly := by
  obtain ⟨s, hslot⟩ := Option.isSome_iff_exists.mp
    (insertionSlot_isSome hs (hs.size_pos hu) (pythonHash key))
  rw [place_some key s hslot]
  simp [DictPythonHashIndex.size]

theorem fold_place (hs : Sound index) (keys : List α) (hu : keys.length ≤ index.usable) :
    Sound (keys.foldl placeWithoutResize index) ∧
    (keys.foldl placeWithoutResize index).entryKeys = index.entryKeys++keys.map some ∧
    (keys.foldl placeWithoutResize index).usable = index.usable-keys.length ∧
    (keys.foldl placeWithoutResize index).size = index.size ∧
    (keys.foldl placeWithoutResize index).unicodeOnly = index.unicodeOnly := by
  induction keys generalizing index with
  | nil => simpa using hs
  | cons key keys ih =>
    simp only [List.length_cons] at hu
    have hpos : 0 < index.usable := by omega
    obtain ⟨he, hus, hsz, huni⟩ := place_effect hs hpos key
    have hrest := ih (place_sound hs hpos key) (by omega)
    rw [he, hus, hsz, huni] at hrest
    obtain ⟨h1, h2, h3, h4, h5⟩ := hrest
    refine ⟨h1, by simpa using h2, ?_, h4, h5⟩
    rw [List.foldl_cons, h3, List.length_cons]
    omega

/-- A fresh table of a power-of-two size is sound. -/
theorem fresh_sound (tableSize : ℕ) (unicodeOnly : Bool)
    (h : tableSize = 0 ∨ ∃ k, tableSize = 2^k) :
    Sound (freshTable tableSize unicodeOnly : DictPythonHashIndex α) := by
  have hslot : ∀ s, (freshTable tableSize unicodeOnly : DictPythonHashIndex α).slot s =
      .empty := by
    intro s
    by_cases hs : s < tableSize <;>
      simp [DictPythonHashIndex.slot, freshTable, withTableSize, List.getD_eq_getElem?_getD, hs]
  constructor
  · simpa [freshTable, withTableSize, DictPythonHashIndex.size] using h
  · simp [freshTable, withTableSize, DictPythonHashIndex.size, List.countP_replicate,
      DictIndex.isFilled]
  · intro s i hi
    simp [hslot] at hi
  · intro i a ha
    simp [freshTable, withTableSize] at ha
  · intro s t i hi
    simp [hslot] at hi
  · simp [freshTable, withTableSize, DictPythonHashIndex.liveKeys]

theorem resize_spec (index : DictPythonHashIndex α) (target : ℕ)
    (hfit : index.liveKeys.length ≤ dictProbeUsableFraction (tableSizeForTarget target)) :
    Sound (resize index target) ∧
    (resize index target).entryKeys = index.liveKeys.map some ∧
    (resize index target).usable =
      dictProbeUsableFraction (tableSizeForTarget target)-index.liveKeys.length ∧
    (resize index target).size = tableSizeForTarget target ∧
    (resize index target).unicodeOnly = index.unicodeOnly := by
  have hf := fresh_sound (α := α) (tableSizeForTarget target) index.unicodeOnly
    (Or.inr ⟨_, rfl⟩)
  have h := fold_place hf index.liveKeys hfit
  simpa [resize, freshTable, withTableSize, DictPythonHashIndex.size] using h

/-- Growing to three times the live count leaves room for one more key. -/
theorem grow_spec (hs : Sound index) :
    Sound (resize index (index.liveLen*3)) ∧
    (resize index (index.liveLen*3)).liveKeys = index.liveKeys ∧
    (resize index (index.liveLen*3)).entryKeys.length = index.liveLen ∧
    (resize index (index.liveLen*3)).usable =
      dictProbeUsableFraction (tableSizeForTarget (index.liveLen*3))-index.liveLen ∧
    0 < (resize index (index.liveLen*3)).usable ∧
    (resize index (index.liveLen*3)).unicodeOnly = index.unicodeOnly := by
  have hroom := usableFraction_grow index.liveLen
  obtain ⟨h1, h2, h3, -, h5⟩ := resize_spec index (index.liveLen*3) (by
    rw [← hs.liveCount]
    omega)
  rw [← hs.liveCount] at h3
  refine ⟨h1, ?_, ?_, h3, ?_, h5⟩
  · rw [DictPythonHashIndex.liveKeys, h2, reduceOption_map_some]
  · rw [h2, List.length_map, hs.liveCount]
  · rw [h3]
    omega

theorem prepareGeneralInsert_sound (hs : Sound index) : Sound (prepareGeneralInsert index) := by
  simp only [prepareGeneralInsert]
  split
  · have h := (grow_spec hs).1
    exact ⟨h.sizePow, h.filled, h.entryLive, h.onPath, h.slotUnique, h.liveCount⟩
  · exact hs

theorem prepareGeneralInsert_liveKeys (hs : Sound index) :
    (prepareGeneralInsert index).liveKeys = index.liveKeys := by
  simp only [prepareGeneralInsert]
  split
  · exact (grow_spec hs).2.1
  · rfl

theorem convertFor_sound (hs : Sound index) (key : α) : Sound (convertFor index key) := by
  simp only [convertFor]
  split
  · exact prepareGeneralInsert_sound hs
  · exact hs

theorem convertFor_liveKeys (hs : Sound index) (key : α) :
    (convertFor index key).liveKeys = index.liveKeys := by
  simp only [convertFor]
  split
  · exact prepareGeneralInsert_liveKeys hs
  · rfl

theorem makeRoom_sound (hs : Sound index) : Sound (makeRoom index) := by
  simp only [makeRoom]
  split
  · exact (grow_spec hs).1
  · exact hs

theorem makeRoom_liveKeys (hs : Sound index) : (makeRoom index).liveKeys = index.liveKeys := by
  simp only [makeRoom]
  split
  · exact (grow_spec hs).2.1
  · rfl

theorem makeRoom_usable_pos (hs : Sound index) : 0 < (makeRoom index).usable := by
  simp only [makeRoom]
  split
  · exact (grow_spec hs).2.2.2.2.1
  · omega

theorem recordInserted_sound (hs : Sound index) (key : α) : Sound (recordInserted index key) :=
  place_sound (makeRoom_sound (convertFor_sound hs key))
    (makeRoom_usable_pos (convertFor_sound hs key)) key

theorem recordInserted_liveKeys (hs : Sound index) (key : α) :
    (recordInserted index key).liveKeys = index.liveKeys++[key] := by
  have hc := convertFor_sound hs key
  have he := (place_effect (makeRoom_sound hc) (makeRoom_usable_pos hc) key).1
  rw [DictPythonHashIndex.liveKeys, recordInserted, he, List.reduceOption_append]
  have h1 := makeRoom_liveKeys hc
  have h2 := convertFor_liveKeys hs key
  rw [DictPythonHashIndex.liveKeys] at h1
  simp [h1, h2]

theorem recordInserted_last (hs : Sound index) (key : α) :
    ∃ l, (recordInserted index key).entryKeys = l++[some key] := by
  have hc := convertFor_sound hs key
  exact ⟨_, (place_effect (makeRoom_sound hc) (makeRoom_usable_pos hc) key).1⟩

theorem makeRoom_unicodeOnly (hs : Sound index) :
    (makeRoom index).unicodeOnly = index.unicodeOnly := by
  simp only [makeRoom]
  split
  · exact (grow_spec hs).2.2.2.2.2
  · rfl

theorem convertFor_unicodeOnly (index : DictPythonHashIndex α) (key : α) :
    (convertFor index key).unicodeOnly = (index.unicodeOnly && isStr key) := by
  cases hu : index.unicodeOnly <;> cases hk : isStr key <;>
    simp [convertFor, prepareGeneralInsert, hu, hk]

theorem recordInserted_unicodeOnly (hs : Sound index) (key : α) :
    (recordInserted index key).unicodeOnly = (index.unicodeOnly && isStr key) := by
  have hc := convertFor_sound hs key
  rw [recordInserted,
    (place_effect (makeRoom_sound hc) (makeRoom_usable_pos hc) key).2.2.2,
    makeRoom_unicodeOnly hc, convertFor_unicodeOnly]

theorem fold_recordInserted (hs : Sound index) (keys : List α) :
    Sound (keys.foldl recordInserted index) ∧
    (keys.foldl recordInserted index).liveKeys = index.liveKeys++keys := by
  induction keys generalizing index with
  | nil => exact ⟨hs, by simp⟩
  | cons key keys ih =>
    obtain ⟨h1, h2⟩ := ih (recordInserted_sound hs key)
    exact ⟨h1, by simp [h2, recordInserted_liveKeys hs]⟩

theorem recordInserted_entryKeys (hs : Sound index) (key : α)
    (hk : (index.unicodeOnly && !isStr key) = false) :
    (recordInserted index key).entryKeys =
      (if index.usable = 0 then index.liveKeys.map some else index.entryKeys)++[some key] := by
  have hc : convertFor index key = index := by simp [convertFor, hk]
  rw [recordInserted, hc,
    (place_effect (makeRoom_sound hs) (makeRoom_usable_pos hs) key).1]
  by_cases h0 : index.usable = 0
  · obtain ⟨-, he, -⟩ := resize_spec index (index.liveLen*3) (by
      rw [← hs.liveCount]
      exact (usableFraction_grow index.liveLen).le)
    simp [makeRoom, h0, he]
  · simp [makeRoom, h0]

theorem recordInserted_eq_place (key : α) (hu : 0 < index.usable)
    (hk : (index.unicodeOnly && !isStr key) = false) :
    recordInserted index key = placeWithoutResize index key := by
  have h0 : index.usable ≠ 0 := by omega
  simp [recordInserted, convertFor, makeRoom, hk, h0]

theorem fold_recordInserted_eq_place (hs : Sound index) (keys : List α)
    (hu : keys.length ≤ index.usable)
    (hk : ∀ key ∈ keys, (index.unicodeOnly && !isStr key) = false) :
    keys.foldl recordInserted index = keys.foldl placeWithoutResize index := by
  induction keys generalizing index with
  | nil => rfl
  | cons key keys ih =>
    simp only [List.length_cons] at hu
    have hpos : 0 < index.usable := by omega
    obtain ⟨-, hus, -, huni⟩ := place_effect hs hpos key
    rw [List.foldl_cons, List.foldl_cons,
      recordInserted_eq_place key hpos (hk key (List.mem_cons_self))]
    apply ih (place_sound hs hpos key)
    · omega
    · intro k hmem
      rw [huni]
      exact hk k (List.mem_cons_of_mem _ hmem)

/-- Capacity after an insertion that does not convert the table. -/
theorem recordInserted_capacity (hs : Sound index) (key : α)
    (hk : (index.unicodeOnly && !isStr key) = false) :
    (recordInserted index key).usable =
      (if index.usable = 0 then
        dictProbeUsableFraction (tableSizeForTarget (index.liveLen*3))-index.liveLen
      else index.usable)-1 ∧
    (recordInserted index key).entryKeys.length =
      (if index.usable = 0 then index.liveLen else index.entryKeys.length)+1 := by
  have hc : convertFor index key = index := by simp [convertFor, hk]
  obtain ⟨he, hu, -, -⟩ := place_effect (makeRoom_sound hs) (makeRoom_usable_pos hs) key
  rw [recordInserted, hc, hu, he]
  by_cases h0 : index.usable = 0
  · obtain ⟨-, -, hlen, hus, -, -⟩ := grow_spec hs
    simp [makeRoom, h0, hlen, hus]
  · simp [makeRoom, h0]

/-- A live entry singled out by the test is found at its slot. -/
theorem lookupSlot_found (hs : Sound index) (test : α → Bool) (i : ℕ) (a : α)
    (hi : index.entryKeys[i]? = some (some a)) (ht : test a = true)
    (huniq : ∀ j b, index.entryKeys[j]? = some (some b) → test b = true → j = i) :
    ∃ s, lookupSlot index test (pythonHash a) = some s ∧ index.slot s = .entry i := by
  obtain ⟨n, hn, hbefore⟩ := hs.onPath i a hi
  have hsize := slot_lt index _ (by rw [hn]; simp)
  obtain ⟨k, hk⟩ := hs.pow (by omega)
  have hany : (index.entryKeys.getD i none).any test = true := by
    simp [List.getD_eq_getElem?_getD, hi, ht]
  have hsettle : lookupSettle index test (slotAt index.size (pythonHash a).toNat n) =
      some (some (slotAt index.size (pythonHash a).toNat n)) := by
    simp only [lookupSettle, hn]
    rw [if_pos hany]
  -- an earlier slot may hold the entry itself, so settle at the first visit
  have hother : ∀ m, index.slot (slotAt index.size (pythonHash a).toNat m) ≠ .empty →
      index.slot (slotAt index.size (pythonHash a).toNat m) ≠ .entry i →
      lookupSettle index test (slotAt index.size (pythonHash a).toNat m) = none := by
    intro m hne hni
    simp only [lookupSettle]
    split
    · rename_i he
      exact absurd he hne
    · rfl
    · rename_i j hj
      rw [if_neg]
      intro hjany
      rw [Option.any_eq_true] at hjany
      obtain ⟨b, hb, hbt⟩ := hjany
      obtain ⟨c, hc⟩ := hs.entryLive _ j hj
      have hbc : index.entryKeys[j]? = some (some b) := by
        rw [List.getD_eq_getElem?_getD, hc, Option.getD_some] at hb
        rw [hc, hb]
      exact hni (huniq j b hbc hbt ▸ hj)
  classical
  have hex : ∃ n, index.slot (slotAt index.size (pythonHash a).toNat n) = .entry i := ⟨n, hn⟩
  have hfirst := Nat.find_spec hex
  have heq : slotAt index.size (pythonHash a).toNat (Nat.find hex) =
      slotAt index.size (pythonHash a).toNat n := hs.slotUnique _ _ i hfirst hn
  refine ⟨_, ?_, hn⟩
  rw [lookupSlot_eq, Option.join_eq_some_iff]
  apply search_start_first k _ (Nat.find hex) _ hk (UInt64.toNat_lt _)
  · rw [heq]
    exact hsettle
  · intro j hj
    apply hother j
    · exact hbefore j (lt_of_lt_of_le hj (Nat.find_min' hex hn))
    · exact Nat.find_min hex hj

/-- Marking the slot of a live entry removed keeps the table sound. -/
theorem markSlotRemoved_sound (hs : Sound index) (s i : ℕ) (h : index.slot s = .entry i) :
    Sound (markSlotRemoved index s) := by
  obtain ⟨a, ha⟩ := hs.entryLive s i h
  have hlt : s < index.indices.length := slot_lt index s (by rw [h]; simp)
  rw [markSlotRemoved_entry index s i h]
  set new : DictPythonHashIndex α :=
    { index with
      indices := index.indices.set s .dummy
      entryKeys := index.entryKeys.set i none
      liveLen := index.liveLen-1 }
  have hsize : new.size = index.size := by simp [new, DictPythonHashIndex.size]
  have hat : ∀ t, new.slot t = if s = t then .dummy else index.slot t := by
    intro t
    simp only [new, DictPythonHashIndex.slot, getD_set]
    by_cases hst : s = t
    · subst hst
      simp [hlt]
    · simp [hst]
  have hentry : ∀ t j, new.slot t = .entry j → s ≠ t ∧ index.slot t = .entry j := by
    intro t j ht
    rw [hat] at ht
    split at ht
    · simp at ht
    · rename_i hst
      exact ⟨hst, ht⟩
  constructor
  · rw [hsize]
    exact hs.sizePow
  · rw [hsize]
    have hc := List.countP_set (p := DictIndex.isFilled) (a := .dummy) hlt
    have hget : index.indices[s] = .entry i := by
      simpa [DictPythonHashIndex.slot, List.getD_eq_getElem?_getD, hlt] using h
    have hone : 0 < index.indices.countP DictIndex.isFilled := by
      rw [List.countP_pos_iff]
      exact ⟨_, List.getElem_mem hlt, by simp [hget, DictIndex.isFilled]⟩
    have := hs.filled
    simp only [new, hc, hget, DictIndex.isFilled, if_true]
    omega
  · intro t j ht
    obtain ⟨hst, hold⟩ := hentry t j ht
    obtain ⟨b, hb⟩ := hs.entryLive t j hold
    refine ⟨b, ?_⟩
    have hij : i ≠ j := by
      intro hij
      subst hij
      exact hst (hs.slotUnique s t i h hold)
    simp only [new]
    rw [List.getElem?_set_ne hij]
    exact hb
  · intro j b hb
    obtain ⟨hij, hold⟩ := getElem?_set_none _ i j b hb
    obtain ⟨n, hn, hbefore⟩ := hs.onPath j b hold
    rw [hsize]
    refine ⟨n, ?_, ?_⟩
    · rw [hat, if_neg]
      · exact hn
      · intro he
        rw [← he, h] at hn
        injection hn with hn
        exact hij hn
    · intro m hm
      rw [hat]
      split
      · simp
      · exact hbefore m hm
  · intro t t' j ht ht'
    exact hs.slotUnique t t' j (hentry t j ht).2 (hentry t' j ht').2
  · have hr := rank_get _ i a ha
    have hlen := (List.getElem?_eq_some_iff.mp hr).1
    simp only [new, DictPythonHashIndex.liveKeys, rank_erase _ i a ha]
    rw [List.length_eraseIdx_of_lt hlen, hs.liveCount]
    rfl

/-- The one live key that passes the test is found, by rank. -/
theorem lookupSlot_rank (hs : Sound index) (test : α → Bool) (r : ℕ) (a : α)
    (ha : index.liveKeys[r]? = some a) (ht : test a = true)
    (huniq : ∀ j b, index.liveKeys[j]? = some b → test b = true → j = r) :
    ∃ s i, lookupSlot index test (pythonHash a) = some s ∧ index.slot s = .entry i ∧
      index.entryKeys[i]? = some (some a) ∧ rank index.entryKeys i = r := by
  obtain ⟨i, hi, hr⟩ := rank_surjective _ r a ha
  have hone : ∀ j b, index.entryKeys[j]? = some (some b) → test b = true → j = i := by
    intro j b hb hbt
    have hj := huniq _ b (rank_get _ j b hb) hbt
    exact rank_injective _ j i b a hb hi (by rw [hj, hr])
  obtain ⟨s, hslot, hentry⟩ := lookupSlot_found hs test i a hi ht hone
  exact ⟨s, i, hslot, hentry, hi, hr⟩

/-- Removing the one live key that passes the test erases it by rank. -/
theorem removeMatching_spec (hs : Sound index) (test : α → Bool) (r : ℕ) (a : α)
    (ha : index.liveKeys[r]? = some a) (ht : test a = true)
    (huniq : ∀ j b, index.liveKeys[j]? = some b → test b = true → j = r) :
    Sound (removeMatching index test (pythonHash a)) ∧
    (removeMatching index test (pythonHash a)).liveKeys = index.liveKeys.eraseIdx r ∧
    (removeMatching index test (pythonHash a)).usable = index.usable ∧
    (removeMatching index test (pythonHash a)).unicodeOnly = index.unicodeOnly ∧
    ∃ i, index.entryKeys[i]? = some (some a) ∧ rank index.entryKeys i = r ∧
      (removeMatching index test (pythonHash a)).entryKeys = index.entryKeys.set i none := by
  obtain ⟨s, i, hslot, hentry, hi, hr⟩ := lookupSlot_rank hs test r a ha ht huniq
  have he : removeMatching index test (pythonHash a) = markSlotRemoved index s := by
    simp [removeMatching, hslot]
  rw [he]
  refine ⟨markSlotRemoved_sound hs s i hentry, ?_⟩
  rw [markSlotRemoved_entry index s i hentry]
  refine ⟨?_, rfl, rfl, i, hi, hr, rfl⟩
  simp [DictPythonHashIndex.liveKeys, rank_erase _ i a hi, hr]

theorem truncatePoppedEntries_sound (hs : Sound index) :
    Sound (truncatePoppedEntries index) := by
  constructor
  · exact hs.sizePow
  · exact hs.filled
  · intro s i hi
    obtain ⟨a, ha⟩ := hs.entryLive s i hi
    exact ⟨a, (getElem?_trim _ i a).mpr ha⟩
  · intro i a ha
    exact hs.onPath i a ((getElem?_trim _ i a).mp ha)
  · exact hs.slotUnique
  · simp only [truncatePoppedEntries, DictPythonHashIndex.liveKeys, reduceOption_trim]
    exact hs.liveCount

theorem collectCandidates_isSome (index : DictPythonHashIndex α) (hash : UInt64) (fuel n : ℕ)
    (h : ∃ m < fuel, index.slot (slotAt index.size hash.toNat (n+m)) = .empty) :
    (collectCandidates index hash fuel (cursor index.size hash.toNat n)).isSome = true := by
  induction fuel generalizing n with
  | zero => simp at h
  | succ fuel ih =>
    have hnext : index.slot (slotAt index.size hash.toNat n) ≠ .empty →
        (collectCandidates index hash fuel
          (advance index.size (cursor index.size hash.toNat n))).isSome = true := by
      intro hne
      apply ih (n+1)
      obtain ⟨m, hm, he⟩ := h
      cases m with
      | zero => exact absurd he hne
      | succ m => exact ⟨m, by omega, by rwa [show n+1+m = n+(m+1) by omega]⟩
    rw [collectCandidates]
    change (match index.slot (slotAt index.size hash.toNat n) with
      | .empty => _
      | .dummy => _
      | .entry i => _ : Option (List α)).isSome = true
    cases hs : index.slot (slotAt index.size hash.toNat n) with
    | empty => rfl
    | dummy => exact hnext (by simp [hs])
    | entry i => simpa using hnext (by simp [hs])

/-- Walking a chain always comes to its end. -/
theorem candidates_isSome (hs : Sound index) (hash : UInt64) :
    (candidates index hash).isSome = true := by
  rw [candidates]
  split
  · rfl
  · rename_i hne
    have hpos : 0 < index.size := by
      simpa [DictPythonHashIndex.size, List.length_pos_iff] using hne
    obtain ⟨k, hk⟩ := hs.pow hpos
    obtain ⟨s, hlt, he⟩ := hs.empty_slot hpos
    rw [hk] at hlt
    obtain ⟨n, hn, hcov⟩ := slotAt_covers k hash.toNat s hash.toNat_lt hlt
    rw [← hk] at hn hcov
    apply collectCandidates_isSome index hash _ 0
    exact ⟨n, hn, by rw [Nat.zero_add, hcov, he]⟩

/-- The walk meets every live key of the hash. -/
theorem collectCandidates_complete (index : DictPythonHashIndex α) (hash : UInt64)
    {i : ℕ} {a : α} (ha : index.entryKeys[i]? = some (some a)) (hhash : pythonHash a = hash)
    (fuel n m : ℕ) (hslot : index.slot (slotAt index.size hash.toNat (n+m)) = .entry i)
    (hpath : ∀ j < m, index.slot (slotAt index.size hash.toNat (n+j)) ≠ .empty) {l : List α}
    (hl : collectCandidates index hash fuel (cursor index.size hash.toNat n) = some l) : a ∈ l := by
  induction fuel generalizing n m l with
  | zero => exact absurd hl (by simp [collectCandidates])
  | succ fuel ih =>
    rw [collectCandidates] at hl
    change (match index.slot (slotAt index.size hash.toNat n) with
      | .empty => _
      | .dummy => _
      | .entry i => _ : Option (List α)) = some l at hl
    cases m with
    | zero =>
      rw [Nat.add_zero] at hslot
      simp only [hslot] at hl
      obtain ⟨tail, -, rfl⟩ := Option.map_eq_some_iff.mp hl
      simp [List.getD_eq_getElem?_getD, ha, hhash]
    | succ m =>
      have hnext : ∀ tail, collectCandidates index hash fuel
          (advance index.size (cursor index.size hash.toNat n)) = some tail → a ∈ tail := by
        intro tail htail
        refine ih (n+1) m ?_ ?_ htail
        · rw [← hslot]
          congr 2
          omega
        · intro j hj
          have := hpath (j+1) (by omega)
          rwa [show n+1+j = n+(j+1) by omega]
      have hne := hpath 0 (by omega)
      rw [Nat.add_zero] at hne
      cases hs : index.slot (slotAt index.size hash.toNat n) with
      | empty => exact absurd hs hne
      | dummy =>
        simp only [hs] at hl
        exact hnext l hl
      | entry k =>
        simp only [hs] at hl
        obtain ⟨tail, htail, rfl⟩ := Option.map_eq_some_iff.mp hl
        exact List.mem_append_right _ (hnext tail htail)

theorem mem_candidates (hs : Sound index) {a : α} (ha : a ∈ index.liveKeys) :
    a ∈ (candidates index (pythonHash a)).getD [] := by
  obtain ⟨i, hi⟩ : ∃ i, index.entryKeys[i]? = some (some a) := by
    rw [DictPythonHashIndex.liveKeys, List.reduceOption_mem_iff] at ha
    exact List.mem_iff_getElem?.mp ha
  obtain ⟨n, hslot, hpath⟩ := hs.onPath i a hi
  obtain ⟨l, hl⟩ := Option.isSome_iff_exists.mp (candidates_isSome hs (pythonHash a))
  rw [hl, Option.getD_some]
  rw [candidates] at hl
  split at hl
  · rename_i hempty
    have hsize : index.size = 0 := by simpa [DictPythonHashIndex.size] using hempty
    rw [slot_of_size_le _ _ (by omega)] at hslot
    exact DictIndex.noConfusion hslot
  · exact collectCandidates_complete index _ hi rfl _ 0 n (by rwa [Nat.zero_add])
      (fun j hj => by rw [Nat.zero_add]; exact hpath j hj) hl

end sound

/-- No two stored keys compare equal. -/
def Distinct {K : Type u} [BEq K] (keys : List K) : Prop :=
  keys.Pairwise (fun x y => (x == y) = false)

theorem distinct_position {K : Type u} [BEq K] [EquivBEq K] (keys : List K) (r : ℕ) (a : K)
    (hd : Distinct keys) (ha : keys[r]? = some a) (j : ℕ) (b : K)
    (hb : keys[j]? = some b) (he : (b == a) = true) : j = r := by
  rw [Distinct, List.pairwise_iff_getElem] at hd
  obtain ⟨hr, hra⟩ := List.getElem?_eq_some_iff.mp ha
  obtain ⟨hj, hjb⟩ := List.getElem?_eq_some_iff.mp hb
  rcases lt_trichotomy j r with hlt | h | hlt
  · have := hd j r hj hr hlt
    rw [hra, hjb, he] at this
    simp at this
  · exact h
  · have := hd r j hr hj hlt
    rw [hra, hjb, PartialEquivBEq.symm he] at this
    simp at this

theorem recordRemoved_spec {K : Type u} [BEq K] [DictEntry K] [EquivBEq K]
    (index : DictPythonHashIndex K) (hs : Sound index)
    (hd : Distinct index.liveKeys) (r : ℕ) (stored : K)
    (hr : index.liveKeys[r]? = some stored) :
    Sound (recordRemoved index stored) ∧
    (recordRemoved index stored).liveKeys = index.liveKeys.eraseIdx r ∧
    (recordRemoved index stored).usable = index.usable ∧
    (recordRemoved index stored).unicodeOnly = index.unicodeOnly ∧
    ∃ i, index.entryKeys[i]? = some (some stored) ∧ rank index.entryKeys i = r ∧
      (recordRemoved index stored).entryKeys = index.entryKeys.set i none :=
  removeMatching_spec hs _ r stored hr (BEq.refl stored)
    (fun j b hb he => distinct_position _ r stored hd hr j b hb he)

end Pyrust.DictProbeInvariant
