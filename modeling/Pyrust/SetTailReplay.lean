import Pyrust.SetLazy

/-!
# The shortcut for removals of the last key

A journal that only takes away the last key over and over is replayed without the
undo walk. The placeholders of the removed keys are keys of their own here, a hash
and an identity, so the replay of any accepted journal is a run on a table of
distinct keys.
-/

set_option autoImplicit false

namespace Pyrust.SetTailReplay
open Pyrust.DictProbeIndex Pyrust.SetProbe Pyrust.SetProbeInvariant Pyrust.SetMirror Pyrust.SetOps
open Pyrust.SetReplay Pyrust.SetLazy
open Pyrust.DictProbeInvariant (Distinct)

universe u

instance : DictEntry SetProbeEntry where
  pythonHash := SetProbeEntry.pythonHash
  isStr _ := false

/-- Entries whose identities are their places. -/
def Numbered (keys : List SetProbeEntry) : Prop :=
  ∀ (i : ℕ) (key : SetProbeEntry), keys[i]? = some key → key.replayId = i

theorem Numbered.ids {keys : List SetProbeEntry} (h : Numbered keys) :
    keys.map SetProbeEntry.replayId = List.range keys.length := by
  ext i id
  rw [List.getElem?_map]
  by_cases hi : i < keys.length
  · have hget := List.getElem?_eq_getElem hi
    rw [hget, List.getElem?_range hi, Option.map_some, h i _ hget]
  · simp [hi]

theorem Numbered.distinct {keys : List SetProbeEntry} (h : Numbered keys) : Distinct keys := by
  rw [Distinct, List.pairwise_iff_getElem]
  intro i j hi hj hij
  rw [beq_eq_false_iff_ne]
  intro heq
  have h1 := h i _ (List.getElem?_eq_getElem hi)
  have h2 := h j _ (List.getElem?_eq_getElem hj)
  rw [heq] at h1
  omega

theorem Numbered.dropLast {keys : List SetProbeEntry} (h : Numbered keys) :
    Numbered keys.dropLast := by
  intro i key hi
  rw [List.getElem?_dropLast] at hi
  split at hi
  · exact h i key hi
  · cases hi

/-- The entries that the shortcut inserts: the live keys, then the placeholders. -/
def replayed {K : Type u} [DictEntry K] (mutations : List SetDeferredMutation)
    (entries : List K) : List SetProbeEntry :=
  entries.zipIdx.map (fun key => ⟨pythonHash key.1, key.2⟩) ++ placeholders mutations entries.length

section replayed
variable {K : Type u} [DictEntry K] (mutations : List SetDeferredMutation) (entries : List K)

theorem replayed_length :
    (replayed mutations entries).length = entries.length+mutations.length := by
  simp [replayed, placeholders]

theorem replayed_numbered : Numbered (replayed mutations entries) := by
  intro i key hi
  rw [replayed] at hi
  by_cases hlt : i < entries.length
  · rw [List.getElem?_append_left (by simpa using hlt), List.getElem?_map,
      List.getElem?_zipIdx] at hi
    simp only [Option.map_map, Option.map_eq_some_iff, Function.comp_apply] at hi
    obtain ⟨k, -, rfl⟩ := hi
    exact Nat.zero_add i
  · rw [List.getElem?_append_right (by simpa using not_lt.mp hlt), placeholders,
      List.getElem?_map, List.getElem?_zipIdx] at hi
    simp only [Option.map_map, Option.map_eq_some_iff, Function.comp_apply, List.length_map,
      List.length_zipIdx] at hi
    obtain ⟨m, -, rfl⟩ := hi
    simp only
    omega

/-- The placeholder of a removal carries its hash. -/
theorem replayed_getElem? {i : ℕ} {m : SetDeferredMutation} (h : mutations[i]? = some m) :
    (replayed mutations entries)[entries.length+(mutations.length-i-1)]? =
      some ⟨m.pythonHash, entries.length+(mutations.length-i-1)⟩ := by
  have hi : i < mutations.length := (List.getElem?_eq_some_iff.mp h).1
  have hlen : (entries.zipIdx.map fun key : K × ℕ =>
      (⟨pythonHash key.1, key.2⟩ : SetProbeEntry)).length = entries.length := by simp
  have hrev : mutations.reverse[mutations.length-i-1]? = some m := by
    rw [List.getElem?_reverse (by omega), ← h]
    congr 1
    omega
  rw [replayed, List.getElem?_append_right (by rw [hlen]; omega), hlen, Nat.add_sub_cancel_left,
    placeholders, List.getElem?_map, List.getElem?_zipIdx, hrev]
  simp

end replayed

/-- Entering distinct entries under their own identities. -/
theorem tied_enter_numbered {x : PySetProbeSnapshot} {t : SetTable SetProbeEntry}
    {keys : List SetProbeEntry} (more : List SetProbeEntry)
    (h : Tied x t (keys.map SetProbeEntry.replayId) keys) (hn : Numbered (keys ++ more)) :
    ∃ x' t', more.foldlM PySetProbeSnapshot.insert x = some x' ∧
      Tied x' t' ((keys ++ more).map SetProbeEntry.replayId) (keys ++ more) := by
  induction more generalizing x t keys with
  | nil => exact ⟨x, t, rfl, by simpa using h⟩
  | cons key more ih =>
    have hid : key.replayId = keys.length := hn keys.length key (by simp)
    have hfresh : key.replayId ∉ keys.map SetProbeEntry.replayId := by
      intro hmem
      obtain ⟨stored, hs, he⟩ := List.mem_map.mp hmem
      obtain ⟨i, hi⟩ := List.mem_iff_getElem?.mp hs
      have hlt : i < keys.length := (List.getElem?_eq_some_iff.mp hi).1
      have := hn i stored (by rw [List.getElem?_append_left hlt, hi])
      omega
    obtain ⟨x1, t1, hx1, -, h1⟩ := tied_insert h key.replayId key hfresh
    obtain ⟨x2, t2, hx2, h2⟩ := @ih x1 t1 (keys ++ [key]) (by simpa using h1) (by simpa using hn)
    refine ⟨x2, t2, ?_, by simpa using h2⟩
    rw [List.foldlM_cons]
    exact (congrArg (fun o => Option.bind o _) hx1).trans hx2

/-- Removing the last entries one by one. -/
theorem tied_remove_tail (live : ℕ) (ms : List SetDeferredMutation) (start : ℕ)
    {x : PySetProbeSnapshot} {t : SetTable SetProbeEntry} {keys : List SetProbeEntry}
    (h : Tied x t (List.range (live+ms.length)) keys) (hn : Numbered keys)
    (hash : ∀ (i : ℕ) (m : SetDeferredMutation), ms[i]? = some m →
      ∃ id, keys[live+(ms.length-i-1)]? = some ⟨m.pythonHash, id⟩) :
    ∃ (x' : PySetProbeSnapshot) (t' : SetTable SetProbeEntry) (keys' : List SetProbeEntry),
      (ms.zipIdx start).foldlM (fun table m =>
        table.remove m.1.pythonHash (live+(start+ms.length-m.2-1))) x = some x' ∧
      Tied x' t' (List.range live) keys' := by
  induction ms generalizing start x t keys with
  | nil => exact ⟨x, t, keys, rfl, h⟩
  | cons m ms ih =>
    have hlen : keys.length = live+ms.length+1 := by
      have := h.len
      simp only [List.length_range, List.length_cons] at this
      omega
    have hlast : live+((m::ms).length-0-1) = live+ms.length := by simp
    obtain ⟨id, hkey⟩ := hash 0 m rfl
    rw [hlast] at hkey
    have hid : (List.range (live+(m::ms).length))[live+ms.length]? = some (live+ms.length) :=
      List.getElem?_range (by simp)
    obtain ⟨x1, t1, hx1, -, h1⟩ := tied_remove h hn.distinct (live+ms.length) (live+ms.length)
      ⟨m.pythonHash, id⟩ hid hkey
    have hrange : (List.range (live+(m::ms).length)).eraseIdx (live+ms.length) =
        List.range (live+ms.length) := by
      rw [List.length_cons, ← Nat.add_assoc, List.range_succ, List.eraseIdx_append_of_length_le]
      · simp
      · simp
    have hkeys : keys.eraseIdx (live+ms.length) = keys.dropLast := by
      rw [List.eraseIdx_eq_dropLast]
      omega
    rw [hrange, hkeys] at h1
    obtain ⟨x2, t2, keys2, hx2, h2⟩ := ih (start+1) h1 hn.dropLast fun i m' hm' => by
      have hi : i < ms.length := (List.getElem?_eq_some_iff.mp hm').1
      obtain ⟨id', hid'⟩ := hash (i+1) m' hm'
      refine ⟨id', ?_⟩
      rw [List.getElem?_dropLast, if_pos (by omega), ← hid']
      congr 1
      rw [List.length_cons]
      omega
    refine ⟨x2, t2, keys2, ?_, h2⟩
    have hfirst : live+(start+(m::ms).length-start-1) = live+ms.length := by
      rw [List.length_cons]
      omega
    have hrest : start+(m::ms).length = start+1+ms.length := by
      rw [List.length_cons]
      omega
    rw [List.zipIdx_cons, List.foldlM_cons, hfirst, hrest]
    exact (congrArg (fun o => Option.bind o _) hx1).trans hx2

section tail
variable {K : Type u} [DictEntry K]

theorem enter_eq (mutations : List SetDeferredMutation) (entries : List K)
    (x : PySetProbeSnapshot) :
    (replayed mutations entries).foldlM PySetProbeSnapshot.insert x = (do
      let table ← entries.zipIdx.foldlM
        (fun table key => table.insert ⟨pythonHash key.1, key.2⟩) x
      (placeholders mutations entries.length).foldlM PySetProbeSnapshot.insert table) := by
  rw [replayed, List.foldlM_append, List.foldlM_map]

/-- The shortcut ends, on a table with the live entries in use. -/
theorem materializeTailRemovals_some (mutations : List SetDeferredMutation) (entries : List K)
    {size : ℕ} (hsize : ∃ k, max size setProbeMinsize = 2^k) :
    ∃ table, materializeTailRemovals mutations entries size = some table ∧
      table.used = entries.length := by
  have hnum := replayed_numbered mutations entries
  obtain ⟨x1, t1, hx1, h1⟩ := @tied_enter_numbered _ _ [] (replayed mutations entries)
    (fresh_tied size hsize) (by simpa using hnum)
  rw [List.nil_append, hnum.ids, replayed_length] at h1
  obtain ⟨x2, t2, keys2, hx2, h2⟩ := tied_remove_tail entries.length mutations 0 h1 hnum
    fun i m hm => ⟨_, replayed_getElem? mutations entries hm⟩
  refine ⟨x2, ?_, ?_⟩
  · rw [enter_eq] at hx1
    rw [materializeTailRemovals, ← bind_assoc]
    refine (congrArg (fun o => Option.bind o _) hx1).trans ?_
    simpa using hx2
  · rw [h2.mirrors.used, h2.holds.sound.usedCount, h2.holds.live.length_eq, ← h2.len,
      List.length_range]

/-- An accepted journal: the table of the shortcut is that of the replay of every insertion and
removal, and on a baseline that is a table size both end, with the live keys in use. -/
theorem tail_removals_eq_replay (mutations : List SetDeferredMutation) (entries : List K)
    (size : ℕ) (h : hasOnlyTailRemovals mutations entries.length = true) :
    materializeTailRemovals mutations entries size = replay mutations entries size ∧
      ((∃ k, max size setProbeMinsize = 2^k) →
        ∃ table, materializeTailRemovals mutations entries size = some table ∧
          table.used = entries.length) := by
  refine ⟨?_, fun hsize => materializeTailRemovals_some mutations entries hsize⟩
  rw [← materialize_eq_replay, materialize, if_pos h]

end tail

/-- Three keys, of which the last two have been removed. -/
def tailJournal : List SetDeferredMutation := [.removedHash 2 9, .removedHash 1 1]

theorem tail_removals_eq_replay_two :
    materializeTailRemovals tailJournal [PlainKey.mk true 17] 8 =
        replay tailJournal [PlainKey.mk true 17] 8 ∧
      ((∃ k, max 8 setProbeMinsize = 2^k) →
        ∃ table, materializeTailRemovals tailJournal [PlainKey.mk true 17] 8 = some table ∧
          table.used = 1) :=
  tail_removals_eq_replay tailJournal [PlainKey.mk true 17] 8 (by decide)

end Pyrust.SetTailReplay
