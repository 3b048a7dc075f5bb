import Mathlib.Data.Nat.Bitwise
import Pyrust.DictJournal
import Pyrust.ReplayOrder

/-!
# Replaying a journal

A history is the journal with the keys still in hand. Undoing the encoded
history against the final order and redoing it passes through the same
orders, with placeholders for the keys, so the replayed table mirrors the
table that applied every mutation when it happened.
-/

set_option autoImplicit false

namespace Pyrust.DictReplay
open Pyrust.DictProbeIndex Pyrust.DictProbeInvariant Pyrust.DictMirror Pyrust.HoleyList
open Pyrust.DictJournal Pyrust.ReplayOrder

universe u
variable {K : Type u} [DictEntry K]

theorem flags_eq_add (i b : ℕ) (hb : b < 8) : i <<< 3 ||| b = i*8+b := by
  rw [← Nat.shiftLeft_add_eq_or_of_lt hb, Nat.shiftLeft_eq]

theorem removed_kind (index : ℕ) (key : K) (popped : Bool) :
    (DictDeferredMutation.removed index key popped).kind =
      if popped then dictMutationPop else dictMutationRemove := by
  have h3 : ∀ n : ℕ, n &&& 3 = n%4 := fun n => Nat.and_two_pow_sub_one_eq_mod n 2
  simp only [DictDeferredMutation.kind, DictDeferredMutation.removed, h3, Nat.or_assoc]
  cases popped <;> cases isStr key <;>
    simp [dictMutationPop, dictMutationRemove, dictMutationIsStr, flags_eq_add] <;> omega

theorem removed_position (index : ℕ) (key : K) (popped : Bool) :
    (DictDeferredMutation.removed index key popped).position = index := by
  simp only [DictDeferredMutation.position, DictDeferredMutation.removed, Nat.or_assoc]
  cases popped <;> cases isStr key <;>
    simp [dictMutationPop, dictMutationRemove, dictMutationIsStr, flags_eq_add,
      Nat.shiftRight_eq_div_pow] <;> omega

theorem removed_isStr (index : ℕ) (key : K) (popped : Bool) :
    (DictDeferredMutation.removed index key popped).isStr = isStr key := by
  have h4 : ∀ n : ℕ, n &&& dictMutationIsStr = (n.testBit 2).toNat*2^2 :=
    fun n => Nat.and_two_pow n 2
  simp only [DictDeferredMutation.isStr, DictDeferredMutation.removed, h4]
  cases popped <;> cases isStr key <;>
    simp [dictMutationPop, dictMutationRemove, dictMutationIsStr, Nat.testBit_or,
      Nat.testBit_shiftLeft] <;> decide

inductive Mutation (K : Type u) where
  | insert (key : K)
  | remove (position : ℕ) (key : K)
  | pop (position : ℕ) (key : K)

def encode : Mutation K → DictDeferredMutation
  | .insert _ => DictDeferredMutation.inserted
  | .remove p key => DictDeferredMutation.removed p key false
  | .pop p key => DictDeferredMutation.removed p key true

def keysStep (keys : List K) : Mutation K → List K
  | .insert key => keys++[key]
  | .remove p _ => keys.eraseIdx p
  | .pop _ _ => keys.dropLast

/-- A placeholder or key of the replay standing for a key of the dict. -/
structure Stands (r : DictReplayKey K) (key : K) : Prop where
  hash : r.pythonHash = pythonHash key
  str : r.isStr = isStr key
  same : ∀ k, r.key = some k → k = key

theorem stands_entry (r : DictReplayKey K) (key : K) (h : Stands r key) :
    pythonHash r = pythonHash key ∧ isStr r = isStr key := ⟨h.hash, h.str⟩

theorem placeholder_stands (p id : ℕ) (key : K) (popped : Bool) :
    Stands (placeholder (DictDeferredMutation.removed p key popped) id) key :=
  ⟨rfl, removed_isStr p key popped, fun k hk => by simp [placeholder] at hk⟩

theorem replayKeys_stands (keys : List K) (id : ℕ) :
    List.Forall₂ Stands (replayKeys keys id) keys := by
  induction keys generalizing id with
  | nil => exact List.Forall₂.nil
  | cons key keys ih =>
    exact List.Forall₂.cons ⟨rfl, rfl, fun k hk => (Option.some.inj hk).symm⟩ (ih (id+1))

theorem replayKeys_ids (keys : List K) (id : ℕ) :
    (replayKeys keys id).map DictReplayKey.replayId = List.range' id keys.length := by
  induction keys generalizing id with
  | nil => rfl
  | cons key keys ih => simp [replayKeys, List.range'_succ, ih]

theorem replayKeys_ordered (keys : List K) :
    Ordered Stands DictReplayKey.replayId (replayKeys keys 0) keys keys.length := by
  constructor
  · exact replayKeys_stands keys 0
  · rw [replayKeys_ids]
    exact List.nodup_range'
  · intro r hr
    have hm := List.mem_map_of_mem (f := DictReplayKey.replayId) hr
    rw [replayKeys_ids, List.mem_range'_1] at hm
    omega

theorem replayKeys_known (keys : List K) (id : ℕ) :
    ∀ r ∈ replayKeys keys id, r.key.isSome = true := by
  induction keys generalizing id with
  | nil => simp [replayKeys]
  | cons key keys ih => simpa [replayKeys] using ih (id+1)

/-- Once every live placeholder is a key again, leaving replay mode is exact. -/
theorem finishReplay_eq (x : DictPythonHashIndex (DictReplayKey K)) (y : DictPythonHashIndex K)
    (h : Mirrors Stands x y) (hk : ∀ r ∈ x.liveKeys, r.key.isSome = true) :
    finishReplay x = y := by
  have hentries : ∀ (l : List (Option (DictReplayKey K))) (l' : List (Option K)),
      List.Forall₂ (Option.Rel Stands) l l' →
      (∀ r ∈ l.reduceOption, r.key.isSome = true) →
      l.map (fun entry => entry.bind DictReplayKey.key) = l' := by
    intro l l' hl
    induction hl with
    | nil => intro _; rfl
    | cons hx _ ih =>
      intro hsome
      cases hx with
      | none =>
        rw [List.map_cons, ih (by simpa using hsome)]
        rfl
      | @some r key hst =>
        obtain ⟨k, hkey⟩ := Option.isSome_iff_exists.mp (hsome r (by simp))
        rw [List.map_cons, ih (fun q hq => hsome q (by simp [hq]))]
        simp [hkey, hst.same k hkey]
  have he := hentries _ _ h.entryKeys hk
  cases y with
  | mk indices entryKeys usable liveLen unicodeOnly =>
    simp [finishReplay, he, h.indices, h.usable, h.liveLen, h.unicodeOnly]

section history
variable [BEq K]

def indexStep (index : DictPythonHashIndex K) : Mutation K → DictPythonHashIndex K
  | .insert key => DictProbeIndex.recordInserted index key
  | .remove _ key => DictProbeIndex.recordRemoved index key
  | .pop _ key => recordPopped index key

/-- The mutation is one the dict can perform on these keys. -/
def Valid (keys : List K) : Mutation K → Prop
  | .insert key => ∀ stored ∈ keys, (stored == key) = false
  | .remove p key => keys[p]? = some key
  | .pop _ key => keys.getLast? = some key

def ValidAlong : List (Mutation K) → List K → Prop
  | [], _ => True
  | m::hist, keys => Valid keys m ∧ ValidAlong hist (keysStep keys m)

omit [DictEntry K] in
theorem keysStep_distinct (keys : List K) (m : Mutation K) (hd : Distinct keys)
    (hv : Valid keys m) : Distinct (keysStep keys m) := by
  cases m with
  | insert key =>
    rw [Distinct, keysStep, List.pairwise_append]
    refine ⟨hd, List.pairwise_singleton _ _, ?_⟩
    intro x hx y hy
    rw [List.mem_singleton.mp hy]
    exact hv x hx
  | remove p key => exact hd.sublist (List.eraseIdx_sublist _ _)
  | pop p key => exact hd.sublist (List.dropLast_sublist _)

/-- A replayed table, the table it mirrors, and the live orders of both. -/
structure Tied (x : DictPythonHashIndex (DictReplayKey K)) (y : DictPythonHashIndex K)
    (state : List (DictReplayKey K)) (keys : List K) : Prop where
  mirrors : Mirrors Stands x y
  sound : Sound y
  state : x.liveKeys = state
  keys : y.liveKeys = keys

variable {x : DictPythonHashIndex (DictReplayKey K)} {y : DictPythonHashIndex K}
  {state : List (DictReplayKey K)} {keys : List K} {next : ℕ}

omit [BEq K] in
theorem tied_insert (h : Tied x y state keys) (r : DictReplayKey K) (key : K)
    (hr : Stands r key) :
    Tied (DictProbeIndex.recordInserted x r) (DictProbeIndex.recordInserted y key)
      (state++[r]) (keys++[key]) := by
  constructor
  · exact recordInserted_mirrors stands_entry h.mirrors r key hr
  · exact recordInserted_sound h.sound key
  · rw [recordInserted_liveKeys (h.mirrors.sound stands_entry h.sound), h.state]
  · rw [recordInserted_liveKeys h.sound, h.keys]

theorem tied_test [EquivBEq K] (h : Tied x y state keys)
    (ho : Ordered Stands DictReplayKey.replayId state keys next) (hd : Distinct keys) (p : ℕ)
    (r : DictReplayKey K) (key : K) (hr : state[p]? = some r) (hk : keys[p]? = some key)
    (i : ℕ) (a : DictReplayKey K) (b : K)
    (ha : x.entryKeys[i]? = some (some a)) (hb : y.entryKeys[i]? = some (some b)) :
    (a.replayId == r.replayId) = (b == key) := by
  have hra : state[rank x.entryKeys i]? = some a := by
    rw [← h.state]
    exact rank_get _ i a ha
  have hrb : keys[rank x.entryKeys i]? = some b := by
    rw [rank_eq _ _ h.mirrors.entryKeys i, ← h.keys]
    exact rank_get _ i b hb
  rw [Bool.eq_iff_iff, beq_iff_eq]
  constructor
  · intro he
    rw [position_unique ho p _ r a hr hra he, hk] at hrb
    injection hrb with hrb
    rw [hrb]
    exact BEq.refl b
  · intro he
    rw [distinct_position keys p key hd hk _ b hrb he, hr] at hra
    injection hra with hra
    rw [hra]

omit [BEq K] in
theorem recordRemovedReplay_eq (h : Tied x y state keys)
    (ho : Ordered Stands DictReplayKey.replayId state keys next) (p : ℕ)
    (r : DictReplayKey K) (hr : state[p]? = some r) (popped : Bool) :
    recordRemovedReplay x r popped =
      if popped then
        truncatePoppedEntries
          (removeMatching x (fun stored => stored.replayId == r.replayId) r.pythonHash)
      else removeMatching x (fun stored => stored.replayId == r.replayId) r.pythonHash := by
  have hs := h.mirrors.sound stands_entry h.sound
  have hst := h.state
  obtain ⟨s, i, hslot, -⟩ := lookupSlot_rank hs
    (fun stored => stored.replayId == r.replayId) p r (hst ▸ hr) (by simp) (by
      intro j q hq he
      exact position_unique ho p j r q hr (hst ▸ hq) (by simpa using he))
  have hslot' : lookupSlot x (fun stored => stored.replayId == r.replayId) r.pythonHash =
      some s := hslot
  simp only [recordRemovedReplay, replaySlot, removeMatching, hslot']

theorem tied_remove [EquivBEq K] (h : Tied x y state keys)
    (ho : Ordered Stands DictReplayKey.replayId state keys next) (hd : Distinct keys) (p : ℕ)
    (r : DictReplayKey K) (key : K) (hr : state[p]? = some r) (hk : keys[p]? = some key)
    (hs : Stands r key) :
    Tied (recordRemovedReplay x r false) (DictProbeIndex.recordRemoved y key)
      (state.eraseIdx p) (keys.eraseIdx p) := by
  rw [recordRemovedReplay_eq h ho p r hr]
  have hst := h.state
  have hks := h.keys
  have hx := removeMatching_spec (h.mirrors.sound stands_entry h.sound)
    (fun stored => stored.replayId == r.replayId) p r (hst ▸ hr) (by simp) (by
      intro j q hq he
      exact position_unique ho p j r q hr (hst ▸ hq) (by simpa using he))
  obtain ⟨hy1, hy2, -⟩ := recordRemoved_spec y h.sound (hks ▸ hd) p key (hks ▸ hk)
  constructor
  · have hm := removeMatching_mirrors h.mirrors
      (fun stored => stored.replayId == r.replayId) (fun stored => stored == key)
      (pythonHash key) (tied_test h ho hd p r key hr hk)
    rw [← hs.hash] at hm
    simpa [DictProbeIndex.recordRemoved, hs.hash] using hm
  · exact hy1
  · rw [← hst]
    exact hx.2.1
  · rw [← hks]
    exact hy2

theorem tied_pop [EquivBEq K] (h : Tied x y state keys)
    (ho : Ordered Stands DictReplayKey.replayId state keys next) (hd : Distinct keys) (p : ℕ)
    (r : DictReplayKey K) (key : K) (hr : state[p]? = some r) (hk : keys[p]? = some key)
    (hs : Stands r key) :
    Tied (recordRemovedReplay x r true) (recordPopped y key)
      (state.eraseIdx p) (keys.eraseIdx p) := by
  have ht := tied_remove h ho hd p r key hr hk hs
  rw [recordRemovedReplay_eq h ho p r hr] at ht ⊢
  constructor
  · exact truncate_mirrors ht.mirrors
  · exact truncatePoppedEntries_sound ht.sound
  · rw [← ht.state]
    exact truncatePoppedEntries_liveKeys _
  · rw [← ht.keys]
    exact truncatePoppedEntries_liveKeys _

/-- Redoing an undone history retraces its orders and keeps the tables tied. -/
theorem redo_undo [EquivBEq K] (hist : List (Mutation K)) (keys : List K)
    (last : List (DictReplayKey K)) (next : ℕ) (hv : ValidAlong hist keys) (hd : Distinct keys)
    (ho : Ordered Stands DictReplayKey.replayId last (hist.foldl keysStep keys) next) :
    ∃ bound, Ordered Stands DictReplayKey.replayId
        (undo (hist.map encode) ⟨last, [], next⟩).state keys bound ∧
      bound = (undo (hist.map encode) ⟨last, [], next⟩).nextReplayId ∧
      ∀ x y, Tied x y (undo (hist.map encode) ⟨last, [], next⟩).state keys →
        Tied
          (redo (hist.map encode) (undo (hist.map encode) ⟨last, [], next⟩).insertedKeys
            ⟨(undo (hist.map encode) ⟨last, [], next⟩).state, x⟩).index
          (hist.foldl indexStep y) last (hist.foldl keysStep keys) := by
  induction hist generalizing keys with
  | nil => exact ⟨next, ho, rfl, fun x y ht => ht⟩
  | cons m hist ih =>
    obtain ⟨bound, hord, hbound, hredo⟩ :=
      ih (keysStep keys m) hv.2 (keysStep_distinct keys m hd hv.1) ho
    set u := undo (hist.map encode) ⟨last, [], next⟩
    have hu : undo ((m::hist).map encode) ⟨last, [], next⟩ = undoStep (encode m) u := rfl
    rw [hu]
    cases m with
    | insert key =>
      obtain ⟨front, r, hstate, hr, hfront⟩ := undo_insert u.state keys key bound hord
      have hstep : undoStep (encode (.insert key)) u =
          ⟨front, some r::u.insertedKeys, u.nextReplayId⟩ := by
        simp [undoStep, encode, DictDeferredMutation.kind, DictDeferredMutation.inserted,
          dictMutationInsert, hstate]
      rw [hstep]
      refine ⟨bound, hfront, hbound, ?_⟩
      intro x y ht
      have hnext := hredo _ _ (hstate ▸ tied_insert ht r key hr)
      simpa [redo, redoStep, encode, DictDeferredMutation.kind, DictDeferredMutation.inserted,
        dictMutationInsert, hstate, indexStep] using hnext
    | remove p key =>
      have hkind : (encode (.remove p key)).kind = dictMutationRemove := removed_kind p key false
      have hpos : (encode (.remove p key)).position = p := removed_position p key false
      set r : DictReplayKey K := placeholder (encode (.remove p key)) u.nextReplayId
      have hr : Stands r key := placeholder_stands p u.nextReplayId key false
      obtain ⟨hback, hp⟩ := undo_remove u.state keys p key bound r hv.1 hr hbound.symm hord
      have hstep : undoStep (encode (.remove p key)) u =
          ⟨u.state.insertIdx p r, none::u.insertedKeys, u.nextReplayId+1⟩ := by
        simp [undoStep, hkind, hpos, dictMutationInsert, dictMutationRemove, r]
      rw [hstep]
      refine ⟨bound+1, hback, by rw [hbound], ?_⟩
      intro x y ht
      have hget : (u.state.insertIdx p r)[p]? = some r := by
        simp [List.getElem?_insertIdx, hp]
      have hnext := hredo _ _ (by
        have := tied_remove ht hback hd p r key hget hv.1 hr
        rwa [List.eraseIdx_insertIdx_self] at this)
      simpa [redo, redoStep, hkind, hpos, dictMutationInsert, dictMutationRemove, hget,
        indexStep] using hnext
    | pop p key =>
      have hkind : (encode (.pop p key)).kind = dictMutationPop := removed_kind p key true
      set r : DictReplayKey K := placeholder (encode (.pop p key)) u.nextReplayId
      have hr : Stands r key := placeholder_stands p u.nextReplayId key true
      have hback := undo_pop u.state keys key bound r hv.1 hr hbound.symm hord
      have hstep : undoStep (encode (.pop p key)) u =
          ⟨u.state++[r], none::u.insertedKeys, u.nextReplayId+1⟩ := by
        simp [undoStep, hkind, dictMutationInsert, dictMutationRemove, dictMutationPop, r]
      rw [hstep]
      refine ⟨bound+1, hback, by rw [hbound], ?_⟩
      intro x y ht
      have hlen : keys.length-1 = u.state.length := by
        have := hback.stands.length_eq
        simp only [List.length_append, List.length_singleton] at this
        omega
      have hget : (u.state++[r])[keys.length-1]? = some r := by simp [hlen]
      have hkey : keys[keys.length-1]? = some key := by
        rw [← List.getLast?_eq_getElem?]
        exact hv.1
      have hfront : (u.state++[r]).eraseIdx u.state.length = u.state := by
        rw [List.eraseIdx_eq_dropLast (by simp), List.dropLast_concat]
      have hnext := hredo _ _ (by
        have := tied_pop ht hback hd (keys.length-1) r key hget hkey hr
        rwa [List.eraseIdx_length_sub_one, hlen, hfront] at this)
      simpa [redo, redoStep, hkind, dictMutationInsert, dictMutationRemove, dictMutationPop,
        indexStep] using hnext

/-- The table of the keys in order, before any deferred mutation. -/
def baseIndex (keys : List K) (tableSize : ℕ) (unicodeOnly : Bool) : DictPythonHashIndex K :=
  keys.foldl DictProbeIndex.recordInserted (freshTable tableSize unicodeOnly)

omit [BEq K] in
theorem baseIndex_concat (keys : List K) (key : K) (tableSize : ℕ) (unicodeOnly : Bool) :
    baseIndex (keys++[key]) tableSize unicodeOnly =
      DictProbeIndex.recordInserted (baseIndex keys tableSize unicodeOnly) key := by
  simp [baseIndex]

omit [BEq K] in
/-- Keys that fit are placed one after another. -/
theorem baseIndex_eq_place (keys : List K) (tableSize : ℕ) (unicodeOnly : Bool)
    (hsize : tableSize = 0 ∨ ∃ k, tableSize = 2^k)
    (hfit : keys.length ≤ dictProbeUsableFraction tableSize)
    (hstr : unicodeOnly = true → ∀ key ∈ keys, isStr key = true) :
    baseIndex keys tableSize unicodeOnly =
      keys.foldl placeWithoutResize (freshTable tableSize unicodeOnly) := by
  apply fold_recordInserted_eq_place (fresh_sound tableSize unicodeOnly hsize) keys hfit
  intro key hkey
  cases hu : unicodeOnly with
  | true => simp [freshTable, hstr hu key hkey]
  | false => simp [freshTable]

/-- The conversion a rebuilt table makes up for at its end. -/
def convertTo (current : Bool) (index : DictPythonHashIndex K) : DictPythonHashIndex K :=
  if !current && index.unicodeOnly then prepareGeneralInsert index else index

omit [BEq K] in
theorem convertTo_self (index : DictPythonHashIndex K) :
    convertTo index.unicodeOnly index = index := by
  simp [convertTo]

omit [BEq K] in
theorem fromKeys_eq (keys : List K) (tableSize : ℕ) (unicodeOnly current : Bool) :
    fromKeys keys tableSize unicodeOnly current =
      convertTo current (baseIndex keys tableSize unicodeOnly) := rfl

omit [BEq K] in
theorem finishReplay_convertTo (x : DictPythonHashIndex (DictReplayKey K))
    (y : DictPythonHashIndex K) (h : Mirrors Stands x y) (hx : Sound x)
    (hk : ∀ r ∈ x.liveKeys, r.key.isSome = true) (current : Bool) :
    finishReplay (if !current && x.unicodeOnly then prepareGeneralInsert x else x) =
      convertTo current y := by
  rw [h.unicodeOnly, convertTo]
  by_cases hc : (!current && y.unicodeOnly) = true
  · rw [if_pos hc, if_pos hc]
    apply finishReplay_eq _ _ (prepareGeneralInsert_mirrors stands_entry h)
    rw [prepareGeneralInsert_liveKeys hx]
    exact hk
  · rw [if_neg hc, if_neg hc]
    exact finishReplay_eq _ _ h hk

/-- A materialized journal is the table that followed the history eagerly. -/
theorem materialize_eq [EquivBEq K] (j : DictMutationJournal) (hist : List (Mutation K))
    (base : List K) (tableSize : ℕ) (unicodeOnly current : Bool)
    (hsize : tableSize = 0 ∨ ∃ k, tableSize = 2^k) (hj : j.mutations = hist.map encode)
    (hv : ValidAlong hist base) (hd : Distinct base) :
    materialize j (hist.foldl keysStep base) tableSize unicodeOnly current =
      convertTo current (hist.foldl indexStep (baseIndex base tableSize unicodeOnly)) := by
  obtain ⟨bound, hord, -, hredo⟩ := redo_undo hist base
    (replayKeys (hist.foldl keysStep base) 0) _ hv hd (replayKeys_ordered _)
  set u := undo (hist.map encode)
    ⟨replayKeys (hist.foldl keysStep base) 0, [], (hist.foldl keysStep base).length⟩ with hu
  obtain ⟨hs, hl⟩ := fold_recordInserted
    (fresh_sound (α := K) tableSize unicodeOnly hsize) base
  obtain ⟨-, hl'⟩ := fold_recordInserted
    (fresh_sound (α := DictReplayKey K) tableSize unicodeOnly hsize) u.state
  have ht := hredo _ _ ⟨fold_recordInserted_mirrors stands_entry
    ⟨rfl, List.Forall₂.nil, rfl, rfl, rfl⟩ u.state base hord.stands, hs, hl', hl⟩
  have hx := ht.mirrors.sound stands_entry ht.sound
  have hfin := finishReplay_convertTo _ _ ht.mirrors hx
    (ht.state ▸ replayKeys_known (hist.foldl keysStep base) 0) current
  rw [materialize, hj]
  exact hfin

end history

end Pyrust.DictReplay
