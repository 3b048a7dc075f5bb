import Mathlib.Data.Nat.Bitwise
import Pyrust.DictProbeInvariant
import Pyrust.ReplayOrder
import Pyrust.SetMirror
import Pyrust.SetOps

/-!
# Replaying a set journal

The table of the keys themselves is the common measure: a table of replay
identities is tied to it when every live slot holds the identity of the key
the other table holds there. Each table operation keeps the tie, whether the
identities were handed out by an undo walk or one after another.
-/

set_option autoImplicit false

namespace Pyrust.SetReplay
open Pyrust.DictProbeIndex Pyrust.ReplayOrder
open Pyrust.DictJournal (DictReplayKey)
open Pyrust.SetProbe Pyrust.SetProbeInvariant Pyrust.SetMirror Pyrust.SetOps
open Pyrust.DictProbeInvariant (Distinct distinct_position)

universe u v
variable {K : Type u}

section registration

theorem register_self (hashes : List UInt64) (entry : SetProbeEntry) :
    PySetProbeSnapshot.hashOf (PySetProbeSnapshot.registerEntry hashes entry) entry.replayId =
      entry.pythonHash := by
  have hlt : entry.replayId < hashes.length+(entry.replayId+1-hashes.length) := by omega
  simp [PySetProbeSnapshot.hashOf, PySetProbeSnapshot.registerEntry,
    List.getD_eq_getElem?_getD, hlt]

theorem register_other (hashes : List UInt64) (entry : SetProbeEntry) (id : ℕ)
    (hne : entry.replayId ≠ id) :
    PySetProbeSnapshot.hashOf (PySetProbeSnapshot.registerEntry hashes entry) id =
      PySetProbeSnapshot.hashOf hashes id := by
  simp only [PySetProbeSnapshot.hashOf, PySetProbeSnapshot.registerEntry,
    List.getD_eq_getElem?_getD, List.getElem?_set_ne hne]
  by_cases hlt : id < hashes.length
  · rw [List.getElem?_append_left hlt]
  · rw [List.getElem?_append_right (by omega), List.getElem?_eq_none (l := hashes) (by omega),
      List.getElem?_replicate]
    split <;> rfl

end registration

/-- The key at the position of an identity. -/
def Named (ids : List ℕ) (keys : List K) (id : ℕ) (key : K) : Prop :=
  ∃ i : ℕ, ids[i]? = some id ∧ keys[i]? = some key

theorem named_append (ids : List ℕ) (keys : List K) (id id' : ℕ) (key key' : K)
    (h : Named ids keys id key) : Named (ids++[id']) (keys++[key']) id key := by
  obtain ⟨i, hi, hk⟩ := h
  refine ⟨i, ?_, ?_⟩
  · rw [List.getElem?_append_left (List.getElem?_eq_some_iff.mp hi).1, hi]
  · rw [List.getElem?_append_left (List.getElem?_eq_some_iff.mp hk).1, hk]

theorem named_last (ids : List ℕ) (keys : List K) (id : ℕ) (key : K)
    (hlen : ids.length = keys.length) : Named (ids++[id]) (keys++[key]) id key :=
  ⟨ids.length, by simp, by simp [hlen]⟩

theorem named_append_cases (ids : List ℕ) (keys : List K) (id id' : ℕ) (key key' : K)
    (hlen : ids.length = keys.length) (h : Named (ids++[id']) (keys++[key']) id key) :
    Named ids keys id key ∨ (id = id' ∧ key = key') := by
  obtain ⟨i, hi, hk⟩ := h
  by_cases hlt : i < ids.length
  · rw [List.getElem?_append_left hlt] at hi
    rw [List.getElem?_append_left (by omega)] at hk
    exact Or.inl ⟨i, hi, hk⟩
  · have heq : i = ids.length := by
      have := (List.getElem?_eq_some_iff.mp hi).1
      simp only [List.length_append, List.length_singleton] at this
      omega
    subst heq
    rw [hlen] at hk
    simp only [List.getElem?_concat_length, Option.some.injEq] at hi hk
    exact Or.inr ⟨hi.symm, hk.symm⟩

theorem getElem?_eraseIdx_shift {α : Type v} (l : List α) (p i : ℕ) (hne : i ≠ p) :
    (l.eraseIdx p)[if i < p then i else i-1]? = l[i]? := by
  rw [List.getElem?_eraseIdx]
  by_cases hlt : i < p
  · simp [hlt]
  · have h1 : ¬ i-1 < p := by omega
    have h2 : i-1+1 = i := by omega
    simp [hlt, h1, h2]

theorem named_eraseIdx (ids : List ℕ) (keys : List K) (p i id : ℕ) (key : K) (hne : i ≠ p)
    (hi : ids[i]? = some id) (hk : keys[i]? = some key) :
    Named (ids.eraseIdx p) (keys.eraseIdx p) id key := by
  refine ⟨if i < p then i else i-1, ?_, ?_⟩
  · rw [getElem?_eraseIdx_shift _ _ _ hne, hi]
  · rw [getElem?_eraseIdx_shift _ _ _ hne, hk]

theorem nodup_position (ids : List ℕ) (hn : ids.Nodup) (i j id : ℕ) (hi : ids[i]? = some id)
    (hj : ids[j]? = some id) : i = j := by
  obtain ⟨hlt, -⟩ := List.getElem?_eq_some_iff.mp hi
  exact (List.getElem?_inj hlt hn).mp (hi.trans hj.symm)

/-- The table of the keys, with every key in exactly one slot. -/
structure Holds [DictEntry K] (t : SetTable K) (keys : List K) : Prop where
  sound : Sound pythonHash t
  loaded : Loaded t
  live : t.live.Perm keys

/-- Identities in place of keys, hashes registered for all of them. -/
structure Tied [DictEntry K] (x : PySetProbeSnapshot) (t : SetTable K) (ids : List ℕ)
    (keys : List K) : Prop where
  mirrors : Mirrors (Named ids keys) x.toSetTable t
  holds : Holds t keys
  len : ids.length = keys.length
  nodup : ids.Nodup
  hashes : ∀ id key, Named ids keys id key →
    PySetProbeSnapshot.hashOf x.hashes id = pythonHash key

theorem rel_some {α : Type u} {β : Type v} {R : α → β → Prop} {o : Option α} {b : β}
    (h : Option.Rel R o (some b)) : ∃ a, o = some a ∧ R a b := by
  cases h with
  | some h => exact ⟨_, rfl, h⟩

section table
variable [DictEntry K] {x : PySetProbeSnapshot} {t : SetTable K} {ids : List ℕ} {keys : List K}

theorem tied_insert (h : Tied x t ids keys) (id : ℕ) (key : K) (hfresh : id ∉ ids) :
    ∃ x' t', x.insert ⟨pythonHash key, id⟩ = some x' ∧
      t.insert pythonHash key (pythonHash key) = some t' ∧
      Tied x' t' (ids++[id]) (keys++[key]) := by
  obtain ⟨t', ht, hs, hl, hp⟩ := insert_spec h.holds.sound h.holds.loaded key
  set hashes := PySetProbeSnapshot.registerEntry x.hashes ⟨pythonHash key, id⟩ with hdef
  have hR : ∀ a b, Named (ids++[id]) (keys++[key]) a b →
      PySetProbeSnapshot.hashOf hashes a = pythonHash b := by
    intro a b hab
    rcases named_append_cases ids keys a id b key h.len hab with hold | ⟨rfl, rfl⟩
    · have hne : id ≠ a := by
        rintro rfl
        obtain ⟨i, hi, -⟩ := hold
        exact hfresh (List.mem_of_getElem? hi)
      rw [hdef, register_other _ _ _ hne, h.hashes a b hold]
    · exact register_self _ _
  have hm := insert_mirrors hR
    (h.mirrors.imp (fun _ a b _ _ hab => named_append ids keys a id b key hab))
    id key (named_last ids keys id key h.len) (pythonHash key)
  rw [ht] at hm
  obtain ⟨y, hy, hmy⟩ := rel_some hm
  refine ⟨{ y with hashes := hashes }, t', ?_, ht, ?_⟩
  · simp only [PySetProbeSnapshot.insert, ← hdef, hy, Option.map_some]
  · refine ⟨hmy, ⟨hs, hl, ?_⟩, by simp [h.len], ?_, hR⟩
    · exact hp.trans ((h.holds.live.cons key).trans (List.perm_append_singleton _ _).symm)
    · rw [← List.concat_eq_append, List.nodup_concat]
      exact ⟨hfresh, h.nodup⟩

theorem tied_merge (h : Tied x t ids keys) (n : ℕ) (hn : 0 < n) :
    ∃ x' t', x.prepareMerge n = some x' ∧ t.prepareMerge pythonHash n = some t' ∧
      Tied x' t' ids keys := by
  obtain ⟨t', ht, hs, hl, hp⟩ := prepareMerge_spec h.holds.sound h.holds.loaded n hn
  have hm := prepareMerge_mirrors h.hashes h.mirrors n
  rw [ht] at hm
  obtain ⟨y, hy, hmy⟩ := rel_some hm
  refine ⟨{ y with hashes := x.hashes }, t', ?_, ht, ?_⟩
  · simp only [PySetProbeSnapshot.prepareMerge, hy, Option.map_some]
  · exact ⟨hmy, ⟨hs, hl, hp.trans h.holds.live⟩, h.len, h.nodup, h.hashes⟩

theorem tied_cleanup (h : Tied x t ids keys) :
    ∃ x' t', x.finishDifferenceUpdate = some x' ∧
      t.finishDifferenceUpdate pythonHash = some t' ∧ Tied x' t' ids keys := by
  obtain ⟨t', ht, hs, hl, hp⟩ := finishDifferenceUpdate_spec h.holds.sound h.holds.loaded
  have hm := finishDifferenceUpdate_mirrors h.hashes h.mirrors
  rw [ht] at hm
  obtain ⟨y, hy, hmy⟩ := rel_some hm
  refine ⟨{ y with hashes := x.hashes }, t', ?_, ht, ?_⟩
  · simp only [PySetProbeSnapshot.finishDifferenceUpdate, hy, Option.map_some]
  · exact ⟨hmy, ⟨hs, hl, hp.trans h.holds.live⟩, h.len, h.nodup, h.hashes⟩

variable [BEq K] [EquivBEq K]

omit [DictEntry K] [BEq K] [EquivBEq K] in
theorem live_slot (t : SetTable K) (key : K) (h : key ∈ t.live) : ∃ s, t.slot s = .entry key := by
  obtain ⟨slot, hmem, hpay⟩ := List.mem_filterMap.mp h
  obtain ⟨s, hs, rfl⟩ := List.getElem_of_mem hmem
  refine ⟨s, ?_⟩
  rw [slot_get t s hs]
  revert hpay
  cases t.slots[s] <;> simp [SetSlot.payload]

theorem Holds.distinct_slots (h : Holds t keys) (hd : Distinct keys) (s p : ℕ) (a b : K)
    (hs : t.slot s = .entry a) (hp : t.slot p = .entry b) (he : (b == a) = true) : p = s := by
  have hlive : t.live.Pairwise (fun x y => (x == y) = false) := by
    apply (h.live.pairwise_iff ?_).mpr hd
    intro x y hxy
    rw [Bool.eq_false_iff] at hxy ⊢
    exact fun hyx => hxy (PartialEquivBEq.symm hyx)
  rw [SetTable.live, List.pairwise_filterMap, List.pairwise_iff_getElem] at hlive
  have hsl : s < t.slots.length := slot_lt t s (by simp [hs])
  have hpl : p < t.slots.length := slot_lt t p (by simp [hp])
  rw [slot_get t s hsl] at hs
  rw [slot_get t p hpl] at hp
  rcases lt_trichotomy p s with hlt | heq | hlt
  · have := hlive p s hpl hsl hlt b (by simp [hp, SetSlot.payload]) a (by simp [hs, SetSlot.payload])
    simp [he] at this
  · exact heq
  · have := hlive s p hsl hpl hlt a (by simp [hs, SetSlot.payload]) b (by simp [hp, SetSlot.payload])
    simp [PartialEquivBEq.symm he] at this

omit [DictEntry K] in
theorem named_test (ids : List ℕ) (keys : List K) (p id a : ℕ) (key b : K) (hn : ids.Nodup)
    (hd : Distinct keys) (hi : ids[p]? = some id) (hk : keys[p]? = some key)
    (hab : Named ids keys a b) : (a == id) = (b == key) := by
  obtain ⟨i, ha, hb⟩ := hab
  rw [Bool.eq_iff_iff, beq_iff_eq]
  constructor
  · rintro rfl
    obtain rfl := nodup_position ids hn i p a ha hi
    rw [hb] at hk
    injection hk with hk
    rw [hk]
    exact BEq.refl key
  · intro he
    obtain rfl := distinct_position keys p key hd hk i b hb he
    rw [ha] at hi
    exact Option.some.inj hi

theorem tied_remove (h : Tied x t ids keys) (hd : Distinct keys) (p id : ℕ) (key : K)
    (hi : ids[p]? = some id) (hk : keys[p]? = some key) :
    ∃ x' t', x.remove (pythonHash key) id = some x' ∧
      t.remove (fun stored => stored == key) (pythonHash key) = some t' ∧
      Tied x' t' (ids.eraseIdx p) (keys.eraseIdx p) := by
  obtain ⟨s, hs⟩ := live_slot t key (h.holds.live.mem_iff.mpr (List.mem_of_getElem? hk))
  have huniq : ∀ q b, t.slot q = .entry b → (b == key) = true → q = s :=
    fun q b hq he => h.holds.distinct_slots hd s q key b hs hq he
  obtain ⟨t', ht, hset, hsound, hload, hperm⟩ := remove_spec h.holds.sound h.holds.loaded
    (fun stored => stored == key) s key hs (BEq.refl key) huniq
  have hnamed : ∀ q a b, x.slot q = .entry a → t.slot q = .entry b → Named ids keys a b := by
    intro q a b ha hb
    have hq := h.mirrors.slot q
    rw [ha, hb] at hq
    cases hq with
    | entry hab => exact hab
  have hm := remove_mirrors h.mirrors (fun stored => stored == id) (fun stored => stored == key)
    (pythonHash key) (fun q a b ha hb =>
      named_test ids keys p id a key b h.nodup hd hi hk (hnamed q a b ha hb))
  rw [ht] at hm
  obtain ⟨y, hy, hmy⟩ := rel_some hm
  have hlt : s < t.size := slot_lt t s (by simp [hs])
  refine ⟨{ y with hashes := x.hashes }, t', ?_, ht, ?_, ?_, ?_, ?_, ?_⟩
  · simp only [PySetProbeSnapshot.remove, hy, Option.map_some]
  · apply hmy.imp
    rintro q a b - hb ⟨i, hia, hib⟩
    -- the removed key is in no slot of the new table
    have hne : i ≠ p := by
      rintro rfl
      rw [hib] at hk
      injection hk with hk
      subst hk
      have hat : t'.slot q = if s = q then .dummy else t.slot q := by
        rw [hset]
        exact getD_set _ _ _ _ hlt
      rw [hat] at hb
      split at hb
      · simp at hb
      · rename_i hsq
        exact hsq (huniq q b hb (BEq.refl b)).symm
    exact named_eraseIdx ids keys p i a b hne hia hib
  · refine ⟨hsound, hload, ?_⟩
    obtain ⟨hp, hkp⟩ := List.getElem?_eq_some_iff.mp hk
    have hcons := List.getElem_cons_eraseIdx_perm hp
    rw [hkp] at hcons
    exact (hperm.symm.trans (h.holds.live.trans hcons.symm)).cons_inv
  · simp [List.length_eraseIdx, h.len]
  · exact h.nodup.sublist (List.eraseIdx_sublist _ _)
  · intro a b hab
    obtain ⟨i, hia, hib⟩ := hab
    apply h.hashes a b
    rw [List.getElem?_eraseIdx] at hia hib
    by_cases hip : i < p
    · exact ⟨i, by simpa [hip] using hia, by simpa [hip] using hib⟩
    · exact ⟨i+1, by simpa [hip] using hia, by simpa [hip] using hib⟩

end table

inductive Mutation (K : Type u) where
  | insert (key : K)
  | remove (position : ℕ) (key : K)
  | merge (additionalUsed : UInt64)
  | differenceCleanup

def keysStep (keys : List K) : Mutation K → List K
  | .insert key => keys++[key]
  | .remove p _ => keys.eraseIdx p
  | .merge _ => keys
  | .differenceCleanup => keys

section history
variable [DictEntry K]

def encode : Mutation K → SetDeferredMutation
  | .insert _ => SetDeferredMutation.inserted
  | .remove p key => SetDeferredMutation.removedHash p (pythonHash key)
  | .merge n => SetDeferredMutation.merge n
  | .differenceCleanup => SetDeferredMutation.differenceCleanup

theorem removedHash_kind (p : ℕ) (hash : UInt64) :
    (SetDeferredMutation.removedHash p hash).kind = setMutationRemove := by
  have h3 : ∀ n : ℕ, n &&& 3 = n%4 := fun n => Nat.and_two_pow_sub_one_eq_mod n 2
  have hor : p <<< 2 ||| 1 = p*4+1 := by
    rw [← Nat.shiftLeft_add_eq_or_of_lt (by decide), Nat.shiftLeft_eq]
  simp only [SetDeferredMutation.kind, SetDeferredMutation.removedHash, h3, setMutationRemove, hor]
  omega

theorem removedHash_position (p : ℕ) (hash : UInt64) :
    (SetDeferredMutation.removedHash p hash).position = p := by
  have hor : p <<< 2 ||| 1 = p*4+1 := by
    rw [← Nat.shiftLeft_add_eq_or_of_lt (by decide), Nat.shiftLeft_eq]
  simp only [SetDeferredMutation.position, SetDeferredMutation.removedHash, setMutationRemove, hor,
    Nat.shiftRight_eq_div_pow]
  omega

def HashStands (r : DictReplayKey K) (key : K) : Prop := r.pythonHash = pythonHash key

theorem setReplayKeys_eq (keys : List K) (id : ℕ) :
    setReplayKeys keys id =
      (keys.zipIdx id).map (fun key => ⟨some key.1, pythonHash key.1, false, key.2⟩) := by
  induction keys generalizing id with
  | nil => rfl
  | cons key keys ih => rw [setReplayKeys, ih, List.zipIdx_cons, List.map_cons]

theorem setReplayKeys_ids (keys : List K) :
    (setReplayKeys keys 0).map DictReplayKey.replayId = List.range keys.length := by
  rw [setReplayKeys_eq, List.map_map, List.range_eq_range', ← List.zipIdx_map_snd 0 keys]
  rfl

theorem setReplayKeys_length (keys : List K) (id : ℕ) :
    (setReplayKeys keys id).length = keys.length := by
  simp [setReplayKeys_eq]

theorem setReplayKeys_stands (keys : List K) (id : ℕ) :
    List.Forall₂ HashStands (setReplayKeys keys id) keys := by
  induction keys generalizing id with
  | nil => exact List.Forall₂.nil
  | cons key keys ih => exact List.Forall₂.cons rfl (ih (id+1))

theorem setReplayKeys_ordered (keys : List K) :
    Ordered HashStands DictReplayKey.replayId (setReplayKeys keys 0) keys keys.length := by
  refine ⟨setReplayKeys_stands keys 0, ?_, ?_⟩
  · rw [setReplayKeys_ids]
    exact List.nodup_range
  · intro r hr
    have hm := List.mem_map_of_mem (f := DictReplayKey.replayId) hr
    rw [setReplayKeys_ids] at hm
    exact List.mem_range.mp hm

/-- Entering a list of replay keys, each under its own identity. -/
theorem tied_enter {x : PySetProbeSnapshot} {t : SetTable K} {ids : List ℕ} {keys : List K}
    (state : List (DictReplayKey K)) (more : List K) (h : Tied x t ids keys)
    (hs : List.Forall₂ HashStands state more)
    (hn : (ids++state.map DictReplayKey.replayId).Nodup) :
    ∃ x' t', state.foldlM insertReplay x = some x' ∧
      more.foldlM (fun t key => t.insert pythonHash key (pythonHash key)) t = some t' ∧
      Tied x' t' (ids++state.map DictReplayKey.replayId) (keys++more) := by
  induction hs generalizing x t ids keys with
  | nil => exact ⟨x, t, rfl, rfl, by simpa using h⟩
  | @cons r key state more hr _ ih =>
    have hfresh : r.replayId ∉ ids := by
      intro hmem
      exact (List.nodup_append.mp hn).2.2 _ hmem r.replayId (by simp) rfl
    obtain ⟨x1, t1, hx1, ht1, h1⟩ := tied_insert h r.replayId key hfresh
    obtain ⟨x2, t2, hx2, ht2, h2⟩ := ih h1 (by simpa using hn)
    rw [← hr] at hx1
    refine ⟨x2, t2, ?_, ?_, by simpa using h2⟩
    · rw [List.foldlM_cons, insertReplay, hx1]
      exact hx2
    · rw [List.foldlM_cons, ht1]
      exact ht2

theorem fresh_tied (size : ℕ) (hsize : ∃ k, max size setProbeMinsize = 2^k) :
    Tied (PySetProbeSnapshot.withTableSize size) (SetTable.withTableSize size : SetTable K)
      [] [] := by
  obtain ⟨k, hk⟩ := hsize
  have hs : Sound pythonHash (SetTable.withTableSize size : SetTable K) :=
    fresh_sound _ k hk (le_max_right _ _)
  refine ⟨⟨?_, rfl, rfl⟩, ⟨hs, ?_, ?_⟩, rfl, List.nodup_nil, ?_⟩
  · exact forall₂_empty _
  · have := hs.minSize
    simp only [Loaded, SetTable.withTableSize] at this ⊢
    omega
  · rw [SetTable.withTableSize, fresh_live]
  · rintro id key ⟨i, hi, -⟩
    simp at hi

variable [BEq K]

def tableStep (t : SetTable K) : Mutation K → Option (SetTable K)
  | .insert key => t.insert pythonHash key (pythonHash key)
  | .remove _ key => t.remove (fun stored => stored == key) (pythonHash key)
  | .merge n => t.prepareMerge pythonHash n.toNat
  | .differenceCleanup => t.finishDifferenceUpdate pythonHash

/-- The mutation is one the set can perform on these keys. -/
def Valid (keys : List K) : Mutation K → Prop
  | .insert key => ∀ stored ∈ keys, (stored == key) = false
  | .remove p key => keys[p]? = some key
  | .merge n => n ≠ 0
  | .differenceCleanup => True

def ValidAlong : List (Mutation K) → List K → Prop
  | [], _ => True
  | m::hist, keys => Valid keys m ∧ ValidAlong hist (keysStep keys m)

omit [DictEntry K] in
theorem keysStep_distinct (keys : List K) (m : Mutation K) (hd : Distinct keys)
    (hv : Valid keys m) : Distinct (keysStep keys m) := by
  cases m with
  | insert key =>
    rw [Distinct, keysStep, List.pairwise_append]
    refine ⟨hd, List.pairwise_singleton _ _, ?_⟩
    intro x hx y hy
    rw [List.mem_singleton.mp hy]
    exact hv x hx
  | remove p key => exact hd.sublist (List.eraseIdx_sublist _ _)
  | merge n => exact hd
  | differenceCleanup => exact hd

omit [DictEntry K] [BEq K] in
theorem redo_cons (x x1 x2 : PySetProbeSnapshot) (m : SetDeferredMutation)
    (k : Option (DictReplayKey K) × Option ℕ) (ms : List SetDeferredMutation)
    (ks : List (Option (DictReplayKey K) × Option ℕ)) (h1 : redoStep x (m, k) = some x1)
    (h2 : (ms.zip ks).foldlM redoStep x1 = some x2) :
    ((m::ms).zip (k::ks)).foldlM redoStep x = some x2 := by
  rw [List.zip_cons_cons, List.foldlM_cons, h1]
  exact h2

theorem history_cons (t t1 t2 : SetTable K) (m : Mutation K) (hist : List (Mutation K))
    (h1 : tableStep t m = some t1) (h2 : hist.foldlM tableStep t1 = some t2) :
    (m::hist).foldlM tableStep t = some t2 := by
  rw [List.foldlM_cons, h1]
  exact h2

/-- Redoing an undone history retraces its orders; no step of it fails. -/
theorem redo_undo [EquivBEq K] (hist : List (Mutation K)) (keys : List K)
    (last : List (DictReplayKey K)) (next : ℕ) (hv : ValidAlong hist keys) (hd : Distinct keys)
    (ho : Ordered HashStands DictReplayKey.replayId last (hist.foldl keysStep keys) next)
    (u : SetUndone K)
    (hu : u = (hist.map encode).foldr undoStep { state := last, nextReplayId := next }) :
    Ordered HashStands DictReplayKey.replayId u.state keys u.nextReplayId ∧
    ∀ x t, Tied x t (u.state.map DictReplayKey.replayId) keys →
      ∃ x' t', ((hist.map encode).zip u.known).foldlM redoStep x = some x' ∧
        hist.foldlM tableStep t = some t' ∧
        Tied x' t' (last.map DictReplayKey.replayId) (hist.foldl keysStep keys) := by
  induction hist generalizing keys u with
  | nil =>
    subst hu
    exact ⟨ho, fun x t h => ⟨x, t, rfl, rfl, h⟩⟩
  | cons m hist ih =>
    obtain ⟨hord, hredo⟩ :=
      ih (keysStep keys m) hv.2 (keysStep_distinct keys m hd hv.1) ho _ rfl
    set w := (hist.map encode).foldr undoStep { state := last, nextReplayId := next }
    have huw : u = undoStep (encode m) w := hu
    subst huw
    cases m with
    | insert key =>
      obtain ⟨front, r, hstate, hr, hfront⟩ := undo_insert w.state keys key w.nextReplayId hord
      have hstep : undoStep (encode (.insert key)) w =
          ⟨front, (some r, none)::w.known, w.nextReplayId⟩ := by
        simp [undoStep, encode, SetDeferredMutation.kind, SetDeferredMutation.inserted,
          setMutationInsert, hstate]
      rw [hstep]
      refine ⟨hfront, ?_⟩
      intro x t h
      have hfresh : r.replayId ∉ front.map DictReplayKey.replayId := by
        have hn := hord.nodup
        rw [hstate, List.map_append, List.map_singleton, ← List.concat_eq_append,
          List.nodup_concat] at hn
        exact hn.1
      obtain ⟨x1, t1, hx1, ht1, h1⟩ := tied_insert h r.replayId key hfresh
      obtain ⟨x2, t2, hx2, ht2, h2⟩ := hredo x1 t1 (by simpa [hstate, keysStep] using h1)
      refine ⟨x2, t2, redo_cons x x1 x2 _ _ _ _ ?_ hx2, history_cons t t1 t2 _ hist ht1 ht2, h2⟩
      rw [← hx1, ← hr]
      simp [redoStep, encode, SetDeferredMutation.kind, SetDeferredMutation.inserted,
        setMutationInsert, insertReplay]
    | remove p key =>
      have hkind : (encode (.remove p key)).kind = setMutationRemove := removedHash_kind p _
      have hpos : (encode (.remove p key)).position = p := removedHash_position p _
      have hhash : (encode (.remove p key)).pythonHash = pythonHash key := rfl
      set r : DictReplayKey K := ⟨none, pythonHash key, false, w.nextReplayId⟩
      obtain ⟨hback, hp⟩ := undo_remove w.state keys p key w.nextReplayId r hv.1 rfl rfl hord
      have hstep : undoStep (encode (.remove p key)) w = ⟨w.state.insertIdx p r,
          (none, some w.nextReplayId)::w.known, w.nextReplayId+1⟩ := by
        simp [undoStep, hkind, hpos, hhash, setMutationInsert, setMutationRemove, r]
      rw [hstep]
      refine ⟨hback, ?_⟩
      intro x t h
      have hget : (w.state.insertIdx p r)[p]? = some r := by
        simp [List.getElem?_insertIdx, hp]
      have hid : ((w.state.insertIdx p r).map DictReplayKey.replayId)[p]? =
          some w.nextReplayId := by
        rw [List.getElem?_map, hget]
        rfl
      obtain ⟨x1, t1, hx1, ht1, h1⟩ := tied_remove h hd p w.nextReplayId key hid hv.1
      obtain ⟨x2, t2, hx2, ht2, h2⟩ := hredo x1 t1 (by
        rw [List.eraseIdx_map, List.eraseIdx_insertIdx_self] at h1
        exact h1)
      refine ⟨x2, t2, redo_cons x x1 x2 _ _ _ _ ?_ hx2, history_cons t t1 t2 _ hist ht1 ht2, h2⟩
      rw [← hx1]
      simp [redoStep, hkind, hhash, setMutationInsert, setMutationRemove]
    | merge n =>
      have hn : 0 < n.toNat := by
        rw [Nat.pos_iff_ne_zero]
        intro h0
        exact hv.1 (UInt64.toNat_inj.mp h0)
      have hkind : (encode (K := K) (.merge n)).kind = setMutationMerge := by
        simp [encode, SetDeferredMutation.kind, SetDeferredMutation.merge, setMutationMerge]
      have hhash : (encode (K := K) (.merge n)).pythonHash = n := rfl
      have hstep : undoStep (encode (K := K) (.merge n)) w =
          ⟨w.state, (none, none)::w.known, w.nextReplayId⟩ := by
        simp [undoStep, hkind, setMutationInsert, setMutationRemove, setMutationMerge]
      rw [hstep]
      refine ⟨hord, ?_⟩
      intro x t h
      obtain ⟨x1, t1, hx1, ht1, h1⟩ := tied_merge h n.toNat hn
      obtain ⟨x2, t2, hx2, ht2, h2⟩ := hredo x1 t1 h1
      refine ⟨x2, t2, redo_cons x x1 x2 _ _ _ _ ?_ hx2, history_cons t t1 t2 _ hist ht1 ht2, h2⟩
      rw [← hx1]
      simp [redoStep, hkind, hhash, setMutationInsert, setMutationRemove, setMutationMerge]
    | differenceCleanup =>
      have hkind : (encode (K := K) .differenceCleanup).kind = setMutationDifferenceCleanup := by
        simp [encode, SetDeferredMutation.kind, SetDeferredMutation.differenceCleanup,
          setMutationDifferenceCleanup]
      have hstep : undoStep (encode (K := K) .differenceCleanup) w =
          ⟨w.state, (none, none)::w.known, w.nextReplayId⟩ := by
        simp [undoStep, hkind, setMutationInsert, setMutationRemove, setMutationDifferenceCleanup]
      rw [hstep]
      refine ⟨hord, ?_⟩
      intro x t h
      obtain ⟨x1, t1, hx1, ht1, h1⟩ := tied_cleanup h
      obtain ⟨x2, t2, hx2, ht2, h2⟩ := hredo x1 t1 h1
      refine ⟨x2, t2, redo_cons x x1 x2 _ _ _ _ ?_ hx2, history_cons t t1 t2 _ hist ht1 ht2, h2⟩
      rw [← hx1]
      simp [redoStep, hkind, setMutationInsert, setMutationRemove, setMutationMerge,
        setMutationDifferenceCleanup]

end history

end Pyrust.SetReplay
