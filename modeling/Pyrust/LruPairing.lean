import Mathlib.Data.List.Perm.Basic
import Pyrust.LruCache

/-!
# The links and the dict of a cache wrapper

The walk of the links and the cache dict hold the same keys under the same
slots. A step keeps this unless an insertion goes on in a dict that a clear
has replaced while its key was looked up again.
-/

set_option autoImplicit false

namespace Pyrust.LruPairing
open Pyrust.RecencyList Pyrust.LruCache

universe u v

section pairing
variable {K : Type u} {V : Type v} [BEq K]

/-- The dict and the links hold the same keys, each entry with the slot of its node. -/
structure Paired (dict : CacheDict K V) (links : LruLinks K) (order : List (ℕ × K)) : Prop where
  linked : Linked links order
  keys : (dict.map fun entry => (entry.2.nodeId, entry.1)).Perm
    (order.map fun node => (some node.1, node.2))
  apart : dict.Pairwise fun a b => (a.1 == b.1) = false

variable {dict : CacheDict K V} {links : LruLinks K} {order : List (ℕ × K)}

omit [BEq K] in
theorem length_keys (h : (dict.map fun entry => (entry.2.nodeId, entry.1)).Perm
    (order.map fun node => (some node.1, node.2))) : dict.length = order.length := by
  have hlength := h.length_eq
  rwa [List.length_map, List.length_map] at hlength

theorem holds_false {key : K} (h : holds dict key = false) :
    ∀ entry ∈ dict, (entry.1 == key) = false := by
  rw [holds, List.any_eq_false] at h
  exact fun entry he => Bool.eq_false_iff.mpr (h entry he)

theorem insertEntry_new {key : K} (h : holds dict key = false) (entry : CacheEntry V) :
    insertEntry dict key entry = dict ++ [(key, entry)] := by
  rw [insertEntry, h]
  rfl

theorem swapRemove_perm [ReflBEq K] {pre post : CacheDict K V} {key : K} {entry : CacheEntry V}
    (hpre : ∀ stored ∈ pre, (stored.1 == key) = false) :
    (swapRemove (pre ++ (key, entry)::post) key).Perm (pre ++ post) := by
  have hfind : (pre ++ (key, entry)::post).findIdx? (fun stored => stored.1 == key) =
      some pre.length := by
    rw [List.findIdx?_append, List.findIdx?_eq_none_iff.mpr hpre, List.findIdx?_cons,
      if_pos (BEq.refl key)]
    simp
  rw [swapRemove, hfind, List.getLast?_append_cons]
  rcases List.eq_nil_or_concat post with rfl | ⟨init, last, rfl⟩
  · simp
  · have hlast : ((key, entry)::(init ++ [last])).getLast? = some last := by
      rw [← List.cons_append, List.getLast?_concat]
    rw [List.concat_eq_append, hlast]
    have hset : (pre ++ (key, entry)::(init ++ [last])).set pre.length last =
        pre ++ last::init ++ [last] := by simp
    dsimp only
    rw [hset, List.dropLast_concat]
    exact (List.perm_append_singleton last init).symm.append_left pre

/-- The least recently used node leaves with its entry. -/
theorem Paired.pop [EquivBEq K] {i : ℕ} {key : K} {post : List (ℕ × K)}
    (h : Paired dict links ((i, key)::post)) :
    (popLru links).1 = some key ∧ Paired (swapRemove dict key) (popLru links).2 post ∧
      ∃ entry, dict.Perm ((key, entry)::swapRemove dict key) := by
  obtain ⟨hpopped, hlinked⟩ := popLru_linked h.linked
  have hmem : (some i, key) ∈ dict.map fun entry => (entry.2.nodeId, entry.1) :=
    h.keys.mem_iff.mpr (.head _)
  obtain ⟨⟨key', entry⟩, hentry, heq⟩ := List.mem_map.mp hmem
  obtain ⟨hid, rfl⟩ : entry.nodeId = some i ∧ key' = key := Prod.mk.inj heq
  obtain ⟨pre, rest, rfl⟩ := List.append_of_mem hentry
  have hpre : ∀ stored ∈ pre, (stored.1 == key') = false :=
    fun stored hs => (List.pairwise_append.mp h.apart).2.2 stored hs _ (.head _)
  have hremoved : (swapRemove (pre ++ (key', entry)::rest) key').Perm (pre ++ rest) :=
    swapRemove_perm hpre
  refine ⟨hpopped, ⟨hlinked, ?_, ?_⟩, entry, ?_⟩
  · refine (hremoved.map _).trans (List.Perm.cons_inv (a := (some i, key')) ?_)
    refine List.Perm.trans ?_ h.keys
    simp only [List.map_append, List.map_cons, hid]
    exact List.perm_middle.symm
  · have hsymm : ∀ a b : K × CacheEntry V, (a.1 == b.1) = false → (b.1 == a.1) = false :=
      fun a b hab => by rw [BEq.comm]; exact hab
    rw [hremoved.pairwise_iff fun {a b} => hsymm a b]
    exact h.apart.sublist (List.Sublist.append_left (List.sublist_cons_self _ _) _)
  · exact List.perm_middle.trans (hremoved.symm.cons _)

theorem Paired.push {key : K} (h : Paired dict links order) (hnew : holds dict key = false)
    (value : V) :
    Paired (insertEntry dict key ⟨value, some (insertMru links key).1⟩) (insertMru links key).2
      (order ++ [((insertMru links key).1, key)]) := by
  rw [insertEntry_new hnew]
  refine ⟨insertMru_linked h.linked key, ?_, ?_⟩
  · rw [List.map_append, List.map_append]
    exact h.keys.append_right _
  · rw [List.pairwise_append]
    refine ⟨h.apart, List.pairwise_singleton _ _, fun stored hs entry he => ?_⟩
    rw [List.mem_singleton.mp he]
    exact holds_false hnew stored hs

theorem Paired.promote (h : Paired dict links order) (i : ℕ) :
    ∃ order', Paired dict (promote links i) order' := by
  obtain ⟨order', hlinked, hperm⟩ := promote_any h.linked i
  exact ⟨order', hlinked, h.keys.trans (hperm.symm.map _), h.apart⟩

/-! ## One insertion -/

omit [BEq K] in
@[simp] theorem setDict_cache (s : Wrapper K V) (cache : ℕ) (dict : CacheDict K V) :
    (setDict s cache dict).cache = s.cache := rfl

omit [BEq K] in
@[simp] theorem setDict_links (s : Wrapper K V) (cache : ℕ) (dict : CacheDict K V) :
    (setDict s cache dict).links = s.links := rfl

omit [BEq K] in
@[simp] theorem setDict_length (s : Wrapper K V) (cache : ℕ) (dict : CacheDict K V) :
    (setDict s cache dict).dicts.length = s.dicts.length := List.length_set

omit [BEq K] in
theorem dictAt_setDict (s : Wrapper K V) {cache : ℕ} (h : cache < s.dicts.length)
    (dict : CacheDict K V) : dictAt (setDict s cache dict) cache = dict := by
  rw [dictAt, setDict, List.getElem?_set_self h]
  rfl

/-- A full cache gives up the head of its walk. -/
theorem evict_full [EquivBEq K] {m : ℕ} {s : Wrapper K V} {i : ℕ} {key : K}
    {post : List (ℕ × K)} (h : Paired (dictAt s s.cache) s.links ((i, key)::post))
    (hfull : m ≤ (dictAt s s.cache).length) :
    evict m s s.cache = (some key, setDict { s with links := (popLru s.links).2 } s.cache
      (swapRemove (dictAt s s.cache) key)) := by
  have hpopped := (h.pop).1
  rw [evict, if_pos hfull]
  generalize popLru s.links = popped at *
  obtain ⟨evicted, links⟩ := popped
  dsimp only at hpopped
  rw [hpopped]

/-- An insertion into the cache that the wrapper still has. -/
theorem insertCache_paired [EquivBEq K] {m : ℕ} (hm : 0 < m) {s : Wrapper K V}
    (hlive : s.cache < s.dicts.length) (h : Paired (dictAt s s.cache) s.links order)
    (hbounded : (dictAt s s.cache).length ≤ m) {key : K}
    (hnew : holds (dictAt s s.cache) key = false) (value : V) :
    ∃ evicted nodeId links kept order' values, insertCache (some m) s s.cache key value =
        (evicted, { s with
          links := links, dicts := s.dicts.set s.cache (kept ++ [(key, ⟨value, some nodeId⟩)]) }) ∧
      Paired (kept ++ [(key, ⟨value, some nodeId⟩)]) links (order' ++ [(nodeId, key)]) ∧
      kept.length < m ∧ order = (values : List (ℕ × K)) ++ order' ∧
      values.map Prod.snd = evicted.toList ∧
      (∃ gone : CacheDict K V, (dictAt s s.cache).Perm (gone ++ kept) ∧
        gone.map Prod.fst = evicted.toList) ∧
      (evicted = none ↔ (dictAt s s.cache).length < m) := by
  rw [insertCache]
  by_cases hfull : m ≤ (dictAt s s.cache).length
  · cases order with
    | nil =>
      have hlength := length_keys h.keys
      rw [List.length_nil] at hlength
      omega
    | cons node post =>
      obtain ⟨i, evicted⟩ := node
      obtain ⟨-, hpaired, entry, hperm⟩ := h.pop
      rw [evict_full h hfull]
      dsimp only
      have hkept : holds (swapRemove (dictAt s s.cache) evicted) key = false := by
        rw [holds, List.any_eq_false]
        exact fun stored hs => Bool.eq_false_iff.mp
          (holds_false hnew stored (hperm.mem_iff.mpr (.tail _ hs)))
      have hpushed := hpaired.push hkept value
      rw [insertEntry_new hkept] at hpushed
      refine ⟨some evicted, _, _, swapRemove (dictAt s s.cache) evicted, post,
        [(i, evicted)], ?_, hpushed, ?_, rfl, rfl, ⟨[(evicted, entry)], hperm, rfl⟩, ?_⟩
      · rw [dictAt_setDict { s with links := (popLru s.links).2 } hlive, insertEntry_new hkept]
        simp only [setDict, List.set_set]
      · have hlength := hperm.length_eq
        rw [List.length_cons] at hlength
        omega
      · simp [hfull]
  · rw [evict, if_neg hfull]
    dsimp only
    have hpushed := h.push hnew value
    rw [insertEntry_new hnew] at hpushed
    refine ⟨none, _, _, dictAt s s.cache, order, [], ?_, hpushed, by omega, rfl, rfl,
      ⟨[], .refl _, rfl⟩, ?_⟩
    · rw [insertEntry_new hnew]
      rfl
    · simp only [true_iff]
      omega

/-! ## Steps and runs -/

/-- No insertion goes on in a dict that was replaced while its key was looked up again. -/
def Steady (s : Wrapper K V) : Event K V → Prop
  | .looked none =>
    match s.stack with
    | .rechecking _ _ cache _::_ => cache = s.cache
    | _ => True
  | _ => True

instance : ∀ (s : Wrapper K V) (event : Event K V), Decidable (Steady s event)
  | s, .looked none =>
    match h : s.stack with
    | .rechecking _ _ cache _::_ => decidable_of_iff (cache = s.cache) (by simp [Steady, h])
    | [] => .isTrue (by simp [Steady, h])
    | .hashing::_ => .isTrue (by simp [Steady, h])
    | .probing _ _::_ => .isTrue (by simp [Steady, h])
    | .calling _ _::_ => .isTrue (by simp [Steady, h])
    | .passing _::_ => .isTrue (by simp [Steady, h])
  | _, .looked (some _) => .isTrue trivial
  | _, .call => .isTrue trivial
  | _, .clear => .isTrue trivial
  | _, .hashed _ => .isTrue trivial
  | _, .returned _ => .isTrue trivial
  | _, .raised => .isTrue trivial

/-- A wrapper of size `m` between two steps. -/
structure Sound (m : ℕ) (s : Wrapper K V) : Prop where
  live : s.cache < s.dicts.length
  paired : ∃ order, Paired (dictAt s s.cache) s.links order
  bounded : (dictAt s s.cache).length ≤ m
  passing : m = 0 → ∀ frame ∈ s.stack, ∃ counted, frame = .passing counted

theorem fresh_sound (m : ℕ) : Sound m ({} : Wrapper K V) where
  live := Nat.one_pos
  paired := ⟨[], empty_linked, .refl _, .nil⟩
  bounded := Nat.zero_le m
  passing := fun _ _ h => absurd h List.not_mem_nil

variable {m : ℕ} {s s' : Wrapper K V}

/-- A step that leaves the cache and the links as they are. -/
theorem Sound.same (h : Sound m s) (hdicts : s'.dicts = s.dicts) (hcache : s'.cache = s.cache)
    (hlinks : s'.links = s.links)
    (hstack : m = 0 → ∀ frame ∈ s'.stack, ∃ counted, frame = .passing counted) : Sound m s' where
  live := by
    rw [hdicts, hcache]
    exact h.live
  paired := by
    rw [dictAt, hdicts, hcache, hlinks]
    exact h.paired
  bounded := by
    rw [dictAt, hdicts, hcache]
    exact h.bounded
  passing := hstack

theorem Sound.of_dict (hlive : s.cache < s.dicts.length) (hdict : dictAt s s.cache = dict)
    (h : Paired dict s.links order) (hbounded : dict.length ≤ m)
    (hstack : m = 0 → ∀ frame ∈ s.stack, ∃ counted, frame = .passing counted) : Sound m s := by
  subst hdict
  exact ⟨hlive, ⟨order, h⟩, hbounded, hstack⟩

/-- In a wrapper of size 0 every call passes through. -/
theorem Sound.positive (h : Sound m s) {top : Frame K V} {stack : List (Frame K V)}
    (hstack : s.stack = top::stack) (htop : ∀ counted, top ≠ .passing counted) : 0 < m := by
  by_contra hm
  obtain ⟨counted, hpassing⟩ := h.passing (by omega) top (by simp [hstack])
  exact htop counted hpassing

theorem Sound.tail (h : Sound m s) {top : Frame K V} {stack : List (Frame K V)}
    (hstack : s.stack = top::stack) :
    m = 0 → ∀ frame ∈ stack, ∃ counted, frame = .passing counted :=
  fun hm other hother => h.passing hm other (by simp [hstack, hother])

theorem hit_sound (h : Sound m s) {stack : List (Frame K V)}
    (hstack : m = 0 → ∀ frame ∈ stack, ∃ counted, frame = .passing counted) (key : K)
    (entry : CacheEntry V) : Sound m (hit (some m) s stack key entry) := by
  rw [hit]
  split
  · exact h.same rfl rfl rfl hstack
  · rename_i value nodeId hdecoded
    refine ⟨h.live, ?_, h.bounded, hstack⟩
    obtain ⟨order, hpaired⟩ := h.paired
    cases nodeId with
    | none => exact ⟨order, hpaired⟩
    | some nodeId =>
      show ∃ order, Paired (dictAt s s.cache)
        (if some m = some 1 then s.links else RecencyList.promote s.links nodeId) order
      split
      · exact ⟨order, hpaired⟩
      · exact hpaired.promote nodeId

theorem insertCache_sound [EquivBEq K] (hm : 0 < m) (h : Sound m s) {key : K}
    (hnew : holds (dictAt s s.cache) key = false) (value : V) (stack : List (Frame K V))
    (call : Completion K V) :
    Sound m (complete (insertCache (some m) s s.cache key value).2 stack call) := by
  obtain ⟨order, hpaired⟩ := h.paired
  obtain ⟨evicted, nodeId, links, kept, order', values, hinsert, hpushed, hlength, -⟩ :=
    insertCache_paired hm h.live hpaired h.bounded hnew value
  rw [hinsert]
  refine .of_dict ?_ (dictAt_setDict s h.live (kept ++ [(key, ⟨value, some nodeId⟩)]) :) hpushed ?_
    fun hzero => absurd hzero hm.ne'
  · simpa [complete] using h.live
  · rw [List.length_append]
    exact hlength

theorem lookedUp_sound [EquivBEq K] (h : Sound m s) {found : Option ℕ}
    (hsteady : Steady s (.looked found)) (hstep : lookedUp (some m) s found = some s') :
    Sound m s' := by
  rw [lookedUp] at hstep
  split at hstep
  · rename_i key cache stack hstack
    have hm := h.positive hstack (by simp)
    cases found with
    | some i =>
      obtain ⟨stored, -, rfl⟩ := Option.map_eq_some_iff.mp hstep
      exact hit_sound h (h.tail hstack) key stored.2
    | none =>
      dsimp only at hstep
      split at hstep
      · exact absurd hstep (by simp)
      · obtain rfl := Option.some.inj hstep
        exact h.same rfl rfl rfl fun hzero => absurd hzero hm.ne'
  · rename_i key value cache counted stack hstack
    have hm := h.positive hstack (by simp)
    cases found with
    | some i =>
      obtain ⟨stored, -, rfl⟩ := Option.map_eq_some_iff.mp hstep
      exact h.same rfl rfl rfl (h.tail hstack)
    | none =>
      obtain rfl : cache = s.cache := by simpa [Steady, hstack] using hsteady
      dsimp only at hstep
      split at hstep
      · exact absurd hstep (by simp)
      · rename_i hnew
        obtain rfl := Option.some.inj hstep
        exact insertCache_sound hm h (Bool.eq_false_iff.mpr hnew) value stack _
  · exact absurd hstep (by simp)

theorem step_sound [EquivBEq K] (event : Event K V) (h : Sound m s) (hsteady : Steady s event)
    (hstep : step (some m) s event = some s') : Sound m s' := by
  cases event with
  | call =>
    simp only [step, Option.some.injEq] at hstep
    split at hstep
    · obtain rfl := Option.some.inj hstep
      refine h.same rfl rfl rfl fun hm frame hframe => ?_
      rcases List.mem_cons.mp hframe with rfl | hframe
      · exact ⟨_, rfl⟩
      · exact h.passing hm frame hframe
    · rename_i hm
      obtain rfl := Option.some.inj hstep
      exact h.same rfl rfl rfl fun hzero => absurd hzero hm
  | clear =>
    obtain rfl := Option.some.inj hstep
    have hempty : (s.dicts ++ [[]])[s.dicts.length]?.getD ([] : CacheDict K V) = [] := by simp
    refine ⟨by simp, ⟨[], ?_⟩, ?_, h.passing⟩
    · show Paired ((s.dicts ++ [[]])[s.dicts.length]?.getD []) {} []
      rw [hempty]
      exact ⟨empty_linked, .refl _, .nil⟩
    · show ((s.dicts ++ [[]])[s.dicts.length]?.getD []).length ≤ m
      rw [hempty]
      exact Nat.zero_le m
  | hashed key =>
    rw [step] at hstep
    split at hstep
    · rename_i stack hstack
      obtain rfl := Option.some.inj hstep
      have hm := h.positive hstack (by simp)
      exact h.same rfl rfl rfl fun hzero => absurd hzero hm.ne'
    · exact absurd hstep (by simp)
  | looked found => exact lookedUp_sound h hsteady hstep
  | returned value =>
    rw [step] at hstep
    split at hstep
    · rename_i key counted stack hstack
      obtain rfl := Option.some.inj hstep
      have hm := h.positive hstack (by simp)
      exact h.same rfl rfl rfl fun hzero => absurd hzero hm.ne'
    · rename_i counted stack hstack
      obtain rfl := Option.some.inj hstep
      exact h.same rfl rfl rfl (h.tail hstack)
    · exact absurd hstep (by simp)
  | raised =>
    rw [step] at hstep
    split at hstep
    case h_6 => exact absurd hstep (by simp)
    all_goals
      rename_i hstack
      obtain rfl := Option.some.inj hstep
      exact h.same rfl rfl rfl (h.tail hstack)

/-- After every steady run the links and the dict hold the same keys, and at most `m`. -/
theorem run_sound [EquivBEq K] {events : List (Event K V)}
    (hsteady : Along Steady (some m) events {}) (hrun : run (some m) events {} = some s) :
    Sound m s :=
  run_invariant (fun _ event _ => step_sound event) hsteady (fresh_sound m) hrun

end pairing

end Pyrust.LruPairing
