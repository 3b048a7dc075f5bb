import Mathlib.Data.List.Pairwise
import Pyrust.LruPairing

/-!
# What a cache wrapper counts and answers

The counters add up to the calls counted since the last clear. A wrapper that
is never entered again answers, and evicts, like a list of entries in the order
of their last use.
-/

set_option autoImplicit false

namespace Pyrust.LruReference
open Pyrust.RecencyList Pyrust.LruCache Pyrust.LruPairing

universe u v

section counters
variable {K : Type u} {V : Type v}

/-- The clear after which a call in progress was counted. -/
def frameMark : Frame K V → Option ℕ
  | .calling _ counted => some counted
  | .passing counted => some counted
  | .rechecking _ _ _ counted => some counted
  | _ => none

def logMark : LogEntry K V → Option ℕ
  | .completed call => call.counted
  | .cleared => none

/-- The calls that were counted since the last clear and have ended. -/
def completedCalls (s : Wrapper K V) : ℕ := (s.log.filterMap logMark).count s.clears

/-- The calls that were counted since the last clear and have not ended. -/
def callsInProgress (s : Wrapper K V) : ℕ := (s.stack.filterMap frameMark).count s.clears

def marks (s : Wrapper K V) : List ℕ := s.log.filterMap logMark ++ s.stack.filterMap frameMark

theorem complete_marks (s : Wrapper K V) (stack : List (Frame K V)) (call : Completion K V) :
    marks (complete s stack call) =
      s.log.filterMap logMark ++ (call.counted.toList ++ stack.filterMap frameMark) := by
  rw [marks, complete, List.filterMap_append, List.append_assoc]
  cases hcounted : call.counted with
  | none => simp [logMark, hcounted]
  | some counted => simp [logMark, hcounted]

/-- What a step does to the counters and to the marks of the calls. -/
inductive Tally (s s' : Wrapper K V) : Prop where
  | moved (clears : s'.clears = s.clears) (sum : s'.hits+s'.misses = s.hits+s.misses)
      (marks : (marks s').Perm (marks s))
  | counted (clears : s'.clears = s.clears) (sum : s'.hits+s'.misses = s.hits+s.misses+1)
      (marks : (marks s').Perm (s.clears::marks s))
  | reset (clears : s'.clears = s.clears+1) (sum : s'.hits+s'.misses = 0)
      (marks : marks s' = marks s)

variable [BEq K]

theorem insertCache_kept (maxsize : Option ℕ) (s : Wrapper K V) (cache : ℕ) (key : K)
    (value : V) :
    (insertCache maxsize s cache key value).2.hits = s.hits ∧
      (insertCache maxsize s cache key value).2.misses = s.misses ∧
      (insertCache maxsize s cache key value).2.clears = s.clears ∧
      (insertCache maxsize s cache key value).2.log = s.log ∧
      (insertCache maxsize s cache key value).2.stack = s.stack := by
  have hevict : ∀ m, (evict m s cache).2.hits = s.hits ∧ (evict m s cache).2.misses = s.misses ∧
      (evict m s cache).2.clears = s.clears ∧ (evict m s cache).2.log = s.log ∧
      (evict m s cache).2.stack = s.stack := by
    intro m
    rw [evict]
    split
    · split <;> exact ⟨rfl, rfl, rfl, rfl, rfl⟩
    · exact ⟨rfl, rfl, rfl, rfl, rfl⟩
  cases maxsize with
  | none => exact ⟨rfl, rfl, rfl, rfl, rfl⟩
  | some m => exact hevict m

variable {maxsize : Option ℕ} {s s' : Wrapper K V}

omit [BEq K] in
theorem hit_tally {key : K} {cache : ℕ} {stack : List (Frame K V)}
    (hstack : s.stack = .probing key cache::stack) (entry : CacheEntry V) :
    Tally s (hit maxsize s stack key entry) := by
  have hmarks : marks s = s.log.filterMap logMark ++ stack.filterMap frameMark := by
    rw [marks, hstack]
    rfl
  rw [hit]
  split
  · refine .moved rfl rfl ?_
    rw [complete_marks, hmarks]
    exact .refl _
  · refine .counted rfl ?_ ?_
    · show s.hits+1+s.misses = _
      ac_rfl
    · rw [complete_marks, hmarks]
      exact List.perm_middle

theorem lookedUp_tally {found : Option ℕ} (hstep : lookedUp maxsize s found = some s') :
    Tally s s' := by
  rw [lookedUp] at hstep
  split at hstep
  · rename_i key cache stack hstack
    cases found with
    | some i =>
      obtain ⟨stored, -, rfl⟩ := Option.map_eq_some_iff.mp hstep
      exact hit_tally hstack stored.2
    | none =>
      dsimp only at hstep
      split at hstep
      · exact absurd hstep (by simp)
      · obtain rfl := Option.some.inj hstep
        refine .counted rfl ?_ ?_
        · show s.hits+(s.misses+1) = _
          ac_rfl
        · rw [marks, marks, hstack]
          exact List.perm_middle
  · rename_i key value cache counted stack hstack
    cases found with
    | some i =>
      obtain ⟨stored, -, rfl⟩ := Option.map_eq_some_iff.mp hstep
      refine .moved rfl rfl ?_
      rw [complete_marks, marks, hstack]
      exact .refl _
    | none =>
      dsimp only at hstep
      split at hstep
      · exact absurd hstep (by simp)
      · obtain rfl := Option.some.inj hstep
        obtain ⟨hhits, hmisses, hclears, hlog, -⟩ := insertCache_kept maxsize s cache key value
        refine .moved hclears (congrArg₂ _ hhits hmisses) ?_
        rw [complete_marks, hlog, marks, hstack]
        exact .refl _
  · exact absurd hstep (by simp)

theorem step_tally (event : Event K V) (hstep : step maxsize s event = some s') : Tally s s' := by
  cases event with
  | call =>
    rw [step] at hstep
    split at hstep
    · obtain rfl := Option.some.inj hstep
      refine .counted rfl ?_ List.perm_middle
      show s.hits+(s.misses+1) = _
      ac_rfl
    · obtain rfl := Option.some.inj hstep
      exact .moved rfl rfl (.refl _)
  | clear =>
    obtain rfl := Option.some.inj hstep
    refine .reset rfl rfl ?_
    rw [marks, List.filterMap_append]
    simp [marks, logMark]
  | hashed key =>
    rw [step] at hstep
    split at hstep
    · rename_i stack hstack
      obtain rfl := Option.some.inj hstep
      refine .moved rfl rfl ?_
      rw [marks, marks, hstack]
      exact .refl _
    · exact absurd hstep (by simp)
  | looked found => exact lookedUp_tally hstep
  | returned value =>
    rw [step] at hstep
    split at hstep
    · rename_i key counted stack hstack
      obtain rfl := Option.some.inj hstep
      refine .moved rfl rfl ?_
      rw [marks, marks, hstack]
      exact .refl _
    · rename_i counted stack hstack
      obtain rfl := Option.some.inj hstep
      refine .moved rfl rfl ?_
      rw [complete_marks, marks, hstack]
      exact .refl _
    · exact absurd hstep (by simp)
  | raised =>
    rw [step] at hstep
    split at hstep
    case h_6 => exact absurd hstep (by simp)
    all_goals
      rename_i hstack
      obtain rfl := Option.some.inj hstep
      refine .moved rfl rfl ?_
      rw [complete_marks, marks, hstack]
      exact .refl _

/-- The counters hold the counted calls, and no call was counted after a clear to come. -/
structure Counted (s : Wrapper K V) : Prop where
  sum : s.hits+s.misses = BitVec.ofNat 64 ((marks s).count s.clears)
  past : ∀ mark ∈ marks s, mark ≤ s.clears

omit [BEq K] in
theorem Tally.counted_kept (h : Tally s s') (hs : Counted s) : Counted s' := by
  cases h with
  | moved hclears hsum hmarks =>
    refine ⟨?_, fun mark hmark => ?_⟩
    · rw [hsum, hs.sum, hclears, hmarks.count_eq]
    · rw [hclears]
      exact hs.past mark (hmarks.mem_iff.mp hmark)
  | counted hclears hsum hmarks =>
    refine ⟨?_, fun mark hmark => ?_⟩
    · rw [hsum, hs.sum, hclears, hmarks.count_eq, List.count_cons_self, BitVec.ofNat_add]
      rfl
    · rw [hclears]
      rcases List.mem_cons.mp (hmarks.mem_iff.mp hmark) with rfl | hmark
      · exact le_refl _
      · exact hs.past mark hmark
  | reset hclears hsum hmarks =>
    have hnone : (marks s).count (s.clears+1) = 0 := by
      rw [List.count_eq_zero]
      intro hmem
      have hle := hs.past _ hmem
      omega
    refine ⟨?_, fun mark hmark => ?_⟩
    · rw [hsum, hclears, hmarks, hnone]
      rfl
    · rw [hmarks] at hmark
      rw [hclears]
      exact (hs.past mark hmark).trans (Nat.le_succ _)

theorem run_counted {events : List (Event K V)} (hrun : run maxsize events {} = some s) :
    s.hits+s.misses = BitVec.ofNat 64 (completedCalls s+callsInProgress s) := by
  have halong : ∀ (events : List (Event K V)) (s : Wrapper K V),
      Along (fun _ _ => True) maxsize events s := by
    intro events
    induction events with
    | nil => exact fun _ => trivial
    | cons event events ih =>
      refine fun s => ⟨trivial, ?_⟩
      split
      · exact ih _
      · trivial
  have hfresh : Counted ({} : Wrapper K V) := ⟨rfl, fun mark hmark => absurd hmark List.not_mem_nil⟩
  have hcounted : Counted s := run_invariant
    (fun _ event _ hs _ hstep => (step_tally event hstep).counted_kept hs) (halong events {}) hfresh
    hrun
  rw [hcounted.sum, marks, List.count_append]
  rfl

end counters

section reference
variable {K : Type u} {V : Type v}

/-- A map of bounded size, its entries in the order of their last use, answers a call and says
which key it evicted. An aborted call has no answer, a call without a key passes through. -/
def refCall (maxsize : Option ℕ) (same : K → K → Bool) (map : List (K × V))
    (call : Completion K V) : (Option V × Option K) × List (K × V) :=
  if call.aborted then ((none, none), map)
  else
    match call.key with
    | none => ((call.computed, none), map)
    | some key =>
      match map.find? fun entry => same entry.1 key with
      | some entry =>
        ((some entry.2, none), (map.filter fun other => !same other.1 key) ++ [entry])
      | none =>
        match call.computed with
        | none => ((none, none), map)
        | some value =>
          if maxsize.any fun m => m ≤ map.length then
            ((some value, map.head?.map Prod.fst), map.tail ++ [(key, value)])
          else ((some value, none), map ++ [(key, value)])

/-- Each call of the log was answered as the map answers it. -/
def Replays (maxsize : Option ℕ) (same : K → K → Bool) :
    List (K × V) → List (LogEntry K V) → Prop
  | _, [] => True
  | _, .cleared::log => Replays maxsize same [] log
  | map, .completed call::log =>
    (call.result, call.evicted) = (refCall maxsize same map call).1 ∧
      Replays maxsize same (refCall maxsize same map call).2 log

/-- The map after the calls of the log. -/
def replay (maxsize : Option ℕ) (same : K → K → Bool) :
    List (K × V) → List (LogEntry K V) → List (K × V)
  | map, [] => map
  | _, .cleared::log => replay maxsize same [] log
  | map, .completed call::log => replay maxsize same (refCall maxsize same map call).2 log

variable {maxsize : Option ℕ} {same : K → K → Bool}

theorem replay_completed (map : List (K × V)) (log : List (LogEntry K V))
    (call : Completion K V) :
    replay maxsize same map (log ++ [LogEntry.completed call]) =
      (refCall maxsize same (replay maxsize same map log) call).2 := by
  induction log generalizing map with
  | nil => rfl
  | cons entry log ih =>
    cases entry with
    | completed earlier => exact ih _
    | cleared => exact ih _

theorem replay_cleared (map : List (K × V)) (log : List (LogEntry K V)) :
    replay maxsize same map (log ++ [LogEntry.cleared]) = [] := by
  induction log generalizing map with
  | nil => rfl
  | cons entry log ih =>
    cases entry with
    | completed earlier => exact ih _
    | cleared => exact ih _

theorem replays_completed (map : List (K × V)) (log : List (LogEntry K V))
    (call : Completion K V) :
    Replays maxsize same map (log ++ [LogEntry.completed call]) ↔ Replays maxsize same map log ∧
      (call.result, call.evicted) =
        (refCall maxsize same (replay maxsize same map log) call).1 := by
  induction log generalizing map with
  | nil => simp [Replays, replay]
  | cons entry log ih =>
    cases entry with
    | completed earlier =>
      show _ ∧ Replays maxsize same _ (log ++ [LogEntry.completed call]) ↔ _
      rw [ih, ← and_assoc]
      rfl
    | cleared => exact ih _

theorem replays_cleared (map : List (K × V)) (log : List (LogEntry K V)) :
    Replays maxsize same map (log ++ [LogEntry.cleared]) ↔ Replays maxsize same map log := by
  induction log generalizing map with
  | nil => exact Iff.rfl
  | cons entry log ih =>
    cases entry with
    | completed earlier => exact and_congr_right fun _ => ih _
    | cleared => exact ih _

/-! ## Runs that are never entered again -/

/-- User equality as an equivalence. -/
structure Equivalent (same : K → K → Bool) : Prop where
  refl : ∀ a, same a a = true
  symm : ∀ a b, same a b = true → same b a = true
  trans : ∀ a b c, same a b = true → same b c = true → same a c = true

/-- The key that the innermost call looks up, and the dict it looks in. -/
def pending (s : Wrapper K V) : Option (K × ℕ) :=
  match s.stack with
  | .probing key cache::_ => some (key, cache)
  | .rechecking key _ cache _::_ => some (key, cache)
  | _ => none

def Answered (same : K → K → Bool) (dict : CacheDict K V) (key : K) : Option ℕ → Prop
  | some i => (dict[i]?.any fun stored => same stored.1 key) = true
  | none => ∀ stored ∈ dict, same stored.1 key = false

/-- The wrapper is entered from outside only, and lookups answer by `same`. -/
def Alone (same : K → K → Bool) (s : Wrapper K V) : Event K V → Prop
  | .call => s.stack = []
  | .clear => s.stack = []
  | .looked found => ∀ lookup ∈ pending s, Answered same (dictAt s lookup.2) lookup.1 found
  | _ => True

instance (same : K → K → Bool) (dict : CacheDict K V) (key : K) :
    ∀ found : Option ℕ, Decidable (Answered same dict key found)
  | some _ => inferInstanceAs (Decidable (_ = true))
  | none => inferInstanceAs (Decidable (∀ stored ∈ dict, _))

instance (same : K → K → Bool) (s : Wrapper K V) :
    ∀ event : Event K V, Decidable (Alone same s event)
  | .call => decidable_of_iff (s.stack.isEmpty = true) List.isEmpty_iff
  | .clear => decidable_of_iff (s.stack.isEmpty = true) List.isEmpty_iff
  | .looked _ => inferInstanceAs (Decidable (∀ lookup ∈ pending s, _))
  | .hashed _ => .isTrue trivial
  | .returned _ => .isTrue trivial
  | .raised => .isTrue trivial

/-- The only entry that equals a key is found, and the others are left. -/
theorem find_only (h : Equivalent same) {pre post : List (K × V)} {entry : K × V}
    (hapart : (pre ++ entry::post).Pairwise fun a b => same a.1 b.1 = false) {key : K}
    (heq : same entry.1 key = true) :
    (pre ++ entry::post).find? (fun other => same other.1 key) = some entry ∧
      (pre ++ entry::post).filter (fun other => !same other.1 key) = pre ++ post := by
  obtain ⟨-, hrest, hcross⟩ := List.pairwise_append.mp hapart
  have hpre : ∀ other ∈ pre, same other.1 key = false := by
    intro other ho
    by_contra hother
    rw [Bool.not_eq_false] at hother
    have hequal := h.trans _ _ _ hother (h.symm _ _ heq)
    rw [hcross other ho entry (.head _)] at hequal
    exact Bool.false_ne_true hequal
  have hpost : ∀ other ∈ post, same other.1 key = false := by
    intro other ho
    by_contra hother
    rw [Bool.not_eq_false] at hother
    have hequal := h.trans _ _ _ heq (h.symm _ _ hother)
    rw [(List.pairwise_cons.mp hrest).1 other ho] at hequal
    exact Bool.false_ne_true hequal
  constructor
  · rw [List.find?_append, List.find?_eq_none.mpr fun other ho => by simp [hpre other ho],
      Option.none_or, List.find?_cons_of_pos (by simpa using heq)]
  · rw [List.filter_append, List.filter_cons_of_neg (by simp [heq]),
      List.filter_eq_self.mpr fun other ho => by simp [hpre other ho],
      List.filter_eq_self.mpr fun other ho => by simp [hpost other ho]]

theorem only_one (h : Equivalent same) {map : List (K × V)}
    (hapart : map.Pairwise fun a b => same a.1 b.1 = false) {a b : K × V} (ha : a ∈ map)
    (hb : b ∈ map) (heq : same a.1 b.1 = true) : a = b := by
  by_contra hne
  have : Std.Symm fun a b : K × V => same a.1 b.1 = false := ⟨fun x y hxy =>
    Bool.eq_false_iff.mpr fun hyx =>
      Bool.false_ne_true (hxy.symm.trans (h.symm _ _ hyx))⟩
  exact Bool.false_ne_true ((hapart.forall ha hb hne).symm.trans heq)

theorem apart_perm (h : Equivalent same) {map map' : List (K × V)}
    (hapart : map.Pairwise fun a b => same a.1 b.1 = false) (hperm : map'.Perm map) :
    map'.Pairwise fun a b => same a.1 b.1 = false := by
  rw [hperm.pairwise_iff fun {a b} hab => Bool.eq_false_iff.mpr fun hba =>
    Bool.false_ne_true (hab.symm.trans (h.symm _ _ hba))]
  exact hapart

variable [BEq K]

/-- The map has the entries of the dict, in the order of the walk when the size is bounded. -/
structure Mirrors (maxsize : Option ℕ) (same : K → K → Bool) (dict : CacheDict K V)
    (links : LruLinks K) (map : List (K × V)) : Prop where
  apart : map.Pairwise fun a b => same a.1 b.1 = false
  values : map.Perm (dict.map fun entry => (entry.1, entry.2.value))
  recency : ∀ m, maxsize = some m → ∃ order, Paired dict links order ∧
    map.map Prod.fst = order.map Prod.snd ∧ dict.length ≤ m

theorem fresh_mirrors (maxsize : Option ℕ) :
    Mirrors maxsize same ([] : CacheDict K V) {} [] where
  apart := .nil
  values := .refl _
  recency := fun m _ => ⟨[], ⟨empty_linked, .refl _, .nil⟩, rfl, Nat.zero_le m⟩

variable {dict : CacheDict K V} {links : LruLinks K} {map : List (K × V)}

omit [BEq K] in
theorem refCall_found (h : Equivalent same) {pre post : List (K × V)} {entry : K × V}
    (hapart : (pre ++ entry::post).Pairwise fun a b => same a.1 b.1 = false) {key : K}
    (heq : same entry.1 key = true) (call : Completion K V) (hkey : call.key = some key)
    (haborted : call.aborted = false) :
    refCall maxsize same (pre ++ entry::post) call =
      ((some entry.2, none), pre ++ post ++ [entry]) := by
  obtain ⟨hfind, hfilter⟩ := find_only h hapart heq
  rw [refCall, haborted, hkey]
  simp only [Bool.false_eq_true, if_false, hfind, hfilter]

/-- A hit moves the entry to the end of the map, and its node to the end of the walk. -/
theorem hit_mirrors (heq : Equivalent same) {s : Wrapper K V}
    (h : Mirrors maxsize same (dictAt s s.cache) s.links map) {i : ℕ}
    {stored : K × CacheEntry V} (hget : (dictAt s s.cache)[i]? = some stored) {key : K}
    (hkey : same stored.1 key = true) (stack : List (Frame K V)) :
    ∃ links, hit maxsize s stack key stored.2 =
        complete { s with links := links, hits := s.hits+1 } stack
          ⟨some key, none, false, some stored.2.value, none, some s.clears⟩ ∧
      (refCall maxsize same map
        ⟨some key, none, false, some stored.2.value, none, some s.clears⟩).1 =
          (some stored.2.value, none) ∧
      Mirrors maxsize same (dictAt s s.cache) links (refCall maxsize same map
        ⟨some key, none, false, some stored.2.value, none, some s.clears⟩).2 := by
  have hstored := List.mem_of_getElem? hget
  have hmem : (stored.1, stored.2.value) ∈ map :=
    h.values.mem_iff.mpr (List.mem_map_of_mem hstored)
  cases maxsize with
  | none =>
    obtain ⟨pre, post, rfl⟩ := List.append_of_mem hmem
    have hmoved : (pre ++ post ++ [(stored.1, stored.2.value)]).Perm
        (pre ++ (stored.1, stored.2.value)::post) := by
      rw [List.append_assoc]
      exact (List.perm_append_singleton _ post).append_left pre
    rw [refCall_found heq h.apart hkey _ rfl rfl]
    exact ⟨s.links, rfl, rfl, apart_perm heq h.apart hmoved, hmoved.trans h.values,
      fun m hm => absurd hm (by simp)⟩
  | some m =>
    obtain ⟨order, hpaired, hkeys, hbounded⟩ := h.recency m rfl
    obtain ⟨⟨id, k⟩, hnode, hslot⟩ := List.mem_map.mp
      (hpaired.keys.mem_iff.mp (List.mem_map_of_mem hstored))
    obtain ⟨hid, rfl⟩ : some id = stored.2.nodeId ∧ k = stored.1 := Prod.mk.inj hslot
    obtain ⟨before, after, rfl⟩ := List.append_of_mem hnode
    rw [List.map_append, List.map_cons] at hkeys
    obtain ⟨pre, rest, rfl, hpre, hrest⟩ := List.map_eq_append_iff.mp hkeys
    obtain ⟨entry, post, rfl, hentry, hpost⟩ := List.map_eq_cons_iff.mp hrest
    obtain rfl : entry = (stored.1, stored.2.value) := only_one heq h.apart (by simp) hmem
      (by rw [hentry]; exact heq.refl _)
    have hmoved : (pre ++ post ++ [(stored.1, stored.2.value)]).Perm
        (pre ++ (stored.1, stored.2.value)::post) := by
      rw [List.append_assoc]
      exact (List.perm_append_singleton _ post).append_left pre
    rw [refCall_found heq h.apart hkey _ rfl rfl]
    refine ⟨if some m = some 1 then s.links else promote s.links id, ?_, rfl,
      apart_perm heq h.apart hmoved, hmoved.trans h.values, ?_⟩
    · rw [hit, decodeCacheEntry, Option.isSome_some, if_pos rfl, ← hid]
      rfl
    · rintro _ ⟨⟩
      refine ⟨before ++ after ++ [(id, stored.1)], ?_, by simp [hpre, hpost], hbounded⟩
      split
      · rename_i hone
        have hlength := length_keys hpaired.keys
        obtain rfl := Option.some.inj hone
        simp only [List.length_append, List.length_cons] at hlength
        obtain rfl := List.eq_nil_of_length_eq_zero (by omega : before.length = 0)
        obtain rfl := List.eq_nil_of_length_eq_zero (by omega : after.length = 0)
        exact hpaired
      · refine ⟨promote_linked hpaired.linked, hpaired.keys.trans (List.Perm.map _ ?_),
          hpaired.apart⟩
        rw [List.append_assoc]
        exact ((List.perm_append_singleton _ after).append_left before).symm

omit [BEq K] in
theorem refCall_missed {key : K} (hunknown : ∀ entry ∈ map, same entry.1 key = false)
    (call : Completion K V) (hkey : call.key = some key) (haborted : call.aborted = false) :
    refCall maxsize same map call = match call.computed with
      | none => ((none, none), map)
      | some value =>
        if maxsize.any fun m => m ≤ map.length then
          ((some value, map.head?.map Prod.fst), map.tail ++ [(key, value)])
        else ((some value, none), map ++ [(key, value)]) := by
  have hfind : map.find? (fun entry => same entry.1 key) = none := by
    rw [List.find?_eq_none]
    exact fun entry he heq => Bool.false_ne_true ((hunknown entry he).symm.trans heq)
  rw [refCall, haborted, hkey]
  simp only [Bool.false_eq_true, if_false, hfind]

omit [BEq K] in
theorem apart_push {map : List (K × V)} (hapart : map.Pairwise fun a b => same a.1 b.1 = false)
    {key : K} (hunknown : ∀ entry ∈ map, same entry.1 key = false) (value : V) :
    (map ++ [(key, value)]).Pairwise fun a b => same a.1 b.1 = false := by
  rw [List.pairwise_append]
  refine ⟨hapart, List.pairwise_singleton _ _, fun entry he other ho => ?_⟩
  rw [List.mem_singleton.mp ho]
  exact hunknown entry he

theorem Mirrors.unknown (h : Mirrors maxsize same dict links map) {key : K}
    (hunknown : ∀ stored ∈ dict, same stored.1 key = false) :
    ∀ entry ∈ map, same entry.1 key = false := by
  intro entry he
  obtain ⟨stored, hs, rfl⟩ := List.mem_map.mp (h.values.mem_iff.mp he)
  exact hunknown stored hs

/-- An insertion drops the head of the map with the head of the walk. -/
theorem insert_mirrors [EquivBEq K] (heq : Equivalent same) (hmaxsize : maxsize ≠ some 0)
    {s : Wrapper K V} (hlive : s.cache < s.dicts.length)
    (h : Mirrors maxsize same (dictAt s s.cache) s.links map) {key : K}
    (hunknown : ∀ stored ∈ dictAt s s.cache, same stored.1 key = false)
    (hnew : holds (dictAt s s.cache) key = false) (value : V) (call : Completion K V)
    (hkey : call.key = some key) (haborted : call.aborted = false)
    (hcomputed : call.computed = some value) :
    ∃ evicted links dict, insertCache maxsize s s.cache key value =
        (evicted, { s with links := links, dicts := s.dicts.set s.cache dict }) ∧
      (refCall maxsize same map call).1 = (some value, evicted) ∧
      Mirrors maxsize same dict links (refCall maxsize same map call).2 := by
  have hmiss := h.unknown hunknown
  have hpushed := apart_push h.apart hmiss value
  rw [refCall_missed hmiss call hkey haborted, hcomputed]
  dsimp only
  cases maxsize with
  | none =>
    refine ⟨none, s.links, dictAt s s.cache ++ [(key, ⟨value, none⟩)], ?_, rfl, hpushed, ?_,
      fun m hm => absurd hm (by simp)⟩
    · rw [insertCache, insertEntry_new hnew]
      rfl
    · rw [List.map_append]
      exact h.values.append_right _
  | some m =>
    obtain ⟨order, hpaired, hkeys, hbounded⟩ := h.recency m rfl
    have hm : 0 < m := Nat.pos_of_ne_zero fun hzero => hmaxsize (congrArg some hzero)
    obtain ⟨evicted, nodeId, links, kept, order', gone, hinsert, hpaired', hlength, horder,
      hgone, ⟨left, hleft, hleft_keys⟩, hfull⟩ :=
      insertCache_paired hm hlive hpaired hbounded hnew value
    have hsize : map.length = (dictAt s s.cache).length := by
      rw [h.values.length_eq, List.length_map]
    refine ⟨evicted, links, kept ++ [(key, ⟨value, some nodeId⟩)], hinsert, ?_⟩
    cases evicted with
    | none =>
      have hroom : (Option.any (fun m => decide (m ≤ map.length)) (some m)) = false := by
        simpa [hsize] using hfull.mp rfl
      rw [hroom, if_neg Bool.false_ne_true]
      obtain rfl := List.map_eq_nil_iff.mp hgone
      obtain rfl := List.map_eq_nil_iff.mp hleft_keys
      refine ⟨rfl, hpushed, ?_, ?_⟩
      · rw [List.map_append]
        exact (h.values.trans (hleft.map _)).append_right _
      · rintro _ ⟨⟩
        refine ⟨_, hpaired', ?_, ?_⟩
        · rw [List.map_append, List.map_append, hkeys, horder]
          rfl
        · rw [List.length_append]
          exact hlength
    | some oldest =>
      have hroom : (Option.any (fun m => decide (m ≤ map.length)) (some m)) = true := by
        have hnot : ¬(dictAt s s.cache).length < m := fun hlt => absurd (hfull.mpr hlt) (by simp)
        simpa [hsize] using hnot
      rw [hroom, if_pos rfl]
      obtain ⟨node, nodes, rfl, hnode, hnodes⟩ := List.map_eq_cons_iff.mp hgone
      obtain rfl := List.map_eq_nil_iff.mp hnodes
      obtain ⟨entry, entries, rfl, hentry, hentries⟩ := List.map_eq_cons_iff.mp hleft_keys
      obtain rfl := List.map_eq_nil_iff.mp hentries
      rw [horder, List.map_append, List.map_cons, List.map_nil] at hkeys
      obtain ⟨first, rest, rfl, hfirst, hrest⟩ := List.map_eq_cons_iff.mp hkeys
      have hperm := h.values.trans (hleft.map _)
      rw [List.singleton_append, List.map_cons] at hperm
      obtain rfl : first = (entry.1, entry.2.value) := only_one heq h.apart (.head _)
        (hperm.mem_iff.mpr (.head _)) (by rw [hfirst, hnode, ← hentry]; exact heq.refl _)
      refine ⟨by simp [hentry], ?_, ?_, ?_⟩
      · exact hpushed.sublist (List.sublist_cons_self _ _)
      · rw [List.map_append]
        exact (hperm.cons_inv).append_right _
      · rintro _ ⟨⟩
        refine ⟨_, hpaired', ?_, ?_⟩
        · rw [List.map_append, List.map_append, List.tail_cons, hrest]
          rfl
        · rw [List.length_append]
          exact hlength

/-- What is known while a call waits for user code. -/
def Waits (maxsize : Option ℕ) (same : K → K → Bool) (s : Wrapper K V) : Frame K V → Prop
  | .hashing => maxsize ≠ some 0
  | .probing _ cache => maxsize ≠ some 0 ∧ cache = s.cache
  | .calling key _ =>
    maxsize ≠ some 0 ∧ ∀ stored ∈ dictAt s s.cache, same stored.1 key = false
  | .passing _ => True
  | .rechecking key _ cache _ => maxsize ≠ some 0 ∧ cache = s.cache ∧
    ∀ stored ∈ dictAt s s.cache, same stored.1 key = false

/-- The wrapper follows the map through the calls that ended, and at most one is in progress. -/
structure Follows (maxsize : Option ℕ) (same : K → K → Bool) (s : Wrapper K V) : Prop where
  live : s.cache < s.dicts.length
  replays : Replays maxsize same [] s.log
  mirrors : Mirrors maxsize same (dictAt s s.cache) s.links (replay maxsize same [] s.log)
  waiting : s.stack = [] ∨ ∃ frame, s.stack = [frame] ∧ Waits maxsize same s frame

variable {s s' : Wrapper K V}

theorem Follows.waits (h : Follows maxsize same s) {frame : Frame K V} {stack : List (Frame K V)}
    (hstack : s.stack = frame::stack) : stack = [] ∧ Waits maxsize same s frame := by
  rcases h.waiting with hempty | ⟨only, honly, hwaits⟩
  · exact absurd (hempty.symm.trans hstack) (by simp)
  · obtain ⟨rfl, rfl⟩ := List.cons.inj (honly.symm.trans hstack)
    exact ⟨rfl, hwaits⟩

/-- A call that ends as the map answers it. -/
theorem Follows.ends (h : Follows maxsize same s) (s' : Wrapper K V) {cache : CacheDict K V}
    {links : LruLinks K}
    (hlive : s'.cache < s'.dicts.length) (hlog : s'.log = s.log)
    (hdict : dictAt s' s'.cache = cache) (hlinks : s'.links = links) {call : Completion K V}
    (hanswer : (call.result, call.evicted) =
      (refCall maxsize same (replay maxsize same [] s.log) call).1)
    (hmirrors : Mirrors maxsize same cache links
      (refCall maxsize same (replay maxsize same [] s.log) call).2) :
    Follows maxsize same (complete s' [] call) where
  live := hlive
  replays := by
    show Replays maxsize same [] (s'.log ++ [LogEntry.completed call])
    rw [hlog, replays_completed]
    exact ⟨h.replays, hanswer⟩
  mirrors := by
    show Mirrors maxsize same (dictAt s' s'.cache) s'.links
      (replay maxsize same [] (s'.log ++ [LogEntry.completed call]))
    rw [hlog, replay_completed, hdict, hlinks]
    exact hmirrors
  waiting := Or.inl rfl

/-- A call that ends without an effect on the cache. -/
theorem Follows.drops (h : Follows maxsize same s) {call : Completion K V}
    (hcall : refCall maxsize same (replay maxsize same [] s.log) call =
      ((call.result, call.evicted), replay maxsize same [] s.log)) :
    Follows maxsize same (complete s [] call) :=
  h.ends s h.live rfl rfl rfl (by rw [hcall]) (by rw [hcall]; exact h.mirrors)

/-- The call in progress goes on to its next phase. -/
theorem Follows.goes (h : Follows maxsize same s) (hdicts : s'.dicts = s.dicts)
    (hcache : s'.cache = s.cache) (hlinks : s'.links = s.links) (hlog : s'.log = s.log)
    {frame : Frame K V} (hstack : s'.stack = [frame]) (hwaits : Waits maxsize same s' frame) :
    Follows maxsize same s' where
  live := by
    rw [hdicts, hcache]
    exact h.live
  replays := hlog ▸ h.replays
  mirrors := by
    rw [dictAt, hdicts, hcache, hlinks, hlog]
    exact h.mirrors
  waiting := Or.inr ⟨frame, hstack, hwaits⟩

theorem lookedUp_follows [EquivBEq K] (heq : Equivalent same) (h : Follows maxsize same s)
    {found : Option ℕ} (halone : Alone same s (.looked found))
    (hstep : lookedUp maxsize s found = some s') : Follows maxsize same s' := by
  rw [lookedUp] at hstep
  split at hstep
  · rename_i key cache stack hstack
    obtain ⟨rfl, hmaxsize, rfl⟩ := h.waits hstack
    have hanswered := halone (key, s.cache) (by rw [pending, hstack]; rfl)
    cases found with
    | some i =>
      obtain ⟨stored, hget, hkey⟩ := (Option.any_eq_true _ _).mp hanswered
      dsimp only at hstep
      rw [hget] at hstep
      obtain rfl := Option.some.inj hstep
      obtain ⟨links, hhit, hanswer, hmirrors⟩ := hit_mirrors heq h.mirrors hget hkey []
      show Follows maxsize same (hit maxsize s [] key stored.2)
      rw [hhit]
      exact h.ends { s with links := links, hits := s.hits+1 } h.live rfl rfl rfl hanswer.symm
        hmirrors
    | none =>
      dsimp only at hstep
      split at hstep
      · exact absurd hstep (by simp)
      · obtain rfl := Option.some.inj hstep
        exact h.goes rfl rfl rfl rfl rfl ⟨hmaxsize, hanswered⟩
  · rename_i key value cache counted stack hstack
    obtain ⟨rfl, hmaxsize, rfl, hunknown⟩ := h.waits hstack
    have hanswered := halone (key, s.cache) (by rw [pending, hstack]; rfl)
    cases found with
    | some i =>
      obtain ⟨stored, hget, hkey⟩ := (Option.any_eq_true _ _).mp hanswered
      rw [hunknown stored (List.mem_of_getElem? hget)] at hkey
      exact absurd hkey Bool.false_ne_true
    | none =>
      dsimp only at hstep
      split at hstep
      · exact absurd hstep (by simp)
      · rename_i hnew
        obtain rfl := Option.some.inj hstep
        obtain ⟨evicted, links, dict, hinsert, hanswer, hmirrors⟩ := insert_mirrors heq hmaxsize
          h.live h.mirrors hunknown (Bool.eq_false_iff.mpr hnew) value
          ⟨some key, some value, false, some value, (insertCache maxsize s s.cache key value).1,
            some counted⟩ rfl rfl rfl
        rw [hinsert] at hanswer hmirrors ⊢
        exact h.ends (setDict { s with links := links } s.cache dict) (by simpa using h.live) rfl
          (dictAt_setDict s h.live dict) rfl hanswer.symm hmirrors
  · exact absurd hstep (by simp)

theorem step_follows [EquivBEq K] (heq : Equivalent same) (event : Event K V)
    (h : Follows maxsize same s) (halone : Alone same s event)
    (hstep : step maxsize s event = some s') : Follows maxsize same s' := by
  cases event with
  | call =>
    have hidle : s.stack = [] := halone
    rw [step, hidle] at hstep
    split at hstep
    · obtain rfl := Option.some.inj hstep
      exact h.goes rfl rfl rfl rfl rfl trivial
    · rename_i hmaxsize
      obtain rfl := Option.some.inj hstep
      exact h.goes rfl rfl rfl rfl rfl hmaxsize
  | clear =>
    obtain rfl := Option.some.inj hstep
    have hempty : (s.dicts ++ [[]])[s.dicts.length]?.getD ([] : CacheDict K V) = [] := by simp
    refine ⟨by simp, ?_, ?_, Or.inl halone⟩
    · exact (replays_cleared [] s.log).mpr h.replays
    · show Mirrors maxsize same ((s.dicts ++ [[]])[s.dicts.length]?.getD []) {}
        (replay maxsize same [] (s.log ++ [LogEntry.cleared]))
      rw [hempty, replay_cleared]
      exact fresh_mirrors maxsize
  | hashed key =>
    rw [step] at hstep
    split at hstep
    · rename_i stack hstack
      obtain ⟨rfl, hmaxsize⟩ := h.waits hstack
      obtain rfl := Option.some.inj hstep
      exact h.goes rfl rfl rfl rfl rfl ⟨hmaxsize, rfl⟩
    · exact absurd hstep (by simp)
  | looked found => exact lookedUp_follows heq h halone hstep
  | returned value =>
    rw [step] at hstep
    split at hstep
    · rename_i key counted stack hstack
      obtain ⟨rfl, hmaxsize, hunknown⟩ := h.waits hstack
      obtain rfl := Option.some.inj hstep
      exact h.goes rfl rfl rfl rfl rfl ⟨hmaxsize, rfl, hunknown⟩
    · rename_i counted stack hstack
      obtain ⟨rfl, -⟩ := h.waits hstack
      obtain rfl := Option.some.inj hstep
      exact h.drops rfl
    · exact absurd hstep (by simp)
  | raised =>
    rw [step] at hstep
    split at hstep
    · rename_i stack hstack
      obtain ⟨rfl, -⟩ := h.waits hstack
      obtain rfl := Option.some.inj hstep
      exact h.drops rfl
    · rename_i key cache stack hstack
      obtain ⟨rfl, -⟩ := h.waits hstack
      obtain rfl := Option.some.inj hstep
      exact h.drops rfl
    · rename_i key counted stack hstack
      obtain ⟨rfl, -, hunknown⟩ := h.waits hstack
      obtain rfl := Option.some.inj hstep
      exact h.drops (refCall_missed (h.mirrors.unknown hunknown) _ rfl rfl)
    · rename_i counted stack hstack
      obtain ⟨rfl, -⟩ := h.waits hstack
      obtain rfl := Option.some.inj hstep
      exact h.drops rfl
    · rename_i key value cache counted stack hstack
      obtain ⟨rfl, -⟩ := h.waits hstack
      obtain rfl := Option.some.inj hstep
      exact h.drops rfl
    · exact absurd hstep (by simp)

/-- Whatever enters the wrapper while it waits, the counters add up to the calls counted since the
last clear, and links and dict hold the same keys, at most as many as its size, as long as no
insertion goes on in a dict that was cleared away while it looked its key up again. A wrapper that
is entered from outside only answers, and evicts, as the map does. -/
theorem cache_kept {K : Type u} {V : Type v} [BEq K] [EquivBEq K] (maxsize : Option ℕ)
    (events : List (Event K V)) (s : Wrapper K V) (hrun : run maxsize events {} = some s) :
    s.hits+s.misses = BitVec.ofNat 64 (completedCalls s+callsInProgress s) ∧
      (∀ m, maxsize = some m → Along Steady maxsize events {} →
        (∃ order, Paired (dictAt s s.cache) s.links order) ∧ (dictAt s s.cache).length ≤ m) ∧
      ∀ same : K → K → Bool, Equivalent same → Along (Alone same) maxsize events {} →
        Replays maxsize same [] s.log := by
  refine ⟨run_counted hrun, ?_, ?_⟩
  · rintro m rfl hsteady
    have hsound := run_sound hsteady hrun
    exact ⟨hsound.paired, hsound.bounded⟩
  · intro same heq halone
    have hfresh : Follows maxsize same ({} : Wrapper K V) :=
      ⟨Nat.one_pos, trivial, fresh_mirrors maxsize, Or.inl rfl⟩
    exact (run_invariant (fun _ event _ => step_follows heq event) halone hfresh hrun).replays

end reference

/-- A wrapper of size 1 that is called with `1`, with `2`, and with `2` again. -/
def threeCalls : List (Event ℕ ℕ) :=
  [.call, .hashed 1, .looked none, .returned 10, .looked none,
    .call, .hashed 2, .looked none, .returned 20, .looked none,
    .call, .hashed 2, .looked (some 0)]

theorem equal_equivalent : Equivalent fun a b : ℕ => a == b where
  refl a := BEq.refl a
  symm _ _ h := BEq.symm h
  trans _ _ _ h h' := BEq.trans h h'

theorem cache_kept_threeCalls : ∃ s, run (some 1) threeCalls {} = some s ∧
    s.hits+s.misses = BitVec.ofNat 64 (completedCalls s+callsInProgress s) ∧
    ((∃ order, Paired (dictAt s s.cache) s.links order) ∧ (dictAt s s.cache).length ≤ 1) ∧
    Replays (some 1) (fun a b => a == b) [] s.log := by
  obtain ⟨s, hrun⟩ : ∃ s, run (some 1) threeCalls {} = some s := ⟨_, rfl⟩
  obtain ⟨hcounted, hpaired, hreplays⟩ := cache_kept (some 1) threeCalls s hrun
  exact ⟨s, hrun, hcounted, hpaired 1 rfl (by decide),
    hreplays _ equal_equivalent (by decide)⟩

/-- A call that calls the wrapper again is counted before it ends; and a lookup of `1` for its
insertion asks about `5`, which clears the wrapper before it says no. -/
theorem counted_early_and_unpaired :
    (run (some 1) [.call, .hashed 1, .looked none,
        .call, .hashed 2, .looked none, .returned 20, .looked none] {} :
          Option (Wrapper ℕ ℕ)).map (fun s => (s.hits+s.misses, completedCalls s)) =
        some (2, 1) ∧
      (run (some 2) [.call, .hashed 5, .looked none, .returned 50, .looked none,
        .call, .hashed 1, .looked none, .returned 10, .clear, .looked none] {} :
          Option (Wrapper ℕ ℕ)).map (fun s => (dictAt s s.cache, s.links.head)) =
        some ([], some 0) := by
  decide

end Pyrust.LruReference
