import Mathlib.Data.BitVec
import Pyrust.RecencyList

/-!
# A cache wrapper that user code enters again

A call of the wrapper hashes its arguments, looks the key up, calls the
function and looks the key up once more before it stores the result. User code
runs in each of these phases, and may call or clear the wrapper again. A step
is what the wrapper does between two pieces of user code.
-/

set_option autoImplicit false

namespace Pyrust.LruCache
open Pyrust.RecencyList

universe u v

structure CacheEntry (V : Type v) where
  value : V
  nodeId : Option ℕ
  deriving DecidableEq, Repr

abbrev CacheDict (K : Type u) (V : Type v) := List (K × CacheEntry V)

/-- A call in progress, by the user code that it waits for. `cache` is the dict it fetched,
`counted` the number of clears when it was counted. -/
inductive Frame (K : Type u) (V : Type v) where
  | hashing
  | probing (key : K) (cache : ℕ)
  | calling (key : K) (counted : ℕ)
  | passing (counted : ℕ)
  | rechecking (key : K) (value : V) (cache counted : ℕ)
  deriving DecidableEq, Repr

/-- A call that ended. It was aborted when a hash or a comparison raised, and has no result when
it raised. -/
structure Completion (K : Type u) (V : Type v) where
  key : Option K
  computed : Option V
  aborted : Bool
  result : Option V
  evicted : Option K
  counted : Option ℕ
  deriving DecidableEq, Repr

inductive LogEntry (K : Type u) (V : Type v) where
  | completed (call : Completion K V)
  | cleared
  deriving DecidableEq, Repr

/-- The wrapper with every dict that was ever its cache, the calls in progress and a log. -/
structure Wrapper (K : Type u) (V : Type v) where
  dicts : List (CacheDict K V) := [[]]
  cache : ℕ := 0
  links : LruLinks K := {}
  hits : BitVec 64 := 0
  misses : BitVec 64 := 0
  clears : ℕ := 0
  stack : List (Frame K V) := []
  log : List (LogEntry K V) := []
  deriving DecidableEq, Repr

/-- What user code does next: it enters the wrapper, or ends the phase of the innermost call. A
lookup ends with the position that it found. -/
inductive Event (K : Type u) (V : Type v) where
  | call
  | clear
  | hashed (key : K)
  | looked (found : Option ℕ)
  | returned (value : V)
  | raised

section machine
variable {K : Type u} {V : Type v} [BEq K]

/-! ## The cache dict -/

def holds (dict : CacheDict K V) (key : K) : Bool := dict.any fun entry => entry.1 == key

def insertEntry (dict : CacheDict K V) (key : K) (entry : CacheEntry V) : CacheDict K V :=
  if holds dict key then
    dict.map fun stored => if stored.1 == key then (stored.1, entry) else stored
  else dict ++ [(key, entry)]

/-- The last entry takes the place of the removed one. -/
def swapRemove (dict : CacheDict K V) (key : K) : CacheDict K V :=
  match dict.findIdx? (fun entry => entry.1 == key), dict.getLast? with
  | some i, some last => (dict.set i last).dropLast
  | _, _ => dict

def decodeCacheEntry (entry : CacheEntry V) (bounded : Bool) : Option (V × Option ℕ) :=
  if bounded then entry.nodeId.map fun nodeId => (entry.value, some nodeId)
  else some (entry.value, none)

/-! ## The wrapper -/

def dictAt (s : Wrapper K V) (cache : ℕ) : CacheDict K V := s.dicts[cache]?.getD []

def setDict (s : Wrapper K V) (cache : ℕ) (dict : CacheDict K V) : Wrapper K V :=
  { s with dicts := s.dicts.set cache dict }

/-- A full cache gives up its least recently used entry. -/
def evict (maxsize : ℕ) (s : Wrapper K V) (cache : ℕ) : Option K × Wrapper K V :=
  if maxsize ≤ (dictAt s cache).length then
    match popLru s.links with
    | (some evicted, links) =>
      (some evicted, setDict { s with links := links } cache (swapRemove (dictAt s cache) evicted))
    | (none, links) => (none, { s with links := links })
  else (none, s)

/-- The rest of `insert_cache`, once the key was not found again. -/
def insertCache (maxsize : Option ℕ) (s : Wrapper K V) (cache : ℕ) (key : K) (value : V) :
    Option K × Wrapper K V :=
  match maxsize with
  | none => (none, setDict s cache (insertEntry (dictAt s cache) key ⟨value, none⟩))
  | some maxsize =>
    let (evicted, s) := evict maxsize s cache
    let (nodeId, links) := insertMru s.links key
    (evicted, setDict { s with links := links } cache
      (insertEntry (dictAt s cache) key ⟨value, some nodeId⟩))

def complete (s : Wrapper K V) (stack : List (Frame K V)) (call : Completion K V) :
    Wrapper K V :=
  { s with stack := stack, log := s.log ++ [.completed call] }

def hit (maxsize : Option ℕ) (s : Wrapper K V) (stack : List (Frame K V)) (key : K)
    (entry : CacheEntry V) : Wrapper K V :=
  match decodeCacheEntry entry maxsize.isSome with
  | none => complete s stack ⟨some key, none, false, none, none, none⟩
  | some (value, nodeId) =>
    let links := match nodeId with
      | some nodeId => if maxsize = some 1 then s.links else promote s.links nodeId
      | none => s.links
    complete { s with links := links, hits := s.hits + 1 } stack
      ⟨some key, none, false, some value, none, some s.clears⟩

/-- A lookup ends with a live position, or with none when no stored key is identical. -/
def lookedUp (maxsize : Option ℕ) (s : Wrapper K V) (found : Option ℕ) : Option (Wrapper K V) :=
  match s.stack with
  | .probing key cache::stack =>
    match found with
    | some i => (dictAt s cache)[i]?.map fun stored => hit maxsize s stack key stored.2
    | none =>
      if holds (dictAt s cache) key then none
      else some { s with misses := s.misses + 1, stack := .calling key s.clears::stack }
  | .rechecking key value cache counted::stack =>
    match found with
    | some i => (dictAt s cache)[i]?.map fun _ =>
      complete s stack ⟨some key, some value, false, some value, none, some counted⟩
    | none =>
      if holds (dictAt s cache) key then none
      else
        let (evicted, s) := insertCache maxsize s cache key value
        some (complete s stack
          ⟨some key, some value, false, some value, evicted, some counted⟩)
  | _ => none

def step (maxsize : Option ℕ) (s : Wrapper K V) : Event K V → Option (Wrapper K V)
  | .call =>
    -- a wrapper of size 0 counts and calls, without a key
    if maxsize = some 0 then
      some { s with misses := s.misses + 1, stack := .passing s.clears::s.stack }
    else some { s with stack := .hashing::s.stack }
  | .clear =>
    some { s with
      dicts := s.dicts ++ [[]], cache := s.dicts.length, links := {}, hits := 0, misses := 0,
      clears := s.clears + 1, log := s.log ++ [.cleared] }
  | .hashed key =>
    match s.stack with
    | .hashing::stack => some { s with stack := .probing key s.cache::stack }
    | _ => none
  | .looked found => lookedUp maxsize s found
  | .returned value =>
    match s.stack with
    | .calling key counted::stack =>
      some { s with stack := .rechecking key value s.cache counted::stack }
    | .passing counted::stack =>
      some (complete s stack ⟨none, some value, false, some value, none, some counted⟩)
    | _ => none
  | .raised =>
    match s.stack with
    | .hashing::stack => some (complete s stack ⟨none, none, true, none, none, none⟩)
    | .probing key _::stack => some (complete s stack ⟨some key, none, true, none, none, none⟩)
    | .calling key counted::stack =>
      some (complete s stack ⟨some key, none, false, none, none, some counted⟩)
    | .passing counted::stack =>
      some (complete s stack ⟨none, none, false, none, none, some counted⟩)
    | .rechecking key value _ counted::stack =>
      some (complete s stack ⟨some key, some value, true, none, none, some counted⟩)
    | [] => none

def run (maxsize : Option ℕ) : List (Event K V) → Wrapper K V → Option (Wrapper K V)
  | [], s => some s
  | event::events, s =>
    match step maxsize s event with
    | some s => run maxsize events s
    | none => none

/-- Every step of the run meets a condition. -/
def Along (condition : Wrapper K V → Event K V → Prop) (maxsize : Option ℕ) :
    List (Event K V) → Wrapper K V → Prop
  | [], _ => True
  | event::events, s =>
    condition s event ∧
      match step maxsize s event with
      | some s => Along condition maxsize events s
      | none => True

instance Along.decidable {condition : Wrapper K V → Event K V → Prop}
    [∀ s event, Decidable (condition s event)] (maxsize : Option ℕ) :
    ∀ (events : List (Event K V)) (s : Wrapper K V),
      Decidable (Along condition maxsize events s)
  | [], _ => .isTrue trivial
  | event::events, s =>
    have : Decidable (match step maxsize s event with
        | some s => Along condition maxsize events s
        | none => True) :=
      match step maxsize s event with
      | some s => Along.decidable maxsize events s
      | none => .isTrue trivial
    inferInstanceAs (Decidable (_ ∧ _))

/-- What every step under the condition keeps holds after a run under the condition. -/
theorem run_invariant {condition : Wrapper K V → Event K V → Prop}
    {invariant : Wrapper K V → Prop} {maxsize : Option ℕ}
    (hstep : ∀ s event s', invariant s → condition s event → step maxsize s event = some s' →
      invariant s') {events : List (Event K V)} {s s' : Wrapper K V}
    (halong : Along condition maxsize events s) (hs : invariant s)
    (hrun : run maxsize events s = some s') : invariant s' := by
  induction events generalizing s with
  | nil =>
    obtain rfl := Option.some.inj hrun
    exact hs
  | cons event events ih =>
    rw [run] at hrun
    cases hnext : step maxsize s event with
    | none =>
      rw [hnext] at hrun
      exact absurd hrun (by simp)
    | some next =>
      obtain ⟨hcondition, halong⟩ := halong
      rw [hnext] at hrun halong
      exact ih halong (hstep s event next hs hcondition hnext) hrun

end machine

end Pyrust.LruCache
