import Pyrust.DictOps

/-!
# Lookups that ask user code

A key that is, or contains, an object can only be compared by user code, and
that code may change the dict that is searched. The lookup takes the keys to
ask about in one piece, and starts again when an answer comes back with
another version stamp. User code is a script: one answer for each question,
with what the code did to the dict before it answered.
-/

set_option autoImplicit false

namespace Pyrust.DictLookup
open Pyrust.DictProbeIndex Pyrust.DictOps

universe u v w

/-- What a lookup reads of a key beyond what the table reads. -/
class LookupKey (K : Type u) extends DictKey K where
  isAggregate : K → Bool
  backingHash : K → UInt64

export LookupKey (isAggregate backingHash)

/-- Only an object, or an aggregate around one, contains an object. -/
class LawfulLookupKey (K : Type u) [LookupKey K] : Prop extends EquivBEq K where
  contains_kind : ∀ key : K, containsObject key = true →
    isObject key = true ∨ isAggregate key = true
  object_contains : ∀ key : K, isObject key = true → containsObject key = true
  aggregate_native : ∀ key : K, isAggregate key = true → isObject key = false

/-- The order in which the backing map walks its entries. -/
structure BucketOrder (K : Type u) where
  walk : List K → List K
  perm : ∀ keys, (walk keys).Perm keys

section lookup
variable {K : Type u} {V : Type v} {E : Type w} [LookupKey K]

def nestedObjectTupleKey (key : K) : Bool := isAggregate key && containsObject key

/-! ## What the dict may hold -/

def mayHaveNonObjectKey (d : PyDict K V) : Bool := d.liveObjectKeyCount < d.entries.length

def mayHaveObjectKey (d : PyDict K V) : Bool := d.liveObjectKeyCount != 0

def mayHaveDynamicKey (d : PyDict K V) : Bool := d.liveDynamicKeyCount != 0

def mayHaveNonDynamicKey (d : PyDict K V) : Bool := d.liveDynamicKeyCount < d.entries.length

def pythonHashCandidates (d : PyDict K V) (hash : UInt64) : Option (List K) :=
  d.pythonHashIndex.map fun index => (candidates index hash).getD []

def dictLookupNeedsPythonHashIndex (d : PyDict K V) (probe : K) : Bool :=
  if d.pythonHashIndex.isSome then false
  else if isObject probe then mayHaveNonObjectKey d
  else if nestedObjectTupleKey probe then mayHaveNonDynamicKey d
  else if isAggregate probe then mayHaveDynamicKey d
  else false

def dictLookupRequiresPythonProbe (d : PyDict K V) (probe : K) : Bool :=
  if isObject probe then mayHaveObjectKey d
  else
    match pythonHashCandidates d (pythonHash probe) with
    | none => dictLookupNeedsPythonHashIndex d probe
    | some candidates =>
      if nestedObjectTupleKey probe then true
      else if isAggregate probe then candidates.any containsObject
      else candidates.any isObject

/-- The objects in the bucket that a Python hash selects in the backing map. -/
def objectBucket (order : BucketOrder K) (d : PyDict K V) (hash : UInt64) : List K :=
  (order.walk d.keys).filter fun key => isObject key && pythonHash key == hash

def collectDictUserEqCandidates (order : BucketOrder K) (d : PyDict K V) (probe : K) : List K :=
  match pythonHashCandidates d (pythonHash probe) with
  | some candidates => candidates
  | none =>
    let candidates :=
      if isObject probe && mayHaveNonObjectKey d then
        d.keys.filter fun key => pythonHash key == pythonHash probe
      else if mayHaveObjectKey d then objectBucket order d (pythonHash probe)
      else []
    if mayHaveNonObjectKey d && nestedObjectTupleKey probe then
      candidates ++ (order.walk d.keys).filter fun key =>
        backingHash key == backingHash probe && nestedObjectTupleKey key
    else candidates

def dictMayHaveUserEqCandidate (d : PyDict K V) (probe : K) : Bool :=
  if isObject probe || nestedObjectTupleKey probe then
    mayHaveObjectKey d || mayHaveNonObjectKey d
  else mayHaveDynamicKey d

def dictHasObjectHashCandidate (d : PyDict K V) (probe : K) : Bool :=
  match pythonHashCandidates d (pythonHash probe) with
  | some candidates => candidates.any containsObject
  | none =>
    mayHaveObjectKey d && d.keys.any fun key => isObject key && pythonHash key == pythonHash probe

/-- `get_full`: the position and the value of the entry with this exact key. -/
def dictEntryByKey (d : PyDict K V) (key : K) : Option (ℕ × V) :=
  (indexOf d key).bind fun i => d.entries[i]?.map fun entry => (i, entry.2)

/-- The answer of a lookup that asks no user code, if it is one. -/
def lookupNow (d : PyDict K V) (key : K) : Option (Option (ℕ × V)) :=
  let exact := dictEntryByKey d key
  if !mayHaveDynamicKey d && !containsObject key then some exact
  else if !dictLookupRequiresPythonProbe d key && exact.isSome then some exact
  else if !dictMayHaveUserEqCandidate d key then some none
  else none

/-! ## What user code may do to the dict -/

inductive Mutation (K : Type u) (V : Type v) where
  | insert (key : K) (value : V)
  | shiftRemove (key : K)
  | swapRemove (key : K)
  | pop
  | retain (keep : ℕ → K → V → Bool × V)
  | clear
  | moveIndex (source target : ℕ)
  | prepareInsert (key : K)
  | activate

def swapRemove (d : PyDict K V) (key : K) : PyDict K V :=
  match indexOf d key with
  | none => d
  | some i =>
    match d.entries[i]?, d.entries.getLast? with
    | some (stored, _), some last =>
      let d := ensurePythonHashIndex d
      recordRemovedKey { d with entries := (d.entries.set i last).dropLast } i stored false
    | _, _ => d

def moveIndex (d : PyDict K V) (source target : ℕ) : PyDict K V :=
  let d := ensurePythonHashIndex d
  match d.entries[source]? with
  | none => d
  | some entry =>
    let rest := d.entries.eraseIdx source
    { d with entries := rest.take target ++ entry::rest.drop target }

def mutate (d : PyDict K V) : Mutation K V → PyDict K V
  | .insert key value => (insert d key value).2
  | .shiftRemove key => (shiftRemove d key).2
  | .swapRemove key => swapRemove d key
  | .pop => (pop d).2
  | .retain keep => retain d keep
  | .clear => clear d
  | .moveIndex source target => moveIndex d source target
  | .prepareInsert key => preparePythonInsert d key
  | .activate => ensurePythonHashIndex d

/-- One comparison by user code: what it does to the dict, and what it answers or raises. -/
structure Answer (K : Type u) (V : Type v) (E : Type w) where
  mutations : List (Mutation K V)
  result : Except E Bool

/-! ## The lookup -/

/-- How a lookup ends. A miss keeps the questions of its last round with their answers, a hit the
key that was declared equal unless it was found as it is. -/
inductive Outcome (K : Type u) (V : Type v) (E : Type w) where
  | found (index : ℕ) (value : V) (accepted : Option K) (d : PyDict K V)
  | missed (asked : List (K × Bool)) (d : PyDict K V)
  | raised (error : E) (d : PyDict K V)
  | asking

/-- A probe that crosses representations installs the table before it reads it. -/
def settle (d : PyDict K V) (key : K) : PyDict K V :=
  if (lookupNow d key).isNone && dictLookupNeedsPythonHashIndex d key then ensurePythonHashIndex d
  else d

/-- A round of the lookup, over the answers that user code still gives. -/
def round (order : BucketOrder K) (key : K) :
    List (Answer K V E) → List (K × Bool) → List K → UInt64 → PyDict K V → Outcome K V E
  | _, asked, [], _, d => .missed asked d
  | [], _, _::_, _, _ => .asking
  | answer::script, asked, cand::cands, observedVersion, d =>
    let d := answer.mutations.foldl mutate d
    match answer.result with
    | .error e => .raised e d
    | .ok equal =>
      if d.structuralVersion != observedVersion then
        -- the snapshot is stale: start again from the live dict
        let d := settle d key
        match lookupNow d key with
        | some (some (i, value)) => .found i value none d
        | some none => .missed [] d
        | none =>
          round order key script [] (collectDictUserEqCandidates order d key)
            d.structuralVersion d
      else
        match (if equal then dictEntryByKey d cand else none) with
        | some (i, value) => .found i value (some cand) d
        | none => round order key script (asked ++ [(cand, equal)]) cands observedVersion d

def dictLookupDynamic (order : BucketOrder K) (key : K) (script : List (Answer K V E))
    (d : PyDict K V) : Outcome K V E :=
  let d := settle d key
  match lookupNow d key with
  | some (some (i, value)) => .found i value none d
  | some none => .missed [] d
  | none =>
    round order key script [] (collectDictUserEqCandidates order d key) d.structuralVersion d

def dictLookup (order : BucketOrder K) (key : K) (script : List (Answer K V E))
    (d : PyDict K V) : Outcome K V E :=
  if !mayHaveDynamicKey d && !containsObject key then
    match dictEntryByKey d key with
    | some (i, value) => .found i value none d
    | none => .missed [] d
  else dictLookupDynamic order key script d

/-- The candidates of `dict_lookup_in`, compared one after another. -/
def firstEqual (eq : K → K → Except E Bool) (d : PyDict K V) (key : K) :
    List K → Except E (Option (ℕ × V))
  | [] => .ok none
  | cand::cands =>
    match eq cand key with
    | .error e => .error e
    | .ok equal =>
      match (if equal then dictEntryByKey d cand else none) with
      | some entry => .ok (some entry)
      | none => firstEqual eq d key cands

def dictLookupIn (order : BucketOrder K) (eq : K → K → Except E Bool) (d : PyDict K V) (key : K) :
    Except E (Option (ℕ × V)) :=
  match lookupNow d key with
  | some entry => .ok entry
  | none => firstEqual eq d key (collectDictUserEqCandidates order d key)

end lookup

/-! ## Version stamps -/

section stamps
variable {K : Type u} {V : Type v} [LookupKey K]

/-- `n` new stamps, and without one the keys are those that were there. -/
structure Evolves (n : ℕ) (d d' : PyDict K V) : Prop where
  version : d'.structuralVersion = d.structuralVersion+UInt64.ofNat n
  keys : n = 0 → d'.keys.Perm d.keys

omit [LookupKey K] in
theorem Evolves.same {d d' : PyDict K V} (hv : d'.structuralVersion = d.structuralVersion)
    (hk : d'.keys.Perm d.keys) : Evolves 0 d d' :=
  ⟨by rw [hv]; simp, fun _ => hk⟩

omit [LookupKey K] in
theorem Evolves.once {d d' : PyDict K V} (hv : d'.structuralVersion = d.structuralVersion+1) :
    Evolves 1 d d' :=
  ⟨hv, fun h => absurd h (by omega)⟩

omit [LookupKey K] in
theorem Evolves.trans {n m : ℕ} {a b c : PyDict K V} (h : Evolves n a b) (h' : Evolves m b c) :
    Evolves (n+m) a c := by
  constructor
  · rw [h'.version, h.version, UInt64.add_assoc, UInt64.ofNat_add]
  · intro hz
    exact (h'.keys (by omega)).trans (h.keys (by omega))

theorem ensure_cases (d : PyDict K V) :
    ensurePythonHashIndex d = d ∨ ensurePythonHashIndex d =
      { d with pythonHashIndex := some (reconstruct d), mutationJournal := none } := by
  unfold ensurePythonHashIndex
  split
  · exact .inl rfl
  · exact .inr rfl

theorem ensure_entries (d : PyDict K V) : (ensurePythonHashIndex d).entries = d.entries := by
  rcases ensure_cases d with h | h
  · rw [h]
  · rw [h]

end stamps

/-! ## Answers for the dict as it is -/

section validity
variable {K : Type u} {V : Type v} {E : Type w} [LookupKey K]

theorem dictEntryByKey_some {d : PyDict K V} {key : K} {i : ℕ} {value : V}
    (h : dictEntryByKey d key = some (i, value)) :
    ∃ stored, d.entries[i]? = some (stored, value) ∧ (stored == key) = true := by
  obtain ⟨j, hj, hentry⟩ := Option.bind_eq_some_iff.mp h
  obtain ⟨⟨stored, value'⟩, hget, heq⟩ := Option.map_eq_some_iff.mp hentry
  obtain ⟨rfl, rfl⟩ := Prod.mk.inj heq
  refine ⟨stored, hget, ?_⟩
  obtain ⟨hlt, htest, -⟩ := List.findIdx?_eq_some_iff_getElem.mp hj
  rw [(List.getElem?_eq_some_iff.mp hget).2] at htest
  exact htest

theorem dictEntryByKey_none {d : PyDict K V} {key : K} :
    dictEntryByKey d key = none ↔ ∀ stored ∈ d.keys, (stored == key) = false := by
  have hindex : dictEntryByKey d key = none ↔ indexOf d key = none := by
    rw [dictEntryByKey]
    constructor
    · intro h
      by_contra hne
      obtain ⟨j, hj⟩ := Option.ne_none_iff_exists'.mp hne
      obtain ⟨hlt, -⟩ := List.findIdx?_eq_some_iff_getElem.mp hj
      simp [hj, List.getElem?_eq_getElem hlt] at h
    · intro h
      rw [h]
      rfl
  rw [hindex, indexOf, List.findIdx?_eq_none_iff]
  simp [PyDict.keys]

/-- A probe order all of whose live keys were declared unequal, in a table that is still that of
the dict. -/
structure Exhausted (order : BucketOrder K) (key : K) (asked : List (K × Bool))
    (d : PyDict K V) : Prop where
  probed : ∃ d₀ : PyDict K V, d.keys.Perm d₀.keys ∧ d.structuralVersion = d₀.structuralVersion ∧
    asked.map Prod.fst = collectDictUserEqCandidates order d₀ key
  declined : ∀ cand, (cand, true) ∈ asked → dictEntryByKey d cand = none

/-- No key is the searched one, and there is nobody to ask about the others. -/
structure NativeMiss (key : K) (d : PyDict K V) : Prop where
  absent : ∀ stored ∈ d.keys, (stored == key) = false
  undisputed : d.keys = [] ∨ d.liveDynamicKeyCount = 0 ∧ containsObject key = false

/-- An answer valid for the dict as it is when the lookup returns. -/
def Valid (order : BucketOrder K) (key : K) (script : List (Answer K V E)) :
    Outcome K V E → Prop
  | .found i value none d =>
    ∃ stored, d.entries[i]? = some (stored, value) ∧ (stored == key) = true
  | .found i value (some cand) d =>
    (∃ stored, d.entries[i]? = some (stored, value) ∧ (stored == cand) = true) ∧
      ∃ answer ∈ script, answer.result = .ok true
  | .missed asked d => Exhausted order key asked d ∨ asked = [] ∧ NativeMiss key d
  | .raised error _ => ∃ answer ∈ script, answer.result = .error error
  | .asking => True

theorem Valid.cons {order : BucketOrder K} {key : K} {script : List (Answer K V E)}
    {outcome : Outcome K V E} (answer : Answer K V E) (h : Valid order key script outcome) :
    Valid order key (answer::script) outcome := by
  cases outcome with
  | found i value accepted d =>
    cases accepted with
    | none => exact h
    | some cand =>
      obtain ⟨hentry, given, hgiven, hresult⟩ := h
      exact ⟨hentry, given, List.mem_cons_of_mem answer hgiven, hresult⟩
  | missed asked d => exact h
  | raised error d =>
    obtain ⟨given, hgiven, hresult⟩ := h
    exact ⟨given, List.mem_cons_of_mem answer hgiven, hresult⟩
  | asking => trivial

theorem lookupNow_found {d : PyDict K V} {key : K} {i : ℕ} {value : V}
    (h : lookupNow d key = some (some (i, value))) :
    dictEntryByKey d key = some (i, value) := by
  unfold lookupNow at h
  dsimp only at h
  split_ifs at h with hplain hexact hnobody
  · exact Option.some.inj h
  · exact Option.some.inj h
  · exact absurd (Option.some.inj h) (by simp)

theorem lookupNow_missed [LawfulLookupKey K] {d : PyDict K V} {key : K}
    (h : lookupNow d key = some none) : NativeMiss key d := by
  unfold lookupNow at h
  dsimp only at h
  split_ifs at h with hplain hexact hnobody
  · simp only [mayHaveDynamicKey, Bool.and_eq_true, Bool.not_eq_true', bne_eq_false_iff_eq]
      at hplain
    exact ⟨dictEntryByKey_none.mp (Option.some.inj h), Or.inr hplain⟩
  · rw [Option.some.inj h] at hexact
    simp at hexact
  · simp only [dictMayHaveUserEqCandidate, Bool.not_eq_true'] at hnobody
    split_ifs at hnobody with hasks
    · simp only [mayHaveObjectKey, mayHaveNonObjectKey, Bool.or_eq_false_iff,
        bne_eq_false_iff_eq, decide_eq_false_iff_not] at hnobody
      have hempty : d.keys = [] := by
        rw [PyDict.keys, List.map_eq_nil_iff, ← List.length_eq_zero_iff]
        omega
      exact ⟨by simp [hempty], Or.inl hempty⟩
    · -- a key with objects in it is an object or an aggregate
      simp only [hnobody, Bool.not_false, Bool.true_and, Bool.not_eq_true',
        Bool.not_eq_false] at hplain
      simp only [nestedObjectTupleKey, hplain, Bool.and_true, Bool.or_eq_true] at hasks
      exact absurd (LawfulLookupKey.contains_kind key hplain) hasks

end validity

end Pyrust.DictLookup
