import Pyrust.DictLookup

/-!
# Insertions with user equality

An insertion asks user code only when some stored key may equal the new one
and not be it. `Coherent` says that no two stored keys are equal, that the
counts are those of the keys, and that an installed table holds them.
-/

set_option autoImplicit false

namespace Pyrust.DictInsertion
open Pyrust.DictProbeIndex Pyrust.DictProbeInvariant Pyrust.DictReplay Pyrust.DictOps
open Pyrust.DictLookup

universe u v w

section insertion
variable {K : Type u} {V : Type v} {E : Type w} [LookupKey K]

def needsDedup (d : PyDict K V) (key : K) : Bool :=
  isObject key || nestedObjectTupleKey key || dictHasObjectHashCandidate d key

def crossesRepresentation (d : PyDict K V) (key : K) : Bool :=
  if isObject key then mayHaveNonObjectKey d
  else if nestedObjectTupleKey key then !d.entries.isEmpty
  else mayHaveDynamicKey d

/-- The table before the lookup of an insertion. -/
def activateFor (d : PyDict K V) (key : K) : PyDict K V :=
  if d.pythonHashIndex.isNone && crossesRepresentation d key then ensurePythonHashIndex d else d

/-- The value goes to the entry at `i`, under its own key. -/
def replaceAt (d : PyDict K V) (i : ℕ) (key : K) (value : V) : PyDict K V :=
  match d.entries[i]? with
  | some (stored, _) => (insert d stored value).2
  | none => (insert d key value).2

def dictInsert (order : BucketOrder K) (eq : K → K → Except E Bool) (d : PyDict K V) (key : K)
    (value : V) : Except E (PyDict K V) :=
  let d := preparePythonInsert d key
  if needsDedup d key then
    let d := activateFor d key
    match dictLookupIn order eq d key with
    | .error e => .error e
    | .ok (some (i, _)) => .ok (replaceAt d i key value)
    | .ok none => .ok (insert d key value).2
  else .ok (insert d key value).2

/-- The insertion into a live dict: user code may change it before it answers. -/
def dictInsertValue (order : BucketOrder K) (script : List (Answer K V E)) (d : PyDict K V)
    (key : K) (value : V) : Option (Except E (PyDict K V)) :=
  let d := preparePythonInsert d key
  if needsDedup d key then
    match dictLookup order key script (activateFor d key) with
    | .found i _ _ d => some (.ok (replaceAt d i key value))
    | .missed _ d => some (.ok (insert d key value).2)
    | .raised e _ => some (.error e)
    | .asking => none
  else some (.ok (insert d key value).2)

/-! ## Answers that change nothing -/

/-- The answers of `eq` to the questions about `cands`. -/
def quietAnswers (eq : K → K → Except E Bool) (key : K) (cands : List K) :
    List (Answer K V E) :=
  cands.map fun cand => ⟨[], eq cand key⟩

/-- The answers that `eq` gives to a lookup in `d`. -/
def quietScript (order : BucketOrder K) (eq : K → K → Except E Bool) (d : PyDict K V) (key : K) :
    List (Answer K V E) :=
  quietAnswers eq key (collectDictUserEqCandidates order (settle d key) key)

def outcomeResult : Outcome K V E → Option (Except E (Option (ℕ × V)))
  | .found i value _ _ => some (.ok (some (i, value)))
  | .missed _ _ => some (.ok none)
  | .raised e _ => some (.error e)
  | .asking => none

def outcomeDict : Outcome K V E → Option (PyDict K V)
  | .found _ _ _ d => some d
  | .missed _ d => some d
  | .raised _ d => some d
  | .asking => none

theorem round_quiet (order : BucketOrder K) (eq : K → K → Except E Bool) (key : K)
    (asked : List (K × Bool)) (cands : List K) (d : PyDict K V) :
    outcomeResult (DictLookup.round order key (quietAnswers eq key cands) asked cands
        d.structuralVersion d) = some (firstEqual eq d key cands) ∧
      outcomeDict (DictLookup.round order key (quietAnswers eq key cands) asked cands
        d.structuralVersion d) = some d := by
  induction cands generalizing asked with
  | nil =>
    rw [quietAnswers, List.map_nil, DictLookup.round, firstEqual]
    exact ⟨rfl, rfl⟩
  | cons cand cands ih =>
    rw [quietAnswers, List.map_cons, DictLookup.round, firstEqual]
    cases eq cand key with
    | error e => exact ⟨rfl, rfl⟩
    | ok equal =>
      simp only [List.foldl_nil, bne_self_eq_false, Bool.false_eq_true, if_false]
      cases hentry : (if equal = true then dictEntryByKey d cand else none) with
      | some entry => exact ⟨rfl, rfl⟩
      | none => exact ih _

/-- A lookup that nobody disturbs reads the settled dict. -/
theorem dictLookup_quiet (order : BucketOrder K) (eq : K → K → Except E Bool) (d : PyDict K V)
    (key : K) :
    outcomeResult (dictLookup order key (quietScript order eq d key) d) =
        some (dictLookupIn order eq (settle d key) key) ∧
      outcomeDict (dictLookup order key (quietScript order eq d key) d) =
        some (settle d key) := by
  rw [dictLookup]
  split
  · rename_i hplain
    have hnow : lookupNow d key = some (dictEntryByKey d key) := if_pos hplain
    have hsettle : settle d key = d := by simp [settle, hnow]
    rw [hsettle, dictLookupIn, hnow]
    split
    · rename_i hentry
      rw [hentry]
      exact ⟨rfl, rfl⟩
    · rename_i hentry
      rw [hentry]
      exact ⟨rfl, rfl⟩
  · rw [dictLookupDynamic, dictLookupIn]
    cases hnow : lookupNow (settle d key) key with
    | none => exact round_quiet order eq key [] _ _
    | some entry =>
      cases entry with
      | some entry => exact ⟨rfl, rfl⟩
      | none => exact ⟨rfl, rfl⟩

/-! ## The invariant -/

/-- User equality as a side-effect-free equivalence, with what is known of it natively. -/
structure Equality (same : K → K → Bool) : Prop where
  symm : ∀ a b, same a b = true → same b a = true
  trans : ∀ a b c, same a b = true → same b c = true → same a c = true
  identical : ∀ a b : K, (a == b) = true → same a b = true
  hash : ∀ a b, same a b = true → pythonHash a = pythonHash b
  native : ∀ a b, same a b = true → containsObject a = false → containsObject b = false →
    (a == b) = true

structure Stored (same : K → K → Bool) (d : PyDict K V) : Prop where
  apart : d.keys.Pairwise fun a b => same a b = false
  objects : d.liveObjectKeyCount = d.keys.countP isObject
  dynamics : d.liveDynamicKeyCount = d.keys.countP containsObject
  table : ∀ index, d.pythonHashIndex = some index → Sound index ∧ index.liveKeys = d.keys
  history : d.mutationJournal = none
  size : d.initialTableSize = 0 ∨ ∃ k, d.initialTableSize = 2^k

structure Coherent (same : K → K → Bool) (d : PyDict K V) : Prop extends Stored same d where
  required : d.pythonHashIndex = none → requiresPythonHashIndex d = false

/-- A dict that nothing was inserted into yet, whatever size it was created for. -/
def freshDict (initialTableSize : ℕ) (kind : DictKeyTableKind) : PyDict K V :=
  { initialTableSize := initialTableSize, initialTableKind := kind, keyTableKind := kind }

variable {same : K → K → Bool} {d : PyDict K V}

theorem fresh_coherent (initialTableSize : ℕ) (kind : DictKeyTableKind)
    (hsize : initialTableSize = 0 ∨ ∃ k, initialTableSize = 2^k) :
    Coherent same (freshDict initialTableSize kind : PyDict K V) where
  apart := .nil
  objects := rfl
  dynamics := rfl
  table := fun index h => absurd h (Option.some_ne_none index).symm
  history := rfl
  size := hsize
  required := fun _ => rfl

theorem convertTo_sound {index : DictPythonHashIndex K} (hs : Sound index) (current : Bool) :
    Sound (convertTo current index) ∧ (convertTo current index).liveKeys = index.liveKeys := by
  unfold convertTo
  split
  · exact ⟨prepareGeneralInsert_sound hs, prepareGeneralInsert_liveKeys hs⟩
  · exact ⟨hs, rfl⟩

theorem Stored.reconstructed (h : Stored same d) :
    Sound (reconstruct d) ∧ (reconstruct d).liveKeys = d.keys := by
  obtain ⟨hsound, hlive⟩ := fold_recordInserted
    (fresh_sound (α := K) d.initialTableSize d.initialTableKind.isUnicode h.size) d.keys
  obtain ⟨hs, hl⟩ := convertTo_sound hsound d.keyTableKind.isUnicode
  rw [reconstruct, h.history]
  dsimp only
  rw [fromKeys_eq]
  refine ⟨hs, hl.trans (hlive.trans ?_)⟩
  rfl

theorem ensure_coherent (h : Stored same d) :
    Coherent same (ensurePythonHashIndex d) := by
  unfold ensurePythonHashIndex
  cases hindex : d.pythonHashIndex with
  | some index => exact ⟨h, fun hnone => by simp [hindex] at hnone⟩
  | none =>
    refine ⟨⟨h.apart, h.objects, h.dynamics, ?_, rfl, h.size⟩, fun hnone => by simp at hnone⟩
    intro index hsome
    rw [← Option.some.inj hsome]
    exact h.reconstructed

theorem prepare_coherent (h : Coherent same d) (key : K) :
    Coherent same (preparePythonInsert d key) := by
  unfold preparePythonInsert
  split
  · exact h
  · exact ⟨⟨h.apart, h.objects, h.dynamics, h.table, h.history, h.size⟩, h.required⟩
  · split
    · exact h
    · dsimp only
      split
      · exact ⟨⟨h.apart, h.objects, h.dynamics, h.table, h.history, Or.inr ⟨3, rfl⟩⟩, h.required⟩
      · have hgeneral : Stored same { d with keyTableKind := .general } :=
          ⟨h.apart, h.objects, h.dynamics, h.table, h.history, h.size⟩
        have hensured := ensure_coherent hgeneral
        refine ⟨⟨hensured.apart, hensured.objects, hensured.dynamics, ?_, hensured.history,
          hensured.size⟩, ?_⟩
        · intro index hindex
          obtain ⟨old, hold, rfl⟩ := Option.map_eq_some_iff.mp hindex
          obtain ⟨hs, hl⟩ := hensured.table old hold
          exact ⟨prepareGeneralInsert_sound hs, (prepareGeneralInsert_liveKeys hs).trans hl⟩
        · intro hnone
          exact hensured.required (Option.map_eq_none_iff.mp hnone)

theorem activateFor_coherent (h : Coherent same d) (key : K) :
    Coherent same (activateFor d key) := by
  unfold activateFor
  split
  · exact ensure_coherent h.toStored
  · exact h

theorem values_coherent (h : Coherent same d) {entries : List (K × V)}
    (hkeys : entries.map Prod.fst = d.keys) :
    Coherent same { d with entries := entries } := by
  have hlength : entries.length = d.entries.length := by
    simpa [PyDict.keys] using congrArg List.length hkeys
  refine ⟨⟨?_, ?_, ?_, ?_, h.history, h.size⟩, ?_⟩
  · rw [PyDict.keys, hkeys]
    exact h.apart
  · rw [PyDict.keys, hkeys]
    exact h.objects
  · rw [PyDict.keys, hkeys]
    exact h.dynamics
  · rw [PyDict.keys, hkeys]
    exact h.table
  · intro hnone
    rw [← h.required hnone]
    simp only [requiresPythonHashIndex, hlength]

/-- A key without an equal is recorded in the counts and in the table. -/
theorem record_coherent (h : Coherent same d) (key : K) (value : V)
    (hapart : ∀ stored ∈ d.keys, same stored key = false) :
    Coherent same (recordInsertedIndex { d with entries := d.entries ++ [(key, value)] } key) := by
  have hkeys : (d.entries ++ [(key, value)]).map Prod.fst = d.keys ++ [key] := by
    simp [PyDict.keys]
  have hapart' : (d.keys ++ [key]).Pairwise fun a b => same a b = false := by
    rw [List.pairwise_append]
    refine ⟨h.apart, List.pairwise_singleton _ _, fun a ha b hb => ?_⟩
    rw [List.mem_singleton.mp hb]
    exact hapart a ha
  have hcount : ∀ p : K → Bool, (d.keys ++ [key]).countP p = d.keys.countP p+(p key).toNat := by
    intro p
    rw [List.countP_append, List.countP_singleton]
    cases p key <;> rfl
  unfold recordInsertedIndex
  dsimp only
  cases hindex : d.pythonHashIndex with
  | some index =>
    obtain ⟨hs, hl⟩ := h.table index hindex
    refine ⟨⟨?_, ?_, ?_, ?_, h.history, h.size⟩, fun hnone => by simp at hnone⟩
    · rwa [PyDict.keys, hkeys]
    · rw [PyDict.keys, hkeys, hcount, h.objects]
    · rw [PyDict.keys, hkeys, hcount, h.dynamics]
    · intro index' hindex'
      rw [← Option.some.inj hindex', PyDict.keys, hkeys, ← hl]
      exact ⟨recordInserted_sound hs key, recordInserted_liveKeys hs key⟩
  | none =>
    simp only [journalInserted, h.history]
    have hstored : Stored same { d with
        entries := d.entries ++ [(key, value)]
        liveObjectKeyCount := d.liveObjectKeyCount+(isObject key).toNat
        liveDynamicKeyCount := d.liveDynamicKeyCount+(containsObject key).toNat
        structuralVersion := d.structuralVersion+1
        pythonHashIndex := none
        mutationJournal := none } := by
      refine ⟨?_, ?_, ?_, fun index' hsome => by simp at hsome, rfl, h.size⟩
      · rwa [PyDict.keys, hkeys]
      · rw [PyDict.keys, hkeys, hcount, h.objects]
      · rw [PyDict.keys, hkeys, hcount, h.dynamics]
    split
    · split
      · rename_i hnot
        exact ⟨hstored, fun _ => by simpa using hnot⟩
      · exact ensure_coherent hstored
    · -- neither the key nor any stored key is dynamic
      rename_i hplain
      refine ⟨hstored, fun _ => ?_⟩
      have hbase := h.required hindex
      simp only [Bool.or_eq_true, bne_iff_ne, not_or, Bool.not_eq_true, not_not] at hplain
      simp only [requiresPythonHashIndex, Bool.or_eq_false_iff, decide_eq_false_iff_not,
        Bool.and_eq_false_iff, bne_eq_false_iff_eq] at hbase ⊢
      rw [hplain.1]
      simp only [Bool.toNat_false]
      omega

/-! ## What the lookup of an insertion decides -/

/-- Without a table the dict holds objects only, or no dynamic key. -/
theorem Coherent.homogeneous (h : Coherent same d) (hindex : d.pythonHashIndex = none)
    [LawfulLookupKey K] {stored : K} (hs : stored ∈ d.keys) (hdynamic : containsObject stored = true) :
    mayHaveObjectKey d = true ∧ ∀ key ∈ d.keys, isObject key = true := by
  have hbase := h.required hindex
  have hpos : 0 < d.keys.countP containsObject := List.countP_pos_iff.mpr ⟨stored, hs, hdynamic⟩
  have hlength : d.entries.length = d.keys.length := by simp [PyDict.keys]
  simp only [requiresPythonHashIndex, Bool.or_eq_false_iff, decide_eq_false_iff_not,
    Bool.and_eq_false_iff, bne_eq_false_iff_eq, h.objects, h.dynamics, hlength] at hbase
  have hall : d.keys.countP isObject = d.keys.length := by
    have := List.countP_le_length (p := isObject) (l := d.keys)
    omega
  refine ⟨?_, List.countP_eq_length.mp hall⟩
  simp only [mayHaveObjectKey, bne_iff_ne, h.objects]
  omega

theorem Coherent.no_dynamic (h : Coherent same d) (hcount : mayHaveDynamicKey d = false) :
    ∀ stored ∈ d.keys, containsObject stored = false := by
  intro stored hs
  simp only [mayHaveDynamicKey, bne_eq_false_iff_eq, h.dynamics] at hcount
  exact Bool.eq_false_iff.mpr (List.countP_eq_zero.mp hcount stored hs)

/-- An installed table has every key of a hash among its candidates. -/
theorem Coherent.candidate (h : Coherent same d) {cands : List K} {hash : UInt64}
    (hcands : pythonHashCandidates d hash = some cands) {stored : K} (hs : stored ∈ d.keys)
    (hhash : pythonHash stored = hash) : stored ∈ cands := by
  obtain ⟨index, hindex, rfl⟩ := Option.map_eq_some_iff.mp hcands
  obtain ⟨hsound, hlive⟩ := h.table index hindex
  rw [← hhash]
  exact mem_candidates hsound (hlive ▸ hs)

theorem plain_key [LawfulLookupKey K] {key : K} (hobject : isObject key = false)
    (hnested : nestedObjectTupleKey key = false) : containsObject key = false := by
  by_contra hcontains
  rw [Bool.not_eq_false] at hcontains
  rcases LawfulLookupKey.contains_kind key hcontains with hkind | hkind
  · rw [hobject] at hkind
    exact Bool.false_ne_true hkind
  · simp [nestedObjectTupleKey, hkind, hcontains] at hnested

/-- Whenever a lookup of `key` asks user code, the table is there, or is not needed. -/
def Ready (d : PyDict K V) (key : K) : Prop :=
  lookupNow d key = none → d.pythonHashIndex = none →
    crossesRepresentation d key = false ∨ ∀ stored ∈ d.keys, isObject stored = true

/-- Without a table every key of a dict that is asked about is an object. -/
theorem Ready.objects [LawfulLookupKey K] (h : Coherent same d) {key : K} (hready : Ready d key)
    (hnow : lookupNow d key = none) (hindex : d.pythonHashIndex = none) {stored : K}
    (hs : stored ∈ d.keys) : ∀ key ∈ d.keys, isObject key = true := by
  rcases hready hnow hindex with hcross | hall
  · by_cases hobject : isObject key = true
    · have hlength : d.entries.length = d.keys.length := by simp [PyDict.keys]
      have hle := List.countP_le_length (p := isObject) (l := d.keys)
      rw [crossesRepresentation, if_pos hobject] at hcross
      simp only [mayHaveNonObjectKey, decide_eq_false_iff_not, h.objects, hlength] at hcross
      exact List.countP_eq_length.mp (by omega)
    · rw [Bool.not_eq_true] at hobject
      by_cases hnested : nestedObjectTupleKey key = true
      · rw [crossesRepresentation, hobject, if_neg Bool.false_ne_true, if_pos hnested,
          Bool.not_eq_false', List.isEmpty_iff] at hcross
        rw [PyDict.keys, hcross] at hs
        simp at hs
      · rw [Bool.not_eq_true] at hnested
        rw [crossesRepresentation, hobject, hnested, if_neg Bool.false_ne_true,
          if_neg Bool.false_ne_true] at hcross
        rw [lookupNow, hcross, plain_key hobject hnested] at hnow
        simp at hnow
  · exact hall

/-- Every key that may equal the new one is asked about. -/
theorem asked_about [LawfulLookupKey K] (order : BucketOrder K) (hsame : Equality same)
    (h : Coherent same d) {key : K} (hready : Ready d key) (hnow : lookupNow d key = none)
    {stored : K} (hs : stored ∈ d.keys) (heq : same stored key = true) :
    stored ∈ collectDictUserEqCandidates order d key := by
  have hhash := hsame.hash stored key heq
  unfold collectDictUserEqCandidates
  cases hindex : d.pythonHashIndex with
  | some index =>
    have hcands : pythonHashCandidates d (pythonHash key) =
        some ((candidates index (pythonHash key)).getD []) := by
      rw [pythonHashCandidates, hindex]
      rfl
    rw [hcands]
    exact h.candidate hcands hs hhash
  | none =>
    have hcands : pythonHashCandidates d (pythonHash key) = none := by
      rw [pythonHashCandidates, hindex]
      rfl
    have hall := hready.objects h hnow hindex hs
    have hlength : d.entries.length = d.keys.length := by simp [PyDict.keys]
    have hnative : mayHaveNonObjectKey d = false := by
      simp [mayHaveNonObjectKey, h.objects, hlength, List.countP_eq_length.mpr hall]
    have hmay := (h.homogeneous hindex hs
      (LawfulLookupKey.object_contains stored (hall stored hs))).1
    rw [hcands]
    dsimp only
    rw [hnative, Bool.and_false, Bool.false_and, if_neg Bool.false_ne_true,
      if_neg Bool.false_ne_true, if_pos hmay, objectBucket, List.mem_filter,
      (order.perm d.keys).mem_iff]
    exact ⟨hs, by simp [hall stored hs, hhash]⟩

theorem firstEqual_some {cands : List K} {key : K} {i : ℕ} {value : V}
    (h : firstEqual (E := E) (fun a b => .ok (same a b)) d key cands = .ok (some (i, value))) :
    ∃ cand ∈ cands, same cand key = true ∧ dictEntryByKey d cand = some (i, value) := by
  induction cands with
  | nil => simp [firstEqual] at h
  | cons cand cands ih =>
    rw [firstEqual] at h
    dsimp only at h
    cases hentry : (if same cand key = true then dictEntryByKey d cand else none) with
    | some entry =>
      rw [hentry] at h
      have hfound := Option.some.inj (Except.ok.inj h)
      subst hfound
      split_ifs at hentry with hcand
      exact ⟨cand, List.mem_cons_self, hcand, hentry⟩
    | none =>
      rw [hentry] at h
      obtain ⟨c, hc, hcand, hget⟩ := ih h
      exact ⟨c, List.mem_cons_of_mem cand hc, hcand, hget⟩

theorem firstEqual_none {cands : List K} {key : K}
    (h : firstEqual (E := E) (fun a b => .ok (same a b)) d key cands = .ok none) :
    ∀ cand ∈ cands, same cand key = true → dictEntryByKey d cand = none := by
  induction cands with
  | nil => simp
  | cons cand cands ih =>
    rw [firstEqual] at h
    dsimp only at h
    cases hentry : (if same cand key = true then dictEntryByKey d cand else none) with
    | some entry =>
      rw [hentry] at h
      exact absurd (Except.ok.inj h) (by simp)
    | none =>
      rw [hentry] at h
      intro c hc hcand
      rcases List.mem_cons.mp hc with rfl | hc
      · rwa [if_pos hcand] at hentry
      · exact ih h c hc hcand

theorem firstEqual_ok (eq : K → K → Bool) (d : PyDict K V) (cands : List K) (key : K) :
    ∃ found, firstEqual (E := E) (fun a b => .ok (eq a b)) d key cands = .ok found := by
  induction cands with
  | nil => exact ⟨none, rfl⟩
  | cons cand cands ih =>
    rw [firstEqual]
    dsimp only
    split
    · exact ⟨_, rfl⟩
    · exact ih

/-- With a pure equality the lookup always answers: with an equal entry, or with none when there
is none. -/
theorem dictLookupIn_decides [LawfulLookupKey K] (order : BucketOrder K) (hsame : Equality same)
    (h : Coherent same d) {key : K} (hready : Ready d key) :
    (∃ i value stored, dictLookupIn (E := E) order (fun a b => .ok (same a b)) d key =
        .ok (some (i, value)) ∧ d.entries[i]? = some (stored, value) ∧ same stored key = true) ∨
      dictLookupIn (E := E) order (fun a b => .ok (same a b)) d key = .ok none ∧
        ∀ stored ∈ d.keys, same stored key = false := by
  rw [dictLookupIn]
  cases hnow : lookupNow d key with
  | some entry =>
    cases entry with
    | some entry =>
      obtain ⟨stored, hget, hstored⟩ := dictEntryByKey_some (lookupNow_found hnow)
      exact Or.inl ⟨entry.1, entry.2, stored, rfl, hget, hsame.identical _ _ hstored⟩
    | none =>
      refine Or.inr ⟨rfl, fun stored hs => ?_⟩
      obtain ⟨habsent, hempty | ⟨hcount, hplain⟩⟩ := lookupNow_missed hnow
      · rw [hempty] at hs
        simp at hs
      · have hstored := h.no_dynamic (by simp [mayHaveDynamicKey, hcount]) stored hs
        by_contra heq
        rw [Bool.not_eq_false] at heq
        have hnative := hsame.native stored key heq hstored hplain
        rw [habsent stored hs] at hnative
        exact Bool.false_ne_true hnative
  | none =>
    dsimp only
    obtain ⟨found, hfound⟩ := firstEqual_ok (E := E) same d
      (collectDictUserEqCandidates order d key) key
    cases found with
    | some entry =>
      obtain ⟨cand, -, hcand, hget⟩ := firstEqual_some hfound
      obtain ⟨stored, hentry, hstored⟩ := dictEntryByKey_some hget
      exact Or.inl ⟨entry.1, entry.2, stored, hfound, hentry,
        hsame.trans _ _ _ (hsame.identical _ _ hstored) hcand⟩
    | none =>
      refine Or.inr ⟨hfound, fun stored hs => ?_⟩
      by_contra heq
      rw [Bool.not_eq_false] at heq
      have hasked := asked_about order hsame h hready hnow hs heq
      have hgone := firstEqual_none hfound stored hasked heq
      have hself := dictEntryByKey_none.mp hgone stored hs
      rw [BEq.refl stored] at hself
      exact Bool.false_ne_true hself.symm

/-! ## No two equal keys -/

/-- The keys after an insertion: the first of equal keys stays. -/
def keepFirst (same : K → K → Bool) (keys : List K) (key : K) : List K :=
  if keys.any fun stored => same stored key then keys else keys ++ [key]

omit [LookupKey K] in
theorem keepFirst_kept {keys : List K} {stored key : K} (hs : stored ∈ keys)
    (heq : same stored key = true) : keepFirst same keys key = keys :=
  if_pos (List.any_eq_true.mpr ⟨stored, hs, heq⟩)

omit [LookupKey K] in
theorem keepFirst_new {keys : List K} {key : K} (h : ∀ stored ∈ keys, same stored key = false) :
    keepFirst same keys key = keys ++ [key] := by
  apply if_neg
  rw [Bool.not_eq_true, List.any_eq_false]
  exact fun stored hs heq => Bool.false_ne_true ((h stored hs).symm.trans heq)

theorem prepare_entries (d : PyDict K V) (key : K) :
    (preparePythonInsert d key).entries = d.entries := by
  unfold preparePythonInsert
  split
  · rfl
  · rfl
  · split
    · rfl
    · dsimp only
      split
      · rfl
      · rw [ensure_entries]

theorem recordInsertedIndex_entries (d : PyDict K V) (key : K) :
    (recordInsertedIndex d key).entries = d.entries := by
  have hjournal : ∀ d : PyDict K V, (journalInserted d).entries = d.entries := by
    intro d
    unfold journalInserted
    split
    · rfl
    · split <;> rfl
  unfold recordInsertedIndex
  dsimp only
  split
  · rfl
  · split
    · split
      · rw [hjournal]
      · rw [ensure_entries, hjournal]
    · rw [hjournal]

/-- An insertion whose key equals no stored key but itself. -/
theorem insert_coherent (hsame : Equality same) (h : Coherent same d) (key : K) (value : V)
    (honly : ∀ stored ∈ d.keys, same stored key = true → (stored == key) = true) :
    Coherent same (insert d key value).2 ∧
      (insert d key value).2.keys = keepFirst same d.keys key := by
  have hprepared := prepare_coherent h key
  have hkeys : (preparePythonInsert d key).keys = d.keys :=
    congrArg (List.map Prod.fst) (prepare_entries d key)
  unfold DictOps.insert
  dsimp only
  split
  · rename_i i hindex
    obtain ⟨hlt, htest, -⟩ := List.findIdx?_eq_some_iff_getElem.mp hindex
    have hmem : ((preparePythonInsert d key).entries[i]).1 ∈ d.keys := by
      rw [← hkeys]
      exact List.mem_map_of_mem (List.getElem_mem hlt)
    refine ⟨values_coherent hprepared (modify_keys _ _ value), ?_⟩
    rw [keepFirst_kept hmem (hsame.identical _ _ htest), ← hkeys]
    exact modify_keys _ _ value
  · rename_i hnone
    have hapart : ∀ stored ∈ d.keys, same stored key = false := by
      intro stored hs
      by_contra heq
      rw [Bool.not_eq_false] at heq
      have hidentical := honly stored hs heq
      have habsent : dictEntryByKey (preparePythonInsert d key) key = none := by
        rw [dictEntryByKey, hnone]
        rfl
      rw [dictEntryByKey_none.mp habsent stored (hkeys ▸ hs)] at hidentical
      exact Bool.false_ne_true hidentical
    refine ⟨record_coherent hprepared key value (hkeys ▸ hapart), ?_⟩
    rw [keepFirst_new hapart, PyDict.keys, recordInsertedIndex_entries, ← hkeys]
    simp [PyDict.keys]

theorem replaceAt_coherent [LawfulLookupKey K] (hsame : Equality same) (h : Coherent same d)
    {i : ℕ} {stored : K} {value' : V} (hentry : d.entries[i]? = some (stored, value')) {key : K}
    (hkey : same stored key = true) (value : V) :
    Coherent same (replaceAt d i key value) ∧
      (replaceAt d i key value).keys = keepFirst same d.keys key := by
  have hmem : stored ∈ d.keys := List.mem_map_of_mem (List.mem_of_getElem? hentry)
  rw [replaceAt, hentry, keepFirst_kept hmem hkey,
    ← keepFirst_kept hmem (hsame.identical stored stored (BEq.refl stored))]
  apply insert_coherent hsame h
  have hstored : d.keys[i]? = some stored := by simp [PyDict.keys, hentry]
  intro other hother heq
  obtain ⟨j, hj⟩ := List.mem_iff_getElem?.mp hother
  have hapart := h.apart
  rw [List.pairwise_iff_getElem] at hapart
  obtain ⟨hi, hgeti⟩ := List.getElem?_eq_some_iff.mp hstored
  obtain ⟨hj', hgetj⟩ := List.getElem?_eq_some_iff.mp hj
  rcases Nat.lt_trichotomy i j with hlt | hij | hlt
  · have hne := hapart i j hi hj' hlt
    rw [hgeti, hgetj, hsame.symm _ _ heq] at hne
    exact absurd hne.symm Bool.false_ne_true
  · subst hij
    rw [hstored] at hj
    rw [Option.some.inj hj]
    exact BEq.refl other
  · have hne := hapart j i hj' hi hlt
    rw [hgeti, hgetj, heq] at hne
    exact absurd hne.symm Bool.false_ne_true

/-- Without a reason to ask, only the key itself can equal the key. -/
theorem only_itself [LawfulLookupKey K] (hsame : Equality same) (h : Coherent same d) {key : K}
    (hdedup : needsDedup d key = false) :
    ∀ stored ∈ d.keys, same stored key = true → (stored == key) = true := by
  intro stored hs heq
  simp only [needsDedup, Bool.or_eq_false_iff] at hdedup
  obtain ⟨⟨hobject, hnested⟩, hcandidate⟩ := hdedup
  apply hsame.native stored key heq _ (plain_key hobject hnested)
  have hhash := hsame.hash stored key heq
  by_contra hdynamic
  rw [Bool.not_eq_false] at hdynamic
  rw [dictHasObjectHashCandidate] at hcandidate
  cases hindex : d.pythonHashIndex with
  | some index =>
    have hcands : pythonHashCandidates d (pythonHash key) =
        some ((candidates index (pythonHash key)).getD []) := by
      rw [pythonHashCandidates, hindex]
      rfl
    rw [hcands] at hcandidate
    have hmem := h.candidate hcands hs hhash
    exact List.any_eq_false.mp hcandidate stored hmem hdynamic
  | none =>
    have hcands : pythonHashCandidates d (pythonHash key) = none := by
      rw [pythonHashCandidates, hindex]
      rfl
    obtain ⟨hmay, hall⟩ := h.homogeneous hindex hs hdynamic
    rw [hcands] at hcandidate
    simp only [hmay, Bool.true_and] at hcandidate
    exact List.any_eq_false.mp hcandidate stored hs (by simp [hall stored hs, hhash])

theorem activateFor_ready (d : PyDict K V) (key : K) : Ready (activateFor d key) key := by
  unfold activateFor
  split
  · intro _ hnone
    unfold ensurePythonHashIndex at hnone
    split at hnone
    · rename_i hsome
      rw [hnone] at hsome
      exact absurd hsome (by simp)
    · exact absurd hnone (by simp)
  · rename_i hcross
    intro _ hnone
    rw [hnone] at hcross
    exact Or.inl (by simpa using hcross)

theorem prepared_keys (d : PyDict K V) (key : K) : (preparePythonInsert d key).keys = d.keys :=
  congrArg (List.map Prod.fst) (prepare_entries d key)

theorem activated_keys (d : PyDict K V) (key : K) : (activateFor d key).keys = d.keys := by
  unfold activateFor
  split
  · exact congrArg (List.map Prod.fst) (ensure_entries d)
  · rfl

theorem settle_entries (d : PyDict K V) (key : K) : (settle d key).entries = d.entries := by
  unfold settle
  split
  · exact ensure_entries d
  · rfl

theorem settled_keys (d : PyDict K V) (key : K) : (settle d key).keys = d.keys :=
  congrArg (List.map Prod.fst) (settle_entries d key)

/-- An owned dict stays without equal keys. -/
theorem dictInsert_coherent [LawfulLookupKey K] (order : BucketOrder K) (hsame : Equality same)
    (h : Coherent same d) (key : K) (value : V) :
    ∃ d', dictInsert (E := E) order (fun a b => .ok (same a b)) d key value = .ok d' ∧
      Coherent same d' ∧ d'.keys = keepFirst same d.keys key := by
  have hprepared := prepare_coherent h key
  rw [← prepared_keys d key]
  rw [dictInsert]
  dsimp only
  by_cases hdedup : needsDedup (preparePythonInsert d key) key = true
  · rw [if_pos hdedup]
    have hactive := activateFor_coherent hprepared key
    rcases dictLookupIn_decides (E := E) order hsame hactive (activateFor_ready _ key) with
      ⟨i, value', stored, hfound, hentry, heq⟩ | ⟨hmissed, hapart⟩
    · rw [hfound, ← activated_keys _ key]
      exact ⟨_, rfl, replaceAt_coherent hsame hactive hentry heq value⟩
    · rw [hmissed, ← activated_keys _ key]
      refine ⟨_, rfl, insert_coherent hsame hactive key value fun stored hs heq => ?_⟩
      rw [hapart stored hs] at heq
      exact absurd heq Bool.false_ne_true
  · rw [if_neg hdedup]
    exact ⟨_, rfl, insert_coherent hsame hprepared key value
      (only_itself hsame hprepared (Bool.eq_false_iff.mpr hdedup))⟩

theorem settle_coherent (h : Coherent same d) (key : K) : Coherent same (settle d key) := by
  unfold settle
  split
  · exact ensure_coherent h.toStored
  · exact h

theorem ensure_installed (d : PyDict K V) : (ensurePythonHashIndex d).pythonHashIndex ≠ none := by
  unfold ensurePythonHashIndex
  split
  · rename_i hsome
    simp [hsome]
  · simp

/-- A settled dict can be asked about any key. -/
theorem settle_ready [LawfulLookupKey K] (h : Coherent same d) (key : K) :
    Ready (settle d key) key := by
  unfold settle
  split
  · exact fun _ hnone => absurd hnone (ensure_installed d)
  · rename_i hneeds
    intro hnow hindex
    simp only [hnow, Option.isNone_none, Bool.true_and, Bool.not_eq_true,
      dictLookupNeedsPythonHashIndex, hindex, Option.isSome_none, Bool.false_eq_true,
      if_false] at hneeds
    by_cases hdynamic : ∃ stored ∈ d.keys, containsObject stored = true
    · obtain ⟨stored, hs, hstored⟩ := hdynamic
      exact Or.inr (h.homogeneous hindex hs hstored).2
    · have hzero : d.liveDynamicKeyCount = 0 := by
        rw [h.dynamics, List.countP_eq_zero]
        exact fun stored hs hstored => hdynamic ⟨stored, hs, hstored⟩
      rw [crossesRepresentation]
      by_cases hobject : isObject key = true
      · rw [if_pos hobject] at hneeds ⊢
        exact Or.inl hneeds
      · rw [if_neg hobject] at hneeds ⊢
        by_cases hnested : nestedObjectTupleKey key = true
        · rw [if_pos hnested] at hneeds ⊢
          simp only [mayHaveNonDynamicKey, hzero, decide_eq_false_iff_not, Nat.not_lt,
            Nat.le_zero, List.length_eq_zero_iff] at hneeds
          exact Or.inl (by simp [hneeds])
        · rw [if_neg hnested]
          exact Or.inl (by simp [mayHaveDynamicKey, hzero])

/-- A live dict stays without equal keys when nobody disturbs the insertion. -/
theorem dictInsertValue_coherent [LawfulLookupKey K] (order : BucketOrder K)
    (hsame : Equality same) (h : Coherent same d) (key : K) (value : V) :
    ∃ d', dictInsertValue order (quietScript order (fun a b => Except.ok (ε := E) (same a b))
        (activateFor (preparePythonInsert d key) key) key) d key value = some (.ok d') ∧
      Coherent same d' ∧ d'.keys = keepFirst same d.keys key := by
  have hprepared := prepare_coherent h key
  rw [← prepared_keys d key]
  rw [dictInsertValue]
  by_cases hdedup : needsDedup (preparePythonInsert d key) key = true
  · rw [if_pos hdedup]
    have hactive := activateFor_coherent hprepared key
    have hsettled := settle_coherent hactive key
    obtain ⟨hresult, hdict⟩ := dictLookup_quiet order (fun a b => Except.ok (ε := E) (same a b))
      (activateFor (preparePythonInsert d key) key) key
    have hdecides := dictLookupIn_decides (E := E) order hsame hsettled
      (settle_ready hactive key)
    generalize dictLookup order key _ (activateFor (preparePythonInsert d key) key) = outcome
      at hresult hdict
    rw [← activated_keys _ key, ← settled_keys _ key]
    rcases hdecides with ⟨i, value', stored, hfound, hentry, heq⟩ | ⟨hmissed, hapart⟩
    · rw [hfound] at hresult
      cases outcome with
      | found i' value'' accepted d' =>
        obtain ⟨rfl, rfl⟩ := Prod.mk.inj (Option.some.inj (Except.ok.inj (Option.some.inj hresult)))
        rw [Option.some.inj hdict]
        exact ⟨_, rfl, replaceAt_coherent hsame hsettled hentry heq value⟩
      | missed asked d' => simp [outcomeResult] at hresult
      | raised e d' => simp [outcomeResult] at hresult
      | asking => simp [outcomeResult] at hresult
    · rw [hmissed] at hresult
      cases outcome with
      | missed asked d' =>
        rw [Option.some.inj hdict]
        refine ⟨_, rfl, insert_coherent hsame hsettled key value fun stored hs heq => ?_⟩
        rw [hapart stored hs] at heq
        exact absurd heq Bool.false_ne_true
      | found i' value'' accepted d' => simp [outcomeResult] at hresult
      | raised e d' => simp [outcomeResult] at hresult
      | asking => simp [outcomeResult] at hresult
  · rw [if_neg hdedup]
    exact ⟨_, rfl, insert_coherent hsame hprepared key value
      (only_itself hsame hprepared (Bool.eq_false_iff.mpr hdedup))⟩

/-- One insertion, into a dict of one's own or into a live one. -/
def insertPair (order : BucketOrder K) (same : K → K → Bool) (live : Bool) (d : PyDict K V)
    (key : K) (value : V) : Option (Except E (PyDict K V)) :=
  if live then
    dictInsertValue order (quietScript order (fun a b => .ok (same a b))
      (activateFor (preparePythonInsert d key) key) key) d key value
  else some (dictInsert order (fun a b => .ok (same a b)) d key value)

def insertPairs (E : Type w) (order : BucketOrder K) (same : K → K → Bool) :
    List (Bool × K × V) → PyDict K V → Option (PyDict K V)
  | [], d => some d
  | (live, key, value)::pairs, d =>
    match insertPair (E := E) order same live d key value with
    | some (.ok d) => insertPairs E order same pairs d
    | _ => none

attribute [local simp] insertPairs in
theorem insertPairs_coherent [LawfulLookupKey K] (order : BucketOrder K) (hsame : Equality same)
    (pairs : List (Bool × K × V)) (h : Coherent same d) :
    ∃ d', insertPairs E order same pairs d = some d' ∧ Coherent same d' ∧
      d'.keys = (pairs.map fun pair => pair.2.1).foldl (keepFirst same) d.keys := by
  induction pairs generalizing d with
  | nil => exact ⟨d, rfl, h, rfl⟩
  | cons pair pairs ih =>
    obtain ⟨live, key, value⟩ := pair
    have hpair : ∃ d', insertPair (E := E) order same live d key value = some (.ok d') ∧
        Coherent same d' ∧ d'.keys = keepFirst same d.keys key := by
      cases live with
      | true => exact dictInsertValue_coherent order hsame h key value
      | false =>
        obtain ⟨d', hd', hcoherent⟩ := dictInsert_coherent (E := E) order hsame h key value
        exact ⟨d', congrArg some hd', hcoherent⟩
    obtain ⟨d', hd', hcoherent, hkeys⟩ := hpair
    rw [insertPairs, hd', List.map_cons, List.foldl_cons, ← hkeys]
    exact ih hcoherent

end insertion

end Pyrust.DictInsertion
