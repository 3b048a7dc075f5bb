import Mathlib.Data.List.Pairwise
import Pyrust.DictAgreement

/-!
# Membership in a set and in a dict

A set asks user code about the keys of its own bucket only, and only where the
kinds of the two keys suggest that they may be equal. A dict asks through its
probe table. Both are built here from the same keys, and compared.
-/

set_option autoImplicit false

namespace Pyrust.SetMembership
open Pyrust.DictProbeIndex Pyrust.DictOps Pyrust.DictLookup Pyrust.DictInsertion
  Pyrust.DictAgreement

universe u v w

/-- What a set reads of a key beyond what a dict reads. -/
class SetKey (K : Type u) extends LookupKey K where
  isNone : K → Bool
  noneHash : UInt64

export SetKey (isNone)

/-- There is one `None`, and it shares its bucket with the objects that hash like it. -/
class LawfulSetKey (K : Type u) [SetKey K] : Prop extends LawfulLookupKey K where
  none_plain : ∀ key : K, isNone key = true → isObject key = false ∧ isAggregate key = false
  none_hash : ∀ key : K, isNone key = true → pythonHash key = SetKey.noneHash K
  object_backing : ∀ a b : K, (isObject a = true ∨ isNone a = true) →
    (isObject b = true ∨ isNone b = true) → pythonHash a = pythonHash b →
    backingHash a = backingHash b
  none_unique : ∀ a b : K, isNone a = true → isNone b = true → (a == b) = true

section membership
variable {K : Type u} {V : Type v} {E : Type w} [SetKey K]

def getIndexOf (set : List K) (key : K) : Option ℕ := set.findIdx? fun stored => stored == key

def collectObjectBucketKeysSet (order : BucketOrder K) (set : List K) (probe : K)
    (isMatch : K → Bool) : List K :=
  (order.walk set).filter fun key => backingHash key == backingHash probe && isMatch key

/-- The candidates, asked about one after another. -/
def firstDeclared (ask : K → Except E Bool) (set : List K) : List K → Except E (Option ℕ)
  | [] => .ok none
  | cand::cands =>
    match ask cand with
    | .error e => .error e
    | .ok true => .ok (getIndexOf set cand)
    | .ok false => firstDeclared ask set cands

def setLookup (order : BucketOrder K) (eq : K → K → Except E Bool) (set : List K) (key : K) :
    Except E (Option ℕ) :=
  match getIndexOf set key with
  | some i => .ok (some i)
  | none =>
    if isObject key then
      firstDeclared (fun cand => eq cand key) set <|
        collectObjectBucketKeysSet order set key fun stored =>
          if isObject stored then pythonHash stored == pythonHash key
          else isNone stored && pythonHash key == SetKey.noneHash K
    else if isNone key then
      firstDeclared (fun cand => eq key cand) set <|
        collectObjectBucketKeysSet order set key fun stored =>
          isObject stored && pythonHash stored == SetKey.noneHash K
    else if nestedObjectTupleKey key then
      firstDeclared (fun cand => eq cand key) set <|
        collectObjectBucketKeysSet order set key nestedObjectTupleKey
    else .ok none

def setNeedsDedup (set : List K) (key : K) : Bool :=
  if isObject key then true
  else if nestedObjectTupleKey key then true
  else isNone key &&
    set.any fun stored => isObject stored && pythonHash stored == SetKey.noneHash K

/-- `IndexSet::insert`. -/
def addKey (set : List K) (key : K) : List K :=
  if (getIndexOf set key).isSome then set else set ++ [key]

def setInsert (order : BucketOrder K) (eq : K → K → Except E Bool) (set : List K) (key : K) :
    Except E (List K) :=
  if setNeedsDedup set key then
    match setLookup order eq set key with
    | .error e => .error e
    | .ok (some _) => .ok set
    | .ok none => .ok (addKey set key)
  else .ok (addKey set key)

def insertKeys (order : BucketOrder K) (eq : K → K → Except E Bool) :
    List K → List K → Except E (List K)
  | [], set => .ok set
  | key::keys, set =>
    match setInsert order eq set key with
    | .error e => .error e
    | .ok set => insertKeys order eq keys set

/-! ## What the set asks about -/

/-- The pairs of kinds between which a set asks user code. -/
def askedBetween (stored key : K) : Bool :=
  if isObject key then isObject stored || isNone stored
  else if isNone key then isObject stored
  else nestedObjectTupleKey key && nestedObjectTupleKey stored &&
    backingHash stored == backingHash key

/-- The set can tell that the two are equal: natively, or by asking. -/
def bridged (stored key : K) : Bool := stored == key || askedBetween stored key

/-- The key that the set takes for `key`. -/
def declares (same : K → K → Bool) (key stored : K) : Bool :=
  bridged stored key && same stored key

variable {same : K → K → Bool} {set : List K}

theorem getIndexOf_isSome (set : List K) (key : K) :
    (getIndexOf set key).isSome = set.any fun stored => stored == key := by
  rw [getIndexOf, List.findIdx?_isSome]

theorem firstDeclared_asked (ask : K → Bool) (cands : List K) [EquivBEq K]
    (hcands : ∀ cand ∈ cands, cand ∈ set) :
    ∃ found, firstDeclared (fun cand => Except.ok (ε := E) (ask cand)) set cands = .ok found ∧
      found.isSome = cands.any ask := by
  induction cands with
  | nil => exact ⟨none, rfl, rfl⟩
  | cons cand cands ih =>
    rw [firstDeclared, List.any_cons]
    cases hask : ask cand with
    | true =>
      refine ⟨_, rfl, ?_⟩
      rw [getIndexOf_isSome, Bool.true_or, List.any_eq_true]
      exact ⟨cand, hcands cand (.head _), BEq.refl cand⟩
    | false =>
      rw [Bool.false_or]
      exact ih fun other hother => hcands other (.tail _ hother)

theorem collect_mem (order : BucketOrder K) (key : K) (isMatch : K → Bool) (stored : K) :
    stored ∈ collectObjectBucketKeysSet order set key isMatch ↔
      stored ∈ set ∧ backingHash stored = backingHash key ∧ isMatch stored = true := by
  rw [collectObjectBucketKeysSet, List.mem_filter, (order.perm set).mem_iff, Bool.and_eq_true,
    beq_iff_eq]

/-- Asking the matching keys of the bucket decides whether the set has an equal key, when they
are the keys between which the set asks. -/
theorem collect_decides [LawfulSetKey K] (order : BucketOrder K)
    {key : K} (hnative : (set.any fun stored => stored == key) = false) (ask : K → Bool)
    (hask : ∀ stored, ask stored = same stored key) (isMatch : K → Bool)
    (hmatch : ∀ stored, same stored key = true →
      (askedBetween stored key = true ↔
        backingHash stored = backingHash key ∧ isMatch stored = true)) :
    ∃ found, firstDeclared (fun cand => Except.ok (ε := E) (ask cand)) set
        (collectObjectBucketKeysSet order set key isMatch) = .ok found ∧
      found.isSome = set.any (declares same key) := by
  obtain ⟨found, hfound, hany⟩ := firstDeclared_asked (E := E) ask
    (collectObjectBucketKeysSet order set key isMatch)
    fun cand hcand => ((collect_mem order key isMatch cand).mp hcand).1
  refine ⟨found, hfound, ?_⟩
  rw [hany, Bool.eq_iff_iff, List.any_eq_true, List.any_eq_true]
  constructor
  · rintro ⟨stored, hs, heq⟩
    rw [hask] at heq
    obtain ⟨hs, hbucket⟩ := (collect_mem order key isMatch stored).mp hs
    exact ⟨stored, hs, by simp [declares, bridged, (hmatch stored heq).mpr hbucket, heq]⟩
  · rintro ⟨stored, hs, heq⟩
    have hother := Bool.eq_false_iff.mpr (List.any_eq_false.mp hnative stored hs)
    rw [declares, bridged, Bool.and_eq_true, hother, Bool.false_or] at heq
    exact ⟨stored, (collect_mem order key isMatch stored).mpr
      ⟨hs, (hmatch stored heq.2).mp heq.1⟩, (hask stored).trans heq.2⟩

theorem native_declared (hsame : Equality same) {key : K}
    (h : (set.any fun stored => stored == key) = true) : set.any (declares same key) = true := by
  obtain ⟨stored, hs, heq⟩ := List.any_eq_true.mp h
  rw [List.any_eq_true]
  exact ⟨stored, hs, by simp [declares, bridged, heq, hsame.identical stored key heq]⟩

/-- The lookup finds a key exactly when the set holds one that it can tell to be equal. -/
theorem setLookup_decides [LawfulSetKey K] (order : BucketOrder K) (hsame : Equality same)
    (set : List K) (key : K) :
    ∃ found, setLookup order (fun a b => Except.ok (ε := E) (same a b)) set key = .ok found ∧
      found.isSome = set.any (declares same key) := by
  rw [setLookup]
  have hindex := getIndexOf_isSome set key
  cases hget : getIndexOf set key with
  | some i =>
    rw [hget] at hindex
    exact ⟨_, rfl, (native_declared hsame hindex.symm).symm⟩
  | none =>
    rw [hget] at hindex
    have hnative := hindex.symm
    dsimp only
    by_cases hobject : isObject key = true
    · rw [if_pos hobject]
      apply collect_decides order hnative (fun cand => same cand key) fun _ => rfl
      intro stored heq
      have hhash := hsame.hash stored key heq
      rw [askedBetween, if_pos hobject, Bool.or_eq_true]
      constructor
      · intro hkind
        refine ⟨LawfulSetKey.object_backing stored key hkind (Or.inl hobject) hhash, ?_⟩
        by_cases hstored : isObject stored = true
        · simp [hstored, hhash]
        · have hnone := hkind.resolve_left hstored
          simp [hstored, hnone, ← hhash, LawfulSetKey.none_hash stored hnone]
      · rintro ⟨-, hmatch⟩
        by_cases hstored : isObject stored = true
        · exact Or.inl hstored
        · rw [if_neg hstored, Bool.and_eq_true] at hmatch
          exact Or.inr hmatch.1
    · rw [if_neg hobject]
      by_cases hnone : isNone key = true
      · rw [if_pos hnone]
        apply collect_decides order hnative (fun cand => same key cand)
        · intro stored
          rw [Bool.eq_iff_iff]
          exact ⟨hsame.symm key stored, hsame.symm stored key⟩
        · intro stored heq
          have hhash := hsame.hash stored key heq
          rw [askedBetween, if_neg hobject, if_pos hnone]
          constructor
          · intro hstored
            refine ⟨LawfulSetKey.object_backing stored key (Or.inl hstored) (Or.inr hnone) hhash,
              ?_⟩
            simp [hstored, hhash, LawfulSetKey.none_hash key hnone]
          · exact fun hmatch => (Bool.and_eq_true_iff.mp hmatch.2).1
      · rw [if_neg hnone]
        by_cases hnested : nestedObjectTupleKey key = true
        · rw [if_pos hnested]
          apply collect_decides order hnative (fun cand => same cand key) fun _ => rfl
          intro stored _
          rw [askedBetween, if_neg hobject, if_neg hnone, hnested, Bool.true_and, Bool.and_eq_true,
            beq_iff_eq, and_comm]
        · rw [if_neg hnested]
          refine ⟨none, rfl, ?_⟩
          rw [← hnative]
          congr 1
          funext stored
          rw [declares, bridged, askedBetween, if_neg hobject, if_neg hnone]
          cases heq : stored == key with
          | true => simp [hsame.identical stored key heq]
          | false => simp [hnested]

/-! ## What the set holds -/

/-- The keys of a set after an insertion. -/
def keepDeclared (same : K → K → Bool) (set : List K) (key : K) : List K :=
  if set.any (declares same key) then set else set ++ [key]

/-- An insertion that skips the lookup could not have found an equal key but natively. -/
theorem no_dedup_native (hsame : Equality same) [LawfulSetKey K] {key : K}
    (h : setNeedsDedup set key = false) :
    set.any (declares same key) = set.any fun stored => stored == key := by
  cases hnative : set.any fun stored => stored == key with
  | true => exact native_declared hsame hnative
  | false =>
    rw [List.any_eq_false]
    intro stored hs hdeclared
    have hother := Bool.eq_false_iff.mpr (List.any_eq_false.mp hnative stored hs)
    rw [declares, bridged, hother, Bool.false_or, Bool.and_eq_true] at hdeclared
    rw [setNeedsDedup] at h
    by_cases hobject : isObject key = true
    · rw [if_pos hobject] at h
      exact Bool.false_ne_true h.symm
    · rw [if_neg hobject] at h
      by_cases hnested : nestedObjectTupleKey key = true
      · rw [if_pos hnested] at h
        exact Bool.false_ne_true h.symm
      · rw [if_neg hnested] at h
        by_cases hnone : isNone key = true
        · rw [askedBetween, if_neg hobject, if_pos hnone] at hdeclared
          rw [hnone, Bool.true_and, List.any_eq_false] at h
          have hhash := hsame.hash stored key hdeclared.2
          rw [LawfulSetKey.none_hash key hnone] at hhash
          exact h stored hs (by simp [hdeclared.1, hhash])
        · rw [askedBetween, if_neg hobject, if_neg hnone] at hdeclared
          simp [hnested] at hdeclared

theorem setInsert_keeps [LawfulSetKey K] (order : BucketOrder K) (hsame : Equality same)
    (set : List K) (key : K) :
    setInsert order (fun a b => Except.ok (ε := E) (same a b)) set key =
      .ok (keepDeclared same set key) := by
  have hadd : (set.any fun stored => stored == key) = set.any (declares same key) →
      addKey set key = keepDeclared same set key := by
    intro hnative
    rw [addKey, keepDeclared, getIndexOf_isSome, hnative]
  rw [setInsert]
  by_cases hdedup : setNeedsDedup set key = true
  · rw [if_pos hdedup]
    obtain ⟨found, hfound, hany⟩ := setLookup_decides (E := E) order hsame set key
    rw [hfound]
    cases found with
    | some i =>
      dsimp only
      rw [keepDeclared, ← hany, Option.isSome_some, if_pos rfl]
    | none =>
      dsimp only
      rw [hadd]
      cases hnative : set.any fun stored => stored == key with
      | true => exact (native_declared hsame hnative).symm
      | false => exact hany
  · rw [if_neg hdedup, hadd (no_dedup_native hsame (Bool.eq_false_iff.mpr hdedup)).symm]

theorem insertKeys_keeps [LawfulSetKey K] (order : BucketOrder K) (hsame : Equality same)
    (keys set : List K) :
    insertKeys order (fun a b => Except.ok (ε := E) (same a b)) keys set =
      .ok (keys.foldl (keepDeclared same) set) := by
  induction keys generalizing set with
  | nil => rfl
  | cons key keys ih =>
    rw [insertKeys, setInsert_keeps order hsame, List.foldl_cons]
    exact ih _

/-! ## The keys that stand for their class -/

/-- Every key that is the first of its class can be told equal to the whole class. -/
def Told (same : K → K → Bool) (keys : List K) : Prop :=
  ∀ pre key post, keys = pre ++ key::post → (∀ earlier ∈ pre, same earlier key = false) →
    ∀ probe, same key probe = true → bridged key probe = true

omit [SetKey K] in
theorem keepFirst_mem {keys : List K} {key stored : K} (h : stored ∈ keepFirst same keys key) :
    stored ∈ keys ∨ stored = key ∧ ∀ earlier ∈ keys, same earlier key = false := by
  rw [keepFirst] at h
  split at h
  · exact Or.inl h
  · rename_i hany
    rw [List.mem_append, List.mem_singleton] at h
    exact h.imp_right fun heq =>
      ⟨heq, fun earlier he => Bool.eq_false_iff.mpr fun hsame =>
        hany (List.any_eq_true.mpr ⟨earlier, he, hsame⟩)⟩

omit [SetKey K] in
theorem keepFirst_grows {keys : List K} {key stored : K} (h : stored ∈ keys) :
    stored ∈ keepFirst same keys key := by
  rw [keepFirst]
  split
  · exact h
  · exact List.mem_append_left [key] h

/-- Every key has an equal one among the first ones. -/
theorem first_covers (hsame : Equality same) [LawfulSetKey K] (keys : List K) :
    ∀ key ∈ keys, ∃ stored ∈ keys.foldl (keepFirst same) [], same stored key = true := by
  induction keys using List.reverseRecOn with
  | nil => exact fun key hkey => absurd hkey List.not_mem_nil
  | append_singleton keys last ih =>
    intro key hkey
    rw [List.foldl_append, List.foldl_cons, List.foldl_nil]
    rw [List.mem_append, List.mem_singleton] at hkey
    rcases hkey with hkey | rfl
    · obtain ⟨stored, hs, heq⟩ := ih key hkey
      exact ⟨stored, keepFirst_grows hs, heq⟩
    · rw [keepFirst]
      split
      · rename_i hany
        exact List.any_eq_true.mp hany
      · exact ⟨key, List.mem_append_right _ (.head _), hsame.identical key key (BEq.refl key)⟩

theorem first_of_class (hsame : Equality same) [LawfulSetKey K] (keys : List K) {stored : K}
    (h : stored ∈ keys.foldl (keepFirst same) []) :
    ∃ pre post, keys = pre ++ stored::post ∧ ∀ earlier ∈ pre, same earlier stored = false := by
  induction keys using List.reverseRecOn with
  | nil => exact absurd h List.not_mem_nil
  | append_singleton keys last ih =>
    rw [List.foldl_append, List.foldl_cons, List.foldl_nil] at h
    rcases keepFirst_mem h with h | ⟨rfl, hapart⟩
    · obtain ⟨pre, post, rfl, hpre⟩ := ih h
      exact ⟨pre, post ++ [last], by rw [List.append_assoc, List.cons_append], hpre⟩
    · refine ⟨keys, [], rfl, fun earlier he => ?_⟩
      by_contra heq
      rw [Bool.not_eq_false] at heq
      obtain ⟨first, hfirst, hclass⟩ := first_covers hsame keys earlier he
      have hequal := hsame.trans first earlier stored hclass heq
      rw [hapart first hfirst] at hequal
      exact Bool.false_ne_true hequal

theorem told_initial {keys pre post : List K} (h : Told same keys) (hkeys : keys = pre ++ post) :
    Told same pre := by
  rintro front key back rfl
  rw [List.append_assoc, List.cons_append] at hkeys
  exact h front key _ hkeys

theorem told_any (hsame : Equality same) [LawfulSetKey K] {keys : List K} (h : Told same keys)
    (key : K) :
    (keys.foldl (keepFirst same) []).any (declares same key) =
      (keys.foldl (keepFirst same) []).any fun stored => same stored key := by
  rw [Bool.eq_iff_iff, List.any_eq_true, List.any_eq_true]
  constructor
  · rintro ⟨stored, hs, heq⟩
    rw [declares, Bool.and_eq_true] at heq
    exact ⟨stored, hs, heq.2⟩
  · rintro ⟨stored, hs, heq⟩
    obtain ⟨pre, post, hkeys, hpre⟩ := first_of_class hsame keys hs
    exact ⟨stored, hs, by rw [declares, h pre stored post hkeys hpre key heq, heq]; rfl⟩

/-- When every class can be told, the set keeps what the dict keeps. -/
theorem kept_alike (hsame : Equality same) [LawfulSetKey K] {keys : List K}
    (h : Told same keys) (pre post : List K) (hkeys : keys = pre ++ post) :
    pre.foldl (keepDeclared same) [] = pre.foldl (keepFirst same) [] := by
  induction pre using List.reverseRecOn generalizing post with
  | nil => rfl
  | append_singleton pre key ih =>
    rw [List.append_assoc] at hkeys
    rw [List.foldl_append, List.foldl_append, ih _ hkeys, List.foldl_cons, List.foldl_cons,
      List.foldl_nil, List.foldl_nil, keepDeclared, keepFirst]
    congr 2
    exact told_any hsame (told_initial h hkeys) key

theorem keepDeclared_grows {keys : List K} {key stored : K} (h : stored ∈ keys) :
    stored ∈ keepDeclared same keys key := by
  rw [keepDeclared]
  split
  · exact h
  · exact List.mem_append_left [key] h

theorem declared_mem (keys set : List K) {stored : K}
    (h : stored ∈ keys.foldl (keepDeclared same) set) : stored ∈ set ∨ stored ∈ keys := by
  induction keys generalizing set with
  | nil => exact Or.inl h
  | cons key keys ih =>
    rw [List.foldl_cons] at h
    rcases ih _ h with h | h
    · rw [keepDeclared] at h
      split at h
      · exact Or.inl h
      · rw [List.mem_append, List.mem_singleton] at h
        rcases h with h | rfl
        · exact Or.inl h
        · exact Or.inr (.head _)
    · exact Or.inr (.tail _ h)

theorem declared_grows (keys : List K) {stored : K} (h : stored ∈ set) :
    stored ∈ keys.foldl (keepDeclared same) set := by
  induction keys generalizing set with
  | nil => exact h
  | cons key keys ih => exact ih (keepDeclared_grows h)

/-- The set keeps the first key of a class, as the dict does. -/
theorem declared_first {pre post : List K} {key : K}
    (h : ∀ earlier ∈ pre, same earlier key = false) :
    key ∈ (pre ++ key::post).foldl (keepDeclared same) [] := by
  rw [List.foldl_append, List.foldl_cons]
  apply declared_grows
  have hnone : (pre.foldl (keepDeclared same) []).any (declares same key) = false := by
    rw [List.any_eq_false]
    intro earlier he hdeclared
    have hmem := (declared_mem pre [] he).resolve_left List.not_mem_nil
    rw [declares, h earlier hmem, Bool.and_false] at hdeclared
    exact Bool.false_ne_true hdeclared
  rw [keepDeclared, hnone]
  exact List.mem_append_right _ (.head _)

/-! ## The set and the dict -/

theorem dictLookup_decides [LawfulSetKey K] (order : BucketOrder K) (hsame : Equality same)
    {d : PyDict K V} (h : Coherent same d) (key : K) :
    ∃ found, outcomeResult (dictLookup order key
        (quietScript order (fun a b => Except.ok (ε := E) (same a b)) d key) d) =
          some (.ok found) ∧
      found.isSome = d.keys.any fun stored => same stored key := by
  rw [(dictLookup_quiet order _ d key).1]
  have hsettled := settle_coherent h key
  rcases dictLookupIn_decides (E := E) order hsame hsettled (settle_ready h key) with
    ⟨i, value, stored, hfound, hentry, heq⟩ | ⟨hmissed, hapart⟩
  · refine ⟨_, congrArg some hfound, ?_⟩
    rw [settle_entries] at hentry
    rw [Option.isSome_some, eq_comm, List.any_eq_true]
    exact ⟨stored, List.mem_map.mpr ⟨_, List.mem_of_getElem? hentry, rfl⟩, heq⟩
  · refine ⟨_, congrArg some hmissed, ?_⟩
    rw [settled_keys] at hapart
    rw [Option.isSome_none, eq_comm, List.any_eq_false]
    exact fun stored hs heq => Bool.false_ne_true ((hapart stored hs).symm.trans heq)

/-- The set and the dict have as many elements, no two elements of the set are equal, and each
key is found in both or in neither. -/
structure Alike (E : Type w) (order order' : BucketOrder K) (same : K → K → Bool)
    (set : List K) (d : PyDict K V) : Prop where
  size : set.length = d.entries.length
  apart : set.Pairwise fun a b => same a b = false
  found : ∀ key, ∃ inSet inDict,
    setLookup order (fun a b => Except.ok (ε := E) (same a b)) set key = .ok inSet ∧
    outcomeResult (dictLookup order' key
      (quietScript order' (fun a b => Except.ok (ε := E) (same a b)) d key) d) =
        some (.ok inDict) ∧
    inSet.isSome = inDict.isSome

theorem alike_of_told [LawfulSetKey K] (order order' : BucketOrder K) (hsame : Equality same)
    {d : PyDict K V} (hd : Coherent same d) {keys : List K}
    (hkeys : d.keys = keys.foldl (keepFirst same) []) (h : Told same keys) :
    Alike E order order' same (keys.foldl (keepDeclared same) []) d := by
  have hset : keys.foldl (keepDeclared same) [] = d.keys :=
    (kept_alike hsame h keys [] keys.append_nil.symm).trans hkeys.symm
  rw [hset]
  refine ⟨by simp [PyDict.keys], hd.apart, fun key => ?_⟩
  obtain ⟨inSet, hinSet, hset⟩ := setLookup_decides (E := E) order hsame d.keys key
  obtain ⟨inDict, hinDict, hdict⟩ := dictLookup_decides (E := E) order' hsame hd key
  refine ⟨inSet, inDict, hinSet, hinDict, ?_⟩
  rw [hset, hdict, hkeys, told_any hsame h key]

omit [SetKey K] in
/-- Two elements that stand apart are one when they are equal. -/
theorem apart_eq {set : List K} (hsymm : ∀ a b, same a b = true → same b a = true)
    (h : set.Pairwise fun a b => same a b = false) {a b : K} (ha : a ∈ set) (hb : b ∈ set)
    (heq : same a b = true) : a = b := by
  by_contra hne
  have hflip : ∀ x y : K, same x y = false → same y x = false := fun x y hxy =>
    Bool.eq_false_iff.mpr fun hyx => Bool.false_ne_true (hxy.symm.trans (hsymm y x hyx))
  have : Std.Symm fun a b => same a b = false := ⟨hflip⟩
  have happart := h.forall ha hb hne
  exact Bool.false_ne_true (happart.symm.trans heq)

theorem told_of_alike [LawfulSetKey K] (order order' : BucketOrder K) (hsame : Equality same)
    {d : PyDict K V} (hd : Coherent same d) {keys : List K}
    (hkeys : d.keys = keys.foldl (keepFirst same) [])
    (h : Alike E order order' same (keys.foldl (keepDeclared same) []) d) : Told same keys := by
  rintro pre key post rfl hpre probe heq
  have hkey : key ∈ (pre ++ key::post).foldl (keepDeclared same) [] := declared_first hpre
  obtain ⟨inSet, inDict, hinSet, hinDict, halike⟩ := h.found probe
  obtain ⟨found, hfound, hset⟩ := setLookup_decides (E := E) order hsame
    ((pre ++ key::post).foldl (keepDeclared same) []) probe
  obtain ⟨found', hfound', hdict⟩ := dictLookup_decides (E := E) order' hsame hd probe
  rw [Except.ok.inj (hinSet.symm.trans hfound),
    Except.ok.inj (Option.some.inj (hinDict.symm.trans hfound')), hset, hdict] at halike
  have hin : (d.keys.any fun stored => same stored probe) = true := by
    obtain ⟨stored, hs, hclass⟩ := first_covers hsame (pre ++ key::post) key (by simp)
    rw [hkeys, List.any_eq_true]
    exact ⟨stored, hs, hsame.trans _ _ _ hclass heq⟩
  rw [hin, List.any_eq_true] at halike
  obtain ⟨stored, hs, hdeclared⟩ := halike
  rw [declares, Bool.and_eq_true] at hdeclared
  have hone := apart_eq hsame.symm h.apart hs hkey
    (hsame.trans _ _ _ hdeclared.2 (hsame.symm _ _ heq))
  rw [← hone]
  exact hdeclared.1

/-- A set and a dict built from the same keys answer alike exactly when every key that is the
first of its class can be told equal to the whole class by the set. -/
theorem memberships_alike {K : Type u} {V : Type v} {E : Type w} [SetKey K] [LawfulSetKey K]
    (order order' : BucketOrder K) (same : K → K → Bool) (hsame : Equality same)
    (initialTableSize : ℕ) (kind : DictKeyTableKind)
    (hsize : initialTableSize = 0 ∨ ∃ k, initialTableSize = 2^k) (pairs : List (Bool × K × V)) :
    ∃ set d, insertKeys order (fun a b => Except.ok (ε := E) (same a b))
          (pairs.map fun pair => pair.2.1) [] = .ok set ∧
      insertPairs E order' same pairs (freshDict initialTableSize kind) = some d ∧
      (Alike E order order' same set d ↔ Told same (pairs.map fun pair => pair.2.1)) := by
  obtain ⟨d, hd, hcoherent, hkeys⟩ := insertPairs_coherent (E := E) order' hsame pairs
    (fresh_coherent (V := V) initialTableSize kind hsize)
  exact ⟨_, d, insertKeys_keeps order hsame _ [], hd,
    told_of_alike order order' hsame hcoherent hkeys,
    alike_of_told order order' hsame hcoherent hkeys⟩

end membership

/-! ## An object that equals an integer -/

instance : SetKey PairKey where
  isNone key := key == .none
  noneHash := 7

instance : LawfulSetKey PairKey where
  none_plain key h := by
    rw [eq_of_beq h]
    exact ⟨rfl, rfl⟩
  none_hash key h := by
    rw [eq_of_beq h]
    rfl
  object_backing a b ha hb hhash := by
    have hplain : ∀ key : PairKey, (isObject key = true ∨ isNone key = true) →
        backingHash key = key.pythonHash := by
      rintro key (h | h)
      · cases key with
        | object hash id => exact UInt64.add_zero hash
        | none => exact absurd h Bool.false_ne_true
        | int hash => exact absurd h Bool.false_ne_true
        | plainTuple hash => exact absurd h Bool.false_ne_true
        | objectTuple hash id => exact absurd h Bool.false_ne_true
      · rw [eq_of_beq h]
        rfl
    rw [hplain a ha, hplain b hb]
    exact hhash
  none_unique a b ha hb := by
    rw [eq_of_beq ha, eq_of_beq hb]
    rfl

def isOne (key : PairKey) : Bool := key == .int 1 || key == .object 1 0

/-- The equality of a class whose one object equals `1` and hashes like it. -/
def equalToOne (a b : PairKey) : Bool := a == b || (isOne a && isOne b)

theorem isOne_cases {key : PairKey} (h : isOne key = true) :
    key = .int 1 ∨ key = .object 1 0 := by
  rw [isOne, Bool.or_eq_true, beq_iff_eq, beq_iff_eq] at h
  exact h

theorem equalToOne_equality : Equality equalToOne where
  symm a b h := by
    rw [equalToOne, Bool.or_eq_true, Bool.and_eq_true] at h ⊢
    exact h.imp BEq.symm And.symm
  trans a b c h h' := by
    rw [equalToOne, Bool.or_eq_true, Bool.and_eq_true] at h h' ⊢
    rcases h with h | ⟨ha, hb⟩
    · rw [eq_of_beq h]
      exact h'
    · rcases h' with h' | ⟨-, hc⟩
      · rw [← eq_of_beq h']
        exact Or.inr ⟨ha, hb⟩
      · exact Or.inr ⟨ha, hc⟩
  identical a b h := by rw [equalToOne, h, Bool.true_or]
  hash a b h := by
    rw [equalToOne, Bool.or_eq_true, Bool.and_eq_true] at h
    rcases h with h | ⟨ha, hb⟩
    · rw [eq_of_beq h]
    · rcases isOne_cases ha with rfl | rfl <;> rcases isOne_cases hb with rfl | rfl <;> rfl
  native a b h ha hb := by
    rw [equalToOne, Bool.or_eq_true, Bool.and_eq_true] at h
    rcases h with h | ⟨hone, hone'⟩
    · exact h
    · rcases isOne_cases hone with rfl | rfl
      · rcases isOne_cases hone' with rfl | rfl
        · rfl
        · exact absurd hb.symm Bool.false_ne_true
      · exact absurd ha.symm Bool.false_ne_true

/-- A set and a dict of `None`, an object and a tuple around an object, all unequal, answer
alike; with the object equal to `1` they do not. -/
theorem memberships_alike_keys :
    (∃ set d, insertKeys storedOrder (fun a b : PairKey => Except.ok (ε := Bool) (a == b))
          [.none, .object 1 0, .objectTuple 1 1] [] = .ok set ∧
        insertPairs Bool storedOrder (fun a b => a == b)
          [(false, .none, ()), (true, .object 1 0, ()), (false, .objectTuple 1 1, ())]
          (freshDict 0 .unicode) = some d ∧
        Alike Bool storedOrder storedOrder (fun a b => a == b) set d) ∧
      ∃ set d, insertKeys storedOrder (fun a b => Except.ok (ε := Bool) (equalToOne a b))
          [.object 1 0] [] = .ok set ∧
        insertPairs Bool storedOrder equalToOne [(false, .object 1 0, ())]
          (freshDict 0 .unicode) = some d ∧
        ¬Alike Bool storedOrder storedOrder equalToOne set d := by
  obtain ⟨set, d, hset, hd, halike⟩ := memberships_alike (E := Bool) storedOrder storedOrder
    (fun a b => a == b) identical_equality 0 .unicode (Or.inl rfl)
    [(false, .none, ()), (true, .object 1 0, ()), (false, .objectTuple 1 1, ())]
  obtain ⟨set', d', hset', hd', halike'⟩ := memberships_alike (E := Bool) storedOrder storedOrder
    equalToOne equalToOne_equality 0 .unicode (Or.inl rfl) [(false, .object 1 0, ())]
  refine ⟨⟨set, d, hset, hd, halike.mpr fun pre key post _ _ probe heq => ?_⟩,
    set', d', hset', hd', fun h => ?_⟩
  · rw [bridged, show (key == probe) = true from heq, Bool.true_or]
  · have htold := halike'.mp h [] (.object 1 0) [] rfl (fun _ h => absurd h List.not_mem_nil)
      (.int 1) (by decide)
    exact absurd htold (by decide)

/-- `1 in {K()}` and `1 in {K(): v}`, and `{K(), 1}` and `{K(): v, 1: v}`, where `K()` equals `1`
and hashes like it. -/
theorem object_equal_to_one_missed :
    Equality equalToOne ∧
      setLookup storedOrder (fun a b => Except.ok (ε := Bool) (equalToOne a b))
        [.object 1 0] (.int 1) = .ok none ∧
      (insertPairs Bool storedOrder equalToOne [(false, .object 1 0, ())]
          (freshDict 0 .unicode)).map (fun d => outcomeResult (dictLookup storedOrder (.int 1)
            (quietScript storedOrder (fun a b => Except.ok (ε := Bool) (equalToOne a b)) d
              (.int 1)) d)) = some (some (.ok (some (0, ())))) ∧
      insertKeys storedOrder (fun a b => Except.ok (ε := Bool) (equalToOne a b))
        [.object 1 0, .int 1] [] = .ok [.object 1 0, .int 1] ∧
      (insertPairs Bool storedOrder equalToOne [(false, .object 1 0, ()), (false, .int 1, ())]
          (freshDict 0 .unicode)).map PyDict.keys = some [.object 1 0] := by
  refine ⟨equalToOne_equality, ?_⟩
  decide

end Pyrust.SetMembership
