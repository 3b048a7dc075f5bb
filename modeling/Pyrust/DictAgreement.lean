import Pyrust.DictInsertion

/-!
# The two dict lookups

`dict_lookup_in` reads the dict it is given and never installs the probe
table, so a probe that crosses representations collects its candidates in
another way than `dict_lookup`. `consulted` lists the keys a lookup compares,
and the two agree for every equality when they consult the same keys.
-/

set_option autoImplicit false

namespace Pyrust.DictAgreement
open Pyrust.DictProbeIndex Pyrust.DictOps Pyrust.DictLookup Pyrust.DictInsertion

universe u v w

section agreement
variable {K : Type u} {V : Type v} {E : Type w} [LookupKey K]

/-- Both lookups give the same entry, or raise the same error. -/
def Agree (order : BucketOrder K) (eq : K → K → Except E Bool) (d : PyDict K V) (key : K) : Prop :=
  outcomeResult (dictLookup order key (quietScript order eq d key) d) =
    some (dictLookupIn order eq d key)

variable [LawfulLookupKey K] {eq : K → K → Except E Bool} {d : PyDict K V} {key : K}

/-- What `decisive` leaves: no key twice, and the searched key only as a stored key at the end. -/
def Decisive (d : PyDict K V) (key : K) : List K → Prop
  | [] => True
  | cand::cands => ((cand == key) = true → cands = [] ∧ (dictEntryByKey d key).isSome = true) ∧
      (∀ other ∈ cands, (other == cand) = false) ∧ Decisive d key cands

omit [LawfulLookupKey K] in
theorem Decisive.filter {l : List K} (h : Decisive d key l) (p : K → Bool) :
    Decisive d key (l.filter p) := by
  induction l with
  | nil => trivial
  | cons cand cands ih =>
    obtain ⟨hkey, hapart, hrest⟩ := h
    by_cases hp : p cand = true
    · rw [List.filter_cons_of_pos hp]
      refine ⟨fun hsame => ?_, fun other hother => hapart other (List.mem_filter.mp hother).1,
        ih hrest⟩
      rw [(hkey hsame).1]
      exact ⟨rfl, (hkey hsame).2⟩
    · rw [List.filter_cons_of_neg hp]
      exact ih hrest

omit [LawfulLookupKey K] in
theorem Decisive.entries {d' : PyDict K V} {l : List K} (h : Decisive d' key l)
    (hentries : d'.entries = d.entries) : Decisive d key l := by
  have hstored : dictEntryByKey d' key = dictEntryByKey d key := by
    simp only [dictEntryByKey, indexOf, hentries]
  induction l with
  | nil => trivial
  | cons cand cands ih =>
    obtain ⟨hkey, hapart, hrest⟩ := h
    rw [hstored] at hkey
    exact ⟨hkey, hapart, ih hrest⟩

omit [LawfulLookupKey K] in
/-- A probe that needs no other table is answered alike. -/
theorem agree_of_native (order : BucketOrder K) {eq : K → K → Except E Bool}
    (h : dictLookupNeedsPythonHashIndex d key = false) : Agree order eq d key := by
  have hsettle : settle d key = d := by simp [settle, h]
  rw [Agree, (dictLookup_quiet order eq d key).1, hsettle]

end agreement

/-- Keys by kind, Python hash and identity. -/
inductive PairKey where
  | none
  | int (hash : UInt64)
  | object (hash : UInt64) (id : ℕ)
  | plainTuple (hash : UInt64)
  | objectTuple (hash : UInt64) (id : ℕ)
  deriving DecidableEq

def PairKey.pythonHash : PairKey → UInt64
  | .none => 7
  | .int hash => hash
  | .object hash _ => hash
  | .plainTuple hash => hash
  | .objectTuple hash _ => hash

def PairKey.isObject : PairKey → Bool
  | .object _ _ => true
  | _ => false

def PairKey.isAggregate : PairKey → Bool
  | .plainTuple _ => true
  | .objectTuple _ _ => true
  | _ => false

def PairKey.containsObject : PairKey → Bool
  | .object _ _ => true
  | .objectTuple _ _ => true
  | _ => false

instance : LookupKey PairKey where
  pythonHash := PairKey.pythonHash
  isStr _ := false
  isObject := PairKey.isObject
  containsObject := PairKey.containsObject
  isAggregate := PairKey.isAggregate
  backingHash key := key.pythonHash+if key.isAggregate then 5 else 0

instance : LawfulLookupKey PairKey where
  contains_kind key h := by
    cases key
    · exact absurd h Bool.false_ne_true
    · exact absurd h Bool.false_ne_true
    · exact Or.inl rfl
    · exact absurd h Bool.false_ne_true
    · exact Or.inr rfl
  object_contains key h := by
    cases key
    · exact absurd h Bool.false_ne_true
    · exact absurd h Bool.false_ne_true
    · rfl
    · exact absurd h Bool.false_ne_true
    · exact absurd h Bool.false_ne_true
  aggregate_native key h := by
    cases key
    · exact absurd h Bool.false_ne_true
    · exact absurd h Bool.false_ne_true
    · exact absurd h Bool.false_ne_true
    · rfl
    · rfl

def storedOrder : BucketOrder PairKey := ⟨fun keys => keys, fun _ => .refl _⟩

theorem identical_equality : Equality fun a b : PairKey => a == b where
  symm _ _ h := BEq.symm h
  trans _ _ _ h h' := BEq.trans h h'
  identical _ _ h := h
  hash _ _ h := congrArg PairKey.pythonHash (eq_of_beq h)
  native _ _ h _ _ := h

end Pyrust.DictAgreement
