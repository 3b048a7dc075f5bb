import Mathlib.Data.List.Forall2
import Pyrust.DictProbeInvariant

/-!
# Tables that mirror each other

The table reads nothing of an entry but its hash and its string flag, and it
identifies an entry only through the test of a lookup. Two tables whose
entries correspond therefore make the same moves. This is the comparison
between a replayed table of placeholders and the table of the keys
themselves.
-/

set_option autoImplicit false

namespace Pyrust.DictMirror
open Pyrust.PerturbProbe Pyrust.HoleyList Pyrust.DictProbeIndex Pyrust.DictProbeInvariant

universe u v
variable {α : Type u} {β : Type v} {R : α → β → Prop}

structure Mirrors (R : α → β → Prop) (x : DictPythonHashIndex α) (y : DictPythonHashIndex β) :
    Prop where
  indices : x.indices = y.indices
  entryKeys : List.Forall₂ (Option.Rel R) x.entryKeys y.entryKeys
  usable : x.usable = y.usable
  liveLen : x.liveLen = y.liveLen
  unicodeOnly : x.unicodeOnly = y.unicodeOnly

theorem forall₂_reduceOption (l : List (Option α)) (l' : List (Option β))
    (h : List.Forall₂ (Option.Rel R) l l') :
    List.Forall₂ R l.reduceOption l'.reduceOption :=
  List.rel_filterMap (fun _ _ hab => hab) h

theorem rel_some_left {γ : Type u} {δ : Type v} {S : γ → δ → Prop} (c : γ) (o : Option δ)
    (h : Option.Rel S (some c) o) : ∃ d, o = some d ∧ S c d := by
  cases h with
  | some hcd => exact ⟨_, rfl, hcd⟩

theorem rel_some_right {γ : Type u} {δ : Type v} {S : γ → δ → Prop} (o : Option γ) (d : δ)
    (h : Option.Rel S o (some d)) : ∃ c, o = some c ∧ S c d := by
  cases h with
  | some hcd => exact ⟨_, rfl, hcd⟩

theorem Mirrors.liveKeys {x : DictPythonHashIndex α} {y : DictPythonHashIndex β}
    (h : Mirrors R x y) : List.Forall₂ R x.liveKeys y.liveKeys :=
  forall₂_reduceOption _ _ h.entryKeys

theorem Mirrors.size {x : DictPythonHashIndex α} {y : DictPythonHashIndex β}
    (h : Mirrors R x y) : x.size = y.size := by
  simp [DictPythonHashIndex.size, h.indices]

theorem Mirrors.slot {x : DictPythonHashIndex α} {y : DictPythonHashIndex β}
    (h : Mirrors R x y) (s : ℕ) : x.slot s = y.slot s := by
  simp [DictPythonHashIndex.slot, h.indices]

theorem rank_eq (l : List (Option α)) (l' : List (Option β))
    (h : List.Forall₂ (Option.Rel R) l l') (i : ℕ) : rank l i = rank l' i :=
  (forall₂_reduceOption _ _ (List.forall₂_take i h)).length_eq

theorem forall₂_get (l : List (Option α)) (l' : List (Option β))
    (h : List.Forall₂ (Option.Rel R) l l') (i : ℕ) :
    Option.Rel (Option.Rel R) l[i]? l'[i]? := by
  induction h generalizing i with
  | nil => exact Option.Rel.none
  | cons hx _ ih =>
    cases i with
    | zero => simpa using Option.Rel.some hx
    | succ i => simpa using ih i

theorem forall₂_set_none (l : List (Option α)) (l' : List (Option β))
    (h : List.Forall₂ (Option.Rel R) l l') (i : ℕ) :
    List.Forall₂ (Option.Rel R) (l.set i none) (l'.set i none) := by
  induction h generalizing i with
  | nil => exact List.Forall₂.nil
  | cons hx ht ih =>
    cases i with
    | zero => exact List.Forall₂.cons Option.Rel.none ht
    | succ i => exact List.Forall₂.cons hx (ih i)

theorem forall₂_trim (l : List (Option α)) (l' : List (Option β))
    (h : List.Forall₂ (Option.Rel R) l l') :
    List.Forall₂ (Option.Rel R) (l.rdropWhile Option.isNone) (l'.rdropWhile Option.isNone) := by
  have hdrop : ∀ (k : List (Option α)) (k' : List (Option β)),
      List.Forall₂ (Option.Rel R) k k' →
      List.Forall₂ (Option.Rel R) (k.dropWhile Option.isNone) (k'.dropWhile Option.isNone) := by
    intro k k' hk
    induction hk with
    | nil => exact List.Forall₂.nil
    | cons hx ht ih =>
      cases hx with
      | none => simpa using ih
      | some hab => simpa using ⟨hab, ht⟩
  exact List.rel_reverse (hdrop _ _ (List.rel_reverse h))

theorem truncate_mirrors {x : DictPythonHashIndex α} {y : DictPythonHashIndex β}
    (h : Mirrors R x y) : Mirrors R (truncatePoppedEntries x) (truncatePoppedEntries y) :=
  ⟨h.indices, forall₂_trim _ _ h.entryKeys, h.usable, h.liveLen, h.unicodeOnly⟩

theorem insertionSlot_eq {x : DictPythonHashIndex α} {y : DictPythonHashIndex β}
    (h : Mirrors R x y) (hash : UInt64) : insertionSlot x hash = insertionSlot y hash := by
  simp [insertionSlot, h.size, h.slot]

theorem markSlotRemoved_mirrors {x : DictPythonHashIndex α} {y : DictPythonHashIndex β}
    (h : Mirrors R x y) (s : ℕ) : Mirrors R (markSlotRemoved x s) (markSlotRemoved y s) := by
  simp only [markSlotRemoved, h.slot]
  split
  · exact ⟨by simp [h.indices], forall₂_set_none _ _ h.entryKeys _, h.usable,
      by simp [h.liveLen], h.unicodeOnly⟩
  · exact h

/-- Lookups that test corresponding entries alike stop at the same slot. -/
theorem lookupSlot_mirrors {x : DictPythonHashIndex α} {y : DictPythonHashIndex β}
    (h : Mirrors R x y) (p : α → Bool) (q : β → Bool) (hash : UInt64)
    (htest : ∀ (i : ℕ) a b, x.entryKeys[i]? = some (some a) → y.entryKeys[i]? = some (some b) →
      p a = q b) : lookupSlot x p hash = lookupSlot y q hash := by
  have hany : ∀ i, (x.entryKeys.getD i none).any p = (y.entryKeys.getD i none).any q := by
    intro i
    have hrel := forall₂_get _ _ h.entryKeys i
    have ht := htest i
    rw [List.getD_eq_getElem?_getD, List.getD_eq_getElem?_getD]
    revert hrel ht
    generalize x.entryKeys[i]? = o
    generalize y.entryKeys[i]? = o'
    intro hrel ht
    cases hrel with
    | none => rfl
    | some hin =>
      cases hin with
      | none => rfl
      | some hab => simpa using ht _ _ rfl rfl
  have hsettle : lookupSettle x p = lookupSettle y q := by
    funext s
    simp only [lookupSettle, h.slot, hany]
  rw [lookupSlot_eq, lookupSlot_eq, hsettle, h.size]

theorem removeMatching_mirrors {x : DictPythonHashIndex α} {y : DictPythonHashIndex β}
    (h : Mirrors R x y) (p : α → Bool) (q : β → Bool) (hash : UInt64)
    (htest : ∀ (i : ℕ) a b, x.entryKeys[i]? = some (some a) → y.entryKeys[i]? = some (some b) →
      p a = q b) : Mirrors R (removeMatching x p hash) (removeMatching y q hash) := by
  simp only [removeMatching, lookupSlot_mirrors h p q hash htest]
  split
  · exact h
  · exact markSlotRemoved_mirrors h _

section insertion
variable [DictEntry α] [DictEntry β]

theorem place_mirrors {x : DictPythonHashIndex α} {y : DictPythonHashIndex β}
    (h : Mirrors R x y) (a : α) (b : β) (hab : R a b) (hh : pythonHash a = pythonHash b) :
    Mirrors R (placeWithoutResize x a) (placeWithoutResize y b) := by
  simp only [placeWithoutResize, insertionSlot_eq h, hh]
  split
  · exact h
  · exact ⟨by simp [h.indices, h.entryKeys.length_eq],
      List.rel_append h.entryKeys
        (List.Forall₂.cons (Option.Rel.some hab) List.Forall₂.nil),
      by simp [h.usable], by simp [h.liveLen], h.unicodeOnly⟩

variable (hR : ∀ a b, R a b → pythonHash a = pythonHash b ∧ isStr a = isStr b)
include hR

theorem Mirrors.sound {x : DictPythonHashIndex α} {y : DictPythonHashIndex β}
    (h : Mirrors R x y) (hs : Sound y) : Sound x := by
  constructor
  · rw [h.size]
    exact hs.sizePow
  · rw [h.size, h.indices, h.usable]
    exact hs.filled
  · intro s i hi
    rw [h.slot] at hi
    obtain ⟨b, hb⟩ := hs.entryLive s i hi
    have hrel := forall₂_get _ _ h.entryKeys i
    rw [hb] at hrel
    obtain ⟨o, ho, hin⟩ := rel_some_right _ _ hrel
    obtain ⟨a, ha, -⟩ := rel_some_right _ _ hin
    exact ⟨a, by rw [ho, ha]⟩
  · intro i a ha
    have hrel := forall₂_get _ _ h.entryKeys i
    rw [ha] at hrel
    obtain ⟨o, ho, hin⟩ := rel_some_left _ _ hrel
    obtain ⟨b, hb, hab⟩ := rel_some_left _ _ hin
    obtain ⟨n, hn, hbefore⟩ := hs.onPath i b (by rw [ho, hb])
    rw [h.size, (hR a b hab).1]
    exact ⟨n, by rw [h.slot, hn], fun m hm => by rw [h.slot]; exact hbefore m hm⟩
  · intro s t i hsi hti
    rw [h.slot] at hsi hti
    exact hs.slotUnique s t i hsi hti
  · rw [h.liveLen, hs.liveCount, h.liveKeys.length_eq]

theorem fold_place_mirrors {x : DictPythonHashIndex α} {y : DictPythonHashIndex β}
    (h : Mirrors R x y) (ks : List α) (ls : List β) (hl : List.Forall₂ R ks ls) :
    Mirrors R (ks.foldl placeWithoutResize x) (ls.foldl placeWithoutResize y) := by
  induction hl generalizing x y with
  | nil => exact h
  | cons hab _ ih => exact ih (place_mirrors h _ _ hab (hR _ _ hab).1)

theorem resize_mirrors {x : DictPythonHashIndex α} {y : DictPythonHashIndex β}
    (h : Mirrors R x y) (target : ℕ) : Mirrors R (resize x target) (resize y target) := by
  apply fold_place_mirrors hR
  · exact ⟨rfl, List.Forall₂.nil, rfl, rfl, h.unicodeOnly⟩
  · exact h.liveKeys

theorem prepareGeneralInsert_mirrors {x : DictPythonHashIndex α} {y : DictPythonHashIndex β}
    (h : Mirrors R x y) : Mirrors R (prepareGeneralInsert x) (prepareGeneralInsert y) := by
  simp only [prepareGeneralInsert, h.unicodeOnly, h.liveLen]
  split
  · have hr := resize_mirrors hR h (y.liveLen*3)
    exact ⟨hr.indices, hr.entryKeys, hr.usable, hr.liveLen, rfl⟩
  · exact h

theorem recordInserted_mirrors {x : DictPythonHashIndex α} {y : DictPythonHashIndex β}
    (h : Mirrors R x y) (a : α) (b : β) (hab : R a b) :
    Mirrors R (recordInserted x a) (recordInserted y b) := by
  have hc : Mirrors R (convertFor x a) (convertFor y b) := by
    simp only [convertFor, h.unicodeOnly, (hR a b hab).2]
    split
    · exact prepareGeneralInsert_mirrors hR h
    · exact h
  have hm : Mirrors R (makeRoom (convertFor x a)) (makeRoom (convertFor y b)) := by
    simp only [makeRoom, hc.usable, hc.liveLen]
    split
    · exact resize_mirrors hR hc _
    · exact hc
  exact place_mirrors hm a b hab (hR a b hab).1

theorem fold_recordInserted_mirrors {x : DictPythonHashIndex α} {y : DictPythonHashIndex β}
    (h : Mirrors R x y) (ks : List α) (ls : List β) (hl : List.Forall₂ R ks ls) :
    Mirrors R (ks.foldl recordInserted x) (ls.foldl recordInserted y) := by
  induction hl generalizing x y with
  | nil => exact h
  | cons hab _ ih => exact ih (recordInserted_mirrors hR h _ _ hab)

end insertion

end Pyrust.DictMirror
