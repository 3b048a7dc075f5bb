import Mathlib.Data.List.Forall2
import Pyrust.SetProbeInvariant

/-!
# Set tables that mirror each other

A set table compares nothing but slot kinds and hashes, so two tables whose
payloads correspond and hash alike make the same moves: both fail or both
give corresponding tables. A replayed table of identities and a table of the
keys themselves are compared this way.
-/

set_option autoImplicit false

namespace Pyrust.SetMirror
open Pyrust.SetProbe Pyrust.SetProbeInvariant

universe u v
variable {α : Type u} {β : Type v} {R : α → β → Prop}

inductive SlotRel (R : α → β → Prop) : SetSlot α → SetSlot β → Prop where
  | empty : SlotRel R .empty .empty
  | dummy : SlotRel R .dummy .dummy
  | entry {a : α} {b : β} : R a b → SlotRel R (.entry a) (.entry b)

structure Mirrors (R : α → β → Prop) (x : SetTable α) (y : SetTable β) : Prop where
  slots : List.Forall₂ (SlotRel R) x.slots y.slots
  fill : x.fill = y.fill
  used : x.used = y.used

theorem forall₂_getD (l : List (SetSlot α)) (l' : List (SetSlot β))
    (h : List.Forall₂ (SlotRel R) l l') (s : ℕ) :
    SlotRel R (l.getD s .empty) (l'.getD s .empty) := by
  induction h generalizing s with
  | nil => simpa using SlotRel.empty
  | cons hx _ ih =>
    cases s with
    | zero => simpa using hx
    | succ s => simpa using ih s

theorem forall₂_set (l : List (SetSlot α)) (l' : List (SetSlot β))
    (h : List.Forall₂ (SlotRel R) l l') (s : ℕ) (v : SetSlot α) (v' : SetSlot β)
    (hv : SlotRel R v v') : List.Forall₂ (SlotRel R) (l.set s v) (l'.set s v') := by
  induction h generalizing s with
  | nil => exact List.Forall₂.nil
  | cons hx ht ih =>
    cases s with
    | zero => exact List.Forall₂.cons hv ht
    | succ s => exact List.Forall₂.cons hx (ih s)

theorem forall₂_empty (n : ℕ) :
    List.Forall₂ (SlotRel R) (List.replicate n .empty) (List.replicate n .empty) := by
  induction n with
  | zero => exact List.Forall₂.nil
  | succ n ih => exact List.Forall₂.cons SlotRel.empty ih

section moves
variable {x : SetTable α} {y : SetTable β}

theorem Mirrors.slot (h : Mirrors R x y) (s : ℕ) : SlotRel R (x.slot s) (y.slot s) :=
  forall₂_getD _ _ h.slots s

theorem Mirrors.size (h : Mirrors R x y) : x.size = y.size := h.slots.length_eq

theorem Mirrors.live (h : Mirrors R x y) : List.Forall₂ R x.live y.live := by
  apply List.rel_filterMap ?_ h.slots
  intro a b hab
  cases hab with
  | empty => exact Option.Rel.none
  | dummy => exact Option.Rel.none
  | entry hab => exact Option.Rel.some hab

theorem Mirrors.isEmpty (h : Mirrors R x y) (s : ℕ) :
    (x.slot s).isEmpty = (y.slot s).isEmpty := by
  have hs := h.slot s
  revert hs
  generalize x.slot s = a
  generalize y.slot s = b
  intro hs
  cases hs <;> rfl

/-- A weaker correspondence may hold of the payloads that are present. -/
theorem Mirrors.imp {S : α → β → Prop} (h : Mirrors R x y)
    (himp : ∀ s a b, x.slot s = .entry a → y.slot s = .entry b → R a b → S a b) :
    Mirrors S x y := by
  refine ⟨?_, h.fill, h.used⟩
  rw [List.forall₂_iff_get]
  refine ⟨h.slots.length_eq, ?_⟩
  intro i hx hy
  have hi := h.slot i
  have hs := himp i
  rw [slot_get x i hx, slot_get y i hy] at hi hs
  simp only [List.get_eq_getElem]
  revert hi hs
  generalize x.slots[i] = a
  generalize y.slots[i] = b
  intro hi hs
  cases hi with
  | empty => exact SlotRel.empty
  | dummy => exact SlotRel.dummy
  | entry hab => exact SlotRel.entry (hs _ _ rfl rfl hab)

theorem scanInsert_eq (h : Mirrors R x y) (order : List ℕ) (d : Option ℕ) :
    x.scanInsert order d = y.scanInsert order d := by
  induction order generalizing d with
  | nil => rfl
  | cons s rest ih =>
    have hs := h.slot s
    simp only [SetTable.scanInsert]
    revert hs
    generalize x.slot s = a
    generalize y.slot s = b
    intro hs
    cases hs with
    | empty => rfl
    | dummy => exact ih _
    | entry _ => exact ih _

theorem scanRemove_eq (h : Mirrors R x y) (p : α → Bool) (q : β → Bool)
    (htest : ∀ s a b, x.slot s = .entry a → y.slot s = .entry b → p a = q b)
    (order : List ℕ) : x.scanRemove p order = y.scanRemove q order := by
  induction order with
  | nil => rfl
  | cons s rest ih =>
    have hs := h.slot s
    have ht := htest s
    simp only [SetTable.scanRemove]
    revert hs ht
    generalize x.slot s = a
    generalize y.slot s = b
    intro hs ht
    cases hs with
    | empty => rfl
    | dummy => exact ih
    | entry _ => simp only [ht _ _ rfl rfl, ih]

theorem remove_mirrors (h : Mirrors R x y) (p : α → Bool) (q : β → Bool) (hash : UInt64)
    (htest : ∀ s a b, x.slot s = .entry a → y.slot s = .entry b → p a = q b) :
    Option.Rel (Mirrors R) (x.remove p hash) (y.remove q hash) := by
  simp only [SetTable.remove, h.size, scanRemove_eq h p q htest]
  cases y.scanRemove q (probeOrder y.size hash) with
  | none => exact Option.Rel.none
  | some s =>
    exact Option.Rel.some
      ⟨forall₂_set _ _ h.slots s _ _ SlotRel.dummy, h.fill, by simp [h.used]⟩

variable {hashX : α → UInt64} {hashY : β → UInt64}

theorem insertClean_mirrors (h : Mirrors R x y) (a : α) (b : β) (hab : R a b)
    (hh : hashX a = hashY b) :
    Option.Rel (Mirrors R) (x.insertClean hashX a) (y.insertClean hashY b) := by
  simp only [SetTable.insertClean, h.size, hh, h.isEmpty]
  cases (probeOrder y.size (hashY b)).find? (fun s => (y.slot s).isEmpty) with
  | none => exact Option.Rel.none
  | some s =>
    exact Option.Rel.some ⟨forall₂_set _ _ h.slots s _ _ (SlotRel.entry hab), by simp [h.fill],
      by simp [h.used]⟩

variable (hR : ∀ a b, R a b → hashX a = hashY b)
include hR

theorem refill_mirrors (h : Mirrors R x y) (ks : List α) (ls : List β)
    (hl : List.Forall₂ R ks ls) :
    Option.Rel (Mirrors R) (ks.foldlM (SetTable.insertClean hashX) x)
      (ls.foldlM (SetTable.insertClean hashY) y) := by
  induction hl generalizing x y with
  | nil => exact Option.Rel.some h
  | @cons a b ks ls hab _ ih =>
    have hc := insertClean_mirrors h a b hab (hR a b hab)
    rw [List.foldlM_cons, List.foldlM_cons]
    revert hc
    generalize x.insertClean hashX a = o
    generalize y.insertClean hashY b = o'
    intro hc
    cases hc with
    | none => exact Option.Rel.none
    | some hm => exact ih hm

theorem resize_mirrors (h : Mirrors R x y) (minused : ℕ) :
    Option.Rel (Mirrors R) (x.resize hashX minused) (y.resize hashY minused) := by
  have hd : x.hasDummies = y.hasDummies := by simp [SetTable.hasDummies, h.fill, h.used]
  simp only [SetTable.resize, h.size, hd]
  split
  · exact Option.Rel.some h
  · apply refill_mirrors hR ?_ _ _ h.live
    exact ⟨forall₂_empty _, rfl, rfl⟩

/-- What an insertion does once its payload stands in a fresh slot. -/
theorem settle_mirrors (h : Mirrors R x y) :
    Option.Rel (Mirrors R)
      (if x.fill*5 < (x.size-1)*3 then some x else x.resize hashX (minusedFor x.used))
      (if y.fill*5 < (y.size-1)*3 then some y else y.resize hashY (minusedFor y.used)) := by
  rw [h.fill, h.size, h.used]
  by_cases hfits : y.fill*5 < (y.size-1)*3
  · rw [if_pos hfits, if_pos hfits]
    exact Option.Rel.some h
  · rw [if_neg hfits, if_neg hfits]
    exact resize_mirrors hR h _

theorem insert_mirrors (h : Mirrors R x y) (a : α) (b : β) (hab : R a b) (hash : UInt64) :
    Option.Rel (Mirrors R) (x.insert hashX a hash) (y.insert hashY b hash) := by
  have hslot : x.insertionSlot hash = y.insertionSlot hash := by
    simp only [SetTable.insertionSlot, h.size, scanInsert_eq h]
  have hset : ∀ s, List.Forall₂ (SlotRel R) (x.slots.set s (.entry a)) (y.slots.set s (.entry b)) :=
    fun s => forall₂_set _ _ h.slots s _ _ (SlotRel.entry hab)
  simp only [SetTable.insert, hslot]
  cases y.insertionSlot hash with
  | none => exact Option.Rel.none
  | some slot =>
    obtain ⟨s, fresh⟩ := slot
    cases fresh with
    | false => exact Option.Rel.some ⟨hset s, h.fill, by simp [h.used]⟩
    | true =>
      have hm : Mirrors R
          { slots := x.slots.set s (.entry a), fill := x.fill+1, used := x.used+1 }
          { slots := y.slots.set s (.entry b), fill := y.fill+1, used := y.used+1 } :=
        ⟨hset s, by simp [h.fill], by simp [h.used]⟩
      exact settle_mirrors hR hm

theorem prepareMerge_mirrors (h : Mirrors R x y) (n : ℕ) :
    Option.Rel (Mirrors R) (x.prepareMerge hashX n) (y.prepareMerge hashY n) := by
  simp only [SetTable.prepareMerge, h.size, h.fill, h.used]
  split
  · exact resize_mirrors hR h _
  · exact Option.Rel.some h

theorem finishDifferenceUpdate_mirrors (h : Mirrors R x y) :
    Option.Rel (Mirrors R) (x.finishDifferenceUpdate hashX) (y.finishDifferenceUpdate hashY) := by
  simp only [SetTable.finishDifferenceUpdate, h.size, h.fill, h.used]
  split
  · exact Option.Rel.some h
  · exact resize_mirrors hR h _

end moves

end Pyrust.SetMirror
