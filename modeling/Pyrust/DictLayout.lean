import Pyrust.DictProbeInvariant

/-!
# The iteration layout of a dict

A finished iterator decides the visibility of a re-inserted key from a small
model of the compact key table: live count, entry count and remaining
capacity. The probe table keeps the same numbers with its slots. Both grow
from three times the live count, one by doubling from eight, the other by the
bit trick of the key table. The two choices differ at one and two live keys
and nowhere else.
-/

set_option autoImplicit false

namespace Pyrust.DictLayout
open Pyrust.PerturbProbe Pyrust.DictProbeIndex Pyrust.DictProbeInvariant

universe u

structure DictIterationLayout where
  liveLen : ℕ
  entryCount : ℕ
  usable : ℕ
  deriving DecidableEq, Repr

def dictUsableFraction (tableSize : ℕ) : ℕ := tableSize*2/3

def forLen (len : ℕ) : DictIterationLayout :=
  if len = 0 then ⟨0, 0, 0⟩
  else
    let tableSize := doubleUntil (fun size => len ≤ dictUsableFraction size) len 8
    ⟨len, len, dictUsableFraction tableSize-len⟩

def DictIterationLayout.remove (layout : DictIterationLayout) (count : ℕ) :
    DictIterationLayout :=
  { layout with liveLen := layout.liveLen-count }

def grownTableSize (target : ℕ) : ℕ := doubleUntil (fun size => target ≤ size) target 8

/-- Record one new key; the first component is its compact entry index. -/
def DictIterationLayout.insert (layout : DictIterationLayout) : ℕ × DictIterationLayout :=
  if layout.usable = 0 then
    let entryCount := layout.liveLen+1
    (layout.liveLen,
      ⟨layout.liveLen+1, entryCount,
        dictUsableFraction (grownTableSize (layout.liveLen*3))-entryCount⟩)
  else
    (layout.entryCount, ⟨layout.liveLen+1, layout.entryCount+1, layout.usable-1⟩)

inductive Op (K : Type u) where
  | insert (key : K)
  | remove (key : K)
  deriving DecidableEq, Repr

/-- One dict seen by both models: its keys, the probe table and the layout. -/
structure Both (K : Type u) where
  entries : List K
  index : DictPythonHashIndex K
  layout : DictIterationLayout
  deriving DecidableEq, Repr

def emptyBoth (K : Type u) : Both K := ⟨[], {}, forLen 0⟩

section run
variable {K : Type u} [BEq K] [DictEntry K]

/-- The stored key that compares equal is the one removed from the table. -/
def step : Op K → Both K → Both K
  | .insert key, b => ⟨b.entries++[key], recordInserted b.index key, b.layout.insert.2⟩
  | .remove key, b =>
    match b.entries.findIdx? (fun stored => stored == key) with
    | none => b
    | some r =>
      match b.entries[r]? with
      | none => b
      | some stored =>
        ⟨b.entries.eraseIdx r, recordRemoved b.index stored, b.layout.remove 1⟩

/-- Insertions are of absent string keys. -/
def Allowed : Op K → Both K → Prop
  | .insert key, b => isStr key = true ∧ ∀ stored ∈ b.entries, (stored == key) = false
  | .remove key, b => ∃ stored ∈ b.entries, (stored == key) = true

def AllowedAlong : List (Op K) → Both K → Prop
  | [], _ => True
  | op::ops, b => Allowed op b ∧ AllowedAlong ops (step op b)

/-- The step leaves equal capacities, and an inserted key sits in the probe
table at the entry index the layout gave it. -/
def Agree : Op K → Both K → Prop
  | .insert key, b =>
    (step (.insert key) b).layout.usable = (step (.insert key) b).index.usable ∧
    (step (.insert key) b).index.entryKeys[b.layout.insert.1]? = some (some key)
  | .remove key, b =>
    (step (.remove key) b).layout.usable = (step (.remove key) b).index.usable

def AgreeAlong : List (Op K) → Both K → Prop
  | [], _ => True
  | op::ops, b => Agree op b ∧ AgreeAlong ops (step op b)

/-- An insertion into a full table that has one or two live keys left. -/
def SmallResize : Op K → Both K → Prop
  | .insert _, b => b.index.usable = 0 ∧ (b.entries.length = 1 ∨ b.entries.length = 2)
  | .remove _, _ => False

def AvoidsSmallResize : List (Op K) → Both K → Prop
  | [], _ => True
  | op::ops, b => ¬ SmallResize op b ∧ AvoidsSmallResize ops (step op b)

instance decidableAllowed : (op : Op K) → (b : Both K) → Decidable (Allowed op b)
  | .insert key, b => inferInstanceAs
      (Decidable (isStr key = true ∧ ∀ stored ∈ b.entries, (stored == key) = false))
  | .remove key, b => inferInstanceAs
      (Decidable (∃ stored ∈ b.entries, (stored == key) = true))

instance decidableAllowedAlong : (ops : List (Op K)) → (b : Both K) →
    Decidable (AllowedAlong ops b)
  | [], _ => isTrue trivial
  | op::ops, b => @instDecidableAnd _ _ _ (decidableAllowedAlong ops (step op b))

instance decidableSmallResize : (op : Op K) → (b : Both K) → Decidable (SmallResize op b)
  | .insert _, b => inferInstanceAs
      (Decidable (b.index.usable = 0 ∧ (b.entries.length = 1 ∨ b.entries.length = 2)))
  | .remove _, _ => isFalse id

instance decidableAvoidsSmallResize : (ops : List (Op K)) → (b : Both K) →
    Decidable (AvoidsSmallResize ops b)
  | [], _ => isTrue trivial
  | op::ops, b => @instDecidableAnd _ _ _ (decidableAvoidsSmallResize ops (step op b))

end run

section sizes

theorem pow_eq_of_bounds (a b t : ℕ) (ha : t ≤ 2^a) (ha2 : 2^a < 2*t) (hb : t ≤ 2^b)
    (hb2 : 2^b < 2*t) : a = b := by
  rcases lt_trichotomy a b with hlt | he | hlt
  · have : 2^(a+1) ≤ 2^b := Nat.pow_le_pow_right (by decide) hlt
    rw [pow_succ] at this
    omega
  · exact he
  · have : 2^(b+1) ≤ 2^a := Nat.pow_le_pow_right (by decide) hlt
    rw [pow_succ] at this
    omega

theorem three_mul_ne_pow (live b : ℕ) : live*3 ≠ 2^b := by
  intro h
  have h3 : 3 ∣ 2^b := ⟨live, by omega⟩
  have := (Nat.prime_three.dvd_of_dvd_pow h3)
  omega

/-- Both models select one table size, except at one and two live keys. -/
theorem grownTableSize_eq (live : ℕ) (h1 : live ≠ 1) (h2 : live ≠ 2) :
    grownTableSize (live*3) = tableSizeForTarget (live*3) := by
  by_cases h0 : live = 0
  · subst h0
    decide
  obtain ⟨b, hb, hle, hor⟩ := doubleUntil_spec (live*3) (live*3) 3 (by omega)
  have hb2 : 2^b < 2*(live*3) := by
    rcases hor with rfl | hlt
    · omega
    · exact hlt
  have hlt : live*3 < 2^b := lt_of_le_of_ne hle (three_mul_ne_pow live b)
  have hb4 : 3 < b := by
    by_contra hb3
    have : 2^b ≤ 2^3 := Nat.pow_le_pow_right (by decide) (by omega)
    omega
  have h8 : 8 < 2^b := by
    have : 2^4 ≤ 2^b := Nat.pow_le_pow_right (by decide) hb4
    omega
  have hor8 : live*3 ||| 8 < 2^b := Nat.or_lt_two_pow hlt h8
  obtain ⟨ht, -⟩ := or_eight_le (live*3)
  obtain ⟨hlow, hhigh⟩ := tableSizeForTarget_bounds (live*3)
  have heq : bitLength ((live*3 ||| 8)-1) = b := by
    have hT : 2^bitLength ((live*3 ||| 8)-1) < 2^(b+1) := by
      rw [pow_succ]
      simp only [tableSizeForTarget] at hhigh
      omega
    have hTb := (Nat.pow_lt_pow_iff_right (by decide)).mp hT
    have hle2 : 2^bitLength ((live*3 ||| 8)-1) ≤ 2^b :=
      Nat.pow_le_pow_right (by decide) (by omega)
    simp only [tableSizeForTarget] at hlow
    exact pow_eq_of_bounds _ _ (live*3) (by omega) (by omega) hle hb2
  rw [grownTableSize, tableSizeForTarget, heq]
  exact hb

theorem small_resize_usable (live : ℕ) (h : live = 1 ∨ live = 2) :
    dictUsableFraction (grownTableSize (live*3))-(live+1) ≠
      dictProbeUsableFraction (tableSizeForTarget (live*3))-live-1 := by
  rcases h with rfl | rfl <;> decide

end sizes

section agreement
variable {K : Type u} [BEq K] [DictEntry K]

/-- What both models share as long as they have agreed. -/
structure Tracked (b : Both K) : Prop where
  sound : Sound b.index
  keys : b.index.liveKeys = b.entries
  unicode : b.index.unicodeOnly = true
  distinct : Distinct b.entries
  liveLen : b.layout.liveLen = b.entries.length
  entryCount : b.layout.entryCount = b.index.entryKeys.length
  usable : b.layout.usable = b.index.usable

theorem emptyBoth_tracked : Tracked (emptyBoth K) := by
  constructor
  · exact fresh_sound 0 true (Or.inl rfl)
  · rfl
  · rfl
  · exact List.Pairwise.nil
  · rfl
  · rfl
  · rfl

theorem Tracked.live (b : Both K) (ht : Tracked b) : b.index.liveLen = b.entries.length := by
  rw [ht.sound.liveCount, ht.keys]

theorem insert_usable (b : Both K) (key : K) (ht : Tracked b) (hk : isStr key = true) :
    (recordInserted b.index key).usable =
      (if b.index.usable = 0 then
        dictProbeUsableFraction (tableSizeForTarget (b.entries.length*3))-b.entries.length
      else b.index.usable)-1 := by
  have h := (recordInserted_capacity ht.sound key (by simp [hk])).1
  rwa [ht.live] at h

theorem insert_entryKeys_length (b : Both K) (key : K) (ht : Tracked b) (hk : isStr key = true) :
    (recordInserted b.index key).entryKeys.length = b.layout.insert.1+1 := by
  have h := (recordInserted_capacity ht.sound key (by simp [hk])).2
  rw [h, ht.live, DictIterationLayout.insert, ht.usable, ht.liveLen, ht.entryCount]
  by_cases h0 : b.index.usable = 0 <;> simp [h0]

theorem insert_position (b : Both K) (key : K) (ht : Tracked b) (hk : isStr key = true) :
    (recordInserted b.index key).entryKeys[b.layout.insert.1]? = some (some key) := by
  obtain ⟨l, hl⟩ := recordInserted_last ht.sound key
  have hlen := insert_entryKeys_length b key ht hk
  rw [hl] at hlen ⊢
  simp only [List.length_append, List.length_singleton] at hlen
  rw [show b.layout.insert.1 = l.length by omega]
  simp

theorem insert_layout_usable (b : Both K) (key : K) (ht : Tracked b) (hk : isStr key = true) :
    b.layout.insert.2.usable = (recordInserted b.index key).usable ↔
      ¬ SmallResize (.insert key) b := by
  rw [insert_usable b key ht hk, DictIterationLayout.insert, ht.usable, ht.liveLen]
  by_cases h0 : b.index.usable = 0
  · by_cases hsmall : b.entries.length = 1 ∨ b.entries.length = 2
    · have hne := small_resize_usable _ hsmall
      simp [h0, SmallResize, hsmall, hne]
    · have heq := grownTableSize_eq b.entries.length (by omega) (by omega)
      simp only [h0, if_true, SmallResize, hsmall, heq, dictUsableFraction,
        dictProbeUsableFraction, and_false, not_false_eq_true, iff_true]
      omega
  · simp [h0, SmallResize]

theorem insert_agree_iff (b : Both K) (key : K) (ht : Tracked b)
    (ha : Allowed (.insert key) b) :
    Agree (.insert key) b ↔ ¬ SmallResize (.insert key) b := by
  have hpos := insert_position b key ht ha.1
  have hus := insert_layout_usable b key ht ha.1
  simp only [Agree, step]
  rw [hus]
  simp [hpos]

theorem insert_tracked (b : Both K) (key : K) (ht : Tracked b) (ha : Allowed (.insert key) b)
    (hs : ¬ SmallResize (.insert key) b) : Tracked (step (.insert key) b) := by
  have hlen := insert_entryKeys_length b key ht ha.1
  constructor
  · exact recordInserted_sound ht.sound key
  · simp only [step]
    rw [recordInserted_liveKeys ht.sound, ht.keys]
  · simp only [step]
    rw [recordInserted_unicodeOnly ht.sound, ht.unicode, ha.1]
    rfl
  · simp only [step]
    rw [Distinct, List.pairwise_append]
    refine ⟨ht.distinct, List.pairwise_singleton _ _, ?_⟩
    intro x hx y hy
    rw [List.mem_singleton.mp hy]
    exact ha.2 x hx
  · simp only [step, DictIterationLayout.insert]
    split <;> simp [ht.liveLen]
  · simp only [step]
    rw [hlen, DictIterationLayout.insert]
    split <;> rfl
  · exact (insert_layout_usable b key ht ha.1).mpr hs

theorem remove_step (b : Both K) (key : K) (ha : Allowed (.remove key) b) :
    ∃ r stored, b.entries[r]? = some stored ∧
      step (.remove key) b =
        ⟨b.entries.eraseIdx r, recordRemoved b.index stored, b.layout.remove 1⟩ := by
  obtain ⟨x, hx, hxk⟩ := ha
  cases hf : b.entries.findIdx? (fun stored => stored == key) with
  | none =>
    rw [List.findIdx?_eq_none_iff] at hf
    rw [hf x hx] at hxk
    simp at hxk
  | some r =>
    have hr := (List.findIdx?_eq_some_iff_getElem.mp hf).1
    have hget : b.entries[r]? = some b.entries[r] := List.getElem?_eq_getElem hr
    exact ⟨r, b.entries[r], hget, by simp [step, hf, hget]⟩

theorem remove_tracked [EquivBEq K] (b : Both K) (key : K) (ht : Tracked b)
    (ha : Allowed (.remove key) b) : Tracked (step (.remove key) b) := by
  obtain ⟨r, stored, hr, hstep⟩ := remove_step b key ha
  have hd := ht.distinct
  have hk := ht.keys
  obtain ⟨h1, h2, h3, h4, i, -, -, h5⟩ := recordRemoved_spec b.index ht.sound (hk ▸ hd) r stored
    (hk ▸ hr)
  have hlt := (List.getElem?_eq_some_iff.mp hr).1
  rw [hstep]
  constructor
  · exact h1
  · rw [h2, hk]
  · rw [h4, ht.unicode]
  · exact hd.sublist (List.eraseIdx_sublist _ _)
  · simp [DictIterationLayout.remove, ht.liveLen, List.length_eraseIdx_of_lt hlt]
  · simp [DictIterationLayout.remove, ht.entryCount, h5]
  · simp [DictIterationLayout.remove, ht.usable, h3]

theorem step_agree_iff [EquivBEq K] (op : Op K) (b : Both K) (ht : Tracked b)
    (ha : Allowed op b) : Agree op b ↔ ¬ SmallResize op b := by
  cases op with
  | insert key => exact insert_agree_iff b key ht ha
  | remove key =>
    have := (remove_tracked b key ht ha).usable
    simp [Agree, SmallResize, this]

theorem step_tracked [EquivBEq K] (op : Op K) (b : Both K) (ht : Tracked b)
    (ha : Allowed op b) (hs : ¬ SmallResize op b) : Tracked (step op b) := by
  cases op with
  | insert key => exact insert_tracked b key ht ha hs
  | remove key => exact remove_tracked b key ht ha

theorem tracked_agree_iff [EquivBEq K] (ops : List (Op K)) (b : Both K) (ht : Tracked b)
    (ha : AllowedAlong ops b) : AgreeAlong ops b ↔ AvoidsSmallResize ops b := by
  induction ops generalizing b with
  | nil => simp [AgreeAlong, AvoidsSmallResize]
  | cons op ops ih =>
    simp only [AgreeAlong, AvoidsSmallResize, step_agree_iff op b ht ha.1]
    by_cases hs : SmallResize op b
    · simp [hs]
    · simp [hs, ih _ (step_tracked op b ht ha.1 hs) ha.2]

/-- From the empty dict the two models agree after every step exactly when no
insertion meets a full table with one or two live keys. -/
theorem layouts_agree_iff [EquivBEq K] (ops : List (Op K))
    (ha : AllowedAlong ops (emptyBoth K)) :
    AgreeAlong ops (emptyBoth K) ↔ AvoidsSmallResize ops (emptyBoth K) :=
  tracked_agree_iff ops _ emptyBoth_tracked ha

/-- Five string keys with the hashes one to five. -/
def fiveKeys : List (Op PlainKey) :=
  [1, 2, 3, 4, 5].map (fun h => .insert ⟨true, h⟩)

/-- Four of five keys removed: the next insertion resizes with one live key. -/
def drainedRun : List (Op PlainKey) :=
  fiveKeys++[Op.remove ⟨true, 1⟩, .remove ⟨true, 2⟩, .remove ⟨true, 3⟩, .remove ⟨true, 4⟩,
    .insert ⟨true, 6⟩]

theorem layouts_disagree : AllowedAlong drainedRun (emptyBoth PlainKey) ∧
    ¬ AgreeAlong drainedRun (emptyBoth PlainKey) := by
  have ha : AllowedAlong drainedRun (emptyBoth PlainKey) := by decide
  refine ⟨ha, ?_⟩
  rw [tracked_agree_iff _ _ emptyBoth_tracked ha]
  decide

theorem layouts_agree_after_one_removal :
    AllowedAlong (fiveKeys++[Op.remove ⟨true, 1⟩, .insert ⟨true, 6⟩]) (emptyBoth PlainKey) ∧
    AgreeAlong (fiveKeys++[Op.remove ⟨true, 1⟩, .insert ⟨true, 6⟩]) (emptyBoth PlainKey) := by
  have ha : AllowedAlong (fiveKeys++[Op.remove ⟨true, 1⟩, .insert ⟨true, 6⟩])
      (emptyBoth PlainKey) := by decide
  exact ⟨ha, (layouts_agree_iff _ ha).mpr (by decide)⟩

end agreement

end Pyrust.DictLayout
