import Pyrust.SetProbe

/-!
# Probe invariants of the set table

Counts are exact, every payload is reached along the probe order of its own
hash before any empty slot, and the load factor keeps an empty slot in the
table. Each operation is total on such tables and keeps the conditions; its
effect on the live payloads is a permutation.
-/

set_option autoImplicit false

namespace Pyrust.SetProbeInvariant
open Pyrust.PerturbProbe Pyrust.SetProbe

universe u
variable {α : Type u}

def Reaches (t : SetTable α) (hash : UInt64) (s : ℕ) : Prop :=
  ∃ before after, probeOrder t.size hash = before++s::after ∧
    ∀ p ∈ before, t.slot p ≠ .empty

structure Sound (hashOf : α → UInt64) (t : SetTable α) : Prop where
  sizePow : ∃ k, t.size = 2^k
  minSize : 8 ≤ t.size
  fillCount : t.fill = t.slots.countP (fun s => !s.isEmpty)
  usedCount : t.used = t.live.length
  reach : ∀ s a, t.slot s = .entry a → Reaches t (hashOf a) s

/-- Fewer than three fifths of the table are filled. -/
def Loaded (t : SetTable α) : Prop := t.fill*5 < (t.size-1)*3

theorem linearRun_head (size s : ℕ) : s ∈ linearRun size s := by
  simp only [linearRun]
  split
  · simp [setProbeLinearProbes]
  · simp

theorem mem_visits (size h fuel n m : ℕ) (hm : m < fuel) :
    slotAt size h (n+m) ∈ visits size fuel (cursor size h n) := by
  induction fuel generalizing n m with
  | zero => omega
  | succ fuel ih =>
    rw [visits, List.mem_append]
    cases m with
    | zero => exact Or.inl (linearRun_head _ _)
    | succ m =>
      right
      have := ih (n+1) m (by omega)
      rwa [show n+1+m = n+(m+1) by omega] at this

/-- The probe order of any hash visits every slot. -/
theorem mem_probeOrder (k s : ℕ) (hash : UInt64) (size : ℕ) (hk : size = 2^k) (hs : s < size) :
    s ∈ probeOrder size hash := by
  subst hk
  obtain ⟨n, hn, rfl⟩ := slotAt_covers k hash.toNat s hash.toNat_lt hs
  have := mem_visits (2^k) hash.toNat (budget (2^k)) 0 n hn
  rwa [Nat.zero_add] at this

theorem getD_set (l : List (SetSlot α)) (s t : ℕ) (v : SetSlot α) (hs : s < l.length) :
    (l.set s v).getD t .empty = if s = t then v else l.getD t .empty := by
  by_cases hst : s = t
  · subst hst
    simp [List.getD_eq_getElem?_getD, hs]
  · simp [List.getD_eq_getElem?_getD, hst]

theorem isEmpty_iff (s : SetSlot α) : s.isEmpty = true ↔ s = .empty := by
  cases s <;> simp [SetSlot.isEmpty]

theorem slot_lt (t : SetTable α) (s : ℕ) (h : t.slot s ≠ .empty) : s < t.size := by
  by_contra hs
  apply h
  have hn : t.slots[s]? = none := List.getElem?_eq_none (by simpa [SetTable.size] using hs)
  simp [SetTable.slot, List.getD_eq_getElem?_getD, hn]

theorem slot_get (t : SetTable α) (s : ℕ) (hs : s < t.slots.length) : t.slot s = t.slots[s] := by
  simp [SetTable.slot, List.getD_eq_getElem?_getD, hs]

theorem exists_empty (t : SetTable α)
    (h : t.slots.countP (fun s => !s.isEmpty) < t.size) : ∃ s < t.size, t.slot s = .empty := by
  by_contra hne
  have hall : ∀ d ∈ t.slots, (!d.isEmpty) = true := by
    intro d hd
    obtain ⟨s, hs, rfl⟩ := List.getElem_of_mem hd
    simp only [Bool.not_eq_true', Bool.eq_false_iff, ne_eq, isEmpty_iff]
    intro he
    exact hne ⟨s, hs, by rw [slot_get t s hs, he]⟩
  have hc := List.countP_eq_length.mpr hall
  simp only [SetTable.size] at h
  omega

theorem scanInsert_isSome (t : SetTable α) (order : List ℕ) (d : Option ℕ)
    (h : ∃ s ∈ order, t.slot s = .empty) : (t.scanInsert order d).isSome = true := by
  induction order generalizing d with
  | nil => simp at h
  | cons s rest ih =>
    have hrest : t.slot s ≠ .empty → ∃ s ∈ rest, t.slot s = .empty := by
      intro hne
      obtain ⟨p, hp, he⟩ := h
      rcases List.mem_cons.mp hp with rfl | hp
      · exact absurd he hne
      · exact ⟨p, hp, he⟩
    cases hs : t.slot s with
    | empty => cases d <;> simp [SetTable.scanInsert, hs]
    | dummy => simpa [SetTable.scanInsert, hs] using ih (some s) (hrest (by simp [hs]))
    | entry a => simpa [SetTable.scanInsert, hs] using ih d (hrest (by simp [hs]))

/-- Either the first empty slot, or a dummy met before it. -/
theorem scanInsert_some (t : SetTable α) (order : List ℕ) (d : Option ℕ) (s : ℕ) (fresh : Bool)
    (h : t.scanInsert order d = some (s, fresh)) :
    (∃ before after, order = before++s::after ∧ (∀ p ∈ before, t.slot p ≠ .empty) ∧
      t.slot s = if fresh then .empty else .dummy) ∨ (d = some s ∧ fresh = false) := by
  induction order generalizing d with
  | nil => simp [SetTable.scanInsert] at h
  | cons p rest ih =>
    cases hp : t.slot p with
    | empty =>
      cases d with
      | none =>
        simp only [SetTable.scanInsert, hp, Option.some.injEq, Prod.mk.injEq] at h
        obtain ⟨rfl, rfl⟩ := h
        exact Or.inl ⟨[], rest, rfl, by simp, by simp [hp]⟩
      | some d =>
        simp only [SetTable.scanInsert, hp, Option.some.injEq, Prod.mk.injEq] at h
        obtain ⟨rfl, rfl⟩ := h
        exact Or.inr ⟨rfl, rfl⟩
    | dummy =>
      simp only [SetTable.scanInsert, hp] at h
      rcases ih _ h with ⟨before, after, he, hb, hs⟩ | ⟨hd, hf⟩
      · refine Or.inl ⟨p::before, after, by simp [he], ?_, hs⟩
        simpa [hp] using hb
      · simp only [Option.some.injEq] at hd
        subst hd
        exact Or.inl ⟨[], rest, rfl, by simp, by simp [hp, hf]⟩
    | entry a =>
      simp only [SetTable.scanInsert, hp] at h
      rcases ih _ h with ⟨before, after, he, hb, hs⟩ | hd
      · refine Or.inl ⟨p::before, after, by simp [he], ?_, hs⟩
        simpa [hp] using hb
      · exact Or.inr hd

theorem find_empty (t : SetTable α) (order : List ℕ) (s : ℕ)
    (h : order.find? (fun s => (t.slot s).isEmpty) = some s) :
    t.slot s = .empty ∧ ∃ before after, order = before++s::after ∧
      ∀ p ∈ before, t.slot p ≠ .empty := by
  rw [List.find?_eq_some_iff_append] at h
  obtain ⟨hs, before, after, he, hb⟩ := h
  refine ⟨(isEmpty_iff _).mp hs, before, after, he, ?_⟩
  intro p hp he
  have := hb p hp
  simp [he, SetSlot.isEmpty] at this

section write

theorem split_slots (l : List (SetSlot α)) (s : ℕ) (hs : s < l.length) :
    l = l.take s++l[s]::l.drop (s+1) := by
  rw [← List.drop_eq_getElem_cons hs, List.take_append_drop]

theorem live_split (t : SetTable α) (s : ℕ) (hs : s < t.slots.length) :
    t.live = (t.slots.take s).filterMap SetSlot.payload++
      ((t.slot s).payload.toList++(t.slots.drop (s+1)).filterMap SetSlot.payload) := by
  calc t.live = (t.slots.take s++t.slots[s]::t.slots.drop (s+1)).filterMap SetSlot.payload := by
        rw [← split_slots t.slots s hs]
        rfl
    _ = _ := by
        rw [List.filterMap_append, slot_get t s hs, List.filterMap_cons]
        cases t.slots[s].payload <;> rfl

theorem live_set_entry (t : SetTable α) (s : ℕ) (a : α) (hs : s < t.slots.length)
    (hn : (t.slot s).payload = none) :
    ((t.slots.set s (.entry a)).filterMap SetSlot.payload).Perm (a::t.live) := by
  rw [List.set_eq_take_append_cons_drop, if_pos hs, live_split t s hs, hn, List.filterMap_append]
  exact List.perm_middle

theorem live_set_dummy (t : SetTable α) (s : ℕ) (a : α) (hs : s < t.slots.length)
    (ha : t.slot s = .entry a) :
    t.live.Perm (a::(t.slots.set s .dummy).filterMap SetSlot.payload) := by
  rw [List.set_eq_take_append_cons_drop, if_pos hs, live_split t s hs, ha, List.filterMap_append]
  exact List.perm_middle

theorem count_set (t : SetTable α) (s : ℕ) (v : SetSlot α) (hs : s < t.slots.length)
    (hv : v.isEmpty = false) :
    (t.slots.set s v).countP (fun s => !s.isEmpty) =
      t.slots.countP (fun s => !s.isEmpty)+(if (t.slot s).isEmpty then 1 else 0) := by
  have hget := slot_get t s hs
  rw [List.countP_set hs, hget]
  cases he : t.slots[s].isEmpty with
  | true => simp [hv]
  | false =>
    have hpos : 0 < t.slots.countP (fun s => !s.isEmpty) := by
      rw [List.countP_pos_iff]
      exact ⟨_, List.getElem_mem hs, by simp [he]⟩
    simp [hv]
    omega

end write

section operations
variable {hashOf : α → UInt64} {t : SetTable α}

/-- Writing a payload into a free slot it reaches. -/
theorem write_sound (hs : Sound hashOf t) (s : ℕ) (a : α) (hlt : s < t.size)
    (hn : (t.slot s).payload = none) (hr : Reaches t (hashOf a) s) :
    Sound hashOf { slots := t.slots.set s (.entry a)
                   fill := t.fill+(if (t.slot s).isEmpty then 1 else 0)
                   used := t.used+1 } := by
  set new : SetTable α :=
    { slots := t.slots.set s (.entry a)
      fill := t.fill+(if (t.slot s).isEmpty then 1 else 0)
      used := t.used+1 } with hnew
  have hsize : new.size = t.size := by simp [hnew, SetTable.size]
  have hat : ∀ p, new.slot p = if s = p then .entry a else t.slot p :=
    fun p => getD_set _ _ _ _ hlt
  have hkeep : ∀ p, t.slot p ≠ .empty → new.slot p ≠ .empty := by
    intro p hp
    rw [hat]
    split
    · simp
    · exact hp
  have hreach : ∀ h p, Reaches t h p → Reaches new h p := by
    rintro h p ⟨before, after, he, hb⟩
    exact ⟨before, after, by rw [hsize, he], fun q hq => hkeep q (hb q hq)⟩
  constructor
  · rw [hsize]
    exact hs.sizePow
  · rw [hsize]
    exact hs.minSize
  · simp only [hnew]
    rw [count_set t s _ hlt rfl, hs.fillCount]
  · have := (live_set_entry t s a hlt hn).length_eq
    simp only [hnew, SetTable.live] at this ⊢
    rw [this, hs.usedCount]
    rfl
  · intro p b hb
    rw [hat] at hb
    split at hb
    · rename_i hsp
      injection hb with hb
      subst hsp hb
      exact hreach _ _ hr
    · exact hreach _ _ (hs.reach p b hb)

theorem Sound.empty_visited (hs : Sound hashOf t) (hf : t.fill < t.size) (hash : UInt64) :
    ∃ s ∈ probeOrder t.size hash, t.slot s = .empty := by
  obtain ⟨k, hk⟩ := hs.sizePow
  obtain ⟨s, hlt, he⟩ := exists_empty t (hs.fillCount ▸ hf)
  exact ⟨s, mem_probeOrder k s hash _ hk hlt, he⟩

theorem slotAt_mem_lt (size s : ℕ) (hash : UInt64) (h8 : 8 ≤ size)
    (h : s ∈ probeOrder size hash) : s < size := by
  have hrun : ∀ p, p < size → ∀ q ∈ linearRun size p, q < size := by
    intro p hp q hq
    simp only [linearRun] at hq
    split at hq
    · rw [List.mem_range'_1] at hq
      simp only [setProbeLinearProbes] at *
      omega
    · rw [List.mem_singleton.mp hq]
      exact hp
  have hvisit : ∀ (fuel : ℕ) (c : ℕ × ℕ), c.1 < size → ∀ q ∈ visits size fuel c, q < size := by
    intro fuel
    induction fuel with
    | zero => simp [visits]
    | succ fuel ih =>
      intro c hc q hq
      rcases List.mem_append.mp hq with hq | hq
      · exact hrun c.1 hc q hq
      · exact ih _ (Nat.mod_lt _ (by omega)) q hq
  exact hvisit _ _ (Nat.mod_lt _ (by omega)) s h

theorem insertClean_spec (hs : Sound hashOf t) (hf : t.fill < t.size) (a : α) :
    ∃ t', t.insertClean hashOf a = some t' ∧ Sound hashOf t' ∧ t'.live.Perm (a::t.live) ∧
      t'.fill = t.fill+1 ∧ t'.used = t.used+1 ∧ t'.size = t.size := by
  obtain ⟨s, hmem, he⟩ := hs.empty_visited hf (hashOf a)
  obtain ⟨p, hp⟩ := Option.isSome_iff_exists.mp
    (List.find?_isSome.mpr ⟨s, hmem, (isEmpty_iff _).mpr he⟩ :
      ((probeOrder t.size (hashOf a)).find? (fun s => (t.slot s).isEmpty)).isSome = true)
  obtain ⟨hpe, before, after, horder, hb⟩ := find_empty t _ p hp
  have hlt : p < t.size := slotAt_mem_lt _ _ (hashOf a) hs.minSize (by rw [horder]; simp)
  have hw := write_sound hs p a hlt (by simp [hpe, SetSlot.payload]) ⟨before, after, horder, hb⟩
  simp only [hpe, SetSlot.isEmpty, if_true] at hw
  refine ⟨_, by simp only [SetTable.insertClean, hp], hw, ?_, rfl, rfl, ?_⟩
  · exact live_set_entry t p a hlt (by simp [hpe, SetSlot.payload])
  · simp [SetTable.size]

theorem refill_spec (hs : Sound hashOf t) (l : List α) (hf : t.fill+l.length ≤ t.size) :
    ∃ t', l.foldlM (SetTable.insertClean hashOf) t = some t' ∧ Sound hashOf t' ∧
      t'.live.Perm (l++t.live) ∧ t'.fill = t.fill+l.length ∧ t'.used = t.used+l.length ∧
      t'.size = t.size := by
  induction l generalizing t with
  | nil => exact ⟨t, rfl, hs, List.Perm.refl _, rfl, rfl, rfl⟩
  | cons a l ih =>
    simp only [List.length_cons] at hf
    obtain ⟨t1, h1, hs1, hp1, hf1, hu1, hz1⟩ := insertClean_spec hs (by omega) a
    obtain ⟨t2, h2, hs2, hp2, hf2, hu2, hz2⟩ := ih hs1 (by omega)
    refine ⟨t2, by rw [List.foldlM_cons, h1]; exact h2, hs2, ?_, ?_, ?_, ?_⟩
    · calc t2.live.Perm (l++t1.live) := hp2
        _ |>.Perm (l++a::t.live) := hp1.append_left l
        _ |>.Perm (a::l++t.live) := List.perm_middle
    · rw [hf2, hf1, List.length_cons]
      omega
    · rw [hu2, hu1, List.length_cons]
      omega
    · rw [hz2, hz1]

theorem fresh_live (size : ℕ) :
    ({ slots := List.replicate size .empty } : SetTable α).live = [] := by
  cases size <;> simp [SetTable.live, List.replicate_succ, SetSlot.payload]

theorem fresh_sound (size k : ℕ) (hk : size = 2^k) (h8 : 8 ≤ size) :
    Sound hashOf ({ slots := List.replicate size .empty } : SetTable α) := by
  have hslot : ∀ s, ({ slots := List.replicate size .empty } : SetTable α).slot s = .empty := by
    intro s
    by_cases hs : s < size <;> simp [SetTable.slot, List.getD_eq_getElem?_getD, hs]
  constructor
  · exact ⟨k, by simp [SetTable.size, hk]⟩
  · simpa [SetTable.size] using h8
  · simp [List.countP_replicate, SetSlot.isEmpty]
  · simp [fresh_live]
  · intro s a ha
    simp [hslot] at ha

theorem tableSizeForMinused_spec (minused : ℕ) :
    ∃ k, tableSizeForMinused minused = 2^k ∧ 8 ≤ tableSizeForMinused minused ∧
      minused < tableSizeForMinused minused := by
  obtain ⟨b, hb, hle, hor⟩ := doubleUntil_spec (minused+1) minused 3 (by omega)
  have he : tableSizeForMinused minused = 2^b := hb
  refine ⟨b, he, ?_, by omega⟩
  rw [he]
  rcases hor with rfl | hlt
  · decide
  · by_contra h8
    have hb3 : b < 3 := (Nat.pow_lt_pow_iff_right (by decide)).mp (by omega : 2^b < 2^3)
    have hfirst : tableSizeForMinused minused = 8 := by
      unfold tableSizeForMinused
      have hm : minused < 8 := by omega
      cases minused with
      | zero => rfl
      | succ m => simp [doubleUntil, setProbeMinsize, hm]
    omega

/-- A rebuilt table has the live payloads and no dummies. -/
theorem resize_spec (hs : Sound hashOf t) (minused : ℕ)
    (hfit : t.used ≤ tableSizeForMinused minused) :
    ∃ t', t.resize hashOf minused = some t' ∧ Sound hashOf t' ∧ t'.live.Perm t.live ∧
      t'.used = t.used ∧
      ((t' = t ∧ t.fill = t.used ∧ tableSizeForMinused minused = 8) ∨
        (t'.fill = t.used ∧ t'.size = tableSizeForMinused minused)) := by
  obtain ⟨k, hk, h8, -⟩ := tableSizeForMinused_spec minused
  simp only [SetTable.resize]
  split
  · rename_i hsame
    refine ⟨t, rfl, hs, List.Perm.refl _, rfl, Or.inl ⟨rfl, ?_, hsame.1⟩⟩
    simpa [SetTable.hasDummies] using hsame.2.2
  · have hfresh : Sound hashOf
        ({ slots := List.replicate (tableSizeForMinused minused) .empty } : SetTable α) :=
      fresh_sound _ k hk h8
    obtain ⟨t', h1, h2, h3, h4, h5, h6⟩ := refill_spec hfresh t.live (by
      rw [← hs.usedCount]
      simpa [SetTable.size] using hfit)
    refine ⟨t', h1, h2, ?_, ?_, Or.inr ⟨?_, ?_⟩⟩
    · rwa [fresh_live, List.append_nil] at h3
    · rw [h5, hs.usedCount, Nat.zero_add]
    · rw [h4, hs.usedCount, Nat.zero_add]
    · rw [h6]
      simp [SetTable.size]

theorem minusedFor_le (used : ℕ) : used*2 ≤ minusedFor used := by
  simp only [minusedFor]
  split <;> omega

/-- An insertion is total and keeps the load below three fifths. -/
theorem insert_spec (hs : Sound hashOf t) (hl : Loaded t) (a : α) :
    ∃ t', t.insert hashOf a (hashOf a) = some t' ∧ Sound hashOf t' ∧ Loaded t' ∧
      t'.live.Perm (a::t.live) := by
  have h8 := hs.minSize
  have hload := hl
  simp only [Loaded] at hload
  obtain ⟨⟨s, fresh⟩, hslot⟩ := Option.isSome_iff_exists.mp
    (scanInsert_isSome t (probeOrder t.size (hashOf a)) none
      (hs.empty_visited (by omega) (hashOf a)))
  have hins : t.insertionSlot (hashOf a) = some (s, fresh) := hslot
  rcases scanInsert_some t _ _ s fresh hslot with ⟨before, after, horder, hb, hat⟩ | ⟨hd, -⟩
  swap
  · simp at hd
  have hlt : s < t.size := slotAt_mem_lt _ _ (hashOf a) h8 (by rw [horder]; simp)
  have hfree : (t.slot s).payload = none := by
    rw [hat]
    cases fresh <;> rfl
  have hw := write_sound hs s a hlt hfree ⟨before, after, horder, hb⟩
  have hperm := live_set_entry t s a hlt hfree
  cases fresh with
  | false =>
    have hat' : t.slot s = .dummy := hat
    simp only [hat', SetSlot.isEmpty, Bool.false_eq_true, if_false, Nat.add_zero] at hw
    refine ⟨_, by simp only [SetTable.insert, hins], hw, ?_, hperm⟩
    simpa [Loaded, SetTable.size] using hload
  | true =>
    have hat' : t.slot s = .empty := hat
    simp only [hat', SetSlot.isEmpty, if_true] at hw
    set new : SetTable α :=
      { slots := t.slots.set s (.entry a), fill := t.fill+1, used := t.used+1 } with hnew
    have hstep : t.insert hashOf a (hashOf a) =
        if new.fill*5 < (new.size-1)*3 then some new
        else new.resize hashOf (minusedFor new.used) := by
      simp only [SetTable.insert, hins, hnew]
    rw [hstep]
    by_cases hfits : new.fill*5 < (new.size-1)*3
    · exact ⟨new, if_pos hfits, hw, hfits, hperm⟩
    · have hm := minusedFor_le new.used
      obtain ⟨k, -, -, hgt⟩ := tableSizeForMinused_spec (minusedFor new.used)
      obtain ⟨t', h1, h2, h3, h4, h5⟩ := resize_spec hw (minusedFor new.used) (by omega)
      refine ⟨t', by rw [if_neg hfits, h1], h2, ?_, h3.trans hperm⟩
      have hused : 0 < new.used := by simp [hnew]
      rcases h5 with ⟨-, hfu, hsz⟩ | ⟨hf, hz⟩
      · -- a full table of eight slots holds more than its minimum size allows
        have hn8 : 8 ≤ new.size := hw.minSize
        omega
      · simp only [Loaded, hf, hz]
        omega

theorem prepareMerge_spec (hs : Sound hashOf t) (hl : Loaded t) (n : ℕ) (hn : 0 < n) :
    ∃ t', t.prepareMerge hashOf n = some t' ∧ Sound hashOf t' ∧ Loaded t' ∧
      t'.live.Perm t.live := by
  simp only [SetTable.prepareMerge]
  split
  · obtain ⟨k, -, -, hgt⟩ := tableSizeForMinused_spec ((t.used+n)*2)
    obtain ⟨t', h1, h2, h3, h4, h5⟩ := resize_spec hs ((t.used+n)*2) (by omega)
    refine ⟨t', h1, h2, ?_, h3⟩
    rcases h5 with ⟨rfl, -, -⟩ | ⟨hf, hz⟩
    · exact hl
    · simp only [Loaded, hf, hz]
      omega
  · exact ⟨t, rfl, hs, hl, List.Perm.refl _⟩

theorem finishDifferenceUpdate_spec (hs : Sound hashOf t) (hl : Loaded t) :
    ∃ t', t.finishDifferenceUpdate hashOf = some t' ∧ Sound hashOf t' ∧ Loaded t' ∧
      t'.live.Perm t.live := by
  simp only [SetTable.finishDifferenceUpdate]
  split
  · exact ⟨t, rfl, hs, hl, List.Perm.refl _⟩
  · have hm := minusedFor_le t.used
    obtain ⟨k, -, h8, hgt⟩ := tableSizeForMinused_spec (minusedFor t.used)
    obtain ⟨t', h1, h2, h3, h4, h5⟩ := resize_spec hs (minusedFor t.used) (by omega)
    refine ⟨t', h1, h2, ?_, h3⟩
    rcases h5 with ⟨rfl, -, -⟩ | ⟨hf, hz⟩
    · exact hl
    · simp only [Loaded, hf, hz]
      omega

theorem scanRemove_found (t : SetTable α) (test : α → Bool) (s : ℕ) (a : α)
    (before after : List ℕ) (ha : t.slot s = .entry a) (ht : test a = true)
    (hb : ∀ p ∈ before, t.slot p ≠ .empty)
    (huniq : ∀ p b, t.slot p = .entry b → test b = true → p = s) :
    t.scanRemove test (before++s::after) = some s := by
  induction before with
  | nil => simp [SetTable.scanRemove, ha, ht]
  | cons p rest ih =>
    have hrest := ih (fun q hq => hb q (List.mem_cons_of_mem _ hq))
    cases hp : t.slot p with
    | empty => exact absurd hp (hb p List.mem_cons_self)
    | dummy => simpa [SetTable.scanRemove, hp] using hrest
    | entry b =>
      by_cases hbt : test b = true
      · obtain rfl := huniq p b hp hbt
        simp [SetTable.scanRemove, hp, hbt]
      · simpa [SetTable.scanRemove, hp, hbt] using hrest

/-- The one payload that passes the test is found and leaves a dummy. -/
theorem remove_spec (hs : Sound hashOf t) (hl : Loaded t) (test : α → Bool) (s : ℕ) (a : α)
    (ha : t.slot s = .entry a) (ht : test a = true)
    (huniq : ∀ p b, t.slot p = .entry b → test b = true → p = s) :
    ∃ t', t.remove test (hashOf a) = some t' ∧
      t' = { t with slots := t.slots.set s .dummy, used := t.used-1 } ∧ Sound hashOf t' ∧
      Loaded t' ∧ t.live.Perm (a::t'.live) := by
  obtain ⟨before, after, horder, hb⟩ := hs.reach s a ha
  have hlt : s < t.size := slot_lt t s (by simp [ha])
  have hfound : t.scanRemove test (probeOrder t.size (hashOf a)) = some s := by
    rw [horder]
    exact scanRemove_found t test s a before after ha ht hb huniq
  have hperm := live_set_dummy t s a hlt ha
  refine ⟨_, by rw [SetTable.remove, hfound]; rfl, rfl, ?_, ?_, hperm⟩
  · set new : SetTable α := { t with slots := t.slots.set s .dummy, used := t.used-1 } with hnew
    have hsize : new.size = t.size := by simp [hnew, SetTable.size]
    have hat : ∀ p, new.slot p = if s = p then .dummy else t.slot p :=
      fun p => getD_set _ _ _ _ hlt
    constructor
    · rw [hsize]
      exact hs.sizePow
    · rw [hsize]
      exact hs.minSize
    · simp only [hnew]
      rw [count_set t s _ hlt rfl, ha, hs.fillCount]
      rfl
    · have hlen := hperm.length_eq
      have hu := hs.usedCount
      simp only [List.length_cons] at hlen
      change t.used-1 = (List.filterMap SetSlot.payload (t.slots.set s .dummy)).length
      omega
    · intro p b hpb
      rw [hat] at hpb
      split at hpb
      · simp at hpb
      · obtain ⟨before', after', he', hb'⟩ := hs.reach p b hpb
        refine ⟨before', after', by rw [hsize, he'], ?_⟩
        intro q hq
        rw [hat]
        split
        · simp
        · exact hb' q hq
  · simpa [Loaded, SetTable.size] using hl

end operations

end Pyrust.SetProbeInvariant
