import Mathlib.Data.List.Forall2
import Mathlib.Data.List.InsertIdx
import Mathlib.Data.List.Nodup

/-!
# Orders of tagged placeholders

A list of placeholders stands for a list of keys, one placeholder to a key,
and every placeholder has an identity of its own below a bound. Taking back
an insertion or a removal of the keys keeps such an order.
-/

set_option autoImplicit false

namespace Pyrust.ReplayOrder

universe u v
variable {ρ : Type u} {K : Type v} {S : ρ → K → Prop} {idOf : ρ → ℕ}

structure Ordered (S : ρ → K → Prop) (idOf : ρ → ℕ) (state : List ρ) (keys : List K)
    (next : ℕ) : Prop where
  stands : List.Forall₂ S state keys
  nodup : (state.map idOf).Nodup
  below : ∀ r ∈ state, idOf r < next

theorem undo_insert (state : List ρ) (keys : List K) (key : K) (next : ℕ)
    (h : Ordered S idOf state (keys++[key]) next) :
    ∃ front r, state = front++[r] ∧ S r key ∧ Ordered S idOf front keys next := by
  have hs := h.stands
  rw [← List.forall₂_reverse_iff, List.reverse_append, List.reverse_singleton,
    List.singleton_append, List.forall₂_cons_right_iff] at hs
  obtain ⟨r, rest, hr, hrest, hrev⟩ := hs
  have hstate : state = rest.reverse++[r] := by
    rw [← List.reverse_reverse state, hrev, List.reverse_cons]
  have hn := h.nodup
  have hb := h.below
  rw [hstate] at hn hb
  refine ⟨rest.reverse, r, hstate, hr, ?_, ?_, ?_⟩
  · rw [← List.forall₂_reverse_iff, List.reverse_reverse]
    exact hrest
  · rw [List.map_append] at hn
    exact hn.of_append_left
  · intro x hx
    exact hb x (by simp [hx])

theorem fresh_nodup (state : List ρ) (keys : List K) (next : ℕ)
    (h : Ordered S idOf state keys next) : next ∉ state.map idOf := by
  intro hm
  obtain ⟨r, hr, he⟩ := List.mem_map.mp hm
  have := h.below r hr
  omega

theorem forall₂_insertIdx (state : List ρ) (keys : List K) (p : ℕ) (key : K)
    (r : ρ) (hk : keys[p]? = some key) (hr : S r key)
    (h : List.Forall₂ S state (keys.eraseIdx p)) :
    List.Forall₂ S (state.insertIdx p r) keys ∧ p ≤ state.length := by
  induction p generalizing state keys with
  | zero =>
    cases keys with
    | nil => simp at hk
    | cons k keys =>
      simp only [List.getElem?_cons_zero, Option.some.injEq] at hk
      subst hk
      simpa using ⟨hr, h⟩
  | succ p ih =>
    cases keys with
    | nil => simp at hk
    | cons k keys =>
      rw [List.eraseIdx_cons_succ, List.forall₂_cons_right_iff] at h
      obtain ⟨r', rest, hr', hrest, rfl⟩ := h
      obtain ⟨h1, h2⟩ := ih rest keys (by simpa using hk) hrest
      simpa using ⟨⟨hr', h1⟩, h2⟩

theorem undo_remove (state : List ρ) (keys : List K) (p : ℕ) (key : K)
    (next : ℕ) (r : ρ) (hk : keys[p]? = some key) (hr : S r key)
    (hid : idOf r = next) (h : Ordered S idOf state (keys.eraseIdx p) next) :
    Ordered S idOf (state.insertIdx p r) keys (next+1) ∧ p ≤ state.length := by
  obtain ⟨h1, hp⟩ := forall₂_insertIdx state keys p key r hk hr h.stands
  refine ⟨⟨h1, ?_, ?_⟩, hp⟩
  · rw [List.map_insertIdx, (List.perm_insertIdx _ _ (by simpa using hp)).nodup_iff,
      List.nodup_cons, hid]
    exact ⟨fresh_nodup _ _ _ h, h.nodup⟩
  · intro x hx
    rcases (List.mem_insertIdx hp).mp hx with rfl | hx
    · omega
    · have := h.below x hx
      omega

theorem undo_pop (state : List ρ) (keys : List K) (key : K) (next : ℕ)
    (r : ρ) (hk : keys.getLast? = some key) (hr : S r key)
    (hid : idOf r = next) (h : Ordered S idOf state keys.dropLast next) :
    Ordered S idOf (state++[r]) keys (next+1) := by
  have hkeys : keys = keys.dropLast++[key] := by
    rw [List.dropLast_append_getLast?]
    exact hk
  constructor
  · rw [hkeys]
    exact List.rel_append h.stands (List.Forall₂.cons hr List.Forall₂.nil)
  · rw [List.map_append, List.map_singleton, hid, ← List.concat_eq_append, List.nodup_concat]
    exact ⟨fresh_nodup _ _ _ h, h.nodup⟩
  · intro x hx
    rcases List.mem_append.mp hx with hx | hx
    · have := h.below x hx
      omega
    · rw [List.mem_singleton.mp hx]
      omega

theorem position_unique {state : List ρ} {keys : List K} {next : ℕ}
    (ho : Ordered S idOf state keys next) (p j : ℕ) (r q : ρ)
    (hr : state[p]? = some r) (hq : state[j]? = some q) (he : idOf q = idOf r) :
    j = p := by
  obtain ⟨hj, hjq⟩ := List.getElem?_eq_some_iff.mp hq
  have hn := ho.nodup
  rw [List.nodup_iff_injective_getElem] at hn
  obtain ⟨hp, hpr⟩ := List.getElem?_eq_some_iff.mp hr
  have := @hn ⟨j, by simpa using hj⟩ ⟨p, by simpa using hp⟩ (by simp [hjq, hpr, he])
  exact congrArg Fin.val this

end Pyrust.ReplayOrder
