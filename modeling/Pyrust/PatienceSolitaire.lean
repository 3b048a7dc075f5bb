import Mathlib.Data.List.Sublists
import Mathlib.Order.Lattice

/-!
# Patience solitaire

Cards are dealt onto piles, each onto the first pile whose top is not below it, and
every card remembers the top of the pile before. There are as many piles as the
longest increasing subsequence of the cards is long, and the cards remembered
from the last top make up such a subsequence.
-/

set_option autoImplicit false

namespace Pyrust.PatienceSolitaire

open List

section game
variable {ι β : Type*} [LinearOrder β]

/-- A card as it was dealt, and the record of the top of the pile before. -/
structure Placement (ι β : Type*) where
  key : ι
  value : β
  prev : Option ℕ
  deriving DecidableEq, Repr

/-- The tops of the piles, all placements, and the placement on top of each pile. -/
structure Table (ι β : Type*) where
  piles : List β
  records : List (Placement ι β)
  pileRecord : List ℕ
  deriving DecidableEq, Repr

/-- The number of leading tops below a card. -/
def partitionPoint (piles : List β) (value : β) : ℕ := (piles.takeWhile (· < value)).length

/-- The list with an entry replaced, or with one more. -/
def put {γ : Type*} (xs : List γ) (t : ℕ) (x : γ) : List γ :=
  if t = xs.length then xs ++ [x] else xs.set t x

def place (s : Table ι β) (card : ι × β) : Table ι β :=
  let t := partitionPoint s.piles card.2
  let prev := if t = 0 then none else s.pileRecord[t-1]?
  { piles := put s.piles t card.2
    records := s.records ++ [⟨card.1, card.2, prev⟩]
    pileRecord := put s.pileRecord t s.records.length }

/-- The cards from a placement back, each the one the later remembers. -/
def follow (records : List (Placement ι β)) : ℕ → Option ℕ → List (ι × β)
  | fuel+1, some idx =>
    match records[idx]? with
    | some r => (r.key, r.value)::follow records fuel r.prev
    | none => []
  | _, _ => []

/-- The cards remembered from the top of the last pile. -/
def Table.longest (s : Table ι β) : List (ι × β) :=
  follow s.records s.records.length s.pileRecord.getLast?

/-- Cards whose values rise. -/
def Rising (cards : List (ι × β)) : Prop := cards.Pairwise fun a b => a.2 < b.2

end game

/-! ## Piles -/

section piles
variable {γ β : Type*} [LinearOrder β] {piles : List β} {value : β} {xs : List γ} {x : γ} {t j : ℕ}

theorem put_length (ht : t ≤ xs.length) : (put xs t x).length = max xs.length (t+1) := by
  rw [put]
  split
  · rw [List.length_append, List.length_singleton]
    omega
  · rw [List.length_set]
    omega

theorem put_getElem? (ht : t ≤ xs.length) : (put xs t x)[j]? = if j = t then some x else xs[j]? := by
  rw [put]
  by_cases hlast : t = xs.length
  · rw [if_pos hlast, hlast]
    by_cases hj : j = xs.length
    · simp [hj]
    · rw [if_neg hj]
      rcases Nat.lt_or_ge j xs.length with hlt | hge
      · rw [List.getElem?_append_left hlt]
      · rw [List.getElem?_append_right hge, List.getElem?_eq_none (by simp; omega),
          List.getElem?_eq_none hge]
  · rw [if_neg hlast, List.getElem?_set]
    by_cases hj : j = t
    · rw [if_pos hj.symm, if_pos hj, if_pos (by omega)]
    · rw [if_neg (Ne.symm hj), if_neg hj]

theorem partitionPoint_le : partitionPoint piles value ≤ piles.length :=
  (List.takeWhile_prefix _).length_le

theorem lt_partitionPoint (hsorted : piles.Pairwise (· < ·)) {u : β} (hu : piles[j]? = some u) :
    j < partitionPoint piles value ↔ u < value := by
  induction piles generalizing j with
  | nil => simp at hu
  | cons p piles ih =>
    obtain ⟨hfirst, hrest⟩ := List.pairwise_cons.mp hsorted
    rw [partitionPoint, List.takeWhile_cons]
    cases j with
    | zero =>
      obtain rfl : p = u := by simpa using hu
      by_cases hp : p < value <;> simp [hp]
    | succ j =>
      rw [List.getElem?_cons_succ] at hu
      by_cases hp : p < value
      · simp only [hp, decide_true, if_true, List.length_cons, Nat.add_lt_add_iff_right]
        exact ih hrest hu
      · have hlt := hfirst u (List.mem_of_getElem? hu)
        have hnot : ¬u < value := fun h => hp (hlt.trans h)
        simp [hp, hnot]

end piles

/-! ## What the piles stand for -/

section follows
variable {ι β : Type*} {records : List (Placement ι β)} {cards : List (ι × β)} {card : ι × β}

/-- The cards met on the way back from a placement. -/
inductive Follows (records : List (Placement ι β)) : Option ℕ → List (ι × β) → Prop
  | nil : Follows records none []
  | cons {idx : ℕ} {r : Placement ι β} {back : List (ι × β)} (hr : records[idx]? = some r)
      (h : Follows records r.prev back) : Follows records (some idx) ((r.key, r.value)::back)

theorem Follows.append {cur : Option ℕ} {back : List (ι × β)} (h : Follows records cur back)
    (more : List (Placement ι β)) : Follows (records ++ more) cur back := by
  induction h with
  | nil => exact .nil
  | cons hr h ih =>
    refine .cons ?_ ih
    rw [List.getElem?_append_left (List.getElem?_eq_some_iff.mp hr).1]
    exact hr

theorem Follows.follow {cur : Option ℕ} {back : List (ι × β)} (h : Follows records cur back)
    {fuel : ℕ} (hfuel : back.length ≤ fuel) :
    PatienceSolitaire.follow records fuel cur = back := by
  induction h generalizing fuel with
  | nil => cases fuel <;> rfl
  | cons hr h ih =>
    obtain ⟨fuel, rfl⟩ : ∃ k, fuel = k+1 := ⟨fuel-1, by rw [List.length_cons] at hfuel; omega⟩
    rw [PatienceSolitaire.follow, hr]
    simp only [ih (Nat.le_of_succ_le_succ hfuel)]

/-- A subsequence of the cards and one more is one of the cards, or ends in the new one. -/
theorem sublist_snoc {zs : List (ι × β)} (h : zs <+ cards ++ [card]) :
    zs <+ cards ∨ ∃ front, zs = front ++ [card] ∧ front <+ cards := by
  obtain ⟨front, last, rfl, hfront, hlast⟩ := List.sublist_append_iff.mp h
  rcases List.sublist_singleton.mp hlast with rfl | rfl
  · rw [List.append_nil]
    exact .inl hfront
  · exact .inr ⟨front, rfl, hfront⟩

end follows

section deal
variable {ι β : Type*} [LinearOrder β] {cards : List (ι × β)} {s : Table ι β} {card : ι × β}

/-- The cards `back`, from the last to the first, are a rising subsequence with a last value. -/
structure Run (cards : List (ι × β)) (value : β) (back : List (ι × β)) : Prop where
  sub : back.reverse <+ cards
  rising : Rising back.reverse
  last : ∃ card, back.head? = some card ∧ card.2 = value

/-- What holds of the table when some cards have been dealt. -/
structure Dealt (cards : List (ι × β)) (s : Table ι β) : Prop where
  tops : s.pileRecord.length = s.piles.length
  count : s.records.length = cards.length
  sorted : s.piles.Pairwise (· < ·)
  run : ∀ t idx value, s.pileRecord[t]? = some idx → s.piles[t]? = some value →
    ∃ back, back.length = t+1 ∧ Follows s.records (some idx) back ∧ Run cards value back
  best : ∀ value back, Run cards value back →
    ∃ u, s.piles[back.length-1]? = some u ∧ u ≤ value

theorem dealt_nil : Dealt ([] : List (ι × β)) ⟨[], [], []⟩ where
  tops := rfl
  count := rfl
  sorted := .nil
  run _ _ _ h := by cases h
  best value back h := by
    obtain ⟨card, hcard, -⟩ := h.last
    have hnil := List.sublist_nil.mp h.sub
    rw [List.reverse_eq_nil_iff] at hnil
    cases hnil ▸ hcard

theorem Run.mono {value : β} {back : List (ι × β)} (h : Run cards value back) (card : ι × β) :
    Run (cards ++ [card]) value back :=
  ⟨h.sub.trans (List.sublist_append_left _ _), h.rising, h.last⟩

theorem Run.ne_nil {value : β} {back : List (ι × β)} (h : Run cards value back) : back ≠ [] := by
  obtain ⟨card, hcard, -⟩ := h.last
  rintro rfl
  cases hcard

/-- The last card is the highest. -/
theorem Run.le_last {value : β} {back : List (ι × β)} (h : Run cards value back) {top : ι × β}
    (htop : back.head? = some top) {a : ι × β} (ha : a ∈ back) : a.2 ≤ top.2 := by
  obtain ⟨rest, rfl⟩ := List.head?_eq_some_iff.mp htop
  rcases List.mem_cons.mp ha with rfl | hrest
  · exact le_rfl
  · have hrising := h.rising
    rw [List.reverse_cons, Rising, List.pairwise_append] at hrising
    exact (hrising.2.2 a (List.mem_reverse.mpr hrest) top (List.mem_singleton_self _)).le

/-- The subsequence that ends in the card just dealt. -/
theorem Dealt.run_placed (h : Dealt cards s) (card : ι × β) :
    ∃ back, back.length = partitionPoint s.piles card.2 + 1 ∧
      Follows (place s card).records (some s.records.length) back ∧
      Run (cards ++ [card]) card.2 back := by
  have hrecord : (place s card).records[s.records.length]? = some ⟨card.1, card.2,
      if partitionPoint s.piles card.2 = 0 then none
      else s.pileRecord[partitionPoint s.piles card.2-1]?⟩ := by
    simp [place]
  cases ht : partitionPoint s.piles card.2 with
  | zero =>
    rw [ht, if_pos rfl] at hrecord
    refine ⟨[card], rfl, .cons hrecord .nil, ?_, List.pairwise_singleton _ _, card, rfl, rfl⟩
    exact List.sublist_append_right cards [card]
  | succ t =>
    have hlt : t < s.piles.length := by
      have := @partitionPoint_le _ _ s.piles card.2
      omega
    have hpile : s.piles[t]? = some s.piles[t] := List.getElem?_eq_getElem hlt
    obtain ⟨idx, hidx⟩ : ∃ idx, s.pileRecord[t]? = some idx :=
      ⟨_, List.getElem?_eq_getElem (h.tops ▸ hlt)⟩
    have hbelow := (@lt_partitionPoint _ _ _ card.2 _ h.sorted _ hpile).mp (by omega)
    obtain ⟨back, hlen, hfollows, hrun⟩ := h.run t _ _ hidx hpile
    rw [ht, if_neg (Nat.succ_ne_zero t), Nat.add_sub_cancel, hidx] at hrecord
    refine ⟨card::back, by simp [hlen], .cons hrecord (hfollows.append _), ?_, ?_, card, rfl, rfl⟩
    · rw [List.reverse_cons]
      exact hrun.sub.append (List.Sublist.refl _)
    · rw [List.reverse_cons, Rising, List.pairwise_append]
      refine ⟨hrun.rising, List.pairwise_singleton _ _, fun a ha b hb => ?_⟩
      obtain rfl := List.mem_singleton.mp hb
      obtain ⟨top, htop, hvalue⟩ := hrun.last
      exact (hrun.le_last htop (List.mem_reverse.mp ha)).trans_lt (hvalue ▸ hbelow)

theorem place_piles (j : ℕ) : (place s card).piles[j]? =
    if j = partitionPoint s.piles card.2 then some card.2 else s.piles[j]? :=
  put_getElem? partitionPoint_le

theorem Dealt.place_pileRecord (h : Dealt cards s) (j : ℕ) : (place s card).pileRecord[j]? =
    if j = partitionPoint s.piles card.2 then some s.records.length else s.pileRecord[j]? :=
  put_getElem? (h.tops ▸ partitionPoint_le)

/-- The tops stay sorted, since the card lies between its neighbours. -/
theorem Dealt.sorted_place (h : Dealt cards s) (card : ι × β) :
    (place s card).piles.Pairwise (· < ·) := by
  rw [List.pairwise_iff_getElem]
  intro i j hi hj hij
  have hx := List.getElem?_eq_getElem hi
  have hy := List.getElem?_eq_getElem hj
  rw [place_piles] at hx hy
  by_cases hit : i = partitionPoint s.piles card.2
  · rw [if_pos hit, Option.some.injEq] at hx
    rw [if_neg (by omega)] at hy
    obtain ⟨hjlt, hjget⟩ := List.getElem?_eq_some_iff.mp hy
    have hget := List.getElem?_eq_getElem (hij.trans hjlt)
    have hnot := mt (@lt_partitionPoint _ _ _ card.2 _ h.sorted _ hget).mpr (by omega)
    rw [← hx, ← hjget]
    exact (not_lt.mp hnot).trans_lt (List.pairwise_iff_getElem.mp h.sorted i j _ hjlt hij)
  · rw [if_neg hit] at hx
    obtain ⟨hilt, higet⟩ := List.getElem?_eq_some_iff.mp hx
    by_cases hjt : j = partitionPoint s.piles card.2
    · rw [if_pos hjt, Option.some.injEq] at hy
      rw [← hy]
      exact (lt_partitionPoint h.sorted hx).mp (hjt ▸ hij)
    · rw [if_neg hjt] at hy
      obtain ⟨hjlt, hjget⟩ := List.getElem?_eq_some_iff.mp hy
      rw [← higet, ← hjget]
      exact List.pairwise_iff_getElem.mp h.sorted i j hilt hjlt hij

/-- A top is never raised. -/
theorem Dealt.place_le (h : Dealt cards s) {j : ℕ} {u : β} (hu : s.piles[j]? = some u) :
    ∃ u', (place s card).piles[j]? = some u' ∧ u' ≤ u := by
  rw [place_piles]
  by_cases hj : j = partitionPoint s.piles card.2
  · rw [if_pos hj]
    refine ⟨card.2, rfl, not_lt.mp fun hlt => ?_⟩
    have := (lt_partitionPoint h.sorted hu).mpr hlt
    omega
  · rw [if_neg hj]
    exact ⟨u, hu, le_rfl⟩

/-- A subsequence that ends in the card just dealt finds a top at most as high as the card. -/
theorem Dealt.best_placed (h : Dealt cards s) {back : List (ι × β)}
    (hsub : back.reverse <+ cards) (hrising : Rising (back.reverse ++ [card])) :
    ∃ u, (place s card).piles[back.length]? = some u ∧ u ≤ card.2 := by
  rw [place_piles]
  have hle : back.length ≤ partitionPoint s.piles card.2 := by
    rcases back with - | ⟨top, rest⟩
    · exact Nat.zero_le _
    · rw [Rising, List.pairwise_append] at hrising
      obtain ⟨u, hu, hule⟩ := h.best top.2 (top::rest) ⟨hsub, hrising.1, top, rfl, rfl⟩
      have hlt := hrising.2.2 top (by simp) card (List.mem_singleton_self _)
      have := (lt_partitionPoint h.sorted hu).mpr (hule.trans_lt hlt)
      rw [List.length_cons] at this ⊢
      omega
  rcases Nat.lt_or_eq_of_le hle with hlt | heq
  · rw [if_neg hlt.ne]
    have hget := List.getElem?_eq_getElem (hlt.trans_le (@partitionPoint_le _ _ s.piles _))
    exact ⟨_, hget, ((lt_partitionPoint h.sorted hget).mp hlt).le⟩
  · rw [if_pos heq]
    exact ⟨_, rfl, le_rfl⟩

theorem Dealt.place (h : Dealt cards s) (card : ι × β) :
    Dealt (cards ++ [card]) (place s card) where
  tops := by
    have hle := @partitionPoint_le _ _ s.piles card.2
    show (put _ _ _).length = (put _ _ _).length
    rw [put_length hle, put_length (h.tops ▸ hle), h.tops]
  count := by simp [PatienceSolitaire.place, h.count]
  sorted := h.sorted_place card
  run t idx value hidx hvalue := by
    rw [place_piles] at hvalue
    rw [h.place_pileRecord] at hidx
    by_cases ht : t = partitionPoint s.piles card.2
    · rw [if_pos ht, Option.some.injEq] at hidx hvalue
      rw [ht, ← hidx, ← hvalue]
      exact h.run_placed card
    · rw [if_neg ht] at hidx hvalue
      obtain ⟨back, hlen, hfollows, hrun⟩ := h.run t idx value hidx hvalue
      exact ⟨back, hlen, hfollows.append _, hrun.mono card⟩
  best value back hrun := by
    obtain ⟨top, htop, hvalue⟩ := hrun.last
    rcases sublist_snoc hrun.sub with hold | ⟨front, hfront, hsub⟩
    · obtain ⟨u, hu, hule⟩ := h.best value back ⟨hold, hrun.rising, hrun.last⟩
      obtain ⟨u', hu', hle⟩ := @Dealt.place_le _ _ _ _ _ card h _ _ hu
      exact ⟨u', hu', hle.trans hule⟩
    · obtain ⟨rest, rfl⟩ : ∃ rest, back = card::rest := ⟨front.reverse, by
        rw [← List.reverse_reverse back, hfront, List.reverse_append]
        rfl⟩
      obtain rfl : card = top := by simpa using htop
      rw [List.reverse_cons, List.append_left_inj] at hfront
      have hrising := hrun.rising
      rw [List.reverse_cons] at hrising
      rw [← hvalue]
      exact h.best_placed (hfront ▸ hsub) hrising

theorem dealt_foldl (cards : List (ι × β)) : Dealt cards (cards.foldl place ⟨[], [], []⟩) := by
  induction cards using List.reverseRecOn with
  | nil => exact dealt_nil
  | append_singleton cards card ih =>
    rw [List.foldl_append]
    exact ih.place card

/-! ## The cards remembered from the last top -/

/-- The cards found are a rising subsequence, read from its end. -/
theorem Dealt.longest_rising (h : Dealt cards s) :
    s.longest.reverse <+ cards ∧ Rising s.longest.reverse ∧
      s.longest.length = s.piles.length := by
  rw [Table.longest]
  cases hlast : s.pileRecord.getLast? with
  | none =>
    have hnil := List.getLast?_eq_none_iff.mp hlast
    have hzero := h.tops
    rw [hnil] at hzero
    cases hlen : s.records.length <;> simp [follow, Rising, ← hzero]
  | some idx =>
    have hpos : 0 < s.piles.length := by
      rw [← h.tops]
      exact List.length_pos_of_mem (List.mem_of_getLast? hlast)
    rw [List.getLast?_eq_getElem?, h.tops] at hlast
    obtain ⟨back, hlen, hfollows, hrun⟩ := h.run _ _ _ hlast
      (List.getElem?_eq_getElem (Nat.sub_lt hpos Nat.one_pos))
    have hle : back.length ≤ s.records.length := by
      rw [h.count, ← @List.length_reverse _ back]
      exact hrun.sub.length_le
    rw [hfollows.follow hle]
    exact ⟨hrun.sub, hrun.rising, by omega⟩

/-- No rising subsequence is longer. -/
theorem Dealt.length_le_longest (h : Dealt cards s) {zs : List (ι × β)} (hsub : zs <+ cards)
    (hrising : Rising zs) : zs.length ≤ s.longest.length := by
  rw [h.longest_rising.2.2]
  rcases List.eq_nil_or_concat zs with rfl | ⟨front, card, rfl⟩
  · exact Nat.zero_le _
  · have hrun : Run cards card.2 (front.concat card).reverse :=
      ⟨by rwa [List.reverse_reverse], by rwa [List.reverse_reverse], card, by simp, rfl⟩
    obtain ⟨u, hu, -⟩ := h.best _ _ hrun
    have := (List.getElem?_eq_some_iff.mp hu).1
    rw [List.length_reverse, List.length_concat] at this
    rw [List.length_concat]
    omega

end deal

end Pyrust.PatienceSolitaire
