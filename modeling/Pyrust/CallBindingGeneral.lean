import Pyrust.CallBindingRule

/-!
# The general binder and where it leaves the rule

The general binder walks the argument list once and lets a positional argument
pass over slots that are already bound. A keyword written before a positional
therefore pushes it to a later slot, where the rule sees two values for one
parameter. The loop is described by one invariant: each positional met so far
stands in the slot, among those no keyword of the whole call names, that has
its own rank.
-/

set_option autoImplicit false

namespace Pyrust.CallBinding

variable {V : Type}

open UserFunction

section Slots

/-- The slot a keyword can bind. -/
def keywordSlot (f : UserFunction V) (name : String) : Option ℕ :=
  (f.paramIndex name).filter (fun i => !f.holds Param.isPositionalOnly i)

def slotOf (f : UserFunction V) (a : CallArg V) : Option ℕ := a.name.bind (keywordSlot f)

def keywordSlots (f : UserFunction V) (args : List (CallArg V)) : List ℕ :=
  args.filterMap (slotOf f)

/-- How many slots below `i` no keyword of the call names. -/
def freeBelow (slots : List ℕ) (i : ℕ) : ℕ := Nat.count (fun j => j ∉ slots) i

/-- At a keyword for slot `s` no more positionals have been met than there are
free slots below `s`: none of them has taken the slot. -/
def KeywordsFirst (f : UserFunction V) (slots : List ℕ) : ℕ → List (CallArg V) → Prop
  | _, [] => True
  | met, a::args =>
      (∀ s, slotOf f a = some s → s < arity f → met ≤ freeBelow slots s) ∧
        KeywordsFirst f slots (met+(positionals [a]).length) args

end Slots

section Counting

variable (slots : List ℕ)

theorem freeBelow_succ {i : ℕ} (h : i ∉ slots) : freeBelow slots (i+1) = freeBelow slots i+1 := by
  rw [freeBelow, Nat.count_succ, if_pos h]
  rfl

theorem freeBelow_mono {i j : ℕ} (h : i ≤ j) : freeBelow slots i ≤ freeBelow slots j :=
  Nat.count_monotone _ h

theorem freeBelow_lt {i j : ℕ} (h : i ∉ slots) (hij : i < j) :
    freeBelow slots i < freeBelow slots j := by
  have := freeBelow_mono slots (Nat.succ_le_of_lt hij)
  rw [Nat.succ_eq_add_one, freeBelow_succ slots h] at this
  omega

theorem exists_free {k n : ℕ} (h : k < freeBelow slots n) :
    ∃ i < n, i ∉ slots ∧ freeBelow slots i = k := by
  induction n with
  | zero => simp [freeBelow] at h
  | succ n ih =>
    by_cases hn : n ∈ slots
    · have heq : freeBelow slots (n+1) = freeBelow slots n := by
        rw [freeBelow, Nat.count_succ, if_neg (by simpa using hn)]
        rfl
      obtain ⟨i, hi, hfree, hk⟩ := ih (heq ▸ h)
      exact ⟨i, by omega, hfree, hk⟩
    · rw [freeBelow_succ slots hn] at h
      by_cases hk : freeBelow slots n = k
      · exact ⟨n, by omega, hn, hk⟩
      · obtain ⟨i, hi, hfree, hk⟩ := ih (by omega)
        exact ⟨i, by omega, hfree, hk⟩

end Counting

section Lists

variable (f : UserFunction V)

theorem getElem?_concat_ne (xs : List V) (v : V) {k : ℕ} (h : k ≠ xs.length) :
    (xs ++ [v])[k]? = xs[k]? := by
  by_cases hk : k < xs.length
  · rw [List.getElem?_append_left hk]
  · rw [List.getElem?_eq_none (by simp; omega), List.getElem?_eq_none (by omega)]

theorem positionals_append (xs ys : List (CallArg V)) :
    positionals (xs ++ ys) = positionals xs ++ positionals ys := List.filterMap_append

theorem positionals_positional {a : CallArg V} (h : a.name = none) : positionals [a] = [a.value] := by
  simp [positionals, h]

theorem positionals_keyword {a : CallArg V} {n : String} (h : a.name = some n) :
    positionals [a] = [] := by
  simp [positionals, h]

theorem slotOf_some {a : CallArg V} {s : ℕ} (h : slotOf f a = some s) :
    ∃ n p, a.name = some n ∧ f.params[s]? = some p ∧ p.name = n ∧ p.isPositionalOnly = false := by
  rw [slotOf, Option.bind_eq_some_iff] at h
  obtain ⟨n, hn, hs⟩ := h
  rw [keywordSlot, Option.filter_eq_some_iff] at hs
  obtain ⟨p, hp, hpn⟩ := (paramIndex_some f).mp hs.1
  refine ⟨n, p, hn, hp, hpn, ?_⟩
  simpa [holds_some f hp] using hs.2

theorem slotOf_positional {a : CallArg V} (h : a.name = none) : slotOf f a = none := by
  simp [slotOf, h]

/-- The argument, if any, whose keyword binds slot `i`. -/
def keywordAt (args : List (CallArg V)) (i : ℕ) : Option V :=
  (args.find? (fun a => slotOf f a == some i)).map CallArg.value

theorem keywordAt_append (xs ys : List (CallArg V)) (i : ℕ) :
    keywordAt f (xs ++ ys) i = (keywordAt f xs i).or (keywordAt f ys i) := by
  simp [keywordAt, List.find?_append, Option.map_or]

theorem keywordAt_isSome (args : List (CallArg V)) (i : ℕ) :
    (keywordAt f args i).isSome = true ↔ i ∈ keywordSlots f args := by
  simp [keywordAt, keywordSlots]

theorem keywordAt_single {a : CallArg V} {s : ℕ} (h : slotOf f a = some s) (i : ℕ) :
    keywordAt f [a] i = if i = s then some a.value else none := by
  by_cases hi : i = s
  · simp [keywordAt, h, hi]
  · have hne : (some s == some i) = false := by simpa using fun e => hi e.symm
    simp [keywordAt, h, hne, hi]

theorem keywordAt_none {a : CallArg V} (h : slotOf f a = none) (i : ℕ) :
    keywordAt f [a] i = none := by
  simp [keywordAt, h]

end Lists

section Skip

variable (f : UserFunction V)

attribute [local simp] skipBound in
theorem skipBound_spec (frame : Frame V) (fuel i : ℕ) (h : f.nparams ≤ i+fuel) :
    i ≤ skipBound f frame fuel i ∧
    (∀ j, i ≤ j → j < skipBound f frame fuel i →
      (frame j).isSome = true ∨ f.holds Param.isKeywordOnly j = true) ∧
    (skipBound f frame fuel i < f.nparams → frame (skipBound f frame fuel i) = none ∧
      f.holds Param.isKeywordOnly (skipBound f frame fuel i) = false) := by
  induction fuel generalizing i with
  | zero =>
    simp only [skipBound]
    exact ⟨le_refl _, fun j h1 h2 => by omega, fun hlt => by omega⟩
  | succ fuel ih =>
    rw [skipBound]
    by_cases hc : i < f.nparams ∧ ((frame i).isSome = true ∨ f.holds Param.isKeywordOnly i = true)
    · rw [if_pos hc]
      obtain ⟨hle, hpass, hstop⟩ := ih (i+1) (by omega)
      refine ⟨by omega, ?_, hstop⟩
      intro j hj hjt
      by_cases hij : j = i
      · rw [hij]
        exact hc.2
      · exact hpass j (by omega) hjt
    · rw [if_neg hc]
      refine ⟨le_refl _, fun j h1 h2 => by omega, ?_⟩
      intro hlt
      have hn : ¬ ((frame i).isSome = true ∨ f.holds Param.isKeywordOnly i = true) :=
        fun h => hc ⟨hlt, h⟩
      rw [not_or, Bool.not_eq_true, Bool.not_eq_true, Option.isSome_eq_false_iff,
        Option.isNone_iff_eq_none] at hn
      exact hn

variable {f}

theorem plain_of (ha : f.hasArgs = false) (hw : f.hasKwargs = false) {i : ℕ} {p : Param V}
    (hp : f.params[i]? = some p) : p.isArgs = false ∧ p.isKwargs = false :=
  ⟨by simpa using List.any_eq_false.mp ha p (List.mem_of_getElem? hp),
    by simpa using List.any_eq_false.mp hw p (List.mem_of_getElem? hp)⟩

theorem keywordOnly_iff (ha : f.hasArgs = false) (hw : f.hasKwargs = false) {i : ℕ}
    (hi : i < f.nparams) : f.holds Param.isKeywordOnly i = true ↔ arity f ≤ i := by
  have hp : f.params[i]? = some f.params[i] := List.getElem?_eq_getElem hi
  have hpos := positional_iff f hp
  have hplain := plain_of ha hw hp
  simp only [Param.isPositional, hplain, Bool.not_false, Bool.true_and, Bool.not_eq_true'] at hpos
  rw [holds_some f hp]
  by_cases hk : f.params[i].isKeywordOnly = true
  · simp only [hk, Bool.true_eq_false, false_iff] at hpos
    simp only [hk, true_iff]
    omega
  · simp only [hk, true_iff] at hpos
    simp only [hk, Bool.false_eq_true, false_iff]
    omega

end Skip

section Loop

variable {f : UserFunction V} {tooMany : BindError}

attribute [local simp] bindArgs in
theorem bindArgs_cons (a : CallArg V) (args : List (CallArg V)) (b : Binding V) :
    bindArgs f tooMany (a::args) b =
      match bindArg f tooMany b a with
      | .ok b' => bindArgs f tooMany args b'
      | .error e => .error e := by
  rw [bindArgs]
  cases bindArg f tooMany b a <;> rfl

/-- What one argument can do: nothing to the frame, or one unset slot filled. -/
theorem bindArg_cases {a : CallArg V} {b b' : Binding V} (h : bindArg f tooMany b a = .ok b') :
    b'.frame = b.frame ∨
      ∃ s, b.frame s = none ∧ b'.frame = Function.update b.frame s (some (.value a.value)) := by
  rw [bindArg] at h
  cases hn : a.name with
  | some name =>
    simp only [hn, bindKeyword] at h
    cases hpi : f.paramIndex name with
    | none =>
      simp only [hpi, Except.ok.injEq] at h
      exact .inl (h ▸ rfl)
    | some pi =>
      simp only [hpi] at h
      by_cases hpo : f.holds Param.isPositionalOnly pi = true
      · simp only [hpo, if_true, Except.ok.injEq] at h
        exact .inl (h ▸ rfl)
      by_cases hb : (b.frame pi).isSome = true
      · simp [hpo, hb] at h
      simp only [hpo, hb, Bool.false_eq_true, if_false, Except.ok.injEq] at h
      exact .inr ⟨pi, by simpa using hb, h ▸ rfl⟩
  | none =>
    simp only [hn, bindPositional] at h
    by_cases hc : f.nparams ≤ skipBound f b.frame f.nparams b.positionalIndex ∨
        f.holds Param.isKeywordOnly (skipBound f b.frame f.nparams b.positionalIndex) = true
    · simp [hc] at h
    · rw [if_neg hc, Except.ok.injEq] at h
      have hstop := (skipBound_spec f b.frame f.nparams b.positionalIndex (by omega)).2.2
      exact .inr ⟨_, (hstop (by omega)).1, h ▸ rfl⟩

theorem bindArg_bound {a : CallArg V} {b b' : Binding V} (h : bindArg f tooMany b a = .ok b')
    {s : ℕ} (hs : (b.frame s).isSome = true) : (b'.frame s).isSome = true := by
  rcases bindArg_cases h with heq | ⟨t, -, heq⟩
  · rwa [heq]
  · rw [heq]
    by_cases hst : s = t
    · simp [hst]
    · rwa [Function.update_of_ne hst]

theorem bindArg_keyword {a : CallArg V} {s : ℕ} (ha : slotOf f a = some s) (b : Binding V) :
    ∃ n, bindArg f tooMany b a =
      if (b.frame s).isSome then .error (.multipleValues n) else .ok (bindParam b s a.value) := by
  obtain ⟨n, p, hn, hp, hpn, hpo⟩ := slotOf_some f ha
  have hpi : f.paramIndex n = some s := (paramIndex_some f).mpr ⟨p, hp, hpn⟩
  refine ⟨n, ?_⟩
  simp only [bindArg, hn, bindKeyword, hpi, holds_some f hp, hpo, Bool.false_eq_true, if_false]

/-- A keyword for a slot that is already bound is reached sooner or later. -/
theorem bindArgs_late (args : List (CallArg V)) (b : Binding V) {s : ℕ}
    (hs : (b.frame s).isSome = true) (hm : s ∈ keywordSlots f args) :
    ∃ e, bindArgs f tooMany args b = .error e := by
  induction args generalizing b with
  | nil => simp [keywordSlots] at hm
  | cons a args ih =>
    rw [bindArgs_cons]
    by_cases ha : slotOf f a = some s
    · obtain ⟨n, hstep⟩ := @bindArg_keyword V f tooMany a s ha b
      rw [hstep, if_pos hs]
      exact ⟨_, rfl⟩
    · have hrest : s ∈ keywordSlots f args := by
        simp only [keywordSlots, List.filterMap_cons] at hm ⊢
        cases hsa : slotOf f a with
        | none => simpa [hsa] using hm
        | some t =>
          simp only [hsa, List.mem_cons] at hm
          rcases hm with rfl | hm
          · exact absurd hsa ha
          · exact hm
      cases hstep : bindArg f tooMany b a with
      | error e => exact ⟨e, rfl⟩
      | ok b' => exact ih b' (bindArg_bound hstep hs) hrest

/-- Where the walk puts the arguments when it meets no error: a keyword in the
slot it names, the positional of rank `k` in the free slot of rank `k`. -/
def shifted (f : UserFunction V) (slots : List ℕ) (pos : List V) (args : List (CallArg V))
    (i : ℕ) : Option V :=
  (keywordAt f args i).or (if i < arity f ∧ i ∉ slots then pos[freeBelow slots i]? else none)

structure Walked (f : UserFunction V) (slots : List ℕ) (boundArgs : List V)
    (before : List (CallArg V)) (b : Binding V) : Prop where
  frame : ∀ i, b.frame i =
    (shifted f slots (boundArgs ++ positionals before) before i).map .value
  below : ∀ i < b.positionalIndex, (b.frame i).isSome = true
  index_le : b.positionalIndex ≤ arity f
  filled : ∀ i < arity f, i ∉ slots →
    freeBelow slots i < boundArgs.length+(positionals before).length → i < b.positionalIndex
  named : ∀ s ∈ keywordSlots f before, s ∈ slots
  clean : (b.posonlyViolations = [] ∧ b.firstUnknownKeyword = none) ↔
    ∀ a ∈ before, a.name.isSome = true → (slotOf f a).isSome = true

namespace Walked

variable {slots : List ℕ} {boundArgs : List V} {before : List (CallArg V)} {b : Binding V}

theorem free_bound (h : Walked f slots boundArgs before b) {i : ℕ} (hi : i < arity f)
    (hfree : i ∉ slots) : (b.frame i).isSome = true ↔
      freeBelow slots i < boundArgs.length+(positionals before).length := by
  have hno : keywordAt f before i = none := by
    rw [← Option.not_isSome_iff_eq_none, keywordAt_isSome]
    exact fun hm => hfree (h.named i hm)
  rw [h.frame, shifted, hno, if_pos ⟨hi, hfree⟩]
  simp

theorem named_bound (h : Walked f slots boundArgs before b) {i : ℕ} (hs : i ∈ slots) :
    (b.frame i).isSome = true ↔ i ∈ keywordSlots f before := by
  rw [h.frame, shifted, if_neg (by simp [hs]), Option.isSome_map, Option.or_none,
    keywordAt_isSome]

/-- When everything below a slot is bound, the free slots below it are the
ones the positionals met so far have filled. -/
theorem rank_le (h : Walked f slots boundArgs before b) {t : ℕ} (ht : t ≤ arity f)
    (hall : ∀ i < t, (b.frame i).isSome = true) :
    freeBelow slots t ≤ boundArgs.length+(positionals before).length := by
  by_contra hlt
  obtain ⟨i, hi, hfree, hrank⟩ := exists_free slots (Nat.lt_of_not_le hlt)
  have := (h.free_bound (by omega) hfree).mp (hall i hi)
  omega

theorem keyword (h : Walked f slots boundArgs before b) {a : CallArg V} {s : ℕ}
    (ha : slotOf f a = some s) (hs : s ∈ slots) (hfree : b.frame s = none) :
    Walked f slots boundArgs (before ++ [a]) (bindParam b s a.value) := by
  obtain ⟨n, p, hn, -⟩ := slotOf_some f ha
  have hpos : positionals (before ++ [a]) = positionals before := by
    rw [positionals_append, positionals_keyword hn, List.append_nil]
  have hnot : keywordAt f before s = none := by
    rw [← Option.not_isSome_iff_eq_none, keywordAt_isSome, ← h.named_bound hs, hfree]
    simp
  refine ⟨?_, ?_, h.index_le, by rw [hpos]; exact h.filled, ?_, ?_⟩
  · intro i
    show Function.update b.frame s (some (.value a.value)) i = _
    rw [hpos, shifted, keywordAt_append, keywordAt_single f ha]
    by_cases hi : i = s
    · subst hi
      simp [hnot]
    · rw [if_neg hi, Option.or_none, Function.update_of_ne hi, h.frame, shifted]
  · intro i hi
    by_cases his : i = s
    · simp [bindParam, his]
    · simpa [bindParam, Function.update_of_ne his] using h.below i hi
  · intro t ht
    simp only [keywordSlots, List.filterMap_append, List.mem_append] at ht
    rcases ht with ht | ht
    · exact h.named t ht
    · simp only [List.filterMap_cons, ha, List.filterMap_nil, List.mem_singleton] at ht
      exact ht ▸ hs
  · rw [show (bindParam b s a.value).posonlyViolations = b.posonlyViolations from rfl,
      show (bindParam b s a.value).firstUnknownKeyword = b.firstUnknownKeyword from rfl, h.clean]
    simp only [List.mem_append, List.mem_singleton]
    constructor
    · rintro hall x (hx | rfl) hname
      · exact hall x hx hname
      · simp [ha]
    · exact fun hall x hx => hall x (.inl hx)

/-- A keyword no parameter takes is only recorded. -/
theorem refused (h : Walked f slots boundArgs before b) {a : CallArg V} {n : String}
    (hn : a.name = some n) (ha : slotOf f a = none) {b' : Binding V} (hframe : b'.frame = b.frame)
    (hindex : b'.positionalIndex = b.positionalIndex)
    (hdirty : ¬ (b'.posonlyViolations = [] ∧ b'.firstUnknownKeyword = none)) :
    Walked f slots boundArgs (before ++ [a]) b' := by
  have hpos : positionals (before ++ [a]) = positionals before := by
    rw [positionals_append, positionals_keyword hn, List.append_nil]
  refine ⟨?_, by rw [hframe, hindex]; exact h.below, hindex ▸ h.index_le,
    by rw [hpos, hindex]; exact h.filled, ?_, ?_⟩
  · intro i
    rw [hpos, shifted, keywordAt_append, keywordAt_none f ha, Option.or_none, hframe, h.frame,
      shifted]
  · intro t ht
    simp only [keywordSlots, List.filterMap_append, List.mem_append] at ht
    rcases ht with ht | ht
    · exact h.named t ht
    · simp [ha] at ht
  · apply iff_of_false hdirty
    intro hall
    have := hall a (by simp) (by simp [hn])
    simp [ha] at this

theorem positional (h : Walked f slots boundArgs before b) {a : CallArg V} {t : ℕ}
    (hn : a.name = none) (ht : t < arity f) (hfree : t ∉ slots) (hnone : b.frame t = none)
    (hall : ∀ i < t, (b.frame i).isSome = true) :
    Walked f slots boundArgs (before ++ [a])
      { bindParam b t a.value with positionalIndex := t+1 } := by
  have ha := slotOf_positional f hn
  have hpos : positionals (before ++ [a]) = positionals before ++ [a.value] := by
    rw [positionals_append, positionals_positional hn]
  have hrank : freeBelow slots t = boundArgs.length+(positionals before).length := by
    apply le_antisymm (h.rank_le ht.le hall)
    by_contra hlt
    have := (h.free_bound ht hfree).mpr (by omega)
    simp [hnone] at this
  refine ⟨?_, ?_, ht, ?_, ?_, ?_⟩
  · intro i
    show Function.update b.frame t (some (.value a.value)) i = _
    rw [hpos, shifted, keywordAt_append, keywordAt_none f ha, Option.or_none]
    by_cases hi : i = t
    · subst hi
      have hno : keywordAt f before i = none := by
        rw [← Option.not_isSome_iff_eq_none, keywordAt_isSome]
        exact fun hm => hfree (h.named i hm)
      rw [hno, if_pos ⟨ht, hfree⟩, hrank, ← List.append_assoc]
      simp
    · rw [Function.update_of_ne hi, h.frame, shifted]
      by_cases hc : i < arity f ∧ i ∉ slots
      · rw [if_pos hc, if_pos hc, ← List.append_assoc]
        have hne : freeBelow slots i ≠ (boundArgs ++ positionals before).length := by
          rw [List.length_append, ← hrank]
          rcases Nat.lt_or_gt_of_ne hi with hlt | hlt
          · exact (freeBelow_lt slots hc.2 hlt).ne
          · exact (freeBelow_lt slots hfree hlt).ne'
        rw [getElem?_concat_ne _ _ hne]
      · rw [if_neg hc, if_neg hc]
  · intro i hi
    by_cases hit : i = t
    · simp [bindParam, hit]
    · have := hall i (by simp only at hi; omega)
      simpa [bindParam, Function.update_of_ne hit] using this
  · intro i hi hf hlt
    rw [hpos, List.length_append, List.length_singleton, ← Nat.add_assoc, ← hrank] at hlt
    simp only
    by_contra hge
    have := freeBelow_lt slots hfree (show t < i by omega)
    omega
  · intro s hs
    simp only [keywordSlots, List.filterMap_append, List.mem_append] at hs
    rcases hs with hs | hs
    · exact h.named s hs
    · simp [ha] at hs
  · refine Iff.trans h.clean ?_
    simp only [List.mem_append, List.mem_singleton]
    constructor
    · rintro hall x (hx | rfl) hname
      · exact hall x hx hname
      · simp [hn] at hname
    · exact fun hall x hx => hall x (.inl hx)

end Walked

attribute [local simp] KeywordsFirst in
theorem keywordsFirst_mem {slots : List ℕ} {met : ℕ} {args : List (CallArg V)}
    (h : KeywordsFirst f slots met args) {s : ℕ} (hs : s ∈ keywordSlots f args)
    (hlt : s < arity f) : met ≤ freeBelow slots s := by
  induction args generalizing met with
  | nil => simp [keywordSlots] at hs
  | cons a args ih =>
    by_cases ha : slotOf f a = some s
    · exact h.1 s ha hlt
    · refine le_trans (Nat.le_add_right _ _) (ih h.2 ?_)
      simp only [keywordSlots, List.filterMap_cons] at hs ⊢
      cases hsa : slotOf f a with
      | none => simpa [hsa] using hs
      | some t =>
        simp only [hsa, List.mem_cons] at hs
        rcases hs with rfl | hs
        · exact absurd hsa ha
        · exact hs

/-- The calls the walk gets through. -/
def Fits (f : UserFunction V) (slots : List ℕ) (met : ℕ) (args : List (CallArg V)) : Prop :=
  KeywordsFirst f slots met args ∧ met+(positionals args).length ≤ freeBelow slots (arity f)

theorem walk_positional (ha : f.hasArgs = false) (hw : f.hasKwargs = false) {slots : List ℕ}
    {boundArgs : List V} {before : List (CallArg V)} {b : Binding V}
    (h : Walked f slots boundArgs before b) {a : CallArg V} (hn : a.name = none) :
    (∃ t < arity f, b.frame t = none ∧ (∀ i < t, (b.frame i).isSome = true) ∧
      bindArg f tooMany b a = .ok { bindParam b t a.value with positionalIndex := t+1 }) ∨
    ((∀ i < arity f, (b.frame i).isSome = true) ∧
      bindArg f tooMany b a = .error tooMany) := by
  obtain ⟨hle, hpass, hstop⟩ := skipBound_spec f b.frame f.nparams b.positionalIndex (by omega)
  have hindex := h.index_le
  have harity := arity_le f
  set t := skipBound f b.frame f.nparams b.positionalIndex with ht
  have hbound : ∀ i < t, i < arity f → (b.frame i).isSome = true := by
    intro i hi hia
    by_cases hib : i < b.positionalIndex
    · exact h.below i hib
    · rcases hpass i (by omega) hi with hsome | hko
      · exact hsome
      · rw [keywordOnly_iff ha hw (by omega)] at hko
        omega
  have hstep : bindArg f tooMany b a =
      if f.nparams ≤ t ∨ f.holds Param.isKeywordOnly t then .error tooMany
      else .ok { bindParam b t a.value with positionalIndex := t+1 } := by
    rw [bindArg, hn, bindPositional]
  by_cases hc : t < arity f
  · left
    have hst := hstop (by omega)
    refine ⟨t, hc, hst.1, fun i hi => hbound i hi (by omega), ?_⟩
    rw [hstep, if_neg]
    rw [hst.2]
    simp
    omega
  · right
    refine ⟨fun i hi => hbound i (by omega) hi, ?_⟩
    rw [hstep, if_pos]
    by_cases hlt : t < f.nparams
    · exact .inr ((keywordOnly_iff ha hw hlt).mpr (by omega))
    · exact .inl (by omega)

theorem slots_cons (a : CallArg V) (args : List (CallArg V)) {s : ℕ}
    (hs : s ∈ keywordSlots f (a::args)) (ha : slotOf f a = none) : s ∈ keywordSlots f args := by
  simpa [keywordSlots, ha] using hs

theorem fits_cons {slots : List ℕ} {met : ℕ} {a : CallArg V} {args : List (CallArg V)} :
    Fits f slots met (a::args) ↔
      (∀ s, slotOf f a = some s → s < arity f → met ≤ freeBelow slots s) ∧
        Fits f slots (met+(positionals [a]).length) args := by
  have hsplit : positionals (a::args) = positionals [a] ++ positionals args :=
    positionals_append [a] args
  rw [Fits, Fits, KeywordsFirst, hsplit, List.length_append, and_assoc, Nat.add_assoc]

theorem bindArg_refused {a : CallArg V} {n : String} (hn : a.name = some n)
    (ha : slotOf f a = none) (b : Binding V) :
    ∃ b', bindArg f tooMany b a = .ok b' ∧ b'.frame = b.frame ∧
      b'.positionalIndex = b.positionalIndex ∧
      ¬ (b'.posonlyViolations = [] ∧ b'.firstUnknownKeyword = none) := by
  simp only [bindArg, hn, bindKeyword]
  simp only [slotOf, hn, Option.bind_some, keywordSlot] at ha
  cases hpi : f.paramIndex n with
  | none =>
    refine ⟨_, rfl, rfl, rfl, ?_⟩
    rintro ⟨-, hnone⟩
    cases hu : b.firstUnknownKeyword <;> simp [hu] at hnone
  | some pi =>
    rw [hpi, Option.filter_some] at ha
    have hpo : f.holds Param.isPositionalOnly pi = true := by
      by_contra hne
      simp [hne] at ha
    simp only [hpo, if_true]
    refine ⟨_, rfl, rfl, rfl, ?_⟩
    simp

/-- A slot a later keyword names is still free, and every positional met so
far stands below it. -/
theorem Walked.met_le {slots : List ℕ} {boundArgs : List V} {before : List (CallArg V)}
    {b : Binding V} (h : Walked f slots boundArgs before b)
    (hroom : boundArgs.length+(positionals before).length ≤ freeBelow slots (arity f)) {s : ℕ}
    (hs : s ∈ slots) (hnone : b.frame s = none) :
    boundArgs.length+(positionals before).length ≤ freeBelow slots s := by
  by_contra hlt
  obtain ⟨i, hi, hfree, hrank⟩ := exists_free slots
    (show boundArgs.length+(positionals before).length-1 < freeBelow slots (arity f) by omega)
  have hindex := h.filled i hi hfree (by omega)
  have hsi : s < i := by
    by_contra hge
    have hne : i ≠ s := fun e => hfree (e ▸ hs)
    have := freeBelow_lt slots hfree (show i < s by omega)
    omega
  have := h.below s (by omega)
  simp [hnone] at this

/-- The walk over the remaining arguments, from a state the invariant
describes: it gets through exactly when the arguments fit. -/
theorem walk (ha : f.hasArgs = false) (hw : f.hasKwargs = false) {args : List (CallArg V)}
    (hnd : (keywordSlots f args).Nodup) {boundArgs : List V} (before after : List (CallArg V))
    (hsplit : args = before ++ after) (b : Binding V)
    (h : Walked f (keywordSlots f args) boundArgs before b)
    (hroom : boundArgs.length+(positionals before).length ≤
      freeBelow (keywordSlots f args) (arity f)) :
    match bindArgs f tooMany after b with
    | .ok b' => Walked f (keywordSlots f args) boundArgs args b' ∧
        Fits f (keywordSlots f args) (boundArgs.length+(positionals before).length) after
    | .error _ =>
        ¬ Fits f (keywordSlots f args) (boundArgs.length+(positionals before).length) after := by
  induction after generalizing before b with
  | nil =>
    simp only [bindArgs]
    rw [List.append_nil] at hsplit
    exact ⟨hsplit ▸ h, trivial, by simpa [positionals] using hroom⟩
  | cons a after ih =>
    have hslots : keywordSlots f args = keywordSlots f before ++ keywordSlots f (a::after) := by
      rw [hsplit, keywordSlots, List.filterMap_append]
      rfl
    have hmet : boundArgs.length+(positionals (before ++ [a])).length =
        boundArgs.length+(positionals before).length+(positionals [a]).length := by
      rw [positionals_append, List.length_append, Nat.add_assoc]
    -- one argument taken over into the part already walked
    have hnext : ∀ b', bindArg f tooMany b a = .ok b' →
        Walked f (keywordSlots f args) boundArgs (before ++ [a]) b' →
        boundArgs.length+(positionals (before ++ [a])).length ≤
          freeBelow (keywordSlots f args) (arity f) →
        (∀ s, slotOf f a = some s → s < arity f →
          boundArgs.length+(positionals before).length ≤ freeBelow (keywordSlots f args) s) →
        match bindArgs f tooMany (a::after) b with
        | .ok b' => Walked f (keywordSlots f args) boundArgs args b' ∧
            Fits f (keywordSlots f args) (boundArgs.length+(positionals before).length) (a::after)
        | .error _ => ¬ Fits f (keywordSlots f args)
            (boundArgs.length+(positionals before).length) (a::after) := by
      intro b' hstep hwalk hfit hhead
      have hrec := ih (before ++ [a]) (by simp [hsplit]) b' hwalk hfit
      rw [bindArgs_cons, hstep, fits_cons, ← hmet]
      simp only
      cases hrun : bindArgs f tooMany after b' with
      | ok b'' =>
        rw [hrun] at hrec
        exact ⟨hrec.1, hhead, hrec.2⟩
      | error e =>
        rw [hrun] at hrec
        exact fun hc => hrec hc.2
    cases hn : a.name with
    | none =>
      have hsa := slotOf_positional f hn
      have hone : (positionals [a]).length = 1 := by rw [positionals_positional hn]; rfl
      rcases @walk_positional V f tooMany ha hw _ _ _ _ h a hn with
        ⟨t, ht, hnone, hall, hstep⟩ | ⟨hall, hstep⟩
      · by_cases hts : t ∈ keywordSlots f args
        · have hlate : t ∈ keywordSlots f after := by
            rw [hslots, List.mem_append] at hts
            rcases hts with hts' | hts'
            · rw [← h.named_bound (hslots ▸ List.mem_append_left _ hts'), hnone] at hts'
              simp at hts'
            · exact slots_cons a after hts' hsa
          obtain ⟨e, he⟩ := @bindArgs_late V f tooMany after
            { bindParam b t a.value with positionalIndex := t+1 } t (by simp [bindParam]) hlate
          rw [bindArgs_cons, hstep, fits_cons]
          simp only [he]
          rintro ⟨-, hfirst, -⟩
          have hge := keywordsFirst_mem hfirst hlate ht
          have hle := h.rank_le ht.le hall
          omega
        · have hrank : ¬ freeBelow (keywordSlots f args) t <
              boundArgs.length+(positionals before).length := by
            rw [← h.free_bound ht hts, hnone]
            simp
          have hlt := freeBelow_lt _ hts ht
          exact hnext _ hstep (h.positional hn ht hts hnone hall) (by omega)
            (fun s hs => by simp [hsa] at hs)
      · rw [bindArgs_cons, hstep, fits_cons]
        rintro ⟨-, -, hfit⟩
        have hle := h.rank_le (le_refl _) hall
        omega
    | some n =>
      have hzero : (positionals [a]).length = 0 := by rw [positionals_keyword hn]; rfl
      cases hs : slotOf f a with
      | none =>
        obtain ⟨b', hstep, hframe, hindex, hdirty⟩ := @bindArg_refused V f tooMany a n hn hs b
        exact hnext b' hstep (h.refused hn hs hframe hindex hdirty) (by omega)
          (fun s hs' => by simp [hs] at hs')
      | some s =>
        have hhead : keywordSlots f (a::after) = s::keywordSlots f after := by
          simp [keywordSlots, hs]
        rw [hhead] at hslots
        have hmem : s ∈ keywordSlots f args := by rw [hslots]; simp
        have hnone : b.frame s = none := by
          rw [← Option.not_isSome_iff_eq_none, h.named_bound hmem]
          intro hbefore
          rw [hslots, List.nodup_append] at hnd
          exact hnd.2.2 s hbefore s List.mem_cons_self rfl
        obtain ⟨m, hstep⟩ := @bindArg_keyword V f tooMany a s hs b
        rw [if_neg (by simp [hnone])] at hstep
        refine hnext _ hstep (h.keyword hs hmem hnone) (by omega) ?_
        intro s' hs' _
        obtain rfl : s = s' := Option.some_injective _ (hs.symm.trans hs')
        exact h.met_le hroom hmem hnone

end Loop

section General

variable {f : UserFunction V} {args : List (CallArg V)} {boundArgs : List V}

/-- The calls the general binder accepts. -/
structure Placed (f : UserFunction V) (args : List (CallArg V)) (boundArgs : List V) : Prop where
  known : ∀ a ∈ args, a.name.isSome = true → (slotOf f a).isSome = true
  fits : Fits f (keywordSlots f args) boundArgs.length args
  defaults : ∀ i < f.nparams,
    shifted f (keywordSlots f args) (boundArgs ++ positionals args) args i = none →
    (f.defaultFor i).isSome = true

end General

section Agreement

variable {f : UserFunction V} {args : List (CallArg V)} {boundArgs : List V}

end Agreement

section Binders

end Binders

end Pyrust.CallBinding
