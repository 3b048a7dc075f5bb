import Pyrust.ExactComparison

/-!
# Ordering of values

Numbers are ordered by the number, lists and tuples by the first elements that differ and
then by their lengths. The pairs that are being compared are kept on a stack against
containers that hold themselves; where none does, no pair comes twice.
-/

set_option autoImplicit false

namespace Pyrust.SequenceOrder

open Binary64 ExactComparison
open Keys (boolAsI64)
open KeyNumbers (boolAsI64_toInt)

/-! ## Values -/

/-- A container has the identity of its object. -/
inductive Value where
  | int (v : Int64)
  | bool (b : Bool)
  | bigInt (n : ℤ)
  | float (f : UInt64)
  | str (s : List UInt8)
  | bytes (b : List UInt8)
  | none
  | list (id : Int64) (items : List Value)
  | tuple (id : Int64) (items : List Value)

structure PyError where
  className : String
  message : String
  deriving DecidableEq, Repr

def errorTypeName : Value → String
  | .int _ | .bigInt _ => "int"
  | .bool _ => "bool"
  | .float _ => "float"
  | .str _ => "str"
  | .bytes _ => "bytes"
  | .none => "NoneType"
  | .list _ _ => "list"
  | .tuple _ _ => "tuple"

def recursionError : PyError :=
  ⟨"RecursionError", "maximum recursion depth exceeded in comparison"⟩

def unorderable (opName : String) (a b : Value) : PyError :=
  ⟨"TypeError", "'" ++ opName ++ "' not supported between instances of '" ++ errorTypeName a ++
    "' and '" ++ errorTypeName b ++ "'"⟩

section comparison
variable (eq : Value → Value → Bool) (opName : String)

mutual

/-- The ordering of two values below the pairs that are being compared. `eq` is their `==`. -/
def compareInner : Value → Value → List (Int64 × Int64) → Except PyError Ordering
  | .int x, .int y, _ => .ok (cmp x.toInt y.toInt)
  | .float x, .float y, _ => .ok ((partialCmp x y).getD .eq)
  | .int x, .float y, _ => .ok ((intFloatCmp x y).getD .eq)
  | .float x, .int y, _ => .ok (((intFloatCmp y x).map Ordering.swap).getD .eq)
  | .bool x, .bool y, _ => .ok (cmp x y)
  | .bool x, .int y, _ => .ok (cmp (boolAsI64 x).toInt y.toInt)
  | .int x, .bool y, _ => .ok (cmp x.toInt (boolAsI64 y).toInt)
  | .bool x, .float y, _ => .ok ((intFloatCmp (boolAsI64 x) y).getD .eq)
  | .float x, .bool y, _ => .ok (((intFloatCmp (boolAsI64 y) x).map Ordering.swap).getD .eq)
  | .bool x, .bigInt y, _ => .ok (cmp (boolAsI64 x).toInt y)
  | .bigInt x, .bool y, _ => .ok (cmp x (boolAsI64 y).toInt)
  | .bigInt x, .bigInt y, _ => .ok (cmp x y)
  | .bigInt x, .int y, _ => .ok (cmp x y.toInt)
  | .int x, .bigInt y, _ => .ok (cmp x.toInt y)
  | .bigInt x, .float y, _ => .ok ((bigintFloatCmp x y).getD .eq)
  | .float x, .bigInt y, _ => .ok (((bigintFloatCmp y x).map Ordering.swap).getD .eq)
  | .str x, .str y, _ => .ok (compare x y)
  | .bytes x, .bytes y, _ => .ok (compare x y)
  | .list i xs, .list j ys, active =>
    if i = j then .ok .eq
    else if (i, j) ∈ active then .error recursionError
    else do
      let found ← compareItems xs ys ((i, j)::active)
      pure (found.getD (cmp xs.length ys.length))
  | .tuple i xs, .tuple j ys, active =>
    if i = j then .ok .eq
    else if (i, j) ∈ active then .error recursionError
    else do
      let found ← compareItems xs ys ((i, j)::active)
      pure (found.getD (cmp xs.length ys.length))
  | a, b, _ => .error (unorderable opName a b)

/-- The ordering of the first elements that differ; `none` when there are none. -/
def compareItems : List Value → List Value → List (Int64 × Int64) →
    Except PyError (Option Ordering)
  | x::xs, y::ys, active =>
    match compareInner x y active with
    | .ok .eq => compareItems xs ys active
    | .ok o => .ok (some o)
    | .error e =>
      if e.className = "RecursionError" then .error e
      else if eq x y then compareItems xs ys active
      else .error e
  | _, _, _ => .ok none

end

def compareValuesWithOp (a b : Value) : Except PyError Ordering := compareInner eq opName a b []

end comparison

/-! ## Numbers -/

/-- The number that is stood for; none for a NaN and for everything else. -/
def Value.number : Value → Option Extended
  | .int v => some (intValue v.toInt)
  | .bool b => some (intValue (if b then 1 else 0))
  | .bigInt n => some (intValue n)
  | .float f => floatValue f
  | _ => Option.none

section numbers
variable {eq : Value → Value → Bool} {opName : String} {a b : Value} {p q : Extended}

/-- Whatever the representations, the numbers are compared. -/
theorem compareInner_number (ha : a.number = some p) (hb : b.number = some q)
    (active : List (Int64 × Int64)) : compareInner eq opName a b active = .ok (cmp p q) := by
  cases a <;> simp only [Value.number, Option.some.injEq, reduceCtorEq] at ha <;>
    cases b <;> simp only [Value.number, Option.some.injEq, reduceCtorEq] at hb <;>
    simp only [compareInner, boolAsI64_toInt]
  case int.int x y => rw [← ha, ← hb, cmp_intValue]
  case int.bool x y => rw [← ha, ← hb, cmp_intValue]
  case int.bigInt x y => rw [← ha, ← hb, cmp_intValue]
  case int.float x f => rw [← ha, intFloatCmp_spec hb, Option.getD_some]
  case bool.int x y => rw [← ha, ← hb, cmp_intValue]
  case bool.bool x y => rw [← ha, ← hb, cmp_intValue]; cases x <;> cases y <;> rfl
  case bool.bigInt x y => rw [← ha, ← hb, cmp_intValue]
  case bool.float x f => rw [← ha, intFloatCmp_spec hb, Option.getD_some, boolAsI64_toInt]
  case bigInt.int x y => rw [← ha, ← hb, cmp_intValue]
  case bigInt.bool x y => rw [← ha, ← hb, cmp_intValue]
  case bigInt.bigInt x y => rw [← ha, ← hb, cmp_intValue]
  case bigInt.float x f => rw [← ha, bigintFloatCmp_spec hb, Option.getD_some]
  case float.int f y =>
    rw [← hb, intFloatCmp_spec ha, Option.map_some, Option.getD_some, cmp_swap]
  case float.bool f y =>
    rw [← hb, intFloatCmp_spec ha, Option.map_some, Option.getD_some, cmp_swap, boolAsI64_toInt]
  case float.bigInt f y =>
    rw [← hb, bigintFloatCmp_spec ha, Option.map_some, Option.getD_some, cmp_swap]
  case float.float f g => rw [partialCmp_spec ha hb, Option.getD_some]

end numbers

/-! ## Sequences -/

/-- Two lists or two tuples with their identities and items. -/
inductive Pair : Value → Value → Int64 × Int64 → List Value → List Value → Prop
  | list (i j : Int64) (xs ys : List Value) : Pair (.list i xs) (.list j ys) (i, j) xs ys
  | tuple (i j : Int64) (xs ys : List Value) : Pair (.tuple i xs) (.tuple j ys) (i, j) xs ys

/-- Numbers by the number, sequences by their first items that differ, then by the length. -/
inductive Ordered : Value → Value → Ordering → Prop
  | number {a b : Value} {p q : Extended} (ha : a.number = some p) (hb : b.number = some q) :
      Ordered a b (cmp p q)
  | differ {a b x y : Value} {ids : Int64 × Int64} {xs ys : List Value} {k : ℕ} {o : Ordering}
      (hpair : Pair a b ids xs ys)
      (heq : ∀ m < k, ∀ u v : Value, xs[m]? = some u → ys[m]? = some v → Ordered u v .eq)
      (hx : xs[k]? = some x) (hy : ys[k]? = some y) (h : Ordered x y o) (ho : o ≠ .eq) :
      Ordered a b o
  | length {a b : Value} {ids : Int64 × Int64} {xs ys : List Value} (hpair : Pair a b ids xs ys)
      (heq : ∀ (m : ℕ) (u v : Value), xs[m]? = some u → ys[m]? = some v → Ordered u v .eq) :
      Ordered a b (cmp xs.length ys.length)

/-- The same kinds wherever two values are compared: both are numbers, or both are lists or both
tuples and so are their items up to the first that differ. -/
inductive Alike : Value → Value → Prop
  | number {a b : Value} {p q : Extended} (ha : a.number = some p) (hb : b.number = some q) :
      Alike a b
  | items {a b : Value} {ids : Int64 × Int64} {xs ys : List Value} (hpair : Pair a b ids xs ys)
      (h : ∀ (k : ℕ) (x y : Value), xs[k]? = some x → ys[k]? = some y →
        (∀ m < k, ∀ u v : Value, xs[m]? = some u → ys[m]? = some v → Ordered u v .eq) → Alike x y) :
      Alike a b

/-- Parts of a value, itself included. -/
inductive Within : Value → Value → Prop
  | self (v : Value) : Within v v
  | list {v x : Value} {i : Int64} {xs : List Value} (hx : x ∈ xs) (h : Within v x) :
      Within v (.list i xs)
  | tuple {v x : Value} {i : Int64} {xs : List Value} (hx : x ∈ xs) (h : Within v x) :
      Within v (.tuple i xs)

def Value.id : Value → Option Int64
  | .list i _ | .tuple i _ => some i
  | _ => Option.none

/-- An identity is that of one object among the parts of the two values. -/
def OneObject (a b : Value) : Prop :=
  ∀ u v i, Within u a ∨ Within u b → Within v a ∨ Within v b → u.id = some i → v.id = some i →
    u = v

section sequences
variable {a b : Value} {ids : Int64 × Int64} {xs ys : List Value}

theorem Within.sizeOf_le {u v : Value} (h : Within u v) : sizeOf u ≤ sizeOf v := by
  induction h with
  | self => exact Nat.le_refl _
  | @list x i xs hx h ih =>
    have := List.sizeOf_lt_of_mem hx
    rw [Value.list.sizeOf_spec]
    omega
  | @tuple x i xs hx h ih =>
    have := List.sizeOf_lt_of_mem hx
    rw [Value.tuple.sizeOf_spec]
    omega

theorem Pair.number_none {p : Extended} (h : Pair a b ids xs ys) :
    a.number ≠ some p ∧ b.number ≠ some p := by
  cases h <;> exact ⟨nofun, nofun⟩

theorem Pair.unique {ids' : Int64 × Int64} {xs' ys' : List Value} (h : Pair a b ids xs ys)
    (h' : Pair a b ids' xs' ys') : xs = xs' ∧ ys = ys' := by
  cases h <;> cases h' <;> exact ⟨rfl, rfl⟩

/-- There is one ordering of two values. -/
theorem Ordered.unique {o o' : Ordering} (h : Ordered a b o) (h' : Ordered a b o') : o = o' := by
  induction h generalizing o' with
  | number ha hb =>
    cases h' with
    | number ha' hb' =>
      rw [Option.some.inj (ha.symm.trans ha'), Option.some.inj (hb.symm.trans hb')]
    | differ hpair => exact absurd ha hpair.number_none.1
    | length hpair => exact absurd ha hpair.number_none.1
  | @differ a b x y ids xs ys k o hpair heq hx hy h ho iheq ih =>
    cases h' with
    | number ha => exact absurd ha hpair.number_none.1
    | @differ _ _ x' y' ids' xs' ys' k' _ hpair' heq' hx' hy' h' ho' =>
      obtain ⟨rfl, rfl⟩ := hpair.unique hpair'
      rcases Nat.lt_trichotomy k k' with hlt | rfl | hgt
      · exact absurd (ih (heq' k hlt x y hx hy)) ho
      · obtain rfl := Option.some.inj (hx.symm.trans hx')
        obtain rfl := Option.some.inj (hy.symm.trans hy')
        exact ih h'
      · exact absurd (iheq k' hgt x' y' hx' hy' h').symm ho'
    | length hpair' heq' =>
      obtain ⟨rfl, rfl⟩ := hpair.unique hpair'
      exact absurd (ih (heq' k x y hx hy)) ho
  | @length a b ids xs ys hpair heq iheq =>
    cases h' with
    | number ha => exact absurd ha hpair.number_none.1
    | @differ _ _ x' y' ids' xs' ys' k' _ hpair' heq' hx' hy' h' ho' =>
      obtain ⟨rfl, rfl⟩ := hpair.unique hpair'
      exact absurd (iheq k' x' y' hx' hy' h').symm ho'
    | length hpair' heq' =>
      obtain ⟨rfl, rfl⟩ := hpair.unique hpair'
      rfl

theorem Alike.ordered_refl (h : Alike a b) (heq : a = b) : Ordered a b .eq := by
  induction h with
  | @number a b p q ha hb =>
    subst heq
    have hpq : p = q := Option.some.inj (ha.symm.trans hb)
    subst hpq
    rw [← cmp_self_eq_eq p]
    exact .number ha hb
  | @items a b ids xs ys hpair h ih =>
    have hxs : xs = ys := by
      subst heq
      cases hpair <;> rfl
    have hall (m : ℕ) (u v : Value) (hu : xs[m]? = some u) (hv : ys[m]? = some v) :
        Ordered u v .eq := by
      induction m using Nat.strongRecOn generalizing u v with
      | ind m ihm =>
        refine ih m u v hu hv (fun k hk x y hx hy => ihm k hk x y hx hy) ?_
        rw [hxs] at hu
        exact Option.some.inj (hu.symm.trans hv)
    have hlen := Ordered.length hpair hall
    rwa [hxs, cmp_self_eq_eq] at hlen

end sequences

/-! ## The loop -/

section loop
variable {eq : Value → Value → Bool} {opName : String} {active : List (Int64 × Int64)}

/-- Where the items are compared, the loop finds the first that differ. -/
theorem compareItems_spec {xs ys : List Value}
    (h : ∀ (k : ℕ) (x y : Value), xs[k]? = some x → ys[k]? = some y →
      (∀ m < k, ∀ u v : Value, xs[m]? = some u → ys[m]? = some v → Ordered u v .eq) →
      ∃ o, compareInner eq opName x y active = .ok o ∧ Ordered x y o) :
    ∃ found, compareItems eq opName xs ys active = .ok found ∧
      (found = none → ∀ (m : ℕ) (u v : Value), xs[m]? = some u → ys[m]? = some v →
        Ordered u v .eq) ∧
      ∀ o, found = some o → ∃ (k : ℕ) (x y : Value),
        (∀ m < k, ∀ u v : Value, xs[m]? = some u → ys[m]? = some v → Ordered u v .eq) ∧
        xs[k]? = some x ∧ ys[k]? = some y ∧ Ordered x y o ∧ o ≠ .eq := by
  induction xs generalizing ys with
  | nil => exact ⟨none, by simp only [compareItems], fun _ m u v hu => by simp at hu, nofun⟩
  | cons x xs ih =>
    cases ys with
    | nil => exact ⟨none, by simp only [compareItems], fun _ m u v _ hv => by simp at hv, nofun⟩
    | cons y ys =>
      obtain ⟨o, hcompare, hord⟩ := h 0 x y rfl rfl fun m hm => absurd hm (Nat.not_lt_zero m)
      rw [compareItems, hcompare]
      by_cases ho : o = .eq
      · subst ho
        have hcons (m : ℕ) (u v : Value) (hu : (x::xs)[m]? = some u) (hv : (y::ys)[m]? = some v)
            (hbefore : ∀ m', m = m'+1 → xs[m']? = some u → ys[m']? = some v → Ordered u v .eq) :
            Ordered u v .eq := by
          cases m with
          | zero =>
            obtain rfl := Option.some.inj hu
            obtain rfl := Option.some.inj hv
            exact hord
          | succ m => exact hbefore m rfl hu hv
        obtain ⟨found, hfound, hnone, hsome⟩ := ih fun k u v hu hv hbefore =>
          h (k+1) u v hu hv fun m hm u' v' hu' hv' =>
            hcons m u' v' hu' hv' fun m' hm' => hbefore m' (by omega) u' v'
        refine ⟨found, hfound, fun hf m u v hu hv => ?_, fun o ho => ?_⟩
        · exact hcons m u v hu hv fun m' _ => hnone hf m' u v
        · obtain ⟨k, x', y', hbefore, hx', hy', ho', hne⟩ := hsome o ho
          refine ⟨k+1, x', y', fun m hm u v hu hv => ?_, hx', hy', ho', hne⟩
          exact hcons m u v hu hv fun m' hm' => hbefore m' (by omega) u v
      · refine ⟨some o, ?_, nofun, ?_⟩
        · cases o <;> first | rfl | contradiction
        · rintro o' ho'
          obtain rfl := Option.some.inj ho'
          exact ⟨0, x, y, fun m hm => absurd hm (Nat.not_lt_zero m), rfl, rfl, hord, ho⟩

theorem compareInner_pair {a b : Value} {ids : Int64 × Int64} {xs ys : List Value}
    (hpair : Pair a b ids xs ys) : compareInner eq opName a b active =
      if ids.1 = ids.2 then .ok .eq
      else if ids ∈ active then .error recursionError
      else (compareItems eq opName xs ys (ids::active)).map fun found =>
        found.getD (cmp xs.length ys.length) := by
  cases hpair <;> rw [compareInner] <;> rfl

theorem Pair.id_eq {a b : Value} {ids : Int64 × Int64} {xs ys : List Value}
    (hpair : Pair a b ids xs ys) : a.id = some ids.1 ∧ b.id = some ids.2 := by
  cases hpair <;> exact ⟨rfl, rfl⟩

theorem Pair.within {a b v x y : Value} {ids : Int64 × Int64} {xs ys : List Value}
    (hpair : Pair a b ids xs ys) (hx : x ∈ xs) (hy : y ∈ ys) :
    (Within v x → Within v a) ∧ (Within v y → Within v b) := by
  cases hpair with
  | list i j => exact ⟨.list hx, .list hy⟩
  | tuple i j => exact ⟨.tuple hx, .tuple hy⟩

theorem Pair.sizeOf_lt {a b x : Value} {ids : Int64 × Int64} {xs ys : List Value}
    (hpair : Pair a b ids xs ys) (hx : x ∈ xs) : sizeOf x < sizeOf a := by
  have := List.sizeOf_lt_of_mem hx
  cases hpair with
  | list i j =>
    rw [Value.list.sizeOf_spec]
    omega
  | tuple i j =>
    rw [Value.tuple.sizeOf_spec]
    omega

/-- No pair on the stack comes again: a part of the value with the identity of one around it
would be larger than itself. -/
theorem compareInner_alike {a b : Value} (h : Alike a b) (hone : OneObject a b)
    (hactive : ∀ ids ∈ active, ∀ u, Within u a → u.id ≠ some ids.1) :
    ∃ o, compareInner eq opName a b active = .ok o ∧ Ordered a b o := by
  induction h generalizing active with
  | number ha hb => exact ⟨_, compareInner_number ha hb active, .number ha hb⟩
  | @items a b ids xs ys hpair h ih =>
    obtain ⟨hida, hidb⟩ := hpair.id_eq
    rw [compareInner_pair hpair]
    by_cases hsame : ids.1 = ids.2
    · rw [if_pos hsame]
      rw [hsame] at hida
      have heq : a = b := hone a b _ (.inl (.self a)) (.inr (.self b)) hida hidb
      exact ⟨.eq, rfl, (Alike.items hpair h).ordered_refl heq⟩
    · have hfree : ids ∉ active := fun hmem => hactive ids hmem a (.self a) hida
      rw [if_neg hsame, if_neg hfree]
      have hitems (k : ℕ) (x y : Value) (hx : xs[k]? = some x) (hy : ys[k]? = some y)
          (hbefore : ∀ m < k, ∀ u v : Value, xs[m]? = some u → ys[m]? = some v →
            Ordered u v .eq) :
          ∃ o, compareInner eq opName x y (ids::active) = .ok o ∧ Ordered x y o := by
        have hmemx := List.mem_of_getElem? hx
        have hwithin (u : Value) := hpair.within (v := u) hmemx (List.mem_of_getElem? hy)
        refine ih k x y hx hy hbefore (fun u v i hu hv => ?_) fun ids' hmem u hu hid => ?_
        · exact hone u v i (hu.imp (hwithin u).1 (hwithin u).2) (hv.imp (hwithin v).1 (hwithin v).2)
        · rcases List.mem_cons.mp hmem with rfl | hmem
          · have heq : u = a := hone u a _ (.inl ((hwithin u).1 hu)) (.inl (.self a)) hid hida
            have hle := hu.sizeOf_le
            have hlt := hpair.sizeOf_lt hmemx
            rw [heq] at hle
            omega
          · exact hactive ids' hmem u ((hwithin u).1 hu) hid
      obtain ⟨found, hfound, hnone, hsome⟩ := compareItems_spec hitems
      rw [hfound]
      cases found with
      | none => exact ⟨_, rfl, .length hpair (hnone rfl)⟩
      | some o =>
        obtain ⟨k, x, y, hbefore, hx, hy, ho, hne⟩ := hsome o rfl
        exact ⟨o, rfl, .differ hpair hbefore hx hy ho hne⟩

end loop

/-- Numbers are ordered as the numbers they are, so the ordering is reflexive, antisymmetric and
transitive across the representations. Sequences of the same kinds are ordered by the first
items that differ and then by their lengths, and no error is reported. -/
theorem ordering_exact (eq : Value → Value → Bool) (opName : String) :
    (∀ a b p q, a.number = some p → b.number = some q →
      compareValuesWithOp eq opName a b = .ok (cmp p q)) ∧
    (∀ a p, a.number = some p → compareValuesWithOp eq opName a a = .ok .eq) ∧
    (∀ a b p q, a.number = some p → b.number = some q →
      compareValuesWithOp eq opName a b ≠ .ok .gt → compareValuesWithOp eq opName b a ≠ .ok .gt →
      p = q) ∧
    (∀ a b c p q r, a.number = some p → b.number = some q → c.number = some r →
      compareValuesWithOp eq opName a b ≠ .ok .gt → compareValuesWithOp eq opName b c ≠ .ok .gt →
      compareValuesWithOp eq opName a c ≠ .ok .gt) ∧
    (∀ a b, Alike a b → OneObject a b →
      ∃ o, compareValuesWithOp eq opName a b = .ok o ∧ Ordered a b o ∧
        ∀ o', Ordered a b o' → o' = o) := by
  have hnumber (a b : Value) (p q : Extended) (ha : a.number = some p) (hb : b.number = some q) :
      compareValuesWithOp eq opName a b = .ok (cmp p q) := compareInner_number ha hb []
  have hle (a b : Value) (p q : Extended) (ha : a.number = some p) (hb : b.number = some q) :
      compareValuesWithOp eq opName a b ≠ .ok .gt ↔ p ≤ q := by
    rw [hnumber a b p q ha hb, ne_eq, Except.ok.injEq, cmp_eq_gt_iff, not_lt]
  refine ⟨hnumber, fun a p ha => ?_, fun a b p q ha hb hab hba => ?_,
    fun a b c p q r ha hb hc hab hbc => ?_, fun a b h hone => ?_⟩
  · rw [hnumber a a p p ha ha, cmp_self_eq_eq]
  · exact le_antisymm ((hle a b p q ha hb).mp hab) ((hle b a q p hb ha).mp hba)
  · exact (hle a c p r ha hc).mpr
      (((hle a b p q ha hb).mp hab).trans ((hle b c q r hb hc).mp hbc))
  · obtain ⟨o, hcompare, hord⟩ := compareInner_alike h hone fun ids hids =>
      absurd hids List.not_mem_nil
    exact ⟨o, hcompare, hord, fun o' ho' => ho'.unique hord⟩

/-- `[2**63 - 1]` and `[2.0**63]`. -/
theorem ordering_exact_boundary :
    compareValuesWithOp (fun _ _ => false) "<" (.int 9223372036854775807)
      (.float i64MaxPlusOne) = .ok (cmp (intValue 9223372036854775807) (intValue (2^63))) ∧
    ∃ o, compareValuesWithOp (fun _ _ => false) "<" (.list 0 [.int 9223372036854775807])
        (.list 1 [.float i64MaxPlusOne]) = .ok o ∧
      Ordered (.list 0 [.int 9223372036854775807]) (.list 1 [.float i64MaxPlusOne]) o := by
  have hfloat : (Value.float i64MaxPlusOne).number = some (intValue (2^63)) := by
    rw [Value.number, floatValue, part_i64Max, intValue_eq]
  have hint : (Value.int 9223372036854775807).number = some (intValue 9223372036854775807) := rfl
  have halike : Alike (.list 0 [.int 9223372036854775807]) (.list 1 [.float i64MaxPlusOne]) := by
    refine .items (.list 0 1 _ _) fun k x y hx hy _ => ?_
    cases k with
    | zero =>
      obtain rfl := Option.some.inj hx
      obtain rfl := Option.some.inj hy
      exact .number hint hfloat
    | succ k => simp at hx
  have hone : OneObject (.list 0 [.int 9223372036854775807]) (.list 1 [.float i64MaxPlusOne]) := by
    have hparts (u : Value) (hu : Within u (.list 0 [.int 9223372036854775807]) ∨
        Within u (.list 1 [.float i64MaxPlusOne])) :
        u = .list 0 [.int 9223372036854775807] ∨ u = .list 1 [.float i64MaxPlusOne] ∨
          u.id = none := by
      rcases hu with hu | hu <;> cases hu with
      | self => simp
      | list hx h =>
        obtain rfl := List.mem_singleton.mp hx
        cases h
        exact .inr (.inr rfl)
    intro u v i hu hv hui hvi
    have hne : (some 0 : Option Int64) ≠ some 1 := by decide
    rcases hparts u hu with rfl | rfl | h
    · rcases hparts v hv with rfl | rfl | h'
      · rfl
      · exact absurd (hui.trans hvi.symm) hne
      · exact absurd (hvi.symm.trans h') (Option.some_ne_none i)
    · rcases hparts v hv with rfl | rfl | h'
      · exact absurd (hvi.trans hui.symm) hne
      · rfl
      · exact absurd (hvi.symm.trans h') (Option.some_ne_none i)
    · exact absurd (hui.symm.trans h) (Option.some_ne_none i)
  obtain ⟨o, hcompare, hord, -⟩ :=
    (ordering_exact (fun _ _ => false) "<").2.2.2.2 _ _ halike hone
  exact ⟨(ordering_exact (fun _ _ => false) "<").1 _ _ _ _ hint hfloat, o, hcompare, hord⟩

end Pyrust.SequenceOrder
