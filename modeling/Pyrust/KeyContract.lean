import Mathlib.Data.List.Forall2
import Mathlib.Data.List.Perm.Basic
import Pyrust.KeyNumbers

/-!
# The contract between key equality and key hashes

Equal keys feed the same words to the hasher and have the same Python hash,
and equality is symmetric and transitive. Numbers are compared by value;
tuples and frozensets follow by induction on the key. Two frozensets of the
same length, one contained in the other, match element by element up to a
permutation, which the commutative mixing of the frozenset hash cannot see.
-/

set_option autoImplicit false

namespace Pyrust.KeyContract
open Pyrust.Binary64 Pyrust.Keys Pyrust.KeyNumbers

universe u v

/-- An injection into a list of the same length is a matching. -/
theorem exists_matching {α : Type u} {β : Type v} {E : α → β → Prop} (xs : List α) (ys : List β)
    (hlen : xs.length = ys.length) (hex : ∀ x ∈ xs, ∃ y ∈ ys, E x y)
    (hinj : xs.Pairwise (fun x x' => ∀ y ∈ ys, E x y → ¬ E x' y)) :
    ∃ zs, zs.Perm ys ∧ List.Forall₂ E xs zs := by
  induction xs generalizing ys with
  | nil =>
    rw [List.length_nil, eq_comm, List.length_eq_zero_iff] at hlen
    exact ⟨[], by rw [hlen], List.Forall₂.nil⟩
  | cons x xs ih =>
    obtain ⟨y, hy, hxy⟩ := hex x (by simp)
    obtain ⟨front, back, rfl⟩ := List.append_of_mem hy
    rw [List.pairwise_cons] at hinj
    have hlen' : xs.length = (front++back).length := by
      simp only [List.length_cons, List.length_append] at hlen ⊢
      omega
    have hex' : ∀ x' ∈ xs, ∃ y' ∈ front++back, E x' y' := by
      intro x' hx'
      obtain ⟨y', hy', hxy'⟩ := hex x' (by simp [hx'])
      have hne : y' ≠ y := by
        rintro rfl
        exact hinj.1 x' hx' y' hy hxy hxy'
      refine ⟨y', ?_, hxy'⟩
      simp only [List.mem_append, List.mem_cons] at hy' ⊢
      tauto
    have hinj' : xs.Pairwise (fun x x' => ∀ y ∈ front++back, E x y → ¬ E x' y) := by
      apply hinj.2.imp
      intro x1 x2 h y' hy'
      apply h y'
      simp only [List.mem_append, List.mem_cons] at hy' ⊢
      tauto
    obtain ⟨zs, hperm, hrel⟩ := ih (front++back) hlen' hex' hinj'
    exact ⟨y::zs, (hperm.cons y).trans List.perm_middle.symm, List.Forall₂.cons hxy hrel⟩

section hashes
variable (sentinels : Sentinels)

attribute [local simp] Keys.PyKey.hash Keys.pyHashPykey in
theorem integer_hashes (a : PyKey) (n : ℤ) (h : integer a = some n) :
    a.hash sentinels = intWords n ∧ pyHashPykey sentinels a = pykeyHashBigint n := by
  cases a <;> simp only [integer, Option.some.injEq, reduceCtorEq] at h <;> subst h <;>
    simp only [PyKey.hash, pyHashPykey]
  case int v => exact ⟨(intWords_toInt v).symm, hashInt_eq v⟩
  case bool b => cases b <;> decide
  case bigInt n => simp [intWords]

/-- A real number hashes as an integer or as the float it is. -/
theorem real_hashes (a : PyKey) (p : Part) (h : number a = some (.real p)) :
    (∃ n, p = .finite (n*one) ∧ a.hash sentinels = intWords n ∧
      pyHashPykey sentinels a = pykeyHashBigint n) ∨
    (∃ bits, p = part bits ∧ a.hash sentinels = hashFloatBits bits ∧
      pyHashPykey sentinels a = pyHashFloat bits) := by
  rcases number_cases a _ h with ⟨n, hn, hp⟩ | ⟨bits, rfl, hp⟩ | ⟨re, im, rfl, hz, hr, hp⟩ |
    ⟨re, im, rfl, hc, hp⟩
  · injection hp with hp
    exact Or.inl ⟨n, hp, integer_hashes sentinels a n hn⟩
  · injection hp with hp
    exact Or.inr ⟨bits, hp, rfl, rfl⟩
  · injection hp with hp
    refine Or.inr ⟨re, hp, ?_, ?_⟩
    · simp [PyKey.hash, hashComplexKey, hz]
    · simp [pyHashPykey, hz]
  · simp at hp

/-- Both hashes of a numeric key are functions of its number. -/
theorem hashes_of_number (a b : PyKey) (x : Number) (ha : number a = some x)
    (hb : number b = some x) :
    a.hash sentinels = b.hash sentinels ∧ pyHashPykey sentinels a = pyHashPykey sentinels b := by
  cases x with
  | real p =>
    rcases real_hashes sentinels a p ha with ⟨n, hp, h1, h2⟩ | ⟨bits, hp, h1, h2⟩ <;>
      rcases real_hashes sentinels b p hb with ⟨m, hq, h3, h4⟩ | ⟨bits', hq, h3, h4⟩ <;>
      rw [h1, h2, h3, h4]
    · rw [hp, Part.finite.injEq, cancel_one] at hq
      rw [hq]
      exact ⟨rfl, rfl⟩
    · have hint : part bits' = .finite (n*one) := by rw [← hq, hp]
      exact ⟨(hashFloatBits_integral bits' n hint).symm, (pyHashFloat_integral bits' n hint).symm⟩
    · have hint : part bits = .finite (m*one) := by rw [← hp, hq]
      exact ⟨hashFloatBits_integral bits m hint, pyHashFloat_integral bits m hint⟩
    · have hpart : part bits = part bits' := by rw [← hp, ← hq]
      exact ⟨hashFloatBits_congr _ _ hpart, pyHashFloat_congr _ _ hpart⟩
  | complex p q =>
    rcases number_cases a _ ha with ⟨n, -, hx⟩ | ⟨bits, -, hx⟩ | ⟨re, im, -, -, -, hx⟩ |
      ⟨re, im, rfl, -, hx⟩
    · simp at hx
    · simp at hx
    · simp at hx
    rcases number_cases b _ hb with ⟨n, -, hy⟩ | ⟨bits, -, hy⟩ | ⟨re', im', -, -, -, hy⟩ |
      ⟨re', im', rfl, -, hy⟩
    · simp at hy
    · simp at hy
    · simp at hy
    rw [hx] at hy
    injection hy with hre him
    have hcomplex : pyHashComplex re im = pyHashComplex re' im' := by
      rw [pyHashComplex, pyHashComplex, hashFloatAsU64_congr re re' hre,
        hashFloatAsU64_congr im im' him]
    constructor
    · simp only [PyKey.hash, hashComplexKey, isZero_congr im im' him, hcomplex,
        hashFloatBits_congr re re' hre]
    · simp only [pyHashPykey, isZero_congr im im' him, hcomplex, pyHashFloat_congr re re' hre]

attribute [local simp] Keys.pyHashItems in
theorem pyHashItems_eq (items : List PyKey) :
    pyHashItems sentinels items = items.map (pyHashPykey sentinels) := by
  induction items with
  | nil => rfl
  | cons key items ih => rw [pyHashItems, ih, List.map_cons]

attribute [local simp] Keys.PyKey.hashItems in
theorem hashItems_eq (items : List PyKey) :
    PyKey.hashItems sentinels items = (items.map (PyKey.hash sentinels)).flatten := by
  induction items with
  | nil => rfl
  | cons key items ih => rw [PyKey.hashItems, ih, List.map_cons, List.flatten_cons]

/-- Exclusive or does not see the order of the elements. -/
theorem pyHashFrozensetItems_perm (l l' : List Int64) (h : l.Perm l') :
    pyHashFrozensetItems l = pyHashFrozensetItems l' := by
  have hfold : l.foldl (fun h item => h ^^^ frozensetShuffleBits item.toUInt64) 0 =
      l'.foldl (fun h item => h ^^^ frozensetShuffleBits item.toUInt64) 0 := by
    apply h.foldl_eq'
    intro x _ y _ z
    rw [UInt64.xor_assoc, UInt64.xor_assoc, UInt64.xor_comm (frozensetShuffleBits _)]
  simp only [pyHashFrozensetItems, hfold, h.length_eq]

end hashes

section laws
variable (sentinels : Sentinels) (hasher : List Word → UInt64)

structure Laws (a : PyKey) : Prop where
  symm : ∀ b, a.Wf sentinels hasher → b.Wf sentinels hasher →
    a.eq sentinels hasher b = true → b.eq sentinels hasher a = true
  trans : ∀ b c, a.Wf sentinels hasher → b.Wf sentinels hasher → c.Wf sentinels hasher →
    a.eq sentinels hasher b = true → b.eq sentinels hasher c = true →
    a.eq sentinels hasher c = true
  hashes : ∀ b, a.Wf sentinels hasher → b.Wf sentinels hasher →
    a.eq sentinels hasher b = true →
    a.hash sentinels = b.hash sentinels ∧ pyHashPykey sentinels a = pyHashPykey sentinels b

theorem wfItems_iff (items : List PyKey) :
    WfItems sentinels hasher items ↔ ∀ key ∈ items, key.Wf sentinels hasher := by
  induction items with
  | nil => simp [WfItems]
  | cons key items ih => simp [WfItems, ih]

attribute [local simp] Keys.eqItems in
theorem eqItems_iff (xs ys : List PyKey) :
    eqItems sentinels hasher xs ys = true ↔
      List.Forall₂ (fun x y => x.eq sentinels hasher y = true) xs ys := by
  induction xs generalizing ys with
  | nil => cases ys <;> simp [eqItems]
  | cons x xs ih => cases ys <;> simp [eqItems, ih]

attribute [local simp] Keys.containedIn in
theorem containedIn_iff (xs ys : List PyKey) :
    containedIn sentinels hasher xs ys = true ↔ ∀ x ∈ xs, ∃ y ∈ ys,
      hasher (y.hash sentinels) = hasher (x.hash sentinels) ∧ x.eq sentinels hasher y = true := by
  induction xs with
  | nil => simp [containedIn]
  | cons x xs ih => simp [containedIn, ih]

/-- A number equals numbers only. -/
theorem number_of_eq (a b : PyKey) (x : Number) (ha : number a = some x)
    (h : a.eq sentinels hasher b = true) : ∃ y, number b = some y := by
  cases a <;> simp only [number, integer, Option.map_none, reduceCtorEq] at ha <;>
    cases b <;> simp only [PyKey.eq, Bool.false_eq_true] at h <;>
    simp only [number, integer, Option.map_some, Option.some.injEq, exists_eq']
  all_goals
    split <;> exact ⟨_, rfl⟩

theorem number_laws (a : PyKey) (x : Number) (ha : number a = some x) : Laws sentinels hasher a := by
  constructor
  · intro b wa wb hab
    obtain ⟨y, hb⟩ := number_of_eq sentinels hasher a b x ha hab
    rw [eq_number_iff sentinels hasher a b x y wa wb ha hb] at hab
    rw [eq_number_iff sentinels hasher b a y x wb wa hb ha, hab]
  · intro b c wa wb wc hab hbc
    obtain ⟨y, hb⟩ := number_of_eq sentinels hasher a b x ha hab
    obtain ⟨z, hc⟩ := number_of_eq sentinels hasher b c y hb hbc
    rw [eq_number_iff sentinels hasher a b x y wa wb ha hb] at hab
    rw [eq_number_iff sentinels hasher b c y z wb wc hb hc] at hbc
    rw [eq_number_iff sentinels hasher a c x z wa wc ha hc, hab, hbc]
  · intro b wa wb hab
    obtain ⟨y, hb⟩ := number_of_eq sentinels hasher a b x ha hab
    rw [eq_number_iff sentinels hasher a b x y wa wb ha hb] at hab
    subst hab
    exact hashes_of_number sentinels a b x ha hb

/-- A key that equals nothing but itself. -/
theorem atom_laws (a : PyKey) (h : ∀ b, a.eq sentinels hasher b = true → b = a) :
    Laws sentinels hasher a := by
  constructor
  · intro b _ _ hab
    obtain rfl := h b hab
    exact hab
  · intro b c _ _ _ hab hbc
    obtain rfl := h b hab
    exact hbc
  · intro b _ _ hab
    obtain rfl := h b hab
    exact ⟨rfl, rfl⟩

section items
variable {xs ys zs : List PyKey} (hlaws : ∀ x ∈ xs, Laws sentinels hasher x)
include hlaws

theorem items_symm (wx : ∀ x ∈ xs, x.Wf sentinels hasher) (wy : ∀ y ∈ ys, y.Wf sentinels hasher)
    (h : List.Forall₂ (fun x y => x.eq sentinels hasher y = true) xs ys) :
    List.Forall₂ (fun x y => x.eq sentinels hasher y = true) ys xs := by
  induction h with
  | nil => exact List.Forall₂.nil
  | cons hxy _ ih =>
    simp only [List.forall_mem_cons] at hlaws wx wy
    exact List.Forall₂.cons (hlaws.1.symm _ wx.1 wy.1 hxy) (ih hlaws.2 wx.2 wy.2)

theorem items_trans (wx : ∀ x ∈ xs, x.Wf sentinels hasher) (wy : ∀ y ∈ ys, y.Wf sentinels hasher)
    (wz : ∀ z ∈ zs, z.Wf sentinels hasher)
    (h : List.Forall₂ (fun x y => x.eq sentinels hasher y = true) xs ys)
    (h' : List.Forall₂ (fun x y => x.eq sentinels hasher y = true) ys zs) :
    List.Forall₂ (fun x y => x.eq sentinels hasher y = true) xs zs := by
  induction h generalizing zs with
  | nil => exact h'
  | cons hxy _ ih =>
    cases h' with
    | cons hyz h' =>
      simp only [List.forall_mem_cons] at hlaws wx wy wz
      exact List.Forall₂.cons (hlaws.1.trans _ _ wx.1 wy.1 wz.1 hxy hyz)
        (ih hlaws.2 wx.2 wy.2 wz.2 h')

theorem items_hashes (wx : ∀ x ∈ xs, x.Wf sentinels hasher) (wy : ∀ y ∈ ys, y.Wf sentinels hasher)
    (h : List.Forall₂ (fun x y => x.eq sentinels hasher y = true) xs ys) :
    xs.map (PyKey.hash sentinels) = ys.map (PyKey.hash sentinels) ∧
      xs.map (pyHashPykey sentinels) = ys.map (pyHashPykey sentinels) := by
  induction h with
  | nil => exact ⟨rfl, rfl⟩
  | cons hxy _ ih =>
    simp only [List.forall_mem_cons] at hlaws wx wy
    obtain ⟨h1, h2⟩ := hlaws.1.hashes _ wx.1 wy.1 hxy
    obtain ⟨h3, h4⟩ := ih hlaws.2 wx.2 wy.2
    simp only [List.map_cons, h1, h2, h3, h4, and_self]

/-- Elements that match the same element would be equal to each other. -/
theorem frozen_matching (wx : ∀ x ∈ xs, x.Wf sentinels hasher)
    (wy : ∀ y ∈ ys, y.Wf sentinels hasher)
    (hd : xs.Pairwise (fun x x' => x.eq sentinels hasher x' = false))
    (hlen : xs.length = ys.length)
    (hex : ∀ x ∈ xs, ∃ y ∈ ys, x.eq sentinels hasher y = true) :
    ∃ zs, zs.Perm ys ∧ List.Forall₂ (fun x y => x.eq sentinels hasher y = true) xs zs := by
  apply exists_matching xs ys hlen hex
  apply hd.imp_of_mem
  intro x x' hx hx' hne y hy hxy hxy'
  have hyx' := (hlaws x' hx').symm y (wx x' hx') (wy y hy) hxy'
  have hxx' := (hlaws x hx).trans y x' (wx x hx) (wy y hy) (wx x' hx') hxy hyx'
  rw [hne] at hxx'
  exact Bool.false_ne_true hxx'

theorem tuple_laws : Laws sentinels hasher (.tuple xs) := by
  have hother : ∀ b, PyKey.eq sentinels hasher (.tuple xs) b = true → ∃ ys, b = .tuple ys := by
    intro b h
    cases b <;> simp [PyKey.eq] at h ⊢
  constructor
  · intro b wa wb h
    obtain ⟨ys, rfl⟩ := hother b h
    simp only [PyKey.Wf, wfItems_iff] at wa wb
    simp only [PyKey.eq, eqItems_iff] at h ⊢
    exact items_symm sentinels hasher hlaws wa wb h
  · intro b c wa wb wc h h'
    obtain ⟨ys, rfl⟩ := hother b h
    cases c with
    | tuple zs =>
      simp only [PyKey.Wf, wfItems_iff] at wa wb wc
      simp only [PyKey.eq, eqItems_iff] at h h' ⊢
      exact items_trans sentinels hasher hlaws wa wb wc h h'
    | _ => simp [PyKey.eq] at h'
  · intro b wa wb h
    obtain ⟨ys, rfl⟩ := hother b h
    simp only [PyKey.Wf, wfItems_iff] at wa wb
    simp only [PyKey.eq, eqItems_iff] at h
    obtain ⟨h1, h2⟩ := items_hashes sentinels hasher hlaws wa wb h
    simp only [PyKey.hash, pyHashPykey, hashItems_eq, pyHashItems_eq, h1, h2, h.length_eq,
      and_self]

theorem frozenSet_laws : Laws sentinels hasher (.frozenSet xs) := by
  have hother : ∀ b, PyKey.eq sentinels hasher (.frozenSet xs) b = true →
      ∃ ys, b = .frozenSet ys := by
    intro b h
    cases b <;> simp [PyKey.eq] at h ⊢
  have hmatch : ∀ ys, PyKey.Wf sentinels hasher (.frozenSet xs) →
      PyKey.Wf sentinels hasher (.frozenSet ys) →
      PyKey.eq sentinels hasher (.frozenSet xs) (.frozenSet ys) = true →
      (∀ x ∈ xs, x.Wf sentinels hasher) ∧ (∀ y ∈ ys, y.Wf sentinels hasher) ∧
        xs.length = ys.length ∧ ∃ zs, zs.Perm ys ∧
          List.Forall₂ (fun x y => x.eq sentinels hasher y = true) xs zs := by
    intro ys wa wb h
    simp only [PyKey.Wf, wfItems_iff] at wa wb
    simp only [PyKey.eq, Bool.and_eq_true, beq_iff_eq, containedIn_iff] at h
    refine ⟨wa.1, wb.1, h.1, frozen_matching sentinels hasher hlaws wa.1 wb.1 wa.2 h.1 ?_⟩
    intro x hx
    obtain ⟨y, hy, -, hxy⟩ := h.2 x hx
    exact ⟨y, hy, hxy⟩
  constructor
  · intro b wa wb h
    obtain ⟨ys, rfl⟩ := hother b h
    obtain ⟨wx, wy, hlen, zs, hperm, hrel⟩ := hmatch ys wa wb h
    simp only [PyKey.eq, Bool.and_eq_true, beq_iff_eq, containedIn_iff]
    refine ⟨hlen.symm, ?_⟩
    intro y hy
    obtain ⟨hl, hget⟩ := List.forall₂_iff_get.mp hrel
    obtain ⟨i, hi, rfl⟩ := List.getElem_of_mem (hperm.mem_iff.mpr hy)
    have hx := List.getElem_mem (hl ▸ hi : i < xs.length)
    have hxy := hget i (hl ▸ hi) hi
    refine ⟨_, hx, ?_, (hlaws _ hx).symm _ (wx _ hx) (wy _ hy) hxy⟩
    exact congrArg hasher ((hlaws _ hx).hashes _ (wx _ hx) (wy _ hy) hxy).1
  · intro b c wa wb wc h h'
    obtain ⟨ys, rfl⟩ := hother b h
    cases c with
    | frozenSet zs =>
      simp only [PyKey.Wf, wfItems_iff] at wa wb wc
      simp only [PyKey.eq, Bool.and_eq_true, beq_iff_eq, containedIn_iff] at h h' ⊢
      refine ⟨h.1.trans h'.1, ?_⟩
      intro x hx
      obtain ⟨y, hy, hyx, hxy⟩ := h.2 x hx
      obtain ⟨z, hz, hzy, hyz⟩ := h'.2 y hy
      exact ⟨z, hz, hzy.trans hyx,
        (hlaws x hx).trans y z (wa.1 x hx) (wb.1 y hy) (wc.1 z hz) hxy hyz⟩
    | _ => simp [PyKey.eq] at h'
  · intro b wa wb h
    obtain ⟨ys, rfl⟩ := hother b h
    obtain ⟨wx, wy, hlen, zs, hperm, hrel⟩ := hmatch ys wa wb h
    have wz : ∀ z ∈ zs, z.Wf sentinels hasher := fun z hz => wy z (hperm.mem_iff.mp hz)
    have hmap := (items_hashes sentinels hasher hlaws wx wz hrel).2
    have hhash : pyHashFrozensetItems (pyHashItems sentinels xs) =
        pyHashFrozensetItems (pyHashItems sentinels ys) := by
      rw [pyHashItems_eq, pyHashItems_eq, hmap]
      exact pyHashFrozensetItems_perm _ _ (hperm.map _)
    simp only [PyKey.hash, pyHashPykey, hhash, and_self]

end items

mutual

theorem laws : ∀ a : PyKey, Laws sentinels hasher a
  | .int v => number_laws sentinels hasher _ _ rfl
  | .bool b => number_laws sentinels hasher _ _ rfl
  | .bigInt n => number_laws sentinels hasher _ _ rfl
  | .float bits => number_laws sentinels hasher _ _ rfl
  | .complex re im => by
    obtain ⟨x, hx⟩ : ∃ x, number (.complex re im) = some x := by
      simp only [number]
      split <;> exact ⟨_, rfl⟩
    exact number_laws sentinels hasher _ x hx
  | .str s => by
    apply atom_laws
    intro b h
    cases b <;> simp_all [PyKey.eq]
  | .bytes s => by
    apply atom_laws
    intro b h
    cases b <;> simp_all [PyKey.eq]
  | .none => by
    apply atom_laws
    intro b h
    cases b <;> simp [PyKey.eq] at h ⊢
  | .ellipsis => by
    apply atom_laws
    intro b h
    cases b <;> simp [PyKey.eq] at h ⊢
  | .tuple items => tuple_laws sentinels hasher (laws_items items)
  | .frozenSet items => frozenSet_laws sentinels hasher (laws_items items)

theorem laws_items : ∀ items : List PyKey, ∀ key ∈ items, Laws sentinels hasher key
  | [] => by simp
  | key::items => by
    simp only [List.forall_mem_cons]
    exact ⟨laws key, laws_items items⟩

end

/-- The patterns of `1.0` and of `float(2**70)`. -/
def oneBits : UInt64 := 0x3FF0000000000000
def twoPow70Bits : UInt64 := 0x4450000000000000

theorem one_is_one_key :
    PyKey.eq sentinels hasher (.int 1) (.bool true) = true ∧
    PyKey.eq sentinels hasher (.bool true) (.float oneBits) = true ∧
    PyKey.eq sentinels hasher (.float oneBits) (.complex oneBits 0) = true ∧
    PyKey.eq sentinels hasher (.bigInt (2^70)) (.float twoPow70Bits) = true := by
  simp only [PyKey.eq, realValuedComplexEq]
  decide +kernel

/-- Equal keys hash alike in both ways, equality is symmetric and transitive,
and the representations of one number are one key. -/
theorem equal_keys_hash_alike (a b c : PyKey) (wa : a.Wf sentinels hasher)
    (wb : b.Wf sentinels hasher) (wc : c.Wf sentinels hasher) :
    (a.eq sentinels hasher b = true → a.hash sentinels = b.hash sentinels ∧
      pyHashPykey sentinels a = pyHashPykey sentinels b) ∧
    (a.eq sentinels hasher b = true → b.eq sentinels hasher a = true) ∧
    (a.eq sentinels hasher b = true → b.eq sentinels hasher c = true →
      a.eq sentinels hasher c = true) ∧
    (∀ x y, number a = some x → number b = some y → (a.eq sentinels hasher b = true ↔ x = y)) ∧
    PyKey.eq sentinels hasher (.int 1) (.bool true) = true ∧
    PyKey.eq sentinels hasher (.bool true) (.float oneBits) = true ∧
    PyKey.eq sentinels hasher (.float oneBits) (.complex oneBits 0) = true ∧
    PyKey.eq sentinels hasher (.bigInt (2^70)) (.float twoPow70Bits) = true := by
  have hl := laws sentinels hasher a
  refine ⟨hl.hashes b wa wb, hl.symm b wa wb, hl.trans b c wa wb wc, ?_,
    one_is_one_key sentinels hasher⟩
  intro x y hx hy
  exact eq_number_iff sentinels hasher a b x y wa wb hx hy

end laws

/-- Frozensets that hold the same numbers in different representations. -/
theorem equal_keys_hash_alike_nested :
    PyKey.eq ⟨5, 7⟩ (fun _ => 0) (.frozenSet [.tuple [.int 1], .bigInt (2^70)])
      (.frozenSet [.float twoPow70Bits, .tuple [.bool true]]) = true ∧
    pyHashPykey ⟨5, 7⟩ (.frozenSet [.tuple [.int 1], .bigInt (2^70)]) =
      pyHashPykey ⟨5, 7⟩ (.frozenSet [.float twoPow70Bits, .tuple [.bool true]]) := by
  have wa : PyKey.Wf ⟨5, 7⟩ (fun _ => 0) (.frozenSet [.tuple [.int 1], .bigInt (2^70)]) := by
    simp only [PyKey.Wf, WfItems, List.pairwise_pair]
    decide
  have wb : PyKey.Wf ⟨5, 7⟩ (fun _ => 0)
      (.frozenSet [.float twoPow70Bits, .tuple [.bool true]]) := by
    simp only [PyKey.Wf, WfItems, List.pairwise_pair]
    decide
  have h : PyKey.eq ⟨5, 7⟩ (fun _ => 0) (.frozenSet [.tuple [.int 1], .bigInt (2^70)])
      (.frozenSet [.float twoPow70Bits, .tuple [.bool true]]) = true := by
    decide +kernel
  exact ⟨h, ((equal_keys_hash_alike ⟨5, 7⟩ (fun _ => 0) _ _ _ wa wb wa).1 h).2⟩

end Pyrust.KeyContract
