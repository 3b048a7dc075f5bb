import Pyrust.OperatorLevels

/-!
# Printing an expression and parsing it again

A tree is first read by the function of its own level and then, since no
function above finds an operator of its own, by every function above; in
parentheses it is a primary.
-/

set_option autoImplicit false

namespace Pyrust.OperatorRoundTrip
open Pyrust.OperatorSyntax Pyrust.OperatorParser Pyrust.OperatorReading Pyrust.OperatorLevels
open Pyrust.LeftAssociation

section
variable {others : Productions}

/-! ## Entry levels -/

/-- The level whose function reads the text of an expression by itself. -/
def entry (e : Expr) : ℕ :=
  if e.level = 0 then 1 else if e.level = 13 ∨ e.level = 14 then 12 else e.level

/-- The text of a tree is read at its entry level, and as a left operand of its
own level it is read up to the loop. -/
structure Read (others : Productions) (e : Expr) : Prop where
  reads : ReadsAt others (entry e) (nesting e) (text e) (reading e)
  head : ∀ rest, entry e ≤ opens (text e ++ rest)
  reaches : IsLeft e.level → ReachesAt others e.level (nesting e) (text e) (reading e)

theorem level_le (e : Expr) : e.level ≤ 15 := by
  cases e with
  | unary op e => cases op <;> simp [Expr.level, UnaryOp.level]
  | binary l op r => cases op <;> simp [Expr.level, BinaryOp.level]
  | _ => simp [Expr.level]

theorem entry_hasFunction (e : Expr) : HasFunction (entry e) := by
  have h := level_le e
  unfold HasFunction entry
  split_ifs <;> omega

theorem le_entry {p : ℕ} {e : Expr} (hp : HasFunction p) (h : p ≤ e.level) : p ≤ entry e := by
  unfold HasFunction at hp
  unfold entry
  split_ifs <;> omega

theorem wrap_congr {p q : ℕ} {e : Expr} (h : e.level < p ↔ e.level < q) (ts : List Token) :
    wrap p e ts = wrap q e ts := by
  simp [wrap, h]

theorem nestingAt_congr {p q : ℕ} {e : Expr} (h : e.level < p ↔ e.level < q) (k : ℕ) :
    nestingAt p e k = nestingAt q e k := by
  simp [nestingAt, h]

theorem Read.operand_opens {e : Expr} (h : Read others e) {p : ℕ} (hp : HasFunction p)
    (rest : List Token) : p ≤ opens (operand p e ++ rest) := by
  have hle : p ≤ 15 := by rcases hp with hp | hp <;> omega
  unfold operand wrap
  split_ifs with hlt
  · exact hle
  · exact Nat.le_trans (le_entry (e := e) hp (by omega)) (h.head rest)

attribute [local simp] OperatorSyntax.text OperatorSyntax.nesting in
/-- An expression is read wherever its level or its parentheses allow it. -/
theorem Read.operand_reads {e : Expr} (h : Read others e) {p : ℕ} (hp : HasFunction p) :
    ReadsAt others p (nestingAt p e (nesting e)) (operand p e) (reading e) := by
  unfold operand wrap nestingAt
  split_ifs with hlt
  · have hinner : ReadsAt others 1 (nesting e) (text e) (reading e) :=
      h.reads.climb (Or.inl (by omega)) (entry_hasFunction e)
        (by have := entry_hasFunction e; unfold HasFunction at this; omega) h.head
    have hopens : ∀ rest, 1 ≤ opens (text e ++ rest) := fun rest =>
      Nat.le_trans (by have := entry_hasFunction e; unfold HasFunction at this; omega) (h.head rest)
    exact (hinner.paren hopens).climb hp (Or.inr rfl)
      (by unfold HasFunction at hp; omega) fun rest => Nat.le_refl _
  · exact h.reads.climb hp (entry_hasFunction e) (le_entry hp (by omega)) h.head

/-- As a left operand of a left-associative level. -/
theorem Read.left_operand {e : Expr} (h : Read others e) {p : ℕ} (hp : IsLeft p) :
    ReachesAt others p (nestingAt p e (nesting e)) (operand p e) (reading e) := by
  have hp' : HasFunction (p + 1) := by unfold IsLeft at hp; unfold HasFunction; omega
  by_cases hlevel : e.level = p
  · have hr := h.reaches (by rw [hlevel]; exact hp)
    rw [hlevel] at hr
    simpa [operand, wrap, nestingAt, hlevel] using hr
  · have hr := (h.operand_reads hp').reaches
    have hiff : e.level < p + 1 ↔ e.level < p := by omega
    simpa [operand, wrap, nestingAt, hiff] using hr

/-! ## Chains of comparisons -/

attribute [local simp] OperatorSyntax.linkTexts in
theorem continues_links {ops : List (CmpOp × Expr)} {rest : List Token}
    (h : ∀ x ∈ ops, Read others x.2) (hrest : continues rest < 5) :
    continues (linkTexts ops ++ rest) < 6 := by
  cases ops with
  | nil =>
    show continues rest < 6
    omega
  | cons x ops =>
    obtain ⟨op, e⟩ := x
    have ho : 6 ≤ opens (operand 6 e ++ (linkTexts ops ++ rest)) :=
      (h (op, e) (by simp)).operand_opens (Or.inl (by omega)) _
    have hcmp := cmpOp_tokens op (Nat.le_trans (by omega : 5 ≤ 6) ho)
    have htext : linkTexts ((op, e) :: ops) ++ rest =
        op.tokens ++ (operand 6 e ++ (linkTexts ops ++ rest)) := by
      simp [linkTexts, operand]
    rw [htext]
    simp [continues, hcmp]

attribute [local simp] OperatorSyntax.linkNesting in
/-- The loop of `parse_comparison` collects the links of a chain in their order. -/
theorem comparisonLoop_links (fuel depth : ℕ) {rest : List Token} (hrest : continues rest < 5)
    (ops : List (CmpOp × Expr)) (h : ∀ x ∈ ops, Read others x.2) (acc : List (CmpOp × Expr))
    (rounds : ℕ) (hrounds : (linkTexts ops).length ≤ rounds)
    (hfuel : 3 * (linkTexts ops).length + 1 ≤ fuel) (hdepth : depth + linkNesting ops ≤ maxExprDepth) :
    comparisonLoop (parseBitor (parseUnary others fuel depth)) (rounds + 1) acc
      (linkTexts ops ++ rest) = (readLinks ops).bind fun ops => .ok (acc ++ ops, rest) := by
  induction ops generalizing acc rounds with
  | nil =>
    simp [comparisonLoop, cmpOp_none hrest, linkTexts, readLinks, Except.bind]
  | cons x ops ih =>
    obtain ⟨op, e⟩ := x
    have he : Read others e := h (op, e) (by simp)
    have hops : ∀ x ∈ ops, Read others x.2 := fun x hx => h x (by simp [hx])
    have htext : linkTexts ((op, e) :: ops) =
        op.tokens ++ (operand 6 e ++ linkTexts ops) := rfl
    have hpos : 1 ≤ op.tokens.length := by cases op <;> decide
    simp only [htext, List.length_append] at hrounds hfuel
    simp only [linkNesting] at hdepth
    have ho := he.operand_opens (Or.inl (by omega) : HasFunction 6) (linkTexts ops ++ rest)
    have hcmp := cmpOp_tokens op (Nat.le_trans (by omega : 5 ≤ 6) ho)
    have hright : parseBitor (parseUnary others fuel depth)
        (operand 6 e ++ (linkTexts ops ++ rest)) =
          result (reading e) (linkTexts ops ++ rest) :=
      he.operand_reads (Or.inl (by omega)) _ fuel depth (continues_links hops hrest)
        (by simp [slack]; omega) (by omega)
    obtain ⟨k, rfl⟩ : ∃ k, rounds = k + 1 := ⟨rounds - 1, by omega⟩
    rw [htext, List.append_assoc, List.append_assoc, comparisonLoop]
    simp only [hcmp, hright, readLinks, bind]
    cases reading e with
    | error m => rfl
    | ok right =>
      have hnext := ih hops (acc ++ [(op, right)]) k (by omega) (by omega) (by omega)
      simp only [result_ok, Except.bind, hnext]
      cases readLinks ops <;> simp

theorem comparison_reads {l : Expr} {ops : List (CmpOp × Expr)} (hl : Read others l)
    (hops : ∀ x ∈ ops, Read others x.2) :
    ReadsAt others 5 (max (nestingAt 6 l (nesting l)) (linkNesting ops))
      (operand 6 l ++ linkTexts ops)
      ((reading l).bind fun l => (readLinks ops).bind fun ops => .ok (comparison l ops)) := by
  intro rest fuel depth hrest hfuel hdepth
  have hfuel : 3 * ((operand 6 l).length + (linkTexts ops).length) + 1 ≤ fuel := by
    simpa [slack] using hfuel
  have hleft : parseBitor (parseUnary others fuel depth)
      (operand 6 l ++ (linkTexts ops ++ rest)) =
        result (reading l) (linkTexts ops ++ rest) :=
    hl.operand_reads (Or.inl (by omega)) _ fuel depth (continues_links hops hrest)
      (by simp [slack]; omega) (by omega)
  have hloop := comparisonLoop_links fuel depth hrest ops hops []
    (linkTexts ops ++ rest).length (by simp) (by omega) (by omega)
  show parseComparison (parseUnary others fuel depth) _ = _
  rw [List.append_assoc]
  simp only [parseComparison, hleft, bind]
  cases reading l with
  | error m => rfl
  | ok left =>
    simp only [result_ok, Except.bind, hloop]
    cases readLinks ops <;> rfl

theorem readLinks_length {ops ops' : List (CmpOp × Expr)} (h : readLinks ops = .ok ops') :
    ops'.length = ops.length := by
  induction ops generalizing ops' with
  | nil =>
    obtain rfl : [] = ops' := by simpa [readLinks] using h
    rfl
  | cons x ops ih =>
    obtain ⟨op, e⟩ := x
    simp only [readLinks, bind_eq_ok] at h
    obtain ⟨e', -, rest, hrest, h⟩ := h
    obtain rfl : (op, e') :: rest = ops' := by simpa using h
    simp [ih hrest]

/-- Two links or more make a chain. -/
theorem comparison_chain {left : Expr} {ops : List (CmpOp × Expr)} (h : 2 ≤ ops.length) :
    comparison left ops = .compare left ops := by
  match ops, h with
  | _ :: _ :: _, _ => rfl

theorem compare_reading {l : Expr} {ops : List (CmpOp × Expr)} (h : 2 ≤ ops.length) :
    ((reading l).bind fun l => (readLinks ops).bind fun ops => .ok (comparison l ops)) =
      reading (.compare l ops) := by
  cases hops : readLinks ops with
  | error m => simp only [reading, hops, Except.bind]
  | ok ops' =>
    have hlen : 2 ≤ ops'.length := by rw [readLinks_length hops]; exact h
    simp only [reading, hops, Except.bind, comparison_chain hlen]

/-- An operator of level 5 is the operator of a single link. -/
theorem comparison_operator {op : BinaryOp} (h : op.level = 5) :
    ∃ c : CmpOp, op = c.toBinary ∧ op.tokens = c.tokens ∧ op.leftLevel = 6 ∧ op.rightLevel = 6 := by
  cases op <;> first
    | (simp [BinaryOp.level] at h; done)
    | exact ⟨.eq, rfl, rfl, rfl, rfl⟩ | exact ⟨.ne, rfl, rfl, rfl, rfl⟩
    | exact ⟨.lt, rfl, rfl, rfl, rfl⟩ | exact ⟨.le, rfl, rfl, rfl, rfl⟩
    | exact ⟨.gt, rfl, rfl, rfl, rfl⟩ | exact ⟨.ge, rfl, rfl, rfl, rfl⟩
    | exact ⟨.isIn, rfl, rfl, rfl, rfl⟩ | exact ⟨.notIn, rfl, rfl, rfl, rfl⟩
    | exact ⟨.is, rfl, rfl, rfl, rfl⟩ | exact ⟨.isNot, rfl, rfl, rfl, rfl⟩

/-! ## Every tree -/

theorem await_of_level {e : Expr} (h : e.level = 14) : ∃ a, e = .await a := by
  cases e with
  | await a => exact ⟨a, rfl⟩
  | unary op e => cases op <;> simp [Expr.level, UnaryOp.level] at h
  | binary l op r => cases op <;> simp [Expr.level, BinaryOp.level] at h
  | _ => simp [Expr.level] at h

theorem unary_read {e : Expr} (he : Read others e) (op : UnaryOp) :
    Read others (.unary op e) := by
  have hleft : ¬ IsLeft op.level := by cases op <;> decide
  by_cases hop : op = .not
  · subst hop
    exact ⟨not_reads (he.operand_reads (Or.inl (by decide))), fun _ => Nat.le_refl _,
      fun h => absurd h hleft⟩
  · have hlevel : op.level = 12 := by
      cases op <;> first | rfl | exact absurd rfl hop
    have hentry : entry (.unary op e) = 12 := by simp [entry, Expr.level, hlevel]
    have hnesting : nesting (.unary op e) = nestingAt 12 e (nesting e) := by
      simp [nesting, hlevel]
    have htext : text (.unary op e) = op.token :: operand 12 e := by
      simp [text, operand, hlevel]
    refine ⟨?_, fun rest => ?_, fun h => absurd h hleft⟩
    · rw [hentry, hnesting, htext]
      exact unary_reads hop (he.operand_reads (Or.inl (by decide)))
    · rw [hentry, htext]
      cases op <;> first | exact Nat.le_refl _ | exact absurd rfl hop

theorem await_read {e : Expr} (he : Read others e) : Read others (.await e) :=
  have hleft : ¬ IsLeft 14 := by decide
  ⟨await_reads ((he.operand_reads (Or.inr rfl)).climb (Or.inl (by decide)) (Or.inr rfl) (by decide)
      (he.operand_opens (Or.inr rfl))), fun _ => Nat.le_refl _, fun h => absurd h hleft⟩

/-- A power; the base of one that is an `await` is read by the function of `await`. -/
theorem power_read {l r : Expr} (hl : Read others l) (hr : Read others r)
    (hbase : ∀ a, l = .await a → Read others a) : Read others (.binary l .pow r) := by
  have hleft : ¬ IsLeft 13 := by decide
  have h12 : HasFunction 12 := Or.inl (by decide)
  have h15 : HasFunction 15 := Or.inr rfl
  by_cases hawait : ∃ a, l = .await a
  · obtain ⟨a, rfl⟩ := hawait
    have ha := hbase a rfl
    have hpower := await_reads (power_reads (ha.operand_reads h15)
      (fun rest => Nat.le_trans (by decide) (ha.operand_opens h15 rest)) (hr.operand_reads h12))
    refine ⟨?_, fun _ => Nat.le_refl _, fun h => absurd h hleft⟩
    have hreading : reading (.binary (.await a) .pow r) =
        (((reading a).bind fun base => (reading r).bind fun exp =>
          .ok (.binary base .pow exp)).bind fun e => .ok (.await e)) := by
      simp only [reading]
      cases reading a <;> cases reading r <;> rfl
    rw [hreading]
    exact hpower
  · have hlevel : l.level ≠ 14 := fun h => hawait (await_of_level h)
    have hiff : l.level < 14 ↔ l.level < 15 := by omega
    have htext : text (.binary l .pow r) =
        operand 15 l ++ .starStar :: operand 12 r := by
      simp [text, operand, BinaryOp.leftLevel, BinaryOp.rightLevel,
        BinaryOp.tokens, wrap_congr hiff]
    have hnesting : nesting (.binary l .pow r) =
        max (nestingAt 15 l (nesting l)) (nestingAt 12 r (nesting r)) := by
      simp [nesting, BinaryOp.leftLevel, BinaryOp.rightLevel, nestingAt_congr hiff]
    have hreading : reading (.binary l .pow r) =
        (reading l).bind fun base => (reading r).bind fun exp => .ok (.binary base .pow exp) := by
      have hgrouped : ∀ base exp, grouped l .pow base exp = .binary base .pow exp :=
        grouped_binary fun a h => absurd ⟨a, h⟩ hawait
      simp only [reading, hgrouped]
    have hopens : ∀ rest, 13 ≤ opens (operand 15 l ++ rest) :=
      fun rest => Nat.le_trans (by decide) (hl.operand_opens h15 rest)
    refine ⟨?_, fun rest => ?_, fun h => absurd h hleft⟩
    · rw [hreading, hnesting, htext]
      exact power_reads (hl.operand_reads h15) hopens (hr.operand_reads h12)
    · rw [htext, List.append_assoc]
      exact Nat.le_trans (by decide : 12 ≤ 13) (hopens _)

/-- A binary operator of a left-associative level. -/
theorem left_read {l r : Expr} {op : BinaryOp} (h : IsLeft op.level) (hl : Read others l)
    (hr : Read others r) : Read others (.binary l op r) := by
  obtain ⟨t, htokens, ht, hleft, hright⟩ := left_token h
  have hne : op ≠ .pow := by
    rintro rfl
    exact absurd h (by decide)
  have hp : HasFunction op.level := by unfold IsLeft at h; unfold HasFunction; omega
  have hp' : HasFunction (op.level + 1) := by unfold IsLeft at h; unfold HasFunction; omega
  have hentry : entry (.binary l op r) = op.level := by
    unfold IsLeft at h
    show (if op.level = 0 then 1 else if op.level = 13 ∨ op.level = 14 then 12 else op.level) = _
    rw [if_neg (by omega), if_neg (by omega)]
  have htext : text (.binary l op r) =
      operand op.level l ++ t :: operand (op.level + 1) r := by
    simp [text, operand, hleft, hright, htokens]
  have hnesting : nesting (.binary l op r) =
      max (nestingAt op.level l (nesting l)) (nestingAt (op.level + 1) r (nesting r)) := by
    simp [nesting, hleft, hright]
  have hreading : reading (.binary l op r) =
      (reading l).bind fun a => (reading r).bind fun b => .ok (.binary a op b) := by
    have hgrouped : ∀ a b, grouped l op a b = .binary a op b := grouped_binary fun _ _ => hne
    simp only [reading, hgrouped]
  have hreaches : ReachesAt others op.level (nesting (.binary l op r)) (text (.binary l op r))
      (reading (.binary l op r)) := by
    rw [hreading, hnesting, htext]
    exact (hl.left_operand h).item ht (hr.operand_reads hp')
  refine ⟨?_, fun rest => ?_, fun _ => hreaches⟩
  · rw [hentry]
    exact hreaches.reads h
  · rw [hentry, htext, List.append_assoc]
    exact hl.operand_opens hp _

/-- A single comparison. -/
theorem single_read {l r : Expr} {op : BinaryOp} (h : op.level = 5) (hl : Read others l)
    (hr : Read others r) : Read others (.binary l op r) := by
  obtain ⟨c, hc, htokens, hleft, hright⟩ := comparison_operator h
  have hne : op ≠ .pow := by
    rintro rfl
    exact absurd h (by decide)
  have hentry : entry (.binary l op r) = 5 := by simp [entry, Expr.level, h]
  have htext : text (.binary l op r) = operand 6 l ++ linkTexts [(c, r)] := by
    simp [text, linkTexts, operand, hleft, hright, htokens]
  have hnesting : nesting (.binary l op r) =
      max (nestingAt 6 l (nesting l)) (linkNesting [(c, r)]) := by
    simp [nesting, linkNesting, hleft, hright]
  have hreading : reading (.binary l op r) =
      (reading l).bind fun l => (readLinks [(c, r)]).bind fun ops => .ok (comparison l ops) := by
    have hgrouped : ∀ a b, grouped l op a b = .binary a op b := grouped_binary fun _ _ => hne
    simp only [reading, readLinks, hgrouped]
    cases reading l <;> cases reading r <;> simp [Except.bind, comparison, hc]
  have hlinks : ∀ x ∈ [(c, r)], Read others x.2 := by simpa using hr
  refine ⟨?_, fun rest => ?_, fun h' => absurd h' (by rw [Expr.level, h]; decide)⟩
  · rw [hentry, hreading, hnesting, htext]
    exact comparison_reads hl hlinks
  · rw [hentry, htext, List.append_assoc]
    exact Nat.le_trans (by decide) (hl.operand_opens (Or.inl (by decide) : HasFunction 6) _)

theorem chain_read {l : Expr} {ops : List (CmpOp × Expr)} (hl : Read others l)
    (hops : ∀ x ∈ ops, Read others x.2) (h : 2 ≤ ops.length) : Read others (.compare l ops) := by
  have hleft : ¬ IsLeft 5 := by decide
  refine ⟨?_, fun rest => ?_, fun h => absurd h hleft⟩
  · rw [← compare_reading h]
    exact comparison_reads hl hops
  · show 5 ≤ opens (operand 6 l ++ linkTexts ops ++ rest)
    rw [List.append_assoc]
    exact Nat.le_trans (by decide) (hl.operand_opens (Or.inl (by decide) : HasFunction 6) _)

theorem binary_read {l r : Expr} (hl : Read others l) (hr : Read others r) (op : BinaryOp)
    (hbase : ∀ a, l = .await a → Read others a) : Read others (.binary l op r) := by
  by_cases hleft : IsLeft op.level
  · exact left_read hleft hl hr
  · obtain h | rfl : op.level = 5 ∨ op = .pow := by
      cases op <;> first | exact Or.inl rfl | exact Or.inr rfl | exact absurd (by decide) hleft
    · exact single_read h hl hr
    · exact power_read hl hr hbase

theorem ternary_read {cond thenBranch elseBranch : Expr} (hc : Read others cond)
    (ht : Read others thenBranch) (he : Read others elseBranch) :
    Read others (.ternary cond thenBranch elseBranch) := by
  have h2 : HasFunction 2 := Or.inl (by decide)
  have h1 : HasFunction 1 := Or.inl (by decide)
  have hleft : ¬ IsLeft 1 := by decide
  have hopens := ht.operand_opens h2
  refine ⟨?_, fun rest => ?_, fun h => absurd h hleft⟩
  · exact ternary_reads (ht.operand_reads h2) hopens (hc.operand_reads h2) (he.operand_reads h1)
  · show 1 ≤ opens (operand 2 thenBranch ++ _ ++ rest)
    rw [List.append_assoc]
    exact Nat.le_trans (by decide : 1 ≤ 2) (hopens _)

theorem lambda_read {body : Expr} (h : Read others body) : Read others (.lambda body) :=
  have hleft : ¬ IsLeft 1 := by decide
  ⟨lambda_reads (h.operand_reads (Or.inl (by decide))), fun _ => Nat.le_refl _, fun h => absurd h hleft⟩

theorem named_read {target : String} {value : Expr} (ht : target ≠ "await")
    (h : Read others value) : Read others (.named target value) := by
  have hleft : ¬ IsLeft 0 := by decide
  refine ⟨?_, fun rest => ?_, fun h => absurd h hleft⟩
  · exact named_reads ht (h.operand_reads (Or.inl (by decide)))
  · show 1 ≤ opens (.ident target :: _)
    simp [opens]

theorem primary_read {e : Expr} (hlevel : e.level = 15)
    (h : ReadsAt others 15 (nesting e) (text e) (reading e))
    (ho : ∀ rest, 15 ≤ opens (text e ++ rest)) : Read others e := by
  have hentry : entry e = 15 := by simp [entry, hlevel]
  refine ⟨?_, ?_, fun h => absurd h (by rw [hlevel]; decide)⟩
  · rw [hentry]
    exact h
  · rw [hentry]
    exact ho

attribute [local simp] OperatorReading.Valid OperatorReading.ValidLinks in
mutual
/-- Every valid tree is read as its reading; the operand of an `await` is kept at
hand for the power around it. -/
theorem valid_read : ∀ e : Expr, Valid e → Read others e ∧ ∀ a, e = .await a → Read others a
  | .int v, _ => ⟨primary_read rfl (int_reads v) fun _ => Nat.le_refl _, nofun⟩
  | .bigInt digits, _ => ⟨primary_read rfl (bigInt_reads digits) fun _ => Nat.le_refl _, nofun⟩
  | .var name, h => by
    have hname : name ≠ "await" := h
    refine ⟨primary_read rfl (var_reads name) fun rest => ?_, nofun⟩
    show 15 ≤ opens (.ident name :: rest)
    simp [opens]
  | .unary op e, h => ⟨unary_read (valid_read e h).1 op, nofun⟩
  | .await e, h => by
    have he := (valid_read e h).1
    refine ⟨await_read he, fun a ha => ?_⟩
    obtain rfl : e = a := by simpa using ha
    exact he
  | .binary l op r, h =>
    ⟨binary_read (valid_read l h.1).1 (valid_read r h.2).1 op (valid_read l h.1).2, nofun⟩
  | .compare l ops, h => ⟨chain_read (valid_read l h.1).1 (valid_links ops h.2.2) h.2.1, nofun⟩
  | .ternary cond thenBranch elseBranch, h =>
    ⟨ternary_read (valid_read cond h.1).1 (valid_read thenBranch h.2.1).1
      (valid_read elseBranch h.2.2).1, nofun⟩
  | .lambda body, h => ⟨lambda_read (valid_read body h).1, nofun⟩
  | .named target value, h => ⟨named_read h.1 (valid_read value h.2).1, nofun⟩
  | .other _, h => h.elim

theorem valid_links : ∀ ops : List (CmpOp × Expr), ValidLinks ops → ∀ x ∈ ops, Read others x.2
  | [], _, x, hx => absurd hx (List.not_mem_nil)
  | (op, e) :: ops, h, x, hx => by
    rcases List.mem_cons.mp hx with rfl | hx
    · exact (valid_read e h.1).1
    · exact valid_links ops h.2 x hx
end

/-! ## The round trip -/

/-- `parse_expr` on the text of a tree, at any depth and in front of anything
that does not go on with an expression, finds the reading of the tree and
consumes exactly the text. -/
theorem parse_operand {e : Expr} (he : Valid e) {rest : List Token} (hrest : continues rest = 0)
    {depth : ℕ} (hdepth : depth + (nestingAt 1 e (nesting e) + 1) ≤ maxExprDepth) :
    parse others depth (operand 1 e ++ rest) = result (reading e) rest := by
  have h1 : HasFunction 1 := Or.inl (by decide)
  have h : ReadsAt others 1 _ (operand 1 e) (reading e) := (valid_read e he).1.operand_reads h1
  rw [parse, parseExpr_inner hdepth]
  have hfuel : 3 * (operand 1 e).length + 3 ≤
      3 * (operand 1 e ++ rest).length + 3 := by
    rw [List.length_append]
    omega
  exact h rest _ (depth + 1) (by omega) hfuel (by omega)

/-- The printed tree comes back, and nothing more is consumed, exactly when no
power in it has a bare `await` for its base and no assignment expression in it
assigns to `__debug__`. -/
theorem parse_print_iff (others : Productions) {e : Expr} (he : Valid e) {rest : List Token}
    (hrest : continues rest = 0) {depth : ℕ}
    (hdepth : depth + (nestingAt 1 e (nesting e) + 1) ≤ maxExprDepth) :
    parse others depth (operand 1 e ++ rest) = .ok (e, rest) ↔ ReadBack e := by
  rw [parse_operand he hrest hdepth, result_eq_ok, reading_self]

end

/-- `(-x) ** await y`, in front of a closing parenthesis. -/
theorem parse_print_power :
    parse refusing 0 (operand 1
        (.binary (.unary .neg (.var "x")) .pow (.await (.var "y"))) ++ [Token.rParen]) =
      .ok (.binary (.unary .neg (.var "x")) .pow (.await (.var "y")), [.rParen]) :=
  (parse_print_iff refusing (by simp [Valid]) rfl (by decide)).mpr (by simp [ReadBack])

/-- The power of an `await`, printed without parentheses as Python has it, is
read as the `await` of a power. -/
theorem await_power_regrouped :
    Valid (.binary (.await (.var "x")) .pow (.int 2)) ∧
      operand 1 (.binary (.await (.var "x")) .pow (.int 2)) =
        [.ident "await", .ident "x", .starStar, .int 2] ∧
      parse refusing 0 [.ident "await", .ident "x", .starStar, .int 2] =
        .ok (.await (.binary (.var "x") .pow (.int 2)), []) ∧
      parse refusing 0 [.ident "await", .ident "x", .starStar, .int 2] ≠
        .ok (.binary (.await (.var "x")) .pow (.int 2), []) := by
  have hread : parse refusing 0 [.ident "await", .ident "x", .starStar, .int 2] =
      .ok (.await (.binary (.var "x") .pow (.int 2)), []) := rfl
  exact ⟨by simp [Valid], rfl, hread, by simp [hread]⟩

end Pyrust.OperatorRoundTrip
