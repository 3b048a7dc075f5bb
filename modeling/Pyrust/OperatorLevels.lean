import Pyrust.OperatorReading

/-!
# The levels of the ladder

What one function of the ladder reads, every function above it reads as well,
as long as neither the first token nor the token after the text is its own; and
one lemma for each way to put a larger text together.
-/

set_option autoImplicit false

namespace Pyrust.OperatorLevels
open Pyrust.OperatorSyntax Pyrust.OperatorParser Pyrust.OperatorReading Pyrust.LeftAssociation

/-! ## First tokens and following tokens -/

/-- How far down the ladder the functions pass on a text with this first token. -/
def opens : List Token → ℕ
  | .yield :: _ | .lambda :: _ => 1
  | .not :: _ => 4
  | .minus :: _ | .tilde :: _ | .plus :: _ | .ident "await" :: _ => 12
  | .ident _ :: _ | .int _ :: _ | .bigInt _ :: _ | .lParen :: _ => 15
  | _ => 0

/-- The level whose function would go on with these tokens, 0 when none would. -/
def continues (ts : List Token) : ℕ :=
  if (cmpOp ts).isSome then 5
  else match ts with
    | .walrus :: _ | .if :: _ => 1
    | .or :: _ => 2
    | .and :: _ => 3
    | .pipe :: _ => 6
    | .caret :: _ => 7
    | .ampersand :: _ => 8
    | .lShift :: _ | .rShift :: _ => 9
    | .plus :: _ | .minus :: _ => 10
    | .star :: _ | .at :: _ | .slash :: _ | .slashSlash :: _ | .percent :: _ => 11
    | .starStar :: _ => 13
    | .lParen :: _ | .lBracket :: _ | .dot :: _ => 15
    | _ => 0

/-- The operators of the left-associative levels. -/
def leftOp : ℕ → Token → Option BinaryOp
  | 2 => orOp
  | 3 => andOp
  | 6 => bitorOp
  | 7 => bitxorOp
  | 8 => bitandOp
  | 9 => shiftOp
  | 10 => termOp
  | 11 => factorOp
  | _ => fun _ => none

def IsLeft (p : ℕ) : Prop := p = 2 ∨ p = 3 ∨ p = 6 ∨ p = 7 ∨ p = 8 ∨ p = 9 ∨ p = 10 ∨ p = 11

instance (p : ℕ) : Decidable (IsLeft p) := inferInstanceAs (Decidable (_ ∨ _))

attribute [local simp] continues OperatorParser.cmpOp in
theorem leftOp_continues {p : ℕ} {t : Token} {o : BinaryOp} (h : leftOp p t = some o)
    (ts : List Token) : continues (t :: ts) = p := by
  unfold leftOp at h
  split at h
  case h_9 => cases h
  all_goals first
    | unfold orOp at h
    | unfold andOp at h
    | unfold bitorOp at h
    | unfold bitxorOp at h
    | unfold bitandOp at h
    | unfold shiftOp at h
    | unfold termOp at h
    | unfold factorOp at h
  all_goals split at h <;> first | rfl | cases h

theorem leftOp_none {p : ℕ} {rest : List Token} (h : continues rest < p) :
    ∀ t ∈ rest.head?, leftOp p t = none := by
  intro t ht
  cases rest with
  | nil => simp at ht
  | cons u rest =>
    obtain rfl : u = t := by simpa using ht
    cases ho : leftOp p u with
    | none => rfl
    | some o => exact absurd (leftOp_continues ho rest) (by omega)

attribute [local simp] OperatorSyntax.Expr.level in
/-- The operator of a left-associative level is one token, with the levels of
its operands at and above its own. -/
theorem left_token {op : BinaryOp} (h : IsLeft op.level) :
    ∃ t, op.tokens = [t] ∧ leftOp op.level t = some op ∧ op.leftLevel = op.level ∧
      op.rightLevel = op.level + 1 := by
  cases op <;> first | exact absurd h (by decide) | exact ⟨_, rfl, rfl, rfl, rfl⟩

attribute [local simp] opens in
theorem cmpOp_tokens (op : CmpOp) {ts : List Token} (h : 5 ≤ opens ts) :
    cmpOp (op.tokens ++ ts) = some (op, ts) := by
  cases op <;> try rfl
  cases ts with
  | nil => rfl
  | cons t ts => cases t <;> first | rfl | (simp [opens] at h)

/-! ## The level functions read -/

section
variable (others : Productions)

/-- The function of a level of the ladder, on a fuel and at a depth. -/
def parserAt (p fuel depth : ℕ) : Parser :=
  match p with
  | 0 | 1 => parseExprInner others fuel depth
  | 2 => parseOr (parseNot others fuel depth)
  | 3 => parseAnd (parseNot others fuel depth)
  | 4 => parseNot others fuel depth
  | 5 => parseComparison (parseUnary others fuel depth)
  | 6 => parseBitor (parseUnary others fuel depth)
  | 7 => parseBitxor (parseUnary others fuel depth)
  | 8 => parseBitand (parseUnary others fuel depth)
  | 9 => parseShift (parseUnary others fuel depth)
  | 10 => parseTerm (parseUnary others fuel depth)
  | 11 => parseFactor (parseUnary others fuel depth)
  | 12 => parseUnary others fuel depth
  | _ => parsePostfix others (parseExprInner others fuel) depth

/-- The turns a level may take before its first token is read. -/
def slack (p : ℕ) : ℕ := if p ≤ 1 then 3 else if p ≤ 4 then 2 else if p ≤ 12 then 1 else 0

/-- The function of level `p` reads exactly `ts`, with outcome `r`, in front of
anything it would not go on with, at any depth that leaves room for `k` more. -/
def ReadsAt (p k : ℕ) (ts : List Token) (r : Except ParseError Expr) : Prop :=
  ∀ rest fuel depth, continues rest < p → 3 * ts.length + slack p ≤ fuel →
    depth + k ≤ maxExprDepth → Reads (parserAt others p fuel depth) ts r rest

variable {others}

theorem parserAt_left {p : ℕ} (h : IsLeft p) (fuel depth : ℕ) :
    parserAt others p fuel depth = leftAssoc (leftOp p) (parserAt others (p + 1) fuel depth) := by
  rcases h with rfl | rfl | rfl | rfl | rfl | rfl | rfl | rfl <;> rfl

theorem slack_succ (p : ℕ) : slack (p + 1) ≤ slack p := by
  unfold slack
  split_ifs <;> omega

theorem ReadsAt.left {p k : ℕ} {ts : List Token} {r : Except ParseError Expr} (hp : IsLeft p)
    (h : ReadsAt others (p + 1) k ts r) : ReadsAt others p k ts r := by
  intro rest fuel depth hrest hfuel hdepth
  have hnext := h rest fuel depth (by omega) (by have := slack_succ p; omega) hdepth
  rw [parserAt_left hp]
  exact hnext.level (leftOp_none hrest)

attribute [local simp] OperatorParser.parseUnary OperatorParser.parseNot in
/-- A text that does not begin with `not` is no inversion. -/
theorem parseNot_pass {fuel depth : ℕ} {ts : List Token} (h : 5 ≤ opens ts) :
    parseNot others (fuel + 1) depth ts = parseComparison (parseUnary others fuel depth) ts := by
  cases ts with
  | nil => simp [opens] at h
  | cons t ts => cases t <;> first | rfl | (simp [opens] at h)

attribute [local simp] OperatorParser.parseExprInner in
theorem parseUnary_pass {fuel depth : ℕ} {ts : List Token} (h : 13 ≤ opens ts) :
    parseUnary others (fuel + 1) depth ts =
      parsePower others (parseUnary others fuel depth) (parseExprInner others fuel) depth ts := by
  cases ts with
  | nil => simp [opens] at h
  | cons t ts =>
    cases t with
    | ident name =>
      have hn : name ≠ "await" := by
        rintro rfl
        simp [opens] at h
      simp [parseUnary, hn]
    | _ => first | rfl | (simp [opens] at h)

attribute [local simp] OperatorParser.assignmentOrTernary in
/-- `parse_expr_inner` on a text that is no `yield` and no `lambda`. -/
theorem parseExprInner_pass {fuel depth : ℕ} {ts : List Token} (h : 2 ≤ opens ts) :
    parseExprInner others (fuel + 1) depth ts =
      (parseOr (parseNot others fuel depth) ts).bind fun x =>
        assignmentOrTernary (parseOr (parseNot others fuel depth))
          (parseExpr (parseExprInner others fuel) depth) x.1 x.2 := by
  cases ts with
  | nil => simp [opens] at h
  | cons t ts => cases t <;> first | rfl | (simp [opens] at h)

theorem assignmentOrTernary_pass {por pexpr : Parser} {e : Expr} {rest : List Token}
    (h : continues rest < 1) : assignmentOrTernary por pexpr e rest = .ok (e, rest) := by
  cases rest with
  | nil => rfl
  | cons t rest => cases t <;> first | rfl | (simp [continues, cmpOp] at h)

theorem bind_result {α β : Type} (r : Except ParseError α) (rest : List Token)
    (f : α × List Token → Except ParseError β) :
    (result r rest).bind f = r.bind fun e => f (e, rest) := by
  cases r <;> rfl

theorem bind_ok_pair {α : Type} (r : Except ParseError α) (rest : List Token) :
    (r.bind fun e => .ok (e, rest)) = result r rest := by
  cases r <;> rfl

/-! ## Down the ladder -/

theorem ReadsAt.inner {k : ℕ} {ts : List Token} {r : Except ParseError Expr}
    (h : ReadsAt others 2 k ts r) (ho : ∀ rest, 2 ≤ opens (ts ++ rest)) :
    ReadsAt others 1 k ts r := by
  intro rest fuel depth hrest hfuel hdepth
  obtain ⟨fuel, rfl⟩ : ∃ n, fuel = n + 1 := ⟨fuel - 1, by simp [slack] at hfuel; omega⟩
  have hor : parseOr (parseNot others fuel depth) (ts ++ rest) = result r rest :=
    h rest fuel depth (by omega) (by simp [slack] at hfuel ⊢; omega) hdepth
  show parseExprInner others (fuel + 1) depth (ts ++ rest) = result r rest
  rw [parseExprInner_pass (ho rest), hor, bind_result]
  simp only [assignmentOrTernary_pass hrest, bind_ok_pair]

theorem ReadsAt.inversion {k : ℕ} {ts : List Token} {r : Except ParseError Expr}
    (h : ReadsAt others 5 k ts r) (ho : ∀ rest, 5 ≤ opens (ts ++ rest)) :
    ReadsAt others 4 k ts r := by
  intro rest fuel depth hrest hfuel hdepth
  obtain ⟨fuel, rfl⟩ : ∃ n, fuel = n + 1 := ⟨fuel - 1, by simp [slack] at hfuel; omega⟩
  show parseNot others (fuel + 1) depth (ts ++ rest) = result r rest
  rw [parseNot_pass (ho rest)]
  exact h rest fuel depth (by omega) (by simp [slack] at hfuel ⊢; omega) hdepth

theorem cmpOp_none {rest : List Token} (h : continues rest < 5) : cmpOp rest = none := by
  cases hc : cmpOp rest with
  | none => rfl
  | some x => simp [continues, hc] at h

attribute [local simp] OperatorParser.comparisonLoop in
theorem ReadsAt.no_comparison {k : ℕ} {ts : List Token} {r : Except ParseError Expr}
    (h : ReadsAt others 6 k ts r) : ReadsAt others 5 k ts r := by
  intro rest fuel depth hrest hfuel hdepth
  have hbitor : parseBitor (parseUnary others fuel depth) (ts ++ rest) = result r rest :=
    h rest fuel depth (by omega) (by simpa [slack] using hfuel) hdepth
  show parseComparison (parseUnary others fuel depth) (ts ++ rest) = result r rest
  cases r <;> simp [parseComparison, hbitor, comparisonLoop, cmpOp_none hrest,
    comparison, bind,
    Except.bind]

theorem parsePower_pass {unary : Parser} {inner : ℕ → Parser} {depth : ℕ} {ts rest : List Token}
    {r : Except ParseError Expr} (hrest : continues rest < 12)
    (h : Reads (parsePostfix others inner depth) ts r rest) :
    Reads (parsePower others unary inner depth) ts r rest := by
  have hp : parsePostfix others inner depth (ts ++ rest) = result r rest := h
  show parsePower others unary inner depth (ts ++ rest) = result r rest
  cases r with
  | error m => simp [parsePower, hp, bind, Except.bind]
  | ok e =>
    simp only [parsePower, hp, result_ok, bind, Except.bind]
    cases rest with
    | nil => rfl
    | cons t rest => cases t <;> first | rfl | (simp [continues, cmpOp] at hrest)

theorem ReadsAt.unary {k : ℕ} {ts : List Token} {r : Except ParseError Expr}
    (h : ReadsAt others 15 k ts r) (ho : ∀ rest, 13 ≤ opens (ts ++ rest)) :
    ReadsAt others 12 k ts r := by
  intro rest fuel depth hrest hfuel hdepth
  obtain ⟨fuel, rfl⟩ : ∃ n, fuel = n + 1 := ⟨fuel - 1, by simp [slack] at hfuel; omega⟩
  have hpost : Reads (parsePostfix others (parseExprInner others fuel) depth) ts r rest :=
    h rest fuel depth (by omega) (by simp [slack] at hfuel ⊢; omega) hdepth
  show parseUnary others (fuel + 1) depth (ts ++ rest) = result r rest
  rw [parseUnary_pass (ho rest)]
  exact parsePower_pass hrest hpost

/-- Each function reads what the next one reads. -/
theorem ReadsAt.step {p k : ℕ} {ts : List Token} {r : Except ParseError Expr} (hp : 1 ≤ p)
    (hp' : p ≤ 11) (h : ReadsAt others (p + 1) k ts r) (ho : ∀ rest, p + 1 ≤ opens (ts ++ rest)) :
    ReadsAt others p k ts r := by
  by_cases hl : IsLeft p
  · exact h.left hl
  · obtain rfl | rfl | rfl : p = 1 ∨ p = 4 ∨ p = 5 := by
      simp only [IsLeft] at hl
      omega
    · exact h.inner ho
    · exact h.inversion ho
    · exact h.no_comparison

theorem ReadsAt.down {p q k : ℕ} {ts : List Token} {r : Except ParseError Expr} (hp : 1 ≤ p)
    (hpq : p ≤ q) (hq : q ≤ 12) (h : ReadsAt others q k ts r)
    (ho : ∀ rest, q ≤ opens (ts ++ rest)) : ReadsAt others p k ts r := by
  induction hpq with
  | refl => exact h
  | @step q hpq ih =>
    have hpq : p ≤ q := hpq
    exact ih (by omega) (h.step (by omega) (by omega) ho) fun rest => by have := ho rest; omega

/-! ## Primaries -/

theorem parsePostfix_pass {inner : ℕ → Parser} {depth : ℕ} {ts rest : List Token}
    {r : Except ParseError Expr} (hrest : continues rest < 15)
    (h : Reads (parsePrimary others inner depth) ts r rest) :
    Reads (parsePostfix others inner depth) ts r rest := by
  have hp : parsePrimary others inner depth (ts ++ rest) = result r rest := h
  show parsePostfix others inner depth (ts ++ rest) = result r rest
  cases r with
  | error m => simp [parsePostfix, hp, bind, Except.bind]
  | ok e =>
    simp only [parsePostfix, hp, result_ok, bind, Except.bind]
    cases rest with
    | nil => rfl
    | cons t rest => cases t <;> first | rfl | (simp [continues, cmpOp] at hrest)

theorem int_reads (v : ℕ) : ReadsAt others 15 0 [.int v] (.ok (.int v)) :=
  fun _ _ _ hrest _ _ => parsePostfix_pass hrest rfl

theorem bigInt_reads (digits : String) :
    ReadsAt others 15 0 [.bigInt digits] (.ok (.bigInt digits)) :=
  fun _ _ _ hrest _ _ => parsePostfix_pass hrest rfl

theorem var_reads (name : String) : ReadsAt others 15 0 [.ident name] (.ok (.var name)) :=
  fun _ _ _ hrest _ _ => parsePostfix_pass hrest rfl

theorem parseExpr_inner {inner : ℕ → Parser} {depth k : ℕ}
    (h : depth + (k + 1) ≤ maxExprDepth) : parseExpr inner depth = inner (depth + 1) := by
  funext ts
  rw [parseExpr, if_neg (by omega)]

/-- The rest of a primary behind its opening parenthesis and the expression in it. -/
def afterParen (others : Productions) (depth : ℕ) (x : Expr × List Token) :
    Except ParseError (Expr × List Token) :=
  match x.2 with
  | .for :: _ | .ident "async" :: .for :: _ | .comma :: _ => others.tupleOrGenerator depth x.1 x.2
  | _ => (expect .rParen x.2).bind fun ts => .ok (x.1, ts)

/-- After an opening parenthesis, an expression and its closing parenthesis. -/
theorem parsePrimary_paren {inner : ℕ → Parser} {depth : ℕ} {ts rest : List Token}
    {r : Except ParseError Expr} (ho : 1 ≤ opens (ts ++ .rParen :: rest))
    (h : Reads (parseExpr inner depth) ts r (.rParen :: rest)) :
    Reads (parsePrimary others inner depth) (.lParen :: (ts ++ [Token.rParen])) r rest := by
  have hp : parseExpr inner depth (ts ++ .rParen :: rest) = result r (.rParen :: rest) := h
  show parsePrimary others inner depth (.lParen :: (ts ++ [Token.rParen] ++ rest)) = result r rest
  have hlist : ts ++ [Token.rParen] ++ rest = ts ++ .rParen :: rest := by simp
  rw [hlist]
  have hopen : parsePrimary others inner depth (.lParen :: (ts ++ .rParen :: rest)) =
      (parseExpr inner depth (ts ++ .rParen :: rest)).bind (afterParen others depth) := by
    generalize ts ++ .rParen :: rest = us at ho ⊢
    cases us with
    | nil => simp [opens] at ho
    | cons t us => cases t <;> first | rfl | (simp [opens] at ho)
  rw [hopen, hp]
  cases r <;> rfl

/-- In its parentheses any text is a primary. -/
theorem ReadsAt.paren {k : ℕ} {ts : List Token} {r : Except ParseError Expr}
    (h : ReadsAt others 1 k ts r) (ho : ∀ rest, 1 ≤ opens (ts ++ rest)) :
    ReadsAt others 15 (k + 1) (.lParen :: (ts ++ [Token.rParen])) r := by
  intro rest fuel depth hrest hfuel hdepth
  refine parsePostfix_pass hrest (parsePrimary_paren (ho _) ?_)
  rw [parseExpr_inner hdepth]
  exact h (.rParen :: rest) fuel (depth + 1) (by simp [continues, cmpOp])
    (by simp [slack] at hfuel ⊢; omega) (by omega)

/-! ## Prefix operators and powers -/

theorem not_reads {k : ℕ} {ts : List Token} {r : Except ParseError Expr}
    (h : ReadsAt others 4 k ts r) :
    ReadsAt others 4 k (.not :: ts) (r.bind fun e => .ok (.unary .not e)) := by
  intro rest fuel depth hrest hfuel hdepth
  obtain ⟨fuel, rfl⟩ : ∃ n, fuel = n + 1 := ⟨fuel - 1, by simp [slack] at hfuel; omega⟩
  have hn : parseNot others fuel depth (ts ++ rest) = result r rest :=
    h rest fuel depth hrest (by simp [slack] at hfuel ⊢; omega) hdepth
  show parseNot others (fuel + 1) depth (.not :: (ts ++ rest)) = _
  simp only [parseNot, hn]
  cases r <;> rfl

/-- `-`, `~` and `+` take a unary expression. -/
theorem unary_reads {op : UnaryOp} (hop : op ≠ .not) {k : ℕ} {ts : List Token}
    {r : Except ParseError Expr} (h : ReadsAt others 12 k ts r) :
    ReadsAt others 12 k (op.token :: ts) (r.bind fun e => .ok (.unary op e)) := by
  intro rest fuel depth hrest hfuel hdepth
  obtain ⟨fuel, rfl⟩ : ∃ n, fuel = n + 1 := ⟨fuel - 1, by simp [slack] at hfuel; omega⟩
  have hn : parseUnary others fuel depth (ts ++ rest) = result r rest :=
    h rest fuel depth hrest (by simp [slack] at hfuel ⊢; omega) hdepth
  show parseUnary others (fuel + 1) depth (op.token :: (ts ++ rest)) = _
  cases op with
  | not => exact absurd rfl hop
  | _ =>
    simp only [UnaryOp.token, parseUnary, hn]
    cases r <;> rfl

/-- So does `await`, in the parser. -/
theorem await_reads {k : ℕ} {ts : List Token} {r : Except ParseError Expr}
    (h : ReadsAt others 12 k ts r) :
    ReadsAt others 12 k (.ident "await" :: ts) (r.bind fun e => .ok (.await e)) := by
  intro rest fuel depth hrest hfuel hdepth
  obtain ⟨fuel, rfl⟩ : ∃ n, fuel = n + 1 := ⟨fuel - 1, by simp [slack] at hfuel; omega⟩
  have hn : parseUnary others fuel depth (ts ++ rest) = result r rest :=
    h rest fuel depth hrest (by simp [slack] at hfuel ⊢; omega) hdepth
  show parseUnary others (fuel + 1) depth (.ident "await" :: (ts ++ rest)) = _
  simp only [parseUnary, hn]
  cases r <;> rfl

theorem power_reads {k m : ℕ} {ts us : List Token} {l r : Except ParseError Expr}
    (hl : ReadsAt others 15 k ts l) (ho : ∀ rest, 13 ≤ opens (ts ++ rest))
    (hr : ReadsAt others 12 m us r) :
    ReadsAt others 12 (max k m) (ts ++ .starStar :: us)
      (l.bind fun base => r.bind fun exp => .ok (.binary base .pow exp)) := by
  intro rest fuel depth hrest hfuel hdepth
  obtain ⟨fuel, rfl⟩ : ∃ n, fuel = n + 1 := ⟨fuel - 1, by simp [slack] at hfuel; omega⟩
  simp only [List.length_append, List.length_cons, slack] at hfuel
  have hbase : parsePostfix others (parseExprInner others fuel) depth
      (ts ++ .starStar :: (us ++ rest)) = result l (.starStar :: (us ++ rest)) :=
    hl _ fuel depth (by simp [continues, cmpOp]) (by simp [slack]; omega) (by omega)
  have hexp : parseUnary others fuel depth (us ++ rest) = result r rest :=
    hr rest fuel depth hrest (by simp [slack]; omega) (by omega)
  show parseUnary others (fuel + 1) depth (ts ++ .starStar :: us ++ rest) = _
  rw [List.append_assoc, List.cons_append, parseUnary_pass (ho _)]
  cases l with
  | error m => simp [parsePower, hbase, bind, Except.bind]
  | ok base =>
    simp only [parsePower, hbase, result_ok, bind, Except.bind, hexp]
    cases r <;> rfl

/-! ## Conditional expressions, `lambda` and assignment expressions -/

theorem ternary_reads {k m n : ℕ} {ts us vs : List Token} {t c e : Except ParseError Expr}
    (ht : ReadsAt others 2 k ts t) (ho : ∀ rest, 2 ≤ opens (ts ++ rest))
    (hc : ReadsAt others 2 m us c) (he : ReadsAt others 1 n vs e) :
    ReadsAt others 1 (max k (max m (n + 1))) (ts ++ .if :: (us ++ .else :: vs))
      (t.bind fun t => c.bind fun c => e.bind fun e => .ok (.ternary c t e)) := by
  intro rest fuel depth hrest hfuel hdepth
  obtain ⟨fuel, rfl⟩ : ∃ n, fuel = n + 1 := ⟨fuel - 1, by simp [slack] at hfuel; omega⟩
  have hfuel : 3 * (ts.length + (us.length + (vs.length + 1) + 1)) + 3 ≤ fuel + 1 := by
    simpa [slack] using hfuel
  have hthen : parseOr (parseNot others fuel depth)
      (ts ++ .if :: (us ++ .else :: (vs ++ rest))) = result t (.if :: (us ++ .else :: (vs ++ rest))) :=
    ht _ fuel depth (by simp [continues, cmpOp]) (by simp [slack]; omega) (by omega)
  have hcond : parseOr (parseNot others fuel depth) (us ++ .else :: (vs ++ rest)) =
      result c (.else :: (vs ++ rest)) :=
    hc _ fuel depth (by simp [continues, cmpOp]) (by simp [slack]; omega) (by omega)
  have helse : parseExprInner others fuel (depth + 1) (vs ++ rest) = result e rest :=
    he rest fuel (depth + 1) hrest (by simp [slack]; omega) (by omega)
  have hexpr : parseExpr (parseExprInner others fuel) depth (vs ++ rest) = result e rest := by
    rw [parseExpr_inner (k := n) (by omega), helse]
  show parseExprInner others (fuel + 1) depth (ts ++ .if :: (us ++ .else :: vs) ++ rest) = _
  simp only [List.append_assoc, List.cons_append]
  rw [parseExprInner_pass (ho _), hthen, bind_result]
  simp only [assignmentOrTernary, hcond, bind]
  cases t <;> cases c <;> try rfl
  simp only [result_ok, Except.bind, expect, if_true, hexpr]
  cases e <;> rfl

theorem lambda_reads {k : ℕ} {ts : List Token} {r : Except ParseError Expr}
    (h : ReadsAt others 1 k ts r) :
    ReadsAt others 1 (k + 1) (.lambda :: .colon :: ts) (r.bind fun e => .ok (.lambda e)) := by
  intro rest fuel depth hrest hfuel hdepth
  obtain ⟨fuel, rfl⟩ : ∃ n, fuel = n + 1 := ⟨fuel - 1, by simp [slack] at hfuel; omega⟩
  have hbody : parseExprInner others fuel (depth + 1) (ts ++ rest) = result r rest :=
    h rest fuel (depth + 1) hrest (by simp [slack] at hfuel ⊢; omega) (by omega)
  show parseExprInner others (fuel + 1) depth (.lambda :: .colon :: (ts ++ rest)) = _
  simp only [parseExprInner, parseExpr_inner hdepth, hbody, bind]
  cases r <;> rfl

theorem named_reads {k : ℕ} {name : String} {ts : List Token} {r : Except ParseError Expr}
    (hname : name ≠ "await") (h : ReadsAt others 1 k ts r) :
    ReadsAt others 1 (k + 1) (.ident name :: .walrus :: ts)
      (if name = "__debug__" then .error (.parse "cannot assign to __debug__")
        else r.bind fun e => .ok (.named name e)) := by
  intro rest fuel depth hrest hfuel hdepth
  obtain ⟨fuel, rfl⟩ : ∃ n, fuel = n + 1 := ⟨fuel - 1, by simp [slack] at hfuel; omega⟩
  have hfuel : 3 * (ts.length + 2) + 3 ≤ fuel + 1 := by simpa [slack] using hfuel
  have hopens : ∀ rest, 15 ≤ opens ([Token.ident name] ++ rest) := by
    intro rest
    show 15 ≤ opens (.ident name :: rest)
    simp [opens]
  have hvar : parseOr (parseNot others fuel depth) (.ident name :: .walrus :: (ts ++ rest)) =
      .ok (.var name, .walrus :: (ts ++ rest)) :=
    (((var_reads name).unary fun _ => Nat.le_trans (by decide) (hopens _)).down (by decide)
      (by decide) (Nat.le_refl _) fun _ => Nat.le_trans (by decide) (hopens _) :
        ReadsAt others 2 0 _ _) _ fuel depth (by simp [continues, cmpOp]) (by simp [slack]; omega)
          (by omega)
  have hvalue : parseExprInner others fuel (depth + 1) (ts ++ rest) = result r rest :=
    h rest fuel (depth + 1) hrest (by simp [slack]; omega) (by omega)
  show parseExprInner others (fuel + 1) depth (.ident name :: .walrus :: (ts ++ rest)) = _
  have hhead : 2 ≤ opens (.ident name :: .walrus :: (ts ++ rest)) :=
    Nat.le_trans (by decide) (hopens _)
  rw [parseExprInner_pass hhead, hvar]
  simp only [Except.bind, assignmentOrTernary, parseExpr_inner hdepth, hvalue, bind]
  split_ifs with hdebug
  · rfl
  · cases r <;> rfl

/-! ## Loops and climbs -/

/-- At the loop of a left-associative level, when operators of the level may follow. -/
def ReachesAt (others : Productions) (p k : ℕ) (ts : List Token) (r : Except ParseError Expr) :
    Prop :=
  ∀ rest fuel depth, continues rest ≤ p → 3 * ts.length + slack p ≤ fuel →
    depth + k ≤ maxExprDepth →
      Reaches .outOfFuel .binary (leftOp p) (parserAt others (p + 1) fuel depth) ts r rest

theorem ReachesAt.reads {p k : ℕ} {ts : List Token} {r : Except ParseError Expr} (hp : IsLeft p)
    (h : ReachesAt others p k ts r) : ReadsAt others p k ts r := by
  intro rest fuel depth hrest hfuel hdepth
  rw [parserAt_left hp]
  exact (h rest fuel depth (by omega) hfuel hdepth).reads (leftOp_none hrest)

theorem ReadsAt.reaches {p k : ℕ} {ts : List Token} {r : Except ParseError Expr}
    (h : ReadsAt others (p + 1) k ts r) : ReachesAt others p k ts r :=
  fun rest fuel depth hrest hfuel hdepth => Reaches.first
    (h rest fuel depth (by omega) (by have := slack_succ p; omega) hdepth)

/-- One more operator of the level and its right operand. -/
theorem ReachesAt.item {p k m : ℕ} {t : Token} {op : BinaryOp} {ts us : List Token}
    {l r : Except ParseError Expr} (ht : leftOp p t = some op) (hl : ReachesAt others p k ts l)
    (hr : ReadsAt others (p + 1) m us r) :
    ReachesAt others p (max k m) (ts ++ t :: us)
      (l.bind fun a => r.bind fun b => .ok (.binary a op b)) := by
  intro rest fuel depth hrest hfuel hdepth
  simp only [List.length_append, List.length_cons] at hfuel
  have hs := slack_succ p
  exact (hl (t :: (us ++ rest)) fuel depth (Nat.le_of_eq (leftOp_continues ht _))
    (by omega) (by omega)).item ht (hr rest fuel depth (by omega) (by omega) (by omega))

/-- The levels that have a function: all but those of `**` and `await`. -/
def HasFunction (p : ℕ) : Prop := 1 ≤ p ∧ p ≤ 12 ∨ p = 15

/-- From one level with a function to any other above it on the ladder. -/
theorem ReadsAt.climb {p q k : ℕ} {ts : List Token} {r : Except ParseError Expr}
    (hp : HasFunction p) (hq : HasFunction q) (hpq : p ≤ q) (h : ReadsAt others q k ts r)
    (ho : ∀ rest, q ≤ opens (ts ++ rest)) : ReadsAt others p k ts r := by
  rcases hq with hq | rfl
  · exact h.down (by rcases hp with hp | hp <;> omega) hpq hq.2 ho
  · rcases hp with hp | rfl
    · exact (h.unary fun rest => by have := ho rest; omega).down hp.1 hp.2 (Nat.le_refl _)
        fun rest => by have := ho rest; omega
    · exact h

end

end Pyrust.OperatorLevels
