import Pyrust.LeftAssociation
import Pyrust.OperatorSyntax

/-!
# The operator ladder of the parser

`parse_expr` and the functions below it, each taking the parser of the level
beneath as an argument; the three that call themselves are tied together at the
end on a fuel. The productions the ladder only passes through (calls, strings,
displays, tuples, generators, `yield`, parameters of a `lambda`) are parameters.
-/

set_option autoImplicit false

namespace Pyrust.OperatorParser
open Pyrust.OperatorSyntax Pyrust.LeftAssociation

/-- `PyError::Parse` with its text, the error of `expect`, and the end of the fuel. -/
inductive ParseError
  | parse (message : String)
  | expected (token : Token) (found : Option Token)
  | outOfFuel
  deriving DecidableEq, Repr

abbrev Parser := Parse Token Expr ParseError

def maxExprDepth : ℕ := 201

/-- The productions outside the ladder, at a given `expr_depth`. -/
structure Productions where
  /-- `yield` and what follows it. -/
  yieldExpr : ℕ → Parser
  /-- A `lambda` with parameters. -/
  lambdaParams : ℕ → Parser
  /-- A primary that is no number, name or parenthesis. -/
  atom : ℕ → Parser
  /-- After `(`, when `)` or `*` comes next. -/
  tupleDisplay : ℕ → Parser
  /-- After `(` and an expression, when `for`, `async for` or a comma comes next. -/
  tupleOrGenerator : ℕ → Expr → Parser
  /-- After a primary, when `(`, `[` or `.` comes next. -/
  trailers : ℕ → Expr → Parser

/-- The productions of a source that uses none of them. -/
def refusing : Productions where
  yieldExpr _ _ := .error (.parse "no yield")
  lambdaParams _ _ := .error (.parse "no parameters")
  atom _ _ := .error (.parse "no atom")
  tupleDisplay _ _ := .error (.parse "no tuple")
  tupleOrGenerator _ _ _ := .error (.parse "no generator")
  trailers _ _ _ := .error (.parse "no trailer")

/-- `expect(token)`. -/
def expect (token : Token) : List Token → Except ParseError (List Token)
  | [] => .error (.expected token none)
  | t :: ts => if t = token then .ok ts else .error (.expected token (some t))

/-! ## The left-associative levels -/

def orOp : Token → Option BinaryOp
  | .or => some .or
  | _ => none

def andOp : Token → Option BinaryOp
  | .and => some .and
  | _ => none

def bitorOp : Token → Option BinaryOp
  | .pipe => some .bitOr
  | _ => none

def bitxorOp : Token → Option BinaryOp
  | .caret => some .bitXor
  | _ => none

def bitandOp : Token → Option BinaryOp
  | .ampersand => some .bitAnd
  | _ => none

def shiftOp : Token → Option BinaryOp
  | .lShift => some .lShift
  | .rShift => some .rShift
  | _ => none

def termOp : Token → Option BinaryOp
  | .plus => some .add
  | .minus => some .sub
  | _ => none

def factorOp : Token → Option BinaryOp
  | .star => some .mul
  | .at => some .matMul
  | .slash => some .div
  | .slashSlash => some .floorDiv
  | .percent => some .mod
  | _ => none

/-- The `while` loop that the left-associative levels share. -/
def leftAssoc (op : Token → Option BinaryOp) (next : Parser) : Parser :=
  level .outOfFuel .binary op next

def parseFactor (parseUnary : Parser) : Parser := leftAssoc factorOp parseUnary

def parseTerm (parseUnary : Parser) : Parser := leftAssoc termOp (parseFactor parseUnary)

def parseShift (parseUnary : Parser) : Parser := leftAssoc shiftOp (parseTerm parseUnary)

def parseBitand (parseUnary : Parser) : Parser := leftAssoc bitandOp (parseShift parseUnary)

def parseBitxor (parseUnary : Parser) : Parser := leftAssoc bitxorOp (parseBitand parseUnary)

def parseBitor (parseUnary : Parser) : Parser := leftAssoc bitorOp (parseBitxor parseUnary)

/-! ## Comparisons -/

/-- The operator of a comparison that the tokens begin with, and the tokens after it. -/
def cmpOp : List Token → Option (CmpOp × List Token)
  | .eq :: ts => some (.eq, ts)
  | .ne :: ts => some (.ne, ts)
  | .lt :: ts => some (.lt, ts)
  | .le :: ts => some (.le, ts)
  | .gt :: ts => some (.gt, ts)
  | .ge :: ts => some (.ge, ts)
  | .in :: ts => some (.isIn, ts)
  | .not :: .in :: ts => some (.notIn, ts)
  | .is :: .not :: ts => some (.isNot, ts)
  | .is :: ts => some (.is, ts)
  | _ => none

/-- The loop that collects `ops`. -/
def comparisonLoop (parseBitor : Parser) :
    ℕ → List (CmpOp × Expr) → List Token → Except ParseError (List (CmpOp × Expr) × List Token)
  | 0, _, _ => .error .outOfFuel
  | fuel + 1, ops, ts =>
    match cmpOp ts with
    | none => .ok (ops, ts)
    | some (op, ts) => do
      let (right, ts) ← parseBitor ts
      comparisonLoop parseBitor fuel (ops ++ [(op, right)]) ts

/-- No operator leaves the operand, one makes a `Binary`, more make a `Compare`. -/
def comparison (left : Expr) : List (CmpOp × Expr) → Expr
  | [] => left
  | [(op, right)] => .binary left op.toBinary right
  | ops => .compare left ops

def parseComparison (parseUnary : Parser) : Parser := fun ts => do
  let (left, ts) ← parseBitor parseUnary ts
  let (ops, ts) ← comparisonLoop (parseBitor parseUnary) (ts.length + 1) [] ts
  .ok (comparison left ops, ts)

def parseAnd (parseNot : Parser) : Parser := leftAssoc andOp parseNot

def parseOr (parseNot : Parser) : Parser := leftAssoc orOp (parseAnd parseNot)

/-! ## Primaries and powers -/

section
variable (others : Productions)

/-- `parse_expr`, around `parse_expr_inner` at the depth one further in. -/
def parseExpr (parseExprInner : ℕ → Parser) (depth : ℕ) : Parser := fun ts =>
  if depth + 1 > maxExprDepth then
    .error (.parse "too many nested parentheses")
  else
    parseExprInner (depth + 1) ts

def parsePrimary (parseExprInner : ℕ → Parser) (depth : ℕ) : Parser
  | .int v :: ts => .ok (.int v, ts)
  | .bigInt digits :: ts => .ok (.bigInt digits, ts)
  | .ident name :: ts => .ok (.var name, ts)
  | .lParen :: .rParen :: ts => others.tupleDisplay depth (.rParen :: ts)
  | .lParen :: .star :: ts => others.tupleDisplay depth (.star :: ts)
  | .lParen :: ts => do
    let (first, ts) ← parseExpr parseExprInner depth ts
    match ts with
    | .for :: _ | .ident "async" :: .for :: _ | .comma :: _ =>
      others.tupleOrGenerator depth first ts
    | _ => do
      let ts ← expect .rParen ts
      .ok (first, ts)
  | ts => others.atom depth ts

def parsePostfix (parseExprInner : ℕ → Parser) (depth : ℕ) : Parser := fun ts => do
  let (expr, ts) ← parsePrimary others parseExprInner depth ts
  match ts with
  | .lParen :: _ | .lBracket :: _ | .dot :: _ => others.trailers depth expr ts
  | _ => .ok (expr, ts)

/-- The exponent is a unary expression, so `**` groups to the right. -/
def parsePower (parseUnary : Parser) (parseExprInner : ℕ → Parser) (depth : ℕ) : Parser :=
  fun ts => do
    let (base, ts) ← parsePostfix others parseExprInner depth ts
    match ts with
    | .starStar :: ts => do
      let (exp, ts) ← parseUnary ts
      .ok (.binary base .pow exp, ts)
    | _ => .ok (base, ts)

/-- The end of `parse_expr_inner`, after its first operand. -/
def assignmentOrTernary (parseOr parseExpr : Parser) (expr : Expr) : Parser
  | .walrus :: ts =>
    match expr with
    | .var name =>
      if name = "__debug__" then
        .error (.parse "cannot assign to __debug__")
      else do
        let (value, ts) ← parseExpr ts
        .ok (.named name value, ts)
    | _ => .error (.parse "walrus operator ':=' requires a name on the left-hand side")
  | .if :: ts => do
    let (cond, ts) ← parseOr ts
    let ts ← expect .else ts
    let (elseBranch, ts) ← parseExpr ts
    .ok (.ternary cond expr elseBranch, ts)
  | ts => .ok (expr, ts)

/-! ## The functions that call themselves -/

mutual
def parseUnary : ℕ → ℕ → Parser
  | 0, _, _ => .error .outOfFuel
  | fuel + 1, depth, ts =>
    match ts with
    | .minus :: ts => do
      let (expr, ts) ← parseUnary fuel depth ts
      .ok (.unary .neg expr, ts)
    | .tilde :: ts => do
      let (expr, ts) ← parseUnary fuel depth ts
      .ok (.unary .bitNot expr, ts)
    | .plus :: ts => do
      let (expr, ts) ← parseUnary fuel depth ts
      .ok (.unary .pos expr, ts)
    | .ident "await" :: ts => do
      -- the operand is a whole unary expression, with its `**`
      let (expr, ts) ← parseUnary fuel depth ts
      .ok (.await expr, ts)
    | ts => parsePower others (parseUnary fuel depth) (parseExprInner fuel) depth ts

def parseNot : ℕ → ℕ → Parser
  | 0, _, _ => .error .outOfFuel
  | fuel + 1, depth, ts =>
    match ts with
    | .not :: ts => do
      let (expr, ts) ← parseNot fuel depth ts
      .ok (.unary .not expr, ts)
    | ts => parseComparison (parseUnary fuel depth) ts

def parseExprInner : ℕ → ℕ → Parser
  | 0, _, _ => .error .outOfFuel
  | fuel + 1, depth, ts =>
    match ts with
    | .yield :: ts => others.yieldExpr depth ts
    | .lambda :: .colon :: ts => do
      let (body, ts) ← parseExpr (parseExprInner fuel) depth ts
      .ok (.lambda body, ts)
    | .lambda :: ts => others.lambdaParams depth ts
    | ts => do
      let (expr, ts) ← parseOr (parseNot fuel depth) ts
      assignmentOrTernary (parseOr (parseNot fuel depth)) (parseExpr (parseExprInner fuel) depth)
        expr ts
end

/-- `parse_expr` at a depth; every turn of the three functions that reads no
token leads to one further down the ladder, so three steps a token are enough. -/
def parse (depth : ℕ) : Parser := fun ts =>
  parseExpr (parseExprInner others (3 * ts.length + 3)) depth ts

end

end Pyrust.OperatorParser
