import Mathlib.Data.List.Basic
import Mathlib.Tactic.Common

/-!
# Expressions with operators, their tokens and their text

The trees the operator ladder of the parser builds, without their spans, and
the text of a tree: the tokens of the expression with the parentheses that
Python's table of precedence and associativity asks for, and no others.
-/

set_option autoImplicit false

namespace Pyrust.OperatorSyntax

inductive UnaryOp
  | neg | not | bitNot | pos
  deriving DecidableEq, Repr

inductive BinaryOp
  | add | sub | mul | matMul | div | floorDiv | mod | pow
  | bitAnd | bitOr | bitXor | lShift | rShift
  | eq | ne | lt | le | gt | ge
  | and | or | isIn | notIn | is | isNot
  deriving DecidableEq, Repr

inductive CmpOp
  | eq | ne | lt | le | gt | ge | isIn | notIn | is | isNot
  deriving DecidableEq, Repr

/-- `impl From<CmpOp> for BinaryOp`. -/
def CmpOp.toBinary : CmpOp → BinaryOp
  | .eq => .eq | .ne => .ne | .lt => .lt | .le => .le | .gt => .gt | .ge => .ge
  | .isIn => .isIn | .notIn => .notIn | .is => .is | .isNot => .isNot

/-- The tokens the ladder tells apart. The lexer gives every keyword but
`await` and `async` a token of its own; `other` is any token that no function of
the ladder looks at. -/
inductive Token
  | int (v : ℕ) | bigInt (digits : String) | ident (name : String)
  | plus | minus | star | starStar | slash | slashSlash | percent | at
  | ampersand | pipe | caret | tilde | lShift | rShift
  | lParen | rParen | lBracket | comma | colon | walrus | dot
  | eq | ne | lt | le | gt | ge
  | and | or | not | if | else | for | in | is | lambda | yield
  | other (tag : ℕ)
  deriving DecidableEq, Repr

/-- `Expr` without its spans. An integer literal carries no sign; `other` is a
node that another part of the parser builds. -/
inductive Expr
  | int (v : ℕ)
  | bigInt (digits : String)
  | var (name : String)
  | unary (op : UnaryOp) (expr : Expr)
  | await (expr : Expr)
  | binary (left : Expr) (op : BinaryOp) (right : Expr)
  | compare (left : Expr) (ops : List (CmpOp × Expr))
  | ternary (cond thenBranch elseBranch : Expr)
  | lambda (body : Expr)
  | named (target : String) (value : Expr)
  | other (node : ℕ)
  deriving Repr

/-! ## Python's table -/

def UnaryOp.token : UnaryOp → Token
  | .neg => .minus | .not => .not | .bitNot => .tilde | .pos => .plus

def CmpOp.tokens : CmpOp → List Token
  | .eq => [.eq] | .ne => [.ne] | .lt => [.lt] | .le => [.le] | .gt => [.gt] | .ge => [.ge]
  | .isIn => [.in] | .notIn => [.not, .in] | .is => [.is] | .isNot => [.is, .not]

def BinaryOp.tokens : BinaryOp → List Token
  | .add => [.plus] | .sub => [.minus] | .mul => [.star] | .matMul => [.at] | .div => [.slash]
  | .floorDiv => [.slashSlash] | .mod => [.percent] | .pow => [.starStar]
  | .bitAnd => [.ampersand] | .bitOr => [.pipe] | .bitXor => [.caret]
  | .lShift => [.lShift] | .rShift => [.rShift]
  | .and => [.and] | .or => [.or]
  | .eq => [.eq] | .ne => [.ne] | .lt => [.lt] | .le => [.le] | .gt => [.gt] | .ge => [.ge]
  | .isIn => [.in] | .notIn => [.not, .in] | .is => [.is] | .isNot => [.is, .not]

/-- How tightly an operator binds, from `or` at 2 up to `**` at 13. -/
def BinaryOp.level : BinaryOp → ℕ
  | .or => 2
  | .and => 3
  | .eq | .ne | .lt | .le | .gt | .ge | .isIn | .notIn | .is | .isNot => 5
  | .bitOr => 6
  | .bitXor => 7
  | .bitAnd => 8
  | .lShift | .rShift => 9
  | .add | .sub => 10
  | .mul | .matMul | .div | .floorDiv | .mod => 11
  | .pow => 13

/-- The level a left operand stands at without parentheses: operators group
from left to right, a comparison takes no comparison, `**` takes an `await`. -/
def BinaryOp.leftLevel : BinaryOp → ℕ
  | .pow => 14
  | op => if op.level = 5 then 6 else op.level

/-- The level of a right operand; that of `**` may be a unary expression. -/
def BinaryOp.rightLevel : BinaryOp → ℕ
  | .pow => 12
  | op => op.level + 1

def UnaryOp.level : UnaryOp → ℕ
  | .not => 4
  | .neg | .bitNot | .pos => 12

/-- How tightly an expression binds: assignment expressions least, then `lambda`
and conditional expressions, the operators, `await`, and names and literals. -/
def Expr.level : Expr → ℕ
  | .named _ _ => 0
  | .lambda _ | .ternary _ _ _ => 1
  | .unary op _ => op.level
  | .binary _ op _ => op.level
  | .compare _ _ => 5
  | .await _ => 14
  | .int _ | .bigInt _ | .var _ | .other _ => 15

/-- `e` where an expression of level `p` is expected. -/
def wrap (p : ℕ) (e : Expr) (ts : List Token) : List Token :=
  if e.level < p then .lParen :: (ts ++ [Token.rParen]) else ts

mutual
/-- The tokens of an expression; an operand that binds too loosely for its
place is parenthesised. -/
def text : Expr → List Token
  | .int v => [.int v]
  | .bigInt digits => [.bigInt digits]
  | .var name => [.ident name]
  | .unary op e => op.token :: wrap op.level e (text e)
  | .await e => .ident "await" :: wrap 15 e (text e)
  | .binary l op r =>
    wrap op.leftLevel l (text l) ++ (op.tokens ++ wrap op.rightLevel r (text r))
  | .compare l ops => wrap 6 l (text l) ++ linkTexts ops
  | .ternary cond thenBranch elseBranch =>
    wrap 2 thenBranch (text thenBranch) ++ .if :: (wrap 2 cond (text cond) ++
      .else :: wrap 1 elseBranch (text elseBranch))
  | .lambda body => .lambda :: .colon :: wrap 1 body (text body)
  | .named target value => .ident target :: .walrus :: wrap 1 value (text value)
  | .other _ => []

/-- The links `op e` of a chain of comparisons. -/
def linkTexts : List (CmpOp × Expr) → List Token
  | [] => []
  | (op, e) :: ops => op.tokens ++ (wrap 6 e (text e) ++ linkTexts ops)
end

/-- An expression where one of level `p` is expected; `operand 1 e` is the text
of `e` by itself, with an assignment expression in its parentheses. -/
def operand (p : ℕ) (e : Expr) : List Token := wrap p e (text e)

/-- The nesting of an expression of nesting `k` that stands where level `p` is expected. -/
def nestingAt (p : ℕ) (e : Expr) (k : ℕ) : ℕ :=
  if e.level < p then k + 1 else k

mutual
/-- How many calls of `parse_expr` are open at once inside the text of an
expression: one for each parenthesis, and one for the body of a `lambda`, the
`else` branch of a conditional and the value of an assignment expression. -/
def nesting : Expr → ℕ
  | .unary op e => nestingAt op.level e (nesting e)
  | .await e => nestingAt 15 e (nesting e)
  | .binary l op r =>
    max (nestingAt op.leftLevel l (nesting l)) (nestingAt op.rightLevel r (nesting r))
  | .compare l ops => max (nestingAt 6 l (nesting l)) (linkNesting ops)
  | .ternary cond thenBranch elseBranch =>
    max (nestingAt 2 thenBranch (nesting thenBranch)) (max (nestingAt 2 cond (nesting cond))
      (nestingAt 1 elseBranch (nesting elseBranch) + 1))
  | .lambda body => nestingAt 1 body (nesting body) + 1
  | .named _ value => nestingAt 1 value (nesting value) + 1
  | .int _ | .bigInt _ | .var _ | .other _ => 0

def linkNesting : List (CmpOp × Expr) → ℕ
  | [] => 0
  | (_, e) :: ops => max (nestingAt 6 e (nesting e)) (linkNesting ops)
end

end Pyrust.OperatorSyntax
