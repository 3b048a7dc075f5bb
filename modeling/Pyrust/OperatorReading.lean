import Pyrust.OperatorParser

/-!
# What the ladder makes of a text

`reading e` is the tree the parser finds in the text of `e`. It differs from `e`
in two places: an assignment expression may not assign to `__debug__`, and
`await` takes a whole unary expression for its operand, so that the base of a
power loses its `await` to the power.
-/

set_option autoImplicit false

namespace Pyrust.OperatorReading
open Pyrust.OperatorSyntax Pyrust.OperatorParser Pyrust.LeftAssociation

mutual
/-- Names and literals, and every comparison chain of two links or more. The
keyword `await` is no name, though its token is an identifier. -/
def Valid : Expr → Prop
  | .int _ | .bigInt _ => True
  | .var name => name ≠ "await"
  | .unary _ e | .await e => Valid e
  | .binary l _ r => Valid l ∧ Valid r
  | .compare l ops => Valid l ∧ 2 ≤ ops.length ∧ ValidLinks ops
  | .ternary cond thenBranch elseBranch => Valid cond ∧ Valid thenBranch ∧ Valid elseBranch
  | .lambda body => Valid body
  | .named target value => target ≠ "await" ∧ Valid value
  | .other _ => False

def ValidLinks : List (CmpOp × Expr) → Prop
  | [] => True
  | (_, e) :: ops => Valid e ∧ ValidLinks ops
end

/-- The tree for `l op r` when `l` and `r` are read as `left` and `right`: an
`await` at the base of a power ends up around it. -/
def grouped : Expr → BinaryOp → Expr → Expr → Expr
  | .await _, .pow, .await base, right => .await (.binary base .pow right)
  | _, op, left, right => .binary left op right

mutual
/-- What the parser makes of the text of an expression. -/
def reading : Expr → Except ParseError Expr
  | .int v => .ok (.int v)
  | .bigInt digits => .ok (.bigInt digits)
  | .var name => .ok (.var name)
  | .unary op e => (reading e).bind fun e => .ok (.unary op e)
  | .await e => (reading e).bind fun e => .ok (.await e)
  | .binary l op r =>
    (reading l).bind fun left => (reading r).bind fun right => .ok (grouped l op left right)
  | .compare l ops => (reading l).bind fun l => (readLinks ops).bind fun ops => .ok (.compare l ops)
  | .ternary cond thenBranch elseBranch =>
    (reading thenBranch).bind fun thenBranch => (reading cond).bind fun cond =>
      (reading elseBranch).bind fun elseBranch => .ok (.ternary cond thenBranch elseBranch)
  | .lambda body => (reading body).bind fun body => .ok (.lambda body)
  | .named target value =>
    if target = "__debug__" then .error (.parse "cannot assign to __debug__")
    else (reading value).bind fun value => .ok (.named target value)
  | .other node => .ok (.other node)

def readLinks : List (CmpOp × Expr) → Except ParseError (List (CmpOp × Expr))
  | [] => .ok []
  | (op, e) :: ops => (reading e).bind fun e => (readLinks ops).bind fun ops => .ok ((op, e) :: ops)
end

mutual
/-- No `await` is the base of a power without parentheses of its own, and no
assignment expression assigns to `__debug__`. -/
def ReadBack : Expr → Prop
  | .binary (.await _) .pow _ => False
  | .binary l _ r => ReadBack l ∧ ReadBack r
  | .unary _ e | .await e => ReadBack e
  | .compare l ops => ReadBack l ∧ ReadBackLinks ops
  | .ternary cond thenBranch elseBranch =>
    ReadBack cond ∧ ReadBack thenBranch ∧ ReadBack elseBranch
  | .lambda body => ReadBack body
  | .named target value => target ≠ "__debug__" ∧ ReadBack value
  | .int _ | .bigInt _ | .var _ | .other _ => True

def ReadBackLinks : List (CmpOp × Expr) → Prop
  | [] => True
  | (_, e) :: ops => ReadBack e ∧ ReadBackLinks ops
end

theorem bind_eq_ok {α β : Type} {r : Except ParseError α} {f : α → Except ParseError β} {b : β} :
    r.bind f = .ok b ↔ ∃ a, r = .ok a ∧ f a = .ok b := by
  cases r <;> simp [Except.bind]

attribute [local simp] ReadBack in
/-- A power whose base is no `await` is read from its parts. -/
theorem readBack_binary {l r : Expr} {op : BinaryOp}
    (h : ∀ a, l = .await a → op ≠ .pow) :
    ReadBack (.binary l op r) ↔ ReadBack l ∧ ReadBack r := by
  cases l with
  | await a => cases op <;> first | exact absurd rfl (h _ rfl) | simp [ReadBack]
  | _ => simp [ReadBack]

theorem grouped_binary {l : Expr} {op : BinaryOp} (h : ∀ a, l = .await a → op ≠ .pow)
    (left right : Expr) : grouped l op left right = .binary left op right := by
  cases l with
  | await a => cases op <;> first | exact absurd rfl (h _ rfl) | rfl
  | _ => rfl

attribute [local simp] reading readLinks in
mutual
/-- The text of a tree is read back as that tree exactly when its base of a
power and its assignments allow it. -/
theorem reading_self : ∀ e : Expr, reading e = .ok e ↔ ReadBack e
  | .int _ => by simp [reading, ReadBack]
  | .bigInt _ => by simp [reading, ReadBack]
  | .var _ => by simp [reading, ReadBack]
  | .other _ => by simp [reading, ReadBack]
  | .unary op e => by simp [reading, ReadBack, bind_eq_ok, reading_self e]
  | .await e => by simp [reading, ReadBack, bind_eq_ok, reading_self e]
  | .lambda e => by simp [reading, ReadBack, bind_eq_ok, reading_self e]
  | .compare l ops => by
    simp [reading, ReadBack, bind_eq_ok, reading_self l, readLinks_self ops]
  | .ternary cond thenBranch elseBranch => by
    simp [reading, ReadBack, bind_eq_ok, reading_self cond, reading_self thenBranch,
      reading_self elseBranch]
    tauto
  | .named target value => by
    by_cases h : target = "__debug__" <;>
      simp [reading, ReadBack, bind_eq_ok, reading_self value, h]
  | .binary l op r => by
    by_cases h : ∀ a, l = .await a → op ≠ .pow
    · simp [reading, bind_eq_ok, grouped_binary h, readBack_binary h, reading_self l,
        reading_self r]
    · push Not at h
      obtain ⟨a, rfl, rfl⟩ := h
      simp [reading, ReadBack, bind_eq_ok, grouped]

theorem readLinks_self : ∀ ops, readLinks ops = .ok ops ↔ ReadBackLinks ops
  | [] => by simp [readLinks, ReadBackLinks]
  | (op, e) :: ops => by
    simp [readLinks, ReadBackLinks, bind_eq_ok, reading_self e, readLinks_self ops]
end

end Pyrust.OperatorReading
