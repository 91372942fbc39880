import Tabletop.Modifier
import Tabletop.Reference

/-!
# Expressions

The tree of a dice expression, and the text it is written as. Written text holds no more spaces than
those around binary operators and between modifiers that would cling together.
-/

namespace Tabletop

/-- The signs. -/
inductive UnaryOp where
  | plus
  | minus
deriving DecidableEq, Repr, Inhabited

/-- How the sign is written. -/
def UnaryOp.symbol : UnaryOp → String
  | plus => "+"
  | minus => "-"

/-- The operators between two operands. -/
inductive BinaryOp where
  | add
  | sub
  | mul
  | div
deriving DecidableEq, Repr, Inhabited

namespace BinaryOp

/-- How the operator is written. -/
def symbol : BinaryOp → String
  | add => "+"
  | sub => "-"
  | mul => "*"
  | div => "/"

/-- The operator binds no tighter than `+`. -/
def isSum : BinaryOp → Bool
  | add | sub => true
  | mul | div => false

/-- The sign that is written like the operator. -/
def sign? : BinaryOp → Option UnaryOp
  | add => some .plus
  | sub => some .minus
  | mul | div => none

end BinaryOp

/-- An expression. A group stands for the parentheses around its inner expression. -/
inductive Expr where
  | literal (n : Int64)
  | reference (r : Reference)
  /-- `count` dice of `sides` faces, modified one modifier after the other. -/
  | dice (count sides : Expr) (modifiers : List Modifier)
  | group (inner : Expr)
  | unary (op : UnaryOp) (operand : Expr)
  | binary (op : BinaryOp) (left right : Expr)
deriving DecidableEq, Repr, Inhabited

namespace Expr

/-- The text of an expression. -/
def text : Expr → String
  | literal n => toString n
  | reference r => toString r
  | dice count sides modifiers => count.text ++ "d" ++ sides.text ++ Modifier.chainText modifiers
  | group e => "(" ++ e.text ++ ")"
  | unary op e => op.symbol ++ e.text
  | binary op l r => l.text ++ " " ++ op.symbol ++ " " ++ r.text

instance : ToString Expr := ⟨text⟩

end Expr

end Tabletop
