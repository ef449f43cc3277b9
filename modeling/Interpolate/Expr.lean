import Interpolate.Value.Order

/-!
# Expressions

The language of expressions: literals, names, the operators of arithmetic, of bits and of logic, chains of
comparisons and calls. Parentheses leave no trace in the tree.

* **`Expr`** — the trees, with their operators **`UnaryOp`** and **`BinaryOp`**;
* **`Expr.height`** — the number of nodes on the longest way down.
-/

namespace Interpolate

/-- An operator in front of its operand. -/
inductive UnaryOp where
  /-- `-` -/
  | neg
  /-- `+` -/
  | pos
  /-- `~` -/
  | bitNot
  /-- `not` -/
  | not
  deriving DecidableEq, Repr

/-- An operator that evaluates both of its operands. -/
inductive BinaryOp where
  /-- `+` -/
  | add
  /-- `-` -/
  | sub
  /-- `*` -/
  | mul
  /-- `/` -/
  | div
  /-- `//` -/
  | floorDiv
  /-- `%` -/
  | rem
  /-- `**` -/
  | pow
  /-- `&` -/
  | bitAnd
  /-- `|` -/
  | bitOr
  /-- `^` -/
  | bitXor
  /-- `<<` -/
  | shiftLeft
  /-- `>>` -/
  | shiftRight
  deriving DecidableEq, Repr

/-- An expression. -/
inductive Expr where
  /-- a value written out -/
  | literal (v : Value)
  /-- a constant -/
  | name (name : String)
  /-- an operator in front of an expression -/
  | unary (op : UnaryOp) (operand : Expr)
  /-- an operator between two expressions -/
  | binary (op : BinaryOp) (left right : Expr)
  /-- `a < b <= c …`: each link compares with the operand before it -/
  | compare (first : Expr) (links : List (Relation × Expr))
  /-- `and`, which looks at the right side only if the left side is true -/
  | and (left right : Expr)
  /-- `or`, which looks at the right side only if the left side is false -/
  | or (left right : Expr)
  /-- a function applied to arguments -/
  | call (name : String) (arguments : List Expr)

namespace Expr

mutual

/-- The number of nodes on the longest way from the root to a leaf. -/
def height : Expr → Nat
  | .literal _ => 1
  | .name _ => 1
  | .unary _ operand => operand.height + 1
  | .binary _ left right => max left.height right.height + 1
  | .compare first links => max first.height (heightOfLinks links) + 1
  | .and left right => max left.height right.height + 1
  | .or left right => max left.height right.height + 1
  | .call _ arguments => heightOfAll arguments + 1

/-- The greatest height among the operands of a chain. -/
def heightOfLinks : List (Relation × Expr) → Nat
  | [] => 0
  | (_, operand) :: links => max operand.height (heightOfLinks links)

/-- The greatest height in a list. -/
def heightOfAll : List Expr → Nat
  | [] => 0
  | e :: es => max e.height (heightOfAll es)

end

end Expr

end Interpolate
