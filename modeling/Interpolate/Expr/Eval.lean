import Interpolate.Expr
import Interpolate.Value.Bitwise

/-!
# What expressions mean

* **`Context`** — the constants and functions that expressions may use;
* **`UnaryOp.apply`**, **`BinaryOp.apply`** — the operators on values;
* **`Expr.eval`** — the value of an expression in a context, or the first error from left to right.
-/

namespace Interpolate

/-- The constants and functions that expressions may use. -/
structure Context where
  /-- the value of a constant, if there is one of that name -/
  constant? : (name : String) → Option Value
  /-- the outcome of a function for arguments, if there is one of that name -/
  call? : (name : String) → (arguments : List Value) → Option (Except EvalError Value)

/-- The value of an operator in front of a value. -/
def UnaryOp.apply : UnaryOp → Value → Except EvalError Value
  | .neg, v => v.neg
  | .pos, v => .ok v.pos
  | .bitNot, v => v.bitNot
  | .not, v => .ok (.bool !v.truth)

/-- The value of an operator between two values. -/
def BinaryOp.apply : BinaryOp → Value → Value → Except EvalError Value
  | .add => Value.add
  | .sub => Value.sub
  | .mul => Value.mul
  | .div => Value.div
  | .floorDiv => Value.floorDiv
  | .rem => Value.rem
  | .pow => Value.pow
  | .bitAnd => Value.bitAnd
  | .bitOr => Value.bitOr
  | .bitXor => Value.bitXor
  | .shiftLeft => Value.shiftLeft
  | .shiftRight => Value.shiftRight

namespace Expr

mutual

/-- The value of an expression. `and` and `or` give the value that decides them; a chain of comparisons stops
at the first link that does not hold. -/
def eval (context : Context) : Expr → Except EvalError Value
  | .literal v => .ok v
  | .name n =>
    match context.constant? n with
    | some v => .ok v
    | none => .error (.undefined n)
  | .unary op operand => do op.apply (← operand.eval context)
  | .binary op left right => do
    let v ← left.eval context
    let w ← right.eval context
    op.apply v w
  | .compare first links => do
    let v ← first.eval context
    evalLinks context v links
  | .and left right => do
    let v ← left.eval context
    if v.truth then right.eval context else .ok v
  | .or left right => do
    let v ← left.eval context
    if v.truth then .ok v else right.eval context
  | .call n arguments => do
    let vs ← evalAll context arguments
    match context.call? n vs with
    | some outcome => outcome
    | none => .error (.undefined n)

/-- Whether the links of a chain hold, after an operand with the value `v`. -/
def evalLinks (context : Context) (v : Value) : List (Relation × Expr) → Except EvalError Value
  | [] => .ok (.bool true)
  | (r, operand) :: links => do
    let w ← operand.eval context
    if r.holds v w then evalLinks context w links else .ok (.bool false)

/-- The values of several expressions. -/
def evalAll (context : Context) : List Expr → Except EvalError (List Value)
  | [] => .ok []
  | e :: es => do
    let v ← e.eval context
    let vs ← evalAll context es
    return v :: vs

end

end Expr

end Interpolate
