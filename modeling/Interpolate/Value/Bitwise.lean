import Interpolate.Value.Arithmetic

/-!
# Bits of values

Integers are strings of 64 bits in two's complement. The operators on bits take integers only; between two
truth values, `&`, `|` and `^` are the operators of logic and give a truth value.

* **`intOperands`** — two integers, or the complaint that names both types;
* **`bitAnd`**, **`bitOr`**, **`bitXor`**, **`bitNot`** — bit by bit;
* **`shiftLeft`**, **`shiftRight`** — multiplication by a power of two, and division rounded down.
-/

namespace Interpolate

namespace Value

/-- Both operands as integers, for the operator written `symbol`. -/
def intOperands (symbol : String) (v w : Value) : Except EvalError (Int64 × Int64) :=
  match v.toInt64?, w.toInt64? with
  | some a, some b => .ok (a, b)
  | _, _ => .error (.operands symbol v.typeName w.typeName)

/-- An operator that acts on truth values by `onBools` and on integers by `onInts`. -/
def bitwise (symbol : String) (onBools : Bool → Bool → Bool) (onInts : Int64 → Int64 → Int64) :
    Value → Value → Except EvalError Value
  | .bool a, .bool b => .ok (.bool (onBools a b))
  | v, w => (intOperands symbol v w).map fun (a, b) => .int (onInts a b)

/-- The bits that both operands have. -/
def bitAnd : Value → Value → Except EvalError Value :=
  bitwise "&" (· && ·) (· &&& ·)

/-- The bits that an operand has. -/
def bitOr : Value → Value → Except EvalError Value :=
  bitwise "|" (· || ·) (· ||| ·)

/-- The bits that exactly one operand has. -/
def bitXor : Value → Value → Except EvalError Value :=
  bitwise "^" (· ^^ ·) (· ^^^ ·)

/-- The bits that the operand does not have. -/
def bitNot (v : Value) : Except EvalError Value :=
  match v.toInt64? with
  | some n => .ok (.int (~~~n))
  | none => .error (.inversion v.typeName)

/-- `a · 2 ^ b`. Zero can be shifted by any amount, another number by less than its width. -/
def shiftLeft (v w : Value) : Except EvalError Value := do
  let (a, b) ← intOperands "<<" v w
  if b.toInt < 0 then .error .negativeShift
  else if a.toInt = 0 then .ok (.int 0)
  else if 64 ≤ b.toInt then .error .overflow
  else fit (a.toInt <<< b.toInt.toNat)

/-- `a / 2 ^ b`, rounded down. Shifts by 63 and more leave the sign alone. -/
def shiftRight (v w : Value) : Except EvalError Value := do
  let (a, b) ← intOperands ">>" v w
  if b.toInt < 0 then .error .negativeShift
  else .ok (.int (Int64.ofInt (a.toInt >>> min b.toInt.toNat 63)))

end Value

end Interpolate
