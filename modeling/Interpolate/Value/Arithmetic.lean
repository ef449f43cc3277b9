import Interpolate.Value
import Interpolate.Value.Error

/-!
# Arithmetic on values

Two integers give an integer, computed without any bound and then **fitted** into 64 bits: a result that
does not fit is an error, never another number. As soon as one operand is a float, both are floats.

* **`fit`** — the check on every integer result;
* **`operands`** — the two kinds of arithmetic;
* **`add`**, **`sub`**, **`mul`**, **`div`**, **`floorDiv`**, **`rem`**, **`pow`**, **`neg`**, **`pos`** — the operators.
-/

namespace Interpolate

namespace Value

/-! ## The width of integers -/

/-- Whether a whole number is a 64-bit integer. -/
def Fits (n : Int) : Prop :=
  -0x8000000000000000 ≤ n ∧ n < 0x8000000000000000

instance (n : Int) : Decidable (Fits n) := inferInstanceAs (Decidable (_ ∧ _))

/-- The integer with the value `n`, if 64 bits are enough for it. -/
def fit (n : Int) : Except EvalError Value :=
  if Fits n then .ok (.int (Int64.ofInt n)) else .error .overflow

theorem fit_of_fits {n : Int} (h : Fits n) : fit n = .ok (.int (Int64.ofInt n)) :=
  if_pos h

theorem fit_of_not_fits {n : Int} (h : ¬ Fits n) : fit n = .error .overflow :=
  if_neg h

/-- A fitted number is kept as it is. -/
theorem toInt_ofInt_of_fits {n : Int} (h : Fits n) : (Int64.ofInt n).toInt = n :=
  Int64.toInt_ofInt_of_le h.1 h.2

/-- Every 64-bit integer fits. -/
theorem fits_toInt (n : Int64) : Fits n.toInt :=
  ⟨n.le_toInt, n.toInt_lt⟩

/-! ## Two kinds of arithmetic -/

/-- Two operands, after a choice of the arithmetic that joins them. -/
inductive Operands where
  /-- whole numbers -/
  | ints (a b : Int)
  /-- floats -/
  | floats (a b : Double)

/-- Integers, truth values among them, are joined as integers; a float makes both operands floats. -/
def operands (v w : Value) : Operands :=
  match v.toInt?, w.toInt? with
  | some a, some b => .ints a b
  | _, _ => .floats v.toDouble w.toDouble

/-! ## Sums and products -/

/-- The sum. -/
def add (v w : Value) : Except EvalError Value :=
  match operands v w with
  | .ints a b => fit (a + b)
  | .floats a b => .ok (.float (a + b))

/-- The difference. -/
def sub (v w : Value) : Except EvalError Value :=
  match operands v w with
  | .ints a b => fit (a - b)
  | .floats a b => .ok (.float (a - b))

/-- The product. -/
def mul (v w : Value) : Except EvalError Value :=
  match operands v w with
  | .ints a b => fit (a * b)
  | .floats a b => .ok (.float (a * b))

/-! ## Division -/

/-- The quotient, a float whatever the operands. -/
def div (v w : Value) : Except EvalError Value :=
  if w.toDouble.value == 0.0 then .error .division else .ok (.float (v.toDouble / w.toDouble))

/-- The quotient rounded down. -/
def floorDiv (v w : Value) : Except EvalError Value :=
  match operands v w with
  | .ints a b => if b = 0 then .error .integerDivision else fit (a.fdiv b)
  | .floats a b => if b.value == 0.0 then .error .floatFloorDivision else .ok (.float ((a / b).map Float.floor))

/-- The remainder of a division rounded down, for floats: the exact remainder, moved by one divisor where
its sign is not the divisor's. -/
def floatRem (a b : Float) : Float :=
  let r := Binary64.remainder a b
  if r != 0.0 && (decide (r < 0.0) != decide (b < 0.0)) then r + b else r

/-- The remainder of a division rounded down; it has the sign of the divisor. Integers have a remainder
only where they have a quotient. -/
def rem (v w : Value) : Except EvalError Value :=
  match operands v w with
  | .ints a b =>
    if b = 0 then .error .integerDivision
    else if Fits (a.fdiv b) then fit (a.fmod b)
    else .error .overflow
  | .floats a b =>
    if b.value == 0.0 then .error .floatRemainder else .ok (.float (Double.zipWith floatRem a b))

/-! ## Powers -/

/-- The greatest exponent that an integer can be raised to. -/
def exponentMax : Int := 0xFFFFFFFF

/-- A whole number to a power that is not negative. Exponents from 64 on are replaced by 64 or 65, of the
same parity: the powers of 0, 1 and -1 depend on nothing else, and all others do not fit. -/
def intPow (a : Int) (exponent : Nat) : Except EvalError Value :=
  fit (a.pow (if exponent < 64 then exponent else 64 + exponent % 2))

/-- A float to the power of another. -/
def floatPow (a b : Double) : Except EvalError Value :=
  if a.value == 0.0 && decide (b.value < 0.0) then .error .zeroToNegative
  else if (a.value.pow b.value).isNaN && !a.value.isNaN && !b.value.isNaN then .error .mathDomain
  else .ok (.float (a.pow b))

/-- The power. An integer to a negative power is a float. -/
def pow (v w : Value) : Except EvalError Value :=
  match operands v w with
  | .ints a b =>
    if b < 0 then
      if a = 0 then .error .zeroToNegative
      else .ok (.float (.ofFloat ((Float.ofInt a).pow (Float.ofInt b))))
    else if exponentMax < b then .error .overflow
    else intPow a b.toNat
  | .floats a b => floatPow a b

/-! ## Signs -/

/-- The negation. -/
def neg (v : Value) : Except EvalError Value :=
  match v with
  | .float x => .ok (.float (-x))
  | .int n => fit (-n.toInt)
  | .bool b => fit (-(ofTruth b).toInt)

/-- The number itself; a truth value becomes an integer. -/
def pos : Value → Value
  | .bool b => .int (ofTruth b)
  | v => v

end Value

end Interpolate
