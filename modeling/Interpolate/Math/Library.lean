import Interpolate.Expr.Eval
import Interpolate.Math.Elementary

/-!
# The mathematical library

The constants and functions that expressions can always use.

* **`functionNames`**, **`constantNames`** — what there is;
* **`constant?`** — the constants;
* **`Function`** — what a function does with its arguments, and **`function?`**, the functions by name;
* **`library`** — all of it as a context.

Functions of floats report a result that is not a number where no argument was one, and an infinite result of a
finite argument.
-/

namespace Interpolate

namespace Math

/-- The functions of the library. -/
def functionNames : List String :=
  ["acos", "acosh", "asin", "asinh", "atan", "atan2", "atanh", "ceil", "copysign", "cos", "cosh", "degrees",
   "exp", "expm1", "fabs", "factorial", "floor", "fmod", "gcd", "hypot", "isfinite", "isinf", "isnan", "ldexp",
   "log", "log10", "log1p", "log2", "pow", "radians", "sin", "sinh", "sqrt", "tan", "tanh", "trunc"]

/-- The constants of the library. -/
def constantNames : List String :=
  ["e", "inf", "nan", "pi", "tau"]

/-- The value of a constant. -/
def constant? : String → Option Value
  | "e" => some (.float (.ofFloat e))
  | "inf" => some (.float (.ofFloat infinity))
  | "nan" => some (.float .nan)
  | "pi" => some (.float (.ofFloat pi))
  | "tau" => some (.float (.ofFloat tau))
  | _ => none

/-! ## Checks -/

/-- A float result, unless it is not a number, or infinite, and the argument was a better one. -/
def checked (result argument : Double) : Except EvalError Value :=
  if result.value.isNaN && !argument.value.isNaN then .error .mathDomain
  else if result.value.isInf && argument.value.isFinite then .error .mathRange
  else .ok (.float result)

/-- A float above zero. -/
def positive (x : Double) : Except EvalError Float :=
  if 0.0 < x.value then .ok x.value else .error .mathDomain

/-- A whole number made from a float, if the float was finite and the number fits. -/
def toInteger : Option Int → Except EvalError Value
  | some n => Value.fit n
  | none => .error .notFinite

/-- The argument at a position, as an integer. -/
def integerArgument (name : String) (arguments : List Value) (position : Nat) :
    Except EvalError Int :=
  match arguments[position]? with
  | none => .error (.missing name position)
  | some v =>
    match v.toInt? with
    | some n => .ok n
    | none => .error (.integral name)

/-! ## Functions of whole numbers -/

/-- The product of the numbers from 1 to `n`. -/
def factorialOf : Nat → Nat
  | 0 => 1
  | n + 1 => (n + 1) * factorialOf n

/-- The factorial of the first argument. From 21 on it has more than 64 bits. -/
def factorial (name : String) (arguments : List Value) : Except EvalError Value := do
  let n ← integerArgument name arguments 0
  if n < 0 then .error .negativeFactorial
  else if 20 < n then .error .overflow
  else Value.fit (factorialOf n.toNat)

/-- Takes the greatest common divisor of `divisor` and all arguments, from left to right. Every step on the way
has to fit. -/
def gcdFrom (name : String) (divisor : Nat) : List Value → Except EvalError Value
  | [] => Value.fit divisor
  | v :: vs =>
    match v.toInt? with
    | none => .error (.integral name)
    | some n =>
      let next := Nat.gcd divisor n.natAbs
      if Value.Fits next then gcdFrom name next vs else .error .overflow

/-! ## Functions of floats -/

/-- What a function does with its arguments. -/
inductive Function where
  /-- takes one float to another, with checks on the result -/
  | float (f : Float → Float)
  /-- takes one float -/
  | unary (f : Double → Except EvalError Value)
  /-- takes two floats -/
  | binary (f : Double → Double → Except EvalError Value)
  /-- sees to its arguments itself -/
  | list (f : List Value → Except EvalError Value)

/-- The outcome of a function for arguments. -/
def Function.apply (name : String) : Function → List Value → Except EvalError Value
  | .float f, [v] => checked (v.toDouble.map f) v.toDouble
  | .float _, vs => .error (.arity name 1 vs.length)
  | .unary f, [v] => f v.toDouble
  | .unary _, vs => .error (.arity name 1 vs.length)
  | .binary f, [v, w] => f v.toDouble w.toDouble
  | .binary _, vs => .error (.arity name 2 vs.length)
  | .list f, vs => f vs

/-- The natural logarithm of one argument, or the logarithm of the first to the base of the second. -/
def logarithm : List Value → Except EvalError Value
  | [v] => do
    let x ← positive v.toDouble
    return .float (.ofFloat x.log)
  | [v, w] => do
    let x ← positive v.toDouble
    let base ← positive w.toDouble
    if base == 1.0 then .error .floatDivision
    else return .float (.ofFloat (x.log / base.log))
  | vs => .error (.logarithmArity vs.length)

/-- The first argument times two to the power of the second, which has to be an integer of 32 bits. Arguments
after these two are not looked at. -/
def scaleByPower (name : String) : List Value → Except EvalError Value
  | [] => .error (.arity name 1 0)
  | v :: vs =>
    match vs.head?.bind Value.toInt? with
    | none => .error (.exponent name)
    | some i =>
      if -0x80000000 ≤ i ∧ i < 0x80000000 then checked (v.toDouble * .ofFloat (twoPower i)) v.toDouble
      else .error .mathRange

/-- The functions of the library. -/
def function? (name : String) : Option Function :=
  match name with
  | "acos" => some (.float Float.acos)
  | "acosh" => some (.float Float.acosh)
  | "asin" => some (.float Float.asin)
  | "asinh" => some (.float Float.asinh)
  | "atan" => some (.float Float.atan)
  | "atan2" => some (.binary fun y x => .ok (.float (.result [x, y] (Float.atan2 y.value x.value))))
  | "atanh" => some (.unary fun x =>
      if 1.0 ≤ x.value.abs then .error .mathDomain else .ok (.float (x.map Float.atanh)))
  | "ceil" => some (.unary fun x => toInteger (Binary64.ceiling? x.value))
  | "copysign" => some (.binary fun x y => .ok (.float (x.withSign y.isNegative)))
  | "cos" => some (.float Float.cos)
  | "cosh" => some (.float Float.cosh)
  | "degrees" => some (.float degrees)
  | "exp" => some (.float Float.exp)
  | "expm1" => some (.float expm1)
  | "fabs" => some (.unary fun x => .ok (.float (x.withSign false)))
  | "factorial" => some (.list (factorial name))
  | "floor" => some (.unary fun x => toInteger (Binary64.floor? x.value))
  | "fmod" => some (.binary fun x y =>
      if y.value == 0.0 || x.value.isInf then .error .mathDomain
      else .ok (.float (Double.zipWith Binary64.remainder x y)))
  | "gcd" => some (.list (gcdFrom name 0))
  | "hypot" => some (.list fun vs =>
      .ok (.float (vs.foldl (fun length v => Double.zipWith Binary64.hypotenuse length v.toDouble) (.ofFloat 0.0))))
  | "isfinite" => some (.unary fun x => .ok (.bool x.value.isFinite))
  | "isinf" => some (.unary fun x => .ok (.bool x.value.isInf))
  | "isnan" => some (.unary fun x => .ok (.bool x.value.isNaN))
  | "ldexp" => some (.list (scaleByPower name))
  | "log" => some (.list logarithm)
  | "log10" => some (.unary fun x => return .float (.ofFloat (← positive x).log10))
  | "log1p" => some (.unary fun x =>
      if x.value ≤ -1.0 then .error .mathDomain else .ok (.float (x.map log1p)))
  | "log2" => some (.unary fun x => return .float (.ofFloat (← positive x).log2))
  | "pow" => some (.binary Value.floatPow)
  | "radians" => some (.float radians)
  | "sin" => some (.float Float.sin)
  | "sinh" => some (.float Float.sinh)
  | "sqrt" => some (.float Float.sqrt)
  | "tan" => some (.float Float.tan)
  | "tanh" => some (.float Float.tanh)
  | "trunc" => some (.unary fun x => toInteger (Binary64.truncation? x.value))
  | _ => none

/-- The outcome of a function of the library for arguments. -/
def call? (name : String) (arguments : List Value) : Option (Except EvalError Value) :=
  (function? name).map fun f => f.apply name arguments

/-- The library as a context of expressions. -/
def library : Context where
  constant? := constant?
  call? := call?

end Math

end Interpolate
