/-!
# Why an evaluation fails

Operators and functions that have no value for their operands say why with an **`EvalError`**; its
**`message`** is what a user reads.
-/

namespace Interpolate

/-- Why an expression has no value. -/
inductive EvalError where
  /-- an integer result does not fit in 64 bits -/
  | overflow
  /-- `/` by zero -/
  | division
  /-- `//` or `%` by zero, on integers -/
  | integerDivision
  /-- `//` by zero, on floats -/
  | floatFloorDivision
  /-- `%` by zero, on floats -/
  | floatRemainder
  /-- a logarithm to the base one -/
  | floatDivision
  /-- zero to a negative power -/
  | zeroToNegative
  /-- a function outside of its domain -/
  | mathDomain
  /-- a finite argument with an infinite result -/
  | mathRange
  /-- an operator for integers between values that are not both integers -/
  | operands (symbol leftType rightType : String)
  /-- `~` on a float -/
  | inversion (typeName : String)
  /-- a shift by a negative amount -/
  | negativeShift
  /-- a constant or function that does not exist -/
  | undefined (name : String)
  /-- a function of a fixed number of arguments, called with another number of them -/
  | arity (name : String) (expected given : Nat)
  /-- a logarithm of neither one nor two arguments -/
  | logarithmArity (given : Nat)
  /-- a function that needs an argument at a position where there is none -/
  | missing (name : String) (position : Nat)
  /-- a function of integers, called with a float -/
  | integral (name : String)
  /-- a scaling whose second argument is absent or a float -/
  | exponent (name : String)
  /-- the factorial of a negative number -/
  | negativeFactorial
  /-- an infinity or NaN where an integer is asked for -/
  | notFinite
  /-- a failure that a function supplied by the caller describes itself -/
  | custom (description : String)
  deriving DecidableEq, Repr

/-- What a user reads. -/
def EvalError.message : EvalError → String
  | .overflow => "integer overflow"
  | .division => "division by zero"
  | .integerDivision => "integer division or modulo by zero"
  | .floatFloorDivision => "float floor division by zero"
  | .floatRemainder => "float modulo"
  | .floatDivision => "float division by zero"
  | .zeroToNegative => "0.0 cannot be raised to a negative power"
  | .mathDomain => "math domain error"
  | .mathRange => "math range error"
  | .operands symbol leftType rightType =>
    "unsupported operand type(s) for " ++ symbol ++ ": '" ++ leftType ++ "' and '" ++ rightType ++ "'"
  | .inversion typeName => "bad operand type for unary ~: '" ++ typeName ++ "'"
  | .negativeShift => "negative shift count"
  | .undefined name => "name '" ++ name ++ "' is not defined"
  | .arity name expected given =>
    name ++ "() takes exactly " ++ toString expected ++ " argument"
      ++ (if expected = 1 then "" else "s") ++ " (" ++ toString given ++ " given)"
  | .logarithmArity given => "log expected 1 or 2 arguments, got " ++ toString given
  | .missing name position => name ++ ": argument " ++ toString position ++ " missing"
  | .integral name => name ++ "() only accepts integral values"
  | .exponent name => name ++ ": second argument must be an integer"
  | .negativeFactorial => "factorial() not defined for negative values"
  | .notFinite => "cannot convert float infinity or NaN to integer"
  | .custom description => description

end Interpolate
