import Interpolate.Decimal.Notation
import Interpolate.Double

/-!
# Values

An expression has a **value**: a 64-bit integer, a float or a truth value. Truth values take part in
arithmetic as the integers 0 and 1.

* **`Value`** — the type;
* **`truth`**, **`toDouble`**, **`toInt64?`**, **`typeName`** — what a value is when it is looked at as a truth
  value, a float or an integer, and what its type is called;
* **`text`** — how a value is written.
-/

namespace Interpolate

/-- The result of an expression. -/
inductive Value where
  /-- an integer between `-2 ^ 63` and `2 ^ 63 - 1` -/
  | int (n : Int64)
  /-- a float -/
  | float (x : Double)
  /-- a truth value -/
  | bool (b : Bool)
  deriving DecidableEq

namespace Value

instance : Inhabited Value := ⟨.int 0⟩

/-! ## Views -/

/-- The integer 0 or 1 of a truth value. -/
def ofTruth (b : Bool) : Int64 :=
  if b then 1 else 0

/-- Zero and `False` count as false, everything else as true, NaN included. -/
def truth : Value → Bool
  | .int n => n != 0
  | .float x => x.value != 0.0
  | .bool b => b

/-- The integer that a value is; a float is none, even where it is whole. -/
def toInt64? : Value → Option Int64
  | .int n => some n
  | .bool b => some (ofTruth b)
  | .float _ => none

/-- The integer that a value is, without its width. -/
def toInt? (v : Value) : Option Int :=
  v.toInt64?.map Int64.toInt

/-- The float nearest to a value. -/
def toDouble : Value → Double
  | .int n => .ofFloat (Float.ofInt n.toInt)
  | .bool b => .ofFloat (Float.ofInt (ofTruth b).toInt)
  | .float x => x

/-- What the type of a value is called in messages. -/
def typeName : Value → String
  | .int _ => "int"
  | .float _ => "float"
  | .bool _ => "bool"

/-! ## Text -/

/-- Floats are written without an exponent, whatever their size. A whole float below `10 ^ 16` keeps a
`.0`, so that it reads back as a float. -/
def floatNotation : Decimal.Notation where
  positional _ := true
  pointed place := decide (place ≤ 16)

/-- How a value is written. -/
def text : Value → String
  | .int n => toString n.toInt
  | .float x => floatNotation.write x.value
  | .bool b => if b then "True" else "False"

/-! ## Small facts -/

@[simp] theorem toInt?_int (n : Int64) : (Value.int n).toInt? = some n.toInt := rfl

@[simp] theorem toInt?_float (x : Double) : (Value.float x).toInt? = none := rfl

@[simp] theorem toInt?_bool (b : Bool) : (Value.bool b).toInt? = some (ofTruth b).toInt := rfl

/-- A truth value and its integer have the same float. -/
@[simp] theorem toDouble_int_ofTruth (b : Bool) :
    (Value.int (ofTruth b)).toDouble = (Value.bool b).toDouble := rfl

end Value

end Interpolate
