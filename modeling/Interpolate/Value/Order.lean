import Interpolate.Value.Arithmetic

/-!
# Comparing values

* **`compare?`** — the order of two values, which NaN takes no part in;
* **`Relation`** — the six signs of comparison, and when each **`holds`**.
-/

namespace Interpolate

namespace Value

/-- The order of two floats; none beside a NaN. -/
def compareFloats? (a b : Float) : Option Ordering :=
  if a < b then some .lt
  else if a == b then some .eq
  else if b < a then some .gt
  else none

/-- The order of two values. -/
def compare? (v w : Value) : Option Ordering :=
  match operands v w with
  | .ints a b => some (compare a b)
  | .floats a b => compareFloats? a.value b.value

end Value

/-- A sign of comparison. -/
inductive Relation where
  /-- `==` -/
  | eq
  /-- `!=` -/
  | ne
  /-- `<` -/
  | lt
  /-- `<=` -/
  | le
  /-- `>` -/
  | gt
  /-- `>=` -/
  | ge
  deriving DecidableEq, Repr

/-- Whether the relation holds between values in the order given. -/
def Relation.ofOrdering : Relation → Ordering → Bool
  | .eq, order => order == .eq
  | .ne, order => order != .eq
  | .lt, order => order == .lt
  | .le, order => order != .gt
  | .gt, order => order == .gt
  | .ge, order => order != .lt

/-- Whether two values are so related. Values without an order are unequal, and nothing else. -/
def Relation.holds (r : Relation) (v w : Value) : Bool :=
  match v.compare? w with
  | some order => r.ofOrdering order
  | none => r == .ne

end Interpolate
