import Interpolate.Binary64

/-!
# Floats whose NaNs have a sign

In the format binary64 a NaN has a sign like any other float. No text shows it and no comparison sees it, but it
can be turned around, and it can be copied to a number. A `Float` keeps no sign for its NaN, so a **double** keeps
one beside it.

* **`Double`** — a float, and the sign of a NaN;
* **`Double.result`** — what an operation makes of its operands: a NaN among them is handed on with its sign, a NaN
  that is new is negative. **`Double.map`** and **`Double.zipWith`** are the cases of one and two operands;
* **`Double.isNegative`**, **`Double.withSign`** — the sign of any double.
-/

namespace Interpolate

/-- A float, with a sign for every NaN. -/
structure Double where
  /-- the number, the infinity or the NaN -/
  value : Float
  /-- whether it is a negative NaN; other floats hold their sign themselves -/
  negativeNaN : Bool
  /-- nothing but a NaN is a negative NaN -/
  isNaN_of_negativeNaN : negativeNaN = true → value.isNaN = true
  deriving DecidableEq

namespace Double

/-! ## Making doubles -/

/-- The float `x`, and where that is a NaN, the one with the sign given. -/
def signed (negative : Bool) (x : Float) : Double where
  value := x
  negativeNaN := negative && x.isNaN
  isNaN_of_negativeNaN h := (Bool.and_eq_true_iff.mp h).2

/-- The result `x` of an operation. Where it is a NaN, it has the sign of the first NaN among the operands, and is
negative if there is none. -/
def result (operands : List Double) (x : Float) : Double :=
  match operands.find? fun a => a.value.isNaN with
  | some a => signed a.negativeNaN x
  | none => signed true x

/-- A float that no operands led to. -/
def ofFloat (x : Float) : Double :=
  result [] x

/-- The NaN that is written `nan`, a positive one. -/
def nan : Double :=
  signed false (0.0 / 0.0)

/-! ## Operations -/

/-- A function of one float. -/
def map (f : Float → Float) (a : Double) : Double :=
  result [a] (f a.value)

/-- A function of two floats. -/
def zipWith (f : Float → Float → Float) (a b : Double) : Double :=
  result [a, b] (f a.value b.value)

instance : Add Double := ⟨zipWith (· + ·)⟩

instance : Sub Double := ⟨zipWith (· - ·)⟩

instance : Mul Double := ⟨zipWith (· * ·)⟩

instance : Div Double := ⟨zipWith (· / ·)⟩

/-- Whether a float is an odd whole number. -/
def isOdd (x : Float) : Bool :=
  (Binary64.remainder x 2.0).abs == 1.0

/-- The power. A NaN to an odd power is a positive NaN; every other power of a NaN hands it on, or is 1. -/
def pow (a b : Double) : Double :=
  if a.value.isNaN && isOdd b.value then signed false (a.value.pow b.value)
  else zipWith Float.pow a b

/-! ## Signs -/

/-- Whether a double is below zero, a negative zero or a negative NaN. -/
def isNegative (a : Double) : Bool :=
  if a.value.isNaN then a.negativeNaN else Binary64.isNegative a.value

/-- The double with the size of `a` and the sign given. -/
def withSign (negative : Bool) (a : Double) : Double :=
  signed negative (Binary64.withSign negative a.value)

instance : Neg Double := ⟨fun a => signed (!a.negativeNaN) (-a.value)⟩

@[simp] theorem value_signed (negative : Bool) (x : Float) : (signed negative x).value = x := rfl

@[simp] theorem value_result (operands : List Double) (x : Float) : (result operands x).value = x := by
  unfold result
  split <;> rfl

@[simp] theorem value_map (f : Float → Float) (a : Double) : (a.map f).value = f a.value :=
  value_result _ _

@[simp] theorem value_zipWith (f : Float → Float → Float) (a b : Double) :
    (zipWith f a b).value = f a.value b.value :=
  value_result _ _

end Double

end Interpolate
