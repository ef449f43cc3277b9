import Interpolate.Binary64

/-!
# Elementary functions

Constants, and functions of floats that are made from others. Where a plain formula would cancel digits, a better
one is used.
-/

namespace Interpolate

namespace Math

/-- The ratio of a circle's circumference to its diameter. -/
def pi : Float := 3.141592653589793

/-- The base of the natural logarithm. -/
def e : Float := 2.718281828459045

/-- The ratio of a circle's circumference to its radius. -/
def tau : Float := 6.283185307179586

/-- An infinity. -/
def infinity : Float := 1.0 / 0.0

/-- `exp x - 1`. The rounding error of `exp x` is undone by the factor `x / log (exp x)`. -/
def expm1 (x : Float) : Float :=
  let u := x.exp
  if u == 1.0 then x
  else if u.isInf then u
  else if u - 1.0 == -1.0 then -1.0
  else (u - 1.0) * (x / u.log)

/-- `log (1 + x)`. The rounding error of `1 + x` is undone by the factor `x / ((1 + x) - 1)`. -/
def log1p (x : Float) : Float :=
  let u := 1.0 + x
  if u == 1.0 then x
  else if u.isInf then u
  else u.log * (x / (u - 1.0))

/-- Radians as degrees. -/
def degrees (x : Float) : Float :=
  x * (180.0 / pi)

/-- Degrees as radians. -/
def radians (x : Float) : Float :=
  x * (pi / 180.0)

/-- The power of two with the exponent `i`. A negative exponent gives one over the power with the opposite one,
which is zero from `-1024` on. -/
def twoPower (i : Int) : Float :=
  let size := Float.ofNat (1 <<< min i.natAbs 1024)
  if i < 0 then 1.0 / size else size

end Math

end Interpolate
