/-!
# Binary floating point, taken apart

A `Float` is a number of the format binary64. Operations that have to be exact take it apart into a
sign, a natural **mantissa** and a binary **exponent**, work on whole numbers, and round once at the
end.

* **`Binary64`** — the parts of a float, and **`ofFloat`**, which finds them;
* **`round`** — the float nearest to a mantissa times a power of two;
* **`remainder`**, **`hypotenuse`** — exact results, rounded once;
* **`floor?`**, **`ceiling?`**, **`truncation?`** — whole numbers near a finite float.
-/

namespace Interpolate

/-- A float taken apart. -/
inductive Binary64 where
  /-- not a number -/
  | nan
  /-- an infinity -/
  | infinite (negative : Bool)
  /-- the number `± mantissa · 2 ^ exponent`; zero has the mantissa zero -/
  | finite (negative : Bool) (mantissa : Nat) (exponent : Int)
  deriving DecidableEq, Repr

namespace Binary64

/-! ## Taking apart and putting together -/

/-- The parts of a float, read off its bits: one for the sign, eleven for the exponent and fifty-two
for the fraction. -/
def ofFloat (x : Float) : Binary64 :=
  let bits := x.toBits.toNat
  let negative := decide ((1 <<< 63) ≤ bits)
  let field : Nat := (bits >>> 52) % (1 <<< 11)
  let fraction := bits % (1 <<< 52)
  if field = (1 <<< 11) - 1 then
    if fraction = 0 then .infinite negative else .nan
  else if field = 0 then
    .finite negative fraction (-1074)
  else
    .finite negative ((1 <<< 52) + fraction) ((field : Int) - 1075)

/-- Whether a float lies below zero or is a negative zero. -/
def isNegative (x : Float) : Bool :=
  decide ((1 <<< 63) ≤ x.toBits.toNat)

/-- The float with the size of `x` and the sign given. -/
def withSign (negative : Bool) (x : Float) : Float :=
  if negative then -x.abs else x.abs

/-- The float nearest to `± mantissa · 2 ^ exponent`, of two equally near ones the even one. A negative
power of two is written as a power of five over a power of ten, which is a decimal numeral. -/
def round (negative : Bool) (mantissa : Nat) (exponent : Int) : Float :=
  let size : Float :=
    if 0 ≤ exponent then
      Float.ofNat (mantissa <<< exponent.toNat)
    else
      Float.ofScientific (mantissa * Nat.pow 5 exponent.natAbs) true exponent.natAbs
  withSign negative size

/-! ## Exact operations -/

/-- Two mantissas written over the smaller of their exponents. -/
def align (m : Nat) (p : Int) (n : Nat) (q : Int) : Nat × Nat × Int :=
  let least := min p q
  (m <<< (p - least).toNat, n <<< (q - least).toNat, least)

/-- The remainder of `x` on division by `y` with the quotient cut off towards zero, without any
rounding. It has the sign of `x`, a zero too. -/
def remainder (x y : Float) : Float :=
  match ofFloat x, ofFloat y with
  | .finite negative m p, .finite _ n q =>
    if n = 0 then 0.0 / 0.0
    else
      let (m, n, least) := align m p n q
      round negative (m % n) least
  | .finite .., .infinite _ => x
  | _, _ => 0.0 / 0.0

/-- The float nearest to the square root of `x² + y²`; an infinity where an operand is one, even beside
a NaN. The root is taken with 64 bits to spare and one more bit that says whether it is inexact. -/
def hypotenuse (x y : Float) : Float :=
  match ofFloat x, ofFloat y with
  | .infinite _, _ => 1.0 / 0.0
  | _, .infinite _ => 1.0 / 0.0
  | .finite _ m p, .finite _ n q =>
    let (m, n, least) := align m p n q
    let square := (m * m + n * n) <<< 128
    let root := square.sqrt
    round false (2 * root + if root * root = square then 0 else 1) (least - 65)
  | _, _ => 0.0 / 0.0

/-! ## Whole numbers nearby -/

/-- The greatest whole number that is not above a finite float. -/
def floor? (x : Float) : Option Int :=
  match ofFloat x with
  | .finite negative m p =>
    let signed : Int := if negative then -m else m
    some (if 0 ≤ p then signed <<< p.toNat else signed >>> p.natAbs)
  | _ => none

/-- The least whole number that is not below a finite float. -/
def ceiling? (x : Float) : Option Int :=
  (floor? (-x)).map fun n => -n

/-- The whole part of a finite float, fractions dropped. -/
def truncation? (x : Float) : Option Int :=
  if isNegative x then ceiling? x else floor? x

end Binary64

end Interpolate
