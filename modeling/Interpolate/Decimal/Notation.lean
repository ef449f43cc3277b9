import Interpolate.Binary64
import Interpolate.Decimal.Shortest

/-!
# Writing floats

A float is written with the digits of its shortest form. What is left to decide is where the point
goes and what stands around it; a **notation** holds these decisions, and each place that writes
floats has one.

* **`Notation`** — the decisions, as conditions on the place of the point;
* **`Notation.write`** — the text of a float.
-/

namespace Interpolate

namespace Decimal

/-- How floats are written. Both decisions look at the **place** of the point: the number of digits
left of it, so that the number lies between `10 ^ (place - 1)` and `10 ^ place`. -/
structure Notation where
  /-- whether a number is written without an exponent -/
  positional : (place : Int) → Bool
  /-- whether a whole number without exponent ends in `.0` -/
  pointed : (place : Int) → Bool

/-- Digits with the point after `place` of them, and zeros where digits are missing. -/
def writePositional (pointed : Bool) (digits : List Char) (place : Int) : List Char :=
  if place ≤ 0 then
    '0' :: '.' :: (List.replicate place.natAbs '0' ++ digits)
  else if place < digits.length then
    digits.take place.toNat ++ '.' :: digits.drop place.toNat
  else
    digits ++ List.replicate (place.toNat - digits.length) '0' ++ (if pointed then ['.', '0'] else [])

/-- Digits with the point after the first of them, and the exponent after an `e`. -/
def writeScientific (digits : List Char) (place : Int) : List Char :=
  let fraction := digits.drop 1
  digits.take 1 ++ (if fraction.isEmpty then [] else '.' :: fraction)
    ++ 'e' :: (toString (place - 1)).toList

/-- The text of the decimal number `form`. -/
def Notation.writeForm (style : Notation) (form : Form) : List Char :=
  let digits := (toString form.digits).toList
  let place := digits.length + form.exponent
  if style.positional place then
    writePositional (style.pointed place) digits place
  else
    writeScientific digits place

/-- The text of a float. -/
def Notation.write (style : Notation) (x : Float) : String :=
  match Binary64.ofFloat x with
  | .nan => "nan"
  | .infinite negative => if negative then "-inf" else "inf"
  | .finite negative mantissa exponent =>
    let size := if mantissa = 0 then ['0', '.', '0'] else style.writeForm (shortest mantissa exponent)
    String.ofList (if negative then '-' :: size else size)

end Decimal

end Interpolate
