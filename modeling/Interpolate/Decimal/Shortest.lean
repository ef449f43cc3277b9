/-!
# Shortest decimal forms

A positive binary number `m · 2 ^ q` stands for every real number that rounds to it. Among the decimal
numbers in that interval, its **shortest form** is the one with the fewest digits; of several with
that many digits, the one nearest to the number itself.

* **`Interval`** — the number and the two ends of its interval, over one denominator;
* **`Interval.pick?`** — the candidate on the grid of multiples of `10 ^ k`, if the interval holds one;
* **`shortest`** — the first grid, from coarse to fine, that has a candidate.

A grid with a point in the interval has one among the two neighbours of the number on that grid, so
looking at these two is enough.
-/

namespace Interpolate

namespace Decimal

/-- A decimal number `digits · 10 ^ exponent`. -/
structure Form where
  /-- the digits, as a whole number -/
  digits : Nat
  /-- the power of ten of the last digit -/
  exponent : Int
  deriving DecidableEq, Repr

/-! ## The interval of a binary number -/

/-- A positive number together with the interval of the numbers that round to it, all three as
numerators over one denominator. -/
structure Interval where
  /-- the number -/
  value : Nat
  /-- how far the interval reaches below the number -/
  below : Nat
  /-- how far the interval reaches above the number -/
  above : Nat
  /-- the common denominator -/
  denominator : Nat
  /-- whether the two ends belong to the interval -/
  closed : Bool

/-- The interval of the float `m · 2 ^ q`. It reaches half a unit of the last place to either side, but
only a quarter of one below the least mantissa of a binade, where the floats lie closer. A tie rounds
to the even mantissa, so the ends belong to it when `m` is even. -/
def Interval.ofBinary (m : Nat) (q : Int) : Interval :=
  let scale := if 2 ≤ q then 1 <<< (q - 2).toNat else 1
  { value := 4 * m * scale
    below := (if m = (1 <<< 52) ∧ -1074 < q then 1 else 2) * scale
    above := 2 * scale
    denominator := if 2 ≤ q then 1 else 1 <<< (2 - q).toNat
    closed := m % 2 == 0 }

/-- The interval in units of `10 ^ k`. -/
def Interval.inUnits (k : Int) (i : Interval) : Interval :=
  if 0 ≤ k then
    { i with denominator := i.denominator * Nat.pow 10 k.toNat }
  else
    let scale := Nat.pow 10 k.natAbs
    { i with value := i.value * scale, below := i.below * scale, above := i.above * scale }

/-- The whole number in the interval that is nearest to the number; a tie goes to the greater one. -/
def Interval.pick? (i : Interval) : Option Nat :=
  let floor := i.value / i.denominator
  let rest := i.value % i.denominator
  let gap := i.denominator - rest
  let floorFits := decide (rest < i.below) || i.closed && rest == i.below
  let nextFits := decide (gap < i.above) || i.closed && gap == i.above
  match floorFits, nextFits with
  | true, true => some (if rest < gap then floor else floor + 1)
  | true, false => some floor
  | false, true => some (floor + 1)
  | false, false => none

/-! ## The search -/

/-- The number `m · 2 ^ q` with all its decimal digits. -/
def exact (m : Nat) (q : Int) : Form :=
  if 0 ≤ q then ⟨m <<< q.toNat, 0⟩ else ⟨m * Nat.pow 5 q.natAbs, q⟩

/-- Goes from the grid of `10 ^ k` through `steps` finer ones, and takes the first candidate. -/
def shortestFrom (m : Nat) (q : Int) : (steps : Nat) → (k : Int) → Form
  | 0, _ => exact m q
  | steps + 1, k =>
    match ((Interval.ofBinary m q).inUnits k).pick? with
    | some digits => ⟨digits, k⟩
    | none => shortestFrom m q steps (k - 1)

/-- A power of ten above `m · 2 ^ q`, by at most two places: `log 2` is a little under 0.30103. -/
def ceilingPower (m : Nat) (q : Int) : Int :=
  ((m.log2 + 1 : Nat) + q) * 30103 / 100000 + 1

/-- The shortest form of the positive float `m · 2 ^ q`. Seventeen digits always tell floats apart, so
the search ends at a candidate. -/
def shortest (m : Nat) (q : Int) : Form :=
  shortestFrom m q 24 (ceilingPower m q)

end Decimal

end Interpolate
