/-!
# Reading numerals

* **`digitValue`** / **`ofDigits`** — digits in a base, and the number they spell;
* **`float`** — the float nearest to a decimal numeral.
-/

namespace Interpolate

namespace Decimal

/-- The value of a decimal or hexadecimal digit; hexadecimal letters may have either case. -/
def digitValue (c : Char) : Nat :=
  if c.isDigit then c.toNat - 48
  else if 'a' ≤ c ∧ c ≤ 'f' then c.toNat - 87
  else if 'A' ≤ c ∧ c ≤ 'F' then c.toNat - 55
  else 0

/-- Whether a character is a hexadecimal digit. -/
def isHexDigit (c : Char) : Bool :=
  c.isDigit || (decide ('a' ≤ c) && decide (c ≤ 'f')) || (decide ('A' ≤ c) && decide (c ≤ 'F'))

/-- The number that digits spell in a base. -/
def ofDigits (base : Nat) (digits : List Char) : Nat :=
  digits.foldl (fun value c => value * base + digitValue c) 0

/-- The float nearest to the numeral `whole . fraction · 10 ^ exponent`. -/
def float (whole fraction : List Char) (exponent : Int) : Float :=
  let shift := exponent - fraction.length
  Float.ofScientific (ofDigits 10 (whole ++ fraction)) (decide (shift < 0)) shift.natAbs

/-- One more digit multiplies the number by the base and adds the digit. -/
theorem ofDigits_concat (base : Nat) (digits : List Char) (c : Char) :
    ofDigits base (digits ++ [c]) = ofDigits base digits * base + digitValue c := by
  simp [ofDigits]

theorem digitValue_digitChar {d : Nat} (h : d < 16) : digitValue d.digitChar = d := by
  have hall : ∀ d < 16, digitValue d.digitChar = d := by decide
  exact hall d h

/-- The digits of a number spell it, in every base that there are digits for. -/
theorem ofDigits_toDigits_base {base : Nat} (hone : 1 < base) (hbase : base ≤ 16) (n : Nat) :
    ofDigits base (Nat.toDigits base n) = n := by
  induction n using Nat.strongRecOn with
  | ind n ih =>
    rcases Nat.lt_or_ge n base with hlt | hge
    · rw [Nat.toDigits_of_lt_base hlt]
      simp [ofDigits, digitValue_digitChar (Nat.lt_of_lt_of_le hlt hbase)]
    · have hmod : n % base < base := Nat.mod_lt n (by omega)
      rw [Nat.toDigits_of_base_le hone hge, ofDigits_concat, ih (n / base) (Nat.div_lt_self (by omega) hone),
        digitValue_digitChar (Nat.lt_of_lt_of_le hmod hbase)]
      exact Nat.div_add_mod' n base

/-- The decimal digits of a number spell it. -/
theorem ofDigits_toDigits (n : Nat) : ofDigits 10 (Nat.toDigits 10 n) = n :=
  ofDigits_toDigits_base (by decide) (by decide) n

end Decimal

end Interpolate
