import Interpolate.Proofs.Exact
import Interpolate.Proofs.Machine

/-!
# Powers

A machine raises a number to a power by squaring it: the exponent is halved at every step, and where it is odd one
factor goes to the product. Each product on the way is checked. None of them is needed in vain, since a square is only
taken where it is a factor of the power, and a factor that does not fit leaves no power that fits. So the power of
every integer is exact or an overflow. But the exponents of this method have 32 bits. Larger ones are refused in any
case, those of 0, 1 and -1 among them, whose powers all fit.

* **`timesPower?`**, **`gives_timesPower`** — squaring with checks gives the exact power, or nothing where it does not
  fit;
* **`power`**, **`outcome_power`** — the power as a computation on words, and what it comes to;
* **`Value.pow_integers`** — the operator is exact for all integers but these three with those exponents.
-/

namespace Interpolate

namespace Machine

/-! ## Squaring with checks -/

section Squaring

variable {w : Nat}

/-- The product of `product` and the power of `base` with the exponent `n`. No square is taken after the last factor. -/
def timesPower? (product base : BitVec w) (n : Nat) : Option (BitVec w) :=
  if h : n = 0 then some product
  else do
    let product ← if n % 2 = 1 then mul? product base else some product
    if n = 1 then some product
    else
      let square ← mul? base base
      timesPower? product square (n / 2)
termination_by n
decreasing_by omega

theorem timesPower?_zero (p b : BitVec w) : timesPower? p b 0 = some p := by
  rw [timesPower?, dif_pos rfl]

theorem timesPower?_one (p b : BitVec w) : timesPower? p b 1 = mul? p b := by
  rw [timesPower?]
  simp

theorem timesPower?_even (p b : BitVec w) {m : Nat} (hm : m ≠ 0) :
    timesPower? p b (2 * m) = (mul? b b).bind fun s => timesPower? p s m := by
  have hhalf : 2 * m / 2 = m := by omega
  rw [timesPower?, dif_neg (by omega), if_neg (by omega), hhalf]
  simp only [if_neg (show 2 * m ≠ 1 by omega)]
  rfl

theorem timesPower?_odd (p b : BitVec w) {m : Nat} (hm : m ≠ 0) :
    timesPower? p b (2 * m + 1) = (mul? p b).bind fun q => (mul? b b).bind fun s => timesPower? q s m := by
  have hhalf : (2 * m + 1) / 2 = m := by omega
  rw [timesPower?, dif_neg (by omega), if_pos (by omega), hhalf]
  simp only [if_neg (show 2 * m + 1 ≠ 1 by omega)]
  rfl

end Squaring

/-- An operation on the result of another one gives `n`, if it does so with the exact result `k` of the other, and if
`n` does not fit where `k` does not. -/
theorem Gives.bind {x? : Option (BitVec 64)} {f : BitVec 64 → Option (BitVec 64)} {k n : Int} (h : Gives x? k)
    (hf : ∀ x : BitVec 64, x.toInt = k → Gives (f x) n) (hnone : ¬ Value.Fits k → ¬ Value.Fits n) :
    Gives (x?.bind f) n := by
  cases x? with
  | some x => exact hf x ((h x).mp rfl)
  | none =>
    simp only [fits_iff_exists, not_exists] at hnone
    have hn := hnone fun x hx => nomatch (h x).mpr hx
    intro z
    simpa using hn z

/-! ## Powers that do not fit -/

/-- A number that does not fit has no multiple of the same sign that does. -/
theorem not_fits_mul {n c : Int} (hn : ¬ Value.Fits n) (hc : 1 ≤ c) : ¬ Value.Fits (n * c) := by
  rcases Int.le_total 0 n with hpos | hneg
  · have hmul := Int.mul_le_mul_of_nonneg_left hc hpos
    unfold Value.Fits at *
    omega
  · have hmul := Int.mul_le_mul_of_nonpos_left hneg hc
    unfold Value.Fits at *
    omega

/-- A square that does not fit is not the negative of a number that does, since `2 ^ 63` is no square. -/
theorem not_fits_neg_sq {b : Int} (hb : ¬ Value.Fits (b * b)) : ¬ Value.Fits (-(b * b)) := by
  have hle : 3037000500 ≤ b.natAbs := by
    by_contra hsmall
    have hsq : b.natAbs * b.natAbs ≤ 3037000499 * 3037000499 := Nat.mul_le_mul (by omega) (by omega)
    have hcast : b * b = (b.natAbs * b.natAbs : Nat) := (Int.natAbs_mul_self ..).symm
    unfold Value.Fits at hb
    omega
  have hsq : 3037000500 * 3037000500 ≤ b.natAbs * b.natAbs := Nat.mul_le_mul hle hle
  have hcast : b * b = (b.natAbs * b.natAbs : Nat) := (Int.natAbs_mul_self ..).symm
  unfold Value.Fits
  omega

/-- A product does not fit if a square in it does not. -/
theorem not_fits_mul_sq {p b : Int} (hp : p ≠ 0) (hb : ¬ Value.Fits (b * b)) : ¬ Value.Fits (p * (b * b)) := by
  rcases Int.lt_or_gt_of_ne hp with hneg | hpos
  · have hmul := not_fits_mul (not_fits_neg_sq hb) (show 1 ≤ -p by omega)
    rwa [Int.neg_mul_neg, Int.mul_comm] at hmul
  · rw [Int.mul_comm]
    exact not_fits_mul hb hpos

theorem one_le_sq_pow {b : Int} (hb : b ≠ 0) (m : Nat) : 1 ≤ (b * b) ^ m :=
  Int.pow_pos (mul_self_pos.mpr hb)

theorem not_fits_mul_sq_pow {p b : Int} (hp : p ≠ 0) (hb : ¬ Value.Fits (b * b)) {m : Nat} (hm : m ≠ 0) :
    ¬ Value.Fits (p * (b * b) ^ m) := by
  have hzero : b ≠ 0 := fun h => hb (by rw [h]; decide)
  obtain ⟨k, rfl⟩ := Nat.exists_eq_succ_of_ne_zero hm
  rw [Nat.succ_eq_add_one, pow_succ', ← mul_assoc]
  exact not_fits_mul (not_fits_mul_sq hp hb) (one_le_sq_pow hzero k)

/-- Neither product of a step that halves the exponent is taken in vain. -/
theorem gives_timesPower_step {m : Nat} (hm : m ≠ 0)
    (ih : ∀ p b : BitVec 64, (p.toInt = 0 → b.toInt = 0) → Gives (timesPower? p b m) (p.toInt * b.toInt ^ m))
    {p b : BitVec 64} (h : p.toInt = 0 → b.toInt = 0) :
    Gives ((mul? b b).bind fun s => timesPower? p s m) (p.toInt * (b.toInt * b.toInt) ^ m) := by
  refine (gives_mul b b).bind (fun s hs => ?_) fun hb => ?_
  · rw [← hs]
    exact ih p s fun hp => by rw [hs, h hp, Int.zero_mul]
  · refine not_fits_mul_sq_pow (fun hp => hb ?_) hb hm
    rw [h hp]
    decide

/-- Squaring with checks gives the exact power, or nothing where it does not fit. The product becomes zero only with the
base. -/
theorem gives_timesPower (n : Nat) {p b : BitVec 64} (h : p.toInt = 0 → b.toInt = 0) :
    Gives (timesPower? p b n) (p.toInt * b.toInt ^ n) := by
  induction n using Nat.strong_induction_on generalizing p b with
  | _ n ih =>
    obtain ⟨m, rfl | rfl⟩ := n.even_or_odd'
    · by_cases hm : m = 0
      · subst hm
        rw [timesPower?_zero, pow_zero, mul_one]
        exact fun x => by rw [BitVec.toInt_inj, Option.some_inj, eq_comm]
      · rw [timesPower?_even _ _ hm, pow_mul, sq]
        exact gives_timesPower_step hm (fun p b => ih m (by omega)) h
    · by_cases hm : m = 0
      · subst hm
        rw [timesPower?_one, pow_one]
        exact gives_mul p b
      · have hodd : p.toInt * b.toInt ^ (2 * m + 1) = p.toInt * b.toInt * (b.toInt * b.toInt) ^ m := by
          rw [pow_succ', pow_mul, sq, mul_assoc]
        rw [timesPower?_odd _ _ hm, hodd]
        -- the power is a multiple of the new product, by a factor above zero
        refine (gives_mul p b).bind (fun q hq => ?_) fun hq => ?_
        · rw [← hq]
          refine gives_timesPower_step hm (fun p b => ih m (by omega)) fun hzero => ?_
          rw [hq, Int.mul_eq_zero] at hzero
          exact hzero.elim h id
        · have hzero : b.toInt ≠ 0 := fun hb => hq (by rw [hb, Int.mul_zero]; decide)
          exact not_fits_mul hq (one_le_sq_pow hzero m)

/-! ## The power on words -/

/-- The same natural number in `v` bits. -/
def narrowUnsigned? {w : Nat} (v : Nat) (x : BitVec w) : Option (BitVec v) :=
  guarded ((x.setWidth v).setWidth w != x) (x.setWidth v)

/-- The power, for exponents of 32 bits. -/
def power (a b : BitVec 64) : Computation (BitVec 64) :=
  match narrowUnsigned? 32 b with
  | some n => checked (timesPower? 1 a n.toNat)
  | none => throw .overflow

theorem narrowUnsigned?_of_lt {x : BitVec 64} (h : x.toNat < 2 ^ 32) : narrowUnsigned? 32 x = some (x.setWidth 32) := by
  have hback : (x.setWidth 32).setWidth 64 = x := BitVec.eq_of_toNat_eq (by
    rw [BitVec.toNat_setWidth_of_le (by decide), BitVec.toNat_setWidth, Nat.mod_eq_of_lt h])
  simp [narrowUnsigned?, guarded, hback]

theorem narrowUnsigned?_of_le {x : BitVec 64} (h : 2 ^ 32 ≤ x.toNat) : narrowUnsigned? 32 x = none := by
  have hback : (x.setWidth 32).setWidth 64 ≠ x := fun heq => by
    have hlt := (x.setWidth 32).isLt
    rw [← heq, BitVec.toNat_setWidth_of_le (by decide)] at h
    omega
  simp [narrowUnsigned?, guarded, hback]

/-- Where the exponent is not negative, the power is fitted if the exponent has 32 bits, and refused if not. -/
theorem outcome_power (x : BitVec 64) {y : BitVec 64} (hy : 0 ≤ y.toInt) :
    outcome (power x y) =
      some (if Value.exponentMax < y.toInt then .error .overflow else Value.fit (x.toInt ^ y.toInt.toNat)) := by
  have hnat := toNat_toInt hy
  unfold Value.exponentMax
  split
  · next hlong =>
    rw [power, narrowUnsigned?_of_le (by omega)]
    rfl
  · next hshort =>
    have hlt : y.toNat < 2 ^ 32 := by omega
    have hgives := gives_timesPower y.toNat (p := 1) (b := x) nofun
    rw [show (1 : BitVec 64).toInt = 1 from rfl, Int.one_mul] at hgives
    rw [power, narrowUnsigned?_of_lt hlt, hnat]
    simp only [BitVec.toNat_setWidth, Nat.mod_eq_of_lt hlt]
    exact outcome_checked hgives

end Machine

namespace Value

/-! ## The operator -/

section Integers

variable {v w : Value} {a b : Int64}

theorem pow_of_toInt64? (hv : v.toInt64? = some a) (hw : w.toInt64? = some b) (hb : 0 ≤ b.toInt) :
    pow v w = if exponentMax < b.toInt then .error .overflow else fit (a.toInt ^ b.toInt.toNat) := by
  simp only [pow, operands_of_toInt64? hv hw, if_neg (Int.not_lt.mpr hb), intPow_eq_fit]

/-- **Powers of integers.** Between integers and truth values, a power with an exponent that is not negative is the
exact one if that is an integer of 64 bits, and an overflow otherwise. The only exceptions are the powers of 0, 1 and -1
with exponents of more than 32 bits: they are an overflow as well. The computation on words gives the same. -/
theorem pow_integers (hv : v.toInt64? = some a) (hw : w.toInt64? = some b) (hb : 0 ≤ b.toInt) :
    (¬ (a.toInt.natAbs ≤ 1 ∧ exponentMax < b.toInt) → IsExact (a.toInt ^ b.toInt.toNat) (pow v w)) ∧
    (a.toInt.natAbs ≤ 1 → exponentMax < b.toInt → pow v w = .error .overflow) ∧
    Machine.outcome (Machine.power a.toBitVec b.toBitVec) = some (pow v w) ∧
    EvalError.overflow.message = "integer overflow" := by
  rw [pow_of_toInt64? hv hw hb]
  refine ⟨fun hregular => ?_, fun _ hlong => if_pos hlong, Machine.outcome_power _ hb, rfl⟩
  split
  · next hlong =>
    have hlarge : ¬ a.toInt.natAbs ≤ 1 := fun hsmall => hregular ⟨hsmall, hlong⟩
    have hmax : 64 ≤ b.toInt.toNat := by
      unfold exponentMax at hlong
      omega
    exact .overflows fun k hk => hlarge (natAbs_le_one_of_fits hmax (hk ▸ fits_toInt k))
  · exact isExact_fit _

end Integers

/-- The ends of the range, a long exponent that is refused for a reason, and a truth value for the base. -/
theorem pow_integers_ends :
    pow (.int (-2)) (.int 63) = .ok (.int Int64.minValue) ∧
    pow (.int 2) (.int 63) = .error .overflow ∧
    pow (.int 2) (.int Int64.maxValue) = .error .overflow ∧
    pow (.bool true) (.int 0xFFFFFFFF) = .ok (.int 1) := by
  refine ⟨?_, ?_, ?_, ?_⟩
  · obtain ⟨hexact, -⟩ := pow_integers (v := .int (-2)) (w := .int 63) rfl rfl (by decide)
    exact (hexact (by decide)).eq_ok _ (by decide)
  · obtain ⟨hexact, -⟩ := pow_integers (v := .int 2) (w := .int 63) rfl rfl (by decide)
    exact (hexact (by decide)).eq_error (by decide)
  · obtain ⟨hexact, -⟩ := pow_integers (v := .int 2) (w := .int Int64.maxValue) rfl rfl (by decide)
    exact (hexact (by decide)).eq_error fun h => absurd (natAbs_le_one_of_fits (by decide) h) (by decide)
  · obtain ⟨hexact, -⟩ := pow_integers (v := .bool true) (w := .int 0xFFFFFFFF) rfl rfl (by decide)
    exact (hexact (by decide)).eq_ok _ (one_pow _).symm

/-- The power of 1 with the exponent `2 ^ 32` is 1, but the operator has no value there. -/
theorem pow_one_overflow :
    (1 : Int) ^ (0x100000000 : Int64).toInt.toNat = 1 ∧ ∀ u, pow (.int 1) (.int 0x100000000) ≠ .ok u :=
  ⟨one_pow _, fun _ => nofun⟩

end Value

end Interpolate
