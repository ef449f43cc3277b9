import Interpolate.Proofs.Word
import Mathlib.Data.Rat.Floor

/-!
# Integers on a machine

The operators on integers compute without any bound and fit what they get into 64 bits. A machine has no such
numbers: its operations take words and give words, and where no word is the exact result there is none to give.
The operators are written once more with these operations. Some of the operations are **checked**, so that a result
that does not exist becomes an overflow; the others are not, and without a result the whole computation is lost.
It never is, and it gives what the operators give.

* **`add?`** … **`narrow?`** — the operations;
* **`Gives`** — what is exact about them: they give the word with a certain number, if there is one;
* **`Computation`**, **`outcome`** — computations on words, which are lost where an unchecked operation has no result;
* **`floorDiv`**, **`shiftLeft`**, **`shiftRight`** — the operators that take more than one operation;
* **`IsExact`**, **`Value.exact_integers`** — every operator on integers gives the exact result, or an overflow where
  no integer of 64 bits is the exact result, and no operation on the way is without one.
-/

namespace Interpolate

namespace Machine

/-! ## Operations on words -/

section Operations

variable {w : Nat}

/-- The result `z` of an operation, unless the operation overflows. -/
def guarded (overflow : Bool) (z : BitVec w) : Option (BitVec w) :=
  if overflow then none else some z

/-- The sum. -/
def add? (x y : BitVec w) : Option (BitVec w) :=
  guarded (x.saddOverflow y) (x + y)

/-- The difference. -/
def sub? (x y : BitVec w) : Option (BitVec w) :=
  guarded (x.ssubOverflow y) (x - y)

/-- The product. -/
def mul? (x y : BitVec w) : Option (BitVec w) :=
  guarded (x.smulOverflow y) (x * y)

/-- The negation. -/
def neg? (x : BitVec w) : Option (BitVec w) :=
  guarded x.negOverflow (-x)

/-- The quotient rounded towards zero. -/
def div? (x y : BitVec w) : Option (BitVec w) :=
  guarded (y == 0 || x.sdivOverflow y) (x.sdiv y)

/-- The remainder of that division; there is none where there is no quotient. -/
def rem? (x y : BitVec w) : Option (BitVec w) :=
  guarded (y == 0 || x.sdivOverflow y) (x.srem y)

/-- A shift to the left, by less than the width and without the loss of a bit. -/
def shl? (x : BitVec w) (n : Nat) : Option (BitVec w) :=
  guarded (decide (w ≤ n) || (x <<< n).sshiftRight n != x) (x <<< n)

/-- A shift to the right that keeps the sign, by less than the width. -/
def sar? (x : BitVec w) (n : Nat) : Option (BitVec w) :=
  guarded (decide (w ≤ n)) (x.sshiftRight n)

/-- The same number in `v` bits. -/
def narrow? (v : Nat) (x : BitVec w) : Option (BitVec v) :=
  guarded ((x.setWidth v).signExtend w != x) (x.setWidth v)

/-! ## Exact results -/

/-- The operation gives the word with the number `n`, and nothing if there is no such word. -/
def Gives (x? : Option (BitVec w)) (n : Int) : Prop :=
  ∀ x, x? = some x ↔ x.toInt = n

theorem gives_guarded {overflow : Bool} {z : BitVec w} {n : Int} (hexact : overflow = false → z.toInt = n)
    (hnone : overflow = true → ∀ x : BitVec w, x.toInt ≠ n) : Gives (guarded overflow z) n := by
  intro x
  cases overflow with
  | false => rw [← hexact rfl, BitVec.toInt_inj, eq_comm (a := x)]; simp [guarded]
  | true => simpa [guarded] using hnone rfl x

/-- A number beyond either end of the range is no word's number. -/
theorem toInt_ne_of_outside {n : Int} (h : 2 ^ (w - 1) ≤ n ∨ n < -2 ^ (w - 1)) (x : BitVec w) : x.toInt ≠ n := by
  have hlow := x.le_toInt
  have hhigh := BitVec.toInt_lt (x := x)
  omega

theorem gives_add (x y : BitVec w) : Gives (add? x y) (x.toInt + y.toInt) :=
  gives_guarded (fun h => BitVec.toInt_add_of_not_saddOverflow (by simp [h]))
    fun h => toInt_ne_of_outside (by simpa [BitVec.saddOverflow] using h)

theorem gives_sub (x y : BitVec w) : Gives (sub? x y) (x.toInt - y.toInt) :=
  gives_guarded (fun h => BitVec.toInt_sub_of_not_ssubOverflow (by simp [h]))
    fun h => toInt_ne_of_outside (by simpa [BitVec.ssubOverflow] using h)

theorem gives_mul (x y : BitVec w) : Gives (mul? x y) (x.toInt * y.toInt) :=
  gives_guarded (fun h => BitVec.toInt_mul_of_not_smulOverflow (by simp [h]))
    fun h => toInt_ne_of_outside (by simpa [BitVec.smulOverflow] using h)

theorem gives_neg (x : BitVec w) : Gives (neg? x) (-x.toInt) := by
  refine gives_guarded (fun h => BitVec.toInt_neg_of_not_negOverflow (by simp [h])) fun h => ?_
  have hmin : x.toInt = -2 ^ (w - 1) := by simpa [BitVec.negOverflow] using h
  exact toInt_ne_of_outside (.inl (by omega))

theorem setWidth_signExtend {v : Nat} (hv : v ≤ w) (x : BitVec v) : (x.signExtend w).setWidth v = x := by
  ext i hi
  simp [BitVec.getElem_signExtend, hi, Nat.lt_of_lt_of_le hi hv]

/-- A word can be narrowed exactly if it is the extension of what is left of it. -/
theorem gives_narrow {v : Nat} (hv : v ≤ w) (x : BitVec w) : Gives (narrow? v x) x.toInt := by
  refine gives_guarded (fun h => ?_) fun h z hz => ?_
  · have hback : (x.setWidth v).signExtend w = x := by simpa using h
    rw [← BitVec.toInt_signExtend_of_le hv, hback]
  · have hwide : z.signExtend w = x := by rw [← BitVec.toInt_inj, BitVec.toInt_signExtend_of_le hv, hz]
    rw [← hwide, setWidth_signExtend hv] at h
    simp at h

/-! ### Shifts -/

theorem ofInt_two_pow (n : Nat) : BitVec.ofInt w (2 ^ n) = BitVec.twoPow w n := by
  have hpow : (2 : Int) ^ n = (2 ^ n : Nat) := by norm_cast
  rw [hpow, BitVec.ofInt_natCast]
  exact BitVec.eq_of_toNat_eq (by rw [BitVec.toNat_ofNat, BitVec.toNat_twoPow])

theorem shiftLeft_eq_ofInt (x : BitVec w) (n : Nat) : x <<< n = BitVec.ofInt w (x.toInt * 2 ^ n) := by
  rw [BitVec.shiftLeft_eq_mul_twoPow, BitVec.ofInt_mul, BitVec.ofInt_toInt, ofInt_two_pow]

/-- A shift to the left is undone by the shift to the right exactly if it multiplies. -/
theorem gives_shl {n : Nat} (hn : n < w) (x : BitVec w) : Gives (shl? x n) (x.toInt * 2 ^ n) := by
  have hpos : (0 : Int) < 2 ^ n := by positivity
  have hright (y : BitVec w) : (y.sshiftRight n).toInt = y.toInt / 2 ^ n := by
    rw [BitVec.toInt_sshiftRight, Int.shiftRight_eq_div_pow]; norm_cast
  refine gives_guarded (fun h => ?_) fun h y hy => ?_
  · have hback : (x <<< n).sshiftRight n = x := by simpa [hn] using h
    have hdvd : (2 : Int) ^ n ∣ (x <<< n).toInt := by
      have hself : ((2 ^ w : Nat) : Int) ∣ (x.toInt * 2 ^ n).bmod (2 ^ w) - x.toInt * 2 ^ n := Int.dvd_bmod_sub_self
      have hwidth : (2 : Int) ^ n ∣ (2 ^ w : Nat) := by exact_mod_cast Nat.pow_dvd_pow 2 hn.le
      rw [shiftLeft_eq_ofInt, BitVec.toInt_ofInt]
      exact (Int.dvd_iff_dvd_of_dvd_sub (hwidth.trans hself)).mpr (Int.dvd_mul_left _ _)
    rw [← Int.ediv_mul_cancel hdvd, ← hright, hback]
  · have hleft : x <<< n = y := by rw [shiftLeft_eq_ofInt, ← hy, BitVec.ofInt_toInt]
    have hback : y.sshiftRight n = x := by
      rw [← BitVec.toInt_inj, hright, hy, Int.mul_ediv_cancel _ hpos.ne']
    have hwide : w ≤ n := by simpa [hleft, hback] using h
    omega

theorem sar?_eq_some {x : BitVec w} {n : Nat} (h : n < w) : sar? x n = some (x.sshiftRight n) := by
  simp [sar?, guarded, h]

end Operations

/-! ## Computations -/

/-- A computation on words. It may refuse its operands, which is an outcome; it has no outcome at all where an unchecked
operation has no result. -/
abbrev Computation := ExceptT EvalError Option

/-- An operation whose failure to give a result is noticed. -/
def checked : Option (BitVec 64) → Computation (BitVec 64)
  | some x => pure x
  | none => throw .overflow

/-- An operation that is taken to give a result. -/
def unchecked {w : Nat} (x? : Option (BitVec w)) : Computation (BitVec w) :=
  ExceptT.lift x?

/-- What a computation comes to, as an integer. -/
def outcome (c : Computation (BitVec 64)) : Option (Except EvalError Value) :=
  c.run.map fun r => r.map fun x => .int (.ofBitVec x)

/-- The quotient rounded down: one less than the quotient towards zero if there is a remainder and the signs of the
operands differ. -/
def floorDiv (a b : BitVec 64) : Computation (BitVec 64) := do
  if b = 0 then throw .integerDivision
  else
    let q ← checked (div? a b)
    let r ← unchecked (rem? a b)
    if r ≠ 0 ∧ a.slt 0 ≠ b.slt 0 then unchecked (sub? q 1) else pure q

/-- `a · 2 ^ b`, in a word of twice the length. -/
def shiftLeft (a b : BitVec 64) : Computation (BitVec 64) := do
  if b.slt 0 then throw .negativeShift
  else if a = 0 then pure 0
  else if BitVec.sle 64 b then throw .overflow
  else
    let wide ← unchecked (shl? (a.signExtend 128) b.toNat)
    checked (narrow? 64 wide)

/-- `a / 2 ^ b`, rounded down. -/
def shiftRight (a b : BitVec 64) : Computation (BitVec 64) :=
  if b.slt 0 then throw .negativeShift else unchecked (sar? a (min b.toNat 63))

/-! ### Single operations -/

/-- The integers that fit are those of words of 64 bits. -/
theorem fits_iff_exists (n : Int) : Value.Fits n ↔ ∃ x : BitVec 64, x.toInt = n := by
  refine ⟨fun h => ⟨.ofInt 64 n, BitVec.toInt_ofInt_eq_self (by decide) h.1 h.2⟩, ?_⟩
  rintro ⟨x, rfl⟩
  exact ⟨x.le_toInt, BitVec.toInt_lt⟩

theorem fit_toInt (x : BitVec 64) : Value.fit x.toInt = .ok (.int (.ofBitVec x)) := by
  rw [← Int64.toInt_ofBitVec, Value.fit_of_fits (Value.fits_toInt _), Int64.ofInt_toInt]

/-- A checked operation that gives `n` does what fitting does. -/
theorem outcome_checked {x? : Option (BitVec 64)} {n : Int} (h : Gives x? n) :
    outcome (checked x?) = some (Value.fit n) := by
  cases x? with
  | some x =>
    rw [← (h x).mp rfl, fit_toInt]
    rfl
  | none =>
    rw [Value.fit_of_not_fits]
    · rfl
    · rw [fits_iff_exists]
      rintro ⟨x, hx⟩
      exact nomatch (h x).mpr hx

/-- An operation needs no check where its exact result fits. -/
theorem outcome_unchecked {x? : Option (BitVec 64)} {n : Int} (h : Gives x? n) (hn : Value.Fits n) :
    outcome (unchecked x?) = some (Value.fit n) := by
  obtain ⟨x, rfl⟩ := (fits_iff_exists n).mp hn
  rw [(h x).mpr rfl, fit_toInt]
  rfl

/-- A result that is corrected by an unchecked operation where it is not exact is exact if the exact one fits. -/
theorem outcome_corrected {wrong : Prop} [Decidable wrong] {x : BitVec 64} {x? : Option (BitVec 64)} {n : Int}
    (hwrong : wrong → Gives x? n) (hright : ¬ wrong → x.toInt = n) (hn : Value.Fits n) :
    outcome (if wrong then unchecked x? else pure x) = some (Value.fit n) := by
  split
  · next h => exact outcome_unchecked (hwrong h) hn
  · next h =>
    rw [← hright h, fit_toInt]
    rfl

/-! ### Division -/

theorem slt_ne_slt_iff (x y : BitVec 64) : x.slt 0 ≠ y.slt 0 ↔ ¬ (x.toInt < 0 ↔ y.toInt < 0) := by
  rw [Ne, Bool.eq_iff_iff, BitVec.slt_iff_toInt_lt, BitVec.slt_iff_toInt_lt]
  rfl

theorem ne_zero_iff (x : BitVec 64) : x ≠ 0 ↔ x.toInt ≠ 0 :=
  BitVec.toInt_inj.not.symm

theorem sdivOverflow_iff (x y : BitVec 64) :
    x.sdivOverflow y = true ↔ x.toInt = -0x8000000000000000 ∧ y.toInt = -1 := by
  have hmin : (BitVec.intMin 64).toInt = -0x8000000000000000 := by decide
  have hone : (BitVec.allOnes 64).toInt = -1 := by decide
  rw [BitVec.sdivOverflow_eq, ← hmin, ← hone, BitVec.toInt_inj, BitVec.toInt_inj]
  simp

/-- Rounded down, a quotient is one less than rounded towards zero if it is negative and not whole. -/
theorem fdiv_eq_tdiv_sub (a : Int) {b : Int} (hb : b ≠ 0) :
    a.fdiv b = a.tdiv b - if a.tmod b ≠ 0 ∧ ¬ (a < 0 ↔ b < 0) then 1 else 0 := by
  rw [Int.fdiv_eq_tdiv]
  simp only [Int.dvd_iff_tmod_eq_zero]
  rcases Int.lt_or_gt_of_ne hb with hneg | hpos
  · rw [Int.sign_eq_neg_one_of_neg hneg]
    split_ifs <;> omega
  · rw [Int.sign_eq_one_of_pos hpos]
    split_ifs <;> omega

/-- A quotient rounded down is no further from zero than the dividend, and not above the quotient towards zero. -/
theorem fits_fdiv {a b : Int} (hb : b ≠ 0) (ha : Value.Fits a) (hq : Value.Fits (a.tdiv b)) : Value.Fits (a.fdiv b) := by
  have hle := Int.natAbs_fdiv_le_natAbs a b
  have hsub := fdiv_eq_tdiv_sub a hb
  unfold Value.Fits at *
  split at hsub <;> omega

/-- A quotient that exists is exact, and then there is a remainder as well. -/
theorem div?_of_not_sdivOverflow {x y : BitVec 64} (hy : y ≠ 0) (h : x.sdivOverflow y = false) :
    div? x y = some (x.sdiv y) ∧ rem? x y = some (x.srem y) ∧ (x.sdiv y).toInt = x.toInt.tdiv y.toInt := by
  have hguard : (y == 0 || x.sdivOverflow y) = false := by simpa [h] using hy
  refine ⟨by simp only [div?, guarded, hguard]; rfl, by simp only [rem?, guarded, hguard]; rfl, ?_⟩
  apply BitVec.toInt_sdiv_of_ne_or_ne
  by_contra hand
  obtain ⟨rfl, rfl⟩ : x = BitVec.intMin 64 ∧ y = -1 := by simpa using hand
  exact absurd h (by decide)

/-- The quotient rounded down is fitted, or refused; the remainder and the correction never fail. -/
theorem outcome_floorDiv (x y : BitVec 64) :
    outcome (floorDiv x y) =
      some (if y.toInt = 0 then .error .integerDivision else Value.fit (x.toInt.fdiv y.toInt)) := by
  by_cases hy : y = 0
  · subst hy
    rfl
  have hy' : y.toInt ≠ 0 := (ne_zero_iff y).mp hy
  rw [if_neg hy']
  cases hover : x.sdivOverflow y with
  | true =>
    have hdiv : div? x y = none := by simp [div?, guarded, hover]
    obtain ⟨hmin, hone⟩ := (sdivOverflow_iff x y).mp hover
    rw [hmin, hone]
    simp only [floorDiv, if_neg hy, hdiv]
    rfl
  | false =>
    obtain ⟨hdiv, hrem, hquot⟩ := div?_of_not_sdivOverflow hy hover
    have hrun : floorDiv x y =
        if x.srem y ≠ 0 ∧ x.slt 0 ≠ y.slt 0 then unchecked (sub? (x.sdiv y) 1) else pure (x.sdiv y) := by
      simp only [floorDiv, if_neg hy, hdiv, hrem]
      rfl
    have hfits : Value.Fits (x.toInt.fdiv y.toInt) :=
      fits_fdiv hy' ((fits_iff_exists _).mpr ⟨x, rfl⟩) ((fits_iff_exists _).mpr ⟨_, hquot⟩)
    simp only [hrun, slt_ne_slt_iff, ne_zero_iff, BitVec.toInt_srem]
    refine outcome_corrected (fun h => ?_) (fun h => ?_) hfits
    · rw [fdiv_eq_tdiv_sub _ hy', if_pos h, ← hquot]
      exact gives_sub _ 1
    · rw [fdiv_eq_tdiv_sub _ hy', if_neg h, Int.sub_zero, hquot]

/-! ### Shifts of words -/

theorem toNat_toInt {x : BitVec 64} (h : 0 ≤ x.toInt) : x.toInt.toNat = x.toNat := by
  have hlt := x.isLt
  rw [BitVec.toInt_eq_toNat_cond] at h ⊢
  split at h <;> omega

/-- A word times a power of two below `2 ^ 64` fits in twice as many bits. -/
theorem exists_toInt_eq_mul_two_pow (x : BitVec 64) {n : Nat} (hn : n < 64) :
    ∃ y : BitVec 128, y.toInt = x.toInt * 2 ^ n := by
  have hpos : (0 : Int) < 2 ^ n := by positivity
  have hle : (2 : Int) ^ n ≤ 2 ^ 63 := by exact_mod_cast Nat.pow_le_pow_right (by decide) (by omega)
  have hlow := Int.mul_le_mul_of_nonneg_right x.le_toInt hpos.le
  have hhigh := Int.mul_le_mul_of_nonneg_right (BitVec.toInt_le (x := x)) hpos.le
  exact ⟨.ofInt 128 (x.toInt * 2 ^ n), BitVec.toInt_ofInt_eq_self (by decide) (by omega) (by omega)⟩

/-- The shift in the longer word never fails, so that only what does not fit in the end is refused. -/
theorem outcome_shiftLeft (x y : BitVec 64) :
    outcome (shiftLeft x y) =
      some (if y.toInt < 0 then .error .negativeShift
        else if x.toInt = 0 then .ok (.int 0)
        else if 64 ≤ y.toInt then .error .overflow
        else Value.fit (x.toInt <<< y.toInt.toNat)) := by
  have hneg : y.slt 0 = true ↔ y.toInt < 0 := BitVec.slt_iff_toInt_lt
  have hzero : x = 0 ↔ x.toInt = 0 := BitVec.toInt_inj.symm
  have hlong : BitVec.sle 64 y = true ↔ 64 ≤ y.toInt := BitVec.sle_iff_toInt_le
  simp only [shiftLeft, hneg, hzero, hlong]
  split_ifs with h h h
  · rfl
  · rfl
  · rfl
  · have hn : y.toNat < 64 := by
      rw [← toNat_toInt (by omega)]
      omega
    obtain ⟨wide, hwide⟩ := exists_toInt_eq_mul_two_pow x hn
    have hshl : shl? (x.signExtend 128) y.toNat = some wide := by
      rw [gives_shl (by omega), BitVec.toInt_signExtend_of_le (by decide), hwide]
    rw [hshl, toNat_toInt (by omega), Int.shiftLeft_eq, ← hwide]
    exact outcome_checked (gives_narrow (by decide) wide)

/-- Cut at 63, the amount is always less than the width. -/
theorem outcome_shiftRight (x y : BitVec 64) :
    outcome (shiftRight x y) =
      some (if y.toInt < 0 then .error .negativeShift
        else .ok (.int (Int64.ofInt (x.toInt >>> min y.toInt.toNat 63)))) := by
  have hneg : y.slt 0 = true ↔ y.toInt < 0 := BitVec.slt_iff_toInt_lt
  simp only [shiftRight, hneg]
  split
  · rfl
  · next h =>
    rw [sar?_eq_some (by omega), toNat_toInt (by omega), ← BitVec.toInt_sshiftRight, ← Int64.toInt_ofBitVec,
      Int64.ofInt_toInt]
    rfl

/-! ## Agreement with the operators -/

/-- The operators on the integers `v` and `w` give what computations on their words give. In particular these
computations have an outcome, so that none of their unchecked operations is without a result. -/
structure Agrees (v w : Value) (x y : BitVec 64) : Prop where
  /-- the sum, one checked operation -/
  add : outcome (checked (add? x y)) = some (v.add w)
  /-- the difference, one checked operation -/
  sub : outcome (checked (sub? x y)) = some (v.sub w)
  /-- the product, one checked operation -/
  mul : outcome (checked (mul? x y)) = some (v.mul w)
  /-- the negation, one checked operation -/
  neg : outcome (checked (neg? x)) = some v.neg
  /-- the quotient rounded down, with its remainder and its correction -/
  floorDiv : outcome (floorDiv x y) = some (v.floorDiv w)
  /-- the shift to the left, in a longer word -/
  shiftLeft : outcome (shiftLeft x y) = some (v.shiftLeft w)
  /-- the shift to the right -/
  shiftRight : outcome (shiftRight x y) = some (v.shiftRight w)

end Machine

namespace Value

/-! ## Exact operators -/

/-- The result is the integer `n`, or an overflow where no integer of 64 bits is `n`. -/
inductive IsExact (n : Int) : Except EvalError Value → Prop
  /-- `n` is an integer of 64 bits -/
  | fits (k : Int64) (h : k.toInt = n) : IsExact n (.ok (.int k))
  /-- `n` is none -/
  | overflows (h : ∀ k : Int64, k.toInt ≠ n) : IsExact n (.error .overflow)

theorem isExact_fit (n : Int) : IsExact n (fit n) := by
  by_cases h : Fits n
  · rw [fit_of_fits h]
    exact .fits _ (toInt_ofInt_of_fits h)
  · rw [fit_of_not_fits h]
    exact .overflows fun k hk => h (hk ▸ fits_toInt k)

theorem IsExact.eq_ok {n : Int} {r : Except EvalError Value} (h : IsExact n r) (k : Int64) (hk : k.toInt = n) :
    r = .ok (.int k) := by
  cases h with
  | fits m hm => rw [Int64.toInt_inj.mp (hm.trans hk.symm)]
  | overflows hnone => exact absurd hk (hnone k)

theorem IsExact.eq_error {n : Int} {r : Except EvalError Value} (h : IsExact n r) (hn : ¬ Fits n) :
    r = .error .overflow := by
  cases h with
  | fits m hm => exact absurd (hm ▸ fits_toInt m) hn
  | overflows => rfl

/-! ### Rational quotients -/

/-- A division rounded down is the rational quotient rounded down. -/
theorem floor_div_eq_fdiv (a b : Int) : ⌊(a : ℚ) / b⌋ = a.fdiv b := by
  obtain ⟨n, rfl | rfl⟩ := b.eq_nat_or_neg
  · rw [Int.fdiv_eq_ediv_of_nonneg _ (Int.natCast_nonneg n), Int.cast_natCast, Rat.floor_intCast_div_natCast]
  · have hneg : (a : ℚ) / (-(n : Int) : Int) = (-a : Int) / (n : Nat) := by
      push_cast
      rw [div_neg, neg_div]
    rw [hneg, Rat.floor_intCast_div_natCast, ← Int.neg_fdiv_neg, neg_neg,
      Int.fdiv_eq_ediv_of_nonneg _ (Int.natCast_nonneg n)]

theorem floor_div_two_pow (a : Int64) (s : Nat) : ⌊(a.toInt : ℚ) / 2 ^ s⌋ = a.toInt >>> min s 63 := by
  have hpow : (2 : ℚ) ^ s = ((2 ^ s : Int) : ℚ) := by push_cast; rfl
  rw [hpow, floor_div_eq_fdiv, Word.shiftRight_eq_fdiv]

/-! ### Integers and truth values -/

section Integers

variable {v w : Value} {a b : Int64}

theorem toInt?_of_toInt64? (hv : v.toInt64? = some a) : v.toInt? = some a.toInt := by
  rw [toInt?, hv, Option.map_some]

theorem operands_of_toInt64? (hv : v.toInt64? = some a) (hw : w.toInt64? = some b) :
    operands v w = .ints a.toInt b.toInt := by
  rw [operands, toInt?_of_toInt64? hv, toInt?_of_toInt64? hw]

theorem intOperands_of_toInt64? (symbol : String) (hv : v.toInt64? = some a) (hw : w.toInt64? = some b) :
    intOperands symbol v w = .ok (a, b) := by
  rw [intOperands, hv, hw]

theorem add_of_toInt64? (hv : v.toInt64? = some a) (hw : w.toInt64? = some b) :
    add v w = fit (a.toInt + b.toInt) := by
  simp only [add, operands_of_toInt64? hv hw]

theorem sub_of_toInt64? (hv : v.toInt64? = some a) (hw : w.toInt64? = some b) :
    sub v w = fit (a.toInt - b.toInt) := by
  simp only [sub, operands_of_toInt64? hv hw]

theorem mul_of_toInt64? (hv : v.toInt64? = some a) (hw : w.toInt64? = some b) :
    mul v w = fit (a.toInt * b.toInt) := by
  simp only [mul, operands_of_toInt64? hv hw]

theorem neg_of_toInt64? (hv : v.toInt64? = some a) : neg v = fit (-a.toInt) := by
  cases v with
  | int n => rw [neg, Option.some.inj hv]
  | bool c => rw [neg, Option.some.inj hv]
  | float x => exact nomatch hv

theorem floorDiv_of_toInt64? (hv : v.toInt64? = some a) (hw : w.toInt64? = some b) :
    floorDiv v w = if b.toInt = 0 then .error .integerDivision else fit (a.toInt.fdiv b.toInt) := by
  simp only [floorDiv, operands_of_toInt64? hv hw]

theorem shiftLeft_of_toInt64? (hv : v.toInt64? = some a) (hw : w.toInt64? = some b) :
    shiftLeft v w =
      if b.toInt < 0 then .error .negativeShift
      else if a.toInt = 0 then .ok (.int 0)
      else if 64 ≤ b.toInt then .error .overflow
      else fit (a.toInt <<< b.toInt.toNat) := by
  rw [shiftLeft, intOperands_of_toInt64? "<<" hv hw]
  rfl

theorem shiftRight_of_toInt64? (hv : v.toInt64? = some a) (hw : w.toInt64? = some b) :
    shiftRight v w =
      if b.toInt < 0 then .error .negativeShift
      else .ok (.int (Int64.ofInt (a.toInt >>> min b.toInt.toNat 63))) := by
  rw [shiftRight, intOperands_of_toInt64? ">>" hv hw]
  rfl

/-- Another number than zero does not fit any more after a shift by 64 or more. -/
theorem not_fits_mul_two_pow {n : Int} (hn : n ≠ 0) {s : Nat} (hs : 64 ≤ s) : ¬ Fits (n * 2 ^ s) := by
  have hle : (2 : Int) ^ 64 ≤ 2 ^ s := by exact_mod_cast Nat.pow_le_pow_right (by decide) hs
  rintro ⟨hlow, hhigh⟩
  rcases Int.lt_or_gt_of_ne hn with hneg | hpos
  · have hmul := Int.mul_le_mul_of_nonneg_right (c := 2 ^ s) (show n ≤ -1 by omega) (by omega)
    omega
  · have hmul := Int.mul_le_mul_of_nonneg_right (c := 2 ^ s) (show 1 ≤ n by omega) (by omega)
    omega

theorem isExact_shiftLeft (hv : v.toInt64? = some a) (hw : w.toInt64? = some b) (hb : 0 ≤ b.toInt) :
    IsExact (a.toInt * 2 ^ b.toInt.toNat) (shiftLeft v w) := by
  rw [shiftLeft_of_toInt64? hv hw, if_neg (by omega)]
  split_ifs with hzero hlong
  · exact .fits 0 (by rw [hzero, Int.zero_mul]; rfl)
  · exact .overflows fun k hk => not_fits_mul_two_pow hzero (by omega) (hk ▸ fits_toInt k)
  · rw [Int.shiftLeft_eq]
    exact isExact_fit _

/-- The operators on integers are computations on words. -/
theorem agrees (hv : v.toInt64? = some a) (hw : w.toInt64? = some b) :
    Machine.Agrees v w a.toBitVec b.toBitVec where
  add := by
    rw [Machine.outcome_checked (Machine.gives_add _ _), add_of_toInt64? hv hw]
    rfl
  sub := by
    rw [Machine.outcome_checked (Machine.gives_sub _ _), sub_of_toInt64? hv hw]
    rfl
  mul := by
    rw [Machine.outcome_checked (Machine.gives_mul _ _), mul_of_toInt64? hv hw]
    rfl
  neg := by
    rw [Machine.outcome_checked (Machine.gives_neg _), neg_of_toInt64? hv]
    rfl
  floorDiv := by
    rw [Machine.outcome_floorDiv, floorDiv_of_toInt64? hv hw]
    rfl
  shiftLeft := by
    rw [Machine.outcome_shiftLeft, shiftLeft_of_toInt64? hv hw]
    rfl
  shiftRight := by
    rw [Machine.outcome_shiftRight, shiftRight_of_toInt64? hv hw]
    rfl

/-- **The operators on integers are exact.** Between integers and truth values, sums, differences, products,
negations, quotients rounded down and shifts to the left give the exact result if it is an integer of 64 bits, and
are an overflow otherwise. Shifts to the right always give the exact result. The computations on words give the same,
and no operation in them is without a result. -/
theorem exact_integers (hv : v.toInt64? = some a) (hw : w.toInt64? = some b) :
    (IsExact (a.toInt + b.toInt) (add v w) ∧ IsExact (a.toInt - b.toInt) (sub v w) ∧
      IsExact (a.toInt * b.toInt) (mul v w) ∧ IsExact (-a.toInt) (neg v)) ∧
    (b.toInt ≠ 0 → IsExact ⌊(a.toInt : ℚ) / b.toInt⌋ (floorDiv v w)) ∧
    (0 ≤ b.toInt →
      IsExact (a.toInt * 2 ^ b.toInt.toNat) (shiftLeft v w) ∧
      (a.toInt = 0 → shiftLeft v w = .ok (.int 0)) ∧
      ∃ k : Int64, shiftRight v w = .ok (.int k) ∧ k.toInt = ⌊(a.toInt : ℚ) / 2 ^ b.toInt.toNat⌋) ∧
    Machine.Agrees v w a.toBitVec b.toBitVec ∧ EvalError.overflow.message = "integer overflow" := by
  refine ⟨⟨?_, ?_, ?_, ?_⟩, fun hb => ?_, fun hb => ⟨?_, fun ha => ?_, ?_⟩, agrees hv hw, rfl⟩
  · rw [add_of_toInt64? hv hw]
    exact isExact_fit _
  · rw [sub_of_toInt64? hv hw]
    exact isExact_fit _
  · rw [mul_of_toInt64? hv hw]
    exact isExact_fit _
  · rw [neg_of_toInt64? hv]
    exact isExact_fit _
  · rw [floorDiv_of_toInt64? hv hw, if_neg hb, floor_div_eq_fdiv]
    exact isExact_fit _
  · exact isExact_shiftLeft hv hw hb
  · exact (isExact_shiftLeft hv hw hb).eq_ok 0 (by rw [ha, Int.zero_mul]; rfl)
  · rw [shiftRight_of_toInt64? hv hw, if_neg (by omega)]
    exact ⟨_, rfl, by rw [floor_div_two_pow, toInt_ofInt_of_fits (Word.fits_shiftRight a _)]⟩

end Integers

/-- At the ends of the range: the quotient that does not fit, the shift that just fits, a shift beyond the width, and
a truth value. -/
theorem exact_integers_ends :
    floorDiv (.int Int64.minValue) (.int (-1)) = .error .overflow ∧
    shiftLeft (.int (-1)) (.int 63) = .ok (.int Int64.minValue) ∧
    shiftRight (.int (-5)) (.int 64) = .ok (.int (-1)) ∧
    add (.int Int64.maxValue) (.bool true) = .error .overflow ∧
    Machine.outcome (Machine.floorDiv (BitVec.ofInt 64 (-7)) 2) = some (.ok (.int (-4))) := by
  refine ⟨?_, ?_, ?_, ?_, ?_⟩
  · obtain ⟨-, hdiv, -⟩ := exact_integers (v := .int Int64.minValue) (w := .int (-1)) rfl rfl
    exact (hdiv (by decide)).eq_error (by rw [floor_div_eq_fdiv]; decide)
  · obtain ⟨-, -, hshift, -⟩ := exact_integers (v := .int (-1)) (w := .int 63) rfl rfl
    exact (hshift (by decide)).1.eq_ok _ (by decide)
  · obtain ⟨-, -, hshift, -⟩ := exact_integers (v := .int (-5)) (w := .int 64) rfl rfl
    obtain ⟨k, hk, hfloor⟩ := (hshift (by decide)).2.2
    have hone : k.toInt = (-1 : Int64).toInt := by rw [hfloor, floor_div_two_pow]; decide
    rw [hk, Int64.toInt_inj.mp hone]
  · obtain ⟨⟨hadd, -⟩, -⟩ := exact_integers (v := .int Int64.maxValue) (w := .bool true) rfl rfl
    exact hadd.eq_error (by decide)
  · obtain ⟨-, hdiv, -, hmachine, -⟩ := exact_integers (v := .int (-7)) (w := .int 2) rfl rfl
    have hquot : floorDiv (.int (-7)) (.int 2) = .ok (.int (-4)) :=
      (hdiv (by decide)).eq_ok _ (by rw [floor_div_eq_fdiv]; decide)
    exact hquot ▸ hmachine.floorDiv

end Value

end Interpolate
