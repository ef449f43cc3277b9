import Interpolate.Proofs.Machine

/-!
# Remainders

A machine divides towards zero, and what is left then has the sign of the dividend. What is left of a division rounded
down has the sign of the divisor, so that it is the same or one divisor more. A machine gives a remainder only along
with a quotient, and the least integer has no quotient by -1. There the remainder is refused, though it is zero; no
other remainder is refused, and the correction by one divisor never fails.

* **`fmod_eq_tmod_add`** — the two remainders beside each other;
* **`floorRem`**, **`outcome_floorRem`** — the remainder as a computation on words, and what it comes to;
* **`IsRemainder`**, **`Value.rem_integers`** — the operator gives the remainder of all integers but the two that have
  no quotient.
-/

namespace Interpolate

namespace Machine

/-! ## Two remainders -/

/-- Towards zero, a division leaves nothing or something with the sign of the dividend. -/
theorem tmod_neg_iff {a b : Int} (h : a.tmod b ≠ 0) : a.tmod b < 0 ↔ a < 0 := by
  have hsign := Int.sign_tmod a b
  rw [if_neg (by rwa [Int.dvd_iff_tmod_eq_zero])] at hsign
  rw [← Int.sign_eq_neg_one_iff_neg, hsign, Int.sign_eq_neg_one_iff_neg]

/-- Rounded down, a division leaves one divisor more where the sign would be wrong. -/
theorem fmod_eq_tmod_add (a : Int) {b : Int} (hb : b ≠ 0) :
    a.fmod b = a.tmod b + if a.tmod b ≠ 0 ∧ ¬ (a.tmod b < 0 ↔ b < 0) then b else 0 := by
  have hsign : (a.tmod b ≠ 0 ∧ ¬ (a.tmod b < 0 ↔ b < 0)) ↔ (a.tmod b ≠ 0 ∧ ¬ (a < 0 ↔ b < 0)) :=
    and_congr_right fun h => by rw [tmod_neg_iff h]
  simp only [hsign]
  rw [Int.fmod_def, fdiv_eq_tdiv_sub a hb, Int.mul_sub, Int.tmod_def]
  split <;> omega

/-- Rounded down, a division leaves something between zero and the divisor. -/
theorem fmod_bounds (a : Int) {b : Int} (hb : b ≠ 0) :
    (0 ≤ a.fmod b ∧ a.fmod b < b) ∨ (b < a.fmod b ∧ a.fmod b ≤ 0) := by
  rcases Int.lt_or_gt_of_ne hb with hneg | hpos
  · have hnonneg := Int.fmod_nonneg_of_pos (-a) (Int.neg_pos_of_neg hneg)
    have hlt := Int.fmod_lt_of_pos (-a) (Int.neg_pos_of_neg hneg)
    rw [Int.neg_fmod_neg] at hnonneg hlt
    exact .inr ⟨by omega, by omega⟩
  · exact .inl ⟨Int.fmod_nonneg_of_pos a hpos, Int.fmod_lt_of_pos a hpos⟩

theorem fits_fmod (a : Int) {b : Int} (hb : b ≠ 0) (h : Value.Fits b) : Value.Fits (a.fmod b) := by
  have hbounds := fmod_bounds a hb
  unfold Value.Fits at *
  omega

/-! ## The remainder on words -/

/-- The remainder of a division rounded down: the remainder towards zero, and one divisor more if there is a remainder
and its sign is not the divisor's. -/
def floorRem (a b : BitVec 64) : Computation (BitVec 64) := do
  if b = 0 then throw .integerDivision
  else
    let r ← checked (rem? a b)
    if r ≠ 0 ∧ r.slt 0 ≠ b.slt 0 then unchecked (add? r b) else pure r

/-- Rounded down or not, a quotient fits exactly if the machine's division does not overflow. -/
theorem fits_fdiv_iff {x y : BitVec 64} (hy : y ≠ 0) :
    Value.Fits (x.toInt.fdiv y.toInt) ↔ x.sdivOverflow y = false := by
  cases hover : x.sdivOverflow y with
  | true =>
    obtain ⟨hmin, hone⟩ := (sdivOverflow_iff x y).mp hover
    rw [hmin, hone]
    decide
  | false =>
    obtain ⟨-, -, hquot⟩ := div?_of_not_sdivOverflow hy hover
    have hfits := fits_fdiv ((ne_zero_iff y).mp hy) ((fits_iff_exists _).mpr ⟨x, rfl⟩)
      ((fits_iff_exists _).mpr ⟨_, hquot⟩)
    simpa using hfits

/-- The remainder is fitted, or refused where the quotient would be; the correction never fails. -/
theorem outcome_floorRem (x y : BitVec 64) :
    outcome (floorRem x y) =
      some (if y.toInt = 0 then .error .integerDivision
        else if Value.Fits (x.toInt.fdiv y.toInt) then Value.fit (x.toInt.fmod y.toInt)
        else .error .overflow) := by
  by_cases hy : y = 0
  · subst hy
    rfl
  have hy' : y.toInt ≠ 0 := (ne_zero_iff y).mp hy
  rw [if_neg hy']
  cases hover : x.sdivOverflow y with
  | true =>
    have hrem : rem? x y = none := by simp [rem?, guarded, hover]
    have hfits : ¬ Value.Fits (x.toInt.fdiv y.toInt) := by simp [fits_fdiv_iff hy, hover]
    simp only [floorRem, if_neg hy, hrem, if_neg hfits]
    rfl
  | false =>
    obtain ⟨-, hrem, -⟩ := div?_of_not_sdivOverflow hy hover
    have hrun : floorRem x y =
        if x.srem y ≠ 0 ∧ (x.srem y).slt 0 ≠ y.slt 0 then unchecked (add? (x.srem y) y) else pure (x.srem y) := by
      simp only [floorRem, if_neg hy, hrem]
      rfl
    have hfits := fits_fmod x.toInt hy' ((fits_iff_exists _).mpr ⟨y, rfl⟩)
    rw [if_pos ((fits_fdiv_iff hy).mpr hover)]
    simp only [hrun, slt_ne_slt_iff, ne_zero_iff, BitVec.toInt_srem]
    refine outcome_corrected (fun h => ?_) (fun h => ?_) hfits
    · rw [fmod_eq_tmod_add _ hy', if_pos h, ← BitVec.toInt_srem]
      exact gives_add _ y
    · rw [fmod_eq_tmod_add _ hy', if_neg h, Int.add_zero, BitVec.toInt_srem]

end Machine

namespace Value

/-! ## The operator -/

/-- The number `r` is what `a` leaves when it is divided by `b` and the quotient is rounded down. -/
structure IsRemainder (a b r : Int) : Prop where
  /-- it is left of `a` -/
  eq_sub : r = a - b * ⌊(a : ℚ) / b⌋
  /-- it is zero or has the sign of the divisor -/
  sign : r = 0 ∨ r.sign = b.sign
  /-- it is smaller than the divisor -/
  natAbs_lt : r.natAbs < b.natAbs

theorem isRemainder_fmod (a : Int) {b : Int} (hb : b ≠ 0) : IsRemainder a b (a.fmod b) where
  eq_sub := by rw [floor_div_eq_fdiv, Int.fmod_def]
  sign := by
    rcases Machine.fmod_bounds a hb with ⟨hlow, hhigh⟩ | ⟨hlow, hhigh⟩
    · rcases hlow.eq_or_lt with hzero | hpos
      · exact .inl hzero.symm
      · exact .inr (by rw [Int.sign_eq_one_of_pos hpos, Int.sign_eq_one_of_pos (hpos.trans hhigh)])
    · rcases hhigh.eq_or_lt with hzero | hneg
      · exact .inl hzero
      · exact .inr (by rw [Int.sign_eq_neg_one_of_neg hneg, Int.sign_eq_neg_one_of_neg (hlow.trans hneg)])
  natAbs_lt := by
    have hbounds := Machine.fmod_bounds a hb
    omega

theorem IsRemainder.eq_of_fmod {a b : Int} {r k : Int64} (h : IsRemainder a b r.toInt) (hk : k.toInt = a.fmod b) :
    r = k := by
  rw [← Int64.toInt_inj, hk, h.eq_sub, floor_div_eq_fdiv, Int.fmod_def]

section Integers

variable {v w : Value} {a b : Int64}

theorem rem_of_toInt64? (hv : v.toInt64? = some a) (hw : w.toInt64? = some b) :
    rem v w =
      if b.toInt = 0 then .error .integerDivision
      else if Fits (a.toInt.fdiv b.toInt) then fit (a.toInt.fmod b.toInt)
      else .error .overflow := by
  simp only [rem, operands_of_toInt64? hv hw]

/-- Only the least integer has a quotient that does not fit, the one by -1. -/
theorem fits_fdiv_iff_ne (hb : b.toInt ≠ 0) : Fits (a.toInt.fdiv b.toInt) ↔ ¬ (a = Int64.minValue ∧ b = -1) := by
  have hb' : b.toBitVec ≠ 0 := (Machine.ne_zero_iff _).mpr hb
  have hover := Machine.sdivOverflow_iff a.toBitVec b.toBitVec
  have hleast : Int64.minValue.toInt = -0x8000000000000000 := by decide
  have hone : (-1 : Int64).toInt = -1 := by decide
  rw [← Int64.toInt_inj, ← Int64.toInt_inj, hleast, hone]
  exact (Machine.fits_fdiv_iff hb').trans (Bool.eq_false_iff.trans (not_congr hover))

/-- **Remainders of integers.** Between integers and truth values the remainder of a division rounded down exists and
is exact, but for a division by zero and for that of the least integer by -1, whose remainder, zero, is refused as an
overflow. The computation on words gives the same. -/
theorem rem_integers (hv : v.toInt64? = some a) (hw : w.toInt64? = some b) :
    (b.toInt ≠ 0 → ¬ (a = Int64.minValue ∧ b = -1) →
      ∃ r : Int64, rem v w = .ok (.int r) ∧ IsRemainder a.toInt b.toInt r.toInt) ∧
    (a = Int64.minValue → b = -1 → rem v w = .error .overflow) ∧
    (b.toInt = 0 → rem v w = .error .integerDivision) ∧
    Machine.outcome (Machine.floorRem a.toBitVec b.toBitVec) = some (rem v w) := by
  rw [rem_of_toInt64? hv hw]
  refine ⟨fun hb hquot => ?_, ?_, fun hb => if_pos hb, Machine.outcome_floorRem _ _⟩
  · have hfits := Machine.fits_fmod a.toInt hb (fits_toInt b)
    rw [if_neg hb, if_pos ((fits_fdiv_iff_ne hb).mpr hquot), fit_of_fits hfits]
    exact ⟨_, rfl, by rw [toInt_ofInt_of_fits hfits]; exact isRemainder_fmod _ hb⟩
  · rintro rfl rfl
    rfl

end Integers

/-- At the ends of the range a remainder has the sign of the divisor as well. A truth value divides as a number. -/
theorem rem_integers_ends :
    rem (.int Int64.minValue) (.int Int64.maxValue) = .ok (.int (Int64.maxValue - 1)) ∧
    rem (.int Int64.maxValue) (.int Int64.minValue) = .ok (.int (-1)) ∧
    rem (.int Int64.minValue) (.bool true) = .ok (.int 0) := by
  refine ⟨?_, ?_, ?_⟩
  · obtain ⟨hrem, -⟩ := rem_integers (v := .int Int64.minValue) (w := .int Int64.maxValue) rfl rfl
    obtain ⟨r, hr, hleft⟩ := hrem (by decide) (by decide)
    rw [hr, hleft.eq_of_fmod (k := Int64.maxValue - 1) (by decide)]
  · obtain ⟨hrem, -⟩ := rem_integers (v := .int Int64.maxValue) (w := .int Int64.minValue) rfl rfl
    obtain ⟨r, hr, hleft⟩ := hrem (by decide) (by decide)
    rw [hr, hleft.eq_of_fmod (k := -1) (by decide)]
  · obtain ⟨hrem, -⟩ := rem_integers (v := .int Int64.minValue) (w := .bool true) rfl rfl
    obtain ⟨r, hr, hleft⟩ := hrem (by decide) (by decide)
    rw [hr, hleft.eq_of_fmod (k := 0) (by decide)]

/-- Divided by -1 the least integer leaves zero, but the operator has no value there. -/
theorem rem_least :
    IsRemainder Int64.minValue.toInt (-1 : Int64).toInt 0 ∧ ∀ u, rem (.int Int64.minValue) (.int (-1)) ≠ .ok u :=
  ⟨isRemainder_fmod _ (by decide), fun _ => nofun⟩

end Value

end Interpolate
