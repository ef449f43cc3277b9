import Interpolate.Value.Bitwise
import Mathlib.Data.Int.Bitwise

/-!
# Words as integers

A word of 64 bits stands for an integer in two's complement: its first bit goes on to the left without end. Read
so, the operators on the bits of words are the operators on the bits of all integers, and none of them can leave
the range of a word.

* **`testBit_toInt`** — the bits of the integer behind a word;
* **`toInt_and`**, **`toInt_or`**, **`toInt_xor`**, **`toInt_not`** — bit by bit, with or without a width;
* **`shiftRight_eq_fdiv`** — a shift to the right is a division rounded down, however far it goes.
-/

namespace Interpolate

namespace Word

/-! ## The bits of integers -/

theorem testBit_natCast (n i : Nat) : (n : Int).testBit i = n.testBit i := rfl

theorem testBit_negSucc (n i : Nat) : (Int.negSucc n).testBit i = !n.testBit i := rfl

/-- Far enough to the left, the bits of a natural number are zeros and those of a negative one are ones. -/
theorem exists_testBit_ne (m n : Nat) : ∃ i, (m : Int).testBit i ≠ (Int.negSucc n).testBit i := by
  have hlt : m + n < 2 ^ (m + n) := Nat.lt_two_pow_self
  have hm : m.testBit (m + n) = false := Nat.testBit_lt_two_pow (by omega)
  have hn : n.testBit (m + n) = false := Nat.testBit_lt_two_pow (by omega)
  exact ⟨m + n, by simp [testBit_natCast, testBit_negSucc, hm, hn]⟩

/-- An integer is determined by its bits. -/
theorem eq_of_testBit_eq {m n : Int} (h : ∀ i, m.testBit i = n.testBit i) : m = n := by
  cases m with
  | ofNat m =>
    cases n with
    | ofNat n => exact congrArg Int.ofNat (Nat.eq_of_testBit_eq h)
    | negSucc n =>
      obtain ⟨i, hi⟩ := exists_testBit_ne m n
      exact absurd (h i) hi
  | negSucc m =>
    cases n with
    | ofNat n =>
      obtain ⟨i, hi⟩ := exists_testBit_ne n m
      exact absurd (h i).symm hi
    | negSucc n => exact congrArg Int.negSucc (Nat.eq_of_testBit_eq fun i => Bool.not_inj (h i))

/-! ## The bits behind a word -/

section Bits

variable {w : Nat}

/-- The integer behind a word that starts with a one is counted down from the word with all bits turned. -/
theorem toInt_of_msb {x : BitVec w} (h : x.msb = true) : x.toInt = Int.negSucc (~~~x).toNat := by
  have hlt := x.isLt
  have hsub : 2 ^ w - 1 - x.toNat + x.toNat + 1 = 2 ^ w := by omega
  have hcast : ((2 ^ w - 1 - x.toNat : Nat) : Int) + x.toNat + 1 = (2 ^ w : Nat) := by exact_mod_cast hsub
  rw [BitVec.toInt_eq_msb_cond, h, BitVec.toNat_not, Int.negSucc_eq, if_pos rfl]
  omega

theorem testBit_toInt (x : BitVec w) (i : Nat) :
    x.toInt.testBit i = if i < w then x.getLsbD i else x.msb := by
  cases h : x.msb with
  | false =>
    rw [BitVec.toInt_eq_toNat_of_msb h, testBit_natCast, BitVec.testBit_toNat]
    split
    · rfl
    · exact BitVec.getLsbD_of_ge _ _ (by omega)
  | true =>
    rw [toInt_of_msb h, testBit_negSucc, BitVec.testBit_toNat, BitVec.getLsbD_not]
    split <;> simp_all

/-- An operator that joins words bit by bit, the first ones among them, joins their integers bit by bit. -/
theorem testBit_toInt_join {f : Bool → Bool → Bool} {x y z : BitVec w}
    (bits : ∀ i, i < w → z.getLsbD i = f (x.getLsbD i) (y.getLsbD i)) (first : z.msb = f x.msb y.msb) (i : Nat) :
    z.toInt.testBit i = f (x.toInt.testBit i) (y.toInt.testBit i) := by
  simp only [testBit_toInt]
  split
  · next hi => exact bits i hi
  · exact first

end Bits

theorem toInt_and (x y : Int64) : (x &&& y).toInt = Int.land x.toInt y.toInt := by
  refine eq_of_testBit_eq fun i => ?_
  rw [Int.testBit_land]
  exact testBit_toInt_join (fun _ _ => BitVec.getLsbD_and) BitVec.msb_and i

theorem toInt_or (x y : Int64) : (x ||| y).toInt = Int.lor x.toInt y.toInt := by
  refine eq_of_testBit_eq fun i => ?_
  rw [Int.testBit_lor]
  exact testBit_toInt_join (fun _ _ => BitVec.getLsbD_or) BitVec.msb_or i

theorem toInt_xor (x y : Int64) : (x ^^^ y).toInt = Int.xor x.toInt y.toInt := by
  refine eq_of_testBit_eq fun i => ?_
  rw [Int.testBit_lxor]
  exact testBit_toInt_join (fun _ _ => BitVec.getLsbD_xor) BitVec.msb_xor i

theorem toInt_not (x : Int64) : (~~~x).toInt = Int.lnot x.toInt := by
  refine eq_of_testBit_eq fun i => ?_
  rw [Int.testBit_lnot]
  change (~~~x.toBitVec).toInt.testBit i = !x.toBitVec.toInt.testBit i
  simp only [testBit_toInt, BitVec.getLsbD_not, BitVec.msb_not]
  split <;> simp_all

/-! ## Shifts to the right -/

/-- A divisor beyond a number leaves the sign alone. -/
theorem ediv_of_lt {a d : Int} (hlow : -d ≤ a) (hhigh : a < d) : a / d = if a < 0 then -1 else 0 := by
  split
  · next h => exact Int.ediv_eq_neg_one_of_neg_of_le h (by omega)
  · next h => exact Int.ediv_eq_zero_of_lt (by omega) hhigh

/-- Beyond 63 places every shift gives the same, so that the amount may be cut there. -/
theorem shiftRight_eq_fdiv (a : Int64) (s : Nat) : a.toInt >>> min s 63 = a.toInt.fdiv (2 ^ s) := by
  have hpow : (2 : Int) ^ s = (2 ^ s : Nat) := by norm_cast
  rw [Int.shiftRight_eq_div_pow, hpow, Int.fdiv_eq_ediv_of_nonneg _ (Int.natCast_nonneg _)]
  rcases Nat.le_total s 63 with hs | hs
  · rw [Nat.min_eq_left hs]
  · -- both divisors are beyond the number
    have hlarge : 2 ^ 63 ≤ 2 ^ s := Nat.pow_le_pow_right (by decide) hs
    have hlow := a.le_toInt
    have hhigh := a.toInt_lt
    rw [Nat.min_eq_right hs, ediv_of_lt, ediv_of_lt] <;> omega

theorem fits_shiftRight (a : Int64) (s : Nat) : Value.Fits (a.toInt >>> s) := by
  have hlow := a.le_toInt
  have hhigh := a.toInt_lt
  rcases Int.le_total 0 a.toInt with h | h
  · have hnonneg := Int.le_shiftRight_of_nonneg (s := s) h
    have hle := Int.shiftRight_le_of_nonneg (s := s) h
    constructor <;> omega
  · have hge := Int.le_shiftRight_of_nonpos (s := s) h
    have hnonpos := Int.shiftRight_le_of_nonpos (s := s) h
    constructor <;> omega

end Word

end Interpolate
