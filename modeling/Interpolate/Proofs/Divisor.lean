import Interpolate.Math.Library
import Interpolate.Proofs.Machine
import Mathlib.Algebra.GCDMonoid.Multiset
import Mathlib.Algebra.GCDMonoid.Nat

/-!
# Greatest common divisors

The greatest common divisor of several numbers does not depend on their order, but the way to it does: it is taken from
left to right, and what is found on the way has to fit into 64 bits. A divisor only gets smaller, so that all fits once
a divisor other than zero does. What does not fit is the size of the least integer, and that is met only where the least
integer is the first number other than zero. It is refused there, even if the numbers that follow would lead further
down.

* **`euclid`**, **`gcdFrom`**, **`outcome_gcdFrom`** — the algorithm of Euclid on words, over a list of them;
* **`divisor`**, **`StartsLeast`** — the greatest common divisor of all arguments, and the lists that are refused;
* **`gcd_integers`** — the function gives the one, except for the other, and no other order changes that.
-/

namespace Interpolate

namespace Machine

/-! ## The algorithm of Euclid -/

section Euclid

variable {w : Nat}

/-- The greatest common divisor of two words without signs. -/
def euclid (a b : BitVec w) : BitVec w :=
  if b = 0 then a else euclid b (a % b)
termination_by b.toNat
decreasing_by
  next h =>
    rw [BitVec.toNat_umod]
    exact Nat.mod_lt _ (Nat.pos_of_ne_zero fun hzero => h (BitVec.eq_of_toNat_eq hzero))

theorem toNat_euclid (a b : BitVec w) : (euclid a b).toNat = Nat.gcd a.toNat b.toNat := by
  fun_induction euclid a b with
  | case1 a => simp
  | case2 a b h ih => rw [ih, BitVec.toNat_umod, Nat.gcd_comm, ← Nat.gcd_rec, Nat.gcd_comm]

/-- The size of a word, without a sign. That of the least word has one bit more than the others. -/
theorem toNat_abs_eq_natAbs (x : BitVec w) : x.abs.toNat = x.toInt.natAbs := by
  have hlt := x.isLt
  rw [BitVec.toNat_abs, BitVec.toInt_eq_msb_cond]
  split <;> omega

/-- A word without a sign as a word with one. -/
def signed? (x : BitVec w) : Option (BitVec w) :=
  guarded x.msb x

end Euclid

/-- The greatest common divisor of a word and all words of a list. Each divisor on the way is given a sign. -/
def gcdFrom (divisor : BitVec 64) : List (BitVec 64) → Computation (BitVec 64)
  | [] => pure divisor
  | x :: xs => do
    let next ← checked (signed? (euclid divisor.abs x.abs))
    gcdFrom next xs

end Machine

namespace Math

/-! ## The divisor of all arguments -/

/-- The arguments as numbers, without those that are none. -/
def numbers (vs : List Value) : List Int :=
  vs.filterMap Value.toInt?

/-- The greatest common divisor of all arguments, zero if there is no other divisor to be found. -/
def divisor (vs : List Value) : Int :=
  Multiset.gcd (numbers vs : Multiset Int)

/-- The first argument other than zero is the least integer. -/
def StartsLeast (vs : List Value) : Prop :=
  (numbers vs).find? (· ≠ 0) = some Int64.minValue.toInt

instance (vs : List Value) : Decidable (StartsLeast vs) := inferInstanceAs (Decidable (_ = _))

/-! ## From left to right -/

section Arguments

variable {v : Value} {vs ws : List Value} {n : Int64}

theorem numbers_cons (hv : v.toInt64? = some n) (vs : List Value) : numbers (v :: vs) = n.toInt :: numbers vs :=
  List.filterMap_cons_some (Value.toInt?_of_toInt64? hv)

theorem divisor_nil : divisor [] = 0 :=
  Multiset.gcd_zero

theorem divisor_cons (hv : v.toInt64? = some n) (vs : List Value) :
    divisor (v :: vs) = Int.gcd n.toInt (divisor vs) := by
  rw [divisor, numbers_cons hv, ← Multiset.cons_coe, Multiset.gcd_cons, Int.coe_gcd]
  rfl

theorem divisor_nonneg (vs : List Value) : 0 ≤ divisor vs :=
  Int.nonneg_of_normalize_eq_self (Multiset.normalize_gcd _)

theorem startsLeast_nil : ¬ StartsLeast [] := by
  decide

theorem startsLeast_of_zero (hv : v.toInt64? = some 0) : StartsLeast (v :: vs) ↔ StartsLeast vs := by
  rw [StartsLeast, numbers_cons hv]
  rfl

theorem startsLeast_of_ne_zero (hv : v.toInt64? = some n) (hn : n.toInt ≠ 0) :
    StartsLeast (v :: vs) ↔ n = Int64.minValue := by
  rw [StartsLeast, numbers_cons hv, List.find?_cons_of_pos (by simpa using hn), Option.some_inj, Int64.toInt_inj]

theorem gcdFrom_cons (name : String) (d : Nat) (hv : v.toInt64? = some n) (vs : List Value) :
    gcdFrom name d (v :: vs) =
      if Value.Fits (Nat.gcd d n.toInt.natAbs) then gcdFrom name (Nat.gcd d n.toInt.natAbs) vs
      else .error .overflow := by
  rw [gcdFrom, Value.toInt?_of_toInt64? hv]

/-- The size of an integer fits, but for the least one. -/
theorem fits_natAbs_iff (n : Int64) : Value.Fits n.toInt.natAbs ↔ n ≠ Int64.minValue := by
  have hlow := n.le_toInt
  have hhigh := n.toInt_lt
  have hleast : Int64.minValue.toInt = -0x8000000000000000 := by decide
  rw [Ne, ← Int64.toInt_inj, hleast]
  unfold Value.Fits
  omega

/-- A divisor other than zero that fits only gets smaller. -/
theorem gcdFrom_of_pos (name : String) (hvs : ∀ v ∈ vs, ∃ n, v.toInt64? = some n) {d : Nat} (hpos : 0 < d)
    (hfits : Value.Fits d) : gcdFrom name d vs = Value.fit (Int.gcd d (divisor vs)) := by
  induction vs generalizing d with
  | nil => rw [gcdFrom, divisor_nil, Int.gcd_zero_right, Int.natAbs_natCast]
  | cons v vs ih =>
    obtain ⟨⟨n, hn⟩, hvs⟩ := List.forall_mem_cons.mp hvs
    have hle : Nat.gcd d n.toInt.natAbs ≤ d := Nat.gcd_le_left _ hpos
    have hnext : Value.Fits (Nat.gcd d n.toInt.natAbs) := by
      unfold Value.Fits at *
      omega
    have hassoc : Int.gcd (Nat.gcd d n.toInt.natAbs) (divisor vs) = Int.gcd d (Int.gcd n.toInt (divisor vs)) :=
      Int.gcd_assoc d n.toInt (divisor vs)
    rw [gcdFrom_cons name d hn, if_pos hnext, ih hvs (Nat.gcd_pos_of_pos_left _ hpos) hnext, divisor_cons hn, hassoc]

/-- As long as there is no divisor other than zero, everything depends on the next number. -/
theorem gcdFrom_zero (name : String) (hvs : ∀ v ∈ vs, ∃ n, v.toInt64? = some n) :
    gcdFrom name 0 vs = if StartsLeast vs then .error .overflow else Value.fit (divisor vs) := by
  induction vs with
  | nil => rw [if_neg startsLeast_nil, gcdFrom, divisor_nil]; rfl
  | cons v vs ih =>
    obtain ⟨⟨n, hn⟩, hvs⟩ := List.forall_mem_cons.mp hvs
    rw [gcdFrom_cons name 0 hn, Nat.gcd_zero_left, divisor_cons hn]
    by_cases hzero : n.toInt = 0
    · obtain rfl : n = 0 := Int64.toInt_inj.mp hzero
      rw [hzero, Int.natAbs_zero, if_pos (by decide), ih hvs, Int.gcd_zero_left,
        Int.natAbs_of_nonneg (divisor_nonneg vs)]
      simp only [startsLeast_of_zero hn]
    · simp only [fits_natAbs_iff, startsLeast_of_ne_zero hn hzero]
      by_cases hleast : n = Int64.minValue
      · rw [if_neg (not_not.mpr hleast), if_pos hleast]
      · rw [if_pos hleast, if_neg hleast, gcdFrom_of_pos name hvs (by omega) ((fits_natAbs_iff n).mpr hleast)]
        rfl

theorem divisor_of_zeros (h : ∀ n ∈ numbers vs, n = 0) : divisor vs = 0 :=
  (Multiset.gcd_eq_zero_iff _).mpr h

theorem not_startsLeast_of_zeros (h : ∀ n ∈ numbers vs, n = 0) : ¬ StartsLeast vs := fun hleast =>
  absurd (h _ (List.mem_of_find?_eq_some hleast)) (by decide)

end Arguments

end Math

namespace Machine

/-! ## The function on words -/

/-- A word without a sign is given the same number, if a word has it. -/
theorem gives_signed (x : BitVec 64) : Gives (signed? x) x.toNat := by
  refine gives_guarded (fun h => BitVec.toInt_eq_toNat_of_msb h) fun h => toInt_ne_of_outside (.inl ?_)
  have hle := BitVec.toNat_ge_of_msb_true h
  omega

/-- The arguments as words, without those that are no integers. -/
def words (vs : List Value) : List (BitVec 64) :=
  vs.filterMap fun v => v.toInt64?.map Int64.toBitVec

theorem words_cons {v : Value} {n : Int64} (hv : v.toInt64? = some n) (vs : List Value) :
    words (v :: vs) = n.toBitVec :: words vs :=
  List.filterMap_cons_some (by rw [hv]; rfl)

/-- Of each divisor on the way it is seen whether it fits, and the algorithm of Euclid finds it. -/
theorem outcome_gcdFrom (name : String) {vs : List Value} (hvs : ∀ v ∈ vs, ∃ n, v.toInt64? = some n) {d : BitVec 64}
    (hd : 0 ≤ d.toInt) : outcome (gcdFrom d (words vs)) = some (Math.gcdFrom name d.toInt.natAbs vs) := by
  induction vs generalizing d with
  | nil =>
    rw [Math.gcdFrom, Int.natAbs_of_nonneg hd, fit_toInt]
    rfl
  | cons v vs ih =>
    obtain ⟨⟨n, hn⟩, hvs⟩ := List.forall_mem_cons.mp hvs
    rw [words_cons hn, gcdFrom, Math.gcdFrom_cons name _ hn]
    have hgives := gives_signed (euclid d.abs n.toBitVec.abs)
    rw [toNat_euclid, toNat_abs_eq_natAbs, toNat_abs_eq_natAbs] at hgives
    cases hsigned : signed? (euclid d.abs n.toBitVec.abs) with
    | some z =>
      have hz := (hgives z).mp hsigned
      have hfits : Value.Fits (Nat.gcd d.toInt.natAbs n.toInt.natAbs) := (fits_iff_exists _).mpr ⟨z, hz⟩
      have hnext := ih hvs (d := z) (by omega)
      rw [hz, Int.natAbs_natCast] at hnext
      rw [if_pos hfits]
      exact hnext
    | none =>
      have hnot : ¬ Value.Fits (Nat.gcd d.toInt.natAbs n.toInt.natAbs) := fun h => by
        obtain ⟨z, hz⟩ := (fits_iff_exists _).mp h
        exact nomatch hsigned.symm.trans ((hgives z).mpr hz)
      rw [if_neg hnot]
      rfl

end Machine

namespace Math

/-! ## The function -/

/-- **Greatest common divisors of integers.** For integers and truth values, `gcd` gives the greatest common divisor of
all arguments if that fits, zero if there is none but zeros, and an overflow if it does not fit. The only exceptions are
the lists whose first argument other than zero is the least integer: they are an overflow in any case. So another order
of the arguments changes the outcome only if it changes that. The computation on words gives the same. -/
theorem gcd_integers {vs : List Value} (hvs : ∀ v ∈ vs, ∃ n, v.toInt64? = some n) :
    ∃ r, call? "gcd" vs = some r ∧
      (¬ (StartsLeast vs ∧ Value.Fits (divisor vs)) → Value.IsExact (divisor vs) r) ∧
      (StartsLeast vs → r = .error .overflow) ∧
      ((∀ n ∈ numbers vs, n = 0) → r = .ok (.int 0)) ∧
      (∀ ws : List Value, ws.Perm vs → (StartsLeast ws ↔ StartsLeast vs) → call? "gcd" ws = some r) ∧
      Machine.outcome (Machine.gcdFrom 0 (Machine.words vs)) = some r ∧
      EvalError.overflow.message = "integer overflow" := by
  have hcall (ws : List Value) : call? "gcd" ws = some (gcdFrom "gcd" 0 ws) := rfl
  rw [hcall]
  refine ⟨_, rfl, fun h => ?_, fun h => ?_, fun h => ?_, fun ws hperm hiff => ?_, ?_, rfl⟩
  · rw [gcdFrom_zero _ hvs]
    split
    · next hleast => exact .overflows fun k hk => h ⟨hleast, hk ▸ Value.fits_toInt k⟩
    · exact Value.isExact_fit _
  · rw [gcdFrom_zero _ hvs, if_pos h]
  · rw [gcdFrom_zero _ hvs, if_neg (not_startsLeast_of_zeros h), divisor_of_zeros h]
    rfl
  · have hdivisor : divisor ws = divisor vs :=
      congrArg Multiset.gcd (Multiset.coe_eq_coe.mpr (hperm.filterMap Value.toInt?))
    have hws : ∀ v ∈ ws, ∃ n, v.toInt64? = some n := fun v hv => hvs v (hperm.mem_iff.mp hv)
    rw [hcall, gcdFrom_zero _ hws, gcdFrom_zero _ hvs, hdivisor]
    simp only [hiff]
  · exact Machine.outcome_gcdFrom "gcd" hvs (by decide)

/-- The least integer among others, in two orders. -/
theorem gcd_integers_later :
    call? "gcd" [.int 0, .int 12, .int Int64.minValue, .int (-18)] = some (.ok (.int 2)) ∧
      call? "gcd" [.int (-18), .int Int64.minValue, .int 12, .int 0] = some (.ok (.int 2)) := by
  have hvs : ∀ v ∈ [Value.int 0, .int 12, .int Int64.minValue, .int (-18)], ∃ n, v.toInt64? = some n := by
    simp [Value.toInt64?]
  obtain ⟨r, hr, hexact, -, -, horder, -⟩ := gcd_integers hvs
  have htwo : r = .ok (.int 2) := (hexact (by decide)).eq_ok 2 (by decide)
  subst htwo
  exact ⟨hr, horder _ (by decide) (by decide)⟩

/-- The greatest common divisor of the least integer and 1 is 1, but the function finds it in the other order only. -/
theorem gcd_least :
    divisor [.int Int64.minValue, .int 1] = 1 ∧ call? "gcd" [.int Int64.minValue, .int 1] = some (.error .overflow) ∧
      call? "gcd" [.int 1, .int Int64.minValue] = some (.ok (.int 1)) := by
  have hfirst : gcdFrom "gcd" 0 [.int Int64.minValue, .int 1] = .error .overflow := by
    rw [gcdFrom_zero "gcd" (by simp [Value.toInt64?]), if_pos (by decide)]
  have hsecond : gcdFrom "gcd" 0 [.int 1, .int Int64.minValue] = .ok (.int 1) := by
    rw [gcdFrom_zero "gcd" (by simp [Value.toInt64?]), if_neg (by decide),
      show divisor [.int 1, .int Int64.minValue] = 1 by decide]
    rfl
  exact ⟨by decide, congrArg some hfirst, congrArg some hsecond⟩

end Math

end Interpolate
