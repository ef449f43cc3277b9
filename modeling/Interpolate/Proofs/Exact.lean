import Interpolate.Expr.Eval
import Interpolate.Proofs.Reading
import Interpolate.Proofs.Word
import Mathlib.Algebra.Ring.Int.Parity

/-!
# Evaluation without a width

Integers have 64 bits, and a result that does not fit is an error. So whatever comes out of an evaluation comes out
as well when the same expression is evaluated over whole numbers of any size, where nothing can overflow: no
operator ever takes a wrapped number for a result.

* **`Exact`** — whole numbers and truth values, and the operators between them;
* **`Expr.exactValue?`** — the evaluation of an expression over them;
* **`Expr.IsWhole`** — the expressions that have nothing to do with floats;
* **`toExact?_unary`**, **`toExact?_binary`** — the step: a result of an operator is its exact result;
* **`exactValue?_of_eval`** — the run: a value of an expression is its exact value.
-/

namespace Interpolate

/-! ## Values without a width -/

/-- A whole number of any size, or a truth value. -/
inductive Exact where
  /-- a whole number -/
  | int (n : Int)
  /-- a truth value -/
  | bool (b : Bool)
  deriving DecidableEq, Repr

namespace Exact

/-- The number that a value counts as: a truth value counts as 0 or 1. -/
def number : Exact → Int
  | .int n => n
  | .bool b => if b then 1 else 0

/-- Zero and `False` count as false. -/
def truth : Exact → Bool
  | .int n => n != 0
  | .bool b => b

/-- An operator in front of a value. -/
def unary : UnaryOp → Exact → Exact
  | .neg, x => .int (-x.number)
  | .pos, x => .int x.number
  | .bitNot, x => .int (Int.lnot x.number)
  | .not, x => .bool !x.truth

/-- An operator on bits: between two truth values it is one of logic and gives a truth value. -/
def bitwise (onBools : Bool → Bool → Bool) (onInts : Int → Int → Int) : Exact → Exact → Exact
  | .bool a, .bool b => .bool (onBools a b)
  | x, y => .int (onInts x.number y.number)

/-- An operator between two values. Quotients are rounded down, and a shift multiplies or divides by a power of two.
There is no result of a division by zero, of a negative exponent or shift, or of `/`, which gives a float. -/
def binary? (op : BinaryOp) (x y : Exact) : Option Exact :=
  match op with
  | .add => some (.int (x.number + y.number))
  | .sub => some (.int (x.number - y.number))
  | .mul => some (.int (x.number * y.number))
  | .div => none
  | .floorDiv => if y.number = 0 then none else some (.int (x.number.fdiv y.number))
  | .rem => if y.number = 0 then none else some (.int (x.number.fmod y.number))
  | .pow => if y.number < 0 then none else some (.int (x.number ^ y.number.toNat))
  | .bitAnd => some (x.bitwise (· && ·) Int.land y)
  | .bitOr => some (x.bitwise (· || ·) Int.lor y)
  | .bitXor => some (x.bitwise (· ^^ ·) Int.xor y)
  | .shiftLeft => if y.number < 0 then none else some (.int (x.number * 2 ^ y.number.toNat))
  | .shiftRight => if y.number < 0 then none else some (.int (x.number.fdiv (2 ^ y.number.toNat)))

/-- Whether two values are so related, by their numbers. -/
def holds (r : Relation) (x y : Exact) : Bool :=
  r.ofOrdering (compare x.number y.number)

end Exact

/-- The value without its width. A float has none. -/
def Value.toExact? : Value → Option Exact
  | .int n => some (.int n.toInt)
  | .bool b => some (.bool b)
  | .float _ => none

/-! ## Expressions without a width -/

namespace Expr

mutual

/-- The exact value of an expression: that of the operators at its nodes, where `and` and `or` give the value that
decides them and a chain of comparisons stops at the first link that does not hold. -/
def exactValue? : Expr → Option Exact
  | .literal v => v.toExact?
  | .name _ => none
  | .unary op operand => do return .unary op (← operand.exactValue?)
  | .binary op left right => do
    let x ← left.exactValue?
    let y ← right.exactValue?
    x.binary? op y
  | .compare first links => do
    let x ← first.exactValue?
    exactLinks? x links
  | .and left right => do
    let x ← left.exactValue?
    if x.truth then right.exactValue? else some x
  | .or left right => do
    let x ← left.exactValue?
    if x.truth then some x else right.exactValue?
  | .call _ _ => none

/-- Whether the links of a chain hold, after an operand with the exact value `x`. -/
def exactLinks? (x : Exact) : List (Relation × Expr) → Option Exact
  | [] => some (.bool true)
  | (r, operand) :: links => do
    let y ← operand.exactValue?
    if Exact.holds r x y then exactLinks? y links else some (.bool false)

end

theorem exactLinks?_cons {x y : Exact} {operand : Expr} (h : operand.exactValue? = some y) (r : Relation)
    (links : List (Relation × Expr)) :
    exactLinks? x ((r, operand) :: links) =
      if Exact.holds r x y then exactLinks? y links else some (.bool false) := by
  rw [exactLinks?, h]
  rfl

theorem exactValue?_and {l : Expr} {x : Exact} (h : l.exactValue? = some x) (r : Expr) :
    (Expr.and l r).exactValue? = if x.truth then r.exactValue? else some x := by
  rw [exactValue?, h]
  rfl

theorem exactValue?_or {l : Expr} {x : Exact} (h : l.exactValue? = some x) (r : Expr) :
    (Expr.or l r).exactValue? = if x.truth then some x else r.exactValue? := by
  rw [exactValue?, h]
  rfl

/-- The expression is made of integers and truth values with operators that lead from them to them: all but `/`,
and `**` only with an exponent that is written out and not negative. -/
inductive IsWhole : Expr → Prop where
  /-- an integer -/
  | int (n : Int64) : IsWhole (.literal (.int n))
  /-- a truth value -/
  | bool (b : Bool) : IsWhole (.literal (.bool b))
  /-- a sign or `not` -/
  | unary {op : UnaryOp} {e : Expr} (operand : IsWhole e) : IsWhole (.unary op e)
  /-- an operator between two operands -/
  | binary {op : BinaryOp} {l r : Expr} (quotient : op ≠ .div) (power : op ≠ .pow) (left : IsWhole l)
      (right : IsWhole r) : IsWhole (.binary op l r)
  /-- a power -/
  | pow {base : Expr} {n : Int64} (left : IsWhole base) (nonneg : 0 ≤ n.toInt) :
      IsWhole (.binary .pow base (.literal (.int n)))
  /-- a chain of comparisons -/
  | compare {first : Expr} {links : List (Relation × Expr)} (left : IsWhole first)
      (right : ∀ link ∈ links, IsWhole link.2) : IsWhole (.compare first links)
  /-- `and` -/
  | and {l r : Expr} (left : IsWhole l) (right : IsWhole r) : IsWhole (.and l r)
  /-- `or` -/
  | or {l r : Expr} (left : IsWhole l) (right : IsWhole r) : IsWhole (.or l r)

end Expr

/-! ## One operator -/

namespace Value

variable {v w u : Value} {x y : Exact}

theorem toInt?_of_toExact? (h : v.toExact? = some x) : v.toInt? = some x.number := by
  cases v with
  | int n => cases h; rfl
  | bool b => cases h; cases b <;> rfl
  | float => cases h

theorem truth_of_toExact? (h : v.toExact? = some x) : v.truth = x.truth := by
  cases v with
  | int n =>
    cases h
    rw [truth, Exact.truth, Bool.eq_iff_iff, bne_iff_ne, bne_iff_ne, ne_eq, ne_eq, ← Int64.toInt_inj]
    rfl
  | bool b => cases h; rfl
  | float => cases h

theorem operands_of_toExact? (hv : v.toExact? = some x) (hw : w.toExact? = some y) :
    operands v w = .ints x.number y.number := by
  rw [operands, toInt?_of_toExact? hv, toInt?_of_toExact? hw]

theorem intOperands_of_toExact? (symbol : String) (hv : v.toExact? = some x) (hw : w.toExact? = some y) :
    ∃ a b : Int64, intOperands symbol v w = .ok (a, b) ∧ a.toInt = x.number ∧ b.toInt = y.number := by
  obtain ⟨a, ha, hx⟩ := Option.map_eq_some_iff.mp (toInt?_of_toExact? hv)
  obtain ⟨b, hb, hy⟩ := Option.map_eq_some_iff.mp (toInt?_of_toExact? hw)
  exact ⟨a, b, by rw [intOperands, ha, hb], hx, hy⟩

theorem holds_of_toExact? (hv : v.toExact? = some x) (hw : w.toExact? = some y) (r : Relation) :
    r.holds v w = Exact.holds r x y := by
  rw [Relation.holds, compare?, operands_of_toExact? hv hw]
  rfl

/-- The check on integer results lets the exact result through, or nothing. -/
theorem toExact?_of_fit {n : Int} (h : fit n = .ok u) : u.toExact? = some (.int n) := by
  rw [fit] at h
  split at h
  · next hfits =>
    cases h
    rw [toExact?, toInt_ofInt_of_fits hfits]
  · cases h

theorem toExact?_unary {op : UnaryOp} (hv : v.toExact? = some x) (h : op.apply v = .ok u) :
    u.toExact? = some (x.unary op) := by
  cases op with
  | neg =>
    cases v with
    | int n => cases hv; exact toExact?_of_fit h
    | bool b => cases hv; cases b <;> exact toExact?_of_fit h
    | float => cases hv
  | pos =>
    cases v with
    | int n => cases hv; cases h; rfl
    | bool b => cases hv; cases h; cases b <;> rfl
    | float => cases hv
  | bitNot =>
    cases v with
    | int n => cases hv; cases h; exact congrArg (fun k => some (Exact.int k)) (Word.toInt_not n)
    | bool b => cases hv; cases h; cases b <;> rfl
    | float => cases hv
  | not =>
    cases h
    rw [toExact?, truth_of_toExact? hv]
    rfl

/-! ### Powers -/

/-- From the 64th power on, only 0, 1 and -1 have powers that fit. -/
theorem natAbs_le_one_of_fits {a : Int} {k : Nat} (hk : 64 ≤ k) (h : Fits (a ^ k)) : a.natAbs ≤ 1 := by
  by_contra hlarge
  have hpow : 2 ^ 64 ≤ (a ^ k).natAbs := calc
    2 ^ 64 ≤ a.natAbs ^ 64 := Nat.pow_le_pow_left (by omega) 64
    _ ≤ a.natAbs ^ k := Nat.pow_le_pow_right (by omega) hk
    _ = (a ^ k).natAbs := (Int.natAbs_pow ..).symm
  obtain ⟨hlow, hhigh⟩ := h
  omega

/-- The powers of 0, 1 and -1 depend on the parity of the exponent alone. -/
theorem pow_eq_of_natAbs_le_one {a : Int} (h : a.natAbs ≤ 1) {k : Nat} (hk : 64 ≤ k) : a ^ (64 + k % 2) = a ^ k := by
  obtain rfl | rfl | rfl : a = 0 ∨ a = 1 ∨ a = -1 := by omega
  · rw [zero_pow (by omega), zero_pow (by omega)]
  · rw [one_pow, one_pow]
  · rw [neg_one_pow_eq_pow_mod_two, neg_one_pow_eq_pow_mod_two k]
    congr 1
    omega

/-- A power is the exact one, fitted. -/
theorem intPow_eq_fit (a : Int) (k : Nat) : intPow a k = fit (a ^ k) := by
  rw [intPow, Int.pow_eq]
  split
  · rfl
  · by_cases hsmall : a.natAbs ≤ 1
    · rw [pow_eq_of_natAbs_le_one hsmall (by omega)]
    · rw [fit_of_not_fits fun h => hsmall (natAbs_le_one_of_fits (by omega) h),
        fit_of_not_fits fun h => hsmall (natAbs_le_one_of_fits (by omega) h)]

/-! ### Operators between two values -/

theorem toExact?_floorDiv (hv : v.toExact? = some x) (hw : w.toExact? = some y) (h : floorDiv v w = .ok u) :
    ∃ z, x.binary? .floorDiv y = some z ∧ u.toExact? = some z := by
  simp only [floorDiv, operands_of_toExact? hv hw] at h
  split at h
  · cases h
  · next hzero => exact ⟨_, if_neg hzero, toExact?_of_fit h⟩

theorem toExact?_rem (hv : v.toExact? = some x) (hw : w.toExact? = some y) (h : rem v w = .ok u) :
    ∃ z, x.binary? .rem y = some z ∧ u.toExact? = some z := by
  simp only [rem, operands_of_toExact? hv hw] at h
  split at h
  · cases h
  · next hzero =>
    split at h
    · exact ⟨_, if_neg hzero, toExact?_of_fit h⟩
    · cases h

theorem toExact?_pow (hv : v.toExact? = some x) (hw : w.toExact? = some y) (hy : 0 ≤ y.number) (h : pow v w = .ok u) :
    ∃ z, x.binary? .pow y = some z ∧ u.toExact? = some z := by
  have hsign : ¬ y.number < 0 := Int.not_lt.mpr hy
  simp only [pow, operands_of_toExact? hv hw, if_neg hsign] at h
  split at h
  · cases h
  · rw [intPow_eq_fit] at h
    exact ⟨_, if_neg hsign, toExact?_of_fit h⟩

/-- An operator on bits is exact if it is on words. -/
theorem toExact?_bitwise {symbol : String} {onBools : Bool → Bool → Bool} {onWords : Int64 → Int64 → Int64}
    {onInts : Int → Int → Int} (hwords : ∀ a b, (onWords a b).toInt = onInts a.toInt b.toInt)
    (hv : v.toExact? = some x) (hw : w.toExact? = some y) (h : bitwise symbol onBools onWords v w = .ok u) :
    u.toExact? = some (x.bitwise onBools onInts y) := by
  obtain ⟨a, b, hoperands, ha, hb⟩ := intOperands_of_toExact? symbol hv hw
  have hword : (Value.int (onWords a b)).toExact? = some (.int (onInts x.number y.number)) := by
    rw [toExact?, hwords, ha, hb]
  -- two truth values are joined as such, and all other operands as words
  cases v with
  | float => cases hv
  | int n =>
    simp only [bitwise, hoperands] at h
    cases hv
    cases h
    exact hword
  | bool p =>
    cases w with
    | float => cases hw
    | bool q => cases hv; cases hw; cases h; rfl
    | int n =>
      simp only [bitwise, hoperands] at h
      cases hv
      cases hw
      cases h
      exact hword

theorem toExact?_shiftLeft (hv : v.toExact? = some x) (hw : w.toExact? = some y) (h : shiftLeft v w = .ok u) :
    ∃ z, x.binary? .shiftLeft y = some z ∧ u.toExact? = some z := by
  obtain ⟨a, b, hoperands, ha, hb⟩ := intOperands_of_toExact? "<<" hv hw
  simp only [shiftLeft, hoperands, bind, Except.bind, ha, hb] at h
  split at h
  · cases h
  · next hsign =>
    refine ⟨_, if_neg hsign, ?_⟩
    split at h
    · next hzero =>
      cases h
      rw [hzero, Int.zero_mul]
      rfl
    · split at h
      · cases h
      · rw [toExact?_of_fit h, Int.shiftLeft_eq]

theorem toExact?_shiftRight (hv : v.toExact? = some x) (hw : w.toExact? = some y) (h : shiftRight v w = .ok u) :
    ∃ z, x.binary? .shiftRight y = some z ∧ u.toExact? = some z := by
  obtain ⟨a, b, hoperands, ha, hb⟩ := intOperands_of_toExact? ">>" hv hw
  simp only [shiftRight, hoperands, bind, Except.bind, hb] at h
  split at h
  · cases h
  · next hsign =>
    cases h
    refine ⟨_, if_neg hsign, ?_⟩
    rw [toExact?, toInt_ofInt_of_fits (Word.fits_shiftRight ..), Word.shiftRight_eq_fdiv, ha]

theorem toExact?_binary {op : BinaryOp} (quotient : op ≠ .div) (power : op = .pow → 0 ≤ y.number)
    (hv : v.toExact? = some x) (hw : w.toExact? = some y) (h : op.apply v w = .ok u) :
    ∃ z, x.binary? op y = some z ∧ u.toExact? = some z := by
  cases op with
  | add =>
    simp only [BinaryOp.apply, add, operands_of_toExact? hv hw] at h
    exact ⟨_, rfl, toExact?_of_fit h⟩
  | sub =>
    simp only [BinaryOp.apply, sub, operands_of_toExact? hv hw] at h
    exact ⟨_, rfl, toExact?_of_fit h⟩
  | mul =>
    simp only [BinaryOp.apply, mul, operands_of_toExact? hv hw] at h
    exact ⟨_, rfl, toExact?_of_fit h⟩
  | div => exact absurd rfl quotient
  | floorDiv => exact toExact?_floorDiv hv hw h
  | rem => exact toExact?_rem hv hw h
  | pow => exact toExact?_pow hv hw (power rfl) h
  | bitAnd => exact ⟨_, rfl, toExact?_bitwise Word.toInt_and hv hw h⟩
  | bitOr => exact ⟨_, rfl, toExact?_bitwise Word.toInt_or hv hw h⟩
  | bitXor => exact ⟨_, rfl, toExact?_bitwise Word.toInt_xor hv hw h⟩
  | shiftLeft => exact toExact?_shiftLeft hv hw h
  | shiftRight => exact toExact?_shiftRight hv hw h

end Value

/-! ## Whole expressions -/

namespace Expr

open Reader (bind_eq_ok)

variable {context : Context} {v : Value} {x : Exact}

/-- The links of a chain hold exactly if they hold without a width, if that is so of each operand. -/
theorem exactLinks?_of_evalLinks {links : List (Relation × Expr)}
    (hlinks : ∀ link ∈ links, ∀ w, link.2.eval context = .ok w →
      ∃ y, link.2.exactValue? = some y ∧ w.toExact? = some y)
    {w : Value} (hv : v.toExact? = some x) (h : evalLinks context v links = .ok w) :
    ∃ z, exactLinks? x links = some z ∧ w.toExact? = some z := by
  induction links generalizing v x with
  | nil =>
    cases h
    exact ⟨.bool true, rfl, rfl⟩
  | cons link links ih =>
    obtain ⟨r, operand⟩ := link
    obtain ⟨u, hu, hmore⟩ := bind_eq_ok.mp h
    obtain ⟨y, hy, huy⟩ := hlinks _ (List.mem_cons_self ..) u hu
    rw [exactLinks?_cons hy]
    rw [Value.holds_of_toExact? hv huy] at hmore
    split at hmore
    · next hholds =>
      rw [if_pos hholds]
      exact ih (fun link hlink => hlinks link (List.mem_cons_of_mem _ hlink)) huy hmore
    · next hholds =>
      cases hmore
      rw [if_neg hholds]
      exact ⟨.bool false, rfl, rfl⟩

/-- **Nothing wraps around.** If an expression of integers and truth values has a value, then evaluation over whole
numbers of any size gives it the same value. -/
theorem exactValue?_of_eval {e : Expr} (hwhole : e.IsWhole) {context : Context} {v : Value}
    (h : e.eval context = .ok v) : ∃ x, e.exactValue? = some x ∧ v.toExact? = some x := by
  induction hwhole generalizing v with
  | int n =>
    cases h
    exact ⟨.int n.toInt, rfl, rfl⟩
  | bool b =>
    cases h
    exact ⟨.bool b, rfl, rfl⟩
  | @unary op e operand ih =>
    obtain ⟨w, hw, happly⟩ := bind_eq_ok.mp h
    obtain ⟨x, hx, hwx⟩ := ih hw
    exact ⟨x.unary op, by rw [exactValue?, hx]; rfl, Value.toExact?_unary hwx happly⟩
  | @binary op l r quotient power left right ihleft ihright =>
    obtain ⟨w, hw, h⟩ := bind_eq_ok.mp h
    obtain ⟨u, hu, happly⟩ := bind_eq_ok.mp h
    obtain ⟨x, hx, hwx⟩ := ihleft hw
    obtain ⟨y, hy, huy⟩ := ihright hu
    obtain ⟨z, hz, hvz⟩ := Value.toExact?_binary quotient (fun hpow => absurd hpow power) hwx huy happly
    exact ⟨z, by rw [exactValue?, hx, hy]; exact hz, hvz⟩
  | @pow base n left nonneg ih =>
    obtain ⟨w, hw, h⟩ := bind_eq_ok.mp h
    obtain ⟨x, hx, hwx⟩ := ih hw
    have hn : (Value.int n).toExact? = some (.int n.toInt) := rfl
    obtain ⟨z, hz, hvz⟩ := Value.toExact?_pow hwx hn nonneg h
    exact ⟨z, by rw [exactValue?, hx]; exact hz, hvz⟩
  | @compare first links left right ihleft ihright =>
    obtain ⟨w, hw, hmore⟩ := bind_eq_ok.mp h
    obtain ⟨x, hx, hwx⟩ := ihleft hw
    obtain ⟨z, hz, hvz⟩ := exactLinks?_of_evalLinks (fun link hlink u hu => ihright link hlink hu) hwx hmore
    exact ⟨z, by rw [exactValue?, hx]; exact hz, hvz⟩
  | @and l r left right ihleft ihright =>
    obtain ⟨w, hw, hmore⟩ := bind_eq_ok.mp h
    obtain ⟨x, hx, hwx⟩ := ihleft hw
    rw [exactValue?_and hx, ← Value.truth_of_toExact? hwx]
    split at hmore
    · next htrue =>
      rw [if_pos htrue]
      exact ihright hmore
    · next hfalse =>
      cases hmore
      rw [if_neg hfalse]
      exact ⟨x, rfl, hwx⟩
  | @or l r left right ihleft ihright =>
    obtain ⟨w, hw, hmore⟩ := bind_eq_ok.mp h
    obtain ⟨x, hx, hwx⟩ := ihleft hw
    rw [exactValue?_or hx, ← Value.truth_of_toExact? hwx]
    split at hmore
    · next htrue =>
      cases hmore
      rw [if_pos htrue]
      exact ⟨x, rfl, hwx⟩
    · next hfalse =>
      rw [if_neg hfalse]
      exact ihright hmore

/-- The greatest integer, as `(2 ** 62 - 1 << 1) + 1`. -/
def greatest : Expr :=
  let power : Expr := .binary .pow (.literal (.int 2)) (.literal (.int 62))
  let half : Expr := .binary .sub power (.literal (.int 1))
  .binary .add (.binary .shiftLeft half (.literal (.int 1))) (.literal (.int 1))

theorem exactValue?_of_eval_greatest :
    greatest.IsWhole ∧ greatest.eval ⟨fun _ => none, fun _ _ => none⟩ = .ok (.int 0x7FFFFFFFFFFFFFFF) ∧
      ∃ x, greatest.exactValue? = some x ∧ (Value.int 0x7FFFFFFFFFFFFFFF).toExact? = some x := by
  have hwhole : greatest.IsWhole := by
    refine .binary (by decide) (by decide) (.binary (by decide) (by decide) ?_ (.int 1)) (.int 1)
    exact .binary (by decide) (by decide) (.pow (.int 2) (by decide)) (.int 1)
  have heval : greatest.eval ⟨fun _ => none, fun _ _ => none⟩ = .ok (.int 0x7FFFFFFFFFFFFFFF) := by rfl
  exact ⟨hwhole, heval, exactValue?_of_eval hwhole heval⟩

end Expr

end Interpolate
