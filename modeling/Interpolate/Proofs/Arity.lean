import Interpolate.Math.Library

/-!
# Numbers of arguments

Every function of the library but `gcd` and `hypot` takes one number of arguments, and the logarithm two. Called with
another number, a function refuses, and the arguments have no part in that. There are two exceptions: `factorial` and
`ldexp` see whether there are enough arguments, but not whether there are more.

* **`Math.arities`** — the numbers of arguments that a function takes;
* **`Function.Refuses`** — a function refuses some number of arguments, whatever they are;
* **`Function.refuses_of_arity?`** — the functions of floats, all at once;
* **`Math.call?_of_length_not_mem`** — the whole library, with the two exceptions.
-/

namespace Interpolate

namespace Math

/-- The numbers of arguments that a function takes. `gcd` and `hypot` take any number. -/
def arities (name : String) : List Nat :=
  if name ∈ ["atan2", "copysign", "fmod", "ldexp", "pow"] then [2]
  else if name = "log" then [1, 2]
  else [1]

/-- How many arguments a function looks at that does not ask whether there are more. -/
def reach? (name : String) : Option Nat :=
  if name = "factorial" then some 1
  else if name = "ldexp" then some 2
  else none

/-! ## Refusals -/

namespace Function

/-- The function fails for that number of arguments, always for the same reason. -/
def Refuses (name : String) (f : Function) (n : Nat) : Prop :=
  ∃ error, ∀ vs : List Value, vs.length = n → f.apply name vs = .error error

/-- The number of arguments of a function of floats. -/
def arity? : Function → Option Nat
  | .float _ => some 1
  | .unary _ => some 1
  | .binary _ => some 2
  | .list _ => none

variable {name : String} {n : Nat}

/-- A function of floats refuses every other number of arguments, and says how many it takes and how many there are. -/
theorem apply_of_arity? {f : Function} {k : Nat} (hf : f.arity? = some k) {vs : List Value} (hvs : vs.length ≠ k) :
    f.apply name vs = .error (.arity name k vs.length) := by
  cases f with
  | float f =>
    obtain rfl := Option.some.inj hf
    match vs, hvs with
    | [], _ => rfl
    | _ :: _ :: _, _ => rfl
  | unary f =>
    obtain rfl := Option.some.inj hf
    match vs, hvs with
    | [], _ => rfl
    | _ :: _ :: _, _ => rfl
  | binary f =>
    obtain rfl := Option.some.inj hf
    match vs, hvs with
    | [], _ => rfl
    | [_], _ => rfl
    | _ :: _ :: _ :: _, _ => rfl
  | list f => cases hf

theorem refuses_of_arity? {f : Function} {k : Nat} (hf : f.arity? = some k) (hn : n ≠ k) : f.Refuses name n := by
  refine ⟨.arity name k n, fun vs hvs => ?_⟩
  subst hvs
  exact apply_of_arity? hf hn

theorem refuses_logarithm (hn : n ∉ [1, 2]) : Refuses name (.list logarithm) n := by
  refine ⟨.logarithmArity n, fun vs hvs => ?_⟩
  subst hvs
  match vs, hn with
  | [], _ => rfl
  | [_], h => exact absurd (List.mem_cons_self ..) h
  | [_, _], h => exact absurd (List.mem_cons_of_mem _ (List.mem_cons_self ..)) h
  | _ :: _ :: _ :: _, _ => rfl

/-- Without an argument there is no factorial. -/
theorem refuses_factorial (hn : n < 1) : Refuses name (.list (factorial name)) n := by
  refine ⟨.missing name 0, fun vs hvs => ?_⟩
  obtain rfl : vs = [] := List.length_eq_zero_iff.mp (by omega)
  rfl

/-- Without an exponent there is no scaling. -/
theorem refuses_scaleByPower (hn : n < 2) : Refuses name (.list (scaleByPower name)) n := by
  refine ⟨if n = 0 then .arity name 1 0 else .exponent name, fun vs hvs => ?_⟩
  subst hvs
  match vs, hn with
  | [], _ => rfl
  | [_], _ => rfl

end Function

/-! ## Arguments that are not looked at -/

section Reach

variable (name : String) (vs : List Value)

theorem factorial_take : factorial name (vs.take 1) = factorial name vs := by
  cases vs with
  | nil => rfl
  | cons v vs => rfl

theorem scaleByPower_take : scaleByPower name (vs.take 2) = scaleByPower name vs := by
  match vs with
  | [] => rfl
  | [_] => rfl
  | _ :: _ :: _ => rfl

end Reach

/-! ## The library -/

section Library

variable {name : String}

theorem exists_function?_of_mem (h : name ∈ functionNames) : ∃ f, function? name = some f := by
  have hall : functionNames.all (fun name => (function? name).isSome) = true := by decide +kernel
  exact Option.isSome_iff_exists.mp (List.all_eq_true.mp hall name h)

/-- The functions of floats take as many arguments as they are said to take. -/
theorem arities_of_arity? {f : Function} (h : function? name = some f) {k : Nat} (hf : f.arity? = some k) :
    arities name = [k] ∧ reach? name = none := by
  unfold function? at h
  split at h <;> cases h <;> cases hf <;> exact ⟨by decide, by decide⟩

/-- The functions that see to their arguments themselves. -/
theorem list_cases {f : List Value → Except EvalError Value} (h : function? name = some (.list f)) :
    name = "factorial" ∧ f = factorial name ∨ name = "gcd" ∨ name = "hypot" ∨
      name = "ldexp" ∧ f = scaleByPower name ∨ name = "log" ∧ f = logarithm := by
  unfold function? at h
  split at h <;> cases h <;> simp

/-- **Numbers of arguments.** A function that takes a fixed number of arguments, called with another number, fails for a
reason that does not depend on them. The only exceptions are more arguments than one for `factorial` and than two for
`ldexp`: there the outcome is that of the first ones alone. -/
theorem call?_of_length_not_mem (hname : name ∈ functionNames) (hfixed : name ≠ "gcd" ∧ name ≠ "hypot") {n : Nat}
    (hn : n ∉ arities name) :
    ((∀ k, reach? name = some k → n < k) →
      ∃ error, ∀ vs : List Value, vs.length = n → call? name vs = some (.error error)) ∧
    ∀ k, reach? name = some k → k < n → ∀ vs : List Value, vs.length = n →
      call? name vs = call? name (vs.take k) := by
  obtain ⟨f, hf⟩ := exists_function?_of_mem hname
  have hcall (vs : List Value) : call? name vs = some (f.apply name vs) := congrArg (Option.map _) hf
  simp only [hcall, Option.some.injEq]
  suffices h : ((∀ k, reach? name = some k → n < k) → f.Refuses name n) ∧
      ∀ k, reach? name = some k → ∀ vs : List Value, f.apply name vs = f.apply name (vs.take k) from
    ⟨h.1, fun k hk _ vs _ => h.2 k hk vs⟩
  cases hk : f.arity? with
  | some k =>
    obtain ⟨harities, hreach⟩ := arities_of_arity? hf hk
    rw [harities] at hn
    refine ⟨fun _ => Function.refuses_of_arity? hk (List.ne_of_not_mem_cons hn), fun k' hk' => ?_⟩
    rw [hreach] at hk'
    cases hk'
  | none =>
    cases f with
    | float | unary | binary => cases hk
    | list f =>
      rcases list_cases hf with ⟨rfl, rfl⟩ | hgcd | hhypot | ⟨rfl, rfl⟩ | ⟨rfl, rfl⟩
      · refine ⟨fun hless => Function.refuses_factorial (hless 1 rfl), fun k hk' vs => ?_⟩
        obtain rfl : 1 = k := Option.some.inj hk'
        exact (factorial_take _ vs).symm
      · exact absurd hgcd hfixed.1
      · exact absurd hhypot hfixed.2
      · refine ⟨fun hless => Function.refuses_scaleByPower (hless 2 rfl), fun k hk' vs => ?_⟩
        obtain rfl : 2 = k := Option.some.inj hk'
        exact (scaleByPower_take _ vs).symm
      · refine ⟨fun _ => Function.refuses_logarithm hn, fun k hk' => ?_⟩
        cases hk'

/-- Three arguments are too many for a logarithm, and one is too few for `ldexp`; a second argument of `factorial` is
not looked at. -/
theorem call?_of_length_not_mem_few :
    (∃ error, ∀ vs : List Value, vs.length = 3 → call? "log" vs = some (.error error)) ∧
      (∃ error, ∀ vs : List Value, vs.length = 1 → call? "ldexp" vs = some (.error error)) ∧
      call? "factorial" [.int 3, .int 4] = call? "factorial" [.int 3] := by
  obtain ⟨hlog, -⟩ := @call?_of_length_not_mem "log" (by decide) (by decide) 3 (by decide)
  obtain ⟨hldexp, -⟩ := @call?_of_length_not_mem "ldexp" (by decide) (by decide) 1 (by decide)
  obtain ⟨-, hfactorial⟩ := @call?_of_length_not_mem "factorial" (by decide) (by decide) 2 (by decide)
  refine ⟨hlog nofun, hldexp fun k hk => ?_, hfactorial 1 rfl (by decide) _ rfl⟩
  obtain rfl : 2 = k := Option.some.inj hk
  decide

/-- The factorial of two arguments has a value. -/
theorem call?_factorial_surplus :
    "factorial" ∈ functionNames ∧ 2 ∉ arities "factorial" ∧
      call? "factorial" [.int 3, .int 4] = some (.ok (.int 6)) := by
  have hargument : integerArgument "factorial" [.int 3, .int 4] 0 = .ok 3 := congrArg Except.ok (by decide)
  have hvalue : factorial "factorial" [.int 3, .int 4] = .ok (.int 6) := by
    rw [factorial, hargument]
    exact Value.fit_of_fits (show Value.Fits 6 by decide)
  exact ⟨by decide, by decide, congrArg some hvalue⟩

end Library

end Math

end Interpolate
