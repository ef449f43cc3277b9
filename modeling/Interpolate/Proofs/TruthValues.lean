import Interpolate.Math.Library
import Interpolate.Proofs.Nodes

/-!
# Truth values as numbers

`True` counts as 1 and `False` as 0. An expression may hold the numbers in place of the truth values: what it comes to
is the same, read as a number. Operators and functions look at their operands as integers, as floats or as truth
values, and none of these views tells a truth value from its number. Only two things do: an operator on bits gives a
truth value where both operands are some, and the number of that is what it gives for their numbers; and an error may
name the type of an operand.

* **`Value.number`**, **`Expr.numbered`** — a truth value as a number, and numbers for all truth values that are written
  out in an expression;
* **`Alike`** — outcomes that are the same where truth values are read as numbers;
* **`alike_unary`**, **`alike_binary`**, **`call?_congr`** — operators and functions on operands that are read alike;
* **`Expr.alike_eval`**, **`Expr.eval_numbered`** — expressions, with any functions of that kind, and with those of the
  library.
-/

namespace Interpolate

/-! ## Reading -/

/-- The value as a number: `True` is 1 and `False` is 0. -/
def Value.number : Value → Value
  | .bool true => .int 1
  | .bool false => .int 0
  | v => v

/-- The type that a value has as a number. -/
def numberType (typeName : String) : String :=
  if typeName = "bool" then "int" else typeName

/-- The error in the words of numbers. -/
def EvalError.ofNumbers : EvalError → EvalError
  | .operands symbol leftType rightType => .operands symbol (numberType leftType) (numberType rightType)
  | .inversion typeName => .inversion (numberType typeName)
  | cause => cause

/-- Both are errors, the same in the words of numbers, or neither is and both results are read as the same. -/
inductive Alike {α β : Type} (read : α → β) : Except EvalError α → Except EvalError α → Prop where
  /-- two results -/
  | ok {a b : α} (h : read a = read b) : Alike read (.ok a) (.ok b)
  /-- two errors -/
  | error {cause cause' : EvalError} (h : cause.ofNumbers = cause'.ofNumbers) :
    Alike read (.error cause) (.error cause')

namespace Alike

variable {α β γ δ : Type} {read : α → β} {read' : γ → δ} {r s t : Except EvalError α}

theorem refl (r : Except EvalError α) : Alike read r r := by
  cases r with
  | ok a => exact .ok rfl
  | error cause => exact .error rfl

theorem of_eq (h : r = s) : Alike read r s :=
  h ▸ refl r

theorem symm (h : Alike read r s) : Alike read s r := by
  cases h with
  | ok h => exact .ok h.symm
  | error h => exact .error h.symm

theorem trans (h : Alike read r s) (h' : Alike read s t) : Alike read r t := by
  cases h with
  | ok h =>
    cases h' with
    | ok h' => exact .ok (h.trans h')
  | error h =>
    cases h' with
    | error h' => exact .error (h.trans h')

/-- Outcomes that are alike stay so when they are gone on with alike. -/
theorem bind {f g : α → Except EvalError γ} (h : Alike read r s)
    (hnext : ∀ a b, read a = read b → Alike read' (f a) (g b)) : Alike read' (r >>= f) (s >>= g) := by
  cases h with
  | ok h => exact hnext _ _ h
  | error h => exact .error h

/-- What follows results that are equal is the same. -/
theorem then_same {r s : Except EvalError α} (h : Alike id r s) (f : α → Except EvalError γ) :
    Alike read' (r >>= f) (s >>= f) :=
  h.bind fun _ _ hab => of_eq (congrArg f hab)

end Alike

namespace Value

variable {v v' w w' : Value}

/-! ### Views -/

@[simp] theorem number_bool (b : Bool) : number (.bool b) = .int (ofTruth b) := by
  cases b <;> rfl

@[simp] theorem number_number (v : Value) : v.number.number = v.number := by
  cases v with
  | bool b => rw [number_bool]; rfl
  | int | float => rfl

@[simp] theorem toInt64?_number (v : Value) : v.number.toInt64? = v.toInt64? := by
  cases v with
  | bool b => rw [number_bool]; rfl
  | int | float => rfl

@[simp] theorem toInt?_number (v : Value) : v.number.toInt? = v.toInt? := by
  rw [toInt?, toInt64?_number, toInt?]

/-- The float of a truth value is that of its number. -/
@[simp] theorem toDouble_number (v : Value) : v.number.toDouble = v.toDouble := by
  cases v with
  | bool b => rw [number_bool, toDouble_int_ofTruth]
  | int | float => rfl

@[simp] theorem truth_number (v : Value) : v.number.truth = v.truth := by
  cases v with
  | bool b => cases b <;> rfl
  | int | float => rfl

@[simp] theorem typeName_number (v : Value) : v.number.typeName = numberType v.typeName := by
  cases v with
  | bool b => rw [number_bool]; rfl
  | int | float => rfl

theorem neg_number (v : Value) : v.number.neg = v.neg := by
  cases v with
  | bool b => rw [number_bool]; rfl
  | int | float => rfl

theorem pos_eq_number (v : Value) : v.pos = v.number := by
  cases v with
  | bool b => rw [number_bool]; rfl
  | int | float => rfl

/-- What does not tell values from their numbers does not tell values apart that are read alike. -/
theorem congr_of_number {α : Type} {f : Value → α} (hf : ∀ v, f v.number = f v) (h : v.number = v'.number) :
    f v = f v' := by
  rw [← hf v, h, hf v']

theorem operands_congr (hv : v.number = v'.number) (hw : w.number = w'.number) : operands v w = operands v' w' := by
  simp only [operands, congr_of_number toInt?_number hv, congr_of_number toInt?_number hw,
    congr_of_number toDouble_number hv, congr_of_number toDouble_number hw]

/-! ### Operators on bits -/

theorem alike_intOperands (symbol : String) (hv : v.number = v'.number) (hw : w.number = w'.number) :
    Alike id (intOperands symbol v w) (intOperands symbol v' w') := by
  have htype : numberType v.typeName = numberType v'.typeName := by rw [← typeName_number, hv, typeName_number]
  have htype' : numberType w.typeName = numberType w'.typeName := by rw [← typeName_number, hw, typeName_number]
  rw [intOperands, intOperands, congr_of_number toInt64?_number hv, congr_of_number toInt64?_number hw]
  split
  · exact .ok rfl
  · exact .error (by rw [EvalError.ofNumbers, EvalError.ofNumbers, htype, htype'])

/-- An operator on bits whose result for two truth values has the number that it gives for theirs is read as an operator
on integers. -/
theorem alike_bitwise_ints {symbol : String} {onBools : Bool → Bool → Bool} {onInts : Int64 → Int64 → Int64}
    (h : ∀ a b, ofTruth (onBools a b) = onInts (ofTruth a) (ofTruth b)) (v w : Value) :
    Alike number (bitwise symbol onBools onInts v w)
      (intOperands symbol v w >>= fun (a, b) => .ok (.int (onInts a b))) := by
  cases v with
  | bool a =>
    cases w with
    | bool b => exact .ok (by rw [number_bool, h]; rfl)
    | int | float => exact .refl _
  | int | float => exact .refl _

theorem alike_bitwise {symbol : String} {onBools : Bool → Bool → Bool} {onInts : Int64 → Int64 → Int64}
    (h : ∀ a b, ofTruth (onBools a b) = onInts (ofTruth a) (ofTruth b)) (hv : v.number = v'.number)
    (hw : w.number = w'.number) :
    Alike number (bitwise symbol onBools onInts v w) (bitwise symbol onBools onInts v' w') :=
  (alike_bitwise_ints h v w).trans
    (((alike_intOperands symbol hv hw).then_same _).trans (alike_bitwise_ints h v' w').symm)

/-! ### All operators -/

theorem alike_bitNot (hv : v.number = v'.number) : Alike number v.bitNot v'.bitNot := by
  have htype : numberType v.typeName = numberType v'.typeName := by rw [← typeName_number, hv, typeName_number]
  rw [bitNot, bitNot, congr_of_number toInt64?_number hv]
  split
  · exact .refl _
  · exact .error (by rw [EvalError.ofNumbers, EvalError.ofNumbers, htype])

theorem alike_unary (op : UnaryOp) (hv : v.number = v'.number) : Alike number (op.apply v) (op.apply v') := by
  cases op with
  | neg => exact .of_eq (congr_of_number neg_number hv)
  | pos => exact .ok (by rw [pos_eq_number, pos_eq_number, hv])
  | bitNot => exact alike_bitNot hv
  | not => exact .of_eq (by rw [UnaryOp.apply, UnaryOp.apply, congr_of_number truth_number hv])

theorem alike_binary (op : BinaryOp) (hv : v.number = v'.number) (hw : w.number = w'.number) :
    Alike number (op.apply v w) (op.apply v' w') := by
  have hoperands := operands_congr hv hw
  cases op with
  | add => exact .of_eq (by simp only [BinaryOp.apply, add, hoperands])
  | sub => exact .of_eq (by simp only [BinaryOp.apply, sub, hoperands])
  | mul => exact .of_eq (by simp only [BinaryOp.apply, mul, hoperands])
  | div =>
    have hv' := congr_of_number toDouble_number hv
    have hw' := congr_of_number toDouble_number hw
    exact .of_eq (by simp only [BinaryOp.apply, div, hv', hw'])
  | floorDiv => exact .of_eq (by simp only [BinaryOp.apply, floorDiv, hoperands])
  | rem => exact .of_eq (by simp only [BinaryOp.apply, rem, hoperands])
  | pow => exact .of_eq (by simp only [BinaryOp.apply, pow, hoperands])
  | bitAnd => exact alike_bitwise (by decide) hv hw
  | bitOr => exact alike_bitwise (by decide) hv hw
  | bitXor => exact alike_bitwise (by decide) hv hw
  | shiftLeft => exact (alike_intOperands "<<" hv hw).then_same _
  | shiftRight => exact (alike_intOperands ">>" hv hw).then_same _

theorem holds_congr (r : Relation) (hv : v.number = v'.number) (hw : w.number = w'.number) :
    r.holds v w = r.holds v' w' := by
  simp only [Relation.holds, compare?, operands_congr hv hw]

end Value

/-! ## Functions -/

namespace Math

variable {name : String} {vs ws : List Value}

/-- The function does not tell truth values from their numbers. -/
def Function.IsBlind (name : String) (f : Function) : Prop :=
  ∀ vs : List Value, f.apply name (vs.map Value.number) = f.apply name vs

theorem Function.isBlind_float (f : Float → Float) : (Function.float f).IsBlind name
  | [] => rfl
  | [v] => by simp only [List.map_cons, List.map_nil, Function.apply, Value.toDouble_number]
  | v :: w :: vs => by simp only [List.map_cons, Function.apply, List.length_cons, List.length_map]

theorem Function.isBlind_unary (f : Double → Except EvalError Value) : (Function.unary f).IsBlind name
  | [] => rfl
  | [v] => by simp only [List.map_cons, List.map_nil, Function.apply, Value.toDouble_number]
  | v :: w :: vs => by simp only [List.map_cons, Function.apply, List.length_cons, List.length_map]

theorem Function.isBlind_binary (f : Double → Double → Except EvalError Value) : (Function.binary f).IsBlind name
  | [] => rfl
  | [v] => rfl
  | [v, w] => by simp only [List.map_cons, List.map_nil, Function.apply, Value.toDouble_number]
  | v :: w :: u :: vs => by simp only [List.map_cons, Function.apply, List.length_cons, List.length_map]

theorem factorial_number (vs : List Value) : factorial name (vs.map Value.number) = factorial name vs := by
  have hargument : integerArgument name (vs.map Value.number) 0 = integerArgument name vs 0 := by
    cases vs with
    | nil => rfl
    | cons v vs => simp only [integerArgument, List.map_cons, List.getElem?_cons_zero, Value.toInt?_number]
  rw [factorial, hargument, factorial]

theorem gcdFrom_number (divisor : Nat) (vs : List Value) :
    gcdFrom name divisor (vs.map Value.number) = gcdFrom name divisor vs := by
  induction vs generalizing divisor with
  | nil => rfl
  | cons v vs ih => simp only [List.map_cons, gcdFrom, Value.toInt?_number, ih]

theorem logarithm_number : (vs : List Value) → logarithm (vs.map Value.number) = logarithm vs
  | [] => rfl
  | [v] => by simp only [List.map_cons, List.map_nil, logarithm, Value.toDouble_number]
  | [v, w] => by simp only [List.map_cons, List.map_nil, logarithm, Value.toDouble_number]
  | v :: w :: u :: vs => by simp only [List.map_cons, logarithm, List.length_cons, List.length_map]

theorem scaleByPower_number (vs : List Value) : scaleByPower name (vs.map Value.number) = scaleByPower name vs := by
  cases vs with
  | nil => rfl
  | cons v vs =>
    have hexponent : (vs.map Value.number).head?.bind Value.toInt? = vs.head?.bind Value.toInt? := by
      cases vs with
      | nil => rfl
      | cons w vs => exact Value.toInt?_number w
    simp only [List.map_cons, scaleByPower, hexponent, Value.toDouble_number]

/-- The functions that see to their arguments themselves. -/
theorem list_of_function? {f : List Value → Except EvalError Value} (h : function? name = some (.list f)) :
    f = factorial name ∨ f = gcdFrom name 0 ∨ f = logarithm ∨ f = scaleByPower name ∨
      f = fun vs => .ok (.float
        (vs.foldl (fun length v => Double.zipWith Binary64.hypotenuse length v.toDouble) (.ofFloat 0.0))) := by
  unfold function? at h
  split at h <;> simp only [Option.some.injEq, Function.list.injEq, reduceCtorEq] at h <;> simp [← h]

/-- No function of the library tells truth values from their numbers. -/
theorem isBlind_of_function? {f : Function} (h : function? name = some f) : f.IsBlind name := by
  cases f with
  | float f => exact Function.isBlind_float f
  | unary f => exact Function.isBlind_unary f
  | binary f => exact Function.isBlind_binary f
  | list f =>
    obtain rfl | rfl | rfl | rfl | rfl := list_of_function? h
    · exact factorial_number
    · exact gcdFrom_number 0
    · exact logarithm_number
    · exact scaleByPower_number
    · intro vs
      simp only [Function.apply, List.foldl_map, Value.toDouble_number]

theorem call?_number (name : String) (vs : List Value) : call? name (vs.map Value.number) = call? name vs := by
  rw [call?, call?]
  cases h : function? name with
  | none => rfl
  | some f => exact congrArg some (isBlind_of_function? h vs)

end Math

/-- The functions of a context do not tell truth values from their numbers. -/
def Context.IsBlind (context : Context) : Prop :=
  ∀ name vs, context.call? name (vs.map Value.number) = context.call? name vs

theorem Math.isBlind_library : library.IsBlind :=
  Math.call?_number

/-! ## Expressions -/

namespace Expr

mutual

/-- The expression with numbers in the place of the truth values written out in it. -/
def numbered : Expr → Expr
  | .literal v => .literal v.number
  | .name x => .name x
  | .unary op operand => .unary op operand.numbered
  | .binary op left right => .binary op left.numbered right.numbered
  | .compare first links => .compare first.numbered (numberedLinks links)
  | .and left right => .and left.numbered right.numbered
  | .or left right => .or left.numbered right.numbered
  | .call f arguments => .call f (numberedAll arguments)

/-- The links with numbers in their operands. -/
def numberedLinks : List (Relation × Expr) → List (Relation × Expr)
  | [] => []
  | (r, operand) :: links => (r, operand.numbered) :: numberedLinks links

/-- The expressions with numbers in them. -/
def numberedAll : List Expr → List Expr
  | [] => []
  | e :: es => e.numbered :: numberedAll es

end

variable {context : Context}

theorem alike_evalLinks {links : List (Relation × Expr)}
    (h : ∀ link ∈ links, Alike Value.number (link.2.eval context) (link.2.numbered.eval context)) {v v' : Value}
    (hv : v.number = v'.number) :
    Alike Value.number (evalLinks context v links) (evalLinks context v' (numberedLinks links)) := by
  induction links generalizing v v' with
  | nil => exact .refl _
  | cons link links ih =>
    obtain ⟨r, operand⟩ := link
    obtain ⟨hoperand, hlinks⟩ := List.forall_mem_cons.mp h
    refine hoperand.bind fun w w' hw => ?_
    rw [Value.holds_congr r hv hw]
    split
    · exact ih hlinks hw
    · exact .refl _

theorem alike_evalAll {es : List Expr} (h : ∀ e ∈ es, Alike Value.number (e.eval context) (e.numbered.eval context)) :
    Alike (List.map Value.number) (evalAll context es) (evalAll context (numberedAll es)) := by
  induction es with
  | nil => exact .refl _
  | cons e es ih =>
    obtain ⟨he, hes⟩ := List.forall_mem_cons.mp h
    exact he.bind fun v v' hv => (ih hes).bind fun vs vs' hvs => .ok (by rw [List.map_cons, List.map_cons, hv, hvs])

/-- With functions that do not tell truth values from their numbers, numbers can be written for the truth values of an
expression. -/
theorem alike_eval (hblind : context.IsBlind) (e : Expr) :
    Alike Value.number (e.eval context) (e.numbered.eval context) := by
  induction e with
  | literal v => exact .ok (Value.number_number v).symm
  | name x => exact .refl _
  | unary op e ih => exact ih.bind fun v v' hv => Value.alike_unary op hv
  | binary op l r ihleft ihright =>
    exact ihleft.bind fun v v' hv => ihright.bind fun w w' hw => Value.alike_binary op hv hw
  | compare first links ihfirst ihlinks => exact ihfirst.bind fun v v' hv => alike_evalLinks ihlinks hv
  | and l r ihleft ihright =>
    refine ihleft.bind fun v v' hv => ?_
    rw [Value.congr_of_number Value.truth_number hv]
    split
    · exact ihright
    · exact .ok hv
  | or l r ihleft ihright =>
    refine ihleft.bind fun v v' hv => ?_
    rw [Value.congr_of_number Value.truth_number hv]
    split
    · exact .ok hv
    · exact ihright
  | call f es ih =>
    refine (alike_evalAll ih).bind fun vs vs' hvs => ?_
    rw [← hblind f vs, hvs, hblind f vs']
    exact .refl _

/-- **Truth values are numbers.** An expression and the same with 1 for `True` and 0 for `False` come to values that are
equal as numbers, or both to an error, the same but for the types it may name. -/
theorem eval_numbered (e : Expr) : Alike Value.number (e.eval Math.library) (e.numbered.eval Math.library) :=
  alike_eval Math.isBlind_library e

end Expr

end Interpolate
