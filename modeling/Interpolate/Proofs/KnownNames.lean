import Interpolate.Proofs.Isolation
import Interpolate.Proofs.Session

/-!
# Every name of an accepted text is known

An expression fails where an operator or a function refuses its operands, or where a name is unknown. The second never
happens to a text that has passed the filter, if the context has everything that the filter allows: a constant for
every word that may stand alone, and a function for every word that may stand before a parenthesis. The standard filter
and the mathematical library are of that kind.

* **`EvalError.IsRefusal`** — the errors of operators and functions, whose messages are not those about names
  (`message_ne_of_isRefusal`);
* **`Regular`** — a value or such an error, as all operators (`regular_unary`, `regular_binary`) and all functions of
  the library (`isRegular_library`) give;
* **`Context.Knows`**, **`Filter.IsKnownTo`** — a context has what a node asks for, or what a filter allows;
* **`Expr.regular_eval`** — a tree whose nodes are known has a value or such an error;
* **`exists_of_valueless`** — a fault about the value of an expression comes from a text that was accepted and read;
* **`Interpreter.evaluate_known`** — no evaluation meets an unknown name.
-/

namespace Interpolate

/-! ## Errors -/

namespace EvalError

/-- An operator or a function has no value for its operands. -/
def IsRefusal : EvalError → Prop
  | .undefined _ | .custom _ => False
  | _ => True

theorem ne_undefined_of_getLast? {message : String} (h : message.toList.getLast? ≠ some 'd') (name : String) :
    message ≠ "name '" ++ name ++ "' is not defined" := by
  rintro rfl
  rw [String.toList_append, List.getLast?_append] at h
  exact h rfl

theorem ne_undefined_of_ending (front ending : String) (h : ending.toList.getLast?.any (· != 'd') = true)
    (name : String) : front ++ ending ≠ "name '" ++ name ++ "' is not defined" := by
  obtain ⟨c, hc, hne⟩ := (Option.any_eq_true _ _).mp h
  refine ne_undefined_of_getLast? ?_ name
  rw [String.toList_append, List.getLast?_append, hc, Option.some_or]
  rintro ⟨⟩
  exact absurd hne (by decide)

/-- The message about a name ends in a letter that no other ends in, that of a caller and one that ends in a number
apart. -/
theorem message_ne_of_isRefusal {cause : EvalError} (h : cause.IsRefusal) (name : String) :
    cause.message ≠ "name '" ++ name ++ "' is not defined" := by
  cases cause with
  | undefined | custom => exact h.elim
  | logarithmArity given =>
    intro hmessage
    have hfirst : ("log expected 1 or 2 arguments, got " ++ toString given).toList.head? = some 'l' := by simp
    have hfirst' : ("name '" ++ name ++ "' is not defined").toList.head? = some 'n' := by simp
    exact absurd (hfirst.symm.trans ((congrArg (fun s => s.toList.head?) hmessage).trans hfirst')) (by decide)
  | operands | inversion => exact ne_undefined_of_ending _ "'" (by decide) name
  | arity => exact ne_undefined_of_ending _ " given)" (by decide) name
  | missing => exact ne_undefined_of_ending _ " missing" (by decide) name
  | integral => exact ne_undefined_of_ending _ "() only accepts integral values" (by decide) name
  | exponent => exact ne_undefined_of_ending _ ": second argument must be an integer" (by decide) name
  | overflow | division | integerDivision | floatFloorDivision | floatRemainder | floatDivision | zeroToNegative
  | mathDomain | mathRange | negativeShift | negativeFactorial | notFinite =>
    exact ne_undefined_of_getLast? (by decide) name

end EvalError

/-- A value, or the error of an operator or a function. -/
inductive Regular {α : Type} : Except EvalError α → Prop where
  /-- a value -/
  | ok (a : α) : Regular (.ok a)
  /-- an error -/
  | error {cause : EvalError} (h : cause.IsRefusal) : Regular (.error cause)

namespace Regular

variable {α β : Type} {r s : Except EvalError α}

/-- Steps that are regular are so one after the other. -/
theorem bind {f : α → Except EvalError β} (h : Regular r) (hnext : ∀ a, Regular (f a)) : Regular (r >>= f) := by
  cases h with
  | ok a => exact hnext a
  | error h => exact .error h

theorem map (f : α → β) (h : Regular r) : Regular (r.map f) := by
  cases h with
  | ok a => exact .ok _
  | error h => exact .error h

theorem ite {p : Prop} [Decidable p] (h : Regular r) (h' : Regular s) : Regular (if p then r else s) := by
  split
  · exact h
  · exact h'

/-- A check in front of what is regular. -/
theorem guarded {p : Prop} [Decidable p] {cause : EvalError} (hcause : cause.IsRefusal) (h : Regular r) :
    Regular (if p then .error cause else r) :=
  ite (.error hcause) h

theorem not_undefined (h : Regular r) {cause : EvalError} (hcause : r = .error cause) (name : String) :
    cause.message ≠ "name '" ++ name ++ "' is not defined" := by
  subst hcause
  cases h with
  | error h => exact EvalError.message_ne_of_isRefusal h name

end Regular

/-! ## Operators -/

namespace Value

theorem regular_fit (n : Int) : Regular (fit n) :=
  .ite (.ok _) (.error trivial)

/-- The two kinds of arithmetic. -/
theorem regular_operands {ints : Int → Int → Except EvalError Value}
    {floats : Double → Double → Except EvalError Value} (hints : ∀ a b, Regular (ints a b))
    (hfloats : ∀ a b, Regular (floats a b)) (operands : Operands) :
    Regular (match operands with
      | .ints a b => ints a b
      | .floats a b => floats a b) := by
  cases operands with
  | ints a b => exact hints a b
  | floats a b => exact hfloats a b

theorem regular_floatPow (a b : Double) : Regular (floatPow a b) :=
  .guarded trivial (.guarded trivial (.ok _))

theorem regular_pow (v w : Value) : Regular (v.pow w) := by
  refine regular_operands (fun a b => ?_) regular_floatPow (operands v w)
  exact .ite (.guarded trivial (.ok _)) (.guarded trivial (regular_fit _))

theorem regular_intOperands (symbol : String) (v w : Value) : Regular (intOperands symbol v w) := by
  rw [intOperands]
  split
  · exact .ok _
  · exact .error trivial

theorem regular_bitwise (symbol : String) (onBools : Bool → Bool → Bool) (onInts : Int64 → Int64 → Int64)
    (v w : Value) : Regular (bitwise symbol onBools onInts v w) := by
  rw [bitwise.eq_def]
  split
  · exact .ok _
  · exact (regular_intOperands symbol v w).map _

theorem regular_unary (op : UnaryOp) (v : Value) : Regular (op.apply v) := by
  cases op with
  | neg =>
    cases v with
    | int n => exact regular_fit _
    | float x => exact .ok _
    | bool b => exact regular_fit _
  | pos => exact .ok _
  | bitNot =>
    rw [UnaryOp.apply, bitNot]
    split
    · exact .ok _
    · exact .error trivial
  | not => exact .ok _

theorem regular_binary (op : BinaryOp) (v w : Value) : Regular (op.apply v w) := by
  cases op with
  | add => exact regular_operands (fun _ _ => regular_fit _) (fun _ _ => .ok _) (operands v w)
  | sub => exact regular_operands (fun _ _ => regular_fit _) (fun _ _ => .ok _) (operands v w)
  | mul => exact regular_operands (fun _ _ => regular_fit _) (fun _ _ => .ok _) (operands v w)
  | div => exact .guarded trivial (.ok _)
  | floorDiv =>
    refine regular_operands (fun a b => ?_) (fun a b => ?_) (operands v w)
    · exact .guarded trivial (regular_fit _)
    · exact .guarded trivial (.ok _)
  | rem =>
    refine regular_operands (fun a b => ?_) (fun a b => ?_) (operands v w)
    · exact .guarded trivial (.ite (regular_fit _) (.error trivial))
    · exact .guarded trivial (.ok _)
  | pow => exact regular_pow v w
  | bitAnd | bitOr | bitXor => exact regular_bitwise ..
  | shiftLeft =>
    exact (regular_intOperands ..).bind fun _ => .guarded trivial (.ite (.ok _) (.guarded trivial (regular_fit _)))
  | shiftRight => exact (regular_intOperands ..).bind fun _ => .guarded trivial (.ok _)

end Value

/-! ## Functions -/

namespace Math

theorem regular_checked (result argument : Double) : Regular (checked result argument) :=
  .guarded trivial (.guarded trivial (.ok _))

theorem regular_positive (x : Double) : Regular (positive x) :=
  .ite (.ok _) (.error trivial)

theorem regular_toInteger : (n : Option Int) → Regular (toInteger n)
  | some n => Value.regular_fit n
  | none => .error trivial

theorem regular_integerArgument (name : String) (vs : List Value) (position : Nat) :
    Regular (integerArgument name vs position) := by
  rw [integerArgument]
  split
  · exact .error trivial
  · split
    · exact .ok _
    · exact .error trivial

theorem regular_factorial (name : String) (vs : List Value) : Regular (factorial name vs) :=
  (regular_integerArgument name vs 0).bind fun _ => .guarded trivial (.guarded trivial (Value.regular_fit _))

theorem regular_gcdFrom (name : String) (divisor : Nat) (vs : List Value) : Regular (gcdFrom name divisor vs) := by
  induction vs generalizing divisor with
  | nil => exact Value.regular_fit _
  | cons v vs ih =>
    rw [gcdFrom]
    split
    · exact .error trivial
    · exact .ite (ih _) (.error trivial)

theorem regular_logarithm : (vs : List Value) → Regular (logarithm vs)
  | [] => .error trivial
  | [_] => (regular_positive _).bind fun _ => .ok _
  | [_, _] => (regular_positive _).bind fun _ => (regular_positive _).bind fun _ => .guarded trivial (.ok _)
  | _ :: _ :: _ :: _ => .error trivial

theorem regular_scaleByPower (name : String) (vs : List Value) : Regular (scaleByPower name vs) := by
  cases vs with
  | nil => exact .error trivial
  | cons v vs =>
    rw [scaleByPower]
    split
    · exact .error trivial
    · exact .ite (regular_checked ..) (.error trivial)

/-- What the function does with arguments is regular. -/
def Function.IsRegular : Function → Prop
  | .float _ => True
  | .unary f => ∀ x, Regular (f x)
  | .binary f => ∀ x y, Regular (f x y)
  | .list f => ∀ vs, Regular (f vs)

theorem Function.IsRegular.apply {f : Function} (h : f.IsRegular) (name : String) (vs : List Value) :
    Regular (f.apply name vs) := by
  cases f with
  | float f =>
    match vs with
    | [] => exact .error trivial
    | [v] => exact regular_checked ..
    | _ :: _ :: _ => exact .error trivial
  | unary f =>
    match vs with
    | [] => exact .error trivial
    | [v] => exact h v.toDouble
    | _ :: _ :: _ => exact .error trivial
  | binary f =>
    match vs with
    | [] | [_] => exact .error trivial
    | [v, w] => exact h v.toDouble w.toDouble
    | _ :: _ :: _ :: _ => exact .error trivial
  | list f => exact h vs

theorem isRegular_of_function? {name : String} {f : Function} (h : function? name = some f) : f.IsRegular := by
  unfold function? at h
  split at h <;> cases h <;> simp only [Function.IsRegular, Regular.ok, regular_toInteger, regular_factorial,
    regular_gcdFrom, regular_logarithm, regular_scaleByPower, Value.regular_floatPow, implies_true]
  -- those with a check of their own
  · exact fun _ => .guarded trivial (.ok _)
  · exact fun _ _ => .guarded trivial (.ok _)
  · exact fun _ => (regular_positive _).bind fun _ => .ok _
  · exact fun _ => .guarded trivial (.ok _)
  · exact fun _ => (regular_positive _).bind fun _ => .ok _

theorem regular_call? {name : String} {vs : List Value} {r : Except EvalError Value} (h : call? name vs = some r) :
    Regular r := by
  obtain ⟨f, hf, rfl⟩ := Option.map_eq_some_iff.mp h
  exact (isRegular_of_function? hf).apply name vs

end Math

/-- The functions of a context give values or the errors of functions. -/
def Context.IsRegular (context : Context) : Prop :=
  ∀ name vs r, context.call? name vs = some r → Regular r

theorem Math.isRegular_library : library.IsRegular :=
  fun _ _ _ => regular_call?

/-! ## Trees -/

/-- The context has what a node asks for: a constant of that name for a name, and a function of that name for a call. -/
def Context.Knows (context : Context) : Expr → Prop
  | .name x => ∃ v, context.constant? x = some v
  | .call f _ => ∀ vs, ∃ r, context.call? f vs = some r
  | _ => True

namespace Expr

variable {context : Context}

theorem regular_evalLinks {links : List (Relation × Expr)} (h : ∀ link ∈ links, Regular (link.2.eval context))
    (v : Value) : Regular (evalLinks context v links) := by
  induction links generalizing v with
  | nil => exact .ok _
  | cons link links ih =>
    obtain ⟨hoperand, hlinks⟩ := List.forall_mem_cons.mp h
    exact hoperand.bind fun w => .ite (ih hlinks w) (.ok _)

theorem regular_evalAll {es : List Expr} (h : ∀ e ∈ es, Regular (e.eval context)) :
    Regular (evalAll context es) := by
  induction es with
  | nil => exact .ok _
  | cons e es ih =>
    obtain ⟨he, hes⟩ := List.forall_mem_cons.mp h
    exact he.bind fun v => (ih hes).bind fun vs => .ok _

/-- If the context knows the nodes of a tree, the tree has a value, or an operator or a function has none. -/
theorem regular_eval (hcontext : context.IsRegular) {e : Expr} (h : ∀ node ∈ e.nodes, context.Knows node) :
    Regular (e.eval context) := by
  induction e with
  | literal v => exact .ok v
  | name x =>
    obtain ⟨v, hv⟩ : context.Knows (.name x) := h _ (List.mem_singleton_self _)
    rw [eval, hv]
    exact .ok v
  | unary op e ih =>
    obtain ⟨-, he⟩ := forall_nodes_unary.mp h
    exact (ih he).bind (Value.regular_unary op)
  | binary op l r ihleft ihright =>
    obtain ⟨-, hl, hr⟩ := forall_nodes_binary.mp h
    exact (ihleft hl).bind fun v => (ihright hr).bind fun w => Value.regular_binary op v w
  | compare first links ihfirst ihlinks =>
    obtain ⟨-, hfirst, hlinks⟩ := forall_nodes_compare.mp h
    exact (ihfirst hfirst).bind fun v => regular_evalLinks (fun link hlink => ihlinks link hlink (hlinks link hlink)) v
  | and l r ihleft ihright =>
    obtain ⟨-, hl, hr⟩ := forall_nodes_and.mp h
    exact (ihleft hl).bind fun v => .ite (ihright hr) (.ok v)
  | or l r ihleft ihright =>
    obtain ⟨-, hl, hr⟩ := forall_nodes_or.mp h
    exact (ihleft hl).bind fun v => .ite (.ok v) (ihright hr)
  | call f es ih =>
    obtain ⟨hf, hes⟩ := forall_nodes_call.mp h
    refine (regular_evalAll fun e he => ih e he (hes e he)).bind fun vs => ?_
    obtain ⟨r, hr⟩ := hf vs
    rw [hr]
    exact hcontext f vs r hr

end Expr

/-! ## Accepted texts -/

namespace Filter

/-- The context has everything that the filter allows. -/
structure IsKnownTo (filter : Filter) (context : Context) : Prop where
  /-- the constants -/
  constant : ∀ x ∈ filter.constants, ∃ v, context.constant? x = some v
  /-- the functions -/
  call : ∀ f ∈ filter.functions, ∀ vs, ∃ r, context.call? f vs = some r

theorem IsKnownTo.knows {filter : Filter} {context : Context} (h : filter.IsKnownTo context) {node : Expr}
    (hallows : filter.Allows node) : context.Knows node := by
  cases node with
  | name x => exact h.constant x hallows
  | call f es => exact h.call f hallows.1
  | literal | unary | binary | compare | and | or => trivial

/-- The mathematical library has what the standard filter allows. -/
theorem standard_isKnownTo_library : standard.IsKnownTo Math.library where
  constant := by
    have hconstants : standard.constants.all (fun x => (Math.constant? x).isSome) = true := by decide +kernel
    exact fun x hx => Option.isSome_iff_exists.mp (List.all_eq_true.mp hconstants x hx)
  call := by
    have hfunctions : standard.functions.all (fun f => (Math.function? f).isSome) = true := by decide +kernel
    intro f hf vs
    obtain ⟨function, hfunction⟩ := Option.isSome_iff_exists.mp (List.all_eq_true.mp hfunctions f hf)
    exact ⟨function.apply f vs, congrArg (Option.map _) hfunction⟩

/-- The names of an accepted text are known, each in the place where it stands. -/
theorem knows_of_accepts {filter : Filter} {context : Context} (hnamed : filter.IsNamed)
    (hknown : filter.IsKnownTo context) {text : List Char} {e : Expr} (haccepts : filter.accepts text = true)
    (hread : Expr.read text = .ok e) : ∀ node ∈ e.nodes, context.Knows node :=
  fun node hnode => hknown.knows (allows_of_accepts hnamed haccepts hread node hnode)

end Filter

/-! ## Evaluation -/

open MonadAttach (CanReturn)

/-- The fault, if there is one, is not about the value of an expression. -/
def Outcome.IsUnjudged {α : Type} (o : Outcome α) : Prop :=
  ∀ cause, o.fault ≠ some (.valueless cause)

/-- Such a fault can only be the one that is noted now. -/
theorem Outcome.IsUnjudged.eq_of_fail {α : Type} {o : Outcome α} {fault : Fault} {cause : EvalError}
    (ho : o.IsUnjudged) (h : (o.fail fault).fault = some (.valueless cause)) : fault = .valueless cause := by
  cases hfirst : o.fault with
  | none =>
    rw [fail, hfirst] at h
    exact Option.some.inj h
  | some first =>
    rw [fail, hfirst] at h
    exact absurd (hfirst.trans h) (ho cause)

theorem Resolution.keeps_isUnjudged : Keeps Outcome.IsUnjudged where
  value _ _ ho := ho
  addStep _ _ ho := ho
  pass _ ho := ho
  fail _ _ hfault ho := fun cause h => hfault cause (ho.eq_of_fail h)

/-- After resolution, a fault about the value of an expression comes from the last stage: the text has passed the
filter and the reader, and its expression has this error in the place of a value. -/
theorem Outcome.exists_of_judge {filter : Filter} {context : Context} {source : String} {o : Outcome Value}
    {cause : EvalError} (ho : o.IsUnjudged)
    (h : (o.judge filter context source).fault = some (.valueless cause)) :
    ∃ text e, filter.accepts text = true ∧ Expr.read text = .ok e ∧ e.eval context = .error cause := by
  rw [judge] at h
  dsimp only at h
  split at h
  · cases ho.eq_of_fail h
  · split at h
    · cases ho.eq_of_fail h
    · next hillegal =>
      have hnoted : (o.addStep ("eval: " ++ String.ofList (Text.trim source.toList))).IsUnjudged := ho
      split at h
      · cases hnoted.eq_of_fail h
      · next e hread =>
        split at h
        · next error heval =>
          obtain rfl : error = cause := Fault.valueless.inj (hnoted.eq_of_fail h)
          exact ⟨_, e, Option.isNone_iff_eq_none.mpr hillegal, hread, heval⟩
        · exact absurd h (ho cause)

/-- A fault about the value of an expression comes from a text that was accepted and read. -/
theorem exists_of_valueless {m : Type → Type} [Monad m] [LawfulMonad m] [MonadAttach m] [LawfulMonadAttach m]
    {filter : Filter} {context : Context} {ask : (name : String) → m Answer} {text : String} {o : Outcome String}
    {o' : Outcome Value} {cause : EvalError} (ho : o.IsUnjudged) (h : CanReturn (evaluate filter context ask text o) o')
    (hfault : o'.fault = some (.valueless cause)) :
    ∃ text e, filter.accepts text = true ∧ Expr.read text = .ok e ∧ e.eval context = .error cause := by
  obtain ⟨resolved, hresolve, hrest⟩ := LawfulMonadAttach.canReturn_bind_imp' h
  obtain ⟨hresolved, -⟩ := Resolution.keeps_isUnjudged.of_canReturn_resolve ho hresolve
  have hbare : ({ resolved with value := none } : Outcome Value).IsUnjudged := hresolved
  dsimp only at hrest
  split at hrest
  · obtain rfl := LawfulMonadAttach.eq_of_canReturn_pure hrest
    exact absurd hfault (hbare cause)
  · obtain rfl := LawfulMonadAttach.eq_of_canReturn_pure hrest
    exact Outcome.exists_of_judge hbare hfault

/-- **Every name is known.** With the standard filter and the mathematical library, whatever the lookup, the limit and
the text, and whatever the state of the world: no evaluation ends with the message that a name is not defined. For
what the filter accepts and the reader reads, all names of the tree are constants and all calls have functions. -/
theorem Interpreter.evaluate_known {σ : Type} (lookup : Lookup (StateM σ)) (limit : Nat)
    (environment : (name : String) → StateM σ (Option String)) (text : String) (world : σ) :
    let i : Interpreter (StateM σ) := ⟨lookup, limit, .standard, Math.library⟩
    let o := ((i.evaluate environment text).run world).1
    (∀ cause name, o.fault = some (.valueless cause) → cause.message ≠ "name '" ++ name ++ "' is not defined") ∧
      ∀ source e, Filter.standard.accepts source = true → Expr.read source = .ok e →
        ∀ node ∈ e.nodes, Math.library.Knows node := by
  intro i o
  have hknows : ∀ source e, Filter.standard.accepts source = true → Expr.read source = .ok e →
      ∀ node ∈ e.nodes, Math.library.Knows node := fun source e =>
    Filter.knows_of_accepts Filter.standard_isNamed Filter.standard_isKnownTo_library
  refine ⟨fun cause name hfault => ?_, hknows⟩
  have hfresh : (Outcome.fresh limit : Outcome String).IsUnjudged := fun _ => (Option.some_ne_none _).symm
  have hcan : CanReturn (i.evaluate environment text) o := Session.canReturn_of_state _ world
  obtain ⟨source, e, haccepts, hread, heval⟩ := exists_of_valueless hfresh hcan hfault
  exact (Expr.regular_eval Math.isRegular_library (hknows source e haccepts hread)).not_undefined heval name

/-- A factorial that there is none of, and a text with a name and a call. -/
theorem Interpreter.evaluate_known_factorial :
    let i : Interpreter (StateM Nat) := ⟨.empty, 50, .standard, Math.library⟩
    let o := ((i.evaluate (fun _ => pure none) "factorial(2 - 3)").run 0).1
    o.fault = some (.valueless .negativeFactorial) ∧
      (∀ name, EvalError.negativeFactorial.message ≠ "name '" ++ name ++ "' is not defined") ∧
      Filter.standard.accepts Filter.cosine = true ∧ Expr.read Filter.cosine = .ok (.call "cos" [.name "pi"]) ∧
      ∀ node ∈ (Expr.call "cos" [.name "pi"]).nodes, Math.library.Knows node := by
  intro i o
  have hfault : o.fault = some (.valueless .negativeFactorial) := by decide +kernel
  have haccepts : Filter.standard.accepts Filter.cosine = true := by decide +kernel
  obtain ⟨hmessage, hknows⟩ := evaluate_known .empty 50 (fun _ => pure none) "factorial(2 - 3)" (0 : Nat)
  exact ⟨hfault, fun name => hmessage _ name hfault, haccepts, Filter.read_cosine,
    hknows _ _ haccepts Filter.read_cosine⟩

end Interpolate
