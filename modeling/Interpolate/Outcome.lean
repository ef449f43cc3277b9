import Interpolate.Expr.Token
import Interpolate.Value.Error

/-!
# Outcomes

Resolving and evaluating never fail outright: they give an **outcome**, which holds the value or the fault, the
steps that led there, and the count of passes. An outcome can be handed from one call to the next; then the count
goes on, and the first fault stays.

* **`Fault`** — what can go wrong, and its **`message`**;
* **`Outcome`** — the record, with **`addStep`**, **`fail`**, **`settle`** and **`map`**.
-/

namespace Interpolate

/-! ## Faults -/

/-- Why a text has no value. -/
inductive Fault where
  /-- nothing is known under the name -/
  | undefined (name : String)
  /-- the computation behind a name failed -/
  | failed (name description : String)
  /-- the passes allowed are used up -/
  | tooManyPasses (limit : Nat)
  /-- there is nothing to evaluate -/
  | empty
  /-- the filter refuses a token -/
  | illegal (token : String)
  /-- the text is no expression -/
  | malformed (error : SyntaxError)
  /-- the expression has no value -/
  | valueless (error : EvalError)
  deriving DecidableEq

/-- What a user reads. -/
def Fault.message : Fault → String
  | .undefined name => "Undefined: " ++ name
  | .failed name description => "Exception: " ++ name ++ " -> " ++ description
  | .tooManyPasses _ => "Too many passes"
  | .empty => "Empty string?"
  | .illegal token => "Illegal: " ++ token
  | .malformed error => "Syntax Error: " ++ error.message
  | .valueless error => "Evaluation Error: " ++ error.message

/-! ## Outcomes -/

/-- What became of a text. -/
structure Outcome (α : Type) where
  /-- the value, so far or in the end -/
  value : Option α
  /-- what was done, in order -/
  steps : List String
  /-- the first fault -/
  fault : Option Fault
  /-- the number of passes made -/
  passes : Nat
  /-- the number of passes allowed -/
  limit : Nat

namespace Outcome

variable {α β : Type}

/-- The number of passes allowed where nothing else is said. -/
def standardLimit : Nat := 50

/-- An outcome to start with. -/
def fresh (limit : Nat) : Outcome α := ⟨none, [], none, 0, limit⟩

/-- One more step. -/
def addStep (o : Outcome α) (step : String) : Outcome α :=
  { o with steps := o.steps ++ [step] }

/-- Notes a fault. Each is a step, but only the first is kept as the fault. -/
def fail (o : Outcome α) (fault : Fault) : Outcome α :=
  { o.addStep ("error: " ++ fault.message) with fault := o.fault <|> some fault }

/-- Drops the value if there is a fault. -/
def settle (o : Outcome α) : Outcome α :=
  { o with value := if o.fault.isSome then none else o.value }

/-- The same record around another value. -/
def map (f : α → β) (o : Outcome α) : Outcome β :=
  { o with value := o.value.map f }

/-- The message of the fault. -/
def message? (o : Outcome α) : Option String :=
  o.fault.map Fault.message

@[simp] theorem passes_addStep (o : Outcome α) (step : String) : (o.addStep step).passes = o.passes := rfl

@[simp] theorem limit_addStep (o : Outcome α) (step : String) : (o.addStep step).limit = o.limit := rfl

@[simp] theorem passes_fail (o : Outcome α) (fault : Fault) : (o.fail fault).passes = o.passes := rfl

@[simp] theorem limit_fail (o : Outcome α) (fault : Fault) : (o.fail fault).limit = o.limit := rfl

end Outcome

end Interpolate
