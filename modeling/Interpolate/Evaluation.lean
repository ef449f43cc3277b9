import Interpolate.Expr.Reader
import Interpolate.Filter
import Interpolate.Resolution

/-!
# Evaluation: from a text to a value

A text is evaluated by resolving it, trimming what comes out, passing it through the filter, reading it as an
expression and evaluating that. The first stage that fails decides the fault.

* **`Outcome.judge`** — the stages after resolution;
* **`evaluate`** — all stages;
* **`Interpreter`** — a lookup with everything that resolution and evaluation need beside it;
* **`Interpreter.Builder`** — what is asked of an interpreter before it is built, and what it is when nothing is asked.
-/

namespace Interpolate

/-- Evaluates a resolved text: trims it, passes it through the filter, reads it and evaluates the expression. -/
def Outcome.judge (filter : Filter) (context : Context) (source : String) (o : Outcome Value) :
    Outcome Value :=
  let text := Text.trim source.toList
  if text.isEmpty then (o.fail .empty).settle
  else
    match filter.illegal? text with
    | some token => (o.fail (.illegal token)).settle
    | none =>
      let o := o.addStep ("eval: " ++ String.ofList text)
      match Expr.read text with
      | .error error => (o.fail (.malformed error)).settle
      | .ok e =>
        match e.eval context with
        | .error error => (o.fail (.valueless error)).settle
        | .ok v => ({ o.addStep ("result: " ++ v.text) with value := some v } : Outcome Value).settle

/-- Evaluates a text, going on from an outcome. -/
def evaluate {m : Type → Type} [Monad m] (filter : Filter) (context : Context)
    (ask : (name : String) → m Answer) (text : String) (o : Outcome String) : m (Outcome Value) := do
  let resolved ← resolve ask text o
  let bare : Outcome Value := { resolved with value := none }
  match resolved.value with
  | none => return bare
  | some source => return bare.judge filter context source

/-! ## Interpreters -/

/-- A lookup with everything that resolution and evaluation need beside it. -/
structure Interpreter (m : Type → Type) where
  /-- what names stand for -/
  lookup : Lookup m
  /-- the number of passes allowed to a text -/
  limit : Nat
  /-- which texts may be evaluated -/
  filter : Filter
  /-- the constants and functions of expressions -/
  context : Context

namespace Interpreter

variable {m : Type → Type}

/-- The interpreter around a lookup with the standard limit and the mathematical library. -/
def standard (lookup : Lookup m) : Interpreter m :=
  ⟨lookup, Outcome.standardLimit, Filter.standard, Math.library⟩

/-! ## Building interpreters -/

/-- What can be chosen about an interpreter with a given lookup. -/
structure Options where
  /-- the number of passes allowed to a text -/
  limit : Nat := Outcome.standardLimit
  /-- whether the environment is asked -/
  usesEnvironment : Bool := true
  deriving DecidableEq

/-- What has been asked of an interpreter that is to be built. -/
structure Builder (m : Type → Type) where
  /-- what names are to stand for -/
  lookup : Option (Lookup m) := none
  /-- the number of passes to allow -/
  limit : Option Nat := none
  /-- whether the environment is to be asked, whatever the lookup says -/
  usesEnvironment : Option Bool := none

namespace Builder

/-- Nothing is asked yet. -/
def empty : Builder m := {}

variable (b : Builder m)

/-- Asks for a lookup. -/
def withLookup (lookup : Lookup m) : Builder m :=
  { b with lookup := some lookup }

/-- Asks for a number of passes. -/
def withLimit (limit : Nat) : Builder m :=
  { b with limit := some limit }

/-- Asks for the environment to be allowed, or not. -/
def withEnvironment (allowed : Bool) : Builder m :=
  { b with usesEnvironment := some allowed }

/-- Asks for everything that is chosen in options. -/
def withOptions (options : Options) : Builder m :=
  (b.withLimit options.limit).withEnvironment options.usesEnvironment

/-- The interpreter that was asked for. Its lookup is the standard one, which comes with a host, if none was asked for;
it may ask the environment if its lookup may, unless something else was asked for. -/
def build (standard : Lookup m) : Interpreter m :=
  let lookup := b.lookup.getD standard
  let lookup := match b.usesEnvironment with
    | some allowed => lookup.withEnvironment allowed
    | none => lookup
  { Interpreter.standard lookup with limit := b.limit.getD Outcome.standardLimit }

theorem usesEnvironment_build (standard : Lookup m) : (b.build standard).lookup.usesEnvironment =
    b.usesEnvironment.getD (b.lookup.getD standard).usesEnvironment := by
  rw [build]
  cases b.usesEnvironment <;> rfl

end Builder

/-! ## Using interpreters -/

variable [Monad m] (i : Interpreter m) (environment : (name : String) → m (Option String))

/-- Resolves a text, going on from an outcome. -/
def resolveInto (text : String) (o : Outcome String) : m (Outcome String) :=
  Interpolate.resolve (i.lookup.ask environment) text o

/-- Resolves a text. -/
def resolve (text : String) : m (Outcome String) :=
  i.resolveInto environment text (.fresh i.limit)

/-- Evaluates a text, going on from an outcome. -/
def evaluateInto (text : String) (o : Outcome String) : m (Outcome Value) :=
  Interpolate.evaluate i.filter i.context (i.lookup.ask environment) text o

/-- Evaluates a text. -/
def evaluate (text : String) : m (Outcome Value) :=
  i.evaluateInto environment text (.fresh i.limit)

end Interpreter

end Interpolate
