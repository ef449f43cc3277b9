import Interpolate.Outcome
import Interpolate.Value

/-!
# Lookups: what names stand for

A **lookup** knows what text a name stands for. It asks, in this order, its own **entries**, the **environment** if
that is allowed, and its **computed** names, whose text is found by an action when it is asked for.

The actions live in a monad `m`: `Id` for computations that always give the same reply, a state monad for those
that count their calls, `IO` for a clock. An action runs only when neither an entry nor the environment has the
name.

* **`ToText`** — what can be the text of an entry;
* **`Entry`**, **`Reply`**, **`Computed`** — the parts of a lookup;
* **`Lookup`** — the lookup, and the operations that change it;
* **`Lookup.ask`** — the **`Answer`** for a name;
* **`Outcome.record`** — an answer as part of an outcome.
-/

namespace Interpolate

/-! ## Texts of entries -/

/-- What can be the text of an entry. Numbers and truth values are written the way values are, so that an
expression can read them back. -/
class ToText (α : Type) where
  /-- the text -/
  text : α → String

instance : ToText String := ⟨id⟩

instance : ToText Value := ⟨Value.text⟩

instance : ToText Bool := ⟨fun b => (Value.bool b).text⟩

instance : ToText Float := ⟨fun x => Value.floatNotation.write x⟩

instance : ToText Float32 := ⟨fun x => Value.floatNotation.write x.toFloat⟩

instance : ToText Int64 := ⟨fun n => (Value.int n).text⟩

instance : ToText Int := ⟨fun n => toString n⟩

instance : ToText Nat := ⟨fun n => toString n⟩

/-! ## The parts of a lookup -/

/-- A name and the text it stands for. -/
structure Entry where
  /-- the name -/
  name : String
  /-- its text -/
  value : String
  /-- where the entry comes from, if that is known -/
  origin : Option String
  deriving DecidableEq

/-- How the computation of a text ends. -/
inductive Reply where
  /-- with a text -/
  | value (text : String)
  /-- with a description of what went wrong -/
  | failure (description : String)
  /-- by being broken off, perhaps with a last message -/
  | broken (message : Option String)

/-- A name whose text is computed. -/
structure Computed (m : Type → Type) where
  /-- the name -/
  name : String
  /-- where its text is said to come from -/
  origin : String
  /-- the computation -/
  action : m Reply

/-- What texts names stand for. -/
structure Lookup (m : Type → Type) where
  /-- the lookup's own entries, at most one for each name -/
  entries : List Entry
  /-- the names whose text is computed, at most one computation for each -/
  computed : List (Computed m)
  /-- whether the environment is asked -/
  usesEnvironment : Bool

namespace Lookup

variable {m : Type → Type}

/-- A lookup without entries and computed names. -/
def empty : Lookup m := ⟨[], [], true⟩

/-! ## Entries -/

/-- The entry of a name. -/
def entry? (l : Lookup m) (name : String) : Option Entry :=
  l.entries.find? fun e => e.name == name

/-- Whether there is an entry of that name. -/
def contains (l : Lookup m) (name : String) : Bool :=
  (l.entry? name).isSome

/-- Removes the entry of a name, and says whether there was one. -/
def remove (l : Lookup m) (name : String) : Lookup m × Bool :=
  ({ l with entries := l.entries.filter fun e => e.name != name }, l.contains name)

/-- Adds an entry in the place of an earlier one of its name. -/
def insert (l : Lookup m) (e : Entry) : Lookup m :=
  { l with entries := e :: (l.remove e.name).1.entries }

/-- Adds an entry whose text is that of a value. -/
def add {α : Type} [ToText α] (l : Lookup m) (name : String) (value : α) (origin : Option String) :
    Lookup m :=
  l.insert ⟨name, ToText.text value, origin⟩

theorem find_insert_self (l : Lookup m) (e : Entry) : entry? (l.insert e) e.name = some e := by
  rw [insert, entry?, List.find?_cons_of_pos (by simp)]

/-- Other names keep their entries. -/
theorem find_insert_of_ne (l : Lookup m) {e : Entry} {name : String} (h : e.name ≠ name) :
    entry? (l.insert e) name = l.entry? name := by
  rw [insert, entry?, List.find?_cons_of_neg (by simpa using h), remove, List.find?_filter, entry?]
  congr 1
  funext f
  by_cases hname : f.name = name
  · simp [hname, Ne.symm h]
  · simp [hname]

/-- What a removal says is what can be asked before it. -/
theorem remove_snd_iff {l : Lookup m} {name : String} :
    (l.remove name).2 = true ↔ ∃ e, l.entry? name = some e :=
  Option.isSome_iff_exists

/-- The entries in the order of their names. -/
def sorted (l : Lookup m) : List Entry :=
  l.entries.mergeSort fun e f => !decide (f.name < e.name)

/-! ## Computed names -/

/-- The computation behind a name. -/
def computed? (l : Lookup m) (name : String) : Option (Computed m) :=
  l.computed.find? fun c => c.name == name

/-- Removes the computation behind a name, and says whether there was one. -/
def unregister (l : Lookup m) (name : String) : Lookup m × Bool :=
  ({ l with computed := l.computed.filter fun c => c.name != name }, (l.computed? name).isSome)

/-- Adds a computation in the place of an earlier one of its name. -/
def register (l : Lookup m) (c : Computed m) : Lookup m :=
  { l with computed := c :: (l.unregister c.name).1.computed }

theorem unregister_snd_iff {l : Lookup m} {name : String} :
    (l.unregister name).2 = true ↔ ∃ c, l.computed? name = some c :=
  Option.isSome_iff_exists

/-- Removes every computation. -/
def withoutComputed (l : Lookup m) : Lookup m :=
  { l with computed := [] }

/-- Allows the environment, or not. -/
def withEnvironment (l : Lookup m) (allowed : Bool) : Lookup m :=
  { l with usesEnvironment := allowed }

end Lookup

/-! ## Asking -/

/-- What a lookup says about a name. -/
inductive Answer where
  /-- the text, and where it comes from -/
  | found (value : String) (origin : Option String)
  /-- the computation behind the name failed -/
  | failed (description : String)
  /-- the name is not known -/
  | unknown
  deriving DecidableEq

/-- Where the texts of the environment come from. -/
def environmentOrigin : String := "environment"

/-- What the reply of a computed name says about the name. -/
def Reply.answer (origin : String) : Reply → Answer
  | .value text => .found text (some origin)
  | .failure description => .failed description
  | .broken message => .failed (message.getD "panic")

namespace Lookup

variable {m : Type → Type} [Monad m]

/-- What the environment has under a name, if it may be asked. -/
def environment? (l : Lookup m) (environment : String → m (Option String)) (name : String) :
    m (Option String) :=
  if l.usesEnvironment then environment name else pure none

/-- What the lookup says about a name: its entry, else the environment's text, else the reply of the computation
behind it. -/
def ask (l : Lookup m) (environment : String → m (Option String)) (name : String) : m Answer :=
  match l.entry? name with
  | some e => pure (.found e.value e.origin)
  | none => do
    match ← l.environment? environment name with
    | some value => pure (.found value (some environmentOrigin))
    | none =>
      match l.computed? name with
      | some c => do return (← c.action).answer c.origin
      | none => pure .unknown

end Lookup

/-- The step that says what a name stands for. -/
def foundStep (name value : String) : Option String → String
  | some origin => name ++ " -> " ++ value ++ " (" ++ origin ++ ")"
  | none => name ++ " -> " ++ value

/-- Notes the answer for a name in an outcome: as a step if there is a text, as a fault if there is none. -/
def Outcome.record {α : Type} (o : Outcome α) (name : String) : Answer → Outcome α
  | .found value origin => o.addStep (foundStep name value origin)
  | .failed description => o.fail (.failed name description)
  | .unknown => o.fail (.undefined name)

/-- The text in an answer. -/
def Answer.value? : Answer → Option String
  | .found value _ => some value
  | .failed _ => none
  | .unknown => none

@[simp] theorem Outcome.passes_record {α : Type} (o : Outcome α) (name : String) (answer : Answer) :
    (o.record name answer).passes = o.passes := by
  cases answer <;> rfl

@[simp] theorem Outcome.limit_record {α : Type} (o : Outcome α) (name : String) (answer : Answer) :
    (o.record name answer).limit = o.limit := by
  cases answer <;> rfl

end Interpolate
