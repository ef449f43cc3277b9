import Interpolate.Host
import Interpolate.Text.Blank
import Interpolate.Text.Name

/-!
# Definition files

A **definition file** holds one definition a line: a name, an equals sign and a text, with blanks around each. Blank
lines and lines that start with `#` mean nothing. The text is kept as it stands, placeholders and all. A name that has
an entry already cannot be defined again.

* **`Line`** — what a line says, and **`Line.read`**, which finds out;
* **`DefinitionError`** — why a file cannot be loaded, and its **`message`**;
* **`Lookup.load`** — adds the definitions of a text to a lookup, as far as the first fault;
* **`Host.load`** — the same for a file.
-/

namespace Interpolate

/-! ## Lines -/

/-- What a line of a definition file says. -/
inductive Line where
  /-- nothing -/
  | silent
  /-- that a name stands for a text -/
  | definition (name value : List Char)
  /-- something that is no definition -/
  | malformed (text : List Char)
  deriving DecidableEq, Repr

/-- The definition that a trimmed line makes. -/
def Line.definition? (text : List Char) : Option (List Char × List Char) :=
  let name := text.takeWhile Text.isNameChar
  match Text.trimStart (text.dropWhile Text.isNameChar) with
  | '=' :: value => if Text.isName name then some (name, Text.trim value) else none
  | _ => none

/-- What a line says. -/
def Line.read (raw : List Char) : Line :=
  let text := Text.trim raw
  if text.isEmpty || text.head? == some '#' then .silent
  else
    match definition? text with
    | some (name, value) => .definition name value
    | none => .malformed text

/-- The lines of a text. A line feed ends a line; a carriage return before it is a blank at the end of the line. -/
def lines : List Char → List (List Char)
  | [] => [[]]
  | c :: rest =>
    if c == '\n' then [] :: lines rest
    else
      match lines rest with
      | [] => [[c]]
      | line :: more => (c :: line) :: more

/-! ## Faults -/

/-- Why a definition file cannot be loaded. -/
inductive DefinitionError where
  /-- it cannot be read -/
  | unreadable (path : String) (fault : FileFault)
  /-- a line is no definition -/
  | malformed (origin line : String)
  /-- a name has an entry already, which comes from `previous` -/
  | duplicate (origin name : String) (previous : Option String)
  deriving DecidableEq

/-- What a user reads. -/
def DefinitionError.message : DefinitionError → String
  | .unreadable path fault => path ++ ": " ++ fault.message
  | .malformed origin line => origin ++ ": syntax: " ++ line
  | .duplicate origin name previous =>
    origin ++ ": Duplicate " ++ name ++ ", previous: " ++ previous.getD "unknown"

/-! ## Loading -/

namespace Lookup

variable {m : Type → Type}

/-- Adds the definitions of some lines, the first of which has the number `number`; `count` were added before. -/
def loadLines (source : String) :
    (number count : Nat) → List (List Char) → Lookup m → Lookup m × Except DefinitionError Nat
  | _, count, [], l => (l, .ok count)
  | number, count, raw :: more, l =>
    let origin := source ++ ":" ++ toString number
    match Line.read raw with
    | .silent => loadLines source (number + 1) count more l
    | .malformed text => (l, .error (.malformed origin (String.ofList text)))
    | .definition name value =>
      let name := String.ofList name
      match l.entry? name with
      | some previous => (l, .error (.duplicate origin name previous.origin))
      | none =>
        loadLines source (number + 1) (count + 1) more
          (l.insert ⟨name, String.ofList value, some origin⟩)

/-- Adds the definitions of a text, as far as the first fault, and answers how many there were. Their origin is the
source with the number of the line. -/
def load (l : Lookup m) (source text : String) : Lookup m × Except DefinitionError Nat :=
  loadLines source 1 0 (lines text.toList) l

end Lookup

/-- Adds the definitions of a file. -/
def Host.load {m : Type → Type} [Monad m] (host : Host m) (l : Lookup m) (path : String) :
    m (Lookup m × Except DefinitionError Nat) := do
  match ← host.readFile path with
  | .ok text => return l.load path text
  | .error fault => return (l, .error (.unreadable path fault))

end Interpolate
