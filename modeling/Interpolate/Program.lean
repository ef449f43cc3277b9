import Interpolate.CommandLine
import Interpolate.DefinitionFile
import Interpolate.Evaluation

/-!
# The program

The program loads definition files, adds the definitions of the command line, and resolves or evaluates each text.

* **`Report`** — what a run writes, line by line, and its status;
* **`run`** — the run of a command line on a host.
-/

namespace Interpolate

/-- How the program is used. -/
def usage : String :=
  "Usage: envmacros [-f<file>]... [-D<name>=<value>]... [-p<max>] [-Exvh] [--] <text>..."

/-- Where lines are written to. -/
inductive Channel where
  /-- what was asked for -/
  | output
  /-- complaints and steps -/
  | errors
  deriving DecidableEq, Repr

/-- What a run writes and how it ends. -/
structure Report where
  /-- the lines written, in order -/
  lines : List (Channel × String)
  /-- 0 if all went well, 1 if a text has no value, 2 if there was nothing to try -/
  status : Nat
  deriving DecidableEq, Repr

namespace Report

/-- The report of a run that did nothing yet. -/
def empty : Report := ⟨[], 0⟩

/-- Two reports, one after the other; the greater status counts. -/
def append (r s : Report) : Report :=
  ⟨r.lines ++ s.lines, max r.status s.status⟩

/-- Everything written to one channel. -/
def written (r : Report) (channel : Channel) : String :=
  String.join ((r.lines.filter fun line => line.1 == channel).map fun line => line.2 ++ "\n")

/-- A complaint of the program. -/
def complaint (message : String) : Channel × String :=
  (.errors, "envmacros: " ++ message)

/-- The report on one text: the steps if they are asked for, and then the value or the fault. -/
def ofOutcome {α : Type} (spell : α → String) (verbose : Bool) (o : Outcome α) : Report :=
  let steps := if verbose then o.steps.map fun step => (Channel.errors, "  " ++ step) else []
  match o.fault, o.value with
  | some fault, _ => ⟨steps ++ [complaint fault.message], 1⟩
  | none, some value => ⟨steps ++ [(.output, spell value)], 0⟩
  | none, none => ⟨steps, 1⟩

end Report

namespace Program

variable {m : Type → Type} [Monad m]

/-- Loads definition files one after the other, as far as the first fault. -/
def loadFiles (host : Host m) (l : Lookup m) : List String → m (Except DefinitionError (Lookup m))
  | [] => return .ok l
  | path :: paths => do
    match ← host.load l path with
    | (l, .ok _) => loadFiles host l paths
    | (_, .error error) => return .error error

/-- Adds the definitions of a command line. They take the place of those loaded before. -/
def define (l : Lookup m) (definitions : List (String × String)) : Lookup m :=
  definitions.foldl (fun l d => l.insert ⟨d.1, d.2, some "command line"⟩) l

/-- The interpreter that a command line asks for. A lookup is among what it asks for, so that there is nothing to fall
back on. -/
def interpreter (c : CommandLine) (l : Lookup m) : Interpreter m :=
  let builder := Interpreter.Builder.empty.withLookup (define l c.definitions)
  let builder := match c.limit with
    | some limit => builder.withLimit limit
    | none => builder
  builder.build l

/-- Tries one text. -/
def report (host : Host m) (c : CommandLine) (i : Interpreter m) (text : String) : m Report := do
  if c.evaluates then
    return .ofOutcome Value.text c.verbose (← i.evaluate host.environment text)
  else
    return .ofOutcome id c.verbose (← i.resolve host.environment text)

/-- Tries texts one after the other. -/
def reports (host : Host m) (c : CommandLine) (i : Interpreter m) : List String → m Report
  | [] => return .empty
  | text :: texts => do
    let first ← report host c i text
    let others ← reports host c i texts
    return first.append others

/-- The run of a command line. -/
def runCommand (host : Host m) (c : CommandLine) : m Report := do
  if c.help then
    return ⟨[(.output, usage)], 0⟩
  else
    match ← loadFiles host (host.lookup.withEnvironment !c.isolated) c.files with
    | .error error => return ⟨[Report.complaint error.message], 2⟩
    | .ok l => reports host c (interpreter c l) c.texts

/-- The run of the program with the elements of a command line. -/
def run (host : Host m) (elements : List String) : m Report :=
  match CommandLine.read elements with
  | .error error => return ⟨[Report.complaint error.message, (.errors, usage)], 2⟩
  | .ok c => runCommand host c

end Program

end Interpolate
