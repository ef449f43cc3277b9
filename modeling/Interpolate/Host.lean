import Interpolate.Lookup

/-!
# Hosts: what surrounds a run

Everything outside of the program — environment, files, clock, working directory — is reached through a **host**, a
record of actions in a monad.

* **`FileFault`** — why a file cannot be read;
* **`LocalTime`** — a time of day and its **`stamp`**;
* **`Host`** — the actions;
* **`Host.lookup`** — the lookup with the two names that a host computes.
-/

namespace Interpolate

/-- Why a file cannot be read as text. -/
inductive FileFault where
  /-- nothing has that name -/
  | missing
  /-- the name is that of a directory -/
  | directory
  /-- a file stands where the name asks for a directory -/
  | notDirectory
  /-- the content is not UTF-8 -/
  | notText
  /-- something else, described by the host -/
  | other (description : String)
  deriving DecidableEq

/-- What a user reads. -/
def FileFault.message : FileFault → String
  | .missing => "No such file or directory (os error 2)"
  | .directory => "Is a directory (os error 21)"
  | .notDirectory => "Not a directory (os error 20)"
  | .notText => "stream did not contain valid UTF-8"
  | .other description => description

/-! ## Times -/

/-- A date with a time of day. -/
structure LocalTime where
  /-- the year -/
  year : Nat
  /-- the month, counted from one -/
  month : Nat
  /-- the day of the month -/
  day : Nat
  /-- the day of the week, counted from Monday as one -/
  weekday : Nat
  /-- the hour -/
  hour : Nat
  /-- the minute -/
  minute : Nat
  /-- the second -/
  second : Nat

namespace LocalTime

/-- Short names of the days of the week. -/
def weekdays : List String := ["Mon", "Tue", "Wed", "Thu", "Fri", "Sat", "Sun"]

/-- Short names of the months. -/
def months : List String :=
  ["Jan", "Feb", "Mar", "Apr", "May", "Jun", "Jul", "Aug", "Sep", "Oct", "Nov", "Dec"]

/-- A number with at least `width` characters, filled up in front. -/
def padded (fill : Char) (width n : Nat) : String :=
  let digits := (toString n).toList
  String.ofList (List.replicate (width - digits.length) fill ++ digits)

/-- Day of the week, month, day, time and year, as in `Thu Jan  1 00:00:00 1970`. -/
def stamp (t : LocalTime) : String :=
  weekdays.getD (t.weekday - 1) "" ++ " " ++ months.getD (t.month - 1) "" ++ " " ++ padded ' ' 2 t.day ++ " "
    ++ padded '0' 2 t.hour ++ ":" ++ padded '0' 2 t.minute ++ ":" ++ padded '0' 2 t.second ++ " "
    ++ padded '0' 4 t.year

end LocalTime

/-! ## Hosts -/

/-- What surrounds a run. -/
structure Host (m : Type → Type) where
  /-- the text of an environment variable -/
  environment : (name : String) → m (Option String)
  /-- the content of a file -/
  readFile : (path : String) → m (Except FileFault String)
  /-- the time now -/
  time : m LocalTime
  /-- the working directory, or why there is none -/
  workingDirectory : m (Except String String)

namespace Host

variable {m : Type → Type} [Monad m]

/-- The computed name for the time. -/
def now (host : Host m) : Computed m where
  name := "NOW"
  origin := "dynamic NOW"
  action := do return .value (← host.time).stamp

/-- The computed name for the working directory. -/
def getcwd (host : Host m) : Computed m where
  name := "GETCWD"
  origin := "dynamic GETCWD"
  action := do
    match ← host.workingDirectory with
    | .ok path => return .value path
    | .error description => return .failure description

/-- A lookup without entries that knows the names a host computes. -/
def lookup (host : Host m) : Lookup m :=
  (Lookup.empty.register host.now).register host.getcwd

end Host

end Interpolate
