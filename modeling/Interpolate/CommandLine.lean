import Interpolate.Decimal.Numeral
import Interpolate.Text.Blank
import Interpolate.Text.Name

/-!
# Command lines

A command line is a list of elements: **options**, which start with a dash, and **texts**. Options are single letters;
several can share a dash, and a letter that takes a value takes the rest of its element, or the next one if nothing is
left. After `--` all is text.

* **`CommandLine`** — what a command line says;
* **`UsageError`** — why a list of elements is no command line, and its **`message`**;
* **`CommandLine.scan`** — goes through letters and elements;
* **`CommandLine.read`** — the command line that a list of elements spells.
-/

namespace Interpolate

/-- What a command line says. -/
structure CommandLine where
  /-- definition files, in order -/
  files : List String
  /-- names and the texts they are to stand for, in order -/
  definitions : List (String × String)
  /-- the number of passes allowed, if it is given -/
  limit : Option Nat
  /-- leave the environment alone -/
  isolated : Bool
  /-- evaluate the texts -/
  evaluates : Bool
  /-- show the steps -/
  verbose : Bool
  /-- show how the program is used -/
  help : Bool
  /-- the texts, in order -/
  texts : List String
  deriving DecidableEq, Repr

/-- Why a list of elements is no command line. -/
inductive UsageError where
  /-- a letter that is no option -/
  | unknown (letter : Char)
  /-- an option without its value -/
  | missingValue (letter : Char)
  /-- a limit that is no number of 64 bits -/
  | badLimit (value : String)
  /-- a definition without an equals sign -/
  | noEquals (value : String)
  /-- a definition of something that is no name -/
  | badName (name : String)
  /-- neither a text nor a call for help -/
  | noText
  deriving DecidableEq, Repr

/-- What a user reads. -/
def UsageError.message : UsageError → String
  | .unknown letter => "unknown option: -" ++ String.singleton letter
  | .missingValue letter => "-" ++ String.singleton letter ++ " requires an argument"
  | .badLimit value => "invalid pass limit: " ++ value
  | .noEquals value => "-D expects NAME=VALUE, got: " ++ value
  | .badName name => "invalid macro name: " ++ name
  | .noText => "no text to resolve"

namespace CommandLine

/-- The command line that says nothing. -/
def empty : CommandLine :=
  ⟨[], [], none, false, false, false, false, []⟩

/-! ## Values of options -/

/-- A limit: decimal digits, perhaps after a plus sign, of a number of 64 bits. -/
def limit? (value : List Char) : Option Nat :=
  let digits := if value.head? = some '+' then value.tail else value
  if digits.isEmpty || !digits.all Char.isDigit then none
  else
    let n := Decimal.ofDigits 10 digits
    if n < 0x10000000000000000 then some n else none

/-- A definition: a name with blanks around it, and everything after the first equals sign. -/
def definition (value : List Char) : Except UsageError (String × String) :=
  match value.dropWhile (· != '=') with
  | [] => .error (.noEquals (String.ofList value))
  | _ :: text =>
    let name := Text.trim (value.takeWhile (· != '='))
    if Text.isName name then .ok (String.ofList name, String.ofList text)
    else .error (.badName (String.ofList name))

/-- What a letter without a value does. -/
def flag? (letter : Char) (c : CommandLine) : Option CommandLine :=
  match letter with
  | 'E' => some { c with isolated := true }
  | 'x' => some { c with evaluates := true }
  | 'v' => some { c with verbose := true }
  | 'h' => some { c with help := true }
  | _ => none

/-- Whether a letter takes a value. -/
def takesValue (letter : Char) : Bool :=
  letter == 'f' || letter == 'p' || letter == 'D'

/-- What a letter with a value does. -/
def setting (letter : Char) (value : String) (c : CommandLine) : Except UsageError CommandLine :=
  match letter with
  | 'f' => .ok { c with files := c.files ++ [value] }
  | 'p' =>
    match limit? value.toList with
    | some n => .ok { c with limit := some n }
    | none => .error (.badLimit value)
  | _ => (definition value.toList).map fun d => { c with definitions := c.definitions ++ [d] }

/-! ## Letters and elements -/

/-- Whether an element is text: it does not start with a dash, or it is nothing but one. -/
def isText (element : String) : Bool :=
  element.toList.head? != some '-' || element == "-"

/-- Goes through the letters left in the present element, and then through the elements after it. -/
def scan (c : CommandLine) : (letters : List Char) → (elements : List String) → Except UsageError CommandLine
  | letter :: letters, elements =>
    match flag? letter c with
    | some c => scan c letters elements
    | none =>
      if takesValue letter then
        match letters, elements with
        | [], [] => .error (.missingValue letter)
        | [], value :: elements =>
          match setting letter value c with
          | .error error => .error error
          | .ok c => scan c [] elements
        | letters, elements =>
          match setting letter (String.ofList letters) c with
          | .error error => .error error
          | .ok c => scan c [] elements
      else
        .error (.unknown letter)
  | [], [] => .ok c
  | [], element :: elements =>
    if element = "--" then .ok { c with texts := c.texts ++ elements }
    else if isText element then scan { c with texts := c.texts ++ [element] } [] elements
    else scan c element.toList.tail elements
termination_by letters elements => (elements.length, letters.length)

/-- The command line that a list of elements spells. It needs a text, unless it calls for help. -/
def read (elements : List String) : Except UsageError CommandLine := do
  let c ← scan empty [] elements
  if c.texts.isEmpty && !c.help then .error .noText else .ok c

end CommandLine

end Interpolate
