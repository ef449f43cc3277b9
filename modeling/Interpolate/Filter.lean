import Interpolate.Decimal.Numeral
import Interpolate.Math.Library
import Interpolate.Text.Blank
import Interpolate.Text.Name

/-!
# The filter: which texts may be evaluated

Before a text is read as an expression it has to pass a **filter**, which knows nothing of the language but its
smallest parts. Operators separate the text into tokens, and each token has to be on the list: a numeral, an
opening parenthesis, a truth value, a logical word, a constant that the filter allows, or a function that it allows
together with the parenthesis after it. `^` and `,` are no separators, so that neither ever passes.

* **`Filter`** — the names allowed; **`Filter.standard`** allows those of the mathematical library;
* **`glue`**, **`spread`**, **`tokens`** — the tokens of a text;
* **`allowsToken`**, **`illegal?`** — the first token that is not on the list.
-/

namespace Interpolate

/-! ## Sets of names -/

/-- Adds a name to a list in order, without repeating one. -/
def insertName (name : String) : List String → List String
  | [] => [name]
  | n :: ns =>
    if name < n then name :: n :: ns
    else if name = n then n :: ns
    else n :: insertName name ns

@[simp] theorem mem_insertName {name x : String} {names : List String} :
    x ∈ insertName name names ↔ x = name ∨ x ∈ names := by
  induction names with
  | nil => simp [insertName]
  | cons n ns ih =>
    simp only [insertName]
    split
    · simp
    · split
      · next h => subst h; simp
      · simp only [List.mem_cons, ih]
        exact or_left_comm

/-- The names that an expression may use. -/
structure Filter where
  /-- functions, in order -/
  functions : List String
  /-- constants, in order -/
  constants : List String
  deriving DecidableEq

namespace Filter

/-- The filter that allows no names. -/
def empty : Filter := ⟨[], []⟩

/-- The filter with some more names. -/
def allow (filter : Filter) (functions constants : List String) : Filter where
  functions := functions.foldl (fun names name => insertName name names) filter.functions
  constants := constants.foldl (fun names name => insertName name names) filter.constants

/-- The filter that allows the mathematical library. -/
def standard : Filter :=
  empty.allow Math.functionNames Math.constantNames

/-! ## Tokens -/

/-- The characters that separate tokens beside blanks. -/
def separators : List Char :=
  ['-', '+', '*', '/', '&', '|', '%', '!', '~', '<', '>', '=', '.', ')']

/-- Whether a character separates tokens. -/
def isSeparator (c : Char) : Bool :=
  separators.contains c

/-- Removes the blanks between a word and an opening parenthesis. A word is a run of the characters of names with
a letter or an underscore among them; `inWord` says whether the text before is one. -/
def glue (inWord : Bool) : List Char → List Char
  | [] => []
  | c :: rest =>
    if Text.isBlank c then
      if inWord && (Text.trimStart rest).head? == some '(' then
        glue inWord rest
      else
        c :: glue false rest
    else if Text.isNameChar c then
      c :: glue (inWord || Text.isNameStart c) rest
    else
      c :: glue false rest

/-- Writes a blank for a separator, and one after an opening parenthesis. -/
def spread (c : Char) : List Char :=
  if c == '(' then ['(', ' ']
  else if isSeparator c then [' ']
  else [c]

/-- The tokens of a text. A function and the parenthesis after it are one token. -/
def tokens (text : List Char) : List (List Char) :=
  Text.words ((glue false text).flatMap spread)

/-! ## The list -/

/-- The words for truth values. -/
def truthWords : List String := ["True", "False"]

/-- The words for logical operators. -/
def logicWords : List String := ["and", "or", "not"]

/-- Whether a token consists of digits and points. -/
def isDecimal (token : List Char) : Bool :=
  !token.isEmpty && token.all fun c => c.isDigit || c == '.'

/-- Whether a token is a hexadecimal numeral. -/
def isHex : List Char → Bool
  | '0' :: x :: digits => (x == 'x' || x == 'X') && !digits.isEmpty && digits.all Decimal.isHexDigit
  | _ => false

/-- Whether a token is on the list. A logical word may stand before a parenthesis as a function does. -/
def allowsToken (filter : Filter) (token : List Char) : Bool :=
  if token == ['('] || isDecimal token || isHex token then true
  else
    let word := String.ofList token
    if truthWords.contains word || logicWords.contains word then true
    else if token.getLast? == some '(' then
      let name := String.ofList token.dropLast
      filter.functions.contains name || logicWords.contains name
    else
      filter.constants.contains word

/-- The first token of a text that is not on the list. -/
def illegal? (filter : Filter) (text : List Char) : Option String :=
  ((tokens text).find? fun token => !filter.allowsToken token).map String.ofList

/-- Whether a text passes the filter. -/
def accepts (filter : Filter) (text : List Char) : Bool :=
  (filter.illegal? text).isNone

end Filter

end Interpolate
