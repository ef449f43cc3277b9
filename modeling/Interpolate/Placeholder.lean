import Interpolate.Text.Name

/-!
# Placeholders

A **placeholder** is a name in braces after a dollar sign. Of several in a text, the one that matters is the last:
the one that starts furthest to the right. In nested forms that is always the innermost.

* **`Placeholder`** — an occurrence, with what stands before and after it; **`Placeholder.text`** puts the parts
  together, **`Placeholder.fill`** puts something else in the place of the occurrence;
* **`Placeholder.last?`** — the last occurrence in a text.
-/

namespace Interpolate

/-- A placeholder in a text. -/
structure Placeholder where
  /-- the text before it -/
  before : List Char
  /-- its name -/
  name : List Char
  /-- the text after it -/
  after : List Char
  deriving DecidableEq, Repr

namespace Placeholder

/-- A name as a placeholder. -/
def spell (name : List Char) : List Char :=
  '$' :: '\x7b' :: (name ++ ['\x7d'])

/-- The text in which the placeholder stands. -/
def text (p : Placeholder) : List Char :=
  p.before ++ spell p.name ++ p.after

/-- The text with `value` in the place of the placeholder. -/
def fill (p : Placeholder) (value : List Char) : List Char :=
  p.before ++ value ++ p.after

/-- The placeholder that a text starts with. -/
def first? : List Char → Option Placeholder
  | '$' :: '\x7b' :: rest =>
    let name := rest.takeWhile Text.isNameChar
    match rest.dropWhile Text.isNameChar with
    | '\x7d' :: after => if Text.isName name then some ⟨[], name, after⟩ else none
    | _ => none
  | _ => none

/-- The last placeholder of a text. -/
def last? : List Char → Option Placeholder
  | [] => none
  | c :: rest =>
    match last? rest with
    | some p => some { p with before := c :: p.before }
    | none => first? (c :: rest)

end Placeholder

end Interpolate
