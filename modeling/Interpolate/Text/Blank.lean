/-!
# Blanks: white space, trimming and words

A **blank** is a character with the Unicode property `White_Space`. Texts are handled as lists of
characters here, so that every operation is a plain recursion.

* **`isBlank`** — the property, from its table of ranges;
* **`trim`** — the text without the blanks at its two ends;
* **`pieces`** / **`words`** — the text cut at every blank, with and without the empty pieces.
-/

namespace Interpolate

namespace Text

/-! ## The property -/

/-- The code points with the property `White_Space`, as ranges with both ends included. -/
def blankRanges : List (Nat × Nat) :=
  [(0x09, 0x0D), (0x20, 0x20), (0x85, 0x85), (0xA0, 0xA0), (0x1680, 0x1680), (0x2000, 0x200A),
   (0x2028, 0x2029), (0x202F, 0x202F), (0x205F, 0x205F), (0x3000, 0x3000)]

/-- Whether a character is white space. -/
def isBlank (c : Char) : Bool :=
  blankRanges.any fun range => range.1 ≤ c.toNat && c.toNat ≤ range.2

/-! ## Trimming -/

/-- The text without the blanks it starts with. -/
def trimStart (text : List Char) : List Char :=
  text.dropWhile isBlank

/-- The text without the blanks it ends with. -/
def trimEnd (text : List Char) : List Char :=
  (trimStart text.reverse).reverse

/-- The text without the blanks at its two ends. -/
def trim (text : List Char) : List Char :=
  trimEnd (trimStart text)

/-! ## Words -/

/-- The text cut at every blank: one piece more than there are blanks, empty ones included. -/
def pieces : List Char → List (List Char)
  | [] => [[]]
  | c :: rest =>
    if isBlank c then
      [] :: pieces rest
    else
      match pieces rest with
      | [] => [[c]]
      | piece :: more => (c :: piece) :: more

/-- The words of a text: its pieces that are not empty. -/
def words (text : List Char) : List (List Char) :=
  (pieces text).filter fun piece => !piece.isEmpty

end Text

end Interpolate
