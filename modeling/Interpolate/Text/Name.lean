/-!
# Names

A **name** is an ASCII letter or underscore followed by ASCII letters, digits and underscores. Macros,
constants and functions all have names of this form; the lexer of expressions and the allow-list use
the same two classes of characters.

* **`isNameStart`**, **`isNameChar`** — the two classes;
* **`isName`** — the form of a whole name.
-/

namespace Interpolate

namespace Text

/-- A character that a name may start with: an ASCII letter or an underscore. -/
def isNameStart (c : Char) : Bool :=
  c.isAlpha || c == '_'

/-- A character that a name may go on with: an ASCII letter, a digit or an underscore. -/
def isNameChar (c : Char) : Bool :=
  c.isAlphanum || c == '_'

/-- Whether a text, as a whole, is a name. -/
def isName : List Char → Bool
  | [] => false
  | c :: rest => isNameStart c && rest.all isNameChar

/-- A name goes on with every character it may start with. -/
theorem isNameChar_of_isNameStart {c : Char} (h : isNameStart c = true) : isNameChar c = true := by
  simp only [isNameStart, isNameChar, Char.isAlphanum, Bool.or_eq_true] at h ⊢
  rcases h with h | h
  · exact .inl (.inl h)
  · exact .inr h

/-- A name has no other characters. -/
theorem isNameChar_of_isName {w : List Char} (h : isName w = true) : ∀ c ∈ w, isNameChar c = true := by
  cases w with
  | nil => simp
  | cons d w =>
    simp only [isName, Bool.and_eq_true, List.all_eq_true] at h
    intro c hc
    rcases List.mem_cons.mp hc with rfl | hc
    · exact isNameChar_of_isNameStart h.1
    · exact h.2 c hc

/-- The empty text is no name. -/
theorem ne_nil_of_isName {text : List Char} (h : isName text = true) : text ≠ [] := by
  rintro rfl
  simp [isName] at h

end Text

end Interpolate
