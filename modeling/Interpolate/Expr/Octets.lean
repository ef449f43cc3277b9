import Interpolate.Expr.Lexeme
import Interpolate.Text.Utf8

/-!
# Lexemes from octets

The lexemes of a text can be read from the octets of its UTF-8, without decoding it first: a **position** moves over
the octets, and since every lexeme that means something is ASCII, octets are characters there. Only at an octet that is
not ASCII the octets from there on are decoded, to tell which character begins no lexeme.

* **`peek`**, **`eat`**, **`run`** — the octet at a position, and those that satisfy a test;
* **`fraction`**, **`exponent`**, **`number`**, **`word`**, **`symbol`**, **`foreign`** — parts of lexemes, and lexemes;
* **`lexemeAt`**, **`next`** — the next lexeme; it takes at least one octet (`lt_next`);
* **`tokens`** — all lexemes from a position on.

Whatever is read comes with the position where reading has ended, also if it has failed.
-/

namespace Interpolate

namespace Octets

open Token

variable (source : List UInt8)

/-! ## Octets at a position -/

/-- The octet at a position, as the character below U+0100 of that number. -/
def peek (pos : Nat) : Option Char :=
  source[pos]?.map fun octet => Char.ofNat octet.toNat

variable {source}

theorem lt_length_of_peek {pos : Nat} {c : Char} (h : peek source pos = some c) : pos < source.length := by
  obtain ⟨octet, hoctet, -⟩ := Option.map_eq_some_iff.mp h
  exact (List.getElem?_eq_some_iff.mp hoctet).1

variable (source)

/-- The octet at a position if it satisfies a test. -/
def eat (p : Char → Bool) (pos : Nat) : List Char × Nat :=
  match (peek source pos).filter p with
  | some c => ([c], pos + 1)
  | none => ([], pos)

/-- The octets from a position on that satisfy a test. -/
def run (p : Char → Bool) (pos : Nat) : List Char × Nat :=
  match h : (peek source pos).filter p with
  | some c =>
    have := lt_length_of_peek (Option.filter_eq_some_iff.mp h).1
    let (more, stop) := run p (pos + 1)
    (c :: more, stop)
  | none => ([], pos)
termination_by source.length - pos

theorem run_of_some {p : Char → Bool} {pos : Nat} {c : Char} (h : (peek source pos).filter p = some c) :
    run source p pos = (c :: (run source p (pos + 1)).1, (run source p (pos + 1)).2) := by
  rw [run]
  split
  · next d hd =>
    obtain rfl := Option.some.inj (h.symm.trans hd)
    rfl
  · next hd => cases h.symm.trans hd

theorem run_of_none {p : Char → Bool} {pos : Nat} (h : (peek source pos).filter p = none) :
    run source p pos = ([], pos) := by
  rw [run]
  split
  · next d hd => cases h.symm.trans hd
  · rfl

/-! ## Numbers -/

/-- A hexadecimal literal, after its `0x`. -/
def hexadecimal (pos : Nat) : Except SyntaxError Token × Nat :=
  let (digits, stop) := run source Decimal.isHexDigit pos
  if digits.isEmpty then
    (.error .emptyHex, stop)
  else
    match intLiteral? (Decimal.ofDigits 16 digits) with
    | some token => (.ok token, stop)
    | none => (.error (.hexTooLarge (String.ofList digits)), stop)

/-- A fraction: the point and the digits after it, which may be none. -/
def fraction (pos : Nat) : Option (List Char) × Nat :=
  match (peek source pos).filter (· == '.') with
  | none => (none, pos)
  | some _ =>
    let (digits, stop) := run source Char.isDigit (pos + 1)
    (some digits, stop)

/-- An exponent: the mark, a sign perhaps, and at least one digit. Without a digit the position goes back to the
mark. -/
def exponent (pos : Nat) : Option (List Char × List Char) × Nat :=
  match (peek source pos).filter fun c => c == 'e' || c == 'E' with
  | none => (none, pos)
  | some _ =>
    let (sign, first) := eat source (fun c => c == '+' || c == '-') (pos + 1)
    let (digits, stop) := run source Char.isDigit first
    if digits.isEmpty then (none, pos) else (some (sign, digits), stop)

/-- A decimal literal whose whole part and fraction are given. No letter and no underscore may follow it. -/
def decimal (whole : List Char) (fraction : Option (List Char)) (pos : Nat) : Except SyntaxError Token × Nat :=
  let (exponent, stop) := exponent source pos
  let numeral : Numeral := ⟨whole, fraction, exponent⟩
  match (peek source stop).filter Text.isNameStart with
  | some next => (.error (.badDecimal (String.ofList numeral.spelling) next), stop)
  | none => (numeral.token, stop)

/-- A number, after its first character: a digit or a point. -/
def number (first : Char) (pos : Nat) : Except SyntaxError Token × Nat :=
  if first = '0' ∧ ((peek source pos).any fun c => c == 'x' || c == 'X') = true then
    hexadecimal source (pos + 1)
  else if first = '.' then
    let (digits, stop) := run source Char.isDigit pos
    decimal source [] (some digits) stop
  else
    let (more, point) := run source Char.isDigit pos
    let (fraction, stop) := fraction source point
    decimal source (first :: more) fraction stop

/-! ## Words, symbols and other characters -/

/-- A word, after its first character. -/
def word (first : Char) (pos : Nat) : Token × Nat :=
  let (more, stop) := run source Text.isNameChar pos
  (.word (String.ofList (first :: more)), stop)

/-- A symbol, after its first character: a pair if the next one makes it one. -/
def symbol (first : Char) (pos : Nat) : Token × Nat :=
  match (peek source pos).bind (ofPair? first) with
  | some token => (token, pos + 1)
  | none => (ofSymbol first, pos)

/-- The character whose octets start at a position. Octets that are no text are taken for none, and the character
that is then missing for U+FFFD; one octet is taken at least. -/
def foreign (start : Nat) : Token × Nat :=
  let rest := (Text.decode? (source.drop start)).getD ""
  let c := rest.toList.head?.getD '\uFFFD'
  (.unknown c, start + max c.utf8Size 1)

/-! ## The next lexeme -/

/-- The lexeme whose first character, or its first octet, is given. -/
def lexemeAt (c : Char) (start : Nat) : Except SyntaxError Token × Nat :=
  if c.isDigit ∨ c = '.' ∧ (peek source (start + 1)).any Char.isDigit then
    number source c (start + 1)
  else if Text.isNameStart c then
    let (token, stop) := word source c (start + 1)
    (.ok token, stop)
  else if c.toNat < 0x80 then
    let (token, stop) := symbol source c (start + 1)
    (.ok token, stop)
  else
    let (token, stop) := foreign source start
    (.ok token, stop)

/-- The next lexeme, behind blanks; nothing at the end of the octets. -/
def next (pos : Nat) : Except SyntaxError (Option Token) × Nat :=
  let (_, start) := run source isSpace pos
  match peek source start with
  | none => (.ok none, start)
  | some c =>
    let (token, stop) := lexemeAt source c start
    (token.map some, stop)

/-! ## Progress -/

theorem le_eat (p : Char → Bool) (pos : Nat) : pos ≤ (eat source p pos).2 := by
  rw [eat]
  split
  · exact Nat.le_succ pos
  · exact Nat.le_refl pos

theorem le_run (p : Char → Bool) (pos : Nat) : pos ≤ (run source p pos).2 := by
  induction pos using run.induct source p with
  | case1 pos c h _ _ _ _ ih =>
    rw [run_of_some source h]
    exact Nat.le_trans (Nat.le_succ pos) ih
  | case2 pos h => exact Nat.le_of_eq (congrArg Prod.snd (run_of_none source h)).symm

theorem le_hexadecimal (pos : Nat) : pos ≤ (hexadecimal source pos).2 := by
  rw [hexadecimal]
  dsimp only
  split
  · exact le_run source _ pos
  · split <;> exact le_run source _ pos

theorem le_fraction (pos : Nat) : pos ≤ (fraction source pos).2 := by
  rw [fraction]
  split
  · exact Nat.le_refl pos
  · exact Nat.le_trans (Nat.le_succ pos) (le_run source _ _)

theorem le_exponent (pos : Nat) : pos ≤ (exponent source pos).2 := by
  rw [exponent]
  split
  · exact Nat.le_refl pos
  · dsimp only
    split
    · exact Nat.le_refl pos
    · exact Nat.le_trans (Nat.le_succ pos) (Nat.le_trans (le_eat source _ _) (le_run source _ _))

theorem le_decimal (whole : List Char) (fraction : Option (List Char)) (pos : Nat) :
    pos ≤ (decimal source whole fraction pos).2 := by
  rw [decimal]
  dsimp only
  split <;> exact le_exponent source pos

theorem le_number (first : Char) (pos : Nat) : pos ≤ (number source first pos).2 := by
  rw [number]
  dsimp only
  split
  · exact Nat.le_trans (Nat.le_succ pos) (le_hexadecimal source _)
  · split
    · exact Nat.le_trans (le_run source _ pos) (le_decimal source ..)
    · exact Nat.le_trans (le_run source _ pos) (Nat.le_trans (le_fraction source _) (le_decimal source ..))

theorem le_symbol (first : Char) (pos : Nat) : pos ≤ (symbol source first pos).2 := by
  rw [symbol]
  split
  · exact Nat.le_succ pos
  · exact Nat.le_refl pos

theorem le_word (first : Char) (pos : Nat) : pos ≤ (word source first pos).2 :=
  le_run source _ pos

theorem lt_foreign (start : Nat) : start < (foreign source start).2 :=
  Nat.lt_add_of_pos_right (Nat.le_max_right _ 1)

theorem lt_lexemeAt (c : Char) (start : Nat) : start < (lexemeAt source c start).2 := by
  rw [lexemeAt]
  split
  · exact le_number source c _
  · split
    · exact le_word source c _
    · split
      · exact le_symbol source c _
      · exact lt_foreign source start

/-- **Progress.** Whatever the octets are, a lexeme starts at one of them and takes it. -/
theorem lt_next {pos stop : Nat} {token : Token} (h : next source pos = (.ok (some token), stop)) :
    pos < source.length ∧ pos < stop := by
  have hblanks := le_run source isSpace pos
  rw [next] at h
  dsimp only at h
  split at h
  · cases h
  · next c hpeek =>
    obtain rfl := (congrArg Prod.snd h).symm
    exact ⟨Nat.lt_of_le_of_lt hblanks (lt_length_of_peek hpeek), Nat.lt_of_le_of_lt hblanks (lt_lexemeAt source c _)⟩

/-! ## All lexemes -/

/-- All lexemes from a position on. -/
def tokens (pos : Nat) : Except SyntaxError (List Token) :=
  match h : next source pos with
  | (.error e, _) => .error e
  | (.ok none, _) => .ok []
  | (.ok (some token), stop) =>
    have := lt_next source h
    (tokens stop).map (token :: ·)
termination_by source.length - pos

variable {source} {pos stop : Nat}

theorem tokens_of_error {error : SyntaxError} (h : next source pos = (.error error, stop)) :
    tokens source pos = .error error := by
  rw [tokens]
  split
  · next heq => cases h.symm.trans heq; rfl
  · next heq => cases h.symm.trans heq
  · next heq => cases h.symm.trans heq

theorem tokens_of_none (h : next source pos = (.ok none, stop)) : tokens source pos = .ok [] := by
  rw [tokens]
  split
  · next heq => cases h.symm.trans heq
  · rfl
  · next heq => cases h.symm.trans heq

theorem tokens_of_some {token : Token} (h : next source pos = (.ok (some token), stop)) :
    tokens source pos = (tokens source stop).map (token :: ·) := by
  rw [tokens]
  split
  · next heq => cases h.symm.trans heq
  · next heq => cases h.symm.trans heq
  · next heq => cases h.symm.trans heq; rfl

end Octets

end Interpolate
