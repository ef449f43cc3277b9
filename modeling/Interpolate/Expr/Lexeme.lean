import Interpolate.Decimal.Numeral
import Interpolate.Expr.Token
import Interpolate.Text.Name

/-!
# Lexemes: from characters to tokens

A text is a sequence of **lexemes**, each the longest that can be read at its place, with blanks between them
that mean nothing. Here only space, tab, line feed and carriage return are blanks; any other character that
begins no lexeme is a token of its own, for the reader of expressions to complain about.

* **`hexLexeme`**, **`Numeral`** — literals of integers and floats;
* **`symbolLexeme`** — operators, of two characters where that is possible;
* **`lexeme`** — one lexeme, whichever it is; what follows it is a suffix of the text (`lexeme_suffix`);
* **`lex`** — all of them.
-/

namespace Interpolate

namespace Token

/-- The blanks between lexemes. -/
def isSpace (c : Char) : Bool :=
  c == ' ' || c == '\t' || c == '\n' || c == '\r'

/-! ## Integers and floats -/

/-- The value of an integer literal, unless it is above the greatest integer. -/
def intLiteral? (n : Nat) : Option Token :=
  if n < 0x8000000000000000 then some (.int (Int64.ofInt n)) else none

/-- A hexadecimal literal, after its `0x`. -/
def hexLexeme (text : List Char) : Except SyntaxError (Token × List Char) :=
  let digits := text.takeWhile Decimal.isHexDigit
  if digits.isEmpty then
    .error .emptyHex
  else
    match intLiteral? (Decimal.ofDigits 16 digits) with
    | some token => .ok (token, text.dropWhile Decimal.isHexDigit)
    | none => .error (.hexTooLarge (String.ofList digits))

/-- A decimal literal, in parts. -/
structure Numeral where
  /-- digits before the point -/
  whole : List Char
  /-- digits after the point, if there is a point -/
  fraction : Option (List Char)
  /-- sign and digits of the exponent, if there is one -/
  exponent : Option (List Char × List Char)

namespace Numeral

/-- An exponent: the mark, a sign perhaps, and at least one digit. Without a digit there is no exponent, and
the mark is left where it is. -/
def takeExponent (text : List Char) : Option (List Char × List Char) × List Char :=
  match text with
  | [] => (none, text)
  | mark :: rest =>
    if mark = 'e' ∨ mark = 'E' then
      let sign := (rest.take 1).filter fun c => c == '+' || c == '-'
      let digits := (rest.drop sign.length).takeWhile Char.isDigit
      if digits.isEmpty then (none, text)
      else (some (sign, digits), (rest.drop sign.length).dropWhile Char.isDigit)
    else
      (none, text)

/-- A fraction: the point and the digits after it, which may be none. -/
def takeFraction : List Char → Option (List Char) × List Char
  | '.' :: rest => (some (rest.takeWhile Char.isDigit), rest.dropWhile Char.isDigit)
  | text => (none, text)

/-- How messages spell the literal. -/
def spelling (n : Numeral) : List Char :=
  n.whole ++ (n.fraction.elim [] fun digits => '.' :: digits)
    ++ n.exponent.elim [] fun (sign, digits) => 'e' :: (sign ++ digits)

/-- The exponent as a number. -/
def power (n : Numeral) : Int :=
  match n.exponent with
  | none => 0
  | some (sign, digits) =>
    if sign = ['-'] then -(Decimal.ofDigits 10 digits : Int) else Decimal.ofDigits 10 digits

/-- The token of a literal. A point or an exponent make it a float; an integer has no needless zeros in
front, but zero itself may be written with any number of them. -/
def token (n : Numeral) : Except SyntaxError Token :=
  if n.fraction.isSome || n.exponent.isSome then
    .ok (.float (Decimal.float n.whole (n.fraction.getD []) n.power))
  else if n.whole.head? = some '0' ∧ n.whole.any (· != '0') then
    .error .leadingZeros
  else
    match intLiteral? (Decimal.ofDigits 10 n.whole) with
    | some token => .ok token
    | none => .error (.decimalTooLarge (String.ofList n.whole))

end Numeral

/-- A decimal literal whose whole part and fraction are given. No letter and no underscore may follow it. -/
def decimalLexeme (whole : List Char) (fraction : Option (List Char)) (text : List Char) :
    Except SyntaxError (Token × List Char) :=
  let (exponent, rest) := Numeral.takeExponent text
  let numeral : Numeral := ⟨whole, fraction, exponent⟩
  match rest.head?.filter Text.isNameStart with
  | some next => .error (.badDecimal (String.ofList numeral.spelling) next)
  | none => numeral.token.map (·, rest)

/-! ## Symbols -/

/-- The tokens written with two symbols. -/
def ofPair? : Char → Char → Option Token
  | '*', '*' => some .starStar
  | '/', '/' => some .slashSlash
  | '<', '<' => some .shiftLeft
  | '>', '>' => some .shiftRight
  | '<', '=' => some (.relation .le)
  | '>', '=' => some (.relation .ge)
  | '=', '=' => some (.relation .eq)
  | '!', '=' => some (.relation .ne)
  | _, _ => none

/-- The token that a single symbol stands for. -/
def ofSymbol : Char → Token
  | '+' => .plus
  | '-' => .minus
  | '*' => .star
  | '/' => .slash
  | '%' => .percent
  | '~' => .tilde
  | '&' => .ampersand
  | '|' => .pipe
  | '^' => .caret
  | '<' => .relation .lt
  | '>' => .relation .gt
  | ',' => .comma
  | '(' => .leftParen
  | ')' => .rightParen
  | c => .unknown c

/-- A symbol and what follows it: the token of two symbols if they make one. -/
def symbolLexeme (c : Char) (text : List Char) : Token × List Char :=
  match text with
  | [] => (ofSymbol c, [])
  | next :: rest =>
    match ofPair? c next with
    | some token => (token, rest)
    | none => (ofSymbol c, text)

/-! ## One lexeme -/

/-- The lexeme that starts with `c` and goes on in `text`, and what follows it. -/
def lexeme (c : Char) (text : List Char) : Except SyntaxError (Token × List Char) :=
  if c.isDigit then
    match c, text with
    | '0', 'x' :: rest => hexLexeme rest
    | '0', 'X' :: rest => hexLexeme rest
    | _, _ =>
      let (fraction, rest) := Numeral.takeFraction (text.dropWhile Char.isDigit)
      decimalLexeme (c :: text.takeWhile Char.isDigit) fraction rest
  else if c = '.' ∧ text.head?.any Char.isDigit then
    decimalLexeme [] (some (text.takeWhile Char.isDigit)) (text.dropWhile Char.isDigit)
  else if Text.isNameStart c then
    .ok (.word (String.ofList (c :: text.takeWhile Text.isNameChar)), text.dropWhile Text.isNameChar)
  else
    .ok (symbolLexeme c text)

/-! ## What follows a lexeme -/

theorem hexLexeme_suffix {text rest : List Char} {token : Token}
    (h : hexLexeme text = .ok (token, rest)) : rest <:+ text := by
  simp only [hexLexeme] at h
  split at h
  · cases h
  · split at h
    · cases h
      exact List.dropWhile_suffix _
    · cases h

theorem Numeral.takeExponent_suffix (text : List Char) : (takeExponent text).2 <:+ text := by
  unfold takeExponent
  split
  · exact List.suffix_refl _
  · split
    · dsimp only
      split
      · exact List.suffix_refl _
      · exact ((List.dropWhile_suffix _).trans (List.drop_suffix ..)).trans (List.suffix_cons ..)
    · exact List.suffix_refl _

theorem Numeral.takeFraction_suffix (text : List Char) : (takeFraction text).2 <:+ text := by
  unfold takeFraction
  split
  · exact (List.dropWhile_suffix _).trans (List.suffix_cons ..)
  · exact List.suffix_refl _

theorem decimalLexeme_suffix {whole : List Char} {fraction : Option (List Char)}
    {text rest : List Char} {token : Token}
    (h : decimalLexeme whole fraction text = .ok (token, rest)) : rest <:+ text := by
  simp only [decimalLexeme] at h
  split at h
  · cases h
  · generalize Numeral.token _ = outcome at h
    cases outcome with
    | error e => cases h
    | ok t =>
      cases h
      exact Numeral.takeExponent_suffix text

theorem symbolLexeme_suffix (c : Char) (text : List Char) : (symbolLexeme c text).2 <:+ text := by
  unfold symbolLexeme
  split
  · exact List.suffix_refl _
  · split
    · exact List.suffix_cons ..
    · exact List.suffix_refl _

/-- **Progress.** What follows a lexeme is a suffix of the text after its first character. -/
theorem lexeme_suffix {c : Char} {text rest : List Char} {token : Token}
    (h : lexeme c text = .ok (token, rest)) : rest <:+ text := by
  unfold lexeme at h
  split at h
  · split at h
    · exact (hexLexeme_suffix h).trans (List.suffix_cons ..)
    · exact (hexLexeme_suffix h).trans (List.suffix_cons ..)
    · exact ((decimalLexeme_suffix h).trans (Numeral.takeFraction_suffix _)).trans
        (List.dropWhile_suffix _)
  · split at h
    · exact (decimalLexeme_suffix h).trans (List.dropWhile_suffix _)
    · split at h
      · cases h
        exact List.dropWhile_suffix _
      · have hsuffix := symbolLexeme_suffix c text
        rw [Except.ok.inj h] at hsuffix
        exact hsuffix

/-! ## All lexemes -/

/-- The tokens of a text. -/
def lex : List Char → Except SyntaxError (List Token)
  | [] => .ok []
  | c :: text =>
    if isSpace c then
      lex text
    else
      match h : lexeme c text with
      | .error e => .error e
      | .ok (token, rest) =>
        have := (lexeme_suffix h).length_le
        (lex rest).map (token :: ·)
termination_by text => text.length

end Token

end Interpolate
