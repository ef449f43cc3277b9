import Interpolate.Value.Order

/-!
# Tokens

The smallest parts of an expression that mean something.

* **`Token`** — the kinds of tokens;
* **`Token.describe`** — how a token is shown in a message;
* **`SyntaxError`** — why a text is no expression, and its **`message`**.
-/

namespace Interpolate

/-- The smallest parts of an expression. -/
inductive Token where
  /-- an integer literal -/
  | int (n : Int64)
  /-- a float literal -/
  | float (x : Float)
  /-- a name or a keyword -/
  | word (name : String)
  /-- `+` -/
  | plus
  /-- `-` -/
  | minus
  /-- `*` -/
  | star
  /-- `**` -/
  | starStar
  /-- `/` -/
  | slash
  /-- `//` -/
  | slashSlash
  /-- `%` -/
  | percent
  /-- `~` -/
  | tilde
  /-- `&` -/
  | ampersand
  /-- `|` -/
  | pipe
  /-- `^` -/
  | caret
  /-- `<<` -/
  | shiftLeft
  /-- `>>` -/
  | shiftRight
  /-- a sign of comparison -/
  | relation (r : Relation)
  /-- `,` -/
  | comma
  /-- `(` -/
  | leftParen
  /-- `)` -/
  | rightParen
  /-- any other character -/
  | unknown (c : Char)
  deriving DecidableEq

namespace Token

/-- Messages show a float with an exponent below `0.0001` and from `10 ^ 16` on, and with `.0` where it is
whole. -/
def floatNotation : Decimal.Notation where
  positional place := decide (-3 ≤ place ∧ place ≤ 16)
  pointed _ := true

/-- How a token is shown in a message. -/
def describe : Token → String
  | .int n => "Int(" ++ toString n.toInt ++ ")"
  | .float x => "Float(" ++ floatNotation.write x ++ ")"
  | .word name => "Ident(\"" ++ name ++ "\")"
  | .plus => "Plus"
  | .minus => "Minus"
  | .star => "Star"
  | .starStar => "StarStar"
  | .slash => "Slash"
  | .slashSlash => "SlashSlash"
  | .percent => "Percent"
  | .tilde => "Tilde"
  | .ampersand => "Ampersand"
  | .pipe => "Pipe"
  | .caret => "Caret"
  | .shiftLeft => "ShiftLeft"
  | .shiftRight => "ShiftRight"
  | .relation .eq => "Eq"
  | .relation .ne => "Ne"
  | .relation .lt => "Lt"
  | .relation .le => "Le"
  | .relation .gt => "Gt"
  | .relation .ge => "Ge"
  | .comma => "Comma"
  | .leftParen => "LParen"
  | .rightParen => "RParen"
  | .unknown c => "Unknown(" ++ String.singleton c ++ ")"

end Token

/-! ## Why a text is no expression -/

/-- Why a text is no expression. -/
inductive SyntaxError where
  /-- `0x` without a digit -/
  | emptyHex
  /-- a hexadecimal literal above the greatest integer -/
  | hexTooLarge (digits : String)
  /-- a decimal literal that a letter follows -/
  | badDecimal (literal : String) (next : Char)
  /-- a decimal integer that starts with a zero -/
  | leadingZeros
  /-- a decimal integer above the greatest one -/
  | decimalTooLarge (digits : String)
  /-- a keyword in the place of an operand -/
  | keyword (name : String)
  /-- no parenthesis after the arguments of a function -/
  | unclosedArguments (name : String)
  /-- no parenthesis at the end of a group -/
  | unclosedGroup
  /-- the text ends where an operand should stand -/
  | unexpectedEnd
  /-- a character that begins no token -/
  | badCharacter (c : Char)
  /-- a token in a place where it cannot stand -/
  | unexpected (token : Token)
  /-- a parenthesis that closes nothing -/
  | unmatched
  /-- an expression nested beyond what is allowed -/
  | tooDeep
  /-- a complaint that a reader of another language describes itself -/
  | custom (description : String)
  deriving DecidableEq

/-- What a user reads. -/
def SyntaxError.message : SyntaxError → String
  | .emptyHex => "invalid hexadecimal literal"
  | .hexTooLarge digits => "hexadecimal literal too large: 0x" ++ digits
  | .badDecimal literal next => "invalid decimal literal: " ++ literal ++ String.singleton next
  | .leadingZeros => "leading zeros in decimal integer literals are not permitted"
  | .decimalTooLarge digits => "integer literal too large: " ++ digits
  | .keyword name => "unexpected keyword '" ++ name ++ "'"
  | .unclosedArguments name => "expected ')' after args to " ++ name
  | .unclosedGroup => "'(' was never closed"
  | .unexpectedEnd => "unexpected end of expression"
  | .badCharacter c => "invalid character '" ++ String.singleton c ++ "'"
  | .unexpected token => "unexpected token " ++ token.describe
  | .unmatched => "unmatched ')'"
  | .tooDeep => "expression is nested too deeply"
  | .custom description => description

end Interpolate
