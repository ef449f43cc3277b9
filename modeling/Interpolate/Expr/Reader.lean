import Interpolate.Expr
import Interpolate.Expr.Lexeme

/-!
# Readers: from tokens to expressions

A **reader** takes an expression off the front of a list of tokens. The language has a ladder of levels, from
`or`, which binds least, to the operands; each level is a reader made from the one above it.

* **`Reader`** — a function on tokens that leaves fewer of them;
* **`chain`** — operators of one level, grouped to the left;
* **`ladder`** — all levels, given readers for the **entries**: the places where nesting starts anew;
* **`within`** — the ladder with a budget of nested entries;
* **`Expr.read`** — the expression that a whole text spells.

Two limits keep expressions shallow: entries are nested at most `nestingMax` deep, and a tree is at most
`heightMax` high.
-/

namespace Interpolate

/-! ## Readers -/

/-- A function that takes an expression off the front of a list of tokens. -/
structure Reader where
  /-- the expression and the tokens after it -/
  run : (tokens : List Token) → Except SyntaxError (Expr × List Token)
  /-- an expression takes at least one token -/
  progress : ∀ {tokens e rest}, run tokens = .ok (e, rest) → rest.length < tokens.length

namespace Reader

/-- The highest tree that a reader builds. -/
def heightMax : Nat := 1000

/-- The deepest nesting of entries. -/
def nestingMax : Nat := 100

/-- A tree, unless it is too high. -/
def build (e : Expr) : Except SyntaxError Expr :=
  if e.height ≤ heightMax then .ok e else .error .tooDeep

/-- A reader that refuses everything. -/
def refuse (error : SyntaxError) : Reader where
  run _ := .error error
  progress h := by cases h

/-! ## Operators grouped to the left -/

/-- Goes on after `left`: as long as an operator of this level follows, it and its right operand are added. -/
def chainFrom (operator : Token → Option (Expr → Expr → Expr)) (operand : Reader) (left : Expr) :
    List Token → Except SyntaxError (Expr × List Token)
  | [] => .ok (left, [])
  | token :: tokens =>
    match operator token with
    | none => .ok (left, token :: tokens)
    | some join =>
      match h : operand.run tokens with
      | .error error => .error error
      | .ok (right, rest) =>
        have := operand.progress h
        match build (join left right) with
        | .error error => .error error
        | .ok joined => chainFrom operator operand joined rest
termination_by tokens => tokens.length

theorem chainFrom_length {operator : Token → Option (Expr → Expr → Expr)} {operand : Reader}
    {left e : Expr} {tokens rest : List Token}
    (h : chainFrom operator operand left tokens = .ok (e, rest)) : rest.length ≤ tokens.length := by
  fun_induction chainFrom operator operand left tokens with
  | case1 => cases h; exact Nat.le_refl _
  | case2 => cases h; exact Nat.le_refl _
  | case3 => cases h
  | case4 => cases h
  | case5 _ _ _ _ _ _ _ _ hlt _ _ ih =>
    exact Nat.le_trans (ih h) (Nat.le_trans (Nat.le_of_lt hlt) (Nat.le_succ _))

/-- A level of operators that group to the left, over the level of their operands. -/
def chain (operator : Token → Option (Expr → Expr → Expr)) (operand : Reader) : Reader where
  run tokens := do
    let (first, rest) ← operand.run tokens
    chainFrom operator operand first rest
  progress {tokens e rest} h := by
    cases hfirst : operand.run tokens with
    | error error => rw [hfirst] at h; cases h
    | ok first =>
      rw [hfirst] at h
      exact Nat.lt_of_le_of_lt (chainFrom_length h) (operand.progress hfirst)

/-! ## Chains of comparisons -/

/-- The links of a chain of comparisons. -/
def links (operand : Reader) :
    List Token → Except SyntaxError (List (Relation × Expr) × List Token)
  | .relation r :: tokens =>
    match h : operand.run tokens with
    | .error error => .error error
    | .ok (e, rest) =>
      have := operand.progress h
      match links operand rest with
      | .error error => .error error
      | .ok (more, rest) => .ok ((r, e) :: more, rest)
  | tokens => .ok ([], tokens)
termination_by tokens => tokens.length

theorem links_length {operand : Reader} {tokens rest : List Token} {ls : List (Relation × Expr)}
    (h : links operand tokens = .ok (ls, rest)) : rest.length ≤ tokens.length := by
  fun_induction links operand tokens generalizing ls rest with
  | case1 => cases h
  | case2 => cases h
  | case3 _ _ _ _ _ hlt _ _ hmore ih =>
    cases h
    exact Nat.le_trans (ih hmore) (Nat.le_trans (Nat.le_of_lt hlt) (Nat.le_succ _))
  | case4 => cases h; exact Nat.le_refl _

/-- A chain of comparisons, or a single operand. -/
def comparison (operand : Reader) : Reader where
  run tokens := do
    let (first, rest) ← operand.run tokens
    let (ls, rest) ← links operand rest
    if ls.isEmpty then
      return (first, rest)
    else
      return (← build (.compare first ls), rest)
  progress {tokens e rest} h := by
    cases hfirst : operand.run tokens with
    | error error => rw [hfirst] at h; cases h
    | ok first =>
      rw [hfirst] at h
      have hlt := operand.progress hfirst
      cases hlinks : links operand first.2 with
      | error error => simp [bind, Except.bind, hlinks] at h
      | ok found =>
        have hle := links_length hlinks
        simp only [bind, Except.bind, hlinks] at h
        split at h
        · cases h; exact Nat.lt_of_le_of_lt hle hlt
        · generalize build _ = built at h
          cases built with
          | error error => cases h
          | ok b => cases h; exact Nat.lt_of_le_of_lt hle hlt

/-! ## Arguments of a function -/

/-- The arguments of a call, after its opening parenthesis and before the closing one: none, or expressions
with commas between them and perhaps one comma after the last. -/
def arguments (operand : Reader) (tokens : List Token) :
    Except SyntaxError (List Expr × List Token) :=
  if tokens.head? = some .rightParen then .ok ([], tokens)
  else
    match h : operand.run tokens with
    | .error error => .error error
    | .ok (e, .comma :: rest) =>
      have := operand.progress h
      match arguments operand rest with
      | .error error => .error error
      | .ok (more, rest) => .ok (e :: more, rest)
    | .ok (e, rest) => .ok ([e], rest)
termination_by tokens.length
decreasing_by simp at this; omega

theorem arguments_length {operand : Reader} {tokens rest : List Token} {es : List Expr}
    (h : arguments operand tokens = .ok (es, rest)) : rest.length ≤ tokens.length := by
  fun_induction arguments operand tokens generalizing es rest with
  | case1 => cases h; exact Nat.le_refl _
  | case2 => cases h
  | case3 => cases h
  | case4 _ _ _ _ _ hlt _ _ hmore ih =>
    cases h
    have := ih hmore
    simp only [List.length_cons] at hlt
    omega
  | case5 _ _ _ _ _ hrun => cases h; exact Nat.le_of_lt (operand.progress hrun)

/-! ## Operands -/

/-- Names with a meaning of their own. -/
def keywords : List String := ["and", "or", "not", "True", "False"]

/-- A name, or the call of a function if a parenthesis follows. -/
def named (argument : Reader) (name : String) :
    List Token → Except SyntaxError (Expr × List Token)
  | .leftParen :: tokens => do
    let (es, rest) ← arguments argument tokens
    match rest with
    | .rightParen :: rest => return (← build (.call name es), rest)
    | _ => .error (.unclosedArguments name)
  | tokens => .ok (.name name, tokens)

theorem named_length {argument : Reader} {name : String} {tokens rest : List Token} {e : Expr}
    (h : named argument name tokens = .ok (e, rest)) : rest.length ≤ tokens.length := by
  unfold named at h
  split at h
  · next inner =>
    cases harguments : arguments argument inner with
    | error error => rw [harguments] at h; cases h
    | ok found =>
      have hle := arguments_length harguments
      simp only [harguments, bind, Except.bind] at h
      split at h
      · next hrest =>
        rw [hrest] at hle
        generalize build _ = built at h
        cases built with
        | error error => cases h
        | ok b =>
          cases h
          simp only [List.length_cons] at hle ⊢
          omega
      · cases h
  · cases h
    exact Nat.le_refl _

/-- An expression in parentheses, after the opening one. -/
def group (whole : Reader) (tokens : List Token) : Except SyntaxError (Expr × List Token) := do
  let (e, rest) ← whole.run tokens
  match rest with
  | .rightParen :: rest => return (e, rest)
  | _ => .error .unclosedGroup

theorem group_length {whole : Reader} {tokens rest : List Token} {e : Expr}
    (h : group whole tokens = .ok (e, rest)) : rest.length ≤ tokens.length := by
  unfold group at h
  cases hinner : whole.run tokens with
  | error error => rw [hinner] at h; cases h
  | ok found =>
    have hlt := whole.progress hinner
    simp only [hinner, bind, Except.bind] at h
    split at h
    · next hrest =>
      cases h
      rw [hrest, List.length_cons] at hlt
      omega
    · cases h

/-- The value of a literal. -/
def literal? : Token → Option Value
  | .int n => some (.int n)
  | .float x => some (.float (.ofFloat x))
  | _ => none

/-- The complaint about a token that stands where it cannot. -/
def complaint : Token → SyntaxError
  | .unknown c => .badCharacter c
  | token => .unexpected token

/-- The operand that a word starts: a truth value, a name or a call. -/
def wordOperand (whole : Reader) (name : String) (tokens : List Token) :
    Except SyntaxError (Expr × List Token) :=
  if name = "True" then .ok (.literal (.bool true), tokens)
  else if name = "False" then .ok (.literal (.bool false), tokens)
  else if keywords.contains name then .error (.keyword name)
  else named whole name tokens

theorem wordOperand_length {whole : Reader} {name : String} {tokens rest : List Token} {e : Expr}
    (h : wordOperand whole name tokens = .ok (e, rest)) : rest.length ≤ tokens.length := by
  unfold wordOperand at h
  split at h
  · cases h; exact Nat.le_refl _
  · split at h
    · cases h; exact Nat.le_refl _
    · split at h
      · cases h
      · exact named_length h

/-- The operand that a token starts: a literal, a name, a call or an expression in parentheses. -/
def operand (whole : Reader) (token : Token) (tokens : List Token) :
    Except SyntaxError (Expr × List Token) :=
  match token with
  | .word name => wordOperand whole name tokens
  | .leftParen => group whole tokens
  | token =>
    match literal? token with
    | some v => .ok (.literal v, tokens)
    | none => .error (complaint token)

theorem operand_length {whole : Reader} {token : Token} {tokens rest : List Token} {e : Expr}
    (h : operand whole token tokens = .ok (e, rest)) : rest.length ≤ tokens.length := by
  unfold operand at h
  split at h
  · exact wordOperand_length h
  · exact group_length h
  · split at h
    · cases h; exact Nat.le_refl _
    · cases h

/-- An operand. -/
def primary (whole : Reader) : Reader where
  run
    | [] => .error .unexpectedEnd
    | token :: tokens => operand whole token tokens
  progress {tokens e rest} h := by
    cases tokens with
    | nil => cases h
    | cons token tokens => exact Nat.lt_succ_of_le (operand_length h)

/-! ## The ladder -/

/-- The places where an expression is nested in another. -/
inductive Entry where
  /-- a whole expression: in parentheses or as an argument -/
  | whole
  /-- the operand of `not` -/
  | negated
  /-- the operand of a sign, or the right side of `**` -/
  | signed

/-- `**`, which groups to the right: its left side is an operand, its right side a signed one. -/
def power (inner : Entry → Reader) : Reader where
  run tokens := do
    let (base, rest) ← (primary (inner .whole)).run tokens
    match rest with
    | .starStar :: rest =>
      let (exponent, rest) ← (inner .signed).run rest
      return (← build (.binary .pow base exponent), rest)
    | _ => return (base, rest)
  progress {tokens e rest} h := by
    cases hbase : (primary (inner .whole)).run tokens with
    | error error => rw [hbase] at h; cases h
    | ok found =>
      have hlt := (primary (inner .whole)).progress hbase
      simp only [hbase, bind, Except.bind] at h
      split at h
      · next after hrest =>
        rw [hrest] at hlt
        cases hexponent : (inner .signed).run after with
        | error error => rw [hexponent] at h; cases h
        | ok right =>
          have hlt' := (inner .signed).progress hexponent
          simp only [hexponent] at h
          generalize build _ = built at h
          cases built with
          | error error => cases h
          | ok b =>
            cases h
            simp only [List.length_cons] at hlt
            omega
      · cases h
        exact hlt

/-- An operator in front of an operand, which is nested as `entry`, where `operator` finds one; otherwise what
`plain` reads. -/
def prefixed (operator : Token → Option UnaryOp) (inner : Entry → Reader) (entry : Entry)
    (plain : Reader) : Reader where
  run tokens :=
    match tokens.head?.bind operator with
    | some op => do
      let (e, rest) ← (inner entry).run tokens.tail
      return (← build (.unary op e), rest)
    | none => plain.run tokens
  progress {tokens e rest} h := by
    split at h
    · cases hinner : (inner entry).run tokens.tail with
      | error error => rw [hinner] at h; cases h
      | ok found =>
        have hlt := (inner entry).progress hinner
        simp only [hinner, bind, Except.bind] at h
        generalize build _ = built at h
        cases built with
        | error error => cases h
        | ok b =>
          cases h
          simp only [List.length_tail] at hlt
          omega
    · exact plain.progress h

/-- The signs in front of an operand. -/
def sign? : Token → Option UnaryOp
  | .minus => some .neg
  | .plus => some .pos
  | .tilde => some .bitNot
  | _ => none

/-- The word `not`. -/
def negation? : Token → Option UnaryOp
  | .word "not" => some .not
  | _ => none

/-- The operators between products' operands. -/
def productOp? : Token → Option BinaryOp
  | .star => some .mul
  | .slash => some .div
  | .slashSlash => some .floorDiv
  | .percent => some .rem
  | _ => none

/-- The operators between sums' operands. -/
def sumOp? : Token → Option BinaryOp
  | .plus => some .add
  | .minus => some .sub
  | _ => none

/-- The shifts. -/
def shiftOp? : Token → Option BinaryOp
  | .shiftLeft => some .shiftLeft
  | .shiftRight => some .shiftRight
  | _ => none

/-- The operator `op`, written as one token. -/
def only (token : Token) (op : BinaryOp) (found : Token) : Option BinaryOp :=
  if found = token then some op else none

/-- A level of binary operators. -/
def level (operator : Token → Option BinaryOp) (operand : Reader) : Reader :=
  chain (fun token => (operator token).map Expr.binary) operand

/-- A level with one connective, written as a word. -/
def connective (name : String) (join : Expr → Expr → Expr) (operand : Reader) : Reader :=
  chain (fun token => if token = .word name then some join else none) operand

/-- Operands with their signs. -/
def signed (inner : Entry → Reader) : Reader :=
  prefixed sign? inner .signed (power inner)

/-- Everything that binds more than a comparison. -/
def bits (inner : Entry → Reader) : Reader :=
  level (only .pipe .bitOr) <| level (only .caret .bitXor) <| level (only .ampersand .bitAnd) <|
    level shiftOp? <| level sumOp? <| level productOp? <| signed inner

/-- A comparison, or the negation of one. -/
def negated (inner : Entry → Reader) : Reader :=
  prefixed negation? inner .negated (comparison (bits inner))

/-- A whole expression. -/
def whole (inner : Entry → Reader) : Reader :=
  connective "or" .or (connective "and" .and (negated inner))

/-- The ladder of levels from an entry on, with `inner` for the entries nested in it. -/
def ladder (inner : Entry → Reader) : Entry → Reader
  | .whole => whole inner
  | .negated => negated inner
  | .signed => signed inner

/-- The ladder with a budget of `depth` nested entries. -/
def within : (depth : Nat) → Entry → Reader
  | 0 => ladder fun _ => refuse .tooDeep
  | depth + 1 => ladder (within depth)

end Reader

/-! ## Whole texts -/

/-- What is left to say once an expression is read: nothing if no token follows it. -/
def Reader.finish (e : Expr) : (rest : List Token) → Except SyntaxError Expr
  | [] => .ok e
  | .rightParen :: _ => .error .unmatched
  | token :: _ => .error (Reader.complaint token)

/-- The expression that a list of tokens spells. -/
def Expr.ofTokens (tokens : List Token) : Except SyntaxError Expr := do
  let (e, rest) ← (Reader.within Reader.nestingMax .whole).run tokens
  Reader.finish e rest

/-- The expression that a text spells. -/
def Expr.read (text : List Char) : Except SyntaxError Expr := do
  Expr.ofTokens (← Token.lex text)

end Interpolate
