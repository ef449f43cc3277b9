import Interpolate.Expr.Reader

/-!
# The grammar of expressions

Which lists of tokens spell which expression, said without a reader: thirteen **levels**, from `or`, which binds
least, to the operands, and one rule for each form that an expression can have.

* **`Level`** — the levels; **`Level.Joins`** and **`Level.Fronts`** list the operators that group to the left and
  those in front of an operand, with their levels;
* **`Derives`** — `Derives n ℓ ts e` says that the tokens `ts` spell `e` at the level `ℓ`, where no way through
  the derivation passes more than `n` **nested positions**: the operand of `not`, the operand of a sign, the
  right side of `**`, an argument, and the inside of parentheses;
* **`Derives.head`** — what an expression can start with;
* **`Extends`**, **`Stops`** — what can go on with an expression, and what ends it.
-/

namespace Interpolate

namespace Grammar

/-! ## Levels -/

/-- The levels of the grammar. -/
inductive Level where
  /-- `or` -/
  | or
  /-- `and` -/
  | and
  /-- `not` -/
  | not
  /-- chains of comparisons -/
  | comparison
  /-- `|` -/
  | bitOr
  /-- `^` -/
  | bitXor
  /-- `&` -/
  | bitAnd
  /-- `<<` and `>>` -/
  | shift
  /-- `+` and `-` between operands -/
  | sum
  /-- `*`, `/`, `//` and `%` -/
  | product
  /-- `-`, `+` and `~` in front of an operand -/
  | sign
  /-- `**` -/
  | power
  /-- literals, names, calls and parentheses -/
  | operand
  deriving DecidableEq, Repr

namespace Level

/-- The place of a level: the higher, the more it binds. -/
def rank : Level → Nat
  | .or => 0
  | .and => 1
  | .not => 2
  | .comparison => 3
  | .bitOr => 4
  | .bitXor => 5
  | .bitAnd => 6
  | .shift => 7
  | .sum => 8
  | .product => 9
  | .sign => 10
  | .power => 11
  | .operand => 12

/-- The level that binds next. -/
def next : Level → Level
  | .or => .and
  | .and => .not
  | .not => .comparison
  | .comparison => .bitOr
  | .bitOr => .bitXor
  | .bitXor => .bitAnd
  | .bitAnd => .shift
  | .shift => .sum
  | .sum => .product
  | .product => .sign
  | .sign => .power
  | .power => .operand
  | .operand => .operand

theorem rank_le_next (ℓ : Level) : ℓ.rank ≤ ℓ.next.rank := by
  cases ℓ <;> decide

theorem rank_le_operand (ℓ : Level) : ℓ.rank ≤ operand.rank := by
  cases ℓ <;> decide

/-- Each level has a place of its own. -/
theorem rank_injective {ℓ ℓ' : Level} (h : ℓ.rank = ℓ'.rank) : ℓ = ℓ' := by
  cases ℓ <;> cases ℓ' <;> first
    | rfl
    | cases h

/-- The level that binds next comes right after. -/
theorem rank_next {ℓ : Level} (h : ℓ ≠ .operand) : ℓ.next.rank = ℓ.rank + 1 := by
  cases ℓ <;> first
    | rfl
    | exact absurd rfl h

/-- The operators that group to the left: their level, their token and the node they make. -/
inductive Joins : Level → Token → (Expr → Expr → Expr) → Prop where
  /-- `a or b` -/
  | or : Joins .or (.word "or") .or
  /-- `a and b` -/
  | and : Joins .and (.word "and") .and
  /-- `a | b` -/
  | bitOr : Joins .bitOr .pipe (.binary .bitOr)
  /-- `a ^ b` -/
  | bitXor : Joins .bitXor .caret (.binary .bitXor)
  /-- `a & b` -/
  | bitAnd : Joins .bitAnd .ampersand (.binary .bitAnd)
  /-- `a << b` -/
  | shiftLeft : Joins .shift .shiftLeft (.binary .shiftLeft)
  /-- `a >> b` -/
  | shiftRight : Joins .shift .shiftRight (.binary .shiftRight)
  /-- `a + b` -/
  | add : Joins .sum .plus (.binary .add)
  /-- `a - b` -/
  | sub : Joins .sum .minus (.binary .sub)
  /-- `a * b` -/
  | mul : Joins .product .star (.binary .mul)
  /-- `a / b` -/
  | div : Joins .product .slash (.binary .div)
  /-- `a // b` -/
  | floorDiv : Joins .product .slashSlash (.binary .floorDiv)
  /-- `a % b` -/
  | rem : Joins .product .percent (.binary .rem)

theorem Joins.height {ℓ : Level} {token : Token} {make : Expr → Expr → Expr} (h : ℓ.Joins token make)
    (l r : Expr) : (make l r).height = max l.height r.height + 1 := by
  cases h <;> simp only [Expr.height]

theorem Joins.rank_lt {ℓ : Level} {token : Token} {make : Expr → Expr → Expr} (h : ℓ.Joins token make) :
    ℓ.rank < ℓ.next.rank := by
  cases h <;> decide

/-- The operators in front of an operand: their level, their token and the node they make. -/
inductive Fronts : Level → Token → UnaryOp → Prop where
  /-- `not a` -/
  | not : Fronts .not (.word "not") .not
  /-- `-a` -/
  | neg : Fronts .sign .minus .neg
  /-- `+a` -/
  | pos : Fronts .sign .plus .pos
  /-- `~a` -/
  | bitNot : Fronts .sign .tilde .bitNot

/-- An operator in front of an operand belongs to one level. -/
theorem Fronts.unique {ℓ ℓ' : Level} {token : Token} {op op' : UnaryOp} (h : ℓ.Fronts token op)
    (h' : ℓ'.Fronts token op') : ℓ = ℓ' := by
  cases h <;> cases h' <;> rfl

theorem Fronts.rank_lt {ℓ : Level} {token : Token} {op : UnaryOp} (h : ℓ.Fronts token op) :
    ℓ.rank < ℓ.next.rank := by
  cases h <;> decide

/-- No level has operators of both kinds. -/
theorem Joins.not_fronts {ℓ : Level} {token token' : Token} {make : Expr → Expr → Expr} {op : UnaryOp}
    (h : ℓ.Joins token make) : ¬ ℓ.Fronts token' op := by
  intro h'
  cases h <;> cases h'

end Level

/-! ## Derivations -/

/-- Tokens and the expression that they spell, as a part of something longer. -/
structure Phrase where
  /-- the tokens -/
  tokens : List Token
  /-- the expression -/
  expr : Expr

/-- The links of a chain of comparisons in tokens. -/
def spellLinks : List (Relation × Phrase) → List Token
  | [] => []
  | (r, operand) :: links => .relation r :: (operand.tokens ++ spellLinks links)

/-- Arguments in tokens, with commas between them. -/
def spellArguments : List Phrase → List Token
  | [] => []
  | [argument] => argument.tokens
  | argument :: next :: more => argument.tokens ++ .comma :: spellArguments (next :: more)

/-- The tokens spell the expression at a level, with at most `n` nested positions on any way through the
derivation. -/
inductive Derives : (n : Nat) → Level → List Token → Expr → Prop where
  /-- an expression of a level is also one of the level before it -/
  | lower {n : Nat} {ℓ : Level} {ts : List Token} {e : Expr} (loose : ℓ ≠ .operand)
      (inner : Derives n ℓ.next ts e) : Derives n ℓ ts e
  /-- `a + b` and its like: the left side is of the same level, the right side of the next -/
  | join {n : Nat} {ℓ : Level} {token : Token} {make : Expr → Expr → Expr} {ts us : List Token} {l r : Expr}
      (joins : ℓ.Joins token make) (left : Derives n ℓ ts l) (right : Derives n ℓ.next us r) :
      Derives n ℓ (ts ++ token :: us) (make l r)
  /-- `not a`, `-a` and its like: the operand is of the same level -/
  | front {n : Nat} {ℓ : Level} {token : Token} {op : UnaryOp} {ts : List Token} {e : Expr}
      (fronts : ℓ.Fronts token op) (inner : Derives n ℓ ts e) : Derives (n + 1) ℓ (token :: ts) (.unary op e)
  /-- `a < b <= c`: one link or more, all in one node -/
  | comparison {n : Nat} {ts : List Token} {first : Expr} {links : List (Relation × Phrase)}
      (nonempty : links ≠ []) (left : Derives n .bitOr ts first)
      (right : ∀ link ∈ links, Derives n .bitOr link.2.tokens link.2.expr) :
      Derives n .comparison (ts ++ spellLinks links)
        (.compare first (links.map fun link => (link.1, link.2.expr)))
  /-- `a ** b`: an operand on the left, a signed expression on the right -/
  | power {n : Nat} {ts us : List Token} {base exponent : Expr} (left : Derives (n + 1) .operand ts base)
      (right : Derives n .sign us exponent) :
      Derives (n + 1) .power (ts ++ .starStar :: us) (.binary .pow base exponent)
  /-- an integer -/
  | int {n : Nat} (k : Int64) : Derives n .operand [.int k] (.literal (.int k))
  /-- a float -/
  | float {n : Nat} (x : Float) : Derives n .operand [.float x] (.literal (.float (.ofFloat x)))
  /-- `True` -/
  | truth {n : Nat} : Derives n .operand [.word "True"] (.literal (.bool true))
  /-- `False` -/
  | falsehood {n : Nat} : Derives n .operand [.word "False"] (.literal (.bool false))
  /-- a name -/
  | name {n : Nat} {x : String} (free : x ∉ Reader.keywords) : Derives n .operand [.word x] (.name x)
  /-- `(a)`, which leaves no node -/
  | group {n : Nat} {ts : List Token} {e : Expr} (inner : Derives n .or ts e) :
      Derives (n + 1) .operand (.leftParen :: (ts ++ [.rightParen])) e
  /-- `f()` -/
  | constantCall {n : Nat} {f : String} (free : f ∉ Reader.keywords) :
      Derives n .operand [.word f, .leftParen, .rightParen] (.call f [])
  /-- `f(a, b)` and `f(a, b,)` -/
  | call {n : Nat} {f : String} {arguments : List Phrase} {trailing : List Token}
      (free : f ∉ Reader.keywords) (nonempty : arguments ≠ [])
      (inner : ∀ argument ∈ arguments, Derives n .or argument.tokens argument.expr)
      (comma : trailing = [] ∨ trailing = [.comma]) :
      Derives (n + 1) .operand
        (.word f :: .leftParen :: (spellArguments arguments ++ trailing ++ [.rightParen]))
        (.call f (arguments.map Phrase.expr))

/-- An expression of a level is also one of every level before it. -/
theorem Derives.of_le {n : Nat} {ℓ ℓ' : Level} {ts : List Token} {e : Expr} (h : Derives n ℓ' ts e)
    (hle : ℓ.rank ≤ ℓ'.rank) : Derives n ℓ ts e := by
  rcases Nat.lt_or_eq_of_le hle with hlt | heq
  · have hloose : ℓ ≠ .operand := by
      rintro rfl
      exact absurd hlt (Nat.not_lt.mpr ℓ'.rank_le_operand)
    have hnext := Level.rank_next hloose
    exact .lower hloose (h.of_le (by omega))
  · exact Level.rank_injective heq ▸ h
termination_by ℓ'.rank - ℓ.rank

/-- An operand is an expression of every level. -/
theorem Derives.of_operand {n : Nat} {ts : List Token} {e : Expr} (h : Derives n .operand ts e) (ℓ : Level) :
    Derives n ℓ ts e :=
  h.of_le ℓ.rank_le_operand

/-- A derivation within a number of nested positions is one within more of them. -/
theorem Derives.mono {n m : Nat} {ℓ : Level} {ts : List Token} {e : Expr} (h : Derives n ℓ ts e) (hle : n ≤ m) :
    Derives m ℓ ts e := by
  induction h generalizing m with
  | lower loose inner ih => exact .lower loose (ih hle)
  | join joins left right ihleft ihright => exact .join joins (ihleft hle) (ihright hle)
  | front fronts inner ih =>
    obtain ⟨m, rfl⟩ := Nat.exists_eq_add_of_lt hle
    exact .front fronts (ih (Nat.le_add_right ..))
  | comparison nonempty left right ihleft ihright =>
    exact .comparison nonempty (ihleft hle) fun link hlink => ihright link hlink hle
  | power left right ihleft ihright =>
    obtain ⟨m, rfl⟩ := Nat.exists_eq_add_of_lt hle
    exact .power (ihleft hle) (ihright (Nat.le_add_right ..))
  | int k => exact .int k
  | float x => exact .float x
  | truth => exact .truth
  | falsehood => exact .falsehood
  | name free => exact .name free
  | group inner ih =>
    obtain ⟨m, rfl⟩ := Nat.exists_eq_add_of_lt hle
    exact .group (ih (Nat.le_add_right ..))
  | constantCall free => exact .constantCall free
  | call free nonempty inner comma ih =>
    obtain ⟨m, rfl⟩ := Nat.exists_eq_add_of_lt hle
    exact .call free nonempty (fun argument hargument => ih argument hargument (Nat.le_add_right ..)) comma

/-! ## The first token -/

/-- What holds of a token that an expression of a level starts with. -/
structure Starts (ℓ : Level) (token : Token) : Prop where
  /-- it closes no parenthesis -/
  opening : token ≠ .rightParen
  /-- it is an operator in front of an operand only at a level up to that of the operator -/
  front : ∀ (ℓ' : Level) (op : UnaryOp), ℓ'.Fronts token op → ℓ.rank ≤ ℓ'.rank

/-- A level that binds less starts with the same tokens. -/
theorem Starts.mono {ℓ ℓ' : Level} {token : Token} (h : Starts ℓ' token) (hle : ℓ.rank ≤ ℓ'.rank) :
    Starts ℓ token :=
  ⟨h.opening, fun ℓ'' op hfronts => Nat.le_trans hle (h.front ℓ'' op hfronts)⟩

/-- Words other than `not` start expressions of every level. -/
theorem starts_word {ℓ : Level} {x : String} (h : x ≠ "not") : Starts ℓ (.word x) := by
  refine ⟨by simp, fun ℓ' op hfronts => ?_⟩
  cases hfronts
  exact absurd rfl h

theorem starts_name {ℓ : Level} {x : String} (free : x ∉ Reader.keywords) : Starts ℓ (.word x) := by
  refine starts_word ?_
  rintro rfl
  exact free (by decide)

/-- Every expression starts with a token that its level allows. -/
theorem Derives.head {n : Nat} {ℓ : Level} {ts : List Token} {e : Expr} (h : Derives n ℓ ts e) :
    ∃ token us, ts = token :: us ∧ Starts ℓ token := by
  induction h with
  | @lower n ℓ ts e loose inner ih =>
    obtain ⟨token, us, rfl, hstarts⟩ := ih
    exact ⟨token, us, rfl, hstarts.mono ℓ.rank_le_next⟩
  | join joins left right ihleft ihright =>
    obtain ⟨token, us, rfl, hstarts⟩ := ihleft
    exact ⟨token, _, rfl, hstarts⟩
  | @front n ℓ token op ts e fronts =>
    refine ⟨_, _, rfl, ?_, fun ℓ' op' fronts' => ?_⟩
    · cases fronts <;> simp
    · exact Nat.le_of_eq (congrArg Level.rank (fronts.unique fronts'))
  | comparison nonempty left right ihleft ihright =>
    obtain ⟨token, us, rfl, hstarts⟩ := ihleft
    exact ⟨token, _, rfl, hstarts.mono (by decide)⟩
  | power left right ihleft ihright =>
    obtain ⟨token, us, rfl, hstarts⟩ := ihleft
    exact ⟨token, _, rfl, hstarts.mono (by decide)⟩
  | int => exact ⟨_, _, rfl, by simp, fun ℓ' op hfronts => by cases hfronts⟩
  | float => exact ⟨_, _, rfl, by simp, fun ℓ' op hfronts => by cases hfronts⟩
  | truth => exact ⟨_, _, rfl, starts_word (by decide)⟩
  | falsehood => exact ⟨_, _, rfl, starts_word (by decide)⟩
  | name free => exact ⟨_, _, rfl, starts_name free⟩
  | group => exact ⟨_, _, rfl, by simp, fun ℓ' op hfronts => by cases hfronts⟩
  | constantCall free => exact ⟨_, _, rfl, starts_name free⟩
  | call free => exact ⟨_, _, rfl, starts_name free⟩

/-! ## What follows an expression -/

/-- The token goes on with an expression of the level. -/
inductive Extends : Token → Level → Prop where
  /-- an operator, with a right side -/
  | join {ℓ : Level} {token : Token} {make : Expr → Expr → Expr} (joins : ℓ.Joins token make) :
      Extends token ℓ
  /-- a sign of comparison, with a link -/
  | relation (r : Relation) : Extends (.relation r) .comparison
  /-- `**`, with an exponent -/
  | starStar : Extends .starStar .power
  /-- a parenthesis, which turns a name into a call -/
  | leftParen : Extends .leftParen .operand

/-- An operator belongs to one level. -/
theorem Level.Joins.unique {ℓ ℓ' : Level} {token : Token} {make make' : Expr → Expr → Expr}
    (h : ℓ.Joins token make) (h' : ℓ'.Joins token make') : ℓ = ℓ' := by
  generalize htoken : token = token' at h'
  cases h <;> cases h' <;> first
    | rfl
    | simp at htoken

/-- A token goes on with expressions of one level only. -/
theorem Extends.unique {token : Token} {ℓ ℓ' : Level} (h : Extends token ℓ) (h' : Extends token ℓ') : ℓ = ℓ' := by
  -- the four kinds of tokens that go on with an expression have none in common
  cases h with
  | join joins =>
    cases h' with
    | join joins' => exact joins.unique joins'
    | relation => cases joins
    | starStar => cases joins
    | leftParen => cases joins
  | relation =>
    cases h' with
    | join joins => cases joins
    | relation => rfl
  | starStar =>
    cases h' with
    | join joins => cases joins
    | starStar => rfl
  | leftParen =>
    cases h' with
    | join joins => cases joins
    | leftParen => rfl

/-- An expression of the level ends before these tokens: the first of them could go on with an expression of a
level before it only. -/
def Stops (ℓ : Level) (rest : List Token) : Prop :=
  ∀ token ∈ rest.head?, ∀ ℓ', Extends token ℓ' → ℓ'.rank < ℓ.rank

theorem stops_nil (ℓ : Level) : Stops ℓ [] := by
  intro token h
  cases h

/-- What ends an expression of a level ends one of every level that binds more. -/
theorem Stops.mono {ℓ ℓ' : Level} {rest : List Token} (h : Stops ℓ rest) (hle : ℓ.rank ≤ ℓ'.rank) :
    Stops ℓ' rest :=
  fun token htoken ℓ'' hextends => Nat.lt_of_lt_of_le (h token htoken ℓ'' hextends) hle

/-- What goes on with an expression of a level ends one of a level that binds more. -/
theorem Extends.stops {token : Token} {ℓ ℓ' : Level} (h : Extends token ℓ) (hlt : ℓ.rank < ℓ'.rank)
    (rest : List Token) : Stops ℓ' (token :: rest) := by
  intro token' htoken ℓ'' hextends
  obtain rfl := Option.some.inj htoken
  rw [hextends.unique h]
  exact hlt

/-- No token goes on with a signed expression itself, so that what ends a power ends a signed expression. -/
theorem Stops.sign_of_power {rest : List Token} (h : Stops .power rest) : Stops .sign rest := by
  intro token htoken ℓ hextends
  have hlt := h token htoken ℓ hextends
  cases hextends with
  | join joins => cases joins <;> decide
  | relation => decide
  | starStar => exact absurd hlt (Nat.lt_irrefl _)
  | leftParen => exact absurd hlt (by decide)

/-- A comma or a closing parenthesis ends every expression. -/
theorem stops_of_not_extends {token : Token} (h : token = .comma ∨ token = .rightParen) (ℓ : Level)
    (rest : List Token) : Stops ℓ (token :: rest) := by
  intro token' htoken ℓ' hextends
  obtain rfl := Option.some.inj htoken
  rcases h with rfl | rfl
  · cases hextends with
    | join joins => cases joins
  · cases hextends with
    | join joins => cases joins

end Grammar

end Interpolate
