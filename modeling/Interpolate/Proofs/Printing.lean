import Interpolate.Proofs.Nodes
import Interpolate.Proofs.Reading
import Interpolate.Proofs.Spelling

/-!
# Printing expressions

A tree is printed with a blank between neighbouring tokens, and with parentheses around an operand that binds less than
its place asks for, nowhere else. What is printed is read back as the same tree, as far as the two limits of the reader
go: a printed tree has the height of the tree, and the nesting that can be counted on the tree.

* **`Expr.level`** — the level of the grammar that a tree belongs to, by its outermost operator;
* **`Expr.tokens`**, **`Expr.print`** — the printed tree; **`Expr.nesting`** counts its nested positions;
* **`derives_tokens`** — the printed tree is a spelling of the tree;
* **`least_of_derives`** — no other spelling is shorter or nested less: no parenthesis is needless;
* **`read_print_iff`** — which printed trees are read back.
-/

namespace Interpolate

open Grammar

/-! ## Operators -/

namespace UnaryOp

/-- The level of an operator in front of an operand. -/
def level : UnaryOp → Level
  | .neg => .sign
  | .pos => .sign
  | .bitNot => .sign
  | .not => .not

/-- The token of an operator in front of an operand. -/
def token : UnaryOp → Token
  | .neg => .minus
  | .pos => .plus
  | .bitNot => .tilde
  | .not => .word "not"

theorem fronts (op : UnaryOp) : op.level.Fronts op.token op := by
  cases op <;> constructor

end UnaryOp

namespace BinaryOp

/-- The level of an operator between two operands. -/
def level : BinaryOp → Level
  | .add => .sum
  | .sub => .sum
  | .mul => .product
  | .div => .product
  | .floorDiv => .product
  | .rem => .product
  | .pow => .power
  | .bitAnd => .bitAnd
  | .bitOr => .bitOr
  | .bitXor => .bitXor
  | .shiftLeft => .shift
  | .shiftRight => .shift

/-- The token of an operator between two operands. -/
def token : BinaryOp → Token
  | .add => .plus
  | .sub => .minus
  | .mul => .star
  | .div => .slash
  | .floorDiv => .slashSlash
  | .rem => .percent
  | .pow => .starStar
  | .bitAnd => .ampersand
  | .bitOr => .pipe
  | .bitXor => .caret
  | .shiftLeft => .shiftLeft
  | .shiftRight => .shiftRight

/-- The level that the left operand has to be of. -/
def leftLevel (op : BinaryOp) : Level :=
  if op = .pow then .operand else op.level

/-- The level that the right operand has to be of. -/
def rightLevel (op : BinaryOp) : Level :=
  if op = .pow then .sign else op.level.next

/-- The nested positions that lie between an operator and its right operand. -/
def rightDepth (op : BinaryOp) : Nat :=
  if op = .pow then 1 else 0

theorem joins {op : BinaryOp} (h : op ≠ .pow) : op.level.Joins op.token (.binary op) := by
  cases op <;> first
    | constructor
    | exact absurd rfl h

end BinaryOp

namespace Expr

/-! ## Printed trees -/

/-- The level that a tree belongs to. -/
def level : Expr → Level
  | .literal _ => .operand
  | .name _ => .operand
  | .unary op _ => op.level
  | .binary op _ _ => op.level
  | .compare _ _ => .comparison
  | .and _ _ => .and
  | .or _ _ => .or
  | .call _ _ => .operand

/-- The token of a literal. -/
def literalToken : Value → Token
  | .int n => .int n
  | .float x => .float x.value
  | .bool true => .word "True"
  | .bool false => .word "False"

/-- The tokens of a tree in a place that asks for a level: with parentheses if the tree binds less. -/
def bracket (ℓ : Level) (e : Expr) (ts : List Token) : List Token :=
  if e.level.rank < ℓ.rank then .leftParen :: (ts ++ [.rightParen]) else ts

mutual

/-- The tokens of a printed tree. -/
def tokens : Expr → List Token
  | .literal v => [literalToken v]
  | .name x => [.word x]
  | .unary op operand => op.token :: bracket op.level operand operand.tokens
  | .binary op left right =>
    bracket op.leftLevel left left.tokens ++ op.token :: bracket op.rightLevel right right.tokens
  | .compare first links => bracket .bitOr first first.tokens ++ tokensOfLinks links
  | .and left right => bracket .and left left.tokens ++ .word "and" :: bracket .not right right.tokens
  | .or left right => bracket .or left left.tokens ++ .word "or" :: bracket .and right right.tokens
  | .call f arguments => .word f :: .leftParen :: (tokensOfAll arguments ++ [.rightParen])

/-- The tokens of printed links. -/
def tokensOfLinks : List (Relation × Expr) → List Token
  | [] => []
  | (r, operand) :: links => .relation r :: (bracket .bitOr operand operand.tokens ++ tokensOfLinks links)

/-- The tokens of printed arguments. -/
def tokensOfAll : List Expr → List Token
  | [] => []
  | [e] => e.tokens
  | e :: next :: more => e.tokens ++ .comma :: tokensOfAll (next :: more)

end

/-- The printed tree. -/
def print (e : Expr) : List Char :=
  Token.spell e.tokens

/-! ## Nesting -/

/-- The nesting of a tree, with the parentheses that a place asks for. -/
def deepen (ℓ : Level) (e : Expr) (n : Nat) : Nat :=
  if e.level.rank < ℓ.rank then n + 1 else n

mutual

/-- The greatest number of nested positions on a way through a printed tree. -/
def nesting : Expr → Nat
  | .literal _ => 0
  | .name _ => 0
  | .unary op operand => deepen op.level operand operand.nesting + 1
  | .binary op left right =>
    max (deepen op.leftLevel left left.nesting) (deepen op.rightLevel right right.nesting + op.rightDepth)
  | .compare first links => max (deepen .bitOr first first.nesting) (nestingOfLinks links)
  | .and left right => max (deepen .and left left.nesting) (deepen .not right right.nesting)
  | .or left right => max (deepen .or left left.nesting) (deepen .and right right.nesting)
  | .call _ arguments => nestingOfAll arguments

/-- The greatest nesting among the operands of printed links. -/
def nestingOfLinks : List (Relation × Expr) → Nat
  | [] => 0
  | (_, operand) :: links => max (deepen .bitOr operand operand.nesting) (nestingOfLinks links)

/-- The greatest nesting among printed arguments, each of which is a nested position. -/
def nestingOfAll : List Expr → Nat
  | [] => 0
  | e :: es => max (e.nesting + 1) (nestingOfAll es)

end

/-- The tokens of a tree in a place that asks for a level. -/
def tokensAt (ℓ : Level) (e : Expr) : List Token :=
  bracket ℓ e e.tokens

/-- The nesting of a tree in a place that asks for a level. -/
def nestingAt (ℓ : Level) (e : Expr) : Nat :=
  deepen ℓ e e.nesting

/-- A tree without parentheses where it asks for none. -/
theorem tokensAt_of_le {ℓ : Level} {e : Expr} (h : ℓ.rank ≤ e.level.rank) : e.tokensAt ℓ = e.tokens :=
  if_neg (Nat.not_lt.mpr h)

theorem nestingAt_of_le {ℓ : Level} {e : Expr} (h : ℓ.rank ≤ e.level.rank) : e.nestingAt ℓ = e.nesting :=
  if_neg (Nat.not_lt.mpr h)

theorem tokensAt_of_lt {ℓ : Level} {e : Expr} (h : e.level.rank < ℓ.rank) :
    e.tokensAt ℓ = .leftParen :: (e.tokens ++ [.rightParen]) :=
  if_pos h

theorem nestingAt_of_lt {ℓ : Level} {e : Expr} (h : e.level.rank < ℓ.rank) : e.nestingAt ℓ = e.nesting + 1 :=
  if_pos h

/-- No tree binds less than a whole expression. -/
theorem tokensAt_or (e : Expr) : e.tokensAt .or = e.tokens :=
  tokensAt_of_le (Nat.zero_le _)

theorem nestingAt_or (e : Expr) : e.nestingAt .or = e.nesting :=
  nestingAt_of_le (Nat.zero_le _)

/-- The links of a printed chain as phrases. -/
def linkPhrases (links : List (Relation × Expr)) : List (Relation × Phrase) :=
  links.map fun link => (link.1, ⟨link.2.tokensAt .bitOr, link.2⟩)

theorem tokensOfLinks_eq (links : List (Relation × Expr)) : tokensOfLinks links = spellLinks (linkPhrases links) := by
  induction links with
  | nil => rfl
  | cons link links ih =>
    rw [tokensOfLinks, ih]
    rfl

theorem linkPhrases_exprs (links : List (Relation × Expr)) :
    (linkPhrases links).map (fun link => (link.1, link.2.expr)) = links := by
  simp [linkPhrases, Function.comp_def]

/-- Printed arguments as phrases. -/
def argumentPhrases (es : List Expr) : List Phrase :=
  es.map fun e => ⟨e.tokens, e⟩

theorem argumentPhrases_exprs (es : List Expr) : (argumentPhrases es).map Phrase.expr = es := by
  simp [argumentPhrases, Function.comp_def]

theorem tokensOfAll_eq (es : List Expr) : tokensOfAll es = spellArguments (argumentPhrases es) := by
  induction es with
  | nil => rfl
  | cons e es ih =>
    cases es with
    | nil => rfl
    | cons next more =>
      rw [tokensOfAll, ih]
      rfl

theorem nestingAt_le_nestingOfLinks {link : Relation × Expr} {links : List (Relation × Expr)} (h : link ∈ links) :
    link.2.nestingAt .bitOr ≤ nestingOfLinks links := by
  induction links with
  | nil => cases h
  | cons first links ih =>
    rw [nestingOfLinks]
    rcases List.mem_cons.mp h with rfl | h
    · exact Nat.le_max_left ..
    · exact Nat.le_trans (ih h) (Nat.le_max_right ..)

theorem nesting_lt_nestingOfAll {e : Expr} {es : List Expr} (h : e ∈ es) : e.nesting < nestingOfAll es := by
  induction es with
  | nil => cases h
  | cons first es ih =>
    rw [nestingOfAll]
    rcases List.mem_cons.mp h with rfl | h
    · exact Nat.le_max_left ..
    · exact Nat.lt_of_lt_of_le (ih h) (Nat.le_max_right ..)

/-! ## Trees that can be printed -/

/-- A name that is no keyword. -/
def isFree (x : String) : Bool :=
  Text.isName x.toList && !Reader.keywords.contains x

/-- A node that has a spelling: an integer without a sign or a truth value, a name that is no keyword, a chain with at
least one link, a call of such a name, or any other operator. -/
def hasSpelling : Expr → Bool
  | .literal (.int n) => decide (0 ≤ n.toInt)
  | .literal (.float _) => false
  | .literal (.bool _) => true
  | .name x => isFree x
  | .unary _ _ => true
  | .binary _ _ _ => true
  | .compare _ links => !links.isEmpty
  | .and _ _ => true
  | .or _ _ => true
  | .call f _ => isFree f

/-- A tree of nodes that have a spelling. -/
def Printable (e : Expr) : Prop :=
  ∀ node ∈ e.nodes, node.hasSpelling = true

instance (e : Expr) : Decidable e.Printable :=
  inferInstanceAs (Decidable (∀ node ∈ e.nodes, node.hasSpelling = true))

theorem isFree_iff {x : String} : isFree x = true ↔ Text.isName x.toList = true ∧ x ∉ Reader.keywords := by
  simp [isFree]

/-! ## A printed tree spells the tree -/

/-- A tree is spelled in a place of any level if it is spelled at its own. -/
theorem derives_tokensAt {e : Expr} (h : Derives e.nesting e.level e.tokens e) (ℓ : Level) :
    Derives (e.nestingAt ℓ) ℓ (e.tokensAt ℓ) e := by
  rcases Nat.lt_or_ge e.level.rank ℓ.rank with hlt | hge
  · have hgroup : Derives (e.nesting + 1) .operand (.leftParen :: (e.tokens ++ [.rightParen])) e :=
      .group (h.of_le (Nat.zero_le _))
    rw [nestingAt_of_lt hlt, tokensAt_of_lt hlt]
    exact hgroup.of_operand ℓ
  · rw [nestingAt_of_le hge, tokensAt_of_le hge]
    exact h.of_le hge

/-- An operator between two trees that are spelled. -/
theorem derives_binary (op : BinaryOp) {l r : Expr} {n m : Nat} {ts us : List Token}
    (hl : Derives n op.leftLevel ts l) (hr : Derives m op.rightLevel us r) :
    Derives (max n (m + op.rightDepth)) op.level (ts ++ op.token :: us) (.binary op l r) := by
  by_cases hpow : op = .pow
  · subst hpow
    obtain ⟨k, hk⟩ : ∃ k, max n (m + 1) = k + 1 := ⟨max n (m + 1) - 1, by omega⟩
    change Derives (max n (m + 1)) .power (ts ++ .starStar :: us) (.binary .pow l r)
    rw [hk]
    exact .power (hl.mono (by omega)) (hr.mono (by omega))
  · rw [BinaryOp.leftLevel, if_neg hpow] at hl
    rw [BinaryOp.rightLevel, if_neg hpow] at hr
    rw [BinaryOp.rightDepth, if_neg hpow]
    exact .join (op.joins hpow) (hl.mono (by omega)) (hr.mono (by omega))

/-- A chain of trees that are spelled. -/
theorem derives_compare {first : Expr} {links : List (Relation × Expr)} (hne : links ≠ [])
    (hfirst : Derives first.nesting first.level first.tokens first)
    (hlinks : ∀ link ∈ links, Derives link.2.nesting link.2.level link.2.tokens link.2) :
    Derives (Expr.compare first links).nesting .comparison (Expr.compare first links).tokens
      (.compare first links) := by
  have hphrases : ∀ phrase ∈ linkPhrases links,
      Derives (Expr.compare first links).nesting .bitOr phrase.2.tokens phrase.2.expr := by
    intro phrase hphrase
    obtain ⟨link, hlink, rfl⟩ := List.mem_map.mp hphrase
    refine (derives_tokensAt (hlinks link hlink) .bitOr).mono ?_
    exact Nat.le_trans (nestingAt_le_nestingOfLinks hlink) (Nat.le_max_right ..)
  have hleft := (derives_tokensAt hfirst .bitOr).mono (Nat.le_max_left _ (nestingOfLinks links))
  have hsome : linkPhrases links ≠ [] := fun hnil => hne (List.map_eq_nil_iff.mp hnil)
  have hcomparison := Derives.comparison hsome hleft hphrases
  rw [linkPhrases_exprs, ← tokensOfLinks_eq] at hcomparison
  exact hcomparison

/-- A call with trees that are spelled. -/
theorem derives_call {f : String} (free : f ∉ Reader.keywords) {es : List Expr}
    (hes : ∀ e ∈ es, Derives e.nesting e.level e.tokens e) :
    Derives (Expr.call f es).nesting .operand (Expr.call f es).tokens (.call f es) := by
  cases es with
  | nil => exact .constantCall free
  | cons e more =>
    obtain ⟨k, hk⟩ : ∃ k, nestingOfAll (e :: more) = k + 1 := by
      have hlt := nesting_lt_nestingOfAll (List.mem_cons_self (a := e) (l := more))
      exact ⟨nestingOfAll (e :: more) - 1, by omega⟩
    have harguments : ∀ argument ∈ argumentPhrases (e :: more), Derives k .or argument.tokens argument.expr := by
      intro argument hargument
      obtain ⟨e', he', rfl⟩ := List.mem_map.mp hargument
      have hlt := nesting_lt_nestingOfAll he'
      exact ((hes e' he').of_le (Nat.zero_le _)).mono (by omega)
    have hcall := Derives.call free (by simp [argumentPhrases]) harguments (.inl rfl)
    rw [argumentPhrases_exprs, ← tokensOfAll_eq, List.append_nil, ← hk] at hcall
    exact hcall

/-- The printed tree is a spelling of the tree, with the nesting of the tree. -/
theorem derives_tokens {e : Expr} (h : e.Printable) : Derives e.nesting e.level e.tokens e := by
  induction e with
  | literal v =>
    cases v with
    | int n => exact .int n
    | float x => cases h _ (List.mem_singleton_self _)
    | bool b =>
      cases b with
      | true => exact .truth
      | false => exact .falsehood
  | name x =>
    obtain ⟨-, free⟩ := isFree_iff.mp (h _ (List.mem_singleton_self _))
    exact .name free
  | unary op e ih =>
    obtain ⟨-, he⟩ := forall_nodes_unary.mp h
    exact .front op.fronts (derives_tokensAt (ih he) op.level)
  | binary op l r ihleft ihright =>
    obtain ⟨-, hl, hr⟩ := forall_nodes_binary.mp h
    exact derives_binary op (derives_tokensAt (ihleft hl) _) (derives_tokensAt (ihright hr) _)
  | compare first links ihfirst ihlinks =>
    obtain ⟨hroot, hfirst, hlinks⟩ := forall_nodes_compare.mp h
    have hne : links ≠ [] := by
      rintro rfl
      cases hroot
    exact derives_compare hne (ihfirst hfirst) fun link hlink => ihlinks link hlink (hlinks link hlink)
  | and l r ihleft ihright =>
    obtain ⟨-, hl, hr⟩ := forall_nodes_and.mp h
    have hleft := derives_tokensAt (ihleft hl) .and
    have hright := derives_tokensAt (ihright hr) .not
    exact .join .and (hleft.mono (Nat.le_max_left ..)) (hright.mono (Nat.le_max_right ..))
  | or l r ihleft ihright =>
    obtain ⟨-, hl, hr⟩ := forall_nodes_or.mp h
    have hleft := derives_tokensAt (ihleft hl) .or
    have hright := derives_tokensAt (ihright hr) .and
    exact .join .or (hleft.mono (Nat.le_max_left ..)) (hright.mono (Nat.le_max_right ..))
  | call f es ih =>
    obtain ⟨hroot, hes⟩ := forall_nodes_call.mp h
    obtain ⟨-, free⟩ := isFree_iff.mp hroot
    exact derives_call free fun e he => ih e he (hes e he)

/-! ## No spelling is shorter -/

section Least

variable {n : Nat} {ℓ ℓ' : Level} {ts : List Token} {e : Expr}

/-- The more a place asks for, the more nested positions there are. -/
theorem nestingAt_mono (hle : ℓ.rank ≤ ℓ'.rank) (e : Expr) : e.nestingAt ℓ ≤ e.nestingAt ℓ' := by
  unfold nestingAt deepen
  split <;> split <;> omega

/-- The more a place asks for, the more tokens there are. -/
theorem length_tokensAt_mono (hle : ℓ.rank ≤ ℓ'.rank) (e : Expr) :
    (e.tokensAt ℓ).length ≤ (e.tokensAt ℓ').length := by
  unfold tokensAt bracket
  split <;> split <;> simp <;> omega

theorem nestingAt_le (ℓ : Level) (e : Expr) : e.nestingAt ℓ ≤ e.nesting + 1 := by
  rw [nestingAt, deepen]
  split <;> omega

theorem length_tokensAt_le (ℓ : Level) (e : Expr) : (e.tokensAt ℓ).length ≤ e.tokens.length + 2 := by
  rw [tokensAt, bracket]
  split <;> simp

theorem level_of_joins {token : Token} {make : Expr → Expr → Expr} (h : ℓ.Joins token make) (l r : Expr) :
    (make l r).level = ℓ := by
  cases h <;> rfl

theorem tokens_of_joins {token : Token} {make : Expr → Expr → Expr} (h : ℓ.Joins token make) (l r : Expr) :
    (make l r).tokens = l.tokensAt ℓ ++ token :: r.tokensAt ℓ.next := by
  cases h <;> rfl

theorem nesting_of_joins {token : Token} {make : Expr → Expr → Expr} (h : ℓ.Joins token make) (l r : Expr) :
    (make l r).nesting = max (l.nestingAt ℓ) (r.nestingAt ℓ.next) := by
  cases h <;> rfl

theorem level_of_fronts {token : Token} {op : UnaryOp} (h : ℓ.Fronts token op) : op.level = ℓ := by
  cases h <;> rfl

theorem nestingOfLinks_le {phrases : List (Relation × Phrase)}
    (h : ∀ phrase ∈ phrases, phrase.2.expr.nestingAt .bitOr ≤ n) :
    nestingOfLinks (phrases.map fun phrase => (phrase.1, phrase.2.expr)) ≤ n := by
  induction phrases with
  | nil => exact Nat.zero_le n
  | cons phrase phrases ih =>
    have hmore := ih fun phrase hphrase => h phrase (List.mem_cons_of_mem _ hphrase)
    exact Nat.max_le.mpr ⟨h phrase (List.mem_cons_self ..), hmore⟩

theorem length_tokensOfLinks_le {phrases : List (Relation × Phrase)}
    (h : ∀ phrase ∈ phrases, (phrase.2.expr.tokensAt .bitOr).length ≤ phrase.2.tokens.length) :
    (tokensOfLinks (phrases.map fun phrase => (phrase.1, phrase.2.expr))).length ≤ (spellLinks phrases).length := by
  induction phrases with
  | nil => exact Nat.le_refl _
  | cons phrase phrases ih =>
    have hfirst := h phrase (List.mem_cons_self ..)
    have hmore := ih fun phrase hphrase => h phrase (List.mem_cons_of_mem _ hphrase)
    rw [tokensAt] at hfirst
    simp only [List.map_cons, tokensOfLinks, spellLinks, List.length_cons, List.length_append]
    omega

theorem nestingOfAll_le {phrases : List Phrase} (h : ∀ phrase ∈ phrases, phrase.expr.nesting ≤ n) :
    nestingOfAll (phrases.map Phrase.expr) ≤ n + 1 := by
  induction phrases with
  | nil => exact Nat.zero_le _
  | cons phrase phrases ih =>
    have hfirst := h phrase (List.mem_cons_self ..)
    have hmore := ih fun phrase hphrase => h phrase (List.mem_cons_of_mem _ hphrase)
    exact Nat.max_le.mpr ⟨Nat.succ_le_succ hfirst, hmore⟩

theorem length_tokensOfAll_le {phrases : List Phrase}
    (h : ∀ phrase ∈ phrases, phrase.expr.tokens.length ≤ phrase.tokens.length) :
    (tokensOfAll (phrases.map Phrase.expr)).length ≤ (spellArguments phrases).length := by
  induction phrases with
  | nil => exact Nat.le_refl _
  | cons phrase phrases ih =>
    have hfirst := h phrase (List.mem_cons_self ..)
    have hmore := ih fun phrase hphrase => h phrase (List.mem_cons_of_mem _ hphrase)
    cases phrases with
    | nil => exact hfirst
    | cons next more =>
      simp only [List.map_cons, tokensOfAll, spellArguments, List.length_cons, List.length_append] at hmore ⊢
      omega

/-- **No parenthesis is needless.** Whatever spells a tree in a place has at least the tokens and the nested positions
of the printed tree. -/
theorem least_of_derives (h : Derives n ℓ ts e) :
    e.nestingAt ℓ ≤ n ∧ (e.tokensAt ℓ).length ≤ ts.length := by
  induction h with
  | @lower n ℓ ts e loose inner ih =>
    have hle := ℓ.rank_le_next
    exact ⟨Nat.le_trans (nestingAt_mono hle e) ih.1, Nat.le_trans (length_tokensAt_mono hle e) ih.2⟩
  | @join n ℓ token make ts us l r joins left right ihleft ihright =>
    have hlevel : ℓ.rank ≤ (make l r).level.rank := Nat.le_of_eq (by rw [level_of_joins joins])
    rw [nestingAt_of_le hlevel, tokensAt_of_le hlevel, nesting_of_joins joins, tokens_of_joins joins]
    simp only [List.length_append, List.length_cons]
    omega
  | @front n ℓ token op ts e fronts inner ih =>
    obtain rfl := level_of_fronts fronts
    have hlevel : op.level.rank ≤ (Expr.unary op e).level.rank := Nat.le_refl _
    rw [nestingAt_of_le hlevel, tokensAt_of_le hlevel]
    exact ⟨Nat.succ_le_succ ih.1, Nat.succ_le_succ ih.2⟩
  | @comparison n ts first phrases nonempty left right ihleft ihright =>
    have hnesting := nestingOfLinks_le fun phrase hphrase => (ihright phrase hphrase).1
    have hlength := length_tokensOfLinks_le fun phrase hphrase => (ihright phrase hphrase).2
    refine ⟨Nat.max_le.mpr ⟨ihleft.1, hnesting⟩, ?_⟩
    change (first.tokensAt .bitOr ++ tokensOfLinks _).length ≤ _
    rw [List.length_append, List.length_append]
    exact Nat.add_le_add ihleft.2 hlength
  | @power n ts us base exponent left right ihleft ihright =>
    refine ⟨Nat.max_le.mpr ⟨ihleft.1, Nat.succ_le_succ ihright.1⟩, ?_⟩
    change (base.tokensAt .operand ++ .starStar :: exponent.tokensAt .sign).length ≤ _
    rw [List.length_append, List.length_append]
    exact Nat.add_le_add ihleft.2 (Nat.succ_le_succ ihright.2)
  | int | float | truth | falsehood | name => exact ⟨Nat.zero_le _, Nat.le_refl _⟩
  | @group n ts e inner ih =>
    rw [nestingAt_or, tokensAt_or] at ih
    refine ⟨Nat.le_trans (nestingAt_le ..) (Nat.succ_le_succ ih.1), Nat.le_trans (length_tokensAt_le ..) ?_⟩
    rw [List.length_cons, List.length_append, List.length_singleton]
    exact Nat.add_le_add_right ih.2 2
  | constantCall => exact ⟨Nat.zero_le _, Nat.le_refl _⟩
  | @call n f phrases trailing free nonempty inner comma ih =>
    simp only [nestingAt_or, tokensAt_or] at ih
    have hlength := length_tokensOfAll_le fun phrase hphrase => (ih phrase hphrase).2
    refine ⟨nestingOfAll_le fun phrase hphrase => (ih phrase hphrase).1, ?_⟩
    change (Token.word f :: .leftParen :: (tokensOfAll _ ++ [.rightParen])).length ≤ _
    simp only [List.length_cons, List.length_append]
    omega

end Least

/-! ## Reading what is printed -/

theorem Printable.of_joins {ℓ : Level} {token : Token} {make : Expr → Expr → Expr} (joins : ℓ.Joins token make)
    {l r : Expr} (h : (make l r).Printable) : l.Printable ∧ r.Printable := by
  cases joins with
  | or => exact (forall_nodes_or.mp h).2
  | and => exact (forall_nodes_and.mp h).2
  | bitOr | bitXor | bitAnd | shiftLeft | shiftRight | add | sub | mul | div | floorDiv | rem =>
    exact (forall_nodes_binary.mp h).2

/-- Every token of a spelling can be read back, if every node of the tree has a spelling. -/
theorem plain_of_derives {n : Nat} {ℓ : Level} {ts : List Token} {e : Expr} (h : Derives n ℓ ts e)
    (hprintable : e.Printable) : ∀ token ∈ ts, token.isPlain = true := by
  induction h with
  | lower loose inner ih => exact ih hprintable
  | @join n ℓ token make ts us l r joins left right ihleft ihright =>
    obtain ⟨hl, hr⟩ := hprintable.of_joins joins
    have htoken : token.isPlain = true := by cases joins <;> decide
    exact List.forall_mem_append.mpr ⟨ihleft hl, List.forall_mem_cons.mpr ⟨htoken, ihright hr⟩⟩
  | @front n ℓ token op ts e fronts inner ih =>
    have htoken : token.isPlain = true := by cases fronts <;> decide
    exact List.forall_mem_cons.mpr ⟨htoken, ih (forall_nodes_unary.mp hprintable).2⟩
  | @comparison n ts first phrases nonempty left right ihleft ihright =>
    obtain ⟨-, hfirst, hlinks⟩ := forall_nodes_compare.mp hprintable
    refine List.forall_mem_append.mpr ⟨ihleft hfirst, fun token htoken => ?_⟩
    rcases mem_spellLinks htoken with ⟨r, rfl⟩ | ⟨phrase, hphrase, htoken⟩
    · rfl
    · exact ihright phrase hphrase (hlinks _ (List.mem_map_of_mem hphrase)) token htoken
  | power left right ihleft ihright =>
    obtain ⟨-, hl, hr⟩ := forall_nodes_binary.mp hprintable
    exact List.forall_mem_append.mpr ⟨ihleft hl, List.forall_mem_cons.mpr ⟨rfl, ihright hr⟩⟩
  | int k => exact List.forall_mem_singleton.mpr (hprintable _ (List.mem_singleton_self _))
  | float x => cases hprintable _ (List.mem_singleton_self _)
  | truth => decide
  | falsehood => decide
  | name free =>
    obtain ⟨hname, -⟩ := isFree_iff.mp (hprintable _ (List.mem_singleton_self _))
    exact List.forall_mem_singleton.mpr hname
  | group inner ih =>
    have hclose : ∀ token ∈ [Token.rightParen], token.isPlain = true := by decide
    exact List.forall_mem_cons.mpr ⟨rfl, List.forall_mem_append.mpr ⟨ih hprintable, hclose⟩⟩
  | constantCall free =>
    obtain ⟨hroot, -⟩ := forall_nodes_call.mp hprintable
    obtain ⟨hname, -⟩ := isFree_iff.mp hroot
    exact List.forall_mem_cons.mpr ⟨hname, by decide⟩
  | @call n f phrases trailing free nonempty inner comma ih =>
    obtain ⟨hroot, hes⟩ := forall_nodes_call.mp hprintable
    obtain ⟨hname, -⟩ := isFree_iff.mp hroot
    have harguments : ∀ token ∈ spellArguments phrases, token.isPlain = true := by
      intro token htoken
      rcases mem_spellArguments htoken with rfl | ⟨phrase, hphrase, htoken⟩
      · rfl
      · exact ih phrase hphrase (hes _ (List.mem_map_of_mem hphrase)) token htoken
    have htrailing : ∀ token ∈ trailing, token.isPlain = true := by
      rcases comma with rfl | rfl <;> decide
    have hclose : ∀ token ∈ [Token.rightParen], token.isPlain = true := by decide
    have hinner := List.forall_mem_append.mpr ⟨List.forall_mem_append.mpr ⟨harguments, htrailing⟩, hclose⟩
    exact List.forall_mem_cons.mpr ⟨hname, List.forall_mem_cons.mpr ⟨rfl, hinner⟩⟩

/-- **What is printed is read back.** A tree without floats and signed integers, with names that are no keywords and
with a link in each chain, is read back from its printed form exactly if it is at most 1000 high and, in print, nested
at most 100 deep. -/
theorem read_print_iff {e : Expr} (h : e.Printable) :
    Expr.read e.print = .ok e ↔ e.height ≤ 1000 ∧ e.nesting ≤ 100 := by
  have hspelled : Derives e.nesting .or e.tokens e := (derives_tokens h).of_le (Nat.zero_le _)
  have hlex : Token.lex e.print = .ok e.tokens := Token.lex_spell (plain_of_derives hspelled h)
  rw [read_eq_ok_iff]
  constructor
  · rintro ⟨⟨ts, hlex', hderives⟩, hheight⟩
    obtain rfl := Except.ok.inj (hlex.symm.trans hlex')
    have hleast := (least_of_derives hderives).1
    rw [nestingAt_or] at hleast
    exact ⟨hheight, hleast⟩
  · rintro ⟨hheight, hnesting⟩
    exact ⟨⟨e.tokens, hlex, hspelled.mono hnesting⟩, hheight⟩

/-- A tree that asks for one pair of parentheses. -/
def bracketed : Expr :=
  let sum : Expr := .binary .add (.literal (.int 2)) (.name "x")
  let power : Expr := .unary .neg (.binary .pow sum (.literal (.int 3)))
  .compare power [(.le, .call "f" [.literal (.int 1), .unary .not (.literal (.bool true))])]

theorem read_print_iff_bracketed :
    bracketed.Printable ∧ bracketed.print = "- ( 2 + x ) ** 3 <= f ( 1 , not True )".toList ∧
      (Expr.read bracketed.print = .ok bracketed ↔ bracketed.height ≤ 1000 ∧ bracketed.nesting ≤ 100) ∧
      bracketed.height = 5 ∧ bracketed.nesting = 2 :=
  ⟨by decide, by cbv, read_print_iff (by decide), by decide, by decide⟩

end Expr

end Interpolate
