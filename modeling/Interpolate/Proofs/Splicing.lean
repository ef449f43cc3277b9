import Interpolate.Proofs.Evaluation
import Interpolate.Proofs.FilterParts
import Interpolate.Proofs.Printing

/-!
# Texts in parentheses stay together

Where two names stand in parentheses on the two sides of an operator, the texts behind them become its operands as
they are: whatever the texts hold, no token of the one runs into the operator or the other, no operator in them reaches
out of the parentheses, and the filter finds nothing in the whole that it does not find in the parts.

* **`Connective`** — everything that joins two expressions, with its node and its token;
* **`Connective.splice`** — two texts in parentheses with a connective between them;
* **`accepts_splice`**, **`spelledWithin_splice`** — the filter and the reader take the whole as its parts;
* **`rewritesIn_splice`** — two steps of rewriting put the texts in the places of the names;
* **`evaluate_splice`** — the outcome is that of the node that joins the expressions of the two texts.
-/

namespace Interpolate

open Grammar Token

/-! ## Connectives -/

/-- What joins two expressions. -/
inductive Connective where
  /-- an operator that evaluates both sides -/
  | operator (op : BinaryOp)
  /-- a sign of comparison -/
  | relation (r : Relation)
  /-- `and` -/
  | and
  /-- `or` -/
  | or
  deriving DecidableEq

namespace Connective

/-- The node that joins two expressions. -/
def join : Connective → Expr → Expr → Expr
  | .operator op, l, r => .binary op l r
  | .relation sign, l, r => .compare l [(sign, r)]
  | .and, l, r => .and l r
  | .or, l, r => .or l r

/-- The token between them. -/
def token : Connective → Token
  | .operator op => op.token
  | .relation sign => .relation sign
  | .and => .word "and"
  | .or => .word "or"

/-- Two texts in parentheses with a connective between them. -/
def splice (connective : Connective) (s t : List Char) : List Char :=
  '(' :: (s ++ ')' :: ' ' :: (connective.token.spelling ++ ' ' :: '(' :: (t ++ [')'])))

variable (connective : Connective)

theorem height_join (l r : Expr) : (connective.join l r).height = max l.height r.height + 1 := by
  cases connective with
  | relation sign => simp [join, Expr.height, Expr.heightOfLinks]
  | operator | and | or => simp [join, Expr.height]

theorem isPlain_token : connective.token.isPlain = true := by
  cases connective with
  | operator op => cases op <;> rfl
  | relation sign => rfl
  | and => decide
  | or => decide

theorem not_mem_spelling : '$' ∉ connective.token.spelling := by
  cases connective with
  | operator op => cases op <;> decide
  | relation sign => cases sign <;> decide
  | and => decide
  | or => decide

/-! ## The filter -/

/-- Every filter has the words of logic on its list, before a parenthesis. -/
theorem allowsToken_logic (filter : Filter) {x : String} (h : x ∈ Filter.logicWords) :
    filter.allowsToken (x.toList ++ ['(']) = true := by
  refine Filter.allowsToken_called ?_
  rw [String.ofList_toList]
  exact Filter.permits_logic h True

/-- To the filter, a connective other than `^` is nothing but separators, or a word of logic. -/
theorem tokens_connective (hcaret : connective ≠ .operator .bitXor) (t : List Char) :
    ∃ token, Filter.tokens (connective.token.spelling ++ ' ' :: '(' :: t) = token :: Filter.tokens t ∧
      ∀ filter : Filter, filter.allowsToken token = true := by
  have hsymbols : connective.token.spelling.all Filter.isSeparator = true →
      Filter.tokens (connective.token.spelling ++ ' ' :: '(' :: t) = ['('] :: Filter.tokens t := fun hall => by
    rw [Filter.tokens_separators (List.all_eq_true.mp hall), Filter.tokens_blank (by decide), Filter.tokens_paren]
  have hword {w : List Char} (hw : w.all Text.isNameChar = true) (hstart : w.any Text.isNameStart = true) :
      Filter.tokens (w ++ ' ' :: '(' :: t) = (w ++ ['(']) :: Filter.tokens t :=
    Filter.tokens_word_paren (List.all_eq_true.mp hw) (List.any_eq_true.mp hstart) rfl
  cases connective with
  | operator op =>
    refine ⟨['('], hsymbols ?_, fun filter => rfl⟩
    cases op <;> first
      | exact absurd rfl hcaret
      | decide
  | relation sign =>
    refine ⟨['('], hsymbols ?_, fun filter => rfl⟩
    cases sign <;> decide
  | and => exact ⟨_, hword (by decide) (by decide), fun filter => allowsToken_logic filter (x := "and") (by decide)⟩
  | or => exact ⟨_, hword (by decide) (by decide), fun filter => allowsToken_logic filter (x := "or") (by decide)⟩

/-- A filter accepts the whole exactly if it accepts both texts. -/
theorem accepts_splice (hcaret : connective ≠ .operator .bitXor) {filter : Filter} {s t : List Char} :
    filter.accepts (connective.splice s t) = true ↔ filter.accepts s = true ∧ filter.accepts t = true := by
  obtain ⟨token, htokens, hallowed⟩ := connective.tokens_connective hcaret (t ++ [')'])
  have hclose : Filter.tokens (t ++ [')']) = Filter.tokens t := by
    rw [Filter.tokens_separator (by decide), Filter.tokens_nil, List.append_nil]
  have hwhole : Filter.tokens (connective.splice s t) = ['('] :: (Filter.tokens s ++ token :: Filter.tokens t) := by
    rw [splice, Filter.tokens_paren, Filter.tokens_separator (by decide), Filter.tokens_blank (by decide), htokens,
      hclose]
  have hparen : filter.allowsToken ['('] = true := rfl
  simp only [Filter.accepts_iff, hwhole, List.forall_mem_cons, List.forall_mem_append, hparen, hallowed, true_and]

/-! ## The reader -/

/-- The tokens of the whole are those of the texts, with parentheses around them. -/
theorem lex_splice {s t : List Char} {ts us : List Token} (hs : lex s = .ok ts) (ht : lex t = .ok us) :
    lex (connective.splice s t) =
      .ok (.leftParen :: (ts ++ [.rightParen]) ++ connective.token :: .leftParen :: (us ++ [.rightParen])) := by
  have hclose : lex (t ++ [')']) = .ok (us ++ [.rightParen]) := by
    rw [lex_append_cons (by decide), ht, lex_rightParen, lex_nil]
    rfl
  have hright : lex (connective.token.spelling ++ ' ' :: '(' :: (t ++ [')'])) =
      .ok (connective.token :: .leftParen :: (us ++ [.rightParen])) := by
    rw [lex_append_cons (by decide), lex_spelling connective.isPlain_token, lex_space (by decide), lex_leftParen,
      hclose]
    rfl
  rw [splice, lex_leftParen, lex_append_cons (by decide), hs, lex_rightParen, lex_space (by decide), hright]
  simp [Except.bind, Except.map]

/-- Two groups with a connective between them spell the node that joins them. -/
theorem derives_join {n : Nat} {ts us : List Token} {l r : Expr} (hl : Derives n .or ts l) (hr : Derives n .or us r) :
    Derives (n + 2) .or
      (.leftParen :: (ts ++ [.rightParen]) ++ connective.token :: .leftParen :: (us ++ [.rightParen]))
      (connective.join l r) := by
  have hleft : Derives (n + 1) .operand (.leftParen :: (ts ++ [.rightParen])) l := .group hl
  have hright : Derives (n + 1) .operand (.leftParen :: (us ++ [.rightParen])) r := .group hr
  cases connective with
  | operator op =>
    have hjoin := Expr.derives_binary op (hleft.of_operand _) (hright.of_operand _)
    have hdepth : op.rightDepth ≤ 1 := by cases op <;> decide
    exact (hjoin.of_le (Nat.zero_le _)).mono (by omega)
  | relation sign =>
    have hlinks : ∀ link ∈ [(sign, Phrase.mk (.leftParen :: (us ++ [.rightParen])) r)],
        Derives (n + 1) .bitOr link.2.tokens link.2.expr :=
      List.forall_mem_singleton.mpr (hright.of_operand _)
    have hjoin := Derives.comparison (by simp) (hleft.of_operand _) hlinks
    rw [spellLinks, spellLinks, List.append_nil] at hjoin
    exact (hjoin.of_le (Nat.zero_le _)).mono (by omega)
  | and =>
    have hjoin := Derives.join .and (hleft.of_operand _) (hright.of_operand _)
    exact (hjoin.of_le (Nat.zero_le _)).mono (by omega)
  | or => exact (Derives.join .or (hleft.of_operand _) (hright.of_operand _)).mono (by omega)

/-- The whole spells the node that joins the expressions of the texts, two nested positions deeper. -/
theorem spelledWithin_splice {n : Nat} {s t : List Char} {l r : Expr} (hs : Expr.SpelledWithin n s l)
    (ht : Expr.SpelledWithin n t r) : Expr.SpelledWithin (n + 2) (connective.splice s t) (connective.join l r) := by
  obtain ⟨ts, hlex, hl⟩ := hs
  obtain ⟨us, hlex', hr⟩ := ht
  exact ⟨_, connective.lex_splice hlex hlex', connective.derives_join hl hr⟩

/-! ## Rewriting -/

/-- What stands before the second text. -/
def front (s : List Char) : List Char :=
  '(' :: (s ++ ')' :: ' ' :: (connective.token.spelling ++ [' ', '(']))

/-- What stands after the first text. -/
def back (t : List Char) : List Char :=
  ')' :: ' ' :: (connective.token.spelling ++ ' ' :: '(' :: (t ++ [')']))

theorem splice_eq_front (s t : List Char) : connective.splice s t = connective.front s ++ t ++ [')'] := by
  simp [splice, front]

theorem splice_eq_back (s t : List Char) : connective.splice s t = ['('] ++ s ++ connective.back t := rfl

theorem not_mem_back {t : List Char} (ht : '$' ∉ t) : '$' ∉ connective.back t := by
  simp [back, ht, connective.not_mem_spelling]

/-- Two steps put texts without a dollar sign in the places of names, the right one first. -/
theorem rewritesIn_splice {answer : (name : String) → Answer} {a b : List Char} {s t : String}
    (ha : Text.isName a = true) (hb : Text.isName b = true) (hs : (answer (String.ofList a)).value? = some s)
    (ht : (answer (String.ofList b)).value? = some t) (hdollar : '$' ∉ t.toList) :
    Resolution.RewritesIn answer 2 (connective.splice (Placeholder.spell a) (Placeholder.spell b))
      (connective.splice s.toList t.toList) := by
  have hright : Resolution.Rewrites answer (connective.splice (Placeholder.spell a) (Placeholder.spell b))
      (connective.splice (Placeholder.spell a) t.toList) := by
    rw [splice_eq_front, splice_eq_front]
    exact Resolution.rewrites_of_not_mem hb ht _ (by decide)
  have hleft : Resolution.Rewrites answer (connective.splice (Placeholder.spell a) t.toList)
      (connective.splice s.toList t.toList) :=
    Resolution.rewrites_of_not_mem ha hs ['('] (connective.not_mem_back hdollar)
  exact .step hright (.step hleft (.refl _))

end Connective

/-! ## Evaluation -/

/-- The interpreter has an entry with a text for an operand: a text without a dollar sign that its filter accepts, and
that spells an expression with room for one node above it and for two more nested positions. -/
structure Interpreter.Supplies (i : Interpreter Id) (x : Entry) (e : Expr) : Prop where
  /-- the entry has a name that a placeholder can have -/
  isName : Text.isName x.name.toList = true
  /-- the entry is held -/
  held : i.lookup.entry? x.name = some x
  /-- its text has no dollar sign -/
  plain : '$' ∉ x.value.toList
  /-- its text passes the filter -/
  accepted : i.filter.accepts x.value.toList = true
  /-- its text spells the expression -/
  spelled : Expr.SpelledWithin 98 x.value.toList e
  /-- the expression has room above it -/
  low : e.height ≤ 999

theorem Interpreter.Supplies.value?_answers {i : Interpreter Id} {x : Entry} {e : Expr} (h : i.Supplies x e)
    (environment : (name : String) → Option String) :
    (i.lookup.answers environment (String.ofList x.name.toList)).value? = some x.value := by
  rw [String.ofList_toList]
  exact Lookup.value?_answers h.held

/-- **Texts in parentheses are operands.** Where two names with such texts stand in parentheses on the two sides of a
connective other than `^`, the text that they resolve to passes the filter, is read as the node that joins their
expressions, and has the value of that node, or its error, after two passes. -/
theorem Interpreter.evaluate_splice (i : Interpreter Id) (environment : (name : String) → Option String)
    (connective : Connective) (hcaret : connective ≠ .operator .bitXor) (hlimit : 2 ≤ i.limit) {a b : Entry}
    {l r : Expr} (ha : i.Supplies a l) (hb : i.Supplies b r) :
    let text := connective.splice (Placeholder.spell a.name.toList) (Placeholder.spell b.name.toList)
    let source := connective.splice a.value.toList b.value.toList
    i.filter.accepts source = true ∧ Expr.read source = .ok (connective.join l r) ∧
      (Id.run (i.evaluate environment (String.ofList text))).Answers i.context (connective.join l r) 2 := by
  intro text source
  have haccepts : i.filter.accepts source = true := (connective.accepts_splice hcaret).mpr ⟨ha.accepted, hb.accepted⟩
  have hheight : (connective.join l r).height ≤ 1000 := by
    have hl := ha.low
    have hr := hb.low
    rw [connective.height_join]
    omega
  have hread : Expr.read source = .ok (connective.join l r) :=
    Expr.read_eq_ok_iff.mpr ⟨connective.spelledWithin_splice ha.spelled hb.spelled, hheight⟩
  have hdone : '$' ∉ source := by
    have hleft := ha.plain
    have hright := connective.not_mem_back hb.plain
    simp [source, Connective.splice_eq_back, hleft, hright]
  have hrun := connective.rewritesIn_splice ha.isName hb.isName (ha.value?_answers environment)
    (hb.value?_answers environment) hb.plain
  have hresolve :
      (Id.run (i.resolve environment (String.ofList text))).Reports (some (String.ofList source)) none 2 := by
    rw [Interpreter.resolve_reports_iff, Resolution.Verdict.value_iff, String.toList_ofList, String.toList_ofList]
    exact ⟨2, rfl, hlimit, hrun, Placeholder.not_occursIn_of_not_mem hdone⟩
  have htrim : Text.trim (String.ofList source).toList = source := by
    rw [String.toList_ofList]
    refine Text.trim_eq_self (fun c hc => ?_) fun c hc => ?_
    · obtain rfl := Option.some.inj hc
      decide
    · rw [show source = _ from connective.splice_eq_front .., List.getLast?_concat] at hc
      obtain rfl := Option.some.inj hc
      decide
  refine ⟨haccepts, hread, Interpreter.evaluate_reports hresolve ?_ ?_⟩
  · rw [htrim]
    exact haccepts
  · rw [htrim]
    exact hread

/-- The sum of two integers. -/
def sumOf (m n : Int64) : Expr :=
  .binary .add (.literal (.int m)) (.literal (.int n))

theorem spelledWithin_sumOf {text : List Char} {m n : Int64} (h : lex text = .ok [.int m, .plus, .int n]) :
    Expr.SpelledWithin 98 text (sumOf m n) := by
  have hleft : Derives 98 .sum [.int m] (.literal (.int m)) := (Derives.int m).of_operand .sum
  have hright : Derives 98 .product [.int n] (.literal (.int n)) := (Derives.int n).of_operand .product
  exact ⟨_, h, (Derives.join .add hleft hright).of_le (Nat.zero_le _)⟩

/-- An interpreter that knows two sums. -/
def sums : Interpreter Id :=
  .standard ((Lookup.empty.add "x" "1 + 2" none).add "y" "3 + 4" none)

theorem sums_supplies :
    sums.Supplies ⟨"x", "1 + 2", none⟩ (sumOf 1 2) ∧ sums.Supplies ⟨"y", "3 + 4", none⟩ (sumOf 3 4) where
  left := ⟨by decide, by decide, by decide, by decide +kernel, spelledWithin_sumOf (by decide +kernel), by decide⟩
  right := ⟨by decide, by decide, by decide, by decide +kernel, spelledWithin_sumOf (by decide +kernel), by decide⟩

/-- The product of two sums is no sum of a product. -/
theorem Interpreter.evaluate_splice_sums :
    sums.Supplies ⟨"x", "1 + 2", none⟩ (sumOf 1 2) ∧ sums.Supplies ⟨"y", "3 + 4", none⟩ (sumOf 3 4) ∧
      (Id.run (sums.evaluate (fun _ => none) "($\x7bx\x7d) * ($\x7by\x7d)")).Reports (some (.int 21)) none 2 := by
  obtain ⟨hx, hy⟩ := sums_supplies
  obtain ⟨-, -, hanswers⟩ :=
    evaluate_splice sums (fun _ => none) (.operator .mul) (by decide) (by decide) hx hy
  exact ⟨hx, hy, hanswers.value (.int 21) rfl⟩

end Interpolate
