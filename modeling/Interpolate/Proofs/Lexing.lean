import Interpolate.Expr.Lexeme
import Interpolate.Proofs.Text

/-!
# The forms of lexemes

Which characters a lexeme takes, which token they make, and what cannot follow them.

* **`Token.Form`** — the forms: numerals of both kinds, words, symbols and pairs of symbols;
* **`lexeme_form`** — every lexeme has one of them;
* **`Lexes`** — a text falls into lexemes, blanks between them left out;
* **`Lexes.head?_eq_leftParen_iff`** — when the tokens of a text start with a parenthesis.
-/

namespace Interpolate

namespace Token

/-- The characters of a lexeme make a token, with `rest` after them. -/
inductive Form : (used : List Char) → Token → (rest : List Char) → Prop where
  /-- a hexadecimal numeral, which no digit of its own follows -/
  | hex {x : Char} {digits rest : List Char} {n : Int64} (mark : x = 'x' ∨ x = 'X')
      (all : ∀ d ∈ digits, Decimal.isHexDigit d = true) (stop : ∀ d ∈ rest.head?, Decimal.isHexDigit d = false) :
      Form ('0' :: x :: digits) (.int n) rest
  /-- a decimal numeral, which no character of a name follows -/
  | decimal {c : Char} {used rest : List Char} {token : Token} (start : c.isDigit = true ∨ c = '.')
      (literal : (∃ n, token = .int n) ∨ ∃ x, token = .float x)
      (stop : ∀ d ∈ rest.head?, Text.isNameChar d = false) : Form (c :: used) token rest
  /-- a word, which no character of a name follows -/
  | word {c : Char} {used rest : List Char} (start : Text.isNameStart c = true)
      (all : ∀ d ∈ used, Text.isNameChar d = true) (stop : ∀ d ∈ rest.head?, Text.isNameChar d = false) :
      Form (c :: used) (.word (String.ofList (c :: used))) rest
  /-- a symbol -/
  | symbol {c : Char} {rest : List Char} (plain : Text.isNameChar c = false) : Form [c] (ofSymbol c) rest
  /-- two symbols -/
  | pair {c d : Char} {rest : List Char} {token : Token} (pair : ofPair? c d = some token) : Form [c, d] token rest

/-! ## Numerals -/

theorem intLiteral?_eq_some {n : Nat} {token : Token} (h : intLiteral? n = some token) : ∃ k, token = .int k := by
  rw [intLiteral?] at h
  split at h
  · exact ⟨_, (Option.some.inj h).symm⟩
  · cases h

theorem hexLexeme_form {text rest : List Char} {token : Token} {x : Char} (mark : x = 'x' ∨ x = 'X')
    (h : hexLexeme text = .ok (token, rest)) :
    ∃ used, text = used ++ rest ∧ Form ('0' :: x :: used) token rest := by
  simp only [hexLexeme] at h
  split at h
  · cases h
  · split at h
    · next hliteral =>
      obtain ⟨n, rfl⟩ := intLiteral?_eq_some hliteral
      cases h
      refine ⟨text.takeWhile Decimal.isHexDigit, List.takeWhile_append_dropWhile.symm,
        .hex mark ?_ Text.head?_dropWhile⟩
      intro d hd
      exact List.all_eq_true.mp List.all_takeWhile d hd
    · cases h

theorem Numeral.token_literal {numeral : Numeral} {token : Token} (h : numeral.token = .ok token) :
    (∃ n, token = .int n) ∨ ∃ x, token = .float x := by
  rw [Numeral.token] at h
  split at h
  · exact .inr ⟨_, (Except.ok.inj h).symm⟩
  · split at h
    · cases h
    · split at h
      · next hliteral =>
        cases h
        exact .inl (intLiteral?_eq_some hliteral)
      · cases h

/-- No digit follows an exponent, nor the place where none is taken. -/
theorem Numeral.takeExponent_stop {text : List Char} (h : ∀ d ∈ text.head?, d.isDigit = false) :
    ∀ d ∈ (takeExponent text).2.head?, d.isDigit = false := by
  unfold takeExponent
  split
  · exact h
  · split
    · dsimp only
      split
      · exact h
      · exact Text.head?_dropWhile
    · exact h

theorem Numeral.takeFraction_stop {text : List Char} (h : ∀ d ∈ text.head?, d.isDigit = false) :
    ∀ d ∈ (takeFraction text).2.head?, d.isDigit = false := by
  unfold takeFraction
  split
  · exact Text.head?_dropWhile
  · exact h

theorem decimalLexeme_form {whole text rest : List Char} {fraction : Option (List Char)} {token : Token}
    (h : decimalLexeme whole fraction text = .ok (token, rest)) (htext : ∀ d ∈ text.head?, d.isDigit = false) :
    ((∃ n, token = .int n) ∨ ∃ x, token = .float x) ∧ ∀ d ∈ rest.head?, Text.isNameChar d = false := by
  simp only [decimalLexeme] at h
  split at h
  · cases h
  · next hnone =>
    generalize htoken : Numeral.token _ = outcome at h
    cases outcome with
    | error error => cases h
    | ok found =>
      cases h
      refine ⟨Numeral.token_literal htoken, fun d hd => ?_⟩
      -- a letter or an underscore is refused, and the digits are all taken
      have hdigit := Numeral.takeExponent_stop htext d hd
      have hstart : Text.isNameStart d = false := by
        rw [hd] at hnone
        simpa [Option.filter] using hnone
      rw [← Bool.not_eq_true, Text.isNameChar_iff, hstart, hdigit]
      simp

/-! ## Symbols -/

/-- Symbols that make a pair with another are neither blanks nor characters of names, and the other is none. -/
theorem ofPair?_eq_some {c d : Char} {token : Token} (h : ofPair? c d = some token) :
    Text.isBlank c = false ∧ Text.isNameChar d = false := by
  unfold ofPair? at h
  split at h <;> first
    | exact ⟨by decide, by decide⟩
    | cases h

theorem symbolLexeme_form {c : Char} {text rest : List Char} {token : Token}
    (plain : Text.isNameChar c = false) (h : symbolLexeme c text = (token, rest)) :
    ∃ used, text = used ++ rest ∧ Form (c :: used) token rest := by
  unfold symbolLexeme at h
  split at h
  · cases h
    exact ⟨[], rfl, .symbol plain⟩
  · split at h
    · next hpair =>
      cases h
      exact ⟨[_], rfl, .pair hpair⟩
    · cases h
      exact ⟨[], rfl, .symbol plain⟩

/-! ## Every lexeme -/

/-- Every lexeme has one of the forms. -/
theorem lexeme_form {c : Char} {text rest : List Char} {token : Token} (h : lexeme c text = .ok (token, rest)) :
    ∃ used, text = used ++ rest ∧ Form (c :: used) token rest := by
  have hdigits : ∀ d ∈ (text.dropWhile Char.isDigit).head?, d.isDigit = false := Text.head?_dropWhile
  unfold lexeme at h
  split at h
  · next hdigit =>
    split at h
    · next after =>
      obtain ⟨used, rfl, hform⟩ := hexLexeme_form (.inl rfl) h
      exact ⟨'x' :: used, rfl, hform⟩
    · next after =>
      obtain ⟨used, rfl, hform⟩ := hexLexeme_form (.inr rfl) h
      exact ⟨'X' :: used, rfl, hform⟩
    · obtain ⟨literal, stop⟩ := decimalLexeme_form h (Numeral.takeFraction_stop hdigits)
      have hsuffix := ((decimalLexeme_suffix h).trans (Numeral.takeFraction_suffix _)).trans
        (List.dropWhile_suffix _)
      obtain ⟨used, hused⟩ := hsuffix
      exact ⟨used, hused.symm, .decimal (.inl hdigit) literal stop⟩
  · next hnodigit =>
    split at h
    · next hpoint =>
      obtain ⟨literal, stop⟩ := decimalLexeme_form h hdigits
      obtain ⟨used, hused⟩ := (decimalLexeme_suffix h).trans (List.dropWhile_suffix _)
      exact ⟨used, hused.symm, .decimal (.inr hpoint.1) literal stop⟩
    · split at h
      · next hstart =>
        cases h
        refine ⟨text.takeWhile Text.isNameChar, List.takeWhile_append_dropWhile.symm,
          .word hstart (fun d hd => ?_) Text.head?_dropWhile⟩
        exact List.all_eq_true.mp List.all_takeWhile d hd
      · next hnostart =>
        refine symbolLexeme_form ?_ (Except.ok.inj h)
        rw [← Bool.not_eq_true, Text.isNameChar_iff]
        simp [hnodigit, hnostart]

/-! ## What a form tells of its token -/

/-- A blank that begins a lexeme is unknown. -/
theorem ofSymbol_of_isBlank {c : Char} (h : Text.isBlank c = true) : ofSymbol c = .unknown c := by
  unfold ofSymbol
  split <;> first
    | rfl
    | exact absurd h (by decide)

theorem Form.eq_unknown {c : Char} {used rest : List Char} {token : Token} (h : Form (c :: used) token rest)
    (hblank : Text.isBlank c = true) : token = .unknown c := by
  have hname := Text.isNameChar_eq_false_of_isBlank hblank
  cases h with
  | hex => exact absurd hblank (by decide)
  | decimal start =>
    rcases start with hdigit | rfl
    · rw [Text.isNameChar_iff.mpr (.inr hdigit)] at hname
      cases hname
    · exact absurd hblank (by decide)
  | word start =>
    rw [Text.isNameChar_of_isNameStart start] at hname
    cases hname
  | symbol => exact ofSymbol_of_isBlank hblank
  | pair pair =>
    rw [(ofPair?_eq_some pair).1] at hblank
    cases hblank

/-- A token that is written with one symbol of its own comes from that symbol. -/
theorem Form.eq_of_symbol {c s : Char} {used rest : List Char} {token : Token} (h : Form (c :: used) token rest)
    (hs : (s, token) ∈ [('(', .leftParen), (',', .comma), ('^', .caret)]) : c = s := by
  simp only [List.mem_cons, List.not_mem_nil, or_false, Prod.mk.injEq] at hs
  cases h with
  | hex => simp at hs
  | decimal start literal => rcases literal with ⟨n, rfl⟩ | ⟨x, rfl⟩ <;> simp at hs
  | word => simp at hs
  | symbol =>
    unfold ofSymbol at hs
    split at hs <;> simp_all
  | pair pair =>
    unfold ofPair? at pair
    split at pair <;> cases pair <;> simp at hs

theorem Form.eq_leftParen {used rest : List Char} {token : Token} (h : Form ('(' :: used) token rest) :
    token = .leftParen := by
  cases h with
  | decimal start => exact absurd start (by decide)
  | word start => exact absurd start (by decide)
  | symbol => rfl
  | pair pair => cases pair

/-- A word comes from a run, which a letter or an underscore starts. -/
theorem Form.of_word {used rest : List Char} {x : String} (h : Form used (.word x) rest) :
    x = String.ofList used ∧ (∃ c ∈ used.head?, Text.isNameStart c = true) ∧
      (∀ d ∈ used, Text.isNameChar d = true) ∧ ∀ d ∈ rest.head?, Text.isNameChar d = false := by
  generalize htoken : Token.word x = token at h
  cases h with
  | hex => cases htoken
  | decimal start literal => rcases literal with ⟨n, rfl⟩ | ⟨y, rfl⟩ <;> cases htoken
  | @word c used _ start all stop =>
    refine ⟨Token.word.inj htoken, ⟨c, rfl, start⟩, fun d hd => ?_, stop⟩
    rcases List.mem_cons.mp hd with rfl | hd
    · exact Text.isNameChar_of_isNameStart start
    · exact all d hd
  | symbol =>
    unfold ofSymbol at htoken
    split at htoken <;> cases htoken
  | pair pair =>
    subst htoken
    unfold ofPair? at pair
    split at pair <;> cases pair

/-! ## All lexemes of a text -/

/-- The text falls into lexemes that make the tokens. -/
inductive Lexes : List Char → List Token → Prop where
  /-- nothing is left -/
  | nil : Lexes [] []
  /-- a blank -/
  | space {c : Char} {text : List Char} {ts : List Token} (space : isSpace c = true) (rest : Lexes text ts) :
      Lexes (c :: text) ts
  /-- a lexeme -/
  | lexeme {c : Char} {used text : List Char} {token : Token} {ts : List Token}
      (form : Form (c :: used) token text) (rest : Lexes text ts) : Lexes (c :: (used ++ text)) (token :: ts)

/-- Tokens with another one in front of them come from tokens. -/
theorem exists_of_map_cons {found : Except SyntaxError (List Token)} {token : Token} {ts : List Token}
    (h : found.map (token :: ·) = .ok ts) : ∃ more, found = .ok more ∧ ts = token :: more := by
  cases found with
  | error error => cases h
  | ok more =>
    cases h
    exact ⟨more, rfl, rfl⟩

theorem lexes_of_lex {text : List Char} {ts : List Token} (h : lex text = .ok ts) : Lexes text ts := by
  fun_induction lex text generalizing ts with
  | case1 =>
    cases h
    exact .nil
  | case2 c text hspace ih => exact .space hspace (ih h)
  | case3 => cases h
  | case4 c text hspace token rest hlexeme _ ih =>
    obtain ⟨more, hmore, rfl⟩ := exists_of_map_cons h
    obtain ⟨used, rfl, hform⟩ := lexeme_form hlexeme
    exact .lexeme hform (ih hmore)

theorem isBlank_of_isSpace {c : Char} (h : isSpace c = true) : Text.isBlank c = true := by
  simp only [isSpace, Bool.or_eq_true, beq_iff_eq] at h
  rcases h with ((rfl | rfl) | rfl) | rfl <;> decide

/-- Every token comes from characters of the text. -/
theorem Lexes.exists_form {text : List Char} {ts : List Token} (h : Lexes text ts) {token : Token}
    (htoken : token ∈ ts) : ∃ c ∈ text, ∃ used rest, Form (c :: used) token rest := by
  induction h with
  | nil => cases htoken
  | space _ _ ih =>
    obtain ⟨c, hc, hform⟩ := ih htoken
    exact ⟨c, List.mem_cons_of_mem _ hc, hform⟩
  | lexeme form _ ih =>
    rcases List.mem_cons.mp htoken with rfl | htoken
    · exact ⟨_, List.mem_cons_self .., _, _, form⟩
    · obtain ⟨c, hc, hform⟩ := ih htoken
      exact ⟨c, List.mem_cons_of_mem _ (List.mem_append_right _ hc), hform⟩

/-- Where no token is unknown, a parenthesis comes first among the tokens as it does among the characters that are
no blanks. -/
theorem Lexes.head?_eq_leftParen_iff {text : List Char} {ts : List Token} (h : Lexes text ts)
    (hknown : ∀ c, .unknown c ∉ ts) : ts.head? = some .leftParen ↔ (Text.trimStart text).head? = some '(' := by
  induction h with
  | nil => simp [Text.trimStart]
  | space space _ ih =>
    rw [ih hknown, Text.trimStart, Text.trimStart, List.dropWhile_cons_of_pos (isBlank_of_isSpace space)]
  | @lexeme c used text token ts form _ _ =>
    -- a blank that only the filter knows would be an unknown token
    have hblank : ¬ Text.isBlank c = true := by
      intro hblank
      obtain rfl := form.eq_unknown hblank
      exact hknown c (List.mem_cons_self ..)
    rw [Text.trimStart, List.dropWhile_cons_of_neg hblank, List.head?_cons, List.head?_cons, Option.some_inj,
      Option.some_inj]
    constructor
    · rintro rfl
      exact form.eq_of_symbol (by simp)
    · rintro rfl
      exact form.eq_leftParen

end Token

end Interpolate
