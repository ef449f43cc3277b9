import Interpolate.Proofs.Lexing

/-!
# Literals at their places

The lexemes of a text, each with its characters and with what follows it, and how literals are written: as a hexadecimal
numeral, with digits and a point only, or as a float with an exponent.

* **`Lexeme`**, **`lexemes`** — lexemes at their places, which make the tokens (`map_token_lexemes`);
* **`Lexeme.IsPlain`** — no exponent, and nothing right behind a hexadecimal numeral that a name could start with;
* **`Literal`**, **`lexeme_literal`** — the ways to write a literal.
-/

namespace Interpolate

namespace Token

/-! ## Lexemes -/

/-- A lexeme at its place in a text. -/
structure Lexeme where
  /-- its characters -/
  used : List Char
  /-- the token that they make -/
  token : Token
  /-- what follows them -/
  rest : List Char
  deriving DecidableEq

/-- The lexemes of a text, as far as the first fault. -/
def lexemes : (text : List Char) → List Lexeme
  | [] => []
  | c :: text =>
    if isSpace c then lexemes text
    else
      match h : lexeme c text with
      | .error _ => []
      | .ok (token, rest) =>
        have := (lexeme_suffix h).length_le
        ⟨c :: text.take (text.length - rest.length), token, rest⟩ :: lexemes rest
termination_by text => text.length

theorem lexemes_space {c : Char} (h : isSpace c = true) (text : List Char) : lexemes (c :: text) = lexemes text := by
  rw [lexemes, if_pos h]

theorem lexemes_lexeme {c : Char} (h : isSpace c = false) {used rest : List Char} {token : Token}
    (hlexeme : lexeme c (used ++ rest) = .ok (token, rest)) :
    lexemes (c :: (used ++ rest)) = ⟨c :: used, token, rest⟩ :: lexemes rest := by
  have htake : (used ++ rest).take ((used ++ rest).length - rest.length) = used := by
    rw [List.length_append, Nat.add_sub_cancel, List.take_left]
  rw [lexemes, if_neg (by simp [h])]
  split
  · next herror =>
    rw [hlexeme] at herror
    cases herror
  · next hok =>
    rw [hlexeme] at hok
    cases hok
    rw [htake]

/-- **The lexemes of a text** make its tokens. -/
theorem map_token_lexemes {text : List Char} {ts : List Token} (h : lex text = .ok ts) :
    (lexemes text).map Lexeme.token = ts := by
  fun_induction lex text generalizing ts with
  | case1 =>
    cases h
    rw [lexemes, List.map_nil]
  | case2 c text hspace ih => rw [lexemes_space hspace, ih h]
  | case3 => cases h
  | case4 c text hspace token rest hlexeme _ ih =>
    obtain ⟨used, rfl⟩ := lexeme_suffix hlexeme
    obtain ⟨more, hmore, rfl⟩ := exists_of_map_cons h
    rw [lexemes_lexeme (by simpa using hspace) hlexeme, List.map_cons, ih hmore]

/-- A float literal of this kind has no exponent, and a hexadecimal literal has no letter or underscore right behind
it. -/
structure Lexeme.IsPlain (l : Lexeme) : Prop where
  /-- a float literal has no mark of an exponent -/
  unscaled : (∃ x, l.token = .float x) → 'e' ∉ l.used ∧ 'E' ∉ l.used
  /-- a hexadecimal literal stands apart from what a name could start with -/
  apart : ∀ x digits, l.used = '0' :: x :: digits → x = 'x' ∨ x = 'X' → ∀ d ∈ l.rest.head?, Text.isNameStart d = false

/-! ## Literals -/

/-- The ways to write a literal, with `rest` after it. -/
inductive Literal : (used : List Char) → Token → (rest : List Char) → Prop where
  /-- a hexadecimal numeral -/
  | hex {x : Char} {digits rest : List Char} {token : Token} (mark : x = 'x' ∨ x = 'X') (nonempty : digits ≠ [])
      (all : ∀ d ∈ digits, Decimal.isHexDigit d = true) (stop : ∀ d ∈ rest.head?, Decimal.isHexDigit d = false) :
      Literal ('0' :: x :: digits) token rest
  /-- digits, perhaps with a point, which no character of a name follows -/
  | numeral {used rest : List Char} {token : Token} (all : ∀ d ∈ used, d.isDigit = true ∨ d = '.')
      (stop : ∀ d ∈ rest.head?, Text.isNameChar d = false) : Literal used token rest
  /-- a float with an exponent -/
  | scaled {used rest : List Char} {x : Float} (mark : 'e' ∈ used ∨ 'E' ∈ used) : Literal used (.float x) rest

/-- An exponent starts with its mark; else nothing is taken. -/
theorem Numeral.takeExponent_cases (text : List Char) : takeExponent text = (none, text) ∨
    ∃ mark more exponent rest, (mark = 'e' ∨ mark = 'E') ∧ text = mark :: (more ++ rest) ∧
      takeExponent text = (some exponent, rest) := by
  cases text with
  | nil => exact .inl rfl
  | cons mark text =>
    rw [takeExponent]
    dsimp only
    split
    · next hmark =>
      split
      · exact .inl rfl
      · have hsuffix := (List.dropWhile_suffix Char.isDigit).trans
          (List.drop_suffix ((text.take 1).filter fun c => c == '+' || c == '-').length text)
        obtain ⟨more, hmore⟩ := hsuffix
        exact .inr ⟨mark, more, _, _, hmark, congrArg (mark :: ·) hmore.symm, rfl⟩
    · exact .inl rfl

/-- A fraction is a point with digits; else nothing is taken. -/
theorem Numeral.exists_takeFraction (text : List Char) :
    ∃ used, text = used ++ (takeFraction text).2 ∧ ∀ d ∈ used, d.isDigit = true ∨ d = '.' := by
  unfold takeFraction
  split
  · next text =>
    refine ⟨'.' :: text.takeWhile Char.isDigit, ?_, List.forall_mem_cons.mpr ⟨.inr rfl, fun d hd => .inl ?_⟩⟩
    · rw [List.cons_append, List.takeWhile_append_dropWhile]
    · exact List.all_eq_true.mp List.all_takeWhile d hd
  · exact ⟨[], rfl, nofun⟩

/-- A decimal literal takes an exponent, which makes it a float, or nothing more. -/
theorem decimalLexeme_literal {whole before text rest : List Char} {fraction : Option (List Char)} {token : Token}
    (hbefore : ∀ d ∈ before, d.isDigit = true ∨ d = '.') (htext : ∀ d ∈ text.head?, d.isDigit = false)
    (h : decimalLexeme whole fraction text = .ok (token, rest)) :
    ∃ used, before ++ text = used ++ rest ∧ Literal used token rest := by
  have hstop := (decimalLexeme_form h htext).2
  rw [decimalLexeme] at h
  rcases Numeral.takeExponent_cases text with hexponent | ⟨mark, more, exponent, rest', hmark, rfl, hexponent⟩
  · rw [hexponent] at h
    dsimp only at h
    split at h
    · cases h
    · generalize Numeral.token _ = outcome at h
      cases outcome with
      | error error => cases h
      | ok found =>
        cases h
        exact ⟨before, rfl, .numeral hbefore hstop⟩
  · rw [hexponent] at h
    dsimp only at h
    split at h
    · cases h
    · have htoken : Numeral.token ⟨whole, fraction, some exponent⟩ = .ok (.float _) :=
        if_pos (Bool.or_eq_true_iff.mpr (.inr rfl))
      rw [htoken] at h
      cases h
      refine ⟨before ++ mark :: more, by simp, .scaled ?_⟩
      rcases hmark with rfl | rfl
      · exact .inl (by simp)
      · exact .inr (by simp)

theorem hexLexeme_literal {text rest : List Char} {token : Token} {x : Char} (mark : x = 'x' ∨ x = 'X')
    (h : hexLexeme text = .ok (token, rest)) : ∃ used, text = used ++ rest ∧ Literal ('0' :: x :: used) token rest := by
  simp only [hexLexeme] at h
  split at h
  · cases h
  · next hdigits =>
    split at h
    · cases h
      refine ⟨text.takeWhile Decimal.isHexDigit, List.takeWhile_append_dropWhile.symm,
        .hex mark (by simpa using hdigits) ?_ Text.head?_dropWhile⟩
      intro d hd
      exact List.all_eq_true.mp List.all_takeWhile d hd
    · cases h

/-- **Literals** are written in one of these ways. -/
theorem lexeme_literal {c : Char} {used rest : List Char} {token : Token}
    (h : lexeme c (used ++ rest) = .ok (token, rest)) (start : c.isDigit = true ∨ c = '.')
    (hliteral : (∃ n, token = .int n) ∨ ∃ x, token = .float x) : Literal (c :: used) token rest := by
  -- the characters of the literal are those before the rest
  suffices hexists : ∃ taken, c :: (used ++ rest) = taken ++ rest ∧ Literal taken token rest by
    obtain ⟨taken, htaken, hway⟩ := hexists
    rw [← List.cons_append] at htaken
    rwa [List.append_cancel_right htaken]
  generalize used ++ rest = text at h ⊢
  unfold lexeme at h
  split at h
  · next hdigit =>
    split at h
    · obtain ⟨taken, rfl, hway⟩ := hexLexeme_literal (.inl rfl) h
      exact ⟨_, rfl, hway⟩
    · obtain ⟨taken, rfl, hway⟩ := hexLexeme_literal (.inr rfl) h
      exact ⟨_, rfl, hway⟩
    · obtain ⟨point, hpoint, hpoints⟩ := Numeral.exists_takeFraction (text.dropWhile Char.isDigit)
      have hbefore : ∀ d ∈ c :: (text.takeWhile Char.isDigit ++ point), d.isDigit = true ∨ d = '.' := by
        refine List.forall_mem_cons.mpr ⟨.inl hdigit, List.forall_mem_append.mpr ⟨fun d hd => .inl ?_, hpoints⟩⟩
        exact List.all_eq_true.mp List.all_takeWhile d hd
      have htext : c :: text = c :: (text.takeWhile Char.isDigit ++ point) ++
          (Numeral.takeFraction (text.dropWhile Char.isDigit)).2 := by
        rw [List.cons_append, List.append_assoc, ← hpoint, List.takeWhile_append_dropWhile]
      rw [htext]
      exact decimalLexeme_literal hbefore (Numeral.takeFraction_stop Text.head?_dropWhile) h
  · next hnodigit =>
    obtain rfl : c = '.' := start.resolve_left hnodigit
    split at h
    · have hbefore : ∀ d ∈ '.' :: text.takeWhile Char.isDigit, d.isDigit = true ∨ d = '.' :=
        List.forall_mem_cons.mpr ⟨.inr rfl, fun d hd => .inl (List.all_eq_true.mp List.all_takeWhile d hd)⟩
      have htext : '.' :: text = '.' :: text.takeWhile Char.isDigit ++ text.dropWhile Char.isDigit := by
        rw [List.cons_append, List.takeWhile_append_dropWhile]
      rw [htext]
      exact decimalLexeme_literal hbefore Text.head?_dropWhile h
    · -- a point alone is no literal
      have hsymbol : symbolLexeme '.' text = (.unknown '.', text) := by cases text <;> rfl
      rw [if_neg (by decide), hsymbol] at h
      cases h
      rcases hliteral with ⟨n, hn⟩ | ⟨x, hx⟩
      · cases hn
      · cases hx

end Token

end Interpolate
