import Interpolate.Proofs.Lexing
import Mathlib.Data.List.TakeWhile

/-!
# Spelling tokens

A lexeme goes on only with characters of names and with a few signs. Any other character is a **bound**: what stands
before it and what starts with it fall into lexemes independently of each other. So tokens that are written one after
the other, with a blank between neighbours, are read back one by one.

* **`isBound`** — the characters that no lexeme goes on with;
* **`lexeme_append`**, **`lex_append`** — the step and the run: lexemes before a bound;
* **`spelling`**, **`spell`** — how a token is written, and how a list of them is;
* **`lex_spell`** — a written list is read back.
-/

namespace Interpolate

namespace Token

/-! ## Bounds -/

/-- The signs that a lexeme can go on with. -/
def innerSigns : List Char := ['.', '+', '-', '*', '/', '<', '>', '=']

/-- A character that no lexeme goes on with. -/
def isBound (c : Char) : Bool :=
  !Text.isNameChar c && !innerSigns.contains c

theorem isNameChar_of_isBound {c : Char} (h : isBound c = true) : Text.isNameChar c = false := by
  rw [isBound, Bool.and_eq_true, Bool.not_eq_true'] at h
  exact h.1

/-- A class of characters of names has no bound in it. -/
theorem eq_false_of_isBound {p : Char → Bool} (hp : ∀ c, p c = true → Text.isNameChar c = true) {c : Char}
    (h : isBound c = true) : p c = false := by
  rw [← Bool.not_eq_true]
  intro hc
  have hname := isNameChar_of_isBound h
  rw [hp c hc] at hname
  cases hname

theorem isDigit_of_isBound {c : Char} (h : isBound c = true) : c.isDigit = false :=
  eq_false_of_isBound (fun _ hc => Text.isNameChar_iff.mpr (.inr hc)) h

theorem ne_of_isBound {c d : Char} (h : isBound c = true) (hd : isBound d = false) : c ≠ d := by
  rintro rfl
  rw [h] at hd
  cases hd

/-- Nothing is left, or what is left starts with a bound. -/
def Bounded (more : List Char) : Prop :=
  ∀ d ∈ more.head?, isBound d = true

theorem bounded_cons {c : Char} (h : isBound c = true) (more : List Char) : Bounded (c :: more) := by
  intro d hd
  obtain rfl := Option.some.inj hd
  exact h

/-! ## Lexemes before a bound -/

section Append

variable {more : List Char}

/-- A lexeme, with what follows it, and with something more behind that. -/
def behind (more : List Char) (found : Token × List Char) : Token × List Char :=
  (found.1, found.2 ++ more)

theorem hexLexeme_append (h : Bounded more) (text : List Char) :
    hexLexeme (text ++ more) = (hexLexeme text).map (behind more) := by
  have hstop : ∀ d ∈ more.head?, Decimal.isHexDigit d = false := fun d hd =>
    eq_false_of_isBound (fun _ => Text.isNameChar_of_isHexDigit) (h d hd)
  simp only [hexLexeme, Text.takeWhile_append hstop, Text.dropWhile_append hstop]
  split
  · rfl
  · split <;> rfl

theorem takeExponent_append (h : Bounded more) (text : List Char) :
    Numeral.takeExponent (text ++ more) =
      ((Numeral.takeExponent text).1, (Numeral.takeExponent text).2 ++ more) := by
  have hdigit : ∀ d ∈ more.head?, d.isDigit = false := fun d hd => isDigit_of_isBound (h d hd)
  cases text with
  | nil =>
    cases more with
    | nil => rfl
    | cons d more =>
      have hmark : ¬ (d = 'e' ∨ d = 'E') := fun hd =>
        hd.elim (ne_of_isBound (h d rfl) (by decide)) (ne_of_isBound (h d rfl) (by decide))
      simp only [List.nil_append, Numeral.takeExponent, if_neg hmark]
  | cons mark rest =>
    -- the sign is looked for in one character, which the bound is not
    have hsign : ((rest ++ more).take 1).filter (fun c => c == '+' || c == '-') =
        (rest.take 1).filter fun c => c == '+' || c == '-' := by
      cases rest with
      | cons c rest => rfl
      | nil =>
        cases more with
        | nil => rfl
        | cons d more =>
          have hplus : d ≠ '+' := ne_of_isBound (h d rfl) (by decide)
          have hminus : d ≠ '-' := ne_of_isBound (h d rfl) (by decide)
          simp [hplus, hminus]
    have hlength : ((rest.take 1).filter fun c => c == '+' || c == '-').length ≤ rest.length :=
      Nat.le_trans (List.length_filter_le ..) (List.length_take_le' ..)
    rw [List.cons_append, Numeral.takeExponent, Numeral.takeExponent]
    split
    · simp only [hsign, List.drop_append_of_le_length hlength, Text.takeWhile_append hdigit, Text.dropWhile_append hdigit]
      split <;> rfl
    · rfl

theorem takeFraction_append (h : Bounded more) (text : List Char) :
    Numeral.takeFraction (text ++ more) =
      ((Numeral.takeFraction text).1, (Numeral.takeFraction text).2 ++ more) := by
  have hdigit : ∀ d ∈ more.head?, d.isDigit = false := fun d hd => isDigit_of_isBound (h d hd)
  cases text with
  | nil =>
    cases more with
    | nil => rfl
    | cons d more =>
      have hpoint : d ≠ '.' := ne_of_isBound (h d rfl) (by decide)
      rw [List.nil_append, Numeral.takeFraction]
      · rfl
      · rintro rest heq
        exact hpoint (List.cons.inj heq).1
  | cons c rest =>
    by_cases hpoint : c = '.'
    · subst hpoint
      simp only [List.cons_append, Numeral.takeFraction, Text.takeWhile_append hdigit, Text.dropWhile_append hdigit]
    · rw [List.cons_append, Numeral.takeFraction, Numeral.takeFraction]
      · rfl
      · rintro rest heq
        exact hpoint (List.cons.inj heq).1
      · rintro rest heq
        exact hpoint (List.cons.inj heq).1

theorem decimalLexeme_append (h : Bounded more) (whole : List Char) (fraction : Option (List Char))
    (text : List Char) :
    decimalLexeme whole fraction (text ++ more) = (decimalLexeme whole fraction text).map (behind more) := by
  have hhead : ((Numeral.takeExponent text).2 ++ more).head?.filter Text.isNameStart =
      (Numeral.takeExponent text).2.head?.filter Text.isNameStart := by
    cases hrest : (Numeral.takeExponent text).2 with
    | cons c rest => rfl
    | nil =>
      cases more with
      | nil => rfl
      | cons d more =>
        have hstart : Text.isNameStart d = false :=
          eq_false_of_isBound (fun _ => Text.isNameChar_of_isNameStart) (h d rfl)
        simp [hstart]
  simp only [decimalLexeme, takeExponent_append h, hhead]
  split
  · rfl
  · cases Numeral.token _ <;> rfl

/-- The second symbol of a pair is no bound. -/
theorem isBound_of_ofPair? {c d : Char} {token : Token} (h : ofPair? c d = some token) : isBound d = false := by
  unfold ofPair? at h
  split at h <;> first
    | decide
    | cases h

theorem symbolLexeme_append (h : Bounded more) (c : Char) (text : List Char) :
    symbolLexeme c (text ++ more) = behind more (symbolLexeme c text) := by
  cases text with
  | nil =>
    cases more with
    | nil => rfl
    | cons d more =>
      cases hpair : ofPair? c d with
      | none => simp only [List.nil_append, symbolLexeme, hpair, behind]
      | some token => exact absurd rfl (ne_of_isBound (h d rfl) (isBound_of_ofPair? hpair))
  | cons d rest =>
    rw [List.cons_append, symbolLexeme, symbolLexeme]
    split <;> rfl

end Append

/-! ## One lexeme -/

section Lexeme

variable {c : Char} {text : List Char}

theorem lexeme_hex {x : Char} (mark : x = 'x' ∨ x = 'X') (text : List Char) :
    lexeme '0' (x :: text) = hexLexeme text := by
  rcases mark with rfl | rfl <;> rfl

/-- A digit starts a decimal numeral unless a mark makes it a hexadecimal one. -/
theorem lexeme_digit (hdigit : c.isDigit = true) (hmark : c = '0' → ∀ x ∈ text.head?, x ≠ 'x' ∧ x ≠ 'X') :
    lexeme c text = decimalLexeme (c :: text.takeWhile Char.isDigit)
      (Numeral.takeFraction (text.dropWhile Char.isDigit)).1
      (Numeral.takeFraction (text.dropWhile Char.isDigit)).2 := by
  unfold lexeme
  rw [if_pos hdigit]
  split
  · exact absurd rfl (hmark rfl 'x' rfl).1
  · exact absurd rfl (hmark rfl 'X' rfl).2
  · rfl

theorem lexeme_point (h : text.head?.any Char.isDigit = true) :
    lexeme '.' text = decimalLexeme [] (some (text.takeWhile Char.isDigit)) (text.dropWhile Char.isDigit) := by
  unfold lexeme
  rw [if_neg (by decide), if_pos ⟨rfl, h⟩]

theorem lexeme_word (start : Text.isNameStart c = true) (text : List Char) :
    lexeme c text =
      .ok (.word (String.ofList (c :: text.takeWhile Text.isNameChar)), text.dropWhile Text.isNameChar) := by
  have hdigit := Text.isDigit_eq_false_of_isNameStart start
  have hpoint : c ≠ '.' := by
    rintro rfl
    exact absurd start (by decide)
  unfold lexeme
  rw [if_neg (by simp [hdigit]), if_neg fun h => hpoint h.1, if_pos start]

theorem lexeme_symbol (plain : Text.isNameChar c = false) (hpoint : c = '.' → text.head?.any Char.isDigit = false) :
    lexeme c text = .ok (symbolLexeme c text) := by
  rw [← Bool.not_eq_true, Text.isNameChar_iff, not_or] at plain
  have hnone : ¬ (c = '.' ∧ text.head?.any Char.isDigit = true) := by
    rintro ⟨hc, hdigit⟩
    rw [hpoint hc] at hdigit
    cases hdigit
  unfold lexeme
  rw [if_neg plain.2, if_neg hnone, if_neg plain.1]

end Lexeme

/-- **A lexeme before a bound.** It is the same as if nothing followed. -/
theorem lexeme_append {more : List Char} (h : Bounded more) (c : Char) (text : List Char) :
    lexeme c (text ++ more) = (lexeme c text).map (behind more) := by
  have hdigits : ∀ d ∈ more.head?, d.isDigit = false := fun d hd => isDigit_of_isBound (h d hd)
  have hnames : ∀ d ∈ more.head?, Text.isNameChar d = false := fun d hd => isNameChar_of_isBound (h d hd)
  by_cases hdigit : c.isDigit = true
  · by_cases hmark : ∃ x rest, c = '0' ∧ text = x :: rest ∧ (x = 'x' ∨ x = 'X')
    · obtain ⟨x, rest, rfl, rfl, mark⟩ := hmark
      rw [List.cons_append, lexeme_hex mark, lexeme_hex mark, hexLexeme_append h]
    · have hfree : c = '0' → ∀ x ∈ text.head?, x ≠ 'x' ∧ x ≠ 'X' := by
        intro hc x hx
        obtain ⟨rest, rfl⟩ := List.head?_eq_some_iff.mp hx
        exact not_or.mp fun mark => hmark ⟨x, rest, hc, rfl, mark⟩
      have hfree' : c = '0' → ∀ x ∈ (text ++ more).head?, x ≠ 'x' ∧ x ≠ 'X' := by
        cases text with
        | nil => exact fun _ x hx => ⟨ne_of_isBound (h x hx) (by decide), ne_of_isBound (h x hx) (by decide)⟩
        | cons x text => exact hfree
      rw [lexeme_digit hdigit hfree, lexeme_digit hdigit hfree', Text.takeWhile_append hdigits,
        Text.dropWhile_append hdigits, takeFraction_append h, decimalLexeme_append h]
  · have hany : (text ++ more).head?.any Char.isDigit = text.head?.any Char.isDigit := by
      cases text with
      | cons d text => rfl
      | nil =>
        cases more with
        | nil => rfl
        | cons d more => exact hdigits d rfl
    by_cases hpoint : c = '.' ∧ text.head?.any Char.isDigit = true
    · obtain ⟨rfl, hpoint⟩ := hpoint
      rw [lexeme_point hpoint, lexeme_point (hany.trans hpoint), Text.takeWhile_append hdigits,
        Text.dropWhile_append hdigits, decimalLexeme_append h]
    · have hfree : c = '.' → text.head?.any Char.isDigit = false := fun hc => by simpa [hc] using hpoint
      by_cases hstart : Text.isNameStart c = true
      · rw [lexeme_word hstart, lexeme_word hstart, Text.takeWhile_append hnames,
          Text.dropWhile_append hnames]
        rfl
      · have plain : Text.isNameChar c = false := by
          rw [← Bool.not_eq_true, Text.isNameChar_iff]
          exact not_or.mpr ⟨hstart, hdigit⟩
        rw [lexeme_symbol plain hfree, lexeme_symbol plain fun hc => hany.trans (hfree hc), symbolLexeme_append h]
        rfl

/-! ## Lists of lexemes -/

theorem lex_nil : lex [] = .ok [] := by
  rw [lex]

theorem lex_space {c : Char} (h : isSpace c = true) (text : List Char) : lex (c :: text) = lex text := by
  rw [lex, if_pos h]

theorem lex_blanks {blanks : List Char} (h : ∀ c ∈ blanks, isSpace c = true) (text : List Char) :
    lex (blanks ++ text) = lex text := by
  induction blanks with
  | nil => rfl
  | cons c blanks ih =>
    obtain ⟨hc, hblanks⟩ := List.forall_mem_cons.mp h
    rw [List.cons_append, lex_space hc, ih hblanks]

theorem lex_lexeme {c : Char} (h : isSpace c = false) (text : List Char) :
    lex (c :: text) = (lexeme c text).bind fun found => (lex found.2).map (found.1 :: ·) := by
  rw [lex, if_neg (by simp [h])]
  split
  · next hlexeme => simp only [hlexeme, Except.bind]
  · next hlexeme => simp only [hlexeme, Except.bind]

/-- **A text before a bound.** Its tokens come first, and then those of what starts with the bound. -/
theorem lex_append {more : List Char} (h : Bounded more) (text : List Char) :
    lex (text ++ more) = (lex text).bind fun ts => (lex more).map (ts ++ ·) := by
  fun_induction lex text with
  | case1 => cases hmore : lex more <;> simp [hmore, Except.bind, Except.map]
  | case2 c text hspace ih => rw [List.cons_append, lex_space hspace, ih]
  | case3 c text hspace error hlexeme =>
    rw [List.cons_append, lex_lexeme (by simpa using hspace), lexeme_append h, hlexeme]
    rfl
  | case4 c text hspace token rest hlexeme _ ih =>
    rw [List.cons_append, lex_lexeme (by simpa using hspace), lexeme_append h, hlexeme]
    simp only [Except.map, Except.bind, behind, ih]
    cases lex rest <;> cases lex more <;> rfl

theorem lex_append_cons {c : Char} (h : isBound c = true) (text more : List Char) :
    lex (text ++ c :: more) = (lex text).bind fun ts => (lex (c :: more)).map (ts ++ ·) :=
  lex_append (bounded_cons h more) text

/-- A symbol that starts no longer one is a token whatever follows it. -/
theorem lex_symbol {c : Char} (plain : Text.isNameChar c = false) (hspace : isSpace c = false) (hpoint : c ≠ '.')
    (single : ∀ d, ofPair? c d = none) (text : List Char) : lex (c :: text) = (lex text).map (ofSymbol c :: ·) := by
  have hlexeme : lexeme c text = .ok (ofSymbol c, text) := by
    rw [lexeme_symbol plain fun hc => absurd hc hpoint]
    cases text with
    | nil => rfl
    | cons d text => rw [symbolLexeme, single d]
  rw [lex_lexeme hspace, hlexeme]
  rfl

theorem lex_leftParen (text : List Char) : lex ('(' :: text) = (lex text).map (.leftParen :: ·) :=
  lex_symbol (by decide) (by decide) (by decide) (fun _ => rfl) text

theorem lex_rightParen (text : List Char) : lex (')' :: text) = (lex text).map (.rightParen :: ·) :=
  lex_symbol (by decide) (by decide) (by decide) (fun _ => rfl) text

theorem lex_minus (text : List Char) : lex ('-' :: text) = (lex text).map (.minus :: ·) :=
  lex_symbol (by decide) (by decide) (by decide) (fun _ => rfl) text

/-! ## Digits -/

/-- The digits of a number that is not zero do not start with a zero. -/
theorem head?_toDigits {n : Nat} (h : n ≠ 0) : (Nat.toDigits 10 n).head? ≠ some '0' := by
  induction n using Nat.strongRecOn with
  | ind n ih =>
    rcases Nat.lt_or_ge n 10 with hlt | hge
    · rw [Nat.toDigits_of_lt_base hlt, List.head?_cons, ne_eq, Option.some_inj, Nat.digitChar_eq_zero]
      exact h
    · have hfront := ih (n / 10) (by omega) (by omega)
      rw [Nat.toDigits_of_base_le (by decide) hge, List.head?_append]
      cases hhead : (Nat.toDigits 10 (n / 10)).head? with
      | none => exact absurd (List.head?_eq_none_iff.mp hhead) Nat.toDigits_ne_nil
      | some c =>
        rw [hhead] at hfront
        exact hfront

/-- The digits of a number have no needless zero in front. -/
theorem not_leadingZeros_toDigits (n : Nat) :
    ¬ ((Nat.toDigits 10 n).head? = some '0' ∧ (Nat.toDigits 10 n).any (· != '0') = true) := by
  by_cases hzero : n = 0
  · subst hzero
    decide
  · exact fun h => head?_toDigits hzero h.1

/-- Digits on their own are a decimal numeral. -/
theorem lexeme_digits {c : Char} {digits : List Char} (h : ∀ d ∈ c :: digits, d.isDigit = true) :
    lexeme c digits = (Numeral.token ⟨c :: digits, none, none⟩).map (·, []) := by
  have hdigits : ∀ d ∈ digits, d.isDigit = true := fun d hd => h d (List.mem_cons_of_mem _ hd)
  have hfree : c = '0' → ∀ x ∈ digits.head?, x ≠ 'x' ∧ x ≠ 'X' := by
    intro _ x hx
    have hdigit := hdigits x (List.mem_of_head? hx)
    constructor <;> rintro rfl <;> exact absurd hdigit (by decide)
  rw [lexeme_digit (h c (List.mem_cons_self ..)) hfree, List.takeWhile_eq_self_iff.mpr hdigits,
    List.dropWhile_eq_nil_iff.mpr hdigits]
  rfl

/-- Characters that are a lexeme as a whole are one token. -/
theorem lex_of_lexeme {c : Char} {text : List Char} {token : Token} (hspace : isSpace c = false)
    (h : lexeme c text = .ok (token, [])) : lex (c :: text) = .ok [token] := by
  rw [lex_lexeme hspace, h]
  simp only [Except.bind, lex_nil, Except.map]

theorem isSpace_of_isNameChar {c : Char} (h : Text.isNameChar c = true) : isSpace c = false := by
  rw [← Bool.not_eq_true]
  intro hspace
  rw [Text.isNameChar_eq_false_of_isBlank (isBlank_of_isSpace hspace)] at h
  cases h

/-- The digits of a number are read back as that integer, unless it is above the greatest one. -/
theorem lex_toDigits_eq (n : Nat) : lex (Nat.toDigits 10 n) =
    if n < 0x8000000000000000 then .ok [.int (Int64.ofInt n)]
    else .error (.decimalTooLarge (String.ofList (Nat.toDigits 10 n))) := by
  have hall : ∀ d ∈ Nat.toDigits 10 n, d.isDigit = true := fun d hd =>
    Nat.isDigit_of_mem_toDigits (by decide) (by decide) hd
  have htoken : Numeral.token ⟨Nat.toDigits 10 n, none, none⟩ =
      if n < 0x8000000000000000 then .ok (.int (Int64.ofInt n))
      else .error (.decimalTooLarge (String.ofList (Nat.toDigits 10 n))) := by
    simp only [Numeral.token, Option.isSome_none, Bool.or_self, Bool.false_eq_true, if_false,
      if_neg (not_leadingZeros_toDigits n), Decimal.ofDigits_toDigits, intLiteral?]
    by_cases h : n < 0x8000000000000000
    · simp only [if_pos h]
    · simp only [if_neg h]
  cases hdigits : Nat.toDigits 10 n with
  | nil => exact absurd hdigits Nat.toDigits_ne_nil
  | cons c digits =>
    rw [hdigits] at hall htoken
    have hspace := isSpace_of_isNameChar (Text.isNameChar_iff.mpr (.inr (hall c (List.mem_cons_self ..))))
    have hlexeme := lexeme_digits hall
    rw [htoken] at hlexeme
    split at hlexeme
    · next h =>
      rw [if_pos h]
      exact lex_of_lexeme hspace hlexeme
    · next h =>
      rw [if_neg h, lex_lexeme hspace, hlexeme]
      rfl

theorem lex_toDigits {n : Nat} (h : n < 0x8000000000000000) :
    lex (Nat.toDigits 10 n) = .ok [.int (Int64.ofInt n)] := by
  rw [lex_toDigits_eq, if_pos h]

/-! ## Spellings -/

/-- How a token is written. -/
def spelling : Token → List Char
  | .int n => (toString n.toInt).toList
  | .float x => (Value.floatNotation.write x).toList
  | .word name => name.toList
  | .plus => ['+']
  | .minus => ['-']
  | .star => ['*']
  | .starStar => ['*', '*']
  | .slash => ['/']
  | .slashSlash => ['/', '/']
  | .percent => ['%']
  | .tilde => ['~']
  | .ampersand => ['&']
  | .pipe => ['|']
  | .caret => ['^']
  | .shiftLeft => ['<', '<']
  | .shiftRight => ['>', '>']
  | .relation .eq => ['=', '=']
  | .relation .ne => ['!', '=']
  | .relation .lt => ['<']
  | .relation .le => ['<', '=']
  | .relation .gt => ['>']
  | .relation .ge => ['>', '=']
  | .comma => [',']
  | .leftParen => ['(']
  | .rightParen => [')']
  | .unknown c => [c]

/-- A token that is read back from its spelling: an integer without a sign, a word in the form of a name, or a
symbol. -/
def isPlain : Token → Bool
  | .int n => decide (0 ≤ n.toInt)
  | .float _ => false
  | .word name => Text.isName name.toList
  | .unknown _ => false
  | _ => true

theorem lex_name {name : String} (h : Text.isName name.toList = true) : lex name.toList = .ok [.word name] := by
  have hall := Text.isNameChar_of_isName h
  cases hname : name.toList with
  | nil =>
    rw [hname] at h
    cases h
  | cons c rest =>
    rw [hname] at h hall
    rw [Text.isName, Bool.and_eq_true] at h
    have hrest : ∀ d ∈ rest, Text.isNameChar d = true := fun d hd => hall d (List.mem_cons_of_mem _ hd)
    refine lex_of_lexeme (isSpace_of_isNameChar (hall c (List.mem_cons_self ..))) ?_
    rw [lexeme_word h.1, List.takeWhile_eq_self_iff.mpr hrest, List.dropWhile_eq_nil_iff.mpr hrest, ← hname,
      String.ofList_toList]

/-- A token is read back from its spelling. -/
theorem lex_spelling {token : Token} (h : token.isPlain = true) : lex token.spelling = .ok [token] := by
  cases token with
  | int n =>
    obtain ⟨k, hk⟩ := Int.eq_ofNat_of_zero_le (of_decide_eq_true h)
    have hlt := n.toInt_lt
    have hdigits : (Token.int n).spelling = Nat.toDigits 10 k := by
      rw [spelling, hk]
      exact Nat.toList_repr
    rw [hdigits, lex_toDigits (by omega), ← hk, Int64.ofInt_toInt]
  | float => cases h
  | word name => exact lex_name h
  | unknown => cases h
  | relation r => cases r <;> exact lex_of_lexeme (by decide) rfl
  | plus | minus | star | starStar | slash | slashSlash | percent | tilde | ampersand | pipe | caret | shiftLeft
  | shiftRight | comma | leftParen | rightParen => exact lex_of_lexeme (by decide) rfl

/-- Tokens in writing, with a blank between neighbours. -/
def spell : List Token → List Char
  | [] => []
  | [token] => token.spelling
  | token :: next :: more => token.spelling ++ ' ' :: spell (next :: more)

/-- **A written list is read back**, token by token. -/
theorem lex_spell {ts : List Token} (h : ∀ token ∈ ts, token.isPlain = true) : lex (spell ts) = .ok ts := by
  induction ts with
  | nil => exact lex_nil
  | cons token more ih =>
    have htoken := lex_spelling (h token (List.mem_cons_self ..))
    cases more with
    | nil => exact htoken
    | cons next more =>
      have hmore := ih fun token ht => h token (List.mem_cons_of_mem _ ht)
      rw [spell, lex_append_cons (by decide), htoken, lex_space (by decide), hmore]
      rfl

end Token

end Interpolate
