import Interpolate.Expr.Octets
import Interpolate.Proofs.Spelling
import Interpolate.Proofs.Utf8

/-!
# Lexemes from the octets of a text

Where the octets are those of a text, reading them gives the lexemes of the text, and no position between lexemes is
inside a character.

* **`At`** — a position before some rest of a text;
* **`Passes`** — the way from one position to another, over ASCII characters;
* **`Agrees`** — a lexeme from octets is the one from characters, and ends at the same place;
* **`Step`**, **`next_step`** — what the next lexeme can be;
* **`tokens_of_at`** — all lexemes;
* **`next_keeps_characters`** — the whole.
-/

namespace Interpolate

namespace Octets

open Token Text

/-! ## Positions in a text -/

/-- The position is where `rest` starts in the octets of a text. -/
def At (text : List Char) (pos : Nat) (rest : List Char) : Prop :=
  ∃ before, text = before ++ rest ∧ pos = (encode before).length

/-- The way from where `rest` starts to where `after` starts is over ASCII characters only. -/
def Passes (pos : Nat) (rest : List Char) (stop : Nat) (after : List Char) : Prop :=
  ∃ passed, (∀ c ∈ passed, c.toNat < 0x80) ∧ rest = passed ++ after ∧ stop = pos + passed.length

namespace Passes

variable {pos stop : Nat} {rest after : List Char}

theorem refl (pos : Nat) (rest : List Char) : Passes pos rest pos rest :=
  ⟨[], nofun, rfl, rfl⟩

theorem trans {pos' : Nat} {rest' : List Char} (h : Passes pos rest pos' rest') (h' : Passes pos' rest' stop after) :
    Passes pos rest stop after := by
  obtain ⟨passed, hpassed, rfl, rfl⟩ := h
  obtain ⟨passed', hpassed', rfl, rfl⟩ := h'
  refine ⟨passed ++ passed', List.forall_mem_append.mpr ⟨hpassed, hpassed'⟩, (List.append_assoc ..).symm, ?_⟩
  rw [List.length_append, Nat.add_assoc]

theorem one {c : Char} (h : c.toNat < 0x80) (pos : Nat) (rest : List Char) : Passes pos (c :: rest) (pos + 1) rest :=
  ⟨[c], List.forall_mem_singleton.mpr h, rfl, rfl⟩

end Passes

section Peek

variable {text rest : List Char} {pos : Nat}

theorem At.passes {stop : Nat} {after : List Char} (h : At text pos rest) (hpasses : Passes pos rest stop after) :
    At text stop after := by
  obtain ⟨before, rfl, rfl⟩ := h
  obtain ⟨passed, hpassed, rfl, rfl⟩ := hpasses
  refine ⟨before ++ passed, (List.append_assoc ..).symm, ?_⟩
  rw [encode_append, List.length_append, length_encode_of_lt hpassed]

theorem At.foreign {c : Char} (h : At text pos (c :: rest)) : At text (pos + c.utf8Size) rest := by
  obtain ⟨before, rfl, rfl⟩ := h
  refine ⟨before ++ [c], by simp, ?_⟩
  rw [encode_append, List.length_append, encode_cons, encode_nil, List.append_nil, String.length_utf8EncodeChar]

theorem At.le_length (h : At text pos rest) : pos ≤ (encode text).length := by
  obtain ⟨before, rfl, rfl⟩ := h
  rw [encode_append, List.length_append]
  exact Nat.le_add_right ..

theorem At.drop_encode (h : At text pos rest) : (encode text).drop pos = encode rest := by
  obtain ⟨before, rfl, rfl⟩ := h
  rw [encode_append, List.drop_left]

theorem At.getElem? (h : At text pos rest) : (encode text)[pos]? = (encode rest).head? := by
  rw [← h.drop_encode, List.head?_drop]

theorem peek_nil (h : At text pos []) : peek (encode text) pos = none := by
  rw [peek, h.getElem?]
  rfl

theorem peek_cons {c : Char} (hc : c.toNat < 0x80) (h : At text pos (c :: rest)) :
    peek (encode text) pos = some c := by
  rw [peek, h.getElem?, encode_cons, utf8EncodeChar_one hc, List.singleton_append, List.head?_cons, Option.map_some,
    toNat_octet (Nat.lt_trans hc (by decide)), Char.ofNat_toNat]

theorem exists_peek_eq_some {c : Char} (hc : 0x80 ≤ c.toNat) (h : At text pos (c :: rest)) :
    ∃ d, peek (encode text) pos = some d ∧ 0x80 ≤ d.toNat := by
  obtain ⟨octet, more, hencode, hoctet⟩ := exists_utf8EncodeChar_eq_cons hc
  refine ⟨Char.ofNat octet.toNat, ?_, by rwa [toNat_ofNat_octet]⟩
  rw [peek, h.getElem?, encode_cons, hencode, List.cons_append, List.head?_cons, Option.map_some]

/-- What only looks for ASCII finds the next character in the octet. -/
theorem bind_peek {β : Type} {f : Char → Option β} (hf : ∀ c, 0x80 ≤ c.toNat → f c = none) (h : At text pos rest) :
    (peek (encode text) pos).bind f = rest.head?.bind f := by
  cases rest with
  | nil =>
    rw [peek_nil h]
    rfl
  | cons c rest =>
    rcases Nat.lt_or_ge c.toNat 0x80 with hc | hc
    · rw [peek_cons hc h]
      rfl
    · -- the octet alone is another character, which is no ASCII either
      obtain ⟨d, hd, hforeign⟩ := exists_peek_eq_some hc h
      rw [hd, Option.bind_some, hf d hforeign, List.head?_cons, Option.bind_some, hf c hc]

/-- The test is for ASCII characters only. -/
def IsAscii (p : Char → Bool) : Prop :=
  ∀ c, p c = true → c.toNat < 0x80

variable {p : Char → Bool}

theorem IsAscii.eq_false (hp : IsAscii p) {c : Char} (hc : 0x80 ≤ c.toNat) : p c = false :=
  Bool.eq_false_iff.mpr fun h => Nat.not_lt.mpr hc (hp c h)

theorem filter_peek (hp : IsAscii p) (h : At text pos rest) :
    (peek (encode text) pos).filter p = rest.head?.filter p := by
  rw [← Option.bind_guard, ← Option.bind_guard, bind_peek _ h]
  intro c hc
  rw [Option.guard_eq_none_iff, hp.eq_false hc]

theorem any_peek (hp : IsAscii p) (h : At text pos rest) : (peek (encode text) pos).any p = rest.head?.any p := by
  rw [← Option.isSome_filter, filter_peek hp h, Option.isSome_filter]

end Peek

theorem isAscii_isSpace : IsAscii isSpace := by
  intro c hc
  simp only [isSpace, Bool.or_eq_true, beq_iff_eq] at hc
  rcases hc with ((rfl | rfl) | rfl) | rfl <;> decide

theorem isAscii_isNameStart : IsAscii isNameStart := by
  intro c hc
  rw [isNameStart_iff] at hc
  omega

theorem isAscii_isDigit : IsAscii Char.isDigit := by
  intro c hc
  rw [isDigit_iff] at hc
  omega

theorem isAscii_isNameChar : IsAscii isNameChar := by
  intro c hc
  rcases isNameChar_iff.mp hc with hstart | hdigit
  · exact isAscii_isNameStart c hstart
  · exact isAscii_isDigit c hdigit

theorem isAscii_isHexDigit : IsAscii Decimal.isHexDigit := fun c hc =>
  isAscii_isNameChar c (isNameChar_of_isHexDigit hc)

/-- A choice of two ASCII characters. -/
theorem isAscii_either {a b : Char} (ha : a.toNat < 0x80) (hb : b.toNat < 0x80) : IsAscii fun c => c == a || c == b := by
  intro c hc
  simp only [Bool.or_eq_true, beq_iff_eq] at hc
  rcases hc with rfl | rfl
  · exact ha
  · exact hb

/-! ## Runs -/

section Runs

variable {text rest : List Char} {pos : Nat}

theorem eat_eq {p : Char → Bool} (hp : IsAscii p) (h : At text pos rest) :
    ∃ stop, eat (encode text) p pos = ((rest.take 1).filter p, stop) ∧
      Passes pos rest stop (rest.drop ((rest.take 1).filter p).length) := by
  rw [eat, filter_peek hp h]
  cases rest with
  | nil => exact ⟨pos, rfl, .refl pos []⟩
  | cons c rest =>
    rw [List.head?_cons, List.take_succ_cons, List.take_zero]
    cases hc : p c with
    | true =>
      rw [Option.filter_some_pos hc, List.filter_cons_of_pos hc]
      exact ⟨pos + 1, rfl, .one (hp c hc) pos rest⟩
    | false =>
      rw [Option.filter_some_neg (by simp [hc]), List.filter_cons_of_neg (by simp [hc])]
      exact ⟨pos, rfl, .refl pos (c :: rest)⟩

theorem run_eq {p : Char → Bool} (hp : IsAscii p) (h : At text pos rest) :
    ∃ stop, run (encode text) p pos = (rest.takeWhile p, stop) ∧ Passes pos rest stop (rest.dropWhile p) := by
  induction rest generalizing pos with
  | nil => exact ⟨pos, run_of_none _ (filter_peek hp h), .refl pos []⟩
  | cons c rest ih =>
    have hpeek := filter_peek hp h
    cases hc : p c with
    | true =>
      rw [List.head?_cons, Option.filter_some_pos hc] at hpeek
      have hone := Passes.one (hp c hc) pos rest
      obtain ⟨stop, hrun, hpasses⟩ := ih (h.passes hone)
      rw [run_of_some _ hpeek, hrun, List.takeWhile_cons_of_pos hc, List.dropWhile_cons_of_pos hc]
      exact ⟨stop, rfl, hone.trans hpasses⟩
    | false =>
      rw [List.head?_cons, Option.filter_some_neg (by simp [hc])] at hpeek
      rw [run_of_none _ hpeek, List.takeWhile_cons_of_neg (by simp [hc]), List.dropWhile_cons_of_neg (by simp [hc])]
      exact ⟨pos, rfl, .refl pos (c :: rest)⟩

end Runs

/-! ## Lexemes -/

/-- What is read from octets at a position is the lexeme of `rest`, or fails with the same error, and reading stops
where the lexeme ends. -/
def Agrees (pos : Nat) (rest : List Char) (found : Except SyntaxError Token × Nat)
    (lexeme : Except SyntaxError (Token × List Char)) : Prop :=
  ∃ after, Passes pos rest found.2 after ∧ lexeme = found.1.map (·, after)

theorem Agrees.of_passes {pos start : Nat} {rest front : List Char} {found : Except SyntaxError Token × Nat}
    {lexeme : Except SyntaxError (Token × List Char)} (hpasses : Passes start front pos rest)
    (h : Agrees pos rest found lexeme) : Agrees start front found lexeme := by
  obtain ⟨after, hafter, hlexeme⟩ := h
  exact ⟨after, hpasses.trans hafter, hlexeme⟩

section Lexemes

variable {text rest : List Char} {pos : Nat}

theorem hexadecimal_agrees (h : At text pos rest) : Agrees pos rest (hexadecimal (encode text) pos) (hexLexeme rest) := by
  obtain ⟨stop, hrun, hpasses⟩ := run_eq isAscii_isHexDigit h
  rw [hexadecimal, hexLexeme, hrun]
  dsimp only
  split
  · exact ⟨_, hpasses, rfl⟩
  · cases intLiteral? (Decimal.ofDigits 16 (rest.takeWhile Decimal.isHexDigit)) with
    | none => exact ⟨_, hpasses, rfl⟩
    | some token => exact ⟨_, hpasses, rfl⟩

theorem takeFraction_of_ne {c : Char} (hc : c ≠ '.') (rest : List Char) :
    Numeral.takeFraction (c :: rest) = (none, c :: rest) := by
  rw [Numeral.takeFraction]
  exact fun digits heq => hc (List.cons.inj heq).1

theorem fraction_eq (h : At text pos rest) : ∃ stop, fraction (encode text) pos = ((Numeral.takeFraction rest).1, stop) ∧
    Passes pos rest stop (Numeral.takeFraction rest).2 := by
  have hpoint : IsAscii (· == '.') := by
    intro c hc
    obtain rfl := beq_iff_eq.mp hc
    decide
  rw [fraction, filter_peek hpoint h]
  cases rest with
  | nil => exact ⟨pos, rfl, .refl pos []⟩
  | cons c digits =>
    rw [List.head?_cons]
    by_cases hc : c = '.'
    · subst hc
      have hone := Passes.one (show '.'.toNat < 0x80 by decide) pos digits
      obtain ⟨stop, hrun, hpasses⟩ := run_eq isAscii_isDigit (h.passes hone)
      rw [show (some '.').filter (· == '.') = some '.' from rfl]
      dsimp only
      rw [hrun]
      exact ⟨stop, rfl, hone.trans hpasses⟩
    · rw [Option.filter_some_neg (by simpa using hc), takeFraction_of_ne hc]
      exact ⟨pos, rfl, .refl pos (c :: digits)⟩

/-- Without a digit, reading an exponent ends where it has begun. -/
theorem exponent_eq (h : At text pos rest) : ∃ stop, exponent (encode text) pos = ((Numeral.takeExponent rest).1, stop) ∧
    Passes pos rest stop (Numeral.takeExponent rest).2 := by
  rw [exponent, filter_peek (isAscii_either (by decide) (by decide)) h, Numeral.takeExponent.eq_def]
  cases rest with
  | nil => exact ⟨pos, rfl, .refl pos []⟩
  | cons mark rest =>
    rw [List.head?_cons]
    dsimp only
    by_cases hmark : mark = 'e' ∨ mark = 'E'
    · have hascii : mark.toNat < 0x80 := by rcases hmark with rfl | rfl <;> decide
      have hone := Passes.one hascii pos rest
      obtain ⟨first, heat, hsign⟩ := eat_eq (isAscii_either (by decide : '+'.toNat < 0x80) (by decide : '-'.toNat < 0x80))
        (h.passes hone)
      obtain ⟨stop, hrun, hdigits⟩ := run_eq isAscii_isDigit (h.passes (hone.trans hsign))
      rw [if_pos hmark, Option.filter_some_pos (by simpa using hmark), heat]
      dsimp only
      rw [hrun]
      dsimp only
      split
      · exact ⟨pos, rfl, .refl pos (mark :: rest)⟩
      · exact ⟨stop, rfl, (hone.trans hsign).trans hdigits⟩
    · rw [if_neg hmark, Option.filter_some_neg (by simpa using hmark)]
      exact ⟨pos, rfl, .refl pos (mark :: rest)⟩

theorem decimal_agrees (whole : List Char) (fraction : Option (List Char)) (h : At text pos rest) :
    Agrees pos rest (decimal (encode text) whole fraction pos) (decimalLexeme whole fraction rest) := by
  obtain ⟨stop, hexponent, hpasses⟩ := exponent_eq h
  rw [decimal, decimalLexeme, hexponent]
  dsimp only
  rw [filter_peek isAscii_isNameStart (h.passes hpasses)]
  cases (Numeral.takeExponent rest).2.head?.filter isNameStart with
  | none => exact ⟨_, hpasses, rfl⟩
  | some next => exact ⟨_, hpasses, rfl⟩

theorem isAscii_mark : IsAscii fun c => c == 'x' || c == 'X' :=
  isAscii_either (by decide) (by decide)

theorem number_hex {x : Char} (mark : x = 'x' ∨ x = 'X') (h : At text pos (x :: rest)) :
    Agrees pos (x :: rest) (number (encode text) '0' pos) (lexeme '0' (x :: rest)) := by
  have hx : (x == 'x' || x == 'X') = true := by simpa using mark
  have hone := Passes.one (isAscii_mark x hx) pos rest
  rw [lexeme_hex mark, number, any_peek isAscii_mark h, if_pos ⟨rfl, hx⟩]
  exact .of_passes hone (hexadecimal_agrees (h.passes hone))

theorem number_digit {c : Char} (hdigit : c.isDigit = true) (hmark : c = '0' → ∀ x ∈ rest.head?, x ≠ 'x' ∧ x ≠ 'X')
    (h : At text pos rest) : Agrees pos rest (number (encode text) c pos) (lexeme c rest) := by
  have hno : ¬ (c = '0' ∧ (rest.head?.any fun x => x == 'x' || x == 'X') = true) := by
    rintro ⟨hc, hany⟩
    obtain ⟨x, hx, hxmark⟩ := (Option.any_eq_true ..).mp hany
    obtain ⟨hlower, hupper⟩ := hmark hc x hx
    simp [hlower, hupper] at hxmark
  have hpoint : ¬ c = '.' := by
    rintro rfl
    exact absurd hdigit (by decide)
  obtain ⟨point, hrun, hdigits⟩ := run_eq isAscii_isDigit h
  obtain ⟨stop, hfraction, hpasses⟩ := fraction_eq (h.passes hdigits)
  rw [lexeme_digit hdigit hmark, number, any_peek isAscii_mark h, if_neg hno, if_neg hpoint, hrun]
  dsimp only
  rw [hfraction]
  exact .of_passes (hdigits.trans hpasses) (decimal_agrees _ _ (h.passes (hdigits.trans hpasses)))

theorem number_point (hdigit : rest.head?.any Char.isDigit = true) (h : At text pos rest) :
    Agrees pos rest (number (encode text) '.' pos) (lexeme '.' rest) := by
  have hno : ¬ ('.' = '0' ∧ ((peek (encode text) pos).any fun x => x == 'x' || x == 'X') = true) := fun hc =>
    absurd hc.1 (by decide)
  obtain ⟨stop, hrun, hdigits⟩ := run_eq isAscii_isDigit h
  rw [lexeme_point hdigit, number, if_neg hno, if_pos rfl, hrun]
  exact .of_passes hdigits (decimal_agrees _ _ (h.passes hdigits))

/-- A number is a hexadecimal or a decimal one, or starts with a point. -/
theorem number_agrees {c : Char} (hc : c.isDigit = true ∨ c = '.' ∧ rest.head?.any Char.isDigit = true)
    (h : At text pos rest) : Agrees pos rest (number (encode text) c pos) (lexeme c rest) := by
  rcases hc with hdigit | ⟨rfl, hdigit⟩
  · -- a zero may be the first digit of either kind
    by_cases hmark : ∃ x more, c = '0' ∧ rest = x :: more ∧ (x = 'x' ∨ x = 'X')
    · obtain ⟨x, more, rfl, rfl, mark⟩ := hmark
      exact number_hex mark h
    · refine number_digit hdigit (fun hc x hx => ?_) h
      obtain ⟨more, rfl⟩ := List.head?_eq_some_iff.mp hx
      exact not_or.mp fun mark => hmark ⟨x, more, hc, rfl, mark⟩
  · exact number_point hdigit h

theorem word_agrees {c : Char} (hc : isNameStart c = true) (h : At text pos rest) :
    Agrees pos rest (.ok (word (encode text) c pos).1, (word (encode text) c pos).2) (lexeme c rest) := by
  obtain ⟨stop, hrun, hpasses⟩ := run_eq isAscii_isNameChar h
  rw [lexeme_word hc, word, hrun]
  exact ⟨_, hpasses, rfl⟩

/-- Only ASCII symbols make a pair. -/
theorem ofPair?_eq_none {c d : Char} (h : 0x80 ≤ c.toNat ∨ 0x80 ≤ d.toNat) : ofPair? c d = none := by
  rw [ofPair?.eq_def]
  split <;> first
    | exact absurd h (by decide)
    | rfl

theorem ofSymbol_eq_unknown {c : Char} (hc : 0x80 ≤ c.toNat) : ofSymbol c = .unknown c := by
  rw [ofSymbol.eq_def]
  split <;> first
    | exact absurd hc (by decide)
    | rfl

theorem symbol_agrees {c : Char} (hplain : isNameChar c = false)
    (hpoint : c = '.' → rest.head?.any Char.isDigit = false) (h : At text pos rest) :
    Agrees pos rest (.ok (symbol (encode text) c pos).1, (symbol (encode text) c pos).2) (lexeme c rest) := by
  rw [lexeme_symbol hplain hpoint, symbol, bind_peek (fun d hd => ofPair?_eq_none (.inr hd)) h]
  cases rest with
  | nil => exact ⟨[], .refl pos [], rfl⟩
  | cons d rest =>
    rw [List.head?_cons, Option.bind_some, symbolLexeme]
    cases hpair : ofPair? c d with
    | none => exact ⟨d :: rest, .refl pos (d :: rest), rfl⟩
    | some token =>
      have hd : d.toNat < 0x80 := by
        refine Nat.lt_of_not_le fun hforeign => ?_
        rw [ofPair?_eq_none (.inr hforeign)] at hpair
        cases hpair
      exact ⟨rest, .one hd pos rest, rfl⟩

/-- **Lexemes from octets.** What starts with an ASCII character is read from octets as it is from characters. -/
theorem lexemeAt_agrees {c : Char} (hc : c.toNat < 0x80) (h : At text pos (c :: rest)) :
    Agrees pos (c :: rest) (lexemeAt (encode text) c pos) (lexeme c rest) := by
  have hone := Passes.one hc pos rest
  have hnext := h.passes hone
  refine .of_passes hone ?_
  rw [lexemeAt, any_peek isAscii_isDigit hnext]
  split
  · next hnumber => exact number_agrees hnumber hnext
  · next hnumber =>
    obtain ⟨hdigit, hpoint⟩ := not_or.mp hnumber
    split
    · next hstart => exact word_agrees hstart hnext
    · next hstart =>
      have hplain : isNameChar c = false := by
        rw [← Bool.not_eq_true, isNameChar_iff]
        exact not_or.mpr ⟨hstart, hdigit⟩
      exact symbol_agrees hplain (fun heq => Bool.eq_false_iff.mpr fun hany => hpoint ⟨heq, hany⟩) hnext

/-! ## Other characters -/

/-- The octets from a character on are decoded, and it is the first. -/
theorem foreign_eq {c : Char} (h : At text pos (c :: rest)) :
    decode? ((encode text).drop pos) = some (String.ofList (c :: rest)) ∧
      foreign (encode text) pos = (.unknown c, pos + c.utf8Size) := by
  have hdecode : decode? ((encode text).drop pos) = some (String.ofList (c :: rest)) := by
    rw [h.drop_encode, decode?_encode]
  refine ⟨hdecode, ?_⟩
  rw [foreign, hdecode, Option.getD_some, String.toList_ofList, List.head?_cons, Option.getD_some,
    Nat.max_eq_left c.utf8Size_pos]

theorem lexemeAt_foreign {c d : Char} (hd : 0x80 ≤ d.toNat) (h : At text pos (c :: rest)) :
    lexemeAt (encode text) d pos = (.ok (.unknown c), pos + c.utf8Size) := by
  have hpoint : ¬ d = '.' := by
    rintro rfl
    exact absurd hd (by decide)
  rw [lexemeAt, if_neg (by simp [isAscii_isDigit.eq_false hd, hpoint]),
    if_neg (by simp [isAscii_isNameStart.eq_false hd]), if_neg (Nat.not_lt.mpr hd), (foreign_eq h).2]

theorem lexeme_foreign {c : Char} (hc : 0x80 ≤ c.toNat) (rest : List Char) :
    lexeme c rest = .ok (.unknown c, rest) := by
  have hpoint : c ≠ '.' := by
    rintro rfl
    exact absurd hc (by decide)
  rw [lexeme_symbol (isAscii_isNameChar.eq_false hc) fun h => absurd h hpoint]
  cases rest with
  | nil => rw [symbolLexeme, ofSymbol_eq_unknown hc]
  | cons d rest => rw [symbolLexeme, ofPair?_eq_none (.inl hc), ofSymbol_eq_unknown hc]

end Lexemes

/-! ## The next lexeme -/

/-- What the next lexeme can be, from a position before `rest` on: the position behind the blanks, and what is found
there. -/
inductive Step (pos : Nat) (rest : List Char) : (start : Nat) → (found : Except SyntaxError (Option Token) × Nat) → Prop
    where
  /-- only blanks are left -/
  | finish {stop : Nat} (skip : rest.dropWhile isSpace = []) (blanks : Passes pos rest stop []) :
      Step pos rest stop (.ok none, stop)
  /-- a lexeme that starts with an ASCII character -/
  | plain {start : Nat} {c : Char} {more : List Char} {found : Except SyntaxError Token × Nat}
      (skip : rest.dropWhile isSpace = c :: more) (blanks : Passes pos rest start (c :: more)) (ascii : c.toNat < 0x80)
      (agrees : Agrees start (c :: more) found (lexeme c more)) : Step pos rest start (found.1.map some, found.2)
  /-- any other character -/
  | foreign {start : Nat} {c : Char} {more : List Char} (skip : rest.dropWhile isSpace = c :: more)
      (blanks : Passes pos rest start (c :: more)) (other : 0x80 ≤ c.toNat) :
      Step pos rest start (.ok (some (.unknown c)), start + c.utf8Size)

section Next

variable {text rest : List Char} {pos : Nat}

/-- **One step.** -/
theorem next_step (h : At text pos rest) : Step pos rest (run (encode text) isSpace pos).2 (next (encode text) pos) := by
  obtain ⟨start, hrun, hblanks⟩ := run_eq isAscii_isSpace h
  have hstart := h.passes hblanks
  rw [next, hrun]
  dsimp only
  cases hskip : rest.dropWhile isSpace with
  | nil =>
    rw [hskip] at hblanks hstart
    rw [peek_nil hstart]
    exact .finish hskip hblanks
  | cons c more =>
    rw [hskip] at hblanks hstart
    rcases Nat.lt_or_ge c.toNat 0x80 with hc | hc
    · rw [peek_cons hc hstart]
      exact .plain hskip hblanks hc (lexemeAt_agrees hc hstart)
    · obtain ⟨d, hd, hother⟩ := exists_peek_eq_some hc hstart
      rw [hd]
      dsimp only
      rw [lexemeAt_foreign hother hstart]
      exact .foreign hskip hblanks hc

/-- A step ends between two characters. -/
theorem Step.exists_at {start : Nat} {found : Except SyntaxError (Option Token) × Nat} (hstep : Step pos rest start found)
    (h : At text pos rest) : ∃ after, At text found.2 after := by
  cases hstep with
  | finish skip blanks => exact ⟨[], h.passes blanks⟩
  | plain skip blanks ascii agrees =>
    obtain ⟨after, hafter, -⟩ := agrees
    exact ⟨after, h.passes (blanks.trans hafter)⟩
  | foreign skip blanks other => exact ⟨_, (h.passes blanks).foreign⟩

theorem lex_dropWhile_isSpace (text : List Char) : lex (text.dropWhile isSpace) = lex text := by
  have hblank : ∀ c ∈ text.takeWhile isSpace, isSpace c = true := fun c hc => List.mem_takeWhile_imp hc
  rw [← lex_blanks hblank, List.takeWhile_append_dropWhile]

theorem lex_of_skip {c : Char} {more : List Char} (skip : rest.dropWhile isSpace = c :: more) :
    lex rest = (lexeme c more).bind fun found => (lex found.2).map (found.1 :: ·) := by
  have hspace : isSpace c = false := head?_dropWhile c (by rw [skip]; rfl)
  rw [← lex_dropWhile_isSpace, skip, lex_lexeme hspace]

theorem length_lt_of_skip {c : Char} {more : List Char} (skip : rest.dropWhile isSpace = c :: more) :
    more.length < rest.length := by
  have hle := (List.dropWhile_suffix (l := rest) isSpace).length_le
  rwa [skip, List.length_cons] at hle

end Next

/-! ## All lexemes -/

/-- **All lexemes.** The octets from a position on have the lexemes of the text from there on. -/
theorem tokens_of_at {text : List Char} {pos : Nat} {rest : List Char} (h : At text pos rest) :
    tokens (encode text) pos = lex rest := by
  -- by recursion on what is left, of which every lexeme takes its first character
  generalize hfound : next (encode text) pos = found
  have hstep := next_step h
  rw [hfound] at hstep
  cases hstep with
  | finish skip blanks => rw [tokens_of_none hfound, ← lex_dropWhile_isSpace, skip, lex_nil]
  | @plain c more found skip blanks ascii agrees =>
    obtain ⟨result, stop⟩ := found
    obtain ⟨after, hafter, hlexeme⟩ := agrees
    cases result with
    | error error =>
      rw [tokens_of_error hfound, lex_of_skip skip, hlexeme]
      rfl
    | ok token =>
      have hshort : after.length < rest.length :=
        Nat.lt_of_le_of_lt (lexeme_suffix hlexeme).length_le (length_lt_of_skip skip)
      rw [tokens_of_some hfound, tokens_of_at (h.passes (blanks.trans hafter)), lex_of_skip skip, hlexeme]
      rfl
  | @foreign c more skip blanks other =>
    have hshort := length_lt_of_skip skip
    rw [tokens_of_some hfound, tokens_of_at (h.passes blanks).foreign, lex_of_skip skip, lexeme_foreign other]
    rfl
termination_by rest.length

/-! ## Between characters -/

/-- The position is between two characters of a text, or at one of its ends. -/
def IsBoundary (text : List Char) (pos : Nat) : Prop :=
  ∃ rest, At text pos rest

/-- The positions between lexemes: the start of the octets, and where reading a lexeme has ended, with or without
success. -/
inductive Reaches (source : List UInt8) : (pos : Nat) → Prop where
  /-- the start -/
  | start : Reaches source 0
  /-- behind the next lexeme -/
  | next {pos : Nat} (before : Reaches source pos) : Reaches source (next source pos).2

section Boundaries

variable {text rest : List Char} {pos : Nat}

theorem At.unique {rest' : List Char} (h : At text pos rest) (h' : At text pos rest') : rest = rest' := by
  have hencode : encode rest = encode rest' := h.drop_encode.symm.trans h'.drop_encode
  have hdecode := decode?_encode rest
  rw [hencode, decode?_encode] at hdecode
  exact (String.ofList_inj.mp (Option.some.inj hdecode)).symm

theorem at_start (text : List Char) : At text 0 text :=
  ⟨[], rfl, rfl⟩

/-- **No character is split.** -/
theorem isBoundary_of_reaches (h : Reaches (encode text) pos) : IsBoundary text pos := by
  induction h with
  | start => exact ⟨text, at_start text⟩
  | next _ ih =>
    obtain ⟨rest, hat⟩ := ih
    exact (next_step hat).exists_at hat

/-- All positions on the way over ASCII characters are between characters. -/
theorem IsBoundary.of_passes {stop k : Nat} {after : List Char} (h : At text pos rest)
    (hpasses : Passes pos rest stop after) (low : pos ≤ k) (high : k ≤ stop) : IsBoundary text k := by
  obtain ⟨passed, hpassed, rfl, rfl⟩ := hpasses
  refine ⟨passed.drop (k - pos) ++ after, h.passes ⟨passed.take (k - pos), ?_, ?_, ?_⟩⟩
  · exact fun c hc => hpassed c (List.mem_of_mem_take hc)
  · rw [← List.append_assoc, List.take_append_drop]
  · rw [List.length_take]
    omega

theorem at_skip (h : At text pos rest) : At text (run (encode text) isSpace pos).2 (rest.dropWhile isSpace) := by
  obtain ⟨start, hrun, hblanks⟩ := run_eq isAscii_isSpace h
  rw [hrun]
  exact h.passes hblanks

/-- An octet that is no ASCII is the first of such a character. -/
theorem At.exists_other {octet : UInt8} (h : At text pos rest) (hoctet : (encode text)[pos]? = some octet)
    (other : 0x80 ≤ octet.toNat) : ∃ c more, rest = c :: more ∧ 0x80 ≤ c.toNat := by
  rw [h.getElem?] at hoctet
  cases rest with
  | nil => cases hoctet
  | cons c more =>
    refine ⟨c, more, rfl, Nat.le_of_not_lt fun hc => ?_⟩
    rw [encode_cons, utf8EncodeChar_one hc, List.singleton_append, List.head?_cons, Option.some.injEq] at hoctet
    rw [← hoctet, toNat_octet (Nat.lt_trans hc (by decide))] at other
    exact Nat.not_lt.mpr other hc

/-- Between two positions that are reached one after the other, there are no others inside a character than those in one
that begins no lexeme. -/
theorem isBoundary_or (h : At text pos rest) {k : Nat} (low : pos ≤ k) (high : k ≤ (next (encode text) pos).2) :
    IsBoundary text k ∨ ∃ c, (next (encode text) pos).1 = .ok (some (.unknown c)) ∧ 0x80 ≤ c.toNat ∧
      (run (encode text) isSpace pos).2 < k ∧ k < (next (encode text) pos).2 := by
  have hstep := next_step h
  generalize next (encode text) pos = found at hstep high
  generalize (run (encode text) isSpace pos).2 = start at hstep
  cases hstep with
  | finish skip blanks => exact .inl (.of_passes h blanks low high)
  | plain skip blanks ascii agrees =>
    obtain ⟨after, hafter, -⟩ := agrees
    exact .inl (.of_passes h (blanks.trans hafter) low high)
  | @foreign c more skip blanks other =>
    rcases Nat.lt_or_ge start k with hstart | hstart
    · rcases Nat.lt_or_eq_of_le high with hstop | rfl
      · exact .inr ⟨c, rfl, other, hstart, hstop⟩
      · exact .inl ⟨more, (h.passes blanks).foreign⟩
    · exact .inl (.of_passes h blanks low hstart)

/-- Any other character is a token of its own. -/
theorem next_foreign {c : Char} {more : List Char} (h : At text pos rest) (skip : rest.dropWhile isSpace = c :: more)
    (other : 0x80 ≤ c.toNat) :
    next (encode text) pos = (.ok (some (.unknown c)), (run (encode text) isSpace pos).2 + c.utf8Size) := by
  have hstep := next_step h
  generalize next (encode text) pos = found at hstep ⊢
  generalize (run (encode text) isSpace pos).2 = start at hstep ⊢
  cases hstep with
  | finish nothing => cases skip.symm.trans nothing
  | plain found blanks ascii =>
    cases skip.symm.trans found
    exact absurd ascii (Nat.not_lt.mpr other)
  | foreign found =>
    cases skip.symm.trans found
    rfl

end Boundaries

/-- **Octets and characters.** The octets of a text have the lexemes of the text. Every position that is reached in
reading them is between two characters, and each token moves it forward; on the way, only the positions inside of a
character that begins no lexeme are passed over. Where an octet behind the blanks is no ASCII, there is such a character:
the octets from there on are a text, which starts with it, the next token is this character, and reading goes on behind
it. -/
theorem next_keeps_characters (text : List Char) :
    tokens (encode text) 0 = lex text ∧
      ∀ pos, Reaches (encode text) pos →
        let start := (run (encode text) isSpace pos).2
        let found := next (encode text) pos
        pos ≤ (encode text).length ∧ IsBoundary text pos ∧
          (∀ token, found.1 = .ok (some token) → pos < found.2) ∧
          (∀ k, pos ≤ k → k ≤ found.2 → IsBoundary text k ∨
            ∃ c, found.1 = .ok (some (.unknown c)) ∧ 0x80 ≤ c.toNat ∧ start < k ∧ k < found.2) ∧
          (∀ octet, (encode text)[start]? = some octet → 0x80 ≤ octet.toNat →
            ∃ c rest, At text start (c :: rest) ∧ 0x80 ≤ c.toNat) ∧
          ∀ c rest, At text start (c :: rest) → 0x80 ≤ c.toNat →
            decode? ((encode text).drop start) = some (String.ofList (c :: rest)) ∧
              found = (.ok (some (.unknown c)), start + c.utf8Size) ∧ At text (start + c.utf8Size) rest ∧
              tokens (encode text) pos = (tokens (encode text) (start + c.utf8Size)).map (.unknown c :: ·) := by
  refine ⟨tokens_of_at (at_start text), fun pos hreaches => ?_⟩
  obtain ⟨rest, hat⟩ := isBoundary_of_reaches hreaches
  have hstart := at_skip hat
  intro start found
  refine ⟨hat.le_length, ⟨rest, hat⟩, fun token htoken => ?_, fun k => isBoundary_or hat, fun octet hoctet other => ?_,
    fun c more hmore other => ?_⟩
  · exact (lt_next (encode text) (Prod.ext htoken rfl)).2
  · obtain ⟨c, more, hskip, hc⟩ := hstart.exists_other hoctet other
    exact ⟨c, more, hskip ▸ hstart, hc⟩
  · have hnext := next_foreign hat (hstart.unique hmore) other
    exact ⟨(foreign_eq hmore).1, hnext, hmore.foreign, tokens_of_some hnext⟩

/-- A letter of two octets before a plus sign. -/
theorem next_keeps_characters_accented :
    let text := ['é', '+']
    encode text = [0xC3, 0xA9, 0x2B] ∧ Reaches (encode text) 0 ∧ decode? (encode text) = some "é+" ∧
      next (encode text) 0 = (.ok (some (.unknown 'é')), 2) ∧
      (∀ k, 0 ≤ k → k ≤ 2 → IsBoundary text k ∨ k = 1) ∧
      tokens (encode text) 0 = (tokens (encode text) 2).map (.unknown 'é' :: ·) := by
  intro text
  have hstart : (run (encode text) isSpace 0).2 = 0 := congrArg Prod.snd (run_of_none _ rfl)
  obtain ⟨-, -, -, hbetween, -, hforeign⟩ := (next_keeps_characters text).2 0 .start
  rw [hstart] at hbetween hforeign
  obtain ⟨hdecode, hnext, -, htokens⟩ := hforeign 'é' ['+'] (at_start text) (by decide)
  refine ⟨rfl, .start, hdecode, hnext, fun k low high => ?_, htokens⟩
  rw [hnext] at hbetween
  rcases hbetween k low high with hk | ⟨c, -, -, hlow, hhigh⟩
  · exact .inl hk
  · exact .inr (by change k < 2 at hhigh; omega)

end Octets

end Interpolate
