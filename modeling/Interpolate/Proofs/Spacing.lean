import Mathlib.Data.List.Forall2
import Interpolate.Proofs.Spelling

/-!
# Tokens with blanks between them

Blanks between tokens mean nothing, as long as there is at least one between neighbours: what is read of a text is what
is read of its pieces, one after another. An integer can be written in decimal or in hexadecimal digits; whichever way
it is written, it is read back, unless it is above the greatest one.

* **`IsNumeral`** — the ways to write a number;
* **`Writes`** — the ways to write a token;
* **`Spaced`** — pieces in writing, with blanks between neighbours and perhaps around them all;
* **`lex_numeral`** — what is read of a number;
* **`lex_piece`**, **`lex_of_spaced`** — the step and the run: what is read of pieces.
-/

namespace Interpolate

namespace Decimal

/-! ## Digits of either case -/

theorem toNat_toLower (c : Char) :
    c.toLower.toNat = if 65 ≤ c.toNat ∧ c.toNat ≤ 90 then c.toNat + 32 else c.toNat := by
  have hupper : (c.val ≥ 'A'.val ∧ c.val ≤ 'Z'.val) ↔ 65 ≤ c.toNat ∧ c.toNat ≤ 90 := by
    simp only [ge_iff_le, UInt32.le_iff_toNat_le]
    exact Iff.rfl
  unfold Char.toLower
  split
  · next h =>
    have hbounds := hupper.mp h
    have hsum : c.toNat + 32 < 4294967296 := by omega
    rw [if_pos hbounds]
    exact (UInt32.toNat_add c.val 32).trans (Nat.mod_eq_of_lt hsum)
  · next h => rw [if_neg fun hbounds => h (hupper.mpr hbounds)]

theorem digitValue_eq (c : Char) : digitValue c =
    if 48 ≤ c.toNat ∧ c.toNat ≤ 57 then c.toNat - 48
    else if 97 ≤ c.toNat ∧ c.toNat ≤ 102 then c.toNat - 87
    else if 65 ≤ c.toNat ∧ c.toNat ≤ 70 then c.toNat - 55
    else 0 := by
  simp only [digitValue, Text.isDigit_iff, Char.le_def, UInt32.le_iff_toNat_le]
  rfl

/-- The case of a digit does not matter for its value. -/
theorem digitValue_toLower (c : Char) : digitValue c.toLower = digitValue c := by
  rw [digitValue_eq, digitValue_eq, toNat_toLower]
  grind

theorem isHexDigit_toLower (c : Char) : isHexDigit c.toLower = isHexDigit c := by
  rw [Bool.eq_iff_iff, Text.isHexDigit_iff, Text.isHexDigit_iff, Text.isDigit_iff, Text.isDigit_iff, toNat_toLower]
  split <;> omega

/-- The case of digits does not matter for the number. -/
theorem ofDigits_map_toLower (base : Nat) (digits : List Char) :
    ofDigits base (digits.map Char.toLower) = ofDigits base digits := by
  simp only [ofDigits, List.foldl_map, digitValue_toLower]

/-- Zeros in front do not matter for the number. -/
theorem ofDigits_replicate_zero_append (base zeros : Nat) (digits : List Char) :
    ofDigits base (List.replicate zeros '0' ++ digits) = ofDigits base digits := by
  have hzeros : ofDigits base (List.replicate zeros '0') = 0 := by
    induction zeros with
    | zero => rfl
    | succ zeros ih =>
      rw [List.replicate_succ', ofDigits_concat, ih, Nat.zero_mul]
      rfl
  rw [ofDigits, List.foldl_append]
  exact congrArg (fun start => List.foldl _ start digits) hzeros

theorem isHexDigit_of_mem_toDigits {n : Nat} {c : Char} (h : c ∈ Nat.toDigits 16 n) : isHexDigit c = true := by
  have hdigit : ∀ d < 16, isHexDigit d.digitChar = true := by decide
  induction n using Nat.strongRecOn with
  | ind n ih =>
    rcases Nat.lt_or_ge n 16 with hlt | hge
    · rw [Nat.toDigits_of_lt_base hlt] at h
      obtain rfl := List.mem_singleton.mp h
      exact hdigit n hlt
    · rw [Nat.toDigits_of_base_le (by decide) hge, List.mem_append] at h
      rcases h with h | h
      · exact ih (n / 16) (by omega) h
      · obtain rfl := List.mem_singleton.mp h
        exact hdigit (n % 16) (Nat.mod_lt n (by decide))

end Decimal

namespace Token

/-! ## Numbers in writing -/

/-- The ways to write a number. -/
inductive IsNumeral (n : Nat) : (text : List Char) → Prop where
  /-- decimal digits, without a needless zero in front -/
  | decimal : IsNumeral n (Nat.toDigits 10 n)
  /-- hexadecimal digits of either case behind their mark, with any number of zeros in front -/
  | hex {x : Char} {digits : List Char} (mark : x = 'x' ∨ x = 'X') (zeros : Nat)
    (digits_eq : digits.map Char.toLower = Nat.toDigits 16 n) :
    IsNumeral n ('0' :: x :: (List.replicate zeros '0' ++ digits))

/-- The complaint about a number above the greatest integer. -/
inductive IsTooLarge : SyntaxError → Prop where
  /-- in decimal digits -/
  | decimal (digits : String) : IsTooLarge (.decimalTooLarge digits)
  /-- in hexadecimal digits -/
  | hex (digits : String) : IsTooLarge (.hexTooLarge digits)

/-- Hexadecimal digits are read as the number they spell, if it is not too large. -/
theorem hexLexeme_digits {digits : List Char} (hne : digits ≠ []) (hall : ∀ d ∈ digits, Decimal.isHexDigit d = true) :
    hexLexeme digits = if Decimal.ofDigits 16 digits < 0x8000000000000000 then
        .ok (.int (Int64.ofInt (Decimal.ofDigits 16 digits)), [])
      else .error (.hexTooLarge (String.ofList digits)) := by
  simp only [hexLexeme, List.takeWhile_eq_self_iff.mpr hall, List.dropWhile_eq_nil_iff.mpr hall,
    List.isEmpty_eq_false_iff.mpr hne, Bool.false_eq_true, if_false, intLiteral?]
  by_cases h : Decimal.ofDigits 16 digits < 0x8000000000000000
  · simp only [if_pos h]
  · simp only [if_neg h]

/-- **A number is read back**, unless it is above the greatest integer; then that is the complaint. -/
theorem lex_numeral {n : Nat} {text : List Char} (h : IsNumeral n text) :
    (n < 0x8000000000000000 → lex text = .ok [.int (Int64.ofInt n)]) ∧
      (0x8000000000000000 ≤ n → ∃ error, lex text = .error error ∧ IsTooLarge error) := by
  cases h with
  | decimal =>
    refine ⟨fun hlt => lex_toDigits hlt, fun hle => ⟨_, ?_, .decimal (String.ofList (Nat.toDigits 10 n))⟩⟩
    rw [lex_toDigits_eq, if_neg (Nat.not_lt.mpr hle)]
  | @hex x digits mark zeros digits_eq =>
    have hvalue : Decimal.ofDigits 16 (List.replicate zeros '0' ++ digits) = n := by
      rw [Decimal.ofDigits_replicate_zero_append, ← Decimal.ofDigits_map_toLower, digits_eq,
        Decimal.ofDigits_toDigits_base (by decide) (by decide)]
    have hall : ∀ d ∈ List.replicate zeros '0' ++ digits, Decimal.isHexDigit d = true := by
      refine List.forall_mem_append.mpr ⟨fun d hd => ?_, fun d hd => ?_⟩
      · obtain rfl := List.eq_of_mem_replicate hd
        decide
      · rw [← Decimal.isHexDigit_toLower]
        exact Decimal.isHexDigit_of_mem_toDigits (digits_eq ▸ List.mem_map_of_mem hd)
    have hne : List.replicate zeros '0' ++ digits ≠ [] := by
      refine List.append_ne_nil_of_right_ne_nil _ ?_
      rintro rfl
      exact Nat.toDigits_ne_nil digits_eq.symm
    have hlexeme := hexLexeme_digits hne hall
    rw [hvalue, ← lexeme_hex mark] at hlexeme
    constructor
    · intro hlt
      rw [if_pos hlt] at hlexeme
      exact lex_of_lexeme (by decide) hlexeme
    · intro hle
      rw [if_neg (Nat.not_lt.mpr hle)] at hlexeme
      refine ⟨_, ?_, .hex (String.ofList (List.replicate zeros '0' ++ digits))⟩
      rw [lex_lexeme (by decide), hlexeme]
      rfl

/-! ## Tokens in writing -/

/-- The ways to write a token. -/
inductive Writes : (text : List Char) → Token → Prop where
  /-- a name, a symbol or an integer, as it is spelled -/
  | plain {token : Token} (plain : token.isPlain = true) : Writes token.spelling token
  /-- an integer as a number -/
  | numeral {n : Nat} {text : List Char} (fits : n < 0x8000000000000000) (numeral : IsNumeral n text) :
    Writes text (.int (Int64.ofInt n))

theorem lex_of_writes {text : List Char} {token : Token} (h : Writes text token) : lex text = .ok [token] := by
  cases h with
  | plain plain => exact lex_spelling plain
  | numeral fits numeral => exact (lex_numeral numeral).1 fits

/-! ## Pieces in writing -/

/-- The text consists of the pieces and blanks. Between neighbours there is at least one blank. -/
inductive Spaced : (pieces : List (List Char)) → (text : List Char) → Prop where
  /-- nothing but blanks -/
  | nil {blanks : List Char} (blank : ∀ c ∈ blanks, isSpace c = true) : Spaced [] blanks
  /-- blanks and a piece, and behind it nothing, or what starts with a blank -/
  | cons {blanks piece text : List Char} {pieces : List (List Char)} (blank : ∀ c ∈ blanks, isSpace c = true)
    (apart : ∀ c ∈ text.head?, isSpace c = true) (more : Spaced pieces text) :
    Spaced (piece :: pieces) (blanks ++ piece ++ text)

/-- No lexeme goes on with a blank. -/
theorem isBound_of_isSpace {c : Char} (h : isSpace c = true) : isBound c = true := by
  simp only [isSpace, Bool.or_eq_true, beq_iff_eq] at h
  rcases h with ((rfl | rfl) | rfl) | rfl <;> decide

/-- The tokens of a piece come first, and then those of what is apart from it. -/
theorem lex_piece {blanks piece text : List Char} (blank : ∀ c ∈ blanks, isSpace c = true)
    (apart : ∀ c ∈ text.head?, isSpace c = true) :
    lex (blanks ++ piece ++ text) = (lex piece).bind fun ts => (lex text).map (ts ++ ·) := by
  rw [List.append_assoc, lex_blanks blank, lex_append fun c hc => isBound_of_isSpace (apart c hc)]

theorem lex_of_forall₂ {pieces : List (List Char)} {text : List Char} (h : Spaced pieces text) {ts : List Token}
    (hts : List.Forall₂ Writes pieces ts) : lex text = .ok ts := by
  induction h generalizing ts with
  | nil blank =>
    cases hts
    have hblanks := lex_blanks blank []
    rwa [List.append_nil, lex_nil] at hblanks
  | cons blank apart _ ih =>
    cases hts with
    | cons writes hmore =>
      rw [lex_piece blank apart, lex_of_writes writes, ih hmore]
      rfl

/-- The first number that is too large is complained about, wherever it stands. -/
theorem exists_lex_eq_error {before after : List (List Char)} {large text : List Char}
    (h : Spaced (before ++ large :: after) text)
    (hbefore : ∀ piece ∈ before, (∃ token, Writes piece token) ∨ ∃ n, 0x8000000000000000 ≤ n ∧ IsNumeral n piece) {n : Nat}
    (hlarge : 0x8000000000000000 ≤ n) (numeral : IsNumeral n large) :
    ∃ error, lex text = .error error ∧ IsTooLarge error := by
  have hfails : ∀ {n : Nat} {blanks piece rest : List Char}, (∀ c ∈ blanks, isSpace c = true) →
      (∀ c ∈ rest.head?, isSpace c = true) → 0x8000000000000000 ≤ n → IsNumeral n piece →
        ∃ error, lex (blanks ++ piece ++ rest) = .error error ∧ IsTooLarge error := by
    intro n blanks piece rest blank apart hn hnumeral
    obtain ⟨error, hlex, htoo⟩ := (lex_numeral hnumeral).2 hn
    refine ⟨error, ?_, htoo⟩
    rw [lex_piece blank apart, hlex]
    rfl
  induction before generalizing text with
  | nil =>
    cases h with
    | cons blank apart _ => exact hfails blank apart hlarge numeral
  | cons piece before ih =>
    obtain ⟨hpiece, hbefore⟩ := List.forall_mem_cons.mp hbefore
    cases h with
    | cons blank apart more =>
      rcases hpiece with ⟨token, writes⟩ | ⟨k, hk, hnumeral⟩
      · obtain ⟨error, hlex, htoo⟩ := ih more hbefore
        refine ⟨error, ?_, htoo⟩
        rw [lex_piece blank apart, lex_of_writes writes, hlex]
        rfl
      · exact hfails blank apart hk hnumeral

/-- **Blanks mean nothing, and numbers keep their value.** Tokens that are written one after another, each in any of its
ways, with blanks between neighbours and any blanks around them, are read back as these tokens and no others. If one of
the pieces is a number above the greatest integer instead, then nothing is read back, and a number that is too large is
complained about; what stands behind it may be anything. -/
theorem lex_of_spaced {pieces : List (List Char)} {text : List Char} (h : Spaced pieces text) :
    (∀ ts, List.Forall₂ Writes pieces ts → lex text = .ok ts) ∧
      ∀ before large after n, pieces = before ++ large :: after →
        (∀ piece ∈ before, (∃ token, Writes piece token) ∨ ∃ k, 0x8000000000000000 ≤ k ∧ IsNumeral k piece) →
          0x8000000000000000 ≤ n → IsNumeral n large → ∃ error, lex text = .error error ∧ IsTooLarge error := by
  refine ⟨fun ts hts => lex_of_forall₂ h hts, fun before large after n hpieces hbefore hlarge numeral => ?_⟩
  subst hpieces
  exact exists_lex_eq_error h hbefore hlarge numeral

/-- Every kind of blank, both ways to write an integer, and the greatest one; a number above it before what is no
lexeme. -/
theorem lex_of_spaced_mixed :
    Spaced ["0X00fF".toList, "<<".toList, "x1".toList, "9223372036854775807".toList]
        "\t0X00fF \r<<\nx1  9223372036854775807 ".toList ∧
      lex "\t0X00fF \r<<\nx1  9223372036854775807 ".toList =
        .ok [.int 255, .shiftLeft, .word "x1", .int 9223372036854775807] ∧
      Spaced ["(".toList, "0x08000000000000000".toList, "0xg".toList] "( 0x08000000000000000\n0xg".toList ∧
      ∃ error, lex "( 0x08000000000000000\n0xg".toList = .error error ∧ IsTooLarge error := by
  have hblank {blanks : List Char} (h : blanks.all isSpace = true) : ∀ c ∈ blanks, isSpace c = true :=
    List.all_eq_true.mp h
  have hapart {text : List Char} (h : text.head?.all isSpace = true) : ∀ c ∈ text.head?, isSpace c = true := by
    intro c hc
    rwa [hc] at h
  have hspaced : Spaced ["0X00fF".toList, "<<".toList, "x1".toList, "9223372036854775807".toList]
      "\t0X00fF \r<<\nx1  9223372036854775807 ".toList :=
    @Spaced.cons ['\t'] _ _ _ (hblank rfl) (hapart rfl) <|
      @Spaced.cons [' ', '\r'] _ _ _ (hblank rfl) (hapart rfl) <|
        @Spaced.cons ['\n'] _ _ _ (hblank rfl) (hapart rfl) <|
          @Spaced.cons [' ', ' '] _ _ _ (hblank rfl) (hapart rfl) <| @Spaced.nil [' '] (hblank rfl)
  have hlarge : Spaced ["(".toList, "0x08000000000000000".toList, "0xg".toList] "( 0x08000000000000000\n0xg".toList :=
    @Spaced.cons [] _ _ _ nofun (hapart rfl) <| @Spaced.cons [' '] _ _ _ (hblank rfl) (hapart rfl) <|
      @Spaced.cons ['\n'] _ _ _ (hblank rfl) nofun <| @Spaced.nil [] nofun
  have hhex : IsNumeral 255 "0X00fF".toList := @IsNumeral.hex 255 'X' ['f', 'F'] (.inr rfl) 2 (by decide)
  have hnumeral : IsNumeral 0x8000000000000000 "0x08000000000000000".toList :=
    @IsNumeral.hex _ 'x' "8000000000000000".toList (.inl rfl) 1 (by decide)
  refine ⟨hspaced, (lex_of_spaced hspaced).1 _ ?_, hlarge,
    (lex_of_spaced hlarge).2 ["(".toList] _ ["0xg".toList] _ rfl ?_ (Nat.le_refl _) hnumeral⟩
  · exact .cons (.numeral (by decide) hhex) <| .cons (@Writes.plain .shiftLeft rfl) <|
      .cons (@Writes.plain (.word "x1") (by decide)) <|
        .cons (@Writes.plain (.int 9223372036854775807) (by decide)) .nil
  · intro piece hpiece
    obtain rfl := List.mem_singleton.mp hpiece
    exact .inl ⟨.leftParen, @Writes.plain .leftParen rfl⟩

end Token

end Interpolate
