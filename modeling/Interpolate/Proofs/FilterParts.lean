import Interpolate.Proofs.FilterTokens

/-!
# The filter, part by part

A text falls into parts that the filter looks at one by one. Separators stand between parts and are never looked at
themselves; a blank in front of a part changes nothing; and a parenthesis is a token of its own, or belongs to the word
right before it.

* **`tokens_separator`** — the tokens on the two sides of a separator;
* **`tokens_blank`**, **`tokens_paren`**, **`tokens_word_paren`** — the tokens of a text that starts with a blank,
  with a parenthesis, or with a word and a parenthesis;
* **`tokens_run_append`** — the tokens of a text that starts with a run of the characters of names;
* **`allowsToken_alone`**, **`allowsToken_called`** — words that are permitted are on the list.
-/

namespace Interpolate

/-! ## Words -/

namespace Text

/-- The words on the two sides of a blank. -/
theorem words_append (p : List Char) {c : Char} (hc : isBlank c = true) (q : List Char) :
    words (p ++ c :: q) = words p ++ words q := by
  rw [words, pieces_append p hc, List.filter_append]
  rfl

theorem words_blank {c : Char} (hc : isBlank c = true) (q : List Char) : words (c :: q) = words q :=
  words_append [] hc q

/-- Without a blank a text is one word. -/
theorem words_eq_singleton {w : List Char} (hne : w ≠ []) (hw : ∀ c ∈ w, isBlank c = false) : words w = [w] := by
  rw [words, pieces_eq_singleton hw]
  cases w with
  | nil => exact absurd rfl hne
  | cons c w => rfl

end Text

namespace Filter

/-! ## Separators -/

/-- A separator behind a text opens no parenthesis after it. -/
theorem head?_trimStart_separator {c : Char} (hc : isSeparator c = true) (a b : List Char) :
    ((Text.trimStart (a ++ c :: b)).head? == some '(') = ((Text.trimStart a).head? == some '(') := by
  induction a with
  | nil =>
    have hblank : ¬ Text.isBlank c = true := by simp [isBlank_of_isSeparator hc]
    rw [List.nil_append, Text.trimStart, List.dropWhile_cons_of_neg hblank]
    simpa [Text.trimStart] using ne_paren_of_isSeparator hc
  | cons d a ih =>
    by_cases hblank : Text.isBlank d = true
    · rw [List.cons_append, Text.trimStart, Text.trimStart, List.dropWhile_cons_of_pos hblank,
        List.dropWhile_cons_of_pos hblank]
      exact ih
    · rw [List.cons_append, Text.trimStart, Text.trimStart, List.dropWhile_cons_of_neg hblank,
        List.dropWhile_cons_of_neg hblank]
      rfl

/-- The rewriting goes on after a separator as if the text began there. -/
theorem glue_separator {c : Char} (hc : isSeparator c = true) (inWord : Bool) (a b : List Char) :
    glue inWord (a ++ c :: b) = glue inWord a ++ c :: glue false b := by
  induction a generalizing inWord with
  | nil =>
    have hblank : ¬ Text.isBlank c = true := by simp [isBlank_of_isSeparator hc]
    have hname : ¬ Text.isNameChar c = true := by simp [isNameChar_eq_false_of_isSeparator hc]
    change glue inWord (c :: b) = c :: glue false b
    rw [glue, if_neg hblank, if_neg hname]
  | cons d a ih =>
    rw [List.cons_append, glue, glue, head?_trimStart_separator hc]
    split
    · split
      · exact ih inWord
      · rw [ih false, List.cons_append]
    · split
      · rw [ih, List.cons_append]
      · rw [ih, List.cons_append]

/-! ## Tokens -/

/-- The tokens on the two sides of a separator, which is none itself. -/
theorem tokens_separator {c : Char} (hc : isSeparator c = true) (a b : List Char) :
    tokens (a ++ c :: b) = tokens a ++ tokens b := by
  rw [tokens, glue_separator hc, List.flatMap_append, List.flatMap_cons, spread_of_isSeparator hc,
    List.singleton_append, Text.words_append _ (by decide)]
  rfl

theorem tokens_nil : tokens [] = [] := rfl

/-- A blank in front of a text changes nothing. -/
theorem tokens_blank {c : Char} (hc : Text.isBlank c = true) (text : List Char) :
    tokens (c :: text) = tokens text := by
  rw [tokens, glue, if_pos hc, Bool.false_and, if_neg Bool.false_ne_true, List.flatMap_cons, spread_of_isBlank hc,
    List.singleton_append, Text.words_blank hc]
  rfl

/-- Separators in front of a text change nothing. -/
theorem tokens_separators {w : List Char} (hw : ∀ c ∈ w, isSeparator c = true) (text : List Char) :
    tokens (w ++ text) = tokens text := by
  induction w with
  | nil => rfl
  | cons c w ih =>
    have hc := hw c (List.mem_cons_self ..)
    have htail := ih fun d hd => hw d (List.mem_cons_of_mem _ hd)
    rw [List.cons_append, ← htail]
    exact tokens_separator hc [] (w ++ text)

/-- So do all blanks in front of it. -/
theorem tokens_trimStart (text : List Char) : tokens (Text.trimStart text) = tokens text := by
  induction text with
  | nil => rfl
  | cons c text ih =>
    by_cases hc : Text.isBlank c = true
    · rw [Text.trimStart, List.dropWhile_cons_of_pos hc, tokens_blank hc]
      exact ih
    · rw [Text.trimStart, List.dropWhile_cons_of_neg hc]

/-- A parenthesis in front of a text is a token. -/
theorem tokens_paren (text : List Char) : tokens ('(' :: text) = ['('] :: tokens text := by
  have hglue : glue false ('(' :: text) = '(' :: glue false text := rfl
  have hwords := Text.words_append ['('] (c := ' ') (by decide) ((glue false text).flatMap spread)
  rw [tokens, hglue, List.flatMap_cons]
  exact hwords

/-- A text of the characters of names is one token. -/
theorem tokens_run {w : List Char} (hne : w ≠ []) (hw : ∀ c ∈ w, Text.isNameChar c = true) : tokens w = [w] := by
  have hglue : glue false w = w := by
    have hrun := glue_run hw false []
    simpa [glue] using hrun
  rw [tokens, hglue, flatMap_spread_of_isNameChar hw]
  exact Text.words_eq_singleton hne fun c hc => Text.isBlank_eq_false_of_isNameChar (hw c hc)

/-- A word in front of a parenthesis is one token with it, whether a blank stands between them or not. -/
theorem tokens_word_paren {w : List Char} (hw : ∀ c ∈ w, Text.isNameChar c = true)
    (hstart : ∃ c ∈ w, Text.isNameStart c = true) {after text : List Char}
    (hafter : Text.trimStart after = '(' :: text) : tokens (w ++ after) = (w ++ ['(']) :: tokens text := by
  have hglue : glue false (w ++ after) = w ++ '(' :: glue false text := by
    rw [glue_run hw, List.any_eq_true.mpr hstart, Bool.or_true, glue_paren hafter]
  have hblank : ∀ c ∈ w ++ ['('], Text.isBlank c = false := by
    intro c hc
    rcases List.mem_append.mp hc with hc | hc
    · exact Text.isBlank_eq_false_of_isNameChar (hw c hc)
    · obtain rfl := List.mem_singleton.mp hc
      decide
  have hwords := Text.words_append (w ++ ['(']) (c := ' ') (by decide) ((glue false text).flatMap spread)
  rw [Text.words_eq_singleton (by simp) hblank, List.append_assoc] at hwords
  rw [tokens, hglue, List.flatMap_append, flatMap_spread_of_isNameChar hw, List.flatMap_cons]
  exact hwords

/-- A run in front of a text is one token, unless it is called. -/
theorem tokens_run_append {w after : List Char} (hne : w ≠ []) (hw : ∀ c ∈ w, Text.isNameChar c = true)
    (hright : ∀ d ∈ after.head?, IsOrdinary d ∧ Text.isNameChar d = false)
    (hparen : (Text.trimStart after).head? ≠ some '(') : tokens (w ++ after) = w :: tokens after := by
  cases after with
  | nil => rw [List.append_nil, tokens_run hne hw, tokens_nil]
  | cons d after =>
    obtain ⟨hordinary, hname⟩ := hright d rfl
    have hopen : d ≠ '(' := by
      rintro rfl
      exact hparen rfl
    obtain ⟨b, hb, hspread⟩ := exists_spread_eq_blank hordinary hname hopen
    have hblank : ∀ c ∈ w, Text.isBlank c = false := fun c hc => Text.isBlank_eq_false_of_isNameChar (hw c hc)
    have hafter : tokens (d :: after) = Text.words ((glue false after).flatMap spread) := by
      rw [tokens, glue_cons hname hparen, List.flatMap_cons, hspread, List.singleton_append, Text.words_blank hb]
    rw [hafter, tokens, glue_run hw, glue_cons hname hparen, List.flatMap_append, flatMap_spread_of_isNameChar hw,
      List.flatMap_cons, hspread, List.singleton_append, Text.words_append w hb, Text.words_eq_singleton hne hblank]
    rfl

/-! ## Words on the list -/

variable {filter : Filter}

/-- A word that is permitted is on the list. -/
theorem allowsToken_alone {w : List Char} (hw : ∀ c ∈ w, Text.isNameChar c = true)
    (h : filter.Permits False (String.ofList w)) : filter.allowsToken w = true := by
  have hlast : w.getLast? ≠ some '(' := fun hparen => absurd (hw '(' (List.mem_of_getLast? hparen)) (by decide)
  rw [allowsToken]
  split
  · rfl
  · dsimp only
    split
    · rfl
    · next hwords =>
      simp only [Bool.or_eq_true, List.contains_iff_mem, not_or] at hwords
      rw [if_neg (by simpa using hlast)]
      rcases h.alone not_false with hconstant | htruth | hlogic
      · exact List.contains_iff_mem.mpr hconstant
      · exact absurd htruth hwords.1
      · exact absurd hlogic hwords.2

/-- A word that is permitted as a function is on the list together with a parenthesis. -/
theorem allowsToken_called {w : List Char} (h : filter.Permits True (String.ofList w)) :
    filter.allowsToken (w ++ ['(']) = true := by
  rw [allowsToken]
  split
  · rfl
  · dsimp only
    split
    · rfl
    · simpa using h.call trivial

end Filter

end Interpolate
