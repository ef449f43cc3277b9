import Interpolate.Proofs.FilterParts
import Interpolate.Proofs.Pattern

/-!
# Separators keep texts apart

A filter says of two texts with a separator between them what it says of the first one, and if there is nothing to say
of that, what it says of the second. It cuts the whole into tokens after rewriting it, and the rewriting is where the
texts could run into each other: a word, blanks and a parenthesis are searched for, from left to right, each time behind
what was found before, and the blanks are taken out. But what the search looks for has no separator in it.

* **`calling`**, **`called?`** — the pattern that is searched for, and what is found by it at the front of a text;
* **`Glues`**, **`glues_iff`** — the search through a text, which is what the filter does to it;
* **`illegal?_separator`** — the first token that is not on the list, on the two sides of a separator.
-/

namespace Interpolate

namespace Filter

open Pattern

/-! ## Searching for calls -/

/-- A word, blanks and a parenthesis, and the text after them. -/
def calling : List Pattern.Part :=
  [.one Text.isNameStart, .run Text.isNameChar, .one Text.isBlank, .run Text.isBlank, .one (· == '('), .run fun _ => true]

/-- The word that a text starts with, if blanks and a parenthesis follow it, and the text after these. -/
def called? (text : List Char) : Option (List Char × List Char) :=
  (match? calling text).map fun pieces => (pieces.getD 0 [] ++ pieces.getD 1 [], pieces.getD 5 [])

/-- Blanks and a parenthesis, and what is after them. -/
theorem match?_blanks (text : List Char) :
    match? (calling.drop 2) text =
      if (text.head?.map Text.isBlank) = some true ∧ (Text.trimStart text).head? = some '(' then
        some [text.take 1, text.tail.takeWhile Text.isBlank, ['('], (Text.trimStart text).tail]
      else none := by
  have hapart : ∀ c, Text.isBlank c = true → (c == '(') = false := by
    intro c hc
    rw [beq_eq_false_iff_ne]
    rintro rfl
    exact absurd hc (by decide)
  cases text with
  | nil => rfl
  | cons c text =>
    change match? (.one Text.isBlank :: .run Text.isBlank :: _) (c :: text) = _
    rw [match?, match?_run_one hapart, match?_sign]
    by_cases hc : Text.isBlank c = true
    · rw [Text.trimStart, List.dropWhile_cons_of_pos hc]
      by_cases hparen : (text.dropWhile Text.isBlank).head? = some '('
      · simp [hc, hparen]
      · simp [hc, hparen]
    · simp [hc]

theorem called?_eq (text : List Char) :
    called? text =
      let word := text.takeWhile Text.isNameChar
      let after := text.dropWhile Text.isNameChar
      if Text.isName word = true ∧ (after.head?.map Text.isBlank) = some true ∧
          (Text.trimStart after).head? = some '(' then
        some (word, (Text.trimStart after).tail)
      else none := by
  have hapart : ∀ c, Text.isNameChar c = true → Text.isBlank c = false := fun c => Text.isBlank_eq_false_of_isNameChar
  cases text with
  | nil => rfl
  | cons c text =>
    have hword : match? (calling.drop 1) text =
        (match? (calling.drop 2) (text.dropWhile Text.isNameChar)).map (text.takeWhile Text.isNameChar :: ·) :=
      match?_run_one hapart _ text
    have hcalling : match? calling (c :: text) =
        if Text.isNameStart c then (match? (calling.drop 1) text).map ([c] :: ·) else none := rfl
    dsimp only
    rw [called?, hcalling, Placeholder.isName_takeWhile]
    by_cases hc : Text.isNameStart c = true
    · have hchar := Text.isNameChar_of_isNameStart hc
      rw [List.takeWhile_cons_of_pos hchar, List.dropWhile_cons_of_pos hchar, if_pos hc, hword, match?_blanks]
      by_cases hblanks : (text.dropWhile Text.isNameChar).head?.map Text.isBlank = some true ∧
          (Text.trimStart (text.dropWhile Text.isNameChar)).head? = some '('
      · rw [if_pos hblanks, if_pos ⟨hc, hblanks⟩]
        rfl
      · rw [if_neg hblanks, if_neg fun h => hblanks h.2]
        rfl
    · rw [if_neg hc, if_neg fun h => hc h.1]
      rfl

/-- What is found is a name with blanks and a parenthesis behind it. -/
theorem exists_of_called? {text word rest : List Char} (h : called? text = some (word, rest)) :
    Text.isName word = true ∧
      ∃ blanks : List Char, (∀ c ∈ blanks, Text.isBlank c = true) ∧ blanks ≠ [] ∧ text = word ++ (blanks ++ '(' :: rest) := by
  rw [called?_eq] at h
  dsimp only at h
  split at h
  · next hcall =>
    obtain ⟨hname, hblank, hparen⟩ := hcall
    obtain ⟨rest', hrest⟩ := List.head?_eq_some_iff.mp hparen
    obtain ⟨rfl, rfl⟩ := Prod.mk.inj (Option.some.inj h)
    obtain ⟨blanks, hblanks, hafter⟩ := Text.exists_eq_append_trimStart (text.dropWhile Text.isNameChar)
    refine ⟨hname, blanks, hblanks, ?_, ?_⟩
    · rintro rfl
      rw [hafter, List.nil_append, hparen] at hblank
      exact absurd hblank (by decide)
    · rw [hrest] at hafter
      rw [hrest, List.tail_cons, ← hafter, List.takeWhile_append_dropWhile]
  · cases h

/-! ## Replacing calls -/

/-- The text with the blanks taken out of all calls. The search is made at each place, from left to right, and goes on
behind what it finds. -/
inductive Glues : (text glued : List Char) → Prop where
  /-- nothing is left -/
  | nil : Glues [] []
  /-- the blanks between a word and its parenthesis go -/
  | found {text word rest glued : List Char} (call : called? text = some (word, rest)) (more : Glues rest glued) :
    Glues text (word ++ '(' :: glued)
  /-- there is no call at this place -/
  | skip {c : Char} {text glued : List Char} (plain : called? (c :: text) = none) (more : Glues text glued) :
    Glues (c :: text) (c :: glued)

theorem glue_of_call {text word rest : List Char} (h : called? text = some (word, rest)) :
    glue false text = word ++ '(' :: glue false rest := by
  obtain ⟨hname, blanks, hblanks, -, rfl⟩ := exists_of_called? h
  have hparen : Text.trimStart (blanks ++ '(' :: rest) = '(' :: rest := Text.trimStart_append_blanks hblanks ('(' :: rest)
  have hstart : word.any Text.isNameStart = true := by
    cases word with
    | nil => cases hname
    | cons c word =>
      rw [Text.isName, Bool.and_eq_true] at hname
      simp [hname.1]
  rw [glue_run (Text.isNameChar_of_isName hname), hstart, Bool.or_true, glue_paren hparen]

/-- In front of what is no call it makes no difference whether the text before is a word. -/
theorem glue_word {text : List Char}
    (h : ¬ ((text.dropWhile Text.isNameChar).head?.map Text.isBlank = some true ∧
      (Text.trimStart (text.dropWhile Text.isNameChar)).head? = some '(')) :
    glue true text = glue false text := by
  have hafter : ∀ inWord, glue inWord (text.dropWhile Text.isNameChar) = glue false (text.dropWhile Text.isNameChar) := by
    intro inWord
    have hhead : ∀ d ∈ (text.dropWhile Text.isNameChar).head?, Text.isNameChar d = false := Text.head?_dropWhile
    cases hdrop : text.dropWhile Text.isNameChar with
    | nil => rfl
    | cons d after =>
      rw [hdrop] at h hhead
      by_cases hparen : (Text.trimStart (d :: after)).head? = some '('
      · have hblank : ¬ Text.isBlank d = true := fun hd => h ⟨by simp [hd], hparen⟩
        rw [glue, glue, if_neg hblank, if_neg hblank, hhead d rfl]
        rfl
      · rw [glue_cons (hhead d rfl) hparen, glue_cons (hhead d rfl) hparen]
  have hword : ∀ c ∈ text.takeWhile Text.isNameChar, Text.isNameChar c = true := fun _ => List.mem_takeWhile_imp
  rw [← List.takeWhile_append_dropWhile (p := Text.isNameChar) (l := text), glue_run hword, glue_run hword, hafter,
    hafter (false || _)]

theorem glue_of_no_call {c : Char} {text : List Char} (h : called? (c :: text) = none) :
    glue false (c :: text) = c :: glue false text := by
  rw [glue]
  by_cases hblank : Text.isBlank c = true
  · rw [if_pos hblank, Bool.false_and, if_neg Bool.false_ne_true]
  rw [if_neg hblank]
  by_cases hchar : Text.isNameChar c = true
  · rw [if_pos hchar, Bool.false_or]
    by_cases hstart : Text.isNameStart c = true
    · rw [called?_eq] at h
      simp only [Placeholder.isName_takeWhile, hstart, List.dropWhile_cons_of_pos hchar, true_and, ite_eq_right_iff,
        reduceCtorEq, imp_false] at h
      rw [hstart, glue_word h]
    · rw [Bool.eq_false_iff.mpr hstart]
  · rw [if_neg hchar]

/-- **The filter replaces all calls** that the search finds. -/
theorem glues_iff {text glued : List Char} : Glues text glued ↔ glued = glue false text := by
  constructor
  · intro h
    induction h with
    | nil => rfl
    | found call _ ih => rw [glue_of_call call, ih]
    | skip plain _ ih => rw [glue_of_no_call plain, ih]
  · rintro rfl
    -- on the length: behind a call less is left
    induction hlength : text.length using Nat.strongRecOn generalizing text with
    | ind n ih =>
      subst hlength
      cases text with
      | nil => exact .nil
      | cons c text =>
        cases hcall : called? (c :: text) with
        | none =>
          rw [glue_of_no_call hcall]
          exact .skip hcall (ih _ (by simp) rfl)
        | some found =>
          obtain ⟨word, rest⟩ := found
          obtain ⟨-, blanks, -, -, htext⟩ := exists_of_called? hcall
          have hshorter : rest.length < (c :: text).length := by
            rw [htext]
            simp only [List.length_append, List.length_cons]
            omega
          rw [glue_of_call hcall]
          exact .found hcall (ih _ hshorter rfl)

/-! ## Separators -/

/-- **Separators keep texts apart.** Let a separator stand between two texts. What is searched for is not found across
it: the whole with all calls replaced is the two texts with their calls replaced, and the separator between them. Its
tokens are those of the one text and then those of the other. Hence the first token of the whole that is not on the list
is that of the first text, or that of the second if the first has none, and a filter accepts the whole exactly if it
accepts both. -/
theorem illegal?_separator (filter : Filter) {c : Char} (hc : c ∈ separators) (a b : List Char) :
    (∀ glued : List Char, Glues (a ++ c :: b) glued ↔
      ∃ left right, Glues a left ∧ Glues b right ∧ glued = left ++ c :: right) ∧
    tokens (a ++ c :: b) = tokens a ++ tokens b ∧
    filter.illegal? (a ++ c :: b) = (filter.illegal? a).or (filter.illegal? b) ∧
    (filter.accepts (a ++ c :: b) = true ↔ filter.accepts a = true ∧ filter.accepts b = true) := by
  have hseparator : isSeparator c = true := List.contains_iff_mem.mpr hc
  have htokens := tokens_separator hseparator a b
  have hillegal : filter.illegal? (a ++ c :: b) = (filter.illegal? a).or (filter.illegal? b) := by
    rw [illegal?, htokens, List.find?_append, Option.map_or]
    rfl
  refine ⟨fun glued => ?_, htokens, hillegal, ?_⟩
  · rw [glues_iff, glue_separator hseparator]
    simp only [glues_iff, exists_and_left, exists_eq_left]
  · rw [accepts, hillegal, Option.isNone_or, Bool.and_eq_true]
    rfl

/-- A call in front of the sign and a parenthesis right behind it: the one is replaced, the other belongs to no word, and
the first token that is not on the list is behind the sign. -/
theorem illegal?_separator_sum :
    '+' ∈ separators ∧
      Glues "cos (0) +(secret) - other".toList "cos(0) +(secret) - other".toList ∧
      standard.illegal? "cos (0) +(secret) - other".toList = some "secret" ∧
      standard.accepts "cos (0) +(secret) - other".toList = false := by
  have hsign : '+' ∈ separators := by decide
  obtain ⟨hglues, -, hillegal, haccepts⟩ :=
    illegal?_separator standard hsign "cos (0) ".toList "(secret) - other".toList
  have hsecond : standard.accepts "(secret) - other".toList = false := by decide +kernel
  refine ⟨hsign, ?_, ?_, ?_⟩
  · exact (hglues _).mpr ⟨"cos(0) ".toList, "(secret) - other".toList, glues_iff.mpr rfl, glues_iff.mpr rfl, rfl⟩
  · exact hillegal.trans (by decide +kernel)
  · exact Bool.eq_false_iff.mpr fun h => Bool.eq_false_iff.mp hsecond (haccepts.mp h).2

end Filter

end Interpolate
