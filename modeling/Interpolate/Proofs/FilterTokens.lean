import Interpolate.Filter
import Interpolate.Proofs.Text

/-!
# The tokens of a filter

What it says about a text that a filter accepts it, place by place. The filter rewrites the text before it cuts it
into tokens: blanks between a word and its parenthesis go, and separators become blanks. Neither touches a
**run**, a stretch of the characters of names with none of them before or after it.

* **`glue_append`**, **`glue_run`** — a run comes through the rewriting, and with it a parenthesis after it;
* **`Permits`** — the filter has a word on its list, called or alone;
* **`ordinary_of_accepts`** — the characters of an accepted text;
* **`permits_of_accepts`** — a run of an accepted text is a hexadecimal numeral or a word that is permitted.
-/

namespace Interpolate

namespace Filter

/-! ## The characters of an accepted text -/

/-- A character that an accepted text may have. -/
def IsOrdinary (c : Char) : Prop :=
  Text.isBlank c = true ∨ isSeparator c = true ∨ c = '(' ∨ Text.isNameChar c = true

instance (c : Char) : Decidable (IsOrdinary c) :=
  inferInstanceAs (Decidable (_ ∨ _ ∨ _ ∨ _))

theorem isNameChar_eq_false_of_isSeparator {c : Char} (h : isSeparator c = true) : Text.isNameChar c = false := by
  have hall : separators.all (fun c => !Text.isNameChar c) = true := by decide
  simpa using List.all_eq_true.mp hall c (List.contains_iff_mem.mp h)

theorem spread_ne_nil (c : Char) : spread c ≠ [] := by
  rw [spread]
  split
  · simp
  · split <;> simp

/-- A character of a name stays what it is. -/
theorem spread_of_isNameChar {c : Char} (h : Text.isNameChar c = true) : spread c = [c] := by
  rw [spread]
  rw [if_neg, if_neg]
  · intro hseparator
    rw [isNameChar_eq_false_of_isSeparator hseparator] at h
    cases h
  · rw [beq_iff_eq]
    rintro rfl
    exact absurd h (by decide)

theorem flatMap_spread_of_isNameChar {w : List Char} (hw : ∀ c ∈ w, Text.isNameChar c = true) :
    w.flatMap spread = w := by
  induction w with
  | nil => rfl
  | cons c w ih =>
    rw [List.flatMap_cons, spread_of_isNameChar (hw c (List.mem_cons_self ..)),
      ih fun d hd => hw d (List.mem_cons_of_mem _ hd), List.singleton_append]

theorem isBlank_of_isSeparator {c : Char} (h : isSeparator c = true) : Text.isBlank c = false := by
  have hall : separators.all (fun c => !Text.isBlank c) = true := by decide
  simpa using List.all_eq_true.mp hall c (List.contains_iff_mem.mp h)

theorem ne_paren_of_isSeparator {c : Char} (h : isSeparator c = true) : c ≠ '(' := by
  rintro rfl
  exact absurd h (by decide)

theorem spread_of_isSeparator {c : Char} (h : isSeparator c = true) : spread c = [' '] := by
  rw [spread, if_neg (by simpa using ne_paren_of_isSeparator h), if_pos h]

theorem spread_of_isBlank {c : Char} (h : Text.isBlank c = true) : spread c = [c] := by
  have hparen : c ≠ '(' := by
    rintro rfl
    exact absurd h (by decide)
  have hseparator : ¬ isSeparator c = true := by
    intro hseparator
    rw [isBlank_of_isSeparator hseparator] at h
    cases h
  rw [spread, if_neg (by simpa using hparen), if_neg hseparator]

/-- Every character that can stand next to a run, a parenthesis apart, is written as a blank. -/
theorem exists_spread_eq_blank {d : Char} (hd : IsOrdinary d) (hname : Text.isNameChar d = false) (hne : d ≠ '(') :
    ∃ b, Text.isBlank b = true ∧ spread d = [b] := by
  rcases hd with hblank | hseparator | hparen | hnameChar
  · exact ⟨d, hblank, spread_of_isBlank hblank⟩
  · exact ⟨' ', by decide, spread_of_isSeparator hseparator⟩
  · exact absurd hparen hne
  · rw [hname] at hnameChar
    cases hnameChar

/-- Every character that can stand before a run leaves a blank there. -/
theorem isBlank_getLast?_spread {d : Char} (hd : IsOrdinary d) (hname : Text.isNameChar d = false) :
    ∀ c ∈ (spread d).getLast?, Text.isBlank c = true := by
  by_cases hparen : d = '('
  · subst hparen
    simp [spread, Text.isBlank, Text.blankRanges]
  · obtain ⟨b, hb, hspread⟩ := exists_spread_eq_blank hd hname hparen
    simpa [hspread] using hb

/-- Every character that can stand after a run, a parenthesis apart, leaves a blank there. -/
theorem isBlank_head?_spread {d : Char} (hd : IsOrdinary d) (hname : Text.isNameChar d = false) (hne : d ≠ '(') :
    ∀ c ∈ (spread d).head?, Text.isBlank c = true := by
  obtain ⟨b, hb, hspread⟩ := exists_spread_eq_blank hd hname hne
  simpa [hspread] using hb

/-! ## The rewriting around a run -/

/-- What stands before a run is rewritten on its own, and ends as it did. -/
theorem glue_append {before after : List Char} (hne : before ≠ [])
    (hlast : ∀ d ∈ before.getLast?, Text.isNameChar d = false) (hafter : (Text.trimStart after).head? ≠ some '(')
    (inWord : Bool) :
    ∃ rewritten, glue inWord (before ++ after) = rewritten ++ glue false after ∧
      rewritten.getLast? = before.getLast? := by
  induction before generalizing inWord with
  | nil => exact absurd rfl hne
  | cons d before ih =>
    rw [List.cons_append, glue]
    cases before with
    | nil =>
      -- the last character: a blank here stays, since no parenthesis follows
      have hd : Text.isNameChar d = false := hlast d rfl
      refine ⟨[d], ?_, rfl⟩
      simp [hd, hafter]
    | cons d' before =>
      have hrest := ih (by simp) (by simpa using hlast)
      split
      · split
        · obtain ⟨rewritten, heq, hend⟩ := hrest inWord
          exact ⟨rewritten, heq, by simpa using hend⟩
        · obtain ⟨rewritten, heq, hend⟩ := hrest false
          exact ⟨d :: rewritten, by rw [heq, List.cons_append], by simp [List.getLast?_cons, hend]⟩
      · split
        · obtain ⟨rewritten, heq, hend⟩ := hrest (inWord || Text.isNameStart d)
          exact ⟨d :: rewritten, by rw [heq, List.cons_append], by simp [List.getLast?_cons, hend]⟩
        · obtain ⟨rewritten, heq, hend⟩ := hrest false
          exact ⟨d :: rewritten, by rw [heq, List.cons_append], by simp [List.getLast?_cons, hend]⟩

/-- A run stays what it is; after it the text is in a word if the run has a letter or an underscore. -/
theorem glue_run {w : List Char} (hw : ∀ c ∈ w, Text.isNameChar c = true) (inWord : Bool) (after : List Char) :
    glue inWord (w ++ after) = w ++ glue (inWord || w.any Text.isNameStart) after := by
  induction w generalizing inWord with
  | nil => simp
  | cons c w ih =>
    have hc := hw c (List.mem_cons_self ..)
    have hblank : Text.isBlank c ≠ true := by simp [Text.isBlank_eq_false_of_isNameChar hc]
    rw [List.cons_append, glue, if_neg hblank, if_pos hc, ih fun d hd => hw d (List.mem_cons_of_mem _ hd)]
    simp [Bool.or_assoc]

/-- The blanks between a word and a parenthesis go. -/
theorem glue_paren {after rest : List Char} (h : Text.trimStart after = '(' :: rest) :
    glue true after = '(' :: glue false rest := by
  induction after with
  | nil => cases h
  | cons c after ih =>
    rw [glue]
    by_cases hc : Text.isBlank c = true
    · have htrim : Text.trimStart after = '(' :: rest := by
        rwa [Text.trimStart, List.dropWhile_cons_of_pos hc] at h
      rw [if_pos hc, htrim]
      exact ih htrim
    · rw [Text.trimStart, List.dropWhile_cons_of_neg hc] at h
      cases h
      rfl

/-- Where no parenthesis follows, the first character after a run stays. -/
theorem glue_cons {c : Char} {after : List Char} (hname : Text.isNameChar c = false)
    (h : (Text.trimStart (c :: after)).head? ≠ some '(') (inWord : Bool) :
    glue inWord (c :: after) = c :: glue false after := by
  rw [glue]
  by_cases hc : Text.isBlank c = true
  · rw [Text.trimStart, List.dropWhile_cons_of_pos hc] at h
    rw [if_pos hc, if_neg]
    simpa [Text.trimStart] using fun _ => h
  · rw [if_neg hc, hname]
    rfl

/-- A run comes through the rewriting, with the text before it ending as it did. -/
theorem glue_around_run {before w : List Char} (hw : ∀ c ∈ w, Text.isNameChar c = true)
    (hstart : ∃ c ∈ w, Text.isNameStart c = true) (hleft : ∀ d ∈ before.getLast?, Text.isNameChar d = false)
    (after : List Char) :
    ∃ rewritten, glue false (before ++ w ++ after) = rewritten ++ (w ++ glue true after) ∧
      rewritten.getLast? = before.getLast? := by
  have hrun : glue false (w ++ after) = w ++ glue true after := by
    rw [glue_run hw, List.any_eq_true.mpr hstart, Bool.or_true]
  rw [List.append_assoc, ← hrun]
  by_cases hne : before = []
  · exact ⟨[], by rw [hne, List.nil_append, List.nil_append], by rw [hne]⟩
  · refine glue_append hne hleft ?_ false
    cases w with
    | nil =>
      obtain ⟨c, hc, -⟩ := hstart
      cases hc
    | cons c w =>
      have hc := hw c (List.mem_cons_self ..)
      have hblank : ¬ Text.isBlank c = true := by simp [Text.isBlank_eq_false_of_isNameChar hc]
      rw [List.cons_append, Text.trimStart, List.dropWhile_cons_of_neg hblank]
      rintro h
      obtain rfl := Option.some.inj h
      exact absurd hc (by decide)

/-- The rewriting leaves all characters but blanks where they are. -/
theorem mem_glue {text : List Char} {c : Char} (hc : Text.isBlank c = false) (h : c ∈ text) (inWord : Bool) :
    c ∈ glue inWord text := by
  induction text generalizing inWord with
  | nil => cases h
  | cons d text ih =>
    rw [glue]
    rcases List.mem_cons.mp h with rfl | h
    · rw [if_neg (by simp [hc])]
      split <;> exact List.mem_cons_self ..
    · split
      · split
        · exact ih h _
        · exact List.mem_cons_of_mem _ (ih h _)
      · split <;> exact List.mem_cons_of_mem _ (ih h _)

/-! ## The list -/

/-- Every name that the filter allows has the form of a name. -/
def IsNamed (filter : Filter) : Prop :=
  ∀ x, x ∈ filter.functions ∨ x ∈ filter.constants → Text.isName x.toList = true

/-- The mathematical library has names of that form. -/
theorem standard_isNamed : standard.IsNamed := by
  have hfunctions : standard.functions.all (fun x => Text.isName x.toList) = true := by decide +kernel
  have hconstants : standard.constants.all (fun x => Text.isName x.toList) = true := by decide +kernel
  rintro x (hx | hx)
  · exact List.all_eq_true.mp hfunctions x hx
  · exact List.all_eq_true.mp hconstants x hx

/-- The filter has a word on its list: as a function if it is called, as a constant otherwise. -/
structure Permits (filter : Filter) (called : Prop) (x : String) : Prop where
  /-- with a parenthesis after it -/
  call : called → x ∈ filter.functions ∨ x ∈ logicWords
  /-- without -/
  alone : ¬ called → x ∈ filter.constants ∨ x ∈ truthWords ∨ x ∈ logicWords

/-- Words of logic may stand everywhere. -/
theorem permits_logic {filter : Filter} {x : String} (h : x ∈ logicWords) (called : Prop) : filter.Permits called x :=
  ⟨fun _ => .inr h, fun _ => .inr (.inr h)⟩

theorem Permits.isName {filter : Filter} (hnamed : filter.IsNamed) {called : Prop} {x : String}
    (h : filter.Permits called x) : Text.isName x.toList = true := by
  have htruth : ∀ x ∈ truthWords, Text.isName x.toList = true := by decide
  have hlogic : ∀ x ∈ logicWords, Text.isName x.toList = true := by decide
  by_cases hcalled : called
  · rcases h.call hcalled with hx | hx
    · exact hnamed x (.inl hx)
    · exact hlogic x hx
  · rcases h.alone hcalled with hx | hx | hx
    · exact hnamed x (.inr hx)
    · exact htruth x hx
    · exact hlogic x hx

/-- What the tokens on the list are. -/
theorem cases_of_allowsToken {filter : Filter} {token : List Char} (h : filter.allowsToken token = true) :
    token = ['('] ∨ isDecimal token = true ∨ isHex token = true ∨ filter.Permits False (String.ofList token) ∨
      ∃ name, token = name ++ ['('] ∧ filter.Permits True (String.ofList name) := by
  rw [allowsToken] at h
  split at h
  · next hfixed =>
    simp only [Bool.or_eq_true, beq_iff_eq] at hfixed
    rcases hfixed with (hparen | hdecimal) | hhex
    · exact .inl hparen
    · exact .inr (.inl hdecimal)
    · exact .inr (.inr (.inl hhex))
  · dsimp only at h
    split at h
    · next hword =>
      simp only [Bool.or_eq_true, List.contains_iff_mem] at hword
      exact .inr (.inr (.inr (.inl ⟨False.elim, fun _ => .inr hword⟩)))
    · split at h
      · next hlast =>
        obtain ⟨name, rfl⟩ := List.getLast?_eq_some_iff.mp (beq_iff_eq.mp hlast)
        rw [List.dropLast_concat] at h
        simp only [Bool.or_eq_true, List.contains_iff_mem] at h
        exact .inr (.inr (.inr (.inr ⟨name, rfl, fun _ => h, fun hnot => absurd trivial hnot⟩)))
      · exact .inr (.inr (.inr (.inl ⟨False.elim, fun _ => .inl (List.contains_iff_mem.mp h)⟩)))

theorem isNameChar_of_isHex {token : List Char} (h : isHex token = true) :
    ∀ c ∈ token, Text.isNameChar c = true := by
  unfold isHex at h
  split at h
  · next x digits =>
    simp only [Bool.and_eq_true, Bool.or_eq_true, beq_iff_eq, List.all_eq_true] at h
    obtain ⟨⟨hx, -⟩, hdigits⟩ := h
    intro c hc
    rcases List.mem_cons.mp hc with rfl | hc
    · decide
    · rcases List.mem_cons.mp hc with rfl | hc
      · rcases hx with rfl | rfl <;> decide
      · exact Text.isNameChar_of_isHexDigit (hdigits c hc)
  · cases h

theorem exists_cons_of_isHex {token : List Char} (h : isHex token = true) : ∃ rest, token = '0' :: rest := by
  unfold isHex at h
  split at h
  · exact ⟨_, rfl⟩
  · cases h

/-! ## Accepted texts -/

/-- A text is accepted if each of its tokens is on the list. -/
theorem accepts_iff {filter : Filter} {text : List Char} :
    filter.accepts text = true ↔ ∀ token ∈ tokens text, filter.allowsToken token = true := by
  simp [accepts, illegal?, Option.isNone_iff_eq_none, List.find?_eq_none]

theorem allowsToken_of_accepts {filter : Filter} {text : List Char} (h : filter.accepts text = true)
    {token : List Char} (htoken : token ∈ tokens text) : filter.allowsToken token = true :=
  accepts_iff.mp h token htoken

/-- A token on the list has ordinary characters only. -/
theorem ordinary_of_allowsToken {filter : Filter} (hnamed : filter.IsNamed) {token : List Char}
    (h : filter.allowsToken token = true) {c : Char} (hc : c ∈ token) : IsOrdinary c := by
  rcases cases_of_allowsToken h with rfl | hdecimal | hhex | hword | ⟨name, rfl, hname⟩
  · exact .inr (.inr (.inl (List.mem_singleton.mp hc)))
  · simp only [isDecimal, Bool.and_eq_true, List.all_eq_true, Bool.or_eq_true, beq_iff_eq] at hdecimal
    rcases hdecimal.2 c hc with hdigit | rfl
    · exact .inr (.inr (.inr (Text.isNameChar_iff.mpr (.inr hdigit))))
    · exact .inr (.inl (by decide))
  · exact .inr (.inr (.inr (isNameChar_of_isHex hhex c hc)))
  · have hisName := hword.isName hnamed
    rw [String.toList_ofList] at hisName
    exact .inr (.inr (.inr (Text.isNameChar_of_isName hisName c hc)))
  · have hisName := hname.isName hnamed
    rw [String.toList_ofList] at hisName
    rcases List.mem_append.mp hc with hc | hc
    · exact .inr (.inr (.inr (Text.isNameChar_of_isName hisName c hc)))
    · exact .inr (.inr (.inl (List.mem_singleton.mp hc)))

/-- An accepted text has ordinary characters only. -/
theorem ordinary_of_accepts {filter : Filter} (hnamed : filter.IsNamed) {text : List Char}
    (h : filter.accepts text = true) {c : Char} (hc : c ∈ text) : IsOrdinary c := by
  by_cases hblank : Text.isBlank c = true
  · exact .inl hblank
  by_cases hseparator : isSeparator c = true
  · exact .inr (.inl hseparator)
  by_cases hparen : c = '('
  · exact .inr (.inr (.inl hparen))
  -- any other character comes through the rewriting into a token
  have hspread : c ∈ spread c := by simp [spread, hparen, hseparator]
  have hblank : Text.isBlank c = false := by simpa using hblank
  have hmem : c ∈ (glue false text).flatMap spread := List.mem_flatMap.mpr ⟨c, mem_glue hblank hc false, hspread⟩
  obtain ⟨token, htoken, hctoken⟩ := Text.exists_word_of_mem hblank hmem
  exact ordinary_of_allowsToken hnamed (allowsToken_of_accepts h htoken) hctoken

/-- What stands before a run leaves a blank there. -/
theorem isBlank_getLast?_flatMap {before : List Char}
    (h : ∀ d ∈ before.getLast?, IsOrdinary d ∧ Text.isNameChar d = false) :
    ∀ c ∈ (before.flatMap spread).getLast?, Text.isBlank c = true := by
  rcases List.eq_nil_or_concat before with rfl | ⟨init, d, rfl⟩
  · simp
  · obtain ⟨hordinary, hname⟩ := h d (by simp)
    intro c hc
    rw [List.concat_eq_append, List.flatMap_append, List.flatMap_singleton, List.getLast?_append] at hc
    cases hlast : (spread d).getLast? with
    | none => exact absurd (List.getLast?_eq_none_iff.mp hlast) (spread_ne_nil d)
    | some c' =>
      rw [hlast] at hc
      obtain rfl := Option.some.inj hc
      exact isBlank_getLast?_spread hordinary hname _ hlast

/-- What stands after a run that no parenthesis follows leaves a blank there. -/
theorem isBlank_head?_flatMap {after : List Char}
    (h : ∀ d ∈ after.head?, IsOrdinary d ∧ Text.isNameChar d = false)
    (hparen : (Text.trimStart after).head? ≠ some '(') :
    ∀ c ∈ ((glue true after).flatMap spread).head?, Text.isBlank c = true := by
  cases after with
  | nil => simp [glue]
  | cons d after =>
    obtain ⟨hordinary, hname⟩ := h d rfl
    have hne : d ≠ '(' := by
      rintro rfl
      exact hparen rfl
    intro c hc
    rw [glue_cons hname hparen, List.flatMap_cons, List.head?_append] at hc
    cases hhead : (spread d).head? with
    | none => exact absurd (List.head?_eq_none_iff.mp hhead) (spread_ne_nil d)
    | some c' =>
      rw [hhead] at hc
      obtain rfl := Option.some.inj hc
      exact isBlank_head?_spread hordinary hname hne _ hhead

/-- A run, with the parenthesis after it if there is one, is a token. -/
theorem mem_tokens_of_run {before w after : List Char} (hordinary : ∀ c ∈ before ++ w ++ after, IsOrdinary c)
    (hw : ∀ c ∈ w, Text.isNameChar c = true) (hstart : ∃ c ∈ w, Text.isNameStart c = true)
    (hleft : ∀ d ∈ before.getLast?, Text.isNameChar d = false)
    (hright : ∀ d ∈ after.head?, Text.isNameChar d = false) :
    (if (Text.trimStart after).head? = some '(' then w ++ ['('] else w) ∈ tokens (before ++ w ++ after) := by
  obtain ⟨rewritten, hglue, hlast⟩ := glue_around_run hw hstart hleft after
  have hblank : ∀ c ∈ w, Text.isBlank c = false := fun c hc => Text.isBlank_eq_false_of_isNameChar (hw c hc)
  have hbefore : ∀ c ∈ (rewritten.flatMap spread).getLast?, Text.isBlank c = true := by
    refine isBlank_getLast?_flatMap fun d hd => ?_
    rw [hlast] at hd
    exact ⟨hordinary d (by simp [List.mem_of_getLast? hd]), hleft d hd⟩
  -- rewritten, the run stands between blanks, or the run with its parenthesis does
  rw [tokens, hglue, List.flatMap_append, List.flatMap_append, flatMap_spread_of_isNameChar hw]
  split
  · next hparen =>
    obtain ⟨rest, hrest⟩ := List.head?_eq_some_iff.mp hparen
    have hcall : ∀ c ∈ w ++ ['('], Text.isBlank c = false := by
      intro c hc
      rcases List.mem_append.mp hc with hc | hc
      · exact hblank c hc
      · obtain rfl := List.mem_singleton.mp hc
        decide
    have hmem := Text.mem_words_of_between (q := ' ' :: (glue false rest).flatMap spread) (by simp) hcall hbefore
      (by simp [Text.isBlank, Text.blankRanges])
    simpa [glue_paren hrest, spread] using hmem
  · next hparen =>
    have hne : w ≠ [] := by
      rintro rfl
      obtain ⟨c, hc, -⟩ := hstart
      cases hc
    rw [← List.append_assoc]
    refine Text.mem_words_of_between hne hblank hbefore (isBlank_head?_flatMap (fun d hd => ?_) hparen)
    exact ⟨hordinary d (by simp [List.mem_of_head? hd]), hright d hd⟩

/-- A run that is on the list is a hexadecimal numeral or a word that stands alone. -/
theorem permits_alone {filter : Filter} {w : List Char} (h : filter.allowsToken w = true)
    (hw : ∀ c ∈ w, Text.isNameChar c = true) (hstart : ∃ c ∈ w, Text.isNameStart c = true) :
    isHex w = true ∨ filter.Permits False (String.ofList w) := by
  rcases cases_of_allowsToken h with rfl | hdecimal | hhex | hword | ⟨name, rfl, -⟩
  · exact absurd (hw '(' (by simp)) (by decide)
  · obtain ⟨c, hc, hname⟩ := hstart
    simp only [isDecimal, Bool.and_eq_true, List.all_eq_true, Bool.or_eq_true, beq_iff_eq] at hdecimal
    rcases hdecimal.2 c hc with hdigit | rfl
    · rw [Text.isDigit_eq_false_of_isNameStart hname] at hdigit
      cases hdigit
    · exact absurd hname (by decide)
  · exact .inl hhex
  · exact .inr hword
  · exact absurd (hw '(' (by simp)) (by decide)

/-- A run that is on the list together with a parenthesis is a word that is called. -/
theorem permits_called {filter : Filter} (hnamed : filter.IsNamed) {w : List Char}
    (h : filter.allowsToken (w ++ ['(']) = true) (hne : w ≠ []) : filter.Permits True (String.ofList w) := by
  have hparen : '(' ∈ w ++ ['('] := by simp
  -- of all that is on the list, only a function ends with a parenthesis
  rcases cases_of_allowsToken h with heq | hdecimal | hhex | hword | ⟨name, heq, hname⟩
  · exact absurd (List.append_left_eq_self.mp heq) hne
  · simp only [isDecimal, Bool.and_eq_true, List.all_eq_true] at hdecimal
    exact absurd (hdecimal.2 _ hparen) (by decide)
  · exact absurd (isNameChar_of_isHex hhex _ hparen) (by decide)
  · have hisName := hword.isName hnamed
    rw [String.toList_ofList] at hisName
    exact absurd (Text.isNameChar_of_isName hisName _ hparen) (by decide)
  · rw [List.append_cancel_right heq]
    exact hname

/-- **Runs of an accepted text.** A run with a letter or an underscore is a hexadecimal numeral or a word that the
filter permits: as a function if the next character that is no blank is a parenthesis, as a constant otherwise. -/
theorem permits_of_accepts {filter : Filter} (hnamed : filter.IsNamed) {before w after : List Char}
    (h : filter.accepts (before ++ w ++ after) = true) (hw : ∀ c ∈ w, Text.isNameChar c = true)
    (hstart : ∃ c ∈ w, Text.isNameStart c = true) (hleft : ∀ d ∈ before.getLast?, Text.isNameChar d = false)
    (hright : ∀ d ∈ after.head?, Text.isNameChar d = false) :
    isHex w = true ∨ filter.Permits ((Text.trimStart after).head? = some '(') (String.ofList w) := by
  have hordinary : ∀ c ∈ before ++ w ++ after, IsOrdinary c := fun c hc => ordinary_of_accepts hnamed h hc
  have hallowed := allowsToken_of_accepts h (mem_tokens_of_run hordinary hw hstart hleft hright)
  split at hallowed
  · next hparen =>
    have hne : w ≠ [] := by
      rintro rfl
      obtain ⟨c, hc, -⟩ := hstart
      cases hc
    have hcalled := permits_called hnamed hallowed hne
    exact .inr ⟨fun _ => hcalled.call trivial, fun hnot => absurd hparen hnot⟩
  · next hparen =>
    rcases permits_alone hallowed hw hstart with hhex | halone
    · exact .inl hhex
    · exact .inr ⟨fun hcalled => absurd hcalled hparen, fun _ => halone.alone not_false⟩

end Filter

end Interpolate
