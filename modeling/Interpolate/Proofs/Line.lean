import Interpolate.DefinitionFile
import Interpolate.Proofs.Text

/-!
# Lines of definition files

The form of a line and the lines of a text, said without the functions that find them.

* **`Line.IsSilent`**, **`Line.Defines`** — the form of a line that means nothing, and that of a definition;
* **`Line.read_eq_silent_iff`**, **`Line.read_eq_definition_iff`** — reading finds exactly these forms;
* **`HasLines`** — a text cut at its line feeds;
* **`map_read_lines`** — the carriage return before a line feed makes no difference to what a line says.
-/

namespace Interpolate

/-! ## One line -/

namespace Line

/-- A line that means nothing. -/
inductive IsSilent : (raw : List Char) → Prop where
  /-- there are only blanks -/
  | blank {raw : List Char} (blanks : ∀ c ∈ raw, Text.isBlank c = true) : IsSilent raw
  /-- the first character that is no blank is `#` -/
  | comment {margin : List Char} (blanks : ∀ c ∈ margin, Text.isBlank c = true) (comment : List Char) :
    IsSilent (margin ++ '#' :: comment)

/-- A line that is a definition: a name, an equals sign and a value, with blanks around each. What follows the equals
sign is the value, whatever characters are in it. -/
structure Defines (raw name value : List Char) : Prop where
  /-- the name has the form of one -/
  isName : Text.isName name = true
  /-- the value is without the blanks around it -/
  isTight : Text.IsTight value
  /-- nothing else is in the line -/
  spelled : ∃ margin gap gap' tail : List Char, (∀ c ∈ margin ++ gap ++ gap' ++ tail, Text.isBlank c = true) ∧
    raw = margin ++ name ++ gap ++ '=' :: (gap' ++ value ++ tail)

/-- Blanks before an equals sign do not go on with a name. -/
theorem isNameChar_head?_gap {gap : List Char} (h : ∀ c ∈ gap, Text.isBlank c = true) (rest : List Char) :
    ∀ c ∈ (gap ++ '=' :: rest).head?, Text.isNameChar c = false := by
  intro c hc
  cases gap with
  | nil =>
    obtain rfl := Option.some.inj hc
    decide
  | cons d gap =>
    obtain rfl := Option.some.inj hc
    exact Text.isNameChar_eq_false_of_isBlank (h _ (List.mem_cons_self ..))

theorem definition?_eq_some_iff {text name value : List Char} : definition? text = some (name, value) ↔
    Text.isName name = true ∧ ∃ gap rest : List Char, (∀ c ∈ gap, Text.isBlank c = true) ∧
      text = name ++ gap ++ '=' :: rest ∧ value = Text.trim rest := by
  constructor
  · intro h
    obtain ⟨gap, hgap, hrest⟩ := Text.exists_eq_append_trimStart (text.dropWhile Text.isNameChar)
    have htext : text = text.takeWhile Text.isNameChar ++ text.dropWhile Text.isNameChar :=
      List.takeWhile_append_dropWhile.symm
    rw [definition?] at h
    split at h
    · next rest hequals =>
      split at h
      · next isName =>
        cases h
        refine ⟨isName, gap, rest, hgap, ?_, rfl⟩
        rw [List.append_assoc, ← hequals, ← hrest, ← htext]
      · cases h
    · cases h
  · rintro ⟨isName, gap, rest, hgap, rfl, rfl⟩
    have hstop := isNameChar_head?_gap hgap rest
    have hname := Text.isNameChar_of_isName isName
    have hequals : Text.trimStart (gap ++ '=' :: rest) = '=' :: rest := by
      rw [Text.trimStart_append_blanks hgap]
      exact List.dropWhile_cons_of_neg (by decide)
    simp only [definition?, List.append_assoc, Text.takeWhile_append hstop, Text.dropWhile_append hstop,
      List.takeWhile_eq_self_iff.mpr hname, List.dropWhile_eq_nil_iff.mpr hname, List.nil_append, hequals, isName, if_true]

/-- Reading finds the lines that mean nothing. -/
theorem read_eq_silent_iff {raw : List Char} : Line.read raw = .silent ↔ IsSilent raw := by
  have hread : Line.read raw = .silent ↔ Text.trim raw = [] ∨ (Text.trim raw).head? = some '#' := by
    rw [Line.read]
    split
    · next h => simpa using h
    · next h =>
      have hnot : ¬ (Text.trim raw = [] ∨ (Text.trim raw).head? = some '#') := by simpa using h
      split <;> simp [hnot]
  rw [hread]
  constructor
  · rintro (h | h)
    · obtain ⟨-, front, back, hblanks, rfl⟩ := Text.trim_eq_iff.mp h
      rw [List.append_nil]
      exact .blank hblanks
    · obtain ⟨-, front, back, hblanks, hraw⟩ := Text.trim_eq_iff.mp (rfl : Text.trim raw = _)
      obtain ⟨comment, hcomment⟩ := List.head?_eq_some_iff.mp h
      rw [hcomment, List.append_assoc, List.cons_append] at hraw
      rw [hraw]
      exact .comment (List.forall_mem_append.mp hblanks).1 _
  · intro h
    cases h with
    | blank blanks => exact .inl (Text.trim_eq_iff.mpr ⟨⟨nofun, nofun⟩, raw, [], by simpa using blanks, by simp⟩)
    | @comment margin blanks comment =>
      refine .inr ?_
      rw [Text.head?_trim, Text.trimStart_append_blanks blanks, Text.trimStart_eq_self]
      · rfl
      · intro c hc
        obtain rfl := Option.some.inj hc
        decide

/-- A line that starts with a name and goes on with an equals sign is trimmed behind that sign. -/
theorem trim_margin {margin name : List Char} (hmargin : ∀ c ∈ margin, Text.isBlank c = true)
    (isName : Text.isName name = true) (gap rest : List Char) :
    Text.trim (margin ++ (name ++ gap ++ '=' :: rest)) = name ++ gap ++ '=' :: Text.trimEnd rest := by
  have hfirst : ∀ c ∈ (name ++ gap ++ '=' :: rest).head?, Text.isBlank c = false := by
    cases name with
    | nil => exact absurd rfl (Text.ne_nil_of_isName isName)
    | cons d name =>
      intro c hc
      obtain rfl := Option.some.inj hc
      exact Text.isBlank_eq_false_of_isNameChar (Text.isNameChar_of_isName isName _ (List.mem_cons_self ..))
  rw [Text.trim, Text.trimStart_append_blanks hmargin, Text.trimStart_eq_self hfirst,
    Text.trimEnd_append_cons (by decide)]

/-- A definition starts with a name, so that it is neither blank nor a comment. -/
theorem read_eq_definition? {raw name value : List Char} :
    Line.read raw = .definition name value ↔ definition? (Text.trim raw) = some (name, value) := by
  constructor
  · intro h
    rw [Line.read] at h
    split at h
    · cases h
    · split at h
      · next hdefinition =>
        cases h
        exact hdefinition
      · cases h
  · intro h
    obtain ⟨isName, gap, rest, -, htext, -⟩ := definition?_eq_some_iff.mp h
    have hloud : ((Text.trim raw).isEmpty || (Text.trim raw).head? == some '#') = false := by
      rw [htext]
      cases name with
      | nil => exact absurd rfl (Text.ne_nil_of_isName isName)
      | cons c name =>
        have hne : c ≠ '#' := by
          rintro rfl
          exact absurd isName (by simp [Text.isName, Text.isNameStart])
        simp [hne]
    simp only [Line.read, hloud, h, Bool.false_eq_true, if_false]

/-- Reading finds the definitions. -/
theorem read_eq_definition_iff {raw name value : List Char} :
    Line.read raw = .definition name value ↔ Defines raw name value := by
  rw [read_eq_definition?, definition?_eq_some_iff]
  constructor
  · rintro ⟨isName, gap, rest, hgap, htext, rfl⟩
    obtain ⟨htight, front, back, hblanks, hrest⟩ := Text.trim_eq_iff.mp (rfl : Text.trim rest = _)
    obtain ⟨-, margin, tail, hends, hraw⟩ := Text.trim_eq_iff.mp htext
    refine ⟨isName, htight, margin, gap, front, back ++ tail, ?_, ?_⟩
    · simp only [List.forall_mem_append] at hblanks hends ⊢
      exact ⟨⟨⟨hends.1, hgap⟩, hblanks.1⟩, hblanks.2, hends.2⟩
    · calc raw = margin ++ (name ++ gap ++ '=' :: rest) ++ tail := hraw
        _ = margin ++ (name ++ gap ++ '=' :: (front ++ Text.trim rest ++ back)) ++ tail := by rw [← hrest]
        _ = _ := by simp only [List.append_assoc, List.cons_append]
  · rintro ⟨isName, htight, margin, gap, gap', tail, hblanks, rfl⟩
    simp only [List.forall_mem_append] at hblanks
    obtain ⟨⟨⟨hmargin, hgap⟩, hgap'⟩, htail⟩ := hblanks
    refine ⟨isName, gap, Text.trimEnd (gap' ++ value ++ tail), hgap, ?_, ?_⟩
    · rw [List.append_assoc margin, List.append_assoc margin, trim_margin hmargin isName]
    · rw [Text.trim_trimEnd]
      exact (Text.trim_eq_iff.mpr ⟨htight, gap', tail, List.forall_mem_append.mpr ⟨hgap', htail⟩, rfl⟩).symm

end Line

/-! ## The lines of a text -/

/-- A text cut at its line feeds. A carriage return right before a line feed belongs to it; any other is a character of
the line. -/
inductive HasLines : (text : List Char) → (ls : List (List Char)) → Prop where
  /-- without a line feed, the text is its only line -/
  | last {line : List Char} (unbroken : '\n' ∉ line) : HasLines line [line]
  /-- a line that ends with a line feed -/
  | feed {line rest : List Char} {ls : List (List Char)} (unbroken : '\n' ∉ line) (bare : line.getLast? ≠ some '\r')
    (more : HasLines rest ls) : HasLines (line ++ '\n' :: rest) (line :: ls)
  /-- a line that ends with a carriage return and a line feed -/
  | returnFeed {line rest : List Char} {ls : List (List Char)} (unbroken : '\n' ∉ line) (more : HasLines rest ls) :
    HasLines (line ++ '\r' :: '\n' :: rest) (line :: ls)

/-- Every text has lines. -/
theorem exists_hasLines (text : List Char) : ∃ ls, HasLines text ls := by
  by_cases hfeed : '\n' ∈ text
  · obtain ⟨line, rest, rfl, unbroken⟩ := List.eq_append_cons_of_mem hfeed
    obtain ⟨ls, more⟩ := exists_hasLines rest
    by_cases hreturn : line.getLast? = some '\r'
    · obtain ⟨front, rfl⟩ := List.getLast?_eq_some_iff.mp hreturn
      refine ⟨front :: ls, ?_⟩
      rw [List.append_assoc, List.singleton_append]
      exact .returnFeed (fun h => unbroken (List.mem_append_left _ h)) more
    · exact ⟨line :: ls, .feed unbroken hreturn more⟩
  · exact ⟨[text], .last hfeed⟩
termination_by text.length
decreasing_by
  subst_vars
  simp only [List.length_append, List.length_cons]
  omega

theorem lines_eq_singleton {line : List Char} (h : '\n' ∉ line) : lines line = [line] := by
  induction line with
  | nil => rfl
  | cons c line ih =>
    have hc : (c == '\n') = false := beq_false_of_ne (List.ne_of_not_mem_cons h).symm
    rw [lines, hc, ih (List.not_mem_of_not_mem_cons h)]
    rfl

theorem lines_append {line : List Char} (h : '\n' ∉ line) (rest : List Char) :
    lines (line ++ '\n' :: rest) = line :: lines rest := by
  induction line with
  | nil => rfl
  | cons c line ih =>
    have hc : (c == '\n') = false := beq_false_of_ne (List.ne_of_not_mem_cons h).symm
    rw [List.cons_append, lines, hc, ih (List.not_mem_of_not_mem_cons h)]
    rfl

/-- A carriage return at the end of a line is a blank, and means nothing. -/
theorem Line.read_append_return (line : List Char) : Line.read (line ++ ['\r']) = Line.read line := by
  have htrim : Text.trim (line ++ ['\r']) = Text.trim line := by
    refine Text.trim_append_blanks (fun c hc => ?_) line
    obtain rfl := List.mem_singleton.mp hc
    decide
  rw [Line.read, Line.read, htrim]

/-- The lines that are found in a text say what its lines say. -/
theorem map_read_lines {text : List Char} {ls : List (List Char)} (h : HasLines text ls) :
    (lines text).map Line.read = ls.map Line.read := by
  induction h with
  | last unbroken => rw [lines_eq_singleton unbroken]
  | feed unbroken _ _ ih => rw [lines_append unbroken, List.map_cons, List.map_cons, ih]
  | @returnFeed line rest ls unbroken _ ih =>
    have hline : '\n' ∉ line ++ ['\r'] := by simpa using unbroken
    have hlines := lines_append hline rest
    rw [List.append_assoc, List.singleton_append] at hlines
    rw [hlines, List.map_cons, List.map_cons, Line.read_append_return, ih]

end Interpolate
