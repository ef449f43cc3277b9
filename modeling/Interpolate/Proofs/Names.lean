import Interpolate.Proofs.CommandLine
import Interpolate.Proofs.LoadFaults
import Interpolate.Proofs.Pass

/-!
# Names wherever they stand

A name is defined in a line of a definition file or behind an option, and it is referred to by a placeholder. Three
readers look for names there, each in its own surroundings, and what they take for a name is the same.

* **`Line.search?`**, **`Line.search?_eq_definition?`** — a definition as a pattern, with blanks around the name;
* **`Line.read_equals`**, **`CommandLine.read_definition`** — what is read of something before an equals sign;
* **`isName_of_mem_transcript`**, **`mem_asked_spell_iff`** — a resolution asks for names only, and first for that of the
  last placeholder;
* **`Text.isName_agrees`** — the whole.
-/

namespace Interpolate

/-! ## Definitions as a pattern -/

namespace Line

open Pattern

/-- A definition: a name, an equals sign and the rest of the line, with blanks around each. -/
def parts : List Pattern.Part :=
  [.run Text.isBlank, .one Text.isNameStart, .run Text.isNameChar, .run Text.isBlank, .one (· == '='),
    .run Text.isBlank, .run (· != '\n')]

/-- The definition in the texts of the parts. -/
def ofPieces (pieces : List (List Char)) : List Char × List Char :=
  (pieces.getD 1 [] ++ pieces.getD 2 [], Text.trim (pieces.getD 6 []))

/-- The definition that a search finds in a line. -/
def search? (text : List Char) : Option (List Char × List Char) :=
  (match? parts text).map ofPieces

/-- The rest of a line, behind the blanks it starts with. -/
theorem match?_value {value : List Char} (h : '\n' ∉ value) :
    match? (parts.drop 5) value = some [value.takeWhile Text.isBlank, Text.trimStart value] := by
  have hrest : ∀ c ∈ Text.trimStart value, (c != '\n') = true := fun c hc =>
    bne_iff_ne.mpr (ne_of_mem_of_not_mem (List.dropWhile_subset _ hc) h)
  exact match?_run_of_some (match?_run_all hrest)

/-- Blanks end where an equals sign stands. -/
theorem match?_gap (text : List Char) : match? (parts.drop 3) text =
    (match? (parts.drop 4) (Text.trimStart text)).map (text.takeWhile Text.isBlank :: ·) := by
  refine match?_run_one (fun c hc => ?_) _ text
  rw [beq_eq_false_iff_ne]
  rintro rfl
  exact absurd hc (by decide)

theorem match?_equals (c : Char) (value : List Char) : match? (parts.drop 4) (c :: value) =
    if c = '=' then (match? (parts.drop 5) value).map ([c] :: ·) else none := by
  rw [show parts.drop 4 = .one (· == '=') :: parts.drop 5 from rfl, match?]
  simp only [beq_iff_eq]

/-- Nothing behind a name starts with a character that goes on with it. -/
theorem match?_nameChars (text : List Char) : match? (parts.drop 2) text =
    (match? (parts.drop 3) (text.dropWhile Text.isNameChar)).map (text.takeWhile Text.isNameChar :: ·) := by
  have hstop : ∀ c text, Text.isNameChar c = true → match? (parts.drop 3) (c :: text) = none := by
    intro c text hc
    have hblank : ∀ d ∈ (c :: text).head?, Text.isBlank d = false := by
      intro d hd
      obtain rfl := Option.some.inj hd
      exact Text.isBlank_eq_false_of_isNameChar hc
    have hne : c ≠ '=' := by
      rintro rfl
      exact absurd hc (by decide)
    rw [match?_gap, Text.trimStart_eq_self hblank, match?_equals, if_neg hne]
    rfl
  rw [show parts.drop 2 = .run Text.isNameChar :: parts.drop 3 from rfl, match?, greedy_of_stop hstop, Option.map_map]
  rfl

/-- Without blanks in front, the name starts the line. -/
theorem match?_parts {text : List Char} (first : ∀ c ∈ text.head?, Text.isBlank c = false) :
    match? parts text = (match? (parts.drop 1) text).map ([] :: ·) := by
  have happart : ∀ c, Text.isBlank c = true → Text.isNameStart c = false := by
    intro c hc
    have hchar := Text.isNameChar_eq_false_of_isBlank hc
    exact Bool.eq_false_iff.mpr fun hstart => Bool.eq_false_iff.mp hchar (Text.isNameChar_of_isNameStart hstart)
  have hnone : text.takeWhile Text.isBlank = [] := by
    cases text with
    | nil => rfl
    | cons c text => exact List.takeWhile_cons_of_neg (by simp [first c rfl])
  have hstart : text.dropWhile Text.isBlank = text := Text.trimStart_eq_self first
  rw [show parts = .run Text.isBlank :: .one Text.isNameStart :: parts.drop 2 from rfl, match?_run_one happart, hnone,
    hstart]
  rfl

/-- **The search finds the definition of a line**, if there are no blanks in front. -/
theorem search?_eq_definition? {text : List Char} (h : '\n' ∉ text) (first : ∀ c ∈ text.head?, Text.isBlank c = false) :
    search? text = definition? text := by
  rw [search?, match?_parts first]
  cases text with
  | nil => rfl
  | cons c text =>
    have hone : match? (parts.drop 1) (c :: text) =
        if Text.isNameStart c then (match? (parts.drop 2) text).map ([c] :: ·) else none := rfl
    have hname := Placeholder.isName_takeWhile c text
    rw [hone, definition?]
    by_cases hc : Text.isNameStart c = true
    · have hchar := Text.isNameChar_of_isNameStart hc
      have hrest : '\n' ∉ Text.trimStart (text.dropWhile Text.isNameChar) := fun hmem =>
        h (List.mem_cons_of_mem _ (List.dropWhile_subset _ (List.dropWhile_subset _ hmem)))
      rw [if_pos hc, match?_nameChars, match?_gap]
      rw [hc, List.takeWhile_cons_of_pos hchar] at hname
      simp only [List.takeWhile_cons_of_pos hchar, List.dropWhile_cons_of_pos hchar, hname]
      generalize Text.trimStart (text.dropWhile Text.isNameChar) = rest at hrest
      cases rest with
      | nil => rfl
      | cons d value =>
        rw [match?_equals, match?_value (List.not_mem_of_not_mem_cons hrest)]
        by_cases hd : d = '='
        · subst hd
          have htrim : Text.trim (Text.trimStart value) = Text.trim value := by
            rw [Text.trim, Text.trimStart_eq_self (Text.isBlank_head?_trimStart value), Text.trim]
          rw [if_pos rfl]
          exact congrArg (fun trimmed => some (c :: text.takeWhile Text.isNameChar, trimmed)) htrim
        · rw [if_neg hd]
          split
          · next heq => exact absurd (List.cons.inj heq).1 hd
          · rfl
    · rw [if_neg hc, hname]
      simp only [hc, Bool.false_eq_true, if_false]
      split <;> rfl

/-! ## What stands before an equals sign -/

/-- What stands before the first equals sign, and has no blanks at its ends, is defined if it is a name. -/
theorem definition?_equals {name : List Char} (hequals : '=' ∉ name) (htight : Text.IsTight name) (value : List Char) :
    definition? (name ++ '=' :: value) = if Text.isName name then some (name, Text.trim value) else none := by
  split
  · next hname => exact definition?_eq_some_iff.mpr ⟨hname, [], value, nofun, by rw [List.append_nil], rfl⟩
  · next hname =>
    rw [Option.eq_none_iff_forall_ne_some]
    rintro ⟨name', value'⟩ hdefinition
    obtain ⟨hname', gap, rest, hgap, htext, -⟩ := definition?_eq_some_iff.mp hdefinition
    have hbefore : ∀ {before : List Char}, '=' ∉ before → ∀ after : List Char,
        (before ++ '=' :: after).takeWhile (· != '=') = before := by
      intro before hmem after
      have hall : ∀ c ∈ before, (c != '=') = true := fun c hc => bne_iff_ne.mpr (ne_of_mem_of_not_mem hc hmem)
      rw [List.takeWhile_append_of_pos hall, List.takeWhile_cons_of_neg (by decide), List.append_nil]
    have hfree : '=' ∉ name' ++ gap := by
      rw [List.mem_append, not_or]
      exact ⟨fun h => absurd (Text.isNameChar_of_isName hname' _ h) (by decide), fun h => absurd (hgap _ h) (by decide)⟩
    have hsame : name = name' ++ gap := by rw [← hbefore hequals value, htext, hbefore hfree]
    -- a blank behind the name would be the last character
    have hnone : gap = [] := by
      rcases List.eq_nil_or_concat gap with hnil | ⟨front, c, rfl⟩
      · exact hnil
      · have hblank := hgap c (by simp)
        rw [htight.last c (by simp [hsame])] at hblank
        cases hblank
    rw [hnone, List.append_nil] at hsame
    exact hname (hsame ▸ hname')

/-- Only the end of such a line can have blanks to trim. -/
theorem trim_equals {name : List Char} (htight : Text.IsTight name) (value : List Char) :
    Text.trim (name ++ '=' :: value) = name ++ '=' :: Text.trimEnd value := by
  have hfirst : ∀ c ∈ (name ++ '=' :: value).head?, Text.isBlank c = false := by
    cases name with
    | nil =>
      intro c hc
      obtain rfl := Option.some.inj hc
      decide
    | cons d name => exact htight.first
  rw [Text.trim, Text.trimStart_eq_self hfirst, Text.trimEnd_append_cons (by decide)]

/-- A line that starts with something before an equals sign is a definition if that is a name, and is else at fault. -/
theorem read_equals {name : List Char} (hequals : '=' ∉ name) (hcomment : name.head? ≠ some '#')
    (htight : Text.IsTight name) (value : List Char) : Line.read (name ++ '=' :: value) =
      if Text.isName name then .definition name (Text.trim value)
      else .malformed (Text.trim (name ++ '=' :: value)) := by
  have hloud : ((name ++ '=' :: Text.trimEnd value).isEmpty ||
      (name ++ '=' :: Text.trimEnd value).head? == some '#') = false := by
    cases name with
    | nil => rfl
    | cons d name => simpa using hcomment
  rw [Line.read, trim_equals htight]
  simp only [hloud, definition?_equals hequals htight, Text.trim_trimEnd, Bool.false_eq_true, if_false]
  cases Text.isName name <;> rfl

/-- The search finds a name before an equals sign, and nothing else. -/
theorem search?_equals {name : List Char} (hequals : '=' ∉ name) (hbreak : '\n' ∉ name) (htight : Text.IsTight name)
    {value : List Char} (hvalue : '\n' ∉ value) : search? (Text.trim (name ++ '=' :: value)) =
      if Text.isName name then some (name, Text.trim value) else none := by
  have hrest : '\n' ∉ Text.trimEnd value := by
    obtain ⟨back, -, htext⟩ := Text.exists_eq_trimEnd_append value
    exact fun h => hvalue (htext ▸ List.mem_append_left _ h)
  have hline : '\n' ∉ Text.trim (name ++ '=' :: value) := by
    rw [trim_equals htight]
    simp [hbreak, hrest]
  rw [search?_eq_definition? hline (Text.isTight_trim _).first, trim_equals htight, definition?_equals hequals htight,
    Text.trim_trimEnd]

end Line

theorem Line.toList_equals (s v : String) : (s ++ "=" ++ v).toList = s.toList ++ '=' :: v.toList := by
  rw [String.toList_append, String.toList_append, List.append_assoc]
  rfl

namespace Lookup

variable {m : Type → Type} {l : Lookup m}

theorem contains_eq_false_iff {name : String} : l.contains name = false ↔ l.entry? name = none := by
  rw [contains, Option.isSome_eq_false_iff, Option.isNone_iff_eq_none]

theorem contains_insert_self (l : Lookup m) (e : Entry) : (l.insert e).contains e.name = true := by
  rw [contains, find_insert_self]
  rfl

/-- A line with something before an equals sign is loaded if that is a name, and is else at fault. -/
theorem load_equals (source : String) {s v : String} (hequals : '=' ∉ s.toList) (hbreak : '\n' ∉ s.toList)
    (hcomment : s.toList.head? ≠ some '#') (htight : Text.IsTight s.toList) (hvalue : '\n' ∉ v.toList)
    (hnew : l.contains s = false) : l.load source (s ++ "=" ++ v) =
      if Text.isName s.toList then (l.insert (definedEntry source 1 s.toList (Text.trim v.toList)), .ok 1)
      else (l, .error (.malformed (source ++ ":" ++ toString 1) (String.ofList (Text.trim (s ++ "=" ++ v).toList)))) := by
  have hsingle : '\n' ∉ s.toList ++ '=' :: v.toList := by simp [hbreak, hvalue]
  rw [load, Line.toList_equals, lines_eq_singleton hsingle, loadLines, Line.read_equals hequals hcomment htight]
  cases Text.isName s.toList with
  | false => rfl
  | true =>
    simp only [if_true, String.ofList_toList, contains_eq_false_iff.mp hnew, definedEntry, loadLines]

end Lookup

/-! ## Definitions on the command line -/

namespace CommandLine

/-- A definition behind its option, and a text. -/
theorem read_definition {text : String} (htext : isText text = true) (value : String) :
    read ["-D", value, text] =
      (definition value.toList).map fun d => { empty with definitions := [d], texts := [text] } := by
  have hend : ¬ text = "--" := by
    rintro rfl
    cases htext
  have hscan : scan empty [] ["-D", value, text] = setting 'D' value empty >>= fun c => scan c [] [text] := by
    rw [show "-D" = String.ofList ['-', 'D'] from rfl, scan_letters empty (by decide) (by decide), scan_value rfl]
  rw [read, hscan, setting.eq_def]
  simp only [scan_text hend htext, scan_nil]
  cases definition value.toList <;> rfl

end CommandLine

/-! ## Questions of a resolution -/

section Questions

variable {σ : Type} (ask : (name : String) → StateM σ Answer)

/-- The loop of passes asks for names only. -/
theorem Resolution.isName_of_mem_run_passes (text : List Char) (o : Outcome String) (world : σ) {before : Transcript}
    (hbefore : ∀ q ∈ before, Text.isName q.1.toList = true) :
    ∀ q ∈ ((passes (noting ask) text o).run (world, before)).2.2, Text.isName q.1.toList = true := by
  induction text, o using passes.induct generalizing world before with
  | case1 text o hnone =>
    rw [run_passes_of_none hnone]
    exact hbefore
  | case2 text o p hlast ih =>
    obtain ⟨answer, next, hask⟩ : ∃ answer next, (ask (String.ofList p.name)).run world = (answer, next) :=
      ⟨_, _, rfl⟩
    have hnoting := run_noting hask before
    have hname : Text.isName (String.ofList p.name).toList = true := by
      rw [String.toList_ofList]
      exact (Placeholder.last?_eq_some_iff.mp hlast).isName
    have hafter : ∀ q ∈ before ++ [(String.ofList p.name, answer)], Text.isName q.1.toList = true :=
      List.forall_mem_append.mpr ⟨hbefore, List.forall_mem_singleton.mpr hname⟩
    rcases run_passes_of_answer hlast o answer with ⟨o', hends⟩ | ⟨value, -, hwithin, hgoes⟩
    · rw [hends hnoting]
      exact hafter
    · rw [hgoes hnoting]
      exact ih answer value (by simpa using hwithin) next hafter

variable (text : String) (o : Outcome String) (world : σ)

/-- **A resolution asks for names only.** -/
theorem isName_of_mem_transcript : ∀ q ∈ transcript ask text o world, Text.isName q.1.toList = true := by
  rw [transcript, run_resolve]
  split
  · exact Resolution.isName_of_mem_run_passes ask _ _ world (List.forall_mem_nil _)
  · exact List.forall_mem_nil _

variable {text}

/-- The first question is for the name of the last placeholder. -/
theorem exists_transcript_eq_cons {p : Placeholder} (hlast : p.IsLast text.toList) :
    ∃ answer more, transcript ask text o world = (String.ofList p.name, answer) :: more := by
  have hdollar : text.toList.contains '$' = true := by
    rw [List.contains_iff_mem]
    exact by_contra fun h => Placeholder.not_occursIn_of_not_mem h p hlast.toOccursIn
  obtain ⟨answer, next, hask⟩ : ∃ answer next, (ask (String.ofList p.name)).run world = (answer, next) := ⟨_, _, rfl⟩
  have hnoting := run_noting hask []
  rw [transcript, run_resolve, if_pos hdollar]
  rcases Resolution.run_passes_of_answer (Placeholder.last?_eq_some_iff.mpr hlast) (o.addStep ("start: " ++ text)) answer
    with ⟨o', hends⟩ | ⟨value, -, -, hgoes⟩
  · rw [hends hnoting]
    exact ⟨answer, [], rfl⟩
  · obtain ⟨asked, hwritten, -⟩ := Resolution.passes_repeats ask (p.fill value.toList) _ next
      [(String.ofList p.name, answer)]
    rw [hgoes hnoting]
    exact ⟨answer, asked, congrArg (fun reached => reached.2.2) hwritten⟩

variable {s : String}

theorem isName_of_mem_asked (h : s ∈ (transcript ask text o world).map Prod.fst) : Text.isName s.toList = true := by
  obtain ⟨q, hq, rfl⟩ := List.mem_map.mp h
  exact isName_of_mem_transcript ask text o world q hq

/-- A name between the marks of a placeholder is asked for first. -/
theorem head?_asked_spell (hname : Text.isName s.toList = true) :
    ((transcript ask (String.ofList (Placeholder.spell s.toList)) o world).map Prod.fst).head? = some s := by
  have hlast : Placeholder.IsLast ⟨[], s.toList, []⟩ (String.ofList (Placeholder.spell s.toList)).toList := by
    have hspell := @Placeholder.IsLast.of_not_mem [] _ _ hname List.not_mem_nil
    rwa [List.nil_append, List.append_nil, ← @String.toList_ofList (Placeholder.spell s.toList)] at hspell
  obtain ⟨answer, more, hasked⟩ := exists_transcript_eq_cons ask o world hlast
  rw [hasked, List.map_cons, String.ofList_toList]
  rfl

/-- What stands between the marks of a placeholder is asked for if it is a name. -/
theorem mem_asked_spell_iff : s ∈ (transcript ask (String.ofList (Placeholder.spell s.toList)) o world).map Prod.fst ↔
    Text.isName s.toList = true :=
  ⟨isName_of_mem_asked ask o world, fun hname => List.mem_of_mem_head? (head?_asked_spell ask o world hname)⟩

end Questions

/-! ## One notion of a name -/

/-- What is read of a definition behind its option depends on whether it defines a name. -/
theorem CommandLine.read_equals {s text : String} (hequals : '=' ∉ s.toList) (htrim : Text.trim s.toList = s.toList)
    (htext : isText text = true) (v : String) : read ["-D", s ++ "=" ++ v, text] =
      if Text.isName s.toList then .ok { empty with definitions := [(s, v)], texts := [text] }
      else .error (.badName s) := by
  rw [read_definition htext, Line.toList_equals, definition_equals hequals, htrim, String.ofList_toList, String.ofList_toList]
  cases Text.isName s.toList <;> rfl

/-- **One notion of a name.** Take anything that has no equals sign and no line feed in it, does not start a comment, and
has no blanks at its ends. If it is a name, then a placeholder asks for it, and first of all; an option defines it, and
so does a line of a definition file, where the pattern of a definition finds it. If it is none, then no resolution of
the placeholder ever asks for it, and neither the option nor the line can be read, nor does the pattern find it. -/
theorem Text.isName_agrees {σ : Type} (ask : (name : String) → StateM σ Answer) (o : Outcome String) (world : σ)
    {m : Type → Type} {l : Lookup m} (source : String) {s text : String} (v : String) {w : String}
    (hequals : '=' ∉ s.toList) (hbreak : '\n' ∉ s.toList) (hcomment : s.toList.head? ≠ some '#')
    (htrim : trim s.toList = s.toList) (htext : CommandLine.isText text = true) (hvalue : '\n' ∉ w.toList)
    (hnew : l.contains s = false) :
    let asked := (transcript ask (String.ofList (Placeholder.spell s.toList)) o world).map Prod.fst
    let read := CommandLine.read ["-D", s ++ "=" ++ v, text]
    let loaded := l.load source (s ++ "=" ++ w)
    let found := Line.search? (trim (s ++ "=" ++ w).toList)
    (s ∈ asked ↔ isName s.toList = true) ∧
      ((∃ c, read = .ok c ∧ (s, v) ∈ c.definitions) ↔ isName s.toList = true) ∧
      (loaded.1.contains s = true ↔ isName s.toList = true) ∧
      ((∃ value, found = some (s.toList, value)) ↔ isName s.toList = true) ∧
      (isName s.toList = true → asked.head? = some s ∧
        read = .ok { CommandLine.empty with definitions := [(s, v)], texts := [text] } ∧
        loaded = (l.insert (definedEntry source 1 s.toList (trim w.toList)), .ok 1)) ∧
      (isName s.toList = false → read = .error (.badName s) ∧ loaded.1 = l ∧
        loaded.2 = .error (.malformed (source ++ ":" ++ toString 1) (String.ofList (trim (s ++ "=" ++ w).toList)))) := by
  intro asked read loaded found
  have htight : IsTight s.toList := (trim_eq_iff.mp htrim).1
  have hread : read = _ := CommandLine.read_equals hequals htrim htext v
  have hloaded : loaded = _ := Lookup.load_equals source hequals hbreak hcomment htight hvalue hnew
  have hfound : found = if isName s.toList then some (s.toList, trim w.toList) else none := by
    rw [show found = Line.search? (trim (s ++ "=" ++ w).toList) from rfl, Line.toList_equals]
    exact Line.search?_equals hequals hbreak htight hvalue
  refine ⟨mem_asked_spell_iff ask o world, ?_⟩
  cases hname : isName s.toList with
  | true =>
    rw [hname, if_pos rfl] at hread hloaded hfound
    have hcontains : loaded.1.contains s = true := by
      rw [hloaded]
      have hself := l.contains_insert_self (definedEntry source 1 s.toList (trim w.toList))
      rwa [show (definedEntry source 1 s.toList (trim w.toList)).name = s from String.ofList_toList] at hself
    exact ⟨iff_of_true ⟨_, hread, List.mem_singleton_self _⟩ rfl, iff_of_true hcontains rfl,
      iff_of_true ⟨_, hfound⟩ rfl, fun _ => ⟨head?_asked_spell ask o world hname, hread, hloaded⟩, nofun⟩
  | false =>
    rw [hname, if_neg Bool.false_ne_true] at hread hloaded hfound
    have hunread : ¬ ∃ c, read = .ok c ∧ (s, v) ∈ c.definitions := by
      rintro ⟨c, hok, -⟩
      rw [hread] at hok
      cases hok
    have hcontains : ¬ loaded.1.contains s = true := by rw [hloaded, hnew]; exact Bool.false_ne_true
    have hnone : ¬ ∃ value, found = some (s.toList, value) := by
      rintro ⟨value, hsome⟩
      rw [hfound] at hsome
      cases hsome
    exact ⟨iff_of_false hunread Bool.false_ne_true, iff_of_false hcontains Bool.false_ne_true,
      iff_of_false hnone Bool.false_ne_true, nofun,
      fun _ => ⟨hread, congrArg Prod.fst hloaded, congrArg Prod.snd hloaded⟩⟩

/-- A name, and two names with a placeholder's end and start between them. -/
theorem Text.isName_agrees_bridged :
    let ask (_ : String) : StateM Nat Answer := modifyGet fun n => (.unknown, n + 1)
    let o : Outcome String := ⟨none, [], none, 0, 50⟩
    let asked (s : String) := (transcript ask (String.ofList (Placeholder.spell s.toList)) o 0).map Prod.fst
    let l : Lookup Id := .empty
    asked "x_1" = "x_1" :: (asked "x_1").tail ∧
      CommandLine.read ["-D", "x_1=1 = 2", "text"] =
        .ok { CommandLine.empty with definitions := [("x_1", "1 = 2")], texts := ["text"] } ∧
      l.load "file" "x_1= 3 " = (l.insert ⟨"x_1", "3", some "file:1"⟩, .ok 1) ∧
      "a\x7d-$\x7bb" ∉ asked "a\x7d-$\x7bb" ∧
      CommandLine.read ["-D", "a\x7d-$\x7bb=1", "text"] = .error (.badName "a\x7d-$\x7bb") ∧
      (l.load "file" "a\x7d-$\x7bb=1").1 = l := by
  intro ask o asked l
  have hname : Text.isName "x_1".toList = true := by decide
  have hnone : Text.isName "a\x7d-$\x7bb".toList = false := by decide
  obtain ⟨-, -, -, -, hnamed, -⟩ := @Text.isName_agrees Nat ask o 0 Id l "file" "x_1" "text" "1 = 2" " 3 " (by decide)
    (by decide) (by decide) (by decide) (by decide) (by decide) rfl
  obtain ⟨hasked, -, -, -, -, hunnamed⟩ := @Text.isName_agrees Nat ask o 0 Id l "file" "a\x7d-$\x7bb" "text" "1" "1"
    (by decide) (by decide) (by decide) (by decide) (by decide) (by decide) rfl
  obtain ⟨hfirst, hread, hloaded⟩ := hnamed hname
  obtain ⟨hunread, hunloaded, -⟩ := hunnamed hnone
  have hnever : "a\x7d-$\x7bb" ∉ asked "a\x7d-$\x7bb" := fun hmem => Bool.false_ne_true (hnone.symm.trans (hasked.mp hmem))
  exact ⟨List.eq_cons_of_mem_head? hfirst, hread, hloaded, hnever, hunread, hunloaded⟩

end Interpolate
