import Interpolate.CommandLine
import Interpolate.Proofs.Text

/-!
# Command lines that are written out

A command line can be written out again as elements: each option on its own, with its value in the next element, and
the texts after `--`. Whatever the values and the texts look like, and in whatever order the options stand, what is
read is the command line that was written.

* **`CommandLine.Flag`**, **`CommandLine.Setting`** — options without and with a value, and how they are written;
* **`scan_option`**, **`scan_of_flag?`**, **`scan_value`**, **`scan_attached`** — what reading does with one element and
  with one letter;
* **`CommandLine.Leads`** — what reading knows after some elements, whatever follows them;
* **`CommandLine.Says`** — options, in any order, that say what a command line says;
* **`CommandLine.read_elements`** — they are read as that command line.
-/

namespace Interpolate

namespace CommandLine

/-! ## Options -/

/-- An option without a value. -/
inductive Flag where
  /-- leave the environment alone -/
  | isolated
  /-- evaluate the texts -/
  | evaluates
  /-- show the steps -/
  | verbose
  /-- show how the program is used -/
  | help
  deriving DecidableEq, Repr

/-- The letter of a flag. -/
def Flag.letter : Flag → Char
  | isolated => 'E'
  | evaluates => 'x'
  | verbose => 'v'
  | help => 'h'

/-- Whether a command line has a flag. -/
def has (c : CommandLine) : Flag → Bool
  | .isolated => c.isolated
  | .evaluates => c.evaluates
  | .verbose => c.verbose
  | .help => c.help

/-- The command line with a flag. -/
def raise (c : CommandLine) : Flag → CommandLine
  | .isolated => { c with isolated := true }
  | .evaluates => { c with evaluates := true }
  | .verbose => { c with verbose := true }
  | .help => { c with help := true }

/-- An option of any kind. -/
inductive Setting where
  /-- a definition file -/
  | file (path : String)
  /-- a name and what it is to stand for -/
  | definition (name value : String)
  /-- the number of passes allowed -/
  | limit (n : Nat)
  /-- an option without a value -/
  | flag (f : Flag)
  deriving DecidableEq, Repr

namespace Setting

/-- How an option is written: its value is an element of its own. -/
def elements : Setting → List String
  | file path => ["-f", path]
  | definition name value => ["-D", name ++ "=" ++ value]
  | limit n => ["-p", toString n]
  | flag f => [String.ofList ['-', f.letter]]

/-- What an option adds to a command line. -/
def apply (c : CommandLine) : Setting → CommandLine
  | file path => { c with files := c.files ++ [path] }
  | definition name value => { c with definitions := c.definitions ++ [(name, value)] }
  | limit n => { c with limit := some n }
  | flag f => c.raise f

/-- The path of a definition file. -/
def file? : Setting → Option String
  | file path => some path
  | _ => none

/-- A name and what it is to stand for. -/
def definition? : Setting → Option (String × String)
  | definition name value => some (name, value)
  | _ => none

/-- A number of passes. -/
def limit? : Setting → Option Nat
  | limit n => some n
  | _ => none

end Setting

/-! ## One element, one letter -/

section Letter

variable {letter : Char} {c c' : CommandLine} {letters : List Char} {rest : List String}

/-- No flag takes a value. -/
theorem flag?_of_takesValue (htakes : takesValue letter = true) : flag? letter c = none := by
  simp only [takesValue, Bool.or_eq_true, beq_iff_eq] at htakes
  rcases htakes with (rfl | rfl) | rfl <;> rfl

theorem scan_nil (c : CommandLine) : scan c [] [] = .ok c := by
  rw [scan]

/-- An element of text is taken as it is. -/
theorem scan_text {element : String} (hend : ¬ element = "--") (text : isText element = true) :
    scan c [] (element :: rest) = scan { c with texts := c.texts ++ [element] } [] rest := by
  rw [scan, if_neg hend, if_pos text]

/-- Any other element is taken apart into its letters. -/
theorem scan_option {element : String} (hend : ¬ element = "--") (option : ¬ isText element = true) :
    scan c [] (element :: rest) = scan c element.toList.tail rest := by
  rw [scan, if_neg hend, if_neg option]

theorem scan_of_flag? (hflag : flag? letter c = some c') : scan c (letter :: letters) rest = scan c' letters rest := by
  rw [scan.eq_def]
  simp only [hflag]

theorem scan_unknown (hflag : flag? letter c = none) (htakes : takesValue letter = false) :
    scan c (letter :: letters) rest = .error (.unknown letter) := by
  rw [scan.eq_def]
  simp only [hflag, htakes, Bool.false_eq_true, if_false]

/-- A letter takes the next element as its value, if it is the last of its own. -/
theorem scan_value (htakes : takesValue letter = true) (value : String) :
    scan c [letter] (value :: rest) = setting letter value c >>= fun c => scan c [] rest := by
  rw [scan.eq_def]
  simp only [flag?_of_takesValue htakes, htakes, if_true]
  cases setting letter value c <;> rfl

/-- A letter takes the letters after it as its value. -/
theorem scan_attached (htakes : takesValue letter = true) (hne : letters ≠ []) :
    scan c (letter :: letters) rest = setting letter (String.ofList letters) c >>= fun c => scan c [] rest := by
  obtain ⟨next, letters, rfl⟩ := List.exists_cons_of_ne_nil hne
  rw [scan.eq_def]
  simp only [flag?_of_takesValue htakes, htakes, if_true]
  cases setting letter (String.ofList (next :: letters)) c <;> rfl

end Letter

/-! ## Reading on -/

/-- Reading goes on after the elements with what they say added to what was known before. -/
def Leads (elements : List String) (c c' : CommandLine) : Prop :=
  ∀ rest, scan c [] (elements ++ rest) = scan c' [] rest

theorem leads_nil (c : CommandLine) : Leads [] c c :=
  fun _ => rfl

theorem Leads.append {elements elements' : List String} {c c' c'' : CommandLine} (h : Leads elements c c')
    (h' : Leads elements' c' c'') : Leads (elements ++ elements') c c'' := by
  intro rest
  rw [List.append_assoc, h, h']

/-- A dash with letters after it is taken apart into the letters. -/
theorem scan_letters {letters : List Char} (c : CommandLine) (hne : letters ≠ []) (hdash : letters ≠ ['-'])
    (rest : List String) : scan c [] (String.ofList ('-' :: letters) :: rest) = scan c letters rest := by
  have hend : String.ofList ('-' :: letters) ≠ "--" := by
    intro h
    rw [show "--" = String.ofList ['-', '-'] from rfl, String.ofList_inj] at h
    exact hdash (List.cons.inj h).2
  have htext : isText (String.ofList ('-' :: letters)) = false := by
    have hne' : String.ofList ('-' :: letters) ≠ "-" := by
      intro h
      rw [show "-" = String.ofList ['-'] from rfl, String.ofList_inj] at h
      exact hne (List.cons.inj h).2
    rw [isText, String.toList_ofList, beq_eq_false_iff_ne.mpr hne']
    rfl
  rw [scan_option hend (Bool.eq_false_iff.mp htext), String.toList_ofList]
  rfl

/-- A flag is read as itself. -/
theorem scan_flag (c : CommandLine) (f : Flag) (letters : List Char) (rest : List String) :
    scan c (f.letter :: letters) rest = scan (c.raise f) letters rest :=
  scan_of_flag? (by cases f <;> rfl)

/-- A letter that takes a value takes the next element, if it is the last of its own. -/
theorem leads_value {letter : Char} {value : String} {c c' : CommandLine} (htakes : takesValue letter = true)
    (hsetting : setting letter value c = .ok c') :
    Leads [String.ofList ['-', letter], value] c c' := by
  intro rest
  have hdash : [letter] ≠ ['-'] := by
    intro h
    obtain rfl := List.singleton_inj.mp h
    cases htakes
  rw [List.cons_append, List.singleton_append, scan_letters c (List.cons_ne_nil _ _) hdash, scan_value htakes, hsetting]
  rfl

theorem leads_flag (f : Flag) (c : CommandLine) : Leads [String.ofList ['-', f.letter]] c (c.raise f) := by
  intro rest
  have hdash : [f.letter] ≠ ['-'] := by cases f <;> decide
  rw [List.singleton_append, scan_letters c (List.cons_ne_nil _ _) hdash, scan_flag]

/-- After `--`, all is text. -/
theorem scan_texts (c : CommandLine) (texts : List String) :
    scan c [] ("--" :: texts) = .ok { c with texts := c.texts ++ texts } := by
  rw [scan, if_pos rfl]

/-! ## Options that are written out -/

/-- A definition is cut at its first equals sign. What stands before it has to be a name, blanks aside. -/
theorem definition_equals {name : List Char} (h : '=' ∉ name) (value : List Char) :
    definition (name ++ '=' :: value) =
      if Text.isName (Text.trim name) then .ok (String.ofList (Text.trim name), String.ofList value)
      else .error (.badName (String.ofList (Text.trim name))) := by
  have hname : ∀ c ∈ name, (c != '=') = true := fun c hc => bne_iff_ne.mpr (ne_of_mem_of_not_mem hc h)
  have hstop : ∀ c ∈ ('=' :: value).head?, (c != '=') = false := by
    intro c hc
    obtain rfl := Option.some.inj hc
    rfl
  rw [definition, Text.dropWhile_append hstop, Text.takeWhile_append hstop, List.dropWhile_eq_nil_iff.mpr hname,
    List.takeWhile_eq_self_iff.mpr hname, List.nil_append]

/-- A definition of a name is read as that definition, whatever the value is. -/
theorem definition_append {name : String} (isName : Text.isName name.toList = true) (value : String) :
    definition (name ++ "=" ++ value).toList = .ok (name, value) := by
  have hequals : '=' ∉ name.toList := fun h => absurd (Text.isNameChar_of_isName isName _ h) (by decide)
  have hlist : (name ++ "=" ++ value).toList = name.toList ++ '=' :: value.toList := by
    rw [String.toList_append, String.toList_append, List.append_assoc]
    rfl
  rw [hlist, definition_equals hequals, Text.trim_name isName, if_pos isName, String.ofList_toList,
    String.ofList_toList]

/-- A number of 64 bits is read as that number. -/
theorem limit?_toString {n : Nat} (h : n < 0x10000000000000000) : limit? (toString n).toList = some n := by
  have hall : ∀ c ∈ Nat.toDigits 10 n, c.isDigit = true := fun c hc =>
    Nat.isDigit_of_mem_toDigits (by decide) (by decide) hc
  have hplus : (Nat.toDigits 10 n).head? ≠ some '+' := by
    intro hhead
    exact absurd (hall '+' (List.mem_of_head? hhead)) (by decide)
  have hdigits : (toString n).toList = Nat.toDigits 10 n := Nat.toList_repr
  have hgood : ((Nat.toDigits 10 n).isEmpty || !(Nat.toDigits 10 n).all Char.isDigit) = false := by
    simpa using hall
  rw [hdigits, limit?]
  simp only [if_neg hplus, hgood, Decimal.ofDigits_toDigits, if_pos h, Bool.false_eq_true, if_false]

/-- An option can be read if it defines nothing but names and sets no limit above 64 bits. -/
def Setting.IsValid : Setting → Prop
  | definition name _ => Text.isName name.toList = true
  | limit n => n < 0x10000000000000000
  | file _ | flag _ => True

instance : DecidablePred Setting.IsValid
  | .definition name _ => inferInstanceAs (Decidable (Text.isName name.toList = true))
  | .limit n => inferInstanceAs (Decidable (n < 0x10000000000000000))
  | .file _ | .flag _ => inferInstanceAs (Decidable True)

/-- An option that is written out is read as itself, whatever its value looks like. -/
theorem leads_elements {s : Setting} (h : s.IsValid) (c : CommandLine) : Leads s.elements c (s.apply c) := by
  cases s with
  | file path => exact leads_value rfl rfl
  | definition name value =>
    refine leads_value rfl ?_
    rw [setting.eq_def]
    simp only [definition_append h]
    rfl
  | limit n =>
    refine leads_value rfl ?_
    simp only [setting, limit?_toString h]
    rfl
  | flag f => exact leads_flag f c

/-- Options that are written out one after another are read one after another. -/
theorem leads_settings {settings : List Setting} (h : ∀ s ∈ settings, s.IsValid) (c : CommandLine) :
    Leads (settings.flatMap Setting.elements) c (settings.foldl Setting.apply c) := by
  induction settings generalizing c with
  | nil => exact leads_nil c
  | cons s settings ih =>
    rw [List.flatMap_cons, List.foldl_cons]
    exact (leads_elements (h s (List.mem_cons_self ..)) c).append (ih (fun t ht => h t (List.mem_cons_of_mem _ ht)) _)

/-! ## What options say together -/

/-- A part of the command line to which each option adds what it has of that part. -/
theorem part_foldl {β : Type} {part : CommandLine → List β} {part? : Setting → Option β}
    (h : ∀ c s, part (s.apply c) = part c ++ (part? s).toList) (settings : List Setting) (c : CommandLine) :
    part (settings.foldl Setting.apply c) = part c ++ settings.filterMap part? := by
  induction settings generalizing c with
  | nil => exact (List.append_nil _).symm
  | cons s settings ih =>
    rw [List.foldl_cons, ih, h, List.append_assoc, List.filterMap_cons]
    cases part? s <;> rfl

theorem files_apply (c : CommandLine) (s : Setting) : (s.apply c).files = c.files ++ s.file?.toList := by
  cases s with
  | file path => rfl
  | definition | limit => exact (List.append_nil _).symm
  | flag f => cases f <;> exact (List.append_nil _).symm

theorem definitions_apply (c : CommandLine) (s : Setting) :
    (s.apply c).definitions = c.definitions ++ s.definition?.toList := by
  cases s with
  | definition name value => rfl
  | file | limit => exact (List.append_nil _).symm
  | flag f => cases f <;> exact (List.append_nil _).symm

theorem limit_apply (c : CommandLine) (s : Setting) : (s.apply c).limit = s.limit?.or c.limit := by
  cases s with
  | limit n => rfl
  | file | definition => rfl
  | flag f => cases f <;> rfl

theorem has_apply {c : CommandLine} {s : Setting} {f : Flag} :
    (s.apply c).has f = true ↔ c.has f = true ∨ .flag f = s := by
  cases s with
  | flag g => cases f <;> cases g <;> simp [Setting.apply, raise, has]
  | file | definition | limit => cases f <;> simp [Setting.apply, has]

theorem texts_apply (c : CommandLine) (s : Setting) : (s.apply c).texts = c.texts := by
  cases s with
  | file | definition | limit => rfl
  | flag f => cases f <;> rfl

/-- Of several limits, the last one counts. -/
theorem limit_foldl (settings : List Setting) (c : CommandLine) :
    (settings.foldl Setting.apply c).limit = (settings.filterMap Setting.limit?).getLast?.or c.limit := by
  induction settings generalizing c with
  | nil => rfl
  | cons s settings ih =>
    rw [List.foldl_cons, ih, limit_apply, List.filterMap_cons]
    cases s.limit? with
    | none => rfl
    | some n =>
      rw [List.getLast?_cons]
      cases (settings.filterMap Setting.limit?).getLast? <;> rfl

theorem has_foldl {settings : List Setting} {c : CommandLine} {f : Flag} :
    (settings.foldl Setting.apply c).has f = true ↔ c.has f = true ∨ .flag f ∈ settings := by
  induction settings generalizing c with
  | nil => simp
  | cons s settings ih => rw [List.foldl_cons, ih, has_apply, or_assoc, List.mem_cons]

theorem texts_foldl (settings : List Setting) (c : CommandLine) :
    (settings.foldl Setting.apply c).texts = c.texts := by
  induction settings generalizing c with
  | nil => rfl
  | cons s settings ih => rw [List.foldl_cons, ih, texts_apply]

/-- Options say what a command line says about anything but its texts. Files stand in their order, and so do
definitions; otherwise the options may stand in any order. -/
structure Says (settings : List Setting) (c : CommandLine) : Prop where
  /-- the definition files -/
  files : settings.filterMap Setting.file? = c.files
  /-- the definitions -/
  definitions : settings.filterMap Setting.definition? = c.definitions
  /-- the limit, if there is one -/
  limit : settings.filterMap Setting.limit? = c.limit.toList
  /-- the flags that are set, and no others -/
  flags : ∀ f, Setting.flag f ∈ settings ↔ c.has f = true

/-- A command line that can be asked for: it defines nothing but names, its limit is a number of 64 bits, and it has a
text or calls for help. -/
structure IsValid (c : CommandLine) : Prop where
  /-- names are names -/
  names : ∀ d ∈ c.definitions, Text.isName d.1.toList = true
  /-- the limit has 64 bits -/
  limit : ∀ n ∈ c.limit, n < 0x10000000000000000
  /-- there is something to do -/
  texts : c.texts ≠ [] ∨ c.help = true

/-- A command line is known by what it says. -/
theorem eq_of_has {c c' : CommandLine} (files : c.files = c'.files) (definitions : c.definitions = c'.definitions)
    (limit : c.limit = c'.limit) (flags : ∀ f, c.has f = c'.has f) (texts : c.texts = c'.texts) : c = c' := by
  obtain ⟨f, d, n, isolated, evaluates, verbose, help, t⟩ := c
  obtain ⟨f', d', n', isolated', evaluates', verbose', help', t'⟩ := c'
  have hisolated : isolated = isolated' := flags .isolated
  have hevaluates : evaluates = evaluates' := flags .evaluates
  have hverbose : verbose = verbose' := flags .verbose
  have hhelp : help = help' := flags .help
  dsimp only at files definitions limit texts
  subst_vars
  rfl

/-- Options that say what a valid command line says can be read. -/
theorem Says.isValid {settings : List Setting} {c : CommandLine} (h : Says settings c) (hvalid : c.IsValid) :
    ∀ s ∈ settings, s.IsValid := by
  intro s hs
  cases s with
  | definition name value =>
    have hmem : (name, value) ∈ c.definitions := h.definitions ▸ List.mem_filterMap.mpr ⟨_, hs, rfl⟩
    exact hvalid.names _ hmem
  | limit n =>
    have hmem : n ∈ c.limit.toList := h.limit ▸ List.mem_filterMap.mpr ⟨_, hs, rfl⟩
    exact hvalid.limit n (Option.mem_toList.mp hmem)
  | file | flag => trivial

/-- Together, options add up to what they say. -/
theorem Says.foldl_eq {settings : List Setting} {c : CommandLine} (h : Says settings c) :
    settings.foldl Setting.apply empty = { c with texts := [] } := by
  refine eq_of_has ?_ ?_ ?_ ?_ ?_
  · rw [part_foldl files_apply, h.files]
    rfl
  · rw [part_foldl definitions_apply, h.definitions]
    rfl
  · rw [limit_foldl, h.limit]
    cases c.limit <;> rfl
  · intro f
    rw [Bool.eq_iff_iff, has_foldl, h.flags]
    cases f <;> simp [has, empty]
  · exact texts_foldl settings empty

/-- **A command line that is written out is read back.** Any options, in any order, that say what the command line says,
each with its value in an element of its own, and then its texts after `--`, are read as that command line: no value
and no text is taken for anything else. -/
theorem read_elements {c : CommandLine} (hvalid : c.IsValid) {settings : List Setting} (hsaid : Says settings c) :
    read (settings.flatMap Setting.elements ++ "--" :: c.texts) = .ok c := by
  have hscan : scan empty [] (settings.flatMap Setting.elements ++ "--" :: c.texts) = .ok c := by
    rw [leads_settings (hsaid.isValid hvalid), hsaid.foldl_eq, scan_texts, List.nil_append]
  have hwork : (c.texts.isEmpty && !c.help) = false := by
    rcases hvalid.texts with h | h
    · simp [h]
    · simp [h]
  rw [read, hscan]
  simp only [bind, Except.bind, hwork, Bool.false_eq_true, if_false]

/-- Values and texts that look like options, and options in an order of their own. -/
def misleading : CommandLine where
  files := ["", "-x", "--"]
  definitions := [("a", "-E"), ("b", "=$\x7ba\x7d="), ("a", "")]
  limit := some 0xFFFFFFFFFFFFFFFF
  isolated := true
  evaluates := false
  verbose := true
  help := false
  texts := ["--", "-h", ""]

theorem read_elements_misleading :
    misleading.IsValid ∧
      Says [.definition "a" "-E", .flag .verbose, .file "", .limit 0xFFFFFFFFFFFFFFFF, .file "-x", .flag .isolated,
        .definition "b" "=$\x7ba\x7d=", .definition "a" "", .file "--"] misleading ∧
      read ["-D", "a=-E", "-v", "-f", "", "-p", "18446744073709551615", "-f", "-x", "-E", "-D", "b==$\x7ba\x7d=", "-D", "a=",
        "-f", "--", "--", "--", "-h", ""] = .ok misleading := by
  have hvalid : misleading.IsValid := ⟨by decide, by decide, by decide⟩
  have hsaid : Says [.definition "a" "-E", .flag .verbose, .file "", .limit 0xFFFFFFFFFFFFFFFF, .file "-x",
      .flag .isolated, .definition "b" "=$\x7ba\x7d=", .definition "a" "", .file "--"] misleading :=
    ⟨rfl, rfl, rfl, fun f => by cases f <;> decide⟩
  exact ⟨hvalid, hsaid, read_elements hvalid hsaid⟩

end CommandLine

end Interpolate
