import Interpolate.Proofs.CommandLine

/-!
# Letters that share a dash

Several letters can stand behind one dash, and a letter that takes a value can have it right behind it or in an element
of its own. Neither makes a difference to what is read, wherever in a command line it is done: reading goes through the
letters of an element with nothing in its hands but the command line so far.

* **`leavesValue`**, **`expectsOption`** — the elements after which the next one is looked at for options: `--` is not
  among them, and no letter waits for its value;
* **`scan_append`** — reading such elements, and then all that comes after them;
* **`scan_flags_ungrouped`**, **`scan_value_ungrouped`** — the letters of an element, taken apart;
* **`read_ungrouped`** — the command line that is read is the same, or the complaint.
-/

namespace Interpolate

namespace CommandLine

/-! ## Where options are expected -/

/-- Whether a letter is a flag. -/
def isFlag (letter : Char) : Bool :=
  letter == 'E' || letter == 'x' || letter == 'v' || letter == 'h'

/-- Whether letters behind a dash leave their value to the next element: flags, if there are any, and at the end a letter
that takes a value. -/
def leavesValue : (letters : List Char) → Bool
  | [] => false
  | letter :: letters => if isFlag letter then leavesValue letters else takesValue letter && letters.isEmpty

/-- Whether the element after these is looked at for options: it does not come after `--`, and it is not the value of
a letter. -/
def expectsOption : (elements : List String) → Bool
  | [] => true
  | element :: elements =>
    if element = "--" then false
    else if isText element then expectsOption elements
    else if leavesValue element.toList.tail then
      match elements with
      | [] => false
      | _ :: elements => expectsOption elements
    else expectsOption elements

/-! ## Flags -/

section Letter

variable {letter : Char} {c c' : CommandLine}

theorem flag?_eq_none_iff : flag? letter c = none ↔ isFlag letter = false := by
  unfold flag?
  split <;> simp_all [isFlag]

theorem isFlag_of_flag? (hflag : flag? letter c = some c') : isFlag letter = true := by
  rw [← Bool.not_eq_false, ← flag?_eq_none_iff (c := c), hflag]
  exact Option.some_ne_none c'

end Letter

/-! ## Reading on -/

/-- What is read of letters and the value that they leave does not depend on the elements after it. -/
theorem scan_letters_append {letters : List Char} {before : List String}
    (h : before.length = (leavesValue letters).toNat) (c : CommandLine) (rest : List String) :
    scan c letters (before ++ rest) = scan c letters before >>= fun c => scan c [] rest := by
  induction letters generalizing c with
  | nil =>
    obtain rfl := List.length_eq_zero_iff.mp h
    rw [scan_nil]
    rfl
  | cons letter letters ih =>
    rw [leavesValue] at h
    cases hflag : flag? letter c with
    | some c' =>
      rw [isFlag_of_flag? hflag, if_pos rfl] at h
      rw [scan_of_flag? hflag, scan_of_flag? hflag, ih h]
    | none =>
      rw [flag?_eq_none_iff.mp hflag, if_neg Bool.false_ne_true] at h
      cases htakes : takesValue letter with
      | false =>
        rw [scan_unknown hflag htakes, scan_unknown hflag htakes]
        rfl
      | true =>
        rw [htakes, Bool.true_and] at h
        cases letters with
        | nil =>
          obtain ⟨value, rfl⟩ := List.length_eq_one_iff.mp h
          rw [List.singleton_append, scan_value htakes, scan_value htakes, bind_assoc]
          simp only [scan_nil]
          rfl
        | cons next letters =>
          obtain rfl := List.length_eq_zero_iff.mp h
          rw [List.nil_append, scan_attached htakes (List.cons_ne_nil _ _), scan_attached htakes (List.cons_ne_nil _ _),
            bind_assoc]
          simp only [scan_nil]
          rfl

/-- **Reading goes on.** Elements after which options are expected are read on their own, and what comes after them is
read with the command line that they give. -/
theorem scan_append {elements : List String} (h : expectsOption elements = true) (c : CommandLine) (rest : List String) :
    scan c [] (elements ++ rest) = scan c [] elements >>= fun c => scan c [] rest := by
  fun_induction expectsOption elements generalizing c with
  | case1 =>
    rw [scan_nil]
    rfl
  | case2 => cases h
  | case3 element elements hend text ih =>
    rw [List.cons_append, scan_text hend text, scan_text hend text, ih h]
  | case4 => cases h
  | case5 element hend option leaves value elements ih =>
    have hletters := @scan_letters_append element.toList.tail [value] (by rw [leaves]; rfl) c
    rw [List.cons_append, List.cons_append, scan_option hend option, scan_option hend option, ← List.singleton_append,
      hletters, ← List.singleton_append (l := elements), hletters, bind_assoc]
    simp only [ih h]
  | case6 element elements hend option leaves ih =>
    have hletters := @scan_letters_append element.toList.tail [] (by rw [Bool.eq_false_iff.mpr leaves]; rfl) c
    simp only [List.nil_append] at hletters
    rw [List.cons_append, scan_option hend option, scan_option hend option, hletters, hletters elements, bind_assoc]
    simp only [ih h]

/-- Elements that are read alike can stand for each other wherever options are expected. -/
theorem read_append_congr {before elements elements' : List String} (h : expectsOption before = true)
    (hsame : ∀ c, scan c [] elements = scan c [] elements') : read (before ++ elements) = read (before ++ elements') := by
  rw [read, read, scan_append h, scan_append h]
  simp only [hsame]

/-! ## Letters taken apart -/

/-- The element with a dash and letters behind it. -/
def dashed (letters : List Char) : String :=
  String.ofList ('-' :: letters)

/-- Flags are raised one after another. -/
theorem scan_flags (flags : List Flag) (letters : List Char) (c : CommandLine) (rest : List String) :
    scan c (flags.map Flag.letter ++ letters) rest = scan (flags.foldl raise c) letters rest := by
  induction flags generalizing c with
  | nil => rfl
  | cons f flags ih => rw [List.map_cons, List.cons_append, scan_flag, ih, List.foldl_cons]

/-- The first letter of flags is no dash. -/
theorem head?_flags_ne {flags : List Flag} (hflags : flags ≠ []) (letters : List Char) :
    (flags.map Flag.letter ++ letters).head? ≠ some '-' := by
  cases flags with
  | nil => exact absurd rfl hflags
  | cons f flags => cases f <;> simp [Flag.letter]

theorem scan_dashed {letters : List Char} (hne : letters ≠ []) (hdash : letters.head? ≠ some '-') (c : CommandLine)
    (rest : List String) : scan c [] (dashed letters :: rest) = scan c letters rest := by
  refine scan_letters c hne ?_ rest
  rintro rfl
  exact hdash rfl

theorem scan_flags_ungrouped {flags : List Flag} {letters : List Char} (hflags : flags ≠ []) (hne : letters ≠ [])
    (hdash : letters.head? ≠ some '-') (c : CommandLine) (rest : List String) :
    scan c [] (dashed (flags.map Flag.letter ++ letters) :: rest) =
      scan c [] (dashed (flags.map Flag.letter) :: dashed letters :: rest) := by
  have hhead := head?_flags_ne hflags
  have hfirst : flags.map Flag.letter ≠ [] := by simpa using hflags
  have halone := scan_flags flags [] c (dashed letters :: rest)
  rw [List.append_nil] at halone
  rw [scan_dashed (List.append_ne_nil_of_right_ne_nil _ hne) (hhead letters), scan_flags,
    scan_dashed hfirst (by simpa using hhead []), halone, scan_dashed hne hdash]

theorem scan_value_ungrouped {letter : Char} {value : List Char} (htakes : takesValue letter = true) (hne : value ≠ [])
    (c : CommandLine) (rest : List String) :
    scan c [] (dashed (letter :: value) :: rest) = scan c [] (dashed [letter] :: String.ofList value :: rest) := by
  have hdash : ∀ letters : List Char, (letter :: letters).head? ≠ some '-' := by
    rintro letters h
    obtain rfl := Option.some.inj h
    cases htakes
  rw [scan_dashed (List.cons_ne_nil _ _) (hdash value), scan_attached htakes hne,
    scan_dashed (List.cons_ne_nil _ _) (hdash []), scan_value htakes]

/-- **Grouping makes no difference.** Where options are expected, flags that share their dash with other letters can have
an element of their own before that of the other letters, unless the first of these is a dash; and a value that stands
behind its letter can have an element of its own after that of the letter. Whatever comes before and after, and also
where the whole is no command line, what is read is the same. -/
theorem read_ungrouped {before : List String} (h : expectsOption before = true) (after : List String) :
    (∀ (flags : List Flag) (letters : List Char), flags ≠ [] → letters ≠ [] → letters.head? ≠ some '-' →
      read (before ++ dashed (flags.map Flag.letter ++ letters) :: after) =
        read (before ++ dashed (flags.map Flag.letter) :: dashed letters :: after)) ∧
    ∀ (letter : Char) (value : List Char), takesValue letter = true → value ≠ [] →
      read (before ++ dashed (letter :: value) :: after) =
        read (before ++ dashed [letter] :: String.ofList value :: after) :=
  ⟨fun _ _ hflags hne hdash => read_append_congr h fun c => scan_flags_ungrouped hflags hne hdash c after,
    fun _ _ htakes hne => read_append_congr h fun c => scan_value_ungrouped htakes hne c after⟩

/-- Values that look like options are none, in front of what is taken apart and in it. -/
theorem read_ungrouped_tangled :
    let before := ["-v", "-f", "--", "-", "-Ep", "3", "-D", "-x=-E"]
    expectsOption before = true ∧
      read (before ++ ["-xhDa=1", "-h"]) = read (before ++ ["-xh", "-Da=1", "-h"]) ∧
      read (before ++ ["-D--", "-h"]) = read (before ++ ["-D", "--", "-h"]) := by
  intro before
  have hexpects : expectsOption before = true := by decide
  obtain ⟨hflags, hvalue⟩ := read_ungrouped hexpects ["-h"]
  exact ⟨hexpects, hflags [.evaluates, .help] "Da=1".toList (by decide) (by decide) (by decide),
    hvalue 'D' "--".toList rfl (by decide)⟩

end CommandLine

end Interpolate
