import Interpolate.Program
import Interpolate.Proofs.CommandLine
import Interpolate.Proofs.Session

/-!
# Runs of the program

A run tries its texts one after another, with the same lookup and a fresh outcome for each. No text has an effect on
another one: what the run writes is what runs with fewer texts would write, put together.

* **`Report.append`** — reports form a monoid; what is written and the status follow it;
* **`CommandLine.Gives`** — the ways to give texts after options;
* **`Program.succeeds`** — whether a text alone has a value;
* **`Program.reports_append`**, **`Program.status_reports`** — texts that are tried, by induction along them;
* **`Program.run_texts`** — whole runs.
-/

namespace Interpolate

open MonadAttach (CanReturn)

/-! ## Reports -/

namespace Report

theorem empty_append (r : Report) : empty.append r = r := by
  obtain ⟨lines, status⟩ := r
  simp [append, empty]

theorem append_assoc (r s t : Report) : (r.append s).append t = r.append (s.append t) := by
  simp only [append, List.append_assoc, Nat.max_assoc]

/-- What is written to a channel is written in order. -/
theorem written_append (r s : Report) (channel : Channel) :
    (r.append s).written channel = r.written channel ++ s.written channel := by
  rw [written, append, List.filter_append, List.map_append, String.join_append]
  rfl

/-- A text with a value is a success, one without is a failure. -/
theorem status_ofOutcome {α : Type} {o : Outcome α} (h : o.Decided) (spell : α → String) (verbose : Bool) :
    (ofOutcome spell verbose o).status = if o.value.isSome then 0 else 1 := by
  rcases h with ⟨value, hvalue, hfault⟩ | ⟨fault, hvalue, hfault⟩
  · simp only [ofOutcome, hvalue, hfault]
    rfl
  · simp only [ofOutcome, hvalue, hfault]
    rfl

end Report

/-! ## Texts on the command line -/

namespace CommandLine

/-- Elements that give texts: the texts themselves, and `--` before the first one that could be taken for an option, or
earlier. -/
inductive Gives : (texts elements : List String) → Prop where
  /-- without `--`, no text looks like an option -/
  | bare {texts : List String} (plain : ∀ text ∈ texts, isText text = true) : Gives texts texts
  /-- after `--`, any text is a text -/
  | ended {texts : List String} (plain : ∀ text ∈ texts, isText text = true) (others : List String) :
    Gives (texts ++ others) (texts ++ "--" :: others)

/-- Texts that do not look like options are read as texts. -/
theorem leads_texts {texts : List String} (h : ∀ text ∈ texts, isText text = true) (c : CommandLine) :
    Leads texts c { c with texts := c.texts ++ texts } := by
  induction texts generalizing c with
  | nil =>
    rw [List.append_nil]
    exact leads_nil c
  | cons text texts ih =>
    intro rest
    have htext : isText text = true := h text (List.mem_cons_self ..)
    have hend : text ≠ "--" := by
      rintro rfl
      exact absurd htext (by decide)
    have hmore := ih (fun t ht => h t (List.mem_cons_of_mem _ ht)) { c with texts := c.texts ++ [text] } rest
    rw [List.cons_append, scan, if_neg hend, if_pos htext, hmore, List.append_assoc, List.singleton_append]

theorem Gives.scan_eq {texts elements : List String} (h : Gives texts elements) (c : CommandLine) :
    scan c [] elements = .ok { c with texts := c.texts ++ texts } := by
  cases h with
  | bare plain =>
    have hscan := leads_texts plain c []
    rw [List.append_nil] at hscan
    rw [hscan, scan]
  | ended plain others => rw [leads_texts plain c, scan_texts, List.append_assoc]

/-- Options with texts after them are read as what the options say with those texts. -/
theorem read_options {options : List String} {c : CommandLine} (hoptions : Leads options empty c) (hbare : c.texts = [])
    {texts elements : List String} (hne : texts ≠ []) (hgives : Gives texts elements) :
    read (options ++ elements) = .ok { c with texts } := by
  have hwork : (texts.isEmpty && !c.help) = false := by simp [hne]
  rw [read, hoptions, hgives.scan_eq, hbare]
  simp only [bind, Except.bind, List.nil_append, hwork, Bool.false_eq_true, if_false]

end CommandLine

/-! ## Texts one after another -/

namespace Program

variable (host : Host Id) (c : CommandLine) (i : Interpreter Id)

/-- Whether a text, tried alone, has a value. -/
def succeeds (text : String) : Bool :=
  if c.evaluates then (Id.run (i.evaluate host.environment text)).value.isSome
  else (Id.run (i.resolve host.environment text)).value.isSome

/-- What a computation without effects gives is something it can give. -/
theorem canReturn_run {α : Type} (x : Id α) : CanReturn x (Id.run x) :=
  rfl

theorem status_report (text : String) :
    (Id.run (report host c i text)).status = if succeeds host c i text then 0 else 1 := by
  have hevaluate : (Id.run (i.evaluate host.environment text)).Decided :=
    (continues_of_canReturn_evaluate (canReturn_run _)).2
  have hresolve : (Id.run (i.resolve host.environment text)).Decided :=
    (continues_of_canReturn_resolve (canReturn_run _)).2
  rw [report, succeeds]
  split
  · exact Report.status_ofOutcome hevaluate ..
  · exact Report.status_ofOutcome hresolve ..

theorem reports_cons (text : String) (texts : List String) : Id.run (reports host c i (text :: texts)) =
    (Id.run (report host c i text)).append (Id.run (reports host c i texts)) :=
  rfl

/-- Trying texts is trying the first of them and then the others. -/
theorem reports_append (texts texts' : List String) : Id.run (reports host c i (texts ++ texts')) =
    (Id.run (reports host c i texts)).append (Id.run (reports host c i texts')) := by
  induction texts with
  | nil => exact (Report.empty_append _).symm
  | cons text texts ih => rw [List.cons_append, reports_cons, reports_cons, ih, Report.append_assoc]

/-- The status says whether every text has a value. -/
theorem status_reports (texts : List String) :
    (Id.run (reports host c i texts)).status = if texts.all (succeeds host c i) then 0 else 1 := by
  induction texts with
  | nil => rfl
  | cons text texts ih =>
    rw [reports_cons, Report.append, ih, status_report, List.all_cons]
    cases succeeds host c i text <;> cases texts.all (succeeds host c i) <;> rfl

/-- The texts of the command line itself are not looked at. -/
theorem reports_withTexts (texts texts' : List String) :
    reports host { c with texts } i texts' = reports host c i texts' := by
  induction texts' with
  | nil => rfl
  | cons text texts' ih =>
    rw [reports, ih]
    rfl

/-! ## Whole runs -/

section Runs

variable {host c} {options : List String} {l : Lookup Id}

/-- A run with options and texts tries the texts. -/
theorem run_options (hoptions : CommandLine.Leads options .empty c) (hbare : c.texts = []) (hhelp : c.help = false)
    (hload : Id.run (loadFiles host (host.lookup.withEnvironment !c.isolated) c.files) = .ok l)
    {texts elements : List String} (hne : texts ≠ []) (hgives : CommandLine.Gives texts elements) :
    Id.run (run host (options ++ elements)) = Id.run (reports host c (interpreter c l) texts) := by
  have hnohelp : ¬ ({ c with texts } : CommandLine).help = true := by simp [hhelp]
  rw [run, CommandLine.read_options hoptions hbare hne hgives]
  dsimp only
  rw [runCommand, if_neg hnohelp, Id.run_bind]
  dsimp only
  rw [hload]
  exact congrArg Id.run (reports_withTexts host c (interpreter c l) texts texts)

/-- **Texts are tried independently of each other.** Let some options be read and their definition files be loaded, and
let them not call for help. A run with some texts and then others writes, to each channel, what a run with the former
writes and after it what a run with the latter writes, and has the greater of the two statuses. The status of a run is 0
if each of its texts, tried alone, has a value, and 1 otherwise. -/
theorem run_texts (hoptions : CommandLine.Leads options .empty c) (hbare : c.texts = []) (hhelp : c.help = false)
    (hload : Id.run (loadFiles host (host.lookup.withEnvironment !c.isolated) c.files) = .ok l)
    {texts texts' elements elements' elements'' : List String} (hne : texts ≠ []) (hne' : texts' ≠ [])
    (hgives : CommandLine.Gives texts elements) (hgives' : CommandLine.Gives texts' elements')
    (hboth : CommandLine.Gives (texts ++ texts') elements'') :
    let first := Id.run (run host (options ++ elements))
    let second := Id.run (run host (options ++ elements'))
    let both := Id.run (run host (options ++ elements''))
    (∀ channel, both.written channel = first.written channel ++ second.written channel) ∧
      both.status = max first.status second.status ∧
        first.status = if texts.all (succeeds host c (interpreter c l)) then 0 else 1 := by
  intro first second both
  have hfirst : first = _ := run_options hoptions hbare hhelp hload hne hgives
  have happend : both = first.append second := by
    rw [hfirst, show second = _ from run_options hoptions hbare hhelp hload hne' hgives', ← reports_append]
    exact run_options hoptions hbare hhelp hload (by simp [hne]) hboth
  refine ⟨fun channel => ?_, ?_, ?_⟩
  · rw [happend, Report.written_append]
  · rw [happend]
    rfl
  · rw [hfirst, status_reports]

/-- A host with one variable and one file. -/
def modest : Host Id where
  environment name := if name = "HOME" then some "/home" else none
  readFile path := if path = "vars" then .ok "b = 3" else .error .missing
  time := ⟨1970, 1, 1, 4, 0, 0, 0⟩
  workingDirectory := .ok "/"

/-- What `-xv -f vars -D a=2` says. -/
def evaluating : CommandLine :=
  { CommandLine.empty with files := ["vars"], definitions := [("a", "2")], evaluates := true, verbose := true }

theorem leads_evaluating : CommandLine.Leads ["-xv", "-f", "vars", "-D", "a=2"] .empty evaluating := by
  have hflags : CommandLine.Leads ["-xv"] .empty { CommandLine.empty with evaluates := true, verbose := true } := by
    intro rest
    exact (CommandLine.scan_letters .empty (List.cons_ne_nil 'x' ['v']) (by decide) rest).trans
      ((CommandLine.scan_flag _ .evaluates _ _).trans (CommandLine.scan_flag _ .verbose _ _))
  have hvalid : ∀ s ∈ [CommandLine.Setting.file "vars", .definition "a" "2"], s.IsValid := by decide
  exact hflags.append (CommandLine.leads_settings hvalid _)

/-- A text that looks like an option, and one that has no value, after one that has a value. -/
theorem run_texts_evaluating :
    let l := (modest.lookup.withEnvironment true).insert ⟨"b", "3", some "vars:1"⟩
    let options := ["-xv", "-f", "vars", "-D", "a=2"]
    let texts := ["$\x7ba\x7d * $\x7bb\x7d"]
    let texts' := ["-1", "$\x7bnone\x7d"]
    let first := Id.run (run modest (options ++ texts))
    let second := Id.run (run modest (options ++ "--" :: texts'))
    let both := Id.run (run modest (options ++ (texts ++ "--" :: texts')))
    CommandLine.Leads options .empty evaluating ∧ evaluating.texts = [] ∧ evaluating.help = false ∧
      Id.run (loadFiles modest (modest.lookup.withEnvironment !evaluating.isolated) evaluating.files) = .ok l ∧
      (∀ channel, both.written channel = first.written channel ++ second.written channel) ∧
      both.status = max first.status second.status ∧
        first.status = if texts.all (succeeds modest evaluating (interpreter evaluating l)) then 0 else 1 := by
  intro l options texts texts' first second both
  have hload : Id.run (loadFiles modest (modest.lookup.withEnvironment !evaluating.isolated) evaluating.files) = .ok l := by
    rfl
  exact ⟨leads_evaluating, rfl, rfl, hload, run_texts leads_evaluating rfl rfl hload (by decide) (by decide)
    (.bare (by decide)) (.ended (List.forall_mem_nil _) texts') (.ended (by decide) texts')⟩

end Runs

end Program

end Interpolate
