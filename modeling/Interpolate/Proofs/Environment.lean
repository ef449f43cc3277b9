import Interpolate.Proofs.History
import Interpolate.Proofs.LoadFaults
import Interpolate.Proofs.Program

/-!
# The environment out of sight

A lookup that may not ask the environment never does, whatever the texts of its entries and of its computed names
name in turn. This is a statement about two runs: what is different in the environment makes no difference to what comes
out, neither on the command line nor in a long use of one interpreter, where the lookup and the environment change
between the calls.

* **`Lookup.ask_eq_of_isolated`** — the only place where the environment is asked;
* **`Interpreter.Builder.environment_unseen_build`** — an interpreter that is built without the environment;
* **`Program.runCommand_eq_of_isolated`** — a command line that leaves the environment alone, through the files,
  definitions and texts that it gives;
* **`Event`**, **`Installation.run`** — what can be done with an interpreter in an environment, and the results of a
  sequence of such events;
* **`Installation.run_eq_run_inside`** — events in the environment can be left out, by induction along the sequence;
* **`environment_unseen`** — the whole.
-/

namespace Interpolate

section Isolated

variable {m : Type → Type}

/-! ## The permission to ask -/

/-- Loading definitions does not touch the permission to ask the environment. -/
theorem Lookup.usesEnvironment_load (l : Lookup m) (source text : String) :
    (l.load source text).1.usesEnvironment = l.usesEnvironment := by
  obtain ⟨es, -, hextend⟩ := l.exists_load_eq_extend source text
  rw [hextend]
  rfl

/-- Nor do the definitions of a command line. -/
theorem Program.usesEnvironment_define (l : Lookup m) (definitions : List (String × String)) :
    (Program.define l definitions).usesEnvironment = l.usesEnvironment := by
  induction definitions generalizing l with
  | nil => rfl
  | cons d definitions ih => exact ih (l.insert ⟨d.1, d.2, some "command line"⟩)

/-- The interpreter that a command line asks for may look at the environment just when its lookup may. -/
theorem Program.usesEnvironment_interpreter (c : CommandLine) (l : Lookup m) :
    (Program.interpreter c l).lookup.usesEnvironment = l.usesEnvironment := by
  rw [Program.interpreter, Interpreter.Builder.usesEnvironment_build]
  cases c.limit <;> exact usesEnvironment_define l c.definitions

variable [Monad m]

/-- A lookup that may not ask the environment gives the same answers in any environment. -/
theorem Lookup.ask_eq_of_isolated {l : Lookup m} (h : l.usesEnvironment = false)
    (environment environment' : (name : String) → m (Option String)) : l.ask environment = l.ask environment' := by
  have hunasked : l.environment? environment = l.environment? environment' := by
    funext name
    simp only [environment?, h, Bool.false_eq_true, if_false]
  funext name
  rw [ask, ask, hunasked]

namespace Interpreter

variable {i : Interpreter m} (h : i.lookup.usesEnvironment = false)
  (environment environment' : (name : String) → m (Option String)) (text : String) (o : Outcome String)

include h

theorem resolveInto_eq_of_isolated : i.resolveInto environment text o = i.resolveInto environment' text o := by
  rw [resolveInto, resolveInto, Lookup.ask_eq_of_isolated h environment environment']

theorem evaluateInto_eq_of_isolated : i.evaluateInto environment text o = i.evaluateInto environment' text o := by
  rw [evaluateInto, evaluateInto, Lookup.ask_eq_of_isolated h environment environment']

omit h

/-- **An interpreter built without the environment.** If what is asked of an interpreter forbids the environment, then it
resolves and evaluates texts alike in any environment, whatever lookup is asked for. -/
theorem Builder.environment_unseen_build {b : Builder m} (h : b.usesEnvironment = some false) (standard : Lookup m) :
    (b.build standard).resolve environment text = (b.build standard).resolve environment' text ∧
      (b.build standard).evaluate environment text = (b.build standard).evaluate environment' text := by
  have hisolated : (b.build standard).lookup.usesEnvironment = false := by
    rw [b.usesEnvironment_build, h, Option.getD_some]
  exact ⟨resolveInto_eq_of_isolated hisolated environment environment' text _,
    evaluateInto_eq_of_isolated hisolated environment environment' text _⟩

end Interpreter

/-! ## Command lines -/

namespace Program

variable (host : Host m) (environment : (name : String) → m (Option String))

/-- Files are loaded without a look at the environment. -/
theorem loadFiles_withEnvironment (l : Lookup m) (paths : List String) :
    loadFiles { host with environment } l paths = loadFiles host l paths := by
  induction paths generalizing l with
  | nil => rfl
  | cons path paths ih =>
    rw [loadFiles, loadFiles]
    simp only [ih]
    rfl

theorem reports_eq_of_isolated {i : Interpreter m} (h : i.lookup.usesEnvironment = false) (c : CommandLine)
    (texts : List String) : reports { host with environment } c i texts = reports host c i texts := by
  have hreport : ∀ text, report { host with environment } c i text = report host c i text := by
    intro text
    simp only [report, Interpreter.evaluate, Interpreter.resolve,
      Interpreter.evaluateInto_eq_of_isolated h environment host.environment,
      Interpreter.resolveInto_eq_of_isolated h environment host.environment]
  induction texts with
  | nil => rfl
  | cons text texts ih => rw [reports, reports, ih, hreport]

variable [LawfulMonad m]

/-- What is done with the files that are loaded has to be the same only for lookups with the permission that there was
before. -/
theorem bind_loadFiles_congr {β : Type} {rest rest' : Except DefinitionError (Lookup m) → m β} {l : Lookup m}
    (herror : ∀ error, rest (.error error) = rest' (.error error))
    (hok : ∀ l', l'.usesEnvironment = l.usesEnvironment → rest (.ok l') = rest' (.ok l')) (paths : List String) :
    loadFiles host l paths >>= rest = loadFiles host l paths >>= rest' := by
  induction paths generalizing l with
  | nil =>
    rw [loadFiles, pure_bind, pure_bind]
    exact hok l rfl
  | cons path paths ih =>
    simp only [loadFiles, Host.load, bind_assoc]
    congr 1
    funext content
    cases content with
    | error fault =>
      simp only [pure_bind]
      exact herror _
    | ok text =>
      have hkept := l.usesEnvironment_load path text
      rcases hload : l.load path text with ⟨l', error | count⟩
      · simp only [hload, pure_bind]
        exact herror error
      · rw [hload] at hkept
        simp only [hload, pure_bind]
        exact ih fun l'' h => hok l'' (h.trans hkept)

/-- A command line that leaves the environment alone. -/
theorem runCommand_eq_of_isolated {c : CommandLine} (h : c.isolated = true) :
    runCommand { host with environment } c = runCommand host c := by
  rw [runCommand, runCommand]
  split
  · rfl
  · have hlookup : Host.lookup { host with environment } = host.lookup := rfl
    rw [loadFiles_withEnvironment, hlookup]
    refine bind_loadFiles_congr host (fun error => ?_) (fun l hl => ?_) c.files
    · rfl
    have hisolated : (interpreter c l).lookup.usesEnvironment = false := by
      calc (interpreter c l).lookup.usesEnvironment = l.usesEnvironment := usesEnvironment_interpreter c l
        _ = !c.isolated := hl
        _ = false := by rw [h]; rfl
    exact reports_eq_of_isolated host environment hisolated c c.texts

end Program

end Isolated

/-! ## A long use of an interpreter -/

/-- What comes out of a call. -/
inductive Result where
  /-- definitions were loaded, as many as the count says, or as far as the error says -/
  | loaded (count : Except DefinitionError Nat)
  /-- a text was resolved -/
  | resolved (o : Outcome String)
  /-- a text was evaluated -/
  | evaluated (o : Outcome Value)

/-- What can happen to an interpreter in an environment. A text is resolved or evaluated going on from an outcome that
may depend on the number of passes allowed at that time, and on the results so far. -/
inductive Event (m : Type → Type) : Type 1 where
  /-- a change of the lookup, or of the environment -/
  | change (c : Change m)
  /-- definitions are loaded from a text -/
  | load (source text : String)
  /-- a new number of passes, filter and context -/
  | configure (limit : Nat) (filter : Filter) (context : Context)
  /-- a text is resolved -/
  | resolve (text : String) (start : (limit : Nat) → (results : List Result) → Outcome String)
  /-- a text is evaluated -/
  | evaluate (text : String) (start : (limit : Nat) → (results : List Result) → Outcome String)

namespace Event

variable {m : Type → Type}

/-- Whether the event could ask the environment. -/
def isCall : Event m → Bool
  | resolve .. | evaluate .. => true
  | _ => false

/-- Whether the event is more than a change of the environment. -/
def isInside : Event m → Bool
  | change (Change.set ..) | change (Change.unset _) => false
  | _ => true

end Event

/-- An interpreter in an environment. -/
structure Installation (m : Type → Type) where
  /-- the interpreter -/
  interpreter : Interpreter m
  /-- the environment -/
  environment : Environment

namespace Installation

variable {m : Type → Type} {s s' : Installation m}

/-- What an event leaves. -/
def after (s : Installation m) : Event m → Installation m
  | .change c =>
    let changed := Situation.apply ⟨s.interpreter.lookup, s.environment⟩ c
    ⟨{ s.interpreter with lookup := changed.lookup }, changed.environment⟩
  | .load source text => ⟨{ s.interpreter with lookup := (s.interpreter.lookup.load source text).1 }, s.environment⟩
  | .configure limit filter context => ⟨⟨s.interpreter.lookup, limit, filter, context⟩, s.environment⟩
  | .resolve .. | .evaluate .. => s

/-- Wherever a text is resolved or evaluated, the lookup that the events before leave may not ask the environment. -/
def IsIsolated (s : Installation m) (events : List (Event m)) : Prop :=
  ∀ before call others, events = before ++ call :: others → call.isCall = true →
    (before.foldl after s).interpreter.lookup.usesEnvironment = false

theorem isIsolated_nil (s : Installation m) : s.IsIsolated [] := by
  intro before call others h
  simp at h

theorem isIsolated_cons_iff {e : Event m} {events : List (Event m)} : s.IsIsolated (e :: events) ↔
    (e.isCall = true → s.interpreter.lookup.usesEnvironment = false) ∧ (s.after e).IsIsolated events := by
  constructor
  · intro h
    refine ⟨fun hcall => h [] e events rfl hcall, ?_⟩
    rintro before call others rfl hcall
    exact h (e :: before) call others rfl hcall
  · rintro ⟨hfirst, hmore⟩ before call others hevents hcall
    cases before with
    | nil =>
      obtain ⟨rfl, -⟩ := List.cons.inj hevents
      exact hfirst hcall
    | cons first before =>
      obtain ⟨rfl, hothers⟩ := List.cons.inj hevents
      exact hmore before call others hothers hcall

/-- What an event does to the interpreter does not depend on the environment. -/
theorem interpreter_after_congr (h : s.interpreter = s'.interpreter) (e : Event m) :
    (s.after e).interpreter = (s'.after e).interpreter := by
  cases e with
  | change c => cases c <;> simp only [after, Situation.apply, h]
  | load source text => simp only [after, h]
  | configure limit filter context => simp only [after, h]
  | resolve text start => exact h
  | evaluate text start => exact h

/-- A change of the environment leaves the interpreter as it is. -/
theorem interpreter_after_of_outside {e : Event m} (h : e.isInside = false) (s : Installation m) :
    (s.after e).interpreter = s.interpreter := by
  cases e with
  | change c =>
    cases c with
    | set | unset => rfl
    | add | remove | register | unregister | withoutComputed | withEnvironment => cases h
  | load | configure | resolve | evaluate => cases h

theorem isIsolated_filter_iff {events : List (Event m)} (h : s.interpreter = s'.interpreter) :
    s.IsIsolated events ↔ s'.IsIsolated (events.filter Event.isInside) := by
  induction events generalizing s s' with
  | nil => exact iff_of_true s.isIsolated_nil s'.isIsolated_nil
  | cons e events ih =>
    cases he : e.isInside with
    | true =>
      rw [List.filter_cons_of_pos he, isIsolated_cons_iff, isIsolated_cons_iff, h, ih (interpreter_after_congr h e)]
    | false =>
      have hcall : e.isCall = false := by
        cases e with
        | change | load | configure => rfl
        | resolve | evaluate => cases he
      rw [List.filter_cons_of_neg (by simp [he]), isIsolated_cons_iff, hcall]
      simp only [Bool.false_eq_true, false_implies, true_and]
      exact ih ((s.interpreter_after_of_outside he).trans h)

variable [Monad m]

/-- The results so far, with what comes out of an event. -/
def note (s : Installation m) (results : List Result) : Event m → m (List Result)
  | .change _ | .configure .. => pure results
  | .load source text => pure (results ++ [.loaded (s.interpreter.lookup.load source text).2])
  | .resolve text start => do
    let o ← s.interpreter.resolveInto (fun name => pure (s.environment.get? name)) text
      (start s.interpreter.limit results)
    return results ++ [.resolved o]
  | .evaluate text start => do
    let o ← s.interpreter.evaluateInto (fun name => pure (s.environment.get? name)) text
      (start s.interpreter.limit results)
    return results ++ [.evaluated o]

/-- The results of one event after another. -/
def run (s : Installation m) (results : List Result) : (events : List (Event m)) → m (List Result)
  | [] => pure results
  | e :: events => do run (s.after e) (← s.note results e) events

/-- What comes out of an event does not depend on the environment, if the lookup may not ask it. -/
theorem note_congr (h : s.interpreter = s'.interpreter) {e : Event m}
    (hisolated : e.isCall = true → s.interpreter.lookup.usesEnvironment = false) (results : List Result) :
    s.note results e = s'.note results e := by
  cases e with
  | change | configure => rfl
  | load source text => rw [note, note, h]
  | resolve text start =>
    rw [note, note, ← h, Interpreter.resolveInto_eq_of_isolated (hisolated rfl)]
  | evaluate text start =>
    rw [note, note, ← h, Interpreter.evaluateInto_eq_of_isolated (hisolated rfl)]

theorem note_of_outside {e : Event m} (h : e.isInside = false) (s : Installation m) (results : List Result) :
    s.note results e = pure results := by
  cases e with
  | change => rfl
  | load | configure | resolve | evaluate => cases h

variable [LawfulMonad m]

/-- **Events in the environment can be left out.** -/
theorem run_eq_run_inside {events : List (Event m)} (h : s.interpreter = s'.interpreter)
    (hisolated : s.IsIsolated events) (results : List Result) :
    s.run results events = s'.run results (events.filter Event.isInside) := by
  -- along the events; the interpreters stay the same, whatever becomes of the environments
  induction events generalizing s s' results with
  | nil => rfl
  | cons e events ih =>
    obtain ⟨hfirst, hmore⟩ := isIsolated_cons_iff.mp hisolated
    cases he : e.isInside with
    | true =>
      rw [List.filter_cons_of_pos he, run, run, note_congr h hfirst]
      simp only [ih (interpreter_after_congr h e) hmore]
    | false =>
      rw [List.filter_cons_of_neg (by simp [he]), run, note_of_outside he, pure_bind]
      exact ih ((s.interpreter_after_of_outside he).trans h) hmore results

/-- Two uses with the same events apart from those in the environment have the same results. -/
theorem run_congr {events events' : List (Event m)} (h : s.interpreter = s'.interpreter)
    (hisolated : s.IsIsolated events) (hinside : events.filter Event.isInside = events'.filter Event.isInside)
    (results : List Result) : s.run results events = s'.run results events' := by
  have hisolated' : s'.IsIsolated events' := by
    rw [isIsolated_filter_iff rfl, ← hinside, ← isIsolated_filter_iff h]
    exact hisolated
  calc s.run results events = s'.run results (events.filter Event.isInside) := run_eq_run_inside h hisolated results
    _ = s'.run results (events'.filter Event.isInside) := by rw [hinside]
    _ = s'.run results events' := (run_eq_run_inside rfl hisolated' results).symm

end Installation

/-! ## Nothing shows through -/

/-- **The environment is out of sight where it may not be asked.**

* Let a command line say that the environment is to be left alone. With the same files, time and working directory, the
  program writes the same lines to the same channels and ends with the same status, whatever the environment.
* Let an interpreter be used, with changes to its lookup and its other settings, definitions that are loaded, and texts
  that are resolved and evaluated, each from an outcome that may depend on the results before. Let the lookup not be
  allowed to ask the environment wherever a text is resolved or evaluated. All results are the same, whatever the
  environment is at first and however it changes on the way. -/
theorem environment_unseen {m : Type → Type} [Monad m] [LawfulMonad m] (host : Host m)
    (environment : (name : String) → m (Option String)) (i : Interpreter m) (first first' : Environment) :
    (∀ elements c, CommandLine.read elements = .ok c → c.isolated = true →
        Program.run { host with environment } elements = Program.run host elements) ∧
      ∀ events events' : List (Event m), Installation.IsIsolated ⟨i, first⟩ events →
        events.filter Event.isInside = events'.filter Event.isInside →
          Installation.run ⟨i, first⟩ [] events = Installation.run ⟨i, first'⟩ [] events' := by
  refine ⟨fun elements c hread hc => ?program, fun events events' hisolated hinside => ?calls⟩
  case program =>
    rw [Program.run, Program.run, hread]
    exact Program.runCommand_eq_of_isolated host environment hc
  case calls =>
    refine Installation.run_congr ?_ hisolated hinside []
    rfl

/-- A lookup that is shut off, with an entry that names a variable; a text is resolved before the variable is set, and
again after it. -/
def shutOff : List (Event Id) :=
  [.change (.withEnvironment false), .change (.add "home" "$\x7bHOME\x7d" none),
    .resolve "$\x7bhome\x7d" fun limit _ => .fresh limit, .change (.set "HOME" [47]),
    .evaluate "$\x7bhome\x7d" fun limit _ => .fresh limit]

theorem isIsolated_shutOff (s : Installation Id) : s.IsIsolated shutOff := by
  simp only [shutOff, Installation.isIsolated_cons_iff]
  exact ⟨nofun, nofun, fun _ => rfl, nofun, fun _ => rfl, Installation.isIsolated_nil _⟩

/-- A variable is seen neither by the program nor by the calls. -/
theorem environment_unseen_shutOff :
    let elements := ["-E", "$\x7bHOME\x7d"]
    let c := { CommandLine.empty with isolated := true, texts := ["$\x7bHOME\x7d"] }
    let environment := fun name => if name = "HOME" then some "/root" else none
    let i : Interpreter Id := .standard Program.modest.lookup
    let others := shutOff.filter Event.isInside
    CommandLine.read elements = .ok c ∧ c.isolated = true ∧ Installation.IsIsolated ⟨i, ⟨[]⟩⟩ shutOff ∧
      shutOff.filter Event.isInside = others.filter Event.isInside ∧
      Program.run { Program.modest with environment } elements = Program.run Program.modest elements ∧
      Installation.run ⟨i, ⟨[]⟩⟩ [] shutOff = Installation.run ⟨i, ⟨[("HOME", [46])]⟩⟩ [] others := by
  intro elements c environment i others
  have hleads : CommandLine.Leads ["-E"] .empty { CommandLine.empty with isolated := true } :=
    CommandLine.leads_flag .isolated .empty
  have hread : CommandLine.read elements = .ok c :=
    CommandLine.read_options hleads rfl (List.cons_ne_nil _ []) (.bare (by decide))
  have hinside : shutOff.filter Event.isInside = others.filter Event.isInside := by
    rw [List.filter_filter]
    simp only [Bool.and_self]
  obtain ⟨hprogram, hcalls⟩ := environment_unseen Program.modest environment i ⟨[]⟩ ⟨[("HOME", [46])]⟩
  exact ⟨hread, rfl, isIsolated_shutOff _, hinside, hprogram elements c hread rfl,
    hcalls shutOff others (isIsolated_shutOff _) hinside⟩

end Interpolate
