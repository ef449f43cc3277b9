import Interpolate.Proofs.Composition

/-!
# The steps of a resolution

The steps that are noted tell the whole run: the text at the start, for each pass what the name stands for and which text
comes out, and what ended the passes. They are said here once more, from a run of rewriting alone.

* **`Filling`**, **`Replay`** — what a pass does, and a run with everything its passes do;
* **`Stop`** — what ends a run, with the steps that are left to note then;
* **`steps_passes`** — the loop notes the steps of its passes, and those of its end;
* **`Interpreter.steps_resolve`** — the steps of every resolution.
-/

namespace Interpolate

theorem Answer.value?_eq_some_iff {answer : Answer} {value : String} :
    answer.value? = some value ↔ ∃ origin, answer = .found value origin := by
  cases answer with
  | found v origin => simp [Answer.value?]
  | failed description => simp [Answer.value?]
  | unknown => simp [Answer.value?]

namespace Resolution

/-! ## Runs with all that their passes do -/

/-- What a pass does. -/
structure Filling where
  /-- the name that is asked for -/
  name : String
  /-- the text that it stands for -/
  value : String
  /-- where that comes from, if it is known -/
  origin : Option String
  /-- the text after the pass -/
  next : List Char

/-- The steps of a pass with that number. -/
def Filling.steps (filling : Filling) (number : Nat) : List String :=
  [foundStep filling.name filling.value filling.origin,
    "pass: " ++ toString number ++ " -> " ++ String.ofList filling.next]

/-- The steps of passes that come after `count` others. -/
def stepsAfter (count : Nat) (fillings : List Filling) : List String :=
  (fillings.zipIdx (count + 1)).flatMap fun (filling, number) => filling.steps number

section Relations

variable (answer : (name : String) → Answer)

/-- A run from a text to another one, with what its passes do: each fills the last placeholder. -/
inductive Replay : (text : List Char) → (fillings : List Filling) → (final : List Char) → Prop where
  /-- no pass changes nothing -/
  | refl (text : List Char) : Replay text [] text
  /-- one pass, and those after it -/
  | fill {text final : List Char} {p : Placeholder} {value : String} {origin : Option String}
      {fillings : List Filling} (last : p.IsLast text) (known : answer (String.ofList p.name) = .found value origin)
      (more : Replay (p.fill value.toList) fillings final) :
      Replay text (⟨String.ofList p.name, value, origin, p.fill value.toList⟩ :: fillings) final

/-- What ends a run at a text, after `count` passes where `limit` are allowed: the steps that are noted then, and the value
or the fault. -/
inductive Stop (limit count : Nat) (final : List Char) :
    (steps : List String) → (value : Option String) → (fault : Option Fault) → Prop where
  /-- no placeholder is left -/
  | resolved (done : ∀ p : Placeholder, ¬ p.OccursIn final) : Stop limit count final [] (some (String.ofList final)) none
  /-- the next name has no text -/
  | refused {p : Placeholder} {fault : Fault} (last : p.IsLast final)
      (unknown : (answer (String.ofList p.name)).fault? (String.ofList p.name) = some fault) :
      Stop limit count final ["error: " ++ fault.message] none (some fault)
  /-- the next name has a text, but there is no pass left for it -/
  | spent {p : Placeholder} {value : String} {origin : Option String} (full : count = limit) (last : p.IsLast final)
      (known : answer (String.ofList p.name) = .found value origin) :
      Stop limit count final
        [foundStep (String.ofList p.name) value origin, "too many passes", "error: Too many passes"] none
        (some (.tooManyPasses limit))

end Relations

variable {answer : (name : String) → Answer} {text final : List Char} {fillings : List Filling}

theorem stepsAfter_cons (count : Nat) (filling : Filling) (fillings : List Filling) :
    stepsAfter count (filling :: fillings) = filling.steps (count + 1) ++ stepsAfter (count + 1) fillings := by
  rw [stepsAfter, List.zipIdx_cons, List.flatMap_cons, stepsAfter]

/-- Every run is one whose passes do something. -/
theorem RewritesIn.exists_replay {n : Nat} (h : RewritesIn answer n text final) :
    ∃ fillings, fillings.length = n ∧ Replay answer text fillings final := by
  induction h with
  | refl text => exact ⟨[], rfl, .refl text⟩
  | @step n text next final first _ ih =>
    obtain ⟨fillings, hlength, hreplay⟩ := ih
    cases first with
    | @fill p value last known =>
      obtain ⟨origin, hknown⟩ := Answer.value?_eq_some_iff.mp known
      exact ⟨_ :: fillings, congrArg (· + 1) hlength, .fill last hknown hreplay⟩

theorem Replay.rewritesIn (h : Replay answer text fillings final) :
    RewritesIn answer fillings.length text final := by
  induction h with
  | refl text => exact .refl text
  | fill last known _ ih => exact .step (.fill last (Answer.value?_eq_some_iff.mpr ⟨_, known⟩)) ih

/-- A run and what ends it are a verdict. -/
theorem Replay.verdict {limit : Nat} {steps : List String} {value : Option String} {fault : Option Fault}
    (h : Replay answer text fillings final) (within : fillings.length ≤ limit)
    (stop : Stop answer limit fillings.length final steps value fault) :
    ∃ passes, Verdict answer limit 0 text value fault passes := by
  have hrun := h.rewritesIn
  rw [← Nat.zero_add fillings.length] at within
  cases stop with
  | resolved done => exact ⟨_, .resolved hrun within done⟩
  | refused last unknown => exact ⟨_, .refused hrun within last unknown⟩
  | spent full last known =>
    have hlast : Rewrites answer final _ := .fill last (Answer.value?_eq_some_iff.mpr ⟨_, known⟩)
    have hmore := hrun.trans (.step hlast (.refl _))
    rw [full] at hmore
    exact ⟨_, .spent hmore⟩

/-- A verdict is reached by a run with an end. -/
theorem Verdict.exists_replay {limit passes : Nat} {value : Option String} {fault : Option Fault}
    (h : Verdict answer limit 0 text value fault passes) :
    ∃ fillings final steps, Replay answer text fillings final ∧ fillings.length ≤ limit ∧
      Stop answer limit fillings.length final steps value fault := by
  cases h with
  | @resolved n final run within done =>
    obtain ⟨fillings, rfl, hreplay⟩ := run.exists_replay
    exact ⟨fillings, final, _, hreplay, by omega, .resolved done⟩
  | @refused n final p f run within last unknown =>
    obtain ⟨fillings, rfl, hreplay⟩ := run.exists_replay
    exact ⟨fillings, final, _, hreplay, by omega, .refused last unknown⟩
  | @spent final run =>
    -- the last of the steps is the one too many
    obtain ⟨middle, hmiddle⟩ := RewritesIn.take (k := 1) run
    cases hmiddle.drop run with
    | step first _ =>
      cases first with
      | fill last known =>
        obtain ⟨origin, hknown⟩ := Answer.value?_eq_some_iff.mp known
        obtain ⟨fillings, hlength, hreplay⟩ := hmiddle.exists_replay
        exact ⟨fillings, middle, _, hreplay, Nat.le_of_eq hlength, .spent hlength last hknown⟩

end Resolution

/-! ## What the loop notes -/

namespace Outcome

variable {o : Outcome String} {name : String} {next : List Char}

theorem steps_record_of_fault {answer : Answer} {fault : Fault} (h : answer.fault? name = some fault) :
    (o.record name answer).steps = o.steps ++ ["error: " ++ fault.message] := by
  cases answer with
  | found => cases h
  | failed => cases h; rfl
  | unknown => cases h; rfl

theorem steps_tally (o : Outcome String) (name value : String) (origin : Option String) (next : List Char) :
    (o.tally name (.found value origin) next).steps =
      o.steps ++ Resolution.Filling.steps ⟨name, value, origin, next⟩ (o.passes + 1) :=
  List.append_assoc ..

theorem steps_overrun (o : Outcome String) (name value : String) (origin : Option String) (next : List Char) :
    (o.overrun name (.found value origin) next).steps =
      o.steps ++ [foundStep name value origin, "too many passes", "error: Too many passes"] := by
  have hmessage : "error: Too many passes" = "error: " ++ (Fault.tooManyPasses o.limit).message := rfl
  rw [hmessage, overrun, record]
  simp only [fail, addStep, List.append_assoc, List.cons_append, List.nil_append]

end Outcome

namespace Resolution

variable {answer : (name : String) → Answer} {text final : List Char} {fillings : List Filling}

/-- **The loop notes the steps of its passes, and those of its end.** -/
theorem steps_passes (replay : Replay answer text fillings final) (o : Outcome String)
    (within : o.passes + fillings.length ≤ o.limit) {steps : List String} {value : Option String} {fault : Option Fault}
    (stop : Stop answer o.limit (o.passes + fillings.length) final steps value fault) :
    (Id.run (passes answer text o)).steps = o.steps ++ stepsAfter o.passes fillings ++ steps := by
  -- on the run; the outcome after a pass has the steps of the pass
  induction replay generalizing o with
  | refl text =>
    cases stop with
    | resolved done =>
      rw [passes_done done]
      simp [stepsAfter]
    | refused last unknown =>
      rw [passes_refused last (Answer.value?_eq_none_iff.mpr ⟨_, unknown⟩)]
      simp [stepsAfter, Outcome.steps_record_of_fault unknown]
    | spent full last known =>
      rw [passes_fill last (Answer.value?_eq_some_iff.mpr ⟨_, known⟩)]
      rw [List.length_nil, Nat.add_zero] at full
      dsimp only
      rw [if_pos (by omega), known, Outcome.steps_overrun]
      simp [stepsAfter]
  | @fill text final p value origin fillings last known more ih =>
    rw [List.length_cons] at within stop
    rw [passes_fill last (Answer.value?_eq_some_iff.mpr ⟨_, known⟩)]
    dsimp only
    rw [if_neg (by omega), known]
    have hmore := ih (o.tally (String.ofList p.name) (.found value origin) (p.fill value.toList))
    rw [Outcome.limit_tally, Outcome.passes_tally, Outcome.steps_tally] at hmore
    rw [Nat.add_assoc, Nat.add_comm 1] at hmore
    rw [hmore within stop, stepsAfter_cons, ← List.append_assoc o.steps]

end Resolution

open Resolution

/-- **The steps replay the run.** A text with a dollar sign is resolved by passes within the limit, one after another,
until no placeholder is left, a name has no text, or all passes allowed are made and one more can be. Whatever the passes
are and what ends them, the steps are: the text at the start; for each pass the text its name stands for (with where that
comes from, if it is known) and the text after the pass with its number; after that nothing more if the last text is the
value, the message of the fault if a name has none, and at the limit the text of the next name and the complaint. -/
theorem Interpreter.steps_resolve (i : Interpreter Id) (environment : (name : String) → Option String) (text : String)
    (hdollar : '$' ∈ text.toList) :
    let answer := i.lookup.answers environment
    let o := Id.run (i.resolve environment text)
    (∃ fillings final steps, Replay answer text.toList fillings final ∧ fillings.length ≤ i.limit ∧
      Stop answer i.limit fillings.length final steps o.value o.fault) ∧
    ∀ fillings final steps value fault, Replay answer text.toList fillings final → fillings.length ≤ i.limit →
      Stop answer i.limit fillings.length final steps value fault →
        o.steps = ["start: " ++ text] ++ stepsAfter 0 fillings ++ steps ∧ o.value = value ∧ o.fault = fault := by
  intro answer o
  have hverdict : Verdict answer i.limit 0 text.toList o.value o.fault o.passes :=
    Interpreter.resolve_reports_iff.mp ⟨rfl, rfl, rfl⟩
  refine ⟨hverdict.exists_replay, fun fillings final steps value fault replay within stop => ⟨?_, ?_⟩⟩
  · have hstart : o = (Id.run (passes answer text.toList
        ((Outcome.fresh i.limit).addStep ("start: " ++ text)))).settle := if_pos (by simpa using hdollar)
    rw [hstart]
    exact steps_passes replay ((Outcome.fresh i.limit).addStep ("start: " ++ text))
      (by simpa [Outcome.fresh] using within) (by simpa [Outcome.fresh] using stop)
  · obtain ⟨passes, hverdict'⟩ := replay.verdict within stop
    obtain ⟨hvalue, hfault, -⟩ := hverdict.unique hverdict'
    exact ⟨hvalue, hfault⟩

/-- An interpreter that knows a child, from the first line of a file, and its parent. -/
def registry : Interpreter Id :=
  .standard ((Lookup.empty.add "child" "Zack" (some "family.txt:1")).add "parent_Zack" "duane" none)

theorem answers_registry :
    registry.lookup.answers (fun _ => none) "child" = .found "Zack" (some "family.txt:1") ∧
      registry.lookup.answers (fun _ => none) "parent_Zack" = .found "duane" none :=
  ⟨Lookup.answers_of_entry (e := ⟨"child", "Zack", some "family.txt:1"⟩) (by decide),
    Lookup.answers_of_entry (e := ⟨"parent_Zack", "duane", none⟩) (by decide)⟩

theorem isLast_parent :
    Placeholder.IsLast ⟨"Double ".toList, "parent_Zack".toList, []⟩ "Double $\x7bparent_Zack\x7d".toList :=
  .of_not_mem (by decide) List.not_mem_nil

theorem replay_registry :
    let answer := registry.lookup.answers fun _ => none
    let first : Filling := ⟨"child", "Zack", some "family.txt:1", "Double $\x7bparent_Zack\x7d".toList⟩
    let second : Filling := ⟨"parent_Zack", "duane", none, "Double duane".toList⟩
    Replay answer "Double $\x7bparent_$\x7bchild\x7d\x7d".toList [first] first.next ∧
      Replay answer "Double $\x7bparent_$\x7bchild\x7d\x7d".toList [first, second] second.next := by
  intro answer first second
  have hinner : Placeholder.IsLast ⟨"Double $\x7bparent_".toList, "child".toList, ['\x7d']⟩ _ :=
    .of_not_mem (by decide) (by decide)
  have hsecond : Replay answer first.next [second] second.next := .fill isLast_parent answers_registry.2 (.refl _)
  exact ⟨.fill hinner answers_registry.1 (.refl _), .fill hinner answers_registry.1 hsecond⟩

/-- The steps of two passes, and those where only one is allowed. -/
theorem Interpreter.steps_resolve_registry :
    let text := "Double $\x7bparent_$\x7bchild\x7d\x7d"
    '$' ∈ text.toList ∧
      (Id.run (registry.resolve (fun _ => none) text)).steps =
        ["start: Double $\x7bparent_$\x7bchild\x7d\x7d", "child -> Zack (family.txt:1)",
          "pass: 1 -> Double $\x7bparent_Zack\x7d", "parent_Zack -> duane", "pass: 2 -> Double duane"] ∧
      (Id.run ({ registry with limit := 1 }.resolve (fun _ => none) text)).steps =
        ["start: Double $\x7bparent_$\x7bchild\x7d\x7d", "child -> Zack (family.txt:1)",
          "pass: 1 -> Double $\x7bparent_Zack\x7d", "parent_Zack -> duane", "too many passes",
          "error: Too many passes"] := by
  intro text
  have hdollar : '$' ∈ text.toList := by decide
  obtain ⟨hfirst, hboth⟩ := replay_registry
  have hdone : ∀ p : Placeholder, ¬ p.OccursIn "Double duane".toList :=
    Placeholder.not_occursIn_of_not_mem (by decide)
  obtain ⟨-, hwhole⟩ := steps_resolve registry (fun _ => none) text hdollar
  obtain ⟨-, hcut⟩ := steps_resolve { registry with limit := 1 } (fun _ => none) text hdollar
  refine ⟨hdollar, ?_, ?_⟩
  · refine (hwhole _ _ _ _ _ hboth (by decide) (.resolved hdone)).1.trans ?_
    rfl
  · refine (hcut _ _ _ _ _ hfirst (by decide) (.spent rfl isLast_parent answers_registry.2)).1.trans ?_
    rfl

end Interpolate
