import Interpolate.Evaluation
import Interpolate.Proofs.Rewriting

/-!
# Resolution is rewriting within a limit

The loop of passes follows the steps of rewriting until one of three things ends it: no placeholder is left, a
name has no text, or one step more is made than is allowed.

* **`Verdict`** — these three ends, as a relation between a text and what is reported about it; there is only
  one for a text (`Verdict.unique`);
* **`verdict_passes`** — the loop reaches the verdict from every outcome that has passes left;
* **`resolve_reports_iff`** — what resolution reports, in terms of steps alone.
-/

namespace Interpolate

/-! ## What an outcome reports -/

namespace Outcome

/-- The outcome has this value, this fault and this count of passes. -/
def Reports {α : Type} (o : Outcome α) (value : Option α) (fault : Option Fault) (passes : Nat) : Prop :=
  o.value = value ∧ o.fault = fault ∧ o.passes = passes

/-- The outcome after a pass that is within the limit. -/
def tally (o : Outcome String) (name : String) (answer : Answer) (next : List Char) : Outcome String :=
  let noted := o.record name answer
  ({ noted with passes := noted.passes + 1 } : Outcome String).addStep
    ("pass: " ++ toString (noted.passes + 1) ++ " -> " ++ String.ofList next)

/-- The outcome after the pass that exceeds the limit. -/
def overrun (o : Outcome String) (name : String) (answer : Answer) (next : List Char) : Outcome String :=
  let noted := o.record name answer
  let spent := ({ noted with passes := noted.passes + 1 } : Outcome String).addStep "too many passes"
  { spent.fail (.tooManyPasses noted.limit) with value := some (String.ofList next) }

variable {o : Outcome String} {name : String} {answer : Answer} {next : List Char}

@[simp] theorem passes_tally : (o.tally name answer next).passes = o.passes + 1 := by
  simp [tally]

@[simp] theorem limit_tally : (o.tally name answer next).limit = o.limit := by
  simp [tally]

@[simp] theorem passes_overrun : (o.overrun name answer next).passes = o.passes + 1 := by
  simp [overrun]

theorem fault_tally {value : String} (h : answer.value? = some value) :
    (o.tally name answer next).fault = o.fault :=
  fault_record_of_value h

theorem fault_overrun {value : String} (h : answer.value? = some value) (ho : o.fault = none) :
    (o.overrun name answer next).fault = some (.tooManyPasses o.limit) := by
  simp [overrun, fail, addStep, fault_record_of_value h, ho]

/-- An outcome settles without its value where it has a fault. -/
theorem settle_reports_of_fault {α : Type} {o : Outcome α} {fault : Fault} {passes : Nat}
    (hfault : o.fault = some fault) (hpasses : o.passes = passes) : o.settle.Reports none (some fault) passes :=
  ⟨by simp [settle, hfault], hfault, hpasses⟩

end Outcome

namespace Resolution

variable {answer : (name : String) → Answer}

/-! ## One pass -/

/-- Without a placeholder the text is the value. -/
theorem passes_done {text : List Char} (h : ∀ p : Placeholder, ¬ p.OccursIn text) (o : Outcome String) :
    Id.run (passes answer text o) = { o with value := some (String.ofList text) } := by
  rw [passes, Placeholder.last?_eq_none_iff.mpr h]
  rfl

/-- A name without a text ends the passes. -/
theorem passes_refused {text : List Char} {p : Placeholder} (hlast : p.IsLast text)
    (hvalue : (answer (String.ofList p.name)).value? = none) (o : Outcome String) :
    Id.run (passes answer text o) =
      { o.record (String.ofList p.name) (answer (String.ofList p.name)) with
        value := some (String.ofList text) } := by
  rw [passes, Placeholder.last?_eq_some_iff.mpr hlast]
  simp only [bind, pure, hvalue, Id.run]

/-- One pass, and whether it is the last depends on the limit. -/
theorem passes_fill {text : List Char} {p : Placeholder} {value : String} (hlast : p.IsLast text)
    (hvalue : (answer (String.ofList p.name)).value? = some value) (o : Outcome String) :
    Id.run (passes answer text o) =
      let name := String.ofList p.name
      let next := p.fill value.toList
      if o.limit < o.passes + 1 then o.overrun name (answer name) next
      else Id.run (passes answer next (o.tally name (answer name) next)) := by
  rw [passes, Placeholder.last?_eq_some_iff.mpr hlast]
  simp only [bind, pure, hvalue, Id.run, Outcome.tally, Outcome.overrun, Outcome.passes_record,
    Outcome.limit_record]

/-! ## Verdicts -/

/-- How rewriting ends from a text on, when `count` passes are made already and `limit` are allowed: the value, the
fault and the passes to report. -/
inductive Verdict (answer : (name : String) → Answer) (limit count : Nat) (text : List Char) :
    (value : Option String) → (fault : Option Fault) → (passes : Nat) → Prop where
  /-- no placeholder is left -/
  | resolved {n : Nat} {final : List Char} (run : RewritesIn answer n text final) (within : count + n ≤ limit)
      (done : ∀ p : Placeholder, ¬ p.OccursIn final) :
      Verdict answer limit count text (some (String.ofList final)) none (count + n)
  /-- the next name has no text -/
  | refused {n : Nat} {final : List Char} {p : Placeholder} {fault : Fault}
      (run : RewritesIn answer n text final) (within : count + n ≤ limit) (last : p.IsLast final)
      (unknown : (answer (String.ofList p.name)).fault? (String.ofList p.name) = some fault) :
      Verdict answer limit count text none (some fault) (count + n)
  /-- a step more can be made than is allowed -/
  | spent {final : List Char} (run : RewritesIn answer (limit + 1 - count) text final) :
      Verdict answer limit count text none (some (.tooManyPasses limit)) (limit + 1)

namespace Verdict

variable {limit count : Nat} {text : List Char} {value value' : Option String} {fault fault' : Option Fault}
  {passes passes' : Nat}

/-- A step in front counts as one pass. -/
theorem step {next : List Char} (first : Rewrites answer text next) (hlt : count < limit)
    (h : Verdict answer limit (count + 1) next value fault passes) :
    Verdict answer limit count text value fault passes := by
  cases h with
  | @resolved n final run within done =>
    rw [Nat.add_right_comm] at within ⊢
    exact .resolved (.step first run) within done
  | @refused n final p f run within last unknown =>
    rw [Nat.add_right_comm] at within ⊢
    exact .refused (.step first run) within last unknown
  | @spent final run =>
    have hrun : RewritesIn answer (limit + 1 - (count + 1) + 1) text final := .step first run
    rw [show limit + 1 - (count + 1) + 1 = limit + 1 - count by omega] at hrun
    exact .spent hrun

/-- Steps in front count as passes, one each. -/
theorem after {n : Nat} {middle : List Char} (run : RewritesIn answer n text middle) (within : count + n ≤ limit)
    (h : Verdict answer limit (count + n) middle value fault passes) :
    Verdict answer limit count text value fault passes := by
  induction run generalizing count with
  | refl => exact h
  | step first _ ih =>
    rw [Nat.add_comm _ 1, ← Nat.add_assoc] at within h
    exact (ih within h).step first (by omega)

/-- Where a text has no value, no text that ends with it has one, and the fault is the same. -/
theorem append {text : List Char} {fault : Fault}
    (h : Verdict answer limit count text none (some fault) passes) (front : List Char) :
    Verdict answer limit count (front ++ text) none (some fault) passes := by
  cases h with
  | refused run within last unknown => exact .refused (run.append front) within (last.append front) unknown
  | spent run => exact .spent (run.append front)

/-- A text has one verdict. -/
theorem unique (h : Verdict answer limit count text value fault passes)
    (h' : Verdict answer limit count text value' fault' passes') :
    value = value' ∧ fault = fault' ∧ passes = passes' := by
  -- a run to a text that is stuck is as long as any, so that two verdicts look at the same last text
  cases h with
  | @resolved n final run within done =>
    have hstuck : Stuck answer final := stuck_of_not_occursIn done
    cases h' with
    | resolved run' _ done' =>
      obtain ⟨rfl, rfl⟩ := run.unique_of_stuck hstuck run' (stuck_of_not_occursIn done')
      exact ⟨rfl, rfl, rfl⟩
    | refused run' _ last unknown =>
      obtain ⟨rfl, rfl⟩ := run.unique_of_stuck hstuck run' (stuck_of_fault? last unknown)
      exact absurd last.toOccursIn (done _)
    | spent run' =>
      have := run.le_of_stuck hstuck run'
      omega
  | @refused n final p f run within last unknown =>
    have hstuck : Stuck answer final := stuck_of_fault? last unknown
    cases h' with
    | resolved run' _ done' =>
      obtain ⟨rfl, rfl⟩ := run.unique_of_stuck hstuck run' (stuck_of_not_occursIn done')
      exact absurd last.toOccursIn (done' p)
    | refused run' _ last' unknown' =>
      obtain ⟨rfl, rfl⟩ := run.unique_of_stuck hstuck run' (stuck_of_fault? last' unknown')
      obtain rfl := last.unique last'
      exact ⟨rfl, unknown.symm.trans unknown', rfl⟩
    | spent run' =>
      have := run.le_of_stuck hstuck run'
      omega
  | spent run =>
    cases h' with
    | resolved run' _ done' =>
      have := run'.le_of_stuck (stuck_of_not_occursIn done') run
      omega
    | refused run' _ last unknown =>
      have := run'.le_of_stuck (stuck_of_fault? last unknown) run
      omega
    | spent run' => exact ⟨rfl, rfl, rfl⟩

theorem value_iff {v : String} {n : Nat} :
    Verdict answer limit count text (some v) none n ↔
      ∃ k, n = count + k ∧ n ≤ limit ∧ RewritesIn answer k text v.toList ∧
        ∀ p : Placeholder, ¬ p.OccursIn v.toList := by
  constructor
  · intro h
    cases h with
    | @resolved k final run within done => exact ⟨k, rfl, within, by simpa using run, by simpa using done⟩
  · rintro ⟨k, rfl, within, run, done⟩
    have h : Verdict answer limit count text _ _ _ := .resolved run within done
    rwa [String.ofList_toList] at h

theorem refused_iff {fault : Fault} {n : Nat} (hfault : ∀ k, fault ≠ .tooManyPasses k) :
    Verdict answer limit count text none (some fault) n ↔
      ∃ k final p, n = count + k ∧ n ≤ limit ∧ RewritesIn answer k text final ∧ Placeholder.IsLast p final ∧
        (answer (String.ofList p.name)).fault? (String.ofList p.name) = some fault := by
  constructor
  · intro h
    cases h with
    | @refused k final p _ run within last unknown => exact ⟨k, final, p, rfl, within, run, last, unknown⟩
    | spent => exact absurd rfl (hfault limit)
  · rintro ⟨k, final, p, rfl, within, run, last, unknown⟩
    exact .refused run within last unknown

theorem spent_iff :
    Verdict answer limit count text none (some (.tooManyPasses limit)) (limit + 1) ↔
      ∃ final, RewritesIn answer (limit + 1 - count) text final := by
  constructor
  · intro h
    generalize limit + 1 = n at h
    cases h with
    | refused _ _ _ unknown => exact absurd unknown Answer.fault?_ne_tooManyPasses
    | @spent final run => exact ⟨final, run⟩
  · rintro ⟨final, run⟩
    exact .spent run

/-- What a verdict can be. -/
theorem kinds (h : Verdict answer limit count text value fault passes) :
    (∃ v, value = some v ∧ fault = none) ∨ (∃ name, value = none ∧ fault = some (.undefined name)) ∨
      (∃ name description, value = none ∧ fault = some (.failed name description)) ∨
      (value = none ∧ fault = some (.tooManyPasses limit) ∧ passes = limit + 1) := by
  cases h with
  | resolved run within done => exact .inl ⟨_, rfl, rfl⟩
  | @refused n final p f run within last unknown =>
    cases hanswer : answer (String.ofList p.name) with
    | found v origin =>
      rw [hanswer] at unknown
      cases unknown
    | failed description =>
      rw [hanswer] at unknown
      cases unknown
      exact .inr (.inr (.inl ⟨_, _, rfl, rfl⟩))
    | unknown =>
      rw [hanswer] at unknown
      cases unknown
      exact .inr (.inl ⟨_, rfl, rfl⟩)
  | spent run => exact .inr (.inr (.inr ⟨rfl, rfl, rfl⟩))

/-- A verdict is a value or a fault. -/
theorem value_or_fault (h : Verdict answer limit count text value fault passes) :
    (∃ v, value = some v ∧ fault = none) ∨ ∃ f, value = none ∧ fault = some f := by
  cases h with
  | resolved run within done => exact .inl ⟨_, rfl, rfl⟩
  | refused run within last unknown => exact .inr ⟨_, rfl, rfl⟩
  | spent run => exact .inr ⟨_, rfl, rfl⟩

end Verdict

/-! ## The loop -/

/-- **The loop of passes reaches the verdict.** -/
theorem verdict_passes (answer : (name : String) → Answer) (text : List Char) (o : Outcome String)
    (hfault : o.fault = none) (hle : o.passes ≤ o.limit) :
    ∃ value fault count, Verdict answer o.limit o.passes text value fault count ∧
      (Id.run (passes answer text o)).settle.Reports value fault count := by
  -- on the passes of the loop; each one that fills a placeholder is a step in front of the verdict
  induction text, o using passes.induct with
  | case1 text o hnone =>
    have hno := Placeholder.last?_eq_none_iff.mp hnone
    refine ⟨_, _, _, .resolved (.refl text) hle hno, ?_⟩
    rw [passes_done hno]
    exact ⟨by simp [Outcome.settle, hfault], hfault, rfl⟩
  | case2 text o p hsome ih =>
    have hlast := Placeholder.last?_eq_some_iff.mp hsome
    cases hvalue : (answer (String.ofList p.name)).value? with
    | none =>
      obtain ⟨f, hf⟩ := Answer.value?_eq_none_iff.mp hvalue
      refine ⟨_, _, _, .refused (.refl text) hle hlast hf, ?_⟩
      rw [passes_refused hlast hvalue]
      exact Outcome.settle_reports_of_fault (Outcome.fault_record_of_fault hf hfault)
        (Outcome.passes_record ..)
    | some value =>
      have hfirst : Rewrites answer text (p.fill value.toList) := .fill hlast hvalue
      rw [passes_fill hlast hvalue]
      by_cases hlt : o.limit < o.passes + 1
      · -- the step is one too many
        have hcount : o.limit + 1 - o.passes = 0 + 1 := by omega
        have hrun : RewritesIn answer (o.limit + 1 - o.passes) text (p.fill value.toList) := by
          rw [hcount]
          exact .step hfirst (.refl _)
        refine ⟨_, _, _, .spent hrun, ?_⟩
        rw [if_pos hlt]
        refine Outcome.settle_reports_of_fault (Outcome.fault_overrun hvalue hfault) ?_
        rw [Outcome.passes_overrun]
        omega
      · rw [if_neg hlt]
        obtain ⟨v, f, count, hverdict, hreports⟩ := ih (answer (String.ofList p.name)) value
          (by simpa using hlt) ((Outcome.fault_tally hvalue).trans hfault) (by simpa using hlt)
        change Verdict answer (Outcome.tally o _ _ _).limit (Outcome.tally o _ _ _).passes _ _ _ _ at hverdict
        rw [Outcome.limit_tally, Outcome.passes_tally] at hverdict
        exact ⟨v, f, count, hverdict.step hfirst (by omega), hreports⟩

end Resolution

/-! ## Whole resolutions -/

open Resolution

variable {answer : (name : String) → Answer}

/-- A text without a dollar sign is not searched, and what is reported about it is the same. -/
theorem verdict_resolveBy (answer : (name : String) → Answer) (text : String) (o : Outcome String)
    (hfault : o.fault = none) (hle : o.passes ≤ o.limit) :
    ∃ value fault count, Verdict answer o.limit o.passes text.toList value fault count ∧
      (resolveBy answer text o).Reports value fault count := by
  by_cases hdollar : text.toList.contains '$' = true
  · obtain ⟨value, fault, count, hverdict, hreports⟩ :=
      verdict_passes answer text.toList (o.addStep ("start: " ++ text)) hfault hle
    refine ⟨value, fault, count, hverdict, ?_⟩
    rw [resolveBy, resolve, if_pos hdollar]
    exact hreports
  · have hno : ∀ p : Placeholder, ¬ p.OccursIn text.toList :=
      Placeholder.not_occursIn_of_not_mem (by simpa using hdollar)
    refine ⟨_, _, _, .resolved (.refl _) hle hno, ?_⟩
    rw [resolveBy, resolve, if_neg hdollar]
    exact ⟨by simp [Outcome.settle, hfault], hfault, rfl⟩

/-- **Resolution reports the verdict**, and nothing else. -/
theorem resolveBy_reports_iff {text : String} {o : Outcome String} (hfault : o.fault = none)
    (hle : o.passes ≤ o.limit) {value : Option String} {fault : Option Fault} {count : Nat} :
    (resolveBy answer text o).Reports value fault count ↔
      Verdict answer o.limit o.passes text.toList value fault count := by
  obtain ⟨v, f, n, hverdict, hv, hf, hn⟩ := verdict_resolveBy answer text o hfault hle
  constructor
  · rintro ⟨rfl, rfl, rfl⟩
    rw [hv, hf, hn]
    exact hverdict
  · intro h
    obtain ⟨rfl, rfl, rfl⟩ := h.unique hverdict
    exact ⟨hv, hf, hn⟩

/-- What a lookup says about a name, where computations and environment always give the same reply. -/
def Lookup.answers (l : Lookup Id) (environment : (name : String) → Option String) (name : String) : Answer :=
  Id.run (l.ask environment name)

/-- An entry is the answer to its name, whatever else the lookup could say. -/
theorem Lookup.answers_of_entry {l : Lookup Id} {environment : (name : String) → Option String} {name : String}
    {e : Entry} (h : l.entry? name = some e) : l.answers environment name = .found e.value e.origin := by
  rw [answers, ask, h]
  rfl

/-- The text of an entry is what its name stands for. -/
theorem Lookup.value?_answers {l : Lookup Id} {environment : (name : String) → Option String} {name : String}
    {e : Entry} (h : l.entry? name = some e) : (l.answers environment name).value? = some e.value := by
  rw [answers_of_entry h]
  rfl

/-- An interpreter starts to resolve without a fault and without a pass. -/
theorem Interpreter.resolve_reports_iff {i : Interpreter Id} {environment : (name : String) → Option String}
    {text : String} {value : Option String} {fault : Option Fault} {count : Nat} :
    (Id.run (i.resolve environment text)).Reports value fault count ↔
      Verdict (i.lookup.answers environment) i.limit 0 text.toList value fault count :=
  resolveBy_reports_iff (o := .fresh i.limit) rfl (Nat.zero_le _)

/-- **Resolution is rewriting within a limit.** It has a value after `n` passes exactly if the text becomes that
value in `n ≤ limit` steps and no placeholder is left; it fails at a name after `n` passes exactly if `n ≤ limit`
steps lead to a text whose last placeholder has that name, and nothing is known under it or its computation fails;
it fails for too many passes exactly if `limit + 1` steps can be made. One of these always happens. -/
theorem resolve_iff_rewritesIn (i : Interpreter Id) (environment : (name : String) → Option String)
    (text : String) :
    let answer := i.lookup.answers environment
    let o := Id.run (i.resolve environment text)
    (∀ value n, o.Reports (some value) none n ↔
      RewritesIn answer n text.toList value.toList ∧ n ≤ i.limit ∧
        ∀ p : Placeholder, ¬ p.OccursIn value.toList) ∧
    (∀ name n, o.Reports none (some (.undefined name)) n ↔
      ∃ final p, RewritesIn answer n text.toList final ∧ n ≤ i.limit ∧ Placeholder.IsLast p final ∧
        String.ofList p.name = name ∧ answer (String.ofList p.name) = .unknown) ∧
    (∀ name description n, o.Reports none (some (.failed name description)) n ↔
      ∃ final p, RewritesIn answer n text.toList final ∧ n ≤ i.limit ∧ Placeholder.IsLast p final ∧
        String.ofList p.name = name ∧ answer (String.ofList p.name) = .failed description) ∧
    (o.Reports none (some (.tooManyPasses i.limit)) (i.limit + 1) ↔
      ∃ final, RewritesIn answer (i.limit + 1) text.toList final) ∧
    ((∃ value n, o.Reports (some value) none n) ∨
      (∃ name n, o.Reports none (some (.undefined name)) n) ∨
      (∃ name description n, o.Reports none (some (.failed name description)) n) ∨
      o.Reports none (some (.tooManyPasses i.limit)) (i.limit + 1)) := by
  intro answer o
  have hrefused : ∀ fault n, (∀ k, fault ≠ .tooManyPasses k) →
      (Verdict answer i.limit 0 text.toList none (some fault) n ↔
        ∃ final p, RewritesIn answer n text.toList final ∧ n ≤ i.limit ∧ Placeholder.IsLast p final ∧
          (answer (String.ofList p.name)).fault? (String.ofList p.name) = some fault) := by
    intro fault n hfault
    rw [Verdict.refused_iff hfault]
    constructor
    · rintro ⟨k, final, p, rfl, hle, hrun, hlast⟩
      rw [Nat.zero_add] at hle ⊢
      exact ⟨final, p, hrun, hle, hlast⟩
    · rintro ⟨final, p, hrun, hle, hlast⟩
      exact ⟨n, final, p, (Nat.zero_add n).symm, hle, hrun, hlast⟩
  simp only [o, Interpreter.resolve_reports_iff]
  refine ⟨fun value n => ?_, fun name n => ?_, fun name description n => ?_, Verdict.spent_iff, ?_⟩
  · rw [Verdict.value_iff]
    constructor
    · rintro ⟨k, rfl, hle, hrun, hdone⟩
      rw [Nat.zero_add] at hle ⊢
      exact ⟨hrun, hle, hdone⟩
    · rintro ⟨hrun, hle, hdone⟩
      exact ⟨n, (Nat.zero_add n).symm, hle, hrun, hdone⟩
  · rw [hrefused _ _ (by simp)]
    simp only [Answer.fault?_eq_undefined_iff]
  · rw [hrefused _ _ (by simp)]
    simp only [Answer.fault?_eq_failed_iff]
  · -- the loop ends, and in one of the three ways
    obtain ⟨value, fault, count, hverdict, -⟩ :=
      verdict_resolveBy answer text (.fresh i.limit) rfl (Nat.zero_le _)
    rcases hverdict.kinds with ⟨v, rfl, rfl⟩ | ⟨name, rfl, rfl⟩ | ⟨name, description, rfl, rfl⟩ | ⟨rfl, rfl, rfl⟩
    · exact .inl ⟨v, count, hverdict⟩
    · exact .inr (.inl ⟨name, count, hverdict⟩)
    · exact .inr (.inr (.inl ⟨name, description, count, hverdict⟩))
    · exact .inr (.inr (.inr hverdict))

end Interpolate
