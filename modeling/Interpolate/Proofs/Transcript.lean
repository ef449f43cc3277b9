import Interpolate.Proofs.History
import Interpolate.Proofs.Resolution

/-!
# What a resolution asks for

Which names a resolution asks for comes out only while it runs, since names are put together from the answers before. A
**transcript** lists the questions with their answers. It is all that the resolution sees of a lookup: whoever gives the
answers of the transcript to its questions, one after another, leads the resolution to the same outcome, with every
step, count and fault in it.

* **`transcript`** — the questions of a resolution, written down by the resolution itself;
* **`Repeats`** — a lookup repeats the answers of a transcript;
* **`Resolution.passes_repeats`** — two runs of the loop of passes coupled by a transcript, pass by pass;
* **`Change.Concerns`** — the names whose answers a change can change;
* **`Situation.resolve_of_repeats`** — the whole, and changes to what is not asked for.
-/

namespace Interpolate

/-! ## Transcripts -/

/-- Names that are asked for, each with the answer. -/
abbrev Transcript : Type := List (String × Answer)

section Transcripts

variable {σ : Type}

/-- Asks, and writes down the question with its answer. -/
def noting (ask : (name : String) → StateM σ Answer) (name : String) : StateM (σ × Transcript) Answer :=
  fun (world, asked) =>
    let (answer, next) := (ask name).run world
    (answer, next, asked ++ [(name, answer)])

theorem run_noting {ask : (name : String) → StateM σ Answer} {name : String} {world next : σ} {answer : Answer}
    (hask : (ask name).run world = (answer, next)) (asked : Transcript) :
    (noting ask name).run (world, asked) = (answer, next, asked ++ [(name, answer)]) := by
  have hrun : (noting ask name).run (world, asked) =
      (((ask name).run world).1, ((ask name).run world).2, asked ++ [(name, ((ask name).run world).1)]) := rfl
  rw [hrun, hask]

/-- The questions that the resolution of a text asks, from a world on. -/
def transcript (ask : (name : String) → StateM σ Answer) (text : String) (o : Outcome String) (world : σ) :
    Transcript :=
  ((resolve (noting ask) text o).run (world, [])).2.2

/-- Asked the questions of a transcript one after another, from a world on, the lookup gives the same answers. -/
inductive Repeats (ask : (name : String) → StateM σ Answer) : (asked : Transcript) → (world after : σ) → Prop where
  /-- nothing more is asked -/
  | nil (world : σ) : Repeats ask [] world world
  /-- one question, and those after it -/
  | cons {name : String} {answer : Answer} {asked : Transcript} {world next after : σ}
    (first : (ask name).run world = (answer, next)) (more : Repeats ask asked next after) :
    Repeats ask ((name, answer) :: asked) world after

namespace Repeats

variable {ask ask' : (name : String) → StateM σ Answer} {asked : Transcript} {world after : σ}

/-- Lookups that agree on the names of a transcript repeat it alike. -/
theorem congr (h : Repeats ask asked world after) (hagree : ∀ q ∈ asked, ask' q.1 = ask q.1) :
    Repeats ask' asked world after := by
  induction h with
  | nil world => exact .nil world
  | @cons name answer asked world next after first more ih =>
    obtain ⟨hname, hmore⟩ := List.forall_mem_cons.mp hagree
    exact .cons ((congrArg (fun x : StateM σ Answer => x.run world) hname).trans first) (ih hmore)

/-- Where no world matters, the answers only have to be the same. -/
theorem of_constant (h : ∀ q ∈ asked, ask q.1 = pure q.2) (world : σ) : Repeats ask asked world world := by
  induction asked with
  | nil => exact .nil world
  | cons q asked ih =>
    obtain ⟨hfirst, hmore⟩ := List.forall_mem_cons.mp h
    exact .cons (congrArg (fun x : StateM σ Answer => x.run world) hfirst) (ih hmore)

end Repeats

/-! ## Two runs -/

namespace Resolution

theorem run_passes_of_none {ask : (name : String) → StateM σ Answer} {text : List Char}
    (h : Placeholder.last? text = none) (o : Outcome String) (world : σ) :
    (passes ask text o).run world = ({ o with value := some (String.ofList text) }, world) := by
  rw [passes.eq_def, h]
  rfl

/-- A pass in a world. -/
theorem run_passes_of_last {ask : (name : String) → StateM σ Answer} {text : List Char} {p : Placeholder}
    (h : Placeholder.last? text = some p) (o : Outcome String) {world next : σ} {answer : Answer}
    (hask : (ask (String.ofList p.name)).run world = (answer, next)) :
    (passes ask text o).run world =
      match answer.value? with
      | none => ({ o.record (String.ofList p.name) answer with value := some (String.ofList text) }, next)
      | some value =>
        if o.limit < o.passes + 1 then (o.overrun (String.ofList p.name) answer (p.fill value.toList), next)
        else
          (passes ask (p.fill value.toList)
            (o.tally (String.ofList p.name) answer (p.fill value.toList))).run next := by
  rw [passes.eq_def, h]
  dsimp only
  rw [StateT.run_bind, hask]
  cases answer with
  | failed description => rfl
  | unknown => rfl
  | found value origin =>
    by_cases hover : o.limit < o.passes + 1
    · simp only [Answer.value?, Outcome.passes_record, Outcome.limit_record, if_pos hover]
      rfl
    · simp only [Answer.value?, Outcome.passes_record, Outcome.limit_record, if_neg hover]
      rfl

/-- An answer ends the loop, whoever gives it, or the loop goes on after it, whoever gives it. -/
theorem run_passes_of_answer {text : List Char} {p : Placeholder} (h : Placeholder.last? text = some p)
    (o : Outcome String) (answer : Answer) :
    (∃ o', ∀ {σ : Type} {ask : (name : String) → StateM σ Answer} {world next : σ},
        (ask (String.ofList p.name)).run world = (answer, next) → (passes ask text o).run world = (o', next)) ∨
      ∃ value, answer.value? = some value ∧ ¬ o.limit < o.passes + 1 ∧
        ∀ {σ : Type} {ask : (name : String) → StateM σ Answer} {world next : σ},
          (ask (String.ofList p.name)).run world = (answer, next) →
            (passes ask text o).run world = (passes ask (p.fill value.toList)
              (o.tally (String.ofList p.name) answer (p.fill value.toList))).run next := by
  cases hvalue : answer.value? with
  | none =>
    refine .inl ⟨{ o.record (String.ofList p.name) answer with value := some (String.ofList text) }, fun hask => ?_⟩
    rw [run_passes_of_last h o hask, hvalue]
  | some value =>
    by_cases hover : o.limit < o.passes + 1
    · refine .inl ⟨o.overrun (String.ofList p.name) answer (p.fill value.toList), fun hask => ?_⟩
      rw [run_passes_of_last h o hask, hvalue]
      exact if_pos hover
    · refine .inr ⟨value, rfl, hover, fun hask => ?_⟩
      rw [run_passes_of_last h o hask, hvalue]
      exact if_neg hover

/-- **The loop of passes sees nothing but answers.** It writes a transcript, which is repeated by the lookup that the
answers come from; and with every lookup that repeats the transcript, it comes to the same outcome. -/
theorem passes_repeats (ask : (name : String) → StateM σ Answer) (text : List Char) (o : Outcome String) (world : σ)
    (before : Transcript) :
    let reached := (passes ask text o).run world
    ∃ asked, (passes (noting ask) text o).run (world, before) = (reached.1, reached.2, before ++ asked) ∧
      Repeats ask asked world reached.2 ∧
      ∀ {σ' : Type} {ask' : (name : String) → StateM σ' Answer} {world' after : σ'},
        Repeats ask' asked world' after → (passes ask' text o).run world' = (reached.1, after) := by
  -- on the passes of the first run, which decides what is asked; the others follow it answer by answer
  induction text, o using passes.induct generalizing world before with
  | case1 text o hnone =>
    rw [run_passes_of_none hnone]
    refine ⟨[], ?_, .nil world, fun h => ?_⟩
    · rw [run_passes_of_none hnone, List.append_nil]
    · cases h
      exact run_passes_of_none hnone o _
  | case2 text o p hlast ih =>
    obtain ⟨answer, next, hask⟩ : ∃ answer next, (ask (String.ofList p.name)).run world = (answer, next) :=
      ⟨_, _, rfl⟩
    have hnoting := run_noting hask before
    rcases run_passes_of_answer hlast o answer with ⟨o', hends⟩ | ⟨value, -, hwithin, hgoes⟩
    · rw [hends hask]
      refine ⟨[(String.ofList p.name, answer)], hends hnoting, .cons hask (.nil next), fun h => ?_⟩
      cases h with
      | cons first more =>
        cases more
        exact hends first
    · obtain ⟨asked, hwritten, hrepeats, hothers⟩ :=
        ih answer value (by simpa using hwithin) next (before ++ [(String.ofList p.name, answer)])
      rw [List.append_assoc, List.singleton_append] at hwritten
      rw [hgoes hask]
      refine ⟨(String.ofList p.name, answer) :: asked, ?_, .cons hask hrepeats, fun h => ?_⟩
      · rw [hgoes hnoting]
        exact hwritten
      · cases h with
        | cons first more =>
          rw [hgoes first]
          exact hothers more

end Resolution

theorem run_resolve (ask : (name : String) → StateM σ Answer) (text : String) (o : Outcome String) (world : σ) :
    (resolve ask text o).run world =
      if text.toList.contains '$' then
        let reached := (Resolution.passes ask text.toList (o.addStep ("start: " ++ text))).run world
        (reached.1.settle, reached.2)
      else (({ o with value := some text } : Outcome String).settle, world) := by
  rw [resolve]
  split <;> rfl

/-- A resolution writes a transcript, and comes to one outcome with every lookup that repeats it. -/
theorem resolve_repeats (ask : (name : String) → StateM σ Answer) (text : String) (o : Outcome String) (world : σ) :
    let resolved := (resolve ask text o).run world
    Repeats ask (transcript ask text o world) world resolved.2 ∧
      ∀ {σ' : Type} {ask' : (name : String) → StateM σ' Answer} {world' after : σ'},
        Repeats ask' (transcript ask text o world) world' after →
          (resolve ask' text o).run world' = (resolved.1, after) := by
  intro resolved
  by_cases hdollar : text.toList.contains '$' = true
  · obtain ⟨asked, hwritten, hself, hothers⟩ :=
      Resolution.passes_repeats ask text.toList (o.addStep ("start: " ++ text)) world []
    have hasked : transcript ask text o world = asked := by
      rw [transcript, run_resolve, if_pos hdollar, hwritten]
      rfl
    have hresolved : resolved = _ := (run_resolve ask text o world).trans (if_pos hdollar)
    rw [hasked, hresolved]
    refine ⟨hself, fun h => ?_⟩
    rw [run_resolve, if_pos hdollar, hothers h]
  · -- without a dollar sign nothing is asked
    have hasked : transcript ask text o world = [] := by
      rw [transcript, run_resolve, if_neg hdollar]
    have hresolved : resolved = _ := (run_resolve ask text o world).trans (if_neg hdollar)
    rw [hasked, hresolved]
    refine ⟨.nil world, fun h => ?_⟩
    cases h
    rw [run_resolve, if_neg hdollar]

end Transcripts

/-! ## Changes that do not matter -/

namespace Change

variable {m : Type → Type}

/-- The change can change the answer for a name. -/
def Concerns : Change m → (name : String) → Prop
  | add changed _ _, name => changed = name
  | remove changed, name => changed = name
  | register c, name => c.name = name
  | unregister changed, name => changed = name
  | withoutComputed, _ => True
  | withEnvironment _, _ => True
  | set changed _, name => changed = name
  | unset changed, name => changed = name

variable {c : Change m} {name : String}

/-- A change that does not concern a name has no effect on what decides about it. -/
theorem effects_of_not_concerns (h : ¬ c.Concerns name) :
    c.onEntry name = none ∧ c.onComputed name = none ∧ c.onPermission = none ∧ c.onSetting name = none := by
  cases c with
  | add => exact ⟨if_neg h, rfl, rfl, rfl⟩
  | remove => exact ⟨if_neg h, rfl, rfl, rfl⟩
  | register => exact ⟨rfl, if_neg h, rfl, rfl⟩
  | unregister => exact ⟨rfl, if_neg h, rfl, rfl⟩
  | withoutComputed => exact absurd trivial h
  | withEnvironment => exact absurd trivial h
  | set => exact ⟨rfl, rfl, rfl, if_neg h⟩
  | unset => exact ⟨rfl, rfl, rfl, if_neg h⟩

end Change

namespace Situation

section Changes

variable {m : Type → Type} [Monad m]

/-- Changes that do not concern a name leave its answer as it is. -/
theorem ask_run_of_not_concerns {history : List (Change m)} {name : String}
    (h : ∀ c ∈ history, ¬ c.Concerns name) (s : Situation m) : (s.run history).ask name = s.ask name := by
  have heffects := fun c hc => Change.effects_of_not_concerns (h c hc)
  have hentry : Lookup.entry? (s.run history).lookup name = s.lookup.entry? name :=
    run_eq_of_forall (fun s => s.lookup.entry? name) (fun s c => entry?_apply s c name)
      (fun c hc => (heffects c hc).1) s
  have hcomputed : (s.run history).lookup.computed? name = s.lookup.computed? name :=
    run_eq_of_forall (fun s => s.lookup.computed? name) (fun s c => computed?_apply s c name)
      (fun c hc => (heffects c hc).2.1) s
  have hallowed : (s.run history).lookup.usesEnvironment = s.lookup.usesEnvironment :=
    run_eq_of_forall (fun s => s.lookup.usesEnvironment) usesEnvironment_apply (fun c hc => (heffects c hc).2.2.1) s
  have hbytes : (s.run history).environment.bytes? name = s.environment.bytes? name :=
    run_eq_of_forall (fun s => s.environment.bytes? name) (fun s c => bytes?_apply s c name)
      (fun c hc => (heffects c hc).2.2.2) s
  simp only [ask, Lookup.ask, Lookup.environment?, Environment.get?_eq_map_bytes?, hentry, hcomputed, hallowed, hbytes]

end Changes

/-- **A resolution depends on nothing but the answers to its questions.** Let a text be resolved, going on from any
outcome. Another lookup, with an environment and a world of its own, that gives the same answers to the questions of
this run leads to the same outcome: the same text or fault, steps and passes. In particular, entries, computations and
variables can be added, replaced and removed under all names that the run does not ask for: nothing changes, and the run
leaves the same world. -/
theorem resolve_of_repeats {σ : Type} (s : Situation (StateM σ)) (text : String) (o : Outcome String) (world : σ) :
    let asked := transcript s.ask text o world
    let resolved := (resolve s.ask text o).run world
    (∀ {σ' : Type} (s' : Situation (StateM σ')) (world' after : σ'), Repeats s'.ask asked world' after →
        (resolve s'.ask text o).run world' = (resolved.1, after)) ∧
      ∀ history : List (Change (StateM σ)), (∀ c ∈ history, ∀ q ∈ asked, ¬ c.Concerns q.1) →
        (resolve (s.run history).ask text o).run world = resolved := by
  intro asked resolved
  obtain ⟨hself, hothers⟩ := resolve_repeats s.ask text o world
  refine ⟨fun s' world' after h => hothers h, fun history hchanges => ?_⟩
  have hagree : ∀ q ∈ asked, (s.run history).ask q.1 = s.ask q.1 := fun q hq =>
    ask_run_of_not_concerns (fun c hc => hchanges c hc q hq) s
  exact hothers (hself.congr hagree)

/-- A name that counts how often it is asked for, and a name that is put together from it. -/
def numbered : Situation (StateM Nat) :=
  (initial ⟨[]⟩).run [.register (counting "n"), .add "x1" "one" none]

/-- The same answers from elsewhere, where nothing is counted. -/
def unnumbered : Situation (StateM Unit) :=
  (initial ⟨[]⟩).run
    [.withEnvironment false, .register ⟨"n", "counter", pure (.value "1")⟩, .add "x1" "one" none, .add "x2" "two" none]

theorem transcript_numbered : transcript numbered.ask "$\x7bx$\x7bn\x7d\x7d" (.fresh 50) 0 =
    [("n", .found "1" (some "counter")), ("x1", .found "one" none)] := by
  decide +kernel

/-- The second question is put together from the first answer; no other name matters. -/
theorem resolve_of_repeats_numbered :
    let text := "$\x7bx$\x7bn\x7d\x7d"
    let asked := transcript numbered.ask text (.fresh 50) 0
    let resolved := (resolve numbered.ask text (.fresh 50)).run 0
    let history : List (Change (StateM Nat)) := [.add "x2" "two" none, .set "x" [120], .unregister "x3"]
    Repeats unnumbered.ask asked () () ∧ (∀ c ∈ history, ∀ q ∈ asked, ¬ c.Concerns q.1) ∧
      (resolve unnumbered.ask text (.fresh 50)).run () = (resolved.1, ()) ∧
      (resolve (numbered.run history).ask text (.fresh 50)).run 0 = resolved := by
  intro text asked resolved history
  have hasked : asked = [("n", .found "1" (some "counter")), ("x1", .found "one" none)] := transcript_numbered
  obtain ⟨hothers, hchanges⟩ := resolve_of_repeats numbered text (.fresh 50) 0
  have hanswers : ∀ q ∈ asked, unnumbered.ask q.1 = pure q.2 := by
    rw [hasked]
    exact List.forall_mem_cons.mpr ⟨rfl, List.forall_mem_singleton.mpr rfl⟩
  have hrepeats : Repeats unnumbered.ask asked () () := .of_constant hanswers ()
  have hunconcerned : ∀ c ∈ history, ∀ q ∈ asked, ¬ c.Concerns q.1 := by
    rw [hasked]
    simp [history, Change.Concerns]
  exact ⟨hrepeats, hunconcerned, hothers unnumbered () () hrepeats, hchanges history hunconcerned⟩

end Situation

end Interpolate
