import Interpolate.Proofs.Pattern
import Interpolate.Proofs.Transcript

/-!
# One pass

The loop of passes repeats one thing: search the text by the pattern of a text with a placeholder, ask for the name that
is found, and put the answer in its place. Which placeholder that is depends on how the search tries its runs; said
without it, it is the only one of the text behind which no other starts.

* **`Placeholder.exists_occursIn_iff`** — a text has a placeholder if a name in braces is a part of it;
* **`Resolution.pass`**, **`Resolution.proceed`** — a pass, and what the loop does after it (`passes_eq_pass`);
* **`Resolution.pass_fills_last`** — when a pass asks, for what, and where it puts the answer.
-/

namespace Interpolate

theorem Placeholder.exists_occursIn_iff {text : List Char} :
    (∃ p : Placeholder, p.OccursIn text) ↔ ∃ name, Text.isName name = true ∧ spell name <:+: text := by
  constructor
  · rintro ⟨p, hp⟩
    exact ⟨p.name, hp.isName, p.before, p.after, hp.text_eq⟩
  · rintro ⟨name, hname, before, after, htext⟩
    exact ⟨⟨before, name, after⟩, htext, hname⟩

/-- Of all placeholders in a text, the last one starts furthest to the right, and no other starts there. -/
theorem Placeholder.IsLast.eq_or_lt {text : List Char} {p q : Placeholder} (hp : p.IsLast text) (hq : q.OccursIn text) :
    q = p ∨ q.before.length < p.before.length := by
  rcases Nat.lt_or_eq_of_le (hp.latest q hq) with hlt | heq
  · exact .inr hlt
  · exact .inl (hq.eq_of_before hp.toOccursIn heq)

namespace Resolution

section Loop

variable {m : Type → Type} [Monad m]

/-- A pass: the text that it leads to, if there is one, and the outcome with what the answer adds to it. -/
def pass (ask : (name : String) → m Answer) (text : List Char) (o : Outcome String) :
    m (Option (List Char) × Outcome String) :=
  match Placeholder.search? text with
  | none => pure (none, o)
  | some p => do
    let answer ← ask (String.ofList p.name)
    return (answer.value?.map fun value => p.fill value.toList, o.record (String.ofList p.name) answer)

/-- What the loop does after a pass over a text. It stops if the pass leads nowhere or is one too many, and else goes
on with the next text. -/
def proceed (ask : (name : String) → m Answer) (text : List Char) :
    Option (List Char) × Outcome String → m (Outcome String)
  | (none, noted) => pure { noted with value := some (String.ofList text) }
  | (some next, noted) =>
    let counted : Outcome String := { noted with passes := noted.passes + 1 }
    if counted.limit < counted.passes then
      pure { (counted.addStep "too many passes").fail (.tooManyPasses counted.limit) with
        value := some (String.ofList next) }
    else
      passes ask next (counted.addStep ("pass: " ++ toString counted.passes ++ " -> " ++ String.ofList next))

/-- The loop makes a pass, and goes on from there. -/
theorem passes_eq_pass [LawfulMonad m] (ask : (name : String) → m Answer) (text : List Char) (o : Outcome String) :
    passes ask text o = pass ask text o >>= proceed ask text := by
  rw [passes.eq_def, pass, Placeholder.search?_eq_last?]
  cases Placeholder.last? text with
  | none => simp only [pure_bind, proceed]
  | some p =>
    simp only [bind_assoc, pure_bind]
    congr 1
    funext answer
    cases answer <;> rfl

end Loop

variable {σ : Type} {ask : (name : String) → StateM σ Answer} {text : List Char}

theorem run_pass_of_none (h : Placeholder.last? text = none) (o : Outcome String) (world : σ) :
    (pass ask text o).run world = ((none, o), world) := by
  rw [pass, Placeholder.search?_eq_last?, h]
  rfl

theorem run_pass_of_last {p : Placeholder} (h : Placeholder.last? text = some p) (o : Outcome String) (world : σ) :
    (pass ask text o).run world =
      let (answer, next) := (ask (String.ofList p.name)).run world
      ((answer.value?.map fun value => p.fill value.toList, o.record (String.ofList p.name) answer), next) := by
  rw [pass, Placeholder.search?_eq_last?, h]
  rfl

/-- **A pass fills the last placeholder, and changes nothing else.** The loop consists of passes. A pass asks exactly if
a name in braces behind a dollar sign is a part of the text, and then one question. The text is cut into what stands
before some placeholder, its spelling and what stands after it; every other placeholder of the text starts further to
the left. The question is for the name of this one; if the answer has a text, the next text is that text with the same
characters before and after it, and otherwise there is none. -/
theorem pass_fills_last (ask : (name : String) → StateM σ Answer) (text : List Char) (o : Outcome String) (world : σ) :
    let done := (pass (noting ask) text o).run (world, [])
    let next := done.1.1
    let asked := done.2.2
    passes ask text o = pass ask text o >>= proceed ask text ∧
    (pass ask text o).run world = (done.1, done.2.1) ∧
    (asked ≠ [] ↔ ∃ name, Text.isName name = true ∧ Placeholder.spell name <:+: text) ∧
    (asked = [] → next = none) ∧
    ∀ question ∈ asked, asked = [question] ∧ ∃ before name after,
      (text = before ++ Placeholder.spell name ++ after ∧ Text.isName name = true) ∧
      (∀ p : Placeholder, p.OccursIn text → p = ⟨before, name, after⟩ ∨ p.before.length < before.length) ∧
      question.1 = String.ofList name ∧
      next = question.2.value?.map fun value => before ++ value.toList ++ after := by
  intro done next asked
  refine ⟨passes_eq_pass ask text o, ?_⟩
  rw [← Placeholder.exists_occursIn_iff]
  cases h : Placeholder.last? text with
  | none =>
    have hdone : done = ((none, o), world, []) := run_pass_of_none h o (world, [])
    have hnext : next = none := congrArg (fun d => d.1.1) hdone
    have hasked : asked = [] := congrArg (fun d => d.2.2) hdone
    have hno := Placeholder.last?_eq_none_iff.mp h
    rw [hasked, hnext, hdone]
    refine ⟨run_pass_of_none h o world, ⟨fun hne => absurd rfl hne, ?_⟩, fun _ => rfl, nofun⟩
    rintro ⟨p, hp⟩
    exact absurd hp (hno p)
  | some p =>
    have hlast := Placeholder.last?_eq_some_iff.mp h
    obtain ⟨answer, later, hask⟩ : ∃ answer later, (ask (String.ofList p.name)).run world = (answer, later) :=
      ⟨_, _, rfl⟩
    have hdone : done = ((answer.value?.map fun value => p.fill value.toList, o.record (String.ofList p.name) answer),
        later, [(String.ofList p.name, answer)]) := by
      have hrun : done = _ := run_pass_of_last h o (world, [])
      rwa [run_noting hask] at hrun
    have hnext : next = answer.value?.map fun value => p.fill value.toList := congrArg (fun d => d.1.1) hdone
    have hasked : asked = [(String.ofList p.name, answer)] := congrArg (fun d => d.2.2) hdone
    rw [hasked, hnext, hdone]
    refine ⟨by rw [run_pass_of_last h, hask], ⟨fun _ => ⟨p, hlast.toOccursIn⟩, fun _ => List.cons_ne_nil _ _⟩,
      fun hnil => absurd hnil (List.cons_ne_nil _ _), fun question hquestion => ?_⟩
    obtain rfl := List.mem_singleton.mp hquestion
    exact ⟨rfl, p.before, p.name, p.after, ⟨hlast.text_eq.symm, hlast.isName⟩, fun q hq => hlast.eq_or_lt hq, rfl, rfl⟩

end Resolution

end Interpolate
