import Interpolate.Lookup
import Interpolate.Placeholder

/-!
# Resolution: putting texts in the place of names

A text is resolved in **passes**. Each finds the last placeholder, asks what its name stands for, and puts the answer
in its place; placeholders in the answer are left for later passes. Resolution ends when no placeholder is left, when
a name has no text, or when the passes allowed are used up.

* **`passes`** — the passes, from some text and outcome on;
* **`resolve`** — the whole resolution of a text.

Names are asked for by an action `ask` in a monad; `resolveBy` is the case where the answer depends on the name alone.
-/

namespace Interpolate

namespace Resolution

variable {m : Type → Type} [Monad m]

/-- Makes passes over `text` until none is left to make. Every pass is counted, the one that exceeds the limit too. -/
def passes (ask : (name : String) → m Answer) (text : List Char) (o : Outcome String) : m (Outcome String) :=
  match Placeholder.last? text with
  | none => pure { o with value := some (String.ofList text) }
  | some p => do
    let answer ← ask (String.ofList p.name)
    let noted := o.record (String.ofList p.name) answer
    match answer.value? with
    | none => return { noted with value := some (String.ofList text) }
    | some value =>
      let next := p.fill value.toList
      if noted.limit < noted.passes + 1 then
        let spent := ({ noted with passes := noted.passes + 1 } : Outcome String).addStep "too many passes"
        return { spent.fail (.tooManyPasses noted.limit) with value := some (String.ofList next) }
      else
        let counted := ({ noted with passes := noted.passes + 1 } : Outcome String).addStep
          ("pass: " ++ toString (noted.passes + 1) ++ " -> " ++ String.ofList next)
        passes ask next counted
termination_by o.limit + 1 - o.passes
decreasing_by
  simp only [Outcome.passes_addStep, Outcome.limit_addStep, noted, Outcome.passes_record,
    Outcome.limit_record] at *
  omega

end Resolution

/-- Resolves a text, going on from an outcome: its steps stay, its passes count, and its limit holds. A text without
a dollar sign is its own value, and leaves no step. -/
def resolve {m : Type → Type} [Monad m] (ask : (name : String) → m Answer) (text : String)
    (o : Outcome String) : m (Outcome String) := do
  if text.toList.contains '$' then
    return (← Resolution.passes ask text.toList (o.addStep ("start: " ++ text))).settle
  else
    return ({ o with value := some text } : Outcome String).settle

/-- Resolves a text with answers that depend on the name alone. -/
def resolveBy (answer : (name : String) → Answer) (text : String) (o : Outcome String) : Outcome String :=
  Id.run (resolve answer text o)

end Interpolate
