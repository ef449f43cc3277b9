import Interpolate.Lookup
import Interpolate.Proofs.Placeholder

/-!
# Rewriting texts

Putting texts in the place of names, as a relation on texts and without any bookkeeping: a text **rewrites** to
another one if its last placeholder is filled with the text that the answer to its name gives.

* **`Answer.fault?`** — the fault that an answer without a text causes;
* **`Rewrites`**, **`RewritesIn`** — one step, and a number of steps; where they lead depends on the text they
  start from alone (`Rewrites.unique`, `RewritesIn.unique`);
* **`Stuck`** — no step leads on; a run to such a text is as long as any run can be (`RewritesIn.le_of_stuck`).
-/

namespace Interpolate

/-! ## Answers without a text -/

/-- The fault that an answer without a text causes. -/
def Answer.fault? (name : String) : Answer → Option Fault
  | .found _ _ => none
  | .failed description => some (.failed name description)
  | .unknown => some (.undefined name)

/-- An answer has a text or causes a fault, and never both. -/
theorem Answer.value?_eq_none_iff {answer : Answer} {name : String} :
    answer.value? = none ↔ ∃ fault, answer.fault? name = some fault := by
  cases answer with
  | found value origin => simp [Answer.value?, Answer.fault?]
  | failed description => simp [Answer.value?, Answer.fault?]
  | unknown => simp [Answer.value?, Answer.fault?]

theorem Answer.fault?_eq_undefined_iff {answer : Answer} {name x : String} :
    answer.fault? name = some (.undefined x) ↔ name = x ∧ answer = .unknown := by
  cases answer with
  | found value origin => simp [Answer.fault?]
  | failed description => simp [Answer.fault?]
  | unknown => simp [Answer.fault?]

theorem Answer.fault?_eq_failed_iff {answer : Answer} {name x description : String} :
    answer.fault? name = some (.failed x description) ↔ name = x ∧ answer = .failed description := by
  cases answer with
  | found value origin => simp [Answer.fault?]
  | failed d => simp [Answer.fault?]
  | unknown => simp [Answer.fault?]

theorem Answer.fault?_ne_tooManyPasses {answer : Answer} {name : String} {limit : Nat} :
    answer.fault? name ≠ some (.tooManyPasses limit) := by
  cases answer with
  | found value origin => simp [Answer.fault?]
  | failed description => simp [Answer.fault?]
  | unknown => simp [Answer.fault?]

namespace Outcome

variable {α : Type} {o : Outcome α} {name : String} {answer : Answer}

theorem fault_record_of_value {value : String} (h : answer.value? = some value) :
    (o.record name answer).fault = o.fault := by
  cases answer with
  | found => rfl
  | failed => cases h
  | unknown => cases h

theorem fault_record_of_fault {fault : Fault} (h : answer.fault? name = some fault) (ho : o.fault = none) :
    (o.record name answer).fault = some fault := by
  cases answer with
  | found => cases h
  | failed => cases h; simp [record, fail, ho]
  | unknown => cases h; simp [record, fail, ho]

end Outcome

namespace Resolution

/-! ## Steps of rewriting -/

section Relation

variable (answer : (name : String) → Answer)

/-- A text rewrites to the text in which its last placeholder is filled with what its name stands for. -/
inductive Rewrites : List Char → List Char → Prop where
  /-- fills the last placeholder -/
  | fill {text : List Char} {p : Placeholder} {value : String} (last : p.IsLast text)
      (known : (answer (String.ofList p.name)).value? = some value) : Rewrites text (p.fill value.toList)

/-- A text becomes another one in exactly `n` steps. -/
inductive RewritesIn : (n : Nat) → List Char → List Char → Prop where
  /-- no step changes nothing -/
  | refl (text : List Char) : RewritesIn 0 text text
  /-- one step, and those after it -/
  | step {n : Nat} {text next final : List Char} (first : Rewrites answer text next)
      (more : RewritesIn n next final) : RewritesIn (n + 1) text final

end Relation

variable {answer : (name : String) → Answer}

/-- A placeholder that no dollar sign follows gives way to the text behind its name. -/
theorem rewrites_of_not_mem {name : List Char} {value : String} (hname : Text.isName name = true)
    (hknown : (answer (String.ofList name)).value? = some value) (before : List Char) {after : List Char}
    (hafter : '$' ∉ after) :
    Rewrites answer (before ++ Placeholder.spell name ++ after) (before ++ value.toList ++ after) :=
  .fill (.of_not_mem hname hafter) hknown

/-- A step that a text can make, it can also make behind other text. -/
theorem Rewrites.append {text next : List Char} (h : Rewrites answer text next) (front : List Char) :
    Rewrites answer (front ++ text) (front ++ next) := by
  cases h with
  | @fill p value last known =>
    have hfill : front ++ p.fill value.toList =
        Placeholder.fill { p with before := front ++ p.before } value.toList := by
      simp [Placeholder.fill]
    rw [hfill]
    exact .fill (last.append front) known

/-- A run stays a run behind other text. -/
theorem RewritesIn.append {n : Nat} {text final : List Char} (h : RewritesIn answer n text final)
    (front : List Char) : RewritesIn answer n (front ++ text) (front ++ final) := by
  induction h with
  | refl => exact .refl _
  | step first _ ih => exact .step (first.append front) ih

theorem Rewrites.unique {text next next' : List Char} (h : Rewrites answer text next)
    (h' : Rewrites answer text next') : next = next' := by
  obtain ⟨hlast, hknown⟩ := h
  obtain ⟨hlast', hknown'⟩ := h'
  obtain rfl := hlast.unique hlast'
  obtain rfl := Option.some.inj (hknown.symm.trans hknown')
  rfl

/-- Two runs from one text: what is left of the longer one goes on where the shorter one ends. -/
theorem RewritesIn.drop {n k : Nat} {text middle final : List Char} (h : RewritesIn answer n text middle)
    (h' : RewritesIn answer (n + k) text final) : RewritesIn answer k middle final := by
  induction h with
  | refl => simpa using h'
  | @step n text next _ first _ ih =>
    rw [Nat.add_right_comm] at h'
    cases h' with
    | step first' more' =>
      rw [← first.unique first'] at more'
      exact ih more'

theorem RewritesIn.unique {n : Nat} {text final final' : List Char} (h : RewritesIn answer n text final)
    (h' : RewritesIn answer n text final') : final = final' := by
  cases h.drop (k := 0) h' with
  | refl => rfl

theorem RewritesIn.trans {n k : Nat} {text middle final : List Char} (h : RewritesIn answer n text middle)
    (h' : RewritesIn answer k middle final) : RewritesIn answer (n + k) text final := by
  induction h with
  | refl => simpa using h'
  | step first _ ih =>
    rw [Nat.add_right_comm]
    exact .step first (ih h')

/-- A run stops on the way at every smaller number of steps. -/
theorem RewritesIn.take {n k : Nat} {text final : List Char} (h : RewritesIn answer (n + k) text final) :
    ∃ middle, RewritesIn answer n text middle := by
  induction n generalizing text with
  | zero => exact ⟨text, .refl text⟩
  | succ n ih =>
    rw [Nat.add_right_comm] at h
    cases h with
    | step first more =>
      obtain ⟨middle, hmiddle⟩ := ih more
      exact ⟨middle, .step first hmiddle⟩

/-- No step leads on from a text: it has no placeholder, or the name of its last one has no text. -/
def Stuck (answer : (name : String) → Answer) (text : List Char) : Prop :=
  ∀ next, ¬ Rewrites answer text next

theorem stuck_of_not_occursIn {text : List Char} (h : ∀ p : Placeholder, ¬ p.OccursIn text) :
    Stuck answer text := by
  rintro next ⟨hlast, -⟩
  exact h _ hlast.toOccursIn

theorem stuck_of_fault? {text : List Char} {p : Placeholder} {fault : Fault} (hlast : p.IsLast text)
    (hfault : (answer (String.ofList p.name)).fault? (String.ofList p.name) = some fault) :
    Stuck answer text := by
  rintro next ⟨hlast', hknown⟩
  obtain rfl := hlast.unique hlast'
  rw [Answer.value?_eq_none_iff.mpr ⟨fault, hfault⟩] at hknown
  cases hknown

/-- A run to a stuck text is as long as any run from the same text can be. -/
theorem RewritesIn.le_of_stuck {n k : Nat} {text final final' : List Char} (h : RewritesIn answer n text final)
    (hstuck : Stuck answer final) (h' : RewritesIn answer k text final') : k ≤ n := by
  refine Nat.le_of_not_lt fun hlt => ?_
  obtain ⟨m, rfl⟩ : ∃ m, k = n + (m + 1) := ⟨k - n - 1, by omega⟩
  cases h.drop h' with
  | step first _ => exact hstuck _ first

/-- Two runs from one text to stuck texts are the same run. -/
theorem RewritesIn.unique_of_stuck {n k : Nat} {text final final' : List Char}
    (h : RewritesIn answer n text final) (hstuck : Stuck answer final) (h' : RewritesIn answer k text final')
    (hstuck' : Stuck answer final') : n = k ∧ final = final' := by
  obtain rfl : n = k := Nat.le_antisymm (h'.le_of_stuck hstuck' h) (h.le_of_stuck hstuck h')
  exact ⟨rfl, h.unique h'⟩

end Resolution

end Interpolate
