import Interpolate.Evaluation
import Interpolate.Proofs.Reading
import Interpolate.Proofs.Resolution

/-!
# Evaluation, stage by stage

What evaluation reports about a text, from what each stage says: the text it resolves to, the filter, the reader, and
the value of the expression or the error in its place.

* **`judge_reports`**, **`judge_reports_malformed`** — the stages after resolution;
* **`evaluate_reports`**, **`evaluate_reports_malformed`** — all stages.
-/

namespace Interpolate

/-- What is read is not empty. -/
theorem Expr.ne_nil_of_read {text : List Char} {e : Expr} (h : Expr.read text = .ok e) : text ≠ [] := by
  rintro rfl
  obtain ⟨⟨ts, hlex, hderives⟩, -⟩ := read_eq_ok_iff.mp h
  obtain ⟨token, us, rfl, -⟩ := hderives.head
  rw [Token.lex] at hlex
  cases hlex

/-- What evaluation reports about a text: the value of its expression, or the error in its place. -/
structure Outcome.Answers (o : Outcome Value) (context : Context) (e : Expr) (passes : Nat) : Prop where
  /-- the value -/
  value : ∀ v, e.eval context = .ok v → o.Reports (some v) none passes
  /-- the error -/
  error : ∀ error, e.eval context = .error error → o.Reports none (some (.valueless error)) passes

/-- After resolution, a text that passes the filter and the reader has the outcome of its expression. -/
theorem Outcome.judge_reports {filter : Filter} {context : Context} {source : String} {o : Outcome Value} {e : Expr}
    (hfault : o.fault = none) (haccepts : filter.accepts (Text.trim source.toList) = true)
    (hread : Expr.read (Text.trim source.toList) = .ok e) :
    (o.judge filter context source).Answers context e o.passes := by
  have hne : (Text.trim source.toList).isEmpty = false := by simpa using Expr.ne_nil_of_read hread
  have hillegal : filter.illegal? (Text.trim source.toList) = none := Option.isNone_iff_eq_none.mp haccepts
  constructor
  · intro v hv
    simp only [judge, hne, hillegal, hread, hv, Bool.false_eq_true, if_false]
    exact ⟨by simp [settle, addStep, hfault], hfault, rfl⟩
  · intro error herror
    simp only [judge, hne, hillegal, hread, herror, Bool.false_eq_true, if_false]
    exact settle_reports_of_fault (by simp [fail, addStep, hfault]) rfl

/-- After resolution, a text that passes the filter but is no expression has the complaint of the reader. -/
theorem Outcome.judge_reports_malformed {filter : Filter} {context : Context} {source : String} {o : Outcome Value}
    {error : SyntaxError} (hfault : o.fault = none) (hne : Text.trim source.toList ≠ [])
    (haccepts : filter.accepts (Text.trim source.toList) = true)
    (hread : Expr.read (Text.trim source.toList) = .error error) :
    (o.judge filter context source).Reports none (some (.malformed error)) o.passes := by
  have hempty : (Text.trim source.toList).isEmpty = false := by simpa using hne
  have hillegal : filter.illegal? (Text.trim source.toList) = none := Option.isNone_iff_eq_none.mp haccepts
  simp only [judge, hempty, hillegal, hread, Bool.false_eq_true, if_false]
  exact settle_reports_of_fault (by simp [fail, addStep, hfault]) rfl

section Stages

variable {i : Interpreter Id} {environment : (name : String) → Option String} {text source : String} {passes : Nat}

/-- A text that resolves is evaluated as what it resolves to. -/
theorem Interpreter.evaluate_eq_judge
    (hresolve : (Id.run (i.resolve environment text)).Reports (some source) none passes) :
    Id.run (i.evaluate environment text) =
      Outcome.judge i.filter i.context source { Id.run (i.resolve environment text) with value := none } := by
  have hvalue := hresolve.1
  rw [resolve, resolveInto] at hvalue ⊢
  rw [evaluate, evaluateInto, Interpolate.evaluate, Id.run_bind]
  simp only [hvalue, Id.run_pure]

/-- A text that resolves to one that passes the filter and the reader has the outcome of its expression. -/
theorem Interpreter.evaluate_reports {e : Expr}
    (hresolve : (Id.run (i.resolve environment text)).Reports (some source) none passes)
    (haccepts : i.filter.accepts (Text.trim source.toList) = true)
    (hread : Expr.read (Text.trim source.toList) = .ok e) :
    (Id.run (i.evaluate environment text)).Answers i.context e passes := by
  rw [evaluate_eq_judge hresolve]
  obtain ⟨-, hfault, rfl⟩ := hresolve
  exact Outcome.judge_reports hfault haccepts hread

/-- A text that resolves to one that passes the filter but not the reader has the complaint of the reader. -/
theorem Interpreter.evaluate_reports_malformed {error : SyntaxError}
    (hresolve : (Id.run (i.resolve environment text)).Reports (some source) none passes)
    (hne : Text.trim source.toList ≠ []) (haccepts : i.filter.accepts (Text.trim source.toList) = true)
    (hread : Expr.read (Text.trim source.toList) = .error error) :
    (Id.run (i.evaluate environment text)).Reports none (some (.malformed error)) passes := by
  rw [evaluate_eq_judge hresolve]
  obtain ⟨-, hfault, rfl⟩ := hresolve
  exact Outcome.judge_reports_malformed hfault hne haccepts hread

end Stages

end Interpolate
