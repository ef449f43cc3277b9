import Interpolate.Math.Library

/-!
# Chains of comparisons

A chain compares each operand with the one before it. It can be written as single comparisons with `and` between them,
where all operands but the first and the last stand twice: evaluating an operand again gives the same value, and `and`
stops where the chain stops.

* **`comparisons`** — the comparisons of a chain, one for each link;
* **`eval_compare_cons`** — the first link, and the chain of those after it;
* **`eval_and_assoc`** — in which way `and` is nested makes no difference;
* **`eval_compare_append`** — what does not hold, or fails, decides for all that comes after it;
* **`eval_compare_eq_conjunction`** — the whole.
-/

namespace Interpolate

namespace Expr

/-- The comparisons that the links after an operand stand for. -/
def comparisons (operand : Expr) : List (Relation × Expr) → List Expr
  | [] => []
  | (r, next) :: links => .compare operand [(r, next)] :: comparisons next links

variable (context : Context)

/-! ## Nested `and` -/

theorem eval_and_congr {l l' r r' : Expr} (hl : l.eval context = l'.eval context)
    (hr : r.eval context = r'.eval context) : (Expr.and l r).eval context = (Expr.and l' r').eval context := by
  rw [eval, eval, hl, hr]

theorem eval_and_assoc (a b c : Expr) :
    (Expr.and (.and a b) c).eval context = (Expr.and a (.and b c)).eval context := by
  simp only [eval, bind_assoc]
  congr 1
  funext v
  split
  · rfl
  · next hfalse => simp [bind, Except.bind, hfalse]

/-! ## Links -/

/-- A chain is its first comparison and the chain of the other links, which starts with the operand that the first one
ends with. -/
theorem eval_compare_cons (first : Expr) (link : Relation × Expr) (links : List (Relation × Expr)) :
    (Expr.compare first (link :: links)).eval context =
      (Expr.and (.compare first [link]) (.compare link.2 links)).eval context := by
  obtain ⟨r, operand⟩ := link
  simp only [eval, evalLinks]
  cases first.eval context with
  | error cause => rfl
  | ok v =>
    cases hoperand : operand.eval context with
    | error cause => rfl
    | ok w => cases hholds : r.holds v w <;> simp [bind, Except.bind, hholds, Value.truth]

/-- Comparisons that are joined one after another to what is there already are joined to it as a chain. -/
theorem eval_foldl_and_comparisons (joined operand : Expr) (link : Relation × Expr) (links : List (Relation × Expr)) :
    ((comparisons operand (link :: links)).foldl .and joined).eval context =
      (Expr.and joined (.compare operand (link :: links))).eval context := by
  -- on the links; each of them moves from the chain on the right into what is joined on the left
  induction links generalizing joined operand link with
  | nil => rfl
  | cons next links ih =>
    calc ((comparisons operand (link :: next :: links)).foldl .and joined).eval context
        = (Expr.and (.and joined (.compare operand [link])) (.compare link.2 (next :: links))).eval context :=
          ih (.and joined (.compare operand [link])) link.2 next
      _ = (Expr.and joined (.and (.compare operand [link]) (.compare link.2 (next :: links)))).eval context :=
          eval_and_assoc context ..
      _ = (Expr.and joined (.compare operand (link :: next :: links))).eval context :=
          eval_and_congr context rfl (eval_compare_cons context operand link (next :: links)).symm

/-- Links that do not all hold, or one of whose operands fails, decide for all links that come after them. -/
theorem evalLinks_append {v : Value} {before : List (Relation × Expr)}
    (h : evalLinks context v before ≠ .ok (.bool true)) (after : List (Relation × Expr)) :
    evalLinks context v (before ++ after) = evalLinks context v before := by
  induction before generalizing v with
  | nil => exact absurd rfl h
  | cons link before ih =>
    obtain ⟨r, operand⟩ := link
    rw [evalLinks] at h
    rw [List.cons_append, evalLinks, evalLinks]
    cases hoperand : operand.eval context with
    | error cause => rfl
    | ok w =>
      rw [hoperand] at h
      cases hholds : r.holds v w with
      | false => simp only [bind, Except.bind, hholds, Bool.false_eq_true, if_false]
      | true =>
        simp only [bind, Except.bind, hholds, if_true] at h ⊢
        exact ih h

theorem eval_compare_append {first : Expr} {before : List (Relation × Expr)}
    (h : (Expr.compare first before).eval context ≠ .ok (.bool true)) (after : List (Relation × Expr)) :
    (Expr.compare first (before ++ after)).eval context = (Expr.compare first before).eval context := by
  rw [eval] at h
  rw [eval, eval]
  cases hfirst : first.eval context with
  | error cause => rfl
  | ok v =>
    rw [hfirst] at h
    exact evalLinks_append context h after

/-! ## Chains -/

/-- **A chain is the conjunction of its links.** A chain with one link or more has the value, or the error, of its
comparisons taken one by one and joined by `and` from the left. Links whose chain does not hold, or fails, decide for
every chain that they begin: operands after them are not looked at, whatever they would come to. -/
theorem eval_compare_eq_conjunction (first : Expr) :
    (∀ (link : Relation × Expr) (links : List (Relation × Expr)),
      (Expr.compare first (link :: links)).eval context =
        ((comparisons link.2 links).foldl Expr.and (.compare first [link])).eval context) ∧
    ∀ before after : List (Relation × Expr), (Expr.compare first before).eval context ≠ .ok (.bool true) →
      (Expr.compare first (before ++ after)).eval context = (Expr.compare first before).eval context := by
  refine ⟨fun link links => ?_, fun before after h => eval_compare_append context h after⟩
  cases links with
  | nil => rfl
  | cons next links =>
    rw [eval_foldl_and_comparisons]
    exact eval_compare_cons context first link (next :: links)

/-- One is not below zero, so that nothing is divided by zero, in the chain and in the conjunction. -/
theorem eval_compare_eq_conjunction_stopped :
    let one : Expr := .literal (.int 1)
    let zero : Expr := .literal (.int 0)
    let failing : Expr := .binary .floorDiv one zero
    failing.eval Math.library = .error .integerDivision ∧
      (Expr.compare one [(.lt, zero)]).eval Math.library ≠ .ok (.bool true) ∧
      (Expr.compare one [(.lt, zero), (.lt, failing)]).eval Math.library = .ok (.bool false) ∧
      (Expr.and (.compare one [(.lt, zero)]) (.compare zero [(.lt, failing)])).eval Math.library =
        .ok (.bool false) := by
  intro one zero failing
  have hfalse : (Expr.compare one [(.lt, zero)]).eval Math.library = .ok (.bool false) := by rfl
  have hne : (Expr.compare one [(.lt, zero)]).eval Math.library ≠ .ok (.bool true) := by simp [hfalse]
  obtain ⟨hconjunction, hstop⟩ := eval_compare_eq_conjunction Math.library one
  have hchain := hstop [(.lt, zero)] [(.lt, failing)] hne
  rw [hfalse] at hchain
  exact ⟨rfl, hne, hchain, (hconjunction (.lt, zero) [(.lt, failing)]).symm.trans hchain⟩

end Expr

end Interpolate
