import Interpolate.Evaluation
import Interpolate.Proofs.Filtering

/-!
# What a filter does not allow has no effect

An evaluation asks its context for nothing but the constants and functions that the filter allows. Hence two contexts
that agree on these cannot be told apart: whatever the text, the outcomes are the same, with every fault, step and
count in them.

* **`Filter.Agrees`** — two contexts agree on what a filter allows;
* **`Filter.Allows`** — a node that the filter allows, as all nodes of the trees of accepted texts are
  (`allows_of_accepts`);
* **`eval_congr`** — a tree of such nodes has one value in both contexts, or one error;
* **`judge_congr`** — the stages after resolution give one outcome;
* **`evaluate_eq_of_agrees`** — so do all stages, in every monad.
-/

namespace Interpolate

namespace Filter

/-- Two contexts agree on the constants that a filter allows, and on the functions that it allows, with at most one
argument. -/
structure Agrees (filter : Filter) (context context' : Context) : Prop where
  /-- on constants -/
  constant : ∀ x ∈ filter.constants, context.constant? x = context'.constant? x
  /-- on functions -/
  call : ∀ f ∈ filter.functions, ∀ vs : List Value, vs.length ≤ 1 → context.call? f vs = context'.call? f vs

/-- The filter allows a node: a constant, a function with at most one argument, or whatever has no name. -/
def Allows (filter : Filter) : Expr → Prop
  | .name x => x ∈ filter.constants
  | .call f es => f ∈ filter.functions ∧ es.length ≤ 1
  | _ => True

/-- The trees of accepted texts are made of nodes that the filter allows. -/
theorem allows_of_accepts {filter : Filter} (hnamed : filter.IsNamed) {text : List Char} {e : Expr}
    (haccepts : filter.accepts text = true) (hread : Expr.read text = .ok e) :
    ∀ node ∈ e.nodes, filter.Allows node := by
  obtain ⟨ts, hlex, htokens⟩ := Reader.bind_eq_ok.mp hread
  obtain ⟨hderives, -⟩ := Expr.derives_of_ofTokens htokens
  have hlexes := Token.lexes_of_lex hlex
  obtain ⟨hcomma, -⟩ := not_mem_of_lexes hnamed hlexes haccepts
  have hpermits : ∀ {front back : List Token} {x : String}, ts = front ++ .word x :: back →
      filter.Permits (back.head? = some .leftParen) x := by
    have hstart : filter.accepts ([] ++ text) = true := haccepts
    intro front back x hts
    exact permits_of_lexes hnamed hlexes hstart (.inl (by simp)) hderives.known hts
  intro node hnode
  have hshows := hderives.shows node hnode
  cases node with
  | name x =>
    obtain ⟨free, front, back, hts, hback⟩ := hshows
    exact mem_constants_of_permits (hpermits hts) hback free
  | call f es =>
    obtain ⟨free, ⟨front, back, hts⟩, harguments⟩ := hshows
    exact ⟨mem_functions_of_permits (hpermits hts) rfl free, Nat.le_of_not_lt fun hlt => hcomma (harguments hlt)⟩
  | literal | unary | binary | compare | and | or => trivial

end Filter

namespace Expr

variable {filter : Filter} {context context' : Context}

/-! ## Trees -/

/-- Evaluation keeps the number of expressions. -/
theorem length_of_evalAll {es : List Expr} {vs : List Value} (h : evalAll context es = .ok vs) :
    vs.length = es.length := by
  induction es generalizing vs with
  | nil =>
    cases h
    rfl
  | cons e es ih =>
    obtain ⟨v, -, h⟩ := Reader.bind_eq_ok.mp h
    obtain ⟨us, hus, hreturn⟩ := Reader.bind_eq_ok.mp h
    cases hreturn
    rw [List.length_cons, List.length_cons, ih hus]

theorem evalLinks_congr {links : List (Relation × Expr)}
    (h : ∀ link ∈ links, link.2.eval context = link.2.eval context') (v : Value) :
    evalLinks context v links = evalLinks context' v links := by
  induction links generalizing v with
  | nil => rfl
  | cons link links ih =>
    obtain ⟨r, operand⟩ := link
    have hoperand := h _ (List.mem_cons_self ..)
    have hmore := ih fun link hlink => h link (List.mem_cons_of_mem _ hlink)
    simp only [evalLinks, hoperand, hmore]

theorem evalAll_congr {es : List Expr} (h : ∀ e ∈ es, e.eval context = e.eval context') :
    evalAll context es = evalAll context' es := by
  induction es with
  | nil => rfl
  | cons e es ih =>
    rw [evalAll, evalAll, h e (List.mem_cons_self ..), ih fun e he => h e (List.mem_cons_of_mem _ he)]

/-- Contexts that agree on what the filter allows give a tree of such nodes one value, or one error. -/
theorem eval_congr (hagrees : filter.Agrees context context') {e : Expr} (h : ∀ node ∈ e.nodes, filter.Allows node) :
    e.eval context = e.eval context' := by
  induction e with
  | literal v => rfl
  | name x =>
    have hx : x ∈ filter.constants := h _ (List.mem_singleton_self _)
    rw [eval, eval, hagrees.constant x hx]
  | unary op e ih =>
    obtain ⟨-, he⟩ := forall_nodes_unary.mp h
    rw [eval, eval, ih he]
  | binary op l r ihleft ihright =>
    obtain ⟨-, hl, hr⟩ := forall_nodes_binary.mp h
    rw [eval, eval, ihleft hl, ihright hr]
  | compare first links ihfirst ihlinks =>
    obtain ⟨-, hfirst, hlinks⟩ := forall_nodes_compare.mp h
    have hcongr := evalLinks_congr fun link hlink => ihlinks link hlink (hlinks link hlink)
    simp only [eval, ihfirst hfirst, hcongr]
  | and l r ihleft ihright =>
    obtain ⟨-, hl, hr⟩ := forall_nodes_and.mp h
    rw [eval, eval, ihleft hl, ihright hr]
  | or l r ihleft ihright =>
    obtain ⟨-, hl, hr⟩ := forall_nodes_or.mp h
    rw [eval, eval, ihleft hl, ihright hr]
  | call f es ih =>
    obtain ⟨⟨hf, hlength⟩, hes⟩ := forall_nodes_call.mp h
    rw [eval, eval, ← evalAll_congr fun e he => ih e he (hes e he)]
    cases hvs : evalAll context es with
    | error error => rfl
    | ok vs =>
      -- the function is asked with as many values as there are arguments
      have hle : vs.length ≤ 1 := Nat.le_trans (Nat.le_of_eq (length_of_evalAll hvs)) hlength
      simp only [bind, Except.bind, hagrees.call f hf vs hle]

end Expr

/-! ## Texts -/

variable {filter : Filter} {context context' : Context}

/-- The context comes in last, for texts that have passed the filter and the reader. -/
theorem Outcome.judge_congr (hnamed : filter.IsNamed) (hagrees : filter.Agrees context context') (source : String)
    (o : Outcome Value) : o.judge filter context source = o.judge filter context' source := by
  rw [judge, judge]
  split
  · rfl
  · dsimp only
    cases hillegal : filter.illegal? (Text.trim source.toList) with
    | some token => rfl
    | none =>
      cases hread : Expr.read (Text.trim source.toList) with
      | error error => rfl
      | ok e =>
        have haccepts : filter.accepts (Text.trim source.toList) = true := by rw [Filter.accepts, hillegal]; rfl
        simp only [Expr.eval_congr hagrees (Filter.allows_of_accepts hnamed haccepts hread)]

/-- **The filter isolates.** If the names that a filter allows have the form of names, then two interpreters whose
contexts agree on what it allows evaluate every text to the same outcome, whether they start afresh or go on from an
outcome. -/
theorem Interpreter.evaluate_eq_of_agrees {m : Type → Type} [Monad m] (lookup : Lookup m) (limit : Nat)
    (hnamed : filter.IsNamed) (hagrees : filter.Agrees context context')
    (environment : (name : String) → m (Option String)) (text : String) :
    let i : Interpreter m := ⟨lookup, limit, filter, context⟩
    let j : Interpreter m := ⟨lookup, limit, filter, context'⟩
    i.evaluate environment text = j.evaluate environment text ∧
      ∀ o, i.evaluateInto environment text o = j.evaluateInto environment text o := by
  have hinto : ∀ o, Interpreter.evaluateInto ⟨lookup, limit, filter, context⟩ environment text o =
      Interpreter.evaluateInto ⟨lookup, limit, filter, context'⟩ environment text o := by
    intro o
    simp only [evaluateInto, Interpolate.evaluate, Outcome.judge_congr hnamed hagrees]
  exact ⟨hinto _, hinto⟩

/-- The mathematical library with a constant that the standard filter does not allow. -/
def Math.secretive : Context :=
  { Math.library with constant? := fun x => if x = "secret" then some (.int 42) else Math.library.constant? x }

theorem Filter.standard_agrees_secretive : Filter.standard.Agrees Math.library Math.secretive where
  constant x hx := by
    have hne : x ≠ "secret" := by
      rintro rfl
      exact absurd hx (by decide +kernel)
    exact (if_neg hne).symm
  call f _ vs _ := rfl

theorem Interpreter.evaluate_eq_of_agrees_secretive :
    let i : Interpreter Id := ⟨.empty, 50, .standard, Math.library⟩
    let j : Interpreter Id := ⟨.empty, 50, .standard, Math.secretive⟩
    Filter.standard.IsNamed ∧ Filter.standard.Agrees Math.library Math.secretive ∧
      i.evaluate (fun _ => none) "secret + 1" = j.evaluate (fun _ => none) "secret + 1" ∧
      ∀ o, i.evaluateInto (fun _ => none) "secret + 1" o = j.evaluateInto (fun _ => none) "secret + 1" o :=
  ⟨Filter.standard_isNamed, Filter.standard_agrees_secretive,
    evaluate_eq_of_agrees (m := Id) .empty 50 Filter.standard_isNamed Filter.standard_agrees_secretive (fun _ => none)
      "secret + 1"⟩

end Interpolate
