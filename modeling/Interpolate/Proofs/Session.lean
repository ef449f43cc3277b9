import Interpolate.Proofs.Resolution

/-!
# Outcomes that are handed on

One outcome can be handed from call to call, and each call goes on where the one before it stopped. Whatever the calls
are, nothing that is noted in the outcome is lost on the way: steps are only added, the first fault stays, passes are
not taken back and the limit does not change.

* **`Outcome.Continues`** — a later outcome has all the notes of an earlier one;
* **`Outcome.Decided`** — there is a value or a fault, and not both;
* **`Resolution.Keeps`** — the properties of outcomes that resolution keeps, as one induction over the passes shows;
* **`continues_of_canReturn_resolve`**, **`continues_of_canReturn_evaluate`** — what the two kinds of calls keep and
  reach, from every outcome and in every monad whose actions can be looked into;
* **`Operation`**, **`Session`** — everything that can be done with an outcome, and sequences of it;
* **`Session.run_continues`** — the whole, for computations that depend on a world and change it.
-/

namespace Interpolate

open MonadAttach (CanReturn)

/-! ## What is kept -/

namespace Outcome

variable {α β γ : Type}

/-- Nothing that is noted in the first outcome is lost in the second. The values may differ, and even their types. -/
structure Continues (o : Outcome α) (o' : Outcome β) : Prop where
  /-- the steps stay at the front -/
  steps : o.steps <+: o'.steps
  /-- the fault stays the fault -/
  fault : ∀ fault, o.fault = some fault → o'.fault = some fault
  /-- no pass is taken back -/
  passes : o.passes ≤ o'.passes
  /-- the limit is the same -/
  limit : o'.limit = o.limit

/-- There is a value or a fault, and not both. -/
def Decided (o : Outcome α) : Prop :=
  (∃ value, o.value = some value ∧ o.fault = none) ∨ ∃ fault, o.value = none ∧ o.fault = some fault

theorem Continues.refl (o : Outcome α) : o.Continues o :=
  ⟨List.prefix_rfl, fun _ h => h, Nat.le_refl _, rfl⟩

theorem Continues.trans {o : Outcome α} {o' : Outcome β} {o'' : Outcome γ} (h : o.Continues o')
    (h' : o'.Continues o'') : o.Continues o'' where
  steps := h.steps.trans h'.steps
  fault := fun fault hfault => h'.fault fault (h.fault fault hfault)
  passes := Nat.le_trans h.passes h'.passes
  limit := h'.limit.trans h.limit

/-- The value is no note. -/
theorem Continues.withValue {o : Outcome α} {o' : Outcome β} (h : o.Continues o') (value : Option γ) :
    o.Continues { o' with value } :=
  ⟨h.steps, h.fault, h.passes, h.limit⟩

variable (o : Outcome α)

theorem continues_addStep (step : String) : o.Continues (o.addStep step) :=
  ⟨List.prefix_append .., fun _ h => h, Nat.le_refl _, rfl⟩

/-- A later fault does not take the place of an earlier one. -/
theorem continues_fail (fault : Fault) : o.Continues (o.fail fault) where
  steps := List.prefix_append ..
  fault := by
    intro earlier h
    rw [fail, h]
    rfl
  passes := Nat.le_refl _
  limit := rfl

theorem continues_settle : o.Continues o.settle :=
  (Continues.refl o).withValue _

theorem continues_map (f : α → β) : o.Continues (o.map f) :=
  (Continues.refl o).withValue _

theorem continues_record (name : String) (answer : Answer) : o.Continues (o.record name answer) := by
  cases answer with
  | found value origin => exact o.continues_addStep _
  | failed description => exact o.continues_fail _
  | unknown => exact o.continues_fail _

/-- One pass more. -/
theorem continues_pass : o.Continues { o with passes := o.passes + 1 } :=
  ⟨List.prefix_rfl, fun _ h => h, Nat.le_succ _, rfl⟩

variable {o}

theorem fault_fail_ne_none (fault : Fault) : (o.fail fault).fault ≠ none := by
  cases h : o.fault <;> simp [fail, h]

/-- An outcome with a value so far, or with a fault, settles for one of them. -/
theorem decided_settle (h : o.value ≠ none ∨ o.fault ≠ none) : o.settle.Decided := by
  cases hfault : o.fault with
  | some fault => exact .inr ⟨fault, by simp [settle, hfault], hfault⟩
  | none =>
    obtain ⟨value, hvalue⟩ := Option.ne_none_iff_exists'.mp (h.resolve_right fun hne => hne hfault)
    exact .inl ⟨value, by simp [settle, hfault, hvalue], hfault⟩

end Outcome

/-! ## Resolution -/

section Calls

variable {m : Type → Type} [Monad m] [LawfulMonad m] [MonadAttach m] [LawfulMonadAttach m]
  {ask : (name : String) → m Answer}

/-- What the loop of passes can come to: nothing is left to do; the name asked for has no text; or it has one, and the
pass is one too many or the loop goes on after it. -/
theorem Resolution.cases_of_canReturn_passes {text : List Char} {o o' : Outcome String}
    (h : CanReturn (passes ask text o) o') :
    (Placeholder.last? text = none ∧ o' = { o with value := some (String.ofList text) }) ∨
      ∃ p answer, Placeholder.last? text = some p ∧ CanReturn (ask (String.ofList p.name)) answer ∧
        ((answer.value? = none ∧
            o' = { o.record (String.ofList p.name) answer with value := some (String.ofList text) }) ∨
          ∃ value, answer.value? = some value ∧
            ((o.limit < o.passes + 1 ∧ o' = o.overrun (String.ofList p.name) answer (p.fill value.toList)) ∨
              (¬ o.limit < o.passes + 1 ∧
                CanReturn (passes ask (p.fill value.toList)
                  (o.tally (String.ofList p.name) answer (p.fill value.toList))) o'))) := by
  rw [passes] at h
  split at h
  · next hnone => exact .inl ⟨hnone, (LawfulMonadAttach.eq_of_canReturn_pure h).symm⟩
  · next p hlast =>
    obtain ⟨answer, hask, hrest⟩ := LawfulMonadAttach.canReturn_bind_imp' h
    refine .inr ⟨p, answer, hlast, hask, ?_⟩
    dsimp only at hrest
    split at hrest
    · next hvalue => exact .inl ⟨hvalue, (LawfulMonadAttach.eq_of_canReturn_pure hrest).symm⟩
    · next value hvalue =>
      refine .inr ⟨value, hvalue, ?_⟩
      split at hrest
      · next hover => exact .inl ⟨by simpa using hover, (LawfulMonadAttach.eq_of_canReturn_pure hrest).symm⟩
      · next hwithin => exact .inr ⟨by simpa using hwithin, hrest⟩

/-- The property is kept by everything that is noted while a text is resolved. -/
structure Resolution.Keeps (P : Outcome String → Prop) : Prop where
  /-- by the value so far -/
  value : ∀ o value, P o → P { o with value }
  /-- by a step -/
  addStep : ∀ o step, P o → P (o.addStep step)
  /-- by a pass -/
  pass : ∀ o, P o → P { o with passes := o.passes + 1 }
  /-- by a fault; none of resolution is about the value of an expression -/
  fail : ∀ o fault, (∀ cause, fault ≠ .valueless cause) → P o → P (o.fail fault)

namespace Resolution.Keeps

variable {P : Outcome String → Prop} {o o' : Outcome String}

theorem record (hkeeps : Keeps P) (ho : P o) (name : String) (answer : Answer) : P (o.record name answer) := by
  cases answer with
  | found value origin => exact hkeeps.addStep _ _ ho
  | failed description => exact hkeeps.fail _ _ nofun ho
  | unknown => exact hkeeps.fail _ _ nofun ho

theorem tally (hkeeps : Keeps P) (ho : P o) (name : String) (answer : Answer) (next : List Char) :
    P (o.tally name answer next) :=
  hkeeps.addStep _ _ (hkeeps.pass _ (hkeeps.record ho name answer))

theorem overrun (hkeeps : Keeps P) (ho : P o) (name : String) (answer : Answer) (next : List Char) :
    P (o.overrun name answer next) :=
  hkeeps.value _ _ (hkeeps.fail _ _ nofun (hkeeps.addStep _ _ (hkeeps.pass _ (hkeeps.record ho name answer))))

/-- The passes keep the property, and leave a value for the outcome to settle with. -/
theorem of_canReturn_passes (hkeeps : Keeps P) {text : List Char} (ho : P o) (h : CanReturn (passes ask text o) o') :
    P o' ∧ o'.value ≠ none := by
  -- on the passes of the loop; the answers may come from anywhere, so that only what can be returned is looked at
  induction text, o using passes.induct with
  | case1 text o hnone =>
    rcases cases_of_canReturn_passes h with ⟨-, rfl⟩ | ⟨p, answer, hlast, -⟩
    · exact ⟨hkeeps.value _ _ ho, Option.some_ne_none _⟩
    · rw [hnone] at hlast
      cases hlast
  | case2 text o p hsome ih =>
    rcases cases_of_canReturn_passes h with ⟨hnone, -⟩ | ⟨q, answer, hlast, -, hanswered⟩
    · rw [hsome] at hnone
      cases hnone
    · obtain rfl : p = q := Option.some.inj (hsome.symm.trans hlast)
      rcases hanswered with ⟨-, rfl⟩ | ⟨value, -, ⟨-, rfl⟩ | ⟨hwithin, hmore⟩⟩
      · exact ⟨hkeeps.value _ _ (hkeeps.record ho _ _), Option.some_ne_none _⟩
      · exact ⟨hkeeps.overrun ho _ _ _, Option.some_ne_none _⟩
      · exact ih answer value (by simpa using hwithin) (hkeeps.tally ho _ _ _) hmore

/-- Resolution keeps the property, and ends with a value or a fault. -/
theorem of_canReturn_resolve (hkeeps : Keeps P) {text : String} (ho : P o) (h : CanReturn (resolve ask text o) o') :
    P o' ∧ o'.Decided := by
  rw [resolve] at h
  split at h
  · obtain ⟨resolved, hpasses, hrest⟩ := LawfulMonadAttach.canReturn_bind_imp' h
    obtain rfl := LawfulMonadAttach.eq_of_canReturn_pure hrest
    obtain ⟨hresolved, hvalue⟩ := hkeeps.of_canReturn_passes (hkeeps.addStep _ _ ho) hpasses
    exact ⟨hkeeps.value _ _ hresolved, Outcome.decided_settle (.inl hvalue)⟩
  · obtain rfl := LawfulMonadAttach.eq_of_canReturn_pure h
    exact ⟨hkeeps.value _ _ (hkeeps.value _ _ ho), Outcome.decided_settle (.inl (Option.some_ne_none _))⟩

end Resolution.Keeps

theorem Resolution.keeps_continues (o : Outcome String) : Keeps fun o' => o.Continues o' where
  value _ value h := h.withValue value
  addStep _ step h := h.trans (Outcome.continues_addStep _ step)
  pass _ h := h.trans (Outcome.continues_pass _)
  fail _ fault _ h := h.trans (Outcome.continues_fail _ fault)

/-- **Resolution** loses nothing of the outcome that it is handed, whatever is noted there already, and ends with a
value or a fault. -/
theorem continues_of_canReturn_resolve {text : String} {o o' : Outcome String}
    (h : CanReturn (resolve ask text o) o') : o.Continues o' ∧ o'.Decided :=
  (Resolution.keeps_continues o).of_canReturn_resolve (.refl o) h

/-! ## Evaluation -/

theorem Outcome.continues_fail_settle {α : Type} (o : Outcome α) (fault : Fault) :
    o.Continues (o.fail fault).settle ∧ (o.fail fault).settle.Decided :=
  ⟨(o.continues_fail fault).trans (continues_settle _), decided_settle (.inr (fault_fail_ne_none fault))⟩

/-- The stages after resolution lose nothing, and each way out of them has a value or a fault. -/
theorem Outcome.continues_judge (filter : Filter) (context : Context) (source : String) (o : Outcome Value) :
    o.Continues (o.judge filter context source) ∧ (o.judge filter context source).Decided := by
  have hread := o.continues_addStep ("eval: " ++ String.ofList (Text.trim source.toList))
  rw [judge]
  dsimp only
  split
  · exact o.continues_fail_settle _
  · split
    · exact o.continues_fail_settle _
    · split
      · obtain ⟨hcontinues, hdecided⟩ := continues_fail_settle (o.addStep _) _
        exact ⟨hread.trans hcontinues, hdecided⟩
      · split
        · obtain ⟨hcontinues, hdecided⟩ := continues_fail_settle (o.addStep _) _
          exact ⟨hread.trans hcontinues, hdecided⟩
        · exact ⟨((hread.trans (continues_addStep _ _)).withValue _).trans (continues_settle _),
            decided_settle (.inl (Option.some_ne_none _))⟩

/-- **Evaluation** loses nothing of the outcome that it is handed, and ends with a value or a fault. -/
theorem continues_of_canReturn_evaluate {filter : Filter} {context : Context} {text : String} {o : Outcome String}
    {o' : Outcome Value} (h : CanReturn (evaluate filter context ask text o) o') : o.Continues o' ∧ o'.Decided := by
  obtain ⟨resolved, hresolve, hrest⟩ := LawfulMonadAttach.canReturn_bind_imp' h
  obtain ⟨hcontinues, hdecided⟩ := continues_of_canReturn_resolve hresolve
  dsimp only at hrest
  split at hrest
  · next hnone =>
    obtain rfl := LawfulMonadAttach.eq_of_canReturn_pure hrest
    rcases hdecided with ⟨value, hvalue, -⟩ | ⟨fault, -, hfault⟩
    · rw [hnone] at hvalue
      cases hvalue
    · exact ⟨hcontinues.withValue _, .inr ⟨fault, rfl, hfault⟩⟩
  · next source _ =>
    obtain rfl := LawfulMonadAttach.eq_of_canReturn_pure hrest
    have hbare : o.Continues ({ resolved with value := none } : Outcome Value) := hcontinues.withValue _
    obtain ⟨hjudge, hsettled⟩ := Outcome.continues_judge filter context source { resolved with value := none }
    exact ⟨hbare.trans hjudge, hsettled⟩

end Calls

/-! ## Sessions -/

/-- What can be done with an outcome. The lookup, the interpreter and the environment can be other ones each time. -/
inductive Operation (m : Type → Type) : (before after : Type) → Type 1 where
  /-- notes a step -/
  | addStep {α : Type} (step : String) : Operation m α α
  /-- notes a fault -/
  | fail {α : Type} (fault : Fault) : Operation m α α
  /-- settles -/
  | settle {α : Type} : Operation m α α
  /-- goes on with another value -/
  | map {α β : Type} (f : α → β) : Operation m α β
  /-- asks for a name, and notes the answer -/
  | ask {α : Type} (lookup : Lookup m) (environment : (name : String) → m (Option String)) (name : String) :
    Operation m α α
  /-- resolves a text -/
  | resolve (i : Interpreter m) (environment : (name : String) → m (Option String)) (text : String) :
    Operation m String String
  /-- evaluates a text -/
  | evaluate (i : Interpreter m) (environment : (name : String) → m (Option String)) (text : String) :
    Operation m String Value

/-- Operations one after another, each with the outcome of the one before. -/
inductive Session (m : Type → Type) : (before after : Type) → Type 1 where
  /-- nothing more is done -/
  | done {α : Type} : Session m α α
  /-- one operation, and those after it -/
  | next {α β γ : Type} (first : Operation m α β) (rest : Session m β γ) : Session m α γ

namespace Operation

variable {m : Type → Type} {α β : Type}

/-- The operation resolves or evaluates a text. -/
def isCall : Operation m α β → Bool
  | resolve .. | evaluate .. => true
  | addStep .. | fail .. | settle | map .. | ask .. => false

variable [Monad m]

/-- Does what the operation says. -/
def run : Operation m α β → Outcome α → m (Outcome β)
  | addStep step, o => pure (o.addStep step)
  | fail fault, o => pure (o.fail fault)
  | settle, o => pure o.settle
  | map f, o => pure (o.map f)
  | ask lookup environment name, o => do return o.record name (← lookup.ask environment name)
  | resolve i environment text, o => i.resolveInto environment text o
  | evaluate i environment text, o => i.evaluateInto environment text o

variable [LawfulMonad m] [MonadAttach m] [LawfulMonadAttach m]

/-- One operation loses nothing, and a call ends with a value or a fault. -/
theorem continues_of_canReturn_run {op : Operation m α β} {o : Outcome α} {o' : Outcome β}
    (h : CanReturn (op.run o) o') : o.Continues o' ∧ (op.isCall = true → o'.Decided) := by
  cases op with
  | addStep step =>
    obtain rfl := LawfulMonadAttach.eq_of_canReturn_pure h
    exact ⟨o.continues_addStep step, nofun⟩
  | fail fault =>
    obtain rfl := LawfulMonadAttach.eq_of_canReturn_pure h
    exact ⟨o.continues_fail fault, nofun⟩
  | settle =>
    obtain rfl := LawfulMonadAttach.eq_of_canReturn_pure h
    exact ⟨o.continues_settle, nofun⟩
  | map f =>
    obtain rfl := LawfulMonadAttach.eq_of_canReturn_pure h
    exact ⟨o.continues_map f, nofun⟩
  | ask lookup environment name =>
    obtain ⟨answer, -, hrest⟩ := LawfulMonadAttach.canReturn_bind_imp' h
    obtain rfl := LawfulMonadAttach.eq_of_canReturn_pure hrest
    exact ⟨o.continues_record name answer, nofun⟩
  | resolve i environment text =>
    obtain ⟨hcontinues, hdecided⟩ := continues_of_canReturn_resolve h
    exact ⟨hcontinues, fun _ => hdecided⟩
  | evaluate i environment text =>
    obtain ⟨hcontinues, hdecided⟩ := continues_of_canReturn_evaluate h
    exact ⟨hcontinues, fun _ => hdecided⟩

end Operation

namespace Session

/-- Does one operation after another. -/
def run {m : Type → Type} [Monad m] {α β : Type} : Session m α β → Outcome α → m (Outcome β)
  | done, o => pure o
  | next first rest, o => do rest.run (← first.run o)

/-- A session loses nothing of the outcome that it starts with. -/
theorem continues_of_canReturn_run {m : Type → Type} [Monad m] [LawfulMonad m] [MonadAttach m] [LawfulMonadAttach m]
    {α β : Type} {session : Session m α β} {o : Outcome α} {o' : Outcome β} (h : CanReturn (session.run o) o') :
    o.Continues o' := by
  induction session with
  | done =>
    obtain rfl := LawfulMonadAttach.eq_of_canReturn_pure h
    exact .refl o
  | next first rest ih =>
    obtain ⟨middle, hfirst, hrest⟩ := LawfulMonadAttach.canReturn_bind_imp' h
    exact (Operation.continues_of_canReturn_run hfirst).1.trans (ih hrest)

/-- What an action of a state monad gives in some state is something it can give. -/
theorem canReturn_of_state {σ γ : Type} (x : StateM σ γ) (s : σ) : CanReturn x (x.run s).1 :=
  ⟨s, (x.run s).2, rfl⟩

/-- **Nothing is lost in a session.** Whatever is done with an outcome, and however the answers change on the way:
before and after each operation, all steps noted so far are the first steps of the outcome, the fault noted first is
its fault, no pass is taken back, and the limit is what it was. After each call, there is a value or a fault, and not
both. -/
theorem run_continues {σ α β γ : Type} (session : Session (StateM σ) α β) (op : Operation (StateM σ) β γ)
    (o : Outcome α) (world : σ) :
    let reached := (session.run o).run world
    let after := ((op.run reached.1).run reached.2).1
    o.Continues reached.1 ∧ reached.1.Continues after ∧ (op.isCall = true → after.Decided) := by
  intro reached after
  have hsession : CanReturn (session.run o) reached.1 := canReturn_of_state _ world
  have hop : CanReturn (op.run reached.1) after := canReturn_of_state _ reached.2
  exact ⟨continues_of_canReturn_run hsession, Operation.continues_of_canReturn_run hop⟩

end Session

end Interpolate
