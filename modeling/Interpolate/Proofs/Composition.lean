import Interpolate.Proofs.Session

/-!
# Resolution, part by part

Since the placeholder that is filled is always the last one, a text is resolved from its end: what stands to the left
waits until nothing is left to do on the right, even if it holds the start of a placeholder that is completed only
then. And since an outcome can be handed on, several texts can be resolved one after another within one limit.

* **`Interpreter.resolve_append`** — the outcome for two texts in a row, from the outcome for the right one;
* **`Task`** — a text together with what becomes of it where passes are not limited;
* **`Outcome.Charged`** — the outcome after that many passes: there are few enough of them, or the fault is noted;
* **`Interpreter.resolveEach_reports`** — the outcomes for texts that share one limit.
-/

namespace Interpolate

open MonadAttach (CanReturn)
open Resolution

variable {answer : (name : String) → Answer}

/-! ## Two texts in a row -/

/-- **Resolution goes from right to left.** Whatever stands to the left of a text: if the text has no value, the whole
has none, for the same reason and after as many passes. If it has one, the whole has the outcome that is reached by
going on with the value in its place, the passes made so far being counted. One of the two always happens. -/
theorem Interpreter.resolve_append (i : Interpreter Id) (environment : (name : String) → Option String)
    (left right : String) :
    let part := Id.run (i.resolve environment right)
    let whole := Id.run (i.resolve environment (left ++ right))
    (∀ fault count, part.Reports none (some fault) count → whole.Reports none (some fault) count) ∧
    (∀ value count, part.Reports (some value) none count →
      let resumed := Id.run (i.resolveInto environment (left ++ value) { Outcome.fresh i.limit with passes := count })
      whole.Reports resumed.value resumed.fault resumed.passes) ∧
    ((∃ fault count, part.Reports none (some fault) count) ∨ ∃ value count, part.Reports (some value) none count) := by
  intro part whole
  refine ⟨fun fault count hpart => ?_, fun value count hpart => ?_, ?_⟩
  · have hverdict := (Interpreter.resolve_reports_iff.mp hpart).append left.toList
    rw [← String.toList_append] at hverdict
    exact Interpreter.resolve_reports_iff.mpr hverdict
  · intro resumed
    obtain ⟨n, rfl, hle, hrun, -⟩ := Verdict.value_iff.mp (Interpreter.resolve_reports_iff.mp hpart)
    -- the verdict on what the run on the right leaves, and that run in front of it
    have hresumed : resumed.Reports resumed.value resumed.fault resumed.passes := ⟨rfl, rfl, rfl⟩
    have hverdict : Verdict (i.lookup.answers environment) i.limit (0 + n) (left ++ value).toList
        resumed.value resumed.fault resumed.passes :=
      (resolveBy_reports_iff (o := { Outcome.fresh i.limit with passes := 0 + n }) rfl hle).mp hresumed
    have hwhole := hrun.append left.toList
    rw [← String.toList_append, ← String.toList_append] at hwhole
    exact Interpreter.resolve_reports_iff.mpr (hverdict.after hwhole hle)
  · obtain ⟨value, fault, count, hverdict, hreports⟩ :=
      verdict_resolveBy (i.lookup.answers environment) right (.fresh i.limit) rfl (Nat.zero_le _)
    rcases hverdict.value_or_fault with ⟨v, rfl, rfl⟩ | ⟨f, rfl, rfl⟩
    · exact .inr ⟨v, count, hreports⟩
    · exact .inl ⟨f, count, hreports⟩

/-- An interpreter that knows a child, and its parent. -/
def family : Interpreter Id :=
  .standard ((Lookup.empty.add "child" "Zack" none).add "parent_Zack" "duane" none)

theorem rewrites_family (before after : List Char) (hafter : '$' ∉ after) :
    Rewrites (family.lookup.answers fun _ => none) (before ++ Placeholder.spell "child".toList ++ after)
        (before ++ "Zack".toList ++ after) ∧
      Rewrites (family.lookup.answers fun _ => none) (before ++ Placeholder.spell "parent_Zack".toList ++ after)
        (before ++ "duane".toList ++ after) := by
  have hchild : family.lookup.entry? "child" = some ⟨"child", "Zack", none⟩ := by decide
  have hparent : family.lookup.entry? "parent_Zack" = some ⟨"parent_Zack", "duane", none⟩ := by decide
  exact ⟨rewrites_of_not_mem (by decide) (Lookup.value?_answers hchild) before hafter,
    rewrites_of_not_mem (by decide) (Lookup.value?_answers hparent) before hafter⟩

/-- The name of the parent is complete only when the child is known. -/
theorem Interpreter.resolve_append_family :
    (Id.run (family.resolve (fun _ => none) "$\x7bchild\x7d\x7d")).Reports (some "Zack\x7d") none 1 ∧
      (Id.run (family.resolve (fun _ => none) ("Double $\x7bparent_" ++ "$\x7bchild\x7d\x7d"))).Reports
        (some "Double duane") none 2 := by
  have hchild := (rewrites_family [] ['\x7d'] (by decide)).1
  have hparent := (rewrites_family "Double ".toList [] List.not_mem_nil).2
  have hpart : (Id.run (family.resolve (fun _ => none) "$\x7bchild\x7d\x7d")).Reports (some "Zack\x7d") none 1 :=
    Interpreter.resolve_reports_iff.mpr (Verdict.value_iff.mpr
      ⟨1, rfl, by decide, .step hchild (.refl _), Placeholder.not_occursIn_of_not_mem (by decide)⟩)
  have hresumed : (Id.run (family.resolveInto (fun _ => none) ("Double $\x7bparent_" ++ "Zack\x7d")
      { Outcome.fresh family.limit with passes := 1 })).Reports (some "Double duane") none 2 :=
    (resolveBy_reports_iff rfl (by decide)).mpr (Verdict.value_iff.mpr
      ⟨1, rfl, by decide, .step hparent (.refl _), Placeholder.not_occursIn_of_not_mem (by decide)⟩)
  obtain ⟨-, hresume, -⟩ := resolve_append family (fun _ => none) "Double $\x7bparent_" "$\x7bchild\x7d\x7d"
  obtain ⟨hvalue, hfault, hpasses⟩ := hresume _ _ hpart
  exact ⟨hpart, hvalue.trans hresumed.1, hfault.trans hresumed.2.1, hpasses.trans hresumed.2.2⟩

/-! ## Texts that share a limit -/

/-- A text, and what becomes of it where passes are not limited. -/
structure Task where
  /-- the text -/
  text : String
  /-- what it becomes -/
  value : String
  /-- the number of passes that takes -/
  passes : Nat

/-- With these answers, the text really becomes the value in that many passes, and no placeholder is left in it. -/
structure Task.DoneBy (answer : (name : String) → Answer) (task : Task) : Prop where
  /-- one pass after another leads from the text to the value -/
  run : RewritesIn answer task.passes task.text.toList task.value.toList
  /-- no placeholder is left -/
  done : ∀ p : Placeholder, ¬ p.OccursIn task.value.toList

/-- The passes that the tasks take together. -/
def Task.totalPasses : (tasks : List Task) → Nat
  | [] => 0
  | task :: tasks => task.passes + totalPasses tasks

/-- Resolves texts in their order, each into the outcome for the one before it. -/
def Interpreter.resolveEach {m : Type → Type} [Monad m] (i : Interpreter m)
    (environment : (name : String) → m (Option String)) : List String → Outcome String → m (List (Outcome String))
  | [], _ => return []
  | text :: texts, o => do
    let resolved ← i.resolveInto environment text o
    return resolved :: (← i.resolveEach environment texts resolved)

section Limit

variable {i : Interpreter Id} {environment : (name : String) → Option String} {limit spent : Nat}

/-- As long as the limit is kept, the verdict is the value. -/
theorem Task.DoneBy.verdict {task : Task} (h : task.DoneBy answer) (hle : spent + task.passes ≤ limit) :
    Verdict answer limit spent task.text.toList (some task.value) none (spent + task.passes) :=
  Verdict.value_iff.mpr ⟨task.passes, rfl, hle, h.run, h.done⟩

/-- A task that does not keep the limit is stopped on the way. -/
theorem Task.DoneBy.verdict_of_lt {task : Task} (h : task.DoneBy answer) (hspent : spent ≤ limit)
    (hlt : limit < spent + task.passes) :
    Verdict answer limit spent task.text.toList none (some (.tooManyPasses limit)) (limit + 1) := by
  obtain ⟨k, hk⟩ : ∃ k, task.passes = limit + 1 - spent + k := ⟨task.passes - (limit + 1 - spent), by omega⟩
  have hrun := h.run
  rw [hk] at hrun
  obtain ⟨final, htake⟩ := hrun.take
  exact .spent htake

/-- The outcome after `spent` passes: they are within the limit and counted, or beyond it and that is the fault. -/
structure Outcome.Charged (limit spent : Nat) (o : Outcome String) : Prop where
  /-- the limit is the one to keep to -/
  limit_eq : o.limit = limit
  /-- within the limit -/
  within : spent ≤ limit → o.fault = none ∧ o.passes = spent
  /-- beyond the limit -/
  beyond : limit < spent → o.fault = some (.tooManyPasses limit)

/-- At the start, nothing is spent. -/
theorem Outcome.charged_fresh (limit : Nat) : (Outcome.fresh limit).Charged limit 0 :=
  ⟨rfl, fun _ => ⟨rfl, rfl⟩, nofun⟩

/-- Within the limit, the next text is resolved as the passes left allow. -/
theorem Outcome.Charged.reports_iff {o : Outcome String} (ho : o.Charged limit spent) (hspent : spent ≤ limit)
    {text : String} {value : Option String} {fault : Option Fault} {count : Nat} :
    (Id.run (i.resolveInto environment text o)).Reports value fault count ↔
      Verdict (i.lookup.answers environment) limit spent text.toList value fault count := by
  obtain ⟨hfault, hpasses⟩ := ho.within hspent
  have hle : o.passes ≤ o.limit := by
    rw [hpasses, ho.limit_eq]
    exact hspent
  rw [← hpasses, ← ho.limit_eq]
  exact resolveBy_reports_iff hfault hle

/-- One task more: it is charged for, and has its value exactly if the limit is kept. -/
theorem Task.DoneBy.charged {task : Task} (h : task.DoneBy (i.lookup.answers environment)) {o : Outcome String}
    (ho : o.Charged limit spent) :
    let resolved := Id.run (i.resolveInto environment task.text o)
    resolved.Charged limit (spent + task.passes) ∧
      (spent + task.passes ≤ limit → resolved.Reports (some task.value) none (spent + task.passes)) ∧
      (limit < spent + task.passes → resolved.value = none ∧ resolved.fault = some (.tooManyPasses limit)) := by
  intro resolved
  have hcall : CanReturn (m := Id) (i.resolveInto environment task.text o) resolved := rfl
  obtain ⟨hcontinues, hdecided⟩ := continues_of_canReturn_resolve hcall
  have hwithin : spent + task.passes ≤ limit →
      resolved.Reports (some task.value) none (spent + task.passes) := by
    intro hle
    exact (ho.reports_iff (by omega)).mpr (h.verdict hle)
  have hbeyond : limit < spent + task.passes → resolved.fault = some (.tooManyPasses limit) := by
    intro hlt
    by_cases hspent : limit < spent
    · -- too many passes were made before, and that stays the fault
      exact hcontinues.fault _ (ho.beyond hspent)
    · have hle : spent ≤ limit := by omega
      exact ((ho.reports_iff hle).mpr (h.verdict_of_lt hle hlt)).2.1
  refine ⟨⟨hcontinues.limit.trans ho.limit_eq, fun hle => (hwithin hle).2, hbeyond⟩, hwithin, fun hlt => ?_⟩
  rcases hdecided with ⟨-, -, hnone⟩ | ⟨-, hvalue, -⟩
  · rw [hbeyond hlt] at hnone
    cases hnone
  · exact ⟨hvalue, hbeyond hlt⟩

/-- Tasks one after another, from an outcome on that is charged for some passes already. -/
theorem Interpreter.resolveEach_reports_of_charged {tasks : List Task}
    (htasks : ∀ task ∈ tasks, task.DoneBy (i.lookup.answers environment)) {o : Outcome String}
    (ho : o.Charged limit spent) :
    let outcomes := Id.run (i.resolveEach environment (tasks.map Task.text) o)
    outcomes.length = tasks.length ∧
      ∀ k (hk : k < tasks.length), ∃ resolved, outcomes[k]? = some resolved ∧
        let total := spent + Task.totalPasses (tasks.take (k + 1))
        (total ≤ limit → resolved.Reports (some tasks[k].value) none total) ∧
          (limit < total → resolved.value = none ∧ resolved.fault = some (.tooManyPasses limit)) := by
  -- on the tasks; what is spent before each of them is what its outcome is charged for
  induction tasks generalizing spent o with
  | nil => exact ⟨rfl, nofun⟩
  | cons task tasks ih =>
    intro outcomes
    obtain ⟨hcharged, hreports⟩ := (htasks task List.mem_cons_self).charged ho
    obtain ⟨hlength, hrest⟩ := ih (fun t ht => htasks t (List.mem_cons_of_mem _ ht)) hcharged
    refine ⟨congrArg (· + 1) hlength, ?_⟩
    intro k hk
    cases k with
    | zero =>
      refine ⟨Id.run (i.resolveInto environment task.text o), rfl, ?_⟩
      exact hreports
    | succ k =>
      obtain ⟨resolved, hget, hresolved⟩ := hrest k (Nat.lt_of_succ_lt_succ hk)
      refine ⟨resolved, hget, ?_⟩
      rw [Nat.add_assoc] at hresolved
      exact hresolved

end Limit

/-- **A limit is shared exactly.** Texts that are resolved one after another within one limit have their values as
long as the passes of all of them together are within the limit, and those are the passes counted. From the first one
on with which there are more, each has no value, and the fault is that of too many passes; that holds for texts without
a placeholder too. -/
theorem Interpreter.resolveEach_reports (i : Interpreter Id) (environment : (name : String) → Option String)
    (limit : Nat) (tasks : List Task)
    (tasks_done : ∀ task ∈ tasks, task.DoneBy (i.lookup.answers environment)) :
    let outcomes := Id.run (i.resolveEach environment (tasks.map Task.text) (.fresh limit))
    outcomes.length = tasks.length ∧
      ∀ k (hk : k < tasks.length), ∃ resolved, outcomes[k]? = some resolved ∧
        let total := Task.totalPasses (tasks.take (k + 1))
        (total ≤ limit → resolved.Reports (some tasks[k].value) none total) ∧
          (limit < total → resolved.value = none ∧ resolved.fault = some (.tooManyPasses limit)) := by
  simpa only [Nat.zero_add] using resolveEach_reports_of_charged tasks_done (Outcome.charged_fresh limit)

/-- Four texts that take three passes together. -/
def familyTasks : List Task :=
  [⟨"$\x7bchild\x7d", "Zack", 1⟩, ⟨"-", "-", 0⟩, ⟨"$\x7bparent_$\x7bchild\x7d\x7d", "duane", 2⟩, ⟨"-", "-", 0⟩]

theorem familyTasks_doneBy : ∀ task ∈ familyTasks, task.DoneBy (family.lookup.answers fun _ => none) := by
  have hfirst := (rewrites_family [] [] List.not_mem_nil).1
  have hinner := (rewrites_family "$\x7bparent_".toList ['\x7d'] (by decide)).1
  have houter := (rewrites_family [] [] List.not_mem_nil).2
  have hplain : Task.DoneBy (family.lookup.answers fun _ => none) ⟨"-", "-", 0⟩ :=
    ⟨.refl _, Placeholder.not_occursIn_of_not_mem (by decide)⟩
  intro task htask
  simp only [familyTasks, List.mem_cons, List.not_mem_nil, or_false] at htask
  rcases htask with rfl | rfl | rfl | rfl
  · exact ⟨.step hfirst (.refl _), Placeholder.not_occursIn_of_not_mem (by decide)⟩
  · exact hplain
  · exact ⟨.step hinner (.step houter (.refl _)), Placeholder.not_occursIn_of_not_mem (by decide)⟩
  · exact hplain

/-- With two passes allowed, the third text exceeds the limit, and the fourth one, which takes no pass, has no value
either. -/
theorem Interpreter.resolveEach_reports_family :
    (∀ task ∈ familyTasks, task.DoneBy (family.lookup.answers fun _ => none)) ∧
      ∃ second third fourth : Outcome String,
        let outcomes := Id.run (family.resolveEach (fun _ => none) (familyTasks.map Task.text) (.fresh 2))
        outcomes[1]? = some second ∧ outcomes[2]? = some third ∧ outcomes[3]? = some fourth ∧
          second.Reports (some "-") none 1 ∧ (third.value = none ∧ third.fault = some (.tooManyPasses 2)) ∧
          fourth.value = none ∧ fourth.fault = some (.tooManyPasses 2) := by
  obtain ⟨-, hreports⟩ := resolveEach_reports family (fun _ => none) 2 familyTasks familyTasks_doneBy
  obtain ⟨second, hsecond, hvalue, -⟩ := hreports 1 (by decide)
  obtain ⟨third, hthird, -, hfault⟩ := hreports 2 (by decide)
  obtain ⟨fourth, hfourth, -, hfault'⟩ := hreports 3 (by decide)
  exact ⟨familyTasks_doneBy, second, third, fourth, hsecond, hthird, hfourth, hvalue (by decide), hfault (by decide),
    hfault' (by decide)⟩

end Interpolate
