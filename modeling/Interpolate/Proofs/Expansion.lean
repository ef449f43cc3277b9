import Interpolate.Proofs.Resolution
import Interpolate.Proofs.Template

/-!
# Resolution expands templates

Where every name in a text has a definition and every definition is a template, resolution gives the expansion
of the text, with one pass for each reference. The loop works on flat text and from the right, the expansion on
trees; what connects them is that the text to the right of the placeholder at work is expanded already and holds
no dollar sign, so that no placeholder forms by accident.

* **`Definitions.Expands.rewritesIn`** — a template rewrites to its expansion in as many steps as it has
  references to expand, wherever in a text it stands;
* **`Definitions.rewrites_of_not_expandable`** — a template without an expansion always rewrites further;
* **`resolve_template`** — the outcome for a template, in all cases.
-/

namespace Interpolate

namespace Definitions

variable {g : Definitions} {answer : (name : String) → Answer}

open Resolution

/-- Every defined name stands for its template. -/
def AnsweredBy (g : Definitions) (answer : (name : String) → Answer) : Prop :=
  ∀ d ∈ g.list, ∃ value, (answer (String.ofList d.1)).value? = some value ∧ value.toList = d.2.spell

/-- The lookup has an entry for every definition: the name, and how the template is written. -/
def HeldBy {m : Type → Type} (g : Definitions) (l : Lookup m) : Prop :=
  ∀ d ∈ g.list, ∃ e, l.entry? (String.ofList d.1) = some e ∧ e.value.toList = d.2.spell

theorem HeldBy.answeredBy {l : Lookup Id} (h : g.HeldBy l) (environment : (name : String) → Option String) :
    g.AnsweredBy (l.answers environment) := by
  intro d hd
  obtain ⟨e, he, hvalue⟩ := h d hd
  exact ⟨e.value, Lookup.value?_answers he, hvalue⟩

/-! ## Templates with an expansion -/

/-- The last reference of a text gives way to the template behind it. -/
theorem AnsweredBy.rewrites (h : g.AnsweredBy answer) {name : List Char} {d : Template}
    (hd : (name, d) ∈ g.list) (hname : Text.isName name = true) (before : List Char) {after : List Char}
    (hafter : '$' ∉ after) :
    Rewrites answer (before ++ Placeholder.spell name ++ after) (before ++ d.spell ++ after) := by
  obtain ⟨value, hknown, hvalue⟩ := h _ hd
  rw [← hvalue]
  exact rewrites_of_not_mem hname hknown before hafter

/-- A template rewrites to its expansion, whatever stands before it, and if no dollar sign stands after it. -/
theorem Expands.rewritesIn (h : g.AnsweredBy answer) {t : Template} {v : List Char} {n : Nat}
    (ht : g.Expands t v n) (before : List Char) {after : List Char} (hafter : '$' ∉ after) :
    RewritesIn answer n (before ++ t.spell ++ after) (before ++ v ++ after) := by
  induction ht generalizing before after with
  | nil => exact .refl _
  | @plain text _ t v n _ ih =>
    have := ih (before ++ text) hafter
    simpa [Template.spell, Part.spell] using this
  | @reference name isName d t v w n k defined _ rest ihinner ihrest =>
    -- first what stands to the right, then the reference itself, then what it gave way to
    have hrest : RewritesIn answer k (before ++ Placeholder.spell name ++ t.spell ++ after)
        (before ++ Placeholder.spell name ++ w ++ after) := ihrest _ hafter
    have hdollar : '$' ∉ w ++ after := by simp [rest.not_mem, hafter]
    have hstep : Rewrites answer (before ++ Placeholder.spell name ++ (w ++ after))
        (before ++ d.spell ++ (w ++ after)) := h.rewrites defined isName before hdollar
    have hinner : RewritesIn answer n (before ++ d.spell ++ (w ++ after)) (before ++ v ++ (w ++ after)) :=
      ihinner before hdollar
    have hrun := hrest.trans (by simpa using RewritesIn.step hstep hinner)
    rw [show n + k + 1 = k + (n + 1) by omega]
    simpa [Template.spell, Part.spell] using hrun

/-! ## Templates without an expansion -/

/-- A template without an expansion rewrites to another one. -/
theorem exists_rewrites_of_not_expandable (h : g.AnsweredBy answer) {t : Template} (hcovers : g.Covers t)
    (hnot : ¬ g.Expandable t) :
    ∃ s : Template, g.Covers s ∧ ¬ g.Expandable s ∧ Rewrites answer t.spell s.spell := by
  have hnames : t.names ≠ [] := by
    intro hnil
    refine hnot (expandable_iff.mpr fun x hx => ?_)
    rw [hnil] at hx
    cases hx
  obtain ⟨front, name, isName, rest, rfl, hrest⟩ := Template.exists_last_reference hnames
  obtain ⟨d, hd⟩ := exists_template (hcovers name (by simp [Template.names]))
  refine ⟨front ++ d ++ rest, ?_, ?_, ?_⟩
  · intro x hx
    simp only [Template.names_append, hrest, List.append_nil, List.mem_append] at hx
    rcases hx with hx | hx
    · exact hcovers x (by simp [hx])
    · exact covers_of_mem hd x hx
  · intro hexp
    refine hnot (expandable_iff.mpr fun x hx => ?_)
    simp only [Template.names_append, Template.names, hrest, List.mem_append, List.mem_singleton] at hx
    rw [expandable_iff] at hexp
    rcases hx with hx | rfl
    · exact hexp x (by simp [hx])
    · exact ⟨d, hd, expandable_iff.mpr fun y hy => hexp y (by simp [hy])⟩
  · have := h.rewrites hd isName (Template.spell front) (Template.not_mem_spell hrest)
    simpa [Template.spell, Part.spell] using this

theorem rewrites_of_not_expandable (h : g.AnsweredBy answer) (n : Nat) {t : Template} (hcovers : g.Covers t)
    (hnot : ¬ g.Expandable t) : ∃ final, RewritesIn answer n t.spell final := by
  induction n generalizing t with
  | zero => exact ⟨_, .refl _⟩
  | succ n ih =>
    obtain ⟨s, hs, hnot', hstep⟩ := exists_rewrites_of_not_expandable h hcovers hnot
    obtain ⟨final, hrun⟩ := ih hs hnot'
    exact ⟨final, .step hstep hrun⟩

end Definitions

/-! ## Resolution -/

open Resolution

/-- **Resolution expands templates.** For a template that refers to defined names only: if it has an expansion with
no more references to expand than passes are allowed, resolution gives that expansion and counts one pass for each
reference; if there are more of them, or if a cycle of definitions can be reached, the passes are used up. A
template has an expansion exactly if no cycle can be reached from it, so that these are all cases. -/
theorem resolve_template (g : Definitions) (i : Interpreter Id)
    (environment : (name : String) → Option String) (held : g.HeldBy i.lookup) (t : Template)
    (covers : g.Covers t) :
    let o := Id.run (i.resolve environment (String.ofList t.spell))
    (∀ v n, g.Expands t v n → n ≤ i.limit → o.Reports (some (String.ofList v)) none n) ∧
    (∀ v n, g.Expands t v n → i.limit < n →
      o.Reports none (some (.tooManyPasses i.limit)) (i.limit + 1)) ∧
    (g.Cyclic t → o.Reports none (some (.tooManyPasses i.limit)) (i.limit + 1)) ∧
    ((∃ v n, g.Expands t v n) ↔ ¬ g.Cyclic t) := by
  intro o
  have hanswer := held.answeredBy environment
  simp only [o, Interpreter.resolve_reports_iff, String.toList_ofList]
  have hrewrites : ∀ v n, g.Expands t v n → RewritesIn (i.lookup.answers environment) n t.spell v := by
    intro v n hv
    simpa using hv.rewritesIn hanswer [] List.not_mem_nil
  refine ⟨fun v n hv hle => ?_, fun v n hv hlt => ?_, fun hcyclic => ?_,
    Definitions.expandable_iff_not_cyclic covers⟩
  · refine Verdict.value_iff.mpr ⟨n, (Nat.zero_add n).symm, hle, ?_, ?_⟩
    · rw [String.toList_ofList]
      exact hrewrites v n hv
    · rw [String.toList_ofList]
      exact Placeholder.not_occursIn_of_not_mem hv.not_mem
  · obtain ⟨k, rfl⟩ : ∃ k, n = i.limit + 1 + k := ⟨n - (i.limit + 1), by omega⟩
    obtain ⟨final, hrun⟩ := (hrewrites v _ hv).take
    exact .spent hrun
  · obtain ⟨final, hrun⟩ := Definitions.rewrites_of_not_expandable hanswer (i.limit + 1) covers
      fun hexp => hexp.not_cyclic hcyclic
    exact .spent hrun

/-- Two definitions, the first of which refers to the second. -/
def boxed : Definitions where
  list := [(['A'], [.plain ['<'] (by decide), .reference ['B'] (by decide), .plain ['>'] (by decide)]),
    (['B'], [.plain ['x'] (by decide)])]
  distinct := by decide
  closed := by simp [Template.names]

/-- A text with both names in it. -/
def boxedText : Template :=
  [.reference ['A'] (by decide), .plain ['-'] (by decide), .reference ['B'] (by decide)]

/-- An interpreter that knows both definitions and allows three passes. -/
def boxedInterpreter : Interpreter Id :=
  { Interpreter.standard ((Lookup.empty.add "A" "<$\x7bB\x7d>" none).add "B" "x" none) with limit := 3 }

theorem boxed_heldBy : boxed.HeldBy boxedInterpreter.lookup := by
  intro d hd
  simp only [boxed, List.mem_cons, List.not_mem_nil, or_false] at hd
  rcases hd with rfl | rfl
  · exact ⟨⟨"A", "<$\x7bB\x7d>", none⟩, by decide, by decide⟩
  · exact ⟨⟨"B", "x", none⟩, by decide, by decide⟩

/-- A name used twice is expanded twice, and each time is a pass. -/
theorem resolve_template_boxed :
    boxed.HeldBy boxedInterpreter.lookup ∧ boxed.Covers boxedText ∧
      (Id.run (boxedInterpreter.resolve (fun _ => none) (String.ofList boxedText.spell))).Reports
        (some "<x>-x") none 3 := by
  have hcovers : boxed.Covers boxedText := by simp [Definitions.Covers, boxedText, boxed, Template.names]
  have hinner : boxed.Expands [.plain ['x'] (by decide)] ['x'] 0 := .plain .nil
  have houter : boxed.Expands
      [.plain ['<'] (by decide), .reference ['B'] (by decide), .plain ['>'] (by decide)] ['<', 'x', '>'] 1 :=
    .plain (.reference (by simp [boxed]) hinner (.plain .nil))
  have hexpands : boxed.Expands boxedText ['<', 'x', '>', '-', 'x'] 3 :=
    .reference (by simp [boxed]) houter (.plain (.reference (by simp [boxed]) hinner .nil))
  exact ⟨boxed_heldBy, hcovers,
    (resolve_template boxed boxedInterpreter _ boxed_heldBy boxedText hcovers).1 _ _ hexpands (by decide)⟩

end Interpolate
