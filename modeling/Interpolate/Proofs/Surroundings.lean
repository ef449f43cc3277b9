import Interpolate.Proofs.Composition

/-!
# Text around a text

A placeholder starts with a dollar sign and ends with a closing brace. Text without dollar signs in front of a text
therefore starts none, and text without closing braces behind it ends none: the placeholders of the whole are those of
the text, whatever is open at its end, and they still are after each pass.

* **`OccursIn.of_front`**, **`OccursIn.of_back`** — where the placeholders of the whole stand;
* **`Rewrites.append_back`**, **`RewritesIn.append_back`** — a step stays a step in front of other text, and a run a run
  (behind other text they stay so in any case);
* **`Verdict.surround`** — the verdict on the whole, from the verdict on the text;
* **`Interpreter.resolve_surrounded`** — what resolution reports on the whole.
-/

namespace Interpolate

namespace Placeholder

variable {front text back : List Char} {p : Placeholder}

/-! ## In front -/

/-- No placeholder starts in text without a dollar sign. -/
theorem OccursIn.of_front (hfront : '$' ∉ front) (h : p.OccursIn (front ++ text)) :
    ∃ before, p.before = front ++ before ∧ OccursIn { p with before } text := by
  induction front generalizing p with
  | nil => exact ⟨p.before, rfl, h⟩
  | cons c front ih =>
    obtain ⟨hc, hrest⟩ := not_or.mp (mt List.mem_cons.mpr hfront)
    rcases occursIn_cons h with hbefore | ⟨before, hbefore, hp⟩
    · -- a placeholder at the very start would make its dollar sign the first character
      have htext := h.text_eq
      rw [Placeholder.text, hbefore] at htext
      exact absurd (List.cons.inj htext).1 hc
    · obtain ⟨more, hmore, hq⟩ := ih hrest hp
      exact ⟨more, by rw [hbefore, List.cons_append]; exact congrArg _ hmore, hq⟩

theorem not_occursIn_append_front (hfront : '$' ∉ front) (h : ∀ p : Placeholder, ¬ p.OccursIn text) (p : Placeholder) :
    ¬ p.OccursIn (front ++ text) := by
  intro hp
  obtain ⟨before, -, hq⟩ := hp.of_front hfront
  exact h _ hq

/-! ## Behind -/

/-- No placeholder ends in text without a closing brace. -/
theorem OccursIn.of_back (hback : '\x7d' ∉ back) (h : p.OccursIn (text ++ back)) :
    ∃ after, p.after = after ++ back ∧ OccursIn { p with after } text := by
  rcases List.append_eq_append_iff.mp h.text_eq with ⟨after, htext, hafter⟩ | ⟨more, hmore, hrest⟩
  · exact ⟨after, hafter, htext.symm, h.isName⟩
  · rcases List.eq_nil_or_concat more with rfl | ⟨init, c, rfl⟩
    · rw [List.append_nil] at hmore
      exact ⟨[], by simpa using hrest.symm, by simpa [Placeholder.text] using hmore, h.isName⟩
    · -- what the placeholder and the text behind have in common would end with the closing brace
      have hlast := congrArg List.getLast? hmore
      simp only [spell, List.concat_eq_append, ← List.append_assoc, ← List.cons_append, List.getLast?_concat,
        Option.some.injEq] at hlast
      rw [hrest, ← hlast] at hback
      simp at hback

theorem not_occursIn_append_back (hback : '\x7d' ∉ back) (h : ∀ p : Placeholder, ¬ p.OccursIn text) (p : Placeholder) :
    ¬ p.OccursIn (text ++ back) := by
  intro hp
  obtain ⟨after, -, hq⟩ := hp.of_back hback
  exact h _ hq

/-- Text without a closing brace behind a text does not change which placeholder is the last. -/
theorem IsLast.append_back (h : p.IsLast text) (hback : '\x7d' ∉ back) :
    IsLast { p with after := p.after ++ back } (text ++ back) := by
  refine ⟨⟨?_, h.isName⟩, fun q hq => ?_⟩
  · rw [← h.text_eq]
    simp [Placeholder.text]
  · obtain ⟨after, -, hq'⟩ := hq.of_back hback
    exact h.latest { q with after } hq'

end Placeholder

namespace Resolution

variable {answer : (name : String) → Answer} {front text back : List Char}

/-! ## Steps and runs -/

/-- A step that a text can make, it can also make in front of text without a closing brace. -/
theorem Rewrites.append_back {next : List Char} (h : Rewrites answer text next) (hback : '\x7d' ∉ back) :
    Rewrites answer (text ++ back) (next ++ back) := by
  cases h with
  | @fill p value last known =>
    have hfill : p.fill value.toList ++ back = Placeholder.fill { p with after := p.after ++ back } value.toList := by
      simp [Placeholder.fill]
    rw [hfill]
    exact .fill (last.append_back hback) known

/-- A run stays a run in front of text without a closing brace. -/
theorem RewritesIn.append_back {n : Nat} {final : List Char} (h : RewritesIn answer n text final)
    (hback : '\x7d' ∉ back) : RewritesIn answer n (text ++ back) (final ++ back) := by
  induction h with
  | refl => exact .refl _
  | step first _ ih => exact .step (first.append_back hback) ih

/-! ## Verdicts -/

/-- The verdict on a text is the verdict on the text with others around it: only the value has them around it too. -/
theorem Verdict.surround {limit count passes : Nat} {value : Option String} {fault : Option Fault}
    (h : Verdict answer limit count text value fault passes) (hfront : '$' ∉ front) (hback : '\x7d' ∉ back) :
    Verdict answer limit count (front ++ (text ++ back))
      (value.map fun v => String.ofList (front ++ (v.toList ++ back))) fault passes := by
  cases h with
  | resolved run within done =>
    rw [Option.map_some, String.toList_ofList]
    exact .resolved ((run.append_back hback).append front) within
      (Placeholder.not_occursIn_append_front hfront (Placeholder.not_occursIn_append_back hback done))
  | refused run within last unknown =>
    exact .refused ((run.append_back hback).append front) within ((last.append_back hback).append front) unknown
  | spent run => exact .spent ((run.append_back hback).append front)

end Resolution

/-! ## Whole resolutions -/

open Resolution

/-- **Surrounding text is preserved.** Put text without a dollar sign in front of a text, and text without a closing
brace behind it: resolution fails as it fails for the text alone, for the same reason and after as many passes, or it
has the value of the text alone with the same text around it. -/
theorem Interpreter.resolve_surrounded (i : Interpreter Id) (environment : (name : String) → Option String)
    (front text back : String) (hfront : '$' ∉ front.toList) (hback : '\x7d' ∉ back.toList) :
    let part := Id.run (i.resolve environment text)
    let whole := Id.run (i.resolve environment (front ++ text ++ back))
    whole.Reports (part.value.map fun value => front ++ value ++ back) part.fault part.passes := by
  intro part whole
  have hpart : part.Reports part.value part.fault part.passes := ⟨rfl, rfl, rfl⟩
  have hverdict := (Interpreter.resolve_reports_iff.mp hpart).surround hfront hback
  simp only [← String.toList_append, String.ofList_toList, ← String.append_assoc] at hverdict
  exact Interpreter.resolve_reports_iff.mpr hverdict

/-- The text behind could go on with what is left open in the text, but does not close it. -/
theorem Interpreter.resolve_surrounded_family :
    ('$' ∉ "\x7d \x7b".toList ∧ '\x7d' ∉ " $\x7b $5".toList) ∧
      (Id.run (family.resolve (fun _ => none) "Borked $\x7bparent_$\x7bchild\x7d")).Reports
        (some "Borked $\x7bparent_Zack") none 1 ∧
      (Id.run (family.resolve (fun _ => none)
        ("\x7d \x7b" ++ "Borked $\x7bparent_$\x7bchild\x7d" ++ " $\x7b $5"))).Reports
        (some "\x7d \x7bBorked $\x7bparent_Zack $\x7b $5") none 1 := by
  have hsides : '$' ∉ "\x7d \x7b".toList ∧ '\x7d' ∉ " $\x7b $5".toList := by decide
  have hchild := (rewrites_family "Borked $\x7bparent_".toList [] List.not_mem_nil).1
  have hdone : ∀ p : Placeholder, ¬ p.OccursIn "Borked $\x7bparent_Zack".toList :=
    Placeholder.last?_eq_none_iff.mp (by decide)
  have hpart : (Id.run (family.resolve (fun _ => none) "Borked $\x7bparent_$\x7bchild\x7d")).Reports
      (some "Borked $\x7bparent_Zack") none 1 :=
    Interpreter.resolve_reports_iff.mpr (Verdict.value_iff.mpr ⟨1, rfl, by decide, .step hchild (.refl _), hdone⟩)
  have hwhole := resolve_surrounded family (fun _ => none) "\x7d \x7b" "Borked $\x7bparent_$\x7bchild\x7d" " $\x7b $5"
    hsides.1 hsides.2
  dsimp only at hwhole
  rw [hpart.1, hpart.2.1, hpart.2.2] at hwhole
  exact ⟨hsides, hpart, hwhole⟩

end Interpolate
