import Interpolate.Placeholder

/-!
# The last placeholder of a text

What `Placeholder.first?` and `Placeholder.last?` find, said without them: a placeholder **occurs** in a text
that is cut into what stands before it, its spelling and what stands after it, and the **last** one starts at
least as far to the right as every other.

* **`first?_eq_some_iff`** — the occurrence that starts with the text;
* **`last?_eq_some_iff`**, **`last?_eq_none_iff`** — the last occurrence, and texts without any;
* **`IsLast.unique`** — a text has at most one last placeholder;
* **`IsLast.append`** — text in front of it does not change which placeholder is the last;
* **`IsLast.of_not_mem`** — a placeholder is the last one if no dollar sign stands after it.
-/

namespace Interpolate

namespace Placeholder

/-- The placeholder stands in the text, under a name of the right form. -/
structure OccursIn (p : Placeholder) (text : List Char) : Prop where
  /-- the parts make up the text -/
  text_eq : p.text = text
  /-- the name has the form of a name -/
  isName : Text.isName p.name = true

/-- The placeholder stands in the text, and none that stands in it starts further to the right. -/
structure IsLast (p : Placeholder) (text : List Char) : Prop extends OccursIn p text where
  /-- no occurrence starts later -/
  latest : ∀ q : Placeholder, q.OccursIn text → q.before.length ≤ p.before.length

/-! ## Placeholders at the start of a text -/

/-- A name is taken off the front of a text up to the brace that closes it. -/
theorem takeWhile_name {name : List Char} (after : List Char) (h : Text.isName name = true) :
    (name ++ '\x7d' :: after).takeWhile Text.isNameChar = name ∧
      (name ++ '\x7d' :: after).dropWhile Text.isNameChar = '\x7d' :: after := by
  have hall := Text.isNameChar_of_isName h
  have hstop : Text.isNameChar '\x7d' = false := by decide
  rw [List.takeWhile_append_of_pos hall, List.dropWhile_append_of_pos hall,
    List.takeWhile_cons_of_neg (by simp [hstop]), List.dropWhile_cons_of_neg (by simp [hstop])]
  simp

theorem first?_eq_some_iff {text : List Char} {p : Placeholder} :
    first? text = some p ↔ p.OccursIn text ∧ p.before = [] := by
  constructor
  · intro h
    unfold first? at h
    split at h
    · next rest =>
      dsimp only at h
      split at h
      · next after hafter =>
        split at h
        · next hname =>
          cases h
          refine ⟨⟨?_, hname⟩, rfl⟩
          simp only [text, spell, List.nil_append, List.cons_append, List.append_assoc]
          rw [← hafter, List.takeWhile_append_dropWhile]
        · cases h
      · cases h
    · cases h
  · rintro ⟨⟨rfl, hname⟩, hbefore⟩
    obtain ⟨before, name, after⟩ := p
    obtain rfl : before = [] := hbefore
    obtain ⟨htake, hdrop⟩ := takeWhile_name after hname
    simp only [text, spell, List.nil_append, List.cons_append, List.append_assoc, first?, htake, hdrop]
    exact if_pos hname

/-- Two placeholders that stand in one text and start at the same place are the same. -/
theorem OccursIn.eq_of_before {text : List Char} {p q : Placeholder} (hp : p.OccursIn text)
    (hq : q.OccursIn text) (hlen : p.before.length = q.before.length) : p = q := by
  have htext : p.text = q.text := hp.text_eq.trans hq.text_eq.symm
  simp only [Placeholder.text, List.append_assoc] at htext
  obtain ⟨hbefore, hrest⟩ := List.append_inj htext hlen
  have hfirst : ∀ r : Placeholder, Text.isName r.name = true →
      first? (spell r.name ++ r.after) = some ⟨[], r.name, r.after⟩ :=
    fun r hr => first?_eq_some_iff.mpr ⟨⟨rfl, hr⟩, rfl⟩
  have h := hfirst p hp.isName
  rw [hrest, hfirst q hq.isName] at h
  cases p
  cases q
  simp_all

/-- A text has at most one last placeholder. -/
theorem IsLast.unique {text : List Char} {p q : Placeholder} (hp : p.IsLast text) (hq : q.IsLast text) :
    p = q :=
  hp.toOccursIn.eq_of_before hq.toOccursIn
    (Nat.le_antisymm (hq.latest p hp.toOccursIn) (hp.latest q hq.toOccursIn))

/-! ## The last placeholder -/

/-- An occurrence in a text with one more character in front starts with it, or stands in the text behind it. -/
theorem occursIn_cons {c : Char} {text : List Char} {p : Placeholder} (h : p.OccursIn (c :: text)) :
    p.before = [] ∨ ∃ before, p.before = c :: before ∧ OccursIn { p with before } text := by
  obtain ⟨before, name, after⟩ := p
  cases before with
  | nil => exact .inl rfl
  | cons d before =>
    have htext := h.text_eq
    simp only [Placeholder.text, List.cons_append, List.cons.injEq] at htext
    obtain ⟨rfl, htext⟩ := htext
    exact .inr ⟨before, rfl, htext, h.isName⟩

theorem OccursIn.cons {text : List Char} {p : Placeholder} (h : p.OccursIn text) (c : Char) :
    OccursIn { p with before := c :: p.before } (c :: text) :=
  ⟨congrArg (c :: ·) h.text_eq, h.isName⟩

/-- A character in front does not change which placeholder is the last. -/
theorem IsLast.cons {text : List Char} {p : Placeholder} (h : p.IsLast text) (c : Char) :
    IsLast { p with before := c :: p.before } (c :: text) := by
  refine ⟨h.toOccursIn.cons c, fun q hq => ?_⟩
  rcases occursIn_cons hq with hbefore | ⟨before, hbefore, hq'⟩
  · simp [hbefore]
  · rw [hbefore]
    exact Nat.succ_le_succ (h.latest _ hq')

/-- Text in front does not change which placeholder is the last. -/
theorem IsLast.append {text : List Char} {p : Placeholder} (h : p.IsLast text) (front : List Char) :
    IsLast { p with before := front ++ p.before } (front ++ text) := by
  induction front with
  | nil => exact h
  | cons c front ih => exact ih.cons c

theorem not_occursIn_nil (p : Placeholder) : ¬ p.OccursIn [] := by
  intro h
  have := congrArg List.length h.text_eq
  simp [Placeholder.text, spell] at this

/-- `last?` finds the last placeholder, and finds none only where there is none. -/
theorem last?_spec (text : List Char) :
    (∃ p, last? text = some p ∧ p.IsLast text) ∨ (last? text = none ∧ ∀ p, ¬ OccursIn p text) := by
  induction text with
  | nil => exact .inr ⟨rfl, not_occursIn_nil⟩
  | cons c text ih =>
    rcases ih with ⟨p, hp, hlast⟩ | ⟨hnone, hno⟩
    · exact .inl ⟨{ p with before := c :: p.before }, by simp only [last?, hp], hlast.cons c⟩
    · -- nothing further right: what is left is an occurrence that the text starts with
      have hstart : ∀ q : Placeholder, q.OccursIn (c :: text) → q.before = [] := by
        intro q hq
        rcases occursIn_cons hq with hbefore | ⟨before, -, hq'⟩
        · exact hbefore
        · exact absurd hq' (hno _)
      have heq : last? (c :: text) = first? (c :: text) := by simp only [last?, hnone]
      rw [heq]
      cases hfirst : first? (c :: text) with
      | none =>
        refine .inr ⟨rfl, fun q hq => ?_⟩
        rw [first?_eq_some_iff.mpr ⟨hq, hstart q hq⟩] at hfirst
        cases hfirst
      | some p =>
        obtain ⟨hp, hbefore⟩ := first?_eq_some_iff.mp hfirst
        refine .inl ⟨p, rfl, hp, fun q hq => ?_⟩
        simp [hstart q hq]

theorem last?_eq_some_iff {text : List Char} {p : Placeholder} : last? text = some p ↔ p.IsLast text := by
  constructor
  · intro h
    rcases last?_spec text with ⟨q, hq, hlast⟩ | ⟨hnone, -⟩
    · rw [h] at hq
      cases hq
      exact hlast
    · rw [h] at hnone
      cases hnone
  · intro h
    rcases last?_spec text with ⟨q, hq, hlast⟩ | ⟨-, hno⟩
    · rw [hq, h.unique hlast]
    · exact absurd h.toOccursIn (hno p)

theorem last?_eq_none_iff {text : List Char} : last? text = none ↔ ∀ p, ¬ OccursIn p text := by
  rcases last?_spec text with ⟨p, hp, hlast⟩ | ⟨hnone, hno⟩
  · rw [hp]
    constructor
    · intro h
      cases h
    · exact fun h => absurd hlast.toOccursIn (h p)
  · exact ⟨fun _ => hno, fun _ => hnone⟩

/-! ## Dollar signs -/

/-- Every placeholder starts with a dollar sign. -/
theorem not_occursIn_of_not_mem {text : List Char} (h : '$' ∉ text) (p : Placeholder) : ¬ p.OccursIn text := by
  intro hp
  apply h
  rw [← hp.text_eq]
  simp [Placeholder.text, spell]

/-- A placeholder is the last one if no dollar sign stands after it. -/
theorem IsLast.of_not_mem {before name after : List Char} (hname : Text.isName name = true)
    (hafter : '$' ∉ after) : IsLast ⟨before, name, after⟩ (before ++ spell name ++ after) := by
  refine ⟨⟨rfl, hname⟩, fun q hq => ?_⟩
  -- an occurrence further right would start in the name, in its brace or in what stands after it
  have hdollar : '$' ∉ '\x7b' :: (name ++ ['\x7d']) ++ after := by
    have hnot : '$' ∉ name := by
      intro hmem
      cases name with
      | nil => cases hmem
      | cons c rest =>
        simp only [Text.isName, Bool.and_eq_true, List.all_eq_true] at hname
        rcases List.mem_cons.mp hmem with rfl | hmem
        · exact absurd hname.1 (by decide)
        · exact absurd (hname.2 _ hmem) (by decide)
    simp [hnot, hafter]
  refine Nat.le_of_not_lt fun hlt => ?_
  have htext : before ++ ['$'] ++ ('\x7b' :: (name ++ ['\x7d']) ++ after) =
      q.before ++ (spell q.name ++ q.after) := by
    simpa [Placeholder.text, spell] using hq.text_eq.symm
  obtain ⟨middle, -, hmiddle⟩ : ∃ middle, q.before = before ++ ['$'] ++ middle ∧
      '\x7b' :: (name ++ ['\x7d']) ++ after = middle ++ (spell q.name ++ q.after) := by
    rcases List.append_eq_append_iff.mp htext with h | ⟨middle, hbefore, hrest⟩
    · exact h
    · have hlen := congrArg List.length hbefore
      simp only [List.length_append, List.length_singleton] at hlen hlt
      obtain rfl : middle = [] := List.eq_nil_of_length_eq_zero (by omega)
      exact ⟨[], by simpa using hbefore.symm, by simpa using hrest.symm⟩
  rw [hmiddle] at hdollar
  simp [spell] at hdollar

end Placeholder

end Interpolate
