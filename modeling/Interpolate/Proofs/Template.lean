import Interpolate.Placeholder
import Mathlib.Data.Fintype.EquivFin
import Mathlib.Data.Fintype.Sets
import Mathlib.Logic.Relation

/-!
# Templates and their expansion

A **template** is a text in pieces: plain text without a dollar sign, and references to names. A finite set of
definitions gives every name that its templates refer to a template of its own. The **expansion** of a template
puts in the place of each reference the expansion of the template behind it, and counts the references it meets
on the way; it exists if that tree of templates is finite.

* **`Part`**, **`Template`** — the pieces, with **`spell`**;
* **`Definitions`** — a set of definitions that is closed under references;
* **`Definitions.Expands`** — the expansion of a template, with the number of references expanded; there is at
  most one (`Expands.unique`);
* **`Definitions.expandable_iff_not_cyclic`** — a template has an expansion exactly if no cycle of definitions can
  be reached from it.
-/

namespace Interpolate

/-! ## Templates -/

/-- A piece of a template. -/
inductive Part where
  /-- text without a dollar sign -/
  | plain (text : List Char) (noDollar : '$' ∉ text)
  /-- a reference to a name -/
  | reference (name : List Char) (isName : Text.isName name = true)

/-- How a piece is written. -/
def Part.spell : Part → List Char
  | .plain text _ => text
  | .reference name _ => Placeholder.spell name

/-- A text in pieces. -/
abbrev Template := List Part

namespace Template

/-- How a template is written. -/
def spell : Template → List Char
  | [] => []
  | part :: parts => part.spell ++ spell parts

/-- The names that a template refers to. -/
def names : Template → List (List Char)
  | [] => []
  | .plain _ _ :: parts => names parts
  | .reference name _ :: parts => name :: names parts

@[simp] theorem spell_append (s t : Template) : spell (s ++ t) = spell s ++ spell t := by
  induction s with
  | nil => rfl
  | cons part parts ih => simp [spell, ih]

@[simp] theorem names_append (s t : Template) : names (s ++ t) = names s ++ names t := by
  induction s with
  | nil => rfl
  | cons part parts ih => cases part <;> simp [names, ih]

/-- A template without references is plain text. -/
theorem not_mem_spell {t : Template} (h : t.names = []) : '$' ∉ t.spell := by
  induction t with
  | nil => exact List.not_mem_nil
  | cons part parts ih =>
    cases part with
    | plain text noDollar => simpa [spell, Part.spell, noDollar] using ih h
    | reference name isName => cases h

/-- A template that refers to names has a last reference. -/
theorem exists_last_reference {t : Template} (h : t.names ≠ []) :
    ∃ front name isName rest, t = front ++ .reference name isName :: rest ∧ names rest = [] := by
  induction t with
  | nil => exact absurd rfl h
  | cons part parts ih =>
    by_cases hparts : names parts = []
    · cases part with
      | plain text noDollar => exact absurd hparts h
      | reference name isName => exact ⟨[], name, isName, parts, rfl, hparts⟩
    · obtain ⟨front, name, isName, rest, rfl, hrest⟩ := ih hparts
      exact ⟨part :: front, name, isName, rest, rfl, hrest⟩

end Template

/-! ## Definitions -/

/-- A finite set of definitions. -/
structure Definitions where
  /-- the templates that names stand for -/
  list : List (List Char × Template)
  /-- a name stands for one template -/
  distinct : (list.map Prod.fst).Nodup
  /-- every name that a template refers to is defined -/
  closed : ∀ d ∈ list, ∀ x ∈ d.2.names, x ∈ list.map Prod.fst

namespace Definitions

variable (g : Definitions)

/-- The template refers to defined names only. -/
def Covers (t : Template) : Prop := ∀ x ∈ t.names, x ∈ g.list.map Prod.fst

/-- The template behind the first name refers to the second. -/
def Refers (x y : List Char) : Prop := ∃ t, (x, t) ∈ g.list ∧ y ∈ t.names

/-- A cycle of definitions can be reached from the template. -/
def Cyclic (t : Template) : Prop :=
  ∃ x ∈ t.names, ∃ y, Relation.ReflTransGen g.Refers x y ∧ Relation.TransGen g.Refers y y

/-- The expansion of a template, and the number of references expanded in it. -/
inductive Expands : Template → (expansion : List Char) → (count : Nat) → Prop where
  /-- nothing to expand -/
  | nil : Expands [] [] 0
  /-- plain text stays -/
  | plain {text : List Char} {noDollar : '$' ∉ text} {t : Template} {v : List Char} {n : Nat}
      (rest : Expands t v n) : Expands (.plain text noDollar :: t) (text ++ v) n
  /-- a reference gives way to the expansion of the template behind it -/
  | reference {name : List Char} {isName : Text.isName name = true} {d t : Template} {v w : List Char}
      {n k : Nat} (defined : (name, d) ∈ g.list) (inner : Expands d v n) (rest : Expands t w k) :
      Expands (.reference name isName :: t) (v ++ w) (n + k + 1)

/-- The template has an expansion. -/
def Expandable (t : Template) : Prop := ∃ v n, g.Expands t v n

variable {g}

theorem template_unique {x : List Char} {s t : Template} (hs : (x, s) ∈ g.list) (ht : (x, t) ∈ g.list) :
    s = t := by
  have h := List.inj_on_of_nodup_map g.distinct hs ht rfl
  exact (Prod.mk.inj h).2

theorem exists_template {x : List Char} (h : x ∈ g.list.map Prod.fst) : ∃ t, (x, t) ∈ g.list := by
  obtain ⟨⟨y, t⟩, hmem, rfl⟩ := List.mem_map.mp h
  exact ⟨t, hmem⟩

theorem covers_of_mem {x : List Char} {t : Template} (h : (x, t) ∈ g.list) : g.Covers t :=
  g.closed _ h

/-- An expansion holds no dollar sign. -/
theorem Expands.not_mem {t : Template} {v : List Char} {n : Nat} (h : g.Expands t v n) : '$' ∉ v := by
  induction h with
  | nil => exact List.not_mem_nil
  | @plain _ noDollar _ _ _ _ ih => simp [noDollar, ih]
  | reference _ _ _ ihinner ihrest => simp [ihinner, ihrest]

/-- A template has one expansion, and one number of references in it. -/
theorem Expands.unique {t : Template} {v v' : List Char} {n n' : Nat} (h : g.Expands t v n)
    (h' : g.Expands t v' n') : v = v' ∧ n = n' := by
  induction h generalizing v' n' with
  | nil =>
    cases h'
    exact ⟨rfl, rfl⟩
  | plain _ ih =>
    cases h' with
    | plain rest =>
      obtain ⟨rfl, rfl⟩ := ih rest
      exact ⟨rfl, rfl⟩
  | reference defined _ _ ihinner ihrest =>
    cases h' with
    | reference defined' inner rest =>
      obtain rfl := template_unique defined defined'
      obtain ⟨rfl, rfl⟩ := ihinner inner
      obtain ⟨rfl, rfl⟩ := ihrest rest
      exact ⟨rfl, rfl⟩

/-! ## Which templates have an expansion -/

/-- A template has an expansion if the templates behind all its names have one. -/
theorem expandable_iff {t : Template} : g.Expandable t ↔ ∀ x ∈ t.names, ∃ d, (x, d) ∈ g.list ∧ g.Expandable d := by
  constructor
  · rintro ⟨v, n, h⟩
    induction h with
    | nil => exact fun x hx => absurd hx List.not_mem_nil
    | plain _ ih => exact ih
    | reference defined inner _ _ ih =>
      intro x hx
      rcases List.mem_cons.mp hx with rfl | hx
      · exact ⟨_, defined, _, _, inner⟩
      · exact ih x hx
  · intro h
    induction t with
    | nil => exact ⟨_, _, .nil⟩
    | cons part parts ih =>
      cases part with
      | plain text noDollar =>
        obtain ⟨v, n, hv⟩ := ih h
        exact ⟨_, _, .plain hv⟩
      | reference name isName =>
        obtain ⟨d, hd, v, n, hv⟩ := h name (List.mem_cons_self ..)
        obtain ⟨w, k, hw⟩ := ih fun x hx => h x (List.mem_cons_of_mem _ hx)
        exact ⟨_, _, .reference hd hv hw⟩

/-- Behind the names of a template with an expansion there is no infinite way down. -/
theorem Expands.acc {t : Template} {v : List Char} {n : Nat} (h : g.Expands t v n) :
    ∀ x ∈ t.names, Acc (Function.swap g.Refers) x := by
  induction h with
  | nil => exact fun x hx => absurd hx List.not_mem_nil
  | plain _ ih => exact ih
  | reference defined _ _ ihinner ihrest =>
    intro x hx
    rcases List.mem_cons.mp hx with rfl | hx
    · refine Acc.intro _ fun y hy => ?_
      obtain ⟨d, hd, hmem⟩ := hy
      obtain rfl := template_unique hd defined
      exact ihinner y hmem
    · exact ihrest x hx

/-- What has no infinite way down is not below itself. -/
theorem not_rel_self_of_acc {α : Type} {r : α → α → Prop} {x : α} (h : Acc r x) : ¬ r x x := by
  induction h with
  | intro x _ ih => exact fun hx => ih x hx hx

theorem Expandable.not_cyclic {t : Template} (h : g.Expandable t) : ¬ g.Cyclic t := by
  obtain ⟨v, n, hv⟩ := h
  rintro ⟨x, hx, y, hreach, hcycle⟩
  have hacc : Acc (Function.swap g.Refers) y := by
    clear hcycle
    induction hreach with
    | refl => exact hv.acc x hx
    | tail _ hyz ih => exact ih.inv hyz
  exact not_rel_self_of_acc hacc.transGen (Relation.transGen_swap.mpr hcycle)

/-- The defined names that references lead to from a template. -/
abbrev Reached (g : Definitions) (t : Template) : Type :=
  {x // x ∈ g.list.map Prod.fst ∧ ∃ z ∈ t.names, Relation.ReflTransGen g.Refers z x}

instance (g : Definitions) (t : Template) : Finite (g.Reached t) :=
  Finite.of_injective (fun a => (⟨a.1, a.2.1⟩ : {x // x ∈ g.list.map Prod.fst}))
    fun _ _ h => Subtype.ext (Subtype.mk.inj h)

/-- Without a cycle there is no infinite way down: it would come back to one of finitely many names. -/
theorem wellFounded_of_not_cyclic {t : Template} (h : ¬ g.Cyclic t) :
    WellFounded fun a b : g.Reached t => Relation.TransGen g.Refers b.1 a.1 := by
  have : IsTrans (g.Reached t) fun a b => Relation.TransGen g.Refers b.1 a.1 :=
    ⟨fun _ _ _ hab hbc => hbc.trans hab⟩
  have : Std.Irrefl fun a b : g.Reached t => Relation.TransGen g.Refers b.1 a.1 := by
    refine ⟨fun a ha => ?_⟩
    obtain ⟨z, hz, hreach⟩ := a.2.2
    exact h ⟨z, hz, a.1, hreach, ha⟩
  exact Finite.wellFounded_of_trans_of_irrefl _

theorem expandable_of_not_cyclic {t : Template} (hcovers : g.Covers t) (hcyclic : ¬ g.Cyclic t) :
    g.Expandable t := by
  have hreached : ∀ a : g.Reached t, ∃ d, (a.1, d) ∈ g.list ∧ g.Expandable d := by
    intro a
    induction a using (wellFounded_of_not_cyclic hcyclic).induction with
    | _ a ih =>
      obtain ⟨d, hd⟩ := exists_template a.2.1
      refine ⟨d, hd, expandable_iff.mpr fun y hy => ?_⟩
      obtain ⟨z, hz, hreach⟩ := a.2.2
      have hrefers : g.Refers a.1 y := ⟨d, hd, hy⟩
      exact ih ⟨y, covers_of_mem hd y hy, z, hz, hreach.tail hrefers⟩ (.single hrefers)
  exact expandable_iff.mpr fun x hx => hreached ⟨x, hcovers x hx, x, hx, .refl⟩

theorem expandable_iff_not_cyclic {t : Template} (hcovers : g.Covers t) : g.Expandable t ↔ ¬ g.Cyclic t :=
  ⟨Expandable.not_cyclic, expandable_of_not_cyclic hcovers⟩

end Definitions

end Interpolate
