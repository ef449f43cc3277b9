import Interpolate.Proofs.Line

/-!
# Loading definition files

A text is loaded if every line has one of the forms of a line, and no name is defined that has an entry already, from
before or from a line further up. What the lookup gains is then the entries that the lines define, and nothing else
changes.

* **`Lists`** — the entries that lines define, in order;
* **`Lookup.Admits`**, **`Lookup.extend`** — entries that can be added without replacing any, and the lookup with them;
* **`Lookup.loadLines_eq_ok_iff`** — loading lines, by induction along them;
* **`Lookup.load_eq_ok_iff`** — loading a text.
-/

namespace Interpolate

/-! ## The entries of lines -/

/-- The entry that a definition makes. Its origin is the source with the number of the line. -/
def definedEntry (source : String) (number : Nat) (name value : List Char) : Entry :=
  ⟨String.ofList name, String.ofList value, some (source ++ ":" ++ toString number)⟩

/-- The entries that lines define, in order, where `number` is the number of the first line. Every line is a definition
or means nothing, and each is counted. -/
inductive Lists (source : String) : (number : Nat) → (ls : List (List Char)) → (es : List Entry) → Prop where
  /-- no line is left -/
  | nil (number : Nat) : Lists source number [] []
  /-- a line that means nothing -/
  | silent {number : Nat} {raw : List Char} {ls : List (List Char)} {es : List Entry} (silent : Line.IsSilent raw)
    (more : Lists source (number + 1) ls es) : Lists source number (raw :: ls) es
  /-- a definition -/
  | definition {number : Nat} {raw name value : List Char} {ls : List (List Char)} {es : List Entry}
    (defines : Line.Defines raw name value) (more : Lists source (number + 1) ls es) :
    Lists source number (raw :: ls) (definedEntry source number name value :: es)

section Lists

variable {source : String} {number : Nat} {raw : List Char} {ls : List (List Char)} {es : List Entry}

theorem lists_nil_iff : Lists source number [] es ↔ es = [] := by
  constructor
  · intro h
    cases h
    rfl
  · rintro rfl
    exact .nil number

theorem lists_silent_iff (h : Line.read raw = .silent) :
    Lists source number (raw :: ls) es ↔ Lists source (number + 1) ls es := by
  refine ⟨fun hlists => ?_, .silent (Line.read_eq_silent_iff.mp h)⟩
  cases hlists with
  | silent _ more => exact more
  | definition defines more =>
    rw [Line.read_eq_definition_iff.mpr defines] at h
    cases h

theorem lists_definition_iff {name value : List Char} (h : Line.read raw = .definition name value) :
    Lists source number (raw :: ls) es ↔
      ∃ more, Lists source (number + 1) ls more ∧ es = definedEntry source number name value :: more := by
  constructor
  · intro hlists
    cases hlists with
    | silent silent more =>
      rw [Line.read_eq_silent_iff.mpr silent] at h
      cases h
    | definition defines more =>
      rw [Line.read_eq_definition_iff.mpr defines] at h
      cases h
      exact ⟨_, more, rfl⟩
  · rintro ⟨more, hmore, rfl⟩
    exact .definition (Line.read_eq_definition_iff.mp h) hmore

theorem not_lists_malformed {text : List Char} (h : Line.read raw = .malformed text) :
    ¬ Lists source number (raw :: ls) es := by
  intro hlists
  cases hlists with
  | silent silent _ =>
    rw [Line.read_eq_silent_iff.mpr silent] at h
    cases h
  | definition defines _ =>
    rw [Line.read_eq_definition_iff.mpr defines] at h
    cases h

end Lists

/-! ## Lookups that grow -/

namespace Lookup

variable {m : Type → Type} {l l' : Lookup m} {e : Entry} {es : List Entry}

/-- The entries can be added without replacing any: their names differ from each other and have no entry yet. -/
structure Admits (l : Lookup m) (es : List Entry) : Prop where
  /-- no two of them have one name -/
  distinct : (es.map Entry.name).Nodup
  /-- no name has an entry -/
  fresh : ∀ e ∈ es, l.entry? e.name = none

/-- The lookup with entries added, the last one foremost. -/
def extend (l : Lookup m) (es : List Entry) : Lookup m :=
  { l with entries := es.reverse ++ l.entries }

theorem admits_nil (l : Lookup m) : l.Admits [] :=
  ⟨List.nodup_nil, nofun⟩

theorem entry?_eq_none_iff {name : String} : l.entry? name = none ↔ ∀ e ∈ l.entries, e.name ≠ name := by
  refine List.find?_eq_none.trans ?_
  simp

/-- An entry under a new name replaces none. -/
theorem insert_eq_extend (h : l.entry? e.name = none) : l.insert e = l.extend [e] := by
  have hremove : (l.remove e.name).1.entries = l.entries := by
    rw [remove]
    exact List.filter_eq_self.mpr fun f hf => by simpa using entry?_eq_none_iff.mp h f hf
  rw [insert, hremove]
  rfl

/-- Entries that can be added can be added one by one. -/
theorem admits_cons_iff : l.Admits (e :: es) ↔ l.entry? e.name = none ∧ (l.insert e).Admits es := by
  constructor
  · rintro ⟨hdistinct, hfresh⟩
    obtain ⟨hnot, hdistinct⟩ := List.nodup_cons.mp hdistinct
    refine ⟨hfresh e (List.mem_cons_self ..), hdistinct, fun f hf => ?_⟩
    have hne : e.name ≠ f.name := fun h => hnot (h ▸ List.mem_map_of_mem hf)
    rw [l.find_insert_of_ne hne]
    exact hfresh f (List.mem_cons_of_mem _ hf)
  · rintro ⟨hfirst, hdistinct, hfresh⟩
    have hne : ∀ f ∈ es, e.name ≠ f.name := by
      intro f hf h
      have hnone := hfresh f hf
      rw [← h, find_insert_self] at hnone
      cases hnone
    refine ⟨List.nodup_cons.mpr ⟨?_, hdistinct⟩, ?_⟩
    · intro hmem
      obtain ⟨f, hf, hname⟩ := List.mem_map.mp hmem
      exact hne f hf hname.symm
    · intro f hf
      rcases List.mem_cons.mp hf with rfl | hf
      · exact hfirst
      · rw [← l.find_insert_of_ne (hne f hf)]
        exact hfresh f hf

theorem extend_cons (h : l.entry? e.name = none) : l.extend (e :: es) = (l.insert e).extend es := by
  rw [insert_eq_extend h]
  simp [extend]

/-! ## Loading -/

/-- **Loading lines.** -/
theorem loadLines_eq_ok_iff {source : String} {number count total : Nat} {ls : List (List Char)} :
    loadLines source number count ls l = (l', .ok total) ↔
      ∃ es, Lists source number ls es ∧ l.Admits es ∧ total = count + es.length ∧ l' = l.extend es := by
  -- along the lines; the lookup in which names must be new grows with every definition
  induction ls generalizing number count l with
  | nil =>
    simp only [loadLines, lists_nil_iff, Prod.mk.injEq, Except.ok.injEq, exists_eq_left]
    constructor
    · rintro ⟨rfl, rfl⟩
      exact ⟨l.admits_nil, rfl, rfl⟩
    · rintro ⟨-, rfl, rfl⟩
      exact ⟨rfl, rfl⟩
  | cons raw ls ih =>
    rw [loadLines]
    cases hread : Line.read raw with
    | silent => simp only [ih, lists_silent_iff hread]
    | malformed text =>
      simp only [not_lists_malformed hread, false_and, exists_false, iff_false]
      simp
    | definition name value =>
      dsimp only
      simp only [lists_definition_iff hread]
      cases hentry : l.entry? (String.ofList name) with
      | some previous =>
        constructor
        · intro h
          cases h
        · rintro ⟨-, ⟨more, -, rfl⟩, hadmits, -⟩
          have hnone : l.entry? (String.ofList name) = none := (admits_cons_iff.mp hadmits).1
          rw [hnone] at hentry
          cases hentry
      | none =>
        refine (ih (l := l.insert (definedEntry source number name value))).trans ?_
        constructor
        · rintro ⟨more, hmore, hadmits, rfl, rfl⟩
          refine ⟨_, ⟨more, hmore, rfl⟩, admits_cons_iff.mpr ⟨hentry, hadmits⟩, ?_, (extend_cons hentry).symm⟩
          rw [List.length_cons, Nat.add_assoc, Nat.add_comm 1]
        · rintro ⟨-, ⟨more, hmore, rfl⟩, hadmits, rfl, rfl⟩
          refine ⟨more, hmore, (admits_cons_iff.mp hadmits).2, ?_, extend_cons hentry⟩
          rw [List.length_cons, Nat.add_assoc, Nat.add_comm 1]

/-- Loading looks at nothing but what the lines say. -/
theorem loadLines_congr {source : String} {number count : Nat} {ls ls' : List (List Char)} (l : Lookup m)
    (h : ls.map Line.read = ls'.map Line.read) :
    loadLines source number count ls l = loadLines source number count ls' l := by
  induction ls generalizing number count l ls' with
  | nil =>
    cases ls' with
    | nil => rfl
    | cons raw' ls' => cases h
  | cons raw ls ih =>
    cases ls' with
    | nil => cases h
    | cons raw' ls' =>
      obtain ⟨hraw, hmore⟩ := List.cons.inj h
      simp only [loadLines, hraw, ih _ hmore]

/-- **Loading a text.** It succeeds exactly if the lines of the text have the forms of lines and define different names
that have no entry. The lookup then gains the entries that they define, which are as many as the count that is returned,
and is otherwise as before. -/
theorem load_eq_ok_iff {source text : String} {count : Nat} :
    l.load source text = (l', .ok count) ↔
      ∃ ls es, HasLines text.toList ls ∧ Lists source 1 ls es ∧ l.Admits es ∧ count = es.length ∧ l' = l.extend es := by
  have hload : ∀ {ls}, HasLines text.toList ls → l.load source text = loadLines source 1 0 ls l :=
    fun hlines => l.loadLines_congr (map_read_lines hlines)
  constructor
  · intro h
    obtain ⟨ls, hlines⟩ := exists_hasLines text.toList
    rw [hload hlines, loadLines_eq_ok_iff] at h
    obtain ⟨es, hlists, hadmits, hcount, hl'⟩ := h
    rw [Nat.zero_add] at hcount
    exact ⟨ls, es, hlines, hlists, hadmits, hcount, hl'⟩
  · rintro ⟨ls, es, hlines, hlists, hadmits, rfl, rfl⟩
    rw [hload hlines, loadLines_eq_ok_iff]
    exact ⟨es, hlists, hadmits, (Nat.zero_add _).symm, rfl⟩

end Lookup

end Interpolate
