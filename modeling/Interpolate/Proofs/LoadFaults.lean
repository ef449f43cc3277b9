import Interpolate.Proofs.Loading

/-!
# Definition files with a fault

A load stops at the first line that is at fault: one without the form of a line, or one that defines a name with an
entry. What was added before stays. The lookup that is left is the one that the lines above the fault leave on their
own, and those lines load without a fault.

* **`Lookup.Refuses`** — a line that cannot be loaded into a lookup, and the error that says why;
* **`Lookup.loadLines_append`**, **`Lookup.loadLines_eq_error_iff`** — lines up to a fault, by induction along them;
* **`firstLines`** — the text of the first lines of a text;
* **`Lookup.exists_load_eq_extend`** — with or without a fault, a load only adds entries;
* **`Lookup.load_upTo_fault`** — the whole.
-/

namespace Interpolate

/-! ## Lines at fault -/

/-- A line is malformed if it has no form of a line. -/
theorem Line.read_eq_malformed_iff {raw text : List Char} : Line.read raw = .malformed text ↔
    text = Text.trim raw ∧ ¬ IsSilent raw ∧ ∀ name value, ¬ Defines raw name value := by
  rw [← read_eq_silent_iff]
  simp only [← read_eq_definition_iff]
  constructor
  · intro h
    refine ⟨?_, by simp [h], by simp [h]⟩
    rw [Line.read] at h
    split at h
    · cases h
    · split at h
      · cases h
      · exact (Line.malformed.inj h).symm
  · rintro ⟨rfl, hsilent, hdefinition⟩
    cases hread : Line.read raw with
    | silent => exact absurd hread hsilent
    | definition name value => exact absurd hread (hdefinition name value)
    | malformed text =>
      rw [Line.read] at hread
      split at hread
      · cases hread
      · split at hread
        · cases hread
        · exact hread.symm

namespace Lookup

variable {m : Type → Type} {l l' : Lookup m}

/-- A line that cannot be loaded into a lookup, and the error that says why. The origin says which line it is. -/
inductive Refuses (l : Lookup m) (origin : String) (raw : List Char) : DefinitionError → Prop where
  /-- the line has no form of a line -/
  | malformed (loud : ¬ Line.IsSilent raw) (undefined : ∀ name value, ¬ Line.Defines raw name value) :
    l.Refuses origin raw (.malformed origin (String.ofList (Text.trim raw)))
  /-- the line defines a name that has an entry -/
  | duplicate {name value : List Char} {previous : Entry} (defines : Line.Defines raw name value)
    (taken : l.entry? (String.ofList name) = some previous) :
    l.Refuses origin raw (.duplicate origin (String.ofList name) previous.origin)

section Lines

variable {source : String} {number count : Nat} {raw : List Char} {ls : List (List Char)} {error : DefinitionError}

/-- Lines after other lines are loaded into what those leave, unless there is a fault in those. -/
theorem loadLines_append (more : List (List Char)) : loadLines source number count (ls ++ more) l =
    match loadLines source number count ls l with
    | (l', .ok total) => loadLines source (number + ls.length) total more l'
    | (l', .error error) => (l', .error error) := by
  induction ls generalizing number count l with
  | nil => rfl
  | cons raw ls ih =>
    have hnumber : number + (raw :: ls).length = number + 1 + ls.length := by
      rw [List.length_cons]
      omega
    rw [hnumber, List.cons_append, loadLines, loadLines]
    cases Line.read raw with
    | silent => exact ih
    | malformed text => rfl
    | definition name value =>
      dsimp only
      cases l.entry? (String.ofList name) with
      | some previous => rfl
      | none => exact ih

/-- The load stops at a line at fault. -/
theorem loadLines_of_refuses (h : l.Refuses (source ++ ":" ++ toString number) raw error) (more : List (List Char)) :
    loadLines source number count (raw :: more) l = (l, .error error) := by
  rw [loadLines]
  cases h with
  | malformed loud undefined => rw [Line.read_eq_malformed_iff.mpr ⟨rfl, loud, undefined⟩]
  | duplicate defines taken =>
    rw [Line.read_eq_definition_iff.mpr defines]
    dsimp only
    rw [taken]

/-- **Loading lines with a fault.** The lines above the fault are loaded, and no others. -/
theorem loadLines_eq_error_iff : loadLines source number count ls l = (l', .error error) ↔
    ∃ before raw after es, ls = before ++ raw :: after ∧ Lists source number before es ∧ l.Admits es ∧
      l' = l.extend es ∧ l'.Refuses (source ++ ":" ++ toString (number + before.length)) raw error := by
  constructor
  · intro h
    -- along the lines, as far as the fault
    induction ls generalizing number count l with
    | nil => cases h
    | cons raw ls ih =>
      rw [loadLines] at h
      cases hread : Line.read raw with
      | silent =>
        rw [hread] at h
        obtain ⟨before, fault, after, es, rfl, hlists, hadmits, rfl, hrefuses⟩ := ih h
        refine ⟨raw :: before, fault, after, es, rfl, (lists_silent_iff hread).mpr hlists, hadmits, rfl, ?_⟩
        rwa [List.length_cons, Nat.add_comm before.length, ← Nat.add_assoc]
      | malformed text =>
        rw [hread] at h
        cases h
        obtain ⟨rfl, loud, undefined⟩ := Line.read_eq_malformed_iff.mp hread
        exact ⟨[], raw, ls, [], rfl, .nil number, admits_nil _, rfl, .malformed loud undefined⟩
      | definition name value =>
        have defines : Line.Defines raw name value := Line.read_eq_definition_iff.mp hread
        rw [hread] at h
        dsimp only at h
        cases hentry : l.entry? (String.ofList name) with
        | some previous =>
          rw [hentry] at h
          cases h
          exact ⟨[], raw, ls, [], rfl, .nil number, admits_nil _, rfl, .duplicate defines hentry⟩
        | none =>
          rw [hentry] at h
          obtain ⟨before, fault, after, es, rfl, hlists, hadmits, rfl, hrefuses⟩ := ih h
          refine ⟨raw :: before, fault, after, definedEntry source number name value :: es, rfl,
            .definition defines hlists, admits_cons_iff.mpr ⟨hentry, hadmits⟩, (extend_cons hentry).symm, ?_⟩
          rwa [List.length_cons, Nat.add_comm before.length, ← Nat.add_assoc]
  · rintro ⟨before, raw, after, es, rfl, hlists, hadmits, rfl, hrefuses⟩
    have hbefore : loadLines source number count before l = (l.extend es, .ok (count + es.length)) :=
      loadLines_eq_ok_iff.mpr ⟨es, hlists, hadmits, rfl, rfl⟩
    rw [loadLines_append, hbefore]
    exact loadLines_of_refuses hrefuses after

end Lines

end Lookup

/-! ## The first lines of a text -/

/-- The first lines of a text, each with its line feed: as many of them as there are. -/
def firstLines : (n : Nat) → (text : List Char) → List Char
  | 0, _ => []
  | _ + 1, [] => []
  | n + 1, c :: text => c :: firstLines (if c == '\n' then n else n + 1) text

theorem firstLines_of_unbroken {line : List Char} (h : '\n' ∉ line) (n : Nat) : firstLines (n + 1) line = line := by
  induction line with
  | nil => rfl
  | cons c line ih =>
    have hc : (c == '\n') = false := beq_false_of_ne (List.ne_of_not_mem_cons h).symm
    rw [firstLines, hc, if_neg Bool.false_ne_true, ih (List.not_mem_of_not_mem_cons h)]

theorem firstLines_append {line : List Char} (h : '\n' ∉ line) (n : Nat) (rest : List Char) :
    firstLines (n + 1) (line ++ '\n' :: rest) = line ++ '\n' :: firstLines n rest := by
  induction line with
  | nil => rfl
  | cons c line ih =>
    have hc : (c == '\n') = false := beq_false_of_ne (List.ne_of_not_mem_cons h).symm
    rw [List.cons_append, firstLines, hc, if_neg Bool.false_ne_true, ih (List.not_mem_of_not_mem_cons h)]
    rfl

/-- The first lines of a text are its first lines, with an empty line after the last line feed. -/
theorem lines_firstLines (n : Nat) (text : List Char) : lines (firstLines n text) = (lines text).take n ∨
    lines (firstLines n text) = (lines text).take n ++ [[]] := by
  induction n generalizing text with
  | zero => exact .inr (by rw [firstLines]; rfl)
  | succ n ih =>
    by_cases hfeed : '\n' ∈ text
    · obtain ⟨line, rest, rfl, unbroken⟩ := List.eq_append_cons_of_mem hfeed
      rw [firstLines_append unbroken, lines_append unbroken, lines_append unbroken, List.take_succ_cons]
      exact (ih rest).imp (congrArg (line :: ·)) (congrArg (line :: ·))
    · rw [firstLines_of_unbroken hfeed, lines_eq_singleton hfeed, List.take_succ_cons, List.take_nil]
      exact .inl rfl

namespace Lookup

variable {m : Type → Type} (l : Lookup m) (source text : String)

/-- The first lines of a text are loaded as its first lines; the empty line at the end means nothing. -/
theorem load_firstLines (n : Nat) : l.load source (String.ofList (firstLines n text.toList)) =
    loadLines source 1 0 ((lines text.toList).take n) l := by
  rw [load, String.toList_ofList]
  rcases lines_firstLines n text.toList with h | h
  · rw [h]
  · rw [h, loadLines_append]
    rcases loadLines source 1 0 ((lines text.toList).take n) l with ⟨l', total | error⟩
    · rfl
    · rfl

/-! ## What a load leaves -/

/-- With or without a fault, a load adds entries with new names and does nothing else. -/
theorem exists_load_eq_extend : ∃ es, l.Admits es ∧ (l.load source text).1 = l.extend es := by
  rcases hload : l.load source text with ⟨l', error | total⟩
  · obtain ⟨-, -, -, es, -, -, hadmits, hl', -⟩ := loadLines_eq_error_iff.mp hload
    exact ⟨es, hadmits, hl'⟩
  · obtain ⟨es, -, hadmits, -, hl'⟩ := loadLines_eq_ok_iff.mp hload
    exact ⟨es, hadmits, hl'⟩

variable {l}

/-- Entries with new names leave the entries of other names as they are. -/
theorem entry?_extend_of_some {es : List Entry} {name : String} {e : Entry} (hadmits : l.Admits es)
    (h : l.entry? name = some e) : entry? (l.extend es) name = some e := by
  have hnew : (es.reverse.find? fun f => f.name == name) = none := by
    rw [List.find?_eq_none]
    intro f hf hname
    have hnone := hadmits.fresh f (List.mem_reverse.mp hf)
    rw [beq_iff_eq.mp hname, h] at hnone
    cases hnone
  rw [extend, entry?, List.find?_append, hnew, Option.none_or]
  exact h

/-- **A load leaves what the lines above the fault leave.** Let a text be loaded into a lookup.

* If it fails, then a line of the text has no form of a line, or defines a name that has an entry by then, and the error
  says which line that is. The lines above it, loaded on their own into the lookup as it was before, load without a
  fault and leave the same lookup; with that line, they lead to the same error.
* In any case, every entry that was there stays as it was, with its text and its origin, and the computed names and the
  permission to ask the environment are not touched. If the load succeeds, there are as many more entries as the count
  that is returned says. -/
theorem load_upTo_fault (l : Lookup m) (source text : String) :
    let loaded := l.load source text
    let first n := l.load source (String.ofList (firstLines n text.toList))
    (∀ error, loaded.2 = .error error → ∃ k line count, (lines text.toList)[k]? = some line ∧
        loaded.1.Refuses (source ++ ":" ++ toString (k + 1)) line error ∧
        first k = (loaded.1, .ok count) ∧ first (k + 1) = loaded) ∧
      (∀ name e, l.entry? name = some e → entry? loaded.1 name = some e) ∧
      loaded.1.computed = l.computed ∧ loaded.1.usesEnvironment = l.usesEnvironment ∧
      ∀ count, loaded.2 = .ok count → loaded.1.entries.length = l.entries.length + count := by
  intro loaded first
  obtain ⟨es, hadmits, hextend⟩ : ∃ es, l.Admits es ∧ loaded.1 = l.extend es := l.exists_load_eq_extend source text
  refine ⟨fun error herror => ?fault, fun name e he => ?entries, ?computed, ?environment, fun count hcount => ?count⟩
  case fault =>
    have hfails : loadLines source 1 0 (lines text.toList) l = (loaded.1, .error error) := Prod.ext rfl herror
    obtain ⟨before, line, after, added, hlines, hlists, hadmits', hleft, hrefuses⟩ := loadLines_eq_error_iff.mp hfails
    have hbefore : loadLines source 1 0 before l = (loaded.1, .ok added.length) :=
      loadLines_eq_ok_iff.mpr ⟨added, hlists, hadmits', (Nat.zero_add _).symm, hleft⟩
    rw [Nat.add_comm 1] at hrefuses
    refine ⟨before.length, line, added.length, ?_, hrefuses, ?_, ?_⟩
    · rw [hlines, List.getElem?_append_right (Nat.le_refl _), Nat.sub_self, List.getElem?_cons_zero]
    · have htake : (lines text.toList).take before.length = before := by rw [hlines, List.take_left]
      rw [show first before.length = _ from l.load_firstLines source text before.length, htake, hbefore]
    · have htake : (lines text.toList).take (before.length + 1) = before ++ [line] := by
        rw [hlines, List.take_length_add_append, List.take_succ_cons, List.take_zero]
      rw [show first (before.length + 1) = _ from l.load_firstLines source text (before.length + 1), htake,
        loadLines_append, hbefore]
      dsimp only
      rw [Nat.add_comm 1, loadLines_of_refuses hrefuses []]
      exact (Prod.ext rfl herror : loaded = (loaded.1, .error error)).symm
  case entries =>
    rw [hextend]
    exact entry?_extend_of_some hadmits he
  case computed =>
    rw [hextend]
    rfl
  case environment =>
    rw [hextend]
    rfl
  case count =>
    have hsucceeds : loadLines source 1 0 (lines text.toList) l = (loaded.1, .ok count) := Prod.ext rfl hcount
    obtain ⟨added, -, -, hadded, hleft⟩ := loadLines_eq_ok_iff.mp hsucceeds
    rw [hleft, hadded]
    simp only [extend, List.length_append, List.length_reverse]
    omega

/-- A lookup with one entry. -/
def single : Lookup Id :=
  Lookup.empty.insert ⟨"b", "0", none⟩

/-- The third line defines a name that has an entry; without it, the lines load. -/
theorem load_upTo_fault_single :
    let loaded := single.load "vars" "# more\na = 1\nb = 2\nc = 3"
    let loaded' := single.load "vars" "# more\na = 1\nc = 3"
    let first n := single.load "vars" (String.ofList (firstLines n "# more\na = 1\nb = 2\nc = 3".toList))
    let error := DefinitionError.duplicate "vars:3" "b" none
    loaded.2 = .error error ∧ single.entry? "b" = some ⟨"b", "0", none⟩ ∧ loaded'.2 = .ok 2 ∧
      (∃ k line count, (lines "# more\na = 1\nb = 2\nc = 3".toList)[k]? = some line ∧
        loaded.1.Refuses ("vars" ++ ":" ++ toString (k + 1)) line error ∧
        first k = (loaded.1, .ok count) ∧ first (k + 1) = loaded) ∧
      entry? loaded.1 "b" = some ⟨"b", "0", none⟩ ∧
      loaded'.1.entries.length = single.entries.length + 2 := by
  intro loaded loaded' first error
  have herror : loaded.2 = .error error := by rfl
  have hentry : single.entry? "b" = some ⟨"b", "0", none⟩ := by decide
  have hcount : loaded'.2 = .ok 2 := by rfl
  obtain ⟨hfault, hentries, -⟩ := load_upTo_fault single "vars" "# more\na = 1\nb = 2\nc = 3"
  obtain ⟨-, -, -, -, hgrows⟩ := load_upTo_fault single "vars" "# more\na = 1\nc = 3"
  exact ⟨herror, hentry, hcount, hfault error herror, hentries "b" _ hentry, hgrows 2 hcount⟩

end Lookup

end Interpolate
