import Mathlib.Data.List.TakeWhile
import Interpolate.Placeholder

/-!
# Searching by a pattern

The last placeholder of a text can be found by a general search as well. A **pattern** is a row of parts; a part is one
character of a class, or as many characters of a class as possible. The search tries the longest run first and goes back
to shorter ones when what follows does not fit. The pattern of a text with a placeholder starts with a run of any
characters, and the longest run that can stand in front of a placeholder stands in front of the last one.

* **`Pattern.Part`**, **`Pattern.match?`** — patterns, and the search with all its trials;
* **`Pattern.greedy_of_stop`** — there is nothing to go back to if what follows a run cannot start inside of it;
* **`Placeholder.search?`** — the placeholder that the search finds;
* **`search?_eq_last?`** — it is the last one of the text.
-/

namespace Interpolate

namespace Pattern

/-- A part of a pattern. -/
inductive Part where
  /-- one character of a class -/
  | one (fits : Char → Bool)
  /-- characters of a class, as many as possible -/
  | run (fits : Char → Bool)

section Greedy

variable {α : Type} {fits : Char → Bool} {rest : List Char → Option α}

/-- As many characters of a class as possible, and what is found behind them. Fewer are taken only where nothing is
found behind more of them. -/
def greedy (fits : Char → Bool) (rest : List Char → Option α) : List Char → Option (List Char × α)
  | [] => (rest []).map ([], ·)
  | c :: text =>
    match if fits c then greedy fits rest text else none with
    | some (run, found) => some (c :: run, found)
    | none => (rest (c :: text)).map ([], ·)

/-- What follows a run and never starts with one of its characters is found behind the whole run, or not at all. -/
theorem greedy_of_stop (hstop : ∀ c text, fits c = true → rest (c :: text) = none) (text : List Char) :
    greedy fits rest text = (rest (text.dropWhile fits)).map (text.takeWhile fits, ·) := by
  induction text with
  | nil => rfl
  | cons c text ih =>
    by_cases hc : fits c = true
    · rw [List.takeWhile_cons_of_pos hc, List.dropWhile_cons_of_pos hc, greedy, if_pos hc, ih, hstop c text hc]
      cases rest (text.dropWhile fits) <;> rfl
    · rw [List.takeWhile_cons_of_neg hc, List.dropWhile_cons_of_neg hc, greedy, if_neg hc]

/-- All characters of a class are taken if something is found behind them. -/
theorem greedy_of_some {text : List Char} {found : α} (h : rest (text.dropWhile fits) = some found) :
    greedy fits rest text = some (text.takeWhile fits, found) := by
  induction text with
  | nil => exact congrArg (Option.map ([], ·)) h
  | cons c text ih =>
    by_cases hc : fits c = true
    · rw [List.dropWhile_cons_of_pos hc] at h
      rw [List.takeWhile_cons_of_pos hc, greedy, if_pos hc, ih h]
    · rw [List.dropWhile_cons_of_neg hc] at h
      rw [List.takeWhile_cons_of_neg hc, greedy, if_neg hc]
      exact congrArg (Option.map ([], ·)) h

end Greedy

/-- The text of each part, where the pattern fits a text as a whole. -/
def match? : List Part → List Char → Option (List (List Char))
  | [], text => if text.isEmpty then some [] else none
  | .one _ :: _, [] => none
  | .one fits :: parts, c :: text => if fits c then (match? parts text).map ([c] :: ·) else none
  | .run fits :: parts, text => (greedy fits (match? parts) text).map fun (run, pieces) => run :: pieces

/-- A run takes all of its characters, if what follows fits behind them. -/
theorem match?_run_of_some {fits : Char → Bool} {parts : List Part} {text : List Char} {pieces : List (List Char)}
    (h : match? parts (text.dropWhile fits) = some pieces) :
    match? (.run fits :: parts) text = some (text.takeWhile fits :: pieces) := by
  rw [match?, greedy_of_some h, Option.map_some]

/-- A run at the end takes a text of its characters as a whole. -/
theorem match?_run_all {fits : Char → Bool} {text : List Char} (h : ∀ c ∈ text, fits c = true) :
    match? [.run fits] text = some [text] := by
  have hend : match? [] (text.dropWhile fits) = some [] := by
    rw [List.dropWhile_eq_nil_iff.mpr h]
    rfl
  rw [match?_run_of_some hend, List.takeWhile_eq_self_iff.mpr h]

/-- Any characters fit to the end. -/
theorem match?_rest (text : List Char) : match? [.run fun _ => true] text = some [text] :=
  match?_run_all fun _ _ => rfl

/-- A run ends where its characters end, if the next part starts with none of them. -/
theorem match?_run_one {fits next : Char → Bool} (hapart : ∀ c, fits c = true → next c = false) (parts : List Part)
    (text : List Char) :
    match? (.run fits :: .one next :: parts) text =
      (match? (.one next :: parts) (text.dropWhile fits)).map (text.takeWhile fits :: ·) := by
  have hstop : ∀ c text, fits c = true → match? (.one next :: parts) (c :: text) = none := by
    intro c text hc
    rw [match?, hapart c hc]
    rfl
  rw [match?, greedy_of_stop hstop, Option.map_map]
  rfl

/-- A certain character, and what is after it. -/
theorem match?_sign (sign : Char) (text : List Char) :
    match? [.one (· == sign), .run fun _ => true] text =
      if text.head? = some sign then some [[sign], text.tail] else none := by
  cases text with
  | nil => rfl
  | cons c after =>
    rw [match?, match?_rest]
    by_cases hc : c = sign
    · subst hc
      simp
    · simp [hc]

end Pattern

namespace Placeholder

open Pattern

/-- A placeholder: dollar sign, opening brace, name and closing brace, and the text after it. -/
def parts : List Part :=
  [.one (· == '$'), .one (· == '\x7b'), .one Text.isNameStart, .run Text.isNameChar, .one (· == '\x7d'), .run fun _ => true]

/-- The placeholder in the texts of the parts, behind the text before it. -/
def ofPieces (pieces : List (List Char)) : Placeholder :=
  ⟨pieces.getD 0 [], pieces.getD 3 [] ++ pieces.getD 4 [], pieces.getD 6 []⟩

/-- The placeholder that is found behind as long a run of characters as possible. -/
def search? (text : List Char) : Option Placeholder :=
  (match? ((.run fun _ => true) :: parts) text).map ofPieces

/-- The name that a text starts with is one if its first character can start a name. -/
theorem isName_takeWhile (c : Char) (text : List Char) :
    Text.isName ((c :: text).takeWhile Text.isNameChar) = Text.isNameStart c := by
  by_cases hc : Text.isNameChar c = true
  · have hall : (text.takeWhile Text.isNameChar).all Text.isNameChar = true := List.all_takeWhile
    rw [List.takeWhile_cons_of_pos hc, Text.isName, hall, Bool.and_true]
  · rw [List.takeWhile_cons_of_neg hc]
    exact (Bool.eq_false_iff.mpr (mt Text.isNameChar_of_isNameStart hc)).symm

/-- A name, a closing brace, and what is after it: the name ends where its characters end. -/
theorem match?_name (text : List Char) :
    match? (parts.drop 3) text =
      (match? [.one (· == '\x7d'), .run fun _ => true] (text.dropWhile Text.isNameChar)).map
        (text.takeWhile Text.isNameChar :: ·) := by
  refine match?_run_one (fun c hc => ?_) _ text
  rw [beq_eq_false_iff_ne]
  rintro rfl
  exact absurd hc (by decide)

theorem first?_open (text : List Char) :
    first? ('$' :: '\x7b' :: text) =
      if Text.isName (text.takeWhile Text.isNameChar) then
        match text.dropWhile Text.isNameChar with
        | '\x7d' :: after => some ⟨[], text.takeWhile Text.isNameChar, after⟩
        | _ => none
      else none := by
  rw [first?]
  cases Text.isName (text.takeWhile Text.isNameChar) with
  | true => rfl
  | false =>
    rw [if_neg Bool.false_ne_true]
    split <;> rfl

/-- Without a run in front, what is found is the placeholder that the text starts with. -/
theorem map_match?_parts (text : List Char) :
    (match? parts text).map (fun pieces => ofPieces ([] :: pieces)) = first? text := by
  rcases text with _ | ⟨c, _ | ⟨d, rest⟩⟩
  · rfl
  · cases h : c == '$' <;> simp [parts, match?, first?, h]
  · by_cases hc : c = '$'
    · by_cases hd : d = '\x7b'
      · subst hc hd
        cases rest with
        | nil => rfl
        | cons e rest =>
          have hparts : match? parts ('$' :: '\x7b' :: e :: rest) =
              ((if Text.isNameStart e then (match? (parts.drop 3) rest).map ([e] :: ·) else none).map
                (['\x7b'] :: ·)).map (['$'] :: ·) := rfl
          rw [hparts, first?_open, isName_takeWhile]
          split
          · next he =>
            have hchar := Text.isNameChar_of_isNameStart he
            rw [List.takeWhile_cons_of_pos hchar, List.dropWhile_cons_of_pos hchar, match?_name, match?_sign]
            cases rest.dropWhile Text.isNameChar with
            | nil => rfl
            | cons d after =>
              by_cases hd : d = '\x7d'
              · subst hd
                rfl
              · simp [hd]
          · rfl
      · simp [parts, match?, first?, hd]
    · simp [parts, match?, first?, hc]

theorem search?_eq_greedy (text : List Char) :
    search? text = (greedy (fun _ => true) (match? parts) text).map fun (run, pieces) => ofPieces (run :: pieces) := by
  rw [search?, match?, Option.map_map]
  rfl

/-- **The search finds the last placeholder.** -/
theorem search?_eq_last? (text : List Char) : search? text = last? text := by
  -- on the text: a longer run in front is a placeholder further to the right
  induction text with
  | nil => rfl
  | cons c text ih =>
    rw [search?_eq_greedy, greedy, if_pos rfl, last?, ← ih, search?_eq_greedy]
    cases greedy (fun _ => true) (match? parts) text with
    | some found => rfl
    | none =>
      rw [← map_match?_parts]
      simp only [Option.map_map, Option.map_none]
      rfl

end Placeholder

end Interpolate
