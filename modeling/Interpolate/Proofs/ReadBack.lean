import Interpolate.Proofs.Evaluation
import Interpolate.Proofs.FilterParts
import Interpolate.Proofs.Spelling

/-!
# Stored values read back

A value that is stored under a name is kept as a text, and evaluation makes a value of that text again. For truth
values and integers it is the value that was stored, but for one integer: a sign is no part of a literal, so that the
least integer is written with digits that are above the greatest one, and those are refused.

* **`Lookup.Stores`** — a name stands for the text of a value;
* **`Expr.integer`** — what the text of an integer spells, and its value (`read_integer`, `eval_integer`); integers
  that are too large spell nothing (`read_integer_of_le`);
* **`Interpreter.evaluate_stored`** — the outcome for the name of a stored integer or truth value, in all cases.
-/

namespace Interpolate

open Grammar Token

/-! ## Lookups -/

namespace Lookup

variable {m : Type → Type} {α β : Type} [ToText α] [ToText β]

/-- The name stands for the text of the value. -/
def Stores (l : Lookup m) (name : String) (value : α) : Prop :=
  ∃ e, l.entry? name = some e ∧ e.value = ToText.text value

theorem stores_add (l : Lookup m) (name : String) (value : α) (origin : Option String) :
    (l.add name value origin).Stores name value :=
  ⟨_, l.find_insert_self _, rfl⟩

/-- What is stored stays there when something is added under another name. -/
theorem Stores.add {l : Lookup m} {name other : String} {value : α} (h : l.Stores name value) (hne : other ≠ name)
    (newer : β) (origin : Option String) : (l.add other newer origin).Stores name value := by
  obtain ⟨e, he, htext⟩ := h
  exact ⟨e, (l.find_insert_of_ne hne).trans he, htext⟩

end Lookup

/-! ## Texts of integers -/

/-- An integer is written as its digits, with a sign before them if it is negative. -/
theorem toList_toString_int (k : Int) :
    (toString k).toList = (if k < 0 then ['-'] else []) ++ Nat.toDigits 10 k.natAbs := by
  cases k with
  | ofNat n => exact Nat.toList_repr
  | negSucc n =>
    rw [if_pos (Int.negSucc_lt_zero n)]
    change ("-" ++ Nat.repr (n + 1)).toList = ['-'] ++ Nat.toDigits 10 (n + 1)
    rw [String.toList_append, Nat.toList_repr]
    rfl

theorem isNameChar_of_mem_toDigits {n : Nat} {c : Char} (h : c ∈ Nat.toDigits 10 n) : Text.isNameChar c = true :=
  Text.isNameChar_iff.mpr (.inr (Nat.isDigit_of_mem_toDigits (by decide) (by decide) h))

/-- The text of an integer is made of a sign and of characters of names. -/
theorem cases_of_mem_toString_int {k : Int} {c : Char} (h : c ∈ (toString k).toList) :
    c = '-' ∨ Text.isNameChar c = true := by
  rw [toList_toString_int, List.mem_append] at h
  rcases h with hsign | hdigit
  · split at hsign
    · exact .inl (List.mem_singleton.mp hsign)
    · cases hsign
  · exact .inr (isNameChar_of_mem_toDigits hdigit)

/-- The tokens of the text of an integer are those of its digits, behind a sign if it is negative. -/
theorem lex_toString_int (k : Int) : lex (toString k).toList =
    if k < 0 then (lex (Nat.toDigits 10 k.natAbs)).map (.minus :: ·) else lex (Nat.toDigits 10 k.natAbs) := by
  rw [toList_toString_int]
  split
  · exact lex_minus _
  · rfl

/-- Every filter accepts the text of an integer. -/
theorem Filter.accepts_integer (filter : Filter) (k : Int) : filter.accepts (toString k).toList = true := by
  have hsign : ∀ c ∈ (if k < 0 then ['-'] else []), isSeparator c = true := by
    intro c hc
    split at hc
    · obtain rfl := List.mem_singleton.mp hc
      decide
    · cases hc
  have htokens : tokens (toString k).toList = [Nat.toDigits 10 k.natAbs] := by
    rw [toList_toString_int, tokens_separators hsign,
      tokens_run Nat.toDigits_ne_nil fun c hc => isNameChar_of_mem_toDigits hc]
  have hdecimal : isDecimal (Nat.toDigits 10 k.natAbs) = true := by
    have hall : ∀ c ∈ Nat.toDigits 10 k.natAbs, c.isDigit = true := fun c hc =>
      Nat.isDigit_of_mem_toDigits (by decide) (by decide) hc
    simp only [isDecimal, Bool.and_eq_true, List.all_eq_true, Bool.or_eq_true]
    exact ⟨by simp, fun c hc => .inl (hall c hc)⟩
  rw [accepts_iff, htokens]
  intro token htoken
  obtain rfl := List.mem_singleton.mp htoken
  rw [allowsToken, hdecimal, Bool.or_true, Bool.true_or, if_pos rfl]

/-! ## Integers as expressions -/

namespace Expr

/-- What the text of an integer spells: a literal, behind a sign if the integer is negative. -/
def integer (k : Int) : Expr :=
  if k < 0 then .unary .neg (.literal (.int (Int64.ofInt k.natAbs))) else .literal (.int (Int64.ofInt k.natAbs))

/-- An integer is read if its digits are no number above the greatest integer. -/
theorem read_integer {k : Int} (h : k.natAbs < 0x8000000000000000) :
    Expr.read (toString k).toList = .ok (integer k) := by
  have hdigits := lex_toDigits h
  have hlex := lex_toString_int k
  -- the operand of a sign is a nested position, so that 99 are left for the literal
  have hliteral : Derives 99 .sign [.int (Int64.ofInt k.natAbs)] (.literal (.int (Int64.ofInt k.natAbs))) :=
    (Derives.int _).of_operand .sign
  rw [read_eq_ok_iff, integer]
  by_cases hneg : k < 0
  · rw [if_pos hneg, hdigits] at hlex
    rw [if_pos hneg]
    exact ⟨⟨_, hlex, (Derives.front .neg hliteral).of_le (Nat.zero_le _)⟩, by simp [height]⟩
  · rw [if_neg hneg, hdigits] at hlex
    rw [if_neg hneg]
    exact ⟨⟨_, hlex, (Derives.int _).of_operand .or⟩, by simp [height]⟩

/-- An integer whose digits are a number above the greatest integer is not read, even if it is the least integer. -/
theorem read_integer_of_le {k : Int} (h : 0x8000000000000000 ≤ k.natAbs) :
    Expr.read (toString k).toList = .error (.decimalTooLarge (toString k.natAbs)) := by
  have hdigits : lex (Nat.toDigits 10 k.natAbs) = .error (.decimalTooLarge (toString k.natAbs)) := by
    rw [lex_toDigits_eq, if_neg (Nat.not_lt.mpr h), ← Nat.toString_eq_ofList_toDigits]
  have hlex : lex (toString k).toList = .error (.decimalTooLarge (toString k.natAbs)) := by
    rw [lex_toString_int, hdigits]
    split <;> rfl
  rw [Expr.read, hlex]
  rfl

/-- The value is the integer. -/
theorem eval_integer {k : Int} (h : k.natAbs < 0x8000000000000000) (context : Context) :
    (integer k).eval context = .ok (.int (Int64.ofInt k)) := by
  have habs : (Int64.ofInt k.natAbs).toInt = k.natAbs := Value.toInt_ofInt_of_fits ⟨by omega, by omega⟩
  rw [integer]
  split
  · next hneg =>
    have hvalue : -(Int64.ofInt k.natAbs).toInt = k := by omega
    have hfits : Value.Fits k := ⟨by omega, by omega⟩
    change Value.fit (-(Int64.ofInt k.natAbs).toInt) = _
    rw [hvalue, Value.fit_of_fits hfits]
  · next hneg =>
    have hvalue : (k.natAbs : Int) = k := by omega
    rw [eval, hvalue]

end Expr

/-! ## Texts of values -/

/-- The text of a truth value is read as that value. -/
theorem Expr.read_truth (b : Bool) : Expr.read (Value.bool b).text.toList = .ok (.literal (.bool b)) := by
  rw [read_eq_ok_iff]
  refine ⟨⟨[.word (Value.bool b).text], lex_name ?_, ?_⟩, by simp [height]⟩
  · cases b <;> decide
  · cases b with
    | true => exact Derives.truth.of_operand .or
    | false => exact Derives.falsehood.of_operand .or

section Texts

variable {v : Value} (hv : ∀ y, v ≠ .float y)

include hv

/-- The text of an integer or a truth value is made of a sign and of characters of names. -/
theorem Value.cases_of_mem_text {c : Char} (h : c ∈ v.text.toList) : c = '-' ∨ Text.isNameChar c = true := by
  cases v with
  | int n => exact cases_of_mem_toString_int h
  | float y => exact absurd rfl (hv y)
  | bool b =>
    refine .inr (Text.isNameChar_of_isName ?_ c h)
    cases b <;> decide

theorem Value.not_mem_text : '$' ∉ v.text.toList := by
  intro hmem
  rcases Value.cases_of_mem_text hv hmem with h | h
  · exact absurd h (by decide)
  · exact absurd h (by decide)

theorem Value.trim_text : Text.trim v.text.toList = v.text.toList := by
  have hblank : ∀ c ∈ v.text.toList, Text.isBlank c = false := by
    intro c hc
    rcases Value.cases_of_mem_text hv hc with rfl | h
    · decide
    · exact Text.isBlank_eq_false_of_isNameChar h
  exact Text.trim_eq_self (fun c hc => hblank c (List.mem_of_head? hc)) fun c hc => hblank c (List.mem_of_getLast? hc)

/-- Every filter accepts the text of an integer or a truth value. -/
theorem Filter.accepts_text (filter : Filter) : filter.accepts v.text.toList = true := by
  cases v with
  | int n => exact filter.accepts_integer n.toInt
  | float y => exact absurd rfl (hv y)
  | bool b =>
    have hname : Text.isName (Value.bool b).text.toList = true := by cases b <;> decide
    rw [accepts_iff, tokens_run (Text.ne_nil_of_isName hname) (Text.isNameChar_of_isName hname)]
    intro token htoken
    obtain rfl := List.mem_singleton.mp htoken
    cases b <;> rfl

end Texts

/-! ## Evaluation -/

section Stored

variable {i : Interpreter Id} {environment : (name : String) → Option String} {x : String}

/-- A name alone resolves to its entry in one pass, if no dollar sign is in the entry. -/
theorem Interpreter.resolve_spell (hlimit : 1 ≤ i.limit) (isName : Text.isName x.toList = true) {e : Entry}
    (he : i.lookup.entry? x = some e) (hdollar : '$' ∉ e.value.toList) :
    (Id.run (i.resolve environment (String.ofList (Placeholder.spell x.toList)))).Reports (some e.value) none 1 := by
  have hknown : (i.lookup.answers environment (String.ofList x.toList)).value? = some e.value := by
    rw [String.ofList_toList]
    exact Lookup.value?_answers he
  have hstep := Resolution.rewrites_of_not_mem isName hknown [] List.not_mem_nil
  rw [List.nil_append, List.nil_append, List.append_nil, List.append_nil] at hstep
  rw [Interpreter.resolve_reports_iff, Resolution.Verdict.value_iff, String.toList_ofList]
  exact ⟨1, rfl, hlimit, .step hstep (.refl _), Placeholder.not_occursIn_of_not_mem hdollar⟩

/-- The name of a stored integer or truth value resolves to its text. -/
theorem Interpreter.resolve_stored (hlimit : 1 ≤ i.limit) (isName : Text.isName x.toList = true) {v : Value}
    (hv : ∀ y, v ≠ .float y) (stored : i.lookup.Stores x v) :
    (Id.run (i.resolve environment (String.ofList (Placeholder.spell x.toList)))).Reports (some v.text) none 1 := by
  obtain ⟨e, he, htext⟩ := stored
  have hvalue : e.value = v.text := htext
  have hdollar := Value.not_mem_text hv
  rw [← hvalue] at hdollar ⊢
  exact resolve_spell hlimit isName he hdollar

/-- The name of a stored integer or truth value is evaluated as what its text is read as. -/
theorem Interpreter.evaluate_stored_answers (hlimit : 1 ≤ i.limit) (isName : Text.isName x.toList = true) {v : Value}
    (hv : ∀ y, v ≠ .float y) (stored : i.lookup.Stores x v) {e : Expr} (hread : Expr.read v.text.toList = .ok e) :
    (Id.run (i.evaluate environment (String.ofList (Placeholder.spell x.toList)))).Answers i.context e 1 := by
  refine evaluate_reports (resolve_stored hlimit isName hv stored) ?_ ?_
  · rw [Value.trim_text hv]
    exact i.filter.accepts_text hv
  · rw [Value.trim_text hv]
    exact hread

/-- The least integer does not read back: the number behind its sign is above the greatest integer. -/
theorem Interpreter.evaluate_least (hlimit : 1 ≤ i.limit) (isName : Text.isName x.toList = true)
    (stored : i.lookup.Stores x (Value.int Int64.minValue)) :
    (Id.run (i.evaluate environment (String.ofList (Placeholder.spell x.toList)))).Reports none
      (some (.malformed (.decimalTooLarge "9223372036854775808"))) 1 := by
  have hv : ∀ y, Value.int Int64.minValue ≠ .float y := by simp
  have hread : Expr.read (Value.int Int64.minValue).text.toList = .error (.decimalTooLarge "9223372036854775808") :=
    Expr.read_integer_of_le (k := Int64.minValue.toInt) (by decide)
  refine evaluate_reports_malformed (resolve_stored hlimit isName hv stored) ?_ ?_ ?_
  · rw [Value.trim_text hv]
    decide
  · rw [Value.trim_text hv]
    exact i.filter.accepts_text hv
  · rw [Value.trim_text hv]
    exact hread

end Stored

/-- **Integers and truth values read back, but for one integer.** Whatever the filter and the context are: the name of
a stored truth value, or of a stored integer other than the least one, evaluates to that value, after one pass. The name
of the least integer has no value, since the number behind its sign is refused as a literal. -/
theorem Interpreter.evaluate_stored (i : Interpreter Id) (environment : (name : String) → Option String)
    (hlimit : 1 ≤ i.limit) {x : String} (isName : Text.isName x.toList = true) {v : Value}
    (stored : i.lookup.Stores x v) :
    let o := Id.run (i.evaluate environment (String.ofList (Placeholder.spell x.toList)))
    (∀ b, v = .bool b → o.Reports (some v) none 1) ∧
    (∀ n, v = .int n → n ≠ Int64.minValue → o.Reports (some v) none 1) ∧
    (v = .int Int64.minValue → o.Reports none (some (.malformed (.decimalTooLarge "9223372036854775808"))) 1) := by
  intro o
  refine ⟨?_, ?_, ?_⟩
  · rintro b rfl
    exact (evaluate_stored_answers hlimit isName (by simp) stored (Expr.read_truth b)).value _ rfl
  · rintro n rfl hleast
    have habs : n.toInt.natAbs < 0x8000000000000000 := by
      have hne : n.toInt ≠ Int64.minValue.toInt := fun h => hleast (Int64.toInt_inj.mp h)
      have hle := n.le_toInt
      have hlt := n.toInt_lt
      have hvalue : Int64.minValue.toInt = -0x8000000000000000 := by decide
      omega
    have heval := Expr.eval_integer habs i.context
    rw [Int64.ofInt_toInt] at heval
    exact (evaluate_stored_answers hlimit isName (by simp) stored (Expr.read_integer habs)).value _ heval
  · rintro rfl
    exact evaluate_least hlimit isName stored

/-- An interpreter that stores an integer, and a truth value after it. -/
def storing (n : Int64) : Interpreter Id :=
  .standard ((Lookup.empty.add "x" (Value.int n) none).add "y" true none)

theorem storing_stores (n : Int64) : (storing n).lookup.Stores "x" (Value.int n) :=
  (Lookup.stores_add ..).add (by decide) true none

/-- The integer after the least one reads back. -/
theorem Interpreter.evaluate_stored_storing :
    (storing (Int64.minValue + 1)).lookup.Stores "x" (Value.int (Int64.minValue + 1)) ∧
      (Id.run ((storing (Int64.minValue + 1)).evaluate (fun _ => none) "$\x7bx\x7d")).Reports
        (some (.int (Int64.minValue + 1))) none 1 := by
  have hstores := storing_stores (Int64.minValue + 1)
  obtain ⟨-, hint, -⟩ := evaluate_stored (storing (Int64.minValue + 1)) (fun _ => none) (by decide) (by decide) hstores
  exact ⟨hstores, hint _ rfl (by decide)⟩

/-- The least integer does not. -/
theorem Interpreter.evaluate_storing_least_ne :
    (Id.run ((storing Int64.minValue).evaluate (fun _ => none) "$\x7bx\x7d")).value ≠ some (.int Int64.minValue) := by
  have hleast : (Id.run ((storing Int64.minValue).evaluate (fun _ => none) "$\x7bx\x7d")).Reports none
      (some (.malformed (.decimalTooLarge "9223372036854775808"))) 1 :=
    evaluate_least (x := "x") (by decide) (by decide) (storing_stores Int64.minValue)
  rw [hleast.1]
  exact nofun

end Interpolate
