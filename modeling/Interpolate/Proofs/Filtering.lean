import Interpolate.Proofs.FilterTokens
import Interpolate.Proofs.Lexing
import Interpolate.Proofs.Nodes
import Interpolate.Proofs.Reading

/-!
# The filter covers the reader

The filter and the reader cut a text in two unrelated ways: one by rewriting it around its operators, the other
from left to right, each lexeme as long as possible. Yet no name gets past the filter into a tree: between two
lexemes there is always a **cut**, a place that no run of the characters of names goes across, so that every word of
the reader is a run that the filter has looked at.

* **`IsCut`** — no run goes across a place of a text;
* **`cut_of_form`**, **`permits_of_form`** — the step: a lexeme between cuts, and a word that the filter permits;
* **`permits_of_lexes`** — the run: all words of an accepted text are permitted;
* **`nodes_of_accepts`** — what the trees of accepted texts are made of.
-/

namespace Interpolate

namespace Filter

open Token Grammar

variable {filter : Filter}

/-- No run of the characters of names goes across the place between the two parts of a text. -/
def IsCut (before after : List Char) : Prop :=
  (∀ d ∈ before.getLast?, Text.isNameChar d = false) ∨ ∀ d ∈ after.head?, Text.isNameChar d = false

/-- Before a character of a name, a cut ends the text on the left. -/
theorem IsCut.left {before after : List Char} {c : Char} (h : IsCut before (c :: after))
    (hc : Text.isNameChar c = true) : ∀ d ∈ before.getLast?, Text.isNameChar d = false := by
  rcases h with hleft | hright
  · exact hleft
  · rw [hright c rfl] at hc
    cases hc

theorem isCut_concat {c : Char} (hc : Text.isNameChar c = false) (before after : List Char) :
    IsCut (before ++ [c]) after := by
  refine .inl fun d hd => ?_
  rw [List.getLast?_concat] at hd
  obtain rfl := Option.some.inj hd
  exact hc

/-- A run that starts with a digit is a hexadecimal numeral. -/
theorem isHex_of_accepts (hnamed : filter.IsNamed) {before w after : List Char} {c : Char}
    (hc : c.isDigit = true) (h : filter.accepts (before ++ c :: w ++ after) = true)
    (hw : ∀ d ∈ c :: w, Text.isNameChar d = true) (hstart : ∃ d ∈ c :: w, Text.isNameStart d = true)
    (hleft : ∀ d ∈ before.getLast?, Text.isNameChar d = false)
    (hright : ∀ d ∈ after.head?, Text.isNameChar d = false) : isHex (c :: w) = true := by
  rcases permits_of_accepts hnamed h hw hstart hleft hright with hhex | hpermits
  · exact hhex
  · have hisName := hpermits.isName hnamed
    rw [String.toList_ofList, Text.isName, Bool.and_eq_true] at hisName
    rw [Text.isDigit_eq_false_of_isNameStart hisName.1] at hc
    cases hc

/-- No character of a name follows a hexadecimal numeral in an accepted text. -/
theorem stop_of_hex (hnamed : filter.IsNamed) {before digits rest : List Char} {x : Char}
    (mark : x = 'x' ∨ x = 'X') (all : ∀ d ∈ digits, Decimal.isHexDigit d = true)
    (stop : ∀ d ∈ rest.head?, Decimal.isHexDigit d = false)
    (h : filter.accepts (before ++ '0' :: x :: digits ++ rest) = true)
    (hleft : ∀ d ∈ before.getLast?, Text.isNameChar d = false) :
    ∀ d ∈ rest.head?, Text.isNameChar d = false := by
  cases rest with
  | nil => simp
  | cons d rest =>
    intro d' hd'
    obtain rfl := Option.some.inj hd'
    by_cases hd : Text.isNameChar d = true
    · -- the run would go on with a character that is no hexadecimal digit
      have hx : Text.isNameStart x = true := by rcases mark with rfl | rfl <;> decide
      have hrun : ∀ c ∈ '0' :: x :: (digits ++ (d :: rest).takeWhile Text.isNameChar),
          Text.isNameChar c = true := by
        intro c hc
        rcases List.mem_cons.mp hc with rfl | hc
        · decide
        rcases List.mem_cons.mp hc with rfl | hc
        · exact Text.isNameChar_of_isNameStart hx
        rcases List.mem_append.mp hc with hc | hc
        · exact Text.isNameChar_of_isHexDigit (all c hc)
        · exact List.all_eq_true.mp List.all_takeWhile c hc
      have htext : before ++ '0' :: x :: digits ++ d :: rest =
          before ++ '0' :: (x :: (digits ++ (d :: rest).takeWhile Text.isNameChar)) ++
            (d :: rest).dropWhile Text.isNameChar := by
        simp only [List.append_assoc, List.cons_append, List.takeWhile_append_dropWhile]
      rw [htext] at h
      have hhex := isHex_of_accepts hnamed (by decide) h hrun ⟨x, by simp, hx⟩ hleft Text.head?_dropWhile
      simp only [isHex, Bool.and_eq_true, List.all_eq_true] at hhex
      have hmem : d ∈ digits ++ (d :: rest).takeWhile Text.isNameChar := by
        rw [List.takeWhile_cons_of_pos hd]
        simp
      have hdigit := hhex.2 d hmem
      rw [stop d rfl] at hdigit
      cases hdigit
    · simpa using hd

/-! ## One lexeme -/

/-- A lexeme of an accepted text goes from cut to cut. -/
theorem cut_of_form (hnamed : filter.IsNamed) {before used rest : List Char} {token : Token}
    (form : Form used token rest) (h : filter.accepts (before ++ used ++ rest) = true)
    (hcut : IsCut before (used ++ rest)) : IsCut (before ++ used) rest := by
  cases form with
  | hex mark all stop => exact .inr (stop_of_hex hnamed mark all stop h (hcut.left (by decide)))
  | decimal start literal stop => exact .inr stop
  | word start all stop => exact .inr stop
  | symbol plain => exact isCut_concat plain before rest
  | @pair c d _ _ pair =>
    rw [List.append_cons]
    exact isCut_concat (ofPair?_eq_some pair).2 (before ++ [c]) rest

/-- A word of an accepted text is permitted. -/
theorem permits_of_form (hnamed : filter.IsNamed) {before used rest : List Char} {x : String}
    (form : Form used (.word x) rest) (h : filter.accepts (before ++ used ++ rest) = true)
    (hcut : IsCut before (used ++ rest)) : filter.Permits ((Text.trimStart rest).head? = some '(') x := by
  obtain ⟨rfl, ⟨c, hhead, start⟩, hname, stop⟩ := form.of_word
  obtain ⟨w, rfl⟩ := List.head?_eq_some_iff.mp hhead
  have hleft := hcut.left (hname c (List.mem_cons_self ..))
  rcases permits_of_accepts hnamed h hname ⟨c, List.mem_cons_self .., start⟩ hleft stop with hhex | hpermits
  · -- a word that starts with a letter is no hexadecimal numeral, which starts with zero
    obtain ⟨digits, hdigits⟩ := exists_cons_of_isHex hhex
    obtain ⟨rfl, -⟩ := List.cons.inj hdigits
    exact absurd start (by decide)
  · exact hpermits

/-! ## All lexemes -/

/-- **Words of an accepted text.** Where no token is unknown, each word is permitted: as a function if a
parenthesis is the next token, as a constant otherwise. -/
theorem permits_of_lexes (hnamed : filter.IsNamed) {before text : List Char} {ts : List Token}
    (hlexes : Lexes text ts) (h : filter.accepts (before ++ text) = true) (hcut : IsCut before text)
    (hknown : ∀ c, .unknown c ∉ ts) {front back : List Token} {x : String} (hts : ts = front ++ .word x :: back) :
    filter.Permits (back.head? = some .leftParen) x := by
  -- along the lexemes; the cut moves through the text, of which the filter has accepted the whole
  induction hlexes generalizing before front with
  | nil => simp at hts
  | @space c text ts space rest ih =>
    have hplain := Text.isNameChar_eq_false_of_isBlank (isBlank_of_isSpace space)
    rw [List.append_cons] at h
    exact ih h (isCut_concat hplain before text) hknown hts
  | @lexeme c used text token ts form rest ih =>
    have hknown' : ∀ c, .unknown c ∉ ts := fun c hc => hknown c (List.mem_cons_of_mem _ hc)
    rw [← List.cons_append, ← List.append_assoc] at h
    cases front with
    | nil =>
      obtain ⟨rfl, rfl⟩ := List.cons.inj hts
      rw [rest.head?_eq_leftParen_iff hknown']
      exact permits_of_form hnamed form h hcut
    | cons token' front =>
      obtain ⟨-, hts⟩ := List.cons.inj hts
      exact ih h (cut_of_form hnamed form h hcut) hknown' hts

/-- No comma and no `^` comes out of an accepted text. -/
theorem not_mem_of_lexes (hnamed : filter.IsNamed) {text : List Char} {ts : List Token} (hlexes : Lexes text ts)
    (h : filter.accepts text = true) : .comma ∉ ts ∧ .caret ∉ ts := by
  constructor
  · intro hcomma
    obtain ⟨c, hc, used, rest, form⟩ := hlexes.exists_form hcomma
    obtain rfl : c = ',' := form.eq_of_symbol (by simp)
    exact absurd (ordinary_of_accepts hnamed h hc) (by decide)
  · intro hcaret
    obtain ⟨c, hc, used, rest, form⟩ := hlexes.exists_form hcaret
    obtain rfl : c = '^' := form.eq_of_symbol (by simp)
    exact absurd (ordinary_of_accepts hnamed h hc) (by decide)

/-! ## Trees -/

theorem mem_constants_of_permits {called : Prop} {x : String} (h : filter.Permits called x) (hcalled : ¬ called)
    (free : x ∉ Reader.keywords) : x ∈ filter.constants := by
  have htruth : ∀ x ∈ truthWords, x ∈ Reader.keywords := by decide
  have hlogic : ∀ x ∈ logicWords, x ∈ Reader.keywords := by decide
  rcases h.alone hcalled with hx | hx | hx
  · exact hx
  · exact absurd (htruth x hx) free
  · exact absurd (hlogic x hx) free

theorem mem_functions_of_permits {called : Prop} {x : String} (h : filter.Permits called x) (hcalled : called)
    (free : x ∉ Reader.keywords) : x ∈ filter.functions := by
  have hlogic : ∀ x ∈ logicWords, x ∈ Reader.keywords := by decide
  rcases h.call hcalled with hx | hx
  · exact hx
  · exact absurd (hlogic x hx) free

/-- **The filter covers the reader.** If the names that a filter allows have the form of names, and a text that it
accepts is read as a tree, then every name of the tree is among the constants allowed, every function that is
called is among the functions allowed and has at most one argument, and `^` is not used. -/
theorem nodes_of_accepts (hnamed : filter.IsNamed) {text : List Char} {e : Expr}
    (haccepts : filter.accepts text = true) (hread : Expr.read text = .ok e) :
    (∀ x, .name x ∈ e.nodes → x ∈ filter.constants) ∧
      (∀ f es, .call f es ∈ e.nodes → f ∈ filter.functions ∧ es.length ≤ 1) ∧
      ∀ left right, .binary .bitXor left right ∉ e.nodes := by
  obtain ⟨ts, hlex, htokens⟩ := Reader.bind_eq_ok.mp hread
  obtain ⟨hderives, -⟩ := Expr.derives_of_ofTokens htokens
  have hlexes := lexes_of_lex hlex
  have hpermits : ∀ {front back x}, ts = front ++ .word x :: back →
      filter.Permits (back.head? = some .leftParen) x := by
    have hstart : filter.accepts ([] ++ text) = true := haccepts
    intro front back x hts
    exact permits_of_lexes hnamed hlexes hstart (.inl (by simp)) hderives.known hts
  obtain ⟨hcomma, hcaret⟩ := not_mem_of_lexes hnamed hlexes haccepts
  refine ⟨fun x hx => ?_, fun f es hf => ?_, fun left right hxor => ?_⟩
  · obtain ⟨free, front, back, hts, hback⟩ := hderives.shows _ hx
    exact mem_constants_of_permits (hpermits hts) hback free
  · obtain ⟨free, ⟨front, back, hts⟩, harguments⟩ := hderives.shows _ hf
    refine ⟨mem_functions_of_permits (hpermits hts) rfl free, Nat.le_of_not_lt fun hlt => ?_⟩
    exact hcomma (harguments hlt)
  · exact hcaret (hderives.shows _ hxor)

/-- The cosine of π, with a blank that the filter takes away and the reader skips. -/
def cosine : List Char :=
  "cos (pi)".toList

theorem read_cosine : Expr.read cosine = .ok (.call "cos" [.name "pi"]) := by
  have hlex : lex cosine = .ok [.word "cos", .leftParen, .word "pi", .rightParen] := by decide +kernel
  have hname : Derives 99 .or [.word "pi"] (.name "pi") := Derives.of_operand (.name (by decide)) .or
  have harguments : ∀ argument ∈ [Phrase.mk [.word "pi"] (.name "pi")],
      Derives 99 .or argument.tokens argument.expr := by
    intro argument h
    obtain rfl := List.mem_singleton.mp h
    exact hname
  have hcall : Derives 100 .operand [.word "cos", .leftParen, .word "pi", .rightParen]
      (.call "cos" [.name "pi"]) :=
    .call (by decide) (by simp) harguments (.inl rfl)
  exact Reader.bind_eq_ok.mpr ⟨_, hlex, Expr.ofTokens_of_derives (hcall.of_operand .or) (by decide)⟩

theorem nodes_of_accepts_cosine :
    standard.IsNamed ∧ standard.accepts cosine = true ∧ Expr.read cosine = .ok (.call "cos" [.name "pi"]) ∧
      (∀ x, .name x ∈ (Expr.call "cos" [.name "pi"]).nodes → x ∈ standard.constants) ∧
      (∀ f es, .call f es ∈ (Expr.call "cos" [.name "pi"]).nodes → f ∈ standard.functions ∧ es.length ≤ 1) ∧
      ∀ left right, .binary .bitXor left right ∉ (Expr.call "cos" [.name "pi"]).nodes := by
  have haccepts : standard.accepts cosine = true := by decide +kernel
  exact ⟨standard_isNamed, haccepts, read_cosine, nodes_of_accepts standard_isNamed haccepts read_cosine⟩

end Filter

end Interpolate
