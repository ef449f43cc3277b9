import Interpolate.Decimal.Numeral
import Interpolate.Text.Blank
import Interpolate.Text.Name
import Mathlib.Data.List.TakeWhile

/-!
# Characters and words of a text

* **`isDigit_iff`**, **`isNameStart_iff`**, **`isHexDigit_iff`** — the classes of characters as ranges of code
  points, from which their overlaps follow by arithmetic;
* **`trim_eq_iff`** — what trimming takes off, and what it leaves;
* **`mem_words_of_between`** — what stands between blanks is a word;
* **`exists_word_of_mem`** — every character that is no blank stands in a word.
-/

namespace Interpolate

namespace Text

/-! ## Classes of characters as code points -/

/-- A class given by the ends of a range. -/
theorem range_iff {c : Char} {low high : UInt32} :
    (decide (low ≤ c.val) && decide (c.val ≤ high)) = true ↔ low.toNat ≤ c.toNat ∧ c.toNat ≤ high.toNat := by
  simp only [Bool.and_eq_true, decide_eq_true_eq, UInt32.le_iff_toNat_le]
  exact Iff.rfl

theorem isDigit_iff {c : Char} : c.isDigit = true ↔ 48 ≤ c.toNat ∧ c.toNat ≤ 57 :=
  range_iff

theorem isAlpha_iff {c : Char} :
    c.isAlpha = true ↔ (65 ≤ c.toNat ∧ c.toNat ≤ 90) ∨ (97 ≤ c.toNat ∧ c.toNat ≤ 122) := by
  have hupper : c.isUpper = true ↔ 65 ≤ c.toNat ∧ c.toNat ≤ 90 := decide_eq_true_iff
  have hlower : c.isLower = true ↔ 97 ≤ c.toNat ∧ c.toNat ≤ 122 := range_iff
  exact Bool.or_eq_true_iff.trans (or_congr hupper hlower)

theorem isNameStart_iff {c : Char} : isNameStart c = true ↔
    (65 ≤ c.toNat ∧ c.toNat ≤ 90) ∨ (97 ≤ c.toNat ∧ c.toNat ≤ 122) ∨ c.toNat = 95 := by
  have hunderscore : c = '_' ↔ c.toNat = 95 := ⟨fun h => h ▸ rfl, fun h => Char.toNat_inj.mp h⟩
  rw [isNameStart, Bool.or_eq_true, isAlpha_iff, beq_iff_eq, hunderscore, or_assoc]

theorem isNameChar_iff {c : Char} : isNameChar c = true ↔ isNameStart c = true ∨ c.isDigit = true := by
  simp only [isNameChar, isNameStart, Char.isAlphanum, Bool.or_eq_true]
  exact or_right_comm

theorem isHexDigit_iff {c : Char} : Decimal.isHexDigit c = true ↔
    c.isDigit = true ∨ (97 ≤ c.toNat ∧ c.toNat ≤ 102) ∨ (65 ≤ c.toNat ∧ c.toNat ≤ 70) := by
  simp only [Decimal.isHexDigit, Bool.or_eq_true, Bool.and_eq_true, decide_eq_true_eq, Char.le_def,
    UInt32.le_iff_toNat_le, or_assoc]
  exact Iff.rfl

theorem isNameChar_of_isHexDigit {c : Char} (h : Decimal.isHexDigit c = true) : isNameChar c = true := by
  rw [isHexDigit_iff, isDigit_iff] at h
  rw [isNameChar_iff, isNameStart_iff, isDigit_iff]
  omega

/-- No letter and no underscore is a digit. -/
theorem isDigit_eq_false_of_isNameStart {c : Char} (h : isNameStart c = true) : c.isDigit = false := by
  rw [isNameStart_iff] at h
  rw [← Bool.not_eq_true, isDigit_iff]
  omega

/-- No character of a name is a blank. -/
theorem isBlank_eq_false_of_isNameChar {c : Char} (h : isNameChar c = true) : isBlank c = false := by
  rw [isNameChar_iff, isNameStart_iff, isDigit_iff] at h
  simp only [isBlank, blankRanges, List.any_cons, List.any_nil, Bool.or_false, Bool.or_eq_false_iff,
    Bool.and_eq_false_iff, decide_eq_false_iff_not]
  omega

theorem isNameChar_eq_false_of_isBlank {c : Char} (h : isBlank c = true) : isNameChar c = false := by
  cases hc : isNameChar c with
  | false => rfl
  | true =>
    rw [isBlank_eq_false_of_isNameChar hc] at h
    cases h

/-! ## Characters of a class at the front -/

/-- Characters of a class are taken off the front of a text as if nothing followed that starts outside the class. -/
theorem takeWhile_append {p : Char → Bool} {more : List Char} (h : ∀ d ∈ more.head?, p d = false) (text : List Char) :
    (text ++ more).takeWhile p = text.takeWhile p := by
  induction text with
  | nil =>
    cases more with
    | nil => rfl
    | cons d more => exact List.takeWhile_cons_of_neg (by simp [h d rfl])
  | cons c text ih =>
    rw [List.cons_append, List.takeWhile_cons, List.takeWhile_cons, ih]

theorem dropWhile_append {p : Char → Bool} {more : List Char} (h : ∀ d ∈ more.head?, p d = false) (text : List Char) :
    (text ++ more).dropWhile p = text.dropWhile p ++ more := by
  induction text with
  | nil =>
    cases more with
    | nil => rfl
    | cons d more => exact List.dropWhile_cons_of_neg (by simp [h d rfl])
  | cons c text ih =>
    rw [List.cons_append, List.dropWhile_cons, List.dropWhile_cons, ih]
    split <;> rfl

/-- What is left after taking characters of a class does not start with one. -/
theorem head?_dropWhile {p : Char → Bool} {text : List Char} :
    ∀ d ∈ (text.dropWhile p).head?, p d = false := by
  intro d hd
  have hstop := List.head?_dropWhile_not p text
  rw [hd] at hstop
  exact hstop

/-! ## Trimming -/

/-- There is no blank at either end. -/
structure IsTight (text : List Char) : Prop where
  /-- the first character is none -/
  first : ∀ c ∈ text.head?, isBlank c = false
  /-- the last character is none -/
  last : ∀ c ∈ text.getLast?, isBlank c = false

theorem trimStart_eq_self {text : List Char} (first : ∀ c ∈ text.head?, isBlank c = false) : trimStart text = text := by
  cases text with
  | nil => rfl
  | cons c text => exact List.dropWhile_cons_of_neg (by simp [first c rfl])

/-- Without blanks at its ends, a text is trimmed already. -/
theorem trim_eq_self {text : List Char} (first : ∀ c ∈ text.head?, isBlank c = false)
    (last : ∀ c ∈ text.getLast?, isBlank c = false) : trim text = text := by
  have hlast : trimStart text.reverse = text.reverse := trimStart_eq_self (by rwa [List.head?_reverse])
  rw [trim, trimEnd, trimStart_eq_self first, hlast, List.reverse_reverse]

/-- There is nothing to trim off a name. -/
theorem trim_name {name : List Char} (h : isName name = true) : trim name = name := by
  have hchars : ∀ c ∈ name, isBlank c = false := fun c hc => isBlank_eq_false_of_isNameChar (isNameChar_of_isName h c hc)
  exact trim_eq_self (fun c hc => hchars c (List.mem_of_head? hc)) fun c hc => hchars c (List.mem_of_getLast? hc)

theorem trimStart_append_blanks {front : List Char} (h : ∀ c ∈ front, isBlank c = true) (text : List Char) :
    trimStart (front ++ text) = trimStart text :=
  List.dropWhile_append_of_pos h

theorem trimEnd_append_blanks {back : List Char} (h : ∀ c ∈ back, isBlank c = true) (text : List Char) :
    trimEnd (text ++ back) = trimEnd text := by
  rw [trimEnd, trimEnd, List.reverse_append, trimStart_append_blanks fun c hc => h c (List.mem_reverse.mp hc)]

/-- What is taken off the front is blank. -/
theorem exists_eq_append_trimStart (text : List Char) :
    ∃ front : List Char, (∀ c ∈ front, isBlank c = true) ∧ text = front ++ trimStart text :=
  ⟨text.takeWhile isBlank, fun _ => List.mem_takeWhile_imp, List.takeWhile_append_dropWhile.symm⟩

theorem exists_eq_trimEnd_append (text : List Char) :
    ∃ back : List Char, (∀ c ∈ back, isBlank c = true) ∧ text = trimEnd text ++ back := by
  obtain ⟨front, hfront, htext⟩ := exists_eq_append_trimStart text.reverse
  refine ⟨front.reverse, fun c hc => hfront c (List.mem_reverse.mp hc), ?_⟩
  rw [trimEnd, ← List.reverse_append, ← htext, List.reverse_reverse]

theorem isBlank_head?_trimStart (text : List Char) : ∀ c ∈ (trimStart text).head?, isBlank c = false :=
  head?_dropWhile

/-- Trimming the end leaves the first character that is no blank. -/
theorem head?_trim (text : List Char) : (trim text).head? = (trimStart text).head? := by
  obtain ⟨back, hback, htext⟩ := exists_eq_trimEnd_append (trimStart text)
  rw [← trim] at htext
  cases htrim : trim text with
  | cons c core => rw [htext, htrim, List.cons_append, List.head?_cons, List.head?_cons]
  | nil =>
    rw [htrim, List.nil_append] at htext
    cases hstart : trimStart text with
    | nil => rfl
    | cons c rest =>
      have hblank : isBlank c = true := hback c (by rw [← htext, hstart]; exact List.mem_cons_self ..)
      rw [isBlank_head?_trimStart text c (by rw [hstart]; rfl)] at hblank
      cases hblank

theorem isTight_trim (text : List Char) : IsTight (trim text) where
  first := by
    rw [head?_trim]
    exact isBlank_head?_trimStart text
  last := by
    intro c hc
    rw [trim, trimEnd, List.getLast?_reverse] at hc
    exact isBlank_head?_trimStart _ c hc

/-- Trimming takes off the blanks at the two ends, and nothing else. -/
theorem trim_eq_iff {text core : List Char} : trim text = core ↔
    IsTight core ∧ ∃ front back : List Char, (∀ c ∈ front ++ back, isBlank c = true) ∧ text = front ++ core ++ back := by
  constructor
  · rintro rfl
    obtain ⟨front, hfront, hstart⟩ := exists_eq_append_trimStart text
    obtain ⟨back, hback, hend⟩ := exists_eq_trimEnd_append (trimStart text)
    refine ⟨isTight_trim text, front, back, List.forall_mem_append.mpr ⟨hfront, hback⟩, ?_⟩
    rw [trim, List.append_assoc, ← hend, ← hstart]
  · rintro ⟨htight, front, back, hblanks, rfl⟩
    obtain ⟨hfront, hback⟩ := List.forall_mem_append.mp hblanks
    rw [trim, List.append_assoc, trimStart_append_blanks hfront]
    cases core with
    | nil =>
      -- nothing but blanks
      rw [List.nil_append, trimStart, List.dropWhile_eq_nil_iff.mpr hback]
      rfl
    | cons c core =>
      have hfirst : ∀ d ∈ (c :: core ++ back).head?, isBlank d = false := htight.first
      have htrim := trim_eq_self htight.first htight.last
      rw [trim, trimStart_eq_self htight.first] at htrim
      rw [trimStart_eq_self hfirst, trimEnd_append_blanks hback, htrim]

theorem trim_append_blanks {back : List Char} (h : ∀ c ∈ back, isBlank c = true) (text : List Char) :
    trim (text ++ back) = trim text := by
  obtain ⟨htight, front, back', hblanks, htext⟩ := trim_eq_iff.mp (rfl : trim text = _)
  refine trim_eq_iff.mpr ⟨htight, front, back' ++ back, ?_, ?_⟩
  · rw [← List.append_assoc]
    exact List.forall_mem_append.mpr ⟨hblanks, h⟩
  · rw [← List.append_assoc, ← htext]

theorem trim_trimEnd (text : List Char) : trim (trimEnd text) = trim text := by
  obtain ⟨back, hback, htext⟩ := exists_eq_trimEnd_append text
  calc trim (trimEnd text) = trim (trimEnd text ++ back) := (trim_append_blanks hback _).symm
    _ = trim text := by rw [← htext]

/-- Trimming the end stops at a character that is no blank. -/
theorem trimEnd_append_cons {c : Char} (hc : isBlank c = false) (text rest : List Char) :
    trimEnd (text ++ c :: rest) = text ++ c :: trimEnd rest := by
  have hstop : ∀ d ∈ (c :: text.reverse).head?, isBlank d = false := by
    intro d hd
    obtain rfl := Option.some.inj hd
    exact hc
  rw [trimEnd, List.reverse_append, List.reverse_cons, List.append_assoc, List.singleton_append, trimStart,
    dropWhile_append hstop, List.reverse_append, List.reverse_cons, List.reverse_reverse, List.append_assoc]
  rfl

/-! ## Words between blanks -/

theorem pieces_ne_nil (text : List Char) : pieces text ≠ [] := by
  cases text with
  | nil => simp [pieces]
  | cons c rest =>
    rw [pieces]
    split
    · simp
    · split <;> simp

/-- A blank cuts the text in two. -/
theorem pieces_append (p : List Char) {c : Char} (hc : isBlank c = true) (q : List Char) :
    pieces (p ++ c :: q) = pieces p ++ pieces q := by
  induction p with
  | nil => simp [pieces, hc]
  | cons d p ih =>
    rw [List.cons_append, pieces, pieces, ih]
    by_cases hd : isBlank d = true
    · rw [if_pos hd, if_pos hd, List.cons_append]
    · rw [if_neg hd, if_neg hd]
      cases hpieces : pieces p with
      | nil => exact absurd hpieces (pieces_ne_nil p)
      | cons piece more => rfl

theorem pieces_eq_singleton {w : List Char} (hw : ∀ c ∈ w, isBlank c = false) : pieces w = [w] := by
  induction w with
  | nil => rfl
  | cons c w ih =>
    have hc : isBlank c ≠ true := by simp [hw c (List.mem_cons_self ..)]
    rw [pieces, if_neg hc, ih fun d hd => hw d (List.mem_cons_of_mem _ hd)]

/-- What stands between blanks, or at an end of the text, is a piece of it. -/
theorem mem_pieces_of_between {p w q : List Char} (hw : ∀ c ∈ w, isBlank c = false)
    (hp : ∀ c ∈ p.getLast?, isBlank c = true) (hq : ∀ c ∈ q.head?, isBlank c = true) :
    w ∈ pieces (p ++ w ++ q) := by
  have hleft : w ∈ pieces (p ++ w) := by
    rcases List.eq_nil_or_concat p with rfl | ⟨p, c, rfl⟩
    · rw [List.nil_append, pieces_eq_singleton hw]
      exact List.mem_singleton_self w
    · have hc : isBlank c = true := hp c (by simp)
      rw [List.concat_eq_append, List.append_assoc, List.singleton_append, pieces_append p hc,
        pieces_eq_singleton hw]
      simp
  cases q with
  | nil => rwa [List.append_nil]
  | cons c q =>
    rw [pieces_append _ (hq c rfl)]
    exact List.mem_append_left _ hleft

theorem mem_words_of_between {p w q : List Char} (hne : w ≠ []) (hw : ∀ c ∈ w, isBlank c = false)
    (hp : ∀ c ∈ p.getLast?, isBlank c = true) (hq : ∀ c ∈ q.head?, isBlank c = true) :
    w ∈ words (p ++ w ++ q) := by
  refine List.mem_filter.mpr ⟨mem_pieces_of_between hw hp hq, ?_⟩
  cases w with
  | nil => exact absurd rfl hne
  | cons c w => rfl

/-- Every character that is no blank stands in a word. -/
theorem exists_word_of_mem {text : List Char} {c : Char} (hc : isBlank c = false) (h : c ∈ text) :
    ∃ w ∈ words text, c ∈ w := by
  suffices hpiece : ∃ w ∈ pieces text, c ∈ w by
    obtain ⟨w, hw, hmem⟩ := hpiece
    refine ⟨w, List.mem_filter.mpr ⟨hw, ?_⟩, hmem⟩
    cases w with
    | nil => cases hmem
    | cons d w => rfl
  induction text with
  | nil => cases h
  | cons d text ih =>
    rw [pieces]
    by_cases hd : isBlank d = true
    · rw [if_pos hd]
      have hne : c ≠ d := by
        rintro rfl
        rw [hc] at hd
        cases hd
      obtain ⟨w, hw, hmem⟩ := ih (List.mem_of_ne_of_mem hne h)
      exact ⟨w, List.mem_cons_of_mem _ hw, hmem⟩
    · rw [if_neg hd]
      cases hpieces : pieces text with
      | nil => exact absurd hpieces (pieces_ne_nil text)
      | cons piece more =>
        rcases List.mem_cons.mp h with rfl | h
        · exact ⟨c :: piece, List.mem_cons_self .., List.mem_cons_self ..⟩
        · obtain ⟨w, hw, hmem⟩ := ih h
          rw [hpieces] at hw
          rcases List.mem_cons.mp hw with rfl | hw
          · exact ⟨d :: w, List.mem_cons_self .., List.mem_cons_of_mem _ hmem⟩
          · exact ⟨w, List.mem_cons_of_mem _ hw, hmem⟩

end Text

end Interpolate
