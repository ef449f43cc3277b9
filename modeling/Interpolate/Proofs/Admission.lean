import Interpolate.Proofs.FilterParts
import Interpolate.Proofs.Literals
import Interpolate.Proofs.Nodes
import Interpolate.Proofs.Reading
import Interpolate.Proofs.Spelling

/-!
# The filter lets arithmetic pass

The converse of the filter covering the reader. A text that is read as an expression, with no other names than those
that the filter allows, passes the filter, however it is spaced and whatever operators, parentheses and literals are in
it. What the filter cannot follow has to be left out: commas, `^`, exponents, and words right behind a hexadecimal
numeral.

* **`FitsAll`** — every token may stand before the next one, as far as the filter is concerned;
* **`Derives.fitsAll`** — the tokens of a derivation do, by induction along it;
* **`PassesTo`**, **`passesTo_lexeme`** — the step: what the filter makes of one lexeme, kind by kind;
* **`accepts_of_fitsAll`** — the run: all lexemes of a text;
* **`accepts_of_read`** — the whole.
-/

namespace Interpolate

namespace Filter

open Token Grammar

variable {filter : Filter}

/-! ## Tokens that fit -/

/-- A token may stand where it stands: a word is permitted there, and a literal has no parenthesis behind it. Whether a
parenthesis is next is said by `called`. -/
def Fits (filter : Filter) (called : Prop) : Token → Prop
  | .word x => filter.Permits called x
  | .int _ | .float _ => ¬ called
  | _ => True

/-- All tokens fit, where `next` comes after the last one. -/
def FitsAll (filter : Filter) (next : Option Token) : (ts : List Token) → Prop
  | [] => True
  | token :: ts => filter.Fits (ts.head?.or next = some .leftParen) token ∧ filter.FitsAll next ts

theorem fitsAll_append {next : Option Token} {ts us : List Token} :
    filter.FitsAll next (ts ++ us) ↔ filter.FitsAll (us.head?.or next) ts ∧ filter.FitsAll next us := by
  induction ts with
  | nil => simp [FitsAll]
  | cons token ts ih => rw [List.cons_append, FitsAll, FitsAll, ih, List.head?_append, Option.or_assoc, and_assoc]

/-- The filter allows the name that a node has, if it has one. -/
def AllowsName (filter : Filter) : Expr → Prop
  | .name x => x ∈ filter.constants
  | .call f _ => f ∈ filter.functions
  | _ => True

end Filter

namespace Grammar

variable {filter : Filter}

theorem Level.Joins.fits {ℓ : Level} {token : Token} {make : Expr → Expr → Expr} (h : ℓ.Joins token make)
    (called : Prop) : filter.Fits called token := by
  cases h with
  | or | and => exact Filter.permits_logic (by decide) called
  | bitOr | bitXor | bitAnd | shiftLeft | shiftRight | add | sub | mul | div | floorDiv | rem => trivial

theorem Level.Fronts.fits {ℓ : Level} {token : Token} {op : UnaryOp} (h : ℓ.Fronts token op) (called : Prop) :
    filter.Fits called token := by
  cases h with
  | not => exact Filter.permits_logic (by decide) called
  | neg | pos | bitNot => trivial

theorem Level.Joins.allowsName {ℓ : Level} {token : Token} {make : Expr → Expr → Expr} (h : ℓ.Joins token make)
    {l r : Expr} (hnames : ∀ node ∈ (make l r).nodes, filter.AllowsName node) :
    (∀ node ∈ l.nodes, filter.AllowsName node) ∧ ∀ node ∈ r.nodes, filter.AllowsName node := by
  cases h with
  | or => exact (Expr.forall_nodes_or.mp hnames).2
  | and => exact (Expr.forall_nodes_and.mp hnames).2
  | bitOr | bitXor | bitAnd | shiftLeft | shiftRight | add | sub | mul | div | floorDiv | rem =>
    exact (Expr.forall_nodes_binary.mp hnames).2

/-- The first token of links is a sign of comparison. -/
theorem head?_spellLinks_ne (links : List (Relation × Phrase)) {next : Option Token} (hnext : next ≠ some .leftParen) :
    (spellLinks links).head?.or next ≠ some .leftParen := by
  cases links with
  | nil => exact hnext
  | cons link links => simp [spellLinks]

theorem fitsAll_spellLinks {links : List (Relation × Phrase)}
    (h : ∀ link ∈ links, ∀ next, next ≠ some .leftParen → filter.FitsAll next link.2.tokens) {next : Option Token}
    (hnext : next ≠ some .leftParen) : filter.FitsAll next (spellLinks links) := by
  induction links with
  | nil => trivial
  | cons link links ih =>
    obtain ⟨hlink, hlinks⟩ := List.forall_mem_cons.mp h
    exact ⟨trivial, Filter.fitsAll_append.mpr ⟨hlink _ (head?_spellLinks_ne links hnext), ih hlinks⟩⟩

theorem fitsAll_spellArguments {arguments : List Phrase}
    (h : ∀ argument ∈ arguments, ∀ next, next ≠ some .leftParen → filter.FitsAll next argument.tokens)
    {next : Option Token} (hnext : next ≠ some .leftParen) : filter.FitsAll next (spellArguments arguments) := by
  induction arguments with
  | nil => trivial
  | cons argument arguments ih =>
    obtain ⟨hfirst, hmore⟩ := List.forall_mem_cons.mp h
    cases arguments with
    | nil => exact hfirst next hnext
    | cons argument' arguments => exact Filter.fitsAll_append.mpr ⟨hfirst _ (by simp), trivial, ih hmore⟩

/-- **The tokens of an expression fit** before anything but a parenthesis, if the filter allows the names in it. -/
theorem Derives.fitsAll {n : Nat} {ℓ : Level} {ts : List Token} {e : Expr} (h : Derives n ℓ ts e)
    (hnames : ∀ node ∈ e.nodes, filter.AllowsName node) {next : Option Token} (hnext : next ≠ some .leftParen) :
    filter.FitsAll next ts := by
  induction h generalizing next with
  | lower loose inner ih => exact ih hnames hnext
  | @join n ℓ token make ts us l r joins left right ihleft ihright =>
    obtain ⟨hl, hr⟩ := joins.allowsName hnames
    exact Filter.fitsAll_append.mpr
      ⟨ihleft hl fun h => joins.ne_leftParen (Option.some.inj h), joins.fits _, ihright hr hnext⟩
  | front fronts inner ih => exact ⟨fronts.fits _, ih (Expr.forall_nodes_unary.mp hnames).2 hnext⟩
  | @comparison n ts first links nonempty left right ihleft ihright =>
    obtain ⟨-, hfirst, hlinks⟩ := Expr.forall_nodes_compare.mp hnames
    refine Filter.fitsAll_append.mpr ⟨ihleft hfirst (head?_spellLinks_ne links hnext), ?_⟩
    refine fitsAll_spellLinks (fun link hlink next hnext => ?_) hnext
    exact ihright link hlink (hlinks _ (List.mem_map_of_mem hlink)) hnext
  | power left right ihleft ihright =>
    obtain ⟨-, hbase, hexponent⟩ := Expr.forall_nodes_binary.mp hnames
    exact Filter.fitsAll_append.mpr ⟨ihleft hbase (by simp), trivial, ihright hexponent hnext⟩
  | int k => exact ⟨hnext, trivial⟩
  | float x => exact ⟨hnext, trivial⟩
  | truth => exact ⟨⟨fun hcalled => absurd hcalled hnext, fun _ => .inr (.inl (by decide))⟩, trivial⟩
  | falsehood => exact ⟨⟨fun hcalled => absurd hcalled hnext, fun _ => .inr (.inl (by decide))⟩, trivial⟩
  | name free =>
    exact ⟨⟨fun hcalled => absurd hcalled hnext, fun _ => .inl (hnames _ (List.mem_singleton.mpr rfl))⟩, trivial⟩
  | group inner ih => exact ⟨trivial, Filter.fitsAll_append.mpr ⟨ih hnames (by simp), trivial, trivial⟩⟩
  | constantCall free =>
    have hfunction := hnames _ (List.mem_singleton.mpr rfl)
    exact ⟨⟨fun _ => .inl hfunction, fun hnot => absurd rfl hnot⟩, trivial, trivial, trivial⟩
  | @call n f arguments trailing free nonempty inner comma ih =>
    obtain ⟨hfunction, harguments⟩ := Expr.forall_nodes_call.mp hnames
    have hinside : ∀ next, next ≠ some .leftParen → filter.FitsAll next (spellArguments arguments) := by
      intro next hnext
      refine fitsAll_spellArguments (fun argument hargument next hnext => ?_) hnext
      exact ih argument hargument (harguments _ (List.mem_map_of_mem hargument)) hnext
    refine ⟨⟨fun _ => .inl hfunction, fun hnot => absurd rfl hnot⟩, trivial, ?_⟩
    rcases comma with rfl | rfl
    · rw [List.append_nil]
      exact Filter.fitsAll_append.mpr ⟨hinside _ (by simp), trivial, trivial⟩
    · rw [List.append_assoc]
      exact Filter.fitsAll_append.mpr ⟨hinside _ (by simp), trivial, trivial, trivial⟩

end Grammar

namespace Filter

open Token Grammar

variable {filter : Filter}

/-! ## Symbols -/

/-- Symbols that are known are separators to the filter, but for a parenthesis, a comma and `^`. -/
theorem isSeparator_of_ofSymbol {c : Char} (hknown : ofSymbol c ≠ .unknown c) (hcomma : c ≠ ',') (hcaret : c ≠ '^') :
    c = '(' ∨ isSeparator c = true := by
  unfold ofSymbol at hknown
  split at hknown <;> first
    | exact absurd rfl hknown
    | exact absurd rfl hcomma
    | exact absurd rfl hcaret
    | exact .inl rfl
    | exact .inr (by decide)

theorem isSeparator_of_ofPair? {c d : Char} {token : Token} (h : ofPair? c d = some token) :
    isSeparator c = true ∧ isSeparator d = true := by
  unfold ofPair? at h
  split at h <;> first
    | exact ⟨by decide, by decide⟩
    | cases h

/-- Every lexeme starts with an ordinary character, if it is neither a comma nor `^` nor unknown. -/
theorem isOrdinary_of_form {c : Char} {used rest : List Char} {token : Token} (form : Form (c :: used) token rest)
    (hknown : token ≠ .unknown c) (hcomma : c ≠ ',') (hcaret : c ≠ '^') : IsOrdinary c := by
  cases form with
  | hex => exact .inr (.inr (.inr (by decide)))
  | decimal start =>
    rcases start with hdigit | rfl
    · exact .inr (.inr (.inr (Text.isNameChar_iff.mpr (.inr hdigit))))
    · exact .inr (.inl (by decide))
  | word start => exact .inr (.inr (.inr (Text.isNameChar_of_isNameStart start)))
  | symbol =>
    rcases isSeparator_of_ofSymbol hknown hcomma hcaret with hparen | hseparator
    · exact .inr (.inr (.inl hparen))
    · exact .inr (.inl hseparator)
  | pair pair => exact .inr (.inl (isSeparator_of_ofPair? pair).1)

/-- What is left of a text starts with an ordinary character. -/
theorem isOrdinary_head? {text : List Char} {ts : List Token} (h : Lexes text ts) (hknown : ∀ c, .unknown c ∉ ts)
    (hcomma : ',' ∉ text) (hcaret : '^' ∉ text) : ∀ d ∈ text.head?, IsOrdinary d := by
  intro d hd
  cases h with
  | nil => cases hd
  | space space =>
    obtain rfl := Option.some.inj hd
    exact .inl (isBlank_of_isSpace space)
  | lexeme form =>
    obtain rfl := Option.some.inj hd
    refine isOrdinary_of_form form ?_ (List.ne_of_not_mem_cons hcomma).symm (List.ne_of_not_mem_cons hcaret).symm
    rintro rfl
    exact hknown _ (List.mem_cons_self ..)

/-! ## One lexeme -/

/-- Beyond the tokens of what is left of it, a text has only tokens that are on the list. -/
def PassesTo (filter : Filter) (text rest : List Char) : Prop :=
  ∀ token ∈ tokens text, filter.allowsToken token = true ∨ token ∈ tokens rest

/-- The text has one token more, which is on the list. -/
theorem passesTo_of_tokens {text rest token : List Char} (h : tokens text = token :: tokens rest)
    (hallowed : filter.allowsToken token = true) : filter.PassesTo text rest := by
  intro token' htoken
  rw [h] at htoken
  rcases List.mem_cons.mp htoken with rfl | htoken
  · exact .inl hallowed
  · exact .inr htoken

/-- Digits pass. -/
theorem passesTo_digits {w rest : List Char} (hw : ∀ d ∈ w, d.isDigit = true)
    (hrest : ∀ d ∈ rest.head?, IsOrdinary d ∧ Text.isNameChar d = false)
    (hparen : (Text.trimStart rest).head? ≠ some '(') : filter.PassesTo (w ++ rest) rest := by
  by_cases hne : w = []
  · subst hne
    exact fun token htoken => .inr htoken
  · have hdecimal : isDecimal w = true := by
      simp only [isDecimal, Bool.and_eq_true, List.all_eq_true, Bool.or_eq_true]
      exact ⟨by simpa using hne, fun d hd => .inl (hw d hd)⟩
    have hname : ∀ d ∈ w, Text.isNameChar d = true := fun d hd => Text.isNameChar_iff.mpr (.inr (hw d hd))
    exact passesTo_of_tokens (tokens_run_append hne hname hrest hparen) (by simp [allowsToken, hdecimal])

/-- Digits with points between them pass: every point is a separator. -/
theorem passesTo_numeral {used rest : List Char} (hused : ∀ d ∈ used, d.isDigit = true ∨ d = '.')
    (hrest : ∀ d ∈ rest.head?, IsOrdinary d ∧ Text.isNameChar d = false)
    (hparen : (Text.trimStart rest).head? ≠ some '(') : filter.PassesTo (used ++ rest) rest := by
  by_cases hpoint : '.' ∈ used
  · obtain ⟨w, more, rfl, hfirst⟩ := List.eq_append_cons_of_mem hpoint
    obtain ⟨hw, hmore⟩ := List.forall_mem_append.mp hused
    have hdigits : ∀ d ∈ w, d.isDigit = true := fun d hd => (hw d hd).resolve_right fun h => hfirst (h ▸ hd)
    have hbefore : filter.PassesTo (w ++ []) [] := passesTo_digits hdigits (by simp) (by simp [Text.trimStart])
    have hafter : filter.PassesTo (more ++ rest) rest :=
      passesTo_numeral (List.forall_mem_cons.mp hmore).2 hrest hparen
    intro token htoken
    rw [List.append_assoc, List.cons_append, tokens_separator (by decide)] at htoken
    rcases List.mem_append.mp htoken with htoken | htoken
    · rw [List.append_nil] at hbefore
      exact .inl ((hbefore token htoken).resolve_right List.not_mem_nil)
    · exact hafter token htoken
  · have hdigits : ∀ d ∈ used, d.isDigit = true := fun d hd => (hused d hd).resolve_right fun h => hpoint (h ▸ hd)
    exact passesTo_digits hdigits hrest hparen
termination_by used.length
decreasing_by
  subst_vars
  simp only [List.length_append, List.length_cons]
  omega

/-- A hexadecimal numeral passes, if nothing stands right behind it that a name could start with. -/
theorem passesTo_hex {x : Char} {digits rest : List Char} (mark : x = 'x' ∨ x = 'X') (nonempty : digits ≠ [])
    (all : ∀ d ∈ digits, Decimal.isHexDigit d = true) (stop : ∀ d ∈ rest.head?, Decimal.isHexDigit d = false)
    (apart : ∀ d ∈ rest.head?, Text.isNameStart d = false) (hrest : ∀ d ∈ rest.head?, IsOrdinary d)
    (hparen : (Text.trimStart rest).head? ≠ some '(') : filter.PassesTo ('0' :: x :: digits ++ rest) rest := by
  have hhex : isHex ('0' :: x :: digits) = true := by
    simp only [isHex, Bool.and_eq_true, Bool.or_eq_true, beq_iff_eq, List.all_eq_true]
    exact ⟨⟨mark, by simpa using nonempty⟩, all⟩
  have hright : ∀ d ∈ rest.head?, IsOrdinary d ∧ Text.isNameChar d = false := by
    intro d hd
    have hdigit : d.isDigit = false := by
      have hnone := stop d hd
      simp only [Decimal.isHexDigit, Bool.or_eq_false_iff] at hnone
      exact hnone.1.1
    refine ⟨hrest d hd, ?_⟩
    rw [← Bool.not_eq_true, Text.isNameChar_iff, apart d hd, hdigit]
    simp
  exact passesTo_of_tokens (tokens_run_append (by simp) (isNameChar_of_isHex hhex) hright hparen)
    (by simp [allowsToken, hhex])

/-- A literal passes, if it has no exponent and stands apart from what a name could start with. -/
theorem passesTo_literal {used rest : List Char} {token : Token} (way : Literal used token rest)
    (hplain : Lexeme.IsPlain ⟨used, token, rest⟩) (hrest : ∀ d ∈ rest.head?, IsOrdinary d)
    (hparen : (Text.trimStart rest).head? ≠ some '(') : filter.PassesTo (used ++ rest) rest := by
  cases way with
  | hex mark nonempty all stop =>
    exact passesTo_hex mark nonempty all stop (hplain.apart _ _ rfl mark) hrest hparen
  | numeral all stop => exact passesTo_numeral all (fun d hd => ⟨hrest d hd, stop d hd⟩) hparen
  | scaled mark =>
    obtain ⟨hlower, hupper⟩ := hplain.unscaled ⟨_, rfl⟩
    exact absurd mark (not_or.mpr ⟨hlower, hupper⟩)

/-- A word that is permitted passes, with the parenthesis behind it if there is one. -/
theorem passesTo_word {used rest : List Char} (hne : used ≠ []) (hused : ∀ d ∈ used, Text.isNameChar d = true)
    (hstart : ∃ d ∈ used, Text.isNameStart d = true)
    (hrest : ∀ d ∈ rest.head?, IsOrdinary d ∧ Text.isNameChar d = false)
    (hpermits : filter.Permits ((Text.trimStart rest).head? = some '(') (String.ofList used)) :
    filter.PassesTo (used ++ rest) rest := by
  by_cases hparen : (Text.trimStart rest).head? = some '('
  · obtain ⟨more, hmore⟩ := List.head?_eq_some_iff.mp hparen
    have hcalled : filter.Permits True (String.ofList used) :=
      ⟨fun _ => hpermits.call hparen, fun hnot => absurd trivial hnot⟩
    have hrest : tokens rest = ['('] :: tokens more := by rw [← tokens_trimStart, hmore, tokens_paren]
    have hpasses : filter.PassesTo (used ++ rest) more :=
      passesTo_of_tokens (tokens_word_paren hused hstart hmore) (allowsToken_called hcalled)
    exact fun token htoken => (hpasses token htoken).imp_right fun hmem => hrest ▸ List.mem_cons_of_mem _ hmem
  · have halone : filter.Permits False (String.ofList used) := ⟨False.elim, fun _ => hpermits.alone hparen⟩
    exact passesTo_of_tokens (tokens_run_append hne hused hrest hparen) (allowsToken_alone hused halone)

/-- Separators pass, since they are no tokens. -/
theorem passesTo_separators {w : List Char} (hw : ∀ d ∈ w, isSeparator d = true) (rest : List Char) :
    filter.PassesTo (w ++ rest) rest := by
  intro token htoken
  rw [tokens_separators hw] at htoken
  exact .inr htoken

/-- **One lexeme** passes, if its token fits and an ordinary character follows. -/
theorem passesTo_lexeme {c : Char} {used rest : List Char} {token : Token}
    (hlexeme : lexeme c (used ++ rest) = .ok (token, rest))
    (hfits : filter.Fits ((Text.trimStart rest).head? = some '(') token)
    (hplain : Lexeme.IsPlain ⟨c :: used, token, rest⟩) (hknown : token ≠ .unknown c) (hcomma : c ≠ ',')
    (hcaret : c ≠ '^') (hrest : ∀ d ∈ rest.head?, IsOrdinary d) : filter.PassesTo (c :: used ++ rest) rest := by
  obtain ⟨used', hused, form⟩ := lexeme_form hlexeme
  obtain rfl : used = used' := List.append_cancel_right hused
  have hliteral : c.isDigit = true ∨ c = '.' → ((∃ n, token = .int n) ∨ ∃ x, token = .float x) →
      filter.PassesTo (c :: used ++ rest) rest := by
    intro start literal
    have hparen : (Text.trimStart rest).head? ≠ some '(' := by
      rcases literal with ⟨n, rfl⟩ | ⟨x, rfl⟩ <;> exact hfits
    exact passesTo_literal (lexeme_literal hlexeme start literal) hplain hrest hparen
  cases form with
  | hex => exact hliteral (.inl (by decide)) (.inl ⟨_, rfl⟩)
  | decimal start literal => exact hliteral start literal
  | word start all stop =>
    have hname : ∀ d ∈ c :: used, Text.isNameChar d = true :=
      List.forall_mem_cons.mpr ⟨Text.isNameChar_of_isNameStart start, all⟩
    exact passesTo_word (by simp) hname ⟨c, List.mem_cons_self .., start⟩ (fun d hd => ⟨hrest d hd, stop d hd⟩) hfits
  | symbol =>
    rcases isSeparator_of_ofSymbol hknown hcomma hcaret with rfl | hseparator
    · exact passesTo_of_tokens (tokens_paren rest) rfl
    · exact passesTo_separators (List.forall_mem_singleton.mpr hseparator) rest
  | pair pair =>
    obtain ⟨hfirst, hsecond⟩ := isSeparator_of_ofPair? pair
    exact passesTo_separators (List.forall_mem_cons.mpr ⟨hfirst, List.forall_mem_singleton.mpr hsecond⟩) rest

/-! ## All lexemes -/

/-- A text passes if its tokens fit, and if it has nothing that the filter cannot follow. -/
theorem accepts_of_fitsAll {text : List Char} {ts : List Token} (hlex : lex text = .ok ts)
    (hfits : filter.FitsAll none ts) (hknown : ∀ c, .unknown c ∉ ts) (hcomma : ',' ∉ text) (hcaret : '^' ∉ text)
    (hplain : ∀ l ∈ lexemes text, l.IsPlain) : filter.accepts text = true := by
  rw [accepts_iff]
  -- along the lexemes; each passes as far as the next one, which the rest of the text starts with
  fun_induction lex text generalizing ts with
  | case1 => exact fun t ht => absurd ht List.not_mem_nil
  | case2 c text hspace ih =>
    rw [tokens_blank (isBlank_of_isSpace hspace)]
    rw [lexemes_space hspace] at hplain
    exact ih hlex hfits hknown (List.not_mem_of_not_mem_cons hcomma) (List.not_mem_of_not_mem_cons hcaret) hplain
  | case3 => cases hlex
  | case4 c text hspace token rest hlexeme _ ih =>
    obtain ⟨used, rfl⟩ := lexeme_suffix hlexeme
    obtain ⟨more, hmore, rfl⟩ := exists_of_map_cons hlex
    obtain ⟨hunknown, hknown⟩ := forall_and.mp fun d => not_or.mp (mt List.mem_cons.mpr (hknown d))
    rw [lexemes_lexeme (by simpa using hspace) hlexeme, List.forall_mem_cons] at hplain
    rw [FitsAll, Option.or_none, (lexes_of_lex hmore).head?_eq_leftParen_iff hknown] at hfits
    rw [← List.cons_append] at hcomma hcaret ⊢
    simp only [List.mem_append, List.mem_cons, not_or] at hcomma hcaret
    have hrest := isOrdinary_head? (lexes_of_lex hmore) hknown hcomma.2 hcaret.2
    have hpasses : filter.PassesTo (c :: used ++ rest) rest := passesTo_lexeme hlexeme hfits.1 hplain.1
      (Ne.symm (hunknown c)) (Ne.symm hcomma.1.1) (Ne.symm hcaret.1.1) hrest
    have htokens := ih hmore hfits.2 hknown hcomma.2 hcaret.2 hplain.2
    exact fun t ht => (hpasses t ht).elim id (htokens t)

/-- **The filter lets arithmetic pass.** Let a text be read as an expression whose names are all constants that the
filter allows, and where all functions that are called are functions that it allows. If the text has no comma and no
`^`, no float in it has an exponent, and no letter and no underscore stands right behind a hexadecimal numeral, then the
filter accepts it. -/
theorem accepts_of_read (filter : Filter) {text : List Char} {e : Expr} (hread : Expr.read text = .ok e)
    (hconstants : ∀ x, .name x ∈ e.nodes → x ∈ filter.constants)
    (hfunctions : ∀ f es, .call f es ∈ e.nodes → f ∈ filter.functions) (hcomma : ',' ∉ text) (hcaret : '^' ∉ text)
    (hplain : ∀ l ∈ lexemes text, l.IsPlain) : filter.accepts text = true := by
  obtain ⟨ts, hlex, htokens⟩ := Reader.bind_eq_ok.mp hread
  obtain ⟨hderives, -⟩ := Expr.derives_of_ofTokens htokens
  have hnames : ∀ node ∈ e.nodes, filter.AllowsName node := by
    intro node hnode
    cases node with
    | name x => exact hconstants x hnode
    | call f es => exact hfunctions f es hnode
    | literal | unary | binary | compare | and | or => trivial
  have hfits : filter.FitsAll none ts := hderives.fitsAll hnames nofun
  exact accepts_of_fitsAll hlex hfits hderives.known hcomma hcaret hplain

/-- A half, and the cosine of a hexadecimal numeral, with a blank before the parenthesis. -/
def mixed : List Char :=
  ".5 < cos (0x1F)".toList

/-- What it is read as. -/
def mixedExpr : Expr :=
  .compare (.literal (.float (.ofFloat (Decimal.float [] ['5'] 0)))) [(.lt, .call "cos" [.literal (.int 31)])]

theorem lexeme_mixed : lexeme '.' (['5'] ++ " < cos (0x1F)".toList) =
    .ok (.float (Decimal.float [] ['5'] 0), " < cos (0x1F)".toList) :=
  rfl

theorem read_mixed : Expr.read mixed = .ok mixedExpr := by
  have hmore : lex " < cos (0x1F)".toList =
      .ok [.relation .lt, .word "cos", .leftParen, .int 31, .rightParen] := by decide +kernel
  have hlex : lex mixed = .ok ([.float (Decimal.float [] ['5'] 0)] ++
      [.relation .lt, .word "cos", .leftParen, .int 31, .rightParen]) := by
    have htext : mixed = '.' :: (['5'] ++ " < cos (0x1F)".toList) := rfl
    rw [htext, lex_lexeme (by decide), lexeme_mixed]
    dsimp only [Except.bind]
    rw [hmore]
    rfl
  have harguments : ∀ argument ∈ [Phrase.mk [.int 31] (.literal (.int 31))],
      Derives 99 .or argument.tokens argument.expr :=
    List.forall_mem_singleton.mpr ((Derives.int 31).of_operand .or)
  have hcall : Derives 100 .operand [.word "cos", .leftParen, .int 31, .rightParen]
      (.call "cos" [.literal (.int 31)]) :=
    .call (by decide) (by simp) harguments (.inl rfl)
  have hlinks : ∀ link ∈ [(Relation.lt, Phrase.mk [.word "cos", .leftParen, .int 31, .rightParen]
      (.call "cos" [.literal (.int 31)]))], Derives 100 .bitOr link.2.tokens link.2.expr :=
    List.forall_mem_singleton.mpr (hcall.of_operand .bitOr)
  have hcompare := Derives.comparison (by simp) ((Derives.float (Decimal.float [] ['5'] 0)).of_operand .bitOr) hlinks
  exact Reader.bind_eq_ok.mpr ⟨_, hlex, Expr.ofTokens_of_derives (hcompare.of_le (Nat.zero_le _)) (by decide)⟩

theorem lexemes_call : lexemes " < cos (0x1F)".toList =
    [⟨['<'], .relation .lt, " cos (0x1F)".toList⟩, ⟨"cos".toList, .word "cos", " (0x1F)".toList⟩,
      ⟨['('], .leftParen, "0x1F)".toList⟩, ⟨"0x1F".toList, .int 31, [')']⟩, ⟨[')'], .rightParen, []⟩] := by
  decide +kernel

theorem isPlain_mixed : ∀ l ∈ lexemes mixed, l.IsPlain := by
  have htext : mixed = '.' :: (['5'] ++ " < cos (0x1F)".toList) := rfl
  have hother : ∀ {l : Lexeme}, (∀ x, l.token ≠ .float x) → l.used.head? ≠ some '0' → l.IsPlain := by
    intro l htoken hhead
    refine ⟨fun ⟨x, hx⟩ => absurd hx (htoken x), fun x digits hused => ?_⟩
    rw [hused] at hhead
    exact absurd rfl hhead
  have hhalf : Lexeme.IsPlain ⟨['.', '5'], .float (Decimal.float [] ['5'] 0), " < cos (0x1F)".toList⟩ :=
    ⟨fun _ => by decide, nofun⟩
  have hhex : Lexeme.IsPlain ⟨"0x1F".toList, .int 31, [')']⟩ := by
    refine ⟨nofun, fun x digits _ _ d hd => ?_⟩
    obtain rfl := Option.some.inj hd
    decide
  rw [htext, lexemes_lexeme (by decide) lexeme_mixed, lexemes_call]
  simp only [List.forall_mem_cons]
  exact ⟨hhalf, hother nofun (by decide), hother nofun (by decide), hother nofun (by decide), hhex,
    hother nofun (by decide), List.forall_mem_nil _⟩

theorem accepts_of_read_mixed :
    Expr.read mixed = .ok mixedExpr ∧ (∀ x, .name x ∈ mixedExpr.nodes → x ∈ standard.constants) ∧
      (∀ f es, .call f es ∈ mixedExpr.nodes → f ∈ standard.functions) ∧ ',' ∉ mixed ∧ '^' ∉ mixed ∧
      (∀ l ∈ lexemes mixed, l.IsPlain) ∧ standard.accepts mixed = true := by
  have hconstants : ∀ x, .name x ∈ mixedExpr.nodes → x ∈ standard.constants := by
    intro x hx
    simp [mixedExpr, Expr.nodes, Expr.nodesOfLinks, Expr.nodesOfAll] at hx
  have hfunctions : ∀ f es, .call f es ∈ mixedExpr.nodes → f ∈ standard.functions := by
    intro f es hf
    obtain ⟨rfl, -⟩ : f = "cos" ∧ es = [.literal (.int 31)] := by
      simpa [mixedExpr, Expr.nodes, Expr.nodesOfLinks, Expr.nodesOfAll] using hf
    decide +kernel
  have hcomma : ',' ∉ mixed := by decide
  have hcaret : '^' ∉ mixed := by decide
  exact ⟨read_mixed, hconstants, hfunctions, hcomma, hcaret, isPlain_mixed,
    accepts_of_read standard read_mixed hconstants hfunctions hcomma hcaret isPlain_mixed⟩

end Filter

end Interpolate
