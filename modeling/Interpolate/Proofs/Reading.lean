import Interpolate.Proofs.Grammar

/-!
# Readers read the grammar

Every reader of the ladder reads the expressions of one level: what it takes off the front of a list of tokens
spells the expression it gives, and an expression that is spelled in front of tokens that end it is read whole.
Both hold for trees up to the greatest height, and each combinator of readers hands them on from its parts.

* **`Reader.Reads`** — a reader reads a language of expressions at a level;
* **`chain_reads`**, **`comparison_reads`**, **`prefixed_reads`**, **`power_reads`**, **`primary_reads`** — one
  lemma for each combinator;
* **`within_reads`** — the ladder within a budget reads the derivations within it;
* **`ofTokens_eq_ok_iff`** — which lists of tokens are read, and as what; **`read_eq_ok_iff`** says the same of texts.
-/

namespace Interpolate

namespace Reader

open Grammar

/-- A reader reads a language of expressions at a level. -/
structure Reads (reader : Reader) (language : List Token → Expr → Prop) (ℓ : Level) : Prop where
  /-- what is read is in the language, and no higher than allowed -/
  sound : ∀ {tokens rest : List Token} {e : Expr}, reader.run tokens = .ok (e, rest) →
    e.height ≤ heightMax ∧ ∃ used, tokens = used ++ rest ∧ language used e
  /-- what is in the language is read, if it is no higher than allowed and tokens follow that end it -/
  complete : ∀ {used : List Token} {e : Expr} (rest : List Token), language used e → e.height ≤ heightMax →
    Stops ℓ rest → reader.run (used ++ rest) = .ok (e, rest)

/-- The expressions of a level as a nested position of a derivation: one of the `n` positions is taken. -/
def Nested (n : Nat) (ℓ : Level) (ts : List Token) (e : Expr) : Prop :=
  ∃ m, n = m + 1 ∧ Derives m ℓ ts e

/-! ## Reading in sequence -/

theorem bind_eq_ok {ε α β : Type} {x : Except ε α} {f : α → Except ε β} {b : β} :
    (x >>= f) = .ok b ↔ ∃ a, x = .ok a ∧ f a = .ok b := by
  cases x with
  | error error => simp [bind, Except.bind]
  | ok a => simp [bind, Except.bind]

theorem build_eq_ok {e built : Expr} : build e = .ok built ↔ e.height ≤ heightMax ∧ e = built := by
  rw [build]
  split
  · next h => simp [h]
  · next h => simp [h]

theorem refuse_reads (error : SyntaxError) (ℓ : Level) : (refuse error).Reads (Nested 0 ℓ) ℓ where
  sound h := by cases h
  complete _ h := by
    obtain ⟨m, hm, -⟩ := h
    cases hm

/-! ## Operators grouped to the left -/

section Chain

variable {operator : Token → Option (Expr → Expr → Expr)} {reader : Reader} {n : Nat} {ℓ : Level}

theorem chainFrom_sound (hoperator : ∀ {token make}, operator token = some make ↔ ℓ.Joins token make)
    (hreader : reader.Reads (Derives n ℓ.next) ℓ.next) {left e : Expr} {tokens rest before : List Token}
    (h : chainFrom operator reader left tokens = .ok (e, rest)) (hleft : Derives n ℓ before left)
    (hheight : left.height ≤ heightMax) :
    e.height ≤ heightMax ∧ ∃ used, tokens = used ++ rest ∧ Derives n ℓ (before ++ used) e := by
  -- on the loop; what is read so far grows to the right, and `before` are the tokens that spell it
  fun_induction chainFrom operator reader left tokens generalizing before with
  | case1 left =>
    cases h
    exact ⟨hheight, [], rfl, by simpa using hleft⟩
  | case2 left token tokens hnone =>
    cases h
    exact ⟨hheight, [], rfl, by simpa using hleft⟩
  | case3 => cases h
  | case4 => cases h
  | case5 left token tokens make hmake right after hrun _ joined hbuild ih =>
    obtain ⟨_, used, rfl, hright⟩ := hreader.sound hrun
    obtain ⟨hle, rfl⟩ := build_eq_ok.mp hbuild
    have hjoined : Derives n ℓ (before ++ token :: used) (make left right) :=
      .join (hoperator.mp hmake) hleft hright
    obtain ⟨hheight', more, rfl, hderives⟩ := ih h hjoined hle
    exact ⟨hheight', token :: (used ++ more), by simp, by simpa using hderives⟩

/-- A chain goes on as long as operators of its level follow. -/
theorem chainFrom_stop (hoperator : ∀ {token make}, operator token = some make ↔ ℓ.Joins token make)
    (left : Expr) {rest : List Token} (hstops : Stops ℓ rest) :
    chainFrom operator reader left rest = .ok (left, rest) := by
  cases rest with
  | nil => rw [chainFrom]
  | cons token rest =>
    rw [chainFrom]
    cases hmake : operator token with
    | none => rfl
    | some make =>
      have := hstops token rfl ℓ (.join (hoperator.mp hmake))
      exact absurd this (Nat.lt_irrefl _)

/-- A chain takes an operator of its level together with the operand after it. -/
theorem chainFrom_join {token : Token} {make : Expr → Expr → Expr} {left right : Expr} {tokens rest : List Token}
    (hmake : operator token = some make) (hrun : reader.run tokens = .ok (right, rest))
    (hheight : (make left right).height ≤ heightMax) :
    chainFrom operator reader left (token :: tokens) = chainFrom operator reader (make left right) rest := by
  have hbuild : build (make left right) = .ok (make left right) := build_eq_ok.mpr ⟨hheight, rfl⟩
  rw [chainFrom]
  simp only [hmake]
  split
  · next error herror =>
    rw [hrun] at herror
    cases herror
  · next found rest' hfound =>
    rw [hrun] at hfound
    cases hfound
    rw [hbuild]

/-- A chain that has read an expression of its level is where the loop stands after that expression. -/
theorem chain_run (hjoins : ∃ token make, ℓ.Joins token make)
    (hoperator : ∀ {token make}, operator token = some make ↔ ℓ.Joins token make)
    (hreader : reader.Reads (Derives n ℓ.next) ℓ.next) {used : List Token} {e : Expr}
    (h : Derives n ℓ used e) (hheight : e.height ≤ heightMax) {rest : List Token}
    (hstops : Stops ℓ.next rest) :
    (chain operator reader).run (used ++ rest) = chainFrom operator reader e rest := by
  -- on the derivation, which has the last operator outermost as the loop has it last
  induction h generalizing rest with
  | lower loose inner =>
    simp only [chain, hreader.complete rest inner hheight hstops]
    rfl
  | @join n ℓ token make ts us l r joins left right ihleft ihright =>
    have hparts := joins.height l r
    have hop : Stops ℓ.next (token :: (us ++ rest)) := (Extends.join joins).stops joins.rank_lt _
    rw [List.append_assoc, List.cons_append, ihleft hjoins hoperator hreader (by omega) hop]
    exact chainFrom_join (hoperator.mpr joins) (hreader.complete rest right (by omega) hstops) hheight
  | front fronts =>
    obtain ⟨_, _, hjoins⟩ := hjoins
    exact absurd fronts hjoins.not_fronts
  | comparison | power | int | float | truth | falsehood | name | group | constantCall | call =>
    obtain ⟨_, _, hjoins⟩ := hjoins
    cases hjoins

theorem chain_reads (hjoins : ∃ token make, ℓ.Joins token make)
    (hoperator : ∀ {token make}, operator token = some make ↔ ℓ.Joins token make)
    (hreader : reader.Reads (Derives n ℓ.next) ℓ.next) : (chain operator reader).Reads (Derives n ℓ) ℓ where
  sound {tokens rest e} h := by
    obtain ⟨⟨first, after⟩, hfirst, hfrom⟩ := bind_eq_ok.mp h
    obtain ⟨hheight, before, rfl, hderives⟩ := hreader.sound hfirst
    have hloose : ℓ ≠ .operand := by
      rintro rfl
      obtain ⟨_, _, hjoins⟩ := hjoins
      cases hjoins
    obtain ⟨hheight', used, rfl, hused⟩ := chainFrom_sound hoperator hreader hfrom (.lower hloose hderives) hheight
    exact ⟨hheight', before ++ used, (List.append_assoc ..).symm, hused⟩
  complete {used e} rest h hheight hstops := by
    rw [chain_run hjoins hoperator hreader h hheight (hstops.mono ℓ.rank_le_next)]
    exact chainFrom_stop hoperator e hstops

end Chain

/-! ## Chains of comparisons -/

section Comparison

variable {reader : Reader} {n : Nat}

/-- The links that phrases spell. -/
def linksOf (phrases : List (Relation × Phrase)) : List (Relation × Expr) :=
  phrases.map fun link => (link.1, link.2.expr)

theorem links_sound (hreader : reader.Reads (Derives n .bitOr) .bitOr) {ls : List (Relation × Expr)}
    {tokens rest : List Token} (h : links reader tokens = .ok (ls, rest)) :
    Expr.heightOfLinks ls ≤ heightMax ∧ ∃ phrases, ls = linksOf phrases ∧
      tokens = spellLinks phrases ++ rest ∧
      ∀ link ∈ phrases, Derives n .bitOr link.2.tokens link.2.expr := by
  fun_induction links reader tokens generalizing ls rest with
  | case1 => cases h
  | case2 => cases h
  | case3 r tokens e after hrun _ more rest' _ ih =>
    cases h
    obtain ⟨hle, used, rfl, hderives⟩ := hreader.sound hrun
    obtain ⟨hmore, phrases, rfl, rfl, hphrases⟩ := ih ‹_›
    refine ⟨Nat.max_le.mpr ⟨hle, hmore⟩, (r, ⟨used, e⟩) :: phrases, rfl, by simp [spellLinks], ?_⟩
    intro link hlink
    rcases List.mem_cons.mp hlink with rfl | hlink
    · exact hderives
    · exact hphrases link hlink
  | case4 tokens hno =>
    cases h
    exact ⟨Nat.zero_le _, [], rfl, rfl, fun _ hlink => absurd hlink List.not_mem_nil⟩

/-- Links, or what ends a chain of them, end the operand before them. -/
theorem stops_links (phrases : List (Relation × Phrase)) {rest : List Token} (hstops : Stops .comparison rest) :
    Stops .bitOr (spellLinks phrases ++ rest) := by
  cases phrases with
  | nil => exact hstops.mono (by decide)
  | cons link phrases => exact (Extends.relation _).stops (by decide) _

/-- Links are read one after the other. -/
theorem links_cons {r : Relation} {e : Expr} {ls : List (Relation × Expr)} {tokens after rest : List Token}
    (hrun : reader.run tokens = .ok (e, after)) (hmore : links reader after = .ok (ls, rest)) :
    links reader (.relation r :: tokens) = .ok ((r, e) :: ls, rest) := by
  rw [links]
  split
  · next error herror =>
    rw [hrun] at herror
    cases herror
  · next found after' hfound =>
    rw [hrun] at hfound
    cases hfound
    rw [hmore]

theorem links_complete (hreader : reader.Reads (Derives n .bitOr) .bitOr)
    (phrases : List (Relation × Phrase)) {rest : List Token}
    (hphrases : ∀ link ∈ phrases, Derives n .bitOr link.2.tokens link.2.expr)
    (hheight : Expr.heightOfLinks (linksOf phrases) ≤ heightMax) (hstops : Stops .comparison rest) :
    links reader (spellLinks phrases ++ rest) = .ok (linksOf phrases, rest) := by
  induction phrases with
  | nil =>
    cases rest with
    | nil => simp [links, spellLinks, linksOf]
    | cons token rest =>
      have hno : ∀ r, token ≠ .relation r := by
        rintro r rfl
        exact absurd (hstops _ rfl _ (.relation r)) (Nat.lt_irrefl _)
      rw [show spellLinks [] ++ token :: rest = token :: rest from rfl, links]
      · rfl
      · rintro r tokens heq
        exact hno r (List.cons.inj heq).1
  | cons link phrases ih =>
    obtain ⟨r, operand⟩ := link
    have hheights := Nat.max_le.mp hheight
    have hrun := hreader.complete (spellLinks phrases ++ rest) (hphrases _ (List.mem_cons_self ..))
      hheights.1 (stops_links phrases hstops)
    have hmore := ih (fun link hlink => hphrases link (List.mem_cons_of_mem _ hlink)) hheights.2
    rw [show spellLinks ((r, operand) :: phrases) ++ rest =
      .relation r :: (operand.tokens ++ (spellLinks phrases ++ rest)) by simp [spellLinks]]
    exact links_cons hrun hmore

theorem comparison_reads (hreader : reader.Reads (Derives n .bitOr) .bitOr) :
    (comparison reader).Reads (Derives n .comparison) .comparison where
  sound {tokens rest e} h := by
    obtain ⟨⟨first, after⟩, hfirst, hmore⟩ := bind_eq_ok.mp h
    obtain ⟨⟨ls, rest'⟩, hlinks, hbuilt⟩ := bind_eq_ok.mp hmore
    obtain ⟨hheight, before, rfl, hderives⟩ := hreader.sound hfirst
    obtain ⟨-, phrases, rfl, rfl, hphrases⟩ := links_sound hreader hlinks
    cases phrases with
    | nil =>
      cases hbuilt
      exact ⟨hheight, before, rfl, .lower (by decide) hderives⟩
    | cons link phrases =>
      obtain ⟨built, hbuild, hreturn⟩ := bind_eq_ok.mp hbuilt
      cases hreturn
      obtain ⟨hle, rfl⟩ := build_eq_ok.mp hbuild
      exact ⟨hle, before ++ spellLinks (link :: phrases), by simp,
        .comparison (by simp) hderives hphrases⟩
  complete {used e} rest h hheight hstops := by
    cases h with
    | lower loose inner =>
      -- a single operand: what ends a comparison is no link
      have hrun := hreader.complete rest inner hheight (hstops.mono (by decide))
      have hlinks : links reader rest = .ok ([], rest) :=
        links_complete hreader [] (fun _ hlink => absurd hlink List.not_mem_nil) (Nat.zero_le _) hstops
      exact bind_eq_ok.mpr ⟨_, hrun, bind_eq_ok.mpr ⟨_, hlinks, rfl⟩⟩
    | join joins => cases joins
    | front fronts => cases fronts
    | @comparison _ ts first phrases nonempty left right =>
      have hheights : max first.height (Expr.heightOfLinks (linksOf phrases)) + 1 ≤ heightMax := by
        simpa only [Expr.height, linksOf] using hheight
      have hrun := hreader.complete (spellLinks phrases ++ rest) left (by omega) (stops_links phrases hstops)
      have hlinks := links_complete hreader phrases right (by omega) hstops
      have hbuild : build (.compare first (linksOf phrases)) = .ok (.compare first (linksOf phrases)) :=
        build_eq_ok.mpr ⟨hheight, rfl⟩
      rw [List.append_assoc]
      refine bind_eq_ok.mpr ⟨_, hrun, bind_eq_ok.mpr ⟨_, hlinks, ?_⟩⟩
      cases phrases with
      | nil => exact absurd rfl nonempty
      | cons link phrases => exact bind_eq_ok.mpr ⟨_, hbuild, rfl⟩

end Comparison

/-! ## Operators in front of an operand -/

section Prefixed

variable {operator : Token → Option UnaryOp} {inner : Entry → Reader} {entry : Entry} {plain : Reader}
variable {n : Nat} {ℓ : Level}

/-- What starts an expression of the next level is not taken for an operator in front of one. -/
theorem no_operator_of_derives_next (hfronts : ∃ token op, ℓ.Fronts token op)
    (hoperator : ∀ {token op}, operator token = some op ↔ ℓ.Fronts token op) {used : List Token} {e : Expr}
    (h : Derives n ℓ.next used e) (rest : List Token) : (used ++ rest).head?.bind operator = none := by
  obtain ⟨token, us, rfl, hstarts⟩ := h.head
  obtain ⟨_, _, hfronts⟩ := hfronts
  cases hop : operator token with
  | none => exact hop
  | some op =>
    have hle := hstarts.front ℓ op (hoperator.mp hop)
    exact absurd hfronts.rank_lt (Nat.not_lt.mpr hle)

theorem prefixed_reads (hfronts : ∃ token op, ℓ.Fronts token op)
    (hoperator : ∀ {token op}, operator token = some op ↔ ℓ.Fronts token op)
    (hinner : (inner entry).Reads (Nested n ℓ) ℓ) (hplain : plain.Reads (Derives n ℓ.next) ℓ.next) :
    (prefixed operator inner entry plain).Reads (Derives n ℓ) ℓ where
  sound {tokens rest e} h := by
    simp only [prefixed] at h
    split at h
    · next op hop =>
      cases tokens with
      | nil => cases hop
      | cons token tokens =>
        obtain ⟨⟨found, after⟩, hrun, hbuilt⟩ := bind_eq_ok.mp h
        obtain ⟨built, hbuild, hreturn⟩ := bind_eq_ok.mp hbuilt
        cases hreturn
        obtain ⟨hle, rfl⟩ := build_eq_ok.mp hbuild
        obtain ⟨-, used, hused, m, rfl, hderives⟩ := hinner.sound hrun
        refine ⟨hle, token :: used, ?_, .front (hoperator.mp hop) hderives⟩
        rw [List.cons_append, ← hused, List.tail_cons]
    · obtain ⟨hheight, used, rfl, hderives⟩ := hplain.sound h
      have hloose : ℓ ≠ .operand := by
        rintro rfl
        obtain ⟨_, _, hfronts⟩ := hfronts
        cases hfronts
      exact ⟨hheight, used, rfl, .lower hloose hderives⟩
  complete {used e} rest h hheight hstops := by
    cases h with
    | lower loose next =>
      have hnone := no_operator_of_derives_next hfronts hoperator next rest
      simp only [prefixed, hnone]
      exact hplain.complete rest next hheight (hstops.mono ℓ.rank_le_next)
    | @front m _ token op ts operand fronts derives =>
      have hoperand : operand.height ≤ heightMax := by
        simp only [Expr.height] at hheight
        omega
      have hrun := hinner.complete rest ⟨m, rfl, derives⟩ hoperand hstops
      have hsome : ((token :: ts) ++ rest).head?.bind operator = some op := hoperator.mpr fronts
      simp only [prefixed, hsome]
      exact bind_eq_ok.mpr ⟨_, hrun, bind_eq_ok.mpr ⟨_, build_eq_ok.mpr ⟨hheight, rfl⟩, rfl⟩⟩
    | join joins =>
      obtain ⟨_, _, hfronts⟩ := hfronts
      exact absurd hfronts joins.not_fronts
    | comparison | power | int | float | truth | falsehood | name | group | constantCall | call =>
      obtain ⟨_, _, hfronts⟩ := hfronts
      cases hfronts

end Prefixed

/-! ## Powers -/

theorem power_reads {inner : Entry → Reader} {n : Nat}
    (hprimary : (primary (inner .whole)).Reads (Derives n .operand) .operand)
    (hsigned : (inner .signed).Reads (Nested n .sign) .sign) :
    (power inner).Reads (Derives n .power) .power where
  sound {tokens rest e} h := by
    obtain ⟨⟨base, after⟩, hrun, hmore⟩ := bind_eq_ok.mp h
    obtain ⟨hheight, before, rfl, hbase⟩ := hprimary.sound hrun
    dsimp only at hmore
    split at hmore
    · next exponentTokens =>
      obtain ⟨⟨exponent, after'⟩, hexponent, hbuilt⟩ := bind_eq_ok.mp hmore
      obtain ⟨built, hbuild, hreturn⟩ := bind_eq_ok.mp hbuilt
      cases hreturn
      obtain ⟨hle, rfl⟩ := build_eq_ok.mp hbuild
      obtain ⟨-, used, rfl, m, rfl, hderives⟩ := hsigned.sound hexponent
      exact ⟨hle, before ++ .starStar :: used, by simp, .power hbase hderives⟩
    · cases hmore
      exact ⟨hheight, before, rfl, .lower (by decide) hbase⟩
  complete {used e} rest h hheight hstops := by
    cases h with
    | lower loose next =>
      -- without an exponent: what ends a power is no `**`
      have hrun := hprimary.complete rest next hheight (hstops.mono (by decide))
      refine bind_eq_ok.mpr ⟨_, hrun, ?_⟩
      dsimp only
      split
      · exact absurd (hstops _ rfl _ .starStar) (Nat.lt_irrefl _)
      · rfl
    | join joins => cases joins
    | front fronts => cases fronts
    | @power m ts us base exponent left right =>
      have hheights : max base.height exponent.height + 1 ≤ heightMax := by
        simpa only [Expr.height] using hheight
      have hrun := hprimary.complete (.starStar :: (us ++ rest)) left (by omega)
        (Extends.starStar.stops (by decide) _)
      have hexponent := hsigned.complete rest ⟨m, rfl, right⟩ (by omega) hstops.sign_of_power
      rw [List.append_assoc]
      exact bind_eq_ok.mpr ⟨_, hrun, bind_eq_ok.mpr ⟨_, hexponent,
        bind_eq_ok.mpr ⟨_, build_eq_ok.mpr ⟨hheight, rfl⟩, rfl⟩⟩⟩

/-! ## Arguments -/

section Arguments

variable {reader : Reader} {n : Nat}

/-- Tokens that stand between the parentheses of a call, with the arguments that they spell: none, or phrases
with commas between them and perhaps one comma after the last. -/
def SpellsArguments (n : Nat) (ts : List Token) (es : List Expr) : Prop :=
  ts = [] ∧ es = [] ∨
    ∃ phrases trailing, phrases ≠ [] ∧ ts = spellArguments phrases ++ trailing ∧ es = phrases.map Phrase.expr ∧
      (trailing = [] ∨ trailing = [.comma]) ∧
      ∀ argument ∈ phrases, Nested n .or argument.tokens argument.expr

/-- One more argument in front of others, or of none. -/
theorem SpellsArguments.cons {ts us : List Token} {e : Expr} {es : List Expr} (hargument : Nested n .or us e)
    (h : SpellsArguments n ts es) : SpellsArguments n (us ++ .comma :: ts) (e :: es) := by
  rcases h with ⟨rfl, rfl⟩ | ⟨phrases, trailing, hne, rfl, rfl, htrailing, hphrases⟩
  · refine .inr ⟨[⟨us, e⟩], [.comma], by simp, rfl, rfl, .inr rfl, ?_⟩
    intro argument h
    obtain rfl := List.mem_singleton.mp h
    exact hargument
  · refine .inr ⟨⟨us, e⟩ :: phrases, trailing, by simp, ?_, rfl, htrailing, ?_⟩
    · cases phrases with
      | nil => exact absurd rfl hne
      | cons next more => simp [spellArguments]
    · intro argument h
      rcases List.mem_cons.mp h with rfl | h
      · exact hargument
      · exact hphrases argument h

theorem arguments_sound (hreader : reader.Reads (Nested n .or) .or) {es : List Expr} {tokens rest : List Token}
    (h : arguments reader tokens = .ok (es, rest)) :
    Expr.heightOfAll es ≤ heightMax ∧ ∃ used, tokens = used ++ rest ∧ SpellsArguments n used es := by
  fun_induction arguments reader tokens generalizing es rest with
  | case1 tokens =>
    cases h
    exact ⟨Nat.zero_le _, [], rfl, .inl ⟨rfl, rfl⟩⟩
  | case2 => cases h
  | case3 => cases h
  | case4 tokens hopen e after hrun _ more rest' _ ih =>
    cases h
    obtain ⟨hle, used, rfl, hargument⟩ := hreader.sound hrun
    obtain ⟨hmore, between, rfl, hbetween⟩ := ih ‹_›
    exact ⟨Nat.max_le.mpr ⟨hle, hmore⟩, used ++ .comma :: between, by simp, hbetween.cons hargument⟩
  | case5 tokens hopen e rest' hno hrun =>
    cases h
    obtain ⟨hle, used, rfl, hargument⟩ := hreader.sound hrun
    refine ⟨Nat.max_le.mpr ⟨hle, Nat.zero_le _⟩, used, rfl,
      .inr ⟨[⟨used, e⟩], [], by simp, ?_, rfl, .inl rfl, ?_⟩⟩
    · simp [spellArguments]
    · intro argument h
      obtain rfl := List.mem_singleton.mp h
      exact hargument

theorem arguments_close (rest : List Token) :
    arguments reader (.rightParen :: rest) = .ok ([], .rightParen :: rest) := by
  rw [arguments, if_pos List.head?_cons]

/-- An argument with a comma after it. -/
theorem arguments_cons {e : Expr} {es : List Expr} {tokens after rest : List Token}
    (hopen : tokens.head? ≠ some .rightParen) (hrun : reader.run tokens = .ok (e, .comma :: after))
    (hmore : arguments reader after = .ok (es, rest)) : arguments reader tokens = .ok (e :: es, rest) := by
  rw [arguments, if_neg hopen]
  split
  · next herror =>
    rw [hrun] at herror
    cases herror
  · next hfound =>
    rw [hrun] at hfound
    cases hfound
    rw [hmore]
  · next hno hfound =>
    rw [hrun] at hfound
    cases hfound
    exact absurd rfl (hno _)

/-- An argument with the closing parenthesis after it. -/
theorem arguments_last {e : Expr} {tokens rest : List Token} (hopen : tokens.head? ≠ some .rightParen)
    (hrun : reader.run tokens = .ok (e, .rightParen :: rest)) :
    arguments reader tokens = .ok ([e], .rightParen :: rest) := by
  rw [arguments, if_neg hopen]
  split
  · next herror =>
    rw [hrun] at herror
    cases herror
  · next hfound =>
    rw [hrun] at hfound
    cases hfound
  · next hfound =>
    rw [hrun] at hfound
    cases hfound
    rfl

/-- No argument starts with a closing parenthesis. -/
theorem Nested.head_ne {ts : List Token} {e : Expr} {ℓ : Level} (h : Nested n ℓ ts e) (rest : List Token) :
    (ts ++ rest).head? ≠ some .rightParen := by
  obtain ⟨m, rfl, hderives⟩ := h
  obtain ⟨token, us, rfl, hstarts⟩ := hderives.head
  intro heq
  exact hstarts.opening (Option.some.inj heq)

theorem arguments_complete (hreader : reader.Reads (Nested n .or) .or) {ts : List Token} {es : List Expr}
    (h : SpellsArguments n ts es) (hheight : Expr.heightOfAll es ≤ heightMax) (rest : List Token) :
    arguments reader (ts ++ .rightParen :: rest) = .ok (es, .rightParen :: rest) := by
  rcases h with ⟨rfl, rfl⟩ | ⟨phrases, trailing, hne, rfl, rfl, htrailing, hphrases⟩
  · exact arguments_close rest
  · induction phrases with
    | nil => exact absurd rfl hne
    | cons argument more ih =>
      have hheights := Nat.max_le.mp hheight
      have hargument := hphrases argument (List.mem_cons_self ..)
      cases more with
      | nil =>
        -- after the last argument, with or without a comma, the list of arguments closes
        rcases htrailing with rfl | rfl
        · have hrun := hreader.complete (.rightParen :: rest) hargument hheights.1
            (stops_of_not_extends (.inr rfl) _ _)
          simpa [spellArguments] using arguments_last (hargument.head_ne _) hrun
        · have hrun := hreader.complete (.comma :: .rightParen :: rest) hargument hheights.1
            (stops_of_not_extends (.inl rfl) _ _)
          simpa [spellArguments] using arguments_cons (hargument.head_ne _) hrun (arguments_close rest)
      | cons next more =>
        have hmore := ih (by simp) hheights.2 fun argument h => hphrases argument (List.mem_cons_of_mem _ h)
        have hrun := hreader.complete
          (.comma :: (spellArguments (next :: more) ++ trailing ++ .rightParen :: rest)) hargument hheights.1
          (stops_of_not_extends (.inl rfl) _ _)
        simpa [spellArguments] using arguments_cons (hargument.head_ne _) hrun hmore

end Arguments

/-! ## Operands -/

section Operand

variable {reader : Reader} {n : Nat}

theorem SpellsArguments.derives {f : String} {ts : List Token} {es : List Expr} (free : f ∉ keywords)
    (h : SpellsArguments n ts es) :
    Derives n .operand (.word f :: .leftParen :: (ts ++ [.rightParen])) (.call f es) := by
  rcases h with ⟨rfl, rfl⟩ | ⟨phrases, trailing, hne, rfl, rfl, htrailing, hphrases⟩
  · exact .constantCall free
  · -- the arguments share one budget, which any one of them shows to be positive
    obtain ⟨argument, hargument⟩ := List.exists_mem_of_ne_nil _ hne
    obtain ⟨m, rfl, -⟩ := hphrases argument hargument
    refine .call free hne (fun argument hargument => ?_) htrailing
    obtain ⟨m', hm', hderives⟩ := hphrases argument hargument
    obtain rfl := Nat.succ.inj hm'
    exact hderives

theorem named_sound (hreader : reader.Reads (Nested n .or) .or) {f : String} (free : f ∉ keywords)
    {tokens rest : List Token} {e : Expr} (h : named reader f tokens = .ok (e, rest)) :
    e.height ≤ heightMax ∧ ∃ used, tokens = used ++ rest ∧ Derives n .operand (.word f :: used) e := by
  unfold named at h
  split at h
  · next inside =>
    obtain ⟨⟨es, after⟩, harguments, hclose⟩ := bind_eq_ok.mp h
    obtain ⟨-, used, rfl, hused⟩ := arguments_sound hreader harguments
    dsimp only at hclose
    split at hclose
    · obtain ⟨built, hbuild, hreturn⟩ := bind_eq_ok.mp hclose
      cases hreturn
      obtain ⟨hle, rfl⟩ := build_eq_ok.mp hbuild
      exact ⟨hle, .leftParen :: (used ++ [.rightParen]), by simp, hused.derives free⟩
    · cases hclose
  · cases h
    exact ⟨by simp [Expr.height, heightMax], [], rfl, .name free⟩

theorem group_sound (hreader : reader.Reads (Nested n .or) .or) {tokens rest : List Token} {e : Expr}
    (h : group reader tokens = .ok (e, rest)) :
    e.height ≤ heightMax ∧ ∃ used, tokens = used ++ rest ∧ Derives n .operand (.leftParen :: used) e := by
  obtain ⟨⟨found, after⟩, hrun, hclose⟩ := bind_eq_ok.mp h
  obtain ⟨hle, used, rfl, m, rfl, hderives⟩ := hreader.sound hrun
  dsimp only at hclose
  split at hclose
  · cases hclose
    exact ⟨hle, used ++ [.rightParen], by simp, .group hderives⟩
  · cases hclose

theorem wordOperand_sound (hreader : reader.Reads (Nested n .or) .or) {x : String} {tokens rest : List Token}
    {e : Expr} (h : wordOperand reader x tokens = .ok (e, rest)) :
    e.height ≤ heightMax ∧ ∃ used, tokens = used ++ rest ∧ Derives n .operand (.word x :: used) e := by
  rw [wordOperand] at h
  split at h
  · next htrue =>
    subst htrue
    cases h
    exact ⟨by decide, [], rfl, .truth⟩
  · split at h
    · next hfalse =>
      subst hfalse
      cases h
      exact ⟨by decide, [], rfl, .falsehood⟩
    · split at h
      · cases h
      · next hfree => exact named_sound hreader (by simpa using hfree) h

theorem operand_sound (hreader : reader.Reads (Nested n .or) .or) {token : Token} {tokens rest : List Token}
    {e : Expr} (h : operand reader token tokens = .ok (e, rest)) :
    e.height ≤ heightMax ∧ ∃ used, tokens = used ++ rest ∧ Derives n .operand (token :: used) e := by
  unfold operand at h
  split at h
  · exact wordOperand_sound hreader h
  · exact group_sound hreader h
  · split at h
    · next v hliteral =>
      cases h
      refine ⟨by simp [Expr.height, heightMax], [], rfl, ?_⟩
      cases token <;> cases hliteral
      · exact .int _
      · exact .float _
    · cases h

/-- A name that no parenthesis follows is no call. -/
theorem named_stop (f : String) {rest : List Token} (hstops : Stops .operand rest) :
    named reader f rest = .ok (.name f, rest) := by
  unfold named
  split
  · exact absurd (hstops _ rfl _ .leftParen) (Nat.lt_irrefl _)
  · rfl

theorem wordOperand_free {x : String} (free : x ∉ keywords) (tokens : List Token) :
    wordOperand reader x tokens = named reader x tokens := by
  rw [wordOperand, if_neg, if_neg, if_neg]
  · simpa using free
  · rintro rfl
    exact free (by decide)
  · rintro rfl
    exact free (by decide)

theorem call_complete (hreader : reader.Reads (Nested n .or) .or) {f : String} (free : f ∉ keywords)
    {ts : List Token} {es : List Expr} (h : SpellsArguments n ts es)
    (hheight : (Expr.call f es).height ≤ heightMax) (rest : List Token) :
    wordOperand reader f (.leftParen :: (ts ++ .rightParen :: rest)) = .ok (.call f es, rest) := by
  have hes : Expr.heightOfAll es ≤ heightMax := by
    simp only [Expr.height] at hheight
    omega
  rw [wordOperand_free free]
  exact bind_eq_ok.mpr ⟨_, arguments_complete hreader h hes rest,
    bind_eq_ok.mpr ⟨_, build_eq_ok.mpr ⟨hheight, rfl⟩, rfl⟩⟩

theorem primary_reads (hreader : reader.Reads (Nested n .or) .or) :
    (primary reader).Reads (Derives n .operand) .operand where
  sound {tokens rest e} h := by
    cases tokens with
    | nil => cases h
    | cons token tokens =>
      obtain ⟨hle, used, rfl, hderives⟩ := operand_sound hreader h
      exact ⟨hle, token :: used, rfl, hderives⟩
  complete {used e} rest h hheight hstops := by
    cases h with
    | lower loose => exact absurd rfl loose
    | join joins => cases joins
    | front fronts => cases fronts
    | int => rfl
    | float => rfl
    | truth => rfl
    | falsehood => rfl
    | name free => exact (wordOperand_free free rest).trans (named_stop _ hstops)
    | @group m ts _ inner =>
      have hrun := hreader.complete (.rightParen :: rest) ⟨m, rfl, inner⟩ hheight
        (stops_of_not_extends (.inr rfl) _ _)
      rw [List.cons_append, List.append_assoc]
      exact bind_eq_ok.mpr ⟨_, hrun, rfl⟩
    | constantCall free => exact call_complete hreader free (.inl ⟨rfl, rfl⟩) hheight rest
    | @call m f phrases trailing free nonempty inner comma =>
      have hspells : SpellsArguments (m + 1) (spellArguments phrases ++ trailing) (phrases.map Phrase.expr) :=
        .inr ⟨phrases, trailing, nonempty, rfl, rfl, comma, fun argument h => ⟨m, rfl, inner argument h⟩⟩
      have hrun := call_complete hreader free hspells hheight rest
      simpa [primary, operand] using hrun

end Operand

/-! ## The ladder -/

section Ladder

variable {inner : Entry → Reader} {reader : Reader} {n : Nat}

/-- The level that an entry stands for. -/
def Entry.level : Entry → Level
  | .whole => .or
  | .negated => .not
  | .signed => .sign

theorem only_reads {symbol : Token} {op : BinaryOp} {ℓ : Level}
    (hjoins : ∀ {token make}, ℓ.Joins token make ↔ token = symbol ∧ make = Expr.binary op)
    (hreader : reader.Reads (Derives n ℓ.next) ℓ.next) :
    (level (only symbol op) reader).Reads (Derives n ℓ) ℓ := by
  refine chain_reads ⟨symbol, .binary op, hjoins.mpr ⟨rfl, rfl⟩⟩ ?_ hreader
  intro token make
  rw [hjoins, only]
  split <;> simp_all [eq_comm]

theorem connective_reads {word : String} {join : Expr → Expr → Expr} {ℓ : Level}
    (hjoins : ∀ {token make}, ℓ.Joins token make ↔ token = .word word ∧ make = join)
    (hreader : reader.Reads (Derives n ℓ.next) ℓ.next) :
    (connective word join reader).Reads (Derives n ℓ) ℓ := by
  refine chain_reads ⟨.word word, join, hjoins.mpr ⟨rfl, rfl⟩⟩ ?_ hreader
  intro token make
  rw [hjoins]
  split <;> simp_all [eq_comm]

theorem bits_reads (hsigned : (signed inner).Reads (Derives n .sign) .sign) :
    (bits inner).Reads (Derives n .bitOr) .bitOr := by
  have hproduct : (level productOp? (signed inner)).Reads (Derives n .product) .product := by
    refine chain_reads ⟨_, _, .mul⟩ (fun {token make} => ⟨fun h => ?_, fun h => ?_⟩) hsigned
    · cases token <;> cases h <;> constructor
    · cases h <;> rfl
  have hsum : (level sumOp? (level productOp? (signed inner))).Reads (Derives n .sum) .sum := by
    refine chain_reads ⟨_, _, .add⟩ (fun {token make} => ⟨fun h => ?_, fun h => ?_⟩) hproduct
    · cases token <;> cases h <;> constructor
    · cases h <;> rfl
  have hshift : (level shiftOp? (level sumOp? (level productOp? (signed inner)))).Reads
      (Derives n .shift) .shift := by
    refine chain_reads ⟨_, _, .shiftLeft⟩ (fun {token make} => ⟨fun h => ?_, fun h => ?_⟩) hsum
    · cases token <;> cases h <;> constructor
    · cases h <;> rfl
  refine only_reads ⟨fun h => ?_, ?_⟩ <| only_reads ⟨fun h => ?_, ?_⟩ <| only_reads ⟨fun h => ?_, ?_⟩ hshift
  · cases h
    exact ⟨rfl, rfl⟩
  · rintro ⟨rfl, rfl⟩
    exact .bitOr
  · cases h
    exact ⟨rfl, rfl⟩
  · rintro ⟨rfl, rfl⟩
    exact .bitXor
  · cases h
    exact ⟨rfl, rfl⟩
  · rintro ⟨rfl, rfl⟩
    exact .bitAnd

/-- Each entry of the ladder reads its level, if the entries nested in it do. -/
theorem ladder_reads (hinner : ∀ entry, (inner entry).Reads (Nested n entry.level) entry.level) (entry : Entry) :
    (ladder inner entry).Reads (Derives n entry.level) entry.level := by
  have hsigned : (signed inner).Reads (Derives n .sign) .sign := by
    refine prefixed_reads ⟨_, _, .neg⟩ (fun {token op} => ⟨fun h => ?_, fun h => ?_⟩) (hinner .signed) ?_
    · cases token <;> cases h <;> constructor
    · cases h <;> rfl
    · exact power_reads (primary_reads (hinner .whole)) (hinner .signed)
  have hnegated : (negated inner).Reads (Derives n .not) .not := by
    refine prefixed_reads ⟨_, _, .not⟩ (fun {token op} => ⟨fun h => ?_, fun h => ?_⟩) (hinner .negated) ?_
    · unfold negation? at h
      split at h
      · cases h
        exact .not
      · cases h
    · cases h
      rfl
    · exact comparison_reads (bits_reads hsigned)
  cases entry with
  | signed => exact hsigned
  | negated => exact hnegated
  | whole =>
    refine connective_reads ⟨fun h => ?_, ?_⟩ <| connective_reads ⟨fun h => ?_, ?_⟩ hnegated
    · cases h
      exact ⟨rfl, rfl⟩
    · rintro ⟨rfl, rfl⟩
      exact .or
    · cases h
      exact ⟨rfl, rfl⟩
    · rintro ⟨rfl, rfl⟩
      exact .and

/-- The ladder within a budget reads the derivations within it. -/
theorem within_reads (depth : Nat) (entry : Entry) :
    (within depth entry).Reads (Derives depth entry.level) entry.level := by
  -- the entries nested in the ladder of one budget are the ladder of the budget below it
  induction depth generalizing entry with
  | zero => exact ladder_reads (fun entry => refuse_reads _ entry.level) entry
  | succ depth ih =>
    refine ladder_reads (fun entry => ?_) entry
    have hread := ih entry
    refine ⟨fun h => ?_, fun rest h => ?_⟩
    · obtain ⟨hle, used, hused, hderives⟩ := hread.sound h
      exact ⟨hle, used, hused, depth, rfl, hderives⟩
    · obtain ⟨m, hm, hderives⟩ := h
      obtain rfl := Nat.succ.inj hm
      exact hread.complete rest hderives

end Ladder

/-- An expression is all there is when no token is left. -/
theorem finish_eq_ok {e found : Expr} {rest : List Token} :
    finish found rest = .ok e ↔ rest = [] ∧ found = e := by
  unfold finish
  split <;> simp

end Reader

/-! ## Whole lists of tokens -/

namespace Expr

theorem derives_of_ofTokens {tokens : List Token} {e : Expr} (h : ofTokens tokens = .ok e) :
    Grammar.Derives Reader.nestingMax .or tokens e ∧ e.height ≤ Reader.heightMax := by
  obtain ⟨⟨found, rest⟩, hrun, hfinish⟩ := Reader.bind_eq_ok.mp h
  obtain ⟨rfl, rfl⟩ := Reader.finish_eq_ok.mp hfinish
  obtain ⟨hheight, used, rfl, hderives⟩ := (Reader.within_reads Reader.nestingMax .whole).sound hrun
  rw [List.append_nil]
  exact ⟨hderives, hheight⟩

theorem ofTokens_of_derives {tokens : List Token} {e : Expr}
    (h : Grammar.Derives Reader.nestingMax .or tokens e) (hheight : e.height ≤ Reader.heightMax) :
    ofTokens tokens = .ok e := by
  have hrun := (Reader.within_reads Reader.nestingMax .whole).complete [] h hheight (Grammar.stops_nil _)
  rw [List.append_nil] at hrun
  exact Reader.bind_eq_ok.mpr ⟨_, hrun, Reader.finish_eq_ok.mpr ⟨rfl, rfl⟩⟩

/-- **What is read.** A list of tokens is read as a tree exactly if it derives that tree in the grammar, through
at most 100 nested positions on any way, and the tree is at most 1000 high. -/
theorem ofTokens_eq_ok_iff (tokens : List Token) (e : Expr) :
    ofTokens tokens = .ok e ↔ Grammar.Derives 100 .or tokens e ∧ e.height ≤ 1000 :=
  ⟨fun h => derives_of_ofTokens h, fun h => ofTokens_of_derives h.1 h.2⟩

/-! ## Whole texts -/

/-- The text spells the expression, with at most `n` nested positions on any way through the derivation. -/
def SpelledWithin (n : Nat) (text : List Char) (e : Expr) : Prop :=
  ∃ ts, Token.lex text = .ok ts ∧ Grammar.Derives n .or ts e

theorem read_eq_ok_iff {text : List Char} {e : Expr} :
    Expr.read text = .ok e ↔ SpelledWithin 100 text e ∧ e.height ≤ 1000 := by
  constructor
  · intro h
    obtain ⟨ts, hlex, htokens⟩ := Reader.bind_eq_ok.mp h
    obtain ⟨hderives, hheight⟩ := derives_of_ofTokens htokens
    exact ⟨⟨ts, hlex, hderives⟩, hheight⟩
  · rintro ⟨⟨ts, hlex, hderives⟩, hheight⟩
    exact Reader.bind_eq_ok.mpr ⟨ts, hlex, ofTokens_of_derives hderives hheight⟩

end Expr

end Interpolate
