import Interpolate.Proofs.Grammar

/-!
# The nodes of a tree in its tokens

A node of a tree leaves its mark on the tokens that spell the tree: a name is a word of its own, a call is a word
with a parenthesis after it, several arguments have a comma between them, and `^` is a token.

* **`Expr.induction`** — induction on trees, with an assumption about every operand and argument;
* **`Expr.nodes`** — the nodes of a tree;
* **`Grammar.Shows`** — the marks of a node;
* **`Derives.shows`** — every node of a derived tree leaves its marks;
* **`Derives.known`** — no token of a derivation is unknown.
-/

namespace Interpolate

namespace Expr

/-! ## Induction on trees -/

theorem height_le_heightOfLinks {link : Relation × Expr} {links : List (Relation × Expr)} (h : link ∈ links) :
    link.2.height ≤ heightOfLinks links := by
  induction links with
  | nil => cases h
  | cons first links ih =>
    rw [heightOfLinks]
    rcases List.mem_cons.mp h with rfl | h
    · exact Nat.le_max_left ..
    · exact Nat.le_trans (ih h) (Nat.le_max_right ..)

theorem height_le_heightOfAll {e : Expr} {es : List Expr} (h : e ∈ es) : e.height ≤ heightOfAll es := by
  induction es with
  | nil => cases h
  | cons first es ih =>
    rw [heightOfAll]
    rcases List.mem_cons.mp h with rfl | h
    · exact Nat.le_max_left ..
    · exact Nat.le_trans (ih h) (Nat.le_max_right ..)

/-- Induction on trees: what holds of a node if it holds of everything below it holds of all trees. -/
@[elab_as_elim, induction_eliminator]
theorem induction {motive : Expr → Prop} (literal : ∀ v, motive (.literal v)) (name : ∀ x, motive (.name x))
    (unary : ∀ op e, motive e → motive (.unary op e))
    (binary : ∀ op l r, motive l → motive r → motive (.binary op l r))
    (compare : ∀ first links, motive first → (∀ link ∈ links, motive link.2) → motive (.compare first links))
    (and : ∀ l r, motive l → motive r → motive (.and l r)) (or : ∀ l r, motive l → motive r → motive (.or l r))
    (call : ∀ f es, (∀ e ∈ es, motive e) → motive (.call f es)) (e : Expr) : motive e := by
  -- on the height, which every node adds one to
  induction hheight : e.height using Nat.strongRecOn generalizing e with
  | ind n ih =>
    subst hheight
    cases e with
    | literal v => exact literal v
    | name x => exact name x
    | unary op e => exact unary op e (ih _ (by simp [height]) e rfl)
    | binary op l r =>
      exact binary op l r (ih _ (by rw [height]; omega) l rfl) (ih _ (by rw [height]; omega) r rfl)
    | compare first links =>
      refine compare first links (ih _ (by rw [height]; omega) first rfl) fun link hlink => ?_
      have hle := height_le_heightOfLinks hlink
      exact ih _ (by rw [height]; omega) link.2 rfl
    | and l r => exact and l r (ih _ (by rw [height]; omega) l rfl) (ih _ (by rw [height]; omega) r rfl)
    | or l r => exact or l r (ih _ (by rw [height]; omega) l rfl) (ih _ (by rw [height]; omega) r rfl)
    | call f es =>
      refine call f es fun e he => ?_
      have hle := height_le_heightOfAll he
      exact ih _ (by rw [height]; omega) e rfl

/-! ## Nodes -/

mutual

/-- The nodes of a tree, the tree itself first. -/
def nodes : Expr → List Expr
  | .literal v => [.literal v]
  | .name x => [.name x]
  | .unary op operand => .unary op operand :: operand.nodes
  | .binary op left right => .binary op left right :: (left.nodes ++ right.nodes)
  | .compare first links => .compare first links :: (first.nodes ++ nodesOfLinks links)
  | .and left right => .and left right :: (left.nodes ++ right.nodes)
  | .or left right => .or left right :: (left.nodes ++ right.nodes)
  | .call f arguments => .call f arguments :: nodesOfAll arguments

/-- The nodes of the operands of a chain. -/
def nodesOfLinks : List (Relation × Expr) → List Expr
  | [] => []
  | (_, operand) :: links => operand.nodes ++ nodesOfLinks links

/-- The nodes of a list of trees. -/
def nodesOfAll : List Expr → List Expr
  | [] => []
  | e :: es => e.nodes ++ nodesOfAll es

end

theorem mem_nodesOfLinks {node : Expr} {links : List (Relation × Expr)} :
    node ∈ nodesOfLinks links ↔ ∃ link ∈ links, node ∈ link.2.nodes := by
  induction links with
  | nil => simp [nodesOfLinks]
  | cons link links ih => simp [nodesOfLinks, ih]

theorem mem_nodesOfAll {node : Expr} {es : List Expr} : node ∈ nodesOfAll es ↔ ∃ e ∈ es, node ∈ e.nodes := by
  induction es with
  | nil => simp [nodesOfAll]
  | cons e es ih => simp [nodesOfAll, ih]

/-! What holds of all nodes of a tree holds of its root and of all nodes below it. -/

section Forall

variable {P : Expr → Prop}

theorem forall_nodes_unary {op : UnaryOp} {e : Expr} :
    (∀ node ∈ (Expr.unary op e).nodes, P node) ↔ P (.unary op e) ∧ ∀ node ∈ e.nodes, P node := by
  rw [nodes, List.forall_mem_cons]

theorem forall_nodes_binary {op : BinaryOp} {l r : Expr} :
    (∀ node ∈ (Expr.binary op l r).nodes, P node) ↔
      P (.binary op l r) ∧ (∀ node ∈ l.nodes, P node) ∧ ∀ node ∈ r.nodes, P node := by
  rw [nodes, List.forall_mem_cons, List.forall_mem_append]

theorem forall_nodes_and {l r : Expr} :
    (∀ node ∈ (Expr.and l r).nodes, P node) ↔
      P (.and l r) ∧ (∀ node ∈ l.nodes, P node) ∧ ∀ node ∈ r.nodes, P node := by
  rw [nodes, List.forall_mem_cons, List.forall_mem_append]

theorem forall_nodes_or {l r : Expr} :
    (∀ node ∈ (Expr.or l r).nodes, P node) ↔
      P (.or l r) ∧ (∀ node ∈ l.nodes, P node) ∧ ∀ node ∈ r.nodes, P node := by
  rw [nodes, List.forall_mem_cons, List.forall_mem_append]

theorem forall_nodes_compare {first : Expr} {links : List (Relation × Expr)} :
    (∀ node ∈ (Expr.compare first links).nodes, P node) ↔
      P (.compare first links) ∧ (∀ node ∈ first.nodes, P node) ∧ ∀ link ∈ links, ∀ node ∈ link.2.nodes, P node := by
  rw [nodes, List.forall_mem_cons, List.forall_mem_append]
  simp only [mem_nodesOfLinks, forall_exists_index, and_imp]
  exact and_congr_right fun _ => and_congr_right fun _ => forall_comm.trans (forall_congr' fun link => forall_comm)

theorem forall_nodes_call {f : String} {es : List Expr} :
    (∀ node ∈ (Expr.call f es).nodes, P node) ↔ P (.call f es) ∧ ∀ e ∈ es, ∀ node ∈ e.nodes, P node := by
  rw [nodes, List.forall_mem_cons]
  simp only [mem_nodesOfAll, forall_exists_index, and_imp]
  exact and_congr_right fun _ => forall_comm.trans (forall_congr' fun e => forall_comm)

end Forall

end Expr

namespace Grammar

/-! ## The marks of a node -/

/-- The tokens show a node: a name as a word that no parenthesis follows, a call as a word that one follows, and
with a comma if it has several arguments, and `^` as the token. Other nodes show nothing here. -/
def Shows (ts : List Token) : Expr → Prop
  | .name x => x ∉ Reader.keywords ∧
      ∃ before after, ts = before ++ .word x :: after ∧ after.head? ≠ some .leftParen
  | .call f es => f ∉ Reader.keywords ∧ (∃ before after, ts = before ++ .word f :: .leftParen :: after) ∧
      (1 < es.length → .comma ∈ ts)
  | .binary .bitXor _ _ => .caret ∈ ts
  | _ => True

/-- What tokens show is shown by every list they are a part of, if no parenthesis follows them there. -/
theorem Shows.extend {ts : List Token} {node : Expr} (h : Shows ts node) (before after : List Token)
    (hafter : after.head? ≠ some .leftParen) : Shows (before ++ ts ++ after) node := by
  cases node with
  | name x =>
    obtain ⟨free, front, back, rfl, hback⟩ := h
    refine ⟨free, before ++ front, back ++ after, by simp, ?_⟩
    cases back with
    | nil => exact hafter
    | cons token back => exact hback
  | call f es =>
    obtain ⟨free, ⟨front, back, rfl⟩, hcomma⟩ := h
    refine ⟨free, ⟨before ++ front, back ++ after, by simp⟩, fun hlt => ?_⟩
    exact List.mem_append_left _ (List.mem_append_right _ (hcomma hlt))
  | binary op left right =>
    cases op with
    | bitXor => exact List.mem_append_left _ (List.mem_append_right _ h)
    | add | sub | mul | div | floorDiv | rem | pow | bitAnd | bitOr | shiftLeft | shiftRight => trivial
  | literal | unary | compare | and | or => trivial

theorem Shows.prepend {ts : List Token} {node : Expr} (h : Shows ts node) (before : List Token) :
    Shows (before ++ ts) node := by
  simpa using h.extend before [] (by simp)

/-! ## The parts of a derivation -/

theorem Level.Joins.mem_nodes {ℓ : Level} {token : Token} {make : Expr → Expr → Expr} (h : ℓ.Joins token make)
    {l r node : Expr} (hnode : node ∈ (make l r).nodes) :
    node = make l r ∨ node ∈ l.nodes ∨ node ∈ r.nodes := by
  cases h <;> simpa [Expr.nodes] using hnode

/-- An operator shows itself where it stands. -/
theorem Level.Joins.shows {ℓ : Level} {token : Token} {make : Expr → Expr → Expr} (h : ℓ.Joins token make)
    (l r : Expr) {ts : List Token} (hts : token ∈ ts) : Shows ts (make l r) := by
  cases h with
  | bitXor => exact hts
  | or | and | bitOr | bitAnd | shiftLeft | shiftRight | add | sub | mul | div | floorDiv | rem => trivial

theorem Level.Joins.ne_leftParen {ℓ : Level} {token : Token} {make : Expr → Expr → Expr}
    (h : ℓ.Joins token make) : token ≠ .leftParen := by
  rintro rfl
  cases h

/-- The operand of a link is a part of the links, and no parenthesis follows it. -/
theorem spellLinks_eq {links : List (Relation × Phrase)} {link : Relation × Phrase} (h : link ∈ links) :
    ∃ before after, spellLinks links = before ++ link.2.tokens ++ after ∧ after.head? ≠ some .leftParen := by
  induction links with
  | nil => cases h
  | cons first links ih =>
    obtain ⟨r, operand⟩ := first
    rcases List.mem_cons.mp h with rfl | h
    · refine ⟨[.relation r], spellLinks links, by simp [spellLinks], ?_⟩
      cases links with
      | nil => simp [spellLinks]
      | cons next links => simp [spellLinks]
    · obtain ⟨before, after, heq, hafter⟩ := ih h
      exact ⟨.relation r :: (operand.tokens ++ before), after, by simp [spellLinks, heq], hafter⟩

/-- An argument is a part of the arguments, and no parenthesis follows it. -/
theorem spellArguments_eq {arguments : List Phrase} {argument : Phrase} (h : argument ∈ arguments) :
    ∃ before after, spellArguments arguments = before ++ argument.tokens ++ after ∧
      after.head? ≠ some .leftParen := by
  induction arguments with
  | nil => cases h
  | cons first more ih =>
    cases more with
    | nil =>
      obtain rfl := List.mem_singleton.mp h
      exact ⟨[], [], by simp [spellArguments], by simp⟩
    | cons next more =>
      rcases List.mem_cons.mp h with rfl | h
      · exact ⟨[], .comma :: spellArguments (next :: more), by simp [spellArguments], by simp⟩
      · obtain ⟨before, after, heq, hafter⟩ := ih h
        exact ⟨first.tokens ++ .comma :: before, after, by simp [spellArguments, heq], hafter⟩

theorem comma_mem_spellArguments (arguments : List Phrase) (h : 1 < arguments.length) :
    .comma ∈ spellArguments arguments := by
  cases arguments with
  | nil => simp at h
  | cons first more =>
    cases more with
    | nil => simp at h
    | cons next more => simp [spellArguments]

/-! ## Every node -/

/-- Every node of a derived tree leaves its marks on the tokens. -/
theorem Derives.shows {n : Nat} {ℓ : Level} {ts : List Token} {e : Expr} (h : Derives n ℓ ts e) :
    ∀ node ∈ e.nodes, Shows ts node := by
  induction h with
  | lower loose inner ih => exact ih
  | @join n ℓ token make ts us l r joins left right ihleft ihright =>
    intro node hnode
    rcases joins.mem_nodes hnode with rfl | hnode | hnode
    · exact joins.shows l r (by simp)
    · -- an operator follows the left side, which is therefore no call that it was not before
      exact (ihleft node hnode).extend [] (token :: us) fun h => joins.ne_leftParen (Option.some.inj h)
    · rw [List.append_cons]
      exact (ihright node hnode).prepend (ts ++ [token])
  | @front n ℓ token op ts e fronts inner ih =>
    intro node hnode
    rcases List.mem_cons.mp hnode with rfl | hnode
    · trivial
    · exact (ih node hnode).prepend [token]
  | @comparison n ts first links nonempty left right ihleft ihright =>
    intro node hnode
    rcases List.mem_cons.mp hnode with rfl | hnode
    · trivial
    rcases List.mem_append.mp hnode with hnode | hnode
    · refine (ihleft node hnode).extend [] (spellLinks links) ?_
      cases links with
      | nil => simp [spellLinks]
      | cons link links => simp [spellLinks]
    · obtain ⟨_, hlink, hnode⟩ := Expr.mem_nodesOfLinks.mp hnode
      obtain ⟨link, hmem, rfl⟩ := List.mem_map.mp hlink
      obtain ⟨before, after, heq, hafter⟩ := spellLinks_eq hmem
      rw [heq]
      exact ((ihright link hmem node hnode).extend before after hafter).prepend ts
  | @power n ts us base exponent left right ihleft ihright =>
    intro node hnode
    rcases List.mem_cons.mp hnode with rfl | hnode
    · trivial
    rcases List.mem_append.mp hnode with hnode | hnode
    · exact (ihleft node hnode).extend [] (.starStar :: us) (by simp)
    · rw [List.append_cons]
      exact (ihright node hnode).prepend (ts ++ [.starStar])
  | int | float | truth | falsehood =>
    intro node hnode
    obtain rfl := List.mem_singleton.mp hnode
    trivial
  | name free =>
    intro node hnode
    obtain rfl := List.mem_singleton.mp hnode
    exact ⟨free, [], [], rfl, by simp⟩
  | group inner ih =>
    intro node hnode
    exact (ih node hnode).extend [.leftParen] [.rightParen] (by simp)
  | constantCall free =>
    intro node hnode
    obtain rfl := List.mem_singleton.mp hnode
    exact ⟨free, ⟨[], [.rightParen], rfl⟩, by simp⟩
  | @call n f arguments trailing free nonempty inner comma ih =>
    intro node hnode
    rcases List.mem_cons.mp hnode with rfl | hnode
    · refine ⟨free, ⟨[], _, rfl⟩, fun hlt => ?_⟩
      have hcomma := comma_mem_spellArguments arguments (by simpa using hlt)
      simp [hcomma]
    · -- a comma or the closing parenthesis follows an argument
      obtain ⟨_, hargument, hnode⟩ := Expr.mem_nodesOfAll.mp hnode
      obtain ⟨argument, hmem, rfl⟩ := List.mem_map.mp hargument
      obtain ⟨before, after, heq, hafter⟩ := spellArguments_eq hmem
      have hrest : (after ++ trailing ++ [Token.rightParen]).head? ≠ some .leftParen := by
        cases after with
        | nil => rcases comma with rfl | rfl <;> simp
        | cons token after => exact hafter
      simpa [heq] using (ih argument hmem node hnode).extend (.word f :: .leftParen :: before) _ hrest

/-! ## Every token -/

theorem mem_spellLinks {token : Token} {links : List (Relation × Phrase)} (h : token ∈ spellLinks links) :
    (∃ r, token = .relation r) ∨ ∃ link ∈ links, token ∈ link.2.tokens := by
  induction links with
  | nil => cases h
  | cons link links ih =>
    rcases List.mem_cons.mp h with rfl | h
    · exact .inl ⟨link.1, rfl⟩
    rcases List.mem_append.mp h with h | h
    · exact .inr ⟨link, List.mem_cons_self .., h⟩
    · rcases ih h with hrelation | ⟨link', hmem, htoken⟩
      · exact .inl hrelation
      · exact .inr ⟨link', List.mem_cons_of_mem _ hmem, htoken⟩

theorem mem_spellArguments {token : Token} {arguments : List Phrase} (h : token ∈ spellArguments arguments) :
    token = .comma ∨ ∃ argument ∈ arguments, token ∈ argument.tokens := by
  induction arguments with
  | nil => cases h
  | cons argument more ih =>
    cases more with
    | nil => exact .inr ⟨argument, List.mem_cons_self .., h⟩
    | cons next more =>
      rcases List.mem_append.mp h with h | h
      · exact .inr ⟨argument, List.mem_cons_self .., h⟩
      rcases List.mem_cons.mp h with rfl | h
      · exact .inl rfl
      · rcases ih h with hcomma | ⟨argument', hmem, htoken⟩
        · exact .inl hcomma
        · exact .inr ⟨argument', List.mem_cons_of_mem _ hmem, htoken⟩

/-- No token of a derivation is unknown. -/
theorem Derives.known {n : Nat} {ℓ : Level} {ts : List Token} {e : Expr} (h : Derives n ℓ ts e) (c : Char) :
    .unknown c ∉ ts := by
  induction h with
  | lower loose inner ih => exact ih
  | @join n ℓ token make ts us l r joins left right ihleft ihright =>
    have hne : .unknown c ≠ token := by
      rintro rfl
      cases joins
    simp [ihleft, ihright, hne]
  | @front n ℓ token op ts e fronts inner ih =>
    have hne : .unknown c ≠ token := by
      rintro rfl
      cases fronts
    simp [ih, hne]
  | @comparison n ts first links nonempty left right ihleft ihright =>
    intro h
    rcases List.mem_append.mp h with h | h
    · exact ihleft h
    · rcases mem_spellLinks h with ⟨r, hr⟩ | ⟨link, hmem, htoken⟩
      · cases hr
      · exact ihright link hmem htoken
  | power left right ihleft ihright => simp [ihleft, ihright]
  | int | float | truth | falsehood | name | constantCall => simp
  | group inner ih => simp [ih]
  | @call n f arguments trailing free nonempty inner comma ih =>
    have hinside : .unknown c ∉ spellArguments arguments := by
      intro h
      rcases mem_spellArguments h with hcomma | ⟨argument, hmem, htoken⟩
      · cases hcomma
      · exact ih argument hmem htoken
    rcases comma with rfl | rfl <;> simp [hinside]

end Grammar

end Interpolate
