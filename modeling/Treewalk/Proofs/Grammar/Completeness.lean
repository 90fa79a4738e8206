import Treewalk.Proofs.Grammar.Yields

/-!
# Every derivation is read

A derivation that gives each `else` to the nearest open `if` is what the
rules read: in front of a token that cannot go on with it, its rule uses
up its tokens, yields its tree, and notes its misplaced signs
(`Expression.read`, `Statement.read`, `Declarations.parse_append`).

What can go on with a derivation is the only thing to be careful about.
Behind an operand it is an operator as tight as the operand's own level or
tighter, behind a whole expression also `=`, and behind a statement that
ends in an open `if` it is `else`.
-/

namespace Treewalk.Derivation

@[simp] theorem complaints_append (first second : List Token) :
    complaints (first ++ second) = complaints first ++ complaints second :=
  List.map_append

@[simp] theorem complaints_nil : complaints [] = [] := rfl

/-! ## What can go on with an expression -/

/-- A level and the tighter ones. -/
def tightLevels : Option Level → List Level
  | none => []
  | some .product => [.product]
  | some .sum => [.sum, .product]
  | some .comparison => [.comparison, .sum, .product]
  | some .equality => [.equality, .comparison, .sum, .product]
  | some .conjunction => [.conjunction, .equality, .comparison, .sum, .product]
  | some .disjunction => [.disjunction, .conjunction, .equality, .comparison, .sum, .product]

/-- The operators of a level and of the tighter ones. -/
def tightOperators (level? : Option Level) : List Kind :=
  (tightLevels level?).flatMap Level.operators

theorem mem_tightOperators {level : Level} {kind : Kind} :
    kind ∈ tightOperators (some level) ↔
      kind ∈ level.operators ∨ kind ∈ tightOperators level.tighter? := by
  rw [← List.mem_append]
  cases level <;> rfl

/-- An operator of a level is of no tighter one. -/
theorem not_mem_tighter {level : Level} {kind : Kind} (h : kind ∈ level.operators) :
    kind ∉ tightOperators level.tighter? := by
  revert kind
  cases level <;> decide

/-- The kinds that go on with an expression. -/
def continuing : List Kind :=
  .equal :: tightOperators (some .disjunction)

/-- Behind the first operand of a level stands an operator of that level,
or what stands behind the whole chain. -/
theorem Links.exists_head {level : Level} (links : Links level) {t : Token}
    (ht : t.kind ∉ tightOperators (some level)) (rest : List Token) :
    ∃ u us, links.tokens ++ t :: rest = u :: us ∧ u.kind ∉ tightOperators level.tighter? := by
  cases links with
  | none => exact ⟨t, rest, rfl, fun h => ht (mem_tightOperators.mpr (.inr h))⟩
  | link operator operand links =>
    exact ⟨operator.token, operand.tokens ++ links.tokens ++ t :: rest, rfl,
      not_mem_tighter operator.allowed⟩

/-! ## Expressions -/

mutual

/-- An expression is read in front of a token that cannot go on with it. -/
theorem Expression.read : (e : Expression) → (t : Token) → (rest : List Token) →
    t.kind ∉ continuing →
    (expression (e.tokens ++ t :: rest)).Yields e.tree (t :: rest) (complaints e.misplaced)
  | .plain chain, t, rest, ht => by
    have hc := chain.read t rest fun h => ht (List.mem_cons_of_mem _ h)
    refine expression_yields_iff.mpr ⟨chain.tree, t, rest, _, hc, .inl ⟨?_, rfl, rfl, rfl⟩⟩
    rintro hk
    exact ht (hk ▸ List.mem_cons_self)
  | .assignment target equals value, t, rest, ht => by
    have hEquals : equals.token.kind = .equal := List.mem_singleton.mp equals.allowed
    have hc := target.read equals.token (value.tokens ++ t :: rest) (by rw [hEquals]; decide)
    have hv := value.read t rest ht
    have hTokens : (Expression.assignment target equals value).tokens ++ t :: rest =
        target.tokens ++ equals.token :: (value.tokens ++ t :: rest) := by
      simp [Expression.tokens]
    rw [hTokens]
    refine expression_yields_iff.mpr
      ⟨target.tree, equals.token, _, _, hc, .inr ⟨hEquals, value.tree, _, hv, rfl, ?_⟩⟩
    simp [Expression.misplaced]

theorem Chain.read : {level? : Option Level} → (c : Chain level?) → (t : Token) →
    (rest : List Token) → t.kind ∉ tightOperators level? →
    (chain level? (c.tokens ++ t :: rest)).Yields c.tree (t :: rest) (complaints c.misplaced)
  | _, .unary inner, t, rest, _ => chain_none_yields_iff.mpr (inner.read (t :: rest))
  | some level, .level first links, t, rest, ht => by
    obtain ⟨u, us, hHead, hu⟩ := links.exists_head ht rest
    have hFirst := first.read u us hu
    rw [← hHead] at hFirst
    have hTokens : (Chain.level first links).tokens ++ t :: rest =
        first.tokens ++ (links.tokens ++ t :: rest) := by
      simp [Chain.tokens]
    rw [hTokens]
    refine chain_some_yields_iff.mpr ⟨first.tree, _, _, complaints links.misplaced, hFirst,
      ⟨hFirst.left, links.read first.tree t rest ht hFirst.left⟩, ?_⟩
    simp [Chain.misplaced]

theorem Links.read {origin : List Token} : {level : Level} → (links : Links level) →
    (left : Expr) → (t : Token) → (rest : List Token) → t.kind ∉ tightOperators (some level) →
    (used : Left origin (links.tokens ++ t :: rest)) →
    (operands level left (links.tokens ++ t :: rest) used).Yields (links.tree left) (t :: rest)
      (complaints links.misplaced)
  | _, .none, left, t, rest, ht, used =>
    operands_cons_yields_iff.mpr (.inl ⟨fun h => ht (mem_tightOperators.mpr (.inl h)), rfl, rfl, rfl⟩)
  | level, .link operator operand links, left, t, rest, ht, used => by
    obtain ⟨u, us, hHead, hu⟩ := links.exists_head ht rest
    have hOperand := operand.read u us hu
    rw [← hHead, ← List.append_assoc] at hOperand
    have hLater : Left origin (links.tokens ++ t :: rest) := used.tail.trans hOperand.left
    refine operands_cons_yields_iff.mpr (.inr ⟨operator.allowed, operand.tree, _, _, _, hOperand,
      ⟨hLater, links.read _ t rest ht hLater⟩, ?_⟩)
    simp [Links.misplaced]

theorem Unary.read : (u : Unary) → (rest : List Token) →
    (unary (u.tokens ++ rest)).Yields u.tree rest (complaints u.misplaced)
  | .sign operator operand, rest =>
    unary_cons_yields_iff.mpr (.inr (.inl
      ⟨operator.allowed, operand.tree, operand.read rest, rfl⟩))
  | .primary inner, rest => inner.read rest

theorem Primary.read : (p : Primary) → (rest : List Token) →
    (unary (p.tokens ++ rest)).Yields p.tree rest (complaints p.misplaced)
  | .atom leaf, rest => unary_cons_yields_iff.mpr (.inl ⟨leaf.allowed, rfl, rfl, rfl⟩)
  | .group opening inner closing, rest => by
    have hOpening : opening.token.kind = .leftParen := List.mem_singleton.mp opening.allowed
    have hClosing : closing.token.kind = .rightParen := List.mem_singleton.mp closing.allowed
    have hInner := inner.read closing.token rest (by rw [hClosing]; decide)
    have hTokens : (Primary.group opening inner closing).tokens ++ rest =
        opening.token :: (inner.tokens ++ closing.token :: rest) := by
      simp [Primary.tokens]
    rw [hTokens]
    exact unary_cons_yields_iff.mpr (.inr (.inr
      ⟨hOpening, inner.tree, closing.token, hInner, hClosing, rfl⟩))

end

/-! ## How a derivation starts -/

/-- The kinds an expression starts with. -/
def expressionStarts : List Kind :=
  .bang :: .minus :: .leftParen :: atoms

mutual

theorem Expression.exists_head : (e : Expression) →
    ∃ t rest, e.tokens = t :: rest ∧ t.kind ∈ expressionStarts
  | .plain chain => chain.exists_head
  | .assignment target equals value => by
    obtain ⟨t, rest, hTokens, ht⟩ := target.exists_head
    exact ⟨t, rest ++ equals.token :: value.tokens, by simp [Expression.tokens, hTokens], ht⟩

theorem Chain.exists_head : {level? : Option Level} → (c : Chain level?) →
    ∃ t rest, c.tokens = t :: rest ∧ t.kind ∈ expressionStarts
  | _, .unary inner => inner.exists_head
  | _, .level first links => by
    obtain ⟨t, rest, hTokens, ht⟩ := first.exists_head
    exact ⟨t, rest ++ links.tokens, by simp [Chain.tokens, hTokens], ht⟩

theorem Unary.exists_head : (u : Unary) →
    ∃ t rest, u.tokens = t :: rest ∧ t.kind ∈ expressionStarts
  | .sign operator operand => by
    refine ⟨operator.token, operand.tokens, rfl, ?_⟩
    have h := operator.allowed
    simp only [List.mem_cons, List.not_mem_nil, or_false] at h
    rcases h with h | h <;> rw [h] <;> decide
  | .primary inner => inner.exists_head

theorem Primary.exists_head : (p : Primary) →
    ∃ t rest, p.tokens = t :: rest ∧ t.kind ∈ expressionStarts
  | .atom leaf =>
    ⟨leaf.token, [], rfl, List.mem_cons_of_mem _ (List.mem_cons_of_mem _
      (List.mem_cons_of_mem _ leaf.allowed))⟩
  | .group opening inner closing => by
    refine ⟨opening.token, inner.tokens ++ [closing.token], rfl, ?_⟩
    rw [List.mem_singleton.mp opening.allowed]
    decide

end

/-! ## Statements that hold no statement -/

@[simp] theorem misplacedIn_nil : misplacedIn [] = [] := rfl

@[simp] theorem misplacedIn_cons (e : Expression) (more : List Expression) :
    misplacedIn (e :: more) = e.misplaced ++ misplacedIn more :=
  List.flatMap_cons

@[simp] theorem misplacedIn_append (first second : List Expression) :
    misplacedIn (first ++ second) = misplacedIn first ++ misplacedIn second :=
  List.flatMap_append

theorem Leaf.kind_eq {kind : Kind} (mark : Mark kind) : mark.token.kind = kind :=
  List.mem_singleton.mp mark.allowed

theorem Variable.read (v : Variable) (rest : List Token) :
    (variableDeclaration
      (v.name.token :: (valueTokens v.initializer ++ v.semicolon.token :: rest))).Yields
      v.tree rest (complaints (misplacedIn v.expressions)) := by
  obtain ⟨word, name, _ | ⟨equals, value⟩, semicolon⟩ := v
  · exact variableDeclaration_yields_iff.mpr
      ⟨name.token, semicolon.token, rest, rfl, name.kind_eq, .inl ⟨semicolon.kind_eq, rfl, rfl, rfl⟩⟩
  · have hValue := value.read semicolon.token rest (by rw [semicolon.kind_eq]; decide)
    refine variableDeclaration_yields_iff.mpr ⟨name.token, equals.token, _, rfl, name.kind_eq,
      .inr ⟨equals.kind_eq, value.tree, semicolon.token, ?_, semicolon.kind_eq, rfl⟩⟩
    simpa [Variable.expressions] using hValue

theorem Condition.read (c : Condition) (first last : Reason) (rest : List Token) :
    (condition first last (c.tokens ++ rest)).Yields c.test.tree rest
      (complaints c.test.misplaced) := by
  have hTest := c.test.read c.closing.token rest (by rw [c.closing.kind_eq]; decide)
  refine condition_yields_iff.mpr
    ⟨c.opening.token, _, c.closing.token, ?_, c.opening.kind_eq, hTest, c.closing.kind_eq⟩
  simp [Condition.tokens]

/-- An expression that may be left out before a mark that no expression
starts with or goes on with. -/
theorem Expression.read_or (e? : Option Expression) {kind : Kind} (mark : Mark kind)
    (reason : Reason) (rest : List Token) (hStart : kind ∉ expressionStarts)
    (hNext : kind ∉ continuing) :
    (expressionOr kind reason (tokens? e? ++ mark.token :: rest)).Yields (e?.map Expression.tree)
      rest (complaints (misplacedIn e?.toList)) := by
  cases e? with
  | none =>
    exact expressionOr_yields_iff.mpr ⟨mark.token, rest, rfl, .inl ⟨mark.kind_eq, rfl, rfl, rfl⟩⟩
  | some e =>
    obtain ⟨t, more, hTokens, ht⟩ := e.exists_head
    have hRead := e.read mark.token rest (by rwa [mark.kind_eq])
    refine expressionOr_yields_iff.mpr ⟨t, more ++ mark.token :: rest, ?_,
      .inr ⟨fun hk => hStart (hk ▸ ht), e.tree, mark.token, ?_, mark.kind_eq, rfl⟩⟩
    · simp [tokens?, hTokens]
    · simpa [tokens?] using hRead

theorem Initializer.read (i : Initializer) (rest : List Token) :
    (forInitializer (i.tokens ++ rest)).Yields i.tree? rest
      (complaints (misplacedIn i.expressions)) := by
  match i with
  | .empty semicolon =>
    exact forInitializer_cons_yields_iff.mpr (.inl ⟨semicolon.kind_eq, rfl, rfl, rfl⟩)
  | .variable v =>
    have hTokens : (Initializer.variable v).tokens ++ rest = v.word.token :: v.name.token ::
        (Variable.valueTokens v.initializer ++ v.semicolon.token :: rest) := by
      simp [Initializer.tokens, Variable.tokens]
    rw [hTokens]
    exact forInitializer_cons_yields_iff.mpr
      (.inr (.inl ⟨v.word.kind_eq, v.tree, v.read rest, rfl⟩))
  | .expression inner semicolon =>
    obtain ⟨t, more, hTokens, ht⟩ := inner.exists_head
    have hRead := inner.read semicolon.token rest (by rw [semicolon.kind_eq]; decide)
    have hStatement : (expressionStatement (inner.tokens ++ semicolon.token :: rest)).Yields
        (.expression inner.tree) rest (complaints inner.misplaced) :=
      expressionStatement_yields_iff.mpr
        ⟨inner.tree, semicolon.token, hRead, semicolon.kind_eq, rfl⟩
    have hWord : t.kind ∉ [Kind.semicolon, .varWord] := by
      revert ht
      generalize t.kind = kind
      cases kind <;> decide
    rw [hTokens] at hStatement
    have hAll : (Initializer.expression inner semicolon).tokens ++ rest =
        t :: (more ++ semicolon.token :: rest) := by
      simp [Initializer.tokens, hTokens]
    rw [hAll]
    refine forInitializer_cons_yields_iff.mpr (.inr (.inr ⟨hWord, _, ?_, rfl⟩))
    simpa [Initializer.expressions] using hStatement

/-- The clauses of a `for`, each as its tree. -/
def Header.clauses (h : Header) : Clauses where
  initializer := h.initializer.tree?
  condition := h.condition.map Expression.tree
  increment := h.increment.map Expression.tree

theorem Header.tree_eq_toLoop (h : Header) (body : Stmt) : h.tree body = h.clauses.toLoop body := by
  obtain ⟨opening, initializer, _ | test, semicolon, _ | increment, closing⟩ := h <;>
    cases initializer <;> rfl

theorem Header.read (h : Header) (rest : List Token) :
    (forClauses (h.tokens ++ rest)).Yields h.clauses rest
      (complaints (misplacedIn h.expressions)) := by
  have hIncrement := Expression.read_or h.increment h.closing .parenAfterClauses rest
    (by decide) (by decide)
  have hTest := Expression.read_or h.condition h.semicolon .semicolonAfterCondition
    (Expression.tokens? h.increment ++ h.closing.token :: rest) (by decide) (by decide)
  have hFirst := h.initializer.read (Expression.tokens? h.condition ++
    h.semicolon.token :: (Expression.tokens? h.increment ++ h.closing.token :: rest))
  refine forClauses_yields_iff.mpr ⟨h.opening.token, _, _, _, _, _, _, ?_, h.opening.kind_eq,
    hFirst, hTest, hIncrement, ?_⟩
  · simp [Header.tokens]
  · simp [Header.expressions]

/-! ## Statements -/

/-- The kinds a statement starts with. -/
def statementStarts : List Kind :=
  statementWords ++ expressionStarts

theorem Statement.exists_head (s : Statement) :
    ∃ t rest, s.tokens = t :: rest ∧ t.kind ∈ statementStarts := by
  cases s with
  | expression inner semicolon =>
    obtain ⟨t, rest, hTokens, ht⟩ := inner.exists_head
    exact ⟨t, rest ++ [semicolon.token], by simp [Statement.tokens, hTokens],
      List.mem_append_right _ ht⟩
  | print word | block word | branch word | branchElse word | loop word | count word =>
    exact ⟨word.token, _, rfl, by rw [word.kind_eq]; decide⟩

/-- A declaration starts with a kind that ends no row of declarations and
goes on with no statement. -/
theorem Declaration.exists_head (d : Declaration) :
    ∃ t rest, d.tokens = t :: rest ∧ t.kind ∉ [Kind.elseWord, .rightBrace, .eof] := by
  rcases d with inner | inner
  · exact ⟨inner.word.token, _, rfl, by rw [inner.word.kind_eq]; decide⟩
  · obtain ⟨t, rest, hTokens, ht⟩ := inner.exists_head
    refine ⟨t, rest, hTokens, ?_⟩
    revert ht
    generalize t.kind = kind
    cases kind <;> decide

/-- Behind a declaration no `else` stands, unless the row ends in front of
one. -/
theorem Declarations.exists_head (ds : Declarations) {t : Token} (ht : t.kind ≠ .elseWord)
    (rest : List Token) :
    ∃ u us, ds.tokens ++ t :: rest = u :: us ∧ u.kind ≠ .elseWord := by
  cases ds with
  | nil => exact ⟨t, rest, rfl, ht⟩
  | cons first others =>
    obtain ⟨u, us, hTokens, hu⟩ := first.exists_head
    refine ⟨u, us ++ others.tokens ++ t :: rest, by simp [Declarations.tokens, hTokens], ?_⟩
    intro hk
    exact hu (by rw [hk]; decide)

mutual

/-- A statement is read in front of a token, which is no `else` where the
statement ends in an open `if`. -/
theorem Statement.read : (s : Statement) → (t : Token) → (rest : List Token) → s.NearestElse →
    (s.endsOpen = true → t.kind ≠ .elseWord) →
    (statement (s.tokens ++ t :: rest)).Yields s.tree (t :: rest)
      (complaints (misplacedIn s.expressions))
  | .expression inner semicolon, t, rest, _, _ => by
    obtain ⟨u, us, hTokens, hu⟩ := inner.exists_head
    have hRead := inner.read semicolon.token (t :: rest) (by rw [semicolon.kind_eq]; decide)
    have hWord : u.kind ∉ statementWords := by
      revert hu
      generalize u.kind = kind
      cases kind <;> decide
    have hAll : (Statement.expression inner semicolon).tokens ++ t :: rest =
        u :: (us ++ semicolon.token :: t :: rest) := by
      simp [Statement.tokens, hTokens]
    rw [hTokens] at hRead
    rw [hAll]
    refine (statement_expression_yields_iff hWord).mpr (expressionStatement_yields_iff.mpr
      ⟨inner.tree, semicolon.token, ?_, semicolon.kind_eq, rfl⟩)
    simpa [Statement.expressions] using hRead
  | .print word inner semicolon, t, rest, _, _ => by
    have hRead := inner.read semicolon.token (t :: rest) (by rw [semicolon.kind_eq]; decide)
    have hAll : (Statement.print word inner semicolon).tokens ++ t :: rest =
        word.token :: (inner.tokens ++ semicolon.token :: t :: rest) := by
      simp [Statement.tokens]
    rw [hAll]
    refine (statement_print_yields_iff word.kind_eq).mpr
      ⟨inner.tree, semicolon.token, ?_, semicolon.kind_eq, rfl⟩
    simpa [Statement.expressions] using hRead
  | .block opening body closing, t, rest, hNear, _ => by
    have hBody := body.read closing (t :: rest) hNear
    have hAll : (Statement.block opening body closing).tokens ++ t :: rest =
        opening.token :: (body.tokens ++ closing.token :: t :: rest) := by
      simp [Statement.tokens]
    rw [hAll]
    exact (statement_block_yields_iff opening.kind_eq).mpr ⟨body.trees, hBody, rfl⟩
  | .branch word condition consequence, t, rest, hNear, hOpen => by
    have hTest := condition.read .parenAfterIf .parenAfterIfCondition
      (consequence.tokens ++ t :: rest)
    have hElse : t.kind ≠ .elseWord := hOpen rfl
    have hThen := consequence.read t rest hNear fun _ => hElse
    have hAll : (Statement.branch word condition consequence).tokens ++ t :: rest =
        word.token :: (condition.tokens ++ (consequence.tokens ++ t :: rest)) := by
      simp [Statement.tokens]
    rw [hAll]
    refine (statement_if_yields_iff word.kind_eq).mpr ⟨_, _, _, _, hTest,
      branches_yields_iff.mpr ⟨_, t, rest, _, hThen, .inl ⟨hElse, rfl, rfl, rfl⟩⟩, ?_⟩
    simp [Statement.expressions]
  | .branchElse word condition consequence elseWord alternative, t, rest, hNear, hOpen => by
    obtain ⟨hNear, hClosed, hNear'⟩ := hNear
    have hTest := condition.read .parenAfterIf .parenAfterIfCondition
      (consequence.tokens ++ elseWord.token :: (alternative.tokens ++ t :: rest))
    have hThen := consequence.read elseWord.token (alternative.tokens ++ t :: rest) hNear
      fun hEnds => absurd hEnds (by simp [hClosed])
    have hOther := alternative.read t rest hNear' hOpen
    have hAll : (Statement.branchElse word condition consequence elseWord alternative).tokens
        ++ t :: rest = word.token :: (condition.tokens ++
          (consequence.tokens ++ elseWord.token :: (alternative.tokens ++ t :: rest))) := by
      simp [Statement.tokens]
    rw [hAll]
    refine (statement_if_yields_iff word.kind_eq).mpr ⟨_, _, _, _, hTest,
      branches_yields_iff.mpr ⟨_, elseWord.token, _, _, hThen,
        .inr ⟨elseWord.kind_eq, _, _, hOther, rfl, rfl⟩⟩, ?_⟩
    simp [Statement.expressions]
  | .loop word condition body, t, rest, hNear, hOpen => by
    have hTest := condition.read .parenAfterWhile .parenAfterCondition (body.tokens ++ t :: rest)
    have hBody := body.read t rest hNear hOpen
    have hAll : (Statement.loop word condition body).tokens ++ t :: rest =
        word.token :: (condition.tokens ++ (body.tokens ++ t :: rest)) := by
      simp [Statement.tokens]
    rw [hAll]
    refine (statement_while_yields_iff word.kind_eq).mpr ⟨_, _, _, _, _, hTest, hBody, rfl, ?_⟩
    simp [Statement.expressions]
  | .count word header body, t, rest, hNear, hOpen => by
    have hHeader := header.read (body.tokens ++ t :: rest)
    have hBody := body.read t rest hNear hOpen
    have hAll : (Statement.count word header body).tokens ++ t :: rest =
        word.token :: (header.tokens ++ (body.tokens ++ t :: rest)) := by
      simp [Statement.tokens]
    rw [hAll]
    refine (statement_for_yields_iff word.kind_eq).mpr
      ⟨_, _, _, _, _, hHeader, hBody, header.tree_eq_toLoop _, ?_⟩
    simp [Statement.expressions]

/-- A declaration is read in front of a token that is no `else`. -/
theorem Declaration.read : (d : Declaration) → (t u : Token) → (us rest : List Token) →
    d.NearestElse → t.kind ≠ .elseWord → d.tokens ++ t :: rest = u :: us → (hu : u.kind ≠ .eof) →
    (declaration u us hu).Enters (some d.tree) (t :: rest)
      (complaints (misplacedIn d.expressions))
  | .variable inner, t, u, us, rest, _, _, hTokens, hu => by
    have hAll : inner.tokens ++ t :: rest = inner.word.token :: (inner.name.token ::
        (Variable.valueTokens inner.initializer ++ inner.semicolon.token :: t :: rest)) := by
      simp [Variable.tokens]
    obtain ⟨rfl, rfl⟩ := List.cons.inj (hTokens.symm.trans hAll)
    exact (declaration_variable_enters_iff inner.word.kind_eq).mpr (inner.read (t :: rest))
  | .statement inner, t, u, us, rest, hNear, ht, hTokens, hu => by
    obtain ⟨v, vs, hHead, hv⟩ := inner.exists_head
    have hWord : v.kind ≠ .varWord := by
      rintro hk
      rw [hk] at hv
      exact absurd hv (by decide)
    have hSame : v = u := by
      have h : inner.tokens ++ t :: rest = u :: us := hTokens
      rw [hHead] at h
      exact (List.cons.inj h).1
    have hRead := inner.read t rest hNear fun _ => ht
    rw [show inner.tokens ++ t :: rest = u :: us from hTokens] at hRead
    exact (declaration_statement_enters_iff (hSame ▸ hWord)).mpr hRead

/-- The declarations of a block are read with the brace behind them. -/
theorem Declarations.read : (ds : Declarations) → (closing : Mark .rightBrace) →
    (rest : List Token) → ds.NearestElse →
    (block (ds.tokens ++ closing.token :: rest)).Yields ds.trees rest
      (complaints (misplacedIn ds.expressions))
  | .nil, closing, rest, _ =>
    block_cons_yields_iff.mpr (.inl ⟨closing.kind_eq, rfl, rfl, rfl⟩)
  | .cons first others, closing, rest, hNear => by
    obtain ⟨u, us, hTokens, hu⟩ := first.exists_head
    obtain ⟨v, vs, hNext, hv⟩ := others.exists_head
      (t := closing.token) (by rw [closing.kind_eq]; decide) rest
    simp only [List.mem_cons, List.not_mem_nil, or_false, not_or] at hu
    have hAll : (Declarations.cons first others).tokens ++ closing.token :: rest =
        u :: (us ++ v :: vs) := by
      simp [Declarations.tokens, hTokens, ← hNext]
    have hFirst := first.read v u (us ++ v :: vs) vs hNear.1 hv (by simp [hTokens]) hu.2.2
    have hOthers := others.read closing rest hNear.2
    rw [hNext] at hOthers
    rw [hAll]
    refine block_cons_yields_iff.mpr
      (.inr ⟨hu.2.1, hu.2.2, _, _, _, _, _, hFirst, hOthers, rfl, ?_⟩)
    simp [Declarations.expressions]

end

end Treewalk.Derivation

namespace Treewalk

/-! ## Programs -/

/-- A reading behind earlier entries and complaints. -/
def Parse.behind (entries : List (Option Stmt)) (notes : List Complaint) : Parse → Parse
  | .finished later rest others => .finished (entries ++ later) rest (notes ++ others)
  | .overrun others => .overrun (notes ++ others)

namespace Derivation

/-- Declarations in front of a token that is no `else` are read, and then
whatever follows them. -/
theorem Declarations.parse_append {t : Token} (ht : t.kind ≠ .elseWord) (rest : List Token) :
    (ds : Declarations) → ds.NearestElse → parse (ds.tokens ++ t :: rest) =
      (parse (t :: rest)).behind (ds.trees.map some) (complaints (misplacedIn ds.expressions))
  | .nil, _ => by
    rw [Declarations.tokens, List.nil_append]
    cases parse (t :: rest) <;> rfl
  | .cons first others, hNear => by
    obtain ⟨u, us, hTokens, hu⟩ := first.exists_head
    obtain ⟨v, vs, hNext, hv⟩ := others.exists_head ht rest
    simp only [List.mem_cons, List.not_mem_nil, or_false, not_or] at hu
    have hAll : (Declarations.cons first others).tokens ++ t :: rest = u :: (us ++ v :: vs) := by
      simp [Declarations.tokens, hTokens, ← hNext]
    obtain ⟨_, hFirst⟩ := first.read v u (us ++ v :: vs) vs hNear.1 hv (by simp [hTokens]) hu.2.2
    have hOthers := others.parse_append ht rest hNear.2
    rw [hNext] at hOthers
    rw [hAll, parse, dif_neg hu.2.2, hFirst]
    simp only [hOthers]
    cases parse (t :: rest) <;> simp [Parse.behind, Declarations.trees, Declarations.expressions]

/-- A program in front of its end mark is read up to it. -/
theorem Declarations.parse_eq (endMark : Mark .eof) (rest : List Token) (ds : Declarations)
    (hNear : ds.NearestElse) : parse (ds.tokens ++ endMark.token :: rest) =
      .finished (ds.trees.map some) (endMark.token :: rest)
        (complaints (misplacedIn ds.expressions)) := by
  have hElse : endMark.token.kind ≠ .elseWord := by rw [endMark.kind_eq]; decide
  rw [ds.parse_append hElse rest hNear, parse, dif_pos endMark.kind_eq]
  simp [Parse.behind]

end Derivation

end Treewalk
