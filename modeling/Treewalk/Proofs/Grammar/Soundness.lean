import Treewalk.Proofs.Grammar.Completeness
import Treewalk.Proofs.Grammar.EndMark

/-!
# Everything read has a derivation

What a rule yields is the tree of a derivation. For an expression the
derivation is one of exactly the tokens used up (`exists_expression`). A
statement may hold blocks in which a declaration failed and was skipped
over, so its derivation is one of part of the tokens used up, in their
order, and of all of them where no complaint stopped a rule
(`statements_derivable`). Either way every `else` of it belongs to the
nearest open `if`.
-/

namespace Treewalk

open Treewalk.Derivation

/-! ## Expressions -/

theorem expressions_derivable : ExpressionInduction
    (fun ts => ∀ {rest e n}, (expression ts).Yields e rest n →
      ∃ d : Expression, ts = d.tokens ++ rest ∧ d.tree = e ∧ complaints d.misplaced = n)
    (fun level? ts => ∀ {rest e n}, (chain level? ts).Yields e rest n →
      ∃ d : Chain level?, ts = d.tokens ++ rest ∧ d.tree = e ∧ complaints d.misplaced = n)
    (fun level ts => ∀ {origin first} {left : Left origin ts} {rest e n},
      (operands level first ts left).Yields e rest n →
      ∃ d : Links level, ts = d.tokens ++ rest ∧ d.tree first = e ∧ complaints d.misplaced = n)
    (fun ts => ∀ {rest e n}, (unary ts).Yields e rest n →
      ∃ d : Unary, ts = d.tokens ++ rest ∧ d.tree = e ∧ complaints d.misplaced = n) where
  expression ts first behind := by
    intro rest e n h
    obtain ⟨target, t, more, n₁, hTarget, hNext⟩ := expression_yields_iff.mp h
    obtain ⟨c, hTokens, rfl, rfl⟩ := first hTarget
    rcases hNext with ⟨_, rfl, rfl, rfl⟩ | ⟨ht, value, n₂, hValue, rfl, rfl⟩
    · exact ⟨.plain c, hTokens, rfl, rfl⟩
    · obtain ⟨v, rfl, rfl, rfl⟩ := behind more hTarget.left.tail hValue
      refine ⟨.assignment c ⟨t, by simp [ht]⟩ v, ?_, rfl, ?_⟩
      · simp [Expression.tokens, hTokens]
      · simp [Expression.misplaced]
  chain_none ts inner := by
    intro rest e n h
    obtain ⟨u, hTokens, hTree, hNotes⟩ := inner (chain_none_yields_iff.mp h)
    exact ⟨.unary u, hTokens, hTree, hNotes⟩
  chain_some level ts first behind := by
    intro rest e n h
    obtain ⟨operand, more, n₁, n₂, hFirst, ⟨left, hOthers⟩, rfl⟩ := chain_some_yields_iff.mp h
    obtain ⟨c, hTokens, rfl, rfl⟩ := first hFirst
    obtain ⟨links, rfl, rfl, rfl⟩ := behind more left hOthers
    refine ⟨.level c links, ?_, rfl, ?_⟩
    · simp [Chain.tokens, hTokens]
    · simp [Chain.misplaced]
  operands_nil level := fun h => absurd h not_operands_nil_yields
  operands_cons level t more second behind := by
    intro origin first left rest e n h
    rcases operands_cons_yields_iff.mp h with
      ⟨_, rfl, rfl, rfl⟩ | ⟨ht, operand, later, n₁, n₂, hSecond, ⟨used, hOthers⟩, rfl⟩
    · exact ⟨.none, rfl, rfl, rfl⟩
    · have hLeft := hSecond.left
      obtain ⟨c, hTokens, rfl, rfl⟩ := second hSecond
      obtain ⟨links, rfl, rfl, rfl⟩ := behind later hLeft hOthers
      refine ⟨.link ⟨t, ht⟩ c links, ?_, rfl, ?_⟩
      · simp [Links.tokens, hTokens]
      · simp [Links.misplaced]
  unary_nil := fun h => absurd h not_unary_nil_yields
  unary_cons t more operand inner := by
    intro rest e n h
    rcases unary_cons_yields_iff.mp h with ⟨ht, rfl, rfl, rfl⟩ | ⟨ht, right, hRight, rfl⟩ |
      ⟨ht, group, closing, hInner, hClosing, rfl⟩
    · exact ⟨.primary (.atom ⟨t, ht⟩), rfl, rfl, rfl⟩
    · obtain ⟨u, rfl, rfl, rfl⟩ := operand hRight
      exact ⟨.sign ⟨t, ht⟩ u, rfl, rfl, rfl⟩
    · obtain ⟨d, rfl, rfl, rfl⟩ := inner hInner
      refine ⟨.primary (.group ⟨t, by simp [ht]⟩ d ⟨closing, by simp [hClosing]⟩), ?_, rfl, rfl⟩
      simp [Unary.tokens, Primary.tokens]

theorem exists_expression (ts : List Token) {rest : List Token} {e : Expr} {n : List Complaint}
    (h : (expression ts).Yields e rest n) :
    ∃ d : Expression, ts = d.tokens ++ rest ∧ d.tree = e ∧ complaints d.misplaced = n :=
  (expressions_derivable.all ts).1 h

/-! ## What a derivation accounts for -/

/-- Tokens and expressions that stand for what a rule used up of `ts`
before `rest`: the tokens are part of those used up, and where no
complaint stopped a rule, they are all of them and the notes are about the
misplaced signs of the expressions. -/
def Accounts (tokens : List Token) (expressions : List Expression) (ts rest : List Token)
    (n : List Complaint) : Prop :=
  ∃ used, ts = used ++ rest ∧ tokens.Sublist used ∧
    ((∀ c ∈ n, ¬ c.Fatal) → tokens = used ∧ complaints (misplacedIn expressions) = n)

namespace Accounts

variable {tokens tokens' ts more rest : List Token} {expressions expressions' : List Expression}
  {n n' : List Complaint}

theorem nil : Accounts [] [] ts ts [] :=
  ⟨[], rfl, .slnil, fun _ => ⟨rfl, rfl⟩⟩

/-- A token in front. -/
theorem cons (t : Token) (h : Accounts tokens expressions ts rest n) :
    Accounts (t :: tokens) expressions (t :: ts) rest n := by
  obtain ⟨used, rfl, hPart, hAll⟩ := h
  refine ⟨t :: used, rfl, hPart.cons_cons t, ?_⟩
  intro hn
  obtain ⟨rfl, hNotes⟩ := hAll hn
  exact ⟨rfl, hNotes⟩

theorem append (h : Accounts tokens expressions ts more n)
    (h' : Accounts tokens' expressions' more rest n') :
    Accounts (tokens ++ tokens') (expressions ++ expressions') ts rest (n ++ n') := by
  obtain ⟨used, rfl, hPart, hAll⟩ := h
  obtain ⟨used', rfl, hPart', hAll'⟩ := h'
  refine ⟨used ++ used', (List.append_assoc ..).symm, hPart.append hPart', ?_⟩
  intro hn
  obtain ⟨rfl, rfl⟩ := hAll fun c hc => hn c (List.mem_append_left _ hc)
  obtain ⟨rfl, rfl⟩ := hAll' fun c hc => hn c (List.mem_append_right _ hc)
  refine ⟨rfl, ?_⟩
  rw [misplacedIn_append, complaints_append]

/-- A token behind. -/
theorem concat {t : Token} (h : Accounts tokens expressions ts (t :: rest) n) :
    Accounts (tokens ++ [t]) expressions ts rest n := by
  simpa using h.append (nil.cons t)

/-- An expression accounts for what it is a derivation of. -/
theorem expression (d : Expression) :
    Accounts d.tokens [d] (d.tokens ++ rest) rest (complaints d.misplaced) :=
  ⟨d.tokens, rfl, .refl _, fun _ => ⟨rfl, by simp⟩⟩

/-- Where a complaint stopped a rule, nothing need be accounted for. -/
theorem skipped (left : Left ts rest) (h : ∃ c ∈ n, c.Fatal) : Accounts [] [] ts rest n := by
  obtain ⟨used, rfl⟩ := left.suffix
  obtain ⟨c, hc, hFatal⟩ := h
  exact ⟨used, rfl, List.nil_sublist _, fun hn => absurd hFatal (hn c hc)⟩

end Accounts

/-! ## Statements that hold no statement -/

theorem exists_expressionThen {ts rest : List Token} {mark : Token} {e : Expr}
    {n : List Complaint} (h : (expression ts).Yields e (mark :: rest) n) :
    ∃ d : Expression, d.tree = e ∧ Accounts (d.tokens ++ [mark]) [d] ts rest n := by
  obtain ⟨d, rfl, hTree, rfl⟩ := exists_expression ts h
  exact ⟨d, hTree, (Accounts.expression d).concat⟩

theorem exists_expressionOr {kind : Kind} {reason : Reason} {ts rest : List Token}
    {e? : Option Expr} {n : List Complaint} (h : (expressionOr kind reason ts).Yields e? rest n) :
    ∃ (d? : Option Expression) (mark : Mark kind), d?.map Expression.tree = e? ∧
      Accounts (Expression.tokens? d? ++ [mark.token]) d?.toList ts rest n := by
  obtain ⟨t, more, rfl, ⟨ht, rfl, rfl, rfl⟩ | ⟨-, e, mark, hRead, hMark, rfl⟩⟩ :=
    expressionOr_yields_iff.mp h
  · exact ⟨none, ⟨t, by simp [ht]⟩, rfl, Accounts.nil.cons t⟩
  · obtain ⟨d, rfl, hAccounts⟩ := exists_expressionThen hRead
    exact ⟨some d, ⟨mark, by simp [hMark]⟩, rfl, hAccounts⟩

theorem exists_condition {first last : Reason} {ts rest : List Token} {e : Expr}
    {n : List Complaint} (h : (condition first last ts).Yields e rest n) :
    ∃ d : Condition, d.test.tree = e ∧ Accounts d.tokens [d.test] ts rest n := by
  obtain ⟨opening, more, closing, rfl, hOpening, hTest, hClosing⟩ := condition_yields_iff.mp h
  obtain ⟨test, rfl, hAccounts⟩ := exists_expressionThen hTest
  exact ⟨⟨⟨opening, by simp [hOpening]⟩, test, ⟨closing, by simp [hClosing]⟩⟩, rfl,
    hAccounts.cons opening⟩

theorem exists_variable {word : Token} (hWord : word.kind = .varWord) {ts rest : List Token}
    {s : Stmt} {n : List Complaint} (h : (variableDeclaration ts).Yields s rest n) :
    ∃ d : Variable, d.tree = s ∧ Accounts d.tokens d.expressions (word :: ts) rest n := by
  obtain ⟨name, t, more, rfl, hName, ⟨ht, rfl, rfl, rfl⟩ | ⟨ht, e, mark, hRead, hMark, rfl⟩⟩ :=
    variableDeclaration_yields_iff.mp h
  · exact ⟨⟨⟨word, by simp [hWord]⟩, ⟨name, by simp [hName]⟩, none, ⟨t, by simp [ht]⟩⟩, rfl,
      ((Accounts.nil.cons t).cons name).cons word⟩
  · obtain ⟨value, rfl, hAccounts⟩ := exists_expressionThen hRead
    exact ⟨⟨⟨word, by simp [hWord]⟩, ⟨name, by simp [hName]⟩, some (⟨t, by simp [ht]⟩, value),
      ⟨mark, by simp [hMark]⟩⟩, rfl, ((hAccounts.cons t).cons name).cons word⟩

theorem exists_expressionStatement {ts rest : List Token} {s : Stmt} {n : List Complaint}
    (h : (expressionStatement ts).Yields s rest n) :
    ∃ (d : Expression) (semicolon : Mark .semicolon), s = .expression d.tree ∧
      Accounts (d.tokens ++ [semicolon.token]) [d] ts rest n := by
  obtain ⟨e, mark, hRead, hMark, rfl⟩ := expressionStatement_yields_iff.mp h
  obtain ⟨d, rfl, hAccounts⟩ := exists_expressionThen hRead
  exact ⟨d, ⟨mark, by simp [hMark]⟩, rfl, hAccounts⟩

theorem exists_initializer {ts rest : List Token} {s? : Option Stmt} {n : List Complaint}
    (h : (forInitializer ts).Yields s? rest n) :
    ∃ d : Initializer, d.tree? = s? ∧ Accounts d.tokens d.expressions ts rest n := by
  cases ts with
  | nil => exact absurd h not_forInitializer_nil_yields
  | cons t more =>
    rcases forInitializer_cons_yields_iff.mp h with
      ⟨ht, rfl, rfl, rfl⟩ | ⟨ht, s, hRead, rfl⟩ | ⟨-, s, hRead, rfl⟩
    · exact ⟨.empty ⟨t, by simp [ht]⟩, rfl, Accounts.nil.cons t⟩
    · obtain ⟨d, rfl, hAccounts⟩ := exists_variable ht hRead
      exact ⟨.variable d, rfl, hAccounts⟩
    · obtain ⟨d, semicolon, rfl, hAccounts⟩ := exists_expressionStatement hRead
      exact ⟨.expression d semicolon, rfl, hAccounts⟩

theorem exists_header {ts rest : List Token} {c : Clauses} {n : List Complaint}
    (h : (forClauses ts).Yields c rest n) :
    ∃ d : Header, d.clauses = c ∧ Accounts d.tokens d.expressions ts rest n := by
  obtain ⟨opening, more, later, last, n₁, n₂, n₃, rfl, hOpening, hFirst, hTest, hIncrement, rfl⟩ :=
    forClauses_yields_iff.mp h
  obtain ⟨first, hFirstTree, hFirst⟩ := exists_initializer hFirst
  obtain ⟨test, semicolon, hTestTree, hTest⟩ := exists_expressionOr hTest
  obtain ⟨increment, closing, hIncrementTree, hIncrement⟩ := exists_expressionOr hIncrement
  refine ⟨⟨⟨opening, by simp [hOpening]⟩, first, test, semicolon, increment, closing⟩, ?_,
    ((hFirst.append hTest).append hIncrement).cons opening⟩
  rw [Header.clauses, hFirstTree, hTestTree, hIncrementTree]

/-! ## Statements -/

/-- No `else` stands in front. -/
def NoElse (ts : List Token) : Prop :=
  ∀ t more, ts = t :: more → t.kind ≠ .elseWord

theorem noElse_cons {t : Token} {more : List Token} (ht : t.kind ≠ .elseWord) :
    NoElse (t :: more) := by
  rintro _ _ ⟨rfl, rfl⟩
  exact ht

theorem Step.Yields.ends {ts rest : List Token} {α : Type} {step : Step ts α} {v : α}
    {n : List Complaint} (h : step.Yields v rest n) (hStep : step.Orderly) : Ends rest := by
  obtain ⟨_, rfl⟩ := h
  exact hStep

theorem Recovered.Enters.left {ts rest : List Token} {α : Type} {r : Recovered ts α}
    {value : Option α} {n : List Complaint} (h : r.Enters value rest n) : Left ts rest :=
  h.1

theorem Recovered.Enters.ends {ts rest : List Token} {α : Type} {r : Recovered ts α}
    {value : Option α} {n : List Complaint} (h : r.Enters value rest n) (hr : r.Orderly) :
    Ends rest ∧ (value = none → ∃ c ∈ n, c.Fatal) := by
  obtain ⟨_, rfl⟩ := h
  exact hr

/-- What a statement at the front of the list yields has a derivation. -/
def Derivable (ts : List Token) : Prop :=
  ∀ ⦃s : Stmt⦄ ⦃rest : List Token⦄ ⦃n : List Complaint⦄, (statement ts).Yields s rest n →
    ∃ d : Statement, d.tree = s ∧ d.NearestElse ∧ (d.endsOpen = true → NoElse rest) ∧
      Accounts d.tokens d.expressions ts rest n

section

variable {t : Token} {more : List Token}

theorem derivable_for (ht : t.kind = .forWord) (hEnds : Ends more)
    (ih : ∀ later, Left more later → Ends later → Derivable later) : Derivable (t :: more) := by
  intro s rest n h
  obtain ⟨clauses, later, n₁, body, n₂, hClauses, hStatement, rfl, rfl⟩ :=
    (statement_for_yields_iff ht).mp h
  have hLater : Ends later := hClauses.ends (forClauses_orderly hEnds)
  obtain ⟨header, rfl, hHeader⟩ := exists_header hClauses
  obtain ⟨d, rfl, hNear, hOpen, hBody⟩ := ih later hClauses.left hLater hStatement
  exact ⟨.count ⟨t, by simp [ht]⟩ header d, header.tree_eq_toLoop _, hNear, hOpen,
    (hHeader.append hBody).cons t⟩

theorem derivable_while (ht : t.kind = .whileWord) (hEnds : Ends more)
    (ih : ∀ later, Left more later → Ends later → Derivable later) : Derivable (t :: more) := by
  intro s rest n h
  obtain ⟨test, later, n₁, body, n₂, hCondition, hStatement, rfl, rfl⟩ :=
    (statement_while_yields_iff ht).mp h
  have hLater : Ends later := hCondition.ends (condition_orderly (by decide) (by decide) hEnds)
  obtain ⟨c, rfl, hTest⟩ := exists_condition hCondition
  obtain ⟨d, rfl, hNear, hOpen, hBody⟩ := ih later hCondition.left hLater hStatement
  exact ⟨.loop ⟨t, by simp [ht]⟩ c d, rfl, hNear, hOpen, (hTest.append hBody).cons t⟩

theorem derivable_if (ht : t.kind = .ifWord) (hEnds : Ends more)
    (ih : ∀ later, Left more later → Ends later → Derivable later) : Derivable (t :: more) := by
  intro s rest n h
  obtain ⟨test, later, n₁, n₂, hCondition, hBranches, rfl⟩ := (statement_if_yields_iff ht).mp h
  have hLater : Ends later := hCondition.ends (condition_orderly (by decide) (by decide) hEnds)
  obtain ⟨c, rfl, hTest⟩ := exists_condition hCondition
  obtain ⟨consequence, u, us, n₃, hStatement, hElse⟩ := branches_yields_iff.mp hBranches
  have hNext : Ends (u :: us) := hStatement.ends (statement_orderly later hLater)
  obtain ⟨d, rfl, hNear, hOpen, hThen⟩ := ih later hCondition.left hLater hStatement
  rcases hElse with ⟨hu, rfl, rfl, rfl⟩ | ⟨hu, alternative, n₄, hOther, rfl, rfl⟩
  · exact ⟨.branch ⟨t, by simp [ht]⟩ c d, rfl, hNear, fun _ => noElse_cons hu,
      (hTest.append hThen).cons t⟩
  · have hBehind : Ends us := hNext.tail (by simp [hu])
    obtain ⟨d', rfl, hNear', hOpen', hOtherwise⟩ :=
      ih us (hCondition.left.trans hStatement.left.tail) hBehind hOther
    have hClosed : d.endsOpen = false :=
      Bool.eq_false_iff.mpr fun hEnd => hOpen hEnd u us rfl hu
    refine ⟨.branchElse ⟨t, by simp [ht]⟩ c d ⟨u, by simp [hu]⟩ d', rfl,
      ⟨hNear, hClosed, hNear'⟩, hOpen', ?_⟩
    simpa [Statement.tokens, Statement.expressions] using
      (hTest.append (hThen.append (hOtherwise.cons u))).cons t

theorem derivable_print (ht : t.kind = .printWord) : Derivable (t :: more) := by
  intro s rest n h
  obtain ⟨e, mark, hRead, hMark, rfl⟩ := (statement_print_yields_iff ht).mp h
  obtain ⟨d, rfl, hAccounts⟩ := exists_expressionThen hRead
  exact ⟨.print ⟨t, by simp [ht]⟩ d ⟨mark, by simp [hMark]⟩, rfl, trivial,
    nofun, hAccounts.cons t⟩

theorem derivable_expression (ht : t.kind ∉ statementWords) : Derivable (t :: more) := by
  intro s rest n h
  obtain ⟨d, semicolon, rfl, hAccounts⟩ :=
    exists_expressionStatement ((statement_expression_yields_iff ht).mp h)
  exact ⟨.expression d semicolon, rfl, trivial, nofun, hAccounts⟩

end

theorem statements_derivable : StatementInduction
    (fun ts => Ends ts → Derivable ts)
    (fun _ => True)
    (fun t rest ht => Ends (t :: rest) → ∀ {more s n},
      (declaration t rest ht).Enters (some s) more n →
      ∃ d : Declaration, d.tree = s ∧ d.NearestElse ∧
        Accounts d.tokens d.expressions (t :: rest) more n)
    (fun ts => Ends ts → ∀ {rest body n}, (block ts).Yields body rest n →
      ∃ (d : Declarations) (closing : Mark .rightBrace), d.trees = body ∧ d.NearestElse ∧
        Accounts (d.tokens ++ [closing.token]) d.expressions ts rest n) where
  statement_nil := fun _ _ _ _ h => absurd h not_statement_nil_yields
  statement_cons t more body _ inner hEnds := by
    have hTail : t.kind ≠ .eof → Ends more := hEnds.tail
    have ih : ∀ later, Left more later → Ends later → Derivable later :=
      fun later left => body later (Left.head.trans left)
    cases hk : t.kind with
    | forWord => exact derivable_for hk (hTail (by simp [hk])) ih
    | ifWord => exact derivable_if hk (hTail (by simp [hk])) ih
    | whileWord => exact derivable_while hk (hTail (by simp [hk])) ih
    | printWord => exact derivable_print hk
    | leftBrace =>
      intro s rest n h
      obtain ⟨body, hBlock, rfl⟩ := (statement_block_yields_iff hk).mp h
      obtain ⟨d, closing, rfl, hNear, hBody⟩ := inner (hTail (by simp [hk])) hBlock
      exact ⟨.block ⟨t, by simp [hk]⟩ d closing, rfl, hNear, nofun, hBody.cons t⟩
    | _ => exact derivable_expression (by simp [statementWords, hk])
  -- an `if` takes its branches together with its condition
  branches _ _ _ := trivial
  declaration t rest ht inner hEnds := by
    intro more s n h
    by_cases hWord : t.kind = .varWord
    · obtain ⟨d, rfl, hAccounts⟩ :=
        exists_variable hWord ((declaration_variable_enters_iff hWord).mp h)
      exact ⟨.variable d, rfl, trivial, hAccounts⟩
    · obtain ⟨d, rfl, hNear, -, hAccounts⟩ :=
        inner hEnds ((declaration_statement_enters_iff hWord).mp h)
      exact ⟨.statement d, rfl, hNear, hAccounts⟩
  block_nil := fun _ _ _ _ h => absurd h not_block_nil_yields
  block_cons t more first behind hEnds := by
    intro rest body n h
    rcases block_cons_yields_iff.mp h with
      ⟨hBrace, rfl, rfl, rfl⟩ | ⟨-, ht, value, later, n₁, others, n₂, hFirst, hOthers, rfl, rfl⟩
    · exact ⟨.nil, ⟨t, by simp [hBrace]⟩, rfl, trivial, Accounts.nil.cons t⟩
    · obtain ⟨hLater, hFailed⟩ := hFirst.ends (declaration_orderly t more ht hEnds)
      obtain ⟨ds, closing, rfl, hNear, hBody⟩ := behind later hFirst.left hLater hOthers
      cases value with
      | none =>
        exact ⟨ds, closing, rfl, hNear,
          (Accounts.skipped hFirst.left (hFailed rfl)).append hBody⟩
      | some s =>
        obtain ⟨d, rfl, hNear', hAccounts⟩ := first ht hEnds hFirst
        refine ⟨.cons d ds, closing, rfl, ⟨hNear', hNear⟩, ?_⟩
        simpa [Declarations.tokens, Declarations.expressions] using hAccounts.append hBody

theorem exists_declaration (t : Token) (rest : List Token) (ht : t.kind ≠ .eof)
    (hEnds : Ends (t :: rest)) {more : List Token} {s : Stmt} {n : List Complaint}
    (h : (declaration t rest ht).Enters (some s) more n) :
    ∃ d : Declaration, d.tree = s ∧ d.NearestElse ∧
      Accounts d.tokens d.expressions (t :: rest) more n :=
  statements_derivable.declaration t rest ht (statements_derivable.all (t :: rest)).1 hEnds h

/-- Reading a whole list: the entries that did not fail are the trees of a
derivation that accounts for everything before the end mark. -/
theorem exists_program (ts : List Token) (hEnds : Ends ts) {entries : List (Option Stmt)}
    {rest : List Token} {n : List Complaint} (h : parse ts = .finished entries rest n) :
    ∃ d : Declarations, d.trees = entries.filterMap id ∧ d.NearestElse ∧
      Accounts d.tokens d.expressions ts rest n := by
  fun_induction parse ts generalizing entries rest n with
  | case1 => cases h
  | case2 t more ht =>
    cases h
    exact ⟨.nil, rfl, trivial, .nil⟩
  | case3 t more ht value later left notes hd others last notes' hLater ih =>
    cases h
    have hFirst : (declaration t more ht).Enters value later notes := ⟨left, hd⟩
    obtain ⟨hEnds', hFailed⟩ := hFirst.ends (declaration_orderly t more ht hEnds)
    obtain ⟨ds, hTrees, hNear, hOthers⟩ := ih hEnds' hLater
    cases value with
    | none =>
      exact ⟨ds, hTrees, hNear, (Accounts.skipped left (hFailed rfl)).append hOthers⟩
    | some s =>
      obtain ⟨d, rfl, hNear', hAccounts⟩ := exists_declaration t more ht hEnds hFirst
      refine ⟨.cons d ds, ?_, ⟨hNear', hNear⟩, hAccounts.append hOthers⟩
      simp [Declarations.trees, hTrees]
  | case4 => cases h
  | case5 => cases h

end Treewalk
