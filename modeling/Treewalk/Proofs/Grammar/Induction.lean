import Treewalk.Tree.Grammar

/-!
# Induction over the rules

What is said of the rules at the front of every token list is shown one
rule at a time, from what it says of the rules that one calls: a tighter
rule on the same list, and any rule on what is left behind a token. The
hypotheses of each case are the calls of that rule
(`ExpressionInduction`, `StatementInduction`).
-/

namespace Treewalk

/-- What holds of a list if it holds of everything that can be left of it
holds of every list. -/
theorem Left.induction {P : List Token → Prop}
    (step : ∀ ts, (∀ rest, Left ts rest → P rest) → P ts) (ts : List Token) : P ts :=
  (measure List.length).wf.induction ts fun ts ih => step ts fun rest left => ih rest left.shorter

/-- From the tightest level outward. -/
theorem Level.induction {P : Option Level → Prop} (tightest : P none)
    (step : ∀ level : Level, P level.tighter? → P (some level)) (level? : Option Level) :
    P level? := by
  refine (measure Level.height).wf.induction level? fun level? ih => ?_
  cases level? with
  | none => exact tightest
  | some level => exact step level (ih level.tighter? level.height_tighter)

/-! ## Expressions -/

/-- The cases of an induction over the rules of an expression. -/
structure ExpressionInduction (expressionAt : List Token → Prop)
    (chainAt : Option Level → List Token → Prop) (operandsAt : Level → List Token → Prop)
    (unaryAt : List Token → Prop) : Prop where
  expression (ts : List Token) (first : chainAt (some .disjunction) ts)
    (behind : ∀ rest, Left ts rest → expressionAt rest) : expressionAt ts
  chain_none (ts : List Token) (inner : unaryAt ts) : chainAt none ts
  chain_some (level : Level) (ts : List Token) (first : chainAt level.tighter? ts)
    (behind : ∀ rest, Left ts rest → operandsAt level rest) : chainAt (some level) ts
  operands_nil (level : Level) : operandsAt level []
  operands_cons (level : Level) (t : Token) (rest : List Token)
    (second : chainAt level.tighter? rest)
    (behind : ∀ more, Left rest more → operandsAt level more) : operandsAt level (t :: rest)
  unary_nil : unaryAt []
  unary_cons (t : Token) (rest : List Token) (operand : unaryAt rest)
    (inner : expressionAt rest) : unaryAt (t :: rest)

namespace ExpressionInduction

variable {expressionAt unaryAt : List Token → Prop} {chainAt : Option Level → List Token → Prop}
  {operandsAt : Level → List Token → Prop}

/-- Level by level on one list, from list to list by what is left. -/
theorem all (h : ExpressionInduction expressionAt chainAt operandsAt unaryAt) (ts : List Token) :
    expressionAt ts ∧ (∀ level?, chainAt level? ts) ∧ (∀ level, operandsAt level ts) ∧
      unaryAt ts := by
  induction ts using Left.induction with
  | step ts ih =>
    have hUnary : unaryAt ts := by
      cases ts with
      | nil => exact h.unary_nil
      | cons t rest =>
        obtain ⟨hExpression, -, -, hOperand⟩ := ih rest .head
        exact h.unary_cons t rest hOperand hExpression
    have hOperands : ∀ level, operandsAt level ts := by
      intro level
      cases ts with
      | nil => exact h.operands_nil level
      | cons t rest =>
        obtain ⟨-, hChain, -, -⟩ := ih rest .head
        refine h.operands_cons level t rest (hChain level.tighter?) fun more left => ?_
        exact (ih more (Left.head.trans left)).2.2.1 level
    have hChain : ∀ level?, chainAt level? ts := by
      intro level?
      induction level? using Level.induction with
      | tightest => exact h.chain_none ts hUnary
      | step level hTighter =>
        exact h.chain_some level ts hTighter fun rest left => (ih rest left).2.2.1 level
    exact ⟨h.expression ts (hChain _) fun rest left => (ih rest left).1, hChain, hOperands, hUnary⟩

end ExpressionInduction

/-! ## Statements -/

/-- The cases of an induction over the rules of a statement. -/
structure StatementInduction (statementAt branchesAt : List Token → Prop)
    (declarationAt : (t : Token) → List Token → t.kind ≠ .eof → Prop)
    (blockAt : List Token → Prop) : Prop where
  statement_nil : statementAt []
  statement_cons (t : Token) (rest : List Token)
    (body : ∀ more, Left (t :: rest) more → statementAt more)
    (branches : ∀ more, Left (t :: rest) more → branchesAt more)
    (inner : blockAt rest) : statementAt (t :: rest)
  branches (ts : List Token) (consequence : statementAt ts)
    (alternative : ∀ rest, Left ts rest → statementAt rest) : branchesAt ts
  declaration (t : Token) (rest : List Token) (ht : t.kind ≠ .eof)
    (inner : statementAt (t :: rest)) : declarationAt t rest ht
  block_nil : blockAt []
  block_cons (t : Token) (rest : List Token) (first : ∀ ht, declarationAt t rest ht)
    (behind : ∀ more, Left (t :: rest) more → blockAt more) : blockAt (t :: rest)

namespace StatementInduction

variable {statementAt branchesAt blockAt : List Token → Prop}
  {declarationAt : (t : Token) → List Token → t.kind ≠ .eof → Prop}

theorem all (h : StatementInduction statementAt branchesAt declarationAt blockAt)
    (ts : List Token) : statementAt ts ∧ branchesAt ts ∧ blockAt ts := by
  induction ts using Left.induction with
  | step ts ih =>
    have hStatement : statementAt ts := by
      cases ts with
      | nil => exact h.statement_nil
      | cons t rest =>
        refine h.statement_cons t rest (fun more left => (ih more left).1)
          (fun more left => (ih more left).2.1) (ih rest .head).2.2
    have hBlock : blockAt ts := by
      cases ts with
      | nil => exact h.block_nil
      | cons t rest =>
        refine h.block_cons t rest (fun ht => h.declaration t rest ht hStatement) ?_
        exact fun more left => (ih more left).2.2
    exact ⟨hStatement, h.branches ts hStatement fun rest left => (ih rest left).1, hBlock⟩

end StatementInduction

end Treewalk
