import Treewalk.Proofs.Grammar.Derivation

/-!
# The shape of a tree

Which nodes are trees of the grammar, said of the nodes alone. Nothing is
missing where a child must stand, names and operators are tokens of the
right kinds, an operator's operands are of its own level on the left and
of a tighter one on the right unless parentheses are kept around them, no
declaration is the body of a branch or a loop, and the first branch of an
`if` with an `else` does not end in an `if` that could take that `else`.

Every derivation that gives each `else` to the nearest open `if` has a tree
of this shape (`Declaration.isDeclaration`), the blocks and loops that
`for` is spelled with among them.
-/

namespace Treewalk

namespace Node

/-! ## Expressions -/

mutual

/-- An operand of a level: operands joined to the left by the level's
operators, or one of a tighter level; with no level left, a unary
expression. -/
inductive IsOperand : Option Level → Node → Prop where
  | literal (value : Value) : IsOperand none (.literal value)
  | variable {name : Token} (hName : name.kind = .identifier) :
      IsOperand none (.variable (.token name))
  | grouping {inner : Node} (hInner : IsExpression inner) : IsOperand none (.grouping inner)
  | unary {operator : Token} {right : Node} (hOperator : operator.kind ∈ [Kind.bang, .minus])
      (hRight : IsOperand none right) : IsOperand none (.unary (.token operator) right)
  | tighter {level : Level} {n : Node} (h : IsOperand level.tighter? n) : IsOperand (some level) n
  | logical {level : Level} {left right : Node} {operator : Token}
      (hLevel : level ∈ [Level.disjunction, .conjunction]) (hLeft : IsOperand (some level) left)
      (hOperator : operator.kind ∈ level.operators) (hRight : IsOperand level.tighter? right) :
      IsOperand (some level) (.logical left (.token operator) right)
  | binary {level : Level} {left right : Node} {operator : Token}
      (hLevel : level ∈ [Level.equality, .comparison, .sum, .product])
      (hLeft : IsOperand (some level) left) (hOperator : operator.kind ∈ level.operators)
      (hRight : IsOperand level.tighter? right) :
      IsOperand (some level) (.binary left (.token operator) right)

/-- An expression: an operand of the loosest level, or an assignment to a
name. -/
inductive IsExpression : Node → Prop where
  | plain {n : Node} (h : IsOperand (some .disjunction) n) : IsExpression n
  | assign {name : Token} {value : Node} (hName : name.kind = .identifier)
      (hValue : IsExpression value) : IsExpression (.assign (.token name) value)

end

/-- Only an identifier stands for a variable, at every level. -/
theorem IsOperand.kind_eq {name : Token} : {level? : Option Level} →
    IsOperand level? (.variable (.token name)) → name.kind = .identifier
  | none, .variable hName => hName
  -- a level's own operators build no variable, so it came from below
  | some _, .tighter h => h.kind_eq
termination_by level? => Level.height level?
decreasing_by exact Level.height_tighter _

/-! ## Statements -/

/-- Whether a statement ends in an `if` without an `else`. -/
def endsOpen : Node → Bool
  | .branch _ _ .absent => true
  | .branch _ _ alternative => alternative.endsOpen
  | .loop _ body => body.endsOpen
  | _ => false

mutual

/-- A statement. Branches and bodies are statements too, so none of them
declares a variable. -/
inductive IsStatement : Node → Prop where
  | expression {inner : Node} (hInner : IsExpression inner) : IsStatement (.expression inner)
  | print {inner : Node} (hInner : IsExpression inner) : IsStatement (.print inner)
  | block {body : List Node} (hBody : ∀ n ∈ body, IsDeclaration n) : IsStatement (.block body)
  | branch {condition consequence : Node} (hCondition : IsExpression condition)
      (hConsequence : IsStatement consequence) :
      IsStatement (.branch condition consequence .absent)
  | branchElse {condition consequence alternative : Node} (hCondition : IsExpression condition)
      (hConsequence : IsStatement consequence) (hClosed : consequence.endsOpen = false)
      (hAlternative : IsStatement alternative) :
      IsStatement (.branch condition consequence alternative)
  | loop {condition body : Node} (hCondition : IsExpression condition)
      (hBody : IsStatement body) : IsStatement (.loop condition body)

/-- A declaration: of a variable, with or without a value, or a
statement. -/
inductive IsDeclaration : Node → Prop where
  | variable {name : Token} (hName : name.kind = .identifier) :
      IsDeclaration (.var (.token name) .absent)
  | initialized {name : Token} {value : Node} (hName : name.kind = .identifier)
      (hValue : IsExpression value) : IsDeclaration (.var (.token name) value)
  | statement {n : Node} (h : IsStatement n) : IsDeclaration n

end

@[simp] theorem endsOpen_block (body : List Node) : (Node.block body).endsOpen = false := rfl

/-- An alternative that is a statement is there. -/
theorem endsOpen_branch_toNode (condition consequence : Node) (s : Stmt) :
    (Node.branch condition consequence s.toNode).endsOpen = s.toNode.endsOpen := by
  cases s with
  | branch _ _ alternative => cases alternative <;> simp [Stmt.toNode, endsOpen]
  | _ => simp [Stmt.toNode, endsOpen]

end Node

/-! ## The tree of a derivation -/

namespace Derivation

theorem isExpression_literal (value : Value) : (Expr.literal value).toNode.IsExpression := by
  rw [Expr.toNode]
  exact .plain (.tighter (.tighter (.tighter (.tighter (.tighter (.tighter (.literal value)))))))

theorem isOperand_atomTree (t : Token) : (atomTree t).toNode.IsOperand none := by
  unfold atomTree
  split
  case h_4 hk => exact .variable hk
  all_goals exact .literal _

theorem isOperand_join {level : Level} {left right : Expr} {operator : Token}
    (hLeft : left.toNode.IsOperand (some level)) (hOperator : operator.kind ∈ level.operators)
    (hRight : right.toNode.IsOperand level.tighter?) :
    (join level left operator right).toNode.IsOperand (some level) := by
  cases level with
  | disjunction | conjunction => exact .logical (by decide) hLeft hOperator hRight
  | equality | comparison | sum | product => exact .binary (by decide) hLeft hOperator hRight

/-- Only a variable is made the target of an assignment; of any other left
side nothing but itself is kept. -/
theorem isExpression_assignTree {target value : Expr}
    (hTarget : target.toNode.IsOperand (some .disjunction)) (hValue : value.toNode.IsExpression) :
    (assignTree target value).toNode.IsExpression := by
  match target with
  | .variable name => exact .assign (hTarget.kind_eq) hValue
  | .binary .. | .grouping .. | .literal .. | .unary .. | .assign .. | .logical .. =>
    exact .plain hTarget

mutual

theorem Expression.isExpression : (e : Expression) → e.tree.toNode.IsExpression
  | .plain chain => .plain chain.isOperand
  | .assignment target _ value => isExpression_assignTree target.isOperand value.isExpression

theorem Chain.isOperand : {level? : Option Level} → (c : Chain level?) →
    c.tree.toNode.IsOperand level?
  | _, .unary inner => inner.isOperand
  | _, .level first links => links.isOperand (.tighter first.isOperand)

theorem Links.isOperand : {level : Level} → (links : Links level) → {left : Expr} →
    left.toNode.IsOperand (some level) → (links.tree left).toNode.IsOperand (some level)
  | _, .none, _, hLeft => hLeft
  | _, .link operator operand links, _, hLeft =>
    links.isOperand (isOperand_join hLeft operator.allowed operand.isOperand)

theorem Unary.isOperand : (u : Unary) → u.tree.toNode.IsOperand none
  | .sign operator operand => .unary operator.allowed operand.isOperand
  | .primary inner => inner.isOperand

theorem Primary.isOperand : (p : Primary) → p.tree.toNode.IsOperand none
  | .atom leaf => isOperand_atomTree leaf.token
  | .group _ inner _ => .grouping inner.isExpression

end

theorem Variable.isDeclaration (v : Variable) : v.tree.toNode.IsDeclaration := by
  obtain ⟨word, name, _ | ⟨equals, value⟩, semicolon⟩ := v
  · exact .variable (List.mem_singleton.mp name.allowed)
  · exact .initialized (List.mem_singleton.mp name.allowed) value.isExpression

theorem Initializer.isDeclaration {i : Initializer} {s : Stmt} (h : i.tree? = some s) :
    s.toNode.IsDeclaration := by
  match i, h with
  | .variable declaration, rfl => exact declaration.isDeclaration
  | .expression inner _, rfl => exact .statement (.expression inner.isExpression)

theorem isStatement_pair {first second : Stmt} (hFirst : first.toNode.IsDeclaration)
    (hSecond : second.toNode.IsStatement) : (Stmt.block [first, second]).toNode.IsStatement := by
  rw [Stmt.toNode]
  refine .block ?_
  simpa [Stmt.toNodes] using And.intro hFirst (.statement hSecond)

theorem isStatement_withIncrement (increment : Option Expression) {body : Stmt}
    (hBody : body.toNode.IsStatement) : (withIncrement increment body).toNode.IsStatement := by
  cases increment with
  | none => exact hBody
  | some e => exact isStatement_pair (.statement hBody) (.expression e.isExpression)

/-- A `for` is a loop, or a block with a declaration and a loop. -/
theorem Header.tree_cases (h : Header) (body : Stmt) :
    ∃ test : Expr, test.toNode.IsExpression ∧
      (h.tree body = .loop test (withIncrement h.increment body) ∨
        ∃ first, first.toNode.IsDeclaration ∧
          h.tree body = .block [first, .loop test (withIncrement h.increment body)]) := by
  obtain ⟨test, hTest, hLoop, hBlock⟩ : ∃ test : Expr, test.toNode.IsExpression ∧
      (h.initializer.tree? = none → h.tree body = .loop test (withIncrement h.increment body)) ∧
      ∀ first, h.initializer.tree? = some first →
        h.tree body = .block [first, .loop test (withIncrement h.increment body)] := by
    unfold Header.tree
    cases h.condition with
    | none =>
      exact ⟨_, isExpression_literal _, fun hNone => by rw [hNone], fun _ hSome => by rw [hSome]⟩
    | some e =>
      exact ⟨_, e.isExpression, fun hNone => by rw [hNone], fun _ hSome => by rw [hSome]⟩
  refine ⟨test, hTest, ?_⟩
  cases hFirst : h.initializer.tree? with
  | none => exact .inl (hLoop hFirst)
  | some first => exact .inr ⟨first, Initializer.isDeclaration hFirst, hBlock first hFirst⟩

theorem Header.isStatement (h : Header) {body : Stmt} (hBody : body.toNode.IsStatement) :
    (h.tree body).toNode.IsStatement := by
  obtain ⟨test, hTest, hTree⟩ := h.tree_cases body
  have hLoop : (Stmt.loop test (withIncrement h.increment body)).toNode.IsStatement := by
    rw [Stmt.toNode]
    exact .loop hTest (isStatement_withIncrement h.increment hBody)
  rcases hTree with hTree | ⟨first, hFirst, hTree⟩
  · rwa [hTree]
  · rw [hTree]
    exact isStatement_pair hFirst hLoop

/-! ## An open `if` at the end -/

theorem endsOpen_withIncrement (increment : Option Expression) {body : Stmt}
    (hBody : body.toNode.endsOpen = false) :
    (withIncrement increment body).toNode.endsOpen = false := by
  cases increment with
  | none => exact hBody
  | some e => rw [withIncrement, Stmt.toNode, Node.endsOpen_block]

theorem Header.endsOpen_tree (h : Header) {body : Stmt} (hBody : body.toNode.endsOpen = false) :
    (h.tree body).toNode.endsOpen = false := by
  obtain ⟨test, -, hTree | ⟨first, -, hTree⟩⟩ := h.tree_cases body
  · rw [hTree, Stmt.toNode, Node.endsOpen]
    exact endsOpen_withIncrement h.increment hBody
  · rw [hTree, Stmt.toNode, Node.endsOpen_block]

/-- Where a derivation ends in no open `if`, its tree does not either. A
`for` may do so where its block does not. -/
theorem Statement.endsOpen_tree : (s : Statement) → s.endsOpen = false →
    s.tree.toNode.endsOpen = false
  | .expression .., _ | .print .., _ | .block .., _ => by
    simp [Statement.tree, Stmt.toNode, Node.endsOpen]
  | .branch .., h => by simp [Statement.endsOpen] at h
  | .branchElse _ _ _ _ alternative, h => by
    rw [Statement.tree, Stmt.toNode, Node.endsOpen_branch_toNode]
    exact alternative.endsOpen_tree h
  | .loop _ _ body, h => by
    rw [Statement.tree, Stmt.toNode, Node.endsOpen]
    exact body.endsOpen_tree h
  | .count _ header body, h => header.endsOpen_tree (body.endsOpen_tree h)

mutual

theorem Statement.isStatement : (s : Statement) → s.NearestElse → s.tree.toNode.IsStatement
  | .expression inner _, _ => .expression inner.isExpression
  | .print _ inner _, _ => .print inner.isExpression
  | .block _ body _, h => .block (body.isDeclaration h)
  | .branch _ condition consequence, h =>
    .branch condition.test.isExpression (consequence.isStatement h)
  | .branchElse _ condition consequence _ alternative, ⟨hThen, hClosed, hElse⟩ =>
    .branchElse condition.test.isExpression (consequence.isStatement hThen)
      (consequence.endsOpen_tree hClosed) (alternative.isStatement hElse)
  | .loop _ condition body, h => .loop condition.test.isExpression (body.isStatement h)
  | .count _ header body, h => header.isStatement (body.isStatement h)

theorem Declaration.isDeclaration : (d : Declaration) → d.NearestElse →
    d.tree.toNode.IsDeclaration
  | .variable inner, _ => inner.isDeclaration
  | .statement inner, h => .statement (inner.isStatement h)

theorem Declarations.isDeclaration : (ds : Declarations) → ds.NearestElse →
    ∀ n ∈ Stmt.toNodes ds.trees, n.IsDeclaration
  | .nil, _ => nofun
  | .cons first rest, ⟨hFirst, hRest⟩ => by
    rw [Declarations.trees, Stmt.toNodes, List.forall_mem_cons]
    exact ⟨first.isDeclaration hFirst, rest.isDeclaration hRest⟩

end

end Derivation

end Treewalk
