import Treewalk.Tree.Grammar

/-!
# Derivation trees

A derivation is the token list with the grammar's structure on it: every
token stands where a rule put it and is of a kind that rule allows, so an
ill-formed derivation cannot be written down. One family a category; the
six levels of binary operators are one family with the level as index.

Four folds read a derivation:

- `tokens` is the token list it is a derivation of;
- `tree` is the tree it stands for: levels group to the left, `=` groups
  to the right and stands for its left side alone where that is no
  variable, and `for` is spelled with a block and a loop;
- `misplaced` lists the `=` signs whose left side is no variable, in the
  order in which their right sides end;
- `targets` lists what stands to the left of each `=`.

Which `else` goes with which `if` is the one thing the grammar leaves
open. `NearestElse` is the derivation that leaves no `if` open between an
`else` and its own `if`.
-/

namespace Treewalk.Derivation

/-- A token of one of the given kinds. -/
structure Leaf (kinds : List Kind) where
  token : Token
  allowed : token.kind ∈ kinds

/-- A token of one kind. -/
abbrev Mark (kind : Kind) : Type := Leaf [kind]

/-- The kinds of a primary expression that is one token. -/
def atoms : List Kind :=
  [.number, .string, .falseWord, .trueWord, .nilWord, .identifier]

mutual

/-- An assignment, or what could stand on its left. -/
inductive Expression where
  | plain (chain : Chain (some .disjunction))
  | assignment (target : Chain (some .disjunction)) (equals : Mark .equal) (value : Expression)

/-- Operands joined by the operators of a level; with no level left, a
unary expression. -/
inductive Chain : Option Level → Type where
  | unary (inner : Unary) : Chain none
  | level {level : Level} (first : Chain level.tighter?) (links : Links level) :
      Chain (some level)

/-- The operators of a level behind a first operand, each with its right
operand. -/
inductive Links : Level → Type where
  | none {level : Level} : Links level
  | link {level : Level} (operator : Leaf level.operators) (operand : Chain level.tighter?)
      (links : Links level) : Links level

/-- A sign and its operand, or a primary expression. -/
inductive Unary where
  | sign (operator : Leaf [.bang, .minus]) (operand : Unary)
  | primary (inner : Primary)

/-- A primary expression. -/
inductive Primary where
  | atom (leaf : Leaf atoms)
  | group (opening : Mark .leftParen) (inner : Expression) (closing : Mark .rightParen)

end

/-- A variable declaration. -/
structure Variable where
  word : Mark .varWord
  name : Mark .identifier
  initializer : Option (Mark .equal × Expression)
  semicolon : Mark .semicolon

/-- The parenthesised condition of an `if` or a `while`. -/
structure Condition where
  opening : Mark .leftParen
  test : Expression
  closing : Mark .rightParen

/-- The first clause of a `for`. -/
inductive Initializer where
  | empty (semicolon : Mark .semicolon)
  | variable (declaration : Variable)
  | expression (inner : Expression) (semicolon : Mark .semicolon)

/-- The clauses of a `for`. -/
structure Header where
  opening : Mark .leftParen
  initializer : Initializer
  condition : Option Expression
  semicolon : Mark .semicolon
  increment : Option Expression
  closing : Mark .rightParen

mutual

/-- A statement. -/
inductive Statement where
  | expression (inner : Expression) (semicolon : Mark .semicolon)
  | print (word : Mark .printWord) (inner : Expression) (semicolon : Mark .semicolon)
  | block (opening : Mark .leftBrace) (body : Declarations) (closing : Mark .rightBrace)
  | branch (word : Mark .ifWord) (condition : Condition) (consequence : Statement)
  | branchElse (word : Mark .ifWord) (condition : Condition) (consequence : Statement)
      (elseWord : Mark .elseWord) (alternative : Statement)
  | loop (word : Mark .whileWord) (condition : Condition) (body : Statement)
  | count (word : Mark .forWord) (header : Header) (body : Statement)

/-- A declaration. -/
inductive Declaration where
  | variable (inner : Variable)
  | statement (inner : Statement)

/-- Declarations in a row: the body of a block, or a program before its
end mark. -/
inductive Declarations where
  | nil
  | cons (first : Declaration) (rest : Declarations)

end

/-! ## The tokens -/

mutual

/-- The tokens of an expression. -/
def Expression.tokens : Expression → List Token
  | .plain chain => chain.tokens
  | .assignment target equals value => target.tokens ++ equals.token :: value.tokens

/-- The tokens of a chain. -/
def Chain.tokens : {level? : Option Level} → Chain level? → List Token
  | _, .unary inner => inner.tokens
  | _, .level first links => first.tokens ++ links.tokens

/-- The tokens behind a first operand. -/
def Links.tokens : {level : Level} → Links level → List Token
  | _, .none => []
  | _, .link operator operand links => operator.token :: operand.tokens ++ links.tokens

/-- The tokens of a unary expression. -/
def Unary.tokens : Unary → List Token
  | .sign operator operand => operator.token :: operand.tokens
  | .primary inner => inner.tokens

/-- The tokens of a primary expression. -/
def Primary.tokens : Primary → List Token
  | .atom leaf => [leaf.token]
  | .group opening inner closing => opening.token :: inner.tokens ++ [closing.token]

end

/-- The tokens of an expression that may be left out. -/
def Expression.tokens? : Option Expression → List Token
  | none => []
  | some e => e.tokens

/-- The tokens of an initial value that may be left out. -/
def Variable.valueTokens : Option (Mark .equal × Expression) → List Token
  | none => []
  | some (equals, value) => equals.token :: value.tokens

/-- The tokens of a variable declaration. -/
def Variable.tokens (v : Variable) : List Token :=
  v.word.token :: v.name.token :: valueTokens v.initializer ++ [v.semicolon.token]

/-- The tokens of a condition. -/
def Condition.tokens (c : Condition) : List Token :=
  c.opening.token :: c.test.tokens ++ [c.closing.token]

/-- The tokens of a first clause. -/
def Initializer.tokens : Initializer → List Token
  | .empty semicolon => [semicolon.token]
  | .variable declaration => declaration.tokens
  | .expression inner semicolon => inner.tokens ++ [semicolon.token]

/-- The tokens of the clauses of a `for`. -/
def Header.tokens (h : Header) : List Token :=
  h.opening.token :: h.initializer.tokens
    ++ (Expression.tokens? h.condition ++ [h.semicolon.token])
    ++ (Expression.tokens? h.increment ++ [h.closing.token])

mutual

/-- The tokens of a statement. -/
def Statement.tokens : Statement → List Token
  | .expression inner semicolon => inner.tokens ++ [semicolon.token]
  | .print word inner semicolon => word.token :: inner.tokens ++ [semicolon.token]
  | .block opening body closing => opening.token :: body.tokens ++ [closing.token]
  | .branch word condition consequence =>
    word.token :: condition.tokens ++ consequence.tokens
  | .branchElse word condition consequence elseWord alternative =>
    word.token :: condition.tokens ++ consequence.tokens
      ++ elseWord.token :: alternative.tokens
  | .loop word condition body => word.token :: condition.tokens ++ body.tokens
  | .count word header body => word.token :: header.tokens ++ body.tokens

/-- The tokens of a declaration. -/
def Declaration.tokens : Declaration → List Token
  | .variable inner => inner.tokens
  | .statement inner => inner.tokens

/-- The tokens of declarations in a row. -/
def Declarations.tokens : Declarations → List Token
  | .nil => []
  | .cons first rest => first.tokens ++ rest.tokens

end

/-! ## The tree -/

/-- What a token that is an expression by itself stands for. -/
def atomTree (t : Token) : Expr :=
  match t.kind with
  | .falseWord => .literal (.bool false)
  | .trueWord => .literal (.bool true)
  | .nilWord => .literal .nil
  | .identifier => .variable t
  | _ => .literal t.literal

/-- Two operands joined at a level: the two loosest levels are logical. -/
def join (level : Level) (left : Expr) (operator : Token) (right : Expr) : Expr :=
  match level with
  | .disjunction | .conjunction => .logical left operator right
  | .equality | .comparison | .sum | .product => .binary left operator right

/-- An assignment; without a variable on its left it stands for its left
side. -/
def assignTree (target value : Expr) : Expr :=
  match target with
  | .variable name => .assign name value
  | target => target

mutual

/-- The tree of an expression. -/
def Expression.tree : Expression → Expr
  | .plain chain => chain.tree
  | .assignment target _ value => assignTree target.tree value.tree

/-- The tree of a chain. -/
def Chain.tree : {level? : Option Level} → Chain level? → Expr
  | _, .unary inner => inner.tree
  | _, .level first links => links.tree first.tree

/-- The tree of a first operand with the links behind it, grouped to the
left. -/
def Links.tree : {level : Level} → Links level → Expr → Expr
  | _, .none, left => left
  | level, .link operator operand links, left =>
    links.tree (join level left operator.token operand.tree)

/-- The tree of a unary expression. -/
def Unary.tree : Unary → Expr
  | .sign operator operand => .unary operator.token operand.tree
  | .primary inner => inner.tree

/-- The tree of a primary expression. -/
def Primary.tree : Primary → Expr
  | .atom leaf => atomTree leaf.token
  | .group _ inner _ => .grouping inner.tree

end

/-- The tree of a variable declaration. -/
def Variable.tree (v : Variable) : Stmt :=
  .var v.name.token (v.initializer.map fun (_, value) => value.tree)

/-- The tree of a first clause, if it is not empty. -/
def Initializer.tree? : Initializer → Option Stmt
  | .empty _ => none
  | .variable declaration => some declaration.tree
  | .expression inner _ => some (.expression inner.tree)

/-- The body of a `for` with the increment behind it. -/
def withIncrement (increment : Option Expression) (body : Stmt) : Stmt :=
  match increment with
  | none => body
  | some e => .block [body, .expression e.tree]

/-- The tree of a `for`:
`{ initializer; while (condition) { body; increment; } }`, where
absent parts are left out and an absent condition is true. -/
def Header.tree (h : Header) (body : Stmt) : Stmt :=
  let test := match h.condition with
    | none => .literal (.bool true)
    | some e => e.tree
  let loop := Stmt.loop test (withIncrement h.increment body)
  match h.initializer.tree? with
  | none => loop
  | some first => .block [first, loop]

mutual

/-- The tree of a statement. -/
def Statement.tree : Statement → Stmt
  | .expression inner _ => .expression inner.tree
  | .print _ inner _ => .print inner.tree
  | .block _ body _ => .block body.trees
  | .branch _ condition consequence => .branch condition.test.tree consequence.tree none
  | .branchElse _ condition consequence _ alternative =>
    .branch condition.test.tree consequence.tree (some alternative.tree)
  | .loop _ condition body => .loop condition.test.tree body.tree
  | .count _ header body => header.tree body.tree

/-- The tree of a declaration. -/
def Declaration.tree : Declaration → Stmt
  | .variable inner => inner.tree
  | .statement inner => inner.tree

/-- The trees of declarations in a row. -/
def Declarations.trees : Declarations → List Stmt
  | .nil => []
  | .cons first rest => first.tree :: rest.trees

end

/-! ## The assignments -/

/-- The sign of an assignment, unless a variable stands on its left. -/
def misplacedSign (target : Expr) (equals : Token) : List Token :=
  match target with
  | .variable _ => []
  | _ => [equals]

mutual

/-- The misplaced signs of an expression. -/
def Expression.misplaced : Expression → List Token
  | .plain chain => chain.misplaced
  | .assignment target equals value =>
    target.misplaced ++ value.misplaced ++ misplacedSign target.tree equals.token

/-- The misplaced signs of a chain. -/
def Chain.misplaced : {level? : Option Level} → Chain level? → List Token
  | _, .unary inner => inner.misplaced
  | _, .level first links => first.misplaced ++ links.misplaced

/-- The misplaced signs behind a first operand. -/
def Links.misplaced : {level : Level} → Links level → List Token
  | _, .none => []
  | _, .link _ operand links => operand.misplaced ++ links.misplaced

/-- The misplaced signs of a unary expression. -/
def Unary.misplaced : Unary → List Token
  | .sign _ operand => operand.misplaced
  | .primary inner => inner.misplaced

/-- The misplaced signs of a primary expression. -/
def Primary.misplaced : Primary → List Token
  | .atom _ => []
  | .group _ inner _ => inner.misplaced

end

mutual

/-- What stands to the left of each `=` of an expression. -/
def Expression.targets : Expression → List (List Token)
  | .plain chain => chain.targets
  | .assignment target _ value => target.targets ++ value.targets ++ [target.tokens]

/-- What stands to the left of each `=` of a chain. -/
def Chain.targets : {level? : Option Level} → Chain level? → List (List Token)
  | _, .unary inner => inner.targets
  | _, .level first links => first.targets ++ links.targets

/-- What stands to the left of each `=` behind a first operand. -/
def Links.targets : {level : Level} → Links level → List (List Token)
  | _, .none => []
  | _, .link _ operand links => operand.targets ++ links.targets

/-- What stands to the left of each `=` of a unary expression. -/
def Unary.targets : Unary → List (List Token)
  | .sign _ operand => operand.targets
  | .primary inner => inner.targets

/-- What stands to the left of each `=` of a primary expression. -/
def Primary.targets : Primary → List (List Token)
  | .atom _ => []
  | .group _ inner _ => inner.targets

end

/-- The expressions of a variable declaration. -/
def Variable.expressions (v : Variable) : List Expression :=
  (v.initializer.map Prod.snd).toList

/-- The expressions of a first clause. -/
def Initializer.expressions : Initializer → List Expression
  | .empty _ => []
  | .variable declaration => declaration.expressions
  | .expression inner _ => [inner]

/-- The expressions of the clauses of a `for`. -/
def Header.expressions (h : Header) : List Expression :=
  h.initializer.expressions ++ h.condition.toList ++ h.increment.toList

mutual

/-- The expressions of a statement that stand in no other expression, from
left to right. -/
def Statement.expressions : Statement → List Expression
  | .expression inner _ => [inner]
  | .print _ inner _ => [inner]
  | .block _ body _ => body.expressions
  | .branch _ condition consequence => condition.test :: consequence.expressions
  | .branchElse _ condition consequence _ alternative =>
    condition.test :: consequence.expressions ++ alternative.expressions
  | .loop _ condition body => condition.test :: body.expressions
  | .count _ header body => header.expressions ++ body.expressions

/-- The expressions of a declaration. -/
def Declaration.expressions : Declaration → List Expression
  | .variable inner => inner.expressions
  | .statement inner => inner.expressions

/-- The expressions of declarations in a row. -/
def Declarations.expressions : Declarations → List Expression
  | .nil => []
  | .cons first rest => first.expressions ++ rest.expressions

end

/-- The misplaced signs of expressions in a row. -/
def misplacedIn (expressions : List Expression) : List Token :=
  expressions.flatMap Expression.misplaced

/-- What stands to the left of each `=` of expressions in a row. -/
def targetsIn (expressions : List Expression) : List (List Token) :=
  expressions.flatMap Expression.targets

/-- The complaints about misplaced signs. -/
def complaints (signs : List Token) : List Complaint :=
  signs.map fun equals => ⟨equals, .assignmentTarget⟩

/-! ## The nearest `if` -/

/-- Whether a statement ends in an `if` that could still take an `else`. -/
def Statement.endsOpen : Statement → Bool
  | .branch .. => true
  | .branchElse _ _ _ _ alternative => alternative.endsOpen
  | .loop _ _ body => body.endsOpen
  | .count _ _ body => body.endsOpen
  | .expression .. | .print .. | .block .. => false

mutual

/-- Every `else` belongs to the nearest open `if`: none stands behind a
statement that ends in an open one. -/
def Statement.NearestElse : Statement → Prop
  | .expression .. | .print .. => True
  | .block _ body _ => body.NearestElse
  | .branch _ _ consequence => consequence.NearestElse
  | .branchElse _ _ consequence _ alternative =>
    consequence.NearestElse ∧ consequence.endsOpen = false ∧ alternative.NearestElse
  | .loop _ _ body => body.NearestElse
  | .count _ _ body => body.NearestElse

/-- Every `else` of a declaration belongs to the nearest open `if`. -/
def Declaration.NearestElse : Declaration → Prop
  | .variable _ => True
  | .statement inner => inner.NearestElse

/-- Every `else` of declarations in a row belongs to the nearest open
`if`. -/
def Declarations.NearestElse : Declarations → Prop
  | .nil => True
  | .cons first rest => first.NearestElse ∧ rest.NearestElse

end

end Treewalk.Derivation
