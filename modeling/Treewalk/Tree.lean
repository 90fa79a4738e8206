import Treewalk.Token

/-!
# Trees

Two families. `Expr` and `Stmt` are what the grammar yields: every child
is there and of the right sort, operators and names are tokens. `Node` is
what can be loaded from a file and run: the same thirteen forms, but any
child may be missing, a list, a token or a form of the other sort, and a
tree that is wrong in this way is found out only where it is visited.

Every proper tree is a node (`Stmt.toNode`); printing, storing and
running are defined on nodes alone, so a program means the same whether
it came from its source or through a file.
-/

namespace Treewalk

/-- An expression of the grammar. -/
inductive Expr where
  | binary (left : Expr) (operator : Token) (right : Expr)
  | grouping (inner : Expr)
  | literal (value : Value)
  | unary (operator : Token) (right : Expr)
  | variable (name : Token)
  | assign (name : Token) (value : Expr)
  | logical (left : Expr) (operator : Token) (right : Expr)

/-- A statement of the grammar. -/
inductive Stmt where
  | expression (inner : Expr)
  | print (inner : Expr)
  | var (name : Token) (initializer : Option Expr)
  | block (statements : List Stmt)
  | branch (condition : Expr) (consequence : Stmt) (alternative : Option Stmt)
  | loop (condition : Expr) (body : Stmt)

/-- A tree that may be malformed. -/
inductive Node where
  | absent
  | token (t : Token)
  | list (items : List Node)
  | binary (left operator right : Node)
  | grouping (inner : Node)
  | literal (value : Value)
  | unary (operator right : Node)
  | variable (name : Node)
  | assign (name value : Node)
  | logical (left operator right : Node)
  | expression (inner : Node)
  | print (inner : Node)
  | var (name initializer : Node)
  | block (statements : List Node)
  | branch (condition consequence alternative : Node)
  | loop (condition body : Node)

/-- The node of an expression. -/
def Expr.toNode : Expr → Node
  | .binary left operator right => .binary left.toNode (.token operator) right.toNode
  | .grouping inner => .grouping inner.toNode
  | .literal value => .literal value
  | .unary operator right => .unary (.token operator) right.toNode
  | .variable name => .variable (.token name)
  | .assign name value => .assign (.token name) value.toNode
  | .logical left operator right => .logical left.toNode (.token operator) right.toNode

/-- The node of an expression that may be left out. -/
def Expr.toNode? : Option Expr → Node
  | none => .absent
  | some e => e.toNode

mutual

/-- The node of a statement. -/
def Stmt.toNode : Stmt → Node
  | .expression inner => .expression inner.toNode
  | .print inner => .print inner.toNode
  | .var name initializer => .var (.token name) (Expr.toNode? initializer)
  | .block statements => .block (Stmt.toNodes statements)
  | .branch condition consequence none =>
    .branch condition.toNode consequence.toNode .absent
  | .branch condition consequence (some alternative) =>
    .branch condition.toNode consequence.toNode alternative.toNode
  | .loop condition body => .loop condition.toNode body.toNode

/-- The nodes of a list of statements. -/
def Stmt.toNodes : List Stmt → List Node
  | [] => []
  | s :: rest => s.toNode :: Stmt.toNodes rest

end

/-- The node of a declaration, absent where its reading failed. -/
def Stmt.toNode? : Option Stmt → Node
  | none => .absent
  | some s => s.toNode

end Treewalk
