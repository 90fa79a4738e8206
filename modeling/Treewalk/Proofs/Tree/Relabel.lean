import Treewalk.Proofs.Machine.Correspondence

/-!
# Trees with other tokens

A proper tree with its tokens exchanged one by one has the same shape, so
the two are alike in the sense of a correspondence, and neither is
malformed (`Stmt.allAlike_mapAll`). What is known of the contents of the
tree (`Stmt.AllSound`) is known of the tokens that are compared.
-/

namespace Treewalk

/-- An expression with other tokens. -/
def Expr.map (f : Token → Token) : Expr → Expr
  | .binary left operator right => .binary (left.map f) (f operator) (right.map f)
  | .grouping inner => .grouping (inner.map f)
  | .literal value => .literal value
  | .unary operator right => .unary (f operator) (right.map f)
  | .variable name => .variable (f name)
  | .assign name value => .assign (f name) (value.map f)
  | .logical left operator right => .logical (left.map f) (f operator) (right.map f)

mutual

/-- A statement with other tokens. -/
def Stmt.map (f : Token → Token) : Stmt → Stmt
  | .expression inner => .expression (inner.map f)
  | .print inner => .print (inner.map f)
  | .var name initializer => .var (f name) (initializer.map (Expr.map f))
  | .block statements => .block (Stmt.mapAll f statements)
  | .branch condition consequence none => .branch (condition.map f) (consequence.map f) none
  | .branch condition consequence (some alternative) =>
    .branch (condition.map f) (consequence.map f) (some (alternative.map f))
  | .loop condition body => .loop (condition.map f) (body.map f)

/-- Statements in a row with other tokens. -/
def Stmt.mapAll (f : Token → Token) : List Stmt → List Stmt
  | [] => []
  | s :: rest => s.map f :: Stmt.mapAll f rest

end

/-! ## The same tokens -/

theorem Expr.map_id : (e : Expr) → e.map id = e
  | .literal _ | .variable _ => rfl
  | .grouping inner => by rw [Expr.map, inner.map_id]
  | .unary _ right => by rw [Expr.map, right.map_id, id]
  | .assign _ value => by rw [Expr.map, value.map_id, id]
  | .binary left _ right | .logical left _ right => by
    rw [Expr.map, left.map_id, right.map_id, id]

mutual

theorem Stmt.map_id : (s : Stmt) → s.map id = s
  | .expression inner | .print inner => by rw [Stmt.map, inner.map_id]
  | .var name initializer => by
    have hValue : initializer.map (Expr.map id) = initializer := by
      cases initializer with
      | none => rfl
      | some e => rw [Option.map_some, e.map_id]
    rw [Stmt.map, hValue, id]
  | .block statements => by rw [Stmt.map, Stmt.mapAll_id statements]
  | .branch condition consequence none => by rw [Stmt.map, condition.map_id, consequence.map_id]
  | .branch condition consequence (some alternative) => by
    rw [Stmt.map, condition.map_id, consequence.map_id, alternative.map_id]
  | .loop condition body => by rw [Stmt.map, condition.map_id, body.map_id]

theorem Stmt.mapAll_id : (statements : List Stmt) → Stmt.mapAll id statements = statements
  | [] => rfl
  | s :: rest => by rw [Stmt.mapAll, s.map_id, Stmt.mapAll_id rest]

end

/-! ## The same shape -/

/-- The likeness of a tree with given contents to the one with other
tokens. -/
def Likeness.relabelled (contents : Contents) (f : Token → Token) : Likeness where
  token t t' := contents.token t ∧ t' = f t
  malformed := False

variable {contents : Contents} {f : Token → Token}

theorem Contents.Fits.marks {kinds : List Kind} {t : Token} (h : contents.Fits kinds t) :
    (Likeness.relabelled contents f).Marks (some t) (some (f t)) :=
  .token ⟨h.2, rfl⟩

theorem Expr.alike_map : (e : Expr) → e.Sound contents →
    e.toNode.Alike (.relabelled contents f) (e.map f).toNode
  | .literal _, _ => by
    rw [Expr.toNode, Node.Alike]
    rfl
  | .grouping inner, h => by
    rw [Expr.toNode, Node.Alike]
    exact ⟨_, rfl, inner.alike_map h⟩
  | .variable name, h => by
    rw [Expr.toNode, Node.Alike]
    exact ⟨_, rfl, h.marks⟩
  | .assign name value, ⟨hName, hValue⟩ => by
    rw [Expr.toNode, Node.Alike]
    exact ⟨_, _, rfl, hName.marks, value.alike_map hValue⟩
  | .unary operator right, ⟨hOperator, hRight⟩ => by
    rw [Expr.toNode, Node.Alike]
    exact ⟨_, _, rfl, hOperator.marks, right.alike_map hRight⟩
  | .binary left operator right, ⟨hLeft, hOperator, hRight⟩
  | .logical left operator right, ⟨hLeft, hOperator, hRight⟩ => by
    rw [Expr.toNode, Node.Alike]
    exact ⟨_, _, _, rfl, left.alike_map hLeft, hOperator.marks, right.alike_map hRight⟩

mutual

theorem Stmt.alike_map : (s : Stmt) → s.Sound contents →
    s.toNode.Alike (.relabelled contents f) (s.map f).toNode
  | .expression inner, h | .print inner, h => by
    rw [Stmt.toNode, Node.Alike]
    exact ⟨_, rfl, inner.alike_map h⟩
  | .var name none, ⟨hName, _⟩ => by
    rw [Stmt.toNode, Expr.toNode?, Node.Alike]
    exact ⟨_, rfl, hName.marks⟩
  | .var name (some e), ⟨hName, he⟩ => by
    rw [Stmt.toNode, Expr.toNode?, Node.Alike]
    · exact ⟨_, _, rfl, (e.map f).toNode_ne_absent, hName.marks, e.alike_map he⟩
    · exact e.toNode_ne_absent
  | .block statements, h => by
    rw [Stmt.toNode, Node.Alike]
    exact ⟨_, rfl, Stmt.allAlike_mapAll statements h⟩
  | .branch condition consequence none, ⟨hTest, hThen⟩ => by
    rw [Stmt.toNode, Node.Alike]
    exact ⟨_, _, rfl, condition.alike_map hTest, consequence.alike_map hThen⟩
  | .branch condition consequence (some alternative), ⟨hTest, hThen, hElse⟩ => by
    rw [Stmt.toNode, Node.Alike]
    · exact ⟨_, _, _, rfl, (alternative.map f).toNode_ne_absent, condition.alike_map hTest,
        consequence.alike_map hThen, alternative.alike_map hElse⟩
    · exact alternative.toNode_ne_absent
  | .loop condition body, ⟨hTest, hBody⟩ => by
    rw [Stmt.toNode, Node.Alike]
    exact ⟨_, _, rfl, condition.alike_map hTest, body.alike_map hBody⟩

/-- Statements in a row and the same with other tokens are alike. -/
theorem Stmt.allAlike_mapAll : (statements : List Stmt) → Stmt.AllSound contents statements →
    Node.AllAlike (.relabelled contents f) (Stmt.toNodes statements)
      (Stmt.toNodes (Stmt.mapAll f statements))
  | [], _ => by
    rw [Stmt.toNodes, Node.AllAlike]
    rfl
  | s :: rest, ⟨hs, hRest⟩ => by
    rw [Stmt.toNodes, Node.AllAlike]
    exact ⟨_, _, rfl, s.alike_map hs, Stmt.allAlike_mapAll rest hRest⟩

end

/-- Statements in a row are like themselves in what they contain. -/
theorem Stmt.allAlike_self (statements : List Stmt) (h : Stmt.AllSound contents statements) :
    Node.AllAlike (.relabelled contents id) (Stmt.toNodes statements)
      (Stmt.toNodes statements) := by
  have hAlike := Stmt.allAlike_mapAll (f := id) statements h
  rwa [Stmt.mapAll_id] at hAlike

end Treewalk
