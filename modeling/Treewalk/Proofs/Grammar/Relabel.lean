import Treewalk.Proofs.Grammar.Program
import Treewalk.Proofs.Tree.Relabel

/-!
# Derivations with other tokens

The grammar looks at the kinds of tokens, and a tree at their values too.
So tokens can be exchanged in a derivation for others of the same kind and
value (`Relabelling`): its tokens, its trees and its misplaced signs are
then the exchanged ones. With derivations put one behind the other
(`Declarations.append`) this tells what two token lists are read as
together, if each is read without a complaint (`parse_append`).
-/

namespace Treewalk

/-- Other tokens, of the same kinds and with the same values. -/
structure Relabelling where
  apply : Token → Token
  kind : ∀ t, (apply t).kind = t.kind
  literal : ∀ t, (apply t).literal = t.literal

namespace Derivation

/-! ## Exchange -/

/-- A token exchanged. -/
def Leaf.map (r : Relabelling) {kinds : List Kind} (leaf : Leaf kinds) : Leaf kinds :=
  ⟨r.apply leaf.token, (r.kind leaf.token).symm ▸ leaf.allowed⟩

mutual

def Expression.map (r : Relabelling) : Expression → Expression
  | .plain chain => .plain (chain.map r)
  | .assignment target equals value =>
    .assignment (target.map r) (equals.map r) (value.map r)

def Chain.map (r : Relabelling) : {level? : Option Level} → Chain level? → Chain level?
  | _, .unary inner => .unary (inner.map r)
  | _, .level first links => .level (first.map r) (links.map r)

def Links.map (r : Relabelling) : {level : Level} → Links level → Links level
  | _, .none => .none
  | _, .link operator operand links => .link (operator.map r) (operand.map r) (links.map r)

def Unary.map (r : Relabelling) : Unary → Unary
  | .sign operator operand => .sign (operator.map r) (operand.map r)
  | .primary inner => .primary (inner.map r)

def Primary.map (r : Relabelling) : Primary → Primary
  | .atom leaf => .atom (leaf.map r)
  | .group opening inner closing => .group (opening.map r) (inner.map r) (closing.map r)

end

def Variable.map (r : Relabelling) (v : Variable) : Variable where
  word := v.word.map r
  name := v.name.map r
  initializer := v.initializer.map fun (equals, value) => (equals.map r, value.map r)
  semicolon := v.semicolon.map r

def Condition.map (r : Relabelling) (c : Condition) : Condition :=
  ⟨c.opening.map r, c.test.map r, c.closing.map r⟩

def Initializer.map (r : Relabelling) : Initializer → Initializer
  | .empty semicolon => .empty (semicolon.map r)
  | .variable declaration => .variable (declaration.map r)
  | .expression inner semicolon => .expression (inner.map r) (semicolon.map r)

def Header.map (r : Relabelling) (h : Header) : Header where
  opening := h.opening.map r
  initializer := h.initializer.map r
  condition := h.condition.map (Expression.map r)
  semicolon := h.semicolon.map r
  increment := h.increment.map (Expression.map r)
  closing := h.closing.map r

mutual

def Statement.map (r : Relabelling) : Statement → Statement
  | .expression inner semicolon => .expression (inner.map r) (semicolon.map r)
  | .print word inner semicolon => .print (word.map r) (inner.map r) (semicolon.map r)
  | .block opening body closing => .block (opening.map r) (body.map r) (closing.map r)
  | .branch word condition consequence =>
    .branch (word.map r) (condition.map r) (consequence.map r)
  | .branchElse word condition consequence elseWord alternative =>
    .branchElse (word.map r) (condition.map r) (consequence.map r) (elseWord.map r)
      (alternative.map r)
  | .loop word condition body => .loop (word.map r) (condition.map r) (body.map r)
  | .count word header body => .count (word.map r) (header.map r) (body.map r)

def Declaration.map (r : Relabelling) : Declaration → Declaration
  | .variable inner => .variable (inner.map r)
  | .statement inner => .statement (inner.map r)

def Declarations.map (r : Relabelling) : Declarations → Declarations
  | .nil => .nil
  | .cons first rest => .cons (first.map r) (rest.map r)

end

variable (r : Relabelling)

/-! ## The tokens -/

mutual

theorem Expression.tokens_map : (e : Expression) → (e.map r).tokens = e.tokens.map r.apply
  | .plain chain => chain.tokens_map
  | .assignment target _ value => by
    rw [Expression.map, Expression.tokens, target.tokens_map, value.tokens_map, Expression.tokens,
      List.map_append, List.map_cons]
    rfl

theorem Chain.tokens_map : {level? : Option Level} → (c : Chain level?) →
    (c.map r).tokens = c.tokens.map r.apply
  | _, .unary inner => inner.tokens_map
  | _, .level first links => by
    rw [Chain.map, Chain.tokens, first.tokens_map, links.tokens_map, Chain.tokens, List.map_append]

theorem Links.tokens_map : {level : Level} → (links : Links level) →
    (links.map r).tokens = links.tokens.map r.apply
  | _, .none => rfl
  | _, .link _ operand links => by
    rw [Links.map, Links.tokens, operand.tokens_map, links.tokens_map, Links.tokens,
      List.map_append, List.map_cons]
    rfl

theorem Unary.tokens_map : (u : Unary) → (u.map r).tokens = u.tokens.map r.apply
  | .sign _ operand => by
    rw [Unary.map, Unary.tokens, operand.tokens_map, Unary.tokens, List.map_cons]
    rfl
  | .primary inner => inner.tokens_map

theorem Primary.tokens_map : (p : Primary) → (p.map r).tokens = p.tokens.map r.apply
  | .atom _ => rfl
  | .group _ inner _ => by
    rw [Primary.map, Primary.tokens, inner.tokens_map, Primary.tokens, List.map_append,
      List.map_cons]
    rfl

end

theorem Expression.tokens?_map (e? : Option Expression) :
    Expression.tokens? (e?.map (Expression.map r)) = (Expression.tokens? e?).map r.apply := by
  cases e? with
  | none => rfl
  | some e => exact e.tokens_map r

theorem Variable.tokens_map (v : Variable) : (v.map r).tokens = v.tokens.map r.apply := by
  obtain ⟨word, name, initializer, semicolon⟩ := v
  cases initializer with
  | none => rfl
  | some pair =>
    simp [Variable.map, Variable.tokens, Variable.valueTokens, pair.2.tokens_map, Leaf.map]

theorem Condition.tokens_map (c : Condition) : (c.map r).tokens = c.tokens.map r.apply := by
  simp [Condition.map, Condition.tokens, c.test.tokens_map, Leaf.map]

theorem Initializer.tokens_map (i : Initializer) : (i.map r).tokens = i.tokens.map r.apply := by
  match i with
  | .empty _ => rfl
  | .variable declaration => exact declaration.tokens_map r
  | .expression inner _ => simp [Initializer.map, Initializer.tokens, inner.tokens_map, Leaf.map]

theorem Header.tokens_map (h : Header) : (h.map r).tokens = h.tokens.map r.apply := by
  simp [Header.map, Header.tokens, h.initializer.tokens_map, Expression.tokens?_map, Leaf.map]

mutual

theorem Statement.tokens_map : (s : Statement) → (s.map r).tokens = s.tokens.map r.apply
  | .expression inner _ | .print _ inner _ => by
    simp [Statement.map, Statement.tokens, inner.tokens_map, Leaf.map]
  | .block _ body _ => by
    simp [Statement.map, Statement.tokens, body.tokens_map, Leaf.map]
  | .branch _ condition consequence => by
    simp [Statement.map, Statement.tokens, condition.tokens_map, consequence.tokens_map, Leaf.map]
  | .branchElse _ condition consequence _ alternative => by
    simp [Statement.map, Statement.tokens, condition.tokens_map, consequence.tokens_map,
      alternative.tokens_map, Leaf.map]
  | .loop _ condition body => by
    simp [Statement.map, Statement.tokens, condition.tokens_map, body.tokens_map, Leaf.map]
  | .count _ header body => by
    simp [Statement.map, Statement.tokens, header.tokens_map, body.tokens_map, Leaf.map]

theorem Declaration.tokens_map : (d : Declaration) → (d.map r).tokens = d.tokens.map r.apply
  | .variable inner => inner.tokens_map r
  | .statement inner => inner.tokens_map

theorem Declarations.tokens_map : (d : Declarations) → (d.map r).tokens = d.tokens.map r.apply
  | .nil => rfl
  | .cons first rest => by
    rw [Declarations.map, Declarations.tokens, first.tokens_map, rest.tokens_map,
      Declarations.tokens, List.map_append]

end

/-! ## The trees -/

theorem atomTree_map (t : Token) : atomTree (r.apply t) = (atomTree t).map r.apply := by
  unfold atomTree
  rw [r.kind, r.literal]
  split <;> rfl

theorem join_map (level : Level) (left : Expr) (operator : Token) (right : Expr) :
    (join level left operator right).map r.apply =
      join level (left.map r.apply) (r.apply operator) (right.map r.apply) := by
  cases level <;> rfl

theorem assignTree_map (target value : Expr) :
    (assignTree target value).map r.apply =
      assignTree (target.map r.apply) (value.map r.apply) := by
  cases target <;> rfl

mutual

theorem Expression.tree_map : (e : Expression) → (e.map r).tree = e.tree.map r.apply
  | .plain chain => chain.tree_map
  | .assignment target _ value => by
    rw [Expression.map, Expression.tree, target.tree_map, value.tree_map, Expression.tree,
      assignTree_map]

theorem Chain.tree_map : {level? : Option Level} → (c : Chain level?) →
    (c.map r).tree = c.tree.map r.apply
  | _, .unary inner => inner.tree_map
  | _, .level first links => by
    rw [Chain.map, Chain.tree, first.tree_map, links.tree_map, Chain.tree]

theorem Links.tree_map : {level : Level} → (links : Links level) → (left : Expr) →
    (links.map r).tree (left.map r.apply) = (links.tree left).map r.apply
  | _, .none, _ => rfl
  | level, .link operator operand links, left => by
    rw [Links.map, Links.tree, operand.tree_map, Links.tree, ← links.tree_map, join_map]
    rfl

theorem Unary.tree_map : (u : Unary) → (u.map r).tree = u.tree.map r.apply
  | .sign _ operand => by
    rw [Unary.map, Unary.tree, operand.tree_map]
    rfl
  | .primary inner => inner.tree_map

theorem Primary.tree_map : (p : Primary) → (p.map r).tree = p.tree.map r.apply
  | .atom leaf => atomTree_map r leaf.token
  | .group _ inner _ => by
    rw [Primary.map, Primary.tree, inner.tree_map]
    rfl

end

theorem Variable.tree_map (v : Variable) : (v.map r).tree = v.tree.map r.apply := by
  obtain ⟨word, name, initializer, semicolon⟩ := v
  cases initializer with
  | none => rfl
  | some pair =>
    rw [Variable.tree, Variable.tree, Stmt.map]
    simp [Variable.map, pair.2.tree_map, Leaf.map]

theorem Initializer.tree?_map (i : Initializer) :
    (i.map r).tree? = i.tree?.map (Stmt.map r.apply) := by
  match i with
  | .empty _ => rfl
  | .variable declaration =>
    exact congrArg some (declaration.tree_map r)
  | .expression inner _ =>
    rw [Initializer.map, Initializer.tree?, inner.tree_map, Initializer.tree?, Option.map_some,
      Stmt.map]

theorem withIncrement_map (increment : Option Expression) (body : Stmt) :
    withIncrement (increment.map (Expression.map r)) (body.map r.apply) =
      (withIncrement increment body).map r.apply := by
  cases increment with
  | none => rfl
  | some e =>
    simp only [Option.map_some, withIncrement, Stmt.map, Stmt.mapAll, e.tree_map]

theorem Header.tree_map (h : Header) (body : Stmt) :
    (h.map r).tree (body.map r.apply) = (h.tree body).map r.apply := by
  obtain ⟨opening, initializer, condition, semicolon, increment, closing⟩ := h
  cases condition <;> cases hFirst : initializer.tree? <;>
    simp only [Header.map, Header.tree, initializer.tree?_map, withIncrement_map, hFirst,
      Expression.tree_map, Option.map_none, Option.map_some, Stmt.map, Stmt.mapAll, Expr.map]

mutual

theorem Statement.tree_map : (s : Statement) → (s.map r).tree = s.tree.map r.apply
  | .expression inner _ | .print _ inner _ => by
    rw [Statement.map, Statement.tree, inner.tree_map, Statement.tree, Stmt.map]
  | .block _ body _ => by
    rw [Statement.map, Statement.tree, body.trees_map, Statement.tree, Stmt.map]
  | .branch _ condition consequence => by
    rw [Statement.map, Statement.tree, consequence.tree_map, Condition.map,
      condition.test.tree_map, Statement.tree, Stmt.map]
  | .branchElse _ condition consequence _ alternative => by
    rw [Statement.map, Statement.tree, consequence.tree_map, alternative.tree_map, Condition.map,
      condition.test.tree_map, Statement.tree, Stmt.map]
  | .loop _ condition body => by
    rw [Statement.map, Statement.tree, body.tree_map, Condition.map, condition.test.tree_map,
      Statement.tree, Stmt.map]
  | .count _ header body => by
    rw [Statement.map, Statement.tree, body.tree_map, header.tree_map, Statement.tree]

theorem Declaration.tree_map : (d : Declaration) → (d.map r).tree = d.tree.map r.apply
  | .variable inner => inner.tree_map r
  | .statement inner => inner.tree_map

theorem Declarations.trees_map : (d : Declarations) →
    (d.map r).trees = Stmt.mapAll r.apply d.trees
  | .nil => rfl
  | .cons first rest => by
    rw [Declarations.map, Declarations.trees, first.tree_map, rest.trees_map, Declarations.trees,
      Stmt.mapAll]

end

/-! ## The misplaced signs -/

theorem misplacedSign_map (target : Expr) (equals : Token) :
    misplacedSign (target.map r.apply) (r.apply equals) =
      (misplacedSign target equals).map r.apply := by
  cases target <;> rfl

mutual

theorem Expression.misplaced_map : (e : Expression) →
    (e.map r).misplaced = e.misplaced.map r.apply
  | .plain chain => chain.misplaced_map
  | .assignment target equals value => by
    rw [Expression.map, Expression.misplaced, target.misplaced_map, value.misplaced_map,
      target.tree_map, Expression.misplaced, List.map_append, List.map_append, ← misplacedSign_map]
    rfl

theorem Chain.misplaced_map : {level? : Option Level} → (c : Chain level?) →
    (c.map r).misplaced = c.misplaced.map r.apply
  | _, .unary inner => inner.misplaced_map
  | _, .level first links => by
    rw [Chain.map, Chain.misplaced, first.misplaced_map, links.misplaced_map, Chain.misplaced,
      List.map_append]

theorem Links.misplaced_map : {level : Level} → (links : Links level) →
    (links.map r).misplaced = links.misplaced.map r.apply
  | _, .none => rfl
  | _, .link _ operand links => by
    rw [Links.map, Links.misplaced, operand.misplaced_map, links.misplaced_map, Links.misplaced,
      List.map_append]

theorem Unary.misplaced_map : (u : Unary) → (u.map r).misplaced = u.misplaced.map r.apply
  | .sign _ operand => operand.misplaced_map
  | .primary inner => inner.misplaced_map

theorem Primary.misplaced_map : (p : Primary) → (p.map r).misplaced = p.misplaced.map r.apply
  | .atom _ => rfl
  | .group _ inner _ => inner.misplaced_map

end

theorem Variable.expressions_map (v : Variable) :
    (v.map r).expressions = v.expressions.map (Expression.map r) := by
  obtain ⟨word, name, initializer, semicolon⟩ := v
  cases initializer <;> rfl

theorem Initializer.expressions_map (i : Initializer) :
    (i.map r).expressions = i.expressions.map (Expression.map r) := by
  match i with
  | .empty _ | .expression _ _ => rfl
  | .variable declaration => exact declaration.expressions_map r

theorem Header.expressions_map (h : Header) :
    (h.map r).expressions = h.expressions.map (Expression.map r) := by
  obtain ⟨opening, initializer, condition, semicolon, increment, closing⟩ := h
  cases condition <;> cases increment <;>
    simp [Header.map, Header.expressions, initializer.expressions_map]

mutual

theorem Statement.expressions_map : (s : Statement) →
    (s.map r).expressions = s.expressions.map (Expression.map r)
  | .expression _ _ | .print _ _ _ => rfl
  | .block _ body _ => body.expressions_map
  | .branch _ condition consequence => by
    simp [Statement.map, Statement.expressions, Condition.map, consequence.expressions_map]
  | .branchElse _ condition consequence _ alternative => by
    simp [Statement.map, Statement.expressions, Condition.map, consequence.expressions_map,
      alternative.expressions_map]
  | .loop _ condition body => by
    simp [Statement.map, Statement.expressions, Condition.map, body.expressions_map]
  | .count _ header body => by
    simp [Statement.map, Statement.expressions, header.expressions_map, body.expressions_map]

theorem Declaration.expressions_map : (d : Declaration) →
    (d.map r).expressions = d.expressions.map (Expression.map r)
  | .variable inner => inner.expressions_map r
  | .statement inner => inner.expressions_map

theorem Declarations.expressions_map : (d : Declarations) →
    (d.map r).expressions = d.expressions.map (Expression.map r)
  | .nil => rfl
  | .cons first rest => by
    rw [Declarations.map, Declarations.expressions, first.expressions_map, rest.expressions_map,
      Declarations.expressions, List.map_append]

end

theorem misplacedIn_map (expressions : List Expression) :
    misplacedIn (expressions.map (Expression.map r)) =
      (misplacedIn expressions).map r.apply := by
  induction expressions with
  | nil => rfl
  | cons e more ih =>
    rw [List.map_cons, misplacedIn_cons, ih, e.misplaced_map, misplacedIn_cons, List.map_append]

/-! ## The nearest `if` -/

theorem Statement.endsOpen_map : (s : Statement) → (s.map r).endsOpen = s.endsOpen
  | .expression .. | .print .. | .block .. | .branch .. => rfl
  | .branchElse _ _ _ _ alternative => alternative.endsOpen_map
  | .loop _ _ body | .count _ _ body => body.endsOpen_map

mutual

theorem Statement.NearestElse.map : (s : Statement) → s.NearestElse → (s.map r).NearestElse
  | .expression .., _ | .print .., _ => trivial
  | .block _ body _, h => Declarations.NearestElse.map body h
  | .branch _ _ consequence, h => Statement.NearestElse.map consequence h
  | .branchElse _ _ consequence _ alternative, ⟨hThen, hClosed, hElse⟩ =>
    ⟨Statement.NearestElse.map consequence hThen,
      (consequence.endsOpen_map r).trans hClosed, Statement.NearestElse.map alternative hElse⟩
  | .loop _ _ body, h | .count _ _ body, h => Statement.NearestElse.map body h

theorem Declaration.NearestElse.map : (d : Declaration) → d.NearestElse → (d.map r).NearestElse
  | .variable _, _ => trivial
  | .statement inner, h => Statement.NearestElse.map inner h

theorem Declarations.NearestElse.map : (d : Declarations) → d.NearestElse →
    (d.map r).NearestElse
  | .nil, _ => trivial
  | .cons first rest, ⟨hFirst, hRest⟩ =>
    ⟨Declaration.NearestElse.map first hFirst, Declarations.NearestElse.map rest hRest⟩

end

/-! ## One behind the other -/

/-- Declarations in a row behind others. -/
def Declarations.append : Declarations → Declarations → Declarations
  | .nil, ds => ds
  | .cons first rest, ds => .cons first (rest.append ds)

theorem Declarations.tokens_append (ds es : Declarations) :
    (ds.append es).tokens = ds.tokens ++ es.tokens := by
  match ds with
  | .nil => rfl
  | .cons first rest =>
    rw [append, tokens, rest.tokens_append es, tokens, List.append_assoc]

theorem Declarations.trees_append (ds es : Declarations) :
    (ds.append es).trees = ds.trees ++ es.trees := by
  match ds with
  | .nil => rfl
  | .cons first rest => rw [append, trees, rest.trees_append es, trees, List.cons_append]

theorem Declarations.expressions_append (ds es : Declarations) :
    (ds.append es).expressions = ds.expressions ++ es.expressions := by
  match ds with
  | .nil => rfl
  | .cons first rest =>
    rw [append, expressions, rest.expressions_append es, expressions, List.append_assoc]

theorem Declarations.NearestElse.append : {ds : Declarations} → ds.NearestElse →
    {es : Declarations} → es.NearestElse → (ds.append es).NearestElse
  | .nil, _, _, hes => hes
  | .cons _ _, ⟨hFirst, hRest⟩, _, hes => ⟨hFirst, hRest.append hes⟩

end Derivation

open Treewalk.Derivation

/-- A list read without a complaint is the derivation it has. -/
theorem exists_derivation_of_notes {ts : List Token} (hts : ∀ t ∈ ts, t.kind ≠ .eof)
    {endMark : Token} (hEnd : endMark.kind = .eof)
    (h : (parse (ts ++ [endMark])).notes = []) :
    ∃ d : Declarations, d.tokens = ts ∧ d.NearestElse ∧ misplacedIn d.expressions = [] ∧
      (parse (ts ++ [endMark])).entries = d.trees.map some := by
  obtain ⟨d, rfl, hNear⟩ := exists_nearest_derivation hts hEnd (by simp [h])
  have hRead := d.parse_eq ⟨endMark, by simp [hEnd]⟩ [] hNear
  rw [hRead] at h ⊢
  exact ⟨d, rfl, hNear, List.map_eq_nil_iff.mp h, rfl⟩

/-- Two lists that are each read without a complaint are read together,
the second one with other tokens, as one after the other. -/
theorem parse_append (r : Relabelling) {ts us : List Token} (hts : ∀ t ∈ ts, t.kind ≠ .eof)
    (hus : ∀ t ∈ us, t.kind ≠ .eof) {first second last : Token} (hFirst : first.kind = .eof)
    (hSecond : second.kind = .eof) (hLast : last.kind = .eof)
    (h : (parse (ts ++ [first])).notes = []) (k : (parse (us ++ [second])).notes = []) :
    (parse (ts ++ us.map r.apply ++ [last])).notes = [] ∧
      (parse (ts ++ us.map r.apply ++ [last])).entries.filterMap id =
        (parse (ts ++ [first])).entries.filterMap id ++
          Stmt.mapAll r.apply ((parse (us ++ [second])).entries.filterMap id) := by
  obtain ⟨d, rfl, hNear, hSigns, hTrees⟩ := exists_derivation_of_notes hts hFirst h
  obtain ⟨e, rfl, hNear', hSigns', hTrees'⟩ := exists_derivation_of_notes hus hSecond k
  have hRead := (d.append (e.map r)).parse_eq ⟨last, by simp [hLast]⟩ []
    (hNear.append (Declarations.NearestElse.map r e hNear'))
  rw [Declarations.tokens_append, Declarations.tokens_map] at hRead
  have hThere : ∀ trees : List Stmt, (trees.map some).filterMap id = trees := by
    intro trees
    rw [List.filterMap_map]
    exact List.filterMap_some
  rw [hRead, hTrees, hTrees', hThere, hThere]
  refine ⟨?_, ?_⟩
  · rw [Parse.notes, Declarations.expressions_append, misplacedIn_append, hSigns,
      Declarations.expressions_map, misplacedIn_map, hSigns']
    rfl
  · rw [Parse.entries, hThere, Declarations.trees_append, Declarations.trees_map]

end Treewalk
