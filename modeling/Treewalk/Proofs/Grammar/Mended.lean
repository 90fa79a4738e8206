import Treewalk.Proofs.Grammar.FirstEnd
import Treewalk.Proofs.Grammar.Shape

/-!
# Recovery leaves tokens out

A complaint stops a declaration, which is then left out, or it is about a
misplaced `=`, which is then left out together with its right side. So a
tree that was read next to mistakes is also read without any from part of
the tokens (`recovered_tree_correct`).

The declarations that failed are in no derivation already. `mended` leaves
the misplaced signs out of a derivation: the tree is the same, no sign is
misplaced any more, and the tokens are some of those there were.
-/

namespace Treewalk

namespace Derivation

/-! ## Without the misplaced signs -/

mutual

/-- An expression without its misplaced signs and their right sides. -/
def Expression.mended : Expression → Expression
  | .plain chain => .plain chain.mended
  | .assignment target equals value =>
    match target.tree with
    | .variable _ => .assignment target.mended equals value.mended
    -- the tree never had the right side in it
    | _ => .plain target.mended

def Chain.mended : {level? : Option Level} → Chain level? → Chain level?
  | _, .unary inner => .unary inner.mended
  | _, .level first links => .level first.mended links.mended

def Links.mended : {level : Level} → Links level → Links level
  | _, .none => .none
  | _, .link operator operand links => .link operator operand.mended links.mended

def Unary.mended : Unary → Unary
  | .sign operator operand => .sign operator operand.mended
  | .primary inner => .primary inner.mended

def Primary.mended : Primary → Primary
  | .atom leaf => .atom leaf
  | .group opening inner closing => .group opening inner.mended closing

end

def Variable.mended (v : Variable) : Variable :=
  { v with initializer := v.initializer.map fun (equals, value) => (equals, value.mended) }

def Condition.mended (c : Condition) : Condition :=
  { c with test := c.test.mended }

def Initializer.mended : Initializer → Initializer
  | .empty semicolon => .empty semicolon
  | .variable declaration => .variable declaration.mended
  | .expression inner semicolon => .expression inner.mended semicolon

def Header.mended (h : Header) : Header :=
  { h with
    initializer := h.initializer.mended
    condition := h.condition.map Expression.mended
    increment := h.increment.map Expression.mended }

mutual

/-- A statement with every expression mended. -/
def Statement.mended : Statement → Statement
  | .expression inner semicolon => .expression inner.mended semicolon
  | .print word inner semicolon => .print word inner.mended semicolon
  | .block opening body closing => .block opening body.mended closing
  | .branch word condition consequence => .branch word condition.mended consequence.mended
  | .branchElse word condition consequence elseWord alternative =>
    .branchElse word condition.mended consequence.mended elseWord alternative.mended
  | .loop word condition body => .loop word condition.mended body.mended
  | .count word header body => .count word header.mended body.mended

def Declaration.mended : Declaration → Declaration
  | .variable inner => .variable inner.mended
  | .statement inner => .statement inner.mended

def Declarations.mended : Declarations → Declarations
  | .nil => .nil
  | .cons first rest => .cons first.mended rest.mended

end

/-! ## The tree -/

mutual

theorem Expression.tree_mended : (e : Expression) → e.mended.tree = e.tree
  | .plain chain => chain.tree_mended
  | .assignment target _ value => by
    rw [Expression.mended, Expression.tree]
    split
    case h_1 => rw [Expression.tree, target.tree_mended, value.tree_mended]
    case h_2 hTarget =>
      rw [Expression.tree, target.tree_mended, assignTree]
      exact hTarget

theorem Chain.tree_mended : {level? : Option Level} → (c : Chain level?) → c.mended.tree = c.tree
  | _, .unary inner => inner.tree_mended
  | _, .level first links => by
    rw [Chain.mended, Chain.tree, first.tree_mended, links.tree_mended, Chain.tree]

theorem Links.tree_mended : {level : Level} → (links : Links level) → (left : Expr) →
    links.mended.tree left = links.tree left
  | _, .none, _ => rfl
  | _, .link _ operand links, _ => by
    rw [Links.mended, Links.tree, operand.tree_mended, links.tree_mended, Links.tree]

theorem Unary.tree_mended : (u : Unary) → u.mended.tree = u.tree
  | .sign _ operand => by rw [Unary.mended, Unary.tree, operand.tree_mended, Unary.tree]
  | .primary inner => inner.tree_mended

theorem Primary.tree_mended : (p : Primary) → p.mended.tree = p.tree
  | .atom _ => rfl
  | .group _ inner _ => by rw [Primary.mended, Primary.tree, inner.tree_mended, Primary.tree]

end

theorem Variable.tree_mended (v : Variable) : v.mended.tree = v.tree := by
  obtain ⟨word, name, initializer, semicolon⟩ := v
  cases initializer with
  | none => rfl
  | some pair => simp [Variable.mended, Variable.tree, pair.2.tree_mended]

theorem Initializer.tree?_mended (i : Initializer) : i.mended.tree? = i.tree? := by
  match i with
  | .empty _ => rfl
  | .variable declaration => exact congrArg some declaration.tree_mended
  | .expression inner _ =>
    rw [Initializer.mended, Initializer.tree?, inner.tree_mended, Initializer.tree?]

theorem Header.tree_mended (h : Header) (body : Stmt) : h.mended.tree body = h.tree body := by
  obtain ⟨opening, initializer, condition, semicolon, increment, closing⟩ := h
  cases condition <;> cases increment <;>
    simp only [Header.mended, Header.tree, withIncrement, initializer.tree?_mended,
      Expression.tree_mended, Option.map_none, Option.map_some]

mutual

theorem Statement.tree_mended : (s : Statement) → s.mended.tree = s.tree
  | .expression inner _ | .print _ inner _ => by
    rw [Statement.mended, Statement.tree, inner.tree_mended, Statement.tree]
  | .block _ body _ => by rw [Statement.mended, Statement.tree, body.trees_mended, Statement.tree]
  | .branch _ condition consequence => by
    rw [Statement.mended, Statement.tree, Condition.mended, condition.test.tree_mended,
      consequence.tree_mended, Statement.tree]
  | .branchElse _ condition consequence _ alternative => by
    rw [Statement.mended, Statement.tree, Condition.mended, condition.test.tree_mended,
      consequence.tree_mended, alternative.tree_mended, Statement.tree]
  | .loop _ condition body => by
    rw [Statement.mended, Statement.tree, Condition.mended, condition.test.tree_mended,
      body.tree_mended, Statement.tree]
  | .count _ header body => by
    rw [Statement.mended, Statement.tree, header.tree_mended, body.tree_mended, Statement.tree]

theorem Declaration.tree_mended : (d : Declaration) → d.mended.tree = d.tree
  | .variable inner => inner.tree_mended
  | .statement inner => inner.tree_mended

theorem Declarations.trees_mended : (ds : Declarations) → ds.mended.trees = ds.trees
  | .nil => rfl
  | .cons first rest => by
    rw [Declarations.mended, Declarations.trees, first.tree_mended, rest.trees_mended,
      Declarations.trees]

end

/-! ## The misplaced signs -/

mutual

theorem Expression.misplaced_mended : (e : Expression) → e.mended.misplaced = []
  | .plain chain => chain.misplaced_mended
  | .assignment target equals value => by
    rw [Expression.mended]
    split
    case h_1 name hTarget =>
      rw [Expression.misplaced, target.misplaced_mended, value.misplaced_mended,
        target.tree_mended, hTarget]
      rfl
    case h_2 => exact target.misplaced_mended

theorem Chain.misplaced_mended : {level? : Option Level} → (c : Chain level?) →
    c.mended.misplaced = []
  | _, .unary inner => inner.misplaced_mended
  | _, .level first links => by
    rw [Chain.mended, Chain.misplaced, first.misplaced_mended, links.misplaced_mended]
    rfl

theorem Links.misplaced_mended : {level : Level} → (links : Links level) →
    links.mended.misplaced = []
  | _, .none => rfl
  | _, .link _ operand links => by
    rw [Links.mended, Links.misplaced, operand.misplaced_mended, links.misplaced_mended]
    rfl

theorem Unary.misplaced_mended : (u : Unary) → u.mended.misplaced = []
  | .sign _ operand => operand.misplaced_mended
  | .primary inner => inner.misplaced_mended

theorem Primary.misplaced_mended : (p : Primary) → p.mended.misplaced = []
  | .atom _ => rfl
  | .group _ inner _ => inner.misplaced_mended

end

theorem misplacedIn_mended (expressions : List Expression) :
    misplacedIn (expressions.map Expression.mended) = [] := by
  induction expressions with
  | nil => rfl
  | cons e more ih => rw [List.map_cons, misplacedIn_cons, e.misplaced_mended, ih, List.nil_append]

theorem Variable.expressions_mended (v : Variable) :
    v.mended.expressions = v.expressions.map Expression.mended := by
  obtain ⟨word, name, initializer, semicolon⟩ := v
  cases initializer <;> rfl

theorem Initializer.expressions_mended (i : Initializer) :
    i.mended.expressions = i.expressions.map Expression.mended := by
  match i with
  | .empty _ | .expression _ _ => rfl
  | .variable declaration => exact declaration.expressions_mended

theorem Header.expressions_mended (h : Header) :
    h.mended.expressions = h.expressions.map Expression.mended := by
  obtain ⟨opening, initializer, condition, semicolon, increment, closing⟩ := h
  cases condition <;> cases increment <;>
    simp [Header.mended, Header.expressions, initializer.expressions_mended]

mutual

theorem Statement.expressions_mended : (s : Statement) →
    s.mended.expressions = s.expressions.map Expression.mended
  | .expression _ _ | .print _ _ _ => rfl
  | .block _ body _ => body.expressions_mended
  | .branch _ condition consequence => by
    simp [Statement.mended, Statement.expressions, Condition.mended,
      consequence.expressions_mended]
  | .branchElse _ condition consequence _ alternative => by
    simp [Statement.mended, Statement.expressions, Condition.mended,
      consequence.expressions_mended, alternative.expressions_mended]
  | .loop _ condition body => by
    simp [Statement.mended, Statement.expressions, Condition.mended, body.expressions_mended]
  | .count _ header body => by
    simp [Statement.mended, Statement.expressions, header.expressions_mended,
      body.expressions_mended]

theorem Declaration.expressions_mended : (d : Declaration) →
    d.mended.expressions = d.expressions.map Expression.mended
  | .variable inner => inner.expressions_mended
  | .statement inner => inner.expressions_mended

theorem Declarations.expressions_mended : (ds : Declarations) →
    ds.mended.expressions = ds.expressions.map Expression.mended
  | .nil => rfl
  | .cons first rest => by
    rw [Declarations.mended, Declarations.expressions, first.expressions_mended,
      rest.expressions_mended, Declarations.expressions, List.map_append]

end

/-! ## The tokens -/

mutual

theorem Expression.tokens_mended : (e : Expression) → e.mended.tokens.Sublist e.tokens
  | .plain chain => chain.tokens_mended
  | .assignment target equals value => by
    rw [Expression.mended, Expression.tokens]
    split
    case h_1 => exact target.tokens_mended.append (value.tokens_mended.cons_cons equals.token)
    case h_2 => exact target.tokens_mended.trans (List.sublist_append_left ..)

theorem Chain.tokens_mended : {level? : Option Level} → (c : Chain level?) →
    c.mended.tokens.Sublist c.tokens
  | _, .unary inner => inner.tokens_mended
  | _, .level first links => first.tokens_mended.append links.tokens_mended

theorem Links.tokens_mended : {level : Level} → (links : Links level) →
    links.mended.tokens.Sublist links.tokens
  | _, .none => .refl _
  | _, .link operator operand links =>
    (operand.tokens_mended.cons_cons operator.token).append links.tokens_mended

theorem Unary.tokens_mended : (u : Unary) → u.mended.tokens.Sublist u.tokens
  | .sign operator operand => operand.tokens_mended.cons_cons operator.token
  | .primary inner => inner.tokens_mended

theorem Primary.tokens_mended : (p : Primary) → p.mended.tokens.Sublist p.tokens
  | .atom _ => .refl _
  | .group opening inner closing =>
    (inner.tokens_mended.cons_cons opening.token).append (.refl [closing.token])

end

theorem Expression.tokens?_mended (e? : Option Expression) :
    (Expression.tokens? (e?.map Expression.mended)).Sublist (Expression.tokens? e?) := by
  cases e? with
  | none => exact .refl _
  | some e => exact e.tokens_mended

theorem Variable.tokens_mended (v : Variable) : v.mended.tokens.Sublist v.tokens := by
  obtain ⟨word, name, _ | ⟨equals, value⟩, semicolon⟩ := v
  · exact .refl _
  · exact (((value.tokens_mended.cons_cons equals.token).cons_cons name.token).cons_cons
      word.token).append (.refl [semicolon.token])

theorem Condition.tokens_mended (c : Condition) : c.mended.tokens.Sublist c.tokens :=
  (c.test.tokens_mended.cons_cons c.opening.token).append (.refl [c.closing.token])

theorem Initializer.tokens_mended (i : Initializer) : i.mended.tokens.Sublist i.tokens := by
  match i with
  | .empty _ => exact .refl _
  | .variable declaration => exact declaration.tokens_mended
  | .expression inner semicolon => exact inner.tokens_mended.append (.refl [semicolon.token])

theorem Header.tokens_mended (h : Header) : h.mended.tokens.Sublist h.tokens :=
  ((h.initializer.tokens_mended.cons_cons h.opening.token).append
    ((Expression.tokens?_mended h.condition).append (.refl [h.semicolon.token]))).append
    ((Expression.tokens?_mended h.increment).append (.refl [h.closing.token]))

mutual

theorem Statement.tokens_mended : (s : Statement) → s.mended.tokens.Sublist s.tokens
  | .expression inner semicolon => inner.tokens_mended.append (.refl [semicolon.token])
  | .print word inner semicolon =>
    (inner.tokens_mended.cons_cons word.token).append (.refl [semicolon.token])
  | .block opening body closing =>
    (body.tokens_mended.cons_cons opening.token).append (.refl [closing.token])
  | .branch word condition consequence =>
    (condition.tokens_mended.cons_cons word.token).append consequence.tokens_mended
  | .branchElse word condition consequence elseWord alternative =>
    ((condition.tokens_mended.cons_cons word.token).append consequence.tokens_mended).append
      (alternative.tokens_mended.cons_cons elseWord.token)
  | .loop word condition body =>
    (condition.tokens_mended.cons_cons word.token).append body.tokens_mended
  | .count word header body =>
    (header.tokens_mended.cons_cons word.token).append body.tokens_mended

theorem Declaration.tokens_mended : (d : Declaration) → d.mended.tokens.Sublist d.tokens
  | .variable inner => inner.tokens_mended
  | .statement inner => inner.tokens_mended

theorem Declarations.tokens_mended : (ds : Declarations) → ds.mended.tokens.Sublist ds.tokens
  | .nil => .refl _
  | .cons first rest => first.tokens_mended.append rest.tokens_mended

end

/-! ## The nearest `if` -/

theorem Statement.endsOpen_mended : (s : Statement) → s.mended.endsOpen = s.endsOpen
  | .expression .. | .print .. | .block .. | .branch .. => rfl
  | .branchElse _ _ _ _ alternative => alternative.endsOpen_mended
  | .loop _ _ body | .count _ _ body => body.endsOpen_mended

mutual

theorem Statement.NearestElse.mended : (s : Statement) → s.NearestElse → s.mended.NearestElse
  | .expression .., _ | .print .., _ => trivial
  | .block _ body _, h => Declarations.NearestElse.mended body h
  | .branch _ _ consequence, h => Statement.NearestElse.mended consequence h
  | .branchElse _ _ consequence _ alternative, ⟨hThen, hClosed, hElse⟩ =>
    ⟨Statement.NearestElse.mended consequence hThen,
      consequence.endsOpen_mended.trans hClosed, Statement.NearestElse.mended alternative hElse⟩
  | .loop _ _ body, h | .count _ _ body, h => Statement.NearestElse.mended body h

theorem Declaration.NearestElse.mended : (d : Declaration) → d.NearestElse →
    d.mended.NearestElse
  | .variable _, _ => trivial
  | .statement inner, h => Statement.NearestElse.mended inner h

theorem Declarations.NearestElse.mended : (ds : Declarations) → ds.NearestElse →
    ds.mended.NearestElse
  | .nil, _ => trivial
  | .cons first rest, ⟨hFirst, hRest⟩ =>
    ⟨Declaration.NearestElse.mended first hFirst, Declarations.NearestElse.mended rest hRest⟩

end

/-- A declaration by itself, mended, is read without a complaint. -/
theorem Declaration.parse_mended (d : Declaration) (hNear : d.NearestElse) {endMark : Token}
    (hEnd : endMark.kind = .eof) :
    parse (d.mended.tokens ++ [endMark]) = .finished [some d.tree] [endMark] [] := by
  have hRead := (Declarations.cons d.mended .nil).parse_eq ⟨endMark, by simp [hEnd]⟩ []
    ⟨Declaration.NearestElse.mended d hNear, trivial⟩
  simpa [Declarations.tokens, Declarations.trees, Declarations.expressions, d.tree_mended,
    d.expressions_mended, misplacedIn_mended] using hRead

/-- Each tree of a row is the tree of one of its declarations. -/
theorem Declarations.exists_of_mem_trees {s : Stmt} : (ds : Declarations) → ds.NearestElse →
    s ∈ ds.trees → ∃ d : Declaration, d.tree = s ∧ d.NearestElse ∧ d.tokens.Sublist ds.tokens
  | .cons first rest, ⟨hFirst, hRest⟩, h => by
    rcases List.mem_cons.mp h with rfl | h
    · exact ⟨first, rfl, hFirst, List.sublist_append_left ..⟩
    · obtain ⟨d, hTree, hNear, hPart⟩ := rest.exists_of_mem_trees hRest h
      exact ⟨d, hTree, hNear, hPart.trans (List.sublist_append_right ..)⟩

end Derivation

open Treewalk.Derivation

/-- A list that holds an end mark is cut in front of its first one. -/
theorem Ends.exists_first {ts : List Token} (h : Ends ts) :
    ∃ body mark more, ts = body ++ mark :: more ∧ mark.kind = .eof ∧ ∀ t ∈ body, t.kind ≠ .eof := by
  obtain ⟨mark, hFind⟩ := Option.isSome_iff_exists.mp
    (List.find?_isSome.mpr (by simpa [Ends] using h) : (ts.find? (·.kind = .eof)).isSome)
  obtain ⟨hMark, body, more, rfl, hBody⟩ := List.find?_eq_some_iff_append.mp hFind
  exact ⟨body, mark, more, rfl, by simpa using hMark, by simpa using hBody⟩

/-- Whatever mistakes a list holds, every tree read from it has the shape
of a correct one, and part of the list, in its order and without an end
mark, is read as that tree alone without a complaint. -/
theorem recovered_tree_correct (ts : List Token) (h : Ends ts) :
    ∃ entries rest notes, parse ts = .finished entries rest notes ∧
      ∀ s, some s ∈ entries → s.toNode.IsDeclaration ∧
        ∃ part : List Token, part.Sublist ts ∧ (∀ t ∈ part, t.kind ≠ .eof) ∧
          ∀ endMark : Token, endMark.kind = .eof →
            parse (part ++ [endMark]) = .finished [some s] [endMark] [] := by
  obtain ⟨body, mark, more, rfl, hMark, hBody⟩ := h.exists_first
  obtain ⟨entries, notes, -, hRead⟩ := parse_first_end hBody hMark more
  refine ⟨entries, mark :: more, notes, hRead, ?_⟩
  intro s hs
  -- the failed declarations are left out of the derivation already
  obtain ⟨ds, hTrees, hNear, used, hUsed, hPart, -⟩ := exists_program _ h hRead
  obtain rfl := List.append_cancel_right hUsed
  have hTree : s ∈ ds.trees := by
    rw [hTrees]
    exact List.mem_filterMap.mpr ⟨some s, hs, rfl⟩
  obtain ⟨d, rfl, hNear, hOne⟩ := ds.exists_of_mem_trees hNear hTree
  have hMended : d.mended.tokens.Sublist body := (d.tokens_mended.trans hOne).trans hPart
  refine ⟨d.isDeclaration hNear, d.mended.tokens,
    hMended.trans (List.sublist_append_left ..), ?_, ?_⟩
  · exact fun t ht => hBody t (hMended.mem ht)
  · exact fun endMark hEnd => d.parse_mended hNear hEnd

/-- `for (nil = nil; ; ) { ; if (a) a = nil = nil; } else`: two misplaced
signs, a mistake in the body and one behind it. -/
theorem recovered_tree_correct_for :
    let sign := Token.ofSource .equal "=" .nil 1
    let semicolon := Token.ofSource .semicolon ";" .nil 1
    let opening := Token.ofSource .leftParen "(" .nil 1
    let closing := Token.ofSource .rightParen ")" .nil 1
    let word := Token.ofSource .nilWord "nil" .nil 1
    let a := Token.ofSource .identifier "a" .nil 1
    let mark := Token.ofSource .eof "" .nil 1
    let ts := [.ofSource .forWord "for" .nil 1, opening, word, sign, word, semicolon, semicolon,
      closing, .ofSource .leftBrace "\x7b" .nil 1, semicolon, .ofSource .ifWord "if" .nil 1, opening,
      a, closing, a, sign, word, sign, word, semicolon, .ofSource .rightBrace "\x7d" .nil 1,
      .ofSource .elseWord "else" .nil 1, mark]
    let s := Stmt.block [.expression (.literal .nil), .loop (.literal (.bool true))
      (.block [.branch (.variable a) (.expression (.assign a (.literal .nil))) none])]
    Ends ts ∧ (parse ts).entries = [some s, none] ∧ (parse ts).notes.length = 4 ∧
      s.toNode.IsDeclaration ∧
      ∃ part : List Token, part.Sublist ts ∧ (∀ t ∈ part, t.kind ≠ .eof) ∧
        ∀ endMark : Token, endMark.kind = .eof →
          parse (part ++ [endMark]) = .finished [some s] [endMark] [] := by
  intro sign semicolon opening closing word a mark ts s
  have hEnds : Ends ts := ⟨mark, by simp [ts], rfl⟩
  have hEntries : (parse ts).entries = [some s, none] := by
    cbv
  obtain ⟨entries, rest, notes, hRead, hTrees⟩ := recovered_tree_correct ts hEnds
  refine ⟨hEnds, hEntries, by decide +kernel, hTrees s ?_⟩
  rw [hRead, Parse.entries] at hEntries
  simp [hEntries]

end Treewalk
