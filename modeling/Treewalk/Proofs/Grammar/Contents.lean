import Treewalk.Proofs.Grammar.Soundness

/-!
# What trees contain

A tree that is read holds tokens of the text in the places for tokens, and
in the place of a literal the value of a token or one that a word of the
language stands for. So what holds of all tokens of a text holds of the
contents of its trees, and operators and names are of the kinds of their
places (`Expr.Sound`, `Stmt.Sound`). This is so also where reading failed
on the way (`parse_sound`).
-/

namespace Treewalk

/-- What is asked of the tokens and the literals of a tree. Nil and the
booleans are written as words and always allowed. -/
structure Contents where
  token : Token → Prop
  value : Value → Prop
  nil : value .nil
  bool : ∀ b, value (.bool b)

/-- A token that may stand in a tree, and its value too. -/
structure Contents.Supplies (contents : Contents) (t : Token) : Prop where
  token : contents.token t
  value : contents.value t.literal

/-! ## Sound trees -/

/-- The operators that join two values. -/
def binaryOperators : List Kind :=
  [.bangEqual, .equalEqual, .greater, .greaterEqual, .less, .lessEqual, .minus, .plus, .slash,
    .star]

/-- The operators before a value. -/
def unaryOperators : List Kind :=
  [.bang, .minus]

/-- A token of one of the given kinds that may stand in a tree. -/
def Contents.Fits (contents : Contents) (kinds : List Kind) (t : Token) : Prop :=
  t.kind ∈ kinds ∧ contents.token t

/-- An expression with allowed literals, and operators and names that fit
their places. -/
def Expr.Sound (contents : Contents) : Expr → Prop
  | .binary left operator right =>
    left.Sound contents ∧ contents.Fits binaryOperators operator ∧ right.Sound contents
  | .grouping inner => inner.Sound contents
  | .literal value => contents.value value
  | .unary operator right => contents.Fits unaryOperators operator ∧ right.Sound contents
  | .variable name => contents.Fits [.identifier] name
  | .assign name value => contents.Fits [.identifier] name ∧ value.Sound contents
  | .logical left operator right =>
    left.Sound contents ∧ contents.Fits [.orWord, .andWord] operator ∧ right.Sound contents

/-- An expression that is left out or sound. -/
def Expr.Sound? (contents : Contents) : Option Expr → Prop
  | none => True
  | some e => e.Sound contents

mutual

/-- A statement with sound expressions and names that fit. -/
def Stmt.Sound (contents : Contents) : Stmt → Prop
  | .expression inner => inner.Sound contents
  | .print inner => inner.Sound contents
  | .var name initializer =>
    contents.Fits [.identifier] name ∧ Expr.Sound? contents initializer
  | .block statements => Stmt.AllSound contents statements
  | .branch condition consequence none => condition.Sound contents ∧ consequence.Sound contents
  | .branch condition consequence (some alternative) =>
    condition.Sound contents ∧ consequence.Sound contents ∧ alternative.Sound contents
  | .loop condition body => condition.Sound contents ∧ body.Sound contents

/-- Statements in a row that are sound. -/
def Stmt.AllSound (contents : Contents) : List Stmt → Prop
  | [] => True
  | s :: rest => s.Sound contents ∧ Stmt.AllSound contents rest

end

namespace Derivation

variable {contents : Contents}

/-! ## Derivations of such tokens have sound trees -/

theorem mem_binaryOperators : ∀ level ∈ [Level.equality, .comparison, .sum, .product],
    ∀ kind ∈ level.operators, kind ∈ binaryOperators := by
  decide

theorem mem_words : ∀ level ∈ [Level.disjunction, .conjunction],
    ∀ kind ∈ level.operators, kind ∈ [Kind.orWord, .andWord] := by
  decide

theorem join_sound {level : Level} {left right : Expr} {operator : Token}
    (h : operator.kind ∈ level.operators) (hToken : contents.token operator)
    (hLeft : left.Sound contents) (hRight : right.Sound contents) :
    (join level left operator right).Sound contents := by
  cases level with
  | disjunction | conjunction => exact ⟨hLeft, ⟨mem_words _ (by decide) _ h, hToken⟩, hRight⟩
  | equality | comparison | sum | product =>
    exact ⟨hLeft, ⟨mem_binaryOperators _ (by decide) _ h, hToken⟩, hRight⟩

theorem atomTree_sound {t : Token} (h : contents.Supplies t) : (atomTree t).Sound contents := by
  unfold atomTree
  split
  · exact contents.bool false
  · exact contents.bool true
  · exact contents.nil
  · next hk => exact ⟨List.mem_singleton.mpr hk, h.token⟩
  · exact h.value

theorem assignTree_sound {target value : Expr} (hTarget : target.Sound contents)
    (hValue : value.Sound contents) : (assignTree target value).Sound contents := by
  unfold assignTree
  split
  · exact ⟨hTarget, hValue⟩
  · exact hTarget

mutual

theorem Expression.sound : (e : Expression) → (∀ t ∈ e.tokens, contents.Supplies t) →
    e.tree.Sound contents
  | .plain chain, h => chain.sound h
  | .assignment target equals value, h => by
    rw [Expression.tokens, List.forall_mem_append, List.forall_mem_cons] at h
    exact assignTree_sound (target.sound h.1) (value.sound h.2.2)

theorem Chain.sound : {level? : Option Level} → (c : Chain level?) →
    (∀ t ∈ c.tokens, contents.Supplies t) → c.tree.Sound contents
  | _, .unary inner, h => inner.sound h
  | _, .level first links, h => by
    rw [Chain.tokens, List.forall_mem_append] at h
    exact links.sound h.2 (first.sound h.1)

theorem Links.sound : {level : Level} → (links : Links level) →
    (∀ t ∈ links.tokens, contents.Supplies t) → {left : Expr} → left.Sound contents →
    (links.tree left).Sound contents
  | _, .none, _, _, hLeft => hLeft
  | _, .link operator operand links, h, _, hLeft => by
    rw [Links.tokens, List.forall_mem_append, List.forall_mem_cons] at h
    exact links.sound h.2 (join_sound operator.allowed h.1.1.token hLeft (operand.sound h.1.2))

theorem Unary.sound : (u : Unary) → (∀ t ∈ u.tokens, contents.Supplies t) → u.tree.Sound contents
  | .sign operator operand, h => by
    rw [Unary.tokens, List.forall_mem_cons] at h
    exact ⟨⟨operator.allowed, h.1.token⟩, operand.sound h.2⟩
  | .primary inner, h => inner.sound h

theorem Primary.sound : (p : Primary) → (∀ t ∈ p.tokens, contents.Supplies t) → p.tree.Sound contents
  | .atom leaf, h => atomTree_sound (h leaf.token List.mem_cons_self)
  | .group opening inner closing, h => by
    rw [Primary.tokens, List.forall_mem_append, List.forall_mem_cons] at h
    exact inner.sound h.1.2

end

theorem Variable.sound (v : Variable) (h : ∀ t ∈ v.tokens, contents.Supplies t) :
    v.tree.Sound contents := by
  obtain ⟨word, name, initializer, semicolon⟩ := v
  simp only [Variable.tokens, List.forall_mem_append, List.forall_mem_cons] at h
  refine ⟨⟨List.mem_singleton.mpr name.kind_eq, h.1.2.1.token⟩, ?_⟩
  cases initializer with
  | none => trivial
  | some pair => exact pair.2.sound (List.forall_mem_cons.mp h.1.2.2).2

theorem Condition.sound (c : Condition) (h : ∀ t ∈ c.tokens, contents.Supplies t) :
    c.test.tree.Sound contents := by
  rw [Condition.tokens, List.forall_mem_append, List.forall_mem_cons] at h
  exact c.test.sound h.1.2

theorem Expression.sound? : (e? : Option Expression) →
    (∀ t ∈ Expression.tokens? e?, contents.Supplies t) → ∀ e ∈ e?, e.tree.Sound contents
  | none, _ => nofun
  | some e, h => by
    rintro _ ⟨⟩
    exact e.sound h

theorem Initializer.sound (i : Initializer) (h : ∀ t ∈ i.tokens, contents.Supplies t) :
    ∀ s ∈ i.tree?, s.Sound contents := by
  match i with
  | .empty semicolon => nofun
  | .variable v =>
    rintro _ ⟨⟩
    exact v.sound h
  | .expression inner semicolon =>
    rintro _ ⟨⟩
    rw [Initializer.tokens, List.forall_mem_append] at h
    exact inner.sound h.1

/-- A `for` is sound if its clauses and its body are. -/
theorem Header.sound (header : Header) (h : ∀ t ∈ header.tokens, contents.Supplies t) {body : Stmt}
    (hBody : body.Sound contents) : (header.tree body).Sound contents := by
  obtain ⟨opening, initializer, condition, semicolon, increment, closing⟩ := header
  simp only [Header.tokens, List.forall_mem_append, List.forall_mem_cons] at h
  have hFirst := initializer.sound h.1.1.2
  have hTest := Expression.sound? condition h.1.2.1
  have hIncrement := Expression.sound? increment h.2.1
  have hOnce : (withIncrement increment body).Sound contents := by
    cases increment with
    | none => exact hBody
    | some e => exact ⟨hBody, hIncrement e rfl, trivial⟩
  have hLoop : ∀ test : Expr, test.Sound contents →
      (Stmt.loop test (withIncrement increment body)).Sound contents :=
    fun test ht => ⟨ht, hOnce⟩
  rcases condition with _ | e <;> cases hs : initializer.tree? <;> simp only [Header.tree, hs]
  · exact hLoop _ (contents.bool true)
  · exact ⟨hFirst _ hs, hLoop _ (contents.bool true), trivial⟩
  · exact hLoop _ (hTest e rfl)
  · exact ⟨hFirst _ hs, hLoop _ (hTest e rfl), trivial⟩

mutual

theorem Statement.sound : (s : Statement) → (∀ t ∈ s.tokens, contents.Supplies t) →
    s.tree.Sound contents
  | .expression inner semicolon, h => by
    rw [Statement.tokens, List.forall_mem_append] at h
    exact inner.sound h.1
  | .print word inner semicolon, h => by
    rw [Statement.tokens, List.forall_mem_append, List.forall_mem_cons] at h
    exact inner.sound h.1.2
  | .block opening body closing, h => by
    rw [Statement.tokens, List.forall_mem_append, List.forall_mem_cons] at h
    exact body.allSound h.1.2
  | .branch word condition consequence, h => by
    rw [Statement.tokens, List.forall_mem_append, List.forall_mem_cons] at h
    exact ⟨condition.sound h.1.2, consequence.sound h.2⟩
  | .branchElse word condition consequence elseWord alternative, h => by
    simp only [Statement.tokens, List.forall_mem_append, List.forall_mem_cons] at h
    exact ⟨condition.sound h.1.1.2, consequence.sound h.1.2, alternative.sound h.2.2⟩
  | .loop word condition body, h => by
    rw [Statement.tokens, List.forall_mem_append, List.forall_mem_cons] at h
    exact ⟨condition.sound h.1.2, body.sound h.2⟩
  | .count word header body, h => by
    rw [Statement.tokens, List.forall_mem_append, List.forall_mem_cons] at h
    exact header.sound h.1.2 (body.sound h.2)

theorem Declaration.sound : (d : Declaration) → (∀ t ∈ d.tokens, contents.Supplies t) →
    d.tree.Sound contents
  | .variable inner, h => inner.sound h
  | .statement inner, h => inner.sound h

theorem Declarations.allSound : (d : Declarations) → (∀ t ∈ d.tokens, contents.Supplies t) →
    Stmt.AllSound contents d.trees
  | .nil, _ => trivial
  | .cons first rest, h => by
    rw [Declarations.tokens, List.forall_mem_append] at h
    exact ⟨first.sound h.1, rest.allSound h.2⟩

end

end Derivation

open Treewalk.Derivation

/-- Whatever is read of a list of tokens without failing is sound. -/
theorem parse_sound {contents : Contents} {ts rest : List Token} {entries : List (Option Stmt)}
    {notes : List Complaint} (hEnds : Ends ts) (h : parse ts = .finished entries rest notes)
    (hTokens : ∀ t ∈ ts, contents.Supplies t) :
    Stmt.AllSound contents (entries.filterMap id) := by
  obtain ⟨d, hTrees, -, used, hUsed, hPart, -⟩ := exists_program ts hEnds h
  rw [← hTrees]
  refine d.allSound fun t ht => hTokens t ?_
  rw [hUsed]
  exact List.mem_append_left _ (hPart.subset ht)

end Treewalk
