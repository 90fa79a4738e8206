import Treewalk.Proofs.Grammar.Ebnf
import Treewalk.Proofs.Grammar.Derivation

/-!
# Sentences and their derivations

A token list has a derivation exactly when its kinds are a sentence of the
grammar (`sentence_iff`). From the left: the token lists of the derivation
trees are closed under the rules, so they hold all that is derived. From
the right: every tree applies one rule at each of its nodes.

A sentence with an `else` may have several derivations. They differ in
nothing but the `if` an `else` is given to: each can be turned into one in
which every `else` belongs to the nearest open `if`, with the same tokens
and the same expressions in the same order (`exists_nearest`).
-/

namespace Treewalk.Derivation

open Ebnf

/-! ## From the grammar to a tree -/

/-- The category of a level. -/
def categoryOf : Option Level → Category
  | some .disjunction => .logicOr
  | some .conjunction => .logicAnd
  | some .equality => .equality
  | some .comparison => .comparison
  | some .sum => .term
  | some .product => .factor
  | none => .unary

theorem rule_categoryOf (level : Level) :
    rule (categoryOf (some level)) = joined level.operators (categoryOf level.tighter?) := by
  cases level <;> rfl

/-- The token lists of the chains of a level. -/
def chains (level? : Option Level) : Language Token :=
  { ts | ∃ chain : Chain level?, chain.tokens = ts }

/-- The token lists of the trees of a category. -/
def members : Category → Language Token
  | .program => { ts | ∃ (body : Declarations) (mark : Mark .eof), body.tokens ++ [mark.token] = ts }
  | .declaration => { ts | ∃ d : Declaration, d.tokens = ts }
  | .varDecl => { ts | ∃ v : Variable, v.tokens = ts }
  | .statement => { ts | ∃ s : Statement, s.tokens = ts }
  | .exprStmt => { ts | ∃ inner semicolon, (Statement.expression inner semicolon).tokens = ts }
  | .printStmt => { ts | ∃ word inner semicolon, (Statement.print word inner semicolon).tokens = ts }
  | .block => { ts | ∃ opening body closing, (Statement.block opening body closing).tokens = ts }
  | .ifStmt =>
    { ts | ∃ word condition consequence, (Statement.branch word condition consequence).tokens = ts ∨
      ∃ elseWord alternative,
        (Statement.branchElse word condition consequence elseWord alternative).tokens = ts }
  | .whileStmt => { ts | ∃ word condition body, (Statement.loop word condition body).tokens = ts }
  | .forStmt => { ts | ∃ word header body, (Statement.count word header body).tokens = ts }
  | .expression | .assignment => { ts | ∃ e : Expression, e.tokens = ts }
  | .logicOr => chains (some .disjunction)
  | .logicAnd => chains (some .conjunction)
  | .equality => chains (some .equality)
  | .comparison => chains (some .comparison)
  | .term => chains (some .sum)
  | .factor => chains (some .product)
  | .unary => chains none
  | .primary => { ts | ∃ p : Primary, p.tokens = ts }

theorem members_categoryOf (level? : Option Level) :
    members (categoryOf level?) = chains level? := by
  cases level? with
  | none => rfl
  | some level => cases level <;> rfl

theorem mem_token {kinds : List Kind} {ts : List Token}
    (h : ts ∈ (Ebnf.token kinds).language members) : ∃ leaf : Leaf kinds, ts = [leaf.token] := by
  obtain ⟨t, ht, rfl⟩ := h
  exact ⟨⟨t, ht⟩, rfl⟩

theorem mem_seq {a b : Ebnf} {ts : List Token} (h : ts ∈ (a * b).language members) :
    ∃ us ∈ a.language members, ∃ vs ∈ b.language members, us ++ vs = ts :=
  Language.mem_mul.mp h

theorem mem_alt {a b : Ebnf} {ts : List Token} (h : ts ∈ (a + b).language members) :
    ts ∈ a.language members ∨ ts ∈ b.language members :=
  (Language.mem_add _ _ _).mp h

theorem mem_optional {a : Ebnf} {ts : List Token} (h : ts ∈ (Ebnf.optional a).language members) :
    ts = [] ∨ ts ∈ a.language members := by
  rcases (Language.mem_add _ _ _).mp h with h | h
  · exact .inl ((Language.mem_one _).mp h)
  · exact .inr h

/-- Operators with their right operands, one word each, are links. -/
theorem exists_links_of_words {level : Level} (words : List (List Token))
    (h : ∀ word ∈ words,
      word ∈ (Ebnf.token level.operators * .category (categoryOf level.tighter?)).language members) :
    ∃ links : Links level, links.tokens = words.flatten := by
  induction words with
  | nil => exact ⟨.none, rfl⟩
  | cons word words ih =>
    obtain ⟨us, hus, vs, hvs, rfl⟩ := mem_seq (h word List.mem_cons_self)
    obtain ⟨operator, rfl⟩ := mem_token hus
    change vs ∈ members (categoryOf level.tighter?) at hvs
    rw [members_categoryOf] at hvs
    obtain ⟨operand, rfl⟩ := hvs
    obtain ⟨links, hlinks⟩ := ih fun word hword => h word (List.mem_cons_of_mem _ hword)
    refine ⟨.link operator operand links, ?_⟩
    simp [Links.tokens, hlinks]

theorem closed_level (level : Level) :
    ∀ ts ∈ (rule (categoryOf (some level))).language members,
      ts ∈ members (categoryOf (some level)) := by
  rw [rule_categoryOf, members_categoryOf]
  intro ts hts
  obtain ⟨us, hus, vs, hvs, rfl⟩ := mem_seq hts
  change us ∈ members (categoryOf level.tighter?) at hus
  rw [members_categoryOf] at hus
  obtain ⟨first, rfl⟩ := hus
  obtain ⟨words, rfl, hwords⟩ := Language.mem_kstar.mp hvs
  obtain ⟨links, hlinks⟩ := exists_links_of_words words hwords
  exact ⟨.level first links, by rw [Chain.tokens, hlinks]⟩

theorem exists_declarations_of_words (words : List (List Token))
    (h : ∀ word ∈ words, word ∈ members .declaration) :
    ∃ body : Declarations, body.tokens = words.flatten := by
  induction words with
  | nil => exact ⟨.nil, rfl⟩
  | cons word words ih =>
    obtain ⟨first, rfl⟩ := h word List.mem_cons_self
    obtain ⟨rest, hrest⟩ := ih fun word hword => h word (List.mem_cons_of_mem _ hword)
    exact ⟨.cons first rest, by rw [Declarations.tokens, hrest, List.flatten_cons]⟩

/-- A clause that may be left out. -/
theorem exists_optional {ts : List Token}
    (h : ts ∈ (Ebnf.optional (.category .expression)).language members) :
    ∃ e? : Option Expression, ts = Expression.tokens? e? := by
  rcases mem_optional h with rfl | ⟨e, rfl⟩
  · exact ⟨none, rfl⟩
  · exact ⟨some e, rfl⟩

theorem closed_varDecl : ∀ ts ∈ (rule .varDecl).language members, ts ∈ members .varDecl := by
  intro ts hts
  obtain ⟨_, h₁, _, hSemicolon, rfl⟩ := mem_seq hts
  obtain ⟨_, h₂, _, hValue, rfl⟩ := mem_seq h₁
  obtain ⟨_, hWord, _, hName, rfl⟩ := mem_seq h₂
  obtain ⟨word, rfl⟩ := mem_token hWord
  obtain ⟨name, rfl⟩ := mem_token hName
  obtain ⟨semicolon, rfl⟩ := mem_token hSemicolon
  rcases mem_optional hValue with rfl | hValue
  · exact ⟨⟨word, name, none, semicolon⟩, rfl⟩
  · obtain ⟨_, hEquals, _, ⟨value, rfl⟩, rfl⟩ := mem_seq hValue
    obtain ⟨equals, rfl⟩ := mem_token hEquals
    exact ⟨⟨word, name, some (equals, value), semicolon⟩, rfl⟩

theorem closed_ifStmt : ∀ ts ∈ (rule .ifStmt).language members, ts ∈ members .ifStmt := by
  intro ts hts
  obtain ⟨_, h₁, _, hElse, rfl⟩ := mem_seq hts
  obtain ⟨_, h₂, _, ⟨consequence, rfl⟩, rfl⟩ := mem_seq h₁
  obtain ⟨_, h₃, _, hClosing, rfl⟩ := mem_seq h₂
  obtain ⟨_, h₄, _, ⟨test, rfl⟩, rfl⟩ := mem_seq h₃
  obtain ⟨_, hWord, _, hOpening, rfl⟩ := mem_seq h₄
  obtain ⟨word, rfl⟩ := mem_token hWord
  obtain ⟨opening, rfl⟩ := mem_token hOpening
  obtain ⟨closing, rfl⟩ := mem_token hClosing
  refine ⟨word, ⟨opening, test, closing⟩, consequence, ?_⟩
  rcases mem_optional hElse with rfl | hElse
  · left
    simp [Statement.tokens, Condition.tokens]
  · obtain ⟨_, hElseWord, _, ⟨alternative, rfl⟩, rfl⟩ := mem_seq hElse
    obtain ⟨elseWord, rfl⟩ := mem_token hElseWord
    right
    exact ⟨elseWord, alternative, by simp [Statement.tokens, Condition.tokens]⟩

theorem closed_whileStmt : ∀ ts ∈ (rule .whileStmt).language members, ts ∈ members .whileStmt := by
  intro ts hts
  obtain ⟨_, h₁, _, ⟨body, rfl⟩, rfl⟩ := mem_seq hts
  obtain ⟨_, h₂, _, hClosing, rfl⟩ := mem_seq h₁
  obtain ⟨_, h₃, _, ⟨test, rfl⟩, rfl⟩ := mem_seq h₂
  obtain ⟨_, hWord, _, hOpening, rfl⟩ := mem_seq h₃
  obtain ⟨word, rfl⟩ := mem_token hWord
  obtain ⟨opening, rfl⟩ := mem_token hOpening
  obtain ⟨closing, rfl⟩ := mem_token hClosing
  exact ⟨word, ⟨opening, test, closing⟩, body, by simp [Statement.tokens, Condition.tokens]⟩

theorem exists_first_clause {ts : List Token}
    (h : ts ∈ (category .varDecl + category .exprStmt + mark .semicolon).language members) :
    ∃ initializer : Initializer, initializer.tokens = ts := by
  rcases mem_alt h with h | h
  · rcases mem_alt h with ⟨declaration, rfl⟩ | ⟨inner, semicolon, rfl⟩
    · exact ⟨.variable declaration, rfl⟩
    · exact ⟨.expression inner semicolon, rfl⟩
  · obtain ⟨semicolon, rfl⟩ := mem_token h
    exact ⟨.empty semicolon, rfl⟩

theorem closed_forStmt : ∀ ts ∈ (rule .forStmt).language members, ts ∈ members .forStmt := by
  intro ts hts
  obtain ⟨_, h₁, _, ⟨body, rfl⟩, rfl⟩ := mem_seq hts
  obtain ⟨_, h₂, _, hClosing, rfl⟩ := mem_seq h₁
  obtain ⟨_, h₃, _, hIncrement, rfl⟩ := mem_seq h₂
  obtain ⟨_, h₄, _, hSemicolon, rfl⟩ := mem_seq h₃
  obtain ⟨_, h₅, _, hCondition, rfl⟩ := mem_seq h₄
  obtain ⟨_, h₆, _, hInitializer, rfl⟩ := mem_seq h₅
  obtain ⟨_, hWord, _, hOpening, rfl⟩ := mem_seq h₆
  obtain ⟨word, rfl⟩ := mem_token hWord
  obtain ⟨opening, rfl⟩ := mem_token hOpening
  obtain ⟨initializer, rfl⟩ := exists_first_clause hInitializer
  obtain ⟨condition, rfl⟩ := exists_optional hCondition
  obtain ⟨semicolon, rfl⟩ := mem_token hSemicolon
  obtain ⟨increment, rfl⟩ := exists_optional hIncrement
  obtain ⟨closing, rfl⟩ := mem_token hClosing
  exact ⟨word, ⟨opening, initializer, condition, semicolon, increment, closing⟩, body,
    by simp [Statement.tokens, Header.tokens]⟩

theorem closed_statement : ∀ ts ∈ (rule .statement).language members, ts ∈ members .statement := by
  intro ts hts
  rcases mem_alt hts with h | ⟨word, header, body, rfl⟩
  · rcases mem_alt h with h | ⟨word, condition, body, rfl⟩
    · rcases mem_alt h with h | ⟨word, condition, consequence, rfl | ⟨_, _, rfl⟩⟩
      · rcases mem_alt h with h | ⟨opening, body, closing, rfl⟩
        · rcases mem_alt h with ⟨inner, semicolon, rfl⟩ | ⟨word, inner, semicolon, rfl⟩
          · exact ⟨_, rfl⟩
          · exact ⟨_, rfl⟩
        · exact ⟨_, rfl⟩
      · exact ⟨_, rfl⟩
      · exact ⟨_, rfl⟩
    · exact ⟨_, rfl⟩
  · exact ⟨_, rfl⟩

theorem closed_unary : ∀ ts ∈ (rule .unary).language members, ts ∈ members .unary := by
  intro ts hts
  rcases mem_alt hts with h | ⟨inner, rfl⟩
  · obtain ⟨_, hOperator, _, ⟨chain, rfl⟩, rfl⟩ := mem_seq h
    obtain ⟨operator, rfl⟩ := mem_token hOperator
    cases chain with
    | unary operand => exact ⟨.unary (.sign operator operand), rfl⟩
  · exact ⟨.unary (.primary inner), rfl⟩

/-- The token lists of the derivation trees are closed under the rules. -/
theorem closed_members (c : Category) : ∀ ts ∈ (rule c).language members, ts ∈ members c := by
  intro ts hts
  cases c with
  | program =>
    obtain ⟨_, hBody, _, hMark, rfl⟩ := mem_seq hts
    obtain ⟨words, rfl, hWords⟩ := Language.mem_kstar.mp hBody
    obtain ⟨body, hBody⟩ := exists_declarations_of_words words hWords
    obtain ⟨mark, rfl⟩ := mem_token hMark
    exact ⟨body, mark, by rw [hBody]⟩
  | declaration =>
    rcases mem_alt hts with ⟨inner, rfl⟩ | ⟨inner, rfl⟩
    · exact ⟨.variable inner, rfl⟩
    · exact ⟨.statement inner, rfl⟩
  | varDecl => exact closed_varDecl ts hts
  | statement => exact closed_statement ts hts
  | exprStmt =>
    obtain ⟨_, ⟨inner, rfl⟩, _, hSemicolon, rfl⟩ := mem_seq hts
    obtain ⟨semicolon, rfl⟩ := mem_token hSemicolon
    exact ⟨inner, semicolon, rfl⟩
  | printStmt =>
    obtain ⟨_, h₁, _, hSemicolon, rfl⟩ := mem_seq hts
    obtain ⟨_, hWord, _, ⟨inner, rfl⟩, rfl⟩ := mem_seq h₁
    obtain ⟨word, rfl⟩ := mem_token hWord
    obtain ⟨semicolon, rfl⟩ := mem_token hSemicolon
    exact ⟨word, inner, semicolon, rfl⟩
  | block =>
    obtain ⟨_, h₁, _, hClosing, rfl⟩ := mem_seq hts
    obtain ⟨_, hOpening, _, hBody, rfl⟩ := mem_seq h₁
    obtain ⟨words, rfl, hWords⟩ := Language.mem_kstar.mp hBody
    obtain ⟨body, hBody⟩ := exists_declarations_of_words words hWords
    obtain ⟨opening, rfl⟩ := mem_token hOpening
    obtain ⟨closing, rfl⟩ := mem_token hClosing
    exact ⟨opening, body, closing, by simp [Statement.tokens, hBody]⟩
  | ifStmt => exact closed_ifStmt ts hts
  | whileStmt => exact closed_whileStmt ts hts
  | forStmt => exact closed_forStmt ts hts
  | expression => exact hts
  | assignment =>
    obtain ⟨_, ⟨target, rfl⟩, _, hValue, rfl⟩ := mem_seq hts
    rcases mem_optional hValue with rfl | hValue
    · exact ⟨.plain target, (List.append_nil _).symm⟩
    · obtain ⟨_, hEquals, _, ⟨value, rfl⟩, rfl⟩ := mem_seq hValue
      obtain ⟨equals, rfl⟩ := mem_token hEquals
      exact ⟨.assignment target equals value, rfl⟩
  | logicOr => exact closed_level .disjunction ts hts
  | logicAnd => exact closed_level .conjunction ts hts
  | equality => exact closed_level .equality ts hts
  | comparison => exact closed_level .comparison ts hts
  | term => exact closed_level .sum ts hts
  | factor => exact closed_level .product ts hts
  | unary => exact closed_unary ts hts
  | primary =>
    rcases mem_alt hts with h | h
    · obtain ⟨leaf, rfl⟩ := mem_token h
      exact ⟨.atom leaf, rfl⟩
    · obtain ⟨_, h₁, _, hClosing, rfl⟩ := mem_seq h
      obtain ⟨_, hOpening, _, ⟨inner, rfl⟩, rfl⟩ := mem_seq h₁
      obtain ⟨opening, rfl⟩ := mem_token hOpening
      obtain ⟨closing, rfl⟩ := mem_token hClosing
      exact ⟨.group opening inner closing, rfl⟩

/-! ## From a tree to the grammar -/

/-- The kinds of a token list. -/
def kinds (ts : List Token) : List Kind :=
  ts.map Token.kind

@[simp] theorem kinds_nil : kinds [] = [] := rfl

@[simp] theorem kinds_cons (t : Token) (ts : List Token) : kinds (t :: ts) = t.kind :: kinds ts :=
  rfl

@[simp] theorem kinds_append (ts us : List Token) : kinds (ts ++ us) = kinds ts ++ kinds us :=
  List.map_append

theorem Leaf.derives {allowed : List Kind} (leaf : Leaf allowed) :
    Derives (.token allowed) [leaf.token.kind] :=
  .token leaf.allowed

mutual

theorem Expression.derives : (e : Expression) → Derives (category .expression) (kinds e.tokens)
  | .plain chain => by
    have h := Derives.seq chain.derives
      (Derives.absent (a := mark .equal * category .assignment))
    rw [List.append_nil] at h
    exact .category (.category h)
  | .assignment target equals value => by
    have hValue := value.derives
    cases hValue with
    | category hValue =>
      have h := Derives.seq target.derives (.present (.seq equals.derives hValue))
      simp only [Expression.tokens, kinds_append, kinds_cons]
      exact .category (.category h)

theorem Chain.derives : {level? : Option Level} → (c : Chain level?) →
    Derives (category (categoryOf level?)) (kinds c.tokens)
  | _, .unary inner => inner.derives
  | some level, .level first links => by
    have h := Derives.seq first.derives links.derives
    rw [Chain.tokens, kinds_append]
    refine .category ?_
    rw [rule_categoryOf]
    exact h

theorem Links.derives : {level : Level} → (links : Links level) →
    Derives (many (token level.operators * category (categoryOf level.tighter?)))
      (kinds links.tokens)
  | _, .none => .stop
  | _, .link operator operand links => by
    have h := Derives.more (.seq operator.derives operand.derives) links.derives
    simpa only [Links.tokens, kinds_append, kinds_cons, List.singleton_append] using h

theorem Unary.derives : (u : Unary) → Derives (category .unary) (kinds u.tokens)
  | .sign operator operand => .category (.left (.seq operator.derives operand.derives))
  | .primary inner => .category (.right inner.derives)

theorem Primary.derives : (p : Primary) → Derives (category .primary) (kinds p.tokens)
  | .atom leaf => .category (.left leaf.derives)
  | .group opening inner closing =>
    have h := Derives.seq (.seq opening.derives inner.derives) closing.derives
    .category (.right (h.of_eq (by simp [Primary.tokens])))

end

theorem Expression.derives? : (e? : Option Expression) →
    Derives (.optional (category .expression)) (kinds (Expression.tokens? e?))
  | none => .absent
  | some e => .present e.derives

theorem Variable.derives (v : Variable) : Derives (category .varDecl) (kinds v.tokens) := by
  have hValue : Derives (.optional (mark .equal * category .expression))
      (kinds (valueTokens v.initializer)) := by
    cases v.initializer with
    | none => exact .absent
    | some pair => exact .present (.seq pair.1.derives pair.2.derives)
  have h := Derives.seq (.seq (.seq v.word.derives v.name.derives) hValue) v.semicolon.derives
  exact .category (h.of_eq (by simp [Variable.tokens]))

theorem Initializer.derives : (i : Initializer) →
    Derives (category .varDecl + category .exprStmt + mark .semicolon) (kinds i.tokens)
  | .empty semicolon => .right semicolon.derives
  | .variable declaration => .left (.left declaration.derives)
  | .expression inner semicolon =>
    have h := Derives.seq inner.derives semicolon.derives
    .left (.right (.category (h.of_eq (by simp [Initializer.tokens]))))

/-- The word, the condition and the statement of an `if` or a `while`. -/
theorem Condition.derives {kind : Kind} (word : Mark kind) (condition : Condition)
    {e : Ebnf} {w : List Kind} (h : Derives e w) :
    Derives (mark kind * mark .leftParen * category .expression * mark .rightParen * e)
      (word.token.kind :: kinds condition.tokens ++ w) := by
  have h := Derives.seq (.seq (.seq (.seq word.derives condition.opening.derives)
    condition.test.derives) condition.closing.derives) h
  exact h.of_eq (by simp [Condition.tokens])

mutual

theorem Statement.derives : (s : Statement) → Derives (category .statement) (kinds s.tokens)
  | .expression inner semicolon =>
    have h := Derives.seq inner.derives semicolon.derives
    .category (.left (.left (.left (.left (.left
      (.category (h.of_eq (by simp [Statement.tokens]))))))))
  | .print word inner semicolon =>
    have h := Derives.seq (.seq word.derives inner.derives) semicolon.derives
    .category (.left (.left (.left (.left (.right
      (.category (h.of_eq (by simp [Statement.tokens]))))))))
  | .block opening body closing =>
    have h := Derives.seq (.seq opening.derives body.derives) closing.derives
    .category (.left (.left (.left (.right
      (.category (h.of_eq (by simp [Statement.tokens])))))))
  | .branch word condition consequence =>
    have h := Derives.seq (condition.derives word consequence.derives)
      (Derives.absent (a := mark .elseWord * category .statement))
    .category (.left (.left (.right (.category (h.of_eq (by simp [Statement.tokens]))))))
  | .branchElse word condition consequence elseWord alternative =>
    have h := Derives.seq (condition.derives word consequence.derives)
      (.present (.seq elseWord.derives alternative.derives))
    .category (.left (.left (.right (.category (h.of_eq (by simp [Statement.tokens]))))))
  | .loop word condition body =>
    have h := condition.derives word body.derives
    .category (.left (.right (.category (h.of_eq (by simp [Statement.tokens])))))
  | .count word header body =>
    have h := Derives.seq (.seq (.seq (.seq (.seq (.seq (.seq word.derives header.opening.derives)
      header.initializer.derives) (Expression.derives? header.condition)) header.semicolon.derives)
      (Expression.derives? header.increment)) header.closing.derives) body.derives
    .category (.right (.category (h.of_eq (by simp [Statement.tokens, Header.tokens]))))

theorem Declaration.derives : (d : Declaration) → Derives (category .declaration) (kinds d.tokens)
  | .variable inner => .category (.left inner.derives)
  | .statement inner => .category (.right inner.derives)

theorem Declarations.derives : (d : Declarations) →
    Derives (many (category .declaration)) (kinds d.tokens)
  | .nil => .stop
  | .cons first rest => by
    have h := Derives.more first.derives rest.derives
    simpa only [Declarations.tokens, kinds_append] using h

end

/-- A token list has a derivation exactly when its kinds are a sentence. -/
theorem sentence_iff (ts : List Token) :
    Sentence (kinds ts) ↔ ∃ d : Declarations, d.tokens = ts := by
  constructor
  · intro h
    have hMark : kinds (ts ++ [Token.ofSource .eof "" .nil 0]) = kinds ts ++ [.eof] :=
      kinds_append ts _
    obtain ⟨body, mark, hTokens⟩ := h.mem_language closed_members _ hMark
    exact ⟨body, (List.append_inj' hTokens rfl).1⟩
  · rintro ⟨d, rfl⟩
    exact .category (.seq d.derives (.token List.mem_cons_self))

/-! ## The nearest `if` -/

/-- An `else` behind a statement that ends in an open `if` can be given to
the nearest one. -/
theorem Statement.exists_attached (elseWord : Mark .elseWord) {alternative : Statement}
    (ha : alternative.NearestElse) : (s : Statement) → s.NearestElse → s.endsOpen = true →
      ∃ d : Statement, d.NearestElse ∧ d.tokens = s.tokens ++ elseWord.token :: alternative.tokens ∧
        d.expressions = s.expressions ++ alternative.expressions
  | .branch word condition consequence, hs, _ => by
    -- the innermost open `if` is this one only if the branch does not end in one
    cases ho : consequence.endsOpen with
    | true =>
      obtain ⟨d, hd, hTokens, hExpressions⟩ := exists_attached elseWord ha consequence hs ho
      exact ⟨.branch word condition d, hd, by simp [Statement.tokens, hTokens],
        by simp [Statement.expressions, hExpressions]⟩
    | false =>
      exact ⟨.branchElse word condition consequence elseWord alternative, ⟨hs, ho, ha⟩,
        by simp [Statement.tokens], by simp [Statement.expressions]⟩
  | .branchElse word condition consequence other last, hs, ho => by
    obtain ⟨d, hd, hTokens, hExpressions⟩ := exists_attached elseWord ha last hs.2.2 ho
    exact ⟨.branchElse word condition consequence other d, ⟨hs.1, hs.2.1, hd⟩,
      by simp [Statement.tokens, hTokens], by simp [Statement.expressions, hExpressions]⟩
  | .loop word condition body, hs, ho => by
    obtain ⟨d, hd, hTokens, hExpressions⟩ := exists_attached elseWord ha body hs ho
    exact ⟨.loop word condition d, hd, by simp [Statement.tokens, hTokens],
      by simp [Statement.expressions, hExpressions]⟩
  | .count word header body, hs, ho => by
    obtain ⟨d, hd, hTokens, hExpressions⟩ := exists_attached elseWord ha body hs ho
    exact ⟨.count word header d, hd, by simp [Statement.tokens, hTokens],
      by simp [Statement.expressions, hExpressions]⟩
  | .expression .., _, ho | .print .., _, ho | .block .., _, ho => by
    simp [Statement.endsOpen] at ho

mutual

theorem Statement.exists_nearest : (s : Statement) →
    ∃ d : Statement, d.NearestElse ∧ d.tokens = s.tokens ∧ d.expressions = s.expressions
  | .expression inner semicolon => ⟨.expression inner semicolon, trivial, rfl, rfl⟩
  | .print word inner semicolon => ⟨.print word inner semicolon, trivial, rfl, rfl⟩
  | .block opening body closing => by
    obtain ⟨d, hd, hTokens, hExpressions⟩ := body.exists_nearest
    exact ⟨.block opening d closing, hd, by rw [Statement.tokens, Statement.tokens, hTokens],
      by rw [Statement.expressions, Statement.expressions, hExpressions]⟩
  | .branch word condition consequence => by
    obtain ⟨d, hd, hTokens, hExpressions⟩ := consequence.exists_nearest
    exact ⟨.branch word condition d, hd, by rw [Statement.tokens, Statement.tokens, hTokens],
      by rw [Statement.expressions, Statement.expressions, hExpressions]⟩
  | .branchElse word condition consequence elseWord alternative => by
    obtain ⟨c, hc, hcTokens, hcExpressions⟩ := consequence.exists_nearest
    obtain ⟨a, ha, haTokens, haExpressions⟩ := alternative.exists_nearest
    cases ho : c.endsOpen with
    | true =>
      obtain ⟨d, hd, hTokens, hExpressions⟩ := Statement.exists_attached elseWord ha c hc ho
      refine ⟨.branch word condition d, hd, ?_, ?_⟩
      · simp [Statement.tokens, hTokens, hcTokens, haTokens]
      · simp [Statement.expressions, hExpressions, hcExpressions, haExpressions]
    | false =>
      refine ⟨.branchElse word condition c elseWord a, ⟨hc, ho, ha⟩, ?_, ?_⟩
      · simp [Statement.tokens, hcTokens, haTokens]
      · simp [Statement.expressions, hcExpressions, haExpressions]
  | .loop word condition body => by
    obtain ⟨d, hd, hTokens, hExpressions⟩ := body.exists_nearest
    exact ⟨.loop word condition d, hd, by rw [Statement.tokens, Statement.tokens, hTokens],
      by rw [Statement.expressions, Statement.expressions, hExpressions]⟩
  | .count word header body => by
    obtain ⟨d, hd, hTokens, hExpressions⟩ := body.exists_nearest
    exact ⟨.count word header d, hd, by rw [Statement.tokens, Statement.tokens, hTokens],
      by rw [Statement.expressions, Statement.expressions, hExpressions]⟩

theorem Declaration.exists_nearest : (s : Declaration) →
    ∃ d : Declaration, d.NearestElse ∧ d.tokens = s.tokens ∧ d.expressions = s.expressions
  | .variable inner => ⟨.variable inner, trivial, rfl, rfl⟩
  | .statement inner => by
    obtain ⟨d, hd, hTokens, hExpressions⟩ := inner.exists_nearest
    exact ⟨.statement d, hd, hTokens, hExpressions⟩

/-- Every derivation can be turned into one that gives each `else` to the
nearest open `if`, over the same tokens and the same expressions. -/
theorem Declarations.exists_nearest : (s : Declarations) →
    ∃ d : Declarations, d.NearestElse ∧ d.tokens = s.tokens ∧ d.expressions = s.expressions
  | .nil => ⟨.nil, trivial, rfl, rfl⟩
  | .cons first rest => by
    obtain ⟨d, hd, hTokens, hExpressions⟩ := first.exists_nearest
    obtain ⟨ds, hds, hsTokens, hsExpressions⟩ := rest.exists_nearest
    refine ⟨.cons d ds, ⟨hd, hds⟩, ?_, ?_⟩
    · rw [Declarations.tokens, Declarations.tokens, hTokens, hsTokens]
    · rw [Declarations.expressions, Declarations.expressions, hExpressions, hsExpressions]

end

end Treewalk.Derivation
