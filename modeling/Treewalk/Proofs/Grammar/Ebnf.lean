import Mathlib.Computability.Language
import Treewalk.Token

/-!
# The grammar as data

The grammar of the language, category by category, in extended notation:
sequence, choice, repetition and option over tokens and categories
(`rule`). What a right side derives is an inductive relation on lists of
kinds (`Derives`), so nothing here knows how a token list is read.

The grammar is ambiguous as it stands: an `else` may be given to any `if`
that is still open. Which one it belongs to is a question about
derivations, not about sentences.

`Derives` is the least relation closed under the rules. The law of this
module (`Derives.mem_language`) says so in the form later modules use: any
languages, one a category, that are closed under the rules hold every
token list whose kinds are derived.
-/

namespace Treewalk

/-- The syntactic categories. -/
inductive Category where
  | program | declaration | varDecl
  | statement | exprStmt | printStmt | block | ifStmt | whileStmt | forStmt
  | expression | assignment
  | logicOr | logicAnd | equality | comparison | term | factor
  | unary | primary
deriving DecidableEq, Repr

/-- A right side: what a category may consist of. -/
inductive Ebnf where
  /-- One token, of any of these kinds. -/
  | token (kinds : List Kind)
  | category (c : Category)
  | seq (first second : Ebnf)
  | alt (first second : Ebnf)
  /-- As often as wanted, also not at all. -/
  | many (inner : Ebnf)
  | optional (inner : Ebnf)
deriving DecidableEq, Repr

namespace Ebnf

/-- A product is a sequence. -/
instance : Mul Ebnf := ⟨seq⟩

/-- A sum is a choice. -/
instance : Add Ebnf := ⟨alt⟩

/-- A token of one kind. -/
def mark (kind : Kind) : Ebnf :=
  token [kind]

/-- Operands of one category joined by operators of the given kinds. -/
def joined (operators : List Kind) (operand : Category) : Ebnf :=
  category operand * many (token operators * category operand)

/-- The rules of the grammar. -/
def rule : Category → Ebnf
  | .program => many (category .declaration) * mark .eof
  | .declaration => category .varDecl + category .statement
  | .varDecl =>
    mark .varWord * mark .identifier * optional (mark .equal * category .expression)
      * mark .semicolon
  | .statement =>
    category .exprStmt + category .printStmt + category .block + category .ifStmt
      + category .whileStmt + category .forStmt
  | .exprStmt => category .expression * mark .semicolon
  | .printStmt => mark .printWord * category .expression * mark .semicolon
  | .block => mark .leftBrace * many (category .declaration) * mark .rightBrace
  | .ifStmt =>
    mark .ifWord * mark .leftParen * category .expression * mark .rightParen
      * category .statement * optional (mark .elseWord * category .statement)
  | .whileStmt =>
    mark .whileWord * mark .leftParen * category .expression * mark .rightParen
      * category .statement
  | .forStmt =>
    mark .forWord * mark .leftParen
      * (category .varDecl + category .exprStmt + mark .semicolon)
      * optional (category .expression) * mark .semicolon
      * optional (category .expression) * mark .rightParen * category .statement
  | .expression => category .assignment
  | .assignment => category .logicOr * optional (mark .equal * category .assignment)
  | .logicOr => joined [.orWord] .logicAnd
  | .logicAnd => joined [.andWord] .equality
  | .equality => joined [.bangEqual, .equalEqual] .comparison
  | .comparison => joined [.greater, .greaterEqual, .less, .lessEqual] .term
  | .term => joined [.minus, .plus] .factor
  | .factor => joined [.slash, .star] .unary
  | .unary => token [.bang, .minus] * category .unary + category .primary
  | .primary =>
    token [.number, .string, .falseWord, .trueWord, .nilWord, .identifier]
      + mark .leftParen * category .expression * mark .rightParen

/-- The kinds a right side derives. -/
inductive Derives : Ebnf → List Kind → Prop
  | token {kinds : List Kind} {kind : Kind} (h : kind ∈ kinds) : Derives (.token kinds) [kind]
  | category {c : Category} {w : List Kind} (h : Derives (rule c) w) : Derives (.category c) w
  | seq {a b : Ebnf} {v w : List Kind} (first : Derives a v) (second : Derives b w) :
      Derives (a * b) (v ++ w)
  | left {a b : Ebnf} {w : List Kind} (h : Derives a w) : Derives (a + b) w
  | right {a b : Ebnf} {w : List Kind} (h : Derives b w) : Derives (a + b) w
  | stop {a : Ebnf} : Derives (.many a) []
  | more {a : Ebnf} {v w : List Kind} (first : Derives a v) (rest : Derives (.many a) w) :
      Derives (.many a) (v ++ w)
  | absent {a : Ebnf} : Derives (.optional a) []
  | present {a : Ebnf} {w : List Kind} (h : Derives a w) : Derives (.optional a) w

theorem Derives.of_eq {e : Ebnf} {v w : List Kind} (h : Derives e v) (hw : v = w) : Derives e w :=
  hw ▸ h

/-- The kinds of a program, to which the end mark is added. -/
def Sentence (kinds : List Kind) : Prop :=
  Derives (category .program) (kinds ++ [.eof])

/-! ## Derivation is the least closed family -/

open scoped Computability

/-- The token lists of a right side, given those of each category. -/
def language (members : Category → Language Token) : Ebnf → Language Token
  | .token kinds => { ts | ∃ t : Token, t.kind ∈ kinds ∧ ts = [t] }
  | .category c => members c
  | .seq a b => a.language members * b.language members
  | .alt a b => a.language members + b.language members
  | .many a => (a.language members)∗
  | .optional a => 1 + a.language members

/-- Languages that are closed under the rules hold whatever is derived. -/
theorem Derives.mem_language {members : Category → Language Token}
    (closed : ∀ c, ∀ ts ∈ (rule c).language members, ts ∈ members c) {e : Ebnf} {w : List Kind}
    (h : Derives e w) : ∀ ts : List Token, ts.map Token.kind = w → ts ∈ e.language members := by
  induction h with
  | token hk =>
    intro ts hts
    obtain ⟨t, rfl, rfl⟩ := List.map_eq_singleton_iff.mp hts
    exact ⟨t, hk, rfl⟩
  | category _ ih =>
    intro ts hts
    exact closed _ ts (ih ts hts)
  | seq _ _ ihFirst ihSecond =>
    intro ts hts
    obtain ⟨us, vs, rfl, hus, hvs⟩ := List.map_eq_append_iff.mp hts
    exact Language.append_mem_mul (ihFirst us hus) (ihSecond vs hvs)
  | left _ ih =>
    intro ts hts
    exact (Language.mem_add _ _ _).mpr (.inl (ih ts hts))
  | right _ ih =>
    intro ts hts
    exact (Language.mem_add _ _ _).mpr (.inr (ih ts hts))
  | stop =>
    intro ts hts
    rw [List.map_eq_nil_iff.mp hts]
    exact Language.nil_mem_kstar _
  | more _ _ ihFirst ihRest =>
    intro ts hts
    obtain ⟨us, vs, rfl, hus, hvs⟩ := List.map_eq_append_iff.mp hts
    obtain ⟨words, rfl, hwords⟩ := Language.mem_kstar.mp (ihRest vs hvs)
    refine Language.mem_kstar.mpr ⟨us :: words, rfl, ?_⟩
    intro word hword
    rcases List.mem_cons.mp hword with rfl | hword
    · exact ihFirst word hus
    · exact hwords word hword
  | absent =>
    intro ts hts
    rw [List.map_eq_nil_iff.mp hts]
    exact (Language.mem_add _ _ _).mpr (.inl Language.nil_mem_one)
  | present _ ih =>
    intro ts hts
    exact (Language.mem_add _ _ _).mpr (.inr (ih ts hts))

end Ebnf

end Treewalk
