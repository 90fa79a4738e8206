import Treewalk.Proofs.Tree.Legible
import Treewalk.Proofs.Tree.Relabel

/-!
# The text of a tree tells the tree

The text of a tree is that of a legible phrase, and a legible phrase is
told from its text. What is left is to tell the tree from its phrase:
`Stmt.ofPhrase` builds it from the names of forms, the number of their
parts and the kinds of words, and gives back every tree but for the lines
of its tokens (`Stmt.ofPhrase_phrase`). So two trees have one text exactly
if they differ in lines alone (`printed_alike_iff`).
-/

namespace Treewalk

open Lexical

/-! ## The trees of phrases -/

/-- The token a phrase names. -/
def Token.ofPhrase : Phrase → Token
  | .word cs => .ofSpelling cs
  | _ => .ofSpelling []

/-- The expression a word stands for. -/
def Expr.ofWord (cs : List Char) : Expr :=
  match kindOf cs with
  | .nilWord => .literal .nil
  | .trueWord => .literal (.bool true)
  | .falseWord => .literal (.bool false)
  | .identifier => .variable (.ofSpelling cs)
  | _ => .literal ((readNumber? cs).getD .nil)

/-- An operator between two expressions. -/
def Expr.joined (operator : Token) (left right : Expr) : Expr :=
  if operator.kind ∈ [Kind.orWord, .andWord] then .logical left operator right
  else .binary left operator right

/-- The expression a phrase stands for, if it stands for one. -/
def Expr.ofPhrase : Phrase → Expr
  | .word cs => .ofWord cs
  | .quoted body => .literal (.string (.whole (String.ofList body)))
  | .form name [part] =>
    if name = "group".toList then .grouping (ofPhrase part)
    else .unary (.ofSpelling name) (ofPhrase part)
  | .form name [first, second] =>
    if name = "=".toList then .assign (.ofPhrase first) (ofPhrase second)
    else .joined (.ofSpelling name) (ofPhrase first) (ofPhrase second)
  | .form _ _ => .literal .nil

mutual

/-- The statement a phrase stands for, if it stands for one. -/
def Stmt.ofPhrase : Phrase → Stmt
  | .form name parts =>
    if name = "block".toList then .block (Stmt.ofPhrases parts)
    else match parts with
      | [part] =>
        if name = ";".toList then .expression (.ofPhrase part)
        else if name = "print".toList then .print (.ofPhrase part)
        else .var (.ofPhrase part) none
      | [first, second] =>
        if name = "var".toList then .var (.ofPhrase first) (some (.ofPhrase second))
        else if name = "if".toList then .branch (.ofPhrase first) (Stmt.ofPhrase second) none
        else .loop (.ofPhrase first) (Stmt.ofPhrase second)
      | [first, second, third] =>
        .branch (.ofPhrase first) (Stmt.ofPhrase second) (some (Stmt.ofPhrase third))
      | _ => .block []
  | _ => .block []

/-- The statements that phrases stand for. -/
def Stmt.ofPhrases : List Phrase → List Stmt
  | [] => []
  | part :: rest => Stmt.ofPhrase part :: Stmt.ofPhrases rest

end

/-! ## Literals -/

/-- What starts with a digit is no name and no reserved word. -/
theorem kindOf_of_isDigit {c : Char} (h : c.isDigit) (cs : List Char) :
    kindOf (c :: cs) ∈ [Kind.number, .eof] := by
  have hDigit : isDigit c := h
  have hFirst : ∃ ds, (Segment.first c cs).1 = .lexeme .number ds := by
    rw [first_of_isDigit hDigit]
    unfold Segment.number
    split
    · split <;> exact ⟨_, rfl⟩
    · exact ⟨_, rfl⟩
  obtain ⟨ds, hFirst⟩ := hFirst
  rw [kindOf, Segment.cut, hFirst]
  split
  next kind _ hSame =>
    have hKind : Kind.number = kind := (Segment.lexeme.inj (List.cons.inj hSame).1).1
    rw [← hKind]
    decide
  next => decide

/-- A literal is told from its phrase. -/
theorem Value.Legible.ofPhrase_phrase {v : Value} (h : v.Legible) :
    Expr.ofPhrase v.phrase = .literal v := by
  cases v with
  | nil =>
    show Expr.ofPhrase (.word Value.nil.spelling) = _
    rw [Expr.ofPhrase, Expr.ofWord, kindOf_eq lexeme_nil]
  | bool b =>
    show Expr.ofPhrase (.word (Value.bool b).spelling) = _
    cases b with
    | true => rw [Expr.ofPhrase, Expr.ofWord, kindOf_eq lexeme_true]
    | false => rw [Expr.ofPhrase, Expr.ofWord, kindOf_eq lexeme_false]
  | string s =>
    cases s with
    | whole s => rw [Value.phrase, Text.escaped, Expr.ofPhrase, String.ofList_toList]
    | torn t => cases h
  | number x =>
    obtain ⟨⟨c, cs, hWrite, hc⟩, -⟩ := exists_spoken h
    have hRead := readNumber?_write h
    have hKind := kindOf_of_isDigit hc cs
    rw [hWrite] at hRead
    show Expr.ofPhrase (.word (Value.number x).spelling) = _
    rw [spelling_number, hWrite, Expr.ofPhrase, Expr.ofWord, hRead]
    rcases List.mem_cons.mp hKind with hKind | hKind
    · rw [hKind]
      rfl
    · rw [List.mem_singleton.mp hKind]
      rfl
  | list items => cases h
  | object fields => cases h

/-! ## The tree of a phrase -/

/-- What is spelled otherwise is of another kind. -/
theorem Token.Spelled.spelling_ne {t : Token} (h : t.Spelled) {kinds : List Kind}
    (hk : t.kind ∈ kinds) {cs : List Char} (hcs : kindOf cs ∉ kinds) : t.spelling ≠ cs := by
  rintro rfl
  rw [h.kindOf_eq] at hcs
  exact hcs hk

theorem kindOf_equal : kindOf "=".toList = .equal :=
  kindOf_eq (.sign (by decide))

theorem kindOf_group : kindOf "group".toList = .identifier := by
  decide +kernel

theorem binary_not_logical : ∀ k ∈ binaryOperators, k ∉ [Kind.orWord, .andWord] := by
  decide

/-- An expression is given back by its phrase, but for the lines. -/
theorem Expr.ofPhrase_phrase : (e : Expr) → e.Sound .legible →
    Expr.ofPhrase e.phrase = e.map Token.withoutLine
  | .literal _, h => Value.Legible.ofPhrase_phrase h
  | .variable name, h => by
    have hName := h.spelled identifier_spelled
    rw [Expr.phrase, Expr.ofPhrase, Expr.ofWord, hName.kindOf_eq, List.mem_singleton.mp h.1,
      hName.token]
    rfl
  | .grouping inner, h => by
    rw [Expr.phrase, Expr.ofPhrase, if_pos rfl, inner.ofPhrase_phrase h]
    rfl
  | .unary operator right, ⟨hOperator, hRight⟩ => by
    have hName := hOperator.spelled unary_spelled
    have hGroup : operator.spelling ≠ "group".toList :=
      hName.spelling_ne hOperator.1 (by rw [kindOf_group]; decide)
    rw [Expr.phrase, Expr.ofPhrase, if_neg hGroup, hName.token, right.ofPhrase_phrase hRight]
    rfl
  | .assign name value, ⟨hName, hValue⟩ => by
    rw [Expr.phrase, Expr.ofPhrase, if_pos rfl, Token.ofPhrase,
      (hName.spelled identifier_spelled).token, value.ofPhrase_phrase hValue]
    rfl
  | .binary left operator right, ⟨hLeft, hOperator, hRight⟩ => by
    have hName := hOperator.spelled binary_spelled
    have hEqual : operator.spelling ≠ "=".toList :=
      hName.spelling_ne hOperator.1 (by rw [kindOf_equal]; decide)
    rw [Expr.phrase, Expr.ofPhrase, if_neg hEqual, hName.token, left.ofPhrase_phrase hLeft,
      right.ofPhrase_phrase hRight]
    exact if_neg (binary_not_logical operator.kind hOperator.1)
  | .logical left operator right, ⟨hLeft, hOperator, hRight⟩ => by
    have hName := hOperator.spelled logical_spelled
    have hEqual : operator.spelling ≠ "=".toList :=
      hName.spelling_ne hOperator.1 (by rw [kindOf_equal]; decide)
    rw [Expr.phrase, Expr.ofPhrase, if_neg hEqual, hName.token, left.ofPhrase_phrase hLeft,
      right.ofPhrase_phrase hRight]
    exact if_pos hOperator.1

mutual

/-- A statement is given back by its phrase, but for the lines. -/
theorem Stmt.ofPhrase_phrase : (s : Stmt) → s.Sound .legible →
    Stmt.ofPhrase s.phrase = s.map Token.withoutLine
  | .expression inner, h | .print inner, h => by
    simp [Stmt.phrase, Stmt.ofPhrase, Stmt.map, inner.ofPhrase_phrase h]
  | .var name none, ⟨hName, _⟩ => by
    have hTarget := (hName.spelled identifier_spelled).token
    simp [Stmt.phrase, Stmt.ofPhrase, Stmt.map, Token.ofPhrase, hTarget]
  | .var name (some initializer), ⟨hName, hInitializer⟩ => by
    have hTarget := (hName.spelled identifier_spelled).token
    simp [Stmt.phrase, Stmt.ofPhrase, Stmt.map, Token.ofPhrase, hTarget,
      initializer.ofPhrase_phrase hInitializer]
  | .block statements, h => by
    rw [Stmt.phrase, Stmt.map, ← Stmt.ofPhrases_phrases statements h]
    unfold Stmt.ofPhrase
    exact if_pos rfl
  | .branch condition consequence none, ⟨hTest, hThen⟩ => by
    simp [Stmt.phrase, Stmt.ofPhrase, Stmt.map, condition.ofPhrase_phrase hTest,
      consequence.ofPhrase_phrase hThen]
  | .branch condition consequence (some alternative), ⟨hTest, hThen, hElse⟩ => by
    simp [Stmt.phrase, Stmt.ofPhrase, Stmt.map, condition.ofPhrase_phrase hTest,
      consequence.ofPhrase_phrase hThen, alternative.ofPhrase_phrase hElse]
  | .loop condition body, ⟨hTest, hBody⟩ => by
    simp [Stmt.phrase, Stmt.ofPhrase, Stmt.map, condition.ofPhrase_phrase hTest,
      body.ofPhrase_phrase hBody]

theorem Stmt.ofPhrases_phrases : (statements : List Stmt) → Stmt.AllSound .legible statements →
    Stmt.ofPhrases (Stmt.phrases statements) = Stmt.mapAll Token.withoutLine statements
  | [], _ => by rw [Stmt.phrases, Stmt.ofPhrases, Stmt.mapAll]
  | s :: rest, ⟨hs, hRest⟩ => by
    rw [Stmt.phrases, Stmt.ofPhrases, s.ofPhrase_phrase hs, Stmt.ofPhrases_phrases rest hRest,
      Stmt.mapAll]

end

/-! ## The lines do not show -/

theorem Expr.phrase_map : (e : Expr) → (e.map Token.withoutLine).phrase = e.phrase
  | .literal _ | .variable _ => rfl
  | .grouping inner => by rw [Expr.map, Expr.phrase, inner.phrase_map, Expr.phrase]
  | .unary _ right => by
    rw [Expr.map, Expr.phrase, right.phrase_map, Expr.phrase]
    rfl
  | .assign _ value => by
    rw [Expr.map, Expr.phrase, value.phrase_map, Expr.phrase]
    rfl
  | .binary left _ right | .logical left _ right => by
    rw [Expr.map, Expr.phrase, left.phrase_map, right.phrase_map, Expr.phrase]
    rfl

mutual

theorem Stmt.phrase_map : (s : Stmt) → (s.map Token.withoutLine).phrase = s.phrase
  | .expression inner | .print inner => by
    rw [Stmt.map, Stmt.phrase, inner.phrase_map, Stmt.phrase]
  | .var _ none => rfl
  | .var _ (some initializer) => by
    rw [Stmt.map, Option.map_some, Stmt.phrase, initializer.phrase_map, Stmt.phrase]
    rfl
  | .block statements => by rw [Stmt.map, Stmt.phrase, Stmt.phrases_mapAll statements, Stmt.phrase]
  | .branch condition consequence none => by
    rw [Stmt.map, Stmt.phrase, condition.phrase_map, consequence.phrase_map, Stmt.phrase]
  | .branch condition consequence (some alternative) => by
    rw [Stmt.map, Stmt.phrase, condition.phrase_map, consequence.phrase_map, alternative.phrase_map,
      Stmt.phrase]
  | .loop condition body => by
    rw [Stmt.map, Stmt.phrase, condition.phrase_map, body.phrase_map, Stmt.phrase]

theorem Stmt.phrases_mapAll : (statements : List Stmt) →
    Stmt.phrases (Stmt.mapAll Token.withoutLine statements) = Stmt.phrases statements
  | [] => rfl
  | s :: rest => by
    rw [Stmt.mapAll, Stmt.phrases, s.phrase_map, Stmt.phrases_mapAll rest, Stmt.phrases]

end

/-- Legible trees have one phrase exactly if they differ in lines alone. -/
theorem Stmt.phrase_eq_iff {a b : Stmt} (ha : a.Sound .legible) (hb : b.Sound .legible) :
    a.phrase = b.phrase ↔ a.map Token.withoutLine = b.map Token.withoutLine := by
  constructor <;> intro h
  · rw [← a.ofPhrase_phrase ha, h, b.ofPhrase_phrase hb]
  · rw [← a.phrase_map, h, b.phrase_map]

/-- Entries of texts in which no number is infinite have a text each, and
it is the same one exactly if the entries differ in the lines of their
tokens alone. -/
theorem printed_alike_iff (first second : String) (a b : Stmt)
    (ha : some a ∈ (parse (scan first).tokens).entries)
    (hb : some b ∈ (parse (scan second).tokens).entries)
    (haFinite : ∀ v ∈ a.literals, v.isInfinite = false)
    (hbFinite : ∀ v ∈ b.literals, v.isInfinite = false) :
    ∃ s t, a.toNode.entryText? = some s ∧ b.toNode.entryText? = some t ∧
      (s = t ↔ a.map Token.withoutLine = b.map Token.withoutLine) := by
  have haLegible : a.Sound .legible := entry_legible ha haFinite
  have hbLegible : b.Sound .legible := entry_legible hb hbFinite
  refine ⟨_, _, a.entryText?_eq haLegible, b.entryText?_eq hbLegible, ?_⟩
  rw [← Stmt.phrase_eq_iff haLegible hbLegible, String.ofList_inj]
  constructor
  · exact Phrase.text_injective (a.phrase_legible haLegible) (b.phrase_legible hbLegible)
  · exact congrArg Phrase.text

/-- Two layouts of one block are printed alike, so they are read as one
tree but for the lines. -/
theorem printed_alike_layouts :
    let first := "\x7b print -(nil == \"a) b\"); x = 1.50; \x7d"
    let second := "\x7bprint -(\nnil==\"a) b\");\n\nx=1.5;\x7d"
    let text := "(block (print (- (group (== nil \"a) b\")))) (; (= x 1.5)))"
    ∃ a b, some a ∈ (parse (scan first).tokens).entries ∧
      some b ∈ (parse (scan second).tokens).entries ∧
      (∀ v ∈ a.literals, v.isInfinite = false) ∧ (∀ v ∈ b.literals, v.isInfinite = false) ∧
      a.toNode.entryText? = some text ∧ b.toNode.entryText? = some text ∧
      a.map Token.withoutLine = b.map Token.withoutLine := by
  intro first second text
  have hEntries : ∀ source ∈ [first, second], (parse (scan source).tokens).entries.map (fun entry =>
      (entry.isSome, (Stmt.toNode? entry).entryText?,
        (entry.elim [] Stmt.literals).any Value.isInfinite)) = [(true, some text, false)] := by
    decide +kernel
  have hEntry : ∀ source ∈ [first, second], ∃ s, some s ∈ (parse (scan source).tokens).entries ∧
      (∀ v ∈ s.literals, v.isInfinite = false) ∧ s.toNode.entryText? = some text := by
    intro source hSource
    obtain ⟨entry, hOne, hEntry⟩ := List.map_eq_singleton_iff.mp (hEntries source hSource)
    obtain ⟨hSome, hMore⟩ := Prod.mk.inj hEntry
    obtain ⟨hText, hFinite⟩ := Prod.mk.inj hMore
    obtain ⟨s, rfl⟩ := Option.isSome_iff_exists.mp hSome
    refine ⟨s, hOne ▸ List.mem_cons_self, fun v hv => ?_, hText⟩
    exact Bool.eq_false_iff.mpr (List.any_eq_false.mp hFinite v hv)
  obtain ⟨a, ha, haFinite, haText⟩ := hEntry first (by simp)
  obtain ⟨b, hb, hbFinite, hbText⟩ := hEntry second (by simp)
  refine ⟨a, b, ha, hb, haFinite, hbFinite, haText, hbText, ?_⟩
  obtain ⟨s, t, hs, ht, hSame⟩ := printed_alike_iff first second a b ha hb haFinite hbFinite
  rw [haText, Option.some.injEq] at hs
  rw [hbText, Option.some.injEq] at ht
  exact hSame.mp (hs.symm.trans ht)

end Treewalk
