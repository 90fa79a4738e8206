import Treewalk.Proofs.Number.Spoken
import Treewalk.Proofs.Scanner.Layout
import Treewalk.Proofs.Session.Safety
import Treewalk.Proofs.Tree.Phrase

/-!
# Trees are printed as legible phrases

Names and operators of a source text are words, and a token of such a kind
is told by its characters but for its line (`Token.Scanned.spelled`). A
literal is a word or, between quotes, a text without a quote, unless it is
a number that is too large. So a tree of a source text without such numbers
has a legible phrase (`Stmt.phrase_legible`), and the text of the phrase is
the text of the tree (`Stmt.entryText?_eq`).
-/

namespace Treewalk

open Lexical

/-! ## The phrases of trees -/

/-- The lexeme of a token as characters. -/
def Token.spelling (t : Token) : List Char :=
  t.lexeme.shown.toList

/-- The text of a value as characters. -/
def Value.spelling (v : Value) : List Char :=
  match v.text? with
  | some text => text.escaped.toList
  | none => []

/-- The phrase of a literal. -/
def Value.phrase : Value → Phrase
  | .string s => .quoted s.escaped.toList
  | v => .word v.spelling

/-- The phrase of an expression. -/
def Expr.phrase : Expr → Phrase
  | .binary left operator right => .form operator.spelling [left.phrase, right.phrase]
  | .grouping inner => .form "group".toList [inner.phrase]
  | .literal value => value.phrase
  | .unary operator right => .form operator.spelling [right.phrase]
  | .variable name => .word name.spelling
  | .assign name value => .form "=".toList [.word name.spelling, value.phrase]
  | .logical left operator right => .form operator.spelling [left.phrase, right.phrase]

mutual

/-- The phrase of a statement. -/
def Stmt.phrase : Stmt → Phrase
  | .expression inner => .form ";".toList [inner.phrase]
  | .print inner => .form "print".toList [inner.phrase]
  | .var name none => .form "var".toList [.word name.spelling]
  | .var name (some initializer) =>
    .form "var".toList [.word name.spelling, initializer.phrase]
  | .block statements => .form "block".toList (Stmt.phrases statements)
  | .branch condition consequence none =>
    .form "if".toList [condition.phrase, consequence.phrase]
  | .branch condition consequence (some alternative) =>
    .form "if-else".toList [condition.phrase, consequence.phrase, alternative.phrase]
  | .loop condition body => .form "while".toList [condition.phrase, body.phrase]

/-- The phrases of statements in a row. -/
def Stmt.phrases : List Stmt → List Phrase
  | [] => []
  | s :: rest => s.phrase :: Stmt.phrases rest

end

/-! ## Words -/

/-- A token that stands on no line. -/
def Token.withoutLine (t : Token) : Token :=
  { t with line := .null }

/-- The kind of a lexeme, given by its characters. -/
def kindOf (cs : List Char) : Kind :=
  match Segment.cut cs with
  | [.lexeme kind _] => kind
  | _ => .eof

/-- The token of a name or an operator, given by its characters. -/
def Token.ofSpelling (cs : List Char) : Token :=
  ⟨kindOf cs, .string (String.ofList cs), .nil, .null⟩

theorem kindOf_eq {kind : Kind} {cs : List Char} {value : Value} (h : Lexeme kind cs value) :
    kindOf cs = kind := by
  have hCut : Segment.cut (cs ++ []) = .lexeme kind cs :: Segment.cut [] := h.cut_append nofun
  rw [List.append_nil, Segment.cut] at hCut
  rw [kindOf, hCut]

theorem inWord_of_isAlphanumeric {c : Char} (h : isAlphanumeric c) : Phrase.inWord c :=
  Phrase.inWord_of_class (by decide) h

/-- The kinds of lexemes that are no words: parentheses, strings, and
numbers, which are not printed as they are spelled. -/
def otherKinds : List Kind :=
  [.leftParen, .rightParen, .string, .number]

theorem isWord_sign : ∀ p ∈ signs, p.2 ∉ otherKinds → p.1 ≠ [] ∧ p.1.all Phrase.inWord := by
  decide

/-- A letter and letters or digits behind it are a word. -/
theorem isWord_cons {c : Char} {cs : List Char} (hc : isAlpha c)
    (hcs : ∀ d ∈ cs, isAlphanumeric d) : Phrase.IsWord (c :: cs) := by
  have hFirst : isAlphanumeric c := by rw [isAlphanumeric, hc, Bool.true_or]
  refine ⟨List.cons_ne_nil c cs, ?_⟩
  exact List.forall_mem_cons.mpr ⟨inWord_of_isAlphanumeric hFirst,
    fun d hd => inWord_of_isAlphanumeric (hcs d hd)⟩

/-- The characters of a name, a reserved word or an operator are a word. -/
theorem isWord_lexeme {kind : Kind} {cs : List Char} {value : Value} (h : Lexeme kind cs value)
    (hk : kind ∉ otherKinds) : Phrase.IsWord cs := by
  cases h with
  | sign h =>
    obtain ⟨hne, hAll⟩ := isWord_sign _ h hk
    exact ⟨hne, List.all_eq_true.mp hAll⟩
  | string h | whole hne h | fraction hne h hne' h' => exact absurd (by decide) hk
  | keyword h =>
    obtain ⟨c, ds, rfl, hc, hds⟩ := exists_word_of_mem h
    exact isWord_cons hc hds
  | identifier hc hcs h => exact isWord_cons hc hcs

/-- The kinds of names and operators. -/
def spelledKinds : List Kind :=
  [.identifier, .orWord, .andWord] ++ unaryOperators ++ binaryOperators

/-- A token that is told by its characters but for its line. -/
structure Token.Spelled (t : Token) : Prop where
  word : Phrase.IsWord t.spelling
  lexeme : t.lexeme = .string t.lexeme.shown
  token : .ofSpelling t.spelling = t.withoutLine

theorem Token.Spelled.kindOf_eq {t : Token} (h : t.Spelled) : kindOf t.spelling = t.kind :=
  congrArg Token.kind h.token

/-- A name or an operator of a source text is told by its characters. -/
theorem Token.Scanned.spelled {t : Token} (h : t.Scanned) (hk : t.kind ∈ spelledKinds) :
    t.Spelled := by
  obtain ⟨kind, cs, value, line, hLexeme, rfl⟩ := h
  have hKind : kind ∈ spelledKinds := hk
  have hNoLiteral : ∀ k ∈ spelledKinds, k ≠ .number ∧ k ≠ .string ∧ k ≠ .eof := by decide
  have hWord : ∀ k ∈ spelledKinds, k ∉ otherKinds := by decide
  have hValue : value = .nil := by
    rw [← hLexeme.literal_eq, literal_eq_nil (hNoLiteral kind hKind)]
  have hSpelling : (Token.ofSource kind (String.ofList cs) value line).spelling = cs :=
    String.toList_ofList
  refine ⟨?_, ?_, ?_⟩
  · rw [hSpelling]
    exact isWord_lexeme hLexeme (hWord kind hKind)
  · rfl
  · rw [hSpelling, Token.ofSpelling, Treewalk.kindOf_eq hLexeme, hValue]
    rfl

/-! ## Literals -/

/-- A value that can be told from its phrase. -/
def Value.Legible : Value → Prop
  | .nil | .bool _ => True
  | .number x => Finite x
  | .string (.whole s) => '"' ∉ s.toList
  | .string (.torn _) | .list _ | .object _ => False

theorem inWord_of_isNumeral {c : Char} (h : isNumeral c) : Phrase.inWord c :=
  Phrase.inWord_of_class (by decide) h

theorem lexeme_nil : Lexeme .nilWord Value.nil.spelling .nil :=
  .keyword (by decide)

theorem lexeme_true : Lexeme .trueWord (Value.bool true).spelling .nil :=
  .keyword (by decide)

theorem lexeme_false : Lexeme .falseWord (Value.bool false).spelling .nil :=
  .keyword (by decide)

theorem spelling_number (x : Float) :
    (Value.number x).spelling = NumeralStyle.spoken.write x :=
  String.toList_ofList

/-- A number is printed as a word. -/
theorem Finite.isWord {x : Float} (h : Finite x) : Phrase.IsWord (NumeralStyle.spoken.write x) := by
  obtain ⟨⟨c, cs, hWrite, -⟩, hAll⟩ := exists_spoken h
  refine ⟨?_, fun c hc => inWord_of_isNumeral (hAll c hc)⟩
  rw [hWrite]
  exact List.cons_ne_nil c cs

theorem Value.Legible.phrase {v : Value} (h : v.Legible) : v.phrase.Legible := by
  cases v with
  | nil => exact isWord_lexeme lexeme_nil (by decide)
  | bool b =>
    cases b with
    | true => exact isWord_lexeme lexeme_true (by decide)
    | false => exact isWord_lexeme lexeme_false (by decide)
  | string s =>
    cases s with
    | whole s => exact h
    | torn t => cases h
  | number x =>
    show Phrase.IsWord (Value.number x).spelling
    rw [spelling_number]
    exact Finite.isWord h
  | list items => cases h
  | object fields => cases h

/-- A literal reads as the text of its phrase. -/
theorem Value.Legible.literalText?_eq {v : Value} (h : v.Legible) :
    Node.literalText? v = some (.whole (String.ofList v.phrase.text)) := by
  cases v with
  | nil => rfl
  | bool b => cases b <;> rfl
  | number x =>
    rw [Value.phrase, Phrase.text, spelling_number]
    · rfl
    · exact fun s hs => by cases hs
  | string s =>
    cases s with
    | whole s =>
      have hText : "\"" ++ s ++ "\"" = String.ofList ('"' :: s.toList ++ ['"']) := by
        simp [← String.toList_inj]
      exact congrArg (fun text => some (Text.whole text)) hText
    | torn t => cases h
  | list items => cases h
  | object fields => cases h

/-! ## What is scanned -/

/-- Names and operators that are told by their characters, and literals
that are told from their phrases. -/
def Contents.legible : Contents where
  token t := t.kind ∈ spelledKinds → t.Spelled
  value := Value.Legible
  nil := trivial
  bool _ := trivial

/-- Whether a value is the infinite number, which a literal that is too
large denotes. -/
def Value.isInfinite : Value → Bool
  | .number x => x.isInf
  | _ => false

/-- The same, but for the numbers that are too large. -/
def Contents.legibleIfFinite : Contents where
  token := Contents.legible.token
  value v := v.isInfinite = false → v.Legible
  nil _ := trivial
  bool _ _ := trivial

theorem finite_toFloat {d : Decimal} (h : d.toFloat.isInf = false) : Finite d.toFloat := by
  obtain ⟨bits, hBits, hFloat⟩ := d.exists_toFloat
  rw [hFloat, isInf_ofBits hBits, decide_eq_false_iff_not] at h
  exact ⟨bits, lt_of_le_of_ne hBits h, hFloat⟩

/-- The value of a lexeme is told from its phrase unless it is infinite. -/
theorem legible_lexeme {kind : Kind} {cs : List Char} {value : Value} (h : Lexeme kind cs value)
    (hFinite : value.isInfinite = false) : value.Legible := by
  cases h with
  | sign h | keyword h | identifier hc hcs h => trivial
  | string h => rwa [Value.Legible, String.toList_ofList]
  | whole hne h | fraction hne h hne' h' => exact finite_toFloat hFinite

theorem scan_legible (source : String) :
    ∀ t ∈ (scan source).tokens, Contents.legibleIfFinite.Supplies t := by
  intro t ht
  rw [tokens_scan, List.mem_append, List.mem_singleton] at ht
  rcases ht with ht | rfl
  · have hScanned := scanned_of_mem_bodyTokens ht
    refine ⟨hScanned.spelled, ?_⟩
    obtain ⟨kind, cs, value, line, hLexeme, rfl⟩ := hScanned
    exact legible_lexeme hLexeme
  · have hEnd : Kind.eof ∉ spelledKinds := by decide
    exact ⟨fun hk => absurd hk hEnd, fun _ => trivial⟩

/-! ## Trees without infinite numbers -/

/-- The literals of an expression. -/
def Expr.literals : Expr → List Value
  | .binary left _ right => left.literals ++ right.literals
  | .grouping inner => inner.literals
  | .literal value => [value]
  | .unary _ right => right.literals
  | .variable _ => []
  | .assign _ value => value.literals
  | .logical left _ right => left.literals ++ right.literals

mutual

/-- The literals of a statement. -/
def Stmt.literals : Stmt → List Value
  | .expression inner => inner.literals
  | .print inner => inner.literals
  | .var _ none => []
  | .var _ (some initializer) => initializer.literals
  | .block statements => Stmt.allLiterals statements
  | .branch condition consequence none => condition.literals ++ consequence.literals
  | .branch condition consequence (some alternative) =>
    condition.literals ++ (consequence.literals ++ alternative.literals)
  | .loop condition body => condition.literals ++ body.literals

/-- The literals of statements in a row. -/
def Stmt.allLiterals : List Stmt → List Value
  | [] => []
  | s :: rest => s.literals ++ Stmt.allLiterals rest

end

/-- Without infinite numbers, an expression of a text is legible. -/
theorem Expr.legible : (e : Expr) → e.Sound .legibleIfFinite →
    (∀ v ∈ e.literals, v.isInfinite = false) → e.Sound .legible
  | .literal value, h, hFinite => h (hFinite value List.mem_cons_self)
  | .variable _, h, _ => h
  | .grouping inner, h, hFinite => inner.legible h hFinite
  | .unary _ right, h, hFinite => ⟨h.1, right.legible h.2 hFinite⟩
  | .assign _ value, h, hFinite => ⟨h.1, value.legible h.2 hFinite⟩
  | .binary left _ right, h, hFinite | .logical left _ right, h, hFinite => by
    rw [Expr.literals, List.forall_mem_append] at hFinite
    exact ⟨left.legible h.1 hFinite.1, h.2.1, right.legible h.2.2 hFinite.2⟩

mutual

/-- Without infinite numbers, a statement of a text is legible. -/
theorem Stmt.legible : (s : Stmt) → s.Sound .legibleIfFinite →
    (∀ v ∈ s.literals, v.isInfinite = false) → s.Sound .legible
  | .expression inner, h, hFinite | .print inner, h, hFinite => inner.legible h hFinite
  | .var _ none, h, _ => ⟨h.1, trivial⟩
  | .var _ (some initializer), h, hFinite => ⟨h.1, initializer.legible h.2 hFinite⟩
  | .block statements, h, hFinite => Stmt.allLegible statements h hFinite
  | .branch condition consequence none, h, hFinite => by
    rw [Stmt.literals, List.forall_mem_append] at hFinite
    exact ⟨condition.legible h.1 hFinite.1, consequence.legible h.2 hFinite.2⟩
  | .branch condition consequence (some alternative), h, hFinite => by
    rw [Stmt.literals, List.forall_mem_append, List.forall_mem_append] at hFinite
    exact ⟨condition.legible h.1 hFinite.1, consequence.legible h.2.1 hFinite.2.1,
      alternative.legible h.2.2 hFinite.2.2⟩
  | .loop condition body, h, hFinite => by
    rw [Stmt.literals, List.forall_mem_append] at hFinite
    exact ⟨condition.legible h.1 hFinite.1, body.legible h.2 hFinite.2⟩

theorem Stmt.allLegible : (statements : List Stmt) → Stmt.AllSound .legibleIfFinite statements →
    (∀ v ∈ Stmt.allLiterals statements, v.isInfinite = false) → Stmt.AllSound .legible statements
  | [], _, _ => trivial
  | s :: rest, h, hFinite => by
    rw [Stmt.allLiterals, List.forall_mem_append] at hFinite
    exact ⟨s.legible h.1 hFinite.1, Stmt.allLegible rest h.2 hFinite.2⟩

end

theorem Stmt.sound_of_mem {contents : Contents} {statements : List Stmt}
    (h : Stmt.AllSound contents statements) {s : Stmt} (hs : s ∈ statements) :
    s.Sound contents := by
  induction statements with
  | nil => cases hs
  | cons first rest ih =>
    rcases List.mem_cons.mp hs with rfl | hs
    · exact h.1
    · exact ih h.2 hs

/-- An entry of a text without infinite numbers is legible. -/
theorem entry_legible {source : String} {s : Stmt}
    (h : some s ∈ (parse (scan source).tokens).entries)
    (hFinite : ∀ v ∈ s.literals, v.isInfinite = false) : s.Sound .legible := by
  obtain ⟨entries, rest, notes, hParse, hSound⟩ := parse_scan_sound source (scan_legible source)
  rw [hParse, Parse.entries] at h
  exact s.legible (Stmt.sound_of_mem hSound (List.mem_filterMap.mpr ⟨some s, h, rfl⟩)) hFinite

/-! ## Legible phrases -/

/-- A token of a legible tree is told by its characters. -/
theorem Contents.Fits.spelled {kinds : List Kind} {t : Token} (h : Contents.legible.Fits kinds t)
    (hKinds : ∀ k ∈ kinds, k ∈ spelledKinds) : t.Spelled :=
  h.2 (hKinds t.kind h.1)

theorem identifier_spelled : ∀ k ∈ [Kind.identifier], k ∈ spelledKinds := by
  decide

theorem unary_spelled : ∀ k ∈ unaryOperators, k ∈ spelledKinds := by
  decide

theorem binary_spelled : ∀ k ∈ binaryOperators, k ∈ spelledKinds := by
  decide

theorem logical_spelled : ∀ k ∈ [Kind.orWord, .andWord], k ∈ spelledKinds := by
  decide

/-- The names of forms that are not named by an operator. -/
def formNames : List String :=
  ["group", "=", ";", "print", "var", "block", "if", "if-else", "while"]

theorem isWord_formName {name : String} (h : name ∈ formNames) : Phrase.IsWord name.toList := by
  have hNames : ∀ name ∈ formNames, name.toList ≠ [] ∧ name.toList.all Phrase.inWord := by decide
  exact ⟨(hNames name h).1, List.all_eq_true.mp (hNames name h).2⟩

theorem Expr.phrase_legible : (e : Expr) → e.Sound .legible → e.phrase.Legible
  | .literal _, h => Value.Legible.phrase h
  | .variable _, h => (h.spelled identifier_spelled).word
  | .grouping inner, h => ⟨isWord_formName (by decide), inner.phrase_legible h, trivial⟩
  | .unary _ right, ⟨hOperator, hRight⟩ =>
    ⟨(hOperator.spelled unary_spelled).word, right.phrase_legible hRight, trivial⟩
  | .assign _ value, ⟨hName, hValue⟩ =>
    ⟨isWord_formName (by decide), (hName.spelled identifier_spelled).word,
      value.phrase_legible hValue, trivial⟩
  | .binary left _ right, ⟨hLeft, hOperator, hRight⟩ =>
    ⟨(hOperator.spelled binary_spelled).word, left.phrase_legible hLeft,
      right.phrase_legible hRight, trivial⟩
  | .logical left _ right, ⟨hLeft, hOperator, hRight⟩ =>
    ⟨(hOperator.spelled logical_spelled).word, left.phrase_legible hLeft,
      right.phrase_legible hRight, trivial⟩

mutual

theorem Stmt.phrase_legible : (s : Stmt) → s.Sound .legible → s.phrase.Legible
  | .expression inner, h | .print inner, h =>
    ⟨isWord_formName (by decide), inner.phrase_legible h, trivial⟩
  | .var _ none, ⟨hName, _⟩ =>
    ⟨isWord_formName (by decide), (hName.spelled identifier_spelled).word, trivial⟩
  | .var _ (some initializer), ⟨hName, hInitializer⟩ =>
    ⟨isWord_formName (by decide), (hName.spelled identifier_spelled).word,
      initializer.phrase_legible hInitializer, trivial⟩
  | .block statements, h =>
    ⟨isWord_formName (by decide), Stmt.phrases_legible statements h⟩
  | .branch condition consequence none, ⟨hTest, hThen⟩ =>
    ⟨isWord_formName (by decide), condition.phrase_legible hTest,
      consequence.phrase_legible hThen, trivial⟩
  | .branch condition consequence (some alternative), ⟨hTest, hThen, hElse⟩ =>
    ⟨isWord_formName (by decide), condition.phrase_legible hTest,
      consequence.phrase_legible hThen, alternative.phrase_legible hElse, trivial⟩
  | .loop condition body, ⟨hTest, hBody⟩ =>
    ⟨isWord_formName (by decide), condition.phrase_legible hTest,
      body.phrase_legible hBody, trivial⟩

theorem Stmt.phrases_legible : (statements : List Stmt) → Stmt.AllSound .legible statements →
    Phrase.AllLegible (Stmt.phrases statements)
  | [], _ => trivial
  | s :: rest, ⟨hs, hRest⟩ => ⟨s.phrase_legible hs, Stmt.phrases_legible rest hRest⟩

end

/-! ## The texts of trees -/

theorem Token.Spelled.lexeme_eq {t : Token} (h : t.Spelled) :
    (Node.token t).lexeme = .ok (.string t.lexeme.shown) :=
  congrArg Except.ok h.lexeme

theorem Token.Spelled.target_eq {t : Token} (h : t.Spelled) :
    (Node.token t).target = .ok (Phrase.word t.spelling).json := by
  rw [Node.target, h.lexeme, Phrase.json, Phrase.text, Token.spelling, String.ofList_toList]

/-- An expression reads as the text of its phrase. -/
theorem Expr.reading_eq : (e : Expr) → e.Sound .legible → e.toNode.reading = .ok e.phrase.json
  | .literal value, h => by
    rw [Expr.toNode, Node.reading, Value.Legible.literalText?_eq h]
    rfl
  | .variable name, h => by
    have hName := h.spelled identifier_spelled
    rw [Expr.toNode, Node.reading, hName.lexeme_eq, Expr.phrase, Phrase.json, Phrase.text,
      Token.spelling, String.ofList_toList]
  | .grouping inner, h => by
    rw [Expr.toNode, Node.reading, inner.reading_eq h]
    exact Phrase.form_json _ [_]
  | .unary operator right, ⟨hOperator, hRight⟩ => by
    have hName := hOperator.spelled unary_spelled
    rw [Expr.toNode, Node.reading, hName.lexeme_eq, right.reading_eq hRight]
    exact Phrase.form_json _ [_]
  | .assign name value, ⟨hName, hValue⟩ => by
    have hTarget := hName.spelled identifier_spelled
    rw [Expr.toNode, Node.reading, hTarget.target_eq, value.reading_eq hValue]
    exact Phrase.form_json _ [_, _]
  | .binary left operator right, ⟨hLeft, hOperator, hRight⟩ => by
    have hName := hOperator.spelled binary_spelled
    rw [Expr.toNode, Node.reading, hName.lexeme_eq, left.reading_eq hLeft, right.reading_eq hRight]
    exact Phrase.form_json _ [_, _]
  | .logical left operator right, ⟨hLeft, hOperator, hRight⟩ => by
    have hName := hOperator.spelled logical_spelled
    rw [Expr.toNode, Node.reading, hName.lexeme_eq, left.reading_eq hLeft, right.reading_eq hRight]
    exact Phrase.form_json _ [_, _]

mutual

/-- A statement reads as the text of its phrase. -/
theorem Stmt.reading_eq : (s : Stmt) → s.Sound .legible → s.toNode.reading = .ok s.phrase.json
  | .expression inner, h | .print inner, h => by
    rw [Stmt.toNode, Node.reading, inner.reading_eq h]
    exact Phrase.form_json _ [_]
  | .var name none, ⟨hName, _⟩ => by
    have hTarget := hName.spelled identifier_spelled
    rw [Stmt.toNode, Expr.toNode?, Node.reading, hTarget.target_eq]
    exact Phrase.form_json _ [_]
  | .var name (some initializer), ⟨hName, hInitializer⟩ => by
    have hTarget := hName.spelled identifier_spelled
    rw [Stmt.toNode, Expr.toNode?, Node.reading, hTarget.target_eq,
      initializer.reading_eq hInitializer]
    · exact Phrase.form_json _ [_, _]
    · exact initializer.toNode_ne_absent
  | .block statements, h => by
    rw [Stmt.toNode, Node.reading, Stmt.readings_eq statements h]
    exact Phrase.form_json _ _
  | .branch condition consequence none, ⟨hTest, hThen⟩ => by
    rw [Stmt.toNode, Node.reading, condition.reading_eq hTest, consequence.reading_eq hThen]
    exact Phrase.form_json _ [_, _]
  | .branch condition consequence (some alternative), ⟨hTest, hThen, hElse⟩ => by
    rw [Stmt.toNode, Node.reading, condition.reading_eq hTest, consequence.reading_eq hThen,
      alternative.reading_eq hElse]
    · exact Phrase.form_json _ [_, _, _]
    · exact alternative.toNode_ne_absent
  | .loop condition body, ⟨hTest, hBody⟩ => by
    rw [Stmt.toNode, Node.reading, condition.reading_eq hTest, body.reading_eq hBody]
    exact Phrase.form_json _ [_, _]

theorem Stmt.readings_eq : (statements : List Stmt) → Stmt.AllSound .legible statements →
    Node.readings (Stmt.toNodes statements) = .ok ((Stmt.phrases statements).map Phrase.json)
  | [], _ => rfl
  | s :: rest, ⟨hs, hRest⟩ => by
    rw [Stmt.toNodes, Node.readings, s.reading_eq hs, Stmt.readings_eq rest hRest]
    rfl

end

/-- An entry has the text of its phrase. -/
theorem Stmt.entryText?_eq (s : Stmt) (h : s.Sound .legible) :
    s.toNode.entryText? = some (String.ofList s.phrase.text) := by
  rw [Node.entryText?, Node.entryReading, s.reading_eq h]
  · rfl
  · exact s.toNode_ne_absent

end Treewalk
