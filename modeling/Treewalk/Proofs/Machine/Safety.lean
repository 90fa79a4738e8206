import Treewalk.Proofs.Grammar.Contents
import Treewalk.Proofs.Machine.Discipline

/-!
# Proper trees run safely

A tree the grammar yields cannot go wrong outside the language. Its
literals are plain values, its operators are those of their places, its
names are texts and its tokens can be shown (`Contents.plain`); the frames
hold plain values at the start. Then a run of it (`visitAll_safe`) leaves
plain values in the frames and ends with one, or with a halt that is one
of the language's own errors, about a name of the tree if it is about a
name at all. The halts left besides are that of a loop without rounds enough
and, where values are traced, that of a torn text the frames held before.

Such a tree keeps to a discipline (`Discipline.plain`), and what is asked
of a walk is said there.
-/

namespace Treewalk

/-! ## Plain values -/

/-- A value of the language itself. -/
def Value.Plain : Value → Prop
  | .nil | .bool _ | .number _ | .string _ => True
  | .list _ | .object _ => False

/-- A text with half of a surrogate pair in it, which no source text holds. -/
def Value.Torn (v : Value) : Prop :=
  ∃ t, v = .string (.torn t)

/-- A scope all of whose frames bind names to plain values only. -/
def Scope.Plain (s : Scope) : Prop :=
  s.Holds Value.Plain

/-- A scope in which some name is bound to such a text. -/
def Scope.Torn (s : Scope) : Prop :=
  ¬ s.Holds fun v => ¬ v.Torn

/-- A plain value, which is no torn text unless there may be one. -/
def Value.PlainUnless (torn : Prop) : Value → Prop
  | .nil | .bool _ | .number _ | .string (.whole _) => True
  | .string (.torn _) => torn
  | .list _ | .object _ => False

theorem Value.PlainUnless.plain {torn : Prop} {v : Value} (h : v.PlainUnless torn) : v.Plain := by
  cases v with
  | nil | bool | number | string => trivial
  | list | object => exact h

theorem Value.PlainUnless.mono {torn torn' : Prop} (hTorn : torn → torn') {v : Value}
    (h : v.PlainUnless torn) : v.PlainUnless torn' := by
  match v, h with
  | .nil, _ | .bool _, _ | .number _, _ | .string (.whole _), _ => trivial
  | .string (.torn _), h => exact hTorn h

/-- What is not torn has a text that can be written. -/
theorem Value.PlainUnless.showable {v : Value} (h : v.PlainUnless False) : Showable v.text? :=
  match v, h with
  | .nil, _ | .bool true, _ | .bool false, _ | .number _, _ | .string (.whole _), _ => ⟨_, rfl⟩

/-! ## Proper halts -/

/-- An error of the language, about one of the given names if it is about
a name. -/
def Misuse.Proper (names : String → Prop) : Misuse → Prop
  | .notNumbersOrStrings | .notNumbers | .notANumber => True
  | .undefined lexeme => ∃ name : String, lexeme = .string name ∧ names name
  | .unknownUnary _ | .unknownBinary _ => False

/-- A halt a sound tree may end in: an error of the language, or a torn
text in the trace, where there may be one. -/
def Halt.Proper (torn : Prop) (names : String → Prop) : Halt → Prop
  | .error t what => Showable (failureLine t what) ∧ what.Proper names
  | .fault | .misnomer | .unwritable .longInteger => False
  | .unwritable .half => torn
  | .spent => True

/-- A token that spells one of the given names. -/
def Token.Names (names : String → Prop) (t : Token) : Prop :=
  ∃ name : String, t.lexeme = .string name ∧ names name

variable {torn traced : Prop} {names : String → Prop}

/-- A proper error has a text. -/
theorem Misuse.Proper.showable {what : Misuse} (h : what.Proper names) : Showable what.text? :=
  match what, h with
  | .notNumbersOrStrings, _ | .notNumbers, _ | .notANumber, _ => ⟨_, rfl⟩
  | .undefined _, ⟨_, rfl, _⟩ => ⟨_, rfl⟩

/-- A proper error about a token that can be shown is a proper halt. -/
theorem Misuse.Proper.allowed {what : Misuse} (h : what.Proper names) {t : Token}
    (ht : t.Showable) :
    Allows (Value.PlainUnless torn) (Halt.Proper (torn ∧ traced) names) t (.error what) := by
  have hLine := showable_failureLine ht.line h.showable
  obtain ⟨text, hText⟩ := h.showable
  rw [Allows, Halt.ofMisuse, hText]
  exact ⟨hLine, h⟩

/-! ## Operators -/

theorem applyUnary_plain {operator : Token} (hShown : operator.Showable)
    (h : operator.kind ∈ unaryOperators) (right : Value) :
    Allows (Value.PlainUnless torn) (Halt.Proper (torn ∧ traced) names) operator
      (applyUnary operator right) := by
  simp only [unaryOperators, List.mem_cons, List.not_mem_nil, or_false] at h
  rcases h with h | h
  · rw [applyUnary, h]
    trivial
  · rw [applyUnary, h]
    cases right with
    | number x => trivial
    | _ => exact Misuse.Proper.allowed (show Misuse.notANumber.Proper names from trivial) hShown

/-- A sum of two plain values is plain. -/
theorem applyBinary_plus_plain {operator : Token} (hShown : operator.Showable)
    (h : operator.kind = .plus) {left right : Value} (hLeft : left.PlainUnless torn)
    (hRight : right.PlainUnless torn) :
    Allows (Value.PlainUnless torn) (Halt.Proper (torn ∧ traced) names) operator
      (applyBinary operator left right) := by
  simp only [applyBinary, h]
  split
  · trivial
  · next s t =>
    match s, t, hLeft, hRight with
    | .whole _, .whole _, _, _ => trivial
    | .torn _, _, hTorn, _ | .whole _, .torn _, _, hTorn => exact hTorn
  · exact Misuse.Proper.allowed (show Misuse.notNumbersOrStrings.Proper names from trivial) hShown

theorem applyBinary_plain {operator : Token} (hShown : operator.Showable)
    (h : operator.kind ∈ binaryOperators) {left right : Value} (hLeft : left.PlainUnless torn)
    (hRight : right.PlainUnless torn) :
    Allows (Value.PlainUnless torn) (Halt.Proper (torn ∧ traced) names) operator
      (applyBinary operator left right) := by
  by_cases hPlus : operator.kind = .plus
  · exact applyBinary_plus_plain hShown hPlus hLeft hRight
  simp only [binaryOperators, List.mem_cons, List.not_mem_nil, or_false, hPlus, false_or] at h
  unfold applyBinary applyNumeric
  rcases h with h | h | h | h | h | h | h | h | h <;> simp only [h]
  all_goals first
    | trivial
    | split
      · trivial
      · exact Misuse.Proper.allowed (show Misuse.notNumbers.Proper names from trivial) hShown

/-! ## The discipline of the language -/

/-- What may stand for a name or an operator in a proper tree. -/
def Role.Fits (names : String → Prop) : Role → Token → Prop
  | .name, t => t.Names names
  | .unary, t => t.kind ∈ unaryOperators
  | .binary, t => t.kind ∈ binaryOperators
  | .logical, _ => True

/-- A torn text, which is the only one that cannot be written to a file,
can be one only where there may be one. -/
theorem Value.PlainUnless.accepts {v : Value} (h : v.PlainUnless torn) :
    Accepts (Halt.Proper torn names) (spelled v.text?) := by
  match v, h with
  | .nil, _ | .bool true, _ | .bool false, _ | .number _, _ | .string (.whole _), _ =>
    exact fun _ => nofun
  | .string (.torn _), h =>
    rintro _ ⟨⟩
    exact h

/-- Plain values, proper halts and nothing malformed. -/
def Discipline.plain (torn traced : Prop) (names : String → Prop) : Discipline where
  value := Value.PlainUnless torn
  halt := Halt.Proper (torn ∧ traced) names
  token role t := t.Showable ∧ role.Fits names t
  malformed := False
  traced := traced
  nil := trivial
  spoken {v} h hNone := by
    match v, h with
    | .bool true, _ | .bool false, _ => cases hNone
  shown {v} hTraced h := Value.PlainUnless.accepts (h.mono fun hTorn => ⟨hTorn, hTraced⟩)
  showable := And.left
  spent := trivial
  fault := False.elim
  misnomer := by
    rintro t ⟨-, name, hLexeme, -⟩ hNone
    rw [hLexeme] at hNone
    cases hNone
  undefined {t} ht :=
    Misuse.Proper.allowed (show (Misuse.undefined t.lexeme).Proper names from ht.2) ht.1
  unary ht _ := applyUnary_plain ht.1 ht.2 _
  binary ht ha hb := applyBinary_plain ht.1 ht.2 ha hb

/-- Plain literals that are not torn, tokens that can be shown, and
identifiers that spell the given names. -/
def Contents.plain (names : String → Prop) : Contents where
  token t := t.Showable ∧ (t.kind = .identifier → t.Names names)
  value := Value.PlainUnless False
  nil := trivial
  bool _ := trivial

theorem Contents.Fits.role {t : Token} (h : (Contents.plain names).Fits [.identifier] t) :
    (Discipline.plain torn traced names).token .name t :=
  ⟨h.2.1, h.2.2 (List.mem_singleton.mp h.1)⟩

/-! ## Proper trees -/

theorem Expr.toNode_ne_absent (e : Expr) : e.toNode ≠ .absent := by
  cases e <;> simp [Expr.toNode]

theorem Stmt.toNode_ne_absent (s : Stmt) : s.toNode ≠ .absent := by
  match s with
  | .branch _ _ none | .branch _ _ (some _) | .expression _ | .print _ | .var _ _ | .block _
  | .loop _ _ => simp [Stmt.toNode]

/-- A sound expression keeps to the discipline of the language. -/
theorem Expr.Sound.under : (e : Expr) → e.Sound (.plain names) →
    e.toNode.Under (.plain torn traced names)
  | .literal _, h => h.mono False.elim
  | .grouping inner, h => Expr.Sound.under inner h
  | .variable _, h => h.role
  | .assign _ value, ⟨hName, hValue⟩ => ⟨hName.role, Expr.Sound.under value hValue⟩
  | .logical left _ right, ⟨hLeft, hOperator, hRight⟩ =>
    ⟨Expr.Sound.under left hLeft, ⟨hOperator.2.1, trivial⟩, Expr.Sound.under right hRight⟩
  | .unary _ right, ⟨hOperator, hRight⟩ =>
    ⟨⟨hOperator.2.1, hOperator.1⟩, Expr.Sound.under right hRight⟩
  | .binary left _ right, ⟨hLeft, hOperator, hRight⟩ =>
    ⟨Expr.Sound.under left hLeft, ⟨hOperator.2.1, hOperator.1⟩, Expr.Sound.under right hRight⟩

mutual

/-- A sound statement keeps to the discipline of the language. -/
theorem Stmt.Sound.under : (s : Stmt) → s.Sound (.plain names) →
    s.toNode.Under (.plain torn traced names)
  | .expression inner, h => Expr.Sound.under inner h
  | .print inner, h => Expr.Sound.under inner h
  | .var _ none, ⟨hName, _⟩ => ⟨hName.role, .inl rfl⟩
  | .var _ (some e), ⟨hName, he⟩ => ⟨hName.role, .inr (Expr.Sound.under e he)⟩
  | .block statements, h => Stmt.AllSound.under statements h
  | .branch condition consequence none, ⟨hTest, hThen⟩ =>
    ⟨Expr.Sound.under condition hTest, Stmt.Sound.under consequence hThen, .inl rfl⟩
  | .branch condition consequence (some alternative), ⟨hTest, hThen, hElse⟩ =>
    ⟨Expr.Sound.under condition hTest, Stmt.Sound.under consequence hThen,
      .inr (Stmt.Sound.under alternative hElse)⟩
  | .loop condition body, ⟨hTest, hBody⟩ =>
    ⟨Expr.Sound.under condition hTest, Stmt.Sound.under body hBody⟩

/-- Sound statements keep to the discipline of the language. -/
theorem Stmt.AllSound.under : (statements : List Stmt) →
    Stmt.AllSound (.plain names) statements →
    Node.AllUnder (.plain torn traced names) (Stmt.toNodes statements)
  | [], _ => trivial
  | s :: rest, ⟨hs, hRest⟩ => ⟨Stmt.Sound.under s hs, Stmt.AllSound.under rest hRest⟩

end

/-- Sound statements run one after the other leave plain frames, and halt
if at all in a proper way. -/
theorem visitAll_safe {settings : Settings} (hTraced : 2 ≤ settings.verbosity → traced)
    {statements : List Stmt} (h : Stmt.AllSound (.plain names) statements) :
    (visitAll settings (Stmt.toNodes statements)).Under (.plain torn traced names)
      (fun _ => True) :=
  visitAll_disciplined hTraced _ (Stmt.AllSound.under statements h)

/-! ## The walk over a part that is there -/

/-- A declaration with a value, which is no missing node. -/
theorem visit_var_some (settings : Settings) (name : Node) (e : Expr) :
    visit settings (.var name e.toNode) = (do
      let v ← visit settings e.toNode
      let name ← Run.required name.token?
      Run.define name v
      Run.trace settings 2 (defineLine name v (← Run.depth))
      return .nil) := by
  rw [visit]
  exact e.toNode_ne_absent

/-- A choice with an alternative, which is no missing node. -/
theorem visit_branch_some (settings : Settings) (condition consequence : Node) (s : Stmt) :
    visit settings (.branch condition consequence s.toNode) = (do
      let v ← visit settings condition
      Run.trace settings 3 (branchLine condition v.truthy)
      if v.truthy then
        let _ ← visit settings consequence
        return .nil
      else do
        let _ ← visit settings s.toNode
        return .nil) := by
  rw [visit]
  exact s.toNode_ne_absent

end Treewalk
