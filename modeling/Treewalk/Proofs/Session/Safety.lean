import Treewalk.Proofs.Machine.Safety
import Treewalk.Session

/-!
# Source texts run safely

Whatever a source text is, its tokens carry texts and plain values, and so
do the trees read from it, also where reading failed on the way. Hence
running what was read of a text ends with no fault, leaves plain values in
the frames and reports at most one error, which is one of the language's
own (`interpret_parse_safe`).
-/

namespace Treewalk

/-! ## The tokens of a text -/

/-- An identifier of a source text. -/
def Identifies (source name : String) : Prop :=
  ∃ t ∈ (scan source).tokens, t.kind = .identifier ∧ t.lexeme = .string name

theorem literal_plain (kind : Kind) (cs : List Char) :
    (Segment.literal kind cs).PlainUnless False := by
  unfold Segment.literal
  split <;> trivial

/-- Tokens as a source text has them. -/
def Contents.ofSource : Contents where
  token t := ∃ kind lexeme literal line, t = Token.ofSource kind lexeme literal line
  value := Value.PlainUnless False
  nil := trivial
  bool _ := trivial

theorem Token.showable_ofSource (kind : Kind) (lexeme : String) (literal : Value) (line : Int) :
    (Token.ofSource kind lexeme literal line).Showable :=
  ⟨⟨_, rfl⟩, ⟨_, rfl⟩⟩

theorem scan_ofSource (source : String) :
    ∀ t ∈ (scan source).tokens, Contents.ofSource.Supplies t := by
  intro t ht
  rcases List.mem_append.mp ht with hMem | hMem
  · obtain ⟨⟨segment, line⟩, -, hToken⟩ := List.mem_filterMap.mp hMem
    cases segment with
    | lexeme kind cs =>
      cases hToken
      exact ⟨⟨_, _, _, _, rfl⟩, literal_plain kind cs⟩
    | _ => cases hToken
  · rw [List.mem_singleton.mp hMem]
    exact ⟨⟨_, _, _, _, rfl⟩, trivial⟩

theorem scan_supplies (source : String) :
    ∀ t ∈ (scan source).tokens, (Contents.plain (Identifies source)).Supplies t := by
  intro t ht
  obtain ⟨⟨kind, lexeme, literal, line, rfl⟩, hLiteral⟩ := scan_ofSource source t ht
  have hShowable := Token.showable_ofSource kind lexeme literal line
  exact ⟨⟨hShowable, fun hk => ⟨lexeme, rfl, _, ht, hk, rfl⟩⟩, hLiteral⟩

theorem scan_ends (source : String) : Ends (scan source).tokens :=
  ⟨Token.endMark _, List.mem_append_right _ List.mem_cons_self, rfl⟩

/-- Reading a text reaches its end, and what was read is sound. -/
theorem parse_scan_sound {contents : Contents} (source : String)
    (h : ∀ t ∈ (scan source).tokens, contents.Supplies t) :
    ∃ entries rest notes, parse (scan source).tokens = .finished entries rest notes ∧
      Stmt.AllSound contents (entries.filterMap id) := by
  obtain ⟨entries, rest, notes, hParse⟩ := parse_finishes _ (scan_ends source)
  exact ⟨entries, rest, notes, hParse, parse_sound (scan_ends source) hParse h⟩

/-! ## Running a text -/

/-- The entries that are there, in their order. -/
theorem present_toNodes (entries : List (Option Stmt)) :
    Session.present (entries.map Stmt.toNode?) = Stmt.toNodes (entries.filterMap id) := by
  induction entries with
  | nil => rfl
  | cons entry rest ih =>
    cases entry with
    | none => exact ih
    | some s =>
      have hThere : Session.present (s.toNode :: rest.map Stmt.toNode?) =
          s.toNode :: Session.present (rest.map Stmt.toNode?) := by
        refine List.filter_cons_of_pos ?_
        have hs := s.toNode_ne_absent
        split
        · next h => exact absurd h hs
        · rfl
      rw [List.map_cons, Stmt.toNode?, hThere, ih]
      rfl

namespace Session

@[simp] theorem scope_trace (s : Session) (level : Nat) (line : String) :
    (s.trace level line).machine.scope = s.machine.scope := by
  unfold trace
  split <;> rfl

@[simp] theorem ledger_trace (s : Session) (level : Nat) (line : String) :
    (s.trace level line).ledger = s.ledger := by
  unfold trace
  split <;> rfl

@[simp] theorem settings_trace (s : Session) (level : Nat) (line : String) :
    (s.trace level line).settings = s.settings := by
  unfold trace
  split <;> rfl

@[simp] theorem scope_reportAll (s : Session) (ds : List Diagnostic) :
    (s.reportAll ds).machine.scope = s.machine.scope := by
  unfold reportAll
  induction ds generalizing s with
  | nil => rfl
  | cons d rest ih => exact ih (s.report d)

/-- Reading a text leaves the frames alone. -/
@[simp] theorem scope_parse (s : Session) (source : String) :
    (s.parse source).2.machine.scope = s.machine.scope := by
  simp [parse]

@[simp] theorem settings_reportAll (s : Session) (ds : List Diagnostic) :
    (s.reportAll ds).settings = s.settings := by
  unfold reportAll
  induction ds generalizing s with
  | nil => rfl
  | cons d rest ih => exact ih (s.report d)

@[simp] theorem settings_parse (s : Session) (source : String) :
    (s.parse source).2.settings = s.settings := by
  simp [parse]

theorem entries_parse (s : Session) (source : String) :
    (s.parse source).1 = (Treewalk.parse (scan source).tokens).entries := rfl

@[simp] theorem scope_report (s : Session) (d : Diagnostic) :
    (s.report d).machine.scope = s.machine.scope := rfl

/-- An error with a line that can be written is traced and reported. -/
theorem fail_of_showable (s : Session) {t : Token} {what : Misuse}
    (h : Showable (failureLine t what)) :
    ∃ line, s.fail t what = .ok ((s.trace 1 line).report (.failure t.line what.message)) := by
  obtain ⟨line, hLine⟩ := h
  refine ⟨line, ?_⟩
  rw [fail, hLine]

/-- Running sound statements ends with no fault, keeps the frames plain
and reports at most one error. -/
theorem interpret_safe {torn : Prop} {names : String → Prop} (s : Session)
    (h : s.machine.scope.Holds (Value.PlainUnless torn)) (entries : List (Option Stmt))
    (hs : Stmt.AllSound (.plain names) (entries.filterMap id)) :
    let outcome := s.interpret (entries.map Stmt.toNode?)
    (outcome.1 = .finished ∨ outcome.1 = .spent ∨
      outcome.1 = .unwritable .half ∧ torn ∧ 2 ≤ s.settings.verbosity) ∧
      outcome.2.machine.scope.Holds (Value.PlainUnless torn) ∧
      (outcome.2.ledger = s.ledger ∨ ∃ line what, outcome.2.ledger =
        s.ledger.add (.failure line (Misuse.message what)) ∧ what.Proper names) := by
  simp only [interpret]
  generalize hStarted : s.trace 1 _ = started
  have hPlain : started.machine.scope.Holds (Value.PlainUnless torn) := by
    rw [← hStarted]
    simpa using h
  have hLedger : started.ledger = s.ledger := by rw [← hStarted, ledger_trace]
  have hTraced : 2 ≤ started.settings.verbosity → 2 ≤ s.settings.verbosity := by
    rw [← hStarted, settings_trace]
    exact id
  have hRun := visitAll_safe hTraced hs started.machine hPlain
  rw [← present_toNodes] at hRun
  rw [← hLedger]
  match hEnd : visitAll started.settings (present (entries.map Stmt.toNode?)) started.machine with
  | (.ok _, later) =>
    rw [hEnd] at hRun
    exact ⟨.inl rfl, hRun.2, .inl rfl⟩
  | (.error (.error t what), later) =>
    rw [hEnd] at hRun
    obtain ⟨⟨hLine, hProper⟩, hLater⟩ := hRun
    obtain ⟨line, hFail⟩ := fail_of_showable { started with machine := later } hLine
    simp only [hFail]
    refine ⟨.inl trivial, ?_, .inr ⟨t.line, what, ?_, hProper⟩⟩
    · rw [scope_report, scope_trace]
      exact hLater
    simp [report, write]
  | (.error .spent, later) =>
    rw [hEnd] at hRun
    exact ⟨.inr (.inl rfl), hRun.2, .inl rfl⟩
  | (.error (.unwritable .half), later) =>
    rw [hEnd] at hRun
    exact ⟨.inr (.inr ⟨rfl, hRun.1⟩), hRun.2, .inl rfl⟩
  | (.error .fault, later) | (.error .misnomer, later)
  | (.error (.unwritable .longInteger), later) =>
    rw [hEnd] at hRun
    exact hRun.1.elim

end Session

/-- The wording of a proper error: one of three texts, or about an
undefined name. -/
theorem Misuse.Proper.message {names : String → Prop} {what : Misuse} (h : what.Proper names) :
    what.message ∈ ["Operands must be two numbers or two strings.", "Operands must be numbers.",
        "Operand must be a number."] ∨
      ∃ name, what.message = "Undefined variable '" ++ name ++ "'." ∧ names name := by
  cases what with
  | notNumbersOrStrings => exact .inl (.head _)
  | notNumbers => exact .inl (.tail _ (.head _))
  | notANumber => exact .inl (.tail _ (.tail _ (.head _)))
  | undefined lexeme =>
    obtain ⟨name, rfl, hName⟩ := h
    exact .inr ⟨name, rfl, hName⟩
  | unknownUnary | unknownBinary => exact h.elim

theorem Scope.Holds.plain {torn : Prop} {s : Scope} (h : s.Holds (Value.PlainUnless torn)) :
    s.Plain :=
  fun f hf binding hBinding => (h f hf binding hBinding).plain

end Treewalk
