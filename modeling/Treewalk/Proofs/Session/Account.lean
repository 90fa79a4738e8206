import Treewalk.Proofs.Command.EmitAndLoad
import Treewalk.Proofs.Session.Steps
import Treewalk.Proofs.Tree.Relabel

/-!
# What a session reports

Every diagnostic is entered in the ledger and written, in this order and
nothing else with it. `Session.Reports` says of two sessions that the
second one came from the first by reporting some diagnostics, whatever else
was done in between; it holds of reading a text, of running a program, and
of both one after the other.

What is read of a source text runs without a fault in every state of a
session, whatever values the frames hold (`execution_lawful`), so the only
thing a run can report is the error it ended in.
-/

namespace Treewalk

/-! ## What was written -/

namespace Event

theorem output_append (events more : List Event) :
    output (events ++ more) = output events ++ output more := by
  rw [output, List.map_append, Text.join_append]
  rfl

theorem errors_append (events more : List Event) :
    errors (events ++ more) = errors events ++ errors more := by
  rw [errors, List.map_append, String.join_append]
  rfl

theorem outputAndTrace_append (events more : List Event) :
    outputAndTrace (events ++ more) = outputAndTrace events ++ outputAndTrace more := by
  rw [outputAndTrace, List.map_append, Text.join_append]
  rfl

/-- The events of diagnostics. -/
def ofDiagnostics (ds : List Diagnostic) : List Event :=
  ds.map fun d => .reported d.message

theorem output_ofDiagnostics (ds : List Diagnostic) : output (ofDiagnostics ds) = "" := by
  induction ds with
  | nil => rfl
  | cons d rest ih => exact (Text.empty_append _).trans ih

theorem outputAndTrace_ofDiagnostics (ds : List Diagnostic) :
    outputAndTrace (ofDiagnostics ds) = "" := by
  induction ds with
  | nil => rfl
  | cons d rest ih => exact (Text.empty_append _).trans ih

theorem errors_ofDiagnostics (ds : List Diagnostic) :
    errors (ofDiagnostics ds) = String.join (ds.map fun d => d.message ++ "\n") := by
  rw [errors, ofDiagnostics, List.map_map]
  rfl

end Event

/-- A program writes no diagnostic. -/
theorem errors_visitAll (settings : Settings) (ns : List Node) (m : Machine) :
    Event.errors (visitAll settings ns m).2.log.reverse = Event.errors m.log.reverse := by
  have hQuiet : ∀ (m : Machine) (e : Event), Event.errors [e] = "" →
      Event.errors (e :: m.log).reverse = Event.errors m.log.reverse := by
    intro m e he
    rw [List.reverse_cons, Event.errors_append, he, String.append_empty]
  refine visitAll_moves (K := fun m later =>
    Event.errors later.log.reverse = Event.errors m.log.reverse) ?_ settings ns m
  exact
    { refl := fun _ => rfl
      trans := fun h k => k.trans h
      print := fun m _ => hQuiet m _ rfl
      trace := fun m _ => hQuiet m _ rfl
      define := fun _ _ _ => rfl
      assign := fun _ => rfl
      inFrame := fun h => h }

/-! ## Proper trees have no fault -/

/-- A halt that a tree of a source text can end in. An error there has a
text that can be written, and is about a token that stands on a line. -/
def Halt.Lawful : Halt → Prop
  | .error t what => Showable what.text? ∧ ∃ line : Int, t.line = .int line
  | .fault | .misnomer => False
  | .spent | .unwritable _ => True

/-- An error about a token of a source text is lawful. -/
theorem Halt.lawful_ofMisuse {t : Token} (h : Contents.ofSource.token t) {what : Misuse}
    (hAbout : what.About t) : (Halt.ofMisuse t what).Lawful := by
  obtain ⟨kind, lexeme, literal, line, rfl⟩ := h
  obtain ⟨text, hSome⟩ := hAbout.showable (Token.showable_ofSource kind lexeme literal line).lexeme
  rw [ofMisuse, hSome]
  exact ⟨⟨text, hSome⟩, line, rfl⟩

/-- A run that never halts as a malformed tree does. -/
def Run.Lawful {α : Type} (run : Run α) : Prop :=
  ∀ m halt, (run m).1 = .error halt → halt.Lawful

namespace Run.Lawful

variable {α β : Type}

theorem done (v : α) : Lawful (.done v) :=
  fun _ _ => nofun

theorem halt {h : Halt} (hh : h.Lawful) : Lawful (.halt h : Run α) := by
  rintro m _ ⟨⟩
  exact hh

theorem writeLine {γ : Type} (event : γ → Event) {line : Except Halt γ}
    (h : ∀ stop, line = .error stop → stop.Lawful) : Lawful (.writeLine event line) := by
  cases line with
  | ok line => exact fun _ _ => nofun
  | error stop => exact halt (h stop rfl)

theorem bind {run : Run α} {next : α → Run β} (h : Lawful run) (hNext : ∀ v, Lawful (next v)) :
    Lawful (run >>= next) := by
  intro m halt hEnd
  cases hRun : run m with
  | mk ending later =>
    cases ending with
    | ok v =>
      rw [bind_of_ok hRun] at hEnd
      exact hNext v later halt hEnd
    | error halt' =>
      rw [bind_of_error hRun] at hEnd
      cases hEnd
      exact h m halt (by rw [hRun])

theorem withName {t : Token} (h : Contents.ofSource.token t) {next : Name → Run β}
    (hNext : ∀ name, Lawful (next name)) : Lawful (Run.nameOf t >>= next) := by
  obtain ⟨kind, lexeme, literal, line, rfl⟩ := h
  exact hNext (.text lexeme)

theorem ofResult {t : Token} (h : Contents.ofSource.token t) {result : Except Misuse Value}
    (hAbout : ∀ what, result = .error what → what.About t) : Lawful (.ofResult t result) := by
  cases result with
  | ok v => exact done v
  | error what => exact halt (Halt.lawful_ofMisuse h (hAbout what rfl))

end Run.Lawful

theorem Run.Lawful.correspondence (σ : Settings) :
    Correspondence σ σ (.relabelled .ofSource id) fun run _ => run.Lawful where
  done := .done
  bind := .bind
  fault := False.elim
  print v := by
    refine .writeLine _ fun stop hStop => ?_
    obtain ⟨why, rfl⟩ := stop_of_spelled hStop
    trivial
  trace := by
    intro level line _ _ hLine _ _
    unfold Run.trace
    split
    · refine .writeLine _ fun stop hStop => ?_
      obtain ⟨why, rfl⟩ := hLine.stop hStop
      trivial
    · exact .done ()
  depth := fun _ _ => nofun
  lookup h := by
    refine .withName h.1 fun name m halt hEnd => ?_
    split at hEnd
    · cases hEnd
    · cases hEnd
      exact Halt.lawful_ofMisuse h.1 rfl
  define _ h := .withName h.1 fun name _ _ => nofun
  assign v h := by
    refine .withName h.1 fun name m halt hEnd => ?_
    split at hEnd
    · cases hEnd
    · cases hEnd
      exact Halt.lawful_ofMisuse h.1 rfl
  unary _ h := .ofResult h.1 fun _ => applyUnary_about
  binary _ _ h := .ofResult h.1 fun _ => applyBinary_about
  inFrame h m halt hEnd := h _ halt hEnd
  repeatWhile := by
    intro test test' body body' hTest hBody
    exact @Run.repeatWhile_corresponds (fun run _ => run.Lawful) .done .bind (.halt trivial)
      test test' body body' hTest hBody σ.rounds 0
  kind h := by rw [h.2, id]
  same _ _ _ h := h.2.symm

/-! ## What a text is found to have -/

/-- The diagnostics of a text: first those of scanning, then those of
reading. -/
def findings (source : String) : List Diagnostic :=
  (scan source).diagnostics ++ (parse (scan source).tokens).notes.map Complaint.diagnostic

theorem findings_ne_nil_iff {source : String} : findings source ≠ [] ↔ Mistaken source := by
  rw [findings, Mistaken, ne_eq, List.append_eq_nil_iff, List.map_eq_nil_iff, not_and_or]

theorem isMistake_findings {source : String} : ∀ d ∈ findings source, d.isMistake := by
  intro d hd
  rcases List.mem_append.mp hd with hd | hd
  · exact Session.isMistake_scan source d hd
  · obtain ⟨note, -, rfl⟩ := List.mem_map.mp hd
    rfl

namespace Session

@[simp] theorem events_write (s : Session) (e : Event) : (s.write e).events = s.events ++ [e] :=
  List.reverse_cons

/-- A line of the trace, where the verbosity reaches a level. -/
def traceEvents (settings : Settings) (level : Nat) (line : String) : List Event :=
  if level ≤ settings.verbosity then [.traced line] else []

theorem events_trace (s : Session) (level : Nat) (line : String) :
    (s.trace level line).events = s.events ++ traceEvents s.settings level line := by
  unfold trace traceEvents
  split
  · exact s.events_write _
  · exact (List.append_nil _).symm

theorem events_reportAll (s : Session) (ds : List Diagnostic) :
    (s.reportAll ds).events = s.events ++ Event.ofDiagnostics ds := by
  unfold reportAll
  induction ds generalizing s with
  | nil => exact (List.append_nil _).symm
  | cons d rest ih =>
    rw [List.foldl_cons, ih, report, events_write, List.append_assoc]
    rfl

theorem entries_ledger_parse (s : Session) (source : String) :
    (s.parse source).2.ledger.entries = s.ledger.entries ++ findings source := by
  simp only [parse, ledger_trace, entries_reportAll, findings, List.append_assoc]

/-- The line of the trace behind scanning. -/
def scannedLine (source : String) : String :=
  "scanned " ++ toString (scan source).tokens.length ++ " token(s)"

/-- The line of the trace behind reading. -/
def parsedLine (source : String) : String :=
  let entries := (Treewalk.parse (scan source).tokens).entries
  "parsed " ++ toString entries.length ++ " declaration(s), "
    ++ toString (entries.countP Option.isNone) ++ " failed"

/-- What reading a text writes. -/
theorem events_parse (s : Session) (source : String) :
    (s.parse source).2.events = s.events ++ (Event.ofDiagnostics (scan source).diagnostics ++
      traceEvents s.settings 4 (scannedLine source) ++ (Event.ofDiagnostics
        ((Treewalk.parse (scan source).tokens).notes.map Complaint.diagnostic) ++
      traceEvents s.settings 4 (parsedLine source))) := by
  simp only [parse, events_trace, events_reportAll, settings_trace, settings_reportAll,
    List.append_assoc, scannedLine, parsedLine]

/-! ## The ledger and what was written -/

/-- Diagnostics as they are written. -/
def transcript (ds : List Diagnostic) : String :=
  String.join (ds.map fun d => d.message ++ "\n")

/-- The second session came from the first one by reporting diagnostics
and things that are no diagnostics. -/
structure Reports (s later : Session) (ds : List Diagnostic) : Prop where
  entries : later.ledger.entries = s.ledger.entries ++ ds
  written : Event.errors later.events = Event.errors s.events ++ transcript ds

namespace Reports

theorem of_eq {s later : Session} (hLedger : later.ledger = s.ledger)
    (hErrors : Event.errors later.events = Event.errors s.events) : Reports s later [] :=
  ⟨by rw [hLedger, List.append_nil], by rw [hErrors]; exact (String.append_empty).symm⟩

theorem trans {s later last : Session} {ds more : List Diagnostic} (h : Reports s later ds)
    (k : Reports later last more) : Reports s last (ds ++ more) := by
  refine ⟨by rw [k.entries, h.entries, List.append_assoc], ?_⟩
  rw [k.written, h.written, transcript, transcript, transcript, List.map_append,
    String.join_append, String.append_assoc]

theorem trace (s : Session) (level : Nat) (line : String) : Reports s (s.trace level line) [] := by
  refine of_eq (s.ledger_trace level line) ?_
  rw [events_trace, Event.errors_append]
  unfold traceEvents
  split <;> exact String.append_empty

theorem ask (s : Session) : Reports s (s.write .prompted) [] := by
  refine of_eq rfl ?_
  rw [events_write, Event.errors_append]
  exact String.append_empty

theorem reportAll (s : Session) (ds : List Diagnostic) : Reports s (s.reportAll ds) ds :=
  ⟨s.entries_reportAll ds,
    by rw [events_reportAll, Event.errors_append, Event.errors_ofDiagnostics, transcript]⟩

theorem parse (s : Session) (source : String) :
    Reports s (s.parse source).2 (findings source) := by
  have hScanned := (reportAll s (scan source).diagnostics).trans (trace _ 4 (scannedLine source))
  have hRead := (reportAll ((s.reportAll (scan source).diagnostics).trace 4 (scannedLine source))
    ((Treewalk.parse (scan source).tokens).notes.map Complaint.diagnostic)).trans
      (trace _ 4 (parsedLine source))
  rw [List.append_nil] at hScanned hRead
  exact hScanned.trans hRead

end Reports

/-- The diagnostic of the way a run ended: an error that can be reported
is, no other ending is. -/
def failure (verbosity : Nat) : Except Halt Unit → List Diagnostic
  | .error (.error t what) =>
    if reportable verbosity t what then [.failure t.line what.message] else []
  | _ => []

/-- An error of a source text is reported. -/
theorem reportable_of_lawful {t : Token} {what : Misuse} (h : (Halt.error t what).Lawful)
    (verbosity : Nat) : reportable verbosity t what = true := by
  obtain ⟨hText, line, hLine⟩ := h
  obtain ⟨text, hWhole⟩ := showable_failureLine (t := t) (by rw [hLine]; exact ⟨_, rfl⟩) hText
  rw [reportable, hWhole]

/-- Reporting the error that ended a run touches no frame. -/
theorem scope_concludeError (s : Session) (t : Token) (what : Misuse) :
    (s.concludeError t what).2.machine.scope = s.machine.scope := by
  rcases s.concludeError_cases t what with ⟨-, told, rfl | ⟨line, rfl⟩, hEnd⟩ | ⟨-, why, hEnd⟩
  · rw [hEnd, scope_report]
  · rw [hEnd, scope_report, scope_trace]
  · rw [hEnd]

theorem Reports.concludeError (s : Session) (t : Token) (what : Misuse) :
    Reports s (s.concludeError t what).2
      (failure s.settings.verbosity (.error (.error t what))) := by
  rcases s.concludeError_cases t what with ⟨hTrue, told, hTold, hEnd⟩ | ⟨hFalse, why, hEnd⟩
  · have hQuiet : Reports s told [] := by
      rcases hTold with rfl | ⟨line, rfl⟩
      · exact .of_eq rfl rfl
      · exact .trace s 1 line
    rw [hEnd, failure, if_pos hTrue]
    exact hQuiet.trans (.reportAll told [.failure t.line what.message])
  · rw [hEnd, failure, if_neg (Bool.eq_false_iff.mp hFalse)]
    exact .of_eq rfl rfl

/-- Where a program was run, its ending is reported and nothing else. -/
theorem Reports.conclude {s : Session} {result : Except Halt Unit × Machine}
    (h : Event.errors result.2.log.reverse = Event.errors s.events) :
    Reports s (s.conclude result).2 (failure s.settings.verbosity result.1) := by
  have hWalked : Reports s { s with machine := result.2 } [] := .of_eq rfl h
  obtain ⟨ending, m⟩ := result
  cases ending using ending_cases with
  | failed t what => exact hWalked.trans (.concludeError { s with machine := m } t what)
  | done | fault | misnomer | spent | unwritable => exact hWalked

theorem Reports.interpret (s : Session) (program : List Node) :
    Reports s (s.interpret program).2
      (failure s.settings.verbosity (s.execution program).1) := by
  have hOpened : Event.errors (s.opened program).log.reverse = Event.errors s.events :=
    (Reports.trace s 1 _).written.trans String.append_empty
  rw [interpret_eq]
  exact .conclude ((errors_visitAll s.settings (present program) _).trans hOpened)

/-! ## Running what was read -/

theorem ledger_parse_of_not_mistaken {source : String} (h : ¬ Mistaken source) (s : Session) :
    (s.parse source).2.ledger = s.ledger := by
  have hNone : findings source = [] := not_not.mp (findings_ne_nil_iff.not.mpr h)
  have hEntries := s.entries_ledger_parse source
  rw [hNone, List.append_nil] at hEntries
  exact congrArg Ledger.mk hEntries

/-- In the ledger of a text that was read there is a mistake exactly if
there was one before or the text has one. -/
theorem hadError_parse_iff (s : Session) (source : String) :
    (s.parse source).2.ledger.hadError ↔ s.ledger.hadError ∨ Mistaken source := by
  rw [Ledger.hadError, entries_ledger_parse, List.any_append, Bool.or_eq_true, Ledger.hadError,
    ← findings_ne_nil_iff]
  refine or_congr_right ?_
  rw [List.any_eq_true]
  constructor
  · rintro ⟨d, hd, -⟩
    exact List.ne_nil_of_mem hd
  · intro h
    obtain ⟨d, hd⟩ := List.exists_mem_of_ne_nil _ h
    exact ⟨d, hd, isMistake_findings d hd⟩

/-- The program that a text is read as. -/
def programOf (source : String) : List Node :=
  (Treewalk.parse (scan source).tokens).entries.map Stmt.toNode?

/-- A text is run as the program it is read as. -/
theorem run_eq_conclude {s : Session} {source : String}
    (h : ¬ (s.ledger.hadError ∨ Mistaken source)) :
    s.run source = (s.parse source).2.conclude
      ((s.parse source).2.execution (programOf source)) := by
  rw [← interpret_eq, run]
  exact if_neg ((s.hadError_parse_iff source).not.mpr h)

/-- The statements of that program. -/
def statementsOf (source : String) : List Stmt :=
  (Treewalk.parse (scan source).tokens).entries.filterMap id

theorem present_programOf (source : String) :
    present (programOf source) = Stmt.toNodes (statementsOf source) :=
  present_toNodes _

theorem statementsOf_sound {contents : Contents} (source : String)
    (h : ∀ t ∈ (scan source).tokens, contents.Supplies t) :
    Stmt.AllSound contents (statementsOf source) := by
  obtain ⟨entries, rest, notes, hParse, hSound⟩ := parse_scan_sound source h
  rw [statementsOf, hParse]
  exact hSound

/-- What is read of a text runs without a fault. -/
theorem visitAll_lawful (settings : Settings) (source : String) :
    (visitAll settings (Stmt.toNodes (statementsOf source))).Lawful :=
  visitAll_corresponds (Run.Lawful.correspondence settings) _
    (Stmt.allAlike_self _ (statementsOf_sound source (scan_ofSource source)))

theorem execution_lawful (s : Session) (source : String) {halt : Halt}
    (h : (s.execution (programOf source)).1 = .error halt) : halt.Lawful := by
  rw [execution, present_programOf] at h
  exact visitAll_lawful s.settings source _ halt h

end Session

end Treewalk
