import Treewalk.Proofs.Session.Account
import Treewalk.Proofs.Session.Showable

/-!
# How a run ends, and what the ledger tells of it

A run ends in one of three ways: it is refused because of a mistake, it
runs to its end, or it stops at the first statement with an error. Which of
them it was can be told from the ledger, and not only behind one run. Only
where a tree from elsewhere left a value without a text in the frames can a
run end in a fourth way, with something it could not write.

What a session does is a row of deeds: it asks for a line, clears the
ledger, reads a text, or runs a program (`Session.history`). Behind any
steps the ledger holds what the deeds since it was last cleared reported,
the same was written, and the status says whether some text that was read
since had a mistake, or else whether some program that was run since ended
in an error (`run_outcome`).
-/

namespace Treewalk

/-! ## The statement that fails -/

/-- A row of nodes that is not run to its end is run up to a node that
halts. -/
theorem exists_failing {settings : Settings} {ns : List Node} {m later : Machine} {halt : Halt}
    (h : visitAll settings ns m = (.error halt, later)) :
    ∃ earlier failing rest mid, ns = earlier ++ failing :: rest ∧
      visitAll settings earlier m = (.ok (), mid) ∧
      visit settings failing mid = (.error halt, later) := by
  induction ns generalizing m with
  | nil => cases h
  | cons n rest ih =>
    rw [visitAll] at h
    cases hFirst : visit settings n m with
    | mk ending mid =>
      cases ending with
      | error halt' =>
        rw [Run.bind_of_error hFirst] at h
        cases h
        exact ⟨[], n, rest, m, rfl, rfl, hFirst⟩
      | ok v =>
        rw [Run.bind_of_ok hFirst] at h
        obtain ⟨earlier, failing, left, mid', hSplit, hEarlier, hFailing⟩ := ih h
        refine ⟨n :: earlier, failing, left, mid', by rw [hSplit, List.cons_append], ?_, hFailing⟩
        rw [visitAll, Run.bind_of_ok hFirst]
        exact hEarlier

namespace Session

/-! ## One run -/

theorem run_of_hadError {s : Session} {source : String}
    (h : s.ledger.hadError ∨ Mistaken source) :
    s.run source = (.finished, (s.parse source).2) := by
  rw [run]
  exact if_pos ((s.hadError_parse_iff source).mpr h)

theorem messages_parse (s : Session) (source : String) :
    (s.parse source).2.ledger.messages = s.ledger.messages ++
      ((scan source).diagnostics.map Diagnostic.message ++
        (Treewalk.parse (scan source).tokens).notes.map fun c => c.diagnostic.message) := by
  rw [Ledger.messages, entries_ledger_parse, List.map_append, findings, List.map_append,
    List.map_map]
  rfl

/-- What reading a text adds to the trace. -/
def readingTrace (settings : Settings) (source : String) : String :=
  if 4 ≤ settings.verbosity then scannedLine source ++ "\n" ++ (parsedLine source ++ "\n") else ""

/-- Reading a text prints nothing. -/
theorem output_parse (s : Session) (source : String) :
    Event.output (s.parse source).2.events = Event.output s.events := by
  have hTrace : ∀ line, Event.output (traceEvents s.settings 4 line) = "" := by
    intro line
    unfold traceEvents
    split <;> rfl
  rw [events_parse]
  simp only [Event.output_append, Event.output_ofDiagnostics, hTrace, Text.append_empty]

theorem outputAndTrace_parse (s : Session) (source : String) :
    Event.outputAndTrace (s.parse source).2.events =
      Event.outputAndTrace s.events ++ readingTrace s.settings source := by
  rw [events_parse]
  simp only [Event.outputAndTrace_append, Event.outputAndTrace_ofDiagnostics, Text.empty_append]
  congr 1
  unfold traceEvents readingTrace
  split <;> simp [Event.outputAndTrace, Text.join]

/-! ## Deeds -/

/-- What a session does at a time. -/
inductive Deed where
  /-- Ask for a line. -/
  | ask
  /-- Clear the ledger. -/
  | reset
  /-- Read a text and report its mistakes. -/
  | read (source : String)
  /-- Run a program. -/
  | execute (program : List Node)

/-- The session behind a deed. -/
def act (s : Session) : Deed → Session
  | .ask => s.write .prompted
  | .reset => s.reset
  | .read source => (s.parse source).2
  | .execute program => (s.interpret program).2

/-- The session behind deeds in a row. -/
def acts (s : Session) (deeds : List Deed) : Session :=
  deeds.foldl act s

theorem acts_append (s : Session) (deeds more : List Deed) :
    s.acts (deeds ++ more) = (s.acts deeds).acts more :=
  List.foldl_append

/-- The deeds of running a text. -/
def runDeeds (s : Session) (source : String) : List Deed :=
  let (entries, later) := s.parse source
  .read source :: if later.ledger.hadError then [] else [.execute (entries.map Stmt.toNode?)]

/-- The deeds of a prompt. -/
def promptDeeds (s : Session) : List String → List Deed
  | [] => [.ask]
  | line :: rest =>
    .ask :: if line = exitCommand then []
      else .reset :: (s.write .prompted).reset.runDeeds line ++
        match (s.write .prompted).reset.run line with
        | (.finished, later) => later.promptDeeds rest
        | _ => []

/-- The deeds of a step. -/
def deeds (s : Session) : Step → List Deed
  | .run source => s.runDeeds source
  | .parse source => [.read source]
  | .interpret source => [.read source, .execute ((s.parse source).1.map Stmt.toNode?)]
  | .load data =>
    match Node.programOfJson data with
    | .ok program => [.execute program]
    | .error _ => []
  | .prompt lines => s.promptDeeds lines
  | .reset => [.reset]

/-- The deeds of steps in a row. -/
def history (s : Session) : List Step → List Deed
  | [] => []
  | step :: rest => s.deeds step ++ (s.perform step).2.history rest

theorem acts_runDeeds (s : Session) (source : String) :
    s.acts (s.runDeeds source) = (s.run source).2 := by
  simp only [runDeeds, run, acts, List.foldl_cons]
  split <;> rfl

theorem acts_promptDeeds (s : Session) (lines : List String) :
    s.acts (s.promptDeeds lines) = (s.converse lines).session := by
  induction lines generalizing s with
  | nil => rfl
  | cons line rest ih =>
    rw [converse, promptDeeds]
    by_cases hExit : line = exitCommand
    · rw [if_pos hExit, if_pos hExit]
      rfl
    · rw [if_neg hExit, if_neg hExit, List.cons_append, ← List.cons_append, ← List.cons_append,
        acts_append]
      have hRun := (s.write .prompted).reset.acts_runDeeds line
      cases hEnd : (s.write .prompted).reset.run line with
      | mk ending later =>
        rw [hEnd] at hRun
        have hBegun : s.acts (.ask :: .reset :: (s.write .prompted).reset.runDeeds line) = later :=
          hRun
        rw [hBegun]
        cases ending with
        | finished => exact ih later
        | fault | misnomer | spent | unwritable => rfl

theorem acts_deeds (s : Session) (step : Step) : s.acts (s.deeds step) = (s.perform step).2 := by
  cases step with
  | run source => exact s.acts_runDeeds source
  | load data =>
    rw [deeds, perform]
    cases Node.programOfJson data <;> rfl
  | prompt lines => exact s.acts_promptDeeds lines
  | parse | interpret | reset => rfl

/-- The deeds of some steps lead where the steps lead. -/
theorem acts_history (s : Session) (steps : List Step) :
    s.acts (s.history steps) = s.after steps := by
  induction steps generalizing s with
  | nil => rfl
  | cons step rest ih =>
    rw [history, acts_append, acts_deeds, ih]
    rfl

/-! ## What deeds report -/

/-- What a deed reports. -/
def reported (s : Session) : Deed → List Diagnostic
  | .ask | .reset => []
  | .read source => findings source
  | .execute program => failure s.settings.verbosity (s.execution program).1

/-- What deeds in a row report. -/
def reportedAll (s : Session) : List Deed → List Diagnostic
  | [] => []
  | deed :: rest => s.reported deed ++ (s.act deed).reportedAll rest

/-- A deed that does not clear the ledger reports what it adds to it. -/
theorem reports_act (s : Session) {deed : Deed} (h : deed ≠ .reset) :
    Reports s (s.act deed) (s.reported deed) := by
  cases deed with
  | ask => exact .ask s
  | reset => exact absurd rfl h
  | read source => exact .parse s source
  | execute program => exact .interpret s program

theorem reports_acts (s : Session) {deeds : List Deed} (h : .reset ∉ deeds) :
    Reports s (s.acts deeds) (s.reportedAll deeds) := by
  induction deeds generalizing s with
  | nil => exact .of_eq rfl rfl
  | cons deed rest ih =>
    rw [List.mem_cons, not_or] at h
    exact (s.reports_act (Ne.symm h.1)).trans (ih (s.act deed) h.2)

/-- Some text that was read had a mistake. -/
def Mistook (deeds : List Deed) : Prop :=
  ∃ source, .read source ∈ deeds ∧ Mistaken source

/-- Some program that was run ended in an error that was reported. -/
def Failed (s : Session) (deeds : List Deed) : Prop :=
  ∃ earlier program rest t what m, deeds = earlier ++ .execute program :: rest ∧
    (s.acts earlier).execution program = (.error (.error t what), m) ∧
    reportable (s.acts earlier).settings.verbosity t what

theorem isMistake_failure {verbosity : Nat} {ending : Except Halt Unit} :
    ∀ d ∈ failure verbosity ending, d.isMistake = false := by
  intro d hd
  cases ending using ending_cases with
  | failed t what =>
    rw [failure] at hd
    split at hd
    · rw [List.mem_singleton.mp hd]
      rfl
    · cases hd
  | done | fault | misnomer | spent | unwritable => cases hd

theorem mistook_cons {deed : Deed} {rest : List Deed} :
    Mistook (deed :: rest) ↔ (∃ source, deed = .read source ∧ Mistaken source) ∨ Mistook rest := by
  simp only [Mistook, List.mem_cons]
  constructor
  · rintro ⟨source, rfl | hMem, hSource⟩
    · exact .inl ⟨source, rfl, hSource⟩
    · exact .inr ⟨source, hMem, hSource⟩
  · rintro (⟨source, rfl, hSource⟩ | ⟨source, hMem, hSource⟩)
    · exact ⟨source, .inl rfl, hSource⟩
    · exact ⟨source, .inr hMem, hSource⟩

theorem failed_cons {s : Session} {deed : Deed} {rest : List Deed} :
    s.Failed (deed :: rest) ↔ (∃ program t what m, deed = .execute program ∧
      s.execution program = (.error (.error t what), m) ∧
      reportable s.settings.verbosity t what) ∨ (s.act deed).Failed rest := by
  constructor
  · rintro ⟨earlier, program, left, t, what, m, hSplit, hEnd⟩
    cases earlier with
    | nil =>
      cases hSplit
      exact .inl ⟨program, t, what, m, rfl, hEnd⟩
    | cons first earlier =>
      cases hSplit
      exact .inr ⟨earlier, program, left, t, what, m, rfl, hEnd⟩
  · rintro (⟨program, t, what, m, rfl, hEnd⟩ | ⟨earlier, program, left, t, what, m, rfl, hEnd⟩)
    · exact ⟨[], program, rest, t, what, m, rfl, hEnd⟩
    · exact ⟨deed :: earlier, program, left, t, what, m, rfl, hEnd⟩

/-- A mistake is reported exactly if a text had one. -/
theorem any_isMistake_iff (s : Session) (deeds : List Deed) :
    (s.reportedAll deeds).any Diagnostic.isMistake ↔ Mistook deeds := by
  induction deeds generalizing s with
  | nil => simp [reportedAll, Mistook]
  | cons deed rest ih =>
    rw [reportedAll, List.any_append, Bool.or_eq_true, ih, mistook_cons]
    refine or_congr_left ?_
    cases deed with
    | ask | reset => simp [reported]
    | execute program =>
      have hNone : (failure s.settings.verbosity (s.execution program).1).any
          Diagnostic.isMistake = false :=
        List.any_eq_false.mpr fun d hd => by simp [isMistake_failure d hd]
      simp [reported, hNone]
    | read source =>
      rw [reported, List.any_eq_true]
      constructor
      · rintro ⟨d, hd, -⟩
        exact ⟨source, rfl, findings_ne_nil_iff.mp (List.ne_nil_of_mem hd)⟩
      · rintro ⟨_, ⟨⟩, hSource⟩
        obtain ⟨d, hd⟩ := List.exists_mem_of_ne_nil _ (findings_ne_nil_iff.mpr hSource)
        exact ⟨d, hd, isMistake_findings d hd⟩

/-- An error is reported exactly if a program ended in one that can be. -/
theorem any_not_isMistake_iff (s : Session) (deeds : List Deed) :
    ((s.reportedAll deeds).any fun d => !d.isMistake) ↔ s.Failed deeds := by
  induction deeds generalizing s with
  | nil => simp [reportedAll, Failed]
  | cons deed rest ih =>
    rw [reportedAll, List.any_append, Bool.or_eq_true, ih, failed_cons]
    refine or_congr_left ?_
    cases deed with
    | ask | reset => simp [reported]
    | read source =>
      have hNone : ((findings source).any fun d => !d.isMistake) = false :=
        List.any_eq_false.mpr fun d hd => by simp [isMistake_findings d hd]
      simp [reported, hNone]
    | execute program =>
      rw [reported]
      cases hEnd : s.execution program with
      | mk ending m =>
        cases ending using ending_cases with
        | failed t what =>
          rw [failure]
          by_cases hReported : reportable s.settings.verbosity t what
          · rw [if_pos hReported]
            exact iff_of_true rfl ⟨program, t, what, m, rfl, hEnd, hReported⟩
          · rw [if_neg hReported]
            refine iff_of_false Bool.false_ne_true ?_
            rintro ⟨_, t', what', m', ⟨⟩, hEnd', hReported'⟩
            rw [hEnd] at hEnd'
            cases hEnd'
            exact hReported hReported'
        | done | fault | misnomer | spent | unwritable =>
          refine iff_of_false Bool.false_ne_true ?_
          rintro ⟨_, t, what, m', ⟨⟩, hEnd', -⟩
          rw [hEnd] at hEnd'
          cases hEnd'

/-! ## Since the ledger was cleared -/

/-- Deeds in a row part where the ledger was last cleared. -/
theorem exists_since_reset (deeds : List Deed) : ∃ before since, deeds = before ++ since ∧
    (before = [] ∨ ∃ sooner, before = sooner ++ [.reset]) ∧ .reset ∉ since := by
  induction deeds with
  | nil => exact ⟨[], [], rfl, .inl rfl, List.not_mem_nil⟩
  | cons deed rest ih =>
    obtain ⟨before, since, rfl, hBefore, hSince⟩ := ih
    rcases hBefore with rfl | ⟨sooner, rfl⟩
    · by_cases h : deed = .reset
      · exact ⟨[deed], since, rfl, .inr ⟨[], by rw [h]; rfl⟩, hSince⟩
      · refine ⟨[], deed :: since, rfl, .inl rfl, ?_⟩
        rw [List.mem_cons, not_or]
        exact ⟨Ne.symm h, hSince⟩
    · exact ⟨deed :: (sooner ++ [.reset]), since, rfl, .inr ⟨deed :: sooner, rfl⟩, hSince⟩

theorem ledger_acts_reset (settings : Settings) {before : List Deed}
    (h : before = [] ∨ ∃ sooner, before = sooner ++ [.reset]) :
    ((start settings).acts before).ledger = .empty := by
  rcases h with rfl | ⟨sooner, rfl⟩
  · rfl
  · rw [acts_append]
    rfl

/-- The status: a mistake comes first, then an error. -/
theorem status_iff {s : Session} {mistook failed : Prop} (hMistook : s.ledger.hadError ↔ mistook)
    (hFailed : s.ledger.hadRuntimeError ↔ failed) :
    (s.status = 65 ↔ mistook) ∧ (s.status = 70 ↔ ¬ mistook ∧ failed) ∧
      (s.status = 0 ↔ ¬ mistook ∧ ¬ failed) := by
  rw [status, ← hMistook, ← hFailed]
  cases s.ledger.hadError <;> cases s.ledger.hadRuntimeError <;> decide

/-- What the ledger, the error text and the status of a session say of the
deeds since the ledger was cleared. -/
structure Account (cleared : Session) (since : List Deed) (s : Session) : Prop where
  written : Event.errors s.events = Event.errors cleared.events ++
    String.join (s.ledger.messages.map (· ++ "\n"))
  silent : s.ledger.messages = [] ↔ s.ledger.hadError = false ∧ s.ledger.hadRuntimeError = false
  mistaken : s.status = 65 ↔ Mistook since
  failed : s.status = 70 ↔ ¬ Mistook since ∧ cleared.Failed since
  clean : s.status = 0 ↔ ¬ Mistook since ∧ ¬ cleared.Failed since

theorem account_acts {cleared : Session} (h : cleared.ledger = .empty) {since : List Deed}
    (hSince : .reset ∉ since) : Account cleared since (cleared.acts since) := by
  have hReports := cleared.reports_acts hSince
  generalize cleared.acts since = s at hReports ⊢
  have hEntries : s.ledger.entries = cleared.reportedAll since := by
    rw [hReports.entries, h]
    rfl
  have hMistook : s.ledger.hadError ↔ Mistook since := by
    rw [Ledger.hadError, hEntries]
    exact cleared.any_isMistake_iff since
  have hFailed : s.ledger.hadRuntimeError ↔ cleared.Failed since := by
    rw [Ledger.hadRuntimeError, hEntries]
    exact cleared.any_not_isMistake_iff since
  obtain ⟨hMistaken, hStopped, hClean⟩ := status_iff hMistook hFailed
  refine ⟨?_, s.ledger.messages_eq_nil_iff, hMistaken, hStopped, hClean⟩
  rw [hReports.written, Ledger.messages, hEntries, transcript, List.map_map]
  rfl

/-! ## The three endings -/

/-- A run that was refused: nothing was executed. -/
structure Refused (s : Session) (source : String) (later : Session) : Prop where
  scope : later.machine.scope = s.machine.scope
  output : Event.output later.events = Event.output s.events
  /-- Where the trace goes to standard output, its lines are all that is
  new there. -/
  outputAndTrace : Event.outputAndTrace later.events =
    Event.outputAndTrace s.events ++ readingTrace s.settings source
  messages : later.ledger.messages = s.ledger.messages ++
    ((scan source).diagnostics.map Diagnostic.message ++
      (Treewalk.parse (scan source).tokens).notes.map fun c => c.diagnostic.message)
  status : later.status = 65

theorem refused {s : Session} {source : String} (h : s.ledger.hadError ∨ findings source ≠ []) :
    (s.run source).1 = .finished ∧ Refused s source (s.run source).2 := by
  rw [findings_ne_nil_iff] at h
  rw [run_of_hadError h]
  exact ⟨rfl, s.scope_parse source, s.output_parse source, s.outputAndTrace_parse source,
    s.messages_parse source, if_pos ((s.hadError_parse_iff source).mpr h)⟩

/-- A run to the end of the text. -/
structure Completed (s : Session) (source : String) (later : Session) : Prop where
  execution : (s.parse source).2.execution (programOf source) = (.ok (), later.machine)
  messages : later.ledger.messages = s.ledger.messages

/-- A run that stopped at the first statement with an error. The statements
before it ran to their end, and the session is left with what the failing
one left, so those behind it had no effect. -/
structure Stopped (s : Session) (source : String) (later : Session) (earlier : List Node)
    (failing : Node) (rest : List Node) (t : Token) (what : Misuse) : Prop where
  statements : present (programOf source) = earlier ++ failing :: rest
  left : ∃ mid last, visitAll s.settings earlier
      ((s.parse source).2.opened (programOf source)) = (.ok (), mid) ∧
    visit s.settings failing mid = (.error (.error t what), last) ∧
    later.machine.scope = last.scope ∧ Event.output later.events = Event.output last.log.reverse
  messages : later.ledger.messages =
    s.ledger.messages ++ [(Diagnostic.failure t.line what.message).message]
  hadRuntimeError : later.ledger.hadRuntimeError

/-- A run that stopped where something could not be written, because of a
value that was in the frames before it. That is no error of the language, so
none is reported. -/
structure Unwritten (s : Session) (source : String) (later : Session) (why : Flaw) : Prop where
  scope : ¬ s.machine.scope.Showable
  execution : (s.parse source).2.execution (programOf source) =
    (.error (.unwritable why), later.machine)
  messages : later.ledger.messages = s.ledger.messages

theorem output_trace (s : Session) (level : Nat) (line : String) :
    Event.output (s.trace level line).events = Event.output s.events := by
  rw [events_trace, Event.output_append]
  unfold traceEvents
  split <;> exact Text.append_empty _

/-- Reporting the error a run ended in prints nothing. -/
theorem output_concludeError (s : Session) (t : Token) (what : Misuse) :
    Event.output (s.concludeError t what).2.events = Event.output s.events := by
  have hReport : ∀ (told : Session) d, Event.output (told.report d).events =
      Event.output told.events := by
    intro told d
    rw [report, events_write, Event.output_append]
    exact Text.append_empty _
  rcases s.concludeError_cases t what with ⟨-, told, rfl | ⟨line, rfl⟩, hEnd⟩ | ⟨-, why, hEnd⟩
  · rw [hEnd, hReport]
  · rw [hEnd, hReport, output_trace]
  · rw [hEnd]

/-- A run that is not refused and ends runs to its end, or stops at a
statement and reports its error, unless the frames hold something that
cannot be written. -/
theorem completed_or_stopped {s : Session} {source : String}
    (h : ¬ (s.ledger.hadError ∨ findings source ≠ [])) (hRounds : (s.run source).1 ≠ .spent) :
    (s.run source).1 = .finished ∧ (Completed s source (s.run source).2 ∨
      ∃ earlier failing rest t what,
        Stopped s source (s.run source).2 earlier failing rest t what) ∨
    ∃ why, (s.run source).1 = .unwritable why ∧ Unwritten s source (s.run source).2 why := by
  rw [findings_ne_nil_iff] at h
  have hRun : s.run source = (s.parse source).2.conclude
      ((s.parse source).2.execution (programOf source)) := run_eq_conclude h
  have hScope : ∀ why, (s.run source).1 = .unwritable why → ¬ s.machine.scope.Showable :=
    fun why hWhy hShowable => (writable_run hShowable source).ending why hWhy
  have hReports := Reports.interpret (s.parse source).2 (programOf source)
  rw [interpret_eq, ← hRun] at hReports
  have hEntries := hReports.entries
  rw [ledger_parse_of_not_mistaken (not_or.mp h).2 s] at hEntries
  rw [hRun] at hRounds hEntries hScope ⊢
  cases hEnd : (s.parse source).2.execution (programOf source) with
  | mk ending m =>
    rw [hEnd] at hEntries hRounds hScope
    cases ending using ending_cases with
    | done =>
      refine .inl ⟨rfl, .inl ⟨hEnd, ?_⟩⟩
      rw [Ledger.messages, hEntries]
      exact congrArg _ (List.append_nil _)
    | failed t what =>
      obtain ⟨earlier, failing, rest, mid, hSplit, hEarlier, hFailing⟩ := exists_failing hEnd
      rw [settings_parse] at hEarlier hFailing
      have hReported := reportable_of_lawful
        (execution_lawful _ source (congrArg Prod.fst hEnd)) (s.parse source).2.settings.verbosity
      rw [failure, if_pos hReported] at hEntries
      let walked : Session := { (s.parse source).2 with machine := m }
      refine .inl ⟨?_, .inr ⟨earlier, failing, rest, t, what, hSplit, ⟨mid, m, hEarlier,
        hFailing, walked.scope_concludeError t what, walked.output_concludeError t what⟩, ?_, ?_⟩⟩
      · exact concludeError_finished hReported
      · rw [Ledger.messages, hEntries, List.map_append]
        rfl
      · rw [Ledger.hadRuntimeError, hEntries, List.any_append]
        exact Bool.or_true _
    | spent => exact absurd rfl hRounds
    | fault | misnomer => exact (execution_lawful _ source (congrArg Prod.fst hEnd)).elim
    | unwritable why =>
      refine .inr ⟨why, rfl, hScope why rfl, hEnd, ?_⟩
      rw [Ledger.messages, hEntries]
      exact congrArg _ (List.append_nil _)

/-- A text is refused if a mistake is known or it has one. Any other run
that ends has run all statements and reported nothing, or has stopped at
the first statement with an error and reported that error alone; or a value
without a text was in the frames and it stopped where that could not be
written, and reported nothing.

Behind any steps, what was written of errors since the ledger was last
cleared is its messages, there are none exactly if neither kind of error is
known, and the status is 65 if a text that was read since had a mistake,
else 70 if the error that a program ended in was reported since, else 0. -/
theorem run_outcome :
    (∀ (s : Session) (source : String),
      (s.ledger.hadError ∨ findings source ≠ [] →
        (s.run source).1 = .finished ∧ Refused s source (s.run source).2) ∧
      (¬ (s.ledger.hadError ∨ findings source ≠ []) → (s.run source).1 ≠ .spent →
        (s.run source).1 = .finished ∧ (Completed s source (s.run source).2 ∨
          ∃ earlier failing rest t what,
            Stopped s source (s.run source).2 earlier failing rest t what) ∨
        ∃ why, (s.run source).1 = .unwritable why ∧
          Unwritten s source (s.run source).2 why)) ∧
    (∀ (settings : Settings) (steps : List Step),
      ∃ before since, (start settings).history steps = before ++ since ∧
        (before = [] ∨ ∃ sooner, before = sooner ++ [.reset]) ∧ .reset ∉ since ∧
        Account ((start settings).acts before) since ((start settings).after steps)) := by
  refine ⟨fun s source => ⟨refused, completed_or_stopped⟩, fun settings steps => ?_⟩
  obtain ⟨before, since, hHistory, hBefore, hSince⟩ :=
    exists_since_reset ((start settings).history steps)
  refine ⟨before, since, hHistory, hBefore, hSince, ?_⟩
  rw [← acts_history, hHistory, acts_append]
  exact account_acts (ledger_acts_reset settings hBefore) hSince

/-- A text that is refused, and one that ends in an error. -/
theorem run_outcome_both_errors :
    let s := start ⟨0, 0⟩
    (findings ";" ≠ [] ∧ Refused s ";" (s.run ";").2) ∧
      (¬ (s.ledger.hadError ∨ findings "print -nil;" ≠ []) ∧ (s.run "print -nil;").1 ≠ .spent ∧
        (Completed s "print -nil;" (s.run "print -nil;").2 ∨ ∃ earlier failing rest t what,
          Stopped s "print -nil;" (s.run "print -nil;").2 earlier failing rest t what)) := by
  intro s
  have hMistaken : findings ";" ≠ [] := findings_ne_nil_iff.mpr (.inr (by decide +kernel))
  have hSource : ¬ Mistaken "print -nil;" := not_mistaken_iff.mpr (by decide +kernel)
  have hRun : ¬ (s.ledger.hadError ∨ findings "print -nil;" ≠ []) := by
    rw [findings_ne_nil_iff, not_or]
    exact ⟨nofun, hSource⟩
  have hEnd : (s.run "print -nil;").1 = .finished := by decide +kernel
  have hRounds : (s.run "print -nil;").1 ≠ .spent := by rw [hEnd]; exact nofun
  refine ⟨⟨hMistaken, ((run_outcome.1 s ";").1 (.inr hMistaken)).2⟩, hRun, hRounds, ?_⟩
  rcases (run_outcome.1 s "print -nil;").2 hRun hRounds with ⟨-, hLeft⟩ | ⟨why, hEnd', -⟩
  · exact hLeft
  · rw [hEnd] at hEnd'
    cases hEnd'

/-- At the highest verbosity a refused text still leaves lines of the trace
on standard output, if there is no other place for them. -/
theorem refused_text_traced :
    findings ";" ≠ [] ∧
      Event.outputAndTrace ((start ⟨4, 0⟩).run ";").2.events ≠
        Event.outputAndTrace (start ⟨4, 0⟩).events := by
  refine ⟨findings_ne_nil_iff.mpr (.inr ?_), ?_⟩
  · decide +kernel
  · decide +kernel

end Session

end Treewalk
