import Treewalk.Proofs.Session.Outcome
import Treewalk.Proofs.Session.Past
import Treewalk.Proofs.Session.Seam

/-!
# Lines at a prompt

A prompt enters the lines before the first exit command one by one, each
with a clear ledger, and reads none behind it (`converse_eq`). What one line
hands on to the next is the frames alone: what was written is not looked at
(`Session.converse_behind`), and the ledger is cleared.

So a line with a mistake might as well not be there, but for what its
reading writes (`Dispensable`); a line that fails leaves what it did up to
the failure; and the ledger of the whole is that of the last line, run from
the frames it found (`prompt_lines`). The exit command itself is the one
line of which this is not true: read as a text it has a mistake, and without
it the lines behind it are entered (`mistaken_line_missed`).
-/

namespace Treewalk.Session

/-! ## Entering lines -/

/-- The session in which a line is run: asked for, and with a clear
ledger. -/
def asked (s : Session) : Session :=
  (s.write .prompted).reset

/-- The session behind a line. -/
def enter (s : Session) (line : String) : Session :=
  (s.asked.run line).2

/-- The session behind lines in a row. -/
def enterAll (s : Session) (lines : List String) : Session :=
  lines.foldl enter s

theorem settings_enterAll (s : Session) (lines : List String) :
    (s.enterAll lines).settings = s.settings := by
  induction lines generalizing s with
  | nil => rfl
  | cons line rest ih => exact (ih (s.enter line)).trans (s.asked.settings_run line)

theorem run_finished {s : Session} {source : String} (hEnough : (s.run source).1 ≠ .spent)
    (hTold : ∀ why, (s.run source).1 ≠ .unwritable why) : (s.run source).1 = .finished := by
  by_cases hRefused : s.ledger.hadError ∨ findings source ≠ []
  · exact (refused hRefused).1
  · rcases completed_or_stopped hRefused hEnough with ⟨hEnd, -⟩ | ⟨why, hEnd, -⟩
    · exact hEnd
    · exact absurd hEnd (hTold why)

theorem converse_cons {s : Session} {line : String} (hLine : line ≠ exitCommand)
    (h : (s.asked.run line).1 = .finished) (rest : List String) :
    s.converse (line :: rest) = (s.enter line).converse rest := by
  have hRun : (s.write .prompted).reset.run line = (.finished, s.enter line) := Prod.ext h rfl
  rw [converse, if_neg hLine, hRun]

theorem converse_of_not_finished {s : Session} {line : String} (hLine : line ≠ exitCommand)
    (h : (s.asked.run line).1 ≠ .finished) (rest : List String) :
    s.converse (line :: rest) = ⟨(s.asked.run line).1, rest, s.enter line⟩ := by
  cases hRun : s.asked.run line with
  | mk ending later =>
    have hRun' : (s.write .prompted).reset.run line = (ending, later) := hRun
    rw [hRun] at h
    rw [converse, if_neg hLine, hRun', enter, hRun]
    cases ending with
    | finished => exact absurd rfl h
    | fault | misnomer | spent | unwritable => rfl

/-- Where a prompt comes to its end, its first line does. -/
theorem asked_run_finished {s : Session} {line : String} (hLine : line ≠ exitCommand)
    {rest : List String} (h : (s.converse (line :: rest)).ending = .finished) :
    (s.asked.run line).1 = .finished := by
  by_contra hRun
  rw [converse_of_not_finished hLine hRun] at h
  exact hRun h

/-- A prompt comes to its end if every line is given rounds enough, and
either the frames hold only what can be shown or no line ends for want of a
text. -/
theorem converse_finished {s : Session} {lines : List String}
    (hEnough : (s.converse lines).ending ≠ .spent)
    (hTold : s.machine.scope.Showable ∨ ∀ why, (s.converse lines).ending ≠ .unwritable why) :
    (s.converse lines).ending = .finished := by
  replace hTold := hTold.elim (fun h => (writable_converse h lines).ending) id
  induction lines generalizing s with
  | nil => rfl
  | cons line rest ih =>
    by_cases hLine : line = exitCommand
    · rw [converse, if_pos hLine]
    · by_cases hRun : (s.asked.run line).1 = .finished
      · rw [converse_cons hLine hRun] at hEnough hTold ⊢
        exact ih hEnough hTold
      · rw [converse_of_not_finished hLine hRun] at hEnough hTold
        exact absurd (run_finished hEnough hTold) hRun

/-- A prompt that comes to its end enters its first lines, whatever comes
behind them. -/
theorem converse_append {s : Session} {lines rest : List String} (hLines : exitCommand ∉ lines)
    (h : (s.converse (lines ++ rest)).ending = .finished) (other : List String) :
    s.converse (lines ++ other) = (s.enterAll lines).converse other := by
  induction lines generalizing s with
  | nil => rfl
  | cons line more ih =>
    rw [List.mem_cons, not_or] at hLines
    have hLine : line ≠ exitCommand := Ne.symm hLines.1
    have hRun := asked_run_finished hLine h
    rw [List.cons_append, converse_cons hLine hRun] at h ⊢
    exact ih hLines.2 h

/-- A prompt enters the lines before the exit command and reads none behind
it. -/
theorem converse_eq {s : Session} {lines : List String}
    (h : (s.converse lines).ending = .finished) :
    s.converse lines = ⟨.finished, (lines.dropWhile (· ≠ exitCommand)).tail,
      (s.enterAll (lines.takeWhile (· ≠ exitCommand))).write .prompted⟩ := by
  induction lines generalizing s with
  | nil => rfl
  | cons line rest ih =>
    by_cases hLine : line = exitCommand
    · subst hLine
      rw [converse, if_pos rfl]
      rfl
    · have hFirst := converse_cons hLine (asked_run_finished hLine h) rest
      rw [hFirst] at h ⊢
      rw [ih h, List.takeWhile_cons_of_pos (by simpa using hLine),
        List.dropWhile_cons_of_pos (by simpa using hLine)]
      rfl

/-- Lines behind the exit command change nothing but what is left unread. -/
theorem converse_append_of_mem {s : Session} {lines : List String} (hLines : exitCommand ∈ lines)
    (rest other : List String) :
    (s.converse (lines ++ rest)).ending = (s.converse (lines ++ other)).ending ∧
      (s.converse (lines ++ rest)).session = (s.converse (lines ++ other)).session := by
  induction lines generalizing s with
  | nil => cases hLines
  | cons line more ih =>
    rw [List.cons_append, List.cons_append, converse, converse]
    by_cases hLine : line = exitCommand
    · rw [if_pos hLine, if_pos hLine]
      exact ⟨rfl, rfl⟩
    · have hMore : exitCommand ∈ more := List.mem_of_ne_of_mem (Ne.symm hLine) hLines
      rw [if_neg hLine, if_neg hLine]
      cases (s.write .prompted).reset.run line with
      | mk ending later =>
        cases ending with
        | finished => exact ih hMore
        | fault | misnomer | spent | unwritable => exact ⟨rfl, rfl⟩

/-! ## What a line hands on -/

/-- A prompt does not look at the ledger. -/
theorem converse_reset (s : Session) (lines : List String) :
    (s.reset.converse lines).ending = (s.converse lines).ending ∧
      (s.reset.converse lines).unread = (s.converse lines).unread ∧
      (s.reset.converse lines).session.machine = (s.converse lines).session.machine := by
  cases lines with
  | nil => exact ⟨rfl, rfl, rfl⟩
  | cons line rest =>
    rw [converse, converse]
    split
    · exact ⟨rfl, rfl, rfl⟩
    · exact ⟨rfl, rfl, rfl⟩

/-- A prompt goes on as it would from the same frames with nothing written
and nothing in the ledger, behind what was written. -/
theorem converse_fresh (s : Session) (lines : List String) :
    let fresh := s.reset.drained.converse lines
    (s.converse lines).ending = fresh.ending ∧ (s.converse lines).unread = fresh.unread ∧
      (s.converse lines).session.machine.scope = fresh.session.machine.scope ∧
      (s.converse lines).session.events = s.events ++ fresh.session.events := by
  intro fresh
  have hBehind := s.reset.drained.converse_behind s.reset.machine.log lines
  rw [drained_behind] at hBehind
  obtain ⟨hEnding, hUnread, hMachine⟩ := s.converse_reset lines
  rw [hBehind] at hEnding hUnread hMachine
  have hScope : (fresh.session.machine.behind s.machine.log).scope =
      (s.converse lines).session.machine.scope := congrArg Machine.scope hMachine
  refine ⟨hEnding.symm, hUnread.symm, hScope.symm, ?_⟩
  calc (s.converse lines).session.events
      = (fresh.session.behind s.machine.log).events :=
        congrArg (fun m : Machine => m.log.reverse) hMachine.symm
    _ = s.events ++ fresh.session.events := events_behind _ _

/-- A line that is run behind others enters in the ledger what it would
enter from the same frames at the start of a session. -/
theorem ledger_enter (s : Session) (line : String) :
    (s.enter line).ledger =
      ((⟨s.settings, { scope := s.machine.scope }, .empty⟩ : Session).run line).2.ledger := by
  have hBehind := (⟨s.settings, { scope := s.machine.scope }, .empty⟩ : Session).run_behind
    (.prompted :: s.machine.log) line
  exact congrArg (fun r => r.2.ledger) hBehind

/-! ## A line with a mistake -/

/-- A line that has a mistake is only read. -/
theorem enter_of_findings {line : String} (h : findings line ≠ []) (s : Session) :
    s.enter line = (s.asked.parse line).2 :=
  congrArg Prod.snd (run_of_hadError (.inr (findings_ne_nil_iff.mp h)))

/-- Reading a text writes the same in every session. -/
theorem events_parse_eq (s : Session) (source : String) :
    (s.parse source).2.events = s.events ++ ((start s.settings).parse source).2.events := by
  rw [events_parse, events_parse]
  rfl

/-- What a line with a mistake writes, and what there is of it besides the
mark before it. -/
theorem events_enter_of_findings {line : String} (h : findings line ≠ []) (s : Session) :
    (s.enter line).events =
      s.events ++ .prompted :: ((start s.settings).run line).2.events := by
  rw [enter_of_findings h, run_of_hadError (.inr (findings_ne_nil_iff.mp h)), events_parse_eq]
  change (s.write .prompted).events ++ _ = _
  rw [events_write, List.append_assoc]
  rfl

theorem output_enter_of_findings {line : String} (h : findings line ≠ []) (s : Session) :
    Event.output (s.enter line).events = Event.output s.events := by
  rw [enter_of_findings h, output_parse]
  change Event.output (s.write .prompted).events = _
  rw [events_write, Event.output_append]
  exact Text.append_empty _

theorem errors_enter_of_findings {line : String} (h : findings line ≠ []) (s : Session) :
    Event.errors (s.enter line).events = Event.errors s.events ++ transcript (findings line) := by
  have hAsked : Event.errors s.asked.events = Event.errors s.events :=
    (Reports.ask s).written.trans String.append_empty
  rw [enter_of_findings h, (Reports.parse s.asked line).written, hAsked]

theorem scope_enter_of_findings {line : String} (h : findings line ≠ []) (s : Session) :
    (s.enter line).machine.scope = s.machine.scope := by
  rw [enter_of_findings h, scope_parse]
  rfl

/-- The first prompt is the second one with a line put in behind `before`
that does nothing but write its own events, of which those to standard error
are its diagnostics. -/
structure Dispensable (before : Session) (line : String) (whole rest : Farewell) : Prop where
  ending : rest.ending = .finished
  unread : rest.unread = whole.unread
  scope : rest.session.machine.scope = whole.session.machine.scope
  output : Event.output rest.session.events = Event.output whole.session.events
  errors : ∃ later,
    Event.errors rest.session.events = Event.errors before.events ++ later ∧
    Event.errors whole.session.events =
      Event.errors before.events ++ transcript (findings line) ++ later
  events : ∃ later, rest.session.events = before.events ++ later ∧
    whole.session.events =
      before.events ++ .prompted :: ((start before.settings).run line).2.events ++ later

theorem dispensable_of_findings {s : Session} {line : String} (h : findings line ≠ [])
    {rest : List String} (hEnd : ((s.enter line).converse rest).ending = .finished) :
    Dispensable s line ((s.enter line).converse rest) (s.converse rest) := by
  obtain ⟨hEnding, hUnread, hScope, hEvents⟩ := s.converse_fresh rest
  obtain ⟨hEnding', hUnread', hScope', hEvents'⟩ := (s.enter line).converse_fresh rest
  have hSettings : (s.enter line).settings = s.settings := s.asked.settings_run line
  -- without what they wrote and reported the sessions before and behind the line are one
  have hFresh : (s.enter line).reset.drained = s.reset.drained := by
    simp only [reset, drained, hSettings, scope_enter_of_findings h]
  rw [hFresh] at hEnding' hUnread' hScope' hEvents'
  refine
    { ending := hEnding.trans (hEnding'.symm.trans hEnd)
      unread := hUnread.trans hUnread'.symm
      scope := hScope.trans hScope'.symm
      output := ?_
      errors := ⟨Event.errors (s.reset.drained.converse rest).session.events, ?_, ?_⟩
      events := ⟨(s.reset.drained.converse rest).session.events, hEvents, ?_⟩ }
  · rw [hEvents, hEvents', Event.output_append, Event.output_append, output_enter_of_findings h]
  · rw [hEvents, Event.errors_append]
  · rw [hEvents', Event.errors_append, errors_enter_of_findings h]
  · rw [hEvents', events_enter_of_findings h]

/-! ## A line that fails -/

/-- A line behind which an error is known has stopped at it. -/
theorem stopped_of_hadRuntimeError {s : Session} {line : String}
    (hRun : (s.asked.run line).1 = .finished) (h : (s.enter line).ledger.hadRuntimeError) :
    ∃ earlier failing rest t what,
      Stopped s.asked line (s.enter line) earlier failing rest t what := by
  by_cases hFindings : findings line = []
  · have hNone : ¬ (s.asked.ledger.hadError ∨ findings line ≠ []) :=
      not_or.mpr ⟨nofun, not_not.mpr hFindings⟩
    rcases completed_or_stopped hNone (by rw [hRun]; nofun) with
      ⟨-, hDone | hStopped⟩ | ⟨why, hEnd, -⟩
    · have hMessages : (s.enter line).ledger.messages = [] := hDone.messages
      rw [((Ledger.messages_eq_nil_iff _).mp hMessages).2] at h
      cases h
    · exact hStopped
    · rw [hRun] at hEnd
      cases hEnd
  · have hEntries := s.asked.entries_ledger_parse line
    rw [Ledger.hadRuntimeError, enter_of_findings hFindings, hEntries, List.any_eq_true] at h
    obtain ⟨d, hd, hFailure⟩ := h
    rw [isMistake_findings d hd] at hFailure
    cases hFailure

/-! ## A whole prompt -/

/-- A prompt whose lines are given rounds enough runs the lines before the
first exit command, one by one and each with a clear ledger, reads none
behind it, and ends with status 0. The frames it starts from hold only what
can be shown, or at least no line comes to anything that cannot be written.

A line behind the exit command may be taken out. So may any line before it
that has a mistake: what programs print and the frames at the end stay the
same, and of the diagnostics its own are missing and no others. A line with
an error stops there, and the prompt goes on from what it left. The ledger
at the end is that of the last line, run at the start of a session in the
frames that the lines before it left. -/
theorem prompt_lines (s : Session) (lines : List String)
    (hEnough : (s.converse lines).ending ≠ .spent)
    (hTold : s.machine.scope.Showable ∨ ∀ why, (s.converse lines).ending ≠ .unwritable why) :
    (s.converse lines = ⟨.finished, (lines.dropWhile (· ≠ exitCommand)).tail,
        (s.enterAll (lines.takeWhile (· ≠ exitCommand))).write .prompted⟩ ∧
      ∀ look, (Command.perform s look lines .prompt).outcome = .exited 0) ∧
    (∀ earlier line later, lines = earlier ++ line :: later →
      (exitCommand ∈ earlier →
        (s.converse (earlier ++ later)).ending = .finished ∧
        (s.converse (earlier ++ later)).session = (s.converse lines).session) ∧
      (exitCommand ∉ earlier → line ≠ exitCommand →
        let before := s.enterAll earlier
        s.converse lines = (before.enter line).converse later ∧
        (findings line ≠ [] →
          Dispensable before line (s.converse lines) (s.converse (earlier ++ later))) ∧
        ((before.enter line).ledger.hadRuntimeError → ∃ done failing rest t what,
          Stopped before.asked line (before.enter line) done failing rest t what))) ∧
    (∀ earlier line, lines.takeWhile (· ≠ exitCommand) = earlier ++ [line] →
      (s.converse lines).session.ledger =
        ((⟨s.settings, { scope := (s.enterAll earlier).machine.scope }, .empty⟩ :
          Session).run line).2.ledger) := by
  have h := converse_finished hEnough hTold
  have hEnd := converse_eq h
  refine ⟨⟨hEnd, fun look => ?_⟩, ?_, ?_⟩
  · rw [Command.perform, hEnd]
    rfl
  · rintro earlier line later rfl
    refine ⟨fun hExit => ?_, fun hEarlier hLine => ?_⟩
    · obtain ⟨hEnding, hSession⟩ := converse_append_of_mem (s := s) hExit later (line :: later)
      exact ⟨hEnding.trans (by rw [hEnd]), hSession⟩
    · have hBefore := converse_append hEarlier h
      have hThere := h
      rw [hBefore] at hThere
      have hRun := asked_run_finished hLine hThere
      have hGoesOn : s.converse (earlier ++ line :: later) =
          ((s.enterAll earlier).enter line).converse later := by
        rw [hBefore, converse_cons hLine hRun]
      refine ⟨hGoesOn, fun hFindings => ?_, stopped_of_hadRuntimeError hRun⟩
      have hFinished : (s.converse (earlier ++ line :: later)).ending = .finished := by rw [hEnd]
      rw [hGoesOn] at hFinished ⊢
      rw [hBefore]
      exact dispensable_of_findings hFindings hFinished
  · intro earlier line hRead
    have hLast : s.enterAll (earlier ++ [line]) = (s.enterAll earlier).enter line :=
      List.foldl_append
    rw [hEnd, hRead, hLast, ← settings_enterAll s earlier]
    exact ledger_enter _ line

/-- A known mistake, a line with one, a line that fails, and lines that use
what was left. -/
theorem prompt_lines_both_errors :
    let s := ((start ⟨0, 0⟩).run ";").2
    let lines := ["var a;", "print ;", "a = 1; a = -nil;", "print a;", exitCommand, "print 2;"]
    (s.converse lines).ending ≠ .spent ∧ s.machine.scope.Showable ∧
      (s.converse lines).unread = ["print 2;"] ∧
      Event.output (s.converse lines).session.events = "1\n" ∧
      Dispensable (s.enterAll ["var a;"]) "print ;" (s.converse lines)
        (s.converse ["var a;", "a = 1; a = -nil;", "print a;", exitCommand, "print 2;"]) ∧
      (∃ done failing rest t what, Stopped (s.enterAll ["var a;", "print ;"]).asked
        "a = 1; a = -nil;" ((s.enterAll ["var a;", "print ;"]).enter "a = 1; a = -nil;")
        done failing rest t what) ∧
      (s.converse lines).session.ledger.messages = [] := by
  intro s lines
  have hEnough : (s.converse lines).ending ≠ .spent := by decide +kernel
  have hShowable : s.machine.scope.Showable := (writable_run (showable_start _) ";").scope
  have hMistaken : findings "print ;" ≠ [] := findings_ne_nil_iff.mpr (.inr (by decide +kernel))
  obtain ⟨-, hLines, -⟩ := prompt_lines s lines hEnough (.inl hShowable)
  refine ⟨hEnough, hShowable, by decide +kernel, by decide +kernel, ?_, ?_, by decide +kernel⟩
  · exact ((hLines ["var a;"] _ _ rfl).2 (by decide) (by decide)).2.1 hMistaken
  · exact ((hLines ["var a;", "print ;"] _ _ rfl).2 (by decide) (by decide)).2.2
      (by decide +kernel)

/-- The exit command, read as a text, has a mistake, and to take it out lets
the lines behind it run. Nor does any other line with a mistake go unmissed
where the marks before the lines, or the lines of the trace, share the
output with what programs print. -/
theorem mistaken_line_missed :
    (findings exitCommand ≠ [] ∧
      ((start ⟨0, 0⟩).converse [exitCommand, "print nil;"]).ending = .finished ∧
      Event.output ((start ⟨0, 0⟩).converse ["print nil;"]).session.events ≠
        Event.output ((start ⟨0, 0⟩).converse [exitCommand, "print nil;"]).session.events) ∧
    (findings ";" ≠ [] ∧
      Event.dialogue ((start ⟨0, 0⟩).converse []).session.events ≠
        Event.dialogue ((start ⟨0, 0⟩).converse [";"]).session.events ∧
      Event.outputAndTrace ((start ⟨4, 0⟩).converse []).session.events ≠
        Event.outputAndTrace ((start ⟨4, 0⟩).converse [";"]).session.events) := by
  refine ⟨⟨findings_ne_nil_iff.mpr (.inr ?_), ?_, ?_⟩, findings_ne_nil_iff.mpr (.inr ?_), ?_, ?_⟩
  · decide +kernel
  · decide +kernel
  · decide +kernel
  · decide +kernel
  · decide +kernel
  · decide +kernel

end Treewalk.Session
