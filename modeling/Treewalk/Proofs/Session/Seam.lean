import Treewalk.Proofs.Grammar.Relabel
import Treewalk.Proofs.Machine.Rounds
import Treewalk.Proofs.Scanner.Seam
import Treewalk.Proofs.Session.Account
import Treewalk.Proofs.Session.Showable

/-!
# A text in one piece or in two

Running two texts joined by a line end is running one after the other
(`run_joined`). No token and no comment reaches across the line end; what
was read of the first text takes nothing from the second, not even an
`else`; and the frames go from one to the other. The one thing that tells
the two ways apart is the line on which an error of the second text is
reported: there it is counted from the start of the whole.
-/

namespace Treewalk

/-! ## Reading the whole -/

/-- Tokens so many lines further down. -/
def lowering (n : Int) : Relabelling where
  apply := Token.lower n
  kind _ := rfl
  literal _ := rfl

theorem Stmt.toNodes_append (statements more : List Stmt) :
    Stmt.toNodes (statements ++ more) = Stmt.toNodes statements ++ Stmt.toNodes more := by
  induction statements with
  | nil => rfl
  | cons s rest ih => rw [List.cons_append, Stmt.toNodes, ih, Stmt.toNodes, List.cons_append]

namespace Session

/-- Two texts without mistakes have none together, and are read together as
one behind the other. -/
theorem statementsOf_joined {a b : String} (ha : ¬ Mistaken a) (hb : ¬ Mistaken b) :
    ¬ Mistaken (a ++ "\n" ++ b) ∧ statementsOf (a ++ "\n" ++ b) =
      statementsOf a ++ Stmt.mapAll (Token.lower (linesOf a)) (statementsOf b) := by
  obtain ⟨hScan, hNotes⟩ := not_mistaken_iff.mp ha
  obtain ⟨hScan', hNotes'⟩ := not_mistaken_iff.mp hb
  have hClosed := isUnclosed_eq_false hScan
  rw [tokens_scan] at hNotes hNotes'
  -- each part was read up to an end mark of its own, and the whole has one
  have hEnd : (Token.endMark (linesOf (a ++ "\n" ++ b))).kind = .eof := rfl
  have hRead := parse_append (lowering (linesOf a)) (bodyTokens_ne_eof a) (bodyTokens_ne_eof b)
    rfl rfl hEnd hNotes hNotes'
  have hTokens : (scan (a ++ "\n" ++ b)).tokens = bodyTokens a ++
      (bodyTokens b).map (lowering (linesOf a)).apply ++ [.endMark (linesOf (a ++ "\n" ++ b))] := by
    rw [tokens_scan, bodyTokens_seam hClosed]
    rfl
  rw [← hTokens, ← tokens_scan, ← tokens_scan] at hRead
  refine ⟨not_mistaken_iff.mpr ⟨?_, hRead.1⟩, hRead.2⟩
  rw [diagnostics_seam hClosed, hScan, hScan']
  rfl

end Session

/-! ## Running further down -/

/-- A halt so many lines further down. -/
def Halt.lower (n : Int) : Halt → Halt
  | .error t what => .error (t.lower n) what
  | halt => halt

theorem Halt.lower_ofMisuse (n : Int) (t : Token) (what : Misuse) :
    (Halt.ofMisuse t what).lower n = .ofMisuse (t.lower n) what := by
  rw [ofMisuse, ofMisuse]
  cases what.text? <;> rfl

/-- The second run is the first one, but for the line of an error. -/
def Run.LowerBy (n : Int) {α : Type} (run run' : Run α) : Prop :=
  ∀ m, run' m = ((run m).1.mapError (Halt.lower n), (run m).2)

namespace Run.LowerBy

variable {n : Int} {α β : Type}

theorem done (v : α) : LowerBy n (.done v) (.done v) :=
  fun _ => rfl

theorem halt (h : Halt) : LowerBy n (.halt h : Run α) (.halt (h.lower n)) :=
  fun _ => rfl

theorem bind {run run' : Run α} {next next' : α → Run β} (h : LowerBy n run run')
    (hNext : ∀ v, LowerBy n (next v) (next' v)) : LowerBy n (run >>= next) (run' >>= next') := by
  intro m
  have hRun' := h m
  cases hRun : run m with
  | mk ending later =>
    rw [hRun] at hRun'
    cases ending with
    | ok v =>
      rw [bind_of_ok hRun, bind_of_ok hRun']
      exact hNext v later
    | error halt =>
      rw [bind_of_error hRun, bind_of_error hRun']
      rfl

theorem withName (t : Token) {next next' : Name → Run β}
    (hNext : ∀ name, LowerBy n (next name) (next' name)) :
    LowerBy n (Run.nameOf t >>= next) (Run.nameOf (t.lower n) >>= next') := by
  refine bind (fun m => ?_) hNext
  show Run.nameOf t m = _
  unfold Run.nameOf
  cases Name.ofJson? t.lexeme <;> rfl

theorem ofResult (t : Token) (result : Except Misuse Value) :
    LowerBy n (.ofResult t result) (.ofResult (t.lower n) result) := by
  cases result with
  | ok v => exact done v
  | error what =>
    intro m
    show _ = (Except.error (Halt.lower n (.ofMisuse t what)), m)
    rw [Halt.lower_ofMisuse]
    rfl

theorem undefined (t : Token) : LowerBy n (.undefined t : Run α) (.undefined (t.lower n)) := by
  intro m
  show _ = (Except.error (Halt.lower n (.undefined t)), m)
  rw [Halt.undefined, Halt.lower_ofMisuse]
  rfl

theorem print (v : Value) : LowerBy n (.print v) (.print v) := by
  intro m
  unfold Run.print Run.writeLine
  rcases tellable_spelled v.text? with ⟨text | text, hText⟩ | hText <;> rw [hText] <;> rfl

/-- Without a trace nothing but the halt tells where a token stands. -/
theorem correspondence {σ : Settings} (h : σ.verbosity = 0) (contents : Contents) :
    Correspondence σ σ (.relabelled contents (Token.lower n)) (LowerBy n) where
  done := done
  bind := bind
  fault := False.elim
  print := print
  trace := by
    intro level line line' hLevel _ _ _
    have hQuiet : ¬ level ≤ σ.verbosity := by omega
    unfold Run.trace
    rw [if_neg hQuiet, if_neg hQuiet]
    exact done ()
  depth := fun _ => rfl
  lookup := by
    rintro t _ ⟨-, rfl⟩
    refine withName t fun name m => ?_
    split
    · rfl
    · exact undefined t m
  define v h := by
    obtain ⟨-, rfl⟩ := h
    exact withName _ fun name m => rfl
  assign := by
    rintro t _ v ⟨-, rfl⟩
    refine withName t fun name m => ?_
    split
    · rfl
    · exact undefined t m
  unary b h := by
    obtain ⟨-, rfl⟩ := h
    exact ofResult _ _
  binary a b h := by
    obtain ⟨-, rfl⟩ := h
    exact ofResult _ _
  inFrame h m := by
    rw [Run.inFrame, Run.inFrame, h]
  repeatWhile := by
    intro test test' body body' hTest hBody
    exact @Run.repeatWhile_corresponds (LowerBy n) done bind (halt .spent)
      test test' body body' hTest hBody σ.rounds 0
  kind h := by
    obtain ⟨-, rfl⟩ := h
    rfl
  same hLoud := absurd hLoud (by omega)

end Run.LowerBy

theorem mapError_lower_eq_spent {n : Int} {ending : Except Halt Unit} :
    ending.mapError (Halt.lower n) = .error .spent ↔ ending = .error .spent := by
  cases ending using Session.ending_cases with
  | done | failed | fault | misnomer | spent | unwritable => simp [Except.mapError, Halt.lower]

/-- Statements whose tokens stand further down end as they did, and an error
is found further down. -/
theorem settles_mapAll_iff {n : Int} {contents : Contents} {statements : List Stmt}
    (h : Stmt.AllSound contents statements) {m : Machine}
    {result : Except Halt Unit × Machine} :
    Settles 0 (Stmt.toNodes (Stmt.mapAll (Token.lower n) statements)) m result ↔
      ∃ earlier, Settles 0 (Stmt.toNodes statements) m earlier ∧
        result = (earlier.1.mapError (Halt.lower n), earlier.2) := by
  have hLower : ∀ rounds,
      visitAll ⟨0, rounds⟩ (Stmt.toNodes (Stmt.mapAll (Token.lower n) statements)) m =
        ((visitAll ⟨0, rounds⟩ (Stmt.toNodes statements) m).1.mapError (Halt.lower n),
          (visitAll ⟨0, rounds⟩ (Stmt.toNodes statements) m).2) := by
    intro rounds
    have c : Correspondence ⟨0, rounds⟩ ⟨0, rounds⟩ (.relabelled contents (Token.lower n))
      (Run.LowerBy n) := Run.LowerBy.correspondence rfl contents
    exact visitAll_corresponds c _ (Stmt.allAlike_mapAll statements h) m
  constructor
  · intro ⟨hEnd, rounds, hRun⟩
    rw [hLower] at hRun
    subst hRun
    exact ⟨_, ⟨mapError_lower_eq_spent.not.mp hEnd, rounds, rfl⟩, rfl⟩
  · intro ⟨earlier, ⟨hEnd, rounds, hRun⟩, hResult⟩
    subst hResult
    refine ⟨mapError_lower_eq_spent.not.mpr hEnd, rounds, ?_⟩
    rw [hLower, hRun]

/-! ## Sessions -/

namespace Session

/-- The session with another bound on the rounds of a loop. -/
def bounded (s : Session) (rounds : Nat) : Session :=
  { s with settings := ⟨s.settings.verbosity, rounds⟩ }

/-- With one bound for both, sessions are the same if all the rest is. -/
theorem bounded_eq_iff {s later : Session} {rounds : Nat} :
    later.bounded rounds = s.bounded rounds ↔ later.settings.verbosity = s.settings.verbosity ∧
      later.machine = s.machine ∧ later.ledger = s.ledger := by
  simp [bounded]

theorem bounded_reportAll (s : Session) (ds : List Diagnostic) (rounds : Nat) :
    (s.reportAll ds).bounded rounds = (s.bounded rounds).reportAll ds := by
  unfold reportAll
  induction ds generalizing s with
  | nil => rfl
  | cons d rest ih => exact ih (s.report d)

/-- With rounds enough, running a text ends in this way and leaves this
session. The bound on the rounds is no part of what is left. -/
def RunsTo (s : Session) (source : String) (ending : Ending) (later : Session) : Prop :=
  ending ≠ .spent ∧ ∃ rounds, (s.bounded rounds).run source = (ending, later.bounded rounds)

theorem trace_of_quiet {s : Session} (h : s.settings.verbosity = 0) {level : Nat}
    (hLevel : 0 < level) (line : String) : s.trace level line = s :=
  if_neg (by omega)

/-- What is left when a run has ended: the machine, and its failure
reported. -/
def settled (s : Session) (result : Except Halt Unit × Machine) : Session :=
  { s with machine := result.2 }.reportAll (failure 0 result.1)

/-- How a run of a source text ends. -/
def ended : Except Halt Unit → Ending
  | .error (.unwritable why) => .unwritable why
  | .error .spent => .spent
  | _ => .finished

theorem ended_eq_spent {ending : Except Halt Unit} :
    ended ending = .spent ↔ ending = .error .spent := by
  cases ending using ending_cases with
  | done | failed | fault | misnomer | spent | unwritable => simp [ended]

theorem ended_mapError (n : Int) (ending : Except Halt Unit) :
    ended (ending.mapError (Halt.lower n)) = ended ending := by
  cases ending using ending_cases with
  | done | failed | fault | misnomer | spent | unwritable => rfl

/-- Without a trace, concluding the run of a source text is reporting the
way it ended. -/
theorem conclude_bounded {s : Session} (h : s.settings.verbosity = 0) (rounds : Nat)
    {result : Except Halt Unit × Machine} (hLawful : ∀ halt, result.1 = .error halt → halt.Lawful) :
    (s.bounded rounds).conclude result = (ended result.1, (s.settled result).bounded rounds) := by
  obtain ⟨ending, m⟩ := result
  cases ending using ending_cases with
  | failed t what =>
    have hReported : reportable 0 t what := reportable_of_lawful (hLawful _ rfl) 0
    let walked : Session := { s with machine := m }
    have hQuiet : (walked.bounded rounds).settings.verbosity = 0 := h
    have hEnd : (walked.bounded rounds).concludeError t what =
        (.finished, (walked.bounded rounds).report (.failure t.line what.message)) := by
      rcases (walked.bounded rounds).concludeError_cases t what with
        ⟨-, told, hTold, hEnd⟩ | ⟨hFalse, -⟩
      · rcases hTold with rfl | ⟨line, rfl⟩
        · exact hEnd
        · rw [hEnd, trace_of_quiet hQuiet Nat.one_pos]
      · rw [hQuiet, hReported] at hFalse
        cases hFalse
    refine hEnd.trans ?_
    rw [settled, failure, if_pos hReported]
    rfl
  | fault | misnomer => exact (hLawful _ rfl).elim
  | done | spent | unwritable => rfl

/-- What a run leaves does not depend on the machine before it. -/
theorem settled_congr {s mid : Session} (h : mid.settings.verbosity = s.settings.verbosity)
    (hLedger : mid.ledger = s.ledger) (result : Except Halt Unit × Machine) :
    (mid.settled result).bounded 0 = (s.settled result).bounded 0 := by
  have hBefore : { mid with machine := result.2 }.bounded 0 =
      { s with machine := result.2 }.bounded 0 := bounded_eq_iff.mpr ⟨h, rfl, hLedger⟩
  rw [settled, settled, bounded_reportAll, bounded_reportAll, hBefore]

section

variable {s : Session} (hQuiet : s.settings.verbosity = 0) (hClear : s.ledger.hadError = false)
  {source : String} (hSource : ¬ Mistaken source)
include hQuiet hClear hSource

/-- A text without mistakes is run as its statements are. -/
theorem run_of_quiet :
    s.run source =
      s.conclude (visitAll s.settings (Stmt.toNodes (statementsOf source)) s.machine) := by
  have hAllowed : ¬ (s.ledger.hadError ∨ Mistaken source) := by
    rintro (h | h)
    · exact Bool.false_ne_true (hClear.symm.trans h)
    · exact hSource h
  have hOpened : s.opened (programOf source) = s.machine :=
    congrArg machine (trace_of_quiet hQuiet (by decide) _)
  have hParse : (s.parse source).2 = s :=
    congrArg Prod.snd (parse_eq_of_not_mistaken hQuiet hSource)
  rw [run_eq_conclude hAllowed, hParse, execution, hOpened, present_programOf]

/-- What a text leaves is settled by the way its statements end. -/
theorem runsTo_iff (ending : Ending) (later : Session) :
    s.RunsTo source ending later ↔
      ∃ result, Settles 0 (Stmt.toNodes (statementsOf source)) s.machine result ∧
        ending = ended result.1 ∧ later.bounded 0 = (s.settled result).bounded 0 := by
  have hRun : ∀ rounds, (s.bounded rounds).run source =
      (ended (visitAll ⟨0, rounds⟩ (Stmt.toNodes (statementsOf source)) s.machine).1,
        (s.settled (visitAll ⟨0, rounds⟩ (Stmt.toNodes (statementsOf source)) s.machine)).bounded
          rounds) := by
    intro rounds
    have hSettings : (s.bounded rounds).settings = ⟨0, rounds⟩ :=
      congrArg (Settings.mk · rounds) hQuiet
    rw [run_of_quiet (s := s.bounded rounds) hQuiet hClear hSource, hSettings]
    exact conclude_bounded hQuiet rounds (visitAll_lawful ⟨0, rounds⟩ source s.machine)
  -- rounds enough for the statements are enough for the text, and no others are
  constructor
  · rintro ⟨hEnough, rounds, hEnd⟩
    rw [hRun, Prod.mk.injEq] at hEnd
    obtain ⟨rfl, hLeft⟩ := hEnd
    exact ⟨_, ⟨ended_eq_spent.not.mp hEnough, rounds, rfl⟩, rfl,
      bounded_eq_iff.mpr (bounded_eq_iff.mp hLeft.symm)⟩
  · rintro ⟨result, ⟨hEnd, rounds, rfl⟩, rfl, hLater⟩
    refine ⟨ended_eq_spent.not.mpr hEnd, rounds, ?_⟩
    rw [hRun]
    exact Prod.ext rfl (bounded_eq_iff.mpr (bounded_eq_iff.mp hLater.symm))

end

/-! ## One piece or two -/

/-- What a whole text and its last part leave, if they differ in nothing but
the line of an error: it is reported so many lines further down. -/
structure Agree (lines : Int) (mid whole last : Session) : Prop where
  output : Event.output whole.events = Event.output last.events
  scope : whole.machine.scope = last.machine.scope
  hadError : whole.ledger.hadError = last.ledger.hadError
  hadRuntimeError : whole.ledger.hadRuntimeError = last.ledger.hadRuntimeError
  reports : ∃ ds, (ds = [] ∨ ∃ line what, ds = [.failure (.int line) what]) ∧
    Reports mid last ds ∧ Reports mid whole (ds.map (Diagnostic.lower lines))

/-- The first text was run and no error reported: the whole ends exactly if
the second text ends behind the first, in the same way, and they agree. -/
structure GoesOn (s mid : Session) (a b : String) : Prop where
  unreported : mid.ledger = s.ledger
  ends : ∀ ending, (∃ whole, s.RunsTo (a ++ "\n" ++ b) ending whole) ↔
    ∃ last, mid.RunsTo b ending last
  agree : ∀ ending ending' whole last, s.RunsTo (a ++ "\n" ++ b) ending whole →
    mid.RunsTo b ending' last → Agree (linesOf a) mid whole last

/-- The first text ended in an error, and the whole ends in just that. -/
structure BreaksOff (s mid : Session) (a b : String) : Prop where
  reported : ∃ line what, mid.ledger = s.ledger.add (.failure (.int line) what)
  same : ∀ ending later, s.RunsTo (a ++ "\n" ++ b) ending later ↔ s.RunsTo a ending later

theorem lawful_lower {halt : Halt} (h : halt.Lawful) (n : Int) : (halt.lower n).Lawful := by
  cases halt with
  | error t what =>
    obtain ⟨hText, line, hLine⟩ := h
    refine ⟨hText, line + n, ?_⟩
    rw [Token.lower, hLine]
    rfl
  | fault | misnomer | spent | unwritable => exact h

theorem failure_of_lawful {ending : Except Halt Unit}
    (h : ∀ halt, ending = .error halt → halt.Lawful) (n : Int) :
    (failure 0 ending = [] ∨ ∃ line what, failure 0 ending = [.failure (.int line) what]) ∧
      failure 0 (ending.mapError (Halt.lower n)) = (failure 0 ending).map (Diagnostic.lower n) := by
  cases ending using ending_cases with
  | failed t what =>
    have hLawful := h _ rfl
    have hReported := reportable_of_lawful hLawful 0
    have hReported' : reportable 0 (t.lower n) what = true :=
      reportable_of_lawful (lawful_lower hLawful n) 0
    have hEnd : (Except.error (.error t what) : Except Halt Unit).mapError (Halt.lower n) =
        .error (.error (t.lower n) what) := rfl
    obtain ⟨-, line, hLine⟩ := hLawful
    rw [hEnd, failure, failure, if_pos hReported, if_pos hReported']
    exact ⟨.inr ⟨line, what.message, by rw [hLine]⟩, rfl⟩
  | done | fault | misnomer | spent | unwritable => exact ⟨.inl rfl, rfl⟩

theorem reports_settled {s : Session} {result : Except Halt Unit × Machine}
    (h : Event.errors result.2.log.reverse = Event.errors s.events) :
    Reports s (s.settled result) (failure 0 result.1) := by
  have hWalked : Reports s { s with machine := result.2 } [] := .of_eq rfl h
  exact hWalked.trans (.reportAll _ _)

theorem output_settled (s : Session) (result : Except Halt Unit × Machine) :
    Event.output (s.settled result).events = Event.output result.2.log.reverse := by
  rw [settled, events_reportAll, Event.output_append, Event.output_ofDiagnostics,
    Text.append_empty]
  rfl

theorem scope_settled (s : Session) (result : Except Halt Unit × Machine) :
    (s.settled result).machine.scope = result.2.scope :=
  scope_reportAll _ _

/-- Whether there was an error of either kind depends on the kinds of the
diagnostics alone. -/
theorem Reports.flags_eq {s later last : Session} {ds es : List Diagnostic}
    (h : Reports s later ds) (k : Reports s last es)
    (hKinds : ds.map Diagnostic.isMistake = es.map Diagnostic.isMistake) :
    later.ledger.hadError = last.ledger.hadError ∧
      later.ledger.hadRuntimeError = last.ledger.hadRuntimeError := by
  have hAny : ∀ p : Bool → Bool, later.ledger.entries.any (p ∘ Diagnostic.isMistake) =
      last.ledger.entries.any (p ∘ Diagnostic.isMistake) := by
    intro p
    rw [h.entries, k.entries, List.any_append, List.any_append, ← List.any_map, ← List.any_map,
      hKinds, List.any_map, List.any_map]
  exact ⟨hAny id, hAny not⟩

/-- The same ending, found further down. -/
theorem agree_settled {mid : Session} {source : String} {result : Except Halt Unit × Machine}
    (h : Settles 0 (Stmt.toNodes (statementsOf source)) mid.machine result) (n : Int) :
    Agree n mid (mid.settled (result.1.mapError (Halt.lower n), result.2))
      (mid.settled result) := by
  obtain ⟨-, rounds, rfl⟩ := h
  have hErrors := errors_visitAll ⟨0, rounds⟩ (Stmt.toNodes (statementsOf source)) mid.machine
  have hLawful := visitAll_lawful ⟨0, rounds⟩ source mid.machine
  generalize visitAll ⟨0, rounds⟩ (Stmt.toNodes (statementsOf source)) mid.machine = result
    at hErrors hLawful
  have hLast : Reports mid _ _ := reports_settled hErrors
  have hWhole : Reports mid (mid.settled (result.1.mapError (Halt.lower n), result.2)) _ :=
    reports_settled hErrors
  obtain ⟨hFailure, hLower⟩ := failure_of_lawful hLawful n
  rw [hLower] at hWhole
  have hKinds : ((failure 0 result.1).map (Diagnostic.lower n)).map Diagnostic.isMistake =
      (failure 0 result.1).map Diagnostic.isMistake := by
    rw [List.map_map]
    refine List.map_congr_left fun d _ => ?_
    cases d <;> rfl
  obtain ⟨hError, hRuntimeError⟩ := hWhole.flags_eq hLast hKinds
  refine ⟨?_, ?_, hError, hRuntimeError, _, hFailure, hLast, hWhole⟩
  · rw [output_settled, output_settled]
  · rw [scope_settled, scope_settled]

theorem Reports.of_bounded_eq {s later later' : Session} {ds : List Diagnostic}
    (h : Reports s later' ds) (hBound : later.bounded 0 = later'.bounded 0) :
    Reports s later ds := by
  obtain ⟨-, hMachine, hLedger⟩ := bounded_eq_iff.mp hBound
  refine ⟨?_, ?_⟩
  · rw [hLedger, h.entries]
  · rw [events, hMachine]
    exact h.written

theorem Agree.of_bounded_eq {lines : Int} {mid whole whole' last last' : Session}
    (h : Agree lines mid whole' last') (hWhole : whole.bounded 0 = whole'.bounded 0)
    (hLast : last.bounded 0 = last'.bounded 0) : Agree lines mid whole last := by
  obtain ⟨-, hMachine, hLedger⟩ := bounded_eq_iff.mp hWhole
  obtain ⟨-, hMachine', hLedger'⟩ := bounded_eq_iff.mp hLast
  obtain ⟨ds, hFailure, hReports', hReports⟩ := h.reports
  refine ⟨?_, ?_, ?_, ?_, ds, hFailure, hReports'.of_bounded_eq hLast,
    hReports.of_bounded_eq hWhole⟩
  · rw [events, hMachine, events, hMachine']
    exact h.output
  · rw [hMachine, hMachine', h.scope]
  · rw [hLedger, hLedger', h.hadError]
  · rw [hLedger, hLedger', h.hadRuntimeError]

section

variable {s mid : Session} {a b : String} (hQuiet : s.settings.verbosity = 0)
  (hClear : s.ledger.hadError = false) (ha : ¬ Mistaken a) (hb : ¬ Mistaken b)
include hQuiet hClear ha hb

theorem runsTo_joined_iff {ending : Ending} {whole : Session} :
    s.RunsTo (a ++ "\n" ++ b) ending whole ↔ ∃ result,
      Settles 0 (Stmt.toNodes (statementsOf a) ++
        Stmt.toNodes (Stmt.mapAll (Token.lower (linesOf a)) (statementsOf b))) s.machine result ∧
      ending = ended result.1 ∧ whole.bounded 0 = (s.settled result).bounded 0 := by
  obtain ⟨hJoined, hStatements⟩ := statementsOf_joined ha hb
  rw [runsTo_iff hQuiet hClear hJoined, hStatements, Stmt.toNodes_append]

/-- A first text that halts is all that is run of the whole. -/
theorem runsTo_joined_of_error {halt : Halt} {m : Machine}
    (hFirst : Settles 0 (Stmt.toNodes (statementsOf a)) s.machine (.error halt, m))
    (ending : Ending) (later : Session) :
    s.RunsTo (a ++ "\n" ++ b) ending later ↔ s.RunsTo a ending later := by
  rw [runsTo_joined_iff hQuiet hClear ha hb, runsTo_iff hQuiet hClear ha]
  exact exists_congr fun result => and_congr_left fun _ => settles_append_of_error hFirst

theorem breaksOff_of_error {t : Token} {what : Misuse} {m : Machine}
    (hFirst : Settles 0 (Stmt.toNodes (statementsOf a)) s.machine (.error (.error t what), m))
    (hMid : mid.bounded 0 = (s.settled (.error (.error t what), m)).bounded 0) :
    BreaksOff s mid a b := by
  refine ⟨?_, runsTo_joined_of_error hQuiet hClear ha hb hFirst⟩
  obtain ⟨-, rounds, hEnd⟩ := hFirst
  have hLawful := visitAll_lawful ⟨0, rounds⟩ a s.machine _ (congrArg Prod.fst hEnd)
  have hReported := reportable_of_lawful hLawful 0
  obtain ⟨-, line, hLine⟩ := hLawful
  refine ⟨line, what.message, ?_⟩
  rw [(bounded_eq_iff.mp hMid).2.2, ← hLine, settled, failure, if_pos hReported]
  rfl

section

variable {m : Machine} (hFirst : Settles 0 (Stmt.toNodes (statementsOf a)) s.machine (.ok (), m))
  (hMid : mid.bounded 0 = (s.settled (.ok (), m)).bounded 0)
include hFirst hMid

/-- Behind a first text without an error the whole ends as the second text
does, further down. -/
theorem runsTo_joined_of_ok (ending : Ending) (whole : Session) :
    s.RunsTo (a ++ "\n" ++ b) ending whole ↔ ∃ result,
      Settles 0 (Stmt.toNodes (statementsOf b)) mid.machine result ∧ ending = ended result.1 ∧
        whole.bounded 0 =
          (mid.settled (result.1.mapError (Halt.lower (linesOf a)), result.2)).bounded 0 := by
  obtain ⟨hVerbosity, hMachine, hLedger⟩ := bounded_eq_iff.mp hMid
  have hSame : ∀ result, (mid.settled result).bounded 0 = (s.settled result).bounded 0 :=
    settled_congr hVerbosity hLedger
  have hSound := statementsOf_sound b (scan_ofSource b)
  rw [runsTo_joined_iff hQuiet hClear ha hb, hMachine]
  constructor
  · intro ⟨_, hBoth, hEnd, hLeft⟩
    have hSecond := (settles_append_of_ok hFirst).mp hBoth
    obtain ⟨result, hResult, rfl⟩ := (settles_mapAll_iff hSound).mp hSecond
    exact ⟨result, hResult, hEnd.trans (ended_mapError _ _), hLeft.trans (hSame _).symm⟩
  · intro ⟨result, hResult, hEnd, hLeft⟩
    have hSecond := (settles_mapAll_iff (n := linesOf a) hSound).mpr ⟨result, hResult, rfl⟩
    exact ⟨_, (settles_append_of_ok hFirst).mpr hSecond, hEnd.trans (ended_mapError _ _).symm,
      hLeft.trans (hSame _)⟩

theorem goesOn_of_ok : GoesOn s mid a b := by
  obtain ⟨hVerbosity, -, hLedger⟩ := bounded_eq_iff.mp hMid
  have hWhole := runsTo_joined_of_ok hQuiet hClear ha hb hFirst hMid
  have hLast := runsTo_iff (hVerbosity.trans hQuiet)
    ((congrArg Ledger.hadError hLedger).trans hClear) hb
  refine ⟨hLedger, fun ending => ?_, ?_⟩
  · constructor
    · intro ⟨whole, hRun⟩
      obtain ⟨result, hResult, hEnd, -⟩ := (hWhole ending whole).mp hRun
      exact ⟨_, (hLast ending _).mpr ⟨result, hResult, hEnd, rfl⟩⟩
    · intro ⟨last, hRun⟩
      obtain ⟨result, hResult, hEnd, -⟩ := (hLast ending last).mp hRun
      exact ⟨_, (hWhole ending _).mpr ⟨result, hResult, hEnd, rfl⟩⟩
  · intro ending ending' whole last hRun hRun'
    obtain ⟨result, hResult, -, hWhole⟩ := (hWhole ending whole).mp hRun
    obtain ⟨result', hResult', -, hLast⟩ := (hLast ending' last).mp hRun'
    -- the second text ends in one way, whether it was begun in the middle or not
    cases hResult.unique hResult'
    exact (agree_settled hResult (linesOf a)).of_bounded_eq hWhole hLast

end

end

/-- Two texts joined by a line end are run as one after the other: if the
first one ends without an error, the whole goes on as the second one does
behind it; if it ends in an error, so does the whole. It can also end where
a value that was in the frames before has no text that can be written, and
so does the whole. -/
theorem run_joined {s mid : Session} {a b : String} (hQuiet : s.settings.verbosity = 0)
    (hClear : s.ledger.hadError = false) (ha : ¬ Mistaken a) (hb : ¬ Mistaken b) {ending : Ending}
    (hRun : s.RunsTo a ending mid) :
    ending = .finished ∧ (GoesOn s mid a b ∨ BreaksOff s mid a b) ∨
      (¬ s.machine.scope.Showable ∧ ∃ why, ending = .unwritable why) ∧
        ∀ ending later, s.RunsTo (a ++ "\n" ++ b) ending later ↔ s.RunsTo a ending later := by
  have hShowable : s.machine.scope.Showable → ∀ why, ending ≠ .unwritable why := by
    obtain ⟨-, rounds, hEnd⟩ := hRun
    intro h why hWhy
    have hWritable := writable_run (s := s.bounded rounds) h a
    rw [hEnd] at hWritable
    exact hWritable.ending why hWhy
  obtain ⟨result, hFirst, rfl, hMid⟩ := (runsTo_iff hQuiet hClear ha ending mid).mp hRun
  obtain ⟨ending, m⟩ := result
  cases ending using ending_cases with
  | done => exact .inl ⟨rfl, .inl (goesOn_of_ok hQuiet hClear ha hb hFirst hMid)⟩
  | failed t what => exact .inl ⟨rfl, .inr (breaksOff_of_error hQuiet hClear ha hb hFirst hMid)⟩
  | spent => exact absurd rfl hFirst.1
  | fault | misnomer =>
    obtain ⟨-, rounds, hEnd⟩ := hFirst
    exact (visitAll_lawful _ a _ _ (congrArg Prod.fst hEnd)).elim
  | unwritable why =>
    exact .inr ⟨⟨fun h => hShowable h why rfl, why, rfl⟩,
      runsTo_joined_of_error hQuiet hClear ha hb hFirst⟩

theorem settings_run (s : Session) (source : String) :
    (s.run source).2.settings = s.settings := by
  have hKept : Motion fun s later => later.settings = s.settings :=
    { refl := fun _ => rfl
      trans := fun h k => k.trans h
      write := fun _ _ => rfl
      report := fun _ _ => rfl
      reset := fun _ => rfl
      walk := fun _ _ => rfl }
  exact hKept.run s source

theorem runsTo_of_finished {s : Session} {source : String}
    (h : (s.run source).1 = .finished) : s.RunsTo source .finished (s.run source).2 := by
  have hBound : ∀ later : Session, later.bounded later.settings.rounds = later := fun _ => rfl
  refine ⟨nofun, s.settings.rounds, Prod.ext ?_ ?_⟩
  · rw [hBound]
    exact h
  · rw [hBound, ← settings_run s source, hBound]

/-- An error in the second of two texts, and one in the first. -/
theorem run_joined_both_ways :
    (∃ mid, (start ⟨0, 1⟩).RunsTo "var x; //" .finished mid ∧
      GoesOn (start ⟨0, 1⟩) mid "var x; //" "print -x;") ∧
    (∃ mid, (start ⟨0, 1⟩).RunsTo "print -nil;" .finished mid ∧
      BreaksOff (start ⟨0, 1⟩) mid "print -nil;" "print 1;") := by
  have hDeclare : ¬ Mistaken "var x; //" := not_mistaken_iff.mpr (by decide +kernel)
  have hNegate : ¬ Mistaken "print -x;" := not_mistaken_iff.mpr (by decide +kernel)
  have hFail : ¬ Mistaken "print -nil;" := not_mistaken_iff.mpr (by decide +kernel)
  have hPrint : ¬ Mistaken "print 1;" := not_mistaken_iff.mpr (by decide +kernel)
  have hDeclared : (start ⟨0, 1⟩).RunsTo "var x; //" .finished _ :=
    runsTo_of_finished (by decide +kernel)
  have hFailed : (start ⟨0, 1⟩).RunsTo "print -nil;" .finished _ :=
    runsTo_of_finished (by decide +kernel)
  have hNone : ((start ⟨0, 1⟩).run "var x; //").2.ledger.entries.length = 0 := by
    decide +kernel
  have hOne : ((start ⟨0, 1⟩).run "print -nil;").2.ledger.entries.length = 1 := by
    decide +kernel
  refine ⟨⟨_, hDeclared, ?_⟩, ⟨_, hFailed, ?_⟩⟩
  · rcases run_joined rfl rfl hDeclare hNegate hDeclared with ⟨-, h | h⟩ | ⟨⟨-, why, h⟩, -⟩
    · exact h
    · obtain ⟨line, what, hLedger⟩ := h.reported
      rw [hLedger] at hNone
      cases hNone
    · cases h
  · rcases run_joined rfl rfl hFail hPrint hFailed with ⟨-, h | h⟩ | ⟨⟨-, why, h⟩, -⟩
    · rw [h.unreported] at hOne
      cases hOne
    · exact h
    · cases h

end Session

end Treewalk
