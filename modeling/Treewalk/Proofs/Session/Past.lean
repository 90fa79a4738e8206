import Treewalk.Proofs.Session.Steps

/-!
# What was written before

A program only adds to the log and never looks at it. So a run with some
events written before it is the run without them: it ends in the same way,
changes the same frames and writes the same, behind what was there
(`Run.Forgetful`). The same holds of all that a session does with a text,
and of a whole prompt (`Session.run_behind`, `Session.converse_behind`). A
session may therefore always be thought of as begun with an empty log
(`Session.drained_behind`).
-/

namespace Treewalk

/-- The machine with some events written before its own. -/
def Machine.behind (past : List Event) (m : Machine) : Machine :=
  { m with log := m.log ++ past }

/-- With some events written before, the run is the same and leaves them
there. -/
def Run.Forgetful (past : List Event) {α : Type} (run : Run α) : Prop :=
  ∀ m, run (m.behind past) = ((run m).1, (run m).2.behind past)

namespace Run.Forgetful

variable {past : List Event} {α β : Type}

theorem done (v : α) : Forgetful past (.done v) :=
  fun _ => rfl

theorem halt (stop : Halt) : Forgetful past (.halt stop : Run α) :=
  fun _ => rfl

theorem write (e : Event) : Forgetful past (.write e) :=
  fun _ => rfl

theorem writeLine {γ : Type} (event : γ → Event) (line : Except Halt γ) :
    Forgetful past (.writeLine event line) := by
  cases line with
  | ok line => exact write _
  | error stop => exact halt stop

theorem bind {run : Run α} {next : α → Run β} (h : Forgetful past run)
    (hNext : ∀ v, Forgetful past (next v)) : Forgetful past (run >>= next) := by
  intro m
  have hBehind := h m
  cases hRun : run m with
  | mk ending later =>
    rw [hRun] at hBehind
    cases ending with
    | ok v =>
      rw [bind_of_ok hRun, bind_of_ok hBehind]
      exact hNext v later
    | error stop => rw [bind_of_error hRun, bind_of_error hBehind]

theorem withName (t : Token) {next : Name → Run β} (hNext : ∀ name, Forgetful past (next name)) :
    Forgetful past (Run.nameOf t >>= next) := by
  refine bind ?_ hNext
  rw [Run.nameOf]
  cases Name.ofJson? t.lexeme with
  | none => exact halt _
  | some name => exact done name

theorem ofResult (t : Token) (result : Except Misuse Value) :
    Forgetful past (.ofResult t result) := by
  cases result with
  | ok v => exact done v
  | error what => exact halt _

theorem correspondence (σ : Settings) :
    Correspondence σ σ .same fun run _ => run.Forgetful past where
  done := done
  bind := bind
  fault _ := halt _
  print _ := writeLine _ _
  trace := by
    intro level line _ _ _ _ _
    unfold Run.trace
    split
    · exact writeLine _ (writable line)
    · exact done ()
  depth := fun _ => rfl
  lookup _ := by
    refine withName _ fun name m => ?_
    simp only [Machine.behind]
    split <;> rfl
  define _ _ := withName _ fun name m => rfl
  assign _ _ := by
    refine withName _ fun name m => ?_
    simp only [Machine.behind]
    split <;> rfl
  unary _ _ := ofResult _ _
  binary _ _ _ := ofResult _ _
  inFrame h m := by
    have hPushed := h { m with scope := m.scope.push }
    rw [Run.inFrame, Run.inFrame]
    exact congrArg (fun r : _ × Machine => (r.1, { r.2 with scope := r.2.scope.pop })) hPushed
  repeatWhile := by
    intro test test' body body' hTest hBody
    exact @Run.repeatWhile_corresponds (fun run _ => run.Forgetful past) done bind (halt _)
      test test' body body' hTest hBody σ.rounds 0
  kind := by
    rintro t _ rfl
    rfl
  same _ _ _ := id

end Run.Forgetful

theorem visitAll_forgetful (past : List Event) (σ : Settings) (ns : List Node) :
    (visitAll σ ns).Forgetful past :=
  visitAll_corresponds (Run.Forgetful.correspondence σ) ns (Node.allAlike_self ns)

/-! ## Sessions -/

namespace Session

/-- The session with some events written before its own. -/
def behind (past : List Event) (s : Session) : Session :=
  { s with machine := s.machine.behind past }

/-- A session is the one that forgot what was written, behind just that. -/
theorem drained_behind (s : Session) : s.drained.behind s.machine.log = s := rfl

theorem events_behind (past : List Event) (s : Session) :
    (s.behind past).events = past.reverse ++ s.events :=
  List.reverse_append

variable (past : List Event) (s : Session)

theorem trace_behind (level : Nat) (line : String) :
    (s.behind past).trace level line = (s.trace level line).behind past := by
  unfold trace
  by_cases h : level ≤ s.settings.verbosity
  · rw [if_pos h]
    exact if_pos h
  · rw [if_neg h]
    exact if_neg h

theorem reportAll_behind (ds : List Diagnostic) :
    (s.behind past).reportAll ds = (s.reportAll ds).behind past := by
  unfold reportAll
  induction ds generalizing s with
  | nil => rfl
  | cons d rest ih => exact ih (s.report d)

theorem parse_behind (source : String) :
    (s.behind past).parse source = ((s.parse source).1, (s.parse source).2.behind past) := by
  simp only [parse, reportAll_behind, trace_behind]

theorem concludeError_behind (t : Token) (what : Misuse) :
    (s.behind past).concludeError t what =
      ((s.concludeError t what).1, (s.concludeError t what).2.behind past) := by
  match hLine : failureLine t what with
  | none => rw [concludeError_of_none _ hLine, concludeError_of_none _ hLine]
  | some (.whole line) =>
    rw [concludeError_of_whole _ hLine, concludeError_of_whole _ hLine, trace_behind]
    rfl
  | some (.torn line) =>
    have hSettings : (s.behind past).settings = s.settings := rfl
    rw [concludeError_of_torn _ hLine, concludeError_of_torn _ hLine, hSettings]
    split <;> rfl

theorem conclude_behind (ending : Except Halt Unit) (m : Machine) :
    (s.behind past).conclude (ending, m.behind past) =
      ((s.conclude (ending, m)).1, (s.conclude (ending, m)).2.behind past) := by
  have hWith : { s.behind past with machine := m.behind past } =
      { s with machine := m }.behind past := rfl
  cases ending using ending_cases with
  | failed t what =>
    simp only [conclude]
    rw [hWith, concludeError_behind]
  | done | fault | misnomer | spent | unwritable => rfl

theorem execution_behind (program : List Node) :
    (s.behind past).execution program =
      ((s.execution program).1, (s.execution program).2.behind past) := by
  have hOpened : (s.behind past).opened program = (s.opened program).behind past :=
    congrArg machine (s.trace_behind past 1 _)
  rw [execution, hOpened]
  exact visitAll_forgetful past s.settings (present program) (s.opened program)

theorem interpret_behind (program : List Node) :
    (s.behind past).interpret program =
      ((s.interpret program).1, (s.interpret program).2.behind past) := by
  rw [interpret_eq, interpret_eq, execution_behind, conclude_behind]

/-- Running a text is the same whatever was written before. -/
theorem run_behind (source : String) :
    (s.behind past).run source = ((s.run source).1, (s.run source).2.behind past) := by
  simp only [run, parse_behind]
  change (if (s.parse source).2.ledger.hadError then _ else _) = _
  split
  · rfl
  · exact (s.parse source).2.interpret_behind past _

/-- So is holding a prompt. -/
theorem converse_behind (lines : List String) :
    (s.behind past).converse lines =
      { s.converse lines with session := (s.converse lines).session.behind past } := by
  induction lines generalizing s with
  | nil => rfl
  | cons line rest ih =>
    have hRun : ((s.behind past).write .prompted).reset.run line = _ :=
      (s.write .prompted).reset.run_behind past line
    rw [converse, converse]
    split
    · rfl
    · rw [hRun]
      cases hEnd : (s.write .prompted).reset.run line with
      | mk ending later =>
        cases ending with
        | finished => exact ih later
        | fault | misnomer | spent | unwritable => rfl

end Session

end Treewalk
