import Treewalk.Proofs.Machine.Correspondence
import Treewalk.Proofs.Scope.Names
import Treewalk.Proofs.Session.Safety
import Treewalk.Tree.Codec

/-!
# Steps of a session

A session is used step by step: texts are run, only read, or run whatever
mistakes they have; trees are loaded from JSON and run; a prompt is held;
the ledger is cleared. A step may end in a fault or find nothing to load;
the session goes on from what the step left.

What every step does to the session is put together from a few things
(`Session.Motion`), so a relation between sessions that these keep holds
from the start of a history to its end (`after_moves`). The frames are the
first case: a statement leaves the chain of frames as it found it, however
it ends, but for new names in the innermost frame, and a block leaves even
these alone. Hence between two steps the only frame is the global one, and
it never loses a name (`frames_restored`).
-/

namespace Treewalk

/-! ## Frames -/

/-- Whatever a program does, its scope extends the one it began in. -/
theorem Scope.Extends.motion : Motion fun m later => m.scope.Extends later.scope where
  refl m := .refl m.scope
  trans := .trans
  print m _ := .refl m.scope
  trace m _ := .refl m.scope
  define m name v := .define m.scope name v
  assign h := .of_names_eq (Scope.names_assign? h)
  inFrame h := .of_names_eq h.names_pop

/-- A block binds no name in the frames it was begun in. -/
theorem names_visit_block (settings : Settings) (statements : List Node) (m : Machine) :
    (visit settings (.block statements) m).2.scope.names = m.scope.names := by
  have hInside := visitAll_moves Scope.Extends.motion settings statements
    { m with scope := m.scope.push }
  have hFrame : (Run.inFrame (visitAll settings statements) m).2.scope.names = m.scope.names :=
    hInside.names_pop
  rw [visit]
  cases hEnd : Run.inFrame (visitAll settings statements) m with
  | mk ending later =>
    rw [hEnd] at hFrame
    cases ending with
    | ok v =>
      rw [Run.bind_of_ok hEnd]
      exact hFrame
    | error halt =>
      rw [Run.bind_of_error hEnd]
      exact hFrame

/-! ## Steps -/

namespace Session

/-- One use of a session. -/
inductive Step where
  /-- Run a text, unless a mistake is known. -/
  | run (source : String)
  /-- Only read a text. -/
  | parse (source : String)
  /-- Run what can be read of a text, mistakes or not. -/
  | interpret (source : String)
  /-- Run the program that JSON data stands for. -/
  | load (data : Json)
  /-- Hold a prompt with the given lines to read. -/
  | prompt (lines : List String)
  /-- Clear the ledger. -/
  | reset

/-- A step: how it ended, or why there was nothing to run, and the session
it left. -/
def perform (s : Session) : Step → Except LoadError Ending × Session
  | .run source => (.ok (s.run source).1, (s.run source).2)
  | .parse source => (.ok .finished, (s.parse source).2)
  | .interpret source =>
    let (entries, s) := s.parse source
    let (ending, s) := s.interpret (entries.map Stmt.toNode?)
    (.ok ending, s)
  | .load data =>
    match Node.programOfJson data with
    | .ok program => (.ok (s.interpret program).1, (s.interpret program).2)
    | .error e => (.error e, s)
  | .prompt lines => (.ok (s.converse lines).ending, (s.converse lines).session)
  | .reset => (.ok .finished, s.reset)

/-- The session behind some steps, whatever became of each. -/
def after (s : Session) (steps : List Step) : Session :=
  steps.foldl (fun s step => (s.perform step).2) s

theorem after_append (s : Session) (steps more : List Step) :
    s.after (steps ++ more) = (s.after steps).after more :=
  List.foldl_append

/-! ## What a step is made of -/

/-- The machine on which the first statement of a program is run. -/
def opened (s : Session) (program : List Node) : Machine :=
  (s.trace 1 ("interpret " ++ toString program.length ++ " statement(s)")).machine

/-- The run of a program in a session, before its ending is looked at. -/
def execution (s : Session) (program : List Node) : Except Halt Unit × Machine :=
  visitAll s.settings (present program) (s.opened program)

/-- What a session makes of the error that ended a run. -/
def concludeError (s : Session) (t : Token) (what : Misuse) : Ending × Session :=
  match s.fail t what with
  | .ok later => (.finished, later)
  | .error why => (.unwritable why, s)

/-- What a session makes of the way a run ended. -/
def conclude (s : Session) : Except Halt Unit × Machine → Ending × Session
  | (.ok _, m) => (.finished, { s with machine := m })
  | (.error (.error t what), m) => { s with machine := m }.concludeError t what
  | (.error .fault, m) => (.fault, { s with machine := m })
  | (.error .misnomer, m) => (.misnomer, { s with machine := m })
  | (.error .spent, m) => (.spent, { s with machine := m })
  | (.error (.unwritable why), m) => (.unwritable why, { s with machine := m })

/-- The ways in which a program can end. -/
theorem ending_cases {motive : Except Halt Unit → Prop} (done : motive (.ok ()))
    (failed : ∀ t what, motive (.error (.error t what))) (fault : motive (.error .fault))
    (misnomer : motive (.error .misnomer)) (spent : motive (.error .spent))
    (unwritable : ∀ why, motive (.error (.unwritable why)))
    (ending : Except Halt Unit) : motive ending := by
  cases ending with
  | ok => exact done
  | error halt =>
    cases halt with
    | error t what => exact failed t what
    | fault => exact fault
    | misnomer => exact misnomer
    | spent => exact spent
    | unwritable why => exact unwritable why

section

variable (s : Session) {t : Token} {what : Misuse}

theorem concludeError_of_none (h : failureLine t what = none) :
    s.concludeError t what = (.unwritable .longInteger, s) := by
  rw [concludeError, fail, h]

theorem concludeError_of_whole {line : String} (h : failureLine t what = some (.whole line)) :
    s.concludeError t what =
      (.finished, (s.trace 1 line).report (.failure t.line what.message)) := by
  rw [concludeError, fail, h]

/-- An error whose text has a half in it is reported where it is not traced. -/
theorem concludeError_of_torn {line : Torn} (h : failureLine t what = some (.torn line)) :
    s.concludeError t what = if 1 ≤ s.settings.verbosity then (.unwritable .half, s)
      else (.finished, s.report (.failure t.line what.message)) := by
  rw [concludeError, fail, h]
  by_cases hLoud : 1 ≤ s.settings.verbosity
  · simp only [if_pos hLoud]
  · simp only [if_neg hLoud]

/-- Whether the error that ended a run is reported: it has a text, and a
whole one where it is traced. -/
def reportable (verbosity : Nat) (t : Token) (what : Misuse) : Bool :=
  match failureLine t what with
  | none => false
  | some (.whole _) => true
  | some (.torn _) => verbosity == 0

/-- What becomes of the error that ended a run: it is reported, with a line
of the trace before it or not, or else nothing is written. -/
theorem concludeError_cases (t : Token) (what : Misuse) :
    (reportable s.settings.verbosity t what = true ∧
      ∃ told, (told = s ∨ ∃ line, told = s.trace 1 line) ∧
        s.concludeError t what = (.finished, told.report (.failure t.line what.message))) ∨
    (reportable s.settings.verbosity t what = false ∧
      ∃ why, s.concludeError t what = (.unwritable why, s)) := by
  unfold reportable
  match hLine : failureLine t what with
  | none => exact .inr ⟨rfl, _, s.concludeError_of_none hLine⟩
  | some (.whole line) => exact .inl ⟨rfl, _, .inr ⟨line, rfl⟩, s.concludeError_of_whole hLine⟩
  | some (.torn line) =>
    rw [s.concludeError_of_torn hLine]
    by_cases hLoud : 1 ≤ s.settings.verbosity
    · rw [if_pos hLoud]
      exact .inr ⟨beq_false_of_ne (by omega), _, rfl⟩
    · rw [if_neg hLoud]
      exact .inl ⟨beq_iff_eq.mpr (by omega), s, .inl rfl, rfl⟩

theorem concludeError_finished {s : Session} {t : Token} {what : Misuse}
    (h : reportable s.settings.verbosity t what) : (s.concludeError t what).1 = .finished := by
  rcases s.concludeError_cases t what with ⟨-, told, -, hEnd⟩ | ⟨hFalse, -⟩
  · rw [hEnd]
  · rw [h] at hFalse
    cases hFalse

end

theorem interpret_eq (s : Session) (program : List Node) :
    s.interpret program = s.conclude (s.execution program) := by
  simp only [interpret, execution, opened, settings_trace, ledger_trace]
  generalize visitAll _ (present program) _ = result
  obtain ⟨ending, m⟩ := result
  cases ending using ending_cases with
  | failed t what =>
    cases hTold : { s with machine := m }.fail t what <;>
      simp only [conclude, concludeError, hTold]
  | done | fault | misnomer | spent | unwritable => rfl

/-- A relation between sessions that is kept by everything a step does. -/
structure Motion (K : Session → Session → Prop) : Prop where
  refl (s : Session) : K s s
  trans {s later last : Session} : K s later → K later last → K s last
  write (s : Session) (e : Event) : K s (s.write e)
  report (s : Session) (d : Diagnostic) : K s (s.report d)
  reset (s : Session) : K s s.reset
  walk (s : Session) (ns : List Node) :
    K s { s with machine := (visitAll s.settings ns s.machine).2 }

namespace Motion

variable {K : Session → Session → Prop}

theorem trace (h : Motion K) (s : Session) (level : Nat) (line : String) :
    K s (s.trace level line) := by
  unfold Session.trace
  split
  · exact h.write s _
  · exact h.refl s

theorem reportAll (h : Motion K) (s : Session) (ds : List Diagnostic) : K s (s.reportAll ds) := by
  induction ds generalizing s with
  | nil => exact h.refl s
  | cons d rest ih => exact h.trans (h.report s d) (ih (s.report d))

theorem parse (h : Motion K) (s : Session) (source : String) : K s (s.parse source).2 :=
  h.trans (h.reportAll s _) <| h.trans (h.trace _ _ _) <| h.trans (h.reportAll _ _) (h.trace _ _ _)

theorem concludeError (h : Motion K) (s : Session) (t : Token) (what : Misuse) :
    K s (s.concludeError t what).2 := by
  rcases s.concludeError_cases t what with ⟨-, told, hTold, hEnd⟩ | ⟨-, why, hEnd⟩
  · rw [hEnd]
    rcases hTold with rfl | ⟨line, rfl⟩
    · exact h.report _ _
    · exact h.trans (h.trace s 1 line) (h.report _ _)
  · rw [hEnd]
    exact h.refl s

theorem interpret (h : Motion K) (s : Session) (program : List Node) :
    K s (s.interpret program).2 := by
  have hBegun := h.trace s 1 ("interpret " ++ toString program.length ++ " statement(s)")
  have hWalked := h.trans hBegun (h.walk _ (present program))
  rw [settings_trace, ledger_trace] at hWalked
  rw [interpret_eq, execution, opened]
  generalize visitAll s.settings (present program) _ = result at hWalked ⊢
  obtain ⟨ending, m⟩ := result
  cases ending using ending_cases with
  | failed t what => exact h.trans hWalked (h.concludeError _ t what)
  | done | fault | misnomer | spent | unwritable => exact hWalked

theorem run (h : Motion K) (s : Session) (source : String) : K s (s.run source).2 := by
  have hParsed := h.parse s source
  simp only [Session.run]
  split
  · exact hParsed
  · exact h.trans hParsed (h.interpret _ _)

theorem converse (h : Motion K) (s : Session) (lines : List String) :
    K s (s.converse lines).session := by
  induction lines generalizing s with
  | nil => exact h.write s _
  | cons line rest ih =>
    have hRun := h.trans (h.write s .prompted) (h.trans (h.reset _) (h.run _ line))
    rw [Session.converse]
    split
    · exact h.write s _
    · split
      · next hEnd =>
        rw [hEnd] at hRun
        exact h.trans hRun (ih _)
      · next hEnd =>
        rw [hEnd] at hRun
        exact hRun

theorem perform (h : Motion K) (s : Session) (step : Step) : K s (s.perform step).2 := by
  cases step with
  | run source => exact h.run s source
  | parse source => exact h.parse s source
  | interpret source => exact h.trans (h.parse s source) (h.interpret _ _)
  | load data =>
    rw [Session.perform]
    split
    · exact h.interpret s _
    · exact h.refl s
  | prompt lines => exact h.converse s lines
  | reset => exact h.reset s

end Motion

/-- What every step keeps is kept from the first step to the last. -/
theorem after_moves {K : Session → Session → Prop} (h : Motion K) (s : Session)
    (steps : List Step) : K s (s.after steps) := by
  induction steps generalizing s with
  | nil => exact h.refl s
  | cons step rest ih => exact h.trans (h.perform s step) (ih (s.perform step).2)

theorem Extends.motion : Motion fun s later => s.machine.scope.Extends later.machine.scope where
  refl s := .refl s.machine.scope
  trans := .trans
  write s _ := .refl s.machine.scope
  report s _ := .refl s.machine.scope
  reset s := .refl s.machine.scope
  walk s ns := visitAll_moves Scope.Extends.motion s.settings ns s.machine

theorem start_extends (settings : Settings) (steps : List Step) :
    (start settings).machine.scope.Extends ((start settings).after steps).machine.scope :=
  after_moves Extends.motion (start settings) steps

/-- A session that extends another and has no frame but the global one
holds on to the other's names. -/
theorem globals_prefix {s later : Scope} (h : s.Extends later) (hs : s.depth = 0) :
    s.globals.names <+: later.globals.names := by
  have hLater : later.depth = 0 := h.depth_eq.trans hs
  obtain ⟨current, fresh, outer, hNames, hNames'⟩ := h
  rw [Scope.names, Scope.frames, List.length_eq_zero_iff.mp hs] at hNames
  rw [Scope.names, Scope.frames, List.length_eq_zero_iff.mp hLater] at hNames'
  rw [← (List.cons.inj hNames).1] at hNames'
  exact ⟨fresh, (List.cons.inj hNames').1.symm⟩

/-- However a node ends, well-formed or not, the frames behind it are those
before it: each has its names, and none but the current one has a new name.
A block brings no frame a new name. So whatever steps a session takes, and
however each of them ends, the current frame between two steps is the
global one, and it keeps its names for good. -/
theorem frames_restored (settings : Settings) :
    (∀ (n : Node) (m : Machine), ∃ current fresh outer, m.scope.names = current :: outer ∧
      (visit settings n m).2.scope.names = (current ++ fresh) :: outer) ∧
    (∀ (statements : List Node) (m : Machine),
      (visit settings (.block statements) m).2.scope.names = m.scope.names) ∧
    (∀ steps more : List Step,
      ((start settings).after steps).machine.scope.depth = 0 ∧
      ((start settings).after steps).machine.scope.globals.names <+:
        ((start settings).after (steps ++ more)).machine.scope.globals.names) := by
  refine ⟨fun n m => visit_moves Scope.Extends.motion settings n m,
    names_visit_block settings, fun steps more => ?_⟩
  have hDepth : ((start settings).after steps).machine.scope.depth = 0 :=
    (start_extends settings steps).depth_eq
  refine ⟨hDepth, ?_⟩
  rw [after_append]
  exact globals_prefix (after_moves Extends.motion _ more) hDepth

end Session

end Treewalk
