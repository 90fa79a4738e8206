import Mathlib.Data.List.Flatten
import Mathlib.Data.List.Induction
import Treewalk.Proofs.Tree.Codec
import Treewalk.Proofs.Session.Showable

/-!
# What tracing changes

Two sessions that differ in their verbosity take the same steps. As long
as the louder one can write its lines they print and report the same, keep
the same ledger and the same frames, and each step ends in both in the same
way; what the quieter one traces is part of what the other one does. The
one thing that can come between them is a line of the trace that has no
text or cannot be written. It ends the step of the louder session, which
by then has written, besides its trace, the beginning of what the quieter
one writes. That happens only where a tree was loaded that holds half of a
surrogate pair or an integer of too many digits (`tracing_unobserved`).

The two sessions are followed side by side. Their logs differ in lines of
the trace alone (`Event.Thinned`), and all else about them is equal
(`Machine.Quieter`, `Session.Quieter`), until the first one may be ahead
(`Machine.Ahead`). Every run keeps this up (`Run.Quieter`), also that of a
malformed tree: where the line of a node is looked for in vain, the run
has halted before.
-/

namespace Treewalk

/-! ## What was written -/

namespace Event

/-- Whether an event is more than a line of the trace. -/
def untraced : Event → Bool
  | .traced _ => false
  | _ => true

/-- The lines of the trace. -/
def tracedLines (events : List Event) : List String :=
  events.filterMap fun
    | .traced line => some line
    | _ => none

/-- The trace is its lines, each with its end. -/
theorem trace_eq_join (events : List Event) :
    trace events = String.join ((tracedLines events).map (· ++ "\n")) := by
  rw [trace]
  induction events with
  | nil => rfl
  | cons e rest ih =>
    rw [List.map_cons, String.join_cons, ih]
    cases e with
    | traced line => exact String.join_cons.symm
    | _ => exact String.empty_append

/-- The same events, but for lines of the trace that are only in the second
list. -/
structure Thinned (events fuller : List Event) : Prop where
  sublist : events.Sublist fuller
  untraced_eq : events.filter untraced = fuller.filter untraced

namespace Thinned

variable {events fuller : List Event}

theorem refl (events : List Event) : Thinned events events :=
  ⟨List.Sublist.refl events, rfl⟩

theorem both (h : Thinned events fuller) (e : Event) : Thinned (e :: events) (e :: fuller) := by
  refine ⟨h.sublist.cons_cons e, ?_⟩
  rw [List.filter_cons, List.filter_cons, h.untraced_eq]

theorem more (h : Thinned events fuller) (line : String) :
    Thinned events (.traced line :: fuller) :=
  ⟨h.sublist.cons _, h.untraced_eq⟩

theorem reverse (h : Thinned events fuller) : Thinned events.reverse fuller.reverse := by
  refine ⟨h.sublist.reverse, ?_⟩
  rw [List.filter_reverse, List.filter_reverse, h.untraced_eq]

/-- What is told event by event is the same if the trace adds nothing to
it. -/
theorem told_eq (h : Thinned events fuller) {β : Type} {told : List Event → β}
    (hSkip : ∀ line rest, told (.traced line :: rest) = told rest)
    (hNext : ∀ e rest rest', told rest = told rest' → told (e :: rest) = told (e :: rest')) :
    told events = told fuller := by
  have hUntraced : ∀ events : List Event, told events = told (events.filter untraced) := by
    intro events
    induction events with
    | nil => rfl
    | cons e rest ih =>
      cases e with
      | traced line => rw [hSkip, ih, List.filter_cons_of_neg (by simp [untraced])]
      | _ =>
        rw [List.filter_cons_of_pos rfl]
        exact hNext _ _ _ ih
  rw [hUntraced events, h.untraced_eq, ← hUntraced fuller]

theorem output_eq (h : Thinned events fuller) : output events = output fuller :=
  h.told_eq (fun _ _ => Text.empty_append _) fun _ _ _ => congrArg (_ ++ ·)

theorem errors_eq (h : Thinned events fuller) : errors events = errors fuller := by
  refine h.told_eq (fun line rest => ?_) fun e rest rest' hRest => ?_
  · exact String.join_cons.trans String.empty_append
  · exact String.join_cons.trans ((congrArg (_ ++ ·) hRest).trans String.join_cons.symm)

theorem dialogue_eq (h : Thinned events fuller) : dialogue events = dialogue fuller :=
  h.told_eq (fun _ _ => Text.empty_append _) fun _ _ _ => congrArg (_ ++ ·)

theorem tracedLines_sublist (h : Thinned events fuller) :
    (tracedLines events).Sublist (tracedLines fuller) :=
  h.sublist.filterMap _

theorem trace_sublist (h : Thinned events fuller) :
    (trace events).toList.Sublist (trace fuller).toList := by
  rw [trace_eq_join, trace_eq_join, String.toList_join, String.toList_join, List.flatMap_def,
    List.flatMap_def]
  exact ((h.tracedLines_sublist.map _).map _).flatten

end Thinned

end Event

/-! ## Side by side -/

/-- Two results side by side: the same one in states that are alike, or
the second one cut short when the first is already ahead. -/
inductive Abreast {ρ σ : Type} (short : ρ → Prop) (alike ahead : σ → σ → Prop) :
    ρ × σ → ρ × σ → Prop
  | together (result : ρ) {s s' : σ} (h : alike s s') :
    Abreast short alike ahead (result, s) (result, s')
  | cut (result : ρ) {result' : ρ} {s s' : σ} (hShort : short result') (h : ahead s s') :
    Abreast short alike ahead (result, s) (result', s')

/-- What is made of the results may be compared instead. -/
theorem Abreast.map {ρ ρ' σ : Type} {short : ρ → Prop} {short' : ρ' → Prop}
    {alike ahead : σ → σ → Prop} (f : ρ → ρ') (hShort : ∀ r, short r → short' (f r))
    {a b : ρ × σ} (h : Abreast short alike ahead a b) :
    Abreast short' alike ahead (f a.1, a.2) (f b.1, b.2) := by
  cases h with
  | together result h => exact .together (f result) h
  | cut result hResult h => exact .cut (f result) (hShort _ hResult) h

/-! ## Runs -/

/-- The machines are the same, but for lines of the trace that only the
second one wrote. -/
structure Machine.Quieter (m m' : Machine) : Prop where
  scope : m.scope = m'.scope
  log : Event.Thinned m.log m'.log

/-- At some time the first machine had written, but for lines of the trace,
what the second one has. -/
def Machine.Ahead (m m' : Machine) : Prop :=
  ∃ earlier, earlier <:+ m.log ∧ Event.Thinned earlier m'.log

theorem Machine.Quieter.ahead {m m' : Machine} (h : m.Quieter m') : m.Ahead m' :=
  ⟨m.log, List.suffix_refl _, h.log⟩

theorem Machine.Ahead.later {m m' later : Machine} (h : m.Ahead m') (hLater : m.log <:+ later.log) :
    later.Ahead m' := by
  obtain ⟨earlier, hEarlier, hLog⟩ := h
  exact ⟨earlier, hEarlier.trans hLater, hLog⟩

/-- Whatever a program does, it only adds to what was written. -/
theorem Machine.grows : Motion fun m later => m.log <:+ later.log where
  refl m := List.suffix_refl m.log
  trans := List.IsSuffix.trans
  print m _ := List.suffix_cons _ m.log
  trace m _ := List.suffix_cons _ m.log
  define m _ _ := List.suffix_refl m.log
  assign _ := List.suffix_refl _
  inFrame := id

/-- Whether a run was halted for want of a text. -/
def Halt.Short {α : Type} (ending : Except Halt α) : Prop :=
  ∃ why, ending = .error (.unwritable why)

/-- On machines that are alike the runs keep abreast, and the first one
only adds to what was written. -/
structure Run.Quieter {α : Type} (run run' : Run α) : Prop where
  grows (m : Machine) : m.log <:+ (run m).2.log
  abreast {m m' : Machine} :
    m.Quieter m' → Abreast Halt.Short Machine.Quieter Machine.Ahead (run m) (run' m')

namespace Run.Quieter

variable {α β : Type}

theorem bind {run run' : Run α} {next next' : α → Run β} (h : Quieter run run')
    (hNext : ∀ v, Quieter (next v) (next' v)) : Quieter (run >>= next) (run' >>= next') := by
  refine ⟨Machine.grows.bind h.grows fun v => (hNext v).grows, fun {m m'} hm => ?_⟩
  have hBoth := h.abreast hm
  generalize hRun : run m = result at hBoth
  generalize hRun' : run' m' = result' at hBoth
  cases hBoth with
  | @together ending later later' hLater =>
    cases ending with
    | ok v =>
      rw [bind_of_ok hRun, bind_of_ok hRun']
      exact (hNext v).abreast hLater
    | error halt =>
      rw [bind_of_error hRun, bind_of_error hRun']
      exact .together _ hLater
  | @cut ending ending' later later' hShort hAhead =>
    obtain ⟨why, rfl⟩ := hShort
    rw [bind_of_error hRun']
    -- the first run goes on alone
    cases ending with
    | ok v =>
      rw [bind_of_ok hRun]
      exact .cut _ ⟨why, rfl⟩ (hAhead.later ((hNext v).grows later))
    | error halt =>
      rw [bind_of_error hRun]
      exact .cut _ ⟨why, rfl⟩ hAhead

theorem done (v : α) : Quieter (.done v) (.done v) :=
  ⟨fun _ => List.suffix_refl _, fun h => .together _ h⟩

theorem halt (stop : Halt) : Quieter (.halt stop : Run α) (.halt stop) :=
  ⟨fun _ => List.suffix_refl _, fun h => .together _ h⟩

theorem write (e : Event) : Quieter (.write e) (.write e) :=
  ⟨fun _ => List.suffix_cons _ _, fun h => .together _ ⟨h.scope, h.log.both e⟩⟩

theorem writeLine {γ : Type} (event : γ → Event) (line : Except Halt γ) :
    Quieter (.writeLine event line) (.writeLine event line) := by
  cases line with
  | ok line => exact write _
  | error stop => exact halt stop

/-- A line that only the second run writes, if it can. -/
theorem traceMore {line : Except Halt Text} (h : Tellable line) :
    Quieter (.done ()) (.writeLine .traced (writable line)) := by
  refine ⟨fun _ => List.suffix_refl _, fun hm => ?_⟩
  cases hLine : writable line with
  | ok text => exact .together _ ⟨hm.scope, hm.log.more text⟩
  | error stop =>
    obtain ⟨why, rfl⟩ := h.stop hLine
    exact .cut _ ⟨_, rfl⟩ hm.ahead

theorem trace {σ τ : Settings} (h : σ.verbosity ≤ τ.verbosity) {level : Nat} (hLevel : 0 < level)
    {line line' : Except Halt Text} (hTellable : Tellable line')
    (hLine : 0 < σ.verbosity → line = line') :
    Quieter (.trace σ level line) (.trace τ level line') := by
  unfold Run.trace
  -- a quiet walk may differ in its lines, but then it writes none
  by_cases hQuiet : level ≤ σ.verbosity
  · rw [if_pos hQuiet, if_pos (Nat.le_trans hQuiet h), hLine (Nat.lt_of_lt_of_le hLevel hQuiet)]
    exact writeLine _ _
  · rw [if_neg hQuiet]
    split
    · exact traceMore hTellable
    · exact done ()

theorem depth : Quieter .depth .depth := by
  refine ⟨fun _ => List.suffix_refl _, fun {m m'} h => ?_⟩
  have hDepth : Run.depth m' = (.ok m.scope.depth, m') := by
    rw [h.scope]
    rfl
  rw [hDepth]
  exact .together _ h

theorem withName (t : Token) {next : Name → Run α}
    (hNext : ∀ name, Quieter (next name) (next name)) :
    Quieter (Run.nameOf t >>= next) (Run.nameOf t >>= next) := by
  refine bind ?_ hNext
  rw [Run.nameOf]
  cases Name.ofJson? t.lexeme with
  | none => exact halt _
  | some name => exact done name

theorem lookup (t : Token) : Quieter (.lookup t) (.lookup t) := by
  refine withName t fun name => ⟨fun m => ?_, fun {m m'} h => ?_⟩
  · split <;> exact List.suffix_refl _
  · simp only [← h.scope]
    split <;> exact .together _ h

theorem define (t : Token) (v : Value) : Quieter (.define t v) (.define t v) := by
  refine withName t fun name => ⟨fun m => List.suffix_refl _, fun {m m'} h => ?_⟩
  refine .together _ ⟨?_, h.log⟩
  rw [h.scope]

theorem assign (t : Token) (v : Value) : Quieter (.assign t v) (.assign t v) := by
  refine withName t fun name => ⟨fun m => ?_, fun {m m'} h => ?_⟩
  · split <;> exact List.suffix_refl _
  · simp only [← h.scope]
    split
    · exact .together _ ⟨rfl, h.log⟩
    · exact .together _ h

theorem ofResult (t : Token) (result : Except Misuse Value) :
    Quieter (.ofResult t result) (.ofResult t result) := by
  cases result with
  | ok v => exact done v
  | error what => exact halt _

theorem inFrame {run run' : Run α} (h : Quieter run run') :
    Quieter (.inFrame run) (.inFrame run') := by
  refine ⟨fun m => Machine.grows.inFrame (h.grows _), fun {m m'} hm => ?_⟩
  have hPushed : Machine.Quieter { m with scope := m.scope.push }
      { m' with scope := m'.scope.push } := ⟨congrArg Scope.push hm.scope, hm.log⟩
  have hBoth := h.abreast hPushed
  rw [Run.inFrame, Run.inFrame]
  generalize run { m with scope := m.scope.push } = result at hBoth ⊢
  generalize run' { m' with scope := m'.scope.push } = result' at hBoth ⊢
  cases hBoth with
  | together ending h => exact .together _ ⟨congrArg Scope.pop h.scope, h.log⟩
  | cut ending hShort h => exact .cut _ hShort h

/-- Any two walks of one tree keep abreast if the first traces no more than
the second. -/
theorem correspondence {σ τ : Settings} (hVerbosity : σ.verbosity ≤ τ.verbosity)
    (hRounds : σ.rounds = τ.rounds) : Correspondence σ τ .same Quieter where
  done := done
  bind := bind
  fault _ := halt _
  print v := writeLine _ _
  trace hLevel _ hTellable hLine := trace hVerbosity hLevel hTellable hLine
  depth := depth
  lookup h := by
    cases h
    exact lookup _
  define v h := by
    cases h
    exact define _ v
  assign v h := by
    cases h
    exact assign _ v
  unary b h := by
    cases h
    exact ofResult _ _
  binary a b h := by
    cases h
    exact ofResult _ _
  inFrame := inFrame
  repeatWhile := by
    intro test test' body body' hTest hBody
    rw [hRounds]
    exact @Run.repeatWhile_corresponds Quieter done bind (halt .spent) test test' body body' hTest
      hBody τ.rounds 0
  kind h := by
    cases h
    rfl
  same _ _ _ := id

end Run.Quieter

/-! ## Sessions -/

/-- Whether a session step was ended for want of a text. -/
def Ending.Short (ending : Ending) : Prop :=
  ∃ why, ending = .unwritable why

namespace Session

/-- Whether a step was ended for want of a text. -/
def Step.Short (ending : Except LoadError Ending) : Prop :=
  ∃ why, ending = .ok (.unwritable why)

/-- What a prompt leaves: the ending, the lines it did not read, and the
session. -/
def Farewell.result (f : Farewell) : (Ending × List String) × Session :=
  ((f.ending, f.unread), f.session)

/-- The lines of a prompt that a step does not read. -/
def unread (s : Session) : Step → List String
  | .prompt lines => (s.converse lines).unread
  | _ => []

/-- A step, with the lines it did not read. -/
def performed (s : Session) (step : Step) : (Except LoadError Ending × List String) × Session :=
  (((s.perform step).1, s.unread step), (s.perform step).2)

/-- The sessions are the same, but for the verbosity, which is no greater
in the first one, and for lines of the trace that only the second wrote. -/
structure Quieter (s s' : Session) : Prop where
  verbosity : s.settings.verbosity ≤ s'.settings.verbosity
  rounds : s.settings.rounds = s'.settings.rounds
  machine : s.machine.Quieter s'.machine
  ledger : s.ledger = s'.ledger

/-- At some time the first session had written, but for lines of the trace,
what the second one has. -/
def Ahead (s s' : Session) : Prop :=
  s.machine.Ahead s'.machine

/-- Whatever a session does, it only adds to what was written. -/
theorem grows : Motion fun s later => s.machine.log <:+ later.machine.log where
  refl s := List.suffix_refl s.machine.log
  trans := List.IsSuffix.trans
  write s _ := List.suffix_cons _ s.machine.log
  report s _ := List.suffix_cons _ s.machine.log
  reset s := List.suffix_refl s.machine.log
  walk s ns := visitAll_moves Machine.grows s.settings ns s.machine

namespace Quieter

variable {s s' : Session}

theorem start {m n : Nat} (h : m ≤ n) (rounds : Nat) :
    Quieter (start ⟨m, rounds⟩) (start ⟨n, rounds⟩) :=
  ⟨h, rfl, ⟨rfl, .refl []⟩, rfl⟩

theorem events (h : Quieter s s') : Event.Thinned s.events s'.events :=
  h.machine.log.reverse

theorem withMachine (h : Quieter s s') {m m' : Machine} (hm : m.Quieter m') :
    Quieter { s with machine := m } { s' with machine := m' } :=
  ⟨h.verbosity, h.rounds, hm, h.ledger⟩

theorem write (h : Quieter s s') (e : Event) : Quieter (s.write e) (s'.write e) :=
  h.withMachine ⟨h.machine.scope, h.machine.log.both e⟩

theorem trace (h : Quieter s s') (level : Nat) (line : String) :
    Quieter (s.trace level line) (s'.trace level line) := by
  unfold Session.trace
  by_cases hQuiet : level ≤ s.settings.verbosity
  · rw [if_pos hQuiet, if_pos (Nat.le_trans hQuiet h.verbosity)]
    exact h.write _
  · rw [if_neg hQuiet]
    split
    · exact h.withMachine ⟨h.machine.scope, h.machine.log.more line⟩
    · exact h

theorem withLedger (h : Quieter s s') {ledger ledger' : Ledger} (hLedger : ledger = ledger') :
    Quieter { s with ledger := ledger } { s' with ledger := ledger' } :=
  ⟨h.verbosity, h.rounds, h.machine, hLedger⟩

theorem reset (h : Quieter s s') : Quieter s.reset s'.reset :=
  h.withLedger rfl

theorem report (h : Quieter s s') (d : Diagnostic) : Quieter (s.report d) (s'.report d) :=
  (h.withLedger (congrArg (Ledger.add · d) h.ledger)).write _

theorem reportAll (h : Quieter s s') (ds : List Diagnostic) :
    Quieter (s.reportAll ds) (s'.reportAll ds) := by
  induction ds generalizing s s' with
  | nil => exact h
  | cons d rest ih => exact ih (h.report d)

theorem parse (h : Quieter s s') (source : String) :
    Quieter (s.parse source).2 (s'.parse source).2 :=
  (((h.reportAll _).trace _ _).reportAll _).trace _ _

/-- What was written until a program ended stays written. -/
theorem log_conclude (s : Session) (ending : Except Halt Unit) (m : Machine) :
    m.log <:+ (s.conclude (ending, m)).2.machine.log := by
  cases ending using ending_cases with
  | failed t what => exact grows.concludeError { s with machine := m } t what
  | done | fault | misnomer | spent | unwritable => exact List.suffix_refl _

/-- An error is reported in both, or in neither, or cannot be traced in the
second. -/
theorem concludeError (h : Quieter s s') (t : Token) (what : Misuse) :
    Abreast Ending.Short Quieter Ahead (s.concludeError t what) (s'.concludeError t what) := by
  match hLine : failureLine t what with
  | none =>
    rw [concludeError_of_none s hLine, concludeError_of_none s' hLine]
    exact .together _ h
  | some (.whole line) =>
    rw [concludeError_of_whole s hLine, concludeError_of_whole s' hLine]
    exact .together _ ((h.trace 1 line).report _)
  | some (.torn line) =>
    rw [concludeError_of_torn s hLine, concludeError_of_torn s' hLine]
    by_cases hQuiet : 1 ≤ s.settings.verbosity
    · rw [if_pos hQuiet, if_pos (Nat.le_trans hQuiet h.verbosity)]
      exact .together _ h
    · rw [if_neg hQuiet]
      split
      · exact .cut _ ⟨_, rfl⟩ (h.machine.ahead.later (grows.report s _))
      · exact .together _ (h.report _)

theorem conclude (h : Quieter s s') {result result' : Except Halt Unit × Machine}
    (hResult : Abreast Halt.Short Machine.Quieter Machine.Ahead result result') :
    Abreast Ending.Short Quieter Ahead (s.conclude result) (s'.conclude result') := by
  cases hResult with
  | together ending hm =>
    have hLater := h.withMachine hm
    cases ending using ending_cases with
    | failed t what => exact hLater.concludeError t what
    | done | fault | misnomer | spent | unwritable => exact .together _ hLater
  | @cut ending ending' m m' hShort hAhead =>
    obtain ⟨why, rfl⟩ := hShort
    exact .cut _ ⟨why, rfl⟩ (hAhead.later (log_conclude s ending m))

theorem interpret (h : Quieter s s') (program : List Node) :
    Abreast Ending.Short Quieter Ahead (s.interpret program) (s'.interpret program) := by
  rw [interpret_eq, interpret_eq]
  exact h.conclude ((visitAll_corresponds (Run.Quieter.correspondence h.verbosity h.rounds)
    (present program) (Node.allAlike_self _)).abreast (h.trace _ _).machine)

theorem run (h : Quieter s s') (source : String) :
    Abreast Ending.Short Quieter Ahead (s.run source) (s'.run source) := by
  have hParsed := h.parse source
  simp only [Session.run]
  rw [← hParsed.ledger]
  split
  · exact .together _ hParsed
  · exact hParsed.interpret _

/-- Two prompts read as far and end in the same way, or the second one is
cut short. -/
theorem converse (h : Quieter s s') (lines : List String) :
    Abreast (fun r => Ending.Short r.1) Quieter Ahead (s.converse lines).result
      (s'.converse lines).result := by
  induction lines generalizing s s' with
  | nil => exact .together _ (h.write _)
  | cons line rest ih =>
    rw [Session.converse, Session.converse]
    split
    · exact .together _ (h.write _)
    · have hBoth := (h.write .prompted).reset.run line
      generalize (s.write .prompted).reset.run line = result at hBoth ⊢
      generalize (s'.write .prompted).reset.run line = result' at hBoth ⊢
      cases hBoth with
      | together ending hLater =>
        cases ending with
        | finished => exact ih hLater
        | fault | misnomer | spent | unwritable => exact .together _ hLater
      | @cut ending ending' later later' hShort hAhead =>
        obtain ⟨why, rfl⟩ := hShort
        -- the first session reads on alone
        cases ending with
        | finished => exact .cut _ ⟨why, rfl⟩ (hAhead.later (grows.converse later rest))
        | fault | misnomer | spent | unwritable => exact .cut _ ⟨why, rfl⟩ hAhead

theorem perform (h : Quieter s s') (step : Step) :
    Abreast (fun r => Step.Short r.1) Quieter Ahead (s.performed step) (s'.performed step) := by
  have hEnding : ∀ ending : Ending, ending.Short → Step.Short (.ok ending) := by
    rintro _ ⟨why, rfl⟩
    exact ⟨why, rfl⟩
  cases step with
  | run source => exact (h.run source).map (fun ending => (Except.ok ending, [])) hEnding
  | parse source => exact .together _ (h.parse source)
  | interpret source =>
    exact ((h.parse source).interpret _).map (fun ending => (Except.ok ending, [])) hEnding
  | load data =>
    simp only [performed, Session.perform]
    cases Node.programOfJson data with
    | error e => exact .together _ h
    | ok program => exact (h.interpret program).map (fun ending => (Except.ok ending, [])) hEnding
  | prompt lines =>
    refine (h.converse lines).map (fun r => (Except.ok r.1, r.2)) ?_
    exact fun r => hEnding r.1
  | reset => exact .together _ h.reset

end Quieter

/-! ## Histories -/

/-- How a step ends behind some others. -/
def ending (settings : Settings) (steps : List Step) (step : Step) : Except LoadError Ending :=
  (((start settings).after steps).perform step).1

/-- Two sessions of which the same is seen, but for the trace, in which the
second one has all the lines of the first one and perhaps others between
them. -/
structure SeenAlike (quiet loud : Session) : Prop where
  output : Event.output quiet.events = Event.output loud.events
  errors : Event.errors quiet.events = Event.errors loud.events
  dialogue : Event.dialogue quiet.events = Event.dialogue loud.events
  ledger : quiet.ledger = loud.ledger
  scope : quiet.machine.scope = loud.machine.scope
  lines : (Event.tracedLines quiet.events).Sublist (Event.tracedLines loud.events)
  trace : (Event.trace quiet.events).toList.Sublist (Event.trace loud.events).toList

theorem Quieter.seenAlike {s s' : Session} (h : Quieter s s') : SeenAlike s s' :=
  ⟨h.events.output_eq, h.events.errors_eq, h.events.dialogue_eq, h.ledger, h.machine.scope,
    h.events.tracedLines_sublist, h.events.trace_sublist⟩

/-- Two sessions of which the same is seen behind each of some steps, and in
which each of the steps ends in the same way, with the same lines of a
prompt unread. -/
structure Together (m n rounds : Nat) (steps : List Step) : Prop where
  seen {earlier : List Step} : earlier <+: steps →
    SeenAlike ((start ⟨m, rounds⟩).after earlier) ((start ⟨n, rounds⟩).after earlier)
  ending {earlier : List Step} {step : Step} : earlier ++ [step] <+: steps →
    ending ⟨m, rounds⟩ earlier step = ending ⟨n, rounds⟩ earlier step
  unread {earlier : List Step} {step : Step} : earlier ++ [step] <+: steps →
    ((start ⟨m, rounds⟩).after earlier).unread step =
      ((start ⟨n, rounds⟩).after earlier).unread step

theorem Ahead.events {s s' : Session} (h : s.Ahead s') :
    ∃ before, before <+: s.events ∧ Event.Thinned before s'.events := by
  obtain ⟨earlier, hEarlier, hLog⟩ := h
  exact ⟨earlier.reverse, List.reverse_prefix.mpr hEarlier, hLog.reverse⟩

section

variable {m n rounds : Nat}

theorem Together.nil (h : m ≤ n) : Together m n rounds [] := by
  have hNone : ∀ {earlier : List Step} {step : Step}, ¬ earlier ++ [step] <+: [] := by simp
  refine ⟨fun hEarlier => ?_, fun hEarlier => absurd hEarlier hNone,
    fun hEarlier => absurd hEarlier hNone⟩
  rw [List.prefix_nil.mp hEarlier]
  exact (Quieter.start h rounds).seenAlike

/-- One more step that the sessions take together. -/
theorem Together.concat {steps : List Step} {step : Step} (h : Together m n rounds steps)
    (hSeen : SeenAlike ((start ⟨m, rounds⟩).after (steps ++ [step]))
      ((start ⟨n, rounds⟩).after (steps ++ [step])))
    (hEnding : Session.ending ⟨m, rounds⟩ steps step = Session.ending ⟨n, rounds⟩ steps step)
    (hUnread : ((start ⟨m, rounds⟩).after steps).unread step =
      ((start ⟨n, rounds⟩).after steps).unread step) :
    Together m n rounds (steps ++ [step]) := by
  refine ⟨fun hEarlier => ?_, fun hEarlier => ?_, fun hEarlier => ?_⟩
  · rcases List.prefix_concat_iff.mp hEarlier with rfl | hEarlier
    · exact hSeen
    · exact h.seen hEarlier
  · rcases List.prefix_concat_iff.mp hEarlier with hSame | hEarlier
    · obtain ⟨rfl, hStep⟩ := List.append_inj' hSame rfl
      cases hStep
      exact hEnding
    · exact h.ending hEarlier
  · rcases List.prefix_concat_iff.mp hEarlier with hSame | hEarlier
    · obtain ⟨rfl, hStep⟩ := List.append_inj' hSame rfl
      cases hStep
      exact hUnread
    · exact h.unread hEarlier

end

end Session

end Treewalk
