import Treewalk.Proofs.Session.Past
import Treewalk.Proofs.Session.Seam

/-!
# Variables that a program does not mention

The names a program mentions are those that its variables, assignments and
declarations spell (`namesOf`). All others it can neither see nor change.
Take two machines with the same local frames and with globals that agree on
some names, the others being defined or not and holding what they like. A
run that keeps to these names ends in the same way on both, writes the same,
and leaves machines that agree again, with the other globals as they were
(`Run.Confined`). That is so of every expression and statement whose names
are among them, and so of whole programs (`unmentioned_unobserved`).
-/

namespace Treewalk

/-! ## Names that are mentioned -/

/-- The tokens that name a variable in an expression. -/
def Expr.named : Expr → List Token
  | .binary left _ right => left.named ++ right.named
  | .grouping inner => inner.named
  | .literal _ => []
  | .unary _ right => right.named
  | .variable name => [name]
  | .assign name value => name :: value.named
  | .logical left _ right => left.named ++ right.named

mutual

/-- The tokens that name a variable in a statement. -/
def Stmt.named : Stmt → List Token
  | .expression inner => inner.named
  | .print inner => inner.named
  | .var name none => [name]
  | .var name (some e) => name :: e.named
  | .block statements => Stmt.allNamed statements
  | .branch condition consequence none => condition.named ++ consequence.named
  | .branch condition consequence (some alternative) =>
    condition.named ++ (consequence.named ++ alternative.named)
  | .loop condition body => condition.named ++ body.named

/-- The tokens that name a variable in statements. -/
def Stmt.allNamed : List Stmt → List Token
  | [] => []
  | s :: rest => s.named ++ Stmt.allNamed rest

end

/-- The names that a program mentions. -/
def namesOf (program : List (Option Stmt)) : List Name :=
  (Stmt.allNamed (program.filterMap id)).filterMap fun t => Name.ofJson? t.lexeme

/-- The name of a token, if it has one, is among some names. -/
def Token.NameIn (N : Name → Prop) (t : Token) : Prop :=
  ∀ name, Name.ofJson? t.lexeme = some name → N name

/-! ## Scopes that agree -/

namespace Scope

/-- The same local frames, and globals that agree on some names. -/
structure AgreeOn (N : Name → Prop) (s s' : Scope) : Prop where
  inner : s.inner = s'.inner
  globals : ∀ name, N name → s.globals.get? name = s'.globals.get? name

/-- The second scope has the globals of the first, but for some names. -/
def SameOff (N : Name → Prop) (s later : Scope) : Prop :=
  ∀ name, ¬ N name → later.globals.get? name = s.globals.get? name

variable {N : Name → Prop} {s s' : Scope} {name : Name}

theorem AgreeOn.get? (h : s.AgreeOn N s') (hName : N name) : s.get? name = s'.get? name := by
  rw [Scope.get?, Scope.get?, frames, frames, h.inner, List.findSome?_append,
    List.findSome?_append, List.findSome?_singleton, List.findSome?_singleton,
    h.globals name hName]

/-- A name bound in both global frames. -/
theorem AgreeOn.define_global (h : s.AgreeOn N s') (v : Value) :
    AgreeOn N { s with globals := s.globals.define name v }
      { s' with globals := s'.globals.define name v } := by
  refine ⟨h.inner, fun other hOther => ?_⟩
  rw [Frame.get?_define, Frame.get?_define, h.globals other hOther]

theorem SameOff.define_global (s : Scope) (hName : N name) (v : Value) :
    SameOff N s { s with globals := s.globals.define name v } := by
  intro other hOther
  have hNe : other ≠ name := by
    rintro rfl
    exact hOther hName
  rw [Frame.get?_define, if_neg hNe]

theorem AgreeOn.define (h : s.AgreeOn N s') (v : Value) :
    (s.define name v).AgreeOn N (s'.define name v) := by
  obtain ⟨inner, globals⟩ := s
  obtain ⟨inner', globals'⟩ := s'
  obtain rfl : inner = inner' := h.inner
  cases inner with
  | nil => exact h.define_global v
  | cons f rest => exact ⟨rfl, h.globals⟩

theorem SameOff.define (s : Scope) (hName : N name) (v : Value) :
    s.SameOff N (s.define name v) := by
  rw [Scope.define]
  cases s.inner with
  | nil => exact .define_global s hName v
  | cons f rest => exact fun _ _ => rfl

/-- One of the names can be assigned to in both scopes or in neither. -/
theorem AgreeOn.assign? (h : s.AgreeOn N s') (hName : N name) (v : Value) :
    Option.Rel (AgreeOn N) (s.assign? name v) (s'.assign? name v) := by
  have hBinds : s.globals.binds name = s'.globals.binds name := by
    rw [Frame.binds, Frame.binds, h.globals name hName]
  rw [Scope.assign?, Scope.assign?, ← h.inner, ← hBinds]
  cases Frame.assign? name v s.inner with
  | some inner => exact .some ⟨rfl, h.globals⟩
  | none =>
    dsimp only
    split
    · exact .some ⟨rfl, (h.define_global v).globals⟩
    · exact .none

theorem SameOff.assign? {later : Scope} (hName : N name) {v : Value}
    (h : s.assign? name v = some later) : s.SameOff N later := by
  rw [Scope.assign?] at h
  cases hInner : Frame.assign? name v s.inner with
  | some inner =>
    rw [hInner] at h
    cases h
    exact fun _ _ => rfl
  | none =>
    rw [hInner] at h
    dsimp only at h
    split at h
    · cases h
      exact .define_global s hName v
    · cases h

end Scope

/-! ## Runs that keep to some names -/

/-- The same was written, in scopes that agree. -/
structure Machine.AgreeOn (N : Name → Prop) (m m' : Machine) : Prop where
  scope : m.scope.AgreeOn N m'.scope
  log : m.log = m'.log

/-- A run that keeps to some names: it tells no machines apart that agree on
them, and leaves the other globals alone. -/
structure Run.Confined (N : Name → Prop) {α : Type} (run : Run α) : Prop where
  alike : ∀ m m' : Machine, m.AgreeOn N m' →
    (run m).1 = (run m').1 ∧ (run m).2.AgreeOn N (run m').2
  others : ∀ m : Machine, m.scope.SameOff N (run m).2.scope

namespace Run.Confined

variable {N : Name → Prop} {α β : Type}

theorem done (v : α) : Confined N (.done v) :=
  ⟨fun _ _ h => ⟨rfl, h⟩, fun _ _ _ => rfl⟩

theorem pure (v : α) : Confined N (pure v : Run α) :=
  done v

theorem halt (stop : Halt) : Confined N (.halt stop : Run α) :=
  ⟨fun _ _ h => ⟨rfl, h⟩, fun _ _ _ => rfl⟩

theorem write (e : Event) : Confined N (.write e) :=
  ⟨fun _ _ h => ⟨rfl, h.scope, congrArg (e :: ·) h.log⟩, fun _ _ _ => rfl⟩

theorem writeLine {γ : Type} (event : γ → Event) (line : Except Halt γ) :
    Confined N (.writeLine event line) := by
  cases line with
  | ok line => exact write _
  | error stop => exact halt stop

theorem bind {run : Run α} {next : α → Run β} (h : Confined N run)
    (hNext : ∀ v, Confined N (next v)) : Confined N (run >>= next) where
  alike m m' hm := by
    obtain ⟨hEnding, hAgree⟩ := h.alike m m' hm
    cases hRun : run m with
    | mk ending later =>
      cases hRun' : run m' with
      | mk ending' later' =>
        rw [hRun, hRun'] at hEnding hAgree
        obtain rfl : ending = ending' := hEnding
        cases ending with
        | ok v =>
          rw [bind_of_ok hRun, bind_of_ok hRun']
          exact (hNext v).alike later later' hAgree
        | error stop =>
          rw [bind_of_error hRun, bind_of_error hRun']
          exact ⟨rfl, hAgree⟩
  others m := by
    have hOthers := h.others m
    cases hRun : run m with
    | mk ending later =>
      rw [hRun] at hOthers
      cases ending with
      | ok v =>
        rw [bind_of_ok hRun]
        exact fun name hName => ((hNext v).others later name hName).trans (hOthers name hName)
      | error stop =>
        rw [bind_of_error hRun]
        exact hOthers

theorem withName {t : Token} (ht : t.NameIn N) {next : Name → Run β}
    (hNext : ∀ name, N name → Confined N (next name)) : Confined N (Run.nameOf t >>= next) := by
  unfold Run.nameOf
  cases hName : Name.ofJson? t.lexeme with
  | none => exact halt .misnomer
  | some name => exact hNext name (ht name hName)

theorem lookup {t : Token} (ht : t.NameIn N) : Confined N (.lookup t) := by
  refine withName ht fun name hName => ⟨fun m m' h => ?_, fun m => ?_⟩
  · simp only [h.scope.get? hName]
    cases m'.scope.get? name with
    | some v => exact ⟨rfl, h⟩
    | none => exact ⟨rfl, h⟩
  · split
    · exact fun _ _ => rfl
    · exact fun _ _ => rfl

theorem define {t : Token} (ht : t.NameIn N) (v : Value) : Confined N (.define t v) :=
  withName ht fun _ hName =>
    ⟨fun _ _ h => ⟨rfl, h.scope.define v, h.log⟩, fun m => .define m.scope hName v⟩

theorem assign {t : Token} (ht : t.NameIn N) (v : Value) : Confined N (.assign t v) := by
  refine withName ht fun name hName => ⟨fun m m' h => ?_, fun m => ?_⟩
  · have hBoth := h.scope.assign? hName v
    generalize m.scope.assign? name v = assigned at hBoth ⊢
    generalize m'.scope.assign? name v = assigned' at hBoth ⊢
    cases hBoth with
    | some hScope => exact ⟨rfl, hScope, h.log⟩
    | none => exact ⟨rfl, h⟩
  · split
    · next scope hScope => exact .assign? hName hScope
    · exact fun _ _ => rfl

theorem depth : Confined N .depth := by
  refine ⟨fun m m' h => ⟨?_, h⟩, fun _ _ _ => rfl⟩
  change Except.ok m.scope.inner.length = Except.ok m'.scope.inner.length
  rw [h.scope.inner]

theorem trace (σ : Settings) (level : Nat) (line : Except Halt Text) :
    Confined N (.trace σ level line) := by
  unfold Run.trace
  split
  · exact writeLine _ (writable line)
  · exact done ()

theorem ofResult (t : Token) (result : Except Misuse Value) : Confined N (.ofResult t result) := by
  cases result with
  | ok v => exact done v
  | error what => exact halt _

theorem inFrame {run : Run α} (h : Confined N run) : Confined N (.inFrame run) where
  alike m m' hm := by
    have hPushed : m.scope.push.AgreeOn N m'.scope.push :=
      ⟨congrArg (Frame.empty :: ·) hm.scope.inner, hm.scope.globals⟩
    obtain ⟨hEnding, hAgree⟩ := h.alike { m with scope := m.scope.push }
      { m' with scope := m'.scope.push } ⟨hPushed, hm.log⟩
    exact ⟨hEnding, ⟨congrArg (List.drop 1) hAgree.scope.inner, hAgree.scope.globals⟩, hAgree.log⟩
  others m := h.others { m with scope := m.scope.push }

theorem repeatWhile {test : Run Bool} {body : Run Unit} (hTest : Confined N test)
    (hBody : Confined N body) (rounds count : Nat) :
    Confined N (.repeatWhile test body rounds count) :=
  @Run.repeatWhile_corresponds (fun run _ => Confined N run) done bind (halt _)
    test test body body hTest hBody rounds count

end Run.Confined

/-! ## Programs keep to the names they mention -/

section Walk

variable (σ : Settings) {N : Name → Prop}

/-- An expression keeps to its names. -/
theorem Expr.confined : (e : Expr) → (∀ t ∈ e.named, t.NameIn N) →
    (visit σ e.toNode).Confined N
  | .literal value, _ => by
    rw [Expr.toNode, visit]
    exact .done value
  | .grouping inner, h => by
    rw [Expr.toNode, visit]
    exact inner.confined h
  | .variable name, h => by
    rw [Expr.toNode, visit, Node.token?, Run.required_some]
    exact .lookup (h name List.mem_cons_self)
  | .assign name value, h => by
    obtain ⟨hName, hValue⟩ := List.forall_mem_cons.mp h
    rw [Expr.toNode, visit]
    refine .bind (value.confined hValue) fun v => ?_
    rw [Node.token?, Run.required_some]
    exact .bind (.assign hName v) fun _ => .bind (.trace σ _ _) fun _ => .pure v
  | .logical left operator right, h => by
    obtain ⟨hLeft, hRight⟩ := List.forall_mem_append.mp h
    rw [Expr.toNode, visit]
    refine .bind (left.confined hLeft) fun a => .bind (.done operator) fun operator => ?_
    split
    · exact .pure a
    · exact right.confined hRight
  | .unary operator right, h => by
    rw [Expr.toNode, visit]
    exact .bind (right.confined h) fun b => .bind (.done operator) fun operator =>
      .ofResult operator _
  | .binary left operator right, h => by
    obtain ⟨hLeft, hRight⟩ := List.forall_mem_append.mp h
    rw [Expr.toNode, visit]
    exact .bind (left.confined hLeft) fun a => .bind (right.confined hRight) fun b =>
      .bind (.done operator) fun operator => .ofResult operator _

/-- So does a definition, with its line in the trace. -/
theorem define_confined {name : Token} (h : name.NameIn N) (v : Value) : (do
    let name ← Run.required (Node.token name).token?
    Run.define name v
    Run.trace σ 2 (defineLine name v (← Run.depth))
    return Value.nil).Confined N := by
  rw [Node.token?, Run.required_some]
  exact .bind (.define h v) fun _ => .bind .depth fun _ => .bind (.trace σ _ _) fun _ => .pure _

mutual

/-- A statement keeps to its names. -/
theorem Stmt.confined : (s : Stmt) → (∀ t ∈ s.named, t.NameIn N) →
    (visit σ s.toNode).Confined N
  | .expression inner, h => by
    rw [Stmt.toNode, visit]
    exact .bind (inner.confined σ h) fun _ => .pure _
  | .print inner, h => by
    rw [Stmt.toNode, visit]
    exact .bind (inner.confined σ h) fun v => .bind (.writeLine _ _) fun _ => .pure _
  | .var name none, h => by
    rw [Stmt.toNode, Expr.toNode?, visit]
    exact define_confined σ (h name List.mem_cons_self) .nil
  | .var name (some e), h => by
    obtain ⟨hName, hValue⟩ := List.forall_mem_cons.mp h
    rw [Stmt.toNode, Expr.toNode?, visit_var_some]
    exact .bind (e.confined σ hValue) fun v => define_confined σ hName v
  | .block statements, h => by
    rw [Stmt.toNode, visit]
    exact .bind (.inFrame (Stmt.allConfined statements h)) fun _ => .pure _
  | .branch condition consequence none, h => by
    obtain ⟨hTest, hThen⟩ := List.forall_mem_append.mp h
    rw [Stmt.toNode, visit]
    refine .bind (condition.confined σ hTest) fun v => .bind (.trace σ _ _) fun _ => ?_
    split
    · exact .bind (consequence.confined hThen) fun _ => .pure _
    · exact .pure _
  | .branch condition consequence (some alternative), h => by
    obtain ⟨hTest, hBranches⟩ := List.forall_mem_append.mp h
    obtain ⟨hThen, hElse⟩ := List.forall_mem_append.mp hBranches
    rw [Stmt.toNode, visit_branch_some]
    refine .bind (condition.confined σ hTest) fun v => .bind (.trace σ _ _) fun _ => ?_
    split
    · exact .bind (consequence.confined hThen) fun _ => .pure _
    · exact .bind (alternative.confined hElse) fun _ => .pure _
  | .loop condition body, h => by
    obtain ⟨hTest, hBody⟩ := List.forall_mem_append.mp h
    rw [Stmt.toNode, visit]
    refine .bind (.repeatWhile ?_ ?_ _ _) fun count => .bind (.trace σ _ _) fun _ => .pure _
    · exact .bind (condition.confined σ hTest) fun v => .pure _
    · exact .bind (body.confined hBody) fun _ => .pure _

theorem Stmt.allConfined : (statements : List Stmt) →
    (∀ t ∈ Stmt.allNamed statements, t.NameIn N) →
    (visitAll σ (Stmt.toNodes statements)).Confined N
  | [], _ => by
    rw [Stmt.toNodes, visitAll]
    exact .done ()
  | s :: rest, h => by
    obtain ⟨hFirst, hRest⟩ := List.forall_mem_append.mp h
    rw [Stmt.toNodes, visitAll]
    exact .bind (s.confined hFirst) fun _ => Stmt.allConfined rest hRest

end

end Walk

/-- A program keeps to the names it mentions. -/
theorem program_confined (σ : Settings) (program : List (Option Stmt)) :
    (visitAll σ (Session.present (program.map Stmt.toNode?))).Confined (· ∈ namesOf program) := by
  rw [present_toNodes]
  refine Stmt.allConfined σ _ fun t ht name hName => ?_
  exact List.mem_filterMap.mpr ⟨t, ht, hName⟩

/-! ## In a session -/

namespace Session

variable {N : Name → Prop} {s s' : Session}

theorem trace_agree (hSettings : s.settings = s'.settings) (h : s.machine.AgreeOn N s'.machine)
    (level : Nat) (line : String) :
    (s.trace level line).machine.AgreeOn N (s'.trace level line).machine := by
  simp only [trace, hSettings]
  split
  · exact ⟨h.scope, congrArg (Event.traced line :: ·) h.log⟩
  · exact h

theorem concludeError_agree (hSettings : s.settings = s'.settings)
    (h : s.machine.AgreeOn N s'.machine) (t : Token) (what : Misuse) :
    (s.concludeError t what).1 = (s'.concludeError t what).1 ∧
      (s.concludeError t what).2.machine.AgreeOn N (s'.concludeError t what).2.machine := by
  have hReport : ∀ {told told' : Session} (d : Diagnostic),
      told.machine.AgreeOn N told'.machine →
      (told.report d).machine.AgreeOn N (told'.report d).machine :=
    fun d hTold => ⟨hTold.scope, congrArg (Event.reported d.message :: ·) hTold.log⟩
  match hLine : failureLine t what with
  | none =>
    rw [concludeError_of_none _ hLine, concludeError_of_none _ hLine]
    exact ⟨rfl, h⟩
  | some (.whole line) =>
    rw [concludeError_of_whole _ hLine, concludeError_of_whole _ hLine]
    exact ⟨rfl, hReport _ (trace_agree hSettings h 1 line)⟩
  | some (.torn line) =>
    rw [concludeError_of_torn _ hLine, concludeError_of_torn _ hLine, hSettings]
    split
    · exact ⟨rfl, h⟩
    · exact ⟨rfl, hReport _ h⟩

/-- Sessions that differ in some globals make the same of runs that ended in
the same way. -/
theorem conclude_agree (hSettings : s.settings = s'.settings)
    {result result' : Except Halt Unit × Machine} (hEnding : result.1 = result'.1)
    (h : result.2.AgreeOn N result'.2) :
    (s.conclude result).1 = (s'.conclude result').1 ∧
      (s.conclude result).2.machine.AgreeOn N (s'.conclude result').2.machine := by
  obtain ⟨ending, m⟩ := result
  obtain ⟨ending', m'⟩ := result'
  obtain rfl : ending = ending' := hEnding
  cases ending using ending_cases with
  | failed t what =>
    have hSame : { s with machine := m }.settings = { s' with machine := m' }.settings := hSettings
    exact concludeError_agree hSame h t what
  | done | fault | misnomer | spent | unwritable => exact ⟨rfl, h⟩

theorem scope_conclude (s : Session) (result : Except Halt Unit × Machine) :
    (s.conclude result).2.machine.scope = result.2.scope := by
  obtain ⟨ending, m⟩ := result
  cases ending using ending_cases with
  | failed t what => exact scope_concludeError { s with machine := m } t what
  | done | fault | misnomer | spent | unwritable => rfl

variable (program : List (Option Stmt))

theorem execution_agree (hSettings : s.settings = s'.settings)
    (h : s.machine.AgreeOn (· ∈ namesOf program) s'.machine) :
    (s.execution (program.map Stmt.toNode?)).1 = (s'.execution (program.map Stmt.toNode?)).1 ∧
      (s.execution (program.map Stmt.toNode?)).2.AgreeOn (· ∈ namesOf program)
        (s'.execution (program.map Stmt.toNode?)).2 := by
  rw [execution, execution, ← hSettings]
  exact (program_confined s.settings program).alike _ _ (trace_agree hSettings h 1 _)

/-- A program leaves the globals alone that it does not mention. -/
theorem interpret_sameOff (s : Session) : s.machine.scope.SameOff (· ∈ namesOf program)
    (s.interpret (program.map Stmt.toNode?)).2.machine.scope := by
  intro name hName
  rw [interpret_eq, scope_conclude, execution]
  refine ((program_confined s.settings program).others _ name hName).trans ?_
  rw [opened, scope_trace]

/-- Runs of a program in two sessions that cannot be told apart by the names
the program mentions: they end in the same way, write the same and report
the same, leave those names alike, and all other names as they were. -/
structure Alike (names : List Name) (s s' : Session) (run run' : Ending × Session) : Prop where
  ending : run.1 = run'.1
  events : ∃ later, run.2.events = s.events ++ later ∧ run'.2.events = s'.events ++ later
  reports : ∃ ds, Reports s run.2 ds ∧ Reports s' run'.2 ds
  depth : run.2.machine.scope.depth = 0 ∧ run'.2.machine.scope.depth = 0
  mentioned : ∀ name ∈ names,
    run.2.machine.scope.globals.get? name = run'.2.machine.scope.globals.get? name
  others : ∀ name ∉ names,
    run.2.machine.scope.globals.get? name = s.machine.scope.globals.get? name ∧
    run'.2.machine.scope.globals.get? name = s'.machine.scope.globals.get? name

theorem interpret_alike (hSettings : s.settings = s'.settings)
    (hDepth : s.machine.scope.depth = 0) (hDepth' : s'.machine.scope.depth = 0)
    (h : ∀ name ∈ namesOf program,
      s.machine.scope.globals.get? name = s'.machine.scope.globals.get? name) :
    Alike (namesOf program) s s' (s.interpret (program.map Stmt.toNode?))
      (s'.interpret (program.map Stmt.toNode?)) := by
  have hScope : s.machine.scope.AgreeOn (· ∈ namesOf program) s'.machine.scope := by
    refine ⟨?_, h⟩
    rw [List.length_eq_zero_iff.mp hDepth, List.length_eq_zero_iff.mp hDepth']
  generalize hNodes : program.map Stmt.toNode? = nodes
  -- what was written before may differ, so it is set aside while the program runs
  have hDrained : s.drained.settings = s'.drained.settings := hSettings
  obtain ⟨hEnd, hLeft⟩ := execution_agree program hDrained ⟨hScope, rfl⟩
  obtain ⟨hEnding, hAgree⟩ := conclude_agree hDrained hEnd hLeft
  rw [← interpret_eq, ← interpret_eq, hNodes] at hEnding hAgree
  rw [hNodes] at hEnd
  have hRun := s.drained.interpret_behind s.machine.log nodes
  have hRun' := s'.drained.interpret_behind s'.machine.log nodes
  have hExecution := s.drained.execution_behind s.machine.log nodes
  have hExecution' := s'.drained.execution_behind s'.machine.log nodes
  rw [drained_behind] at hRun hRun' hExecution hExecution'
  have hFailure : (s.execution nodes).1 = (s'.execution nodes).1 := by
    rw [hExecution, hExecution', hEnd]
  refine
    { ending := by rw [hRun, hRun', hEnding]
      events := ⟨(s.drained.interpret nodes).2.events, ?_, ?_⟩
      reports := ⟨failure s.settings.verbosity (s.execution nodes).1, Reports.interpret s nodes, ?_⟩
      depth := ⟨?_, ?_⟩
      mentioned := fun name hName => ?_
      others := fun name hName => ?_ }
  · rw [hRun, events_behind]
    rfl
  · rw [hRun', events_behind, events, events, ← hAgree.log]
    rfl
  · rw [hFailure, hSettings]
    exact Reports.interpret s' nodes
  · exact (Extends.motion.interpret s nodes).depth_eq.trans hDepth
  · exact (Extends.motion.interpret s' nodes).depth_eq.trans hDepth'
  · rw [hRun, hRun']
    exact hAgree.scope.globals name hName
  · rw [← hNodes]
    exact ⟨interpret_sameOff program s name hName, interpret_sameOff program s' name hName⟩

/-- A program can neither see nor change a variable that it does not
mention. Between two sessions at the top level whose globals agree on the
names it mentions it makes no difference: with rounds enough the program
ends in both or in neither, and however many rounds there are it ends in the
same way, writes and reports the same, leaves the names it mentions alike
again, and every other global as it was. -/
theorem unmentioned_unobserved (s s' : Session)
    (hVerbosity : s.settings.verbosity = s'.settings.verbosity)
    (hDepth : s.machine.scope.depth = 0) (hDepth' : s'.machine.scope.depth = 0)
    (h : ∀ name ∈ namesOf program,
      s.machine.scope.globals.get? name = s'.machine.scope.globals.get? name) :
    let nodes := program.map Stmt.toNode?
    ((∃ rounds, ((s.bounded rounds).interpret nodes).1 ≠ .spent) ↔
      ∃ rounds, ((s'.bounded rounds).interpret nodes).1 ≠ .spent) ∧
    ∀ rounds, Alike (namesOf program) s s' ((s.bounded rounds).interpret nodes)
      ((s'.bounded rounds).interpret nodes) := by
  intro nodes
  have hAlike : ∀ rounds, Alike (namesOf program) (s.bounded rounds) (s'.bounded rounds)
      ((s.bounded rounds).interpret nodes) ((s'.bounded rounds).interpret nodes) := by
    intro rounds
    exact interpret_alike program (congrArg (Settings.mk · rounds) hVerbosity) hDepth hDepth' h
  refine ⟨exists_congr fun rounds => ?_, fun rounds => ?_⟩
  · rw [(hAlike rounds).ending]
  · obtain ⟨hEnding, hEvents, ⟨ds, hReports, hReports'⟩, hTop, hMentioned, hOthers⟩ :=
      hAlike rounds
    exact ⟨hEnding, hEvents, ⟨ds, ⟨hReports.entries, hReports.written⟩,
      hReports'.entries, hReports'.written⟩, hTop, hMentioned, hOthers⟩

/-- A loop with a declaration in it and an error behind it, run beside
globals that it does not mention. -/
theorem unmentioned_unobserved_failing :
    let program := (Treewalk.parse (scan
      "while (a) { var c = a; a = false; print c; } print -a;").tokens).entries
    let nodes := program.map Stmt.toNode?
    let s : Session := ⟨⟨0, 0⟩, ⟨⟨[], ⟨[(.text "a", .bool true), (.text "b", .nil)]⟩⟩, []⟩, .empty⟩
    let s' : Session := ⟨⟨0, 0⟩, ⟨⟨[], ⟨[(.text "b", .string "b"), (.text "a", .bool true)]⟩⟩,
      [.printed "before"]⟩, .empty⟩
    namesOf program = (["a", "c", "a", "a", "c", "a"].map fun name : String => .text name) ∧
      ((s.bounded 2).interpret nodes).1 ≠ .spent ∧
      Event.output ((s.bounded 2).interpret nodes).2.events = "true\n" ∧
      Alike (namesOf program) s s' ((s.bounded 2).interpret nodes)
        ((s'.bounded 2).interpret nodes) := by
  intro program nodes s s'
  have hNames : namesOf program =
      ["a", "c", "a", "a", "c", "a"].map fun name : String => .text name := by decide +kernel
  have hAgree : ∀ name ∈ namesOf program,
      s.machine.scope.globals.get? name = s'.machine.scope.globals.get? name := by
    rw [hNames]
    simp only [List.map_cons, List.map_nil, List.forall_mem_cons]
    exact ⟨rfl, rfl, rfl, rfl, rfl, rfl, List.forall_mem_nil _⟩
  exact ⟨hNames, by decide +kernel, by decide +kernel,
    (unmentioned_unobserved program s s' rfl rfl rfl hAgree).2 2⟩

end Session

end Treewalk
