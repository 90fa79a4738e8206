import Treewalk.Proofs.Scope.Sites
import Treewalk.Proofs.Session.Steps

/-!
# What a `for` means

A `for` is spelled with a block and a loop. Said directly, it runs its
initializer in one fresh frame, and there, round by round, its condition,
its body and its increment (`Clauses.direct`). The two agree in every state
and for every number of rounds (`for_direct`).

They would agree on sight but for one frame: the spelling puts body and
increment in a block, which opens a frame of its own in every round. That
frame stays empty, because a statement that was read is no declaration, and
a run does not see an empty frame (`Run.Blind`): it finds the same
bindings, changes the same ones, and leaves the empty frame where it was.
What blocks inside the body do is seen from further in, so the empty frame
is kept track of at any depth.
-/

namespace Treewalk

/-! ## An empty frame more -/

/-- The scope with an empty frame behind the `k` innermost ones. -/
def Scope.pad (k : Nat) (s : Scope) : Scope :=
  { s with inner := s.inner.insertIdx k .empty }

theorem Frame.findSome?_pad (name : Name) (frames : List Frame) (k : Nat) :
    (frames.insertIdx k .empty).findSome? (·.get? name) = frames.findSome? (·.get? name) := by
  induction k generalizing frames with
  | zero => rfl
  | succ k ih =>
    cases frames with
    | nil => rfl
    | cons f rest => rw [List.insertIdx_succ_cons, List.findSome?_cons, List.findSome?_cons, ih]

theorem Frame.assign?_pad (name : Name) (v : Value) (frames : List Frame) (k : Nat) :
    Frame.assign? name v (frames.insertIdx k .empty) =
      (Frame.assign? name v frames).map (·.insertIdx k .empty) := by
  induction k generalizing frames with
  | zero => rfl
  | succ k ih =>
    cases frames with
    | nil => rfl
    | cons f rest =>
      rw [List.insertIdx_succ_cons, Frame.assign?, Frame.assign?, ih]
      split
      · rfl
      · rw [Option.map_map, Option.map_map]
        rfl

namespace Scope

theorem get?_pad (s : Scope) (k : Nat) (name : Name) : (s.pad k).get? name = s.get? name := by
  rw [get?, get?, frames, frames, List.findSome?_append, List.findSome?_append]
  exact congrArg (Option.or · _) (Frame.findSome?_pad name s.inner k)

theorem assign?_pad (s : Scope) (k : Nat) (name : Name) (v : Value) :
    (s.pad k).assign? name v = (s.assign? name v).map (pad k) := by
  rw [assign?, assign?, pad, Frame.assign?_pad]
  cases Frame.assign? name v s.inner with
  | some inner => rfl
  | none =>
    by_cases h : s.globals.binds name = true
    · simp [h, pad]
    · simp [h]

/-- A name is bound in front of the empty frame. -/
theorem define_pad (s : Scope) (k : Nat) (name : Name) (v : Value) :
    (s.pad (k + 1)).define name v = (s.define name v).pad (k + 1) := by
  obtain ⟨inner, globals⟩ := s
  cases inner with
  | nil => rfl
  | cons f rest => rfl

/-- Dropping the innermost frame, which is not the empty one. -/
theorem pop_pad {s : Scope} (h : 0 < s.depth) (k : Nat) :
    (s.pad (k + 1)).pop = s.pop.pad k := by
  obtain ⟨inner, globals⟩ := s
  cases inner with
  | nil => exact absurd h (Nat.lt_irrefl 0)
  | cons f rest => rfl

end Scope

/-- The machine with an empty frame behind the `k` innermost ones. -/
def Machine.pad (k : Nat) (m : Machine) : Machine :=
  { m with scope := m.scope.pad k }

/-! ## Runs that do not see it -/

/-- With an empty frame behind the `k` innermost ones the run is the same,
and leaves the empty frame there. -/
def Run.Blind (k : Nat) {α : Type} (run : Run α) : Prop :=
  ∀ m, run (m.pad k) = ((run m).1, (run m).2.pad k)

namespace Run

variable {α β : Type}

/-- Nothing is traced without verbosity. -/
theorem trace_quiet (rounds : Nat) {level : Nat} (h : 0 < level) (line : Except Halt Text) :
    trace ⟨0, rounds⟩ level line = done () := by
  unfold trace
  exact if_neg (Nat.not_le_of_lt h)

theorem done_eq_pure (v : α) : done v = pure v := rfl

instance : LawfulMonad Run := by
  refine LawfulMonad.mk' Run ?_ ?_ ?_
  · intro α run
    funext m
    show Run.andThen run (fun v => done v) m = run m
    rw [Run.andThen]
    cases run m with
    | mk ending later => cases ending <;> rfl
  · intro α β v next
    rfl
  · intro α β γ run next last
    funext m
    show Run.andThen (Run.andThen run next) last m = Run.andThen run _ m
    rw [Run.andThen, Run.andThen, Run.andThen]
    cases run m with
    | mk ending later => cases ending <;> rfl

namespace Blind

variable {k : Nat}

theorem done (v : α) : Blind k (.done v) :=
  fun _ => rfl

theorem pure (v : α) : Blind k (pure v : Run α) :=
  done v

theorem halt (stop : Halt) : Blind k (.halt stop : Run α) :=
  fun _ => rfl

theorem write (e : Event) : Blind k (.write e) :=
  fun _ => rfl

theorem print (v : Value) : Blind k (.print v) := by
  unfold Run.print
  cases spelled v.text? with
  | ok text => exact write _
  | error stop => exact halt stop

theorem bind {run : Run α} {next : α → Run β} (h : Blind k run) (hNext : ∀ v, Blind k (next v)) :
    Blind k (run >>= next) := by
  intro m
  have hPadded := h m
  cases hRun : run m with
  | mk ending later =>
    rw [hRun] at hPadded
    cases ending with
    | ok v =>
      rw [bind_of_ok hRun, bind_of_ok hPadded]
      exact hNext v later
    | error halt => rw [bind_of_error hRun, bind_of_error hPadded]

theorem nameOf (t : Token) : Blind k (.nameOf t) := by
  rw [Run.nameOf]
  cases Name.ofJson? t.lexeme with
  | none => exact halt _
  | some name => exact done name

theorem lookup (t : Token) : Blind k (.lookup t) := by
  refine bind (nameOf t) fun name m => ?_
  simp only [Machine.pad, Scope.get?_pad]
  cases m.scope.get? name with
  | none => rfl
  | some v => rfl

theorem assign (t : Token) (v : Value) : Blind k (.assign t v) := by
  refine bind (nameOf t) fun name m => ?_
  simp only [Machine.pad, Scope.assign?_pad]
  cases m.scope.assign? name v with
  | none => rfl
  | some scope => rfl

/-- A name is bound out of sight of the empty frame, unless that is the
innermost one. -/
theorem define (t : Token) (v : Value) : Blind (k + 1) (.define t v) := by
  refine bind (nameOf t) fun name m => ?_
  simp only [Machine.pad, Scope.define_pad]

theorem ofResult (t : Token) (result : Except Misuse Value) : Blind k (.ofResult t result) := by
  cases result with
  | ok v => exact done v
  | error what => exact halt _

/-- Behind a fresh frame the empty one is one frame further out. -/
theorem inFrame {run : Run α} (h : Blind (k + 1) run)
    (hDepth : ∀ m, (run m).2.scope.depth = m.scope.depth) : Blind k (.inFrame run) := by
  intro m
  let pushed : Machine := { m with scope := m.scope.push }
  have hPadded : run { m.pad k with scope := (m.pad k).scope.push } =
      ((run pushed).1, (run pushed).2.pad (k + 1)) := h pushed
  have hInside : 0 < (run pushed).2.scope.depth := by
    rw [hDepth]
    exact Nat.succ_pos _
  rw [Run.inFrame, hPadded]
  simp only [Machine.pad, Scope.pop_pad hInside]
  rfl

theorem repeatWhile {test : Run Bool} {body : Run Unit} (hTest : Blind k test)
    (hBody : Blind k body) (rounds count : Nat) :
    Blind k (.repeatWhile test body rounds count) :=
  @Run.repeatWhile_corresponds (fun run _ => Blind k run) (fun _ => done _) bind (halt _)
    test test body body hTest hBody rounds count

end Blind

/-- A frame that a run does not see may be left out. -/
theorem inFrame_eq_of_blind {run : Run α} (h : Blind 0 run) : inFrame run = run := by
  funext m
  have hPadded : run { m with scope := m.scope.push } = ((run m).1, (run m).2.pad 0) := h m
  rw [inFrame, hPadded]
  rfl

end Run

section Walk

variable {rounds k : Nat}

/-- No expression sees an empty frame. -/
theorem Expr.blind : (e : Expr) → (visit ⟨0, rounds⟩ e.toNode).Blind k
  | .literal value => by
    rw [Expr.toNode, visit]
    exact .done value
  | .grouping inner => by
    rw [Expr.toNode, visit]
    exact inner.blind
  | .variable name => by
    rw [Expr.toNode, visit]
    exact .bind (.done name) fun name => .lookup name
  | .assign name value => by
    rw [Expr.toNode, visit]
    refine .bind value.blind fun v => .bind (.done name) fun name =>
      .bind (.assign name v) fun _ => ?_
    rw [Run.trace_quiet rounds (by decide)]
    exact .bind (.done ()) fun _ => .pure v
  | .logical left operator right => by
    rw [Expr.toNode, visit]
    refine .bind left.blind fun a => .bind (.done operator) fun operator => ?_
    split
    · exact .pure a
    · exact right.blind
  | .unary operator right => by
    rw [Expr.toNode, visit]
    exact .bind right.blind fun b => .bind (.done operator) fun operator => .ofResult operator _
  | .binary left operator right => by
    rw [Expr.toNode, visit]
    exact .bind left.blind fun a => .bind right.blind fun b =>
      .bind (.done operator) fun operator => .ofResult operator _

/-- A definition whose line is not traced. -/
theorem define_blind (name : Token) (v : Value) : (do
    let name ← Run.required (Node.token name).token?
    Run.define name v
    Run.trace ⟨0, rounds⟩ 2 (defineLine name v (← Run.depth))
    return Value.nil).Blind (k + 1) := by
  refine .bind (.done name) fun name => .bind (.define name v) fun _ => ?_
  simp only [Run.trace_quiet rounds (by decide : 0 < 2)]
  exact .done Value.nil

mutual

/-- No statement sees an empty frame, unless it would bind a name there. -/
theorem Stmt.blind : (s : Stmt) → s.Tidy → (k : Nat) → (k = 0 → s.isVar = false) →
    (visit ⟨0, rounds⟩ s.toNode).Blind k
  | .expression inner, _, _, _ => by
    rw [Stmt.toNode, visit]
    exact .bind inner.blind fun _ => .pure _
  | .print inner, _, _, _ => by
    rw [Stmt.toNode, visit]
    exact .bind inner.blind fun v => .bind (.print v) fun _ => .pure _
  -- only a declaration right inside the empty frame would bind a name there
  | .var name initializer, _, 0, hPlace => nomatch hPlace rfl
  | .var name none, _, k + 1, _ => by
    rw [Stmt.toNode, Expr.toNode?, visit]
    exact define_blind name .nil
  | .var name (some e), _, k + 1, _ => by
    rw [Stmt.toNode, Expr.toNode?, visit_var_some]
    exact .bind e.blind fun v => define_blind name v
  | .block statements, h, k, _ => by
    rw [Stmt.toNode, visit]
    refine .bind (.inFrame (Stmt.allBlind statements h k) fun m => ?_) fun _ => .pure _
    exact (visitAll_moves Scope.Extends.motion _ _ m).depth_eq
  | .branch condition consequence none, h, k, _ => by
    rw [Stmt.toNode, visit]
    refine .bind condition.blind fun v => ?_
    rw [Run.trace_quiet rounds (by decide)]
    refine .bind (.done ()) fun _ => ?_
    split
    · exact .bind (consequence.blind h.2 k fun _ => h.1) fun _ => .pure _
    · exact .pure _
  | .branch condition consequence (some alternative), h, k, _ => by
    rw [Stmt.toNode, visit_branch_some]
    refine .bind condition.blind fun v => ?_
    rw [Run.trace_quiet rounds (by decide)]
    refine .bind (.done ()) fun _ => ?_
    split
    · exact .bind (consequence.blind h.1.2 k fun _ => h.1.1) fun _ => .pure _
    · exact .bind (alternative.blind h.2.2 k fun _ => h.2.1) fun _ => .pure _
  | .loop condition body, h, k, _ => by
    rw [Stmt.toNode, visit]
    refine .bind (.repeatWhile ?_ ?_ _ _) fun count => ?_
    · exact .bind condition.blind fun v => .pure _
    · exact .bind (body.blind h.2 k fun _ => h.1) fun _ => .pure _
    · rw [Run.trace_quiet rounds (by decide)]
      exact .bind (.done ()) fun _ => .pure _

/-- Statements in a frame of their own do not see an empty one outside. -/
theorem Stmt.allBlind : (statements : List Stmt) → Stmt.AllTidy statements → (k : Nat) →
    (visitAll ⟨0, rounds⟩ (Stmt.toNodes statements)).Blind (k + 1)
  | [], _, _ => by
    rw [Stmt.toNodes, visitAll]
    exact .done ()
  | s :: rest, h, k => by
    rw [Stmt.toNodes, visitAll]
    exact .bind (s.blind h.1 (k + 1) nofun) fun _ => Stmt.allBlind rest h.2 k

end

end Walk

/-! ## A `for`, said directly -/

namespace Clauses

/-- The condition of a `for`; one that is missing holds. -/
def test (σ : Settings) (clauses : Clauses) : Run Bool :=
  match clauses.condition with
  | some e => do
    let v ← visit σ e.toNode
    return v.truthy
  | none => return true

/-- One round of a `for`: its body and its increment, in the same frame. -/
def round (σ : Settings) (clauses : Clauses) (body : Stmt) : Run Unit := do
  let _ ← visit σ body.toNode
  match clauses.increment with
  | some e =>
    let _ ← visit σ e.toNode
    return ()
  | none => return ()

/-- The rounds of a `for`, as long as its condition holds. -/
def turns (σ : Settings) (clauses : Clauses) (body : Stmt) : Run Unit := do
  let _ ← Run.repeatWhile (clauses.test σ) (clauses.round σ body) σ.rounds 0
  return ()

/-- A `for`: an initializer has a frame of its own, which the rounds share
and which is dropped however they end. -/
def direct (σ : Settings) (clauses : Clauses) (body : Stmt) : Run Unit :=
  match clauses.initializer with
  | some first => Run.inFrame do
    let _ ← visit σ first.toNode
    clauses.turns σ body
  | none => clauses.turns σ body

variable {rounds : Nat} {body : Stmt}

/-- The frame of a block that holds a body and an increment is not seen. -/
theorem visit_increment (h : body.isVar = false ∧ body.Tidy) (e : Expr) :
    visit ⟨0, rounds⟩ (Stmt.block [body, .expression e]).toNode = (do
      let _ ← visit ⟨0, rounds⟩ body.toNode
      let _ ← visit ⟨0, rounds⟩ e.toNode
      return .nil) := by
  -- both run in the frame of the block, so that frame is the innermost one
  have hBlind : (visitAll ⟨0, rounds⟩ (Stmt.toNodes [body, .expression e])).Blind 0 := by
    simp only [Stmt.toNodes, visitAll]
    refine .bind (body.blind h.2 0 fun _ => h.1) fun _ => .bind ?_ fun _ => .done ()
    exact (Stmt.expression e).blind trivial 0 fun _ => rfl
  rw [Stmt.toNode, visit, Run.inFrame_eq_of_blind hBlind]
  simp only [Stmt.toNodes, Stmt.toNode, visitAll, visit, Run.done_eq_pure, bind_assoc, pure_bind]

theorem test_eq (clauses : Clauses) : (do
    let v ← visit ⟨0, rounds⟩ (clauses.condition.getD (.literal (.bool true))).toNode
    return v.truthy) = clauses.test ⟨0, rounds⟩ := by
  rw [test]
  cases clauses.condition with
  | some e => rfl
  | none =>
    rw [Option.getD_none, Expr.toNode, visit]
    rfl

/-- The body of the loop that a `for` is spelled with. -/
def once (clauses : Clauses) (body : Stmt) : Stmt :=
  match clauses.increment with
  | some increment => .block [body, .expression increment]
  | none => body

theorem once_eq (h : body.isVar = false ∧ body.Tidy) (clauses : Clauses) : (do
    let _ ← visit ⟨0, rounds⟩ (clauses.once body).toNode
    return ()) = clauses.round ⟨0, rounds⟩ body := by
  rw [once, round]
  cases clauses.increment with
  | none => rfl
  | some e =>
    simp only [visit_increment h]
    simp only [bind_assoc, pure_bind]

/-- The loop of the spelling goes through the rounds. -/
theorem visit_loop (h : body.isVar = false ∧ body.Tidy) (clauses : Clauses) :
    visit ⟨0, rounds⟩
        (Stmt.loop (clauses.condition.getD (.literal (.bool true))) (clauses.once body)).toNode =
      (do
        clauses.turns ⟨0, rounds⟩ body
        return .nil) := by
  rw [Stmt.toNode, visit, test_eq, once_eq h, turns]
  simp only [Run.trace_quiet rounds (by decide : 0 < 3), Run.done_eq_pure, bind_assoc, pure_bind]

/-- A `for` as it is spelled means what it says. -/
theorem visit_toLoop (h : body.isVar = false ∧ body.Tidy) (clauses : Clauses) :
    visit ⟨0, rounds⟩ (clauses.toLoop body).toNode = (do
      clauses.direct ⟨0, rounds⟩ body
      return .nil) := by
  let loop := Stmt.loop (clauses.condition.getD (.literal (.bool true))) (clauses.once body)
  have hLoop : visit ⟨0, rounds⟩ loop.toNode = _ := visit_loop h clauses
  rw [toLoop, direct]
  cases clauses.initializer with
  | none => exact hLoop
  | some first =>
    have hInside : visitAll ⟨0, rounds⟩ (Stmt.toNodes [first, loop]) = (do
        let _ ← visit ⟨0, rounds⟩ first.toNode
        clauses.turns ⟨0, rounds⟩ body) := by
      simp only [Stmt.toNodes, visitAll, hLoop, Run.done_eq_pure, bind_assoc, pure_bind,
        bind_pure_unit]
    show visit ⟨0, rounds⟩ (Stmt.block [first, loop]).toNode = _
    rw [Stmt.toNode, visit, hInside]

end Clauses

/-! ## What is read is tidy -/

theorem Clauses.toLoop_tidy {clauses : Clauses} (hFirst : ∀ s ∈ clauses.initializer, s.Tidy)
    {body : Stmt} (h : body.isVar = false ∧ body.Tidy) :
    (clauses.toLoop body).isVar = false ∧ (clauses.toLoop body).Tidy := by
  have hOnce : (clauses.once body).isVar = false ∧ (clauses.once body).Tidy := by
    rw [once]
    cases clauses.increment with
    | none => exact h
    | some e => exact ⟨rfl, h.2, trivial, trivial⟩
  rw [toLoop]
  cases hs : clauses.initializer with
  | none => exact ⟨rfl, hOnce⟩
  | some first => exact ⟨rfl, hFirst first hs, hOnce, trivial⟩

theorem forInitializer_tidy {ts rest : List Token} {s? : Option Stmt} {n : List Complaint}
    (h : (forInitializer ts).Yields s? rest n) : ∀ s ∈ s?, s.Tidy := by
  cases ts with
  | nil => exact absurd h not_forInitializer_nil_yields
  | cons t more =>
    rcases forInitializer_cons_yields_iff.mp h with
      ⟨_, rfl, _⟩ | ⟨_, s, hs, rfl⟩ | ⟨_, s, hs, rfl⟩
    · nofun
    · obtain ⟨name, _, _, _, _, ⟨_, rfl, _⟩ | ⟨_, e, _, _, _, rfl⟩⟩ :=
        variableDeclaration_yields_iff.mp hs
      · rintro _ ⟨⟩
        trivial
      · rintro _ ⟨⟩
        trivial
    · obtain ⟨e, _, _, _, rfl⟩ := expressionStatement_yields_iff.mp hs
      rintro _ ⟨⟩
      trivial

mutual

theorem statement_tidy (ts : List Token) {rest : List Token} {s : Stmt} {n : List Complaint}
    (h : (statement ts).Yields s rest n) : s.isVar = false ∧ s.Tidy := by
  match ts with
  | [] => exact absurd h not_statement_nil_yields
  | t :: more =>
    by_cases hFor : t.kind = .forWord
    · obtain ⟨clauses, later, _, body, _, hClauses, hBody, rfl, _⟩ :=
        (statement_for_yields_iff hFor).mp h
      have hShorter := hClauses.left.shorter
      obtain ⟨_, _, _, _, _, _, _, _, _, hFirst, _⟩ := forClauses_yields_iff.mp hClauses
      exact Clauses.toLoop_tidy (forInitializer_tidy hFirst) (statement_tidy later hBody)
    by_cases hIf : t.kind = .ifWord
    · obtain ⟨test, later, _, _, hTest, hBranches, _⟩ := (statement_if_yields_iff hIf).mp h
      have hShorter := hTest.left.shorter
      exact branches_tidy test later hBranches
    by_cases hPrint : t.kind = .printWord
    · obtain ⟨e, _, _, _, rfl⟩ := (statement_print_yields_iff hPrint).mp h
      exact ⟨rfl, trivial⟩
    by_cases hWhile : t.kind = .whileWord
    · obtain ⟨test, later, _, body, _, hTest, hBody, rfl, _⟩ :=
        (statement_while_yields_iff hWhile).mp h
      have hShorter := hTest.left.shorter
      exact ⟨rfl, statement_tidy later hBody⟩
    by_cases hBrace : t.kind = .leftBrace
    · obtain ⟨body, hBody, rfl⟩ := (statement_block_yields_iff hBrace).mp h
      exact ⟨rfl, block_tidy more hBody⟩
    · have hOther : t.kind ∉ statementWords := by
        simp [statementWords, hFor, hIf, hPrint, hWhile, hBrace]
      obtain ⟨e, _, _, _, rfl⟩ := expressionStatement_yields_iff.mp
        ((statement_expression_yields_iff hOther).mp h)
      exact ⟨rfl, trivial⟩
termination_by 3 * ts.length
decreasing_by
  all_goals
    simp only [List.length_cons]
    omega

theorem branches_tidy (test : Expr) (ts : List Token) {rest : List Token} {s : Stmt}
    {n : List Complaint} (h : (branches test ts).Yields s rest n) : s.isVar = false ∧ s.Tidy := by
  obtain ⟨consequence, t, more, _, hThen, ⟨_, rfl, _⟩ | ⟨_, alternative, _, hElse, rfl, _⟩⟩ :=
    branches_yields_iff.mp h
  · exact ⟨rfl, statement_tidy ts hThen⟩
  · have hShorter := hThen.left.tail.shorter
    exact ⟨rfl, statement_tidy ts hThen, statement_tidy more hElse⟩
termination_by 3 * ts.length + 1
decreasing_by
  all_goals omega

theorem declaration_tidy (t : Token) (rest : List Token) (ht : t.kind ≠ .eof) {more : List Token}
    {s : Stmt} {n : List Complaint} (h : (declaration t rest ht).Enters (some s) more n) :
    s.Tidy := by
  by_cases hVar : t.kind = .varWord
  · obtain ⟨_, _, _, _, _, ⟨_, rfl, _⟩ | ⟨_, _, _, _, _, rfl⟩⟩ :=
      variableDeclaration_yields_iff.mp ((declaration_variable_enters_iff hVar).mp h)
    · trivial
    · trivial
  · exact (statement_tidy (t :: rest) ((declaration_statement_enters_iff hVar).mp h)).2
termination_by 3 * (rest.length + 1) + 1
decreasing_by
  simp only [List.length_cons]
  omega

theorem block_tidy (ts : List Token) {rest : List Token} {body : List Stmt} {n : List Complaint}
    (h : (block ts).Yields body rest n) : Stmt.AllTidy body := by
  match ts with
  | [] => exact absurd h not_block_nil_yields
  | t :: more =>
    rcases block_cons_yields_iff.mp h with
      ⟨_, rfl, _⟩ | ⟨_, ht, first, later, _, others, _, hFirst, hOthers, rfl, _⟩
    · trivial
    · have hShorter := hFirst.left.shorter
      have hRest := block_tidy later hOthers
      cases first with
      | none => exact hRest
      | some s => exact ⟨declaration_tidy t more ht hFirst, hRest⟩
termination_by 3 * ts.length + 2
decreasing_by
  · omega
  · simp only [List.length_cons]
    omega

end

/-- A `for` that is read without a complaint is a `for` with the clauses and
the body that were read. In every state, and for every number of rounds a
loop may go, running its tree is running it as it says: it writes the same,
leaves the same frames and ends in the same way. The frame that the tree
opens in every round for the body and the increment makes no difference. -/
theorem for_direct {t : Token} (ht : t.kind = .forWord) {ts rest : List Token} {tree : Stmt}
    (h : (statement (t :: ts)).Yields tree rest []) :
    ∃ clauses later body, (forClauses ts).Yields clauses later [] ∧
      (statement later).Yields body rest [] ∧
      (∀ rounds m, visit ⟨0, rounds⟩ tree.toNode m = (do
        clauses.direct ⟨0, rounds⟩ body
        return .nil : Run Value) m) ∧
      ∀ increment rounds m,
        visit ⟨0, rounds⟩ (Stmt.block [body, .expression increment]).toNode m = (do
          let _ ← visit ⟨0, rounds⟩ body.toNode
          let _ ← visit ⟨0, rounds⟩ increment.toNode
          return .nil : Run Value) m := by
  obtain ⟨clauses, later, before, body, after, hClauses, hBody, rfl, hNotes⟩ :=
    (statement_for_yields_iff ht).mp h
  obtain ⟨rfl, rfl⟩ := List.append_eq_nil_iff.mp hNotes.symm
  have hTidy := statement_tidy later hBody
  refine ⟨clauses, later, body, hClauses, hBody, ?_, ?_⟩
  · intro rounds m
    rw [Clauses.visit_toLoop hTidy]
  · intro increment rounds m
    rw [Clauses.visit_increment hTidy]

/-- `for (var i; i; i = nil) print i;` in front of an end mark. -/
theorem for_direct_all_clauses :
    let name := Token.ofSource .identifier "i" .nil 1
    let semicolon := Token.ofSource .semicolon ";" .nil 1
    let word := Token.ofSource .forWord "for" .nil 1
    let endMark := Token.ofSource .eof "" .nil 1
    let ts := [.ofSource .leftParen "(" .nil 1, .ofSource .varWord "var" .nil 1, name, semicolon,
      name, semicolon, name, .ofSource .equal "=" .nil 1, .ofSource .nilWord "nil" .nil 1,
      .ofSource .rightParen ")" .nil 1, .ofSource .printWord "print" .nil 1, name, semicolon,
      endMark]
    let body := Stmt.print (.variable name)
    let tree := Stmt.block [.var name none, .loop (.variable name)
      (.block [body, .expression (.assign name (.literal .nil))])]
    word.kind = .forWord ∧ (statement (word :: ts)).Yields tree [endMark] [] ∧
      ∃ clauses later body, (forClauses ts).Yields clauses later [] ∧
        (statement later).Yields body [endMark] [] ∧
        ∀ rounds m, visit ⟨0, rounds⟩ tree.toNode m = (do
          clauses.direct ⟨0, rounds⟩ body
          return .nil : Run Value) m := by
  intro name semicolon word endMark ts body tree
  have hRead : (statement (word :: ts)).Yields tree [endMark] [] := by
    refine ⟨⟨List.suffix_append (word :: ts.dropLast) [endMark], by decide⟩, ?_⟩
    cbv
  obtain ⟨clauses, later, body, hClauses, hBody, hRuns, _⟩ := for_direct rfl hRead
  exact ⟨rfl, hRead, clauses, later, body, hClauses, hBody, hRuns⟩

end Treewalk
