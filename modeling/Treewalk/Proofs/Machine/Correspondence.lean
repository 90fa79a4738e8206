import Treewalk.Proofs.Machine.Safety

/-!
# Runs that correspond

What holds of every run is shown in one way: it holds of the smallest runs,
and every way to put runs together keeps it. A correspondence is a relation
between two runs with one clause for each way in which the walk puts runs
together. It holds between the walks of two trees that are alike
(`visit_corresponds`), and the walk is followed once for all of them.

Two trees are alike if they have the same shape and the tokens in the same
places stand to each other as asked (`Node.Alike`). Whether a tree may be
malformed is part of the question, so that the same theorem speaks of every
tree that can be loaded and of the proper trees alone.

A property of one run is a correspondence that does not look at the other
one. The case met most often is a relation between the machine before a
run and the machine behind it (`visit_moves`).
-/

namespace Treewalk

/-! ## Trees that are alike -/

/-- What two trees may differ in. -/
structure Likeness where
  /-- What is asked of two tokens in the same place. -/
  token : Token → Token → Prop
  /-- Whether a tree may be malformed. -/
  malformed : Prop

/-- The likeness of every tree to itself. -/
def Likeness.same : Likeness := ⟨Eq, True⟩

/-- What stands in two places for a token. -/
inductive Likeness.Marks (like : Likeness) : Option Token → Option Token → Prop
  | token {t t' : Token} (h : like.token t t') : like.Marks (some t) (some t')
  | missing (h : like.malformed) : like.Marks none none

/-- Whether a node can be visited at all. -/
def Node.visitable : Node → Bool
  | .absent | .token _ | .list _ => false
  | _ => true

mutual

/-- A node of the same shape, with tokens that stand to those of this one
as asked. -/
def Node.Alike (like : Likeness) : Node → Node → Prop
  | .absent, n => like.malformed ∧ n.visitable = false
  | .token _, n => like.malformed ∧ n.visitable = false
  | .list _, n => like.malformed ∧ n.visitable = false
  | .literal value, n => n = .literal value
  | .grouping inner, n => ∃ inner', n = .grouping inner' ∧ inner.Alike like inner'
  | .variable name, n => ∃ name', n = .variable name' ∧ like.Marks name.token? name'.token?
  | .assign name value, n => ∃ name' value', n = .assign name' value' ∧
      like.Marks name.token? name'.token? ∧ value.Alike like value'
  | .logical left operator right, n => ∃ left' operator' right',
      n = .logical left' operator' right' ∧ left.Alike like left' ∧
      like.Marks operator.token? operator'.token? ∧ right.Alike like right'
  | .unary operator right, n => ∃ operator' right', n = .unary operator' right' ∧
      like.Marks operator.token? operator'.token? ∧ right.Alike like right'
  | .binary left operator right, n => ∃ left' operator' right',
      n = .binary left' operator' right' ∧ left.Alike like left' ∧
      like.Marks operator.token? operator'.token? ∧ right.Alike like right'
  | .expression inner, n => ∃ inner', n = .expression inner' ∧ inner.Alike like inner'
  | .print inner, n => ∃ inner', n = .print inner' ∧ inner.Alike like inner'
  | .var name .absent, n => ∃ name', n = .var name' .absent ∧
      like.Marks name.token? name'.token?
  | .var name initializer, n => ∃ name' initializer', n = .var name' initializer' ∧
      initializer' ≠ .absent ∧ like.Marks name.token? name'.token? ∧
      initializer.Alike like initializer'
  | .block statements, n => ∃ statements', n = .block statements' ∧
      Node.AllAlike like statements statements'
  | .branch condition consequence .absent, n => ∃ condition' consequence',
      n = .branch condition' consequence' .absent ∧ condition.Alike like condition' ∧
      consequence.Alike like consequence'
  | .branch condition consequence alternative, n => ∃ condition' consequence' alternative',
      n = .branch condition' consequence' alternative' ∧ alternative' ≠ .absent ∧
      condition.Alike like condition' ∧ consequence.Alike like consequence' ∧
      alternative.Alike like alternative'
  | .loop condition body, n => ∃ condition' body', n = .loop condition' body' ∧
      condition.Alike like condition' ∧ body.Alike like body'

/-- Nodes in a row that are alike one by one. -/
def Node.AllAlike (like : Likeness) : List Node → List Node → Prop
  | [], ns => ns = []
  | node :: rest, ns => ∃ node' rest', ns = node' :: rest' ∧ node.Alike like node' ∧
      Node.AllAlike like rest rest'

end

theorem Likeness.Marks.self (t? : Option Token) : Likeness.same.Marks t? t? := by
  cases t? with
  | none => exact .missing trivial
  | some t => exact .token rfl

mutual

/-- Every node is like itself. -/
theorem Node.alike_self : (n : Node) → n.Alike .same n
  | .absent | .token _ | .list _ => by
    rw [Node.Alike]
    exact ⟨trivial, rfl⟩
  | .literal value => by rw [Node.Alike]
  | .grouping inner | .expression inner | .print inner => by
    rw [Node.Alike]
    exact ⟨_, rfl, inner.alike_self⟩
  | .variable name => by
    rw [Node.Alike]
    exact ⟨_, rfl, .self _⟩
  | .assign name value => by
    rw [Node.Alike]
    exact ⟨_, _, rfl, .self _, value.alike_self⟩
  | .unary operator right => by
    rw [Node.Alike]
    exact ⟨_, _, rfl, .self _, right.alike_self⟩
  | .logical left operator right | .binary left operator right => by
    rw [Node.Alike]
    exact ⟨_, _, _, rfl, left.alike_self, .self _, right.alike_self⟩
  | .var name initializer => by
    by_cases h : initializer = .absent
    · subst h
      rw [Node.Alike]
      exact ⟨_, rfl, .self _⟩
    · rw [Node.Alike]
      · exact ⟨_, _, rfl, h, .self _, initializer.alike_self⟩
      · exact h
  | .block statements => by
    rw [Node.Alike]
    exact ⟨_, rfl, Node.allAlike_self statements⟩
  | .branch condition consequence alternative => by
    by_cases h : alternative = .absent
    · subst h
      rw [Node.Alike]
      exact ⟨_, _, rfl, condition.alike_self, consequence.alike_self⟩
    · rw [Node.Alike]
      · exact ⟨_, _, _, rfl, h, condition.alike_self, consequence.alike_self,
          alternative.alike_self⟩
      · exact h
  | .loop condition body => by
    rw [Node.Alike]
    exact ⟨_, _, rfl, condition.alike_self, body.alike_self⟩

theorem Node.allAlike_self : (ns : List Node) → Node.AllAlike .same ns ns
  | [] => by rw [Node.AllAlike]
  | n :: rest => by
    rw [Node.AllAlike]
    exact ⟨_, _, rfl, n.alike_self, Node.allAlike_self rest⟩

end

/-! ## The lines of the trace -/

/-- What is found where the lines of two trees are looked for: one line if
their tokens are the same, or a fault in either. -/
inductive Likeness.Lines (like : Likeness) : Except Halt Json → Except Halt Json → Prop
  | found {line line' : Json} (h : (∀ t t', like.token t t' → t = t') → line = line') :
    like.Lines (.ok line) (.ok line')
  | missing (h : like.malformed) : like.Lines (.error .fault) (.error .fault)

theorem Likeness.Lines.none {like : Likeness} : like.Lines (.ok .null) (.ok .null) :=
  .found fun _ => rfl

theorem Likeness.Marks.ownLine {like : Likeness} {n n' : Node}
    (h : like.Marks n.token? n'.token?) : like.Lines n.ownLine n'.ownLine := by
  unfold Node.ownLine
  generalize n.token? = t? at h ⊢
  generalize n'.token? = t?' at h ⊢
  cases h with
  | token ht => exact .found fun hSame => congrArg Token.line (hSame _ _ ht)
  | missing hm => exact .missing hm

theorem Node.line_of_not_visitable {n : Node} (h : n.visitable = false) : n.line = .ok .null := by
  cases n with
  | absent | token | list => rfl
  | _ => cases h

/-- Trees that are alike have a line both or neither. -/
theorem Node.Alike.line {like : Likeness} :
    {n n' : Node} → n.Alike like n' → like.Lines n.line n'.line
  | .absent, _, hn | .token _, _, hn | .list _, _, hn => by
    rw [Node.Alike] at hn
    rw [line_of_not_visitable hn.2]
    exact .none
  | .literal _, _, hn => by
    rw [Node.Alike] at hn
    rw [hn]
    exact .none
  | .grouping _, _, hn => by
    rw [Node.Alike] at hn
    obtain ⟨_, rfl, hInner⟩ := hn
    exact hInner.line
  | .variable _, _, hn => by
    rw [Node.Alike] at hn
    obtain ⟨_, rfl, hName⟩ := hn
    exact hName.ownLine
  | .assign _ _, _, hn | .unary _ _, _, hn => by
    rw [Node.Alike] at hn
    obtain ⟨_, _, rfl, hMark, -⟩ := hn
    exact hMark.ownLine
  | .logical _ _ _, _, hn | .binary _ _ _, _, hn => by
    rw [Node.Alike] at hn
    obtain ⟨_, _, _, rfl, -, hMark, -⟩ := hn
    exact hMark.ownLine
  | .expression _, _, hn | .print _, _, hn | .block _, _, hn => by
    rw [Node.Alike] at hn
    obtain ⟨_, rfl, -⟩ := hn
    exact .none
  | .loop _ _, _, hn => by
    rw [Node.Alike] at hn
    obtain ⟨_, _, rfl, -⟩ := hn
    exact .none
  | .var _ initializer, n', hn => by
    have hVar : n'.line = .ok .null := by
      unfold Node.Alike at hn
      split at hn <;> grind [Node.line]
    rw [hVar]
    exact .none
  | .branch _ _ _, n', hn => by
    have hBranch : n'.line = .ok .null := by
      unfold Node.Alike at hn
      grind [Node.line]
    rw [hBranch]
    exact .none

/-- A line of the trace that can be put together, or in which an integer is
too long. -/
def Tellable (line : Except Halt Text) : Prop :=
  (∃ text, line = .ok text) ∨ line = .error (.unwritable .longInteger)

theorem tellable_spelled (text? : Option Text) : Tellable (spelled text?) := by
  cases text? with
  | some text => exact .inl ⟨text, rfl⟩
  | none => exact .inr rfl

theorem Tellable.bind {line : Except Halt Text} (h : Tellable line)
    {next : Text → Except Halt Text} (hNext : ∀ text, Tellable (next text)) :
    Tellable (line >>= next) := by
  rcases h with ⟨text, rfl⟩ | rfl
  · exact hNext text
  · exact .inr rfl

/-- A line that is not written halts for what is shown in it. -/
theorem Tellable.stop {line : Except Halt Text} (h : Tellable line) {stop : Halt}
    (hStop : writable line = .error stop) : ∃ why, stop = .unwritable why := by
  rcases h with ⟨text | text, rfl⟩ | rfl <;> cases hStop <;> exact ⟨_, rfl⟩

/-- So does a value that is not printed. -/
theorem stop_of_spelled {text? : Option Text} {stop : Halt} (hStop : spelled text? = .error stop) :
    ∃ why, stop = .unwritable why := by
  cases text? <;> cases hStop
  exact ⟨_, rfl⟩

theorem tellable_defineLine (t : Token) (v : Value) (depth : Nat) :
    Tellable (defineLine t v depth) :=
  (tellable_spelled _).bind fun _ => (tellable_spelled _).bind fun _ => .inl ⟨_, rfl⟩

theorem tellable_assignLine (t : Token) (v : Value) : Tellable (assignLine t v) :=
  (tellable_spelled _).bind fun _ => (tellable_spelled _).bind fun _ => .inl ⟨_, rfl⟩

theorem tellable_branchLine {n : Node} {line : Json} (h : n.line = .ok line) (taken : Bool) :
    Tellable (branchLine n taken) := by
  rw [branchLine, h]
  exact (tellable_spelled _).bind fun _ => .inl ⟨_, rfl⟩

theorem tellable_loopLine {n : Node} {line : Json} (h : n.line = .ok line) (count : Nat) :
    Tellable (loopLine n count) := by
  rw [loopLine, h]
  exact (tellable_spelled _).bind fun _ => .inl ⟨_, rfl⟩

/-! ## Runs -/

namespace Run

variable {α β : Type}

theorem required_some (t : Token) (next : Token → Run β) :
    (required (some t) >>= next) = next t := rfl

theorem required_none (next : Token → Run β) :
    (required none >>= next) = .halt .fault := rfl

/-- One round of a loop, and the rounds behind it. -/
theorem repeatWhile_succ (test : Run Bool) (body : Run Unit) (rounds count : Nat) :
    repeatWhile test body (rounds + 1) count = (do
      if ← test then
        body
        repeatWhile test body rounds (count + 1)
      else done count) := by
  funext m
  simp only [repeatWhile]
  cases h : test m with
  | mk ending later =>
    cases ending with
    | error halt => rw [bind_of_error h]
    | ok goes =>
      rw [bind_of_ok h]
      cases goes with
      | false => rfl
      | true =>
        cases h' : body later with
        | mk ending' last =>
          cases ending' with
          | ok => simp [h', bind_of_ok h']
          | error halt => simp [h', bind_of_error h']

/-- A run that never ends with a value. -/
def Halts (run : Run α) : Prop :=
  ∀ m v, (run m).1 ≠ .ok v

namespace Halts

theorem halt (h : Halt) : Halts (.halt h : Run α) :=
  fun _ _ => nofun

theorem bind {run : Run α} (h : Halts run) (next : α → Run β) : Halts (run >>= next) := by
  intro m v
  cases hRun : run m with
  | mk ending later =>
    cases ending with
    | ok w => exact absurd (congrArg Prod.fst hRun) (h m w)
    | error halt =>
      rw [bind_of_error hRun]
      exact nofun

theorem behind (run : Run α) {next : α → Run β} (h : ∀ v, Halts (next v)) :
    Halts (run >>= next) := by
  intro m v
  cases hRun : run m with
  | mk ending later =>
    cases ending with
    | ok w =>
      rw [bind_of_ok hRun]
      exact h w later v
    | error halt =>
      rw [bind_of_error hRun]
      exact nofun

theorem repeatWhile {test : Run Bool} (h : Halts test) (body : Run Unit) (rounds count : Nat) :
    Halts (.repeatWhile test body rounds count) := by
  cases rounds with
  | zero => exact halt _
  | succ rounds =>
    rw [repeatWhile_succ]
    exact h.bind _

/-- What would come behind such a run does not count. -/
theorem bind_eq {run : Run α} (h : Halts run) (next next' : α → Run β) :
    run >>= next = run >>= next' := by
  funext m
  cases hRun : run m with
  | mk ending later =>
    cases ending with
    | ok w => exact absurd (congrArg Prod.fst hRun) (h m w)
    | error halt => rw [bind_of_error hRun, bind_of_error hRun]

end Halts

end Run

theorem Node.token?_of_ownLine {n : Node} {stop : Halt} (h : n.ownLine = .error stop) :
    n.token? = none := by
  unfold ownLine at h
  split at h
  · cases h
  · next hNone => exact hNone

/-- A node without a line, because what the line is looked for in is no
token, does not end with a value. -/
theorem visit_halts (σ : Settings) (n : Node) {stop : Halt} (h : n.line = .error stop) :
    (visit σ n).Halts := by
  match n with
  | .binary left operator right =>
    rw [visit, Node.token?_of_ownLine h]
    exact .behind _ fun _ => .behind _ fun _ => .bind (.halt _) _
  | .logical left operator right =>
    rw [visit, Node.token?_of_ownLine h]
    exact .behind _ fun _ => .bind (.halt _) _
  | .unary operator right =>
    rw [visit, Node.token?_of_ownLine h]
    exact .behind _ fun _ => .bind (.halt _) _
  | .variable name =>
    rw [visit, Node.token?_of_ownLine h]
    exact .bind (.halt _) _
  | .assign name value =>
    rw [visit, Node.token?_of_ownLine h]
    exact .behind _ fun _ => .bind (.halt _) _
  | .grouping inner =>
    rw [visit]
    exact visit_halts σ inner h
  | .absent | .token _ | .list _ | .literal _ | .expression _ | .print _ | .var _ _ | .block _
  | .branch _ _ _ | .loop _ _ => cases h

/-- A relation between runs that is kept by the ways in which a walk under
one kind of settings and a walk under another put their runs together. A
line of the trace may differ only where none is written, and if it cannot
be put together that is never for a fault. -/
structure Correspondence (σ τ : Settings) (like : Likeness)
    (R : {α : Type} → Run α → Run α → Prop) : Prop where
  done {α : Type} (v : α) : R (.done v) (.done v)
  bind {α β : Type} {run run' : Run α} {next next' : α → Run β} :
    R run run' → (∀ v, R (next v) (next' v)) → R (run >>= next) (run' >>= next')
  fault {α : Type} : like.malformed → R (.halt .fault : Run α) (.halt .fault)
  print (v : Value) : R (.print v) (.print v)
  trace {level : Nat} {line line' : Except Halt Text} : 0 < level → Tellable line →
    Tellable line' → (0 < σ.verbosity → line = line') →
    R (.trace σ level line) (.trace τ level line')
  depth : R .depth .depth
  lookup {t t' : Token} : like.token t t' → R (.lookup t) (.lookup t')
  define {t t' : Token} (v : Value) : like.token t t' → R (.define t v) (.define t' v)
  assign {t t' : Token} (v : Value) : like.token t t' → R (.assign t v) (.assign t' v)
  unary {t t' : Token} (b : Value) : like.token t t' →
    R (.ofResult t (applyUnary t b)) (.ofResult t' (applyUnary t' b))
  binary {t t' : Token} (a b : Value) : like.token t t' →
    R (.ofResult t (applyBinary t a b)) (.ofResult t' (applyBinary t' a b))
  inFrame {α : Type} {run run' : Run α} : R run run' → R (.inFrame run) (.inFrame run')
  repeatWhile {test test' : Run Bool} {body body' : Run Unit} : R test test' → R body body' →
    R (.repeatWhile test body σ.rounds 0) (.repeatWhile test' body' τ.rounds 0)
  kind {t t' : Token} : like.token t t' → t.kind = t'.kind
  same : 0 < σ.verbosity → ∀ t t', like.token t t' → t = t'

namespace Correspondence

variable {σ τ : Settings} {like : Likeness} {R : {α : Type} → Run α → Run α → Prop}

theorem required (c : Correspondence σ τ like R) {α : Type} {t? t?' : Option Token}
    (h : like.Marks t? t?') {next next' : Token → Run α}
    (hNext : ∀ t t', like.token t t' → R (next t) (next' t')) :
    R (Run.required t? >>= next) (Run.required t?' >>= next') := by
  cases h with
  | token ht =>
    rw [Run.required_some, Run.required_some]
    exact hNext _ _ ht
  | missing hm =>
    rw [Run.required_none, Run.required_none]
    exact c.fault hm

/-- A definition with its line in the trace. -/
theorem defined (c : Correspondence σ τ like R) {t t' : Token} (v : Value) (h : like.token t t') :
    R (do
        Run.define t v
        Run.trace σ 2 (defineLine t v (← Run.depth))
        return Value.nil)
      (do
        Run.define t' v
        Run.trace τ 2 (defineLine t' v (← Run.depth))
        return Value.nil) := by
  refine c.bind (c.define v h) fun _ => c.bind c.depth fun _ => ?_
  refine c.bind (c.trace (by decide) (tellable_defineLine t v _) (tellable_defineLine t' v _)
    fun hLoud => ?_) fun _ => c.done _
  rw [c.same hLoud t t' h]

/-- Behind a run that needs the line of a node to be there, it is there. -/
theorem lined (c : Correspondence σ τ like R) {α β : Type} {n n' : Node} (h : n.Alike like n')
    {run run' : Run α} (hRun : R run run') (hHalts : ∀ stop, n.line = .error stop → run.Halts)
    (hHalts' : ∀ stop, n'.line = .error stop → run'.Halts) {next next' : α → Run β}
    (hNext : ∀ line line', n.line = .ok line → n'.line = .ok line' →
      (0 < σ.verbosity → line = line') → ∀ v, R (next v) (next' v)) :
    R (run >>= next) (run' >>= next') := by
  have hLines := h.line
  generalize hn : n.line = found at hLines
  generalize hn' : n'.line = found' at hLines
  cases hLines with
  | found hSame => exact c.bind hRun (hNext _ _ hn hn' fun hLoud => hSame (c.same hLoud))
  | missing hMalformed =>
    rw [(hHalts _ hn).bind_eq next fun _ => .halt .fault,
      (hHalts' _ hn').bind_eq next' fun _ => .halt .fault]
    exact c.bind hRun fun _ => c.fault hMalformed

/-- A condition, and the line of the choice behind it. -/
theorem chosen (c : Correspondence σ τ like R) {β : Type} {n n' : Node} (h : n.Alike like n')
    (hRun : R (visit σ n) (visit τ n')) {next next' : Value → Run β}
    (hNext : ∀ v, R (next v) (next' v)) :
    R (do
        let v ← visit σ n
        Run.trace σ 3 (branchLine n v.truthy)
        next v)
      (do
        let v ← visit τ n'
        Run.trace τ 3 (branchLine n' v.truthy)
        next' v) := by
  refine c.lined h hRun (fun _ => visit_halts σ n) (fun _ => visit_halts τ n') ?_
  intro line line' hn hn' hSame v
  refine c.bind (c.trace (by decide) (tellable_branchLine hn _) (tellable_branchLine hn' _)
    fun hLoud => ?_) fun _ => hNext v
  rw [branchLine, branchLine, hn, hn', hSame hLoud]

/-- A loop, and its line behind it. -/
theorem looped (c : Correspondence σ τ like R) {β : Type} {n n' : Node} (h : n.Alike like n')
    {test test' : Run Bool} {body body' : Run Unit} (hTest : R test test') (hBody : R body body')
    (hHalts : (visit σ n).Halts → test.Halts) (hHalts' : (visit τ n').Halts → test'.Halts)
    {next next' : Run β} (hNext : R next next') :
    R (do
        let count ← Run.repeatWhile test body σ.rounds 0
        Run.trace σ 3 (loopLine n count)
        next)
      (do
        let count ← Run.repeatWhile test' body' τ.rounds 0
        Run.trace τ 3 (loopLine n' count)
        next') := by
  refine c.lined h (c.repeatWhile hTest hBody)
    (fun _ hn => (hHalts (visit_halts σ n hn)).repeatWhile _ _ _)
    (fun _ hn' => (hHalts' (visit_halts τ n' hn')).repeatWhile _ _ _) ?_
  intro line line' hn hn' hSame count
  refine c.bind (c.trace (by decide) (tellable_loopLine hn _) (tellable_loopLine hn' _)
    fun hLoud => ?_) fun _ => hNext
  rw [loopLine, loopLine, hn, hn', hSame hLoud]

end Correspondence

theorem visit_of_not_visitable (settings : Settings) {n : Node} (h : n.visitable = false) :
    visit settings n = .halt .fault := by
  cases n with
  | absent | token | list => rw [visit]
  | _ => cases h

theorem visit_var_of_ne (settings : Settings) (name : Node) {initializer : Node}
    (h : initializer ≠ .absent) :
    visit settings (.var name initializer) = (do
      let v ← visit settings initializer
      let name ← Run.required name.token?
      Run.define name v
      Run.trace settings 2 (defineLine name v (← Run.depth))
      return .nil) := by
  rw [visit]
  exact h

theorem visit_branch_of_ne (settings : Settings) (condition consequence : Node)
    {alternative : Node} (h : alternative ≠ .absent) :
    visit settings (.branch condition consequence alternative) = (do
      let v ← visit settings condition
      Run.trace settings 3 (branchLine condition v.truthy)
      if v.truthy then
        let _ ← visit settings consequence
        return .nil
      else do
        let _ ← visit settings alternative
        return .nil) := by
  rw [visit]
  exact h

section Walk

variable {σ τ : Settings} {like : Likeness} {R : {α : Type} → Run α → Run α → Prop}

mutual

/-- The walks of two nodes that are alike correspond. -/
theorem visit_corresponds (c : Correspondence σ τ like R) : (n : Node) → {n' : Node} →
    n.Alike like n' → R (visit σ n) (visit τ n')
  | .absent, _, h | .token _, _, h | .list _, _, h => by
    rw [Node.Alike] at h
    rw [visit_of_not_visitable σ rfl, visit_of_not_visitable τ h.2]
    exact c.fault h.1
  | .literal value, _, h => by
    rw [Node.Alike] at h
    rw [h, visit, visit]
    exact c.done value
  | .grouping inner, _, h => by
    rw [Node.Alike] at h
    obtain ⟨inner', rfl, hInner⟩ := h
    rw [visit, visit]
    exact visit_corresponds c inner hInner
  | .variable name, _, h => by
    rw [Node.Alike] at h
    obtain ⟨name', rfl, hName⟩ := h
    rw [visit, visit]
    exact c.required hName fun _ _ ht => c.lookup ht
  | .assign name value, _, h => by
    rw [Node.Alike] at h
    obtain ⟨name', value', rfl, hName, hValue⟩ := h
    rw [visit, visit]
    refine c.bind (visit_corresponds c value hValue) fun v => c.required hName fun t t' ht => ?_
    refine c.bind (c.assign v ht) fun _ => c.bind (c.trace (by decide) (tellable_assignLine t v)
      (tellable_assignLine t' v) fun hLoud => ?_) fun _ => c.done v
    rw [c.same hLoud t t' ht]
  | .logical left operator right, _, h => by
    rw [Node.Alike] at h
    obtain ⟨left', operator', right', rfl, hLeft, hOperator, hRight⟩ := h
    rw [visit, visit]
    refine c.bind (visit_corresponds c left hLeft) fun a => c.required hOperator fun t t' ht => ?_
    rw [c.kind ht]
    split
    · exact c.done a
    · exact visit_corresponds c right hRight
  | .unary operator right, _, h => by
    rw [Node.Alike] at h
    obtain ⟨operator', right', rfl, hOperator, hRight⟩ := h
    rw [visit, visit]
    exact c.bind (visit_corresponds c right hRight) fun b =>
      c.required hOperator fun _ _ ht => c.unary b ht
  | .binary left operator right, _, h => by
    rw [Node.Alike] at h
    obtain ⟨left', operator', right', rfl, hLeft, hOperator, hRight⟩ := h
    rw [visit, visit]
    exact c.bind (visit_corresponds c left hLeft) fun a =>
      c.bind (visit_corresponds c right hRight) fun b =>
      c.required hOperator fun _ _ ht => c.binary a b ht
  | .expression inner, _, h => by
    rw [Node.Alike] at h
    obtain ⟨inner', rfl, hInner⟩ := h
    rw [visit, visit]
    exact c.bind (visit_corresponds c inner hInner) fun _ => c.done _
  | .print inner, _, h => by
    rw [Node.Alike] at h
    obtain ⟨inner', rfl, hInner⟩ := h
    rw [visit, visit]
    exact c.bind (visit_corresponds c inner hInner) fun v =>
      c.bind (c.print v) fun _ => c.done _
  | .var name initializer, _, h => by
    by_cases hNone : initializer = .absent
    · subst hNone
      rw [Node.Alike] at h
      obtain ⟨name', rfl, hName⟩ := h
      rw [visit, visit]
      exact c.required hName fun _ _ ht => c.defined .nil ht
    · rw [Node.Alike] at h
      · obtain ⟨name', initializer', rfl, hSome, hName, hInitializer⟩ := h
        rw [visit_var_of_ne σ name hNone, visit_var_of_ne τ name' hSome]
        exact c.bind (visit_corresponds c initializer hInitializer) fun v =>
          c.required hName fun _ _ ht => c.defined v ht
      · exact hNone
  | .block statements, _, h => by
    rw [Node.Alike] at h
    obtain ⟨statements', rfl, hStatements⟩ := h
    rw [visit, visit]
    exact c.bind (c.inFrame (visitAll_corresponds c statements hStatements)) fun _ => c.done _
  | .branch condition consequence alternative, _, h => by
    by_cases hNone : alternative = .absent
    · subst hNone
      rw [Node.Alike] at h
      obtain ⟨condition', consequence', rfl, hTest, hThen⟩ := h
      rw [visit, visit]
      refine c.chosen hTest (visit_corresponds c condition hTest) fun v => ?_
      split
      · exact c.bind (visit_corresponds c consequence hThen) fun _ => c.done _
      · exact c.done _
    · rw [Node.Alike] at h
      · obtain ⟨condition', consequence', alternative', rfl, hSome, hTest, hThen, hElse⟩ := h
        rw [visit_branch_of_ne σ _ _ hNone, visit_branch_of_ne τ _ _ hSome]
        refine c.chosen hTest (visit_corresponds c condition hTest) fun v => ?_
        split
        · exact c.bind (visit_corresponds c consequence hThen) fun _ => c.done _
        · exact c.bind (visit_corresponds c alternative hElse) fun _ => c.done _
      · exact hNone
  | .loop condition body, _, h => by
    rw [Node.Alike] at h
    obtain ⟨condition', body', rfl, hTest, hBody⟩ := h
    rw [visit, visit]
    refine c.looped hTest ?_ ?_ (fun h => h.bind _) (fun h => h.bind _) (c.done _)
    · exact c.bind (visit_corresponds c condition hTest) fun v => c.done v.truthy
    · exact c.bind (visit_corresponds c body hBody) fun _ => c.done ()

/-- The walks of nodes in a row that are alike correspond. -/
theorem visitAll_corresponds (c : Correspondence σ τ like R) : (ns : List Node) →
    {ns' : List Node} → Node.AllAlike like ns ns' → R (visitAll σ ns) (visitAll τ ns')
  | [], _, h => by
    rw [Node.AllAlike] at h
    rw [h, visitAll, visitAll]
    exact c.done ()
  | n :: rest, _, h => by
    rw [Node.AllAlike] at h
    obtain ⟨n', rest', rfl, hn, hRest⟩ := h
    rw [visitAll, visitAll]
    exact c.bind (visit_corresponds c n hn) fun _ => visitAll_corresponds c rest hRest

end

end Walk

/-! ## Equal bounds -/

/-- With as many rounds on either side a loop corresponds round by round. -/
theorem Run.repeatWhile_corresponds {R : {α : Type} → Run α → Run α → Prop}
    (hDone : ∀ count : Nat, R (.done count) (.done count))
    (hBind : ∀ {α β : Type} {run run' : Run α} {next next' : α → Run β}, R run run' →
      (∀ v, R (next v) (next' v)) → R (run >>= next) (run' >>= next'))
    (hSpent : R (.halt .spent : Run Nat) (.halt .spent)) {test test' : Run Bool}
    {body body' : Run Unit} (hTest : R test test') (hBody : R body body') (rounds count : Nat) :
    R (.repeatWhile test body rounds count) (.repeatWhile test' body' rounds count) := by
  induction rounds generalizing count with
  | zero => exact hSpent
  | succ rounds ih =>
    rw [Run.repeatWhile_succ, Run.repeatWhile_succ]
    refine hBind hTest fun goes => ?_
    cases goes with
    | true => exact hBind hBody fun _ => ih (count + 1)
    | false => exact hDone count

/-! ## From machine to machine -/

/-- A relation between machines that is kept by everything a program does:
it holds where nothing is done and goes on from one thing to the next. -/
structure Motion (K : Machine → Machine → Prop) : Prop where
  refl (m : Machine) : K m m
  trans {m later last : Machine} : K m later → K later last → K m last
  print (m : Machine) (line : Text) : K m { m with log := .printed line :: m.log }
  trace (m : Machine) (line : String) : K m { m with log := .traced line :: m.log }
  define (m : Machine) (name : Name) (v : Value) :
    K m { m with scope := m.scope.define name v }
  assign {m : Machine} {name : Name} {v : Value} {scope : Scope} :
    m.scope.assign? name v = some scope → K m { m with scope := scope }
  inFrame {m later : Machine} : K { m with scope := m.scope.push } later →
    K m { later with scope := later.scope.pop }

namespace Motion

variable {K : Machine → Machine → Prop} {α β : Type}

theorem bind (h : Motion K) {run : Run α} {next : α → Run β} (hRun : ∀ m, K m (run m).2)
    (hNext : ∀ v m, K m (next v m).2) (m : Machine) : K m ((run >>= next) m).2 := by
  have hFirst := hRun m
  cases hEnd : run m with
  | mk ending later =>
    rw [hEnd] at hFirst
    cases ending with
    | ok v =>
      rw [Run.bind_of_ok hEnd]
      exact h.trans hFirst (hNext v later)
    | error halt =>
      rw [Run.bind_of_error hEnd]
      exact hFirst

theorem writeLine (h : Motion K) {γ : Type} {event : γ → Event}
    (hEvent : ∀ m line, K m { m with log := event line :: m.log }) (line : Except Halt γ)
    (m : Machine) : K m (Run.writeLine event line m).2 := by
  cases line with
  | ok line => exact hEvent m line
  | error stop => exact h.refl m

theorem ofResult (h : Motion K) (t : Token) (result : Except Misuse Value) (m : Machine) :
    K m (Run.ofResult t result m).2 := by
  cases result <;> exact h.refl m

theorem withName (h : Motion K) (t : Token) {next : Name → Run α}
    (hNext : ∀ name m, K m (next name m).2) (m : Machine) : K m ((Run.nameOf t >>= next) m).2 := by
  refine h.bind (fun m => ?_) hNext m
  rw [Run.nameOf]
  cases Name.ofJson? t.lexeme <;> exact h.refl m

theorem correspondence (h : Motion K) (σ : Settings) :
    Correspondence σ σ .same fun run _ => ∀ m, K m (run m).2 where
  done _ m := h.refl m
  bind := h.bind
  fault _ m := h.refl m
  print v := h.writeLine h.print _
  trace := by
    intro level line _ _ _ _ _ m
    unfold Run.trace
    split
    · exact h.writeLine h.trace (writable line) m
    · exact h.refl m
  depth m := h.refl m
  lookup _ := by
    refine h.withName _ fun name m => ?_
    split <;> exact h.refl m
  define v _ := h.withName _ fun name m => h.define m name v
  assign v _ := by
    refine h.withName _ fun name m => ?_
    split
    · next hFound => exact h.assign hFound
    · exact h.refl m
  unary _ _ := h.ofResult _ _
  binary _ _ _ := h.ofResult _ _
  inFrame hRun m := h.inFrame (hRun _)
  repeatWhile := by
    intro test test' body body' hTest hBody
    exact @Run.repeatWhile_corresponds (fun run _ => ∀ m, K m (run m).2) (fun _ m => h.refl m)
      h.bind (fun m => h.refl m) test test' body body' hTest hBody σ.rounds 0
  kind := by
    rintro t _ rfl
    rfl
  same _ _ _ := id

end Motion

/-- A walk goes from machine to machine by what a program does. -/
theorem visit_moves {K : Machine → Machine → Prop} (h : Motion K) (settings : Settings) (n : Node)
    (m : Machine) : K m (visit settings n m).2 :=
  visit_corresponds (h.correspondence settings) n n.alike_self m

theorem visitAll_moves {K : Machine → Machine → Prop} (h : Motion K) (settings : Settings)
    (ns : List Node) (m : Machine) : K m (visitAll settings ns m).2 :=
  visitAll_corresponds (h.correspondence settings) ns (Node.allAlike_self ns) m

end Treewalk
