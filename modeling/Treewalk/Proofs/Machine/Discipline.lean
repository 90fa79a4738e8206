import Treewalk.Machine.Visit

/-!
# Walks that keep to a discipline

A discipline says which values the frames may hold, which tokens may stand
where, and which halts are allowed. A tree under a discipline, run in
frames that hold such values, ends with such a value or in an allowed
halt, and the frames hold such values again (`visit_disciplined`).

That a run keeps to a discipline is a property that every way to put runs
together keeps, so the walk is followed form by form, and once for all
disciplines. A tree may be malformed where the discipline allows a fault.
-/

namespace Treewalk

/-! ## What frames hold -/

/-- A frame that binds names to such values only. -/
def Frame.Holds (value : Value → Prop) (f : Frame) : Prop :=
  ∀ binding ∈ f.bindings, value binding.2

/-- A scope all of whose frames hold such values only. -/
def Scope.Holds (value : Value → Prop) (s : Scope) : Prop :=
  ∀ f ∈ s.frames, f.Holds value

section

variable {value : Value → Prop}

theorem Frame.holds_empty : Frame.empty.Holds value := by
  intro binding hMem
  cases hMem

theorem Frame.Holds.define {f : Frame} (h : f.Holds value) {v : Value} (hv : value v)
    (name : Name) : (f.define name v).Holds value := by
  unfold Holds Frame.define at *
  revert h
  induction f.bindings with
  | nil =>
    intro _ binding hMem
    rw [List.mem_singleton.mp hMem]
    exact hv
  | cons first rest ih =>
    intro h
    obtain ⟨n, w⟩ := first
    obtain ⟨hw, hRest⟩ := List.forall_mem_cons.mp h
    rw [put]
    split
    · exact List.forall_mem_cons.mpr ⟨hv, hRest⟩
    · exact List.forall_mem_cons.mpr ⟨hw, ih hRest⟩

theorem Frame.Holds.get? {f : Frame} (h : f.Holds value) {name : Name} {v : Value}
    (hv : f.get? name = some v) : value v := by
  obtain ⟨before, after, hBindings, -⟩ := List.lookup_eq_some_iff.mp hv
  exact h (name, v) (by rw [hBindings]; simp)

theorem Frame.holds_assign? {frames later : List Frame} {name : Name} {v : Value}
    (h : ∀ f ∈ frames, f.Holds value) (hv : value v)
    (hLater : Frame.assign? name v frames = some later) : ∀ f ∈ later, f.Holds value := by
  induction frames generalizing later with
  | nil => cases hLater
  | cons f rest ih =>
    obtain ⟨hf, hRest⟩ := List.forall_mem_cons.mp h
    rw [Frame.assign?] at hLater
    split at hLater
    · cases hLater
      exact List.forall_mem_cons.mpr ⟨hf.define hv name, hRest⟩
    · obtain ⟨others, hOthers, rfl⟩ := Option.map_eq_some_iff.mp hLater
      exact List.forall_mem_cons.mpr ⟨hf, ih hRest hOthers⟩

namespace Scope

theorem holds_iff {s : Scope} :
    s.Holds value ↔ (∀ f ∈ s.inner, f.Holds value) ∧ s.globals.Holds value := by
  rw [Holds, frames, List.forall_mem_append, List.forall_mem_singleton]

theorem holds_empty : Scope.empty.Holds value :=
  holds_iff.mpr ⟨List.forall_mem_nil _, Frame.holds_empty⟩

theorem Holds.get? {s : Scope} (h : s.Holds value) {name : Name} {v : Value}
    (hv : s.get? name = some v) : value v := by
  obtain ⟨f, hf, hBound⟩ := List.exists_of_findSome?_eq_some hv
  exact (h f hf).get? hBound

theorem Holds.define {s : Scope} (h : s.Holds value) {v : Value} (hv : value v) (name : Name) :
    (s.define name v).Holds value := by
  obtain ⟨hInner, hGlobals⟩ := holds_iff.mp h
  obtain ⟨inner, globals⟩ := s
  cases inner with
  | nil => exact holds_iff.mpr ⟨hInner, hGlobals.define hv name⟩
  | cons f rest =>
    obtain ⟨hf, hRest⟩ := List.forall_mem_cons.mp hInner
    exact holds_iff.mpr ⟨List.forall_mem_cons.mpr ⟨hf.define hv name, hRest⟩, hGlobals⟩

theorem Holds.assign? {s later : Scope} (h : s.Holds value) {name : Name} {v : Value}
    (hv : value v) (hLater : s.assign? name v = some later) : later.Holds value := by
  obtain ⟨hInner, hGlobals⟩ := holds_iff.mp h
  rw [Scope.assign?] at hLater
  split at hLater
  · next inner hAssigned =>
    cases hLater
    exact holds_iff.mpr ⟨Frame.holds_assign? hInner hv hAssigned, hGlobals⟩
  · split at hLater
    · cases hLater
      exact holds_iff.mpr ⟨hInner, hGlobals.define hv name⟩
    · cases hLater

theorem Holds.push {s : Scope} (h : s.Holds value) : s.push.Holds value := by
  obtain ⟨hInner, hGlobals⟩ := holds_iff.mp h
  exact holds_iff.mpr ⟨List.forall_mem_cons.mpr ⟨Frame.holds_empty, hInner⟩, hGlobals⟩

theorem Holds.pop {s : Scope} (h : s.Holds value) : s.pop.Holds value := by
  obtain ⟨hInner, hGlobals⟩ := holds_iff.mp h
  exact holds_iff.mpr ⟨fun f hf => hInner f (List.mem_of_mem_drop hf), hGlobals⟩

end Scope

end

/-! ## Texts that can be written -/

/-- A text that is there and whole. -/
def Showable (text? : Option Text) : Prop :=
  ∃ line, text? = some (.whole line)

/-- A token whose lexeme and line can be shown. -/
structure Token.Showable (t : Token) : Prop where
  lexeme : Treewalk.Showable t.lexeme.text?
  line : Treewalk.Showable t.line.text?

/-- A line that can be written. -/
def Writable (line : Except Halt Text) : Prop :=
  ∃ text, line = .ok (.whole text)

/-- A line that is written, or if it is not halts in a way that is allowed. -/
def Accepts (halt : Halt → Prop) (line : Except Halt Text) : Prop :=
  ∀ stop, writable line = .error stop → halt stop

theorem Writable.accepts {halt : Halt → Prop} {line : Except Halt Text} (h : Writable line) :
    Accepts halt line := by
  obtain ⟨text, rfl⟩ := h
  exact fun _ => nofun

theorem Showable.accepts {halt : Halt → Prop} {text? : Option Text} (h : Showable text?) :
    Accepts halt (spelled text?) := by
  obtain ⟨line, rfl⟩ := h
  exact fun _ => nofun

/-- A line made from a text that may not be there. -/
theorem Accepts.bind {halt : Halt → Prop} {text? : Option Text} (h : Accepts halt (spelled text?))
    {next : Text → Except Halt Text}
    (hNext : ∀ text, Accepts halt (.ok text) → Accepts halt (next text)) :
    Accepts halt (spelled text? >>= next) := by
  cases text? with
  | none => exact h
  | some text => exact hNext text h

/-- A definition is traced where its value can be written. -/
theorem accepts_defineLine {halt : Halt → Prop} {t : Token} (ht : t.Showable) {v : Value}
    (hv : Accepts halt (spelled v.text?)) (depth : Nat) : Accepts halt (defineLine t v depth) := by
  obtain ⟨⟨lexeme, hLexeme⟩, -⟩ := ht
  unfold defineLine
  rw [hLexeme]
  refine hv.bind fun text hText => ?_
  cases text with
  | whole s => exact fun _ => nofun
  | torn t => exact hText

theorem accepts_assignLine {halt : Halt → Prop} {t : Token} (ht : t.Showable) {v : Value}
    (hv : Accepts halt (spelled v.text?)) : Accepts halt (assignLine t v) := by
  obtain ⟨⟨lexeme, hLexeme⟩, -⟩ := ht
  unfold assignLine
  rw [hLexeme]
  refine hv.bind fun text hText => ?_
  cases text with
  | whole s => exact fun _ => nofun
  | torn t => exact hText

theorem writable_branchLine {n : Node} {line : Json} (h : n.line = .ok line)
    (hLine : Showable line.text?) (taken : Bool) : Writable (branchLine n taken) := by
  obtain ⟨text, hText⟩ := hLine
  unfold Writable branchLine
  rw [h]
  show ∃ text, (do
    let line ← spelled line.text?
    return "if condition at line " ++ line ++ " -> " ++ (if taken then "True" else "False") :
    Except Halt Text) = .ok (.whole text)
  rw [hText]
  cases taken <;> exact ⟨_, rfl⟩

theorem writable_loopLine {n : Node} {line : Json} (h : n.line = .ok line)
    (hLine : Showable line.text?) (count : Nat) : Writable (loopLine n count) := by
  obtain ⟨text, hText⟩ := hLine
  unfold Writable loopLine
  rw [h]
  show ∃ text, (do
    let line ← spelled line.text?
    return "while loop at line " ++ line ++ " ran " ++ toString count ++ " time(s)" :
    Except Halt Text) = .ok (.whole text)
  rw [hText]
  exact ⟨_, rfl⟩

/-- An error with a text has a line in the trace. -/
theorem showable_failureLine {t : Token} (hLine : Showable t.line.text?) {what : Misuse}
    (h : Showable what.text?) : Showable (failureLine t what) := by
  obtain ⟨line, hLine⟩ := hLine
  obtain ⟨wording, hWording⟩ := h
  unfold Showable failureLine
  rw [hLine, hWording]
  exact ⟨_, rfl⟩

/-! ## What errors are about -/

/-- An error that names no lexeme but that of the token it is about. -/
def Misuse.About (t : Token) : Misuse → Prop
  | .notNumbersOrStrings | .notNumbers | .notANumber => True
  | .undefined lexeme | .unknownUnary lexeme | .unknownBinary lexeme => lexeme = t.lexeme

theorem applyUnary_about {operator : Token} {right : Value} {what : Misuse}
    (h : applyUnary operator right = .error what) : what.About operator := by
  unfold applyUnary at h
  split at h
  · cases h
  · split at h <;> cases h
    trivial
  · cases h
    rfl

theorem applyBinary_about {operator : Token} {left right : Value} {what : Misuse}
    (h : applyBinary operator left right = .error what) : what.About operator := by
  unfold applyBinary applyNumeric at h
  split at h
  · split at h <;> cases h
    trivial
  · cases h
  · cases h
  · split at h
    · split at h <;> cases h
      rfl
    · cases h
      trivial

/-- Such an error has a text if the lexeme has one. -/
theorem Misuse.About.showable {t : Token} {what : Misuse} (h : what.About t)
    (ht : Showable t.lexeme.text?) : Showable what.text? := by
  cases what with
  | notNumbersOrStrings | notNumbers | notANumber => exact ⟨_, rfl⟩
  | undefined | unknownUnary | unknownBinary =>
    obtain ⟨name, hName⟩ := ht
    cases h
    rw [Misuse.text?, hName]
    exact ⟨_, rfl⟩

/-! ## Disciplines -/

/-- What a token stands for in a tree. -/
inductive Role where
  | name | unary | binary | logical

/-- What an operator may make of its operands. -/
def Allows (value : Value → Prop) (halt : Halt → Prop) (t : Token) : Except Misuse Value → Prop
  | .ok v => value v
  | .error what => halt (.ofMisuse t what)

/-- What a walk keeps to. -/
structure Discipline where
  /-- The values that frames hold and expressions end with. -/
  value : Value → Prop
  /-- The halts a walk may end in. -/
  halt : Halt → Prop
  /-- The tokens that may stand in a role. -/
  token : Role → Token → Prop
  /-- Whether a tree may be malformed. -/
  malformed : Prop
  /-- Whether values may be traced. -/
  traced : Prop
  nil : value .nil
  spoken {v : Value} : value v → v.text? = none → halt (.unwritable .longInteger)
  shown {v : Value} : traced → value v → Accepts halt (spelled v.text?)
  showable {role : Role} {t : Token} : token role t → t.Showable
  spent : halt .spent
  fault : malformed → halt .fault
  misnomer {t : Token} : token .name t → Name.ofJson? t.lexeme = none → halt .misnomer
  undefined {t : Token} : token .name t → halt (.undefined t)
  unary {t : Token} {b : Value} : token .unary t → value b → Allows value halt t (applyUnary t b)
  binary {t : Token} {a b : Value} : token .binary t → value a → value b →
    Allows value halt t (applyBinary t a b)

/-- What stands for a token is one that may stand there. -/
def Discipline.Marks (d : Discipline) (role : Role) : Option Token → Prop
  | some t => d.token role t
  | none => d.malformed

mutual

/-- A tree that keeps to a discipline. -/
def Node.Under (d : Discipline) : Node → Prop
  | .absent | .token _ | .list _ => d.malformed
  | .literal value => d.value value
  | .grouping inner => inner.Under d
  | .variable name => d.Marks .name name.token?
  | .assign name value => d.Marks .name name.token? ∧ value.Under d
  | .logical left operator right =>
    left.Under d ∧ d.Marks .logical operator.token? ∧ right.Under d
  | .unary operator right => d.Marks .unary operator.token? ∧ right.Under d
  | .binary left operator right =>
    left.Under d ∧ d.Marks .binary operator.token? ∧ right.Under d
  | .expression inner => inner.Under d
  | .print inner => inner.Under d
  | .var name initializer =>
    d.Marks .name name.token? ∧ (initializer = .absent ∨ initializer.Under d)
  | .block statements => Node.AllUnder d statements
  | .branch condition consequence alternative =>
    condition.Under d ∧ consequence.Under d ∧ (alternative = .absent ∨ alternative.Under d)
  | .loop condition body => condition.Under d ∧ body.Under d

/-- Trees in a row that keep to a discipline. -/
def Node.AllUnder (d : Discipline) : List Node → Prop
  | [] => True
  | n :: rest => n.Under d ∧ Node.AllUnder d rest

end

/-- A run ended with a value of a sort or in an allowed halt, and the frames
hold what they may. -/
def Discipline.Outcome (d : Discipline) {α : Type} (sort : α → Prop) :
    Except Halt α × Machine → Prop
  | (.ok v, m) => sort v ∧ m.scope.Holds d.value
  | (.error h, m) => d.halt h ∧ m.scope.Holds d.value

/-- A run in frames that hold what they may has such an outcome. -/
def Run.Under (d : Discipline) {α : Type} (sort : α → Prop) (run : Run α) : Prop :=
  ∀ m, m.scope.Holds d.value → d.Outcome sort (run m)

namespace Run

variable {α β : Type}

theorem bind_of_ok {run : Run α} {next : α → Run β} {m later : Machine} {v : α}
    (h : run m = (.ok v, later)) : (run >>= next) m = next v later := by
  show Run.andThen run next m = next v later
  rw [Run.andThen, h]

theorem bind_of_error {run : Run α} {next : α → Run β} {m later : Machine} {halt : Halt}
    (h : run m = (.error halt, later)) : (run >>= next) m = (.error halt, later) := by
  show Run.andThen run next m = (.error halt, later)
  rw [Run.andThen, h]

end Run

namespace Run.Under

variable {d : Discipline} {α β : Type} {sort : α → Prop} {sort' : β → Prop}

theorem done {v : α} (h : sort v) : Under d sort (.done v) :=
  fun _ hm => ⟨h, hm⟩

theorem halt {h : Halt} (hh : d.halt h) : Under d sort (.halt h) :=
  fun _ hm => ⟨hh, hm⟩

theorem bind {run : Run α} {next : α → Run β} (h : Under d sort run)
    (hNext : ∀ v, sort v → Under d sort' (next v)) : Under d sort' (run >>= next) := by
  intro m hm
  have hRun := h m hm
  cases hEnd : run m with
  | mk ending later =>
    rw [hEnd] at hRun
    cases ending with
    | ok v =>
      rw [bind_of_ok hEnd]
      exact hNext v hRun.1 later hRun.2
    | error halt =>
      rw [bind_of_error hEnd]
      exact hRun

theorem pure {v : α} (h : sort v) : Under d sort (pure v : Run α) :=
  done h

theorem write (e : Event) : Under d (fun _ => True) (.write e) :=
  fun _ hm => ⟨trivial, hm⟩

theorem writeLine {γ : Type} (event : γ → Event) {line : Except Halt γ}
    (h : ∀ stop, line = .error stop → d.halt stop) :
    Under d (fun _ => True) (.writeLine event line) := by
  cases line with
  | ok line => exact write _
  | error stop => exact halt (h stop rfl)

theorem print {v : Value} (h : d.value v) : Under d (fun _ => True) (.print v) := by
  refine writeLine _ fun stop hStop => ?_
  cases hText : v.text? with
  | some text =>
    rw [hText] at hStop
    cases hStop
  | none =>
    rw [hText] at hStop
    cases hStop
    exact d.spoken h hText

theorem trace {settings : Settings} {level : Nat} {line : Except Halt Text}
    (h : level ≤ settings.verbosity → Accepts d.halt line) :
    Under d (fun _ => True) (.trace settings level line) := by
  unfold Run.trace
  split
  · next hLevel => exact writeLine _ (h hLevel)
  · exact done trivial

theorem depth : Under d (fun _ => True) .depth :=
  fun _ hm => ⟨trivial, hm⟩

/-- A token where one is required. -/
theorem required {role : Role} {t? : Option Token} (h : d.Marks role t?) :
    Under d (d.token role) (.required t?) := by
  cases t? with
  | some t => exact done h
  | none => exact halt (d.fault h)

/-- A run that asks for the name a token spells. -/
theorem withName {t : Token} (ht : d.token .name t) {next : Name → Run β}
    (hNext : ∀ name, Under d sort' (next name)) : Under d sort' (Run.nameOf t >>= next) := by
  have hName : Under d (fun _ => True) (Run.nameOf t) := by
    rw [Run.nameOf]
    cases hSpelled : Name.ofJson? t.lexeme with
    | some name => exact done trivial
    | none => exact halt (d.misnomer ht hSpelled)
  exact bind hName fun name _ => hNext name

theorem lookup {t : Token} (ht : d.token .name t) : Under d d.value (.lookup t) := by
  refine withName ht fun name m hm => ?_
  cases hFound : m.scope.get? name with
  | some v => exact ⟨hm.get? hFound, hm⟩
  | none => exact ⟨d.undefined ht, hm⟩

theorem define {t : Token} (ht : d.token .name t) {v : Value} (hv : d.value v) :
    Under d (fun _ => True) (.define t v) :=
  withName ht fun name _ hm => ⟨trivial, hm.define hv name⟩

theorem assign {t : Token} (ht : d.token .name t) {v : Value} (hv : d.value v) :
    Under d (fun _ => True) (.assign t v) := by
  refine withName ht fun name m hm => ?_
  cases hFound : m.scope.assign? name v with
  | some later => exact ⟨trivial, hm.assign? hv hFound⟩
  | none => exact ⟨d.undefined ht, hm⟩

theorem ofResult {t : Token} {result : Except Misuse Value} (h : Allows d.value d.halt t result) :
    Under d d.value (.ofResult t result) := by
  cases result with
  | ok v => exact done h
  | error what => exact halt h

theorem inFrame {run : Run α} (h : Under d sort run) : Under d sort (.inFrame run) := by
  intro m hm
  have hRun := h { m with scope := m.scope.push } hm.push
  rw [Run.inFrame]
  cases hEnd : run { m with scope := m.scope.push } with
  | mk ending later =>
    rw [hEnd] at hRun
    cases ending with
    | ok v => exact ⟨hRun.1, hRun.2.pop⟩
    | error halt => exact ⟨hRun.1, hRun.2.pop⟩

/-- A loop keeps what its condition and its body keep, round by round. -/
theorem repeatWhile {test : Run Bool} {body : Run Unit} (hTest : Under d (fun _ => True) test)
    (hBody : Under d (fun _ => True) body) (rounds count : Nat) :
    Under d (fun _ => True) (.repeatWhile test body rounds count) := by
  induction rounds generalizing count with
  | zero => exact halt d.spent
  | succ rounds ih =>
    intro m hm
    have hTested := hTest m hm
    simp only [Run.repeatWhile]
    cases hEnd : test m with
    | mk ending later =>
      rw [hEnd] at hTested
      match ending with
      | .ok false => exact hTested
      | .error halt => exact hTested
      | .ok true =>
        have hOnce := hBody later hTested.2
        cases hEnd' : body later with
        | mk ending' last =>
          rw [hEnd'] at hOnce
          match ending' with
          | .ok () =>
            simp only [hEnd']
            exact ih (count + 1) last hOnce.2
          | .error halt =>
            simp only [hEnd']
            exact hOnce

end Run.Under

/-! ## The walk -/

section Walk

variable {d : Discipline} {settings : Settings}

theorem Discipline.Marks.line {role : Role} {n : Node} (h : d.Marks role n.token?) :
    (∃ line, n.ownLine = .ok line ∧ Showable line.text?) ∨
      n.ownLine = .error .fault ∧ d.malformed := by
  unfold Node.ownLine
  cases hToken : n.token? with
  | some t =>
    rw [hToken] at h
    exact .inl ⟨t.line, rfl, (d.showable h).line⟩
  | none =>
    rw [hToken] at h
    exact .inr ⟨rfl, h⟩

/-- The line of a tree can be shown, unless the tree is malformed just
there. -/
theorem Node.Under.line : (n : Node) → n.Under d →
    (∃ line, n.line = .ok line ∧ Showable line.text?) ∨ n.line = .error .fault ∧ d.malformed
  | .binary _ _ _, h | .logical _ _ _, h => h.2.1.line
  | .unary _ _, h | .assign _ _, h => h.1.line
  | .variable _, h => Discipline.Marks.line h
  | .grouping inner, h => Node.Under.line inner h
  | .absent, _ | .token _, _ | .list _, _ | .literal _, _ | .expression _, _ | .print _, _
  | .var _ _, _ | .block _, _ | .branch _ _ _, _ | .loop _ _, _ => .inl ⟨.null, rfl, _, rfl⟩

theorem Node.Under.branchLine {n : Node} (h : n.Under d) (taken : Bool) :
    Accepts d.halt (branchLine n taken) := by
  rcases Node.Under.line n h with ⟨line, hOk, hLine⟩ | ⟨hFault, hMalformed⟩
  · exact (writable_branchLine hOk hLine taken).accepts
  · rw [Treewalk.branchLine, hFault]
    rintro _ ⟨⟩
    exact d.fault hMalformed

theorem Node.Under.loopLine {n : Node} (h : n.Under d) (count : Nat) :
    Accepts d.halt (loopLine n count) := by
  rcases Node.Under.line n h with ⟨line, hOk, hLine⟩ | ⟨hFault, hMalformed⟩
  · exact (writable_loopLine hOk hLine count).accepts
  · rw [Treewalk.loopLine, hFault]
    rintro _ ⟨⟩
    exact d.fault hMalformed

/-- A definition with its line in the trace. -/
theorem Run.Under.defined (hTraced : 2 ≤ settings.verbosity → d.traced) {t : Token}
    (ht : d.token .name t) {v : Value} (hv : d.value v) :
    (do
      Run.define t v
      Run.trace settings 2 (defineLine t v (← Run.depth))
      return Value.nil : Run Value).Under d d.value := by
  refine .bind (.define ht hv) fun _ _ => .bind .depth fun _ _ => ?_
  refine .bind (.trace fun hLevel => ?_) fun _ _ => ?_
  · exact accepts_defineLine (d.showable ht) (d.shown (hTraced hLevel) hv) _
  exact .pure d.nil

mutual

/-- A tree under a discipline ends with a value as the discipline has them,
or in a halt that it allows. -/
theorem visit_disciplined (hTraced : 2 ≤ settings.verbosity → d.traced) : (n : Node) → n.Under d →
    (visit settings n).Under d d.value
  | .absent, h | .token _, h | .list _, h => by
    rw [visit]
    exact .halt (d.fault h)
  | .literal value, h => by
    rw [visit]
    exact .done h
  | .grouping inner, h => by
    rw [visit]
    exact visit_disciplined hTraced inner h
  | .variable name, h => by
    rw [visit]
    exact .bind (.required h) fun _ ht => .lookup ht
  | .assign name value, ⟨hName, hValue⟩ => by
    rw [visit]
    refine .bind (visit_disciplined hTraced value hValue) fun v hv => ?_
    refine .bind (.required hName) fun t ht => .bind (.assign ht hv) fun _ _ => ?_
    refine .bind (.trace fun hLevel => ?_) fun _ _ => .pure hv
    exact accepts_assignLine (d.showable ht) (d.shown (hTraced hLevel) hv)
  | .logical left operator right, ⟨hLeft, hOperator, hRight⟩ => by
    rw [visit]
    refine .bind (visit_disciplined hTraced left hLeft) fun a ha => ?_
    refine .bind (.required hOperator) fun t _ => ?_
    split
    · exact .pure ha
    · exact visit_disciplined hTraced right hRight
  | .unary operator right, ⟨hOperator, hRight⟩ => by
    rw [visit]
    refine .bind (visit_disciplined hTraced right hRight) fun b hb => ?_
    exact .bind (.required hOperator) fun _ ht => .ofResult (d.unary ht hb)
  | .binary left operator right, ⟨hLeft, hOperator, hRight⟩ => by
    rw [visit]
    refine .bind (visit_disciplined hTraced left hLeft) fun a ha => ?_
    refine .bind (visit_disciplined hTraced right hRight) fun b hb => ?_
    exact .bind (.required hOperator) fun _ ht => .ofResult (d.binary ht ha hb)
  | .expression inner, h => by
    rw [visit]
    exact .bind (visit_disciplined hTraced inner h) fun _ _ => .pure d.nil
  | .print inner, h => by
    rw [visit]
    refine .bind (visit_disciplined hTraced inner h) fun v hv => ?_
    exact .bind (.print hv) fun _ _ => .pure d.nil
  | .var name initializer, ⟨hName, hInitializer⟩ => by
    by_cases hNone : initializer = .absent
    · subst hNone
      rw [visit]
      exact .bind (.required hName) fun t ht => .defined hTraced ht d.nil
    · rw [visit]
      · refine .bind (visit_disciplined hTraced initializer
          (hInitializer.resolve_left hNone)) fun v hv => ?_
        exact .bind (.required hName) fun t ht => .defined hTraced ht hv
      · exact hNone
  | .block statements, h => by
    rw [visit]
    exact .bind (.inFrame (visitAll_disciplined hTraced statements h)) fun _ _ => .pure d.nil
  | .branch condition consequence alternative, ⟨hTest, hThen, hElse⟩ => by
    by_cases hNone : alternative = .absent
    · subst hNone
      rw [visit]
      refine .bind (visit_disciplined hTraced condition hTest) fun v _ => ?_
      refine .bind (.trace fun _ => hTest.branchLine v.truthy) fun _ _ => ?_
      split
      · exact .bind (visit_disciplined hTraced consequence hThen) fun _ _ => .pure d.nil
      · exact .pure d.nil
    · rw [visit]
      · refine .bind (visit_disciplined hTraced condition hTest) fun v _ => ?_
        refine .bind (.trace fun _ => hTest.branchLine v.truthy) fun _ _ => ?_
        split
        · exact .bind (visit_disciplined hTraced consequence hThen) fun _ _ => .pure d.nil
        · exact .bind (visit_disciplined hTraced alternative (hElse.resolve_left hNone))
            fun _ _ => .pure d.nil
      · exact hNone
  | .loop condition body, ⟨hTest, hBody⟩ => by
    rw [visit]
    refine .bind (.repeatWhile ?_ ?_ settings.rounds 0) fun count _ => ?_
    · exact .bind (visit_disciplined hTraced condition hTest) fun _ _ => .pure trivial
    · exact .bind (visit_disciplined hTraced body hBody) fun _ _ => .pure trivial
    · exact .bind (.trace fun _ => hTest.loopLine count) fun _ _ => .pure d.nil

/-- Trees under a discipline, one after the other. -/
theorem visitAll_disciplined (hTraced : 2 ≤ settings.verbosity → d.traced) :
    (ns : List Node) → Node.AllUnder d ns →
    (visitAll settings ns).Under d (fun _ => True)
  | [], _ => by
    rw [visitAll]
    exact .done trivial
  | n :: rest, ⟨hn, hRest⟩ => by
    rw [visitAll]
    exact .bind (visit_disciplined hTraced n hn) fun _ _ =>
      visitAll_disciplined hTraced rest hRest

end

end Walk

end Treewalk
