import Treewalk.Proofs.Session.Steps

/-!
# Where every line can be written

A line of the trace is put together from lexemes, lines and values, and
what is printed is the text of a value. If every literal of a tree has a
text without halves, and the lexemes and lines of its tokens have such a
text, then so has every value the tree can make, and no run of it ends for
want of a text (`Discipline.told`), malformed or not. Trees of source
texts are of this kind, so a session that loads no other tree never stops
for what cannot be written (`writable_after`).
-/

namespace Treewalk

/-! ## Trees -/

/-- A scope all of whose frames bind names to values that can be shown. -/
def Scope.Showable (s : Scope) : Prop :=
  s.Holds fun v => Treewalk.Showable v.text?

/-- A halt that is not for want of a text. -/
def Halt.Told : Halt → Prop
  | .error t what => Showable (failureLine t what)
  | .unwritable _ => False
  | .fault | .misnomer | .spent => True

/-- An error about a token that can be shown can be told. -/
theorem Misuse.About.told {t : Token} {what : Misuse} (h : what.About t) (ht : t.Showable) :
    (Halt.ofMisuse t what).Told := by
  have hText : Showable what.text? := h.showable ht.lexeme
  have hLine : Showable (failureLine t what) := showable_failureLine ht.line hText
  obtain ⟨text, hText⟩ := hText
  rw [Halt.ofMisuse, hText]
  exact hLine

/-- A bound on what an operator makes is one on its value, and on no error. -/
theorem allows_told {t : Token} (ht : t.Showable) {result : Except Misuse Value}
    (hAbout : ∀ what, result = .error what → what.About t)
    (hValue : ∀ v, result = .ok v → Showable v.text?) :
    Allows (fun v => Showable v.text?) Halt.Told t result := by
  cases result with
  | ok v => exact hValue v rfl
  | error what => exact (hAbout what rfl).told ht

theorem showable_bool (b : Bool) : Showable (Value.bool b).text? := by
  cases b <;> exact ⟨_, rfl⟩

theorem showable_number (x : Float) : Showable (Value.number x).text? :=
  ⟨_, rfl⟩

theorem showable_applyUnary {operator : Token} {b v : Value}
    (h : applyUnary operator b = .ok v) : Showable v.text? := by
  unfold applyUnary at h
  split at h
  · cases h
    exact showable_bool _
  · split at h <;> cases h
    exact showable_number _
  · cases h

/-- A sum of texts without halves has none. -/
theorem showable_applyBinary {operator : Token} {a b v : Value} (ha : Showable a.text?)
    (hb : Showable b.text?) (h : applyBinary operator a b = .ok v) : Showable v.text? := by
  unfold applyBinary applyNumeric at h
  split at h
  · split at h
    · cases h
      exact showable_number _
    · obtain ⟨s, hs⟩ := ha
      obtain ⟨t, ht⟩ := hb
      cases hs
      cases ht
      cases h
      exact ⟨_, rfl⟩
    · cases h
  · cases h
    exact showable_bool _
  · cases h
    exact showable_bool _
  · split at h
    · split at h <;> cases h <;> first | exact showable_number _ | exact showable_bool _
    · cases h

/-- Values and tokens that can be shown, in trees that may be malformed. -/
def Discipline.told : Discipline where
  value v := Showable v.text?
  halt := Halt.Told
  token _ t := t.Showable
  malformed := True
  traced := True
  nil := ⟨_, rfl⟩
  spoken := by
    rintro v ⟨text, hText⟩ hNone
    rw [hText] at hNone
    cases hNone
  shown _ := Showable.accepts
  showable := id
  spent := trivial
  fault _ := trivial
  misnomer _ _ := trivial
  undefined {t} ht := Misuse.About.told (show (Misuse.undefined t.lexeme).About t from rfl) ht
  unary ht _ := allows_told ht (fun _ => applyUnary_about) fun _ => showable_applyUnary
  binary ht ha hb := allows_told ht (fun _ => applyBinary_about) fun _ => showable_applyBinary ha hb

/-! ## Trees of source texts -/

/-- One discipline allows in a tree all that another does. -/
structure Discipline.Within (d d' : Discipline) : Prop where
  value {v : Value} : d.value v → d'.value v
  token {role : Role} {t : Token} : d.token role t → d'.token role t
  malformed : d.malformed → d'.malformed

namespace Discipline.Within

variable {d d' : Discipline}

theorem marks (h : d.Within d') {role : Role} {t? : Option Token} (ht : d.Marks role t?) :
    d'.Marks role t? := by
  cases t? with
  | some t => exact h.token ht
  | none => exact h.malformed ht

mutual

theorem under (h : d.Within d') : (n : Node) → n.Under d → n.Under d'
  | .absent, hn | .token _, hn | .list _, hn => h.malformed hn
  | .literal _, hn => h.value hn
  | .grouping inner, hn | .expression inner, hn | .print inner, hn => h.under inner hn
  | .variable _, hn => h.marks hn
  | .assign _ value, ⟨hName, hValue⟩ => ⟨h.marks hName, h.under value hValue⟩
  | .unary _ right, ⟨hOperator, hRight⟩ => ⟨h.marks hOperator, h.under right hRight⟩
  | .logical left _ right, ⟨hLeft, hOperator, hRight⟩
  | .binary left _ right, ⟨hLeft, hOperator, hRight⟩ =>
    ⟨h.under left hLeft, h.marks hOperator, h.under right hRight⟩
  | .var _ initializer, ⟨hName, hInitializer⟩ =>
    ⟨h.marks hName, hInitializer.imp_right (h.under initializer)⟩
  | .block statements, hn => h.allUnder statements hn
  | .branch condition consequence alternative, ⟨hTest, hThen, hElse⟩ =>
    ⟨h.under condition hTest, h.under consequence hThen, hElse.imp_right (h.under alternative)⟩
  | .loop condition body, ⟨hTest, hBody⟩ => ⟨h.under condition hTest, h.under body hBody⟩

theorem allUnder (h : d.Within d') : (ns : List Node) → Node.AllUnder d ns → Node.AllUnder d' ns
  | [], _ => trivial
  | n :: rest, ⟨hn, hRest⟩ => ⟨h.under n hn, h.allUnder rest hRest⟩

end

end Discipline.Within

theorem Discipline.plain_within (names : String → Prop) :
    (Discipline.plain False True names).Within .told where
  value := Value.PlainUnless.showable
  token := And.left
  malformed := False.elim

/-! ## Sessions -/

namespace Session

/-- What the entries of a source text that are there stand for can be shown. -/
theorem present_showable (s : Session) (source : String) :
    Node.AllUnder .told (present ((s.parse source).1.map Stmt.toNode?)) := by
  obtain ⟨entries, rest, notes, hParse, hSound⟩ := parse_scan_sound source (scan_supplies source)
  rw [entries_parse, hParse, Parse.entries, present_toNodes]
  exact (Discipline.plain_within _).allUnder _ (Stmt.AllSound.under _ hSound)

/-- A way to end that is not for want of a text, in frames whose values can
be shown. -/
structure Writable (ending : Ending) (s : Session) : Prop where
  ending : ∀ why, ending ≠ .unwritable why
  scope : s.machine.scope.Showable

variable {s : Session}

theorem writable_finished (h : s.machine.scope.Showable) : Writable .finished s := by
  refine ⟨fun why hEnd => ?_, h⟩
  cases hEnd

theorem writable_conclude {ending : Except Halt Unit} {m : Machine}
    (h : Discipline.told.Outcome (fun _ => True) (ending, m)) :
    Writable (s.conclude (ending, m)).1 (s.conclude (ending, m)).2 := by
  cases ending using ending_cases with
  | done => exact writable_finished h.2
  | failed t what =>
    obtain ⟨⟨line, hLine⟩, hScope⟩ := h
    rw [conclude, concludeError_of_whole _ hLine]
    apply writable_finished
    rw [scope_report, scope_trace]
    exact hScope
  | fault | misnomer | spent => exact ⟨(fun _ hEnd => by cases hEnd), h.2⟩
  | unwritable why => exact h.1.elim

theorem writable_interpret (h : s.machine.scope.Showable)
    {program : List Node} (hProgram : Node.AllUnder .told (present program)) :
    Writable (s.interpret program).1 (s.interpret program).2 := by
  have hOpened : (s.opened program).scope.Showable := by
    rw [opened, scope_trace]
    exact h
  rw [interpret_eq]
  exact writable_conclude (visitAll_disciplined (fun _ => trivial) _ hProgram _ hOpened)

theorem showable_parse (h : s.machine.scope.Showable) (source : String) :
    (s.parse source).2.machine.scope.Showable := by
  rw [scope_parse]
  exact h

theorem writable_run (h : s.machine.scope.Showable) (source : String) :
    Writable (s.run source).1 (s.run source).2 := by
  simp only [Session.run]
  split
  · exact writable_finished (showable_parse h source)
  · exact writable_interpret (showable_parse h source) (s.present_showable source)

theorem writable_converse (h : s.machine.scope.Showable)
    (lines : List String) : Writable (s.converse lines).ending (s.converse lines).session := by
  induction lines generalizing s with
  | nil => exact writable_finished h
  | cons line rest ih =>
    have hRun := writable_run (s := (s.write .prompted).reset) h line
    rw [Session.converse]
    split
    · exact writable_finished h
    · split
      · next hEnd =>
        rw [hEnd] at hRun
        exact ih hRun.scope
      · next hEnd =>
        rw [hEnd] at hRun
        exact hRun

/-- A step that loads no tree but one whose literals and tokens can be
shown. -/
def Step.Showable : Step → Prop
  | .load data => ∀ program, Node.programOfJson data = .ok program →
      Node.AllUnder .told (present program)
  | _ => True

theorem Writable.performed {ending : Ending} (h : Writable ending s) :
    (∀ why, (.ok ending : Except LoadError Ending) ≠ .ok (.unwritable why)) ∧
      s.machine.scope.Showable :=
  ⟨fun why hEnd => h.ending why (Except.ok.inj hEnd), h.scope⟩

theorem showable_start (settings : Settings) : (start settings).machine.scope.Showable :=
  Scope.holds_empty

end Session

end Treewalk
