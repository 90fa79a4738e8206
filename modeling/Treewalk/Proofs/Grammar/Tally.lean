import Treewalk.Proofs.Command.EmitAndLoad
import Treewalk.Proofs.Grammar.Calls
import Treewalk.Proofs.Grammar.CorrectPrefix

/-!
# One complaint for each failure

A declaration that fails is skipped over, and a block goes on behind it. So
what is complained about in a whole program depends on how often, at any
depth, a declaration was tried and failed, and on how often an assignment
was found to have no variable on its left.

The complaints are accounted for by the log of the reading: those about
assignment targets one by one, in order and with their signs
(`Step.Accounts`), and the others, which stop a rule, by the declarations
that failed (`Tally`). So no rule fails in silence, and none complains twice
on its way out (`complaints_per_call`).
-/

namespace Treewalk

/-! ## Notes and logs -/

/-- What notes have to do with a log, and what they have to do with it where
tokens ran out. It holds of parts of a reading together if it holds of
each. -/
structure Reckoning (γ : Type) where
  Holds : List Complaint → List γ → Prop
  Overrun : List Complaint → List γ → Prop
  append {notes more : List Complaint} {log later : List γ} :
    Holds notes log → Holds more later → Holds (notes ++ more) (log ++ later)
  append_overrun {notes more : List Complaint} {log later : List γ} :
    Holds notes log → Overrun more later → Overrun (notes ++ more) (log ++ later)

namespace Step

variable {ts rest : List Token} {α β γ : Type} {r : Reckoning γ}

/-- What a step notes is reckoned with by a log, and if it failed, then with
one complaint more that stops a rule. -/
def Reckoned (r : Reckoning γ) (log : List γ) : Step ts α → Prop
  | .done _ _ _ notes => r.Holds notes log
  | .failed why _ _ notes => r.Holds notes log ∧ why.Fatal
  | .overrun notes => r.Overrun notes log

namespace Reckoned

variable {log earlier : List γ}

theorem noting {step : Step ts α} (h : step.Reckoned r log) {before : List Complaint}
    (hBefore : r.Holds before earlier) : (step.noting before).Reckoned r (earlier ++ log) := by
  cases step with
  | done value rest left notes => exact r.append hBefore h
  | failed why rest kept notes => exact ⟨r.append hBefore h.1, h.2⟩
  | overrun notes => exact r.append_overrun hBefore h

theorem within {left : Left ts rest} {step : Step rest α} (h : step.Reckoned r log) :
    (step.within left).Reckoned r log := by
  cases step <;> exact h

theorem map {step : Step ts α} (h : step.Reckoned r log) (f : α → β) :
    (step.map f).Reckoned r log := by
  cases step <;> exact h

theorem andThen {step : Step ts α} (h : step.Reckoned r log)
    {next : (value : α) → (rest : List Token) → Left ts rest → Step ts β}
    {nextLog : (value : α) → (rest : List Token) → Left ts rest → List γ}
    (hNext : ∀ value rest left, (next value rest left).Reckoned r (nextLog value rest left)) :
    (step.andThen next).Reckoned r (log ++ step.behind nextLog) := by
  cases step with
  | done value rest left notes => exact (hNext value rest left).noting h
  | failed why rest kept notes =>
    rw [behind, List.append_nil]
    exact h
  | overrun notes =>
    rw [behind, List.append_nil]
    exact h

theorem within_andThen {step : Step rest α} (h : step.Reckoned r log) {left : Left ts rest}
    {next : (value : α) → (more : List Token) → Left ts more → Step ts β}
    {nextLog : (value : α) → (more : List Token) → Left rest more → List γ}
    (hNext : ∀ value more used,
      (next value more (left.trans used)).Reckoned r (nextLog value more used)) :
    ((step.within left).andThen next).Reckoned r (log ++ step.behind nextLog) := by
  cases step with
  | done value more used notes => exact (hNext value more used).noting h
  | failed why more kept notes =>
    rw [behind, List.append_nil]
    exact h
  | overrun notes =>
    rw [behind, List.append_nil]
    exact h

/-- What comes behind a step may leave nothing in the log. -/
theorem followed {step : Step ts α} (h : step.Reckoned r log)
    {next : (value : α) → (rest : List Token) → Left ts rest → Step ts β}
    (hNext : ∀ value rest left, (next value rest left).Reckoned r []) :
    (step.andThen next).Reckoned r log := by
  have hBoth := h.andThen hNext
  cases step <;> simpa only [behind, List.append_nil] using hBoth

end Reckoned

end Step

/-! ## Expressions are accounted for -/

/-- The notes are the complaints of the assignments. -/
def Reckoning.byAssignments : Reckoning Assignment where
  Holds notes log := notes = log.filterMap Assignment.complaint?
  Overrun notes log := notes = log.filterMap Assignment.complaint?
  append h k := by rw [h, k, List.filterMap_append]
  append_overrun h k := by rw [h, k, List.filterMap_append]

namespace Step

variable {ts rest : List Token} {α : Type} {log : List Assignment}

/-- What a step notes are the complaints of the assignments it met. -/
abbrev Accounts (log : List Assignment) (step : Step ts α) : Prop :=
  step.Reckoned .byAssignments log

/-- The right side of an assignment, and the assignment itself. -/
theorem Accounts.assigned {step : Step rest Expr} (h : step.Accounts log) {left : Left ts rest}
    (target : Expr) (equals : Token) :
    ((step.within left).andThen fun value rest left =>
      let (result, notes) := assignTo target equals value
      .done result rest left notes).Accounts (log ++ [⟨target, equals, step.value?⟩]) := by
  -- a value that could not be read leaves nothing to complain about
  have hNone : (log ++ [Assignment.mk target equals none]).filterMap Assignment.complaint? =
      log.filterMap Assignment.complaint? := by
    rw [List.filterMap_append]
    cases target <;> exact List.append_nil _
  cases step with
  | done value later used notes =>
    have hOwn : (assignTo target equals value).2 =
        [⟨target, equals, some value⟩].filterMap Assignment.complaint? := by
      cases target <;> rfl
    have hNotes : notes = log.filterMap Assignment.complaint? := h
    show notes ++ (assignTo target equals value).2 = _
    rw [hNotes, hOwn, List.filterMap_append]
    rfl
  | failed why later kept notes => exact And.intro (h.1.trans hNone.symm) h.2
  | overrun notes => exact Eq.trans h hNone.symm

end Step

theorem expect_accounts (kind : Kind) {reason : Reason} (h : reason ≠ .assignmentTarget)
    (ts : List Token) : (expect kind reason ts).Accounts [] := by
  cases ts with
  | nil => exact rfl
  | cons t rest =>
    rw [expect]
    split
    · exact rfl
    · exact ⟨rfl, h⟩

theorem unaryCalls_sign {t : Token} (ht : t.kind ∈ [.bang, .minus]) (rest : List Token) :
    unaryCalls (t :: rest) = unaryCalls rest := by
  rw [unaryCalls, if_pos ht]

theorem unaryCalls_group {t : Token} (ht : t.kind = .leftParen) (rest : List Token) :
    unaryCalls (t :: rest) = expressionCalls rest := by
  rw [unaryCalls, if_neg (by rw [ht]; decide), if_pos ht]

theorem unaryCalls_other {t : Token} (ht : t.kind ∉ [.bang, .minus, .leftParen])
    (rest : List Token) : unaryCalls (t :: rest) = [] := by
  rw [unaryCalls, if_neg (by grind), if_neg (by grind)]

theorem expressions_accounted : ExpressionInduction
    (fun ts => (expression ts).Accounts (expressionCalls ts))
    (fun level? ts => (chain level? ts).Accounts (chainCalls level? ts))
    (fun level ts => ∀ origin first (left : Left origin ts),
      (operands level first ts left).Accounts (operandsCalls level ts))
    (fun ts => (unary ts).Accounts (unaryCalls ts)) where
  expression ts first behind := by
    rw [expression, expressionCalls]
    refine first.andThen ?_
    intro target rest left
    cases rest with
    | nil => exact rfl
    | cons equals more =>
      by_cases he : equals.kind = .equal
      · simp only [he, if_true]
        exact (behind more left.tail).assigned target equals
      · simp only [he, if_false]
        exact rfl
  chain_none ts inner := by
    rw [chain, chainCalls]
    exact inner
  chain_some level ts first behind := by
    rw [chain, chainCalls]
    refine first.andThen ?_
    intro operand rest left
    exact behind rest left ts operand left
  operands_nil level origin first left := by
    rw [operands, operandsCalls]
    exact rfl
  operands_cons level operator rest second behind origin first left := by
    rw [operands, operandsCalls]
    by_cases ho : operator.kind ∈ level.operators
    · rw [if_pos ho, if_pos ho]
      cases hStep : chain level.tighter? rest with
      | done operand more used notes =>
        rw [hStep] at second
        exact (behind more used origin _ _).noting second
      | failed why more kept notes =>
        rw [hStep] at second
        rw [Step.behind, List.append_nil]
        exact second
      | overrun notes =>
        rw [hStep] at second
        rw [Step.behind, List.append_nil]
        exact second
    · rw [if_neg ho, if_neg ho]
      exact rfl
  unary_nil := by
    rw [unary, unaryCalls]
    exact rfl
  unary_cons t rest operand inner := by
    have hAtom : t.kind ∉ [.bang, .minus, .leftParen] → ∀ e : Expr,
        (Step.done e rest .head [] : Step (t :: rest) Expr).Accounts (unaryCalls (t :: rest)) := by
      intro ht e
      rw [unaryCalls_other ht]
      exact rfl
    rw [unary]
    split
    · next ht =>
      rw [unaryCalls_sign (by rw [ht]; decide)]
      exact operand.within.map _
    · next ht =>
      rw [unaryCalls_sign (by rw [ht]; decide)]
      exact operand.within.map _
    · next ht => exact hAtom (by rw [ht]; decide) _
    · next ht => exact hAtom (by rw [ht]; decide) _
    · next ht => exact hAtom (by rw [ht]; decide) _
    · next ht => exact hAtom (by rw [ht]; decide) _
    · next ht => exact hAtom (by rw [ht]; decide) _
    · next ht => exact hAtom (by rw [ht]; decide) _
    · next ht =>
      rw [unaryCalls_group ht]
      refine inner.within.followed ?_
      intro e more left
      exact ((expect_accounts .rightParen (by decide) more).within).map _
    · rw [unaryCalls_other (by grind)]
      exact ⟨rfl, (by decide : Reason.expression ≠ .assignmentTarget)⟩

theorem expression_accounts (ts : List Token) :
    (expression ts).Accounts (expressionCalls ts) :=
  (expressions_accounted.all ts).1

/-! ## Statements that hold no statement -/

theorem expressionThen_accounts (kind : Kind) {reason : Reason} (h : reason ≠ .assignmentTarget)
    (ts : List Token) : (expressionThen kind reason ts).Accounts (expressionCalls ts) := by
  refine (expression_accounts ts).followed ?_
  intro e rest left
  exact ((expect_accounts kind h rest).within).map _

theorem expressionOr_accounts (kind : Kind) {reason : Reason} (h : reason ≠ .assignmentTarget)
    (ts : List Token) : (expressionOr kind reason ts).Accounts (expressionOrCalls kind ts) := by
  cases ts with
  | nil => exact rfl
  | cons t rest =>
    rw [expressionOr, expressionOrCalls]
    split
    · exact rfl
    · exact (expressionThen_accounts kind h (t :: rest)).map _

theorem condition_accounts {opening closing : Reason} (hOpening : opening ≠ .assignmentTarget)
    (hClosing : closing ≠ .assignmentTarget) (ts : List Token) :
    (condition opening closing ts).Accounts (conditionCalls opening ts) := by
  refine (expect_accounts .leftParen hOpening ts).andThen ?_
  intro _ rest left
  exact (expressionThen_accounts .rightParen hClosing rest).within

theorem variableDeclaration_accounts (ts : List Token) :
    (variableDeclaration ts).Accounts (variableDeclarationCalls ts) := by
  refine (expect_accounts .identifier (by decide) ts).andThen ?_
  intro name rest left
  cases rest with
  | nil => exact rfl
  | cons t more =>
    by_cases ht : t.kind = .equal
    · simp only [ht, if_true]
      exact ((expressionThen_accounts .semicolon (by decide) more).within).map _
    · simp only [ht, if_false]
      exact ((expect_accounts .semicolon (by decide) (t :: more)).within).map _

theorem forInitializer_accounts (ts : List Token) :
    (forInitializer ts).Accounts (forInitializerCalls ts) := by
  cases ts with
  | nil => exact rfl
  | cons t rest =>
    simp only [forInitializer]
    split
    · next ht =>
      rw [forInitializerCalls, if_pos ht]
      exact rfl
    · next ht =>
      rw [forInitializerCalls, if_neg (by rw [ht]; decide), if_pos ht]
      exact ((variableDeclaration_accounts rest).within).map _
    · next hSemicolon hVar =>
      rw [forInitializerCalls, if_neg hSemicolon, if_neg hVar]
      exact ((expressionThen_accounts .semicolon (by decide) (t :: rest)).map _).map _

theorem forClauses_accounts (ts : List Token) :
    (forClauses ts).Accounts (forClausesCalls ts) := by
  refine (expect_accounts .leftParen (by decide) ts).andThen ?_
  intro _ rest left
  refine (forInitializer_accounts rest).within_andThen ?_
  intro initializer rest left
  refine (expressionOr_accounts .semicolon (by decide) rest).within_andThen ?_
  intro condition rest left
  exact ((expressionOr_accounts .rightParen (by decide) rest).within).map _

/-! ## Programs are accounted for -/

/-- As many complaints that stop a rule as declarations that failed, and as
many others as misplaced assignments. -/
structure Tally (notes : List Complaint) (calls : List Call) : Prop where
  failed : notes.countP (fun c => decide c.Fatal) = calls.countP Call.failed
  misplaced : notes.countP (fun c => decide (¬ c.Fatal)) = calls.countP Call.misplaced

namespace Tally

theorem nil : Tally [] [] :=
  ⟨rfl, rfl⟩

theorem append {notes more : List Complaint} {calls later : List Call} (h : Tally notes calls)
    (k : Tally more later) : Tally (notes ++ more) (calls ++ later) := by
  constructor
  · rw [List.countP_append, List.countP_append, h.failed, k.failed]
  · rw [List.countP_append, List.countP_append, h.misplaced, k.misplaced]

/-- A declaration that was read has nothing to complain about itself. -/
theorem read (start : List Token) (s : Stmt) : Tally [] [.declaration start (some s)] :=
  ⟨rfl, rfl⟩

/-- One that failed has one complaint. -/
theorem failure {why : Complaint} (h : why.Fatal) (start : List Token) :
    Tally [why] [.declaration start none] := by
  constructor
  · rw [List.countP_singleton, decide_eq_true h]
    rfl
  · rw [List.countP_singleton, decide_eq_false (not_not.mpr h)]
    rfl

theorem assignments (log : List Assignment) :
    Tally (log.filterMap Assignment.complaint?) (log.map .assignment) := by
  induction log with
  | nil => exact nil
  | cons a rest ih =>
    have hFirst : Tally a.complaint?.toList [.assignment a] := by
      unfold Assignment.complaint?
      cases ha : a.misplaced with
      | true => exact ⟨rfl, by rw [List.countP_singleton, Call.misplaced, ha]; rfl⟩
      | false => exact ⟨rfl, by rw [List.countP_singleton, Call.misplaced, ha]; rfl⟩
    have hBoth := hFirst.append ih
    rw [List.filterMap_cons]
    cases hComplaint : a.complaint? with
    | none =>
      rw [hComplaint] at hBoth
      exact hBoth
    | some c =>
      rw [hComplaint] at hBoth
      exact hBoth

end Tally

/-- The notes agree with the calls in number, unless tokens ran out. -/
def Reckoning.byCalls : Reckoning Call where
  Holds := Tally
  Overrun _ _ := True
  append := Tally.append
  append_overrun _ _ := trivial

/-- What a step notes agrees in number with the calls it made. -/
abbrev Step.Tallies {ts : List Token} {α : Type} (calls : List Call) (step : Step ts α) : Prop :=
  step.Reckoned .byCalls calls

theorem Step.Accounts.tallies {ts : List Token} {α : Type} {step : Step ts α}
    {log : List Assignment} (h : step.Accounts log) : step.Tallies (log.map .assignment) := by
  cases step with
  | done value rest left notes =>
    obtain rfl : notes = _ := h
    exact Tally.assignments log
  | failed why rest kept notes =>
    obtain rfl : notes = _ := h.1
    exact ⟨Tally.assignments log, h.2⟩
  | overrun notes => trivial

/-- What a rule that was taken up again notes is accounted for by calls. -/
def Recovered.Tallies {ts : List Token} {α : Type} (calls : List Call) : Recovered ts α → Prop
  | .entry _ _ _ notes => Tally notes calls
  | .overrun _ => True

/-- With its own call a declaration accounts for the complaint it failed
with. -/
theorem recover_tallies {t : Token} {rest : List Token} (ht : t.kind ≠ .eof) {calls : List Call}
    {step : Step (t :: rest) Stmt} (h : step.Tallies calls) :
    (step.recover ht).Tallies (calls ++ (step.recover ht).call) := by
  cases step with
  | done value more left notes =>
    have hRead := Tally.append h (.read (t :: rest) value)
    rwa [List.append_nil] at hRead
  | failed why kept hk notes =>
    rw [Step.recover]
    split
    · trivial
    · exact h.1.append (.failure h.2 (t :: rest))
  | overrun notes => trivial

theorem statementCalls_expression {t : Token}
    (ht : t.kind ∉ [.forWord, .ifWord, .printWord, .whileWord, .leftBrace]) (rest : List Token) :
    statementCalls (t :: rest) = (expressionCalls (t :: rest)).map .assignment := by
  rw [statementCalls]
  split <;> simp_all

theorem statements_tallied : StatementInduction
    (fun ts => (statement ts).Tallies (statementCalls ts))
    (fun ts => ∀ test, (branches test ts).Tallies (branchesCalls ts))
    (fun t rest ht => (declaration t rest ht).Tallies (declarationCalls t rest ht))
    (fun ts => (block ts).Tallies (blockCalls ts)) where
  statement_nil := by
    rw [statement]
    trivial
  statement_cons t rest body others inner := by
    rw [statement]
    split
    · next ht =>
      simp only [statementCalls, ht]
      refine (forClauses_accounts rest).tallies.within_andThen ?_
      intro clauses more used
      exact ((body more (Left.head.trans used)).within).map _
    · next ht =>
      simp only [statementCalls, ht]
      refine (condition_accounts (by decide) (by decide) rest).tallies.within_andThen ?_
      intro test more used
      exact (others more (Left.head.trans used) test).within
    · next ht =>
      simp only [statementCalls, ht]
      exact ((expressionThen_accounts .semicolon (by decide) rest).tallies.within).map _
    · next ht =>
      simp only [statementCalls, ht]
      refine (condition_accounts (by decide) (by decide) rest).tallies.within_andThen ?_
      intro test more used
      exact ((body more (Left.head.trans used)).within).map _
    · next ht =>
      simp only [statementCalls, ht]
      exact (inner.within).map _
    · next hFor hIf hPrint hWhile hBrace =>
      have hNone : t.kind ∉ [.forWord, .ifWord, .printWord, .whileWord, .leftBrace] := by
        simp only [List.mem_cons, List.not_mem_nil, or_false, not_or]
        exact ⟨hFor, hIf, hPrint, hWhile, hBrace⟩
      rw [statementCalls_expression hNone]
      exact (expressionThen_accounts .semicolon (by decide) (t :: rest)).tallies.map _
  branches ts consequence alternative test := by
    rw [branches, branchesCalls]
    refine consequence.andThen ?_
    intro first rest left
    cases rest with
    | nil => trivial
    | cons t more =>
      by_cases ht : t.kind = .elseWord
      · simp only [ht, if_true]
        exact ((alternative more left.tail).within).map _
      · simp only [ht, if_false]
        exact Tally.nil
  declaration t rest ht inner := by
    rw [declarationCalls, declaration]
    split
    · exact recover_tallies ht (variableDeclaration_accounts rest).tallies.within
    · exact recover_tallies ht inner
  block_nil := by
    rw [block]
    trivial
  block_cons t rest first behind := by
    rw [block, blockCalls]
    by_cases hBrace : t.kind = .rightBrace
    · rw [if_pos hBrace, if_pos hBrace]
      exact Tally.nil
    · rw [if_neg hBrace, if_neg hBrace]
      by_cases ht : t.kind = .eof
      · rw [dif_pos ht, dif_pos ht]
        exact ⟨Tally.nil, (by decide : Reason.braceAfterBlock ≠ .assignmentTarget)⟩
      · rw [dif_neg ht, dif_neg ht]
        have hFirst := first ht
        cases hEntry : declaration t rest ht with
        | entry value more left notes =>
          rw [hEntry] at hFirst
          exact (((behind more left).within).map _).noting hFirst
        | overrun notes => trivial

theorem statement_tallies (ts : List Token) : (statement ts).Tallies (statementCalls ts) :=
  (statements_tallied.all ts).1

theorem declaration_tallies (t : Token) (rest : List Token) (ht : t.kind ≠ .eof) :
    (declaration t rest ht).Tallies (declarationCalls t rest ht) :=
  statements_tallied.declaration t rest ht (statement_tallies (t :: rest))

/-- A declaration that failed has a complaint that stops a rule as its
last. -/
theorem recover_none {t : Token} {rest more : List Token} {ht : t.kind ≠ .eof}
    {calls : List Call} {step : Step (t :: rest) Stmt} {left : Left (t :: rest) more}
    {notes : List Complaint} (h : step.Tallies calls)
    (hNone : step.recover ht = .entry none more left notes) :
    ∃ earlier last, notes = earlier ++ [last] ∧ last.Fatal := by
  cases step with
  | done value later used notes => cases hNone
  | failed why kept hk earlier =>
    rw [Step.recover] at hNone
    split at hNone
    · cases hNone
    · cases hNone
      exact ⟨earlier, why, rfl, h.2⟩
  | overrun notes => cases hNone

theorem declaration_none {t : Token} {rest more : List Token} {ht : t.kind ≠ .eof}
    {left : Left (t :: rest) more} {notes : List Complaint}
    (h : declaration t rest ht = .entry none more left notes) :
    ∃ earlier last, notes = earlier ++ [last] ∧ last.Fatal := by
  rw [declaration] at h
  split at h
  · exact recover_none (variableDeclaration_accounts rest).tallies.within h
  · exact recover_none (statement_tallies (t :: rest)) h

/-! ## A whole reading -/

/-- A declaration is accounted for together with what is read behind it. -/
theorem declaration_tally {t : Token} {rest more : List Token} {ht : t.kind ≠ .eof}
    {value : Option Stmt} {left : Left (t :: rest) more} {notes later : List Complaint}
    (h : Ends (t :: rest)) (hd : declaration t rest ht = .entry value more left notes)
    (hLater : Ends more → Tally later (parseCalls more)) :
    Tally (notes ++ later) (parseCalls (t :: rest)) := by
  have hFirst := declaration_tallies t rest ht
  have hMore := declaration_orderly t rest ht h
  rw [hd] at hFirst hMore
  rw [parseCalls, dif_neg ht, hd]
  exact hFirst.append (hLater hMore.1)

theorem parse_tally {ts : List Token} (h : Ends ts) : Tally (parse ts).notes (parseCalls ts) := by
  fun_induction parse ts with
  | case1 => exact absurd h not_ends_nil
  | case2 t rest ht =>
    rw [parseCalls, dif_pos ht]
    exact .nil
  | case3 t rest ht value more left notes hd entries last later hMore ih =>
    rw [hMore] at ih
    exact declaration_tally h hd ih
  | case4 t rest ht value more left notes hd later hMore ih =>
    rw [hMore] at ih
    exact declaration_tally h hd ih
  | case5 t rest ht notes hd =>
    have hFirst := declaration_orderly t rest ht h
    rw [hd] at hFirst
    exact hFirst.elim

/-- There is nothing to complain about exactly if no declaration failed and
no assignment was misplaced. -/
theorem Tally.notes_eq_nil_iff {notes : List Complaint} {calls : List Call}
    (h : Tally notes calls) :
    notes = [] ↔ ∀ call ∈ calls, call.failed = false ∧ call.misplaced = false := by
  have hSplit : notes = [] ↔ notes.countP (fun c => decide c.Fatal) = 0 ∧
      notes.countP (fun c => decide (¬ c.Fatal)) = 0 := by
    rw [List.countP_eq_zero, List.countP_eq_zero]
    constructor
    · rintro rfl
      exact ⟨List.forall_mem_nil _, List.forall_mem_nil _⟩
    · rintro ⟨hFatal, hOther⟩
      refine List.eq_nil_iff_forall_not_mem.mpr fun c hc => ?_
      exact hOther c hc (decide_eq_true fun hc' => hFatal c hc (decide_eq_true hc'))
  rw [hSplit, h.failed, h.misplaced, List.countP_eq_zero, List.countP_eq_zero]
  simp only [Bool.not_eq_true, ← forall_and]

/-- Whether a step failed. -/
def Step.hasFailed {ts : List Token} {α : Type} : Step ts α → Bool
  | .failed .. => true
  | .done .. | .overrun _ => false

theorem Assignment.not_fatal_of_mem {log : List Assignment} {c : Complaint}
    (h : c ∈ log.filterMap Assignment.complaint?) : ¬ c.Fatal := by
  obtain ⟨a, -, ha⟩ := List.mem_filterMap.mp h
  unfold Assignment.complaint? at ha
  split at ha
  · cases ha
    exact not_not_intro rfl
  · cases ha

/-- A step whose notes are accounted for by assignments has failed exactly
if one complaint stopped a rule, and then that one comes last. -/
theorem Step.Accounts.hasFailed_iff {ts : List Token} {α : Type} {step : Step ts α}
    {log : List Assignment} (h : step.Accounts log) :
    step.hasFailed ↔ step.complaints.countP (fun c => decide c.Fatal) = 1 ∧
      ∃ earlier last, step.complaints = earlier ++ [last] ∧ last.Fatal := by
  have hNone : (log.filterMap Assignment.complaint?).countP (fun c => decide c.Fatal) = 0 :=
    List.countP_eq_zero.mpr fun c hc => by simpa using Assignment.not_fatal_of_mem hc
  cases step with
  | done value rest left notes =>
    obtain rfl : notes = _ := h
    refine iff_of_false Bool.false_ne_true fun hOne => ?_
    exact absurd (hOne.1.symm.trans hNone) Nat.one_ne_zero
  | failed why rest kept notes =>
    obtain rfl : notes = _ := h.1
    refine iff_of_true rfl ⟨?_, _, why, rfl, h.2⟩
    rw [complaints, List.countP_append, hNone, List.countP_singleton, decide_eq_true h.2]
    rfl
  | overrun notes =>
    obtain rfl : notes = _ := h
    refine iff_of_false Bool.false_ne_true fun hOne => ?_
    exact absurd (hOne.1.symm.trans hNone) Nat.one_ne_zero

/-- One that has not failed was stopped by no complaint. -/
theorem Step.Accounts.not_fatal {ts : List Token} {α : Type} {step : Step ts α}
    {log : List Assignment} (h : step.Accounts log) (hStep : ¬ step.hasFailed) :
    ∀ c ∈ step.complaints, ¬ c.Fatal := by
  cases step with
  | done value rest left notes =>
    obtain rfl : notes = _ := h
    exact fun c => Assignment.not_fatal_of_mem
  | failed => exact absurd rfl hStep
  | overrun notes =>
    obtain rfl : notes = _ := h
    exact fun c => Assignment.not_fatal_of_mem

/-- In front of an end mark a step without a value is one that failed. -/
theorem Step.Orderly.hasFailed_iff {ts : List Token} {α : Type} {step : Step ts α}
    (h : step.Orderly) : step.hasFailed ↔ step.value? = none := by
  cases step with
  | done => exact iff_of_false Bool.false_ne_true nofun
  | failed => exact iff_of_true rfl rfl
  | overrun => exact h.elim

/-- A diagnostic of a reading is a mistake. -/
theorem Session.hadError_reportAll_complaints {s : Session} (h : s.ledger.hadError = false)
    (notes : List Complaint) :
    (s.reportAll (notes.map Complaint.diagnostic)).ledger.hadError = false ↔ notes = [] := by
  rw [Ledger.hadError] at h
  rw [Ledger.hadError, entries_reportAll, List.any_append, h, Bool.false_or]
  cases notes with
  | nil => exact iff_of_true rfl rfl
  | cons c rest => exact iff_of_false (Bool.false_ne_true ∘ Eq.symm) (List.cons_ne_nil c rest)

/-- Complaints told apart by what they say. -/
theorem countP_fatal (notes : List Complaint) :
    notes.countP (fun c => decide c.Fatal) =
      notes.countP (fun c => c.reason.text ≠ "Invalid assignment target.") :=
  List.countP_congr fun c _ => by simp only [Complaint.fatal_iff]

theorem countP_not_fatal (notes : List Complaint) :
    notes.countP (fun c => decide (¬ c.Fatal)) =
      notes.countP (fun c => c.reason.text = "Invalid assignment target.") :=
  List.countP_congr fun c _ => by simp only [Complaint.fatal_iff, not_not]

/-- Reading a list with an end mark complains once for every declaration, at
any depth, that was tried and failed, and once for every assignment that was
met with a value for what is no variable. Wherever an expression is read, it
fails exactly if it complains about anything but an assignment target; it
does so once, and as the last thing. So nothing is reported exactly if
nothing went wrong, and no declaration is left out in silence. -/
theorem complaints_per_call (ts : List Token) (h : Ends ts) :
    ((parse ts).notes.countP (fun c => c.reason.text ≠ "Invalid assignment target.") =
        (parseCalls ts).countP Call.failed ∧
      (parse ts).notes.countP (fun c => c.reason.text = "Invalid assignment target.") =
        (parseCalls ts).countP Call.misplaced) ∧
    (∀ start : List Token,
      ((expression start).hasFailed ↔
        (expression start).complaints.countP
          (fun c => c.reason.text ≠ "Invalid assignment target.") = 1 ∧
        ∃ earlier last, (expression start).complaints = earlier ++ [last] ∧
          last.reason.text ≠ "Invalid assignment target.") ∧
      (¬ (expression start).hasFailed → ∀ c ∈ (expression start).complaints,
        c.reason.text = "Invalid assignment target.") ∧
      (Ends start → ((expression start).hasFailed ↔ (expression start).value? = none))) ∧
    (∀ s : Session, s.ledger.hadError = false →
      ((s.reportAll ((parse ts).notes.map Complaint.diagnostic)).ledger.hadError = false ↔
        ∀ call ∈ parseCalls ts, call.failed = false ∧ call.misplaced = false)) ∧
    (∀ t rest ht more left notes, declaration t rest ht = .entry none more left notes →
      ∃ earlier last, notes = earlier ++ [last] ∧
        last.reason.text ≠ "Invalid assignment target.") := by
  have hTally := parse_tally h
  refine ⟨⟨?_, ?_⟩, fun start => ⟨?_, ?_, ?_⟩, fun s hs => ?_, ?_⟩
  · rw [← countP_fatal, hTally.failed]
  · rw [← countP_not_fatal, hTally.misplaced]
  · simp only [← Complaint.fatal_iff]
    exact (expression_accounts start).hasFailed_iff
  · intro hDone c hc
    have hHarmless := (expression_accounts start).not_fatal hDone c hc
    rwa [Complaint.fatal_iff, not_not] at hHarmless
  · intro hEnds
    exact (expression_orderly start hEnds).hasFailed_iff
  · rw [Session.hadError_reportAll_complaints hs]
    exact hTally.notes_eq_nil_iff
  · intro t rest ht more left notes hNone
    obtain ⟨earlier, last, hNotes, hFatal⟩ := declaration_none hNone
    exact ⟨earlier, last, hNotes, Complaint.fatal_iff.mp hFatal⟩

/-- Two declarations that fail, one of them in a block that is read, and an
assignment to a sum. -/
theorem complaints_per_call_nested :
    let ts := (scan "\x7b print ; a + 1 = 2; \x7d var 1;").tokens
    Ends ts ∧ (parseCalls ts).countP Call.failed = 2 ∧
      (parse ts).notes.countP (fun c => c.reason.text ≠ "Invalid assignment target.") = 2 ∧
      (parse ts).notes.countP (fun c => c.reason.text = "Invalid assignment target.") = 1 := by
  intro ts
  have hEnds : Ends ts := scan_ends _
  obtain ⟨⟨hFailed, hMisplaced⟩, -⟩ := complaints_per_call ts hEnds
  refine ⟨hEnds, ?_, ?_, ?_⟩
  · decide +kernel
  · rw [hFailed]
    decide +kernel
  · rw [hMisplaced]
    decide +kernel

end Treewalk
