import Treewalk.Proofs.Grammar.Program

/-!
# Up to the first end mark

A rule that did not overrun its list never looked past the end of it: with
more tokens behind the list it does the same and leaves so many more
(`Step.Persists`). Reading a whole list is overrun only where there is no
end mark, and stops at the first one there is. So a list may be cut off
behind its first end mark: what stands there is not seen by any rule
(`parse_to_first_end`).
-/

namespace Treewalk

/-! ## More tokens behind a list -/

namespace Step

variable {ts rest : List Token} {α β : Type}

/-- With more tokens behind the list the step does the same, unless it
overran the shorter list. -/
inductive Persists (more : List Token) : Step ts α → Step (ts ++ more) α → Prop
  | done {value : α} (rest : List Token) {left : Left ts rest}
      {left' : Left (ts ++ more) (rest ++ more)} {notes : List Complaint} :
      Persists more (.done value rest left notes) (.done value (rest ++ more) left' notes)
  | failed {why : Complaint} (rest : List Token) {kept : rest <:+ ts}
      {kept' : rest ++ more <:+ ts ++ more} {notes : List Complaint} :
      Persists more (.failed why rest kept notes) (.failed why (rest ++ more) kept' notes)
  | overrun {notes : List Complaint} {longer : Step (ts ++ more) α} :
      Persists more (.overrun notes) longer

namespace Persists

variable {more : List Token} {step : Step ts α} {longer : Step (ts ++ more) α}

theorem noting (h : step.Persists more longer) (before : List Complaint) :
    (step.noting before).Persists more (longer.noting before) := by
  cases h with
  | done => exact .done _
  | failed => exact .failed _
  | overrun => exact .overrun

theorem within {left : Left ts rest} {left' : Left (ts ++ more) (rest ++ more)}
    {step : Step rest α} {longer : Step (rest ++ more) α} (h : step.Persists more longer) :
    (step.within left).Persists more (longer.within left') := by
  cases h with
  | done => exact .done _
  | failed => exact .failed _
  | overrun => exact .overrun

theorem map (h : step.Persists more longer) (f : α → β) :
    (step.map f).Persists more (longer.map f) := by
  cases h with
  | done => exact .done _
  | failed => exact .failed _
  | overrun => exact .overrun

theorem andThen {next : (value : α) → (rest : List Token) → Left ts rest → Step ts β}
    {next' : (value : α) → (rest : List Token) → Left (ts ++ more) rest → Step (ts ++ more) β}
    (h : step.Persists more longer)
    (hNext : ∀ value rest left left',
      (next value rest left).Persists more (next' value (rest ++ more) left')) :
    (step.andThen next).Persists more (longer.andThen next') := by
  cases h with
  | done => exact (hNext _ _ _ _).noting _
  | failed => exact .failed _
  | overrun => exact .overrun

end Persists

end Step

section

variable (more : List Token)

theorem expect_persists (kind : Kind) (reason : Reason) (ts : List Token) :
    (expect kind reason ts).Persists more (expect kind reason (ts ++ more)) := by
  cases ts with
  | nil => exact .overrun
  | cons t rest =>
    simp only [expect, List.cons_append]
    split
    · exact .done _
    · exact .failed (t :: rest)

/-! ## Expressions -/

theorem expressions_persist : ExpressionInduction
    (fun ts => (expression ts).Persists more (expression (ts ++ more)))
    (fun level? ts => (chain level? ts).Persists more (chain level? (ts ++ more)))
    (fun level ts => ∀ origin first (left : Left origin ts)
      (left' : Left (origin ++ more) (ts ++ more)),
      (operands level first ts left).Persists more (operands level first (ts ++ more) left'))
    (fun ts => (unary ts).Persists more (unary (ts ++ more))) where
  expression ts first behind := by
    rw [expression, expression]
    refine first.andThen ?_
    intro target rest left left'
    cases rest with
    | nil => exact .overrun
    | cons equals later =>
      by_cases he : equals.kind = .equal
      · simp only [List.cons_append, he, if_true]
        refine (behind later left.tail).within.andThen ?_
        intro value last _ _
        exact .done _
      · simp only [List.cons_append, he, if_false]
        exact .done (equals :: later)
  chain_none ts inner := by
    rw [chain, chain]
    exact inner
  chain_some level ts first behind := by
    rw [chain, chain]
    refine first.andThen ?_
    intro operand rest left left'
    exact behind rest left ts operand left left'
  operands_nil level origin first left left' := by
    rw [operands]
    exact .overrun
  operands_cons level operator rest second behind origin first left left' := by
    change (operands level first (operator :: rest) left).Persists more
      (operands level first (operator :: (rest ++ more)) left')
    rw [operands, operands]
    by_cases ho : operator.kind ∈ level.operators
    · rw [if_pos ho, if_pos ho]
      generalize chain level.tighter? (rest ++ more) = longer at second ⊢
      cases hStep : chain level.tighter? rest with
      | done operand later used notes =>
        rw [hStep] at second
        cases second with
        | done => exact (behind later used origin _ _ _).noting notes
      | failed =>
        rw [hStep] at second
        cases second with
        | failed => exact .failed _
      | overrun => exact .overrun
    · rw [if_neg ho, if_neg ho]
      exact .done (operator :: rest)
  unary_nil := by
    rw [unary]
    exact .overrun
  unary_cons t rest operand inner := by
    change (unary (t :: rest)).Persists more (unary (t :: (rest ++ more)))
    rw [unary, unary]
    split
    · exact operand.within.map _
    · exact operand.within.map _
    · exact .done _
    · exact .done _
    · exact .done _
    · exact .done _
    · exact .done _
    · exact .done _
    · refine inner.within.andThen ?_
      intro e later left left'
      exact (expect_persists more .rightParen .parenAfterExpression later).within.map _
    · exact .failed (t :: rest)

theorem expression_persists (ts : List Token) :
    (expression ts).Persists more (expression (ts ++ more)) :=
  ((expressions_persist more).all ts).1

/-! ## Statements that hold no statement -/

theorem expressionThen_persists (kind : Kind) (reason : Reason) (ts : List Token) :
    (expressionThen kind reason ts).Persists more (expressionThen kind reason (ts ++ more)) := by
  refine (expression_persists more ts).andThen ?_
  intro e rest left left'
  exact (expect_persists more kind reason rest).within.map _

theorem expressionOr_persists (kind : Kind) (reason : Reason) (ts : List Token) :
    (expressionOr kind reason ts).Persists more (expressionOr kind reason (ts ++ more)) := by
  cases ts with
  | nil => exact .overrun
  | cons t rest =>
    simp only [expressionOr, List.cons_append]
    split
    · exact .done _
    · exact (expressionThen_persists more kind reason (t :: rest)).map _

theorem condition_persists (opening closing : Reason) (ts : List Token) :
    (condition opening closing ts).Persists more (condition opening closing (ts ++ more)) := by
  refine (expect_persists more .leftParen opening ts).andThen ?_
  intro _ rest left left'
  exact (expressionThen_persists more .rightParen closing rest).within

theorem variableDeclaration_persists (ts : List Token) :
    (variableDeclaration ts).Persists more (variableDeclaration (ts ++ more)) := by
  refine (expect_persists more .identifier .variableName ts).andThen ?_
  intro name rest left left'
  cases rest with
  | nil => exact .overrun
  | cons t later =>
    by_cases ht : t.kind = .equal
    · simp only [List.cons_append, ht, if_true]
      exact (expressionThen_persists more _ _ later).within.map _
    · simp only [List.cons_append, ht, if_false]
      exact (expect_persists more _ _ (t :: later)).within.map _

theorem expressionStatement_persists (ts : List Token) :
    (expressionStatement ts).Persists more (expressionStatement (ts ++ more)) :=
  (expressionThen_persists more .semicolon .semicolonAfterExpression ts).map _

theorem forInitializer_persists (ts : List Token) :
    (forInitializer ts).Persists more (forInitializer (ts ++ more)) := by
  cases ts with
  | nil => exact .overrun
  | cons t rest =>
    simp only [forInitializer, List.cons_append]
    split
    · exact .done _
    · exact (variableDeclaration_persists more rest).within.map _
    · exact (expressionStatement_persists more (t :: rest)).map _

theorem forClauses_persists (ts : List Token) :
    (forClauses ts).Persists more (forClauses (ts ++ more)) := by
  refine (expect_persists more .leftParen .parenAfterFor ts).andThen ?_
  intro _ rest left left'
  refine (forInitializer_persists more rest).within.andThen ?_
  intro initializer rest left left'
  refine (expressionOr_persists more _ _ rest).within.andThen ?_
  intro condition rest left left'
  exact (expressionOr_persists more _ _ rest).within.map _

/-! ## Skipping and taking up again -/

theorem skipFrom_append {last : Kind} {ts later : List Token} (h : skipFrom last ts = some later) :
    skipFrom last (ts ++ more) = some (later ++ more) := by
  induction ts generalizing last with
  | nil => cases h
  | cons t rest ih =>
    rw [skipFrom] at h
    rw [List.cons_append, skipFrom]
    split
    · next hStop =>
      rw [if_pos hStop] at h
      cases h
      rfl
    · next hStop =>
      rw [if_neg hStop] at h
      exact ih h

theorem skip_append {ts later : List Token} (h : skip ts = some later) :
    skip (ts ++ more) = some (later ++ more) := by
  cases ts with
  | nil => cases h
  | cons t rest =>
    rw [skip] at h
    rw [List.cons_append, skip]
    split
    · next ht =>
      rw [if_pos ht] at h
      cases h
      rfl
    · next ht =>
      rw [if_neg ht] at h
      exact skipFrom_append more h

/-- With more tokens behind the list the rule is taken up again at the same
place, unless it overran the shorter list. -/
inductive Recovered.Persists {ts : List Token} {α : Type} (more : List Token) :
    Recovered ts α → Recovered (ts ++ more) α → Prop
  | entry {value : Option α} {rest : List Token} {left : Left ts rest}
      {left' : Left (ts ++ more) (rest ++ more)} {notes : List Complaint} :
      Persists more (.entry value rest left notes) (.entry value (rest ++ more) left' notes)
  | overrun {notes : List Complaint} {longer : Recovered (ts ++ more) α} :
      Persists more (.overrun notes) longer

theorem recover_persists {α : Type} {t : Token} {rest : List Token} (ht : t.kind ≠ .eof)
    {step : Step (t :: rest) α} {longer : Step (t :: (rest ++ more)) α}
    (h : step.Persists more longer) : (step.recover ht).Persists more (longer.recover ht) := by
  cases h with
  | done => exact .entry
  | failed =>
    simp only [Step.recover]
    split
    · exact .overrun
    · next later hSkip =>
      have hLonger := skip_append more hSkip
      split
      · next hNone =>
        rw [hLonger] at hNone
        cases hNone
      · next hSome =>
        rw [hLonger] at hSome
        cases hSome
        exact .entry
  | overrun => exact .overrun

/-! ## Statements -/

theorem statements_persist : StatementInduction
    (fun ts => (statement ts).Persists more (statement (ts ++ more)))
    (fun ts => ∀ test, (branches test ts).Persists more (branches test (ts ++ more)))
    (fun t rest ht => (declaration t rest ht).Persists more (declaration t (rest ++ more) ht))
    (fun ts => (block ts).Persists more (block (ts ++ more))) where
  statement_nil := by
    rw [statement]
    exact .overrun
  statement_cons t rest body others inner := by
    change (statement (t :: rest)).Persists more (statement (t :: (rest ++ more)))
    rw [statement, statement]
    split
    · refine (forClauses_persists more rest).within.andThen ?_
      intro clauses later left left'
      exact (body later left).within.map _
    · refine (condition_persists more _ _ rest).within.andThen ?_
      intro test later left left'
      exact (others later left test).within
    · exact (expressionThen_persists more _ _ rest).within.map _
    · refine (condition_persists more _ _ rest).within.andThen ?_
      intro test later left left'
      exact (body later left).within.map _
    · exact inner.within.map _
    · exact expressionStatement_persists more (t :: rest)
  branches ts consequence alternative test := by
    rw [branches, branches]
    refine consequence.andThen ?_
    intro first rest left left'
    cases rest with
    | nil => exact .overrun
    | cons t later =>
      by_cases ht : t.kind = .elseWord
      · simp only [List.cons_append, ht, if_true]
        exact (alternative later left.tail).within.map _
      · simp only [List.cons_append, ht, if_false]
        exact .done (t :: later)
  declaration t rest ht inner := by
    rw [declaration, declaration]
    split
    · exact recover_persists more ht (variableDeclaration_persists more rest).within
    · exact recover_persists more ht inner
  block_nil := by
    rw [block]
    exact .overrun
  block_cons t rest first behind := by
    change (block (t :: rest)).Persists more (block (t :: (rest ++ more)))
    rw [block, block]
    split
    · exact .done _
    · split
      · exact .failed (t :: rest)
      · next ht =>
        have hFirst := first ht
        generalize declaration t (rest ++ more) ht = longer at hFirst ⊢
        cases hEntry : declaration t rest ht with
        | entry value later left notes =>
          rw [hEntry] at hFirst
          cases hFirst with
          | entry => exact ((behind later left).within.map _).noting notes
        | overrun => exact .overrun

theorem declaration_persists (t : Token) (rest : List Token) (ht : t.kind ≠ .eof) :
    (declaration t rest ht).Persists more (declaration t (rest ++ more) ht) :=
  (statements_persist more).declaration t rest ht ((statements_persist more).all (t :: rest)).1

/-- A list that was read up to an end mark is read in the same way with more
tokens behind it. -/
theorem parse_persists {ts rest : List Token} {entries : List (Option Stmt)}
    {notes : List Complaint} (h : parse ts = .finished entries rest notes) :
    parse (ts ++ more) = .finished entries (rest ++ more) notes := by
  fun_induction parse ts generalizing entries rest notes with
  | case1 => cases h
  | case2 t later ht =>
    cases h
    rw [List.cons_append, parse, dif_pos ht]
  | case3 t later ht value next left first hd others last behind hNext ih =>
    cases h
    have hFirst := declaration_persists more t later ht
    rw [hd] at hFirst
    rw [List.cons_append, parse, dif_neg ht]
    generalize declaration t (later ++ more) ht = longer at hFirst ⊢
    cases hFirst with
    | entry => simp only [ih hNext]
  | case4 => cases h
  | case5 => cases h

end

/-! ## The first end mark -/

theorem parse_suffix {ts rest : List Token} {entries : List (Option Stmt)}
    {notes : List Complaint} (h : parse ts = .finished entries rest notes) : rest <:+ ts := by
  fun_induction parse ts generalizing entries rest notes with
  | case1 => cases h
  | case2 t later ht =>
    cases h
    exact List.suffix_rfl
  | case3 t later ht value next left first hd others last behind hNext ih =>
    cases h
    exact (ih hNext).trans left.suffix
  | case4 => cases h
  | case5 => cases h

theorem parse_overrun {ts : List Token} (h : ∀ t ∈ ts, t.kind ≠ .eof) :
    ∃ notes, parse ts = .overrun notes := by
  cases hParse : parse ts with
  | overrun notes => exact ⟨notes, rfl⟩
  | finished entries rest notes =>
    obtain ⟨t, more, rfl, ht⟩ := parse_rest hParse
    exact absurd ht (h t ((parse_suffix hParse).mem List.mem_cons_self))

/-- Reading stops at the first end mark, with or without tokens behind it. -/
theorem parse_first_end {body : List Token} (hBody : ∀ t ∈ body, t.kind ≠ .eof) {mark : Token}
    (hMark : mark.kind = .eof) (more : List Token) : ∃ entries notes,
      parse (body ++ [mark]) = .finished entries [mark] notes ∧
        parse (body ++ mark :: more) = .finished entries (mark :: more) notes := by
  obtain ⟨entries, rest, notes, hParse⟩ := parse_finishes (body ++ [mark]) ⟨mark, by simp, hMark⟩
  obtain ⟨t, later, hRest, ht⟩ := parse_rest hParse
  obtain ⟨used, hUsed⟩ := parse_suffix hParse
  obtain rfl := eq_of_append_end hBody ht hUsed.symm hRest
  obtain rfl := List.append_cancel_left hUsed
  have hLonger := parse_persists more hParse
  rw [List.append_assoc] at hLonger
  exact ⟨entries, notes, hParse, hLonger⟩

/-- Where a token list has an end mark, reading it stops at the first one,
and the entries and complaints are those of the list cut off behind that
mark. A list without one is overrun. And a declaration that begins at any
other token and was read or given up has used up tokens. -/
theorem parse_to_first_end (ts : List Token) :
    (match ts.findIdx? (fun t => t.kind = .eof) with
      | some k => ∃ entries notes, parse ts = .finished entries (ts.drop k) notes ∧
          parse (ts.take (k + 1)) = .finished entries ((ts.take (k + 1)).drop k) notes
      | none => ∃ notes, parse ts = .overrun notes) ∧
    ∀ t rest (ht : t.kind ≠ .eof) value later notes,
      (declaration t rest ht).Enters value later notes →
        ∃ n, 0 < n ∧ n ≤ rest.length + 1 ∧ later = (t :: rest).drop n := by
  constructor
  · split
    · next k hk =>
      obtain ⟨hLength, hMark, hBefore⟩ := List.findIdx?_eq_some_iff_getElem.mp hk
      have hBody : ∀ t ∈ ts.take k, t.kind ≠ .eof := by
        intro t ht
        obtain ⟨j, hj, rfl⟩ := List.mem_take_iff_getElem.mp ht
        exact of_decide_eq_false (Bool.eq_false_iff.mpr (hBefore j (by omega)))
      obtain ⟨entries, notes, hCut, hWhole⟩ :=
        parse_first_end hBody (of_decide_eq_true hMark) (ts.drop (k + 1))
      rw [List.getElem_cons_drop, List.take_append_drop] at hWhole
      refine ⟨entries, notes, hWhole, ?_⟩
      rw [← List.take_append_getElem hLength,
        List.drop_left' (List.length_take_of_le (Nat.le_of_lt hLength))]
      exact hCut
    · next hNone =>
      exact parse_overrun fun t ht => of_decide_eq_false (List.findIdx?_eq_none_iff.mp hNone t ht)
  · intro t rest ht value later notes hEnters
    obtain ⟨⟨used, hUsed⟩, hShorter⟩ := hEnters.left
    have hLength : used.length + later.length = rest.length + 1 := by
      rw [← List.length_append, hUsed, List.length_cons]
    rw [List.length_cons] at hShorter
    refine ⟨used.length, by omega, by omega, ?_⟩
    rw [← hUsed, List.drop_left]

/-- `;` before an end mark, and a token behind it that begins a statement:
the one declaration there is given up, and uses up the semicolon. -/
theorem parse_to_first_end_given_up :
    let semicolon := Token.ofSource .semicolon ";" .nil 1
    let behind := [Token.ofSource .eof "" .nil 1, .ofSource .printWord "print" .nil 2]
    let ts := semicolon :: behind
    ts.findIdx? (fun t => t.kind = .eof) = some 1 ∧
      (∃ entries notes, parse ts = .finished entries (ts.drop 1) notes ∧
        parse (ts.take 2) = .finished entries ((ts.take 2).drop 1) notes) ∧
      (declaration semicolon behind nofun).Enters none behind [⟨semicolon, .expression⟩] ∧
      ∃ n, 0 < n ∧ n ≤ 3 ∧ behind = ts.drop n := by
  intro semicolon behind ts
  have hEnters : (declaration semicolon behind nofun).Enters none behind
      [⟨semicolon, .expression⟩] := by
    refine ⟨.head, ?_⟩
    cbv
  obtain ⟨hParse, hProgress⟩ := parse_to_first_end ts
  exact ⟨rfl, hParse, hEnters, hProgress semicolon behind nofun _ _ _ hEnters⟩

end Treewalk
