import Treewalk.Proofs.Grammar.Induction
import Treewalk.Proofs.Grammar.Yields

/-!
# The end mark is never passed

No rule looks past the end mark, and none uses it up. So a rule at the
front of a list that holds an end mark is orderly: it is done or it
failed, what is left still holds the mark, and the complaint it failed
with is not the one about assignment targets, which stops no rule. From
this follows that reading a whole list reaches the mark
(`parse_finishes`), and that a declaration leaves no entry only with such
a complaint among its notes (`declaration_orderly`).
-/

namespace Treewalk

/-- The list holds an end mark. -/
def Ends (ts : List Token) : Prop :=
  ∃ t ∈ ts, t.kind = .eof

theorem not_ends_nil : ¬ Ends [] := by
  rintro ⟨_, ht, _⟩
  simp at ht

/-- What is left behind a token that is no end mark still holds one. -/
theorem Ends.tail {t : Token} {rest : List Token} (h : Ends (t :: rest)) (ht : t.kind ≠ .eof) :
    Ends rest := by
  obtain ⟨u, hu, hk⟩ := h
  rcases List.mem_cons.mp hu with rfl | hu
  · exact absurd hk ht
  · exact ⟨u, hu, hk⟩

/-- A complaint that stops a rule. -/
def Complaint.Fatal (c : Complaint) : Prop :=
  c.reason ≠ .assignmentTarget

namespace Step

variable {ts rest : List Token} {α β : Type}

/-- The step is done or failed for good reason, short of the end mark. -/
def Orderly : Step ts α → Prop
  | .done _ rest _ _ => Ends rest
  | .failed why rest _ _ => Ends rest ∧ why.Fatal
  | .overrun _ => False

theorem Orderly.noting {step : Step ts α} (h : step.Orderly) (before : List Complaint) :
    (step.noting before).Orderly := by
  cases step <;> exact h

theorem Orderly.within {left : Left ts rest} {step : Step rest α} (h : step.Orderly) :
    (step.within left).Orderly := by
  cases step <;> exact h

theorem Orderly.map {step : Step ts α} (h : step.Orderly) (f : α → β) : (step.map f).Orderly := by
  cases step <;> exact h

theorem Orderly.andThen {step : Step ts α}
    {next : (value : α) → (rest : List Token) → Left ts rest → Step ts β} (h : step.Orderly)
    (hNext : ∀ value rest left, Ends rest → (next value rest left).Orderly) :
    (step.andThen next).Orderly := by
  cases step with
  | done value rest left notes => exact (hNext value rest left h).noting notes
  | failed => exact h
  | overrun => exact h

end Step

theorem expect_orderly {kind : Kind} (hk : kind ≠ .eof) {reason : Reason}
    (hr : reason ≠ .assignmentTarget) {ts : List Token} (h : Ends ts) :
    (expect kind reason ts).Orderly := by
  cases ts with
  | nil => exact not_ends_nil h
  | cons t rest =>
    simp only [expect]
    split
    · next ht => exact h.tail (ht ▸ hk)
    · exact ⟨h, hr⟩

/-! ## Expressions -/

theorem Level.ne_eof_of_mem_operators {level : Level} {kind : Kind} (h : kind ∈ level.operators) :
    kind ≠ .eof := by
  rintro rfl
  cases level <;> simp [Level.operators] at h

theorem expressions_orderly : ExpressionInduction
    (fun ts => Ends ts → (expression ts).Orderly)
    (fun level? ts => Ends ts → (chain level? ts).Orderly)
    (fun level ts => Ends ts → ∀ origin first (left : Left origin ts),
      (operands level first ts left).Orderly)
    (fun ts => Ends ts → (unary ts).Orderly) where
  expression ts first behind h := by
    rw [expression]
    refine (first h).andThen ?_
    intro target rest left hRest
    cases rest with
    | nil => exact absurd hRest not_ends_nil
    | cons equals more =>
      by_cases he : equals.kind = .equal
      · simp only [he, if_true]
        have hMore : Ends more := hRest.tail (by rw [he]; decide)
        refine (behind more left.tail hMore).within.andThen ?_
        intro value last _ hLast
        exact hLast
      · simp only [he, if_false]
        exact hRest
  chain_none ts inner h := by
    rw [chain]
    exact inner h
  chain_some level ts first behind h := by
    rw [chain]
    refine (first h).andThen ?_
    intro operand rest left hRest
    exact behind rest left hRest ts operand left
  operands_nil level h := absurd h not_ends_nil
  operands_cons level operator rest second behind h origin first left := by
    rw [operands]
    by_cases ho : operator.kind ∈ level.operators
    · rw [if_pos ho]
      have hChain := second (h.tail (Level.ne_eof_of_mem_operators ho))
      split
      · next operand more used notes hs =>
        rw [hs] at hChain
        exact (behind more used hChain origin _ _).noting notes
      · next hs =>
        rw [hs] at hChain
        exact hChain
      · next hs =>
        rw [hs] at hChain
        exact hChain
    · rw [if_neg ho]
      exact h
  unary_nil h := absurd h not_ends_nil
  unary_cons t rest operand inner h := by
    rw [unary]
    have hTail : t.kind ≠ .eof → Ends rest := h.tail
    split
    · next hk => exact (operand (hTail (by rw [hk]; decide))).within.map _
    · next hk => exact (operand (hTail (by rw [hk]; decide))).within.map _
    · next hk => exact hTail (by rw [hk]; decide)
    · next hk => exact hTail (by rw [hk]; decide)
    · next hk => exact hTail (by rw [hk]; decide)
    · next hk => exact hTail (by rw [hk]; decide)
    · next hk => exact hTail (by rw [hk]; decide)
    · next hk => exact hTail (by rw [hk]; decide)
    · next hk =>
      refine (inner (hTail (by rw [hk]; decide))).within.andThen ?_
      intro e more left hMore
      exact ((expect_orderly (by decide) (by decide) hMore).within).map _
    · exact ⟨h, (by decide : Reason.expression ≠ .assignmentTarget)⟩

theorem expression_orderly (ts : List Token) (h : Ends ts) : (expression ts).Orderly :=
  (expressions_orderly.all ts).1 h

theorem chain_orderly (level? : Option Level) (ts : List Token) (h : Ends ts) :
    (chain level? ts).Orderly :=
  (expressions_orderly.all ts).2.1 level? h

/-! ## Statements that hold no statement -/

theorem expressionThen_orderly {kind : Kind} (hk : kind ≠ .eof) {reason : Reason}
    (hr : reason ≠ .assignmentTarget) {ts : List Token} (h : Ends ts) :
    (expressionThen kind reason ts).Orderly := by
  refine (expression_orderly ts h).andThen ?_
  intro e rest left hRest
  exact ((expect_orderly hk hr hRest).within).map _

theorem expressionOr_orderly {kind : Kind} (hk : kind ≠ .eof) {reason : Reason}
    (hr : reason ≠ .assignmentTarget) {ts : List Token} (h : Ends ts) :
    (expressionOr kind reason ts).Orderly := by
  cases ts with
  | nil => exact absurd h not_ends_nil
  | cons t rest =>
    simp only [expressionOr]
    split
    · next ht => exact h.tail (ht ▸ hk)
    · exact (expressionThen_orderly hk hr h).map _

theorem condition_orderly {first last : Reason} (hf : first ≠ .assignmentTarget)
    (hl : last ≠ .assignmentTarget) {ts : List Token} (h : Ends ts) :
    (condition first last ts).Orderly := by
  refine (expect_orderly (by decide) hf h).andThen ?_
  intro _ rest left hRest
  exact (expressionThen_orderly (by decide) hl hRest).within

theorem variableDeclaration_orderly {ts : List Token} (h : Ends ts) :
    (variableDeclaration ts).Orderly := by
  refine (expect_orderly (by decide) (by decide) h).andThen ?_
  intro name rest left hRest
  cases rest with
  | nil => exact absurd hRest not_ends_nil
  | cons t more =>
    by_cases ht : t.kind = .equal
    · simp only [ht, if_true]
      have hMore : Ends more := hRest.tail (by rw [ht]; decide)
      exact ((expressionThen_orderly (by decide) (by decide) hMore).within).map _
    · simp only [ht, if_false]
      exact ((expect_orderly (by decide) (by decide) hRest).within).map _

theorem expressionStatement_orderly {ts : List Token} (h : Ends ts) :
    (expressionStatement ts).Orderly :=
  (expressionThen_orderly (by decide) (by decide) h).map _

theorem forInitializer_orderly {ts : List Token} (h : Ends ts) : (forInitializer ts).Orderly := by
  cases ts with
  | nil => exact absurd h not_ends_nil
  | cons t rest =>
    simp only [forInitializer]
    split
    · next hk => exact h.tail (by rw [hk]; decide)
    · next hk =>
      exact ((variableDeclaration_orderly (h.tail (by rw [hk]; decide))).within).map _
    · exact (expressionStatement_orderly h).map _

theorem forClauses_orderly {ts : List Token} (h : Ends ts) : (forClauses ts).Orderly := by
  refine (expect_orderly (by decide) (by decide) h).andThen ?_
  intro _ rest left hRest
  refine ((forInitializer_orderly hRest).within).andThen ?_
  intro initializer rest left hRest
  refine ((expressionOr_orderly (by decide) (by decide) hRest).within).andThen ?_
  intro condition rest left hRest
  exact ((expressionOr_orderly (by decide) (by decide) hRest).within).map _

/-! ## Skipping and taking up again -/

theorem skipFrom_ends {last : Kind} {ts : List Token} (h : Ends ts) :
    ∃ more, skipFrom last ts = some more ∧ Ends more := by
  induction ts generalizing last with
  | nil => exact absurd h not_ends_nil
  | cons t rest ih =>
    rw [skipFrom]
    split
    · exact ⟨t :: rest, rfl, h⟩
    · next hStop => exact ih (h.tail fun hk => hStop (.inl hk))

theorem skip_ends {ts : List Token} (h : Ends ts) : ∃ more, skip ts = some more ∧ Ends more := by
  cases ts with
  | nil => exact absurd h not_ends_nil
  | cons t rest =>
    rw [skip]
    split
    · exact ⟨t :: rest, rfl, h⟩
    · next hk => exact skipFrom_ends (h.tail hk)

/-- The rule was taken up again short of the end mark, and without a value
only after a complaint that stopped it. -/
def Recovered.Orderly {ts : List Token} {α : Type} : Recovered ts α → Prop
  | .entry value rest _ notes => Ends rest ∧ (value = none → ∃ c ∈ notes, c.Fatal)
  | .overrun _ => False

theorem recover_orderly {α : Type} {t : Token} {rest : List Token} (ht : t.kind ≠ .eof)
    {step : Step (t :: rest) α} (h : step.Orderly) : (step.recover ht).Orderly := by
  cases step with
  | done value more left notes => exact ⟨h, fun hNone => by cases hNone⟩
  | failed why kept hk notes =>
    obtain ⟨more, hSkip, hMore⟩ := skip_ends h.1
    simp only [Step.recover]
    split
    · next hNone => rw [hSkip] at hNone; cases hNone
    · next later hSome =>
      rw [hSkip] at hSome
      cases hSome
      exact ⟨hMore, fun _ => ⟨why, by simp, h.2⟩⟩
  | overrun => exact h

/-! ## Statements -/

theorem statements_orderly : StatementInduction
    (fun ts => Ends ts → (statement ts).Orderly)
    (fun ts => Ends ts → ∀ test, (branches test ts).Orderly)
    (fun t rest ht => Ends (t :: rest) → (declaration t rest ht).Orderly)
    (fun ts => Ends ts → (block ts).Orderly) where
  statement_nil h := absurd h not_ends_nil
  statement_cons t rest body others inner h := by
    rw [statement]
    have hTail : t.kind ≠ .eof → Ends rest := h.tail
    split
    · next hk =>
      refine ((forClauses_orderly (hTail (by rw [hk]; decide))).within).andThen ?_
      intro clauses more left hMore
      exact ((body more left hMore).within).map _
    · next hk =>
      have hRest := hTail (by rw [hk]; decide)
      refine ((condition_orderly (by decide) (by decide) hRest).within).andThen ?_
      intro test more left hMore
      exact (others more left hMore test).within
    · next hk =>
      have hRest := hTail (by rw [hk]; decide)
      exact ((expressionThen_orderly (by decide) (by decide) hRest).within).map _
    · next hk =>
      have hRest := hTail (by rw [hk]; decide)
      refine ((condition_orderly (by decide) (by decide) hRest).within).andThen ?_
      intro test more left hMore
      exact ((body more left hMore).within).map _
    · next hk => exact ((inner (hTail (by rw [hk]; decide))).within).map _
    · exact expressionStatement_orderly h
  branches ts consequence alternative h test := by
    rw [branches]
    refine (consequence h).andThen ?_
    intro first rest left hRest
    cases rest with
    | nil => exact absurd hRest not_ends_nil
    | cons t more =>
      by_cases ht : t.kind = .elseWord
      · simp only [ht, if_true]
        have hMore : Ends more := hRest.tail (by rw [ht]; decide)
        exact ((alternative more left.tail hMore).within).map _
      · simp only [ht, if_false]
        exact hRest
  declaration t rest ht inner h := by
    rw [declaration]
    split
    · exact recover_orderly ht ((variableDeclaration_orderly (h.tail ht)).within)
    · exact recover_orderly ht (inner h)
  block_nil h := absurd h not_ends_nil
  block_cons t rest first behind h := by
    rw [block]
    by_cases hBrace : t.kind = .rightBrace
    · rw [if_pos hBrace]
      exact h.tail (by rw [hBrace]; decide)
    · rw [if_neg hBrace]
      by_cases ht : t.kind = .eof
      · rw [dif_pos ht]
        exact ⟨h, (by decide : Reason.braceAfterBlock ≠ .assignmentTarget)⟩
      · rw [dif_neg ht]
        have hFirst := first ht h
        split
        · next value more left notes hd =>
          rw [hd] at hFirst
          exact (((behind more left hFirst.1).within).map _).noting notes
        · next hd =>
          rw [hd] at hFirst
          exact hFirst

theorem statement_orderly (ts : List Token) (h : Ends ts) : (statement ts).Orderly :=
  (statements_orderly.all ts).1 h

theorem declaration_orderly (t : Token) (rest : List Token) (ht : t.kind ≠ .eof)
    (h : Ends (t :: rest)) : (declaration t rest ht).Orderly :=
  statements_orderly.declaration t rest ht (statement_orderly (t :: rest)) h

/-- Reading a list that holds an end mark stops at one. -/
theorem parse_finishes (ts : List Token) (h : Ends ts) :
    ∃ entries rest notes, parse ts = .finished entries rest notes := by
  fun_induction parse ts with
  | case1 => exact absurd h not_ends_nil
  | case2 t rest ht => exact ⟨_, _, _, rfl⟩
  | case3 t rest ht value more left notes hd entries last later hMore ih =>
    exact ⟨_, _, _, rfl⟩
  | case4 t rest ht value more left notes hd later hMore ih =>
    have hFirst := declaration_orderly t rest ht h
    rw [hd] at hFirst
    obtain ⟨_, _, _, hp⟩ := ih hFirst.1
    rw [hMore] at hp
    cases hp
  | case5 t rest ht notes hd =>
    have hFirst := declaration_orderly t rest ht h
    rw [hd] at hFirst
    exact hFirst.elim

end Treewalk
