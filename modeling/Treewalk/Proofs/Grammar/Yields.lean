import Treewalk.Proofs.Grammar.Derivation

/-!
# What a rule yields

A step that is done carries a proof that it used up tokens. `Step.Yields`
is the step without that proof: its value, what is left, and the notes.
This module says once, rule by rule, when a rule yields what
(`expression_yields_iff` and the others of that form). Everything later
about the grammar's rules rests on these and opens no rule again.
-/

namespace Treewalk

open Treewalk.Derivation

namespace Step

variable {ts rest more : List Token} {α β : Type}

/-- The step is done with a value, tokens left and notes. -/
def Yields (step : Step ts α) (value : α) (rest : List Token) (notes : List Complaint) : Prop :=
  ∃ left : Left ts rest, step = .done value rest left notes

theorem Yields.left {step : Step ts α} {value : α} {notes : List Complaint}
    (h : step.Yields value rest notes) : Left ts rest :=
  h.1

@[simp] theorem yields_done {value v : α} {left : Left ts rest} {notes n : List Complaint} :
    (Step.done value rest left notes).Yields v more n ↔ v = value ∧ more = rest ∧ n = notes := by
  constructor
  · rintro ⟨_, h⟩
    cases h
    exact ⟨rfl, rfl, rfl⟩
  · rintro ⟨rfl, rfl, rfl⟩
    exact ⟨left, rfl⟩

@[simp] theorem not_yields_failed {v : α} {why : Complaint} {kept : rest <:+ ts}
    {notes n : List Complaint} : ¬ (Step.failed why rest kept notes).Yields v more n := by
  rintro ⟨_, h⟩
  cases h

@[simp] theorem not_yields_overrun {v : α} {notes n : List Complaint} :
    ¬ (Step.overrun notes : Step ts α).Yields v more n := by
  rintro ⟨_, h⟩
  cases h

@[simp] theorem yields_noting {step : Step ts α} {v : α} {before n : List Complaint} :
    (step.noting before).Yields v rest n ↔ ∃ n', step.Yields v rest n' ∧ n = before ++ n' := by
  cases step with
  | done value rest left notes =>
    simp only [noting, yields_done]
    constructor
    · rintro ⟨rfl, rfl, rfl⟩
      exact ⟨notes, ⟨rfl, rfl, rfl⟩, rfl⟩
    · rintro ⟨_, ⟨rfl, rfl, rfl⟩, rfl⟩
      exact ⟨rfl, rfl, rfl⟩
  | failed => simp [noting]
  | overrun => simp [noting]

@[simp] theorem yields_within {left : Left ts rest} {step : Step rest α} {v : α}
    {n : List Complaint} : (step.within left).Yields v more n ↔ step.Yields v more n := by
  cases step <;> simp [within]

@[simp] theorem yields_map {f : α → β} {step : Step ts α} {w : β} {n : List Complaint} :
    (step.map f).Yields w rest n ↔ ∃ v, step.Yields v rest n ∧ w = f v := by
  cases step with
  | done value rest left notes =>
    simp only [map, yields_done]
    constructor
    · rintro ⟨rfl, rfl, rfl⟩
      exact ⟨value, ⟨rfl, rfl, rfl⟩, rfl⟩
    · rintro ⟨_, ⟨rfl, rfl, rfl⟩, rfl⟩
      exact ⟨rfl, rfl, rfl⟩
  | failed => simp [map]
  | overrun => simp [map]

theorem yields_andThen {step : Step ts α}
    {next : (value : α) → (rest : List Token) → Left ts rest → Step ts β} {w : β}
    {n : List Complaint} : (step.andThen next).Yields w more n ↔
      ∃ v rest n₁ n₂, step.Yields v rest n₁ ∧
        (∃ left, (next v rest left).Yields w more n₂) ∧ n = n₁ ++ n₂ := by
  cases step with
  | done value rest left notes =>
    simp only [andThen, yields_noting, yields_done]
    constructor
    · rintro ⟨n₂, h, rfl⟩
      exact ⟨value, rest, notes, n₂, ⟨rfl, rfl, rfl⟩, ⟨left, h⟩, rfl⟩
    · rintro ⟨_, _, _, n₂, ⟨rfl, rfl, rfl⟩, ⟨_, h⟩, rfl⟩
      exact ⟨n₂, h, rfl⟩
  | failed => simp [andThen]
  | overrun => simp [andThen]

end Step

@[simp] theorem expect_yields_iff {kind : Kind} {reason : Reason} {ts rest : List Token}
    {t : Token} {n : List Complaint} :
    (expect kind reason ts).Yields t rest n ↔ ts = t :: rest ∧ t.kind = kind ∧ n = [] := by
  cases ts with
  | nil => simp [expect]
  | cons u us =>
    by_cases h : u.kind = kind
    · simp only [expect, if_pos h, Step.yields_done, List.cons.injEq]
      constructor
      · rintro ⟨rfl, rfl, rfl⟩
        exact ⟨⟨rfl, rfl⟩, h, rfl⟩
      · rintro ⟨⟨rfl, rfl⟩, -, rfl⟩
        exact ⟨rfl, rfl, rfl⟩
    · simp only [expect, if_neg h, Step.not_yields_failed, List.cons.injEq, false_iff]
      rintro ⟨⟨rfl, rfl⟩, hk, -⟩
      exact h hk

/-- A step and the token that must follow it. -/
theorem yields_andThen_expect {α β : Type} {ts rest : List Token} {step : Step ts α} {f : α → β}
    {kind : Kind} {reason : Reason} {w : β} {n : List Complaint} :
    (step.andThen fun v more left =>
      ((expect kind reason more).within left).map fun _ => f v).Yields w rest n ↔
      ∃ v mark, step.Yields v (mark :: rest) n ∧ mark.kind = kind ∧ w = f v := by
  rw [Step.yields_andThen]
  simp only [Step.yields_map, Step.yields_within, expect_yields_iff]
  constructor
  · rintro ⟨v, _, n₁, _, h, ⟨_, mark, ⟨rfl, hk, rfl⟩, rfl⟩, rfl⟩
    exact ⟨v, mark, by rwa [List.append_nil], hk, rfl⟩
  · rintro ⟨v, mark, h, hk, rfl⟩
    exact ⟨v, mark :: rest, n, [], h, ⟨h.left, mark, ⟨rfl, hk, rfl⟩, rfl⟩,
      (List.append_nil _).symm⟩

/-! ## Expressions -/

theorem assignTo_eq (target value : Expr) (equals : Token) :
    assignTo target equals value =
      (assignTree target value, complaints (misplacedSign target equals)) := by
  cases target <;> rfl

theorem build_eq_join (level : Level) : level.build = join level := by
  cases level <;> rfl

theorem expression_yields_iff {ts rest : List Token} {e : Expr} {n : List Complaint} :
    (expression ts).Yields e rest n ↔
      ∃ target t more n₁, (chain (some .disjunction) ts).Yields target (t :: more) n₁ ∧
        (t.kind ≠ .equal ∧ e = target ∧ rest = t :: more ∧ n = n₁ ∨
          t.kind = .equal ∧ ∃ value n₂, (expression more).Yields value rest n₂ ∧
            e = assignTree target value ∧
            n = n₁ ++ n₂ ++ complaints (misplacedSign target t)) := by
  rw [expression, Step.yields_andThen]
  constructor
  · rintro ⟨target, _ | ⟨t, more⟩, n₁, n₂, hc, ⟨left, h⟩, rfl⟩
    · simp at h
    · refine ⟨target, t, more, n₁, hc, ?_⟩
      by_cases ht : t.kind = .equal
      · simp only [ht, if_true, Step.yields_andThen, assignTo_eq] at h
        obtain ⟨value, rest', m₁, m₂, hv, ⟨_, hd⟩, rfl⟩ := h
        obtain ⟨rfl, rfl, rfl⟩ := Step.yields_done.mp hd
        exact .inr ⟨ht, value, m₁, Step.yields_within.mp hv, rfl, (List.append_assoc ..).symm⟩
      · simp only [ht, if_false, Step.yields_done] at h
        obtain ⟨rfl, rfl, rfl⟩ := h
        exact .inl ⟨ht, rfl, rfl, List.append_nil _⟩
  · rintro ⟨target, t, more, n₁, hc, ⟨ht, rfl, rfl, rfl⟩ | ⟨ht, value, n₂, hv, rfl, rfl⟩⟩
    · exact ⟨e, t :: more, n, [], hc, ⟨hc.left, by simp [ht]⟩, (List.append_nil _).symm⟩
    · refine ⟨target, t :: more, n₁, n₂ ++ complaints (misplacedSign target t), hc,
        ⟨hc.left, ?_⟩, List.append_assoc ..⟩
      simp only [ht, if_true, Step.yields_andThen, assignTo_eq]
      exact ⟨value, rest, n₂, _, Step.yields_within.mpr hv,
        ⟨hc.left.tail.trans hv.left, Step.yields_done.mpr ⟨rfl, rfl, rfl⟩⟩, rfl⟩

theorem chain_none_yields_iff {ts rest : List Token} {e : Expr} {n : List Complaint} :
    (chain none ts).Yields e rest n ↔ (unary ts).Yields e rest n := by
  rw [chain]

theorem chain_some_yields_iff {level : Level} {ts rest : List Token} {e : Expr}
    {n : List Complaint} : (chain (some level) ts).Yields e rest n ↔
      ∃ first more n₁ n₂, (chain level.tighter? ts).Yields first more n₁ ∧
        (∃ left : Left ts more, (operands level first more left).Yields e rest n₂) ∧
        n = n₁ ++ n₂ := by
  rw [chain, Step.yields_andThen]

theorem not_operands_nil_yields {origin : List Token} {level : Level} {first e : Expr}
    {rest : List Token} {left : Left origin []} {n : List Complaint} :
    ¬ (operands level first [] left).Yields e rest n := by
  rw [operands]
  exact Step.not_yields_overrun

theorem operands_cons_yields_iff {origin : List Token} {level : Level} {first e : Expr} {t : Token}
    {more rest : List Token} {left : Left origin (t :: more)} {n : List Complaint} :
    (operands level first (t :: more) left).Yields e rest n ↔
      t.kind ∉ level.operators ∧ e = first ∧ rest = t :: more ∧ n = [] ∨
        t.kind ∈ level.operators ∧ ∃ second later n₁ n₂,
          (chain level.tighter? more).Yields second later n₁ ∧
          (∃ left : Left origin later,
            (operands level (join level first t second) later left).Yields e rest n₂) ∧
          n = n₁ ++ n₂ := by
  rw [operands]
  by_cases ht : t.kind ∈ level.operators
  · rw [if_pos ht, build_eq_join]
    constructor
    · intro h
      refine .inr ⟨ht, ?_⟩
      split at h
      · next second later used n₁ hs =>
        obtain ⟨n₂, hRest, rfl⟩ := Step.yields_noting.mp h
        exact ⟨second, later, n₁, n₂, ⟨used, hs⟩, ⟨_, hRest⟩, rfl⟩
      · exact absurd h Step.not_yields_failed
      · exact absurd h Step.not_yields_overrun
    · rintro (⟨hn, _⟩ | ⟨_, second, later, n₁, n₂, ⟨used, hs⟩, ⟨_, h⟩, rfl⟩)
      · exact absurd ht hn
      · rw [hs]
        exact Step.yields_noting.mpr ⟨n₂, h, rfl⟩
  · rw [if_neg ht, Step.yields_done]
    constructor
    · rintro ⟨rfl, rfl, rfl⟩
      exact .inl ⟨ht, rfl, rfl, rfl⟩
    · rintro (⟨_, rfl, rfl, rfl⟩ | ⟨hn, _⟩)
      · exact ⟨rfl, rfl, rfl⟩
      · exact absurd hn ht

theorem not_unary_nil_yields {rest : List Token} {e : Expr} {n : List Complaint} :
    ¬ (unary []).Yields e rest n := by
  rw [unary]
  exact Step.not_yields_overrun

/-- A token by itself, a sign and its operand, or a parenthesised
expression. -/
theorem unary_cons_yields_iff {t : Token} {more rest : List Token} {e : Expr}
    {n : List Complaint} : (unary (t :: more)).Yields e rest n ↔
      t.kind ∈ atoms ∧ e = atomTree t ∧ rest = more ∧ n = [] ∨
      t.kind ∈ [Kind.bang, .minus] ∧
        (∃ right, (unary more).Yields right rest n ∧ e = .unary t right) ∨
      t.kind = .leftParen ∧ ∃ inner closing, (expression more).Yields inner (closing :: rest) n ∧
        closing.kind = .rightParen ∧ e = .grouping inner := by
  rw [unary]
  cases hk : t.kind with
  | leftParen => simp [atoms, yields_andThen_expect]
  | falseWord | trueWord | nilWord | identifier | number | string => simp [hk, atoms, atomTree]
  | _ => simp [atoms]

/-! ## Statements that hold no statement -/

theorem expressionThen_yields_iff {kind : Kind} {reason : Reason} {ts rest : List Token} {e : Expr}
    {n : List Complaint} : (expressionThen kind reason ts).Yields e rest n ↔
      ∃ mark, (expression ts).Yields e (mark :: rest) n ∧ mark.kind = kind := by
  rw [expressionThen, yields_andThen_expect]
  constructor
  · rintro ⟨_, mark, h, hk, rfl⟩
    exact ⟨mark, h, hk⟩
  · rintro ⟨mark, h, hk⟩
    exact ⟨e, mark, h, hk, rfl⟩

theorem expressionOr_yields_iff {kind : Kind} {reason : Reason} {ts rest : List Token}
    {e? : Option Expr} {n : List Complaint} : (expressionOr kind reason ts).Yields e? rest n ↔
      ∃ t more, ts = t :: more ∧
        (t.kind = kind ∧ e? = none ∧ rest = more ∧ n = [] ∨
          t.kind ≠ kind ∧ ∃ e mark, (expression ts).Yields e (mark :: rest) n ∧
            mark.kind = kind ∧ e? = some e) := by
  cases ts with
  | nil => simp [expressionOr]
  | cons t more =>
    by_cases ht : t.kind = kind
    · simp only [expressionOr, if_pos ht, Step.yields_done]
      constructor
      · intro h
        exact ⟨t, more, rfl, .inl ⟨ht, h⟩⟩
      · rintro ⟨_, _, heq, ⟨_, h⟩ | ⟨hn, _⟩⟩
        · cases heq
          exact h
        · cases heq
          exact absurd ht hn
    · simp only [expressionOr, if_neg ht, Step.yields_map, expressionThen_yields_iff]
      constructor
      · rintro ⟨e, ⟨mark, h, hk⟩, rfl⟩
        exact ⟨t, more, rfl, .inr ⟨ht, e, mark, h, hk, rfl⟩⟩
      · rintro ⟨_, _, heq, ⟨hn, _⟩ | ⟨_, e, mark, h, hk, rfl⟩⟩
        · cases heq
          exact absurd hn ht
        · exact ⟨e, ⟨mark, h, hk⟩, rfl⟩

theorem condition_yields_iff {first last : Reason} {ts rest : List Token} {e : Expr}
    {n : List Complaint} : (condition first last ts).Yields e rest n ↔
      ∃ opening more closing, ts = opening :: more ∧ opening.kind = .leftParen ∧
        (expression more).Yields e (closing :: rest) n ∧ closing.kind = .rightParen := by
  rw [condition, Step.yields_andThen]
  simp only [expect_yields_iff, Step.yields_within, expressionThen_yields_iff]
  constructor
  · rintro ⟨opening, more, _, _, ⟨rfl, hOpening, rfl⟩, ⟨_, closing, h, hClosing⟩, rfl⟩
    exact ⟨opening, more, closing, rfl, hOpening, h, hClosing⟩
  · rintro ⟨opening, more, closing, rfl, hOpening, h, hClosing⟩
    exact ⟨opening, more, [], n, ⟨rfl, hOpening, rfl⟩, ⟨.head, closing, h, hClosing⟩, rfl⟩

theorem variableDeclaration_yields_iff {ts rest : List Token} {s : Stmt} {n : List Complaint} :
    (variableDeclaration ts).Yields s rest n ↔
      ∃ name t more, ts = name :: t :: more ∧ name.kind = .identifier ∧
        (t.kind = .semicolon ∧ s = .var name none ∧ rest = more ∧ n = [] ∨
          t.kind = .equal ∧ ∃ e mark, (expression more).Yields e (mark :: rest) n ∧
            mark.kind = .semicolon ∧ s = .var name (some e)) := by
  rw [variableDeclaration, Step.yields_andThen]
  simp only [expect_yields_iff]
  constructor
  · rintro ⟨name, _ | ⟨t, more⟩, _, n₂, ⟨rfl, hName, rfl⟩, ⟨_, h⟩, rfl⟩
    · simp at h
    · refine ⟨name, t, more, rfl, hName, ?_⟩
      by_cases ht : t.kind = .equal
      · simp only [ht, if_true, Step.yields_map, Step.yields_within,
          expressionThen_yields_iff] at h
        obtain ⟨e, ⟨mark, h, hk⟩, rfl⟩ := h
        exact .inr ⟨ht, e, mark, h, hk, rfl⟩
      · simp only [ht, if_false, Step.yields_map, Step.yields_within, expect_yields_iff] at h
        obtain ⟨_, ⟨heq, hk, rfl⟩, rfl⟩ := h
        cases heq
        exact .inl ⟨hk, rfl, rfl, rfl⟩
  · rintro ⟨name, t, more, rfl, hName, ⟨ht, rfl, rfl, rfl⟩ | ⟨ht, e, mark, h, hk, rfl⟩⟩
    · refine ⟨name, t :: rest, [], [], ⟨rfl, hName, rfl⟩, ⟨.head, ?_⟩, rfl⟩
      simp [ht]
    · refine ⟨name, t :: more, [], n, ⟨rfl, hName, rfl⟩, ⟨.head, ?_⟩, rfl⟩
      simp only [ht, if_true, Step.yields_map, Step.yields_within, expressionThen_yields_iff]
      exact ⟨e, ⟨mark, h, hk⟩, rfl⟩

theorem expressionStatement_yields_iff {ts rest : List Token} {s : Stmt} {n : List Complaint} :
    (expressionStatement ts).Yields s rest n ↔
      ∃ e mark, (expression ts).Yields e (mark :: rest) n ∧ mark.kind = .semicolon ∧
        s = .expression e := by
  rw [expressionStatement, Step.yields_map]
  simp only [expressionThen_yields_iff]
  constructor
  · rintro ⟨e, ⟨mark, h, hk⟩, rfl⟩
    exact ⟨e, mark, h, hk, rfl⟩
  · rintro ⟨e, mark, h, hk, rfl⟩
    exact ⟨e, ⟨mark, h, hk⟩, rfl⟩

theorem not_forInitializer_nil_yields {rest : List Token} {s? : Option Stmt} {n : List Complaint} :
    ¬ (forInitializer []).Yields s? rest n :=
  Step.not_yields_overrun

theorem forInitializer_cons_yields_iff {t : Token} {more rest : List Token} {s? : Option Stmt}
    {n : List Complaint} : (forInitializer (t :: more)).Yields s? rest n ↔
      t.kind = .semicolon ∧ s? = none ∧ rest = more ∧ n = [] ∨
      t.kind = .varWord ∧ (∃ s, (variableDeclaration more).Yields s rest n ∧ s? = some s) ∨
      t.kind ∉ [Kind.semicolon, .varWord] ∧
        ∃ s, (expressionStatement (t :: more)).Yields s rest n ∧ s? = some s := by
  rw [forInitializer]
  cases t.kind with
  | _ => simp

theorem forClauses_yields_iff {ts rest : List Token} {c : Clauses} {n : List Complaint} :
    (forClauses ts).Yields c rest n ↔
      ∃ opening more later last n₁ n₂ n₃, ts = opening :: more ∧ opening.kind = .leftParen ∧
        (forInitializer more).Yields c.initializer later n₁ ∧
        (expressionOr .semicolon .semicolonAfterCondition later).Yields c.condition last n₂ ∧
        (expressionOr .rightParen .parenAfterClauses last).Yields c.increment rest n₃ ∧
        n = n₁ ++ n₂ ++ n₃ := by
  simp only [forClauses, Step.yields_andThen, expect_yields_iff, Step.yields_within,
    Step.yields_map]
  constructor
  · rintro ⟨opening, more, _, _, ⟨rfl, hk, rfl⟩, ⟨_, i, later, n₁, _, hi, ⟨_, test, last, n₂, n₃,
      ht, ⟨_, e, he, rfl⟩, rfl⟩, rfl⟩, rfl⟩
    exact ⟨opening, more, later, last, n₁, n₂, n₃, rfl, hk, hi, ht, he,
      (List.append_assoc n₁ n₂ n₃).symm⟩
  · rintro ⟨opening, more, later, last, n₁, n₂, n₃, rfl, hk, hi, ht, he, rfl⟩
    exact ⟨opening, more, [], _, ⟨rfl, hk, rfl⟩, ⟨.head, c.initializer, later, n₁, n₂ ++ n₃, hi,
      ⟨Left.head.trans hi.left, c.condition, last, n₂, n₃, ht,
        ⟨(Left.head.trans hi.left).trans ht.left, c.increment, he, rfl⟩, rfl⟩, rfl⟩,
      List.append_assoc ..⟩

/-! ## Statements -/

theorem not_statement_nil_yields {rest : List Token} {s : Stmt} {n : List Complaint} :
    ¬ (statement []).Yields s rest n := by
  rw [statement]
  exact Step.not_yields_overrun

/-- The kinds that a statement other than an expression starts with. -/
def statementWords : List Kind :=
  [.forWord, .ifWord, .printWord, .whileWord, .leftBrace]

theorem statement_for_yields_iff {t : Token} (ht : t.kind = .forWord) {more rest : List Token}
    {s : Stmt} {n : List Complaint} : (statement (t :: more)).Yields s rest n ↔
      ∃ clauses later n₁ body n₂, (forClauses more).Yields clauses later n₁ ∧
        (statement later).Yields body rest n₂ ∧ s = clauses.toLoop body ∧ n = n₁ ++ n₂ := by
  rw [statement, ht]
  simp only [Step.yields_andThen, Step.yields_within, Step.yields_map]
  constructor
  · rintro ⟨clauses, later, n₁, n₂, hc, ⟨_, body, hb, rfl⟩, rfl⟩
    exact ⟨clauses, later, n₁, body, n₂, hc, hb, rfl, rfl⟩
  · rintro ⟨clauses, later, n₁, body, n₂, hc, hb, rfl, rfl⟩
    exact ⟨clauses, later, n₁, n₂, hc, ⟨Left.head.trans hc.left, body, hb, rfl⟩, rfl⟩

theorem statement_if_yields_iff {t : Token} (ht : t.kind = .ifWord) {more rest : List Token}
    {s : Stmt} {n : List Complaint} : (statement (t :: more)).Yields s rest n ↔
      ∃ test later n₁ n₂,
        (condition .parenAfterIf .parenAfterIfCondition more).Yields test later n₁ ∧
        (branches test later).Yields s rest n₂ ∧ n = n₁ ++ n₂ := by
  rw [statement, ht]
  simp only [Step.yields_andThen, Step.yields_within]
  constructor
  · rintro ⟨test, later, n₁, n₂, hc, ⟨_, hb⟩, rfl⟩
    exact ⟨test, later, n₁, n₂, hc, hb, rfl⟩
  · rintro ⟨test, later, n₁, n₂, hc, hb, rfl⟩
    exact ⟨test, later, n₁, n₂, hc, ⟨Left.head.trans hc.left, hb⟩, rfl⟩

theorem statement_while_yields_iff {t : Token} (ht : t.kind = .whileWord) {more rest : List Token}
    {s : Stmt} {n : List Complaint} : (statement (t :: more)).Yields s rest n ↔
      ∃ test later n₁ body n₂,
        (condition .parenAfterWhile .parenAfterCondition more).Yields test later n₁ ∧
        (statement later).Yields body rest n₂ ∧ s = .loop test body ∧ n = n₁ ++ n₂ := by
  rw [statement, ht]
  simp only [Step.yields_andThen, Step.yields_within, Step.yields_map]
  constructor
  · rintro ⟨test, later, n₁, n₂, hc, ⟨_, body, hb, rfl⟩, rfl⟩
    exact ⟨test, later, n₁, body, n₂, hc, hb, rfl, rfl⟩
  · rintro ⟨test, later, n₁, body, n₂, hc, hb, rfl, rfl⟩
    exact ⟨test, later, n₁, n₂, hc, ⟨Left.head.trans hc.left, body, hb, rfl⟩, rfl⟩

theorem statement_print_yields_iff {t : Token} (ht : t.kind = .printWord) {more rest : List Token}
    {s : Stmt} {n : List Complaint} : (statement (t :: more)).Yields s rest n ↔
      ∃ e mark, (expression more).Yields e (mark :: rest) n ∧ mark.kind = .semicolon ∧
        s = .print e := by
  rw [statement, ht]
  simp only [Step.yields_map, Step.yields_within, expressionThen_yields_iff]
  constructor
  · rintro ⟨e, ⟨mark, h, hk⟩, rfl⟩
    exact ⟨e, mark, h, hk, rfl⟩
  · rintro ⟨e, mark, h, hk, rfl⟩
    exact ⟨e, ⟨mark, h, hk⟩, rfl⟩

theorem statement_block_yields_iff {t : Token} (ht : t.kind = .leftBrace) {more rest : List Token}
    {s : Stmt} {n : List Complaint} : (statement (t :: more)).Yields s rest n ↔
      ∃ body, (block more).Yields body rest n ∧ s = .block body := by
  rw [statement, ht]
  simp only [Step.yields_map, Step.yields_within]

theorem statement_expression_yields_iff {t : Token} (ht : t.kind ∉ statementWords)
    {more rest : List Token} {s : Stmt} {n : List Complaint} :
    (statement (t :: more)).Yields s rest n ↔
      (expressionStatement (t :: more)).Yields s rest n := by
  rw [statement]
  cases hk : t.kind with
  | forWord | ifWord | printWord | whileWord | leftBrace =>
    exact absurd (by rw [hk]; decide) ht
  | _ => exact Iff.rfl

theorem branches_yields_iff {test : Expr} {ts rest : List Token} {s : Stmt} {n : List Complaint} :
    (branches test ts).Yields s rest n ↔
      ∃ consequence t more n₁, (statement ts).Yields consequence (t :: more) n₁ ∧
        (t.kind ≠ .elseWord ∧ s = .branch test consequence none ∧ rest = t :: more ∧ n = n₁ ∨
          t.kind = .elseWord ∧ ∃ alternative n₂, (statement more).Yields alternative rest n₂ ∧
            s = .branch test consequence (some alternative) ∧ n = n₁ ++ n₂) := by
  rw [branches, Step.yields_andThen]
  constructor
  · rintro ⟨consequence, _ | ⟨t, more⟩, n₁, n₂, hc, ⟨_, h⟩, rfl⟩
    · simp at h
    · refine ⟨consequence, t, more, n₁, hc, ?_⟩
      by_cases ht : t.kind = .elseWord
      · simp only [ht, if_true, Step.yields_map, Step.yields_within] at h
        obtain ⟨alternative, h, rfl⟩ := h
        exact .inr ⟨ht, alternative, n₂, h, rfl, rfl⟩
      · simp only [ht, if_false, Step.yields_done] at h
        obtain ⟨rfl, rfl, rfl⟩ := h
        exact .inl ⟨ht, rfl, rfl, List.append_nil _⟩
  · rintro ⟨consequence, t, more, n₁, hc, ⟨ht, rfl, rfl, rfl⟩ | ⟨ht, alternative, n₂, h, rfl, rfl⟩⟩
    · exact ⟨consequence, t :: more, n, [], hc, ⟨hc.left, by simp [ht]⟩,
        (List.append_nil _).symm⟩
    · refine ⟨consequence, t :: more, n₁, n₂, hc, ⟨hc.left, ?_⟩, rfl⟩
      simp only [ht, if_true, Step.yields_map, Step.yields_within]
      exact ⟨alternative, h, rfl⟩

/-! ## Declarations -/

/-- A rule was taken up again: its value, if it did not fail, what is left
and the notes. -/
def Recovered.Enters {α : Type} {ts : List Token} (r : Recovered ts α) (value : Option α)
    (rest : List Token) (notes : List Complaint) : Prop :=
  ∃ left : Left ts rest, r = .entry value rest left notes

theorem recover_enters_some_iff {α : Type} {t : Token} {rest more : List Token}
    (ht : t.kind ≠ .eof) {step : Step (t :: rest) α} {v : α} {n : List Complaint} :
    (step.recover ht).Enters (some v) more n ↔ step.Yields v more n := by
  cases step with
  | done value more left notes =>
    simp only [Step.recover, Step.yields_done]
    constructor
    · rintro ⟨_, h⟩
      cases h
      exact ⟨rfl, rfl, rfl⟩
    · rintro ⟨rfl, rfl, rfl⟩
      exact ⟨left, rfl⟩
  | failed why kept hk notes =>
    simp only [Step.not_yields_failed, iff_false]
    rintro ⟨_, h⟩
    simp only [Step.recover] at h
    split at h <;> cases h
  | overrun notes =>
    simp only [Step.not_yields_overrun, iff_false]
    rintro ⟨_, h⟩
    cases h

theorem declaration_variable_enters_iff {t : Token} {rest more : List Token} {ht : t.kind ≠ .eof}
    (hk : t.kind = .varWord) {s : Stmt} {n : List Complaint} :
    (declaration t rest ht).Enters (some s) more n ↔ (variableDeclaration rest).Yields s more n := by
  rw [declaration, if_pos hk, recover_enters_some_iff, Step.yields_within]

theorem declaration_statement_enters_iff {t : Token} {rest more : List Token} {ht : t.kind ≠ .eof}
    (hk : t.kind ≠ .varWord) {s : Stmt} {n : List Complaint} :
    (declaration t rest ht).Enters (some s) more n ↔ (statement (t :: rest)).Yields s more n := by
  rw [declaration, if_neg hk, recover_enters_some_iff]

theorem not_block_nil_yields {rest : List Token} {body : List Stmt} {n : List Complaint} :
    ¬ (block []).Yields body rest n := by
  rw [block]
  exact Step.not_yields_overrun

theorem block_cons_yields_iff {t : Token} {more rest : List Token} {body : List Stmt}
    {n : List Complaint} : (block (t :: more)).Yields body rest n ↔
      t.kind = .rightBrace ∧ body = [] ∧ rest = more ∧ n = [] ∨
      t.kind ≠ .rightBrace ∧ ∃ (ht : t.kind ≠ .eof) (first : Option Stmt) (later : List Token)
        (n₁ : List Complaint) (others : List Stmt) (n₂ : List Complaint),
        (declaration t more ht).Enters first later n₁ ∧ (block later).Yields others rest n₂ ∧
        body = first.toList ++ others ∧ n = n₁ ++ n₂ := by
  rw [block]
  by_cases hBrace : t.kind = .rightBrace
  · simp [hBrace]
  · by_cases hEnd : t.kind = .eof
    · simp [hEnd]
    · rw [if_neg hBrace, dif_neg hEnd]
      constructor
      · intro h
        refine .inr ⟨hBrace, hEnd, ?_⟩
        split at h
        · next first later left n₁ hd =>
          simp only [Step.yields_noting, Step.yields_map, Step.yields_within] at h
          obtain ⟨n₂, ⟨others, hb, rfl⟩, rfl⟩ := h
          exact ⟨first, later, n₁, others, n₂, ⟨left, hd⟩, hb, rfl, rfl⟩
        · exact absurd h Step.not_yields_overrun
      · rintro (⟨hk, _⟩ | ⟨_, _, first, later, n₁, others, n₂, ⟨left, hd⟩, hb, rfl, rfl⟩)
        · exact absurd hk hBrace
        · rw [hd]
          simp only [Step.yields_noting, Step.yields_map, Step.yields_within]
          exact ⟨n₂, ⟨others, hb, rfl⟩, rfl⟩

end Treewalk
