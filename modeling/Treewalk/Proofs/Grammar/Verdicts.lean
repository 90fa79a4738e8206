import Treewalk.Proofs.Grammar.Reading

/-!
# Verdicts on the rules

There is a verdict on every rule at the front of a list that holds an end
mark, and so on the whole list (`expressions_verdict`, `statements_verdict`,
`parse_verdict`). Each comes in two parts: what the rule meets with, given
what its parts meet with (the lemmas that end in `_meets`), and the verdict,
put together along the same lines.
-/

namespace Treewalk

open Treewalk.Derivation Ebnf

/-! ## Every part derives something -/

theorem derives_level (level : Level) {w : List Kind}
    (h : Derives (joined level.operators (categoryOf level.tighter?)) w) :
    Derives (category (categoryOf (some level))) w := by
  refine .category ?_
  rw [rule_categoryOf]
  exact h

theorem viable_unary : Viable (category .unary) [] :=
  ⟨[.nilWord], .category (.right (.category (.left (.token (by decide)))))⟩

theorem viable_chain (level? : Option Level) : Viable (category (categoryOf level?)) [] := by
  induction level? using Level.induction with
  | tightest => exact viable_unary
  | step level hTighter =>
    obtain ⟨w, h⟩ := hTighter
    exact ⟨w, derives_level level ((Derives.seq h .stop).of_eq (List.append_nil w))⟩

theorem viable_assignment : Viable (category .assignment) [] := by
  obtain ⟨w, h⟩ := viable_chain (some .disjunction)
  exact ⟨w, .category ((Derives.seq h .absent).of_eq (List.append_nil w))⟩

theorem viable_expression : Viable (category .expression) [] :=
  viable_assignment.imp fun _ h => .category h

theorem viable_mark (kind : Kind) : Viable (mark kind) [] :=
  ⟨[kind], .token List.mem_cons_self⟩

theorem viable_statement : Viable (category .statement) [] :=
  (viable_expression.seq_left (viable_mark .semicolon)).imp fun _ h =>
    .category (.left (.left (.left (.left (.left (.category h))))))

theorem viable_optional (e : Ebnf) : Viable (.optional e) [] :=
  ⟨[], .absent⟩

theorem viable_many (e : Ebnf) : Viable (.many e) [] :=
  ⟨[], .stop⟩

namespace Step

variable {ts rest : List Token} {α β : Type}

theorem meets_done (value : α) (left : Left ts rest) {notes : List Complaint}
    (h : firstFatal? notes = none) : (Step.done value rest left notes).Meets (.passes rest) :=
  ⟨value, notes, ⟨left, rfl⟩, h⟩

theorem meets_failed (t : Token) {reason : Reason} (h : reason ≠ .assignmentTarget)
    (kept : rest <:+ ts) :
    (Step.failed ⟨t, reason⟩ rest kept [] : Step ts α).Meets (.halts ⟨t, reason⟩) :=
  firstFatal?_singleton h

/-- A step that goes on as its second part reads what the first one left. -/
theorem meets_andThen {first second : Reading} {us : List Token} {fate : Fate} {step : Step ts α}
    {next : (value : α) → (rest : List Token) → Left ts rest → Step ts β}
    (h : (first.andThen second) us fate) (hStep : ∀ fate, first us fate → step.Meets fate)
    (hNext : ∀ value mid left, second mid fate → (next value mid left).Meets fate) :
    (step.andThen next).Meets fate := by
  rcases h with ⟨why, rfl, h⟩ | ⟨mid, hFirst, hSecond⟩
  · exact (hStep _ h).andThen_halts next
  · exact (hStep _ hFirst).andThen fun value left => hNext value mid left hSecond

/-- What only adds harmless notes changes no fate. -/
theorem Meets.andThen_done {step : Step ts α} {fate : Fate} (h : step.Meets fate)
    {next : (value : α) → (rest : List Token) → Left ts rest → Step ts β}
    (hNext : ∀ value rest left, (next value rest left).Meets (.passes rest)) :
    (step.andThen next).Meets fate := by
  cases fate with
  | passes rest => exact h.andThen fun value left => hNext value rest left
  | halts why => exact h.andThen_halts next

/-- What a step leaves when it passes. -/
theorem Meets.left {step : Step ts α} (h : step.Meets (.passes rest)) : Left ts rest := by
  obtain ⟨_, _, hYields, _⟩ := h
  exact hYields.left

theorem Meets.ends {step : Step ts α} (h : step.Meets (.passes rest)) (hStep : step.Orderly) :
    Ends rest := by
  obtain ⟨_, _, hYields, _⟩ := h
  exact hYields.ends hStep

end Step

theorem Ends.ne_nil {ts : List Token} (h : Ends ts) : ts ≠ [] := by
  rintro rfl
  exact not_ends_nil h

theorem expect_verdict {kind : Kind} (hk : kind ≠ .eof) {reason : Reason}
    (hr : reason ≠ .assignmentTarget) {ts : List Token} (h : Ends ts) :
    Verdict (.of (expect kind reason)) (mark kind) ts := by
  cases ts with
  | nil => exact absurd h not_ends_nil
  | cons t rest =>
    by_cases ht : t.kind = kind
    · refine .closing ht (h.tail (ht ▸ hk)).ne_nil (fun u us hu => ?_) fun _ => id
      exact ⟨u, [], expect_yields_iff.mpr ⟨rfl, hu, rfl⟩, rfl⟩
    · refine .stuck reason (viable_mark kind) fun u us hu => ?_
      rw [Reading.of, expect, if_neg (hu ▸ ht)]
      exact Step.meets_failed u hr _

/-! ## Expressions -/

theorem firstFatal?_complaints (signs : List Token) : firstFatal? (complaints signs) = none := by
  rw [firstFatal?_eq_none_iff]
  intro c hc
  exact not_not_intro (not_fatal_of_mem_complaints hc)

theorem expression_meets {ts : List Token} {fate : Fate}
    (h : ((Reading.of (chain (some .disjunction))).andThen
      (.optional [.equal] (.of expression))) ts fate) : (expression ts).Meets fate := by
  rw [expression]
  refine Step.meets_andThen h (fun _ => id) fun target mid left hNext => ?_
  obtain ⟨t, more, rfl, ⟨ht, hMore⟩ | ⟨ht, rfl⟩⟩ := hNext
  · simp only [List.mem_singleton.mp ht, if_true, assignTo_eq]
    refine (Step.meets_within.mpr hMore).andThen_done fun value rest left => ?_
    exact Step.meets_done _ left (firstFatal?_complaints _)
  · simp only [mt List.mem_singleton.mpr ht, if_false]
    exact Step.meets_done _ left rfl

/-- What the operators and operands behind any first operand meet with. -/
def operandsReading (level : Level) : Reading :=
  fun ts fate => ∀ (origin : List Token) (first : Expr) (left : Left origin ts),
    (operands level first ts left).Meets fate

theorem chain_meets {level : Level} {ts : List Token} {fate : Fate}
    (h : ((Reading.of (chain level.tighter?)).andThen (operandsReading level)) ts fate) :
    (chain (some level) ts).Meets fate := by
  rw [chain]
  exact Step.meets_andThen h (fun _ => id) fun first mid left hNext => hNext ts first left

theorem operands_meets {level : Level} {t : Token} (ht : t.kind ∈ level.operators)
    {more : List Token} {fate : Fate}
    (h : ((Reading.of (chain level.tighter?)).andThen (operandsReading level)) more fate) :
    operandsReading level (t :: more) fate := by
  intro origin first left
  rw [operands, if_pos ht]
  rcases h with ⟨why, rfl, h⟩ | ⟨mid, ⟨second, notes, ⟨used, hSecond⟩, hNotes⟩, hNext⟩
  · have hChain : (chain level.tighter? more).Meets (.halts why) := h
    split
    · next hs =>
      rw [hs] at hChain
      exact Step.meets_noting_halts hChain _
    · next hs =>
      rw [hs] at hChain
      exact hChain
    · next hs =>
      rw [hs] at hChain
      exact hChain
  · rw [hSecond]
    exact (hNext origin _ _).noting hNotes

theorem operands_meets_nothing {level : Level} {t : Token} (ht : t.kind ∉ level.operators)
    (more : List Token) : operandsReading level (t :: more) (.passes (t :: more)) := by
  intro origin first left
  rw [operands, if_neg ht]
  exact Step.meets_done _ left rfl

theorem unary_meets_atom {t : Token} (ht : t.kind ∈ atoms) (more : List Token) :
    (unary (t :: more)).Meets (.passes more) :=
  ⟨_, [], unary_cons_yields_iff.mpr (.inl ⟨ht, rfl, rfl, rfl⟩), rfl⟩

theorem unary_meets_sign {t : Token} (ht : t.kind ∈ [Kind.bang, .minus]) {more : List Token}
    {fate : Fate} (h : (unary more).Meets fate) : (unary (t :: more)).Meets fate := by
  rw [unary]
  simp only [List.mem_cons, List.not_mem_nil, or_false] at ht
  rcases ht with ht | ht <;> rw [ht] <;> exact Step.meets_map.mpr (Step.meets_within.mpr h)

theorem unary_meets_group {t : Token} (ht : t.kind = .leftParen) {more : List Token} {fate : Fate}
    (h : ((Reading.of expression).andThen
      (.of (expect .rightParen .parenAfterExpression))) more fate) :
    (unary (t :: more)).Meets fate := by
  rw [unary, ht]
  refine Step.meets_andThen h (fun _ => Step.meets_within.mpr) fun inner mid left hNext => ?_
  exact Step.meets_map.mpr (Step.meets_within.mpr hNext)

theorem unary_meets_other {t : Token} (ht : t.kind ∉ expressionStarts) (more : List Token) :
    (unary (t :: more)).Meets (.halts ⟨t, .expression⟩) := by
  rw [unary]
  cases hk : t.kind with
  | bang | minus | leftParen | number | string | falseWord | trueWord | nilWord | identifier =>
    exact absurd (by rw [hk]; decide) ht
  | _ => exact Step.meets_failed t (by decide) _

theorem expressions_verdict : ExpressionInduction
    (fun ts => Ends ts → Verdict (.of expression) (category .assignment) ts)
    (fun level? ts => Ends ts → Verdict (.of (chain level?)) (category (categoryOf level?)) ts)
    (fun level ts => Ends ts → Verdict (operandsReading level)
      (many (token level.operators * category (categoryOf level.tighter?))) ts)
    (fun ts => Ends ts → Verdict (.of unary) (category .unary) ts) where
  expression ts first behind h := by
    refine ((first h).andThen (viable_optional _) ?_).mono
      (fun _ _ => expression_meets) fun _ hw => .category hw
    intro mid hMid
    have hEnds : Ends mid := hMid.ends (chain_orderly _ ts h)
    cases mid with
    | nil => exact absurd hEnds not_ends_nil
    | cons t more =>
      refine .optional fun ht => ?_
      have hMore : Ends more := hEnds.tail (by rw [List.mem_singleton.mp ht]; decide)
      exact behind more hMid.left.tail hMore
  chain_none ts inner h := by
    refine (inner h).mono (fun us fate hus => ?_) fun _ => id
    rw [Reading.of, chain]
    exact hus
  chain_some level ts first behind h := by
    refine ((first h).andThen (viable_many _) ?_).mono
      (fun _ _ => chain_meets) fun _ => derives_level level
    intro mid hMid
    exact behind mid hMid.left (hMid.ends (chain_orderly _ ts h))
  operands_nil level h := absurd h not_ends_nil
  operands_cons level t more second behind h := by
    by_cases ht : t.kind ∈ level.operators
    · have hMore : Ends more := h.tail (Level.ne_eof_of_mem_operators ht)
      have hBoth := (second hMore).andThen (viable_many _) fun mid hMid =>
        behind mid hMid.left (hMid.ends (chain_orderly _ more hMore))
      exact (Verdict.cons ht hBoth fun u us fate hu => operands_meets (hu ▸ ht)).weaken
        fun _ hw => hw.assoc.many_cons
    · exact .nothing .stop fun u us hu => operands_meets_nothing (hu ▸ ht) us
  unary_nil h := absurd h not_ends_nil
  unary_cons t more operand inner h := by
    have hTail : t.kind ∈ expressionStarts → Ends more := by
      intro ht
      refine h.tail fun hk => ?_
      rw [hk] at ht
      exact absurd ht (by decide)
    rw [expressionStarts] at hTail
    by_cases hSign : t.kind ∈ [Kind.bang, .minus]
    · have hMore : Ends more := hTail (List.mem_append_left (Kind.leftParen :: atoms) hSign)
      have hAll : Verdict (.of unary) (token [.bang, .minus] * category .unary) (t :: more) :=
        .cons hSign (operand hMore) fun u us fate hu => unary_meets_sign (hu ▸ hSign)
      exact hAll.weaken fun _ hw => .category (.left hw)
    by_cases hParen : t.kind = .leftParen
    · have hMore : Ends more := hTail (by simp [hParen])
      have hInner : Verdict (.of expression) (category .expression) more :=
        (inner hMore).weaken fun _ hw => .category hw
      have hBoth : Verdict ((Reading.of expression).andThen
          (.of (expect .rightParen .parenAfterExpression)))
          (category .expression * mark .rightParen) more := by
        refine hInner.andThen (viable_mark _) fun mid hMid => ?_
        exact expect_verdict (by decide) (by decide) (hMid.ends (expression_orderly more hMore))
      exact .behind hParen hBoth (fun _ _ _ hu => unary_meets_group hu)
        fun _ hw => .category (.right (.category (.right hw.assoc)))
    by_cases hAtom : t.kind ∈ atoms
    · have hMore : Ends more := hTail (List.mem_append_right [Kind.bang, .minus, .leftParen] hAtom)
      have hAll : Verdict (.of unary) (token atoms) (t :: more) :=
        .single hAtom hMore.ne_nil fun u us hu => unary_meets_atom (hu ▸ hAtom) us
      exact hAll.weaken fun _ hw => .category (.right (.category (.left hw)))
    · refine .stuck .expression viable_unary fun u us hu => unary_meets_other ?_ us
      rw [hu, expressionStarts]
      simp only [List.mem_cons, List.not_mem_nil, or_false, not_or] at hSign ⊢
      exact ⟨hSign.1, hSign.2, hParen, hAtom⟩

theorem expression_verdict (ts : List Token) (h : Ends ts) :
    Verdict (.of expression) (category .assignment) ts :=
  (expressions_verdict.all ts).1 h

/-! ## Statements that hold no statement -/

theorem expressionThen_meets {kind : Kind} {reason : Reason} {ts : List Token} {fate : Fate}
    (h : ((Reading.of expression).andThen (.of (expect kind reason))) ts fate) :
    (expressionThen kind reason ts).Meets fate := by
  refine Step.meets_andThen h (fun _ => id) fun e mid left hNext => ?_
  exact Step.meets_map.mpr (Step.meets_within.mpr hNext)

theorem expressionThen_verdict {kind : Kind} (hk : kind ≠ .eof) {reason : Reason}
    (hr : reason ≠ .assignmentTarget) {ts : List Token} (h : Ends ts) :
    Verdict (.of (expressionThen kind reason)) (category .expression * mark kind) ts := by
  have hFirst : Verdict (.of expression) (category .expression) ts :=
    (expression_verdict ts h).weaken fun _ hw => .category hw
  refine (hFirst.andThen (viable_mark kind) fun mid hMid => ?_).mono
    (fun _ _ => expressionThen_meets) fun _ => id
  exact expect_verdict hk hr (hMid.ends (expression_orderly ts h))

theorem expressionOr_verdict {kind : Kind} (hk : kind ≠ .eof) {reason : Reason}
    (hr : reason ≠ .assignmentTarget) {ts : List Token} (h : Ends ts) :
    Verdict (.of (expressionOr kind reason)) (optional (category .expression) * mark kind) ts := by
  cases ts with
  | nil => exact absurd h not_ends_nil
  | cons t more =>
    by_cases ht : t.kind = kind
    · refine .closing ht (h.tail (ht ▸ hk)).ne_nil (fun u us hu => ?_) fun _ hw => .seq .absent hw
      rw [Reading.of, expressionOr, if_pos hu]
      exact Step.meets_done _ _ rfl
    · refine (expressionThen_verdict hk hr h).of_head (fun u us fate hu hMeets => ?_) fun _ hw =>
        hw.first fun _ => .present
      rw [Reading.of, expressionOr, if_neg (hu ▸ ht)]
      exact Step.meets_map.mpr hMeets

theorem condition_meets {opening closing : Reason} {ts : List Token} {fate : Fate}
    (h : ((Reading.of (expect .leftParen opening)).andThen
      (.of (expressionThen .rightParen closing))) ts fate) :
    (condition opening closing ts).Meets fate :=
  Step.meets_andThen h (fun _ => id) fun _ _ _ => Step.meets_within.mpr

/-- What stands behind `if` and `while`. -/
def conditionRule : Ebnf :=
  mark .leftParen * (category .expression * mark .rightParen)

theorem condition_verdict {opening closing : Reason} (ho : opening ≠ .assignmentTarget)
    (hc : closing ≠ .assignmentTarget) {ts : List Token} (h : Ends ts) :
    Verdict (.of (condition opening closing)) conditionRule ts := by
  refine ((expect_verdict (by decide) ho h).andThen (viable_expression.seq_left (viable_mark _))
    fun mid hMid => ?_).mono (fun _ _ => condition_meets) fun _ => id
  exact expressionThen_verdict (by decide) hc (hMid.ends (expect_orderly (by decide) ho h))

theorem variableDeclaration_meets {ts : List Token} {fate : Fate}
    (h : ((Reading.of (expect .identifier .variableName)).andThen
      ((Reading.optional [.equal] (.of expression)).andThen
        (.of (expect .semicolon .semicolonAfterVariable)))) ts fate) :
    (variableDeclaration ts).Meets fate := by
  refine Step.meets_andThen h (fun _ => id) fun name mid left hNext => ?_
  obtain ⟨t, more, rfl, ⟨ht, hMore⟩ | ⟨ht, hMark⟩⟩ := Reading.optional_andThen hNext
  · simp only [List.mem_singleton.mp ht, if_true]
    exact Step.meets_map.mpr (Step.meets_within.mpr (expressionThen_meets hMore))
  · simp only [mt List.mem_singleton.mpr ht, if_false]
    exact Step.meets_map.mpr (Step.meets_within.mpr hMark)

/-- A value behind an equals sign, if there is one. -/
theorem value_verdict {ts : List Token} (h : Ends ts) :
    Verdict (.optional [.equal] (.of expression))
      (optional (mark .equal * category .expression)) ts := by
  cases ts with
  | nil => exact absurd h not_ends_nil
  | cons t more =>
    refine .optional fun ht => ?_
    have hMore : Ends more := h.tail (by rw [List.mem_singleton.mp ht]; decide)
    exact (expression_verdict more hMore).weaken fun _ hw => .category hw

theorem variableDeclaration_verdict {ts : List Token} (h : Ends ts) :
    Verdict (.of variableDeclaration) (mark .identifier *
      (optional (mark .equal * category .expression) * mark .semicolon)) ts := by
  refine ((expect_verdict (by decide) (by decide) h).andThen
    ((viable_optional _).seq_left (viable_mark _)) fun mid hMid => ?_).mono
    (fun _ _ => variableDeclaration_meets) fun _ => id
  have hEnds : Ends mid := hMid.ends (expect_orderly (by decide) (by decide) h)
  refine (value_verdict hEnds).andThen (viable_mark _) fun last hLast => ?_
  refine expect_verdict (by decide) (by decide) ?_
  obtain ⟨t, more, rfl, ⟨ht, hMore⟩ | ⟨_, hNone⟩⟩ := hLast
  · have hTail : Ends more := hEnds.tail (by rw [List.mem_singleton.mp ht]; decide)
    exact Step.Meets.ends hMore (expression_orderly more hTail)
  · cases hNone
    exact hEnds

theorem expressionStatement_verdict {ts : List Token} (h : Ends ts) :
    Verdict (.of expressionStatement) (category .exprStmt) ts :=
  (expressionThen_verdict (by decide) (by decide) h).mono (fun _ _ => Step.meets_map.mpr)
    fun _ hw => .category hw

/-- What the first clause of a `for` may be. -/
def firstClause : Ebnf :=
  category .varDecl + category .exprStmt + mark .semicolon

theorem viable_firstClause : Viable firstClause [] :=
  (viable_mark .semicolon).imp fun _ hw => .right hw

theorem forInitializer_verdict {ts : List Token} (h : Ends ts) :
    Verdict (.of forInitializer) firstClause ts := by
  cases ts with
  | nil => exact absurd h not_ends_nil
  | cons t more =>
    by_cases hNone : t.kind = .semicolon
    · have hMore : Ends more := h.tail (by rw [hNone]; decide)
      refine .closing hNone hMore.ne_nil (fun u us hu => ?_) fun _ hw => .right hw
      rw [Reading.of, forInitializer, hu]
      exact Step.meets_done _ _ rfl
    by_cases hVar : t.kind = .varWord
    · have hMore : Ends more := h.tail (by rw [hVar]; decide)
      refine .behind hVar (variableDeclaration_verdict hMore) (fun u us fate hu hMeets => ?_)
        fun _ hw => .left (.left (.category hw.assoc.assoc))
      rw [Reading.of, forInitializer, hu]
      exact Step.meets_map.mpr (Step.meets_within.mpr hMeets)
    · refine (expressionStatement_verdict h).of_head (fun u us fate hu hMeets => ?_)
        fun _ hw => .left (.right hw)
      rw [Reading.of, forInitializer, hu]
      split
      · next hk => exact absurd hk hNone
      · next hk => exact absurd hk hVar
      · exact Step.meets_map.mpr hMeets

/-- What stands behind `for`. -/
def clausesRule : Ebnf :=
  mark .leftParen * (firstClause * (optional (category .expression) * mark .semicolon *
    (optional (category .expression) * mark .rightParen)))

/-- The clauses in the grouping of the grammar. -/
theorem derives_clauses {w : List Kind} (h : Derives (mark .forWord * clausesRule) w) :
    Derives (mark .forWord * mark .leftParen * firstClause * optional (category .expression)
      * mark .semicolon * optional (category .expression) * mark .rightParen) w :=
  (h.assoc.assoc.assoc.first fun _ hw => hw.assoc).assoc

theorem viable_clause (kind : Kind) : Viable (optional (category .expression) * mark kind) [] :=
  (viable_optional _).seq_left (viable_mark kind)

theorem forClauses_meets {ts : List Token} {fate : Fate}
    (h : ((Reading.of (expect .leftParen .parenAfterFor)).andThen
      ((Reading.of forInitializer).andThen
        ((Reading.of (expressionOr .semicolon .semicolonAfterCondition)).andThen
          (.of (expressionOr .rightParen .parenAfterClauses))))) ts fate) :
    (forClauses ts).Meets fate := by
  refine Step.meets_andThen h (fun _ => id) fun _ mid left hFirst => ?_
  refine Step.meets_andThen hFirst (fun _ => Step.meets_within.mpr) fun _ mid left hTest => ?_
  refine Step.meets_andThen hTest (fun _ => Step.meets_within.mpr) fun _ mid left hLast => ?_
  exact Step.meets_map.mpr (Step.meets_within.mpr hLast)

theorem forClauses_verdict {ts : List Token} (h : Ends ts) :
    Verdict (.of forClauses) clausesRule ts := by
  have hLast : Viable (optional (category .expression) * mark .semicolon *
      (optional (category .expression) * mark .rightParen)) [] :=
    (viable_clause _).seq_left (viable_clause _)
  refine ((expect_verdict (by decide) (by decide) h).andThen (viable_firstClause.seq_left hLast)
    fun mid hMid => ?_).mono (fun _ _ => forClauses_meets) fun _ => id
  have hEnds : Ends mid := hMid.ends (expect_orderly (by decide) (by decide) h)
  refine (forInitializer_verdict hEnds).andThen hLast fun mid hMid => ?_
  have hEnds : Ends mid := hMid.ends (forInitializer_orderly hEnds)
  refine (expressionOr_verdict (by decide) (by decide) hEnds).andThen (viable_clause _)
    fun mid hMid => ?_
  exact expressionOr_verdict (by decide) (by decide)
    (hMid.ends (expressionOr_orderly (by decide) (by decide) hEnds))

/-! ## Taking up again -/

namespace Recovered

variable {ts : List Token} {α : Type}

/-- All complaints of a rule that was taken up again. -/
def complaints : Recovered ts α → List Complaint
  | .entry _ _ _ notes => notes
  | .overrun notes => notes

/-- The rule meets with a fate: the first complaint counts, wherever the
rule is taken up again. -/
def Meets (r : Recovered ts α) : Fate → Prop
  | .passes rest => ∃ value notes, r.Enters (some value) rest notes ∧ firstFatal? notes = none
  | .halts why => firstFatal? r.complaints = some why

theorem Meets.left {rest : List Token} {r : Recovered ts α} (h : r.Meets (.passes rest)) :
    Left ts rest := by
  obtain ⟨_, _, hEnters, _⟩ := h
  exact hEnters.left

theorem Meets.ends {rest : List Token} {r : Recovered ts α} (h : r.Meets (.passes rest))
    (hr : r.Orderly) : Ends rest := by
  obtain ⟨_, _, hEnters, _⟩ := h
  exact (hEnters.ends hr).1

end Recovered

theorem Step.Meets.recover {α : Type} {t : Token} {rest : List Token} {step : Step (t :: rest) α}
    {fate : Fate} (h : step.Meets fate) (ht : t.kind ≠ .eof) : (step.recover ht).Meets fate := by
  cases fate with
  | passes later =>
    obtain ⟨value, notes, hYields, hNotes⟩ := h
    exact ⟨value, notes, (recover_enters_some_iff ht).mpr hYields, hNotes⟩
  | halts why =>
    cases step with
    | done | overrun => exact h
    | failed reason kept hk notes =>
      simp only [Step.recover]
      split <;> exact h

/-- What a declaration meets with. -/
def declarationReading : Reading :=
  fun ts fate => ∃ t rest, ∃ ht : t.kind ≠ .eof,
    ts = t :: rest ∧ (declaration t rest ht).Meets fate

/-- What a declaration that passes leaves. -/
theorem declarationReading_leaves {ts mid : List Token} (h : declarationReading ts (.passes mid))
    (hEnds : Ends ts) : Left ts mid ∧ Ends mid := by
  obtain ⟨t, rest, ht, rfl, hFirst⟩ := h
  exact ⟨hFirst.left, hFirst.ends (declaration_orderly t rest ht hEnds)⟩

theorem declaration_meets_variable {t : Token} (ht : t.kind = .varWord) {more : List Token}
    {fate : Fate} (h : (variableDeclaration more).Meets fate) :
    declarationReading (t :: more) fate := by
  have hNotEof : t.kind ≠ .eof := by rw [ht]; decide
  refine ⟨t, more, hNotEof, rfl, ?_⟩
  rw [declaration, if_pos ht]
  exact (Step.meets_within.mpr h).recover hNotEof

theorem declaration_meets_statement {t : Token} (ht : t.kind ≠ .varWord) (hNotEof : t.kind ≠ .eof)
    {more : List Token} {fate : Fate} (h : (statement (t :: more)).Meets fate) :
    declarationReading (t :: more) fate := by
  refine ⟨t, more, hNotEof, rfl, ?_⟩
  rw [declaration, if_neg ht]
  exact h.recover hNotEof

/-! ## Statements -/

theorem statement_meets_for {t : Token} (ht : t.kind = .forWord) {more : List Token} {fate : Fate}
    (h : ((Reading.of forClauses).andThen (.of statement)) more fate) :
    (statement (t :: more)).Meets fate := by
  rw [statement, ht]
  refine Step.meets_andThen h (fun _ => Step.meets_within.mpr) fun _ mid left hBody => ?_
  exact Step.meets_map.mpr (Step.meets_within.mpr hBody)

theorem statement_meets_if {t : Token} (ht : t.kind = .ifWord) {more : List Token} {fate : Fate}
    (h : ((Reading.of (condition .parenAfterIf .parenAfterIfCondition)).andThen
      (.all fun test => .of (branches test))) more fate) : (statement (t :: more)).Meets fate := by
  rw [statement, ht]
  refine Step.meets_andThen h (fun _ => Step.meets_within.mpr) fun test mid left hBody => ?_
  exact Step.meets_within.mpr (hBody test)

theorem statement_meets_print {t : Token} (ht : t.kind = .printWord) {more : List Token}
    {fate : Fate} (h : (expressionThen .semicolon .semicolonAfterValue more).Meets fate) :
    (statement (t :: more)).Meets fate := by
  rw [statement, ht]
  exact Step.meets_map.mpr (Step.meets_within.mpr h)

theorem statement_meets_while {t : Token} (ht : t.kind = .whileWord) {more : List Token}
    {fate : Fate} (h : ((Reading.of (condition .parenAfterWhile .parenAfterCondition)).andThen
      (.of statement)) more fate) : (statement (t :: more)).Meets fate := by
  rw [statement, ht]
  refine Step.meets_andThen h (fun _ => Step.meets_within.mpr) fun _ mid left hBody => ?_
  exact Step.meets_map.mpr (Step.meets_within.mpr hBody)

theorem statement_meets_block {t : Token} (ht : t.kind = .leftBrace) {more : List Token}
    {fate : Fate} (h : (block more).Meets fate) : (statement (t :: more)).Meets fate := by
  rw [statement, ht]
  exact Step.meets_map.mpr (Step.meets_within.mpr h)

theorem statement_meets_expression {t : Token} (ht : t.kind ∉ statementWords) {more : List Token}
    {fate : Fate} (h : (expressionStatement (t :: more)).Meets fate) :
    (statement (t :: more)).Meets fate := by
  rw [statement]
  cases hk : t.kind with
  | forWord | ifWord | printWord | whileWord | leftBrace =>
    exact absurd (by rw [hk]; decide) ht
  | _ => exact h

theorem branches_meets {ts : List Token} {fate : Fate}
    (h : ((Reading.of statement).andThen (.optional [.elseWord] (.of statement))) ts fate)
    (test : Expr) : (branches test ts).Meets fate := by
  rw [branches]
  refine Step.meets_andThen h (fun _ => id) fun consequence mid left hNext => ?_
  obtain ⟨t, more, rfl, ⟨ht, hMore⟩ | ⟨ht, rfl⟩⟩ := hNext
  · simp only [List.mem_singleton.mp ht, if_true]
    exact Step.meets_map.mpr (Step.meets_within.mpr hMore)
  · simp only [mt List.mem_singleton.mpr ht, if_false]
    exact Step.meets_done _ left rfl

theorem block_meets {t : Token} (hBrace : t.kind ≠ .rightBrace) {more : List Token} {fate : Fate}
    (h : (declarationReading.andThen (.of block)) (t :: more) fate) :
    (block (t :: more)).Meets fate := by
  rw [block, if_neg hBrace]
  rcases h with ⟨why, rfl, u, us, ht, hEq, hFirst⟩ | ⟨mid, ⟨u, us, ht, hEq, hFirst⟩, hNext⟩
  · cases hEq
    rw [dif_neg ht]
    -- the block goes on behind the declaration that failed, but that one complained first
    split
    · next hd =>
      rw [hd] at hFirst
      exact Step.meets_noting_halts hFirst _
    · next hd =>
      rw [hd] at hFirst
      exact hFirst
  · cases hEq
    obtain ⟨value, notes, ⟨left, hd⟩, hNotes⟩ := hFirst
    rw [dif_neg ht, hd]
    exact (Step.meets_map.mpr (Step.meets_within.mpr hNext)).noting hNotes

/-- There are verdicts on what can be left of a list. -/
def VerdictsBehind (reading : Reading) (e : Ebnf) (ts : List Token) : Prop :=
  ∀ rest, Left ts rest → Ends rest → Verdict reading e rest

section Cases

variable {t : Token} {more : List Token}

theorem for_verdict (ht : t.kind = .forWord) (hMore : Ends more)
    (hBody : VerdictsBehind (.of statement) (category .statement) (t :: more)) :
    Verdict (.of statement) (category .statement) (t :: more) := by
  have hBoth : Verdict ((Reading.of forClauses).andThen (.of statement))
      (clausesRule * category .statement) more := by
    refine (forClauses_verdict hMore).andThen viable_statement ?_
    intro mid hMid
    exact hBody mid (Left.head.trans hMid.left) (hMid.ends (forClauses_orderly hMore))
  -- the rules read on to the right, and the grammar groups to the left
  exact .behind ht hBoth (fun _ _ _ hu => statement_meets_for hu)
    fun _ hw => .category (.right (.category (hw.assoc.first fun _ => derives_clauses)))

theorem if_verdict (ht : t.kind = .ifWord) (hMore : Ends more)
    (hBody : VerdictsBehind (.all fun test => .of (branches test))
      (category .statement * optional (mark .elseWord * category .statement)) (t :: more)) :
    Verdict (.of statement) (category .statement) (t :: more) := by
  have hBoth : Verdict ((Reading.of (condition .parenAfterIf .parenAfterIfCondition)).andThen
      (.all fun test => .of (branches test))) (conditionRule * (category .statement *
        optional (mark .elseWord * category .statement))) more := by
    refine (condition_verdict (by decide) (by decide) hMore).andThen
      (viable_statement.seq_left (viable_optional _)) ?_
    intro mid hMid
    exact hBody mid (Left.head.trans hMid.left)
      (hMid.ends (condition_orderly (by decide) (by decide) hMore))
  exact .behind ht hBoth (fun _ _ _ hu => statement_meets_if hu)
    fun _ hw => .category (.left (.left (.right (.category
      (hw.assoc.assoc.first fun _ hw => hw.first fun _ hw => hw.assoc.assoc)))))

theorem while_verdict (ht : t.kind = .whileWord) (hMore : Ends more)
    (hBody : VerdictsBehind (.of statement) (category .statement) (t :: more)) :
    Verdict (.of statement) (category .statement) (t :: more) := by
  have hBoth : Verdict ((Reading.of (condition .parenAfterWhile .parenAfterCondition)).andThen
      (.of statement)) (conditionRule * category .statement) more := by
    refine (condition_verdict (by decide) (by decide) hMore).andThen viable_statement ?_
    intro mid hMid
    exact hBody mid (Left.head.trans hMid.left)
      (hMid.ends (condition_orderly (by decide) (by decide) hMore))
  exact .behind ht hBoth (fun _ _ _ hu => statement_meets_while hu)
    fun _ hw => .category (.left (.right (.category
      (hw.assoc.first fun _ hw => hw.assoc.assoc))))

theorem print_verdict (ht : t.kind = .printWord) (hMore : Ends more) :
    Verdict (.of statement) (category .statement) (t :: more) :=
  .behind ht (expressionThen_verdict (by decide) (by decide) hMore)
    (fun _ _ _ hu => statement_meets_print hu)
    fun _ hw => .category (.left (.left (.left (.left (.right (.category hw.assoc))))))

end Cases

theorem statements_verdict : StatementInduction
    (fun ts => Ends ts → Verdict (.of statement) (category .statement) ts)
    (fun ts => Ends ts → Verdict (.all fun test => .of (branches test))
      (category .statement * optional (mark .elseWord * category .statement)) ts)
    (fun t rest _ => Ends (t :: rest) →
      Verdict declarationReading (category .declaration) (t :: rest))
    (fun ts => Ends ts → Verdict (.of block)
      (many (category .declaration) * mark .rightBrace) ts) where
  statement_nil h := absurd h not_ends_nil
  statement_cons t more body others inner h := by
    have hTail : t.kind ≠ .eof → Ends more := h.tail
    by_cases hFor : t.kind = .forWord
    · exact for_verdict hFor (hTail (by rw [hFor]; decide)) body
    by_cases hIf : t.kind = .ifWord
    · exact if_verdict hIf (hTail (by rw [hIf]; decide)) others
    by_cases hPrint : t.kind = .printWord
    · exact print_verdict hPrint (hTail (by rw [hPrint]; decide))
    by_cases hWhile : t.kind = .whileWord
    · exact while_verdict hWhile (hTail (by rw [hWhile]; decide)) body
    by_cases hBrace : t.kind = .leftBrace
    · have hMore : Ends more := hTail (by rw [hBrace]; decide)
      exact .behind hBrace (inner hMore) (fun _ _ _ hu => statement_meets_block hu)
        fun _ hw => .category (.left (.left (.left (.right (.category hw.assoc)))))
    · have hOther : t.kind ∉ statementWords := by
        simp [statementWords, hFor, hIf, hPrint, hWhile, hBrace]
      exact (expressionStatement_verdict h).of_head
        (fun u us fate hu => statement_meets_expression (hu ▸ hOther))
        fun _ hw => .category (.left (.left (.left (.left (.left hw)))))
  branches ts consequence alternative h := by
    refine ((consequence h).andThen (viable_optional _) fun mid hMid => ?_).mono
      (fun _ _ => branches_meets) fun _ => id
    have hEnds : Ends mid := hMid.ends (statement_orderly ts h)
    cases mid with
    | nil => exact absurd hEnds not_ends_nil
    | cons t more =>
      refine .optional fun ht => ?_
      have hMore : Ends more := hEnds.tail (by rw [List.mem_singleton.mp ht]; decide)
      exact alternative more hMid.left.tail hMore
  declaration t more ht inner h := by
    by_cases hVar : t.kind = .varWord
    · exact .behind hVar (variableDeclaration_verdict (h.tail ht))
        (fun _ _ _ hu => declaration_meets_variable hu)
        fun _ hw => .category (.left (.category hw.assoc.assoc))
    · exact (inner h).of_head
        (fun u us fate hu => declaration_meets_statement (hu ▸ hVar) (hu ▸ ht))
        fun _ hw => .category (.right hw)
  block_nil h := absurd h not_ends_nil
  block_cons t more first behind h := by
    by_cases hBrace : t.kind = .rightBrace
    · have hMore : Ends more := h.tail (by rw [hBrace]; decide)
      refine .closing hBrace hMore.ne_nil (fun u us hu => ?_) fun _ hw => .seq .stop hw
      rw [Reading.of, block, if_pos hu]
      exact Step.meets_done _ _ rfl
    by_cases ht : t.kind = .eof
    · refine .stuck .braceAfterBlock ((viable_many _).seq_left (viable_mark _)) fun u us hu => ?_
      rw [Reading.of, block, if_neg (hu ▸ hBrace), dif_pos (hu.trans ht)]
      exact Step.meets_failed u (by decide) _
    · have hBoth : Verdict (declarationReading.andThen (.of block)) (category .declaration *
          (many (category .declaration) * mark .rightBrace)) (t :: more) := by
        refine (first ht h).andThen ((viable_many _).seq_left (viable_mark _)) fun mid hMid => ?_
        obtain ⟨hLeft, hEnds⟩ := declarationReading_leaves hMid h
        exact behind mid hLeft hEnds
      exact hBoth.of_head (fun u us fate hu => block_meets (hu ▸ hBrace))
        fun _ hw => hw.assoc.first fun _ => Derives.many_cons

theorem declaration_verdict {t : Token} {rest : List Token} (ht : t.kind ≠ .eof)
    (h : Ends (t :: rest)) : Verdict declarationReading (category .declaration) (t :: rest) :=
  statements_verdict.declaration t rest ht (statements_verdict.all (t :: rest)).1 h

/-! ## The whole list -/

/-- What reading a whole list meets with. -/
def parseReading : Reading
  | ts, .passes rest => ∃ entries notes, parse ts = .finished entries rest notes ∧
      firstFatal? notes = none
  | ts, .halts why => firstFatal? (parse ts).notes = some why

theorem parse_meets {ts : List Token} {fate : Fate}
    (h : (declarationReading.andThen parseReading) ts fate) : parseReading ts fate := by
  rcases h with ⟨why, rfl, t, more, ht, rfl, hFirst⟩ | ⟨mid, ⟨t, more, ht, rfl, hFirst⟩, hNext⟩
  · rw [parseReading, parse, dif_neg ht]
    split
    · next hd =>
      rw [hd] at hFirst
      split
      · exact firstFatal?_append_of_some hFirst _
      · exact firstFatal?_append_of_some hFirst _
    · next hd =>
      rw [hd] at hFirst
      exact hFirst
  · obtain ⟨value, notes, ⟨left, hd⟩, hNotes⟩ := hFirst
    cases fate with
    | passes rest =>
      obtain ⟨entries, later, hParse, hLater⟩ := hNext
      refine ⟨some value :: entries, notes ++ later, ?_, ?_⟩
      · rw [parse, dif_neg ht, hd]
        simp only [hParse]
      · rw [firstFatal?_append_of_none hNotes, hLater]
    | halts why =>
      rw [parseReading] at hNext ⊢
      rw [parse, dif_neg ht, hd]
      cases hParse : parse mid with
      | finished | overrun =>
        rw [hParse] at hNext
        simp only [hParse]
        exact (firstFatal?_append_of_none hNotes _).trans hNext

theorem parse_verdict (ts : List Token) (h : Ends ts) :
    Verdict parseReading (many (category .declaration)) ts := by
  induction ts using Left.induction with
  | step ts ih =>
    cases ts with
    | nil => exact absurd h not_ends_nil
    | cons t more =>
      by_cases ht : t.kind = .eof
      · refine .nothing .stop fun u us hu => ⟨[], [], ?_, rfl⟩
        rw [parse, dif_pos (hu.trans ht)]
      · refine ((declaration_verdict ht h).andThen (viable_many _) fun mid hMid => ?_).mono
          (fun _ _ => parse_meets) fun _ => Derives.many_cons
        obtain ⟨hLeft, hMore⟩ := declarationReading_leaves hMid h
        exact ih mid hLeft hMore

end Treewalk
