import Treewalk.Proofs.Grammar.Sentence
import Treewalk.Proofs.Grammar.Soundness

/-!
# The language that is read

Put together: a token list is read without a complaint that stops a rule
exactly if its kinds are a sentence of the grammar, and what is read then
is the derivation that gives each `else` to the nearest open `if`
(`parse_eq_derivation`). Where moreover a lone name stands to the left of
each `=`, there is no complaint at all.
-/

namespace Treewalk.Derivation

/-! ## Assignments to a lone name -/

/-- One token, which is a name. -/
def Bare (tokens : List Token) : Prop :=
  ∃ name : Token, name.kind = .identifier ∧ tokens = [name]

/-- The tree is a variable. -/
def IsVariable (e : Expr) : Prop :=
  ∃ name, e = .variable name

theorem not_isVariable_join {level : Level} {left right : Expr} {operator : Token} :
    ¬ IsVariable (join level left operator right) := by
  rintro ⟨name, h⟩
  cases level <;> simp [join] at h

theorem Links.isVariable_tree : {level : Level} → (links : Links level) → {left : Expr} →
    IsVariable (links.tree left) → links.tokens = [] ∧ IsVariable left
  | _, .none, _, h => ⟨rfl, h⟩
  | _, .link _ _ links, _, h => absurd (links.isVariable_tree h).2 not_isVariable_join

theorem Links.tree_of_tokens {level : Level} {links : Links level} (h : links.tokens = [])
    (left : Expr) : links.tree left = left := by
  cases links with
  | none => rfl
  | link operator operand links => simp [Links.tokens] at h

theorem not_bare_cons_append {t u : Token} {ts us : List Token} :
    ¬ Bare (t :: ts ++ u :: us) := by
  rintro ⟨name, -, h⟩
  simp at h

/-- What stands for a variable is a lone name. -/
theorem Primary.isVariable_tree_iff (p : Primary) : IsVariable p.tree ↔ Bare p.tokens := by
  cases p with
  | atom leaf =>
    constructor
    · rintro ⟨name, h⟩
      refine ⟨leaf.token, ?_, rfl⟩
      simp only [Primary.tree, atomTree] at h
      split at h <;> first | assumption | cases h
    · rintro ⟨name, hName, h⟩
      refine ⟨leaf.token, ?_⟩
      rw [← List.singleton_inj.mp h] at hName
      simp [Primary.tree, atomTree, hName]
  | group opening inner closing =>
    constructor
    · rintro ⟨name, h⟩
      simp [Primary.tree] at h
    · intro h
      exact absurd h not_bare_cons_append

theorem Unary.isVariable_tree_iff (u : Unary) : IsVariable u.tree ↔ Bare u.tokens := by
  cases u with
  | sign operator operand =>
    obtain ⟨t, rest, hTokens, -⟩ := operand.exists_head
    constructor
    · rintro ⟨name, h⟩
      simp [Unary.tree] at h
    · intro h
      rw [Unary.tokens, hTokens] at h
      exact absurd h (@not_bare_cons_append operator.token t [] rest)
  | primary inner => exact inner.isVariable_tree_iff

theorem Chain.isVariable_tree_iff {level? : Option Level} (c : Chain level?) :
    IsVariable c.tree ↔ Bare c.tokens := by
  cases c with
  | unary inner => exact inner.isVariable_tree_iff
  | level first links =>
    have ih := first.isVariable_tree_iff
    constructor
    · intro h
      obtain ⟨hLinks, hFirst⟩ := links.isVariable_tree h
      rw [Chain.tokens, hLinks, List.append_nil]
      exact ih.mp hFirst
    · intro h
      obtain ⟨t, rest, hTokens, -⟩ := first.exists_head
      cases hLinks : links.tokens with
      | nil =>
        rw [Chain.tree, Links.tree_of_tokens hLinks]
        rw [Chain.tokens, hLinks, List.append_nil] at h
        exact ih.mpr h
      | cons u us =>
        rw [Chain.tokens, hTokens, hLinks] at h
        exact absurd h not_bare_cons_append

theorem misplacedSign_eq_nil_iff {target : Expr} {equals : Token} :
    misplacedSign target equals = [] ↔ IsVariable target := by
  cases target <;> simp [misplacedSign, IsVariable]

mutual

/-- No sign is misplaced exactly if a lone name stands to the left of each. -/
theorem Expression.misplaced_eq_nil_iff : (e : Expression) →
    (e.misplaced = [] ↔ ∀ target ∈ e.targets, Bare target)
  | .plain chain => chain.misplaced_eq_nil_iff
  | .assignment target equals value => by
    simp only [Expression.misplaced, Expression.targets, List.append_eq_nil_iff,
      target.misplaced_eq_nil_iff, value.misplaced_eq_nil_iff, misplacedSign_eq_nil_iff,
      target.isVariable_tree_iff, List.forall_mem_append, List.forall_mem_singleton]

theorem Chain.misplaced_eq_nil_iff : {level? : Option Level} → (c : Chain level?) →
    (c.misplaced = [] ↔ ∀ target ∈ c.targets, Bare target)
  | _, .unary inner => inner.misplaced_eq_nil_iff
  | _, .level first links => by
    simp only [Chain.misplaced, Chain.targets, List.append_eq_nil_iff,
      first.misplaced_eq_nil_iff, links.misplaced_eq_nil_iff, List.forall_mem_append]

theorem Links.misplaced_eq_nil_iff : {level : Level} → (links : Links level) →
    (links.misplaced = [] ↔ ∀ target ∈ links.targets, Bare target)
  | _, .none => by simp [Links.misplaced, Links.targets]
  | _, .link operator operand links => by
    simp only [Links.misplaced, Links.targets, List.append_eq_nil_iff,
      operand.misplaced_eq_nil_iff, links.misplaced_eq_nil_iff, List.forall_mem_append]

theorem Unary.misplaced_eq_nil_iff : (u : Unary) →
    (u.misplaced = [] ↔ ∀ target ∈ u.targets, Bare target)
  | .sign _ operand => operand.misplaced_eq_nil_iff
  | .primary inner => inner.misplaced_eq_nil_iff

theorem Primary.misplaced_eq_nil_iff : (p : Primary) →
    (p.misplaced = [] ↔ ∀ target ∈ p.targets, Bare target)
  | .atom _ => by simp [Primary.misplaced, Primary.targets]
  | .group _ inner _ => inner.misplaced_eq_nil_iff

end

theorem misplacedIn_eq_nil_iff (expressions : List Expression) :
    misplacedIn expressions = [] ↔ ∀ target ∈ targetsIn expressions, Bare target := by
  induction expressions with
  | nil => simp [targetsIn]
  | cons e more ih =>
    rw [misplacedIn_cons, List.append_eq_nil_iff, e.misplaced_eq_nil_iff, ih, targetsIn, targetsIn,
      List.flatMap_cons, List.forall_mem_append]

end Treewalk.Derivation

namespace Treewalk

open Treewalk.Derivation

/-! ## The program -/

/-- The wording tells the complaint about assignment targets from all
others. -/
theorem Reason.text_eq_iff {reason : Reason} :
    reason.text = "Invalid assignment target." ↔ reason = .assignmentTarget := by
  cases reason <;> decide

theorem not_fatal_of_mem_complaints {signs : List Token} {c : Complaint}
    (h : c ∈ complaints signs) : c.reason = .assignmentTarget := by
  obtain ⟨equals, -, rfl⟩ := List.mem_map.mp h
  rfl

/-- A list with no end mark before its last token is used up to there. -/
theorem eq_of_append_end {ts used rest : List Token} {endMark t : Token} {more : List Token}
    (hts : ∀ t ∈ ts, t.kind ≠ .eof) (ht : t.kind = .eof)
    (h : ts ++ [endMark] = used ++ rest) (hRest : rest = t :: more) : used = ts := by
  subst hRest
  rcases List.append_eq_append_iff.mp h with ⟨front, rfl, hFront⟩ | ⟨front, rfl, hFront⟩
  · cases front with
    | nil => simp
    | cons u us => simp at hFront
  · cases front with
    | nil => simp
    | cons u us =>
      obtain ⟨rfl, -⟩ := List.cons.inj hFront
      exact absurd ht (hts t (by simp))

/-- What is left of a whole list starts with the end mark. -/
theorem parse_rest {ts rest : List Token} {entries : List (Option Stmt)} {n : List Complaint}
    (h : parse ts = .finished entries rest n) : ∃ t more, rest = t :: more ∧ t.kind = .eof := by
  fun_induction parse ts generalizing entries rest n with
  | case1 => cases h
  | case2 t more ht =>
    cases h
    exact ⟨t, more, rfl, ht⟩
  | case3 t more ht value later left notes hd others last notes' hLater ih =>
    cases h
    exact ih hLater
  | case4 => cases h
  | case5 => cases h

/-- A list that no complaint stopped at has a derivation that gives each
`else` to the nearest open `if`. -/
theorem exists_nearest_derivation {ts : List Token} (hts : ∀ t ∈ ts, t.kind ≠ .eof)
    {endMark : Token} (hEnd : endMark.kind = .eof)
    (h : ∀ c ∈ (parse (ts ++ [endMark])).notes, ¬ c.Fatal) :
    ∃ d : Declarations, d.tokens = ts ∧ d.NearestElse := by
  have hEnds : Ends (ts ++ [endMark]) := ⟨endMark, by simp, hEnd⟩
  obtain ⟨entries, rest, n, hParse⟩ := parse_finishes _ hEnds
  obtain ⟨d, -, hNear, used, hUsed, -, hAll⟩ := exists_program _ hEnds hParse
  obtain ⟨t, more, hRest, ht⟩ := parse_rest hParse
  rw [hParse] at h
  obtain ⟨rfl, -⟩ := hAll h
  exact ⟨d, eq_of_append_end hts ht hUsed hRest, hNear⟩

theorem exists_derivation {ts : List Token} (hts : ∀ t ∈ ts, t.kind ≠ .eof) {endMark : Token}
    (hEnd : endMark.kind = .eof) (h : ∀ c ∈ (parse (ts ++ [endMark])).notes, ¬ c.Fatal) :
    ∃ d : Declarations, d.tokens = ts := by
  obtain ⟨d, hTokens, -⟩ := exists_nearest_derivation hts hEnd h
  exact ⟨d, hTokens⟩

/-- For a token list before its end mark:

- no complaint but the one about assignment targets is made exactly if the
  kinds of the list are a sentence of the grammar;
- then the list has a derivation that gives each `else` to the nearest open
  `if`, and for whatever derivation does, the entries are its trees, none
  missing, and the complaints are one for each of its misplaced signs;
- no complaint is made at all exactly if the kinds are a sentence and a
  lone name stands to the left of each `=`. -/
theorem parse_eq_derivation (ts : List Token) (hts : ∀ t ∈ ts, t.kind ≠ .eof) (endMark : Token)
    (hEnd : endMark.kind = .eof) :
    ((∀ c ∈ (parse (ts ++ [endMark])).notes, c.reason.text = "Invalid assignment target.") ↔
      Ebnf.Sentence (kinds ts)) ∧
    (Ebnf.Sentence (kinds ts) → ∃ d : Declarations, d.tokens = ts ∧ d.NearestElse) ∧
    (∀ d : Declarations, d.tokens = ts → d.NearestElse → parse (ts ++ [endMark]) =
      .finished (d.trees.map some) [endMark] (complaints (misplacedIn d.expressions))) ∧
    ((parse (ts ++ [endMark])).notes = [] ↔ Ebnf.Sentence (kinds ts) ∧
      ∀ d : Declarations, d.tokens = ts → ∀ target ∈ targetsIn d.expressions, Bare target) := by
  have hNearest : ∀ s : Declarations, s.tokens = ts →
      ∃ d : Declarations, d.tokens = ts ∧ d.NearestElse ∧ d.expressions = s.expressions := by
    intro s hs
    obtain ⟨d, hNear, hTokens, hExpressions⟩ := s.exists_nearest
    exact ⟨d, hTokens.trans hs, hNear, hExpressions⟩
  have hRead : ∀ d : Declarations, d.tokens = ts → d.NearestElse → parse (ts ++ [endMark]) =
      .finished (d.trees.map some) [endMark] (complaints (misplacedIn d.expressions)) := by
    rintro d rfl hNear
    exact d.parse_eq ⟨endMark, by simp [hEnd]⟩ [] hNear
  have hSentence : (∀ c ∈ (parse (ts ++ [endMark])).notes,
      c.reason.text = "Invalid assignment target.") ↔ Ebnf.Sentence (kinds ts) := by
    rw [sentence_iff]
    constructor
    · intro h
      exact exists_derivation hts hEnd fun c hc => not_not_intro (Reason.text_eq_iff.mp (h c hc))
    · rintro ⟨s, hs⟩ c hc
      obtain ⟨d, hTokens, hNear, -⟩ := hNearest s hs
      rw [hRead d hTokens hNear] at hc
      exact Reason.text_eq_iff.mpr (not_fatal_of_mem_complaints hc)
  refine ⟨hSentence, ?_, hRead, ?_⟩
  · intro h
    obtain ⟨s, hs⟩ := (sentence_iff ts).mp h
    obtain ⟨d, hTokens, hNear, -⟩ := hNearest s hs
    exact ⟨d, hTokens, hNear⟩
  · -- the notes of the nearest derivation are about the expressions of any other
    have hNotes : ∀ s : Declarations, s.tokens = ts → ((parse (ts ++ [endMark])).notes = [] ↔
        ∀ target ∈ targetsIn s.expressions, Bare target) := by
      intro s hs
      obtain ⟨d, hTokens, hNear, hExpressions⟩ := hNearest s hs
      rw [hRead d hTokens hNear, Parse.notes, hExpressions, complaints, List.map_eq_nil_iff,
        misplacedIn_eq_nil_iff]
    constructor
    · intro h
      exact ⟨hSentence.mp (by simp [h]), fun s hs => (hNotes s hs).mp h⟩
    · rintro ⟨h, hBare⟩
      obtain ⟨s, hs⟩ := (sentence_iff ts).mp h
      exact (hNotes s hs).mpr (hBare s hs)

/-- `a = nil;` before an end mark. -/
theorem parse_eq_derivation_assignment :
    let ts := [Token.ofSource .identifier "a" .nil 1, .ofSource .equal "=" .nil 1,
      .ofSource .nilWord "nil" .nil 1, .ofSource .semicolon ";" .nil 1]
    (∀ t ∈ ts, t.kind ≠ .eof) ∧
      ((parse (ts ++ [.ofSource .eof "" .nil 1])).notes = [] ↔ Ebnf.Sentence (kinds ts) ∧
        ∀ d : Declarations, d.tokens = ts → ∀ target ∈ targetsIn d.expressions, Bare target) := by
  intro ts
  have hts : ∀ t ∈ ts, t.kind ≠ .eof := by
    simp [ts, Token.ofSource]
  exact ⟨hts, (parse_eq_derivation ts hts (.ofSource .eof "" .nil 1) rfl).2.2.2⟩

end Treewalk
