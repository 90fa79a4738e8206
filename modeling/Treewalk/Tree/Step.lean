import Treewalk.Diagnostic

/-!
# Reading tokens

The grammar's rules read from the front of a token list. A rule is done
and has used up at least one token, or it failed with one complaint, or
it looked past the end of a list that has no end mark. `Step` keeps the
three apart and carries what later steps rest on: what is left is always
an end piece of what there was.

A complaint about an assignment target does not stop a rule; it is a note
that travels with the outcome.
-/

namespace Treewalk

/-- What a complaint says. -/
inductive Reason where
  | expression
  | variableName
  | semicolonAfterVariable
  | semicolonAfterValue
  | semicolonAfterExpression
  | semicolonAfterCondition
  | braceAfterBlock
  | parenAfterIf
  | parenAfterIfCondition
  | parenAfterWhile
  | parenAfterCondition
  | parenAfterFor
  | parenAfterClauses
  | parenAfterExpression
  | assignmentTarget
deriving DecidableEq, Repr

/-- The wording of a complaint. -/
def Reason.text : Reason → String
  | expression => "Expect expression."
  | variableName => "Expect variable name."
  | semicolonAfterVariable => "Expect ';' after variable declaration."
  | semicolonAfterValue => "Expect ';' after value."
  | semicolonAfterExpression => "Expect ';' after expression."
  | semicolonAfterCondition => "Expect ';' after loop condition."
  | braceAfterBlock => "Expect '\x7d' after block."
  | parenAfterIf => "Expect '(' after 'if'."
  | parenAfterIfCondition => "Expect ')' after if condition."
  | parenAfterWhile => "Expect '(' after 'while'."
  | parenAfterCondition => "Expect ')' after condition."
  | parenAfterFor => "Expect '(' after 'for'."
  | parenAfterClauses => "Expect ')' after for clauses."
  | parenAfterExpression => "Expect ')' after expression."
  | assignmentTarget => "Invalid assignment target."

/-- A complaint about a token. -/
structure Complaint where
  token : Token
  reason : Reason

/-- The report of a complaint. -/
def Complaint.diagnostic (c : Complaint) : Diagnostic :=
  .atToken c.token c.reason.text

/-- What is left of `ts` once at least one token is used up is `rest`. -/
structure Left (ts rest : List Token) : Prop where
  suffix : rest <:+ ts
  shorter : rest.length < ts.length

namespace Left

/-- Using up the first token. -/
theorem head {t : Token} {rest : List Token} : Left (t :: rest) rest :=
  ⟨List.suffix_cons t rest, Nat.lt_succ_self _⟩

/-- Using up more of what is left. -/
theorem trans {ts rest more : List Token} (h : Left ts rest) (k : Left rest more) :
    Left ts more :=
  ⟨k.suffix.trans h.suffix, Nat.lt_trans k.shorter h.shorter⟩

/-- Using up the first token of what is left. -/
theorem tail {ts rest : List Token} {t : Token} (h : Left ts (t :: rest)) : Left ts rest :=
  h.trans head

end Left

/-- The outcome of a rule at the front of `ts`. -/
inductive Step (ts : List Token) (α : Type) where
  | done (value : α) (rest : List Token) (left : Left ts rest) (notes : List Complaint)
  | failed (why : Complaint) (rest : List Token) (kept : rest <:+ ts) (notes : List Complaint)
  | overrun (notes : List Complaint)

namespace Step

variable {ts rest : List Token} {α β : Type}

/-- The outcome with earlier notes put before its own. -/
def noting (before : List Complaint) : Step ts α → Step ts α
  | .done value rest left notes => .done value rest left (before ++ notes)
  | .failed why rest kept notes => .failed why rest kept (before ++ notes)
  | .overrun notes => .overrun (before ++ notes)

/-- A step from what is left, seen from the start. -/
def within (left : Left ts rest) : Step rest α → Step ts α
  | .done value more used notes => .done value more (left.trans used) notes
  | .failed why more kept notes => .failed why more (kept.trans left.suffix) notes
  | .overrun notes => .overrun notes

/-- The next step, if this one is done. -/
def andThen (step : Step ts α)
    (next : (value : α) → (rest : List Token) → Left ts rest → Step ts β) : Step ts β :=
  match step with
  | .done value rest left notes => (next value rest left).noting notes
  | .failed why rest kept notes => .failed why rest kept notes
  | .overrun notes => .overrun notes

/-- The same step with another value. -/
def map (f : α → β) : Step ts α → Step ts β
  | .done value rest left notes => .done (f value) rest left notes
  | .failed why rest kept notes => .failed why rest kept notes
  | .overrun notes => .overrun notes

end Step

/-- Use up a token of a kind, or complain about the one that stands there. -/
def expect (kind : Kind) (reason : Reason) : (ts : List Token) → Step ts Token
  | [] => .overrun []
  | t :: rest =>
    if t.kind = kind then .done t rest .head []
    else .failed ⟨t, reason⟩ (t :: rest) List.suffix_rfl []

/-! ## Skipping after a failure -/

/-- Skip to the next place where a statement can begin: right behind a
semicolon, before a word that starts a statement, or at the end mark. The
kind is that of the token last used up. -/
def skipFrom (last : Kind) : List Token → Option (List Token)
  | [] => none
  | t :: rest =>
    if t.kind = .eof ∨ last = .semicolon ∨ t.kind.startsStatement then some (t :: rest)
    else skipFrom t.kind rest

/-- Use up one token, unless it is the end mark, and skip from there. -/
def skip : List Token → Option (List Token)
  | [] => none
  | t :: rest => if t.kind = .eof then some (t :: rest) else skipFrom t.kind rest

theorem skipFrom_suffix {last : Kind} {ts more : List Token} (h : skipFrom last ts = some more) :
    more <:+ ts := by
  induction ts generalizing last with
  | nil => simp [skipFrom] at h
  | cons t rest ih =>
    simp only [skipFrom] at h
    split at h
    · cases h; exact List.suffix_rfl
    · exact (ih h).trans (List.suffix_cons t rest)

/-- After a failure at a token that is no end mark, skipping moves on. -/
theorem skip_left {t : Token} {rest kept more : List Token} (ht : t.kind ≠ .eof)
    (hk : kept <:+ t :: rest) (h : skip kept = some more) : Left (t :: rest) more := by
  cases kept with
  | nil => simp [skip] at h
  | cons u us =>
    simp only [skip] at h
    split at h
    · next hu =>
      cases h
      refine ⟨hk, Nat.lt_of_le_of_ne hk.length_le fun hl => ?_⟩
      have := hk.eq_of_length hl
      cases this
      exact ht hu
    · have hs := skipFrom_suffix h
      have hl := hk.length_le
      refine ⟨(hs.trans (List.suffix_cons u us)).trans hk, ?_⟩
      have := hs.length_le
      simp only [List.length_cons] at hl ⊢
      omega

/-- The outcome of a rule that is taken up again after a failure: it used
up tokens whether it succeeded or not. -/
inductive Recovered (ts : List Token) (α : Type) where
  | entry (value : Option α) (rest : List Token) (left : Left ts rest) (notes : List Complaint)
  | overrun (notes : List Complaint)

/-- A failure is noted and skipped over, so that reading goes on behind
it. -/
def Step.recover {t : Token} {rest : List Token} {α : Type} (ht : t.kind ≠ .eof) :
    Step (t :: rest) α → Recovered (t :: rest) α
  | .done value more left notes => .entry (some value) more left notes
  | .failed why kept hk notes =>
    match h : skip kept with
    | none => .overrun (notes ++ [why])
    | some more => .entry none more (skip_left ht hk h) (notes ++ [why])
  | .overrun notes => .overrun notes

end Treewalk
