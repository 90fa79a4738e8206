import Treewalk.Tree.Grammar

/-!
# The log of a reading

What is tried while a token list is read: an entry for every declaration
that was tried, at any depth, with its value or none, and one for every sign
of assignment that was met, with what stands on both sides of it. The log
follows the rules from call to call and keeps nothing of what they note.

An assignment is met in an expression, so the log of a rule that holds no
statement is a list of assignments. Entries stand in the order in which the
calls came back.
-/

namespace Treewalk

/-! ## Calls -/

/-- A sign of assignment that was met: what stands on its left, and what was
read on its right, if it could be read. -/
structure Assignment where
  target : Expr
  equals : Token
  value : Option Expr

namespace Assignment

/-- A value was read for what is no variable. -/
def misplaced (a : Assignment) : Bool :=
  match a.target with
  | .variable _ => false
  | _ => a.value.isSome

/-- The complaint about a misplaced sign. -/
def complaint? (a : Assignment) : Option Complaint :=
  if a.misplaced then some ⟨a.equals, .assignmentTarget⟩ else none

end Assignment

/-- A call that the log of a reading keeps. -/
inductive Call where
  /-- A sign of assignment was met. -/
  | assignment (a : Assignment)
  /-- A declaration was read from the front of some tokens, or failed. -/
  | declaration (start : List Token) (value : Option Stmt)

namespace Call

/-- A declaration that failed. -/
def failed : Call → Bool
  | .declaration _ none => true
  | _ => false

/-- An assignment to what is no variable. -/
def misplaced : Call → Bool
  | .assignment a => a.misplaced
  | _ => false

end Call

namespace Step

variable {ts rest : List Token} {α β γ : Type}

/-- The value of a step that is done. -/
def value? : Step ts α → Option α
  | .done value _ _ _ => some value
  | .failed .. | .overrun _ => none

/-- What comes behind a step that is done; behind any other comes
nothing. -/
def behind (step : Step ts α) (next : α → (rest : List Token) → Left ts rest → List γ) :
    List γ :=
  match step with
  | .done value rest left _ => next value rest left
  | .failed .. | .overrun _ => []

end Step

/-! ## The log of an expression -/

mutual

/-- The assignments met by an expression. -/
def expressionCalls (ts : List Token) : List Assignment :=
  chainCalls (some .disjunction) ts ++
    (chain (some .disjunction) ts).behind fun target rest left =>
      match rest, left with
      | [], _ => []
      | equals :: more, left =>
        if equals.kind = .equal then
          expressionCalls more ++ [⟨target, equals, (expression more).value?⟩]
        else []
termination_by Rule.expression.weight ts
decreasing_by
  · exact Rule.weight_lt_of_tighter (by decide) ts
  · exact Rule.weight_lt_of_shorter _ _ left.tail.shorter

/-- The assignments met by operands of a level or a tighter one. -/
def chainCalls (level? : Option Level) (ts : List Token) : List Assignment :=
  match level? with
  | none => unaryCalls ts
  | some level =>
    chainCalls level.tighter? ts ++
      (chain level.tighter? ts).behind fun _ rest _left => operandsCalls level rest
termination_by (Rule.chain level?).weight ts
decreasing_by
  · exact Rule.weight_lt_of_tighter (by decide) ts
  · exact Rule.weight_lt_of_tighter (Rule.height_tighter level) ts
  · exact Rule.weight_lt_of_shorter _ _ _left.shorter

/-- The assignments met behind a first operand. -/
def operandsCalls (level : Level) (ts : List Token) : List Assignment :=
  match ts with
  | [] => []
  | operator :: rest =>
    if operator.kind ∈ level.operators then
      chainCalls level.tighter? rest ++
        (chain level.tighter? rest).behind fun _ more _left => operandsCalls level more
    else []
termination_by Rule.operands.weight ts
decreasing_by
  · exact Rule.weight_lt_of_shorter _ _ Left.head.shorter
  · exact Rule.weight_lt_of_shorter _ _ (Left.head.trans _left).shorter

/-- The assignments met by a unary expression. -/
def unaryCalls (ts : List Token) : List Assignment :=
  match ts with
  | [] => []
  | t :: rest =>
    if t.kind ∈ [.bang, .minus] then unaryCalls rest
    else if t.kind = .leftParen then expressionCalls rest
    else []
termination_by Rule.unary.weight ts
decreasing_by
  all_goals exact Rule.weight_lt_of_shorter _ _ Left.head.shorter

end

/-! ## Statements that hold no statement -/

/-- The assignments met by an expression that may be left out. -/
def expressionOrCalls (kind : Kind) (ts : List Token) : List Assignment :=
  match ts with
  | [] => []
  | t :: rest => if t.kind = kind then [] else expressionCalls (t :: rest)

/-- The assignments met by a parenthesised condition. -/
def conditionCalls (opening : Reason) (ts : List Token) : List Assignment :=
  (expect .leftParen opening ts).behind fun _ rest _ => expressionCalls rest

/-- The assignments met by a variable declaration behind its word; its own
sign is none of them. -/
def variableDeclarationCalls (ts : List Token) : List Assignment :=
  (expect .identifier .variableName ts).behind fun _ rest _ =>
    match rest with
    | [] => []
    | t :: more => if t.kind = .equal then expressionCalls more else []

/-- The assignments met by the first clause of a `for`. -/
def forInitializerCalls (ts : List Token) : List Assignment :=
  match ts with
  | [] => []
  | t :: rest =>
    if t.kind = .semicolon then []
    else if t.kind = .varWord then variableDeclarationCalls rest
    else expressionCalls (t :: rest)

/-- The assignments met by the clauses of a `for`. -/
def forClausesCalls (ts : List Token) : List Assignment :=
  (expect .leftParen .parenAfterFor ts).behind fun _ rest _ =>
    forInitializerCalls rest ++ (forInitializer rest).behind fun _ rest _ =>
      expressionOrCalls .semicolon rest ++
        (expressionOr .semicolon .semicolonAfterCondition rest).behind fun _ rest _ =>
          expressionOrCalls .rightParen rest

/-! ## The log of a program -/

/-- The call that a declaration was, if it came back. -/
def Recovered.call {ts : List Token} : Recovered ts Stmt → List Call
  | .entry value _ _ _ => [.declaration ts value]
  | .overrun _ => []

/-- What comes behind a rule that was taken up again. -/
def Recovered.behind {ts : List Token} {α γ : Type} (outcome : Recovered ts α)
    (next : (rest : List Token) → Left ts rest → List γ) : List γ :=
  match outcome with
  | .entry _ rest left _ => next rest left
  | .overrun _ => []

mutual

/-- The calls made by a statement. -/
def statementCalls (ts : List Token) : List Call :=
  match ts with
  | [] => []
  | t :: rest =>
    match t.kind with
    | .forWord =>
      (forClausesCalls rest).map .assignment ++
        (forClauses rest).behind fun _ more _left => statementCalls more
    | .ifWord =>
      (conditionCalls .parenAfterIf rest).map .assignment ++
        (condition .parenAfterIf .parenAfterIfCondition rest).behind
          fun _ more _left => branchesCalls more
    | .printWord => (expressionCalls rest).map .assignment
    | .whileWord =>
      (conditionCalls .parenAfterWhile rest).map .assignment ++
        (condition .parenAfterWhile .parenAfterCondition rest).behind
          fun _ more _left => statementCalls more
    | .leftBrace => blockCalls rest
    | _ => (expressionCalls (t :: rest)).map .assignment
termination_by Rule.statement.weight ts
decreasing_by
  · exact Rule.weight_lt_of_shorter _ _ (Left.head.trans _left).shorter
  · exact Rule.weight_lt_of_shorter _ _ (Left.head.trans _left).shorter
  · exact Rule.weight_lt_of_shorter _ _ (Left.head.trans _left).shorter
  · exact Rule.weight_lt_of_shorter _ _ Left.head.shorter

/-- The calls made by what follows a condition. -/
def branchesCalls (ts : List Token) : List Call :=
  statementCalls ts ++ (statement ts).behind fun _ rest left =>
    match rest, left with
    | [], _ => []
    | t :: more, _left => if t.kind = .elseWord then statementCalls more else []
termination_by Rule.branches.weight ts
decreasing_by
  · exact Rule.weight_lt_of_tighter (by decide) ts
  · exact Rule.weight_lt_of_shorter _ _ _left.tail.shorter

/-- The calls made by a declaration, itself the last of them. -/
def declarationCalls (t : Token) (rest : List Token) (ht : t.kind ≠ .eof) : List Call :=
  (if t.kind = .varWord then (variableDeclarationCalls rest).map .assignment
    else statementCalls (t :: rest)) ++ (declaration t rest ht).call
termination_by Rule.declaration.weight (t :: rest)
decreasing_by exact Rule.weight_lt_of_tighter (by decide) (t :: rest)

/-- The calls made by a block behind its brace. -/
def blockCalls (ts : List Token) : List Call :=
  match ts with
  | [] => []
  | t :: rest =>
    if t.kind = .rightBrace then []
    else if ht : t.kind = .eof then []
    else declarationCalls t rest ht ++
      (declaration t rest ht).behind fun more _left => blockCalls more
termination_by Rule.block.weight ts
decreasing_by
  · exact Rule.weight_lt_of_tighter (by decide) (t :: rest)
  · exact Rule.weight_lt_of_shorter _ _ _left.shorter

end

/-- The calls made in reading a whole token list. -/
def parseCalls (ts : List Token) : List Call :=
  match ts with
  | [] => []
  | t :: rest =>
    if ht : t.kind = .eof then []
    else declarationCalls t rest ht ++
      (declaration t rest ht).behind fun more _left => parseCalls more
termination_by ts.length
decreasing_by exact _left.shorter

end Treewalk
