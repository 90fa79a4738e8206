import Treewalk.Tree
import Treewalk.Tree.Step

/-!
# The grammar

From loosest to tightest:

    program     -> declaration* EOF
    declaration -> "var" IDENTIFIER ( "=" expression )? ";" | statement
    statement   -> expression ";" | "print" expression ";" | block
                 | "if" "(" expression ")" statement ( "else" statement )?
                 | "while" "(" expression ")" statement
                 | "for" "(" ( variable | expression ";" | ";" )
                   expression? ";" expression? ")" statement
    block       -> "\x7b" declaration* "\x7d"
    expression  -> chain ( "=" expression )?
    chain       -> operands joined by the operators of one level, grouped
                   to the left, the levels being `or`, `and`, equality,
                   comparison, sum and product
    unary       -> ( "!" | "-" ) unary | primary
    primary     -> NUMBER | STRING | "false" | "true" | "nil"
                 | IDENTIFIER | "(" expression ")"

Each function reads one rule from the front of a token list. A rule calls
another one on a shorter list, or a tighter one on the same list, so the
calls get lighter and lighter (`Rule.weight`). `for` has no form of its own:
it is spelled with a block and a loop.
-/

namespace Treewalk

/-- A level of binary operators, from loosest to tightest. -/
inductive Level where
  | disjunction
  | conjunction
  | equality
  | comparison
  | sum
  | product
deriving DecidableEq, Repr

namespace Level

/-- The operators of a level. -/
def operators : Level → List Kind
  | disjunction => [.orWord]
  | conjunction => [.andWord]
  | equality => [.bangEqual, .equalEqual]
  | comparison => [.greater, .greaterEqual, .less, .lessEqual]
  | sum => [.minus, .plus]
  | product => [.slash, .star]

/-- The form two operands of a level are joined to. -/
def build : Level → Expr → Token → Expr → Expr
  | disjunction | conjunction => .logical
  | equality | comparison | sum | product => .binary

/-- The next level, which binds tighter; behind the last there is none. -/
def tighter? : Level → Option Level
  | disjunction => some conjunction
  | conjunction => some equality
  | equality => some comparison
  | comparison => some sum
  | sum => some product
  | product => none

/-- How many levels are as tight as this one or tighter. -/
def height : Option Level → Nat
  | none => 0
  | some disjunction => 6
  | some conjunction => 5
  | some equality => 4
  | some comparison => 3
  | some sum => 2
  | some product => 1

theorem height_le (level? : Option Level) : height level? ≤ 6 := by
  cases level? with
  | none => decide
  | some level => cases level <;> decide

theorem height_tighter (level : Level) : height level.tighter? < height (some level) := by
  cases level <;> decide

end Level

/-- The rules that call each other. -/
inductive Rule where
  | expression
  | chain (level? : Option Level)
  | operands
  | unary
  | statement
  | branches
  | declaration
  | block

namespace Rule

/-- How many rules can be passed from this one on before a token is used
up. -/
def height : Rule → Nat
  | expression => 8
  | chain level? => Level.height level? + 1
  | operands | unary | statement => 0
  | branches | declaration => 1
  | block => 2

/-- What a rule in front of a list weighs: a token weighs more than all the
rules that can be passed on the way to it. -/
def weight (rule : Rule) (ts : List Token) : Nat :=
  10 * ts.length + rule.height

theorem height_lt (rule : Rule) : rule.height < 10 := by
  cases rule with
  | chain level? =>
    have := Level.height_le level?
    simp only [height]
    omega
  | _ => decide

theorem height_tighter (level : Level) :
    (chain level.tighter?).height < (chain (some level)).height :=
  Nat.succ_lt_succ level.height_tighter

theorem weight_lt_of_shorter (rule other : Rule) {ts rest : List Token}
    (h : rest.length < ts.length) : other.weight rest < rule.weight ts := by
  have := other.height_lt
  simp only [weight]
  omega

theorem weight_lt_of_tighter {rule other : Rule} (h : other.height < rule.height)
    (ts : List Token) : other.weight ts < rule.weight ts :=
  Nat.add_lt_add_left h _

end Rule

/-- An assignment to `target`, if it can be assigned to; otherwise the
target alone, with a complaint about the sign. -/
def assignTo (target : Expr) (equals : Token) (value : Expr) : Expr × List Complaint :=
  match target with
  | .variable name => (.assign name value, [])
  | _ => (target, [⟨equals, .assignmentTarget⟩])

mutual

/-- An expression: an assignment or what stands on its left. -/
def expression (ts : List Token) : Step ts Expr :=
  (chain (some .disjunction) ts).andThen fun target rest left =>
    match rest, left with
    | [], _ => .overrun []
    | equals :: more, left =>
      if equals.kind = .equal then
        ((expression more).within left.tail).andThen fun value rest left =>
          let (result, notes) := assignTo target equals value
          .done result rest left notes
      else .done target (equals :: more) left []
termination_by Rule.expression.weight ts
decreasing_by
  · exact Rule.weight_lt_of_tighter (by decide) ts
  · exact Rule.weight_lt_of_shorter _ _ left.tail.shorter

/-- Operands joined by the operators of a level or a tighter one; where
there is no level left, a unary expression. -/
def chain (level? : Option Level) (ts : List Token) : Step ts Expr :=
  match level? with
  | none => unary ts
  | some level =>
    (chain level.tighter? ts).andThen fun first rest left => operands level first rest left
termination_by (Rule.chain level?).weight ts
decreasing_by
  · exact Rule.weight_lt_of_tighter (by decide) ts
  · exact Rule.weight_lt_of_tighter (Rule.height_tighter level) ts
  · exact Rule.weight_lt_of_shorter _ _ left.shorter

/-- The operators and operands behind a first operand. -/
def operands {origin : List Token} (level : Level) (first : Expr) (ts : List Token)
    (left : Left origin ts) : Step origin Expr :=
  match ts, left with
  | [], _ => .overrun []
  | operator :: rest, left =>
    if operator.kind ∈ level.operators then
      match chain level.tighter? rest with
      | .done second more used notes =>
        (operands level (level.build first operator second) more
          (left.tail.trans used)).noting notes
      | .failed why more kept notes => .failed why more (kept.trans left.tail.suffix) notes
      | .overrun notes => .overrun notes
    else .done first (operator :: rest) left []
termination_by Rule.operands.weight ts
decreasing_by
  · exact Rule.weight_lt_of_shorter _ _ Left.head.shorter
  · exact Rule.weight_lt_of_shorter _ _ (Left.head.trans used).shorter

/-- A sign and its operand, or a primary expression. -/
def unary (ts : List Token) : Step ts Expr :=
  match ts with
  | [] => .overrun []
  | t :: rest =>
    match t.kind with
    | .bang | .minus => ((unary rest).within .head).map (.unary t)
    | .falseWord => .done (.literal (.bool false)) rest .head []
    | .trueWord => .done (.literal (.bool true)) rest .head []
    | .nilWord => .done (.literal .nil) rest .head []
    | .number | .string => .done (.literal t.literal) rest .head []
    | .identifier => .done (.variable t) rest .head []
    | .leftParen =>
      ((expression rest).within .head).andThen fun inner more left =>
        ((expect .rightParen .parenAfterExpression more).within left).map fun _ => .grouping inner
    | _ => .failed ⟨t, .expression⟩ (t :: rest) List.suffix_rfl []
termination_by Rule.unary.weight ts
decreasing_by
  all_goals exact Rule.weight_lt_of_shorter _ _ Left.head.shorter

end

/-! ## Statements that hold no statement -/

/-- An expression and the token that must follow it. -/
def expressionThen (kind : Kind) (reason : Reason) (ts : List Token) : Step ts Expr :=
  (expression ts).andThen fun e rest left =>
    ((expect kind reason rest).within left).map fun _ => e

/-- An expression before a token, or that token alone. -/
def expressionOr (kind : Kind) (reason : Reason) (ts : List Token) : Step ts (Option Expr) :=
  match ts with
  | [] => .overrun []
  | t :: rest =>
    if t.kind = kind then .done none rest .head []
    else (expressionThen kind reason (t :: rest)).map some

/-- A parenthesised condition. -/
def condition (opening closing : Reason) (ts : List Token) : Step ts Expr :=
  (expect .leftParen opening ts).andThen fun _ rest left =>
    (expressionThen .rightParen closing rest).within left

/-- A variable declaration behind its word. -/
def variableDeclaration (ts : List Token) : Step ts Stmt :=
  (expect .identifier .variableName ts).andThen fun name rest left =>
    match rest, left with
    | [], _ => .overrun []
    | t :: more, left =>
      if t.kind = .equal then
        ((expressionThen .semicolon .semicolonAfterVariable more).within left.tail).map
          fun e => .var name (some e)
      else
        ((expect .semicolon .semicolonAfterVariable (t :: more)).within left).map
          fun _ => .var name none

/-- An expression that is a statement. -/
def expressionStatement (ts : List Token) : Step ts Stmt :=
  (expressionThen .semicolon .semicolonAfterExpression ts).map .expression

/-- The first clause of a `for`: a declaration, an expression or nothing. -/
def forInitializer (ts : List Token) : Step ts (Option Stmt) :=
  match ts with
  | [] => .overrun []
  | t :: rest =>
    match t.kind with
    | .semicolon => .done none rest .head []
    | .varWord => ((variableDeclaration rest).within .head).map some
    | _ => (expressionStatement (t :: rest)).map some

/-- The clauses of a `for`. -/
structure Clauses where
  initializer : Option Stmt
  condition : Option Expr
  increment : Option Expr

/-- The clauses of a `for`, from its opening to its closing parenthesis. -/
def forClauses (ts : List Token) : Step ts Clauses :=
  (expect .leftParen .parenAfterFor ts).andThen fun _ rest left =>
  ((forInitializer rest).within left).andThen fun initializer rest left =>
  ((expressionOr .semicolon .semicolonAfterCondition rest).within left).andThen
    fun condition rest left =>
  ((expressionOr .rightParen .parenAfterClauses rest).within left).map
    fun increment => ⟨initializer, condition, increment⟩

/-- A `for` spelled with a block and a loop: the initializer in a block of
its own, the increment behind the body, a missing condition as true. -/
def Clauses.toLoop (clauses : Clauses) (body : Stmt) : Stmt :=
  let body := match clauses.increment with
    | some increment => .block [body, .expression increment]
    | none => body
  let loop := Stmt.loop (clauses.condition.getD (.literal (.bool true))) body
  match clauses.initializer with
  | some initializer => .block [initializer, loop]
  | none => loop

/-! ## Statements -/

mutual

/-- A statement. -/
def statement (ts : List Token) : Step ts Stmt :=
  match ts with
  | [] => .overrun []
  | t :: rest =>
    match t.kind with
    | .forWord =>
      ((forClauses rest).within .head).andThen fun clauses more left =>
        ((statement more).within left).map clauses.toLoop
    | .ifWord =>
      ((condition .parenAfterIf .parenAfterIfCondition rest).within .head).andThen
        fun test more left => ((branches test more).within left)
    | .printWord =>
      ((expressionThen .semicolon .semicolonAfterValue rest).within .head).map .print
    | .whileWord =>
      ((condition .parenAfterWhile .parenAfterCondition rest).within .head).andThen
        fun test more left => ((statement more).within left).map (.loop test)
    | .leftBrace => ((block rest).within .head).map .block
    | _ => expressionStatement (t :: rest)
termination_by Rule.statement.weight ts
decreasing_by
  · exact Rule.weight_lt_of_shorter _ _ left.shorter
  · exact Rule.weight_lt_of_shorter _ _ left.shorter
  · exact Rule.weight_lt_of_shorter _ _ left.shorter
  · exact Rule.weight_lt_of_shorter _ _ Left.head.shorter

/-- What follows a condition: a statement, and another one if `else`
stands behind it. -/
def branches (test : Expr) (ts : List Token) : Step ts Stmt :=
  (statement ts).andThen fun consequence rest left =>
    match rest, left with
    | [], _ => .overrun []
    | t :: more, left =>
      if t.kind = .elseWord then
        ((statement more).within left.tail).map fun alternative =>
          .branch test consequence (some alternative)
      else .done (.branch test consequence none) (t :: more) left []
termination_by Rule.branches.weight ts
decreasing_by
  · exact Rule.weight_lt_of_tighter (by decide) ts
  · exact Rule.weight_lt_of_shorter _ _ left.tail.shorter

/-- A declaration that starts at a token other than the end mark. One
that fails is noted, skipped over and answered with none. -/
def declaration (t : Token) (rest : List Token) (ht : t.kind ≠ .eof) :
    Recovered (t :: rest) Stmt :=
  if t.kind = .varWord then ((variableDeclaration rest).within .head).recover ht
  else (statement (t :: rest)).recover ht
termination_by Rule.declaration.weight (t :: rest)
decreasing_by exact Rule.weight_lt_of_tighter (by decide) (t :: rest)

/-- The declarations of a block and its closing brace. A declaration that
failed is left out. -/
def block (ts : List Token) : Step ts (List Stmt) :=
  match ts with
  | [] => .overrun []
  | t :: rest =>
    if t.kind = .rightBrace then .done [] rest .head []
    else if ht : t.kind = .eof then
      .failed ⟨t, .braceAfterBlock⟩ (t :: rest) List.suffix_rfl []
    else
      match declaration t rest ht with
      | .entry value more left notes =>
        (((block more).within left).map (value.toList ++ ·)).noting notes
      | .overrun notes => .overrun notes
termination_by Rule.block.weight ts
decreasing_by
  · exact Rule.weight_lt_of_tighter (by decide) (t :: rest)
  · exact Rule.weight_lt_of_shorter _ _ left.shorter

end

/-- What reading a whole token list yields. -/
inductive Parse where
  /-- The end mark was reached: one entry a declaration, none where it
  failed, and the tokens from the end mark on. -/
  | finished (entries : List (Option Stmt)) (rest : List Token) (notes : List Complaint)
  /-- The list has no end mark. -/
  | overrun (notes : List Complaint)

/-- The declarations up to the end mark. -/
def parse (ts : List Token) : Parse :=
  match ts with
  | [] => .overrun []
  | t :: rest =>
    if ht : t.kind = .eof then .finished [] (t :: rest) []
    else
      match declaration t rest ht with
      | .entry value more _left notes =>
        match parse more with
        | .finished entries last later => .finished (value :: entries) last (notes ++ later)
        | .overrun later => .overrun (notes ++ later)
      | .overrun notes => .overrun notes
termination_by ts.length
decreasing_by exact _left.shorter

namespace Parse

/-- The complaints, in the order they were made. -/
def notes : Parse → List Complaint
  | .finished _ _ notes => notes
  | .overrun notes => notes

/-- The entries of a reading that reached the end mark. -/
def entries : Parse → List (Option Stmt)
  | .finished entries _ _ => entries
  | .overrun _ => []

end Parse

end Treewalk
