import Treewalk.Machine
import Treewalk.Tree

/-!
# Walking a tree

`visit` runs a node. An expression ends with its value; a statement ends
with nil. Either may stand where the other belongs, because a loaded tree
may put it there. Operands are run from left to right, and whether an
operator or a name is a token at all is asked only once they have run.

The walk follows the tree, so only loops need a bound: each may go round
as often as the settings say.
-/

namespace Treewalk

/-! ## Operators -/

/-- The number a value is, where only a number will do. -/
def Value.number? : Value → Option Float
  | .number x => some x
  | _ => none

/-- A unary operator applied. -/
def applyUnary (operator : Token) (right : Value) : Except Misuse Value :=
  match operator.kind with
  | .bang => .ok (.bool !right.truthy)
  | .minus =>
    match right.number? with
    | some x => .ok (.number (-x))
    | none => .error .notANumber
  | _ => .error (.unknownUnary operator.lexeme)

/-- An operator on two numbers applied. -/
def applyNumeric (operator : Token) (x y : Float) : Except Misuse Value :=
  match operator.kind with
  | .minus => .ok (.number (x - y))
  | .star => .ok (.number (x * y))
  | .slash => .ok (.number (x / y))
  | .greater => .ok (.bool (y < x))
  | .greaterEqual => .ok (.bool (y ≤ x))
  | .less => .ok (.bool (x < y))
  | .lessEqual => .ok (.bool (x ≤ y))
  | _ => .error (.unknownBinary operator.lexeme)

/-- A binary operator applied. Sums and the two equalities look at the
operands themselves; any other operator wants two numbers, and only then
is it asked which one it is. -/
def applyBinary (operator : Token) (left right : Value) : Except Misuse Value :=
  match operator.kind with
  | .plus =>
    match left, right with
    | .number x, .number y => .ok (.number (x + y))
    | .string s, .string t => .ok (.string (s ++ t))
    | _, _ => .error .notNumbersOrStrings
  | .equalEqual => .ok (.bool (left.equals right))
  | .bangEqual => .ok (.bool !left.equals right)
  | _ =>
    match left.number?, right.number? with
    | some x, some y => applyNumeric operator x y
    | _, _ => .error .notNumbers

/-- An operator's result as the end of a run. -/
def Run.ofResult (operator : Token) : Except Misuse Value → Run Value
  | .ok v => .done v
  | .error what => .halt (.ofMisuse operator what)

/-! ## Trace lines -/

/-- The token a node is. -/
def Node.token? : Node → Option Token
  | .token t => some t
  | _ => none

/-- The line of the token a node is. -/
def Node.ownLine (n : Node) : Except Halt Json :=
  match n.token? with
  | some t => .ok t.line
  | none => .error .fault

/-- The line of an expression, null where no token tells it. A tree may be
malformed just where the line is looked for. -/
def Node.line : Node → Except Halt Json
  | .binary _ operator _ => operator.ownLine
  | .logical _ operator _ => operator.ownLine
  | .unary operator _ => operator.ownLine
  | .variable name => name.ownLine
  | .assign name _ => name.ownLine
  | .grouping inner => inner.line
  | _ => .ok .null

/-- A definition in the trace. -/
def defineLine (name : Token) (v : Value) (depth : Nat) : Except Halt Text := do
  let lexeme ← spelled name.lexeme.text?
  let value ← spelled v.text?
  return "define " ++ lexeme ++ ": " ++ v.kindName ++ " = " ++ value
    ++ " (depth " ++ toString depth ++ ")"

/-- An assignment in the trace. -/
def assignLine (name : Token) (v : Value) : Except Halt Text := do
  let lexeme ← spelled name.lexeme.text?
  let value ← spelled v.text?
  return "assign " ++ lexeme ++ " = " ++ value

/-- A choice in the trace. -/
def branchLine (condition : Node) (taken : Bool) : Except Halt Text := do
  let line ← spelled (← condition.line).text?
  return "if condition at line " ++ line ++ " -> " ++ (if taken then "True" else "False")

/-- A finished loop in the trace. -/
def loopLine (condition : Node) (count : Nat) : Except Halt Text := do
  let line ← spelled (← condition.line).text?
  return "while loop at line " ++ line ++ " ran " ++ toString count ++ " time(s)"

/-- A run-time error in the trace, if it has a text. -/
def failureLine (t : Token) (what : Misuse) : Option Text := do
  let line ← t.line.text?
  let wording ← what.text?
  return "runtime error at line " ++ line ++ ": " ++ wording

/-! ## The walk -/

mutual

/-- Run a node. -/
def visit (settings : Settings) : Node → Run Value
  | .absent | .token _ | .list _ => .halt .fault
  | .literal value => .done value
  | .grouping inner => visit settings inner
  | .variable name => do
    Run.lookup (← Run.required name.token?)
  | .assign name value => do
    let v ← visit settings value
    let name ← Run.required name.token?
    Run.assign name v
    Run.trace settings 2 (assignLine name v)
    return v
  | .logical left operator right => do
    let a ← visit settings left
    let operator ← Run.required operator.token?
    if a.truthy = decide (operator.kind = .orWord) then return a else visit settings right
  | .unary operator right => do
    let b ← visit settings right
    let operator ← Run.required operator.token?
    Run.ofResult operator (applyUnary operator b)
  | .binary left operator right => do
    let a ← visit settings left
    let b ← visit settings right
    let operator ← Run.required operator.token?
    Run.ofResult operator (applyBinary operator a b)
  | .expression inner => do
    let _ ← visit settings inner
    return .nil
  | .print inner => do
    let v ← visit settings inner
    Run.print v
    return .nil
  | .var name .absent => do
    let name ← Run.required name.token?
    Run.define name .nil
    Run.trace settings 2 (defineLine name .nil (← Run.depth))
    return .nil
  | .var name initializer => do
    let v ← visit settings initializer
    let name ← Run.required name.token?
    Run.define name v
    Run.trace settings 2 (defineLine name v (← Run.depth))
    return .nil
  | .block statements => do
    Run.inFrame (visitAll settings statements)
    return .nil
  | .branch condition consequence alternative => do
    let v ← visit settings condition
    Run.trace settings 3 (branchLine condition v.truthy)
    if v.truthy then
      let _ ← visit settings consequence
      return .nil
    else
      match alternative with
      | .absent => return .nil
      | alternative => do
        let _ ← visit settings alternative
        return .nil
  | .loop condition body => do
    let test : Run Bool := do
      let v ← visit settings condition
      return v.truthy
    let once : Run Unit := do
      let _ ← visit settings body
      return ()
    let count ← Run.repeatWhile test once settings.rounds 0
    Run.trace settings 3 (loopLine condition count)
    return .nil

/-- Run the nodes of a list one after the other. -/
def visitAll (settings : Settings) : List Node → Run Unit
  | [] => .done ()
  | node :: rest => do
    let _ ← visit settings node
    visitAll settings rest

end

end Treewalk
