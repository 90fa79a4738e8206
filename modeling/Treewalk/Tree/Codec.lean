import Treewalk.Tree

/-!
# Trees as JSON

A form is an object with its name under `type` and its parts under their
own names; a token is an object marked by `__type__`; a missing part is
null and a list is a list. Writing is total. Loading looks only at what
it needs, in a fixed order, and stops at the first thing it cannot use;
what it loads may still be malformed.
-/

namespace Treewalk

/-- Why a JSON value is no tree. -/
inductive LoadError where
  /-- Neither null nor a list nor an object stands where a tree must. -/
  | notATree
  /-- The program is no list. -/
  | notAProgram
  /-- The text of what stands under `type`. -/
  | unknownForm (shown : String)
  /-- A field that is not there. -/
  | missing (key : String)
  /-- The text of what stands for a token's kind. -/
  | unknownKind (shown : String)
  /-- What stands for a token is no object. -/
  | notAnObject
  /-- A list or an object stands for a token's kind. -/
  | notAName
  /-- What stands for a block's statements cannot be gone through. -/
  | notIterable
  /-- An integer beyond the largest number. -/
  | tooLarge
  /-- What stands under `type` has no text. -/
  | longInteger
  /-- Plain data of a kind that no tree is written as. -/
  | unsupported (kindName : String)
deriving DecidableEq, Repr

/-- The wording of a refusal, where it has one. -/
def LoadError.message? : LoadError → Option String
  | .notATree => some "Invalid AST object"
  | .notAProgram => some "AST program must be a list of statements"
  | .unknownForm shown => some ("Unknown AST node type: " ++ shown)
  | .missing key => some key
  | .unknownKind shown => some shown
  | .unsupported kindName => some ("Unsupported node for serialization: " ++ kindName)
  | .notAnObject | .notAName | .notIterable | .tooLarge | .longInteger => none

/-! ## Tokens -/

namespace Token

/-- The JSON form of a token. -/
def toJson (t : Token) : Json :=
  .object [("type", .string t.kind.name), ("lexeme", t.lexeme),
    ("literal", t.literal.toJson), ("line", t.line)]

/-- The value of an optional literal. -/
def literalOfJson : Option Json → Except LoadError Value
  | none => .ok .nil
  | some v =>
    match Value.ofJson? v with
    | some value => .ok value
    | none => .error .tooLarge

/-- A field that must be there. -/
def field (fields : List (Text × Json)) (key : String) : Except LoadError Json :=
  match Json.get? fields key with
  | some v => .ok v
  | none => .error (.missing key)

/-- The kind a JSON value names. -/
def kindOfJson (v : Json) : Except LoadError Kind :=
  match v with
  | .string (.whole name) =>
    match Kind.ofName? name with
    | some kind => .ok kind
    | none => .error (.unknownKind name)
  | .list _ | .object _ => .error .notAName
  | v => .error (.unknownKind v.shown)

/-- A token: its literal, its kind, its lexeme and its line, in this
order. -/
def ofJson : Json → Except LoadError Token
  | .object fields => do
    let literal ← literalOfJson (Json.get? fields "literal")
    let kind ← kindOfJson (← field fields "type")
    let lexeme ← field fields "lexeme"
    let line ← field fields "line"
    return ⟨kind, lexeme, literal, line⟩
  | _ => .error .notAnObject

end Token

/-! ## Nodes -/

namespace Node

/-- A form as an object. -/
def formJson (name : String) (parts : List (Text × Json)) : Json :=
  .object (("type", .string name) :: parts)

mutual

/-- The JSON form of a node. -/
def toJson : Node → Json
  | .absent => .null
  | .token t => .object [("__type__", .string "Token"), ("value", t.toJson)]
  | .list items => .list (toJsons items)
  | .binary left operator right =>
    formJson "Binary"
      [("left", left.toJson), ("operator", operator.toJson), ("right", right.toJson)]
  | .grouping inner => formJson "Grouping" [("expression", inner.toJson)]
  | .literal value => formJson "Literal" [("value", value.toJson)]
  | .unary operator right =>
    formJson "Unary" [("operator", operator.toJson), ("right", right.toJson)]
  | .variable name => formJson "Variable" [("name", name.toJson)]
  | .assign name value => formJson "Assign" [("name", name.toJson), ("value", value.toJson)]
  | .logical left operator right =>
    formJson "Logical"
      [("left", left.toJson), ("operator", operator.toJson), ("right", right.toJson)]
  | .expression inner => formJson "Expression" [("expression", inner.toJson)]
  | .print inner => formJson "Print" [("expression", inner.toJson)]
  | .var name initializer =>
    formJson "Var" [("name", name.toJson), ("initializer", initializer.toJson)]
  | .block statements => formJson "Block" [("statements", .list (toJsons statements))]
  | .branch condition consequence alternative =>
    formJson "If" [("condition", condition.toJson), ("then_branch", consequence.toJson),
      ("else_branch", alternative.toJson)]
  | .loop condition body =>
    formJson "While" [("condition", condition.toJson), ("body", body.toJson)]

/-- The JSON forms of a list of nodes. -/
def toJsons : List Node → List Json
  | [] => []
  | node :: rest => node.toJson :: toJsons rest

end

/-- What goes through a text or an object in place of a list: nothing if
it is empty, and otherwise something that is no tree. -/
def noStatements (isEmpty : Bool) : Except LoadError (List Node) :=
  if isEmpty then .ok [] else .error .notATree

mutual

/-- The node a JSON value stands for. -/
def ofJson : Json → Except LoadError Node
  | .null => .ok .absent
  | .list items => do
    let nodes ← ofJsons items
    return .list nodes
  | .object fields =>
    let part (key : String) : Except LoadError Node :=
      match _h : Json.get? fields key with
      | none => .error (.missing key)
      | some v => ofJson v
    let optional (key : String) : Except LoadError Node :=
      match _h : Json.get? fields key with
      | none => .ok .absent
      | some v => ofJson v
    match Json.get? fields "__type__" with
    | some (.string (.whole "Token")) => do
      let t ← Token.ofJson (← Token.field fields "value")
      return .token t
    | _ =>
      match Json.get? fields "type" with
      | some (.string (.whole "Binary")) => do
        return .binary (← part "left") (← part "operator") (← part "right")
      | some (.string (.whole "Grouping")) => do
        return .grouping (← part "expression")
      | some (.string (.whole "Literal")) => do
        return .literal (← Token.literalOfJson (Json.get? fields "value"))
      | some (.string (.whole "Unary")) => do
        return .unary (← part "operator") (← part "right")
      | some (.string (.whole "Variable")) => do
        return .variable (← part "name")
      | some (.string (.whole "Assign")) => do
        return .assign (← part "name") (← part "value")
      | some (.string (.whole "Logical")) => do
        return .logical (← part "left") (← part "operator") (← part "right")
      | some (.string (.whole "Expression")) => do
        return .expression (← part "expression")
      | some (.string (.whole "Print")) => do
        return .print (← part "expression")
      | some (.string (.whole "Var")) => do
        return .var (← part "name") (← optional "initializer")
      | some (.string (.whole "Block")) =>
        match _h : Json.get? fields "statements" with
        | none => .error (.missing "statements")
        | some (.list items) => do
          return .block (← ofJsons items)
        | some (.string s) => do
          return .block (← noStatements s.isEmpty)
        | some (.object inner) => do
          return .block (← noStatements inner.isEmpty)
        | some _ => .error .notIterable
      | some (.string (.whole "If")) => do
        return .branch (← part "condition") (← part "then_branch") (← optional "else_branch")
      | some (.string (.whole "While")) => do
        return .loop (← part "condition") (← part "body")
      | other =>
        match (other.getD .null).text? with
        | some text => .error (.unknownForm text.escaped)
        | none => .error .longInteger
  | _ => .error .notATree
termination_by v => sizeOf v
decreasing_by
  all_goals simp_wf
  · have := Json.sizeOf_get? _h; omega
  · have := Json.sizeOf_get? _h; omega
  · have := Json.sizeOf_get? _h
    simp only [Json.list.sizeOf_spec] at this
    omega

/-- The nodes a list of JSON values stands for. -/
def ofJsons : List Json → Except LoadError (List Node)
  | [] => .ok []
  | v :: rest => do
    let node ← ofJson v
    let nodes ← ofJsons rest
    return node :: nodes
termination_by vs => sizeOf vs

end

/-- A program: the list of its entries. -/
def programOfJson : Json → Except LoadError (List Node)
  | .list items => ofJsons items
  | _ => .error .notAProgram

/-- The JSON form of a program. -/
def programToJson (program : List Node) : Json :=
  .list (toJsons program)

mutual

/-- Plain data written as a tree: only null and lists can be. -/
def ofData : Json → Except LoadError Node
  | .null => .ok .absent
  | .list items => do
    let nodes ← ofDataList items
    return .list nodes
  | .bool _ => .error (.unsupported "bool")
  | .int _ | .long _ => .error (.unsupported "int")
  | .float _ => .error (.unsupported "float")
  | .string _ => .error (.unsupported "str")
  | .object _ => .error (.unsupported "dict")

/-- A list of plain data written as trees. -/
def ofDataList : List Json → Except LoadError (List Node)
  | [] => .ok []
  | v :: rest => do
    let node ← ofData v
    let nodes ← ofDataList rest
    return node :: nodes

end

end Node

end Treewalk
